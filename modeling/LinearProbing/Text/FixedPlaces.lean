/-!
# Decimals with a fixed number of places

Every finite binary64 is a whole number of units of `2 ^ -1074`.  `decimal`
scales that exact number to the wanted places and rounds it once, a half
going to the even neighbour.
-/

namespace LinearProbing.FixedPlaces

def roundHalfEven (numerator denominator : Nat) : Nat :=
  let quotient := numerator / denominator
  let twice := 2 * (numerator % denominator)
  if twice < denominator then quotient
  else if denominator < twice then quotient + 1
  else quotient + quotient % 2

/-- The units in a finite number that is not negative. -/
def unitsOfBits (bits : Nat) : Nat :=
  let fraction := bits % (1 <<< 52)
  let exponent := (bits >>> 52) % (1 <<< 11)
  if exponent = 0 then fraction
  else ((1 <<< 52) + fraction) <<< (exponent - 1)

def one : Nat :=
  1 <<< 1074

/-- The number with so many zeros behind it. -/
def scale : Nat → Nat → Nat
  | 0, n => n
  | places + 1, n => 10 * scale places n

/-- The number before its last `places` decimal digits, and those digits. -/
def split : Nat → Nat → Nat × List Char
  | 0, n => (n, [])
  | places + 1, n =>
      let (whole, digits) := split places (n / 10)
      (whole, digits ++ [Char.ofNat ('0'.toNat + n % 10)])

def pointed (places n : Nat) : String :=
  let (whole, digits) := split places n
  toString whole ++ "." ++ String.ofList digits

/-- For finite numbers that are not negative. -/
def decimal (places : Nat) (x : Float) : String :=
  pointed places
    (roundHalfEven (scale places (unitsOfBits x.toBits.toNat)) one)

end LinearProbing.FixedPlaces
