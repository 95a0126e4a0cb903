/-!
# Bars of block characters

A bar shows a count against the largest count of a chart.  Its length is
measured in eighths of a character and rounded up, so that the largest count
fills the whole width and no other count but zero leaves its line blank.
-/

namespace LinearProbing.Bar

/-- Width of the longest bar, in characters. -/
def width : Nat :=
  60

/-- `width * 8 * count / largest`, rounded up. -/
def eighths (largest count : Nat) : Nat :=
  (count * (width * 8) + (largest - 1)) / largest

def full : Char :=
  '█'

/-- The last character of a bar, of which so many eighths are filled. -/
def tip? : Nat → Option Char
  | 1 => some '▏'
  | 2 => some '▎'
  | 3 => some '▍'
  | 4 => some '▌'
  | 5 => some '▋'
  | 6 => some '▊'
  | 7 => some '▉'
  | _ => none

def blocks (units : Nat) : List Char :=
  List.replicate (units / 8) full ++ (tip? (units % 8)).toList

def render (largest count : Nat) : String :=
  String.ofList (blocks (eighths largest count))

end LinearProbing.Bar
