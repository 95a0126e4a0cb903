import LinearProbing.Proofs.BarCharts
import LinearProbing.Text.FixedPlaces
import Mathlib.Tactic.Ring

/-!
# Lines read back

The row of a bin shows its distance in front of an upright stroke, a bar, and
its count in parentheses.  No digit stands in a bar and no such mark in a
number, so both numbers can be read off the text, and the rows of a chart
give its bins away (`Histogram.ofRows_rows`).

The last digit of a decimal is rounded: the decimal is the one nearest to its
number, and of two that are as near the one with an even digit.
-/

namespace LinearProbing

/-! ## Numbers in a text -/

namespace Numeral

/-- The number that the digits of a text spell. -/
def spelled (text : List Char) : Nat :=
  Nat.ofDigitChars 10 (text.filter Char.isDigit) 0

theorem ne_of_mem_toString {n : Nat} {glyph mark : Char}
    (hmem : glyph ∈ (toString n).toList) (hmark : mark.isDigit = false) :
    glyph ≠ mark := by
  rintro rfl
  rw [Bar.isDigit_of_mem_toString hmem] at hmark
  exact nomatch hmark

theorem filter_isDigit_eq_nil {text : List Char}
    (hnone : ∀ glyph ∈ text, glyph.isDigit = false) :
    text.filter Char.isDigit = [] := by
  rw [List.filter_eq_nil_iff]
  intro glyph hmem
  rw [hnone glyph hmem]
  exact Bool.false_ne_true

theorem spelled_toString {before after : List Char} (n : Nat)
    (hbefore : ∀ glyph ∈ before, glyph.isDigit = false)
    (hafter : ∀ glyph ∈ after, glyph.isDigit = false) :
    spelled (before ++ (toString n).toList ++ after) = n := by
  have hdigits : (toString n).toList.filter Char.isDigit =
      Nat.toDigits 10 n := by
    rw [List.filter_eq_self.mpr fun _ => Bar.isDigit_of_mem_toString]
    exact Nat.toList_repr
  rw [spelled, List.filter_append, List.filter_append,
    filter_isDigit_eq_nil hbefore, filter_isDigit_eq_nil hafter, hdigits,
    List.nil_append, List.append_nil, Nat.ofDigitChars_ten_toDigits]

theorem eq_of_toString_eq {m n : Nat} (htext : toString m = toString n) :
    m = n := by
  have hread : ∀ n : Nat, spelled ([] ++ (toString n).toList ++ []) = n :=
    fun n => spelled_toString n nofun nofun
  rw [← hread m, htext, hread n]

theorem toString_eq_toString_iff {shown : Int} {n : Nat} :
    toString shown = toString n ↔ shown = n := by
  constructor
  · intro htext
    cases shown with
    | ofNat m => exact congrArg Int.ofNat (eq_of_toString_eq htext)
    | negSucc m =>
        -- no digit is a minus sign
        have hminus : '-' ∈ (toString n).toList := by
          rw [← htext]
          change '-' ∈ ("-" ++ toString (m + 1)).toList
          rw [String.toList_append]
          exact List.mem_append_left _ List.mem_cons_self
        exact absurd rfl (ne_of_mem_toString hminus rfl)
  · rintro rfl
    rfl

end Numeral

/-! ## Rows of a chart -/

namespace Histogram

open Numeral (spelled spelled_toString ne_of_mem_toString)

variable {histogram : Histogram} {distance bin : Nat} {bar : String}

def readDistance (row : String) : Nat :=
  spelled (row.toList.takeWhile (· ≠ '|'))

def readCount (row : String) : Nat :=
  spelled (row.toList.dropWhile (· ≠ '('))

/-- The histogram that rows were drawn from, if their distances count up from
zero. -/
def ofRows (rows : List String) : Histogram :=
  ⟨rows.map readCount⟩

theorem toList_row (distance : Nat) (bar : String) (bin : Nat) :
    (row distance bar bin).toList =
      (toString distance).toList.leftpad 3 ' ' ++ " | ".toList ++
        bar.toList ++ (" (".toList ++ (toString bin).toList ++ [')']) := by
  have hcount : (s!" ({bin})").toList =
      " (".toList ++ (toString bin).toList ++ [')'] := by
    change (" (" ++ toString bin ++ ")").toList = _
    rw [String.toList_append, String.toList_append]
    rfl
  rw [row, String.toList_append, String.toList_append, String.toList_append,
    String.toList_ofList, hcount]

theorem readDistance_row (distance : Nat) (bar : String) (bin : Nat) :
    readDistance (row distance bar bin) = distance := by
  have hstart : " | ".toList = [' '] ++ '|' :: [' '] := rfl
  have hbefore : ∀ glyph ∈
      (toString distance).toList.leftpad 3 ' ' ++ [' '],
      decide (glyph ≠ '|') = true := by
    intro glyph hmem
    rw [decide_eq_true_eq]
    rcases List.mem_append.mp hmem with hleft | hblank
    · rcases List.mem_append.mp hleft with hblank | hdigit
      · rw [List.eq_of_mem_replicate hblank]
        decide
      · exact ne_of_mem_toString hdigit (by decide)
    · rw [List.mem_singleton.mp hblank]
      decide
  have htext : (row distance bar bin).toList =
      ((toString distance).toList.leftpad 3 ' ' ++ [' ']) ++
        '|' :: ([' '] ++ bar.toList ++
          (" (".toList ++ (toString bin).toList ++ [')'])) := by
    rw [toList_row, hstart]
    simp only [List.append_assoc, List.cons_append, List.nil_append]
  rw [readDistance, htext, List.takeWhile_append_of_pos hbefore,
    List.takeWhile_cons_of_neg (by decide), List.append_nil, List.leftpad]
  apply spelled_toString
  · intro glyph hmem
    rw [List.eq_of_mem_replicate hmem]
    rfl
  · exact List.forall_mem_singleton.mpr rfl

theorem readCount_row (distance bin : Nat) (hbar : '(' ∉ bar.toList) :
    readCount (row distance bar bin) = bin := by
  have hstart : " (".toList = [' '] ++ ['('] := rfl
  have hstrokes : ∀ glyph ∈ " | ".toList, glyph ≠ '(' := by simp
  have hbefore : ∀ glyph ∈
      (toString distance).toList.leftpad 3 ' ' ++ " | ".toList ++
        bar.toList ++ [' '],
      decide (glyph ≠ '(') = true := by
    intro glyph hmem
    rw [decide_eq_true_eq]
    simp only [List.mem_append, List.leftpad] at hmem
    rcases hmem with (((hblank | hdigit) | hstroke) | hdrawn) | hblank
    · rw [List.eq_of_mem_replicate hblank]
      decide
    · exact ne_of_mem_toString hdigit (by decide)
    · exact hstrokes glyph hstroke
    · exact fun heq => hbar (heq ▸ hdrawn)
    · rw [List.mem_singleton.mp hblank]
      decide
  have htext : (row distance bar bin).toList =
      ((toString distance).toList.leftpad 3 ' ' ++ " | ".toList ++
        bar.toList ++ [' ']) ++
          '(' :: ([] ++ (toString bin).toList ++ [')']) := by
    rw [toList_row, hstart]
    simp only [List.append_assoc, List.cons_append, List.nil_append]
  rw [readCount, htext, List.dropWhile_append_of_pos hbefore,
    List.dropWhile_cons_of_neg (by decide)]
  change spelled (['('] ++ (toString bin).toList ++ [')']) = bin
  exact spelled_toString bin (List.forall_mem_singleton.mpr rfl)
    (List.forall_mem_singleton.mpr rfl)

/-- The rows of all bins, in the order of the bins. -/
def rows (histogram : Histogram) : List String :=
  histogram.byDistance.map fun (distance, bin) =>
    line histogram.largestBin distance bin

theorem readCount_line (largest distance bin : Nat) :
    readCount (line largest distance bin) = bin := by
  rw [line_eq_row]
  apply readCount_row
  intro hmem
  rw [Bar.render, String.toList_ofList] at hmem
  exact absurd (Bar.isSome_fill?_of_mem_blocks hmem) (by decide)

theorem map_readCount_rows (histogram : Histogram) :
    histogram.rows.map readCount = histogram.bins := by
  calc
    histogram.rows.map readCount = histogram.byDistance.map Prod.snd := by
      rw [rows, List.map_map]
      apply List.map_congr_left
      rintro ⟨distance, bin⟩ -
      rw [Function.comp_apply]
      exact readCount_line _ distance bin
    _ = histogram.bins.zipIdx.map Prod.fst := by
      rw [byDistance, List.map_map]
      rfl
    _ = histogram.bins := List.zipIdx_map_fst 0 histogram.bins

theorem map_readDistance_rows (histogram : Histogram) :
    histogram.rows.map readDistance = List.range histogram.rows.length := by
  calc
    histogram.rows.map readDistance = histogram.byDistance.map Prod.fst := by
      rw [rows, List.map_map]
      apply List.map_congr_left
      rintro ⟨distance, bin⟩ -
      rw [Function.comp_apply]
      exact readDistance_row distance _ bin
    _ = histogram.bins.zipIdx.map Prod.snd := by
      rw [byDistance, List.map_map]
      rfl
    _ = List.range histogram.rows.length := by
      rw [List.zipIdx_map_snd, rows, byDistance, List.length_map,
        List.length_map, List.length_zipIdx, List.range_eq_range']

theorem ofRows_rows (histogram : Histogram) :
    ofRows histogram.rows = histogram := by
  rw [ofRows, map_readCount_rows]

theorem lines_eq_rows (histogram : Histogram) :
    histogram.lines =
      if histogram.total = 0 then ["probe histogram: empty"]
      else s!"probe histogram ({histogram.total} entries):" ::
        histogram.rows := by
  by_cases hnone : histogram.total = 0
  · rw [if_pos hnone, lines_eq_blank_iff]
    rwa [total, ← List.sum_eq_foldr, List.sum_eq_zero_iff] at hnone
  · have hpos : 0 < histogram.largestBin := by
      rw [Nat.pos_iff_ne_zero, ne_eq, largestBin_eq_zero_iff,
        ← List.sum_eq_zero_iff, List.sum_eq_foldr]
      exact hnone
    rw [if_neg hnone, lines_of_pos hpos, List.sum_eq_foldr]
    rfl

/-- What is read off the rows of a chart that counts so many entries. -/
structure Tallies (counted : Nat) (rows : List String) : Prop where
  distances_eq : rows.map readDistance = List.range rows.length
  sum_counts : (rows.map readCount).sum = counted
  trimmed : Trimmed (rows.map readCount)
  drawn :
    ∀ text ∈ rows, ∃ bar : String,
      text = row (readDistance text) bar (readCount text) ∧
        Bar.read? bar.toList =
          some ((480 * readCount text) ⌈/⌉ (ofRows rows).largestBin)

theorem tallies (htrimmed : Trimmed histogram.bins) :
    Tallies histogram.total histogram.rows := by
  constructor
  · exact histogram.map_readDistance_rows
  · rw [map_readCount_rows, List.sum_eq_foldr, total]
  · rwa [map_readCount_rows]
  · intro text hmem
    rw [ofRows_rows]
    obtain ⟨⟨distance, bin⟩, hbin, rfl⟩ := List.mem_map.mp hmem
    have hne : histogram.bins ≠ [] :=
      List.ne_nil_of_mem (mem_bins_of_mem_byDistance hbin)
    have hlargest : 0 < histogram.largestBin := by
      refine (Nat.pos_of_ne_zero (htrimmed.getD_last hne)).trans_le ?_
      rw [List.getD_eq_getElem _ _ (by simp [List.length_pos_iff, hne])]
      exact le_largestBin (List.getElem_mem _)
    dsimp only
    rw [readCount_line, line_eq_row, readDistance_row]
    exact ⟨_, rfl, Bar.read?_render hlargest bin⟩

end Histogram

/-! ## Rounded decimals -/

namespace FixedPlaces

variable {numerator denominator : Nat}

/-- Of the whole numbers one that is nearest to a quotient, and an even one if
there are two. -/
structure Nearest (numerator denominator n : Nat) : Prop where
  ge : 2 * numerator ≤ (2 * n + 1) * denominator
  le : 2 * n * denominator ≤ 2 * numerator + denominator
  even_of_half :
    2 * numerator = (2 * n + 1) * denominator ∨
      2 * n * denominator = 2 * numerator + denominator → n % 2 = 0

theorem nearest_roundHalfEven (hpos : 0 < denominator) (numerator : Nat) :
    Nearest numerator denominator (roundHalfEven numerator denominator) := by
  have hparts := Nat.div_add_mod numerator denominator
  have hrest := Nat.mod_lt numerator hpos
  rw [Nat.mul_comm] at hparts
  unfold roundHalfEven
  dsimp only
  generalize numerator / denominator = quotient at hparts ⊢
  generalize numerator % denominator = rest at hparts hrest ⊢
  have hodd : (2 * quotient + 1) * denominator =
      2 * (quotient * denominator) + denominator := by ring
  have heven : 2 * quotient * denominator =
      2 * (quotient * denominator) := by ring
  have hodd' : (2 * (quotient + 1) + 1) * denominator =
      2 * (quotient * denominator) + 3 * denominator := by ring
  have heven' : 2 * (quotient + 1) * denominator =
      2 * (quotient * denominator) + 2 * denominator := by ring
  by_cases hless : 2 * rest < denominator
  · rw [if_pos hless]
    constructor <;> omega
  · rw [if_neg hless]
    by_cases hmore : denominator < 2 * rest
    · rw [if_pos hmore]
      constructor <;> omega
    · rw [if_neg hmore]
      rcases Nat.mod_two_eq_zero_or_one quotient with hq | hq
      · rw [hq, Nat.add_zero]
        constructor <;> omega
      · rw [hq]
        constructor <;> omega

theorem scale_eq (places n : Nat) : scale places n = 10 ^ places * n := by
  induction places with
  | zero => rw [scale, Nat.pow_zero, Nat.one_mul]
  | succ places ih => rw [scale, ih, Nat.pow_succ', Nat.mul_assoc]

/-- The number of so many decimal places that a finite number is printed as,
without its point. -/
def Shows (places : Nat) (x : Float) (n : Nat) : Prop :=
  Nearest (10 ^ places * unitsOfBits x.toBits.toNat) one n

def rounded (places : Nat) (x : Float) : Nat :=
  roundHalfEven (scale places (unitsOfBits x.toBits.toNat)) one

theorem shows_rounded (places : Nat) (x : Float) :
    Shows places x (rounded places x) := by
  rw [Shows, ← scale_eq, rounded]
  exact nearest_roundHalfEven (by decide) _

theorem decimal_eq_pointed (places : Nat) (x : Float) :
    decimal places x = pointed places (rounded places x) :=
  rfl

theorem ofList_digit (n : Nat) :
    String.ofList [Char.ofNat ('0'.toNat + n % 10)] = toString (n % 10) := by
  have hall : ∀ digit : Fin 10,
      String.ofList [Char.ofNat ('0'.toNat + digit.val)] =
        toString digit.val := by decide
  exact hall ⟨n % 10, Nat.mod_lt n (by decide)⟩

theorem pointed_two (n : Nat) :
    pointed 2 n = s!"{n / 100}.{n / 10 % 10}{n % 10}" := by
  have hwhole : n / 10 / 10 = n / 100 := Nat.div_div_eq_div_mul n 10 10
  change toString (n / 10 / 10) ++ "." ++
    String.ofList ([Char.ofNat ('0'.toNat + n / 10 % 10)] ++
      [Char.ofNat ('0'.toNat + n % 10)]) = _
  rw [String.ofList_append, ofList_digit, ofList_digit, hwhole,
    ← String.append_assoc]
  rfl

theorem pointed_three (n : Nat) :
    pointed 3 n = s!"{n / 1000}.{n / 100 % 10}{n / 10 % 10}{n % 10}" := by
  have hwhole : n / 10 / 10 / 10 = n / 1000 := by
    rw [Nat.div_div_eq_div_mul, Nat.div_div_eq_div_mul]
  have hfirst : n / 10 / 10 = n / 100 := Nat.div_div_eq_div_mul n 10 10
  change toString (n / 10 / 10 / 10) ++ "." ++
    String.ofList ([Char.ofNat ('0'.toNat + n / 10 / 10 % 10)] ++
      [Char.ofNat ('0'.toNat + n / 10 % 10)] ++
        [Char.ofNat ('0'.toNat + n % 10)]) = _
  rw [String.ofList_append, String.ofList_append, ofList_digit, ofList_digit,
    ofList_digit, hwhole, hfirst, ← String.append_assoc, ← String.append_assoc]
  rfl

end FixedPlaces

end LinearProbing
