import LinearProbing.Text.Bar
import Mathlib.Algebra.Order.Floor.Div
import Mathlib.Data.List.Basic

/-!
# Bars read back

A bar is read back as a number of eighths: eight for each full character, and
fewer for the last one if it is filled in part.  Each number of eighths has
one bar and each bar is read as one number (`read?_eq_some_iff`), so a bar
gives its count away up to the rounding.  The rounding is upwards, which keeps
every count but zero visible and leaves the full width to the largest.

Bars are printed among decimals, and no digit belongs to a bar, so a bar can
be found again in its line.
-/

namespace LinearProbing.Bar

/-! ## Reading a bar -/

variable {units largest count : Nat} {bar : List Char}

/-- How many eighths of a character are filled, if it belongs to a bar. -/
def fill? : Char → Option Nat
  | '▏' => some 1
  | '▎' => some 2
  | '▍' => some 3
  | '▌' => some 4
  | '▋' => some 5
  | '▊' => some 6
  | '▉' => some 7
  | '█' => some 8
  | _ => none

/-- The length of a bar in eighths.  Only its last character may be filled in
part. -/
def read? : List Char → Option Nat
  | [] => some 0
  | glyph :: rest =>
      if glyph = full then (read? rest).map (8 + ·)
      else if rest = [] then fill? glyph
      else none

/-- The characters of a line that belong to a bar. -/
def glyphs (text : String) : List Char :=
  text.toList.filter fun glyph => (fill? glyph).isSome

theorem tip?_of_fill? {glyph : Char} (hpart : glyph ≠ full)
    (hfill : fill? glyph = some units) : tip? units = some glyph := by
  unfold fill? at hfill
  split at hfill
  case h_8 => exact absurd rfl hpart
  case h_9 => exact nomatch hfill
  all_goals
    obtain rfl := Option.some.inj hfill
    rfl

theorem lt_of_tip? {glyph : Char} (htip : tip? units = some glyph) :
    units < 8 := by
  unfold tip? at htip
  split at htip
  case h_8 => exact nomatch htip
  all_goals decide

theorem blocks_of_lt (hpart : units < 8) :
    blocks units = (tip? units).toList := by
  rw [blocks, Nat.div_eq_of_lt hpart, Nat.mod_eq_of_lt hpart,
    List.replicate_zero, List.nil_append]

theorem blocks_add (units : Nat) :
    blocks (8 + units) = full :: blocks units := by
  have hquotient : (8 + units) / 8 = units / 8 + 1 := by omega
  rw [blocks, blocks, hquotient, Nat.add_mod_left, List.replicate_succ,
    List.cons_append]

theorem read?_full_cons (rest : List Char) :
    read? (full :: rest) = (read? rest).map (8 + ·) :=
  if_pos rfl

theorem read?_tip (hpart : units < 8) :
    read? (tip? units).toList = some units := by
  have hall : ∀ units : Fin 8,
      read? (tip? units.val).toList = some units.val := by decide
  exact hall ⟨units, hpart⟩

theorem read?_blocks (units : Nat) : read? (blocks units) = some units := by
  -- each full character takes eight off
  induction units using Nat.strong_induction_on with
  | h units ih =>
      by_cases hpart : units < 8
      · rw [blocks_of_lt hpart, read?_tip hpart]
      · obtain ⟨rest, rfl⟩ := Nat.exists_eq_add_of_le (Nat.le_of_not_lt hpart)
        rw [blocks_add, read?_full_cons, ih rest (by omega), Option.map_some]

theorem eq_blocks_of_read? (hread : read? bar = some units) :
    bar = blocks units := by
  induction bar generalizing units with
  | nil =>
      obtain rfl := Option.some.inj hread
      rfl
  | cons glyph rest ih =>
      by_cases hfull : glyph = full
      · subst hfull
        rw [read?_full_cons, Option.map_eq_some_iff] at hread
        obtain ⟨units, hrest, rfl⟩ := hread
        rw [blocks_add, ← ih hrest]
      · rw [read?, if_neg hfull] at hread
        by_cases hlast : rest = []
        · rw [if_pos hlast] at hread
          have htip := tip?_of_fill? hfull hread
          rw [blocks_of_lt (lt_of_tip? htip), htip, hlast, Option.toList_some]
        · rw [if_neg hlast] at hread
          exact nomatch hread

/-- Each number of eighths is the length of one bar. -/
theorem read?_eq_some_iff : read? bar = some units ↔ bar = blocks units :=
  ⟨eq_blocks_of_read?, fun hbar => hbar ▸ read?_blocks units⟩

theorem isSome_fill?_of_mem_blocks {glyph : Char}
    (hmem : glyph ∈ blocks units) : (fill? glyph).isSome := by
  rcases List.mem_append.mp hmem with hfull | htip
  · rw [List.eq_of_mem_replicate hfull]
    rfl
  · rw [Option.mem_toList] at htip
    unfold tip? at htip
    split at htip
    case h_8 => exact nomatch htip
    all_goals
      obtain rfl := Option.some.inj htip
      rfl

theorem length_blocks_le {size : Nat} (hsize : units ≤ 8 * size) :
    (blocks units).length ≤ size := by
  rw [blocks, List.length_append, List.length_replicate]
  by_cases hdvd : units % 8 = 0
  · have hnone : tip? (units % 8) = none := by
      rw [hdvd]
      rfl
    rw [hnone, Option.toList_none, List.length_nil]
    omega
  · have hone : (tip? (units % 8)).toList.length ≤ 1 := by
      cases tip? (units % 8) <;> simp
    omega

/-! ## How long a bar is drawn -/

theorem eighths_eq_ceilDiv (hlargest : 0 < largest) (count : Nat) :
    eighths largest count = (480 * count) ⌈/⌉ largest := by
  have hsum : count * (width * 8) + (largest - 1) =
      480 * count + largest - 1 := by
    rw [width]
    omega
  rw [eighths, hsum, Nat.ceilDiv_eq_add_pred_div]

theorem read?_render (hlargest : 0 < largest) (count : Nat) :
    read? (render largest count).toList =
      some ((480 * count) ⌈/⌉ largest) := by
  rw [render, String.toList_ofList, read?_blocks,
    eighths_eq_ceilDiv hlargest]

theorem ceilDiv_le_fullWidth (hlargest : 0 < largest)
    (hcount : count ≤ largest) : (480 * count) ⌈/⌉ largest ≤ 480 := by
  rw [ceilDiv_le_iff_le_mul hlargest, Nat.mul_comm largest]
  exact Nat.mul_le_mul_left 480 hcount

theorem render_eq_empty_iff (hlargest : 0 < largest) :
    render largest count = "" ↔ count = 0 := by
  have hblank : eighths largest count = 0 ↔ count = 0 := by
    rw [eighths_eq_ceilDiv hlargest, ← Nat.le_zero,
      ceilDiv_le_iff_le_mul hlargest]
    omega
  rw [render, String.ofList_eq_empty_iff, ← hblank, eq_comm,
    ← read?_eq_some_iff, read?, Option.some.injEq, eq_comm]

theorem length_render_le (hlargest : 0 < largest) (hcount : count ≤ largest) :
    (render largest count).length ≤ 60 := by
  rw [render, String.length_ofList]
  apply length_blocks_le
  rw [eighths_eq_ceilDiv hlargest]
  exact ceilDiv_le_fullWidth hlargest hcount

theorem render_largest (hlargest : 0 < largest) :
    render largest largest = String.ofList (List.replicate 60 '█') := by
  have hwhole : (480 * largest) ⌈/⌉ largest = 480 := by
    rw [Nat.mul_comm]
    exact smul_ceilDiv hlargest 480
  rw [render, eighths_eq_ceilDiv hlargest, hwhole]
  rfl

theorem read?_mono (hlargest : 0 < largest) {less more short long : Nat}
    (hcounts : less ≤ more)
    (hshort : read? (render largest less).toList = some short)
    (hlong : read? (render largest more).toList = some long) :
    short ≤ long := by
  rw [read?_render hlargest, Option.some.injEq] at hshort hlong
  rw [← hshort, ← hlong]
  exact (gc_mul_ceilDiv hlargest).monotone_l (Nat.mul_le_mul_left 480 hcounts)

/-- What can be told of the bars of a chart with this largest count. -/
structure Faithful (largest : Nat) : Prop where
  read_iff :
    ∀ count bar,
      read? bar = some ((480 * count) ⌈/⌉ largest) ↔
        String.ofList bar = render largest count
  empty_iff : ∀ count, render largest count = "" ↔ count = 0
  mono :
    ∀ less more, less ≤ more → ∀ short long,
      read? (render largest less).toList = some short →
        read? (render largest more).toList = some long → short ≤ long
  length_le : ∀ count ≤ largest, (render largest count).length ≤ 60
  longest :
    render largest largest = String.ofList (List.replicate 60 '█')

theorem faithful (hlargest : 0 < largest) : Faithful largest where
  read_iff := by
    intro count bar
    rw [read?_eq_some_iff, render, String.ofList_inj,
      eighths_eq_ceilDiv hlargest]
  empty_iff _ := render_eq_empty_iff hlargest
  mono _ _ hcounts _ _ := read?_mono hlargest hcounts
  length_le _ := length_render_le hlargest
  longest := render_largest hlargest

/-! ## The bar of a line -/

theorem fill?_of_isDigit {glyph : Char} (hdigit : glyph.isDigit = true) :
    fill? glyph = none := by
  unfold fill?
  split
  case h_9 => rfl
  all_goals exact absurd hdigit (by decide)

theorem glyphs_append (left right : String) :
    glyphs (left ++ right) = glyphs left ++ glyphs right := by
  rw [glyphs, String.toList_append, List.filter_append, glyphs, glyphs]

theorem glyphs_render (largest count : Nat) :
    glyphs (render largest count) = (render largest count).toList := by
  rw [glyphs, List.filter_eq_self, render, String.toList_ofList]
  exact fun glyph hmem => isSome_fill?_of_mem_blocks hmem

theorem isDigit_of_mem_toString {n : Nat} {glyph : Char}
    (hmem : glyph ∈ (toString n).toList) : glyph.isDigit = true := by
  have hdigits : glyph ∈ Nat.toDigits 10 n := Nat.toList_repr ▸ hmem
  exact Nat.isDigit_of_mem_toDigits (by decide) (by decide) hdigits

theorem fill?_of_mem_toString {n : Nat} {glyph : Char}
    (hmem : glyph ∈ (toString n).toList) : fill? glyph = none :=
  fill?_of_isDigit (isDigit_of_mem_toString hmem)

theorem glyphs_toString (n : Nat) : glyphs (toString n) = [] := by
  rw [glyphs, List.filter_eq_nil_iff]
  intro glyph hmem
  rw [fill?_of_mem_toString hmem]
  exact Bool.false_ne_true

end LinearProbing.Bar
