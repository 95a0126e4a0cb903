import LinearProbing.Proofs.MeanDistance
import LinearProbing.Proofs.ReadableBars

/-!
# Charts of bars

The chart of a histogram has a line for each bin, in the order of the bins,
and the bar of each line is as long as its share of the largest bin, rounded
up to the next eighth of a character.

All of it is computed in machine words, but for the product of a count and the
width, which takes two.  The quotient that is cut back to one word is at most
the width (`Bar.ceilDiv_le_fullWidth`), since no bin is larger than the
largest.
-/

namespace LinearProbing

namespace Histogram

variable {histogram : Histogram} {largest distance bin : Nat}

/-- The line of a bin, with its bar. -/
def row (distance : Nat) (bar : String) (bin : Nat) : String :=
  String.ofList ((toString distance).toList.leftpad 3 ' ') ++ " | " ++ bar ++
    s!" ({bin})"

theorem line_eq_row (largest distance bin : Nat) :
    line largest distance bin = row distance (Bar.render largest bin) bin :=
  rfl

theorem glyphs_leftpad (n : Nat) :
    Bar.glyphs (String.ofList ((toString n).toList.leftpad 3 ' ')) = [] := by
  rw [Bar.glyphs, String.toList_ofList, List.filter_eq_nil_iff]
  intro glyph hmem
  rcases List.mem_append.mp hmem with hblank | hdigit
  · rw [List.eq_of_mem_replicate hblank]
    decide
  · rw [Bar.fill?_of_mem_toString hdigit]
    exact Bool.false_ne_true

/-- A line has no characters of a bar but those of its own. -/
theorem glyphs_line (largest distance bin : Nat) :
    Bar.glyphs (line largest distance bin) =
      (Bar.render largest bin).toList := by
  have hcount : Bar.glyphs s!" ({bin})" = [] := by
    change Bar.glyphs (" (" ++ toString bin ++ ")") = []
    rw [Bar.glyphs_append, Bar.glyphs_append, Bar.glyphs_toString]
    decide
  have hbetween : Bar.glyphs " | " = [] := by decide
  rw [line, Bar.glyphs_append, Bar.glyphs_append, Bar.glyphs_append,
    glyphs_leftpad, hbetween, Bar.glyphs_render, hcount, List.nil_append,
    List.nil_append, List.append_nil]

theorem getElem?_byDistance (histogram : Histogram) (distance : Nat) :
    histogram.byDistance[distance]? =
      histogram.bins[distance]?.map fun bin => (distance, bin) := by
  rw [byDistance, List.getElem?_map, List.getElem?_zipIdx]
  cases histogram.bins[distance]? <;> simp

theorem mem_bins_of_mem_byDistance
    (hmem : (distance, bin) ∈ histogram.byDistance) :
    bin ∈ histogram.bins := by
  obtain ⟨⟨found, position⟩, hfound, heq⟩ := List.mem_map.mp hmem
  obtain ⟨rfl, rfl⟩ := Prod.mk.inj heq
  exact List.fst_mem_of_mem_zipIdx hfound

theorem largestBin_eq (hmem : largest ∈ histogram.bins)
    (hbound : ∀ bin ∈ histogram.bins, bin ≤ largest) :
    histogram.largestBin = largest :=
  Nat.le_antisymm (largestBin_le_iff.mpr hbound) (le_largestBin hmem)

theorem lines_of_pos (hpos : 0 < histogram.largestBin) :
    histogram.lines =
      s!"probe histogram ({histogram.bins.sum} entries):" ::
        histogram.byDistance.map fun (distance, bin) =>
          line histogram.largestBin distance bin := by
  rw [lines, if_neg hpos.ne', total, ← List.sum_eq_foldr]

theorem lines_eq_blank_iff :
    histogram.lines = ["probe histogram: empty"] ↔
      ∀ bin ∈ histogram.bins, bin = 0 := by
  rw [← largestBin_eq_zero_iff]
  constructor
  · intro hblank
    -- a chart that is not blank has a header and the line of some bin
    by_contra hsome
    rw [lines_of_pos (Nat.pos_of_ne_zero hsome)] at hblank
    have hrows := (List.cons.inj hblank).2
    rw [List.map_eq_nil_iff, byDistance, List.map_eq_nil_iff,
      List.zipIdx_eq_nil_iff] at hrows
    apply hsome
    rw [largestBin, hrows, List.foldl_nil]
  · intro hnone
    rw [lines, if_pos hnone]

/-! ## What a chart shows -/

/-- The chart of bins of which the largest is not zero. -/
structure Charts (histogram : Histogram) (largest : Nat) : Prop where
  header :
    histogram.lines.head? =
      some s!"probe histogram ({histogram.bins.sum} entries):"
  length_eq : histogram.lines.length = histogram.bins.length + 1
  row_eq :
    ∀ distance bin, histogram.bins[distance]? = some bin →
      histogram.lines[distance + 1]? =
        some (row distance (Bar.render largest bin) bin)
  row_read :
    ∀ distance bin, histogram.bins[distance]? = some bin →
      histogram.lines[distance + 1]?.bind
          (fun text => Bar.read? (Bar.glyphs text)) =
        some ((480 * bin) ⌈/⌉ largest)

theorem charts (hpos : 0 < largest) (hmem : largest ∈ histogram.bins)
    (hbound : ∀ bin ∈ histogram.bins, bin ≤ largest) :
    histogram.Charts largest := by
  have hlargest := largestBin_eq hmem hbound
  have hlines := lines_of_pos (hlargest ▸ hpos)
  have hrow : ∀ distance bin, histogram.bins[distance]? = some bin →
      histogram.lines[distance + 1]? =
        some (line largest distance bin) := by
    intro distance bin hbin
    rw [hlines, List.getElem?_cons_succ, List.getElem?_map,
      getElem?_byDistance, hbin, hlargest]
    rfl
  constructor
  · rw [hlines, List.head?_cons]
  · rw [hlines, List.length_cons, List.length_map, byDistance,
      List.length_map, List.length_zipIdx]
  · intro distance bin hbin
    rw [← line_eq_row]
    exact hrow distance bin hbin
  · intro distance bin hbin
    rw [hrow distance bin hbin, Option.bind_some, glyphs_line,
      Bar.read?_render hpos]

end Histogram

/-! ## The chart in machine words -/

namespace Guarded

/-- A number that must fit so many bits. -/
def inBits (bits n : Nat) : Guarded Nat :=
  if n < 2 ^ bits then pure n else throw .overflow

/-- A quotient of double words, rounded up. -/
def wideCeilDiv (m n : Nat) : Guarded Nat := do
  demand (n ≠ 0)
  if m % n = 0 then pure (m / n) else inBits 128 (m / n + 1)

/-- The product is one of double words, and the quotient is cut back. -/
def eighths (largest count : Nat) : Guarded Nat := do
  let product ← inBits 128 (count * (Bar.width * 8))
  let rounded ← wideCeilDiv product largest
  inBits 64 rounded

def bar (largest count : Nat) : Guarded String :=
  if count = 0 then
    pure ""
  else do
    let units ← eighths largest count
    pure (String.ofList (Bar.blocks units))

def row (largest distance bin : Nat) : Guarded String := do
  let drawn ← bar largest bin
  pure (Histogram.row distance drawn bin)

def lines (histogram : Histogram) : Guarded (List String) :=
  let largest := histogram.largestBin
  if largest = 0 then
    pure ["probe histogram: empty"]
  else do
    let total ← totalFrom 0 histogram.bins
    let rows ← histogram.byDistance.mapM fun (distance, bin) =>
      row largest distance bin
    pure (s!"probe histogram ({total} entries):" :: rows)

variable {bits m n largest count : Nat}

theorem inBits_eq (hfits : n < 2 ^ bits) : inBits bits n = pure n :=
  if_pos hfits

theorem ceilDiv_of_mod_eq_zero (hexact : m % n = 0) (hpos : 0 < n) :
    m ⌈/⌉ n = m / n := by
  obtain ⟨quotient, rfl⟩ := Nat.dvd_of_mod_eq_zero hexact
  rw [Nat.mul_div_cancel_left quotient hpos]
  exact smul_ceilDiv hpos quotient

theorem ceilDiv_of_mod_ne_zero (hinexact : m % n ≠ 0) (hpos : 0 < n) :
    m ⌈/⌉ n = m / n + 1 := by
  have hless : m % n - 1 < n := by
    have hlt := Nat.mod_lt m hpos
    omega
  have hsum : m + n - 1 = m % n - 1 + n * (m / n + 1) := by
    have hparts := Nat.div_add_mod m n
    rw [Nat.mul_succ]
    omega
  rw [Nat.ceilDiv_eq_add_pred_div, hsum, Nat.add_mul_div_left _ _ hpos,
    Nat.div_eq_of_lt hless, Nat.zero_add]

theorem wideCeilDiv_eq (hpos : 0 < n) (hwide : m ⌈/⌉ n < 2 ^ 128) :
    wideCeilDiv m n = pure (m ⌈/⌉ n) := by
  rw [wideCeilDiv, demand_eq hpos.ne', pure_bind]
  by_cases hexact : m % n = 0
  · rw [if_pos hexact, ceilDiv_of_mod_eq_zero hexact hpos]
  · rw [ceilDiv_of_mod_ne_zero hexact hpos] at hwide ⊢
    rw [if_neg hexact, inBits_eq hwide]

theorem eighths_eq (hlargest : 0 < largest) (hcount : count ≤ largest)
    (hword : largest < 2 ^ 64) :
    eighths largest count = pure (Bar.eighths largest count) := by
  have hproduct : count * (Bar.width * 8) = 480 * count :=
    Nat.mul_comm count 480
  have hshort := Bar.ceilDiv_le_fullWidth hlargest hcount
  rw [eighths, hproduct, inBits_eq (by omega), pure_bind,
    wideCeilDiv_eq hlargest (by omega), pure_bind, inBits_eq (by omega),
    Bar.eighths_eq_ceilDiv hlargest]

theorem bar_eq (hlargest : 0 < largest) (hcount : count ≤ largest)
    (hword : largest < 2 ^ 64) :
    bar largest count = pure (Bar.render largest count) := by
  rw [bar]
  by_cases hnone : count = 0
  · rw [if_pos hnone, (Bar.render_eq_empty_iff hlargest).mpr hnone]
  · rw [if_neg hnone, eighths_eq hlargest hcount hword, pure_bind,
      Bar.render]

theorem mapM_eq_pure {α β : Type} {f : α → Guarded β} {g : α → β}
    {values : List α} (heq : ∀ value ∈ values, f value = pure (g value)) :
    values.mapM f = pure (values.map g) := by
  induction values with
  | nil => rfl
  | cons value values ih =>
      rw [List.forall_mem_cons] at heq
      rw [List.mapM_cons, heq.1, ih heq.2]
      rfl

theorem lines_eq {histogram : Histogram}
    (htotal : histogram.total < UInt64.size) :
    lines histogram = pure histogram.lines := by
  rw [lines, Histogram.lines]
  by_cases hnone : histogram.largestBin = 0
  · rw [if_pos hnone, if_pos hnone]
  · have hword : histogram.largestBin < 2 ^ 64 :=
      histogram.largestBin_le_total.trans_lt htotal
    have hrows : ∀ bar ∈ histogram.byDistance,
        row histogram.largestBin bar.1 bar.2 =
          pure (Histogram.line histogram.largestBin bar.1 bar.2) := by
      rintro ⟨distance, bin⟩ hmem
      -- a bin above the largest might need more than one word
      have hbin := Histogram.mem_bins_of_mem_byDistance hmem
      rw [row, bar_eq (Nat.pos_of_ne_zero hnone)
        (Histogram.le_largestBin hbin) hword, pure_bind,
        ← Histogram.line_eq_row]
    rw [if_neg hnone, if_neg hnone, totalFrom_zero_eq htotal, pure_bind,
      mapM_eq_pure hrows, pure_bind]

end Guarded

/-! ## Faithful charts -/

namespace Histogram

variable {histogram : Histogram}

/-- The chart of a histogram is the one of its bins, and no number on the way
to it leaves the words that it is computed in. -/
structure DrawsFaithfully (histogram : Histogram) : Prop where
  blank_iff :
    histogram.lines = ["probe histogram: empty"] ↔
      ∀ bin ∈ histogram.bins, bin = 0
  charts :
    ∀ largest ∈ histogram.bins, (∀ bin ∈ histogram.bins, bin ≤ largest) →
      0 < largest → histogram.Charts largest ∧ Bar.Faithful largest
  product_lt : ∀ bin ∈ histogram.bins, bin * 480 < 2 ^ 128
  rounded_lt :
    ∀ largest, (∀ bin ∈ histogram.bins, bin ≤ largest) →
      ∀ bin ∈ histogram.bins, (480 * bin) ⌈/⌉ largest < 2 ^ 64
  checked : Guarded.lines histogram = pure histogram.lines

theorem drawsFaithfully (htotal : histogram.bins.sum < 2 ^ 64) :
    histogram.DrawsFaithfully := by
  constructor
  · exact lines_eq_blank_iff
  · intro largest hmem hbound hpos
    exact ⟨histogram.charts hpos hmem hbound, Bar.faithful hpos⟩
  · intro bin hmem
    have hbin := List.le_sum_of_mem hmem
    omega
  · intro largest hbound bin hmem
    rcases Nat.eq_zero_or_pos largest with rfl | hpos
    · rw [ceilDiv_zero]
      decide
    · have hle := Bar.ceilDiv_le_fullWidth hpos (hbound bin hmem)
      omega
  · apply Guarded.lines_eq
    rwa [total, ← List.sum_eq_foldr]

/-- Bins whose sum is as large as a machine word can be, but for two. -/
def lopsided : Histogram :=
  ⟨[9223372036854775808, 0, 1, 4611686018427387905, 4611686018427387900]⟩

theorem drawsFaithfully_lopsided :
    lopsided.lines[2]? = some "  1 |  (0)" ∧
      lopsided.lines[3]? = some "  2 | ▏ (1)" ∧
      Bar.eighths lopsided.largestBin 4611686018427387905 = 241 ∧
      Bar.eighths lopsided.largestBin 4611686018427387900 = 240 ∧
      lopsided.bins.sum < 2 ^ 64 ∧ lopsided.DrawsFaithfully := by
  have htotal : lopsided.bins.sum < 2 ^ 64 := by decide
  exact ⟨by decide +kernel, by decide +kernel, by decide, by decide, htotal,
    drawsFaithfully htotal⟩

end Histogram

end LinearProbing
