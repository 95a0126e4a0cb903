import LinearProbing.Proofs.BarCharts
import LinearProbing.Proofs.GuardedUpdates
import LinearProbing.Proofs.SurveyRuns

/-!
# Guarded surveys

A survey with the checks of all its calls, of its two counts and of the sums
that it prints.  The keys that are inserted are counted in a machine word and
those that are removed in 32 bits with a sign.  This second count and the sum
of all distances from home are the two numbers that can outgrow their place,
so a guarded survey does what the plain one does unless one of them does
(`survey_eq`, `surveyLines_eq`).
-/

namespace LinearProbing.Guarded

/-! ## Batches that are counted -/

section Batches

variable {Argument : Type}
  {guarded : Table → Argument → Guarded (Outcome Table Bool)}
  {operation : Table → Argument → Outcome Table Bool} {Keeps : Table → Prop}

/-- Hits are counted in so many bits. -/
def batchFrom (operation : Table → Argument → Guarded (Outcome Table Bool))
    (bits : Nat) :
    List Argument → Table → Nat → Nat → List Rehash →
      Guarded (Batch Argument)
  | [], table, hits, misses, rehashes =>
      pure ⟨table, hits, misses, rehashes, none⟩
  | argument :: arguments, table, hits, misses, rehashes => do
      match ← operation table argument with
      | ⟨.error fault, table, rehash⟩ =>
          pure ⟨table, hits, misses, rehashes ++ rehash.toList,
            some (argument, fault)⟩
      | ⟨.ok true, table, rehash⟩ => do
          let more ← inBits bits (hits + 1)
          batchFrom operation bits arguments table more misses
            (rehashes ++ rehash.toList)
      | ⟨.ok false, table, rehash⟩ =>
          batchFrom operation bits arguments table hits (misses + 1)
            (rehashes ++ rehash.toList)

theorem le_hits_runFrom (arguments : List Argument) (table : Table)
    (hits misses : Nat) (rehashes : List Rehash) :
    hits ≤ (Batch.runFrom operation arguments table hits misses
      rehashes).hits := by
  induction arguments generalizing table hits misses rehashes with
  | nil => exact le_rfl
  | cons argument arguments ih =>
      rw [Batch.runFrom]
      rcases operation table argument with ⟨fault | isHit, next, rehash⟩
      · exact le_rfl
      · cases isHit with
        | true => exact (Nat.le_succ hits).trans (ih next _ _ _)
        | false => exact ih next _ _ _

theorem hits_runFrom_le (arguments : List Argument) (table : Table)
    (hits misses : Nat) (rehashes : List Rehash) :
    (Batch.runFrom operation arguments table hits misses rehashes).hits ≤
      hits + arguments.length := by
  induction arguments generalizing table hits misses rehashes with
  | nil => exact le_rfl
  | cons argument arguments ih =>
      rw [Batch.runFrom, List.length_cons]
      rcases operation table argument with ⟨fault | isHit, next, rehash⟩
      · exact Nat.le_add_right _ _
      · cases isHit with
        | true =>
            have hlater := ih next (hits + 1) misses
              (rehashes ++ rehash.toList)
            dsimp only
            omega
        | false =>
            have hlater := ih next hits (misses + 1)
              (rehashes ++ rehash.toList)
            dsimp only
            omega

/-- A batch is as guarded, unless its hits outgrow their bits. -/
theorem batchFrom_eq {bits : Nat}
    (hguarded : ∀ table argument, Keeps table →
      guarded table argument = pure (operation table argument))
    (hstep : ∀ table argument, Keeps table →
      Keeps (operation table argument).state)
    {table : Table} (hstart : Keeps table) (arguments : List Argument)
    {hits : Nat} (hhits : hits < 2 ^ bits) (misses : Nat)
    (rehashes : List Rehash) :
    batchFrom guarded bits arguments table hits misses rehashes =
      let batch :=
        Batch.runFrom operation arguments table hits misses rehashes
      if batch.hits < 2 ^ bits then pure batch else throw .overflow := by
  induction arguments generalizing table hits misses rehashes with
  | nil => exact (if_pos hhits).symm
  | cons argument arguments ih =>
      have hnext := hstep table argument hstart
      rw [batchFrom, hguarded table argument hstart, pure_bind, Batch.runFrom]
      generalize operation table argument = outcome at hnext
      rcases outcome with ⟨fault | isHit, next, rehash⟩
      · exact (if_pos hhits).symm
      · cases isHit with
        | true =>
            dsimp only
            by_cases hmore : hits + 1 < 2 ^ bits
            · rw [inBits_eq hmore, pure_bind]
              exact ih hnext hmore _ _
            · -- the count is never lower again
              have hlater : hits + 1 ≤ (Batch.runFrom operation arguments
                  next (hits + 1) misses (rehashes ++ rehash.toList)).hits :=
                le_hits_runFrom arguments next _ _ _
              rw [inBits, if_neg hmore, if_neg (by omega)]
              rfl
        | false => exact ih hnext hhits _ _

end Batches

/-! ## Surveys -/

open Survey (key value multiples)

noncomputable def fill (limit entries : Nat) (table : Table) :
    Guarded (Batch Nat) :=
  batchFrom
    (fun table i => insert limit table (.plain (key i)) (.plain (value i)))
    64 (List.range entries) table 0 0 []

def thin (entries every : Nat) (table : Table) : Guarded (Batch Nat) :=
  batchFrom
    (fun table i => do
      let outcome ← erase table (.plain (key i))
      pure (outcome.map Option.isSome))
    31 (multiples entries every) table 0 0 []

noncomputable def survey (limit entries every : Nat) (table : Table) :
    Guarded (Except Fault Survey) := do
  let filled ← fill limit entries table
  match filled.finished with
  | .error fault => pure (.error fault)
  | .ok filled =>
      if every = 0 then
        pure (.ok ⟨none, filled.table⟩)
      else do
        let thinned ← thin entries every filled.table
        match thinned.finished with
        | .error fault => pure (.error fault)
        | .ok thinned =>
            pure (.ok ⟨some (Int32.ofNat thinned.hits), thinned.table⟩)

/-- The shares are taken as they are. -/
def surveyLines (survey : Survey) : Guarded (List String) := do
  let counted ← histogram survey.table
  let chart ← lines counted
  let recounted ← statistics survey.table
  let mean ← mean counted
  let slotBytes ← mul survey.table.capacity Statistics.bytesPerSlot
  let payloadBytes ← totalFrom 0 (survey.table.entries.map Entry.payload)
  pure (survey.summary ++ chart ++
    { recounted with
      meanDistance := mean
      slotBytes := slotBytes
      payloadBytes := payloadBytes : Statistics }.lines)

noncomputable def report (limit entries every : Nat) : Guarded Report :=
  let opening := s!"Creating HashTable for {entries} entries"
  match Table.create limit 0 1 1 with
  | .error fault => pure ⟨[opening], some fault⟩
  | .ok table => do
      let start := s!"Initial capacity: {table.capacity}"
      match ← survey limit entries every table with
      | .error fault => pure ⟨[opening, start], some fault⟩
      | .ok survey => do
          let lines ← surveyLines survey
          pure ⟨opening :: start :: lines, none⟩

variable {limit entries every : Nat} {table : Table}

theorem fill_eq (hgood : table.WellFormed) (hword : entries < 2 ^ 64) :
    fill limit entries table = pure (Survey.fill limit entries table) := by
  have hguarded : ∀ (table : Table) (i : Nat), table.WellFormed →
      insert limit table (.plain (key i)) (.plain (value i)) =
        pure (table.insert limit (.plain (key i)) (.plain (value i))) :=
    fun _ _ hgood =>
      insert_eq hgood (View.aligned_plain _) (View.aligned_plain _) limit
  have hstep : ∀ (table : Table) (i : Nat), table.WellFormed →
      (table.insert limit (.plain (key i))
        (.plain (value i))).state.WellFormed :=
    fun _ _ hgood =>
      (hgood.writeCase limit (View.aligned_plain _)
        (View.aligned_plain _)).wellFormed hgood (View.aligned_plain _)
          (View.aligned_plain _)
  have hhits : (Survey.fill limit entries table).hits < 2 ^ 64 := by
    refine (hits_runFrom_le _ table 0 0 []).trans_lt ?_
    rwa [List.length_range, Nat.zero_add]
  rw [fill, batchFrom_eq hguarded hstep hgood _ (Nat.two_pow_pos 64)]
  exact if_pos hhits

theorem thin_eq (hgood : table.WellFormed) (entries every : Nat) :
    thin entries every table =
      let thinned := Survey.thin entries every table
      if thinned.hits < 2 ^ 31 then pure thinned else throw .overflow := by
  have hstep : ∀ (table : Table) (i : Nat), table.WellFormed →
      ((table.erase (.plain (key i))).map Option.isSome).state.WellFormed :=
    fun _ _ hgood => (hgood.eraseCase _).wellFormed hgood
  apply batchFrom_eq _ hstep hgood _ (Nat.two_pow_pos 31)
  intro table i hgood
  rw [erase_eq hgood, pure_bind]

variable {capacity : Nat}

/-- The only count of a survey that can fail is that of the keys removed. -/
theorem survey_of_climb (every : Nat) (hword : entries < 2 ^ 64)
    (hclimb : Capacity.climb limit entries Capacity.least 0 = some capacity) :
    survey limit entries every Survey.start =
      if entries ⌈/⌉ every < 2 ^ 31 then
        pure (Survey.run limit entries every Survey.start)
      else
        throw .overflow := by
  rcases Survey.fill_cases limit hword.le with ⟨hfilled, -, hbuilt⟩ | ⟨-, hnone⟩
  · have hfinished := Batch.finished_of_stopped_eq_none hfilled
    rw [survey, fill_eq Survey.built_start.good hword, pure_bind,
      Survey.run, hfinished]
    dsimp only
    by_cases hzero : every = 0
    · have hnone : entries ⌈/⌉ every < 2 ^ 31 := by
        rw [hzero, ceilDiv_zero]
        exact Nat.two_pow_pos 31
      rw [if_pos hzero, if_pos hzero, if_pos hnone]
    · obtain ⟨hthinned, hhits, -⟩ := Survey.thin_loses hbuilt
        (Survey.suits_fill limit entries).keyStride_eq hword.le
          (Nat.pos_of_ne_zero hzero)
      rw [if_neg hzero, if_neg hzero, thin_eq hbuilt.good]
      dsimp only
      rw [hhits, Batch.finished_of_stopped_eq_none hthinned]
      by_cases hfits : entries ⌈/⌉ every < 2 ^ 31
      · rw [if_pos hfits, if_pos hfits, pure_bind,
          Batch.finished_of_stopped_eq_none hthinned]
      · rw [if_neg hfits, if_neg hfits]
        rfl
  · rw [hclimb] at hnone
    exact absurd hnone nofun

theorem survey_of_no_climb (every : Nat) (hword : entries < 2 ^ 64)
    (hclimb : Capacity.climb limit entries Capacity.least 0 = none) :
    survey limit entries every Survey.start =
      pure (Survey.run limit entries every Survey.start) := by
  rcases Survey.fill_cases limit hword.le with ⟨-, hsome, -⟩ | ⟨hstopped, -⟩
  · rw [hclimb] at hsome
    exact absurd hsome nofun
  · obtain ⟨fault, hfinished⟩ := Batch.finished_of_stopped_ne_none hstopped
    rw [survey, fill_eq Survey.built_start.good hword, pure_bind,
      Survey.run, hfinished]

/-! ## Sums that are printed -/

theorem add_of_overflow {m n : Nat} (hword : ¬ m + n < UInt64.size) :
    add m n = throw .overflow :=
  if_neg hword

theorem mul_of_overflow {m n : Nat} (hword : ¬ m * n < UInt64.size) :
    mul m n = throw .overflow :=
  if_neg hword

theorem weightFrom_of_overflow {distance sum : Nat} {bins : List Nat}
    (hsum : sum < UInt64.size)
    (hword : ¬ sum + Histogram.weight distance bins < UInt64.size) :
    weightFrom distance sum bins = throw .overflow := by
  induction bins generalizing distance sum with
  | nil => exact absurd hsum hword
  | cons bin bins ih =>
      rw [Histogram.weight_cons, ← Nat.add_assoc] at hword
      rw [weightFrom]
      by_cases hproduct : distance * bin < UInt64.size
      · rw [mul_eq hproduct, pure_bind]
        by_cases hnext : sum + distance * bin < UInt64.size
        · rw [add_eq hnext, pure_bind]
          by_cases hfurther : distance + 1 < UInt64.size
          · rw [add_eq hfurther, pure_bind, ih hnext hword]
          · rw [add_of_overflow hfurther]
            rfl
        · rw [add_of_overflow hnext]
          rfl
      · rw [mul_of_overflow hproduct]
        rfl

theorem mean_of_overflow {histogram : Histogram}
    (htotal : histogram.total < UInt64.size) (hpos : histogram.total ≠ 0)
    (hdistance : ¬ histogram.totalDistance < UInt64.size) :
    mean histogram = throw .overflow := by
  rw [Histogram.totalDistance_eq_weight, ← Nat.zero_add (Histogram.weight _ _)]
    at hdistance
  rw [mean, totalFrom_zero_eq htotal, pure_bind, if_neg hpos,
    weightFrom_of_overflow (by decide) hdistance]
  rfl

theorem surveyLines_eq {survey : Survey} (hgood : survey.table.WellFormed)
    (hslots : survey.table.capacity * Statistics.bytesPerSlot < UInt64.size)
    (hpayload : survey.table.payload < UInt64.size) :
    surveyLines survey =
      if survey.table.histogram.totalDistance < 2 ^ 64 then pure survey.lines
      else throw .overflow := by
  have htotal : survey.table.histogram.total = survey.table.count := by
    rw [Table.total_eq_length_entries, hgood.length_entries]
  have hused := hgood.used_lt
  have hcapacity := hgood.lt_wordSize
  have hbins := hgood.toConsistent.length_bins_le
  have hcount : survey.table.histogram.total < UInt64.size := by
    rw [htotal]
    unfold Table.used at hused
    omega
  have hsum : totalFrom 0 (survey.table.entries.map Entry.payload) =
      pure survey.table.payload := by
    have hfold : (survey.table.entries.map Entry.payload).foldr (· + ·) 0 =
        survey.table.payload := List.foldr_map
    rw [totalFrom_eq (by rwa [Nat.zero_add, hfold]), Nat.zero_add, hfold]
  rw [surveyLines, histogram_eq hgood, pure_bind, lines_eq hcount, pure_bind,
    statistics_eq hgood, pure_bind]
  by_cases hdistance : survey.table.histogram.totalDistance < UInt64.size
  · rw [mean_eq hcount hdistance (by omega), pure_bind, mul_eq hslots,
      pure_bind, hsum, pure_bind]
    exact (if_pos hdistance).symm
  · have hsome : survey.table.histogram.total ≠ 0 := by
      -- without an entry there is no distance
      intro hnone
      have hle := hgood.toConsistent.totalDistance_le
      rw [← htotal, hnone, Nat.zero_mul] at hle
      omega
    rw [mean_of_overflow hcount hsome hdistance]
    exact (if_neg hdistance).symm

end LinearProbing.Guarded
