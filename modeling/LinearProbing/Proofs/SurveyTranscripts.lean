import LinearProbing.Command
import LinearProbing.Proofs.SurveyReports

/-!
# Transcripts of surveys

A survey succeeds exactly if the least capacity for all its keys can be had,
and then its output is a sheet with figures that fit the settings.  The keys
removed are told as they are as long as there are less than `2 ^ 31` of them.
From there on the count turns negative, and a machine that checks its sums
stops instead of going on with it.
-/

namespace LinearProbing

/-! ## Surveys that go through -/

namespace Report

variable {limit entries every capacity : Nat} {figures : Figures}

/-- What an allocation holds can be counted in a machine word. -/
theorem sizes_lt_of_le_slotLimit {removed : Nat} {table : Table}
    (hleaves : Survey.Leaves entries removed capacity table)
    (hcapacity : capacity ≤ slotLimit) :
    table.capacity * Statistics.bytesPerSlot < UInt64.size ∧
      table.payload < UInt64.size := by
  have hslots : capacity ≤ 192153584101141162 := hcapacity
  have hsize : UInt64.size = 18446744073709551616 := rfl
  have hused : table.count + table.tombstones < capacity :=
    hleaves.capacity_eq ▸ hleaves.good.used_lt
  rw [hleaves.good.payload_of_sized hleaves.sized, hleaves.capacity_eq,
    hsize, Statistics.bytesPerSlot]
  omega

/-- The report of a survey from its figures.  Of all its sums and counts only
two can fail, the count of the keys removed and the sum of all distances. -/
structure Figures.Accounts (figures : Figures)
    (limit entries every capacity : Nat) : Prop where
  fit :
    figures.Fit (entries - entries ⌈/⌉ every) (entries ⌈/⌉ every) capacity
  report_eq :
    ofSurvey limit entries every =
      ⟨sheet entries every capacity figures, none⟩
  guarded_eq :
    limit ≤ slotLimit →
      Guarded.report limit entries every =
        if entries ⌈/⌉ every < 2 ^ 31 ∧
            (Histogram.ofRows figures.rows).totalDistance < 2 ^ 64 then
          pure (ofSurvey limit entries every)
        else
          throw .overflow

/-- The least capacity for all keys can be had. -/
theorem exists_figures (every : Nat) (hword : entries < 2 ^ 64)
    (hleast : IsLeast (Capacity.candidates Capacity.least entries) capacity)
    (hlimit : capacity ≤ limit) (hsize : capacity < UInt64.size) :
    ∃ figures : Figures, figures.Accounts limit entries every capacity := by
  have hstart : Capacity.least ≤ limit := hleast.1.2.1.trans hlimit
  have hcreate : Table.create limit 0 1 1 = .ok Survey.start :=
    Table.create_eq_ok Nat.one_pos Nat.one_pos rfl hstart
  have hclimb := (Survey.climb_least_eq_some_iff hstart).mpr
    ⟨hleast, hsize, hlimit⟩
  obtain ⟨survey, hrun, hremoved, hleaves⟩ :=
    Survey.run_of_climb every hword.le hclimb
  refine ⟨survey.figures, Survey.figures_fit hleaves, ?_, ?_⟩
  · rw [ofSurvey, hcreate]
    dsimp only
    rw [hrun, ← Survey.lines_eq_sheet hremoved hleaves]
  · intro hmemory
    obtain ⟨hslots, hpayload⟩ :=
      sizes_lt_of_le_slotLimit hleaves (hlimit.trans hmemory)
    rw [Guarded.report, ofSurvey, hcreate]
    dsimp only
    rw [Guarded.survey_of_climb every hword hclimb, hrun, Survey.figures,
      Histogram.ofRows_rows]
    by_cases hcount : entries ⌈/⌉ every < 2 ^ 31
    · rw [if_pos hcount, pure_bind]
      dsimp only
      rw [Guarded.surveyLines_eq hleaves.good hslots hpayload]
      by_cases hdistance :
          survey.table.histogram.totalDistance < 2 ^ 64
      · rw [if_pos hdistance, if_pos ⟨hcount, hdistance⟩, pure_bind]
      · rw [if_neg hdistance, if_neg fun h => hdistance h.2]
        rfl
    · rw [if_neg hcount, if_neg fun h => hcount h.1]
      rfl

/-- Only the want of memory stops a survey, with or without its checks. -/
theorem capacity_le_or_guarded_eq (every : Nat) (hword : entries < 2 ^ 64)
    (hleast : IsLeast (Capacity.candidates Capacity.least entries) capacity) :
    (capacity ≤ limit ∧ capacity < UInt64.size) ∨
      (ofSurvey limit entries every).fault ≠ none ∧
        Guarded.report limit entries every =
          pure (ofSurvey limit entries every) := by
  cases hcreate : Table.create limit 0 1 1 with
  | error fault =>
      right
      rw [ofSurvey, Guarded.report, hcreate]
      exact ⟨nofun, rfl⟩
  | ok table =>
      obtain ⟨hstart, rfl⟩ : Capacity.least ≤ limit ∧ table = Survey.start :=
        Table.eq_blank_of_create hcreate
      cases hclimb : Capacity.climb limit entries Capacity.least 0 with
      | none =>
          right
          obtain ⟨fault, hrun⟩ :=
            Survey.run_of_no_climb every hword.le hclimb
          rw [ofSurvey, Guarded.report, hcreate]
          dsimp only
          rw [Guarded.survey_of_no_climb every hword hclimb, hrun, pure_bind]
          exact ⟨nofun, rfl⟩
      | some size =>
          left
          obtain ⟨hsize, hword, hlimit⟩ :=
            (Survey.climb_least_eq_some_iff hstart).mp hclimb
          rw [hleast.unique hsize]
          exact ⟨hlimit, hword⟩

/-! ## The line of the keys removed -/

theorem wrapped_eq_iff (removed : Nat) :
    wrapped removed = removed ↔ removed < 2 ^ 31 := by
  rw [← Survey.toInt_ofNat_eq_wrapped]
  constructor
  · intro hexact
    have hlt := (Int32.ofNat removed).toInt_lt
    rw [hexact] at hlt
    exact_mod_cast hlt
  · exact Int32.toInt_ofNat_of_lt

theorem getElem?_sheet (hevery : every ≠ 0) :
    (sheet entries every capacity figures)[2]? =
      some s!"Removed {wrapped (entries ⌈/⌉ every)} entries" := by
  rw [sheet, if_neg hevery]
  rfl

theorem getElem?_sheet_iff (hevery : every ≠ 0) :
    (sheet entries every capacity figures)[2]? =
        some s!"Removed {entries ⌈/⌉ every} entries" ↔
      entries ⌈/⌉ every < 2 ^ 31 := by
  rw [getElem?_sheet hevery, Option.some.injEq, ← wrapped_eq_iff,
    ← Numeral.toString_eq_toString_iff]
  constructor
  · intro htext
    have hchars := congrArg String.toList htext
    change ("Removed " ++ toString (wrapped (entries ⌈/⌉ every)) ++
      " entries").toList =
        ("Removed " ++ toString (entries ⌈/⌉ every) ++ " entries").toList
      at hchars
    simp only [String.toList_append, List.append_cancel_right_eq,
      List.append_cancel_left_eq] at hchars
    exact String.toList_inj.mp hchars
  · intro hcount
    rw [hcount]

end Report

/-! ## From the settings to the exit code -/

/-- A transcript that checks all its sums. -/
noncomputable def Guarded.transcript (limit : Nat) (settings : Settings) :
    Guarded Transcript := do
  let report ← report limit settings.entries.toNat
    settings.removeEvery.toNat
  pure report.transcript

theorem Report.exitCode_eq_zero_iff {report : Report} :
    report.transcript.exitCode = 0 ↔ report.fault = none := by
  unfold transcript
  cases report.fault with
  | none => exact ⟨fun _ => rfl, fun _ => rfl⟩
  | some fault => exact ⟨nofun, nofun⟩

namespace Settings

variable {settings : Settings} {limit capacity : Nat}

/-- How many keys are to be removed: none if the step is zero. -/
def removed (settings : Settings) : Nat :=
  settings.entries.toNat ⌈/⌉ settings.removeEvery.toNat

def live (settings : Settings) : Nat :=
  settings.entries.toNat - settings.removed

/-- What a survey tells in the end, and what it does if all its sums are
checked. -/
structure Told (settings : Settings) (limit capacity : Nat)
    (figures : Report.Figures) : Prop where
  fit : figures.Fit settings.live settings.removed capacity
  errors_eq : (settings.transcript limit).errors = []
  output_eq :
    (settings.transcript limit).output =
      Report.sheet settings.entries.toNat settings.removeEvery.toNat
        capacity figures
  removed_shown_iff :
    settings.removeEvery ≠ 0 →
      ((settings.transcript limit).output[2]? =
          some s!"Removed {settings.removed} entries" ↔
        settings.removed < 2 ^ 31)
  guarded_eq :
    limit ≤ slotLimit →
      Guarded.transcript limit settings =
        if settings.removed < 2 ^ 31 ∧
            (Histogram.ofRows figures.rows).totalDistance < 2 ^ 64 then
          pure (settings.transcript limit)
        else
          throw .overflow

/-- Surveys with these settings, if `capacity` is the least capacity that
admits all their keys.  Only the want of memory makes them fail. -/
structure Foretells (settings : Settings) (capacity : Nat) : Prop where
  exitCode_eq_zero_iff :
    ∀ limit, (settings.transcript limit).exitCode = 0 ↔
      capacity ≤ limit ∧ capacity < UInt64.size
  told :
    ∀ limit, (settings.transcript limit).exitCode = 0 →
      ∃ figures, settings.Told limit capacity figures
  refused :
    ∀ limit, (settings.transcript limit).exitCode ≠ 0 →
      Guarded.transcript limit settings = pure (settings.transcript limit)

theorem transcript_of_accounts {figures : Report.Figures}
    (haccounts : figures.Accounts limit settings.entries.toNat
      settings.removeEvery.toNat capacity) :
    settings.transcript limit =
      ⟨Report.sheet settings.entries.toNat settings.removeEvery.toNat
        capacity figures, [], 0⟩ := by
  rw [transcript, haccounts.report_eq]
  rfl

theorem told_of_accounts {figures : Report.Figures}
    (haccounts : figures.Accounts limit settings.entries.toNat
      settings.removeEvery.toNat capacity) :
    settings.Told limit capacity figures := by
  have htranscript := transcript_of_accounts haccounts
  constructor
  · exact haccounts.fit
  · rw [htranscript]
  · rw [htranscript]
  · intro hevery
    rw [htranscript]
    apply Report.getElem?_sheet_iff
    intro hzero
    exact hevery (UInt64.toNat_inj.mp hzero)
  · intro hmemory
    rw [Guarded.transcript, haccounts.guarded_eq hmemory, removed]
    by_cases hfits : settings.entries.toNat ⌈/⌉ settings.removeEvery.toNat <
        2 ^ 31 ∧ (Histogram.ofRows figures.rows).totalDistance < 2 ^ 64
    · rw [if_pos hfits, if_pos hfits]
      rfl
    · rw [if_neg hfits, if_neg hfits]
      rfl

theorem told_of_capacity_le
    (hleast : IsLeast
      (Capacity.candidates Capacity.least settings.entries.toNat) capacity)
    (hlimit : capacity ≤ limit) (hsize : capacity < UInt64.size) :
    (settings.transcript limit).exitCode = 0 ∧
      ∃ figures, settings.Told limit capacity figures := by
  obtain ⟨figures, haccounts⟩ := Report.exists_figures
    settings.removeEvery.toNat settings.entries.toNat_lt hleast hlimit hsize
  refine ⟨?_, figures, told_of_accounts haccounts⟩
  rw [transcript_of_accounts haccounts]

theorem capacity_le_or_refused
    (hleast : IsLeast
      (Capacity.candidates Capacity.least settings.entries.toNat) capacity)
    (limit : Nat) :
    (capacity ≤ limit ∧ capacity < UInt64.size) ∨
      (settings.transcript limit).exitCode ≠ 0 ∧
        Guarded.transcript limit settings =
          pure (settings.transcript limit) := by
  rcases Report.capacity_le_or_guarded_eq settings.removeEvery.toNat
    settings.entries.toNat_lt hleast with hfits | ⟨hfault, hguarded⟩
  · exact .inl hfits
  · refine .inr ⟨mt Report.exitCode_eq_zero_iff.mp hfault, ?_⟩
    rw [Guarded.transcript, hguarded]
    rfl

theorem foretells_least
    (hleast : IsLeast
      (Capacity.candidates Capacity.least settings.entries.toNat) capacity) :
    settings.Foretells capacity := by
  have hfits : ∀ limit, (settings.transcript limit).exitCode = 0 →
      capacity ≤ limit ∧ capacity < UInt64.size := by
    intro limit hzero
    exact (capacity_le_or_refused hleast limit).resolve_right
      fun hrefused => hrefused.1 hzero
  constructor
  · intro limit
    refine ⟨hfits limit, ?_⟩
    rintro ⟨hlimit, hsize⟩
    exact (told_of_capacity_le hleast hlimit hsize).1
  · intro limit hzero
    obtain ⟨hlimit, hsize⟩ := hfits limit hzero
    exact (told_of_capacity_le hleast hlimit hsize).2
  · intro limit hfault
    rcases capacity_le_or_refused hleast limit with
      ⟨hlimit, hsize⟩ | ⟨-, hguarded⟩
    · exact absurd (told_of_capacity_le hleast hlimit hsize).1 hfault
    · exact hguarded

/-- Three of twelve keys are removed again, one of them from between two
others. -/
def twelve : Settings :=
  { entries := 12, removeEvery := 5 }

theorem foretells_twelve :
    twelve.transcript 16 =
        { output :=
            ["Creating HashTable for 12 entries",
              "Initial capacity: 8",
              "Removed 3 entries",
              "Inserted 9 entries, final capacity 16",
              "Final load factor: 62.50%",
              "probe histogram (9 entries):",
              "  0 | ████████████████████████████████████████████████████████████ (8)",
              "  1 | ███████▌ (1)",
              "=== Hash Table Debug Statistics ===",
              "Population: 9 live + 1 tombstones / 16 slots (62.50% load factor)",
              "Probe distance: max 1, mean 0.111",
              "Memory: 768 slot bytes + 252 payload bytes"]
          errors := []
          exitCode := 0 } ∧
      IsLeast
        (Capacity.candidates Capacity.least twelve.entries.toNat) 16 ∧
      twelve.Foretells 16 := by
  have hleast : IsLeast
      (Capacity.candidates Capacity.least twelve.entries.toNat) 16 :=
    Capacity.isLeast_of_fit ⟨3, rfl⟩ rfl
  exact ⟨by decide +kernel, hleast, foretells_least hleast⟩

/-- More keys are removed than 32 bits with a sign can count. -/
def uncounted : Settings :=
  { entries := 2147483648, removeEvery := 1 }

theorem removed_uncounted :
    let transcript := uncounted.transcript slotLimit
    uncounted.removed = 2147483648 ∧ transcript.exitCode = 0 ∧
      transcript.output[2]? = some "Removed -2147483648 entries" ∧
      transcript.output[2]? ≠ some "Removed 2147483648 entries" ∧
      Guarded.transcript slotLimit uncounted = throw .overflow := by
  have hleast : IsLeast
      (Capacity.candidates Capacity.least 2147483648) 4294967296 :=
    Capacity.isLeast_of_fit ⟨3, rfl⟩ rfl
  have hlimit : 4294967296 ≤ slotLimit := by decide
  obtain ⟨figures, haccounts⟩ :=
    Report.exists_figures 1 (by decide) hleast hlimit (by decide)
  have htold : uncounted.Told slotLimit 4294967296 figures :=
    told_of_accounts haccounts
  have hremoved : uncounted.removed = 2147483648 := ceilDiv_one _
  have hwrapped : Report.wrapped uncounted.removed = -2147483648 := by
    rw [hremoved, ← Survey.toInt_ofNat_eq_wrapped]
    decide
  have hline : (uncounted.transcript slotLimit).output[2]? =
      some s!"Removed {Report.wrapped uncounted.removed} entries" := by
    rw [htold.output_eq]
    exact Report.getElem?_sheet (by decide)
  have hmany : ¬ uncounted.removed < 2 ^ 31 := by
    rw [hremoved]
    exact Nat.lt_irrefl _
  refine ⟨hremoved, ?_, ?_, ?_, ?_⟩
  · exact congrArg Transcript.exitCode (transcript_of_accounts haccounts)
  · rw [hline, hwrapped]
    rfl
  · have hshown := mt (htold.removed_shown_iff (by decide)).mp hmany
    rwa [hremoved] at hshown
  · rw [htold.guarded_eq le_rfl, if_neg fun h => hmany h.1]

end Settings

end LinearProbing
