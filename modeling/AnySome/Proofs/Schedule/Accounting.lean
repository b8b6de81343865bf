import AnySome.Proofs.Schedule.Safety

/-!
# The report accounts for every file

The outcomes of a report come from three places: the files that could not be
read, the files that were left alone because the run was stopped at the
barrier, and the tasks of the second phase. They are sorted by path in the
end, while discovery lists files as a walk meets them. On every schedule the
result is the list of discovered files, each of them once and in the order of
discovery.

The observer hears about exactly the files that the second phase took up.

## Main results

* `Schedule.outcomes_eq` — the outcomes, file by file in the order of
  discovery.
* `Schedule.report_accounts_for_every_file` — the report of every schedule over
  the files of a project.
-/

namespace AnySome.Schedule

/-! ## Counting outcomes -/

/-- Every outcome is counted once. -/
theorem counts_eq_length (r : Report) :
    r.changedCount + r.unchangedCount + r.failedCount = r.outcomes.length := by
  unfold Report.changedCount Report.unchangedCount Report.failedCount Report.failures
  induction r.outcomes with
  | nil => rfl
  | cons o os ih =>
    cases hstatus : o.status with
    | changed n => simp [hstatus] at ih ⊢; omega
    | unchanged => simp [hstatus] at ih ⊢; omega
    | failed e => simp [hstatus] at ih ⊢; omega

section Runs

variable {options : Options} {found : List FoundFile} {s : State} {report : Report}

/-! ## Outcomes in order -/

/-- The outcomes of all files of a run that is over, in the order of the files. -/
theorem map_path_outcome? (h : Inv options found s) (hreport : s.report = some report) :
    (s.slots.filterMap (Slot.outcome? s.phase)).map Outcome.path = found.map FoundFile.path := by
  have hall : ∀ slot ∈ s.slots, (slot.final? s.phase).isSome = true :=
    fun slot hslot => final?_isSome h hreport hslot
  rw [← h.files]
  generalize s.slots = slots at hall
  induction slots with
  | nil => rfl
  | cons slot slots ih =>
    obtain ⟨status, hstatus⟩ := Option.isSome_iff_exists.mp (hall slot List.mem_cons_self)
    have hrest := ih fun other hother => hall other (List.mem_cons_of_mem _ hother)
    simpa [List.filterMap_cons, Slot.outcome?, hstatus] using hrest

/-- Over strictly ascending files the outcomes are in the order of the files. -/
theorem outcomes_eq (h : Inv options found s) (hreport : s.report = some report)
    (hfound : found.Pairwise fun f g => Path.before f.path g.path = true) :
    report.outcomes = s.slots.filterMap (Slot.outcome? s.phase) := by
  obtain ⟨heq, -⟩ := h.report report hreport
  rw [heq]
  refine Report.sortByPath_eq_of_perm (perm_outcomes h) ?_
  have hpaths := map_path_outcome? h hreport
  have hordered : (found.map FoundFile.path).Pairwise fun p q => Path.before p q = true :=
    List.pairwise_map.mpr hfound
  rw [← hpaths, List.pairwise_map] at hordered
  exact hordered

/-- There is one outcome for each file. -/
theorem map_path_outcomes (h : Inv options found s) (hreport : s.report = some report)
    (hfound : found.Pairwise fun f g => Path.before f.path g.path = true) :
    report.outcomes.map Outcome.path = found.map FoundFile.path := by
  rw [outcomes_eq h hreport hfound]
  exact map_path_outcome? h hreport

/-! ## Calls of the observer -/

/-- The files that the second phase took up. -/
def State.entered (s : State) : List String :=
  if s.phase = .migrating then
    (s.slots.filter (·.readable?.isSome)).map fun slot => slot.file.path
  else []

/-- Where the second phase is over for a file, the observer has heard about it
exactly if it was taken up. -/
theorem isSome_told_of_settled {slot : Slot} (h : SlotInv options s slot)
    (hsettled : slot.isSettled = true) : slot.told?.isSome = slot.readable?.isSome := by
  unfold Slot.isSettled at hsettled
  split at hsettled
  next f hresult =>
    have hread : slot.readable?.isSome = true := by
      unfold Slot.result? at hresult
      split at hresult
      next hdone => cases hresult; simp [Slot.readable?, hdone]
      · contradiction
    rw [hsettled, hread]
  next e hresult =>
    have hread : slot.readable?.isSome = false := by
      unfold Slot.result? at hresult
      split at hresult
      next hdone => cases hresult; simp [Slot.readable?, hdone]
      · contradiction
    have hwaiting : slot.migrating = .waiting := by
      by_cases hw : slot.migrating = .waiting
      · exact hw
      · simp [h.entered hw] at hread
    simp [hread, Slot.told?, hwaiting]
  · contradiction

theorem map_path_told {slots : List Slot}
    (h : ∀ slot ∈ slots, slot.told?.isSome = slot.readable?.isSome) :
    (slots.filterMap fun slot => slot.told?.map fun status =>
        (⟨slot.file.path, status⟩ : Outcome)).map Outcome.path =
      (slots.filter (·.readable?.isSome)).map fun slot => slot.file.path := by
  induction slots with
  | nil => rfl
  | cons slot slots ih =>
    have hrest := ih fun other hother => h other (List.mem_cons_of_mem _ hother)
    have hslot := h slot List.mem_cons_self
    cases hstatus : slot.told? with
    | none =>
      have hread : slot.readable?.isSome = false := by rw [← hslot, hstatus]; rfl
      simpa [List.filterMap_cons, hstatus, List.filter_cons, hread] using hrest
    | some status =>
      have hread : slot.readable?.isSome = true := by rw [← hslot, hstatus]; rfl
      simpa [List.filterMap_cons, hstatus, List.filter_cons, hread] using hrest

/-- The observer heard about the files that the second phase took up, once
about each. -/
theorem perm_calls (h : Inv options found s) (hreport : s.report = some report) :
    (s.calls.map Outcome.path).Perm s.entered := by
  refine (h.calls.map Outcome.path).trans ?_
  obtain ⟨-, hphase⟩ := h.report report hreport
  unfold State.entered
  rcases hphase with hphase | ⟨hphase, hall⟩
  · -- Stopped at the barrier, no task of the second phase took a step.
    have hcalls : s.slots.filterMap (fun slot => slot.told?.map fun status =>
        (⟨slot.file.path, status⟩ : Outcome)) = [] := by
      rw [List.filterMap_eq_nil_iff]
      intro slot hslot
      have hwaiting := (h.slots slot hslot).idle (by simp [hphase])
      simp [Slot.told?, hwaiting]
    simp [hcalls, hphase]
  · rw [if_pos hphase, map_path_told]
    intro slot hslot
    exact isSome_told_of_settled (h.slots slot hslot) (List.all_eq_true.mp hall slot hslot)

/-- **The report accounts for every file.** Take the source files of any
project and any schedule over them, with cancellation at any moment, that ends
with a report. Its outcomes are one for each file, in the order of discovery;
its counters add up; and the observer was called exactly once for each file
that the second phase took up, and for no other. -/
theorem report_accounts_for_every_file {tree : Option FileTree} {actions : List State.Action}
    (hwf : ∀ t ∈ tree, t.WellFormed)
    (hfound : Discovery.discover options.root options.excludedFolders tree = .ok found)
    (hrun : State.run? options actions (State.initial found) = some s)
    (hreport : s.report = some report) :
    report.outcomes.map Outcome.path = found.map FoundFile.path ∧
    report.discovered = found.length ∧
    report.changedCount + report.unchangedCount + report.failedCount = report.discovered ∧
    ∀ path, (s.calls.map Outcome.path).count path = if path ∈ s.entered then 1 else 0 := by
  have h := Inv.run hrun
  have hordered := Discovery.pairwise_before_discover hwf hfound
  have hpaths := map_path_outcomes h hreport hordered
  have hdiscovered : report.discovered = found.length := by
    obtain ⟨rfl, -⟩ := h.report report hreport
    simp [State.finalReport, ← h.files]
  refine ⟨hpaths, hdiscovered, ?_, ?_⟩
  · have hlength := congrArg List.length hpaths
    rw [List.length_map, List.length_map] at hlength
    rw [counts_eq_length, hlength, hdiscovered]
  · intro path
    rw [(perm_calls h hreport).count_eq]
    -- no two files have the same path
    have hnodup : (found.map FoundFile.path).Nodup := by
      rw [List.nodup_iff_pairwise_ne, List.pairwise_map]
      refine hordered.imp ?_
      intro f g hbefore heq
      rw [Path.before, heq, Path.partsBefore_irrefl] at hbefore
      contradiction
    have hentered : s.entered.Nodup := by
      unfold State.entered
      split
      · refine List.Nodup.sublist ?_ hnodup
        rw [← h.files, List.map_map]
        exact List.filter_sublist.map _
      · exact List.nodup_nil
    exact hentered.count

end Runs

/-- A folder beside a file with the same stem: as texts their paths are in the
other order. The run is cancelled between its phases. -/
theorem report_accounts_for_every_file_stopped :
    ∃ options tree found actions s report,
      (∀ t ∈ tree, FileTree.WellFormed t) ∧
      Discovery.discover options.root options.excludedFolders tree = .ok found ∧
      State.run? options actions (State.initial found) = some s ∧ s.report = some report ∧
      report.outcomes.map Outcome.path = ["r/a/x.swift", "r/a.swift"] ∧
      report.changedCount + report.unchangedCount + report.failedCount = 2 := by
  let options := Options.ofRoot "r" [] ⟨.light, false⟩
  let tree : Option FileTree :=
    some (.folder [("a", .folder [("x.swift", .file (.text "let x: P"))]),
      ("a.swift", .file (.text "protocol P {}"))])
  let found : List FoundFile :=
    [⟨"r/a/x.swift", .text "let x: P"⟩, ⟨"r/a.swift", .text "protocol P {}"⟩]
  let actions : List State.Action :=
    [.collect 1, .collect 0, .collect 1, .collect 0, .collect 0, .collect 1, .collect 1, .freeze,
      .cancel, .check, .finish]
  have hwf : ∀ t ∈ tree, t.WellFormed := by
    intro t ht
    rw [← Option.some.inj ht]
    simp only [FileTree.WellFormed, FileTree.WellFormedEntries]
    decide +kernel
  have hfound : Discovery.discover options.root options.excludedFolders tree = .ok found := by
    have hwalk : (Discovery.discover options.root options.excludedFolders tree).toOption =
        some found := by decide +kernel
    cases hdiscover : Discovery.discover options.root options.excludedFolders tree with
    | error e => rw [hdiscover] at hwalk; cases hwalk
    | ok files => rw [hdiscover] at hwalk; cases hwalk; rfl
  have hover : ((State.run? options actions (State.initial found)).map (·.report.isSome)) =
      some true := by decide +kernel
  obtain ⟨s, hrun, hs⟩ := Option.map_eq_some_iff.mp hover
  obtain ⟨report, hreport⟩ := Option.isSome_iff_exists.mp hs
  obtain ⟨hpaths, hdiscovered, hcounts, -⟩ :=
    report_accounts_for_every_file hwf hfound hrun hreport
  exact ⟨options, tree, found, actions, s, report, hwf, hfound, hrun, hreport, hpaths,
    hcounts.trans hdiscovered⟩

end AnySome.Schedule
