import AnySome.Proofs.PathOrder
import AnySome.Proofs.Schedule.Invariant

/-!
# No file is written against an incomplete registry

Names that are missing in a registry would be taken for something else than
interfaces, so a file must not be migrated before every name is known. The
invariant gives that for every schedule: behind the barrier the registry is
the union of the names of all files that can be read at all
(`registry_eq_of_migrating`), whatever the order in which they came and
whenever the run is cancelled, and nothing but a decision behind the barrier
changes a file.

## Main results

* `Schedule.perm_outcomes` — a report holds the last status of every file.
* `Schedule.written_file_saw_complete_registry` — a file that holds something
  else than before holds its migration against the complete registry.
-/

namespace AnySome.Schedule

/-! ## What becomes of a file -/

namespace Slot

/-- What became of the file in a run that is over in the given phase. -/
def final? (phase : Phase) (s : Slot) : Option FileStatus :=
  match s.result? with
  | none => none
  | some (.error e) => some (.failed e)
  | some (.ok _) => if phase = .stopped then some (.failed .cancelled) else s.told?

/-- The outcome of the file in a run that is over in the given phase. -/
def outcome? (phase : Phase) (s : Slot) : Option Outcome :=
  (s.final? phase).map fun status => ⟨s.file.path, status⟩

end Slot

/-- What the first phase found out about the given files. -/
private def resultsOf (slots : List Slot) : List (String × Except FileError SourceFile) :=
  slots.filterMap fun slot => slot.result?.map fun result => (slot.file.path, result)

/-- What the observer was told about the given files. -/
private def toldOf (slots : List Slot) : List Outcome :=
  slots.filterMap fun slot => slot.told?.map fun status => ⟨slot.file.path, status⟩

/-- Outcomes are assembled from the files that could not be read and from
those that could; together they are the outcomes of all files. -/
private theorem perm_assembled (phase : Phase) (slots : List Slot)
    (hentered : ∀ slot ∈ slots, slot.told?.isSome = true → ∃ f, slot.result? = some (.ok f)) :
    (Pipeline.unreadable (resultsOf slots) ++
      if phase = .stopped then
        (Pipeline.readable (resultsOf slots)).map fun (path, _) => ⟨path, .failed .cancelled⟩
      else toldOf slots).Perm (slots.filterMap (Slot.outcome? phase)) := by
  induction slots with
  | nil => simp [resultsOf, toldOf, Pipeline.unreadable, Pipeline.readable]
  | cons slot slots ih =>
    have hrest := ih fun other hother => hentered other (List.mem_cons_of_mem _ hother)
    -- nobody is told about a file that could not be read
    have huntold : (∀ f, slot.result? ≠ some (.ok f)) → slot.told? = none := by
      intro hunread
      rw [Option.eq_none_iff_forall_ne_some]
      intro status hsome
      obtain ⟨f, hf⟩ := hentered slot List.mem_cons_self (by simp [hsome])
      exact hunread f hf
    match hresult : slot.result? with
    | none =>
      have htold := huntold (by simp [hresult])
      simpa [resultsOf, toldOf, List.filterMap_cons, hresult, htold, Slot.outcome?,
        Slot.final?] using hrest
    | some (.error e) =>
      have htold := huntold (by simp [hresult])
      simpa [resultsOf, toldOf, List.filterMap_cons, hresult, htold, Slot.outcome?, Slot.final?,
        Pipeline.unreadable, Pipeline.readable] using hrest
    | some (.ok f) =>
      by_cases hphase : phase = .stopped
      · simp only [hphase, ↓reduceIte] at hrest ⊢
        simpa [resultsOf, List.filterMap_cons, hresult, Slot.outcome?, Slot.final?,
          Pipeline.unreadable, Pipeline.readable] using List.perm_middle.trans (hrest.cons _)
      · simp only [hphase, ↓reduceIte] at hrest ⊢
        cases htold : slot.told? with
        | none =>
          simpa [resultsOf, toldOf, List.filterMap_cons, hresult, Slot.outcome?, Slot.final?,
            hphase, htold, Pipeline.unreadable] using hrest
        | some status =>
          simpa [resultsOf, toldOf, List.filterMap_cons, hresult, Slot.outcome?, Slot.final?,
            hphase, htold, Pipeline.unreadable] using List.perm_middle.trans (hrest.cons _)

section Runs

variable {options : Options} {found : List FoundFile} {s : State}

/-- The outcomes of a state are those of its files. -/
theorem perm_outcomes (h : Inv options found s) :
    (Pipeline.unreadable s.collected ++ s.secondPhase).Perm
      (s.slots.filterMap (Slot.outcome? s.phase)) := by
  refine perm_assembled s.phase s.slots ?_
  intro slot hslot htold
  have hread := (h.slots slot hslot).entered (by intro hw; simp [Slot.told?, hw] at htold)
  obtain ⟨f, hf⟩ := Option.isSome_iff_exists.mp hread
  unfold Slot.readable? at hf
  split at hf
  next g hg => exact ⟨g, by simp [Slot.result?, hg]⟩
  · contradiction

/-- In a run that is over every file has a status. -/
theorem final?_isSome {report : Report} (h : Inv options found s) (hreport : s.report = some report)
    {slot : Slot} (hslot : slot ∈ s.slots) : (slot.final? s.phase).isSome = true := by
  obtain ⟨-, hphase⟩ := h.report report hreport
  rcases hphase with hphase | ⟨hphase, hall⟩
  · have hcollected := (h.slots slot hslot).collected (by simp [hphase])
    obtain ⟨result, hresult⟩ := Option.isSome_iff_exists.mp hcollected
    cases result <;> simp [Slot.final?, hresult, hphase]
  · have hsettled := List.all_eq_true.mp hall slot hslot
    unfold Slot.isSettled at hsettled
    split at hsettled
    next f hresult => simpa [Slot.final?, hresult, hphase] using hsettled
    next e hresult => simp [Slot.final?, hresult]
    · contradiction

/-- The status of every file is in the report. -/
theorem mem_outcomes {report : Report} (h : Inv options found s) (hreport : s.report = some report)
    {slot : Slot} (hslot : slot ∈ s.slots) {status : FileStatus}
    (hstatus : slot.final? s.phase = some status) :
    ⟨slot.file.path, status⟩ ∈ report.outcomes := by
  obtain ⟨rfl, -⟩ := h.report report hreport
  rw [State.finalReport, (Report.perm_sortByPath _).mem_iff, (perm_outcomes h).mem_iff,
    List.mem_filterMap]
  exact ⟨slot, hslot, by simp [Slot.outcome?, hstatus]⟩

/-! ## The registry of the second phase -/

/-- The names of all files that can be read. -/
def completeRegistry (found : List FoundFile) : Registry :=
  Pipeline.registryOf
    (Pipeline.readable (found.map fun f => (f.path, Pipeline.collect false f)))

theorem mem_completeRegistry {found : List FoundFile} {x : String} :
    x ∈ completeRegistry found ↔
      ∃ file ∈ found, ∃ f, Pipeline.collect false file = .ok f ∧ x ∈ f.interfaceNames := by
  have hempty : ¬x ∈ Registry.empty := List.not_mem_nil
  simp only [completeRegistry, Pipeline.registryOf, Registry.ofList, Registry.mem_addAll, hempty,
    or_false, Pipeline.readable, List.filterMap_map, List.mem_flatMap, List.mem_filterMap,
    Function.comp_apply]
  constructor
  · rintro ⟨⟨path, f⟩, ⟨file, hfile, hread⟩, hx⟩
    split at hread
    next g hg => cases hread; exact ⟨file, hfile, f, hg, hx⟩
    · contradiction
  · rintro ⟨file, hfile, f, hf, hx⟩
    exact ⟨(file.path, f), ⟨file, hfile, by simp [hf]⟩, hx⟩

/-- Behind the barrier every task of the first phase has come to the end that
its file leads to. -/
theorem collecting_of_migrating (h : Inv options found s) (hphase : s.phase = .migrating)
    {slot : Slot} (hslot : slot ∈ s.slots) :
    slot.collecting = .done (Pipeline.collect false slot.file) := by
  have hinv := h.slots slot hslot
  have hcollected := hinv.collected (by simp [hphase])
  unfold Slot.result? at hcollected
  split at hcollected
  next result hresult =>
    cases result with
    | ok f => rw [hresult, hinv.read f hresult]
    | error e =>
      rcases hinv.unread e hresult with ⟨rfl, -⟩ | hfile
      · exact absurd hresult (hinv.complete hphase)
      · rw [hresult, hfile]
  · contradiction

/-- Behind the barrier the registry is complete. -/
theorem registry_eq_of_migrating (h : Inv options found s) (hphase : s.phase = .migrating) :
    s.registry = completeRegistry found := by
  refine Registry.ext_names fun x => ?_
  rw [h.registry x, mem_completeRegistry, ← h.files]
  constructor
  · rintro ⟨slot, hslot, hx⟩
    have hdone := collecting_of_migrating h hphase hslot
    refine ⟨slot.file, List.mem_map_of_mem hslot, ?_⟩
    unfold Slot.registered at hx
    rw [hdone] at hx
    cases hcollect : Pipeline.collect false slot.file with
    | error e => simp [hcollect] at hx
    | ok f => exact ⟨f, rfl, by simpa [hcollect] using hx⟩
  · rintro ⟨file, hfile, f, hf, hx⟩
    obtain ⟨slot, hslot, rfl⟩ := List.mem_map.mp hfile
    have hdone := collecting_of_migrating h hphase hslot
    exact ⟨slot, hslot, by simpa [Slot.registered, hdone, hf] using hx⟩

/-- A file that can be read holds a text that is accepted. -/
theorem collect_eq_ok {file : FoundFile} {f : SourceFile}
    (h : Pipeline.collect false file = .ok f) :
    ∃ text, file.contents = .text text ∧ SourceFile.parse file.path text = .ok f := by
  unfold Pipeline.collect at h
  simp only [Bool.false_eq_true, ↓reduceIte] at h
  split at h
  · contradiction
  next text htext =>
    refine ⟨text, ?_, ?_⟩
    · unfold Contents.asText at htext
      split at htext
      next => cases htext; assumption
      all_goals contradiction
    · cases hparse : SourceFile.parse file.path text with
      | error e => rw [hparse] at h; cases h
      | ok g => rw [hparse] at h; cases h; rfl

/-- A file that holds something else than before was changed behind the
barrier: it holds its migration against the complete registry. -/
theorem written_of_disk_ne (h : Inv options found s) {slot : Slot} (hslot : slot ∈ s.slots)
    (hne : slot.disk ≠ slot.file.contents) :
    s.phase = .migrating ∧ options.dryRun = false ∧ ∃ text f n,
      slot.file.contents = .text text ∧ SourceFile.parse slot.file.path text = .ok f ∧
      slot.disk =
        .text ((Pipeline.migrationOf options (completeRegistry found)).file f).render ∧
      slot.result? = some (.ok f) ∧ slot.status? = some (.changed n) := by
  have hinv := h.slots slot hslot
  cases hstatus : slot.status? with
  | none => exact absurd (hinv.kept hstatus) hne
  | some status =>
    have hphase : s.phase = .migrating := by
      by_cases hphase : s.phase = .migrating
      · exact hphase
      · simp [Slot.status?, hinv.idle hphase] at hstatus
    have hdone := collecting_of_migrating h hphase hslot
    cases hinv.settled status hstatus with
    | kept disk => exact absurd disk hne
    | written f n new wet readable migrated changed disk =>
      have hcollect : Pipeline.collect false slot.file = .ok f := by
        unfold Slot.readable? at readable
        rw [hdone] at readable
        split at readable
        next g hg =>
          cases readable
          simpa using hg
        · contradiction
      obtain ⟨text, hcontents, hparse⟩ := collect_eq_ok hcollect
      have hnew : new = ((Pipeline.migrationOf options (completeRegistry found)).file f).render := by
        rw [State.migration, registry_eq_of_migrating h hphase] at migrated
        rcases migrate_cases (Pipeline.migrationOf options (completeRegistry found)) f with hm | hm
        · rw [hm] at migrated; cases migrated
        · rw [hm] at migrated; cases migrated; rfl
      refine ⟨hphase, wet, text, f, n, hcontents, hparse, hnew ▸ disk, ?_, by rw [changed]⟩
      simp [Slot.result?, hdone, hcollect]

/-- In a run that is over, a file that could be read has its last status. -/
theorem final?_eq_status? (h : Inv options found s) {report : Report}
    (hreport : s.report = some report) {slot : Slot} (hslot : slot ∈ s.slots)
    (hphase : s.phase = .migrating) {f : SourceFile} (hread : slot.result? = some (.ok f)) :
    slot.final? s.phase = slot.status? := by
  have hsome := final?_isSome h hreport hslot
  have hfinal : slot.final? s.phase = slot.told? := by simp [Slot.final?, hread, hphase]
  rw [hfinal] at hsome ⊢
  unfold Slot.told? at hsome
  split at hsome
  next status hdone => simp [Slot.told?, Slot.status?, hdone]
  · contradiction

/-- **No file is written against an incomplete registry.** Take any schedule
over any files, with cancellation at any moment, that ends with a report.
A file that holds something else than before was written in a real run in
which no task of the first phase gave up for cancellation; every moment of
its second phase had the names of all readable files; it holds the migration
of what was read there against them, and is reported as changed. A file that
is reported otherwise, and every file of a dry run, holds what it held. -/
theorem written_file_saw_complete_registry {actions : List State.Action} {report : Report}
    (hrun : State.run? options actions (State.initial found) = some s)
    (hreport : s.report = some report) :
    s.slots.map Slot.file = found ∧
    (∀ slot ∈ s.slots, slot.disk ≠ slot.file.contents →
      options.dryRun = false ∧
      (∀ other ∈ s.slots, ∃ result, other.collecting = .done result ∧
        result ≠ .error .cancelled) ∧
      (∀ before t, before <+: actions →
        State.run? options before (State.initial found) = some t → t.phase = .migrating →
        t.registry = completeRegistry found) ∧
      ∃ text f n, slot.file.contents = .text text ∧
        SourceFile.parse slot.file.path text = .ok f ∧
        slot.disk =
          .text ((Pipeline.migrationOf options (completeRegistry found)).file f).render ∧
        slot.final? s.phase = some (.changed n) ∧
        ⟨slot.file.path, .changed n⟩ ∈ report.outcomes) ∧
    (∀ slot ∈ s.slots, ∃ status, slot.final? s.phase = some status ∧
      ⟨slot.file.path, status⟩ ∈ report.outcomes ∧
      ((options.dryRun = true ∨ ∀ n, status ≠ .changed n) →
        slot.disk = slot.file.contents)) := by
  have h := Inv.run hrun
  refine ⟨h.files, ?_, ?_⟩
  · intro slot hslot hne
    obtain ⟨hphase, hwet, text, f, n, hcontents, hparse, hdisk, hread, hstatus⟩ :=
      written_of_disk_ne h hslot hne
    have hfinal := final?_eq_status? h hreport hslot hphase hread
    rw [hstatus] at hfinal
    refine ⟨hwet, ?_, ?_, text, f, n, hcontents, hparse, hdisk, hfinal,
      mem_outcomes h hreport hslot hfinal⟩
    · intro other hother
      have hdone := collecting_of_migrating h hphase hother
      refine ⟨_, hdone, fun heq => ?_⟩
      rw [heq] at hdone
      exact (h.slots other hother).complete hphase hdone
    · intro before t _ hbefore hmigrating
      exact registry_eq_of_migrating (Inv.run hbefore) hmigrating
  · intro slot hslot
    obtain ⟨status, hstatus⟩ := Option.isSome_iff_exists.mp (final?_isSome h hreport hslot)
    refine ⟨status, hstatus, mem_outcomes h hreport hslot hstatus, ?_⟩
    intro hreason
    -- otherwise the file was changed, and its status says so
    rcases Classical.em (slot.disk = slot.file.contents) with hdisk | hne
    · exact hdisk
    · obtain ⟨hphase, hwet, text, f, n, -, -, -, hread, hchanged⟩ := written_of_disk_ne h hslot hne
      have hfinal := final?_eq_status? h hreport hslot hphase hread
      rw [hstatus, hchanged] at hfinal
      rcases hreason with hdry | hother
      · simp [hwet] at hdry
      · exact absurd (Option.some.inj hfinal) (hother n)

end Runs

/-- Two files whose tasks overlap, cancelled while the second of them is being
migrated: it is written all the same, against the protocol of the first. -/
theorem written_file_saw_complete_registry_overlapping :
    ∃ options found actions s report,
      State.run? options actions (State.initial found) = some s ∧ s.report = some report ∧
      ∃ slot ∈ s.slots, slot.disk ≠ slot.file.contents ∧ slot.disk = .text "let x: any P" ∧
        options.dryRun = false ∧ ∃ n, ⟨slot.file.path, .changed n⟩ ∈ report.outcomes := by
  let options := Options.ofRoot "p" [] ⟨.strict, false⟩
  let found : List FoundFile :=
    [⟨"p/a.swift", .text "protocol P {}"⟩, ⟨"p/b.swift", .text "let x: P"⟩]
  let actions : List State.Action :=
    [.collect 1, .collect 0, .collect 0, .collect 1, .collect 1, .collect 0, .collect 0, .freeze,
      .check, .migrate 1, .cancel, .migrate 1, .migrate 0, .migrate 1, .migrate 0, .finish]
  have hdisks : ((State.run? options actions (State.initial found)).map fun s =>
      (s.report.isSome, s.slots.map Slot.disk)) =
      some (true, [.text "protocol P {}", .text "let x: any P"]) := by decide +kernel
  obtain ⟨s, hrun, hs⟩ := Option.map_eq_some_iff.mp hdisks
  rw [Prod.mk.injEq] at hs
  obtain ⟨report, hreport⟩ := Option.isSome_iff_exists.mp hs.1
  obtain ⟨hfiles, hwritten, -⟩ := written_file_saw_complete_registry hrun hreport
  obtain ⟨first, second, hslots⟩ : ∃ first second, s.slots = [first, second] := by
    have hlength := congrArg List.length hs.2
    match hslots : s.slots with
    | [first, second] => exact ⟨first, second, rfl⟩
    | [] | [_] | _ :: _ :: _ :: _ => simp [hslots] at hlength
  simp only [hslots, List.map_cons, List.map_nil, List.cons.injEq, and_true, found] at hfiles hs
  have hne : second.disk ≠ second.file.contents := by
    rw [hs.2.2, hfiles.2]
    decide
  have hmem : second ∈ s.slots := by simp [hslots]
  obtain ⟨hwet, -, -, -, -, n, -, -, -, -, hmem'⟩ := hwritten second hmem hne
  exact ⟨options, found, actions, s, report, hrun, hreport, second, hmem, hne, hs.2.2, hwet, n,
    hmem'⟩

end AnySome.Schedule
