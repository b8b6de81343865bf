import AnySome.Proofs.Rewrite.Order
import AnySome.Proofs.Schedule.Safety

/-!
# What is decided about a file

`Schedule.Inv` says what a file holds after a decision. This module adds where
a decision comes from: it is what migrating the file gives, or the flag was
raised, or a new text could not be written. And a run stops at the barrier only
when the flag was raised.

So in a run that ends with its flag down, every file that could be read was
migrated against the complete registry, and unless its new text was refused,
the file holds the text of its migration.

## Main results

* `Schedule.Decides.run` — where the decisions of every schedule come from.
* `Schedule.outcome_cases` — what becomes of a file in a run that was not
  cancelled.
* `Schedule.disk_of_decided` — what a file holds after a real run.
-/

namespace AnySome.Schedule

/-- Where a decision about a file can come from. -/
def Slot.Verdict (m : Migration) (dryRun cancelled : Bool) (s : Slot) (status : FileStatus) :
    Prop :=
  ∃ f, s.readable? = some f ∧
    (status = (Pipeline.migrate m false f).1 ∨
      (status = .failed .cancelled ∧ cancelled = true) ∨
      ∃ reason, status = .failed (.access reason) ∧ dryRun = false ∧
        (Pipeline.migrate m false f).2.isSome = true)

/-- Decisions come from migrating, from the flag or from refused writing, and
the barrier stops a run only for the flag. -/
structure Decides (options : Options) (s : State) : Prop where
  stopped : s.phase = .stopped → s.cancelled = true
  verdicts : ∀ slot ∈ s.slots, ∀ status, slot.status? = some status →
    slot.Verdict (s.migration options) options.dryRun s.cancelled status

namespace Slot

variable {m : Migration} {dryRun cancelled : Bool} {slot next : Slot}

theorem collecting_of_readable? {f : SourceFile} (h : slot.readable? = some f) :
    slot.collecting = .done (.ok f) := by
  unfold readable? at h
  split at h
  next g hg =>
    cases h
    exact hg
  · contradiction

/-- Raising the flag keeps where a decision comes from. -/
theorem Verdict.raised {status : FileStatus} (h : slot.Verdict m dryRun cancelled status) :
    slot.Verdict m dryRun true status := by
  obtain ⟨f, hread, hdecided | ⟨hstatus, -⟩ | hrefused⟩ := h
  · exact ⟨f, hread, .inl hdecided⟩
  · exact ⟨f, hread, .inr (.inl ⟨hstatus, rfl⟩)⟩
  · exact ⟨f, hread, .inr (.inr hrefused)⟩

/-- A step of the second phase decides by migrating or by the flag. -/
theorem verdict_migrate? (hstep : slot.migrate? m dryRun cancelled = some next)
    (hslot : ∀ status, slot.status? = some status → slot.Verdict m dryRun cancelled status)
    {status : FileStatus} (hstatus : next.status? = some status) :
    next.Verdict m dryRun cancelled status := by
  obtain ⟨-, hcollecting, -, -⟩ := frame_migrate? hstep
  have hreadable : next.readable? = slot.readable? := by
    unfold readable?
    rw [hcollecting]
  unfold Verdict
  rw [hreadable]
  unfold migrate? at hstep
  split at hstep
  next f hread hmigrating =>
    cases hstep
    cases cancelled with
    | true =>
      have hgiven : status = .failed .cancelled := (Option.some.inj hstatus).symm
      exact ⟨f, hread, .inr (.inl ⟨hgiven, rfl⟩)⟩
    | false => contradiction
  next f hread hmigrating =>
    cases hstep
    exact ⟨f, hread, .inl (Option.some.inj hstatus).symm⟩
  next f old hread hmigrating =>
    cases hstep
    refine hslot status ?_
    unfold status?
    rw [hmigrating]
    exact hstatus
  · contradiction

/-- A refused step had a text to write. -/
theorem verdict_refuse? {reason : String} (hstep : slot.refuse? m dryRun reason = some next)
    {status : FileStatus} (hstatus : next.status? = some status) :
    next.Verdict m dryRun cancelled status := by
  unfold refuse? at hstep
  split at hstep
  next f hread hmigrating =>
    split at hstep
    next hwrite =>
      cases hstep
      rw [Bool.and_eq_true, Bool.not_eq_true'] at hwrite
      exact ⟨f, hread, .inr (.inr ⟨reason, (Option.some.inj hstatus).symm, hwrite⟩)⟩
    · contradiction
  · contradiction

end Slot

namespace Decides

variable {options : Options} {found : List FoundFile} {s t : State}

/-- Before the second phase nothing is decided. -/
theorem of_idle (hinv : Inv options found s) (hphase : s.phase ≠ .migrating)
    (hstopped : s.phase = .stopped → s.cancelled = true) : Decides options s where
  stopped := hstopped
  verdicts := by
    intro slot hslot status hstatus
    have hwaiting := (hinv.slots slot hslot).idle hphase
    unfold Slot.status? at hstatus
    rw [hwaiting] at hstatus
    contradiction

/-- One action keeps where decisions come from. -/
theorem step {a : State.Action} (h : Decides options s) (hinv : Inv options found s)
    (hstep : s.step? options a = some t) : Decides options t := by
  have hnext := hinv.step hstep
  obtain ⟨-, hact⟩ := State.step?_eq_some hstep
  cases a with
  | cancel =>
    cases hact
    exact ⟨fun _ => rfl, fun slot hslot status hstatus => (h.verdicts slot hslot status hstatus).raised⟩
  | collect i =>
    obtain ⟨hphase, slot, next, registry, -, -, rfl⟩ := State.act?_collect hact
    have hidle : s.phase ≠ .migrating := by simp [hphase]
    exact of_idle hnext hidle h.stopped
  | freeze =>
    obtain ⟨-, -, rfl⟩ := State.act?_freeze hact
    exact of_idle hnext nofun nofun
  | check =>
    obtain ⟨hphase, rfl⟩ := State.act?_check hact
    have hidle : s.phase ≠ .migrating := by simp [hphase]
    refine ⟨?_, (of_idle hinv hidle h.stopped).verdicts⟩
    intro hstopped
    cases hcancelled : s.cancelled with
    | true => rfl
    | false =>
      simp only [hcancelled] at hstopped
      contradiction
  | migrate i =>
    obtain ⟨hphase, slot, next, hget, hmigrate, rfl⟩ := State.act?_migrate hact
    refine ⟨h.stopped, ?_⟩
    intro other hother status hstatus
    rcases List.mem_or_eq_of_mem_set hother with hold | rfl
    · exact h.verdicts other hold status hstatus
    · exact Slot.verdict_migrate? hmigrate
        (h.verdicts slot (List.mem_of_getElem? hget)) hstatus
  | refuse i reason =>
    obtain ⟨hphase, slot, next, hget, hrefuse, rfl⟩ := State.act?_refuse hact
    refine ⟨h.stopped, ?_⟩
    intro other hother status hstatus
    rcases List.mem_or_eq_of_mem_set hother with hold | rfl
    · exact h.verdicts other hold status hstatus
    · exact Slot.verdict_refuse? hrefuse hstatus
  | finish =>
    obtain ⟨-, rfl⟩ := State.act?_finish hact
    exact ⟨h.stopped, h.verdicts⟩

private theorem run_from {actions : List State.Action} (h : Decides options s)
    (hinv : Inv options found s) (hrun : State.run? options actions s = some t) :
    Decides options t := by
  induction actions generalizing s with
  | nil =>
    cases hrun
    exact h
  | cons a actions ih =>
    obtain ⟨next, hstep, hrest⟩ := Option.bind_eq_some_iff.mp hrun
    exact ih (h.step hinv hstep) (hinv.step hstep) hrest

/-- Where the decisions of every schedule come from. -/
theorem run {actions : List State.Action}
    (hrun : State.run? options actions (State.initial found) = some t) : Decides options t :=
  run_from (of_idle (Inv.initial options found) nofun nofun) (Inv.initial options found) hrun

end Decides

/-! ## Runs that were not cancelled -/

section Runs

variable {options : Options} {found : List FoundFile} {s : State} {report : Report} {slot : Slot}

theorem cancelled_of_report (h : Inv options found s) (hreport : s.report = some report) :
    report.cancelled = s.cancelled := by
  obtain ⟨rfl, -⟩ := h.report report hreport
  rfl

/-- A run that ends with its flag down has passed the barrier. -/
theorem phase_of_uncancelled (h : Inv options found s) (hdecides : Decides options s)
    (hreport : s.report = some report) (hcancelled : report.cancelled = false) :
    s.phase = .migrating := by
  rw [cancelled_of_report h hreport] at hcancelled
  obtain ⟨-, hstopped | ⟨hphase, -⟩⟩ := h.report report hreport
  · rw [hdecides.stopped hstopped] at hcancelled
    contradiction
  · exact hphase

/-- What becomes of a file in a run that was not cancelled: it could not be
read, or it was migrated against the complete registry, unless its new text was
refused. -/
theorem outcome_cases (h : Inv options found s) (hdecides : Decides options s)
    (hreport : s.report = some report) (hcancelled : report.cancelled = false)
    (hslot : slot ∈ s.slots) :
    let m := Pipeline.migrationOf options (completeRegistry found)
    (∃ e, Pipeline.collect false slot.file = .error e ∧
        slot.final? s.phase = some (.failed e) ∧ slot.status? = none) ∨
      ∃ f status, Pipeline.collect false slot.file = .ok f ∧ slot.readable? = some f ∧
        slot.final? s.phase = some status ∧ slot.status? = some status ∧
        (status = (Pipeline.migrate m false f).1 ∨
          ∃ reason, status = .failed (.access reason) ∧
            (Pipeline.migrate m false f).2.isSome = true) := by
  intro m
  have hphase := phase_of_uncancelled h hdecides hreport hcancelled
  have hdone := collecting_of_migrating h hphase hslot
  have hslotInv := h.slots slot hslot
  have hdown : s.cancelled = false := by rw [← cancelled_of_report h hreport, hcancelled]
  cases hcollect : Pipeline.collect false slot.file with
  | error e =>
    rw [hcollect] at hdone
    refine .inl ⟨e, rfl, by simp [Slot.final?, Slot.result?, hdone], ?_⟩
    have hwaiting : slot.migrating = .waiting := by
      by_cases hw : slot.migrating = .waiting
      · exact hw
      · have hread := hslotInv.entered hw
        simp [Slot.readable?, hdone] at hread
    simp [Slot.status?, hwaiting]
  | ok f =>
    rw [hcollect] at hdone
    have hresult : slot.result? = some (.ok f) := by simp [Slot.result?, hdone]
    have hfinal := final?_eq_status? h hreport hslot hphase hresult
    obtain ⟨status, hstatus⟩ := Option.isSome_iff_exists.mp (final?_isSome h hreport hslot)
    have hdecided : slot.status? = some status := by rw [← hfinal, hstatus]
    have hverdict := hdecides.verdicts slot hslot status hdecided
    rw [State.migration, registry_eq_of_migrating h hphase, hdown] at hverdict
    obtain ⟨g, hg, horigin⟩ := hverdict
    have hread : slot.readable? = some f := by simp [Slot.readable?, hdone]
    obtain rfl : f = g := Option.some.inj (hread.symm.trans hg)
    refine .inr ⟨f, status, rfl, hread, hstatus, hdecided, ?_⟩
    rcases horigin with hmigrated | ⟨-, hraised⟩ | ⟨reason, hrefused, -, hwrite⟩
    · exact .inl hmigrated
    · contradiction
    · exact .inr ⟨reason, hrefused, hwrite⟩

/-- Only a file whose text stays is reported as unchanged. -/
theorem render_of_migrate_unchanged {m : Migration} {f : SourceFile}
    (h : (Pipeline.migrate m false f).1 = .unchanged) : (m.file f).render = f.text := by
  unfold Pipeline.migrate at h
  rw [if_neg Bool.false_ne_true] at h
  dsimp only at h
  split at h
  next hsame => exact hsame
  · contradiction

/-- After a real run a file about which its migration has decided holds the
text of that migration. -/
theorem disk_of_decided (h : Inv options found s) (hwet : options.dryRun = false)
    (hphase : s.phase = .migrating) (hslot : slot ∈ s.slots) {f : SourceFile}
    (hread : slot.readable? = some f)
    (hstatus : slot.status? = some
      (Pipeline.migrate (Pipeline.migrationOf options (completeRegistry found)) false f).1) :
    slot.disk =
      .text ((Pipeline.migrationOf options (completeRegistry found)).file f).render := by
  have hsettled := (h.slots slot hslot).settled _ hstatus
  rw [State.migration, registry_eq_of_migrating h hphase] at hsettled
  cases hsettled with
  | kept disk reason =>
    have hcollect := (h.slots slot hslot).read f (Slot.collecting_of_readable? hread)
    obtain ⟨text, hcontents, hparse⟩ := collect_eq_ok hcollect
    have hkept : (Pipeline.migrate (Pipeline.migrationOf options (completeRegistry found))
        false f).1 = .unchanged := by
      rcases migrate_cases (Pipeline.migrationOf options (completeRegistry found)) f with hm | hm
      · rw [hm]
      · rcases reason with hdry | hother
        · rw [hwet] at hdry
          contradiction
        · exact absurd (congrArg Prod.fst hm) (hother _)
    rw [disk, hcontents, render_of_migrate_unchanged hkept, SourceFile.text_of_parse hparse]
  | written g n text wet readable migrated changed disk =>
    obtain rfl : f = g := Option.some.inj (hread.symm.trans readable)
    rcases migrate_cases (Pipeline.migrationOf options (completeRegistry found)) f with hm | hm
    · rw [hm] at migrated
      cases migrated
    · rw [hm] at migrated
      cases migrated
      exact disk

/-- Every outcome of a report is that of a file. -/
theorem exists_slot_of_mem_outcomes (h : Inv options found s) (hreport : s.report = some report)
    {o : Outcome} (ho : o ∈ report.outcomes) :
    ∃ slot ∈ s.slots, slot.final? s.phase = some o.status ∧ o.path = slot.file.path := by
  obtain ⟨rfl, -⟩ := h.report report hreport
  rw [State.finalReport, (Report.perm_sortByPath _).mem_iff, (perm_outcomes h).mem_iff,
    List.mem_filterMap] at ho
  obtain ⟨slot, hslot, houtcome⟩ := ho
  obtain ⟨status, hstatus, rfl⟩ := Option.map_eq_some_iff.mp houtcome
  exact ⟨slot, hslot, hstatus, rfl⟩

end Runs

end AnySome.Schedule
