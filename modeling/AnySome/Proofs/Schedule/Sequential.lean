import Mathlib.Data.Option.Basic
import AnySome.Proofs.Schedule.Basic

/-!
# One worker is one schedule

`Pipeline.run` is one of the schedules: one worker gives each file its turn in
the order of discovery, and the flag is raised after the number of turns that
the cancellation names. So what holds of all schedules holds of it, and its
report, its calls and its writes are those of that schedule.

The schedule is built file by file. `Reaches` says that some actions lead from
one state to another; it is transitive, so the proof follows the phases.

## Main results

* `Schedule.run_is_schedule` — the run of one worker is a schedule.
-/

namespace AnySome.Schedule

/-- Some actions lead from one state to the other. -/
def Reaches (options : Options) (s t : State) : Prop :=
  ∃ actions, State.run? options actions s = some t

namespace Reaches

variable {options : Options} {s t u : State}

theorem refl (options : Options) (s : State) : Reaches options s s := ⟨[], rfl⟩

theorem trans (hst : Reaches options s t) (htu : Reaches options t u) : Reaches options s u := by
  obtain ⟨as, has⟩ := hst
  obtain ⟨bs, hbs⟩ := htu
  exact ⟨as ++ bs, by rw [State.run?_append, has]; exact hbs⟩

end Reaches

/-! ## The first phase -/

section FirstPhase

variable {options : Options} {s : State} {front back : List Slot} {slot next : Slot}
  {before after : Registry}

/-- A step of the first phase at a known place. -/
private theorem reaches_collect (hphase : s.phase = .collecting) (hreport : s.report = none)
    (hstep : slot.collect? s.cancelled before = some (next, after)) :
    Reaches options { s with slots := front ++ slot :: back, registry := before }
      { s with slots := front ++ next :: back, registry := after } := by
  refine ⟨[.collect front.length], ?_⟩
  simp [State.run?, State.step?, State.act?, hphase, hreport, hstep, guard]

/-- The names that a result of the first phase brings. -/
private def namesOf : Except FileError SourceFile → List String
  | .ok f => f.interfaceNames
  | .error _ => []

/-- A file after its turn in the first phase. -/
private def collectedSlot (cancelled : Bool) (f : FoundFile) : Slot :=
  ⟨f, f.contents, .done (Pipeline.collect cancelled f), .waiting⟩

/-- The rest of the names of a file are registered one by one. -/
private theorem reaches_registered (options : Options) (front back : List Slot)
    (found : FoundFile) (f : SourceFile) (hphase : s.phase = .collecting)
    (hreport : s.report = none) :
    ∀ (todo count : Nat) (before : Registry), todo + count = f.interfaceNames.length →
      Reaches options
        { s with
          slots := front ++ ⟨found, found.contents, .registering f count, .waiting⟩ :: back
          registry := before }
        { s with
          slots := front ++ ⟨found, found.contents, .done (.ok f), .waiting⟩ :: back
          registry := before.addAll (f.interfaceNames.drop count) } := by
  intro todo
  induction todo with
  | zero =>
    intro count before hcount
    have hnone : f.interfaceNames[count]? = none := List.getElem?_eq_none_iff.mpr (by omega)
    have hdrop : f.interfaceNames.drop count = [] := List.drop_eq_nil_iff.mpr (by omega)
    rw [hdrop]
    exact reaches_collect hphase hreport (by simp [Slot.collect?, hnone, Registry.addAll])
  | succ todo ih =>
    intro count before hcount
    have hlt : count < f.interfaceNames.length := by omega
    have hsome := List.getElem?_eq_getElem hlt
    have hrest := ih (count + 1) (before.add f.interfaceNames[count]) (by omega)
    rw [List.drop_eq_getElem_cons hlt]
    refine Reaches.trans (reaches_collect hphase hreport ?_) hrest
    simp [Slot.collect?, hsome]

/-- A file has its turn in the first phase. -/
private theorem reaches_collected (options : Options) (front back : List Slot)
    (f : FoundFile) (before : Registry) (hphase : s.phase = .collecting)
    (hreport : s.report = none) :
    Reaches options
      { s with slots := front ++ Slot.ofFound f :: back, registry := before }
      { s with
        slots := front ++ collectedSlot s.cancelled f :: back
        registry := before.addAll (namesOf (Pipeline.collect s.cancelled f)) } := by
  by_cases hcancelled : s.cancelled = true
  · refine reaches_collect hphase hreport ?_
    simp [Slot.collect?, Slot.ofFound, hcancelled, collectedSlot, Pipeline.collect, namesOf,
      Registry.addAll]
  · rw [Bool.not_eq_true] at hcancelled
    have hslot : collectedSlot s.cancelled f = collectedSlot false f := by rw [hcancelled]
    have hresult : Pipeline.collect s.cancelled f = Pipeline.collect false f := by
      rw [hcancelled]
    rw [hslot, hresult]
    have hadmitted : Reaches options
        { s with slots := front ++ Slot.ofFound f :: back, registry := before }
        { s with
          slots := front ++ ⟨f, f.contents, .admitted, .waiting⟩ :: back, registry := before } := by
      refine reaches_collect hphase hreport ?_
      simp [Slot.collect?, Slot.ofFound, hcancelled]
    refine hadmitted.trans ?_
    cases hcollect : Pipeline.collect false f with
    | error e =>
      refine reaches_collect hphase hreport ?_
      simp [Slot.collect?, hcollect, collectedSlot, namesOf, Registry.addAll]
    | ok g =>
      have hnames := reaches_registered options front back f g hphase hreport
        g.interfaceNames.length 0 before (by simp)
      rw [List.drop_zero] at hnames
      rw [collectedSlot, hcollect]
      refine Reaches.trans (reaches_collect hphase hreport ?_) hnames
      simp [Slot.collect?, hcollect]

/-- All files have their turns in the first phase. -/
private theorem reaches_all_collected (options : Options) (hphase : s.phase = .collecting) (hreport : s.report = none) :
    ∀ (found : List FoundFile) (front : List Slot) (before : Registry),
      Reaches options
        { s with slots := front ++ found.map Slot.ofFound, registry := before }
        { s with
          slots := front ++ found.map (collectedSlot s.cancelled)
          registry := before.addAll
            (found.flatMap fun f => namesOf (Pipeline.collect s.cancelled f)) } := by
  intro found
  induction found with
  | nil => intro front before; exact Reaches.refl _ _
  | cons f found ih =>
    intro front before
    have hturn := reaches_collected options front (found.map Slot.ofFound) f before hphase hreport
    have hrest := ih (front ++ [collectedSlot s.cancelled f])
      (before.addAll (namesOf (Pipeline.collect s.cancelled f)))
    simp only [List.append_assoc, List.singleton_append] at hrest
    simpa [Registry.addAll, List.foldl_append] using hturn.trans hrest

end FirstPhase

/-! ## The second phase -/

section SecondPhase

variable {options : Options} {s : State} {front back : List Slot} {slot next : Slot}
  {calls : List Outcome}

/-- A step of the second phase at a known place. -/
private theorem reaches_migrate (hphase : s.phase = .migrating) (hreport : s.report = none)
    (hstep : slot.migrate? (s.migration options) options.dryRun s.cancelled = some next) :
    Reaches options { s with slots := front ++ slot :: back, calls }
      { s with
        slots := front ++ next :: back
        calls := calls ++ next.told?.toList.map fun status => ⟨next.file.path, status⟩ } := by
  refine ⟨[.migrate front.length], ?_⟩
  rw [State.migration] at hstep
  simp [State.run?, State.step?, State.act?, State.migration, hphase, hreport, hstep, guard]

/-- A file after its turn in the second phase. -/
private def migratedSlot (m : Migration) (dryRun cancelled : Bool) (found : FoundFile)
    (f : SourceFile) : Slot :=
  let turn := Pipeline.migrate m cancelled f
  ⟨found, Slot.writeBack dryRun turn.2 found.contents, .done (.ok f), .done turn.1⟩

/-- A file has its turn in the second phase. -/
private theorem reaches_migrated (options : Options) (front back : List Slot)
    (calls : List Outcome) (found : FoundFile) (f : SourceFile) (hphase : s.phase = .migrating)
    (hreport : s.report = none) :
    Reaches options
      { s with
        slots := front ++ ⟨found, found.contents, .done (.ok f), .waiting⟩ :: back, calls }
      { s with
        slots := front ++
          migratedSlot (s.migration options) options.dryRun s.cancelled found f :: back
        calls := calls ++
          [⟨found.path, (Pipeline.migrate (s.migration options) s.cancelled f).1⟩] } := by
  by_cases hcancelled : s.cancelled = true
  · have hdecided : Reaches options
        { s with
          slots := front ++ ⟨found, found.contents, .done (.ok f), .waiting⟩ :: back, calls }
        { s with
          slots := front ++
            ⟨found, found.contents, .done (.ok f), .decided (.failed .cancelled)⟩ :: back
          calls := calls ++ [] } := by
      refine reaches_migrate hphase hreport ?_
      simp [Slot.migrate?, Slot.readable?, hcancelled]
    have hturn : Pipeline.migrate (s.migration options) s.cancelled f =
        (.failed .cancelled, none) := by
      simp [Pipeline.migrate, hcancelled]
    rw [List.append_nil] at hdecided
    rw [migratedSlot, hturn]
    refine hdecided.trans (reaches_migrate hphase hreport ?_)
    cases hdry : options.dryRun <;> simp [Slot.migrate?, Slot.readable?, Slot.writeBack]
  · have hadmitted : Reaches options
        { s with
          slots := front ++ ⟨found, found.contents, .done (.ok f), .waiting⟩ :: back, calls }
        { s with
          slots := front ++ ⟨found, found.contents, .done (.ok f), .admitted⟩ :: back
          calls := calls ++ [] } := by
      refine reaches_migrate hphase hreport ?_
      simp [Slot.migrate?, Slot.readable?, hcancelled]
    rw [Bool.not_eq_true] at hcancelled
    have hturn : Pipeline.migrate (s.migration options) s.cancelled f =
        Pipeline.migrate (s.migration options) false f := by
      rw [hcancelled]
    have hdecided : Reaches options
        { s with
          slots := front ++ ⟨found, found.contents, .done (.ok f), .admitted⟩ :: back, calls }
        { s with
          slots := front ++
            ⟨found, Slot.writeBack options.dryRun
                (Pipeline.migrate (s.migration options) false f).2 found.contents,
              .done (.ok f), .decided (Pipeline.migrate (s.migration options) false f).1⟩ :: back
          calls := calls ++ [] } := by
      refine reaches_migrate hphase hreport ?_
      simp [Slot.migrate?, Slot.readable?]
    rw [List.append_nil] at hadmitted hdecided
    rw [migratedSlot, hturn]
    refine hadmitted.trans (hdecided.trans (reaches_migrate hphase hreport ?_))
    simp [Slot.migrate?, Slot.readable?]

/-- The text that was written to the file, if one was. -/
def Slot.written? (dryRun : Bool) (s : Slot) : Option (String × String) :=
  match dryRun, s.told?, s.disk with
  | false, some (.changed _), .text text => some (s.file.path, text)
  | _, _, _ => none

/-- What files look like after their turns in the second phase, where `turns`
are the turns of those among them that could be read. -/
private structure Migrated (dryRun : Bool) (found : List FoundFile)
    (turns : List (Outcome × Option String)) (slots : List Slot) : Prop where
  settled : slots.all Slot.isSettled = true
  results : slots.filterMap (fun slot => slot.result?.map fun result => (slot.file.path, result)) =
    found.map fun f => (f.path, Pipeline.collect false f)
  told : slots.filterMap (fun slot =>
    slot.told?.map fun status => (⟨slot.file.path, status⟩ : Outcome)) = turns.map Prod.fst
  writes : slots.filterMap (Slot.written? dryRun) = Pipeline.writesOf dryRun turns
  length : slots.length = found.length

/-- A turn leaves a text to write exactly when it changes the file. -/
private theorem migrate_shape (m : Migration) (cancelled : Bool) (f : SourceFile) :
    (∃ status, Pipeline.migrate m cancelled f = (status, none) ∧ ∀ n, status ≠ .changed n) ∨
      ∃ n text, Pipeline.migrate m cancelled f = (.changed n, some text) := by
  unfold Pipeline.migrate
  split
  · exact Or.inl ⟨_, rfl, by simp⟩
  · simp only
    split
    · exact Or.inl ⟨_, rfl, by simp⟩
    · exact Or.inr ⟨_, _, rfl⟩

private theorem written?_migratedSlot (m : Migration) (dryRun cancelled : Bool)
    (found : FoundFile) (f : SourceFile) :
    (migratedSlot m dryRun cancelled found f).written? dryRun =
      if dryRun then none
      else (Pipeline.migrate m cancelled f).2.map fun text => (found.path, text) := by
  rcases migrate_shape m cancelled f with ⟨status, hturn, hstatus⟩ | ⟨n, text, hturn⟩
  · cases status with
    | changed n => exact absurd rfl (hstatus n)
    | unchanged => cases dryRun <;> simp [migratedSlot, hturn, Slot.written?, Slot.told?]
    | failed e => cases dryRun <;> simp [migratedSlot, hturn, Slot.written?, Slot.told?]
  · cases dryRun <;> simp [migratedSlot, hturn, Slot.written?, Slot.told?, Slot.writeBack]

/-- A file that could not be read has no turn. -/
private theorem Migrated.unread {dryRun : Bool} {f : FoundFile} {found : List FoundFile}
    {turns : List (Outcome × Option String)} {slots : List Slot} {e : FileError}
    (h : Migrated dryRun found turns slots) (hcollect : Pipeline.collect false f = .error e) :
    Migrated dryRun (f :: found) turns (collectedSlot false f :: slots) := by
  have hresult : (collectedSlot false f).result? = some (.error e) := by
    simp [collectedSlot, Slot.result?, hcollect]
  have htold : (collectedSlot false f).told? = none := rfl
  have hwritten : (collectedSlot false f).written? dryRun = none := by
    cases dryRun <;> simp [Slot.written?, htold]
  exact
    { settled := by simpa [Slot.isSettled, hresult] using h.settled
      results := by
        simp [hresult, h.results, hcollect]
        rfl
      told := by simp [htold, h.told]
      writes := by simp [hwritten, h.writes]
      length := by simp [h.length] }

/-- A file that could be read has its turn. -/
private theorem Migrated.turn {m : Migration} {dryRun : Bool} {f : FoundFile}
    {found : List FoundFile} {turns : List (Outcome × Option String)} {slots : List Slot}
    {g : SourceFile} (cancelled : Bool) (h : Migrated dryRun found turns slots)
    (hcollect : Pipeline.collect false f = .ok g) :
    Migrated dryRun (f :: found)
      ((⟨f.path, (Pipeline.migrate m cancelled g).1⟩, (Pipeline.migrate m cancelled g).2) :: turns)
      (migratedSlot m dryRun cancelled f g :: slots) := by
  have hwritten := written?_migratedSlot m dryRun cancelled f g
  exact
    { settled := by simpa [migratedSlot, Slot.isSettled, Slot.result?, Slot.told?] using h.settled
      results := by simpa [migratedSlot, Slot.result?, hcollect] using h.results
      told := by simpa [migratedSlot, Slot.told?] using h.told
      writes := by
        rw [List.filterMap_cons, hwritten, h.writes]
        cases dryRun with
        | true => simp [Pipeline.writesOf]
        | false =>
          cases htext : (Pipeline.migrate m cancelled g).2 <;> simp [Pipeline.writesOf]
      length := by simp [h.length] }

/-- The flag follows the count of turns: it is raised when its turn has come,
and never lowered. -/
private theorem reaches_flag (options : Options) (cancellation : Pipeline.Cancellation)
    (turns : Nat) (hreport : s.report = none)
    (hcancelled : s.cancelled = Pipeline.isCancelled cancellation turns) :
    Reaches options s
      { s with cancelled := Pipeline.isCancelled cancellation (turns + 1) } := by
  by_cases hraise : Pipeline.isCancelled cancellation (turns + 1) = true
  · rw [hraise]
    exact ⟨[.cancel], by simp [State.run?, State.step?, State.act?, hreport]⟩
  · have hsame : Pipeline.isCancelled cancellation (turns + 1) = s.cancelled := by
      rw [hcancelled]
      cases cancellation with
      | none => rfl
      | some limit => simp [Pipeline.isCancelled] at hraise ⊢; omega
    rw [hsame]
    exact Reaches.refl _ _

/-- All files have their turns in the second phase. The flag is raised after
the turn that the cancellation names. -/
private theorem reaches_all_migrated (options : Options) (cancellation : Pipeline.Cancellation) :
    ∀ (found : List FoundFile) (front : List Slot) (turns : Nat) (s : State),
      s.phase = .migrating → s.report = none →
      s.cancelled = Pipeline.isCancelled cancellation turns →
      s.slots = front ++ found.map (collectedSlot false) →
      let more := Pipeline.migrateAll (s.migration options) cancellation turns
        (Pipeline.readable (found.map fun f => (f.path, Pipeline.collect false f)))
      ∃ slots, Migrated options.dryRun found more slots ∧
        Reaches options s { s with
          slots := front ++ slots
          calls := s.calls ++ more.map Prod.fst
          cancelled := Pipeline.isCancelled cancellation (turns + more.length) } := by
  intro found
  induction found with
  | nil =>
    intro front turns s hphase hreport hcancelled hslots
    refine ⟨[], ⟨rfl, rfl, rfl, ?_, rfl⟩, ?_⟩
    · cases hdry : options.dryRun <;>
        simp [Pipeline.readable, Pipeline.migrateAll, Pipeline.writesOf]
    · have hself : s = { s with
          slots := front ++ []
          calls := s.calls ++ []
          cancelled := Pipeline.isCancelled cancellation (turns + 0) } := by
        have hfront : front = s.slots := by simp [hslots]
        rw [List.append_nil, List.append_nil, Nat.add_zero, ← hcancelled, hfront]
      exact hself ▸ Reaches.refl options s
  | cons f found ih =>
    intro front turns s hphase hreport hcancelled hslots
    simp only [List.map_cons] at hslots ⊢
    cases hcollect : Pipeline.collect false f with
    | error e =>
      have hrest := ih (front ++ [collectedSlot false f]) turns s hphase hreport hcancelled
        (by simp [hslots])
      obtain ⟨slots, hmigrated, hreaches⟩ := hrest
      have hskip : Pipeline.readable ((f.path, .error e) ::
          found.map fun f => (f.path, Pipeline.collect false f)) =
          Pipeline.readable (found.map fun f => (f.path, Pipeline.collect false f)) := by
        simp [Pipeline.readable]
      rw [hskip]
      exact ⟨collectedSlot false f :: slots, hmigrated.unread hcollect, by simpa using hreaches⟩
    | ok g =>
      have hslot : collectedSlot false f = ⟨f, f.contents, .done (.ok g), .waiting⟩ := by
        simp [collectedSlot, hcollect]
      have hself : s = { s with
          slots := front ++ ⟨f, f.contents, .done (.ok g), .waiting⟩ ::
            found.map (collectedSlot false)
          calls := s.calls } := by
        rw [← hslot, ← hslots]
      have hturn := reaches_migrated options front (found.map (collectedSlot false)) s.calls f g
        hphase hreport
      rw [← hself] at hturn
      -- the state after the turn, and after the flag was raised if it had to be
      let after : State := { s with
        slots := front ++
          migratedSlot (s.migration options) options.dryRun s.cancelled f g ::
            found.map (collectedSlot false)
        calls := s.calls ++ [⟨f.path, (Pipeline.migrate (s.migration options) s.cancelled g).1⟩] }
      have hflag := reaches_flag options cancellation turns (s := after) hreport hcancelled
      let front' := front ++ [migratedSlot (s.migration options) options.dryRun s.cancelled f g]
      obtain ⟨slots, hmigrated, hreaches⟩ := ih front' (turns + 1)
        { after with cancelled := Pipeline.isCancelled cancellation (turns + 1) }
        hphase hreport rfl (by simp [after, front'])
      have hmigration : State.migration options
          { after with cancelled := Pipeline.isCancelled cancellation (turns + 1) } =
          s.migration options := rfl
      have htake : Pipeline.migrateAll (s.migration options) cancellation turns
          (Pipeline.readable ((f.path, .ok g) ::
            found.map fun f => (f.path, Pipeline.collect false f))) =
          (⟨f.path, (Pipeline.migrate (s.migration options) s.cancelled g).1⟩,
            (Pipeline.migrate (s.migration options) s.cancelled g).2) ::
          Pipeline.migrateAll (s.migration options) cancellation (turns + 1)
            (Pipeline.readable (found.map fun f => (f.path, Pipeline.collect false f))) := by
        simp [Pipeline.readable, Pipeline.migrateAll, hcancelled]
      rw [hmigration] at hmigrated hreaches
      rw [htake]
      refine ⟨migratedSlot (s.migration options) options.dryRun s.cancelled f g :: slots,
        hmigrated.turn s.cancelled hcollect, hturn.trans (hflag.trans ?_)⟩
      have hcount (n : Nat) : turns + 1 + n = turns + (n + 1) := by omega
      simpa [after, front', hcount] using hreaches

end SecondPhase

/-! ## The run -/

/-- What the first phase found out about files after their turns. -/
private theorem results_collectedSlot (cancelled : Bool) (found : List FoundFile) :
    (found.map (collectedSlot cancelled)).filterMap
        (fun slot => slot.result?.map fun result => (slot.file.path, result)) =
      found.map fun f => (f.path, Pipeline.collect cancelled f) := by
  simp [List.filterMap_map, Function.comp_def, collectedSlot, Slot.result?]

/-- The names that the turns of the first phase bring are those of the files
that could be read. -/
private theorem addAll_namesOf (cancelled : Bool) (found : List FoundFile) :
    Registry.empty.addAll (found.flatMap fun f => namesOf (Pipeline.collect cancelled f)) =
      Pipeline.registryOf
        (Pipeline.readable (found.map fun f => (f.path, Pipeline.collect cancelled f))) := by
  unfold Pipeline.registryOf Registry.ofList
  congr 1
  induction found with
  | nil => rfl
  | cons f found ih =>
    cases hcollect : Pipeline.collect cancelled f <;>
      simp [hcollect, namesOf, Pipeline.readable] at ih ⊢ <;> exact ih

/-- A run can end once nothing is left to do. -/
private theorem run?_finish {options : Options} {s : State} (hopen : s.report = none)
    (hover : s.phase = .stopped ∨ (s.phase = .migrating ∧ s.slots.all Slot.isSettled = true)) :
    State.run? options [.finish] s = some { s with report := some (s.finalReport options) } := by
  simp only [State.run?, State.step?, State.act?, hopen, guard, if_pos hover]
  rfl

/-- The state behind the barrier: all files had their turns in the first phase,
and the flag was looked at. -/
private def atBarrier (cancelled : Bool) (found : List FoundFile) : State where
  phase := if cancelled then .stopped else .migrating
  cancelled := cancelled
  registry := Pipeline.registryOf
    (Pipeline.readable (found.map fun f => (f.path, Pipeline.collect cancelled f)))
  slots := found.map (collectedSlot cancelled)
  calls := []
  report := none

/-- The first phase, and the barrier behind it. The flag is raised at once if it
is raised before any turn. -/
private theorem reaches_barrier (options : Options) (cancelled : Bool) (found : List FoundFile) :
    Reaches options (State.initial found) (atBarrier cancelled found) := by
  have hstart : Reaches options (State.initial found) { State.initial found with cancelled } := by
    cases cancelled with
    | true => exact ⟨[.cancel], rfl⟩
    | false => exact Reaches.refl _ _
  have hcollect := reaches_all_collected options (s := { State.initial found with cancelled })
    rfl rfl found [] Registry.empty
  rw [addAll_namesOf] at hcollect
  refine hstart.trans (hcollect.trans ⟨[.freeze, .check], ?_⟩)
  have hdone : (found.map (collectedSlot cancelled)).all (·.result?.isSome) = true := by
    simp [collectedSlot, Slot.result?]
  simp [State.run?, State.step?, State.act?, State.initial, guard, hdone, atBarrier]

/-- The schedule of a run that is cancelled before any turn. -/
private theorem stopped_run_is_schedule (options : Options)
    {cancellation : Pipeline.Cancellation} (found : List FoundFile)
    (hcancelled : Pipeline.isCancelled cancellation 0 = true) :
    ∃ actions s, State.run? options actions (State.initial found) = some s ∧
      s.report = some (Pipeline.run options cancellation found).report ∧
      s.calls = (Pipeline.run options cancellation found).finished ∧
      s.slots.filterMap (Slot.written? options.dryRun) =
        (Pipeline.run options cancellation found).writes := by
  let passed := atBarrier true found
  obtain ⟨actions, hactions⟩ := reaches_barrier options true found
  refine ⟨actions ++ [.finish], { passed with report := some (passed.finalReport options) }, ?_,
    ?_, ?_, ?_⟩
  · rw [State.run?_append, hactions]
    exact run?_finish (s := passed) rfl (.inl rfl)
  · have hresults : passed.collected = found.map fun f => (f.path, Pipeline.collect true f) :=
      results_collectedSlot true found
    have hsecond : passed.secondPhase =
        (Pipeline.readable (found.map fun f => (f.path, Pipeline.collect true f))).map
          fun x => ⟨x.1, .failed .cancelled⟩ := by
      rw [State.secondPhase, hresults]
      rfl
    simp only [State.finalReport, hresults, hsecond, Pipeline.run, Pipeline.secondPhase,
      hcancelled, ↓reduceIte]
    simp [passed, atBarrier, hcancelled]
  · simp [Pipeline.run, Pipeline.secondPhase, hcancelled, passed, atBarrier]
  · have hnone : ∀ f, (collectedSlot true f).written? options.dryRun = none := by
      intro f
      cases options.dryRun <;> rfl
    simp [Pipeline.run, Pipeline.secondPhase, hcancelled, passed, atBarrier, Pipeline.writesOf,
      hnone, List.filterMap_map]

/-- The schedule of a run that gets past the barrier. -/
private theorem migrating_run_is_schedule (options : Options)
    {cancellation : Pipeline.Cancellation} (found : List FoundFile)
    (hcancelled : Pipeline.isCancelled cancellation 0 = false) :
    ∃ actions s, State.run? options actions (State.initial found) = some s ∧
      s.report = some (Pipeline.run options cancellation found).report ∧
      s.calls = (Pipeline.run options cancellation found).finished ∧
      s.slots.filterMap (Slot.written? options.dryRun) =
        (Pipeline.run options cancellation found).writes := by
  let passed := atBarrier false found
  let collected := found.map fun f => (f.path, Pipeline.collect false f)
  let turns := Pipeline.migrateAll (passed.migration options) cancellation 0
    (Pipeline.readable collected)
  obtain ⟨slots, hmigrated, hsecond⟩ := reaches_all_migrated options cancellation found [] 0
    passed rfl rfl hcancelled.symm rfl
  let last : State := { passed with
    slots := slots
    calls := turns.map Prod.fst
    cancelled := Pipeline.isCancelled cancellation turns.length }
  have hlast : Reaches options passed last := by
    simpa [last, passed, atBarrier, turns, collected] using hsecond
  obtain ⟨actions, hactions⟩ := (reaches_barrier options false found).trans hlast
  have hcollected : last.collected = collected := hmigrated.results
  have htold : last.secondPhase = turns.map Prod.fst := hmigrated.told
  have hturns : turns = Pipeline.migrateAll
      (Pipeline.migrationOf options (Pipeline.registryOf (Pipeline.readable collected)))
      cancellation 0 (Pipeline.readable collected) := rfl
  refine ⟨actions ++ [.finish], { last with report := some (last.finalReport options) }, ?_,
    ?_, ?_, ?_⟩
  · rw [State.run?_append, hactions]
    exact run?_finish (s := last) rfl (.inr ⟨rfl, hmigrated.settled⟩)
  · simp only [State.finalReport, hcollected, htold, Pipeline.run, Pipeline.secondPhase,
      hcancelled, Bool.false_eq_true, ↓reduceIte]
    simp [last, passed, atBarrier, collected, hturns, hmigrated.length]
  · simp [Pipeline.run, Pipeline.secondPhase, hcancelled, last, hturns, collected]
  · have hwrites : slots.filterMap (Slot.written? options.dryRun) =
        Pipeline.writesOf options.dryRun turns := hmigrated.writes
    simpa [Pipeline.run, Pipeline.secondPhase, hcancelled, last, hturns, collected] using hwrites

/-- **One worker is one schedule.** Some schedule over the files ends with the
report of `Pipeline.run`, has made its calls and its writes. -/
theorem run_is_schedule (options : Options) (cancellation : Pipeline.Cancellation)
    (found : List FoundFile) :
    ∃ actions s, State.run? options actions (State.initial found) = some s ∧
      s.report = some (Pipeline.run options cancellation found).report ∧
      s.calls = (Pipeline.run options cancellation found).finished ∧
      s.slots.filterMap (Slot.written? options.dryRun) =
        (Pipeline.run options cancellation found).writes := by
  cases hcancelled : Pipeline.isCancelled cancellation 0 with
  | true => exact stopped_run_is_schedule options found hcancelled
  | false => exact migrating_run_is_schedule options found hcancelled

end AnySome.Schedule
