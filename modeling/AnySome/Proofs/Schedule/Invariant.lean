import Mathlib.Data.Option.Basic
import AnySome.Proofs.Schedule.Basic

/-!
# What every schedule keeps

The invariant of runs. It ties the three places where cancellation is looked
at to each other: a task of the first phase that gave up for cancellation has
seen the flag raised, the flag is never lowered, and the barrier lets a run
pass only while the flag is down. So no task of the first phase has given up
in a run that reaches the second phase, and its registry is complete.

Each action is inverted once (`act?_collect` and so on); that the invariant is
kept is then shown task by task, and for whole schedules by induction.

## Main results

* `Schedule.Inv.step` — one action keeps the invariant.
* `Schedule.Inv.run` — so does every schedule, from the start of a run.
-/

namespace AnySome.Schedule

/-! ## What a task does -/

namespace Slot

/-- What was decided about the file, whether or not the observer knows. -/
def status? (s : Slot) : Option FileStatus :=
  match s.migrating with
  | .decided status => some status
  | .done status => some status
  | _ => none

/-- What a decision says about the file: it holds what was found there, unless
it was changed and this is no dry run, and then it holds the migrated text. -/
inductive Settles (m : Migration) (dryRun : Bool) (s : Slot) (status : FileStatus) : Prop where
  | kept (disk : s.disk = s.file.contents)
      (reason : dryRun = true ∨ ∀ n, status ≠ .changed n)
  | written (f : SourceFile) (n : Nat) (text : String) (wet : dryRun = false)
      (readable : s.readable? = some f)
      (migrated : Pipeline.migrate m false f = (.changed n, some text))
      (changed : status = .changed n) (disk : s.disk = .text text)

end Slot

/-- What holds of a file at every moment of a run. -/
structure SlotInv (options : Options) (s : State) (slot : Slot) : Prop where
  /-- While names are registered, the file is the one that was found. -/
  reading : ∀ f count, slot.collecting = .registering f count →
    Pipeline.collect false slot.file = .ok f
  /-- A file that could be read is the one that was found. -/
  read : ∀ f, slot.collecting = .done (.ok f) → Pipeline.collect false slot.file = .ok f
  /-- A task gives up for a reason of the file, or after the flag was raised. -/
  unread : ∀ e, slot.collecting = .done (.error e) →
    (e = .cancelled ∧ s.cancelled = true) ∨ Pipeline.collect false slot.file = .error e
  /-- The second phase starts behind the barrier. -/
  idle : s.phase ≠ .migrating → slot.migrating = .waiting
  /-- The first phase is over at the barrier. -/
  collected : s.phase ≠ .collecting → slot.result?.isSome = true
  /-- Nobody gave up for cancellation in a run that passed the barrier. -/
  complete : s.phase = .migrating → slot.collecting ≠ .done (.error .cancelled)
  /-- Only files that could be read are migrated. -/
  entered : slot.migrating ≠ .waiting → slot.readable?.isSome = true
  kept : slot.status? = none → slot.disk = slot.file.contents
  settled : ∀ status, slot.status? = some status →
    slot.Settles (s.migration options) options.dryRun status

/-- What holds at every moment of a run over the given files. -/
structure Inv (options : Options) (found : List FoundFile) (s : State) : Prop where
  files : s.slots.map Slot.file = found
  slots : ∀ slot ∈ s.slots, SlotInv options s slot
  /-- The registry holds the registered names and no others. -/
  registry : ∀ x, x ∈ s.registry ↔ ∃ slot ∈ s.slots, x ∈ slot.registered
  /-- The observer was told once about each file whose task is done. -/
  calls : s.calls.Perm
    (s.slots.filterMap fun slot => slot.told?.map fun status => ⟨slot.file.path, status⟩)
  /-- A run that is over reports its last state. -/
  report : ∀ r, s.report = some r → r = s.finalReport options ∧
    (s.phase = .stopped ∨ (s.phase = .migrating ∧ s.slots.all Slot.isSettled = true))

/-! ## Inversion of the actions -/

namespace State

variable {options : Options} {s t : State}

theorem act?_collect {i : Nat} (h : s.act? options (.collect i) = some t) :
    s.phase = .collecting ∧ ∃ slot next registry, s.slots[i]? = some slot ∧
      slot.collect? s.cancelled s.registry = some (next, registry) ∧
      t = { s with slots := s.slots.set i next, registry } := by
  simp only [act?, Option.bind_eq_bind, Option.bind_eq_some_iff, guard, Option.pure_def] at h
  obtain ⟨_, hguard, slot, hslot, ⟨next, registry⟩, hnext, heq⟩ := h
  split at hguard
  next hphase => exact ⟨hphase, slot, next, registry, hslot, hnext, (Option.some.inj heq).symm⟩
  · contradiction

theorem act?_freeze (h : s.act? options .freeze = some t) :
    s.phase = .collecting ∧ s.slots.all (·.result?.isSome) = true ∧
      t = { s with phase := .frozen } := by
  simp only [act?, Option.bind_eq_bind, Option.bind_eq_some_iff, guard, Option.pure_def] at h
  obtain ⟨_, hguard, heq⟩ := h
  split at hguard
  next hphase => exact ⟨hphase.1, hphase.2, (Option.some.inj heq).symm⟩
  · contradiction

theorem act?_check (h : s.act? options .check = some t) :
    s.phase = .frozen ∧
      t = { s with phase := if s.cancelled then .stopped else .migrating } := by
  simp only [act?, Option.bind_eq_bind, Option.bind_eq_some_iff, guard, Option.pure_def] at h
  obtain ⟨_, hguard, heq⟩ := h
  split at hguard
  next hphase => exact ⟨hphase, (Option.some.inj heq).symm⟩
  · contradiction

theorem act?_migrate {i : Nat} (h : s.act? options (.migrate i) = some t) :
    s.phase = .migrating ∧ ∃ slot next, s.slots[i]? = some slot ∧
      slot.migrate? (s.migration options) options.dryRun s.cancelled = some next ∧
      t = { s with
        slots := s.slots.set i next
        calls := s.calls ++ next.told?.toList.map fun status => ⟨next.file.path, status⟩ } := by
  simp only [act?, Option.bind_eq_bind, Option.bind_eq_some_iff, guard, Option.pure_def] at h
  obtain ⟨_, hguard, slot, hslot, next, hnext, heq⟩ := h
  split at hguard
  next hphase => exact ⟨hphase, slot, next, hslot, hnext, (Option.some.inj heq).symm⟩
  · contradiction

theorem act?_refuse {i : Nat} {reason : String}
    (h : s.act? options (.refuse i reason) = some t) :
    s.phase = .migrating ∧ ∃ slot next, s.slots[i]? = some slot ∧
      slot.refuse? (s.migration options) options.dryRun reason = some next ∧
      t = { s with slots := s.slots.set i next } := by
  simp only [act?, Option.bind_eq_bind, Option.bind_eq_some_iff, guard, Option.pure_def] at h
  obtain ⟨_, hguard, slot, hslot, next, hnext, heq⟩ := h
  split at hguard
  next hphase => exact ⟨hphase, slot, next, hslot, hnext, (Option.some.inj heq).symm⟩
  · contradiction

theorem act?_finish (h : s.act? options .finish = some t) :
    (s.phase = .stopped ∨ (s.phase = .migrating ∧ s.slots.all Slot.isSettled = true)) ∧
      t = { s with report := some (s.finalReport options) } := by
  simp only [act?, Option.bind_eq_bind, Option.bind_eq_some_iff, guard, Option.pure_def] at h
  obtain ⟨_, hguard, heq⟩ := h
  split at hguard
  next hphase => exact ⟨hphase, (Option.some.inj heq).symm⟩
  · contradiction

theorem step?_eq_some {a : Action} (h : s.step? options a = some t) :
    s.report = none ∧ s.act? options a = some t := by
  unfold step? at h
  split at h
  · contradiction
  next hnone => exact ⟨by simpa using hnone, h⟩

end State

/-! ## Steps of one task -/

/-- A migration changes the text of a file or leaves nothing to write. -/
theorem migrate_cases (m : Migration) (f : SourceFile) :
    Pipeline.migrate m false f = (.unchanged, none) ∨
      Pipeline.migrate m false f = (.changed (m.file f).changedCount, some (m.file f).render) := by
  unfold Pipeline.migrate
  simp only [Bool.false_eq_true, ↓reduceIte]
  split
  · exact Or.inl rfl
  · exact Or.inr rfl

namespace Slot

variable {options : Options} {s t : State} {slot next : Slot}

/-- A step of the first phase registers what it adds to the names of its file. -/
theorem registered_collect? {cancelled : Bool} {before after : Registry}
    (h : slot.collect? cancelled before = some (next, after)) :
    ∃ fresh, next.registered = slot.registered ++ fresh ∧
      ∀ x, x ∈ after ↔ x ∈ fresh ∨ x ∈ before := by
  unfold collect? at h
  split at h
  next hcollecting =>
    cases h
    refine ⟨[], ?_, by simp⟩
    cases cancelled <;> simp [registered, hcollecting]
  next hcollecting =>
    split at h <;> cases h <;> exact ⟨[], by simp [registered, hcollecting], by simp⟩
  next f count hcollecting =>
    split at h
    next name hname =>
      cases h
      refine ⟨[name], ?_, by simp⟩
      simp [registered, hcollecting, List.take_add_one, hname]
    next hnone =>
      cases h
      refine ⟨[], ?_, by simp⟩
      have hlen : f.interfaceNames.length ≤ count := List.getElem?_eq_none_iff.mp hnone
      simp [registered, hcollecting, List.take_of_length_le hlen]
  · contradiction

/-- A step of the first phase changes nothing but how far its task has come. -/
theorem frame_collect? {cancelled : Bool} {before after : Registry}
    (h : slot.collect? cancelled before = some (next, after)) :
    next.file = slot.file ∧ next.disk = slot.disk ∧ next.migrating = slot.migrating := by
  unfold collect? at h
  split at h
  · cases h; exact ⟨rfl, rfl, rfl⟩
  · split at h <;> cases h <;> exact ⟨rfl, rfl, rfl⟩
  · split at h <;> cases h <;> exact ⟨rfl, rfl, rfl⟩
  · contradiction

/-- A step of the second phase keeps the file and what was read of it. -/
theorem frame_migrate? {m : Migration} {dryRun cancelled : Bool}
    (h : slot.migrate? m dryRun cancelled = some next) :
    next.file = slot.file ∧ next.collecting = slot.collecting ∧ slot.told? = none ∧
      slot.readable?.isSome = true := by
  unfold migrate? at h
  split at h
  next hread hmigrating => cases h; simp [told?, hmigrating, hread]
  next hread hmigrating => cases h; simp [told?, hmigrating, hread]
  next hread hmigrating => cases h; simp [told?, hmigrating, hread]
  · contradiction

/-- A refused step of the second phase keeps the file and what was read of it,
and the observer does not know yet. -/
theorem frame_refuse? {m : Migration} {dryRun : Bool} {reason : String}
    (h : slot.refuse? m dryRun reason = some next) :
    next = { slot with migrating := .decided (.failed (.access reason)) } ∧
      slot.migrating = .admitted ∧ slot.readable?.isSome = true := by
  unfold refuse? at h
  split at h
  next hread hmigrating =>
    split at h
    · cases h; simp [hmigrating, hread]
    · contradiction
  · contradiction

end Slot

namespace SlotInv

variable {options : Options} {s t : State} {slot next : Slot}

/-- What holds of a file does not depend on the other files, and raising the
flag keeps it. The registry matters in the second phase only. -/
theorem transfer (h : SlotInv options s slot) (hphase : t.phase = s.phase)
    (hcancelled : s.cancelled = true → t.cancelled = true)
    (hregistry : s.phase = .migrating → t.registry = s.registry) : SlotInv options t slot where
  reading := h.reading
  read := h.read
  unread := by
    intro e he
    rcases h.unread e he with ⟨rfl, hraised⟩ | hfile
    · exact Or.inl ⟨rfl, hcancelled hraised⟩
    · exact Or.inr hfile
  idle := by rw [hphase]; exact h.idle
  collected := by rw [hphase]; exact h.collected
  complete := by rw [hphase]; exact h.complete
  entered := h.entered
  kept := h.kept
  settled := by
    intro status hstatus
    by_cases hmigrating : s.phase = .migrating
    · simpa [State.migration, hregistry hmigrating] using h.settled status hstatus
    · have hwaiting := h.idle hmigrating
      simp [Slot.status?, hwaiting] at hstatus

/-- A step of the first phase keeps what holds of its file. -/
theorem collect {registry : Registry} (h : SlotInv options s slot)
    (hphase : s.phase = .collecting)
    (hstep : slot.collect? s.cancelled s.registry = some (next, registry)) :
    SlotInv options s next := by
  have hne : s.phase ≠ .migrating := by simp [hphase]
  have hwaiting := h.idle hne
  have hdisk : slot.disk = slot.file.contents := h.kept (by simp [Slot.status?, hwaiting])
  obtain ⟨hfile, hdisk', hmigrating⟩ := Slot.frame_collect? hstep
  have hstatus : next.status? = none := by simp [Slot.status?, hmigrating, hwaiting]
  have hsource : (⟨slot.file.path, slot.disk⟩ : FoundFile) = slot.file := by rw [hdisk]
  -- what the task has found out, by the step that it takes
  have hfound : (∀ f count, next.collecting = .registering f count →
        Pipeline.collect false slot.file = .ok f) ∧
      (∀ f, next.collecting = .done (.ok f) → Pipeline.collect false slot.file = .ok f) ∧
      (∀ e, next.collecting = .done (.error e) →
        (e = .cancelled ∧ s.cancelled = true) ∨ Pipeline.collect false slot.file = .error e) := by
    unfold Slot.collect? at hstep
    split at hstep
    · cases hstep
      by_cases hcancelled : s.cancelled = true
      · simp [hcancelled]
      · simp [hcancelled]
    · rw [hsource] at hstep
      split at hstep
      next e he => cases hstep; simp [he]
      next f hf => cases hstep; simp [hf]
    next f count hcollecting =>
      have hread := h.reading f count hcollecting
      split at hstep <;> cases hstep <;> simp [hread]
    · contradiction
  exact
    { reading := by rw [hfile]; exact hfound.1
      read := by rw [hfile]; exact hfound.2.1
      unread := by rw [hfile]; exact hfound.2.2
      idle := fun _ => hmigrating.trans hwaiting
      collected := fun hcollecting => absurd hphase hcollecting
      complete := fun hmigrating => absurd hmigrating hne
      entered := fun hentered => absurd (hmigrating.trans hwaiting) hentered
      kept := fun _ => by rw [hdisk', hdisk, hfile]
      settled := fun status hsome => by simp [hstatus] at hsome }

/-- Where the first phase left a file, the second phase finds it. -/
private theorem of_migrating (h : SlotInv options s slot) (hphase : s.phase = .migrating)
    (hfile : next.file = slot.file) (hcollecting : next.collecting = slot.collecting)
    (hread : slot.readable?.isSome = true)
    (hkept : next.status? = none → next.disk = slot.file.contents)
    (hsettled : ∀ status, next.status? = some status →
      next.Settles (s.migration options) options.dryRun status) : SlotInv options s next where
  reading := by rw [hfile, hcollecting]; exact h.reading
  read := by rw [hfile, hcollecting]; exact h.read
  unread := by rw [hfile, hcollecting]; exact h.unread
  idle := fun hne => absurd hphase hne
  collected := by simpa [Slot.result?, hcollecting] using h.collected
  complete := by rw [hcollecting]; exact h.complete
  entered := fun _ => by simpa [Slot.readable?, hcollecting] using hread
  kept := by rw [hfile]; exact hkept
  settled := hsettled

/-- A step of the second phase keeps what holds of its file. -/
theorem migrate (h : SlotInv options s slot) (hphase : s.phase = .migrating)
    (hstep : slot.migrate? (s.migration options) options.dryRun s.cancelled = some next) :
    SlotInv options s next := by
  obtain ⟨hfile, hcollecting, -, hread⟩ := Slot.frame_migrate? hstep
  refine h.of_migrating hphase hfile hcollecting hread ?_ ?_
  · intro hnone
    unfold Slot.migrate? at hstep
    split at hstep
    next hmigrating =>
      cases hstep
      exact h.kept (by simp [Slot.status?, hmigrating])
    · cases hstep; simp [Slot.status?] at hnone
    · cases hstep; simp [Slot.status?] at hnone
    · contradiction
  · intro status hsome
    unfold Slot.migrate? at hstep
    split at hstep
    next hmigrating =>
      cases hstep
      have hdisk := h.kept (by simp [Slot.status?, hmigrating])
      by_cases hcancelled : s.cancelled = true
      · simp only [Slot.status?, hcancelled, ↓reduceIte, Option.some.injEq] at hsome
        subst hsome
        exact .kept hdisk (Or.inr (by simp))
      · simp [Slot.status?, hcancelled] at hsome
    next f hreadable hmigrating =>
      have hdisk := h.kept (by simp [Slot.status?, hmigrating])
      rcases migrate_cases (s.migration options) f with hmig | hmig
      · rw [hmig] at hstep
        cases hstep
        simp only [Slot.status?, Option.some.injEq] at hsome
        subst hsome
        refine .kept ?_ (Or.inr (by simp))
        cases hdry : options.dryRun <;> simpa [Slot.writeBack] using hdisk
      · rw [hmig] at hstep
        cases hstep
        simp only [Slot.status?, Option.some.injEq] at hsome
        subst hsome
        cases hdry : options.dryRun with
        | true => exact .kept (by simpa [Slot.writeBack] using hdisk) (Or.inl rfl)
        | false =>
          refine .written f _ _ rfl ?_ hmig rfl (by simp [Slot.writeBack])
          simpa [Slot.readable?] using hreadable
    next f old hreadable hmigrating =>
      cases hstep
      simp only [Slot.status?, Option.some.injEq] at hsome
      subst hsome
      have hsettled := h.settled old (by simp [Slot.status?, hmigrating])
      cases hsettled with
      | kept disk reason => exact .kept disk reason
      | written f n text wet readable migrated changed disk =>
        exact .written f n text wet (by simpa [Slot.readable?] using readable) migrated changed disk
    · contradiction

/-- A refused step keeps what holds of its file. -/
theorem refuse {reason : String} (h : SlotInv options s slot) (hphase : s.phase = .migrating)
    (hstep : slot.refuse? (s.migration options) options.dryRun reason = some next) :
    SlotInv options s next := by
  obtain ⟨rfl, hmigrating, hread⟩ := Slot.frame_refuse? hstep
  have hdisk := h.kept (by simp [Slot.status?, hmigrating])
  refine h.of_migrating hphase rfl rfl hread (fun _ => hdisk) ?_
  intro status hsome
  simp only [Slot.status?, Option.some.injEq] at hsome
  subst hsome
  exact .kept hdisk (Or.inr (by simp))

end SlotInv

/-! ## Steps of a run -/

namespace Inv

variable {options : Options} {found : List FoundFile} {s t : State}

/-- The invariant holds at the start. -/
theorem initial (options : Options) (found : List FoundFile) :
    Inv options found (State.initial found) where
  files := by simp [State.initial, Function.comp_def, Slot.ofFound]
  slots := by
    intro slot hslot
    obtain ⟨f, -, rfl⟩ := List.mem_map.mp hslot
    exact
      { reading := by simp [Slot.ofFound]
        read := by simp [Slot.ofFound]
        unread := by simp [Slot.ofFound]
        idle := fun _ => rfl
        collected := fun hne => absurd rfl hne
        complete := by simp [Slot.ofFound]
        entered := by simp [Slot.ofFound]
        kept := fun _ => rfl
        settled := by simp [Slot.ofFound, Slot.status?] }
  registry := by
    intro x
    have hempty : ¬x ∈ Registry.empty := List.not_mem_nil
    simp [State.initial, Slot.ofFound, Slot.registered, hempty]
  calls := by
    have hnone : (State.initial found).slots.filterMap (fun slot =>
        slot.told?.map fun status => (⟨slot.file.path, status⟩ : Outcome)) = [] := by
      simp [State.initial, Slot.ofFound, Slot.told?]
    rw [hnone]
    exact List.Perm.refl _
  report := by simp [State.initial]

/-- Replacing the `i`-th slot by one of the same file keeps the files, and what
holds of the other slots. -/
private theorem set_split {i : Nat} {slot next : Slot} (h : Inv options found s)
    (hget : s.slots[i]? = some slot) (hfile : next.file = slot.file) :
    ∃ front back, s.slots = front ++ slot :: back ∧ s.slots.set i next = front ++ next :: back ∧
      (front ++ next :: back).map Slot.file = found ∧ SlotInv options s slot ∧
      (SlotInv options s next → ∀ other ∈ front ++ next :: back, SlotInv options s other) := by
  obtain ⟨hlt, hget⟩ := List.getElem?_eq_some_iff.mp hget
  obtain ⟨front, back, hsplit, -, hset⟩ :
      ∃ front back, s.slots = front ++ s.slots[i] :: back ∧ front.length = i ∧
        s.slots.set i next = front ++ next :: back := List.exists_of_set hlt
  rw [hget] at hsplit
  have hfiles := h.files
  have hslots := h.slots
  rw [hsplit] at hfiles hslots
  refine ⟨front, back, hsplit, hset, by simpa [hfile] using hfiles, hslots slot (by simp), ?_⟩
  intro hnext other hother
  simp only [List.mem_append, List.mem_cons] at hother hslots
  rcases hother with hmem | rfl | hmem
  · exact hslots other (Or.inl hmem)
  · exact hnext
  · exact hslots other (Or.inr (Or.inr hmem))

theorem collect {i : Nat} (h : Inv options found s) (hreport : s.report = none)
    (hact : s.act? options (.collect i) = some t) : Inv options found t := by
  obtain ⟨hphase, slot, next, registry, hget, hstep, rfl⟩ := State.act?_collect hact
  obtain ⟨hfile, -, hmigrating⟩ := Slot.frame_collect? hstep
  obtain ⟨fresh, hfresh, hregistry⟩ := Slot.registered_collect? hstep
  obtain ⟨front, back, hslots, hset, hfiles, hslot, hothers⟩ := h.set_split hget hfile
  have htold : next.told? = slot.told? := by simp [Slot.told?, hmigrating]
  rw [hset]
  refine ⟨hfiles, ?_, ?_, ?_, by simp [hreport]⟩
  · intro other hother
    have hinv := hothers (hslot.collect hphase hstep) other hother
    exact hinv.transfer rfl id (fun hmig => by simp [hphase] at hmig)
  · intro x
    have hbefore := h.registry x
    simp only [hslots, List.mem_append, List.mem_cons] at hbefore ⊢
    rw [hregistry x, hbefore]
    constructor
    · rintro (hx | ⟨other, hmem | rfl | hmem, hx⟩)
      · exact ⟨next, Or.inr (Or.inl rfl), by simp [hfresh, hx]⟩
      · exact ⟨other, Or.inl hmem, hx⟩
      · exact ⟨next, Or.inr (Or.inl rfl), by simp [hfresh, hx]⟩
      · exact ⟨other, Or.inr (Or.inr hmem), hx⟩
    · rintro ⟨other, hmem | rfl | hmem, hx⟩
      · exact Or.inr ⟨other, Or.inl hmem, hx⟩
      · rcases List.mem_append.mp (hfresh ▸ hx) with hx | hx
        · exact Or.inr ⟨slot, Or.inr (Or.inl rfl), hx⟩
        · exact Or.inl hx
      · exact Or.inr ⟨other, Or.inr (Or.inr hmem), hx⟩
  · have hcalls := h.calls
    rw [hslots] at hcalls
    simpa [List.filterMap_append, List.filterMap_cons, htold, hfile] using hcalls

theorem freeze (h : Inv options found s) (hreport : s.report = none)
    (hact : s.act? options .freeze = some t) : Inv options found t := by
  obtain ⟨hphase, hall, rfl⟩ := State.act?_freeze hact
  refine ⟨h.files, ?_, h.registry, h.calls, by simp [hreport]⟩
  intro slot hmem
  have hslot := h.slots slot hmem
  have hwaiting := hslot.idle (by simp [hphase])
  exact
    { reading := hslot.reading
      read := hslot.read
      unread := hslot.unread
      idle := fun _ => hwaiting
      collected := fun _ => List.all_eq_true.mp hall slot hmem
      complete := by simp
      entered := hslot.entered
      kept := hslot.kept
      settled := hslot.settled }

/-- The barrier: a run passes it only while the flag is down, and then no task
of the first phase can have seen it raised. -/
theorem check (h : Inv options found s) (hreport : s.report = none)
    (hact : s.act? options .check = some t) : Inv options found t := by
  obtain ⟨hphase, rfl⟩ := State.act?_check hact
  refine ⟨h.files, ?_, h.registry, h.calls, by simp [hreport]⟩
  intro slot hmem
  have hslot := h.slots slot hmem
  have hwaiting := hslot.idle (by simp [hphase])
  have hcollect : Pipeline.collect false slot.file ≠ .error .cancelled := by
    unfold Pipeline.collect
    simp only [Bool.false_eq_true, ↓reduceIte]
    split
    · simp
    · cases SourceFile.parse slot.file.path _ <;> exact nofun
  exact
    { reading := hslot.reading
      read := hslot.read
      unread := hslot.unread
      idle := fun _ => hwaiting
      collected := fun _ => hslot.collected (by simp [hphase])
      complete := by
        intro hpassed hgaveUp
        have hdown : s.cancelled = false := by
          rw [Bool.eq_false_iff]
          intro hraised
          simp [hraised] at hpassed
        rcases hslot.unread .cancelled hgaveUp with ⟨-, hraised⟩ | hfile
        · simp [hdown] at hraised
        · exact hcollect hfile
      entered := hslot.entered
      kept := hslot.kept
      settled := hslot.settled }

/-- In the second phase a step replaces one slot and tells the observer about
it if its task is done with that. -/
private theorem replace {i : Nat} {slot next : Slot} (h : Inv options found s)
    (hreport : s.report = none) (hget : s.slots[i]? = some slot) (hfile : next.file = slot.file)
    (hcollecting : next.collecting = slot.collecting) (htold : slot.told? = none)
    (hnext : SlotInv options s slot → SlotInv options s next) :
    Inv options found { s with
      slots := s.slots.set i next
      calls := s.calls ++ next.told?.toList.map fun status => ⟨next.file.path, status⟩ } := by
  obtain ⟨front, back, hslots, hset, hfiles, hslot, hothers⟩ := h.set_split hget hfile
  rw [hset]
  refine ⟨hfiles, ?_, ?_, ?_, by simp [hreport]⟩
  · intro other hother
    exact (hothers (hnext hslot) other hother).transfer rfl id (fun _ => rfl)
  · intro x
    have hbefore := h.registry x
    have hregistered : next.registered = slot.registered := by
      simp [Slot.registered, hcollecting]
    simpa [hslots, or_and_right, exists_or, hregistered] using hbefore
  · have hcalls := h.calls
    simp only [hslots, List.filterMap_append, List.filterMap_cons, htold, Option.map_none] at hcalls
    cases hdone : next.told? with
    | none => simpa [List.filterMap_cons, hdone] using hcalls
    | some status =>
      simp only [List.filterMap_append, List.filterMap_cons, hdone, Option.map_some,
        Option.toList_some, List.map_cons, List.map_nil]
      exact (List.perm_append_singleton _ _).trans
        ((hcalls.cons _).trans List.perm_middle.symm)

theorem migrate {i : Nat} (h : Inv options found s) (hreport : s.report = none)
    (hact : s.act? options (.migrate i) = some t) : Inv options found t := by
  obtain ⟨hphase, slot, next, hget, hstep, rfl⟩ := State.act?_migrate hact
  obtain ⟨hfile, hcollecting, htold, -⟩ := Slot.frame_migrate? hstep
  exact h.replace hreport hget hfile hcollecting htold (fun hslot => hslot.migrate hphase hstep)

theorem refuse {i : Nat} {reason : String} (h : Inv options found s) (hreport : s.report = none)
    (hact : s.act? options (.refuse i reason) = some t) : Inv options found t := by
  obtain ⟨hphase, slot, next, hget, hstep, rfl⟩ := State.act?_refuse hact
  obtain ⟨hnext, hadmitted, -⟩ := Slot.frame_refuse? hstep
  have htold : slot.told? = none := by simp [Slot.told?, hadmitted]
  have huntold : next.told? = none := by simp [hnext, Slot.told?]
  have hinv := h.replace hreport hget (by rw [hnext]) (by rw [hnext]) htold
    (fun hslot => hslot.refuse hphase hstep)
  simpa [huntold] using hinv

/-- One action keeps the invariant. -/
theorem step {a : State.Action} (h : Inv options found s) (hstep : s.step? options a = some t) :
    Inv options found t := by
  obtain ⟨hreport, hact⟩ := State.step?_eq_some hstep
  cases a with
  | cancel =>
    cases hact
    refine ⟨h.files, ?_, h.registry, h.calls, by simp [hreport]⟩
    intro slot hslot
    exact (h.slots slot hslot).transfer rfl (fun _ => rfl) (fun _ => rfl)
  | collect i => exact h.collect hreport hact
  | freeze => exact h.freeze hreport hact
  | check => exact h.check hreport hact
  | migrate i => exact h.migrate hreport hact
  | refuse i reason => exact h.refuse hreport hact
  | finish =>
    obtain ⟨hphase, rfl⟩ := State.act?_finish hact
    refine ⟨h.files, ?_, h.registry, h.calls, ?_⟩
    · intro slot hslot
      exact (h.slots slot hslot).transfer rfl id (fun _ => rfl)
    · intro r hr
      exact ⟨(Option.some.inj hr).symm, hphase⟩

private theorem run_from {actions : List State.Action} (h : Inv options found s)
    (hrun : State.run? options actions s = some t) : Inv options found t := by
  induction actions generalizing s with
  | nil => cases hrun; exact h
  | cons a actions ih =>
    obtain ⟨next, hstep, hrest⟩ := Option.bind_eq_some_iff.mp hrun
    exact ih (h.step hstep) hrest

/-- Every schedule keeps the invariant, from the start of a run. -/
theorem run {actions : List State.Action}
    (hrun : State.run? options actions (State.initial found) = some t) :
    Inv options found t :=
  run_from (initial options found) hrun

end Inv

end AnySome.Schedule
