import AnySome.Pipeline

/-!
# Runs as schedules of small steps

`Pipeline.run` gives the files their turns one after the other. On several
workers the tasks of different files overlap, and a request to cancel can
arrive at any moment. This module describes all such runs: a state holds how
far every task has come, and an action moves one task by one step.

A task of the first phase looks at the cancellation flag, then reads and
parses its file, then registers the names of its protocols one by one. A task
of the second phase looks at the flag, then decides what becomes of its file
and writes it back, then tells the observer. Between any two of these steps
any other task may take steps of its own, and the flag may be raised; it is
never lowered.

Between the phases stands a barrier. The registry is frozen when every task of
the first phase is done, and only then the flag is looked at once more: a
raised flag stops the run before the second phase.

Writing back replaces the text of a file at once. It may also be refused, and
then the file keeps its text.

## Main definitions

* `Schedule.State` — a moment of a run; `Schedule.State.initial` is its start.
* `Schedule.State.step?` — what one action does, if it is possible.
* `Schedule.State.run?` — what a schedule, a list of actions, leads to.
-/

namespace AnySome.Schedule

/-! ## Tasks -/

/-- How far the task of a file has come in the first phase. -/
inductive Collecting where
  | waiting
  /-- The flag was looked at and was not raised. -/
  | admitted
  /-- The file was read, and the first `count` of its names are registered. -/
  | registering (file : SourceFile) (count : Nat)
  | done (result : Except FileError SourceFile)

/-- How far the task of a file has come in the second phase. -/
inductive Migrating where
  | waiting
  /-- The flag was looked at and was not raised. -/
  | admitted
  /-- The file was written back or left as it was. -/
  | decided (status : FileStatus)
  /-- The observer knows about it. -/
  | done (status : FileStatus)

/-- A file of the project with its tasks. -/
structure Slot where
  /-- The file as it was found. -/
  file : FoundFile
  /-- What the file holds now. -/
  disk : Contents
  collecting : Collecting
  migrating : Migrating

namespace Slot

/-- A file before the run. -/
def ofFound (f : FoundFile) : Slot := ⟨f, f.contents, .waiting, .waiting⟩

/-- The result of the first phase, once it is there. -/
def result? (s : Slot) : Option (Except FileError SourceFile) :=
  match s.collecting with
  | .done result => some result
  | _ => none

/-- The source file that the first phase made of the file, if it did. -/
def readable? (s : Slot) : Option SourceFile :=
  match s.collecting with
  | .done (.ok f) => some f
  | _ => none

/-- What became of the file in the second phase, once the observer knows. -/
def told? (s : Slot) : Option FileStatus :=
  match s.migrating with
  | .done status => some status
  | _ => none

/-- The names of the file that are registered so far. -/
def registered (s : Slot) : List String :=
  match s.collecting with
  | .registering f count => f.interfaceNames.take count
  | .done (.ok f) => f.interfaceNames
  | _ => []

/-- The next step of the task in the first phase, with the registry after it. -/
def collect? (cancelled : Bool) (registry : Registry) (s : Slot) : Option (Slot × Registry) :=
  match s.collecting with
  | .waiting =>
    let next := if cancelled then .done (.error .cancelled) else .admitted
    some ({ s with collecting := next }, registry)
  | .admitted =>
    match Pipeline.collect false ⟨s.file.path, s.disk⟩ with
    | .error e => some ({ s with collecting := .done (.error e) }, registry)
    | .ok f => some ({ s with collecting := .registering f 0 }, registry)
  | .registering f count =>
    match f.interfaceNames[count]? with
    | some name => some ({ s with collecting := .registering f (count + 1) }, registry.add name)
    | none => some ({ s with collecting := .done (.ok f) }, registry)
  | .done _ => none

/-- The contents after an attempt to write back, which succeeds. -/
def writeBack (dryRun : Bool) (text : Option String) (disk : Contents) : Contents :=
  match dryRun, text with
  | false, some new => .text new
  | _, _ => disk

/-- The next step of the task in the second phase. -/
def migrate? (m : Migration) (dryRun cancelled : Bool) (s : Slot) : Option Slot :=
  match s.readable?, s.migrating with
  | some _, .waiting =>
    let next := if cancelled then .decided (.failed .cancelled) else .admitted
    some { s with migrating := next }
  | some f, .admitted =>
    let (status, text) := Pipeline.migrate m false f
    some { s with disk := writeBack dryRun text s.disk, migrating := .decided status }
  | some _, .decided status => some { s with migrating := .done status }
  | _, _ => none

/-- The step of the task in the second phase when writing back is refused. -/
def refuse? (m : Migration) (dryRun : Bool) (reason : String) (s : Slot) : Option Slot :=
  match s.readable?, s.migrating with
  | some f, .admitted =>
    if !dryRun && (Pipeline.migrate m false f).2.isSome then
      some { s with migrating := .decided (.failed (.access reason)) }
    else none
  | _, _ => none

/-- Nothing is left to do for the file. -/
def isSettled (s : Slot) : Bool :=
  match s.result? with
  | some (.ok _) => s.told?.isSome
  | some (.error _) => true
  | none => false

end Slot

/-! ## States -/

/-- Where a run stands. -/
inductive Phase where
  /-- Files are read and names registered. -/
  | collecting
  /-- The registry is complete, and the flag not yet looked at again. -/
  | frozen
  /-- The flag was raised at the barrier: nothing is migrated. -/
  | stopped
  /-- Files are migrated. -/
  | migrating
deriving DecidableEq, Repr

/-- A moment of a run. -/
structure State where
  phase : Phase
  /-- The cancellation flag is raised. -/
  cancelled : Bool
  registry : Registry
  slots : List Slot
  /-- What the observer was told, in order. -/
  calls : List Outcome
  /-- The report, once the run is over. -/
  report : Option Report

namespace State

/-- The start of a run over the given files. -/
def initial (found : List FoundFile) : State :=
  ⟨.collecting, false, .empty, found.map Slot.ofFound, [], none⟩

/-- The results of the first phase, in the order of the files. -/
def collected (s : State) : List (String × Except FileError SourceFile) :=
  s.slots.filterMap fun slot => slot.result?.map fun result => (slot.file.path, result)

/-- The outcomes of the files that the first phase could read: as the observer
was told, or untouched if the run was stopped at the barrier. -/
def secondPhase (s : State) : List Outcome :=
  if s.phase = .stopped then
    (Pipeline.readable s.collected).map fun (path, _) => ⟨path, .failed .cancelled⟩
  else s.slots.filterMap fun slot => slot.told?.map fun status => ⟨slot.file.path, status⟩

/-- The report of a run that is over. -/
def finalReport (options : Options) (s : State) : Report where
  discovered := s.slots.length
  interfaces := s.registry.size
  outcomes := Report.sortByPath (Pipeline.unreadable s.collected ++ s.secondPhase)
  cancelled := s.cancelled
  dryRun := options.dryRun
  nanoseconds := 0

/-- What the second phase works with. -/
def migration (options : Options) (s : State) : Migration :=
  Pipeline.migrationOf options s.registry

/-! ## Steps -/

/-- What can happen next in a run. -/
inductive Action where
  /-- The flag is raised. -/
  | cancel
  /-- The task of the `i`-th file takes a step in the first phase. -/
  | collect (i : Nat)
  /-- The first phase ends, and the registry is frozen. -/
  | freeze
  /-- The flag is looked at between the phases. -/
  | check
  /-- The task of the `i`-th file takes a step in the second phase. -/
  | migrate (i : Nat)
  /-- Writing back the `i`-th file is refused. -/
  | refuse (i : Nat) (reason : String)
  /-- The run ends with a report. -/
  | finish
deriving DecidableEq, Repr

/-- What an action does before the run is over, if it is possible. -/
def act? (options : Options) (s : State) : Action → Option State
  | .cancel => some { s with cancelled := true }
  | .collect i => do
    guard (s.phase = .collecting)
    let (slot, registry) ← (← s.slots[i]?).collect? s.cancelled s.registry
    return { s with slots := s.slots.set i slot, registry }
  | .freeze => do
    guard (s.phase = .collecting ∧ s.slots.all (·.result?.isSome))
    return { s with phase := .frozen }
  | .check => do
    guard (s.phase = .frozen)
    return { s with phase := if s.cancelled then .stopped else .migrating }
  | .migrate i => do
    guard (s.phase = .migrating)
    let slot ← (← s.slots[i]?).migrate? (s.migration options) options.dryRun s.cancelled
    let call := slot.told?.toList.map fun status => ⟨slot.file.path, status⟩
    return { s with slots := s.slots.set i slot, calls := s.calls ++ call }
  | .refuse i reason => do
    guard (s.phase = .migrating)
    let slot ← (← s.slots[i]?).refuse? (s.migration options) options.dryRun reason
    return { s with slots := s.slots.set i slot }
  | .finish => do
    guard (s.phase = .stopped ∨ (s.phase = .migrating ∧ s.slots.all Slot.isSettled))
    return { s with report := some (s.finalReport options) }

/-- What an action leads to, if it is possible: nothing happens in a run that
is over. -/
def step? (options : Options) (s : State) (a : Action) : Option State :=
  if s.report.isSome then none else s.act? options a

/-- What a schedule leads to, if each of its actions is possible in its turn. -/
def run? (options : Options) : List Action → State → Option State
  | [], s => some s
  | a :: as, s => (s.step? options a).bind (run? options as)

/-- A schedule can be cut anywhere. -/
theorem run?_append (options : Options) (as bs : List Action) (s : State) :
    run? options (as ++ bs) s = (run? options as s).bind (run? options bs) := by
  induction as generalizing s with
  | nil => rfl
  | cons a as ih =>
    rw [List.cons_append, run?, run?, Option.bind_assoc]
    congr 1
    funext t
    exact ih t

end State

end AnySome.Schedule
