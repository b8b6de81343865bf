import Mathlib.Data.List.Dedup
import AnySome.Interface.Registry
import AnySome.SourceFile

/-!
# Names that are registered by many tasks at once

In `Schedule` a name is registered in one step. On a registry that tasks share
an insertion takes two: the name is looked up, and only if it is missing it is
put in, which tells whether it was new. Between the two steps other tasks take
theirs, so two of them may both find the same name missing.

This module describes all such runs of tasks that register the names of their
files, whatever the order of their steps. What saves the registry is that only
the second step counts: putting a name in tells the truth about the registry of
that moment. So a name is in the registry exactly if one call has answered that
it was new, and then no other call has (`Inv.fresh`).

## Main results

* `Registration.Inv.run` — what every run keeps.
* `Registration.exists_completion` — every run can be completed.
* `Registration.registry_independent_of_schedule` — the frozen registry, its
  size, and the answers of all calls, for every order of steps.
-/

namespace AnySome.Registration

/-! ## Tasks and steps -/

/-- A task that registers the names of a file one after the other. -/
structure Task where
  file : SourceFile
  /-- The names that are still to be inserted. -/
  pending : List String
  /-- The first of them was looked up and is to be put in. -/
  missed : Bool

/-- An insertion that is over. -/
structure Call where
  /-- The number of the task. -/
  task : Nat
  name : String
  /-- What the insertion answered: the name was new. -/
  fresh : Bool
deriving DecidableEq, Repr

/-- A moment of a run. -/
structure State where
  registry : Registry
  tasks : List Task
  /-- The insertions that are over, in the order in which they ended. -/
  calls : List Call

namespace Task

/-- A task at its start: its file tells which names there are. -/
def ofFile (f : SourceFile) : Task := ⟨f, f.interfaceNames, false⟩

/-- No name is left. -/
def isDone (t : Task) : Bool := t.pending.isEmpty

/-- What the task returns when it is done: the number of names of its file. -/
def result? (t : Task) : Option Nat :=
  if t.isDone then some t.file.interfaceNames.length else none

/-- The next step of a task: the task behind it, the registry, and the name and
the answer of an insertion that ends with the step. -/
def step? (registry : Registry) (t : Task) :
    Option (Task × Registry × Option (String × Bool)) :=
  match t.pending, t.missed with
  | [], _ => none
  | name :: names, false =>
    if registry.contains name then
      some ({ t with pending := names }, registry, some (name, false))
    else some ({ t with missed := true }, registry, none)
  | name :: names, true =>
    let (fresh, registry) := registry.insert name
    some ({ t with pending := names, missed := false }, registry, some (name, fresh))

/-- An upper bound for the steps to come. -/
def remaining (t : Task) : Nat := 2 * t.pending.length - t.missed.toNat

/-- An upper bound for the steps that the tasks will take together. -/
def remainingList : List Task → Nat
  | [] => 0
  | t :: ts => t.remaining + remainingList ts

end Task

namespace State

/-- The start of a run. -/
def start (files : List SourceFile) : State := ⟨.empty, files.map Task.ofFile, []⟩

/-- The `i`-th task takes its next step. -/
def step? (i : Nat) (s : State) : Option State := do
  let (task, registry, ended) ← (← s.tasks[i]?).step? s.registry
  let calls := ended.toList.map fun (name, fresh) => ⟨i, name, fresh⟩
  return ⟨registry, s.tasks.set i task, s.calls ++ calls⟩

/-- Tasks take steps in the given order. -/
def run? : List Nat → State → Option State
  | [], s => some s
  | i :: is, s => (s.step? i).bind (run? is)

/-- The registry is frozen when all tasks are done. -/
def freeze? (s : State) : Option Registry :=
  if s.tasks.all Task.isDone then some s.registry else none

/-- The calls of the `i`-th task. -/
def callsOf (s : State) (i : Nat) : List Call := s.calls.filter (·.task = i)

/-- How many insertions of the name have answered that it was new. -/
def freshCount (s : State) (name : String) : Nat :=
  s.calls.countP fun c => c.fresh && c.name == name

/-- An upper bound for the steps to come. -/
def remaining (s : State) : Nat := Task.remainingList s.tasks

end State

/-! ## What a step can do -/

variable {files : List SourceFile} {s u : State} {i : Nat} {is js : List Nat}

/-- The three steps of an insertion: a name is found, or it is missed, or it is
put in after it was missed. -/
inductive Moves (i : Nat) (s : State) (t : Task) (name : String) (names : List String) :
    State → Prop where
  | found : t.missed = false → name ∈ s.registry →
      Moves i s t name names ⟨s.registry, s.tasks.set i { t with pending := names },
        s.calls ++ [⟨i, name, false⟩]⟩
  | missed : t.missed = false → ¬name ∈ s.registry →
      Moves i s t name names ⟨s.registry, s.tasks.set i { t with missed := true }, s.calls⟩
  | put : t.missed = true →
      Moves i s t name names
        ⟨s.registry.add name, s.tasks.set i { t with pending := names, missed := false },
          s.calls ++ [⟨i, name, !s.registry.contains name⟩]⟩

theorem State.step?_eq_some (h : s.step? i = some u) :
    ∃ t name names, s.tasks[i]? = some t ∧ t.pending = name :: names ∧
      Moves i s t name names u := by
  simp only [step?, Option.bind_eq_bind, Option.bind_eq_some_iff, Option.pure_def,
    Option.some.injEq] at h
  obtain ⟨t, ht, ⟨t', registry, ended⟩, hstep, rfl⟩ := h
  unfold Task.step? at hstep
  split at hstep
  · contradiction
  next name names hpending hmissed =>
    refine ⟨t, name, names, ht, hpending, ?_⟩
    split at hstep
    next hfound =>
      cases hstep
      have hmoves : Moves i s t name names _ := .found hmissed (by simpa using hfound)
      simpa using hmoves
    next hmiss =>
      cases hstep
      have hmoves : Moves i s t name names _ := .missed hmissed (by simpa using hmiss)
      simpa using hmoves
  next name names hpending hmissed =>
    cases hstep
    exact ⟨t, name, names, ht, hpending, .put hmissed⟩

/-- No step removes a name. -/
theorem Moves.mem {t : Task} {name x : String} {names : List String}
    (h : Moves i s t name names u) (hx : x ∈ s.registry) : x ∈ u.registry := by
  cases h with
  | found | missed => exact hx
  | put => exact Registry.mem_add.mpr (.inr hx)

theorem State.run?_append (is js : List Nat) (s : State) :
    run? (is ++ js) s = (run? is s).bind (run? js) := by
  induction is generalizing s with
  | nil => rfl
  | cons i is ih =>
    rw [List.cons_append, run?, run?, Option.bind_assoc]
    congr 1
    funext t
    exact ih t

/-- No run removes a name. -/
theorem mem_of_run {x : String} (h : s.run? is = some u) (hx : x ∈ s.registry) :
    x ∈ u.registry := by
  induction is generalizing s with
  | nil =>
    cases h
    exact hx
  | cons i is ih =>
    obtain ⟨v, hv, hrest⟩ := Option.bind_eq_some_iff.mp h
    obtain ⟨t, name, names, -, -, hmoves⟩ := State.step?_eq_some hv
    exact ih hrest (hmoves.mem hx)

/-! ## The invariant -/

/-- What holds at every moment of a run. -/
structure Inv (files : List SourceFile) (s : State) : Prop where
  length : s.tasks.length = files.length
  /-- A task has inserted the names in front of those that are left. -/
  task : ∀ i t, s.tasks[i]? = some t → files[i]? = some t.file ∧
    t.file.interfaceNames = (s.callsOf i).map Call.name ++ t.pending
  called : ∀ c ∈ s.calls, c.name ∈ s.registry ∧
    ∃ f, files[c.task]? = some f ∧ c.name ∈ f.interfaceNames
  fresh : ∀ x, s.freshCount x = if x ∈ s.registry then 1 else 0

namespace Inv

theorem start (files : List SourceFile) : Inv files (.start files) where
  length := List.length_map Task.ofFile
  task := by
    intro i t ht
    obtain ⟨f, hf, rfl⟩ := (List.getElem?_map ▸ Option.map_eq_some_iff.mp) ht
    exact ⟨hf, rfl⟩
  called := by
    intro c hc
    contradiction
  fresh := by
    intro x
    exact (if_neg List.not_mem_nil).symm

/-- The tasks after a step of the `i`-th, with which the calls `cs` have ended. -/
theorem task_set (h : Inv files s) {t : Task} (ht : s.tasks[i]? = some t) (t' : Task)
    (cs : List Call) (hfile : t'.file = t.file)
    (hnames : t.pending = cs.map Call.name ++ t'.pending)
    (hcs : ∀ c ∈ cs, c.task = i) : ∀ j v, (s.tasks.set i t')[j]? = some v →
      files[j]? = some v.file ∧ v.file.interfaceNames =
        ((s.calls ++ cs).filter (·.task = j)).map Call.name ++ v.pending := by
  intro j v hv
  rw [List.filter_append, List.map_append]
  rw [List.getElem?_set] at hv
  split at hv
  next heq =>
    subst heq
    split at hv
    · obtain rfl := Option.some.inj hv
      obtain ⟨hf, hold⟩ := h.task i t ht
      have hall : cs.filter (·.task = i) = cs := by simpa using hcs
      rw [hfile, hall, hold, hnames, List.append_assoc]
      exact ⟨hf, rfl⟩
    · contradiction
  next hne =>
    have hnone : cs.filter (·.task = j) = [] := by
      rw [List.filter_eq_nil_iff]
      intro c hc htask
      exact hne ((hcs c hc).symm.trans (by simpa using htask))
    rw [hnone, List.map_nil, List.append_nil]
    exact h.task j v hv

/-- The name that a task is about is one of its file. -/
theorem exists_file (h : Inv files s) {t : Task} {name : String} {names : List String}
    (ht : s.tasks[i]? = some t) (hpending : t.pending = name :: names) :
    ∃ f, files[i]? = some f ∧ name ∈ f.interfaceNames := by
  obtain ⟨hf, hnames⟩ := h.task i t ht
  refine ⟨t.file, hf, ?_⟩
  rw [hnames, hpending]
  exact List.mem_append_right _ List.mem_cons_self

/-- A step keeps the invariant. -/
theorem step (h : Inv files s) (hs : s.step? i = some u) : Inv files u := by
  obtain ⟨t, name, names, ht, hpending, hmoves⟩ := State.step?_eq_some hs
  have hname := h.exists_file ht hpending
  cases hmoves with
  | found hmissed hfound =>
    refine ⟨by rw [List.length_set, h.length], ?_, ?_, ?_⟩
    · exact h.task_set ht _ _ rfl hpending (by simp)
    · intro c hc
      rcases List.mem_append.mp hc with hc | hc
      · exact h.called c hc
      · obtain rfl := List.mem_singleton.mp hc
        exact ⟨hfound, hname⟩
    · intro x
      have hold := h.fresh x
      unfold State.freshCount at hold ⊢
      rw [List.countP_append, hold]
      rfl
  | missed hmissed hmiss =>
    refine ⟨by rw [List.length_set, h.length], ?_, h.called, h.fresh⟩
    have htasks := h.task_set ht { t with missed := true } [] rfl rfl (by simp)
    rw [List.append_nil] at htasks
    exact htasks
  | put hmissed =>
    refine ⟨by rw [List.length_set, h.length], ?_, ?_, ?_⟩
    · exact h.task_set ht _ _ rfl hpending (by simp)
    · intro c hc
      rcases List.mem_append.mp hc with hc | hc
      · obtain ⟨hreg, hfile⟩ := h.called c hc
        exact ⟨Registry.mem_add.mpr (.inr hreg), hfile⟩
      · obtain rfl := List.mem_singleton.mp hc
        exact ⟨Registry.mem_add.mpr (.inl rfl), hname⟩
    · -- Another task may have put the name in since it was missed: then the
      -- answer is that the name is not new.
      intro x
      have hold := h.fresh x
      unfold State.freshCount at hold ⊢
      rw [List.countP_append, hold]
      by_cases hx : name = x
      · subst hx
        rw [if_pos (Registry.mem_add.mpr (.inl rfl))]
        by_cases hin : name ∈ s.registry
        · have hcontains := (Registry.contains_iff s.registry name).mpr hin
          rw [if_pos hin, hcontains]
          simp
        · have hcontains : s.registry.contains name = false := by
            rw [Bool.eq_false_iff]
            exact fun hc => hin ((Registry.contains_iff s.registry name).mp hc)
          rw [if_neg hin, hcontains]
          simp
      · have hx' : x ≠ name := fun h => hx h.symm
        simp [hx, hx']

/-- What every run keeps. -/
theorem run (h : Inv files s) (hs : s.run? is = some u) : Inv files u := by
  induction is generalizing s with
  | nil =>
    cases hs
    exact h
  | cons i is ih =>
    obtain ⟨v, hv, hrest⟩ := Option.bind_eq_some_iff.mp hs
    exact ih (h.step hv) hrest

end Inv

/-! ## Runs end -/

theorem Task.remainingList_set {ts : List Task} {t : Task} (ht : ts[i]? = some t) (t' : Task) :
    remainingList (ts.set i t') + t.remaining = remainingList ts + t'.remaining := by
  induction ts generalizing i with
  | nil => contradiction
  | cons v ts ih =>
    cases i with
    | zero =>
      obtain rfl := Option.some.inj ht
      simp only [List.set_cons_zero, remainingList]
      omega
    | succ i =>
      have hrest := ih ht
      simp only [List.set_cons_succ, remainingList]
      omega

/-- Fewer steps are left after each. -/
theorem State.remaining_step (h : s.step? i = some u) : u.remaining < s.remaining := by
  obtain ⟨t, name, names, ht, hpending, hmoves⟩ := step?_eq_some h
  have hlength : t.pending.length = names.length + 1 := by rw [hpending, List.length_cons]
  cases hmoves with
  | found hmissed =>
    have hsum := Task.remainingList_set ht { t with pending := names }
    have hzero : t.missed.toNat = 0 := by rw [hmissed, Bool.toNat_false]
    simp only [Task.remaining, hlength, hzero] at hsum
    show Task.remainingList (s.tasks.set i _) < Task.remainingList s.tasks
    omega
  | missed hmissed =>
    have hsum := Task.remainingList_set ht { t with missed := true }
    simp only [Task.remaining, hlength, hmissed, Bool.toNat_false, Bool.toNat_true] at hsum
    show Task.remainingList (s.tasks.set i _) < Task.remainingList s.tasks
    omega
  | put hmissed =>
    have hsum := Task.remainingList_set ht { t with pending := names, missed := false }
    simp only [Task.remaining, hlength, hmissed, Bool.toNat_false, Bool.toNat_true] at hsum
    show Task.remainingList (s.tasks.set i _) < Task.remainingList s.tasks
    omega

/-- As long as not all tasks are done, one of them can take a step. -/
theorem State.exists_step (h : s.tasks.all Task.isDone = false) :
    ∃ i u, s.step? i = some u := by
  obtain ⟨t, hmem, hdone⟩ : ∃ t ∈ s.tasks, t.isDone = false := by
    simpa using h
  obtain ⟨i, hi⟩ := List.getElem?_of_mem hmem
  obtain ⟨name, names, hpending⟩ := List.exists_cons_of_ne_nil (l := t.pending) (by
    simpa [Task.isDone] using hdone)
  have hstep : (t.step? s.registry).isSome = true := by
    unfold Task.step?
    rw [hpending]
    cases t.missed with
    | true => rfl
    | false =>
      dsimp only
      split <;> rfl
  obtain ⟨⟨t', registry, ended⟩, htask⟩ := Option.isSome_iff_exists.mp hstep
  refine ⟨i, ⟨registry, s.tasks.set i t', s.calls ++
    ended.toList.map fun (name, fresh) => ⟨i, name, fresh⟩⟩, ?_⟩
  simp only [step?, Option.bind_eq_bind, Option.bind_eq_some_iff, Option.pure_def]
  exact ⟨t, hi, _, htask, rfl⟩

/-- Every run can be completed. -/
theorem exists_completion (s : State) :
    ∃ is u, s.run? is = some u ∧ u.tasks.all Task.isDone = true := by
  by_cases hdone : s.tasks.all Task.isDone = true
  · exact ⟨[], s, rfl, hdone⟩
  · obtain ⟨i, v, hv⟩ := State.exists_step (by simpa using hdone)
    have hless := State.remaining_step hv
    obtain ⟨is, u, hrun, hu⟩ := exists_completion v
    exact ⟨i :: is, u, Option.bind_eq_some_iff.mpr ⟨v, hv, hrun⟩, hu⟩
termination_by s.remaining

/-! ## The frozen registry -/

section

variable (h : Inv files s) (hdone : s.tasks.all Task.isDone = true)

include h hdone

/-- A task that is done has inserted the names of its file, in order. -/
theorem Inv.exists_task {f : SourceFile} (hf : files[i]? = some f) :
    ∃ t, s.tasks[i]? = some t ∧ t.isDone = true ∧ t.file = f ∧
      (s.callsOf i).map Call.name = f.interfaceNames := by
  have hlt : i < s.tasks.length := by
    rw [h.length]
    exact (List.getElem?_eq_some_iff.mp hf).1
  have ht : s.tasks[i]? = some s.tasks[i] := List.getElem?_eq_getElem hlt
  obtain ⟨hfile, hnames⟩ := h.task i _ ht
  have hend : s.tasks[i].isDone = true := List.all_eq_true.mp hdone _ (List.getElem_mem hlt)
  have heq : s.tasks[i].file = f := Option.some.inj (hfile.symm.trans hf)
  refine ⟨s.tasks[i], ht, hend, heq, ?_⟩
  have hnil : s.tasks[i].pending = [] := by simpa [Task.isDone] using hend
  rw [hnil, List.append_nil, heq] at hnames
  exact hnames.symm

/-- The names in the registry are those of the files. -/
theorem Inv.mem_iff (x : String) : x ∈ s.registry ↔ ∃ f ∈ files, x ∈ f.interfaceNames := by
  constructor
  · intro hx
    have hcount := h.fresh x
    rw [if_pos hx, State.freshCount] at hcount
    have hpos : 0 < s.calls.countP fun c => c.fresh && c.name == x := by omega
    obtain ⟨c, hc, hfresh⟩ := List.countP_pos_iff.mp hpos
    obtain ⟨-, f, hf, hmem⟩ := h.called c hc
    have hname : c.name = x := by
      simp only [Bool.and_eq_true, beq_iff_eq] at hfresh
      exact hfresh.2
    rw [hname] at hmem
    exact ⟨f, List.mem_of_getElem? hf, hmem⟩
  · rintro ⟨f, hf, hx⟩
    obtain ⟨i, hi⟩ := List.getElem?_of_mem hf
    obtain ⟨t, -, -, -, hcalls⟩ := h.exists_task hdone hi
    rw [← hcalls] at hx
    obtain ⟨c, hc, rfl⟩ := List.mem_map.mp hx
    exact (h.called c (List.mem_of_mem_filter hc)).1

/-- The registry is that of all names, whatever the order in which they came. -/
theorem Inv.registry_eq :
    s.registry = Registry.ofList (files.flatMap SourceFile.interfaceNames) := by
  refine Registry.ext_names fun x => ?_
  have hempty : ¬x ∈ Registry.empty := List.not_mem_nil
  rw [h.mem_iff hdone, Registry.ofList, Registry.mem_addAll, List.mem_flatMap]
  simp [hempty]

theorem Inv.results_eq :
    s.tasks.map Task.result? = files.map fun f => some f.interfaceNames.length := by
  refine List.ext_getElem? fun i => ?_
  rw [List.getElem?_map, List.getElem?_map]
  cases hf : files[i]? with
  | none =>
    have hle : s.tasks.length ≤ i := by
      rw [h.length]
      exact List.getElem?_eq_none_iff.mp hf
    rw [List.getElem?_eq_none hle]
    rfl
  | some f =>
    obtain ⟨t, ht, hend, rfl, -⟩ := h.exists_task hdone hf
    rw [ht, Option.map_some, Option.map_some, Task.result?, if_pos hend]

end

/-- The size of a registry is the number of different names in any list of its
names. -/
theorem size_eq_length_dedup {r : Registry} {names : List String} (h : ∀ x, x ∈ r ↔ x ∈ names) :
    r.size = names.dedup.length := by
  have hperm : r.names.Perm names.dedup := by
    refine (List.perm_ext_iff_of_nodup r.nodup_names names.nodup_dedup).mpr fun x => ?_
    rw [List.mem_dedup]
    exact h x
  exact hperm.length_eq

/-- Tasks that register the names of their files on one registry, with their
steps in any order. No name is ever removed, and every run can be completed. When
all tasks are done, the frozen registry is the one of all names together, and its
size the number of different names; each task has made one insertion for each of
its names, in order, and returns their number with repetitions; and of all
insertions of a name exactly one has answered that it was new. -/
theorem registry_independent_of_schedule {schedule : List Nat}
    (h : (State.start files).run? schedule = some s) :
    (∀ before behind earlier, schedule = before ++ behind →
      (State.start files).run? before = some earlier → ∀ x ∈ earlier.registry, x ∈ s.registry) ∧
    (∃ more last r, s.run? more = some last ∧ last.freeze? = some r) ∧
    ∀ r, s.freeze? = some r →
      (r = Registry.ofList (files.flatMap SourceFile.interfaceNames) ∧
        ∀ x, x ∈ r ↔ ∃ f ∈ files, x ∈ f.interfaceNames) ∧
      r.size = (files.flatMap SourceFile.interfaceNames).dedup.length ∧
      s.tasks.map Task.result? = files.map (fun f => some f.interfaceNames.length) ∧
      (∀ i f, files[i]? = some f → (s.callsOf i).map Call.name = f.interfaceNames) ∧
      ∀ x ∈ r, s.freshCount x = 1 := by
  have hinv : Inv files s := (Inv.start files).run h
  refine ⟨?_, ?_, ?_⟩
  · rintro before behind earlier rfl hbefore x hx
    rw [State.run?_append, hbefore] at h
    exact mem_of_run h hx
  · obtain ⟨more, last, hrun, hdone⟩ := exists_completion s
    exact ⟨more, last, last.registry, hrun, if_pos hdone⟩
  · intro r hr
    unfold State.freeze? at hr
    split at hr
    next hdone =>
      obtain rfl := Option.some.inj hr
      have hmem := hinv.mem_iff hdone
      refine ⟨⟨hinv.registry_eq hdone, hmem⟩, ?_, hinv.results_eq hdone, ?_, ?_⟩
      · refine size_eq_length_dedup fun x => ?_
        rw [hmem, List.mem_flatMap]
      · intro i f hf
        obtain ⟨t, -, -, -, hcalls⟩ := hinv.exists_task hdone hf
        exact hcalls
      · intro x hx
        rw [hinv.fresh, if_pos hx]
    · contradiction

/-- Two files that declare one protocol each, of the same name, and a third that
declares it twice. -/
def rivals : List SourceFile :=
  ["protocol P {}", "protocol P {}\nprotocol Q {}", "protocol P {}\nstruct S { protocol P {} }"].map
    fun text => (SourceFile.recover "test.swift" text).1

/-- All three tasks look `P` up before any of them puts it in. -/
theorem registry_independent_of_race :
    ∃ s r, (State.start rivals).run? [0, 1, 2, 1, 0, 2, 1, 1, 2] = some s ∧
      s.freeze? = some r ∧ r.names = ["P", "Q"] ∧
      s.calls = [⟨1, "P", true⟩, ⟨0, "P", false⟩, ⟨2, "P", false⟩, ⟨1, "Q", true⟩,
        ⟨2, "P", false⟩] ∧
      r = Registry.ofList (rivals.flatMap SourceFile.interfaceNames) ∧
      s.tasks.map Task.result? = rivals.map (fun f => some f.interfaceNames.length) ∧
      ∀ x ∈ r, s.freshCount x = 1 := by
  have hsome : (((State.start rivals).run? [0, 1, 2, 1, 0, 2, 1, 1, 2]).bind fun s =>
      s.freeze?.map fun r => (r.names, s.calls)) =
      some (["P", "Q"], [⟨1, "P", true⟩, ⟨0, "P", false⟩, ⟨2, "P", false⟩, ⟨1, "Q", true⟩,
        ⟨2, "P", false⟩]) := by
    decide +kernel
  obtain ⟨s, hrun, hs⟩ := Option.bind_eq_some_iff.mp hsome
  obtain ⟨r, hr, heq⟩ := Option.map_eq_some_iff.mp hs
  obtain ⟨hnames, hcalls⟩ := Prod.mk.inj heq
  obtain ⟨-, -, hfrozen⟩ := registry_independent_of_schedule hrun
  obtain ⟨⟨hreg, -⟩, -, hresults, -, hfresh⟩ := hfrozen r hr
  exact ⟨s, r, hrun, hr, hnames, hcalls, hreg, hresults, hfresh⟩

end AnySome.Registration
