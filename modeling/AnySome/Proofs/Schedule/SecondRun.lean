import AnySome.Proofs.Project.WriteBack
import AnySome.Proofs.Rewrite.Idempotence
import AnySome.Proofs.Schedule.Accounting
import AnySome.Proofs.Schedule.Sequential
import AnySome.Proofs.Schedule.Verdict

/-!
# A second run changes nothing

The texts that a run has written are read again by the next one, in two ways:
the registry is made anew from the protocols that the files declare now, and
the files are migrated against it. Migrating a file keeps the protocols that it
declares, so the registry is the old one. Then the migration is the old one
too, and migrating a text twice is migrating it once. How names are resolved
does not matter for that, because it depends on the registry and the options
alone.

## Main results

* `Schedule.discover_after` — the next run finds the same files, with what this
  run has left in them.
* `Schedule.Calm.registry_eq` — the registry is the same again.
* `Schedule.second_run_changes_nothing` — a second run changes no file.
-/

namespace AnySome

/-! ## Writing each file once -/

namespace FoundFile

theorem refillAll_append (f : FoundFile) (ws vs : List (String × String)) :
    f.refillAll (ws ++ vs) = (f.refillAll ws).refillAll vs := by
  unfold refillAll
  rw [List.foldl_append]

theorem refillAll_of_ne {f : FoundFile} {ws : List (String × String)}
    (h : ∀ w ∈ ws, w.1 ≠ f.path) : f.refillAll ws = f := by
  unfold refillAll
  induction ws with
  | nil => rfl
  | cons w ws ih =>
    rw [List.foldl_cons, refill_of_ne (h w List.mem_cons_self).symm]
    exact ih fun v hv => h v (List.mem_cons_of_mem w hv)

end FoundFile

namespace Schedule

open SourceFile

/-- The file as a run has left it. -/
def Slot.left (s : Slot) : FoundFile := ⟨s.file.path, s.disk⟩

theorem Slot.written?_eq_some {dryRun : Bool} {s : Slot} {w : String × String}
    (h : s.written? dryRun = some w) :
    ∃ n text, s.told? = some (.changed n) ∧ s.disk = .text text ∧ w = (s.file.path, text) := by
  unfold Slot.written? at h
  split at h
  next n text htold hdisk => exact ⟨n, text, htold, hdisk, (Option.some.inj h).symm⟩
  · contradiction

theorem Slot.path_of_written? {dryRun : Bool} {s : Slot} {w : String × String}
    (h : s.written? dryRun = some w) : w.1 = s.file.path := by
  obtain ⟨n, text, -, -, rfl⟩ := Slot.written?_eq_some h
  rfl

section Runs

variable {options : Options} {found : List FoundFile} {s : State} {report : Report}

/-! ## What the next run finds -/

/-- What was written to a file is what it holds; a file to which nothing was
written holds what it held. -/
theorem written?_or_kept (h : Inv options found s) (hreport : s.report = some report) {slot : Slot}
    (hslot : slot ∈ s.slots) :
    (slot.written? options.dryRun = none ∧ slot.disk = slot.file.contents) ∨
      ∃ text, slot.written? options.dryRun = some (slot.file.path, text) ∧
        slot.disk = .text text := by
  by_cases hdisk : slot.disk = slot.file.contents
  · cases hwritten : slot.written? options.dryRun with
    | none => exact .inl ⟨rfl, hdisk⟩
    | some w =>
      obtain ⟨n, text, -, htext, rfl⟩ := Slot.written?_eq_some hwritten
      exact .inr ⟨text, rfl, htext⟩
  · obtain ⟨hphase, hwet, text, f, n, -, -, hnew, hresult, hstatus⟩ :=
      written_of_disk_ne h hslot hdisk
    have hfinal := final?_eq_status? h hreport hslot hphase hresult
    have htold : slot.told? = some (.changed n) := by
      rw [← hstatus, ← hfinal]
      simp [Slot.final?, hresult, hphase]
    refine .inr ⟨_, ?_, hnew⟩
    unfold Slot.written?
    rw [hwet, htold, hnew]

/-- After all texts were written, a file holds what the run has left in it. -/
theorem refillAll_written (h : Inv options found s) (hreport : s.report = some report)
    (hdistinct : s.slots.Pairwise fun a b => a.file.path ≠ b.file.path) {slot : Slot}
    (hslot : slot ∈ s.slots) :
    slot.file.refillAll (s.slots.filterMap (Slot.written? options.dryRun)) = slot.left := by
  obtain ⟨front, back, hsplit⟩ := List.append_of_mem hslot
  rw [hsplit, List.pairwise_append, List.pairwise_cons] at hdistinct
  obtain ⟨-, ⟨hback, -⟩, hfront⟩ := hdistinct
  rw [hsplit, List.filterMap_append, List.filterMap_cons, FoundFile.refillAll_append]
  have hbefore : slot.file.refillAll (front.filterMap (Slot.written? options.dryRun)) =
      slot.file := by
    apply FoundFile.refillAll_of_ne
    intro w hw
    obtain ⟨other, hother, hwritten⟩ := List.mem_filterMap.mp hw
    rw [Slot.path_of_written? hwritten]
    exact hfront other hother slot List.mem_cons_self
  have hbehind : ∀ w ∈ back.filterMap (Slot.written? options.dryRun), w.1 ≠ slot.file.path := by
    intro w hw
    obtain ⟨other, hother, hwritten⟩ := List.mem_filterMap.mp hw
    rw [Slot.path_of_written? hwritten]
    exact (hback other hother).symm
  rw [hbefore]
  rcases written?_or_kept h hreport hslot with ⟨hnone, hdisk⟩ | ⟨text, hsome, hdisk⟩
  · rw [hnone]
    dsimp only
    rw [FoundFile.refillAll_of_ne hbehind, Slot.left, hdisk]
  · have hfilled : (⟨slot.file.path, .text text⟩ : FoundFile) = slot.left := by
      rw [Slot.left, hdisk]
    rw [hsome]
    show (slot.file.refill slot.file.path (.text text)).refillAll _ = _
    rw [FoundFile.refill_self, hfilled]
    exact FoundFile.refillAll_of_ne hbehind

/-- The files of a project in a tree are in the order of their paths. -/
theorem pairwise_before_of_discover {tree : FileTree} {here : List String}
    (hwf : tree.WellFormed)
    (hfound : Discovery.discover options.root options.excludedFolders
      (tree.access here options.root).toOption = .ok found) :
    found.Pairwise fun f g => Path.before f.path g.path = true := by
  refine Discovery.pairwise_before_discover ?_ hfound
  intro t ht
  cases haccess : tree.access here options.root with
  | error e =>
    rw [haccess] at ht
    contradiction
  | ok u =>
    rw [haccess] at ht
    cases ht
    obtain ⟨place, -, hfind⟩ := FileTree.access_eq_ok_iff.mp haccess
    exact hwf.find? hfind

theorem map_path_left (h : Inv options found s) :
    (s.slots.map Slot.left).map FoundFile.path = found.map FoundFile.path := by
  rw [← h.files, List.map_map, List.map_map]
  rfl

/-- The next run finds the same files, with what this run has left in them. -/
theorem discover_after {tree : FileTree} {here : List String} (hwf : tree.WellFormed)
    (hfound : Discovery.discover options.root options.excludedFolders
      (tree.access here options.root).toOption = .ok found)
    (h : Inv options found s) (hreport : s.report = some report) :
    Discovery.discover options.root options.excludedFolders
      ((Program.writeAll tree here (s.slots.filterMap (Slot.written? options.dryRun))).access here
        options.root).toOption = .ok (s.slots.map Slot.left) := by
  have hdistinct : s.slots.Pairwise fun a b => a.file.path ≠ b.file.path := by
    have hordered := pairwise_before_of_discover hwf hfound
    rw [← h.files, List.pairwise_map] at hordered
    exact hordered.imp Discovery.ne_of_before
  have hwrites : ∀ w ∈ s.slots.filterMap (Slot.written? options.dryRun),
      w.1 ∈ found.map FoundFile.path := by
    intro w hw
    obtain ⟨slot, hslot, hwritten⟩ := List.mem_filterMap.mp hw
    rw [Slot.path_of_written? hwritten, ← h.files]
    exact List.mem_map_of_mem (List.mem_map_of_mem hslot)
  rw [(Discovery.discover_writeAll hwf hfound hwrites).2, ← h.files, List.map_map]
  exact congrArg Except.ok
    (List.map_congr_left fun slot hslot => refillAll_written h hreport hdistinct hslot)

/-! ## What a run without incidents leaves behind -/

/-- A real run that was not cancelled, in which no file could not be read or
written, and after which every file that was accepted still is. -/
structure Calm (options : Options) (found : List FoundFile) (s : State) (report : Report) :
    Prop where
  inv : Inv options found s
  decides : Decides options s
  reported : s.report = some report
  wet : options.dryRun = false
  uncancelled : report.cancelled = false
  accessible : ∀ o ∈ report.outcomes, ∀ reason, o.status ≠ .failed (.access reason)
  accepted : ∀ slot ∈ s.slots, ∀ f, slot.readable? = some f →
    ∃ g, Pipeline.collect false slot.left = .ok g

/-- What a file is to the next run: it is rejected as before, or it reads like
its migration, which leaves it as it is. -/
inductive Slot.Stable (m : Migration) (outcomes : List Outcome) (s : Slot) : Prop where
  | rejected (e : ParseError) (before : Pipeline.collect false s.file = .error (.parse e))
      (after : Pipeline.collect false s.left = .error (.parse e))
      (reported : ⟨s.file.path, .failed (.parse e)⟩ ∈ outcomes)
  | migrated (f g : SourceFile) (before : Pipeline.collect false s.file = .ok f)
      (after : Pipeline.collect false s.left = .ok g) (names : g.interfaceNames = f.interfaceNames)
      (unchanged : Pipeline.migrate m false g = (.unchanged, none))

theorem collect_eq_error {file : FoundFile} {e : FileError}
    (h : Pipeline.collect false file = .error e) :
    (∃ reason, e = .access reason) ∨ ∃ cause, e = .parse cause := by
  unfold Pipeline.collect at h
  rw [if_neg Bool.false_ne_true] at h
  split at h
  · cases h
    exact .inl ⟨_, rfl⟩
  next text htext =>
    cases hparse : SourceFile.parse file.path text with
    | error cause =>
      rw [hparse] at h
      cases h
      exact .inr ⟨cause, rfl⟩
    | ok f =>
      rw [hparse] at h
      contradiction

namespace Calm

variable (hcalm : Calm options found s report)
include hcalm

theorem phase : s.phase = .migrating :=
  phase_of_uncancelled hcalm.inv hcalm.decides hcalm.reported hcalm.uncancelled

/-- Every file is stable under the migration of the run. -/
theorem stable {slot : Slot} (hslot : slot ∈ s.slots) :
    slot.Stable (Pipeline.migrationOf options (completeRegistry found)) report.outcomes := by
  rcases outcome_cases hcalm.inv hcalm.decides hcalm.reported hcalm.uncancelled hslot with
    ⟨e, hcollect, hfinal, hundecided⟩ | ⟨f, status, hcollect, hread, hfinal, hdecided, horigin⟩
  · have hreported := mem_outcomes hcalm.inv hcalm.reported hslot hfinal
    have hleft : slot.left = slot.file := by
      unfold Slot.left
      rw [(hcalm.inv.slots slot hslot).kept hundecided]
    rcases collect_eq_error hcollect with ⟨reason, rfl⟩ | ⟨cause, rfl⟩
    · exact absurd rfl (hcalm.accessible _ hreported reason)
    · exact .rejected cause hcollect (by rw [hleft]; exact hcollect) hreported
  · have hstatus : status =
        (Pipeline.migrate (Pipeline.migrationOf options (completeRegistry found)) false f).1 := by
      rcases horigin with hmigrated | ⟨reason, rfl, -⟩
      · exact hmigrated
      · have hreported := mem_outcomes hcalm.inv hcalm.reported hslot hfinal
        exact absurd rfl (hcalm.accessible _ hreported reason)
    rw [hstatus] at hdecided
    have hdisk := disk_of_decided hcalm.inv hcalm.wet hcalm.phase hslot hread hdecided
    obtain ⟨text, -, hparse⟩ := collect_eq_ok hcollect
    obtain ⟨g, hg⟩ := hcalm.accepted slot hslot f hread
    obtain ⟨out, hout, hagain⟩ := collect_eq_ok hg
    -- what the file holds is the text of its migration
    obtain rfl : _ = out := Contents.text.inj (hdisk.symm.trans hout)
    rcases Migration.parse_written (Pipeline.migrationOf options (completeRegistry found)) hparse
      with ⟨e, he, -⟩ | ⟨g', hg', houtline⟩
    · exact absurd (hagain.symm.trans he) nofun
    · obtain rfl : g = g' := Except.ok.inj (hagain.symm.trans hg')
      have hsame := Migration.render_of_read _ hagain houtline
      refine .migrated f g hcollect hg ?_ ?_
      · have hnames := congrArg Declaration.interfaceNamesList houtline
        rw [Declaration.interfaceNamesList_outline, Declaration.interfaceNamesList_outline] at hnames
        exact hnames.trans (Migration.interfaceNames_file _ f)
      · unfold Pipeline.migrate
        rw [if_neg Bool.false_ne_true]
        dsimp only
        rw [if_pos (hsame.trans (SourceFile.text_of_parse hagain).symm)]

/-- The files that the run has left declare the same protocols. -/
theorem registry_eq : completeRegistry (s.slots.map Slot.left) = completeRegistry found := by
  refine Registry.ext_names fun x => ?_
  rw [mem_completeRegistry, mem_completeRegistry, ← hcalm.inv.files]
  constructor
  · rintro ⟨file, hfile, g, hg, hx⟩
    obtain ⟨slot, hslot, rfl⟩ := List.mem_map.mp hfile
    cases hcalm.stable hslot with
    | rejected e before after reported => exact absurd (hg.symm.trans after) nofun
    | migrated f g' before after names unchanged =>
      obtain rfl : g = g' := Except.ok.inj (hg.symm.trans after)
      exact ⟨slot.file, List.mem_map_of_mem hslot, f, before, names ▸ hx⟩
  · rintro ⟨file, hfile, f, hf, hx⟩
    obtain ⟨slot, hslot, rfl⟩ := List.mem_map.mp hfile
    cases hcalm.stable hslot with
    | rejected e before after reported => exact absurd (hf.symm.trans before) nofun
    | migrated f' g before after names unchanged =>
      obtain rfl : f = f' := Except.ok.inj (hf.symm.trans before)
      exact ⟨slot.left, List.mem_map_of_mem hslot, g, after, names ▸ hx⟩

/-! ## The second run -/

variable {t : State} {again : Report}

/-- What becomes of a file in the second run. -/
theorem second (h : Inv options (s.slots.map Slot.left) t) (hdecides : Decides options t)
    (hreport : t.report = some again) (huncancelled : again.cancelled = false) {slot : Slot}
    (hslot : slot ∈ t.slots) :
    slot.disk = slot.file.contents ∧
      ∃ status, slot.final? t.phase = some status ∧
        (status = .unchanged ∨ ∃ e, status = .failed (.parse e) ∧
          ⟨slot.file.path, .failed (.parse e)⟩ ∈ report.outcomes) := by
  have hmem : slot.file ∈ s.slots.map Slot.left := by
    rw [← h.files]
    exact List.mem_map_of_mem hslot
  obtain ⟨old, hold, hfile⟩ := List.mem_map.mp hmem
  have hcases := outcome_cases h hdecides hreport huncancelled hslot
  rw [hcalm.registry_eq, ← hfile] at hcases
  have hkept : (∀ n, slot.status? ≠ some (.changed n)) → slot.disk = slot.file.contents := by
    intro hstatus
    cases hsome : slot.status? with
    | none => exact (h.slots slot hslot).kept hsome
    | some status =>
      rcases (h.slots slot hslot).settled status hsome with ⟨hdisk, -⟩ | ⟨-, n, -, -, -, -, rfl, -⟩
      · exact hdisk
      · exact absurd hsome (hstatus n)
  rw [← hfile] at hkept ⊢
  cases hcalm.stable hold with
  | rejected e before after reported =>
    rcases hcases with ⟨e', hcollect, hfinal, hundecided⟩ | ⟨f, status, hcollect, -⟩
    · obtain rfl : e' = .parse e := Except.error.inj (hcollect.symm.trans after)
      refine ⟨hkept fun n hn => ?_, _, hfinal, .inr ⟨e, rfl, reported⟩⟩
      rw [hundecided] at hn
      contradiction
    · exact absurd (hcollect.symm.trans after) nofun
  | migrated f g before after names unchanged =>
    rcases hcases with ⟨e, hcollect, -⟩ | ⟨g', status, hcollect, -, hfinal, hdecided, horigin⟩
    · exact absurd (hcollect.symm.trans after) nofun
    · obtain rfl : g' = g := Except.ok.inj (hcollect.symm.trans after)
      rw [unchanged] at horigin
      dsimp only at horigin
      rcases horigin with rfl | ⟨reason, -, hwrite⟩
      · refine ⟨hkept fun n hn => ?_, _, hfinal, .inl rfl⟩
        rw [hdecided] at hn
        cases hn
      · contradiction

/-- The second run has nothing to write. -/
theorem second_writes (h : Inv options (s.slots.map Slot.left) t) (hdecides : Decides options t)
    (hreport : t.report = some again) (huncancelled : again.cancelled = false) :
    t.slots.filterMap (Slot.written? options.dryRun) = [] := by
  rw [List.filterMap_eq_nil_iff]
  intro slot hslot
  obtain ⟨-, status, hfinal, hstatus⟩ := hcalm.second h hdecides hreport huncancelled hslot
  rw [Option.eq_none_iff_forall_ne_some]
  intro w hw
  obtain ⟨n, text, htold, -, -⟩ := Slot.written?_eq_some hw
  have hentered := (h.slots slot hslot).entered (by
    intro hwaiting
    simp [Slot.told?, hwaiting] at htold)
  obtain ⟨f, hf⟩ := Option.isSome_iff_exists.mp hentered
  have hdone := Slot.collecting_of_readable? hf
  have hphase := phase_of_uncancelled h hdecides hreport huncancelled
  have hchanged : slot.final? t.phase = some (.changed n) := by
    simp [Slot.final?, Slot.result?, hdone, hphase, htold]
  rw [hchanged] at hfinal
  obtain rfl := Option.some.inj hfinal
  rcases hstatus with hsame | ⟨e, hsame, -⟩ <;> contradiction

/-- The second run reports each file as unchanged, or as rejected like before. -/
theorem second_outcomes (h : Inv options (s.slots.map Slot.left) t) (hdecides : Decides options t)
    (hreport : t.report = some again) (huncancelled : again.cancelled = false) {o : Outcome}
    (ho : o ∈ again.outcomes) :
    o.status = .unchanged ∨ ∃ e, o.status = .failed (.parse e) ∧ o ∈ report.outcomes := by
  obtain ⟨slot, hslot, hfinal, hpath⟩ := exists_slot_of_mem_outcomes h hreport ho
  obtain ⟨-, status, hstatus, hcases⟩ := hcalm.second h hdecides hreport huncancelled hslot
  obtain rfl : o.status = status := Option.some.inj (hfinal.symm.trans hstatus)
  rcases hcases with hsame | ⟨e, hfailed, hmem⟩
  · exact .inl hsame
  · have ho' : o = ⟨slot.file.path, .failed (.parse e)⟩ := by
      rw [← hpath, ← hfailed]
    exact .inr ⟨e, hfailed, by rw [ho']; exact hmem⟩

/-- The second run counts no file as changed. -/
theorem second_changedCount (h : Inv options (s.slots.map Slot.left) t)
    (hdecides : Decides options t) (hreport : t.report = some again)
    (huncancelled : again.cancelled = false) : again.changedCount = 0 := by
  unfold Report.changedCount
  rw [List.countP_eq_zero]
  intro o ho
  rcases hcalm.second_outcomes h hdecides hreport huncancelled ho with hsame | ⟨e, hfailed, -⟩
  · rw [hsame]
    exact Bool.false_ne_true
  · rw [hfailed]
    exact Bool.false_ne_true

/-- The second run works against the same registry. -/
theorem second_registry (h : Inv options (s.slots.map Slot.left) t) (hdecides : Decides options t)
    (hreport : t.report = some again) (huncancelled : again.cancelled = false) :
    t.registry = s.registry := by
  have hphase := phase_of_uncancelled h hdecides hreport huncancelled
  rw [registry_eq_of_migrating h hphase, registry_eq_of_migrating hcalm.inv hcalm.phase]
  exact hcalm.registry_eq

/-- The second run reports the same files in the same order. -/
theorem second_paths (h : Inv options (s.slots.map Slot.left) t) (hreport : t.report = some again)
    (hordered : found.Pairwise fun f g => Path.before f.path g.path = true) :
    again.outcomes.map Outcome.path = report.outcomes.map Outcome.path := by
  have hordered' :
      (s.slots.map Slot.left).Pairwise fun f g => Path.before f.path g.path = true := by
    have hsorted : (found.map FoundFile.path).Pairwise fun p q => Path.before p q = true :=
      List.pairwise_map.mpr hordered
    rw [← map_path_left hcalm.inv] at hsorted
    exact List.pairwise_map.mp hsorted
  rw [map_path_outcomes h hreport hordered', map_path_outcomes hcalm.inv hcalm.reported hordered,
    map_path_left hcalm.inv]

end Calm

/-- **A second run changes nothing.** Take any project and any schedule of a
real run over it that ends with its flag down, in which no file could not be
read or written, and after which every file that was accepted still is. The
files are found again, in the same order and with what the run has left in
them. Every schedule of a second run that ends with its flag down works against
the same registry, reports each file as unchanged or as rejected like before,
and leaves every file and the whole tree as it found them; and there is such a
run. -/
theorem second_run_changes_nothing {tree : FileTree} {here : List String}
    {actions : List State.Action} (hwf : tree.WellFormed) (hwet : options.dryRun = false)
    (hfound : Discovery.discover options.root options.excludedFolders
      (tree.access here options.root).toOption = .ok found)
    (hrun : State.run? options actions (State.initial found) = some s)
    (hreport : s.report = some report) (huncancelled : report.cancelled = false)
    (haccess : ∀ o ∈ report.outcomes, ∀ reason, o.status ≠ .failed (.access reason))
    (haccepted : ∀ slot ∈ s.slots, ∀ f, slot.readable? = some f →
      ∃ g, Pipeline.collect false slot.left = .ok g) :
    let after := Program.writeAll tree here (s.slots.filterMap (Slot.written? options.dryRun))
    let again := s.slots.map Slot.left
    Discovery.discover options.root options.excludedFolders
        (after.access here options.root).toOption = .ok again ∧
      again.map FoundFile.path = found.map FoundFile.path ∧
      (∃ run, Program.runProjectIn after here options none = .ok (run, after)) ∧
      ∀ actions' t report', State.run? options actions' (State.initial again) = some t →
        t.report = some report' → report'.cancelled = false →
        t.registry = s.registry ∧
        report'.outcomes.map Outcome.path = report.outcomes.map Outcome.path ∧
        (∀ o ∈ report'.outcomes, o.status = .unchanged ∨
          ∃ e, o.status = .failed (.parse e) ∧ o ∈ report.outcomes) ∧
        report'.changedCount = 0 ∧
        (∀ slot ∈ t.slots, slot.disk = slot.file.contents) ∧
        Program.writeAll after here (t.slots.filterMap (Slot.written? options.dryRun)) = after := by
  intro after again
  have hcalm : Calm options found s report :=
    ⟨Inv.run hrun, Decides.run hrun, hreport, hwet, huncancelled, haccess, haccepted⟩
  have hdiscover := discover_after hwf hfound hcalm.inv hreport
  have hordered := pairwise_before_of_discover hwf hfound
  refine ⟨hdiscover, map_path_left hcalm.inv, ?_, ?_⟩
  · -- the run of one worker is one of the second runs
    obtain ⟨actions', t, hrun', hreport', -, hwrites⟩ := run_is_schedule options none again
    have hnone := hcalm.second_writes (Inv.run hrun') (Decides.run hrun') hreport' rfl
    refine ⟨Pipeline.run options none again, ?_⟩
    unfold Program.runProjectIn Program.runProject
    rw [hdiscover]
    show Except.ok (_, Program.writeAll after here (Pipeline.run options none again).writes) = _
    rw [← hwrites, hnone]
    rfl
  · intro actions' t report' hrun' hreport' huncancelled'
    have hinv := Inv.run hrun'
    have hdecides := Decides.run hrun'
    refine ⟨hcalm.second_registry hinv hdecides hreport' huncancelled',
      hcalm.second_paths hinv hreport' hordered, ?_,
      hcalm.second_changedCount hinv hdecides hreport' huncancelled', ?_, ?_⟩
    · intro o ho
      exact hcalm.second_outcomes hinv hdecides hreport' huncancelled' ho
    · intro slot hslot
      exact (hcalm.second hinv hdecides hreport' huncancelled' hslot).1
    · rw [hcalm.second_writes hinv hdecides hreport' huncancelled']
      rfl

end Runs

/-- A protocol, a file that uses it, and a file that is rejected. -/
theorem second_run_changes_nothing_of_three_files :
    ∃ options tree found actions s report,
      FileTree.WellFormed tree ∧ State.run? options actions (State.initial found) = some s ∧
      s.report = some report ∧ report.changedCount = 1 ∧ report.failedCount = 1 ∧
      let after := Program.writeAll tree [] (s.slots.filterMap (Slot.written? options.dryRun))
      (∃ run, Program.runProjectIn after [] options none = .ok (run, after)) ∧
      ∀ actions' t report',
        State.run? options actions' (State.initial (s.slots.map Slot.left)) = some t →
        t.report = some report' → report'.cancelled = false →
        t.registry = s.registry ∧ report'.changedCount = 0 := by
  let options := Options.ofRoot "p" [] ⟨.strict, false⟩
  let tree : FileTree := .folder [("p", .folder [("a.swift", .file (.text "protocol P {}")),
    ("b.swift", .file (.text "let x: P")), ("c.swift", .file (.text "let x: )"))])]
  let found : List FoundFile := [⟨"p/a.swift", .text "protocol P {}"⟩,
    ⟨"p/b.swift", .text "let x: P"⟩, ⟨"p/c.swift", .text "let x: )"⟩]
  let actions : List State.Action :=
    [.collect 1, .collect 0, .collect 2, .collect 0, .collect 1, .collect 2, .collect 0,
      .collect 0, .collect 1, .freeze, .check, .migrate 1, .migrate 1, .migrate 0, .migrate 0,
      .migrate 1, .migrate 0, .finish]
  have hwf : tree.WellFormed := by
    simp only [tree, FileTree.WellFormed, FileTree.WellFormedEntries]
    decide +kernel
  have hfound : Discovery.discover options.root options.excludedFolders
      (tree.access [] options.root).toOption = .ok found := by
    have hwalk : (Discovery.discover options.root options.excludedFolders
        (tree.access [] options.root).toOption).toOption = some found := by decide +kernel
    cases hdiscover : Discovery.discover options.root options.excludedFolders
        (tree.access [] options.root).toOption with
    | error e => rw [hdiscover] at hwalk; cases hwalk
    | ok files => rw [hdiscover] at hwalk; cases hwalk; rfl
  let rejection : ParseError :=
    ⟨"p/c.swift", 1, 8, [⟨.error, "p/c.swift", 7, 1, "type expected"⟩]⟩
  have hover : ((State.run? options actions (State.initial found)).map fun s =>
      (s.report.isSome, s.cancelled, Pipeline.unreadable s.collected ++ s.secondPhase,
        s.slots.all fun slot =>
          slot.readable?.isNone || (Pipeline.collect false slot.left).toOption.isSome)) =
      some (true, false, [⟨"p/c.swift", .failed (.parse rejection)⟩, ⟨"p/a.swift", .unchanged⟩,
        ⟨"p/b.swift", .changed 1⟩], true) := by decide +kernel
  obtain ⟨s, hrun, hs⟩ := Option.map_eq_some_iff.mp hover
  obtain ⟨hreported, hs⟩ := Prod.mk.inj hs
  obtain ⟨huncancelled, hs⟩ := Prod.mk.inj hs
  obtain ⟨houtcomes, hslots⟩ := Prod.mk.inj hs
  obtain ⟨report, hreport⟩ := Option.isSome_iff_exists.mp hreported
  obtain ⟨rfl, -⟩ := (Inv.run hrun).report report hreport
  have hperm : (s.finalReport options).outcomes.Perm [⟨"p/c.swift", .failed (.parse rejection)⟩,
      ⟨"p/a.swift", .unchanged⟩, ⟨"p/b.swift", .changed 1⟩] :=
    houtcomes ▸ Report.perm_sortByPath _
  have hreadable : ∀ slot ∈ s.slots, ∀ f, slot.readable? = some f →
      ∃ g, Pipeline.collect false slot.left = .ok g := by
    intro slot hslot f hf
    have hleft := List.all_eq_true.mp hslots slot hslot
    rw [hf] at hleft
    cases hcollect : Pipeline.collect false slot.left with
    | error e => rw [hcollect] at hleft; contradiction
    | ok g => exact ⟨g, rfl⟩
  have hnone : ∀ o ∈ (s.finalReport options).outcomes, ∀ reason,
      o.status ≠ .failed (.access reason) := by
    intro o ho
    have ho' := hperm.mem_iff.mp ho
    simp only [List.mem_cons, List.not_mem_nil, or_false] at ho'
    rcases ho' with rfl | rfl | rfl <;> simp
  obtain ⟨-, -, hagain, hall⟩ := second_run_changes_nothing hwf rfl hfound hrun hreport
    huncancelled hnone hreadable
  have hchanged : (s.finalReport options).changedCount = 1 := by
    rw [Report.changedCount, hperm.countP_eq]
    rfl
  have hfailed : (s.finalReport options).failedCount = 1 := by
    rw [Report.failedCount, Report.failures, (hperm.filterMap _).length_eq]
    rfl
  refine ⟨options, tree, found, actions, s, _, hwf, hrun, hreport, hchanged, hfailed, hagain, ?_⟩
  intro actions' t report' hrun' hreport' huncancelled'
  obtain ⟨hregistry, -, -, hcount, -, -⟩ := hall actions' t report' hrun' hreport' huncancelled'
  exact ⟨hregistry, hcount⟩

end Schedule

end AnySome
