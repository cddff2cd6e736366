import JavaFold.Pass.FixedPoint
import Mathlib.Algebra.BigOperators.Group.List.Basic
import Mathlib.Algebra.GroupWithZero.Nat
import Mathlib.Data.List.Induction

/-!
# What a run of passes reports

The sweeps of a run are kept as a log: what each pass said in each of them. A run succeeds with the first sweep in
which no pass says that it changed something, if the number of sweeps allows it, and the report counts what is in the
log up to there. It is refused if that many sweeps have changed something, or with the failure of the first pass that
fails. Nothing else can happen, whatever the passes do (`FixedPoint.run_outcome`).
-/

namespace JavaFold

namespace Report

/-- The report of the sweeps in a log: how many they are, and in how many of them each pass changed something. -/
def ofLog (names : List String) (log : List (List Bool)) : Report :=
  ⟨log.length, names.mapIdx fun i name => (name, log.countP fun said => said[i]? == some true)⟩

theorem ofLog_nil (names : List String) : ofLog names [] = start names := by
  refine congrArg (Report.mk 0) (List.ext_getElem ?_ fun i h h' => ?_)
  · rw [List.length_mapIdx, List.length_map]
  · rw [List.getElem_mapIdx, List.getElem_map, List.countP_nil]

/-- One more sweep adds to the report what its passes said. -/
theorem ofLog_concat {names : List String} {said : List Bool} (log : List (List Bool))
    (h : said.length = names.length) : ofLog names (log ++ [said]) = (ofLog names log).add said := by
  have hsweeps : (log ++ [said]).length = log.length + 1 := List.length_append
  rw [ofLog, ofLog, add, hsweeps]
  refine congrArg (Report.mk _) (List.ext_getElem ?_ fun i hi hi' => ?_)
  · simp [h]
  · have hlt : i < said.length := by simpa [h] using hi
    rw [List.getElem_mapIdx, List.getElem_zipWith, List.getElem_mapIdx, List.countP_append, List.countP_singleton,
      List.getElem?_eq_getElem hlt]
    cases said[i] <;> rfl

/-- The numbers of changes in a report, all together. -/
def total (r : Report) : Nat := (r.changes.map Prod.snd).sum

theorem total_add (r : Report) {said : List Bool} (h : said.length = r.changes.length) :
    (r.add said).total = r.total + said.count true := by
  obtain ⟨sweeps, changes⟩ := r
  rw [total, total, add]
  dsimp only at h ⊢
  induction changes generalizing said with
  | nil => rw [List.length_eq_zero_iff.mp h]; rfl
  | cons c changes ih =>
    obtain ⟨b, said, rfl⟩ := List.exists_cons_of_length_eq_add_one h
    have hrest := ih (Nat.succ.inj h)
    rw [List.zipWith_cons_cons, List.map_cons, List.sum_cons, hrest, List.map_cons, List.sum_cons, List.count_cons]
    cases b with
    | false => simp only [Bool.false_eq_true, if_false, beq_iff_eq]; omega
    | true => simp only [if_true, beq_self_eq_true]; omega

end Report

namespace FixedPoint

variable {σ : Type} {passes : List (Pass σ)} {m m₁ m' : Tree × σ} {said : List Bool} {log : List (List Bool)}
  {e : TreeError} {left maxSweeps : Nat} {report : Report}

/-! ## One sweep -/

/-- A sweep in which no pass fails, with what each pass says. A pass runs at the root of the tree that the ones before
it have left. -/
inductive Swept : List (Pass σ) → Tree × σ → List Bool → Tree × σ → Prop
  | nil (m : Tree × σ) : Swept [] m [] m
  | cons {pass : Pass σ} {passes : List (Pass σ)} {m m₁ m' : Tree × σ} {c : Bool} {said : List Bool}
    (h : (pass.fold m.1.root).run m = .ok c m₁) (rest : Swept passes m₁ said m') :
    Swept (pass :: passes) m (c :: said) m'

/-- A sweep in which a pass fails after those before it. -/
inductive SweepFails : List (Pass σ) → Tree × σ → TreeError → Tree × σ → Prop
  | here {pass : Pass σ} {passes : List (Pass σ)} {m m' : Tree × σ} {e : TreeError}
    (h : (pass.fold m.1.root).run m = .error e m') : SweepFails (pass :: passes) m e m'
  | later {pass : Pass σ} {passes : List (Pass σ)} {m m₁ m' : Tree × σ} {c : Bool} {e : TreeError}
    (h : (pass.fold m.1.root).run m = .ok c m₁) (rest : SweepFails passes m₁ e m') : SweepFails (pass :: passes) m e m'

theorem Swept.length_eq (h : Swept passes m said m') : said.length = passes.length := by
  induction h with
  | nil => rfl
  | cons _ _ ih => exact congrArg (· + 1) ih

theorem run_sweep_cons (pass : Pass σ) (passes : List (Pass σ)) (m : Tree × σ) :
    (sweep (pass :: passes)).run m = match (pass.fold m.1.root).run m with
      | .error e m₁ => .error e m₁
      | .ok c m₁ => match (sweep passes).run m₁ with
        | .error e m' => .error e m'
        | .ok said m' => .ok (c :: said) m' := by
  have hroot : (EditWith.tree (σ := σ)).run m = .ok m.1 m := rfl
  simp only [sweep, EStateM.run_bind, hroot]
  cases (pass.fold m.1.root).run m with
  | error e m₁ => rfl
  | ok c m₁ =>
    dsimp only
    cases (sweep passes).run m₁ <;> rfl

theorem Swept.run (h : Swept passes m said m') : (sweep passes).run m = .ok said m' := by
  induction h with
  | nil => rfl
  | cons h _ ih => simp only [run_sweep_cons, h, ih]

theorem SweepFails.run (h : SweepFails passes m e m') : (sweep passes).run m = .error e m' := by
  induction h with
  | here h => simp only [run_sweep_cons, h]
  | later h _ ih => simp only [run_sweep_cons, h, ih]

/-- Either all passes of a sweep succeed or one of them is the first to fail. -/
theorem swept_or_sweepFails (passes : List (Pass σ)) (m : Tree × σ) :
    (∃ said m', Swept passes m said m') ∨ ∃ e m', SweepFails passes m e m' := by
  induction passes generalizing m with
  | nil => exact .inl ⟨[], m, .nil m⟩
  | cons pass passes ih =>
    cases h : (pass.fold m.1.root).run m with
    | error e m' => exact .inr ⟨e, m', .here h⟩
    | ok c m₁ =>
      rcases ih m₁ with ⟨said, m', hrest⟩ | ⟨e, m', hrest⟩
      · exact .inl ⟨c :: said, m', .cons h hrest⟩
      · exact .inr ⟨e, m', .later h hrest⟩

/-! ## Sweeps one after the other -/

/-- Sweeps one after the other, none of which fails, with what the passes said in each of them. -/
inductive Sweeps (passes : List (Pass σ)) : Tree × σ → List (List Bool) → Tree × σ → Prop
  | nil (m : Tree × σ) : Sweeps passes m [] m
  | cons {m m₁ m' : Tree × σ} {said : List Bool} {log : List (List Bool)} (h : Swept passes m said m₁)
    (rest : Sweeps passes m₁ log m') : Sweeps passes m (said :: log) m'

/-- A pass changed something in every sweep of a log. -/
def Busy (log : List (List Bool)) : Prop := ∀ said ∈ log, true ∈ said

/-- The last sweep of a log is the first one in which no pass changed anything. -/
def EndsQuiet (log : List (List Bool)) : Prop := ∃ busy quiet, log = busy ++ [quiet] ∧ Busy busy ∧ true ∉ quiet

/-- A pass fails in one of the first `n` sweeps, and no sweep before that was the last one. -/
def FailsWithin (passes : List (Pass σ)) (n : Nat) (m : Tree × σ) (e : TreeError) (m' : Tree × σ) : Prop :=
  ∃ log m₁, Sweeps passes m log m₁ ∧ Busy log ∧ log.length < n ∧ SweepFails passes m₁ e m'

theorem Sweeps.length_eq (h : Sweeps passes m log m') : ∀ said ∈ log, said.length = passes.length := by
  induction h with
  | nil => exact List.forall_mem_nil _
  | cons h _ ih => exact List.forall_mem_cons.mpr ⟨h.length_eq, ih⟩

theorem Sweeps.of_append {log' : List (List Bool)} (h : Sweeps passes m (log ++ log') m') :
    ∃ m₁, Sweeps passes m log m₁ ∧ Sweeps passes m₁ log' m' := by
  induction log generalizing m with
  | nil => exact ⟨m, .nil m, h⟩
  | cons said log ih =>
    cases h with
    | cons hswept rest =>
      obtain ⟨m₁, hlog, hlog'⟩ := ih rest
      exact ⟨m₁, .cons hswept hlog, hlog'⟩

/-- Sweeps come to one that changes nothing, or each of `n` sweeps changes something, or a pass fails before. -/
theorem sweeps_cases (passes : List (Pass σ)) (n : Nat) (m : Tree × σ) :
    (∃ log m', Sweeps passes m log m' ∧ EndsQuiet log ∧ log.length ≤ n) ∨
      (∃ log m', Sweeps passes m log m' ∧ Busy log ∧ log.length = n) ∨ ∃ e m', FailsWithin passes n m e m' := by
  induction n generalizing m with
  | zero => exact .inr (.inl ⟨[], m, .nil m, List.forall_mem_nil _, rfl⟩)
  | succ n ih =>
    rcases swept_or_sweepFails passes m with ⟨said, m₁, hswept⟩ | ⟨e, m', hfails⟩
    · by_cases hsaid : true ∈ said
      · rcases ih m₁ with ⟨log, m', hlog, ⟨busy, quiet, rfl, hbusy, hquiet⟩, hle⟩ | ⟨log, m', hlog, hbusy, rfl⟩ |
          ⟨e, m', log, m₂, hlog, hbusy, hlt, hfails⟩
        · have hends : EndsQuiet (said :: (busy ++ [quiet])) :=
            ⟨said :: busy, quiet, rfl, List.forall_mem_cons.mpr ⟨hsaid, hbusy⟩, hquiet⟩
          exact .inl ⟨_, m', .cons hswept hlog, hends, Nat.succ_le_succ hle⟩
        · exact .inr (.inl ⟨_, m', .cons hswept hlog, List.forall_mem_cons.mpr ⟨hsaid, hbusy⟩, rfl⟩)
        · exact .inr (.inr ⟨e, m', _, m₂, .cons hswept hlog, List.forall_mem_cons.mpr ⟨hsaid, hbusy⟩,
            Nat.succ_lt_succ hlt, hfails⟩)
      · have hends : EndsQuiet [said] := ⟨[], said, rfl, List.forall_mem_nil _, hsaid⟩
        exact .inl ⟨[said], m₁, .cons hswept (.nil m₁), hends, Nat.succ_pos n⟩
    · exact .inr (.inr ⟨e, m', [], m, .nil m, List.forall_mem_nil _, Nat.succ_pos n, hfails⟩)

/-- Where sweep after sweep succeeds, none of them fails. -/
theorem Sweeps.not_failsWithin (h : Sweeps passes m log m') : ¬∃ e m'', FailsWithin passes log.length m e m'' := by
  rintro ⟨e, m'', log', m₂, hlog', -, hlt, hfails⟩
  induction h generalizing log' with
  | nil => exact absurd hlt (Nat.not_lt_zero _)
  | @cons _ _ _ said log hswept rest ih =>
    cases hlog' with
    | nil => exact absurd (hfails.run.symm.trans hswept.run) nofun
    | cons hswept' rest' =>
      have hsame := hswept'.run.symm.trans hswept.run
      cases hsame
      exact ih _ rest' (Nat.lt_of_succ_lt_succ hlt)

/-! ## What a log counts -/

/-- In a log that ends with a quiet sweep, what a pass changed it changed before that. -/
theorem EndsQuiet.countP_le (h : EndsQuiet log) (i : Nat) :
    (log.countP fun said => said[i]? == some true) ≤ log.length - 1 := by
  obtain ⟨busy, quiet, rfl, -, hquiet⟩ := h
  have hlast : ¬(quiet[i]? == some true) = true := fun hi => hquiet (List.mem_of_getElem? (beq_iff_eq.mp hi))
  rw [List.countP_append, List.countP_singleton, if_neg hlast, List.length_append, List.length_singleton]
  exact List.countP_le_length

theorem total_ofLog {names : List String} (h : ∀ said ∈ log, said.length = names.length) :
    (Report.ofLog names log).total = (log.map fun said => said.count true).sum := by
  induction log using List.reverseRecOn with
  | nil =>
    rw [Report.ofLog_nil, Report.total, Report.start, List.map_map]
    exact List.sum_eq_zero fun n hn => by
      obtain ⟨name, -, rfl⟩ := List.mem_map.mp hn
      rfl
  | append_singleton log said ih =>
    have ⟨hlog, hsaid⟩ := List.forall_mem_append.mp h
    have hsaid := hsaid said (List.mem_singleton_self said)
    have hlength : said.length = (Report.ofLog names log).changes.length := by
      rw [hsaid, Report.ofLog, List.length_mapIdx]
    rw [Report.ofLog_concat log hsaid, Report.total_add _ hlength, ih hlog, List.map_append, List.sum_append]
    rfl

/-- Each sweep before the last one changed something. -/
theorem EndsQuiet.le_total {names : List String} (h : EndsQuiet log)
    (hlength : ∀ said ∈ log, said.length = names.length) : log.length - 1 ≤ (Report.ofLog names log).total := by
  rw [total_ofLog hlength]
  obtain ⟨busy, quiet, rfl, hbusy, -⟩ := h
  have hcount : ∀ said ∈ busy.map fun said => said.count true, 1 ≤ said := by
    refine List.forall_mem_map.mpr fun said hsaid => ?_
    exact List.count_pos_iff.mpr (hbusy said hsaid)
  have hsum := List.length_le_sum_of_one_le _ hcount
  rw [List.length_map] at hsum
  rw [List.map_append, List.sum_append, List.length_append, List.length_singleton, Nat.add_sub_cancel]
  exact Nat.le_add_right_of_le hsum

/-- A report tells of a change if one was made in some sweep. -/
theorem changed_iff_total (r : Report) : r.changed = true ↔ 0 < r.total := by
  rw [Report.changed, Report.total, List.any_eq_true, List.sum_pos_iff_exists_pos_nat]
  simp only [List.mem_map, decide_eq_true_eq, exists_exists_and_eq_and]

/-! ## Runs -/

/-- One more sweep, if the number of sweeps allows it. -/
theorem run_go_succ {said : List Bool} (h : (sweep passes).run m = .ok said m') :
    (go passes maxSweeps (left + 1) report).run m =
      if said.any id then (go passes maxSweeps left (report.add said)).run m' else .ok (report.add said) m' := by
  simp only [go, EStateM.run_bind, h]
  split <;> rfl

/-- Sweeps that change something are followed by the others that are left. -/
theorem run_go_busy (h : Sweeps passes m log m') (hbusy : Busy log) (left : Nat) (report : Report) :
    (go passes maxSweeps (log.length + left) report).run m =
      (go passes maxSweeps left (log.foldl Report.add report)).run m' := by
  induction h generalizing report with
  | nil => rw [List.length_nil, Nat.zero_add, List.foldl_nil]
  | @cons _ _ _ said log hswept _ ih =>
    have ⟨hsaid, hbusy⟩ := List.forall_mem_cons.mp hbusy
    have hany : said.any id = true := List.any_eq_true.mpr ⟨true, hsaid, rfl⟩
    rw [List.length_cons, Nat.add_right_comm, run_go_succ hswept.run, if_pos hany, ih hbusy, List.foldl_cons]

theorem foldl_add_start {names : List String} (h : ∀ said ∈ log, said.length = names.length) :
    log.foldl Report.add (.start names) = .ofLog names log := by
  induction log using List.reverseRecOn with
  | nil => exact (Report.ofLog_nil names).symm
  | append_singleton log said ih =>
    have ⟨hlog, hsaid⟩ := List.forall_mem_append.mp h
    rw [List.foldl_append, ih hlog, Report.ofLog_concat log (hsaid said (List.mem_singleton_self said))]
    rfl

variable (passes) in
/-- The names of passes, in the order of a run. -/
def names : List String := passes.map (·.name)

theorem Sweeps.length_names (h : Sweeps passes m log m') : ∀ said ∈ log, said.length = (names passes).length := by
  intro said hsaid
  rw [h.length_eq said hsaid, names, List.length_map]

/-- A run ends with the first sweep in which no pass changes anything. -/
theorem run_of_endsQuiet (h : Sweeps passes m log m') (hends : EndsQuiet log) (hle : log.length ≤ maxSweeps) :
    (run passes maxSweeps).run m = .ok (.ofLog (names passes) log) m' := by
  rw [← foldl_add_start h.length_names]
  obtain ⟨busy, quiet, rfl, hbusy, hquiet⟩ := hends
  obtain ⟨m₁, hsweeps, hlast⟩ := h.of_append
  cases hlast with
  | cons hswept rest =>
    cases rest
    rw [List.length_append, List.length_singleton] at hle
    obtain ⟨left, rfl⟩ := Nat.exists_eq_add_of_le hle
    have hany : ¬quiet.any id = true := fun hany => by
      obtain ⟨b, hb, rfl⟩ := List.any_eq_true.mp hany
      exact hquiet hb
    rw [run, Nat.add_assoc, run_go_busy hsweeps hbusy, Nat.add_comm 1, run_go_succ hswept.run, if_neg hany,
      List.foldl_append]
    rfl

/-- A run in which every sweep that is allowed changes something is refused. -/
theorem run_of_busy (h : Sweeps passes m log m') (hbusy : Busy log) :
    (run passes log.length).run m = .error (.noFixpoint log.length) m' := by
  exact (run_go_busy h hbusy 0 _).trans rfl

/-- A run ends with the failure of the first pass that fails. -/
theorem run_of_failsWithin (h : FailsWithin passes maxSweeps m e m') :
    (run passes maxSweeps).run m = .error e m' := by
  obtain ⟨log, m₁, hsweeps, hbusy, hlt, hfails⟩ := h
  obtain ⟨left, rfl⟩ := Nat.exists_eq_add_of_lt hlt
  rw [run, Nat.add_assoc, run_go_busy hsweeps hbusy, go, EStateM.run_bind, hfails.run]

/-- A run succeeds just if a sweep in which no pass changes anything comes soon enough. -/
theorem run_eq_ok_iff {report : Report} : (run passes maxSweeps).run m = .ok report m' ↔
    ∃ log, Sweeps passes m log m' ∧ EndsQuiet log ∧ log.length ≤ maxSweeps ∧ report = .ofLog (names passes) log := by
  constructor
  · intro hrun
    rcases sweeps_cases passes maxSweeps m with
      ⟨log, m₁, hlog, hends, hle⟩ | ⟨log, m₁, hlog, hbusy, rfl⟩ | ⟨e, m₁, hfails⟩
    · have hsame := (run_of_endsQuiet hlog hends hle).symm.trans hrun
      cases hsame
      exact ⟨log, hlog, hends, hle, rfl⟩
    · exact absurd ((run_of_busy hlog hbusy).symm.trans hrun) nofun
    · exact absurd ((run_of_failsWithin hfails).symm.trans hrun) nofun
  · rintro ⟨log, hlog, hends, hle, rfl⟩
    exact run_of_endsQuiet hlog hends hle

/-- A run fails just if a pass does, or if every sweep that is allowed changes something. -/
theorem run_eq_error_iff : (run passes maxSweeps).run m = .error e m' ↔ FailsWithin passes maxSweeps m e m' ∨
    e = .noFixpoint maxSweeps ∧ ∃ log, Sweeps passes m log m' ∧ Busy log ∧ log.length = maxSweeps := by
  constructor
  · intro hrun
    rcases sweeps_cases passes maxSweeps m with
      ⟨log, m₁, hlog, hends, hle⟩ | ⟨log, m₁, hlog, hbusy, rfl⟩ | ⟨e', m₁, hfails⟩
    · exact absurd ((run_of_endsQuiet hlog hends hle).symm.trans hrun) nofun
    · have hsame := (run_of_busy hlog hbusy).symm.trans hrun
      cases hsame
      exact .inr ⟨rfl, log, hlog, hbusy, rfl⟩
    · have hsame := (run_of_failsWithin hfails).symm.trans hrun
      cases hsame
      exact .inl hfails
  · rintro (hfails | ⟨rfl, log, hlog, hbusy, rfl⟩)
    · exact run_of_failsWithin hfails
    · exact run_of_busy hlog hbusy

/-- What the report of a success counts: no pass changes anything in the last sweep, and some pass does in each sweep
before it. -/
theorem EndsQuiet.counts {names : List String} (h : EndsQuiet log) (hlength : ∀ said ∈ log, said.length = names.length) :
    (∀ c ∈ (Report.ofLog names log).changes, c.2 ≤ log.length - 1) ∧
      log.length - 1 ≤ (Report.ofLog names log).total ∧ ((Report.ofLog names log).changed = true ↔ 1 < log.length) := by
  have hcount : ∀ c ∈ (Report.ofLog names log).changes, c.2 ≤ log.length - 1 := by
    intro c hc
    obtain ⟨i, hi, rfl⟩ := List.mem_mapIdx.mp hc
    exact h.countP_le i
  have htotal := h.le_total hlength
  refine ⟨hcount, htotal, fun hchanged => ?_, fun hsweeps => ?_⟩
  · obtain ⟨c, hc, hpos⟩ := List.any_eq_true.mp hchanged
    have hle := hcount c hc
    have hpos := of_decide_eq_true hpos
    omega
  · exact (changed_iff_total _).mpr (by omega)

/-- A run succeeds with `k` sweeps exactly if the `k`-th one is the first in which no pass changes anything, no pass
fails up to there, and `k` sweeps are allowed. It is refused for want of a fixed point, rather than with the failure of
a pass, exactly if no pass fails and all sweeps that are allowed change something, and the tree is the one after them.
Otherwise it ends with the first failure. The report of a success counts the sweeps in which each pass changed
something, and more sweeps that are allowed change nothing about a success. -/
theorem run_outcome (passes : List (Pass σ)) (maxSweeps : Nat) (m : Tree × σ) :
    (∀ report m', (run passes maxSweeps).run m = .ok report m' ↔
      ∃ log, Sweeps passes m log m' ∧ EndsQuiet log ∧ log.length ≤ maxSweeps ∧ report = .ofLog (names passes) log) ∧
    (∀ m', ((run passes maxSweeps).run m = .error (.noFixpoint maxSweeps) m' ∧
        ¬∃ e m'', FailsWithin passes maxSweeps m e m'') ↔
      ∃ log, Sweeps passes m log m' ∧ Busy log ∧ log.length = maxSweeps) ∧
    (∀ e m', (run passes maxSweeps).run m = .error e m' ↔ FailsWithin passes maxSweeps m e m' ∨
      e = .noFixpoint maxSweeps ∧ ∃ log, Sweeps passes m log m' ∧ Busy log ∧ log.length = maxSweeps) ∧
    ∀ report m', (run passes maxSweeps).run m = .ok report m' →
      (∀ c ∈ report.changes, c.2 ≤ report.sweeps - 1) ∧ report.sweeps - 1 ≤ report.total ∧
      (report.changed = true ↔ 1 < report.sweeps) ∧
      ∀ n, maxSweeps ≤ n → (run passes n).run m = .ok report m' := by
  refine ⟨fun report m' => run_eq_ok_iff, fun m' => ⟨?_, ?_⟩, fun e m' => run_eq_error_iff,
    fun report m' hrun => ?_⟩
  -- a pass may itself fail as a run without a fixed point does
  · rintro ⟨hrun, hno⟩
    rcases run_eq_error_iff.mp hrun with hfails | ⟨-, hbusy⟩
    · exact absurd ⟨_, _, hfails⟩ hno
    · exact hbusy
  · rintro ⟨log, hlog, hbusy, rfl⟩
    exact ⟨run_of_busy hlog hbusy, hlog.not_failsWithin⟩
  · obtain ⟨log, hlog, hends, hle, rfl⟩ := run_eq_ok_iff.mp hrun
    have ⟨hcount, htotal, hchanged⟩ := hends.counts hlog.length_names
    exact ⟨hcount, htotal, hchanged, fun n hn => run_of_endsQuiet hlog hends (Nat.le_trans hle hn)⟩

-- Three sweeps in which a pass changes something, and one in which it does not, are four.
example (t : Tree) :
    (run [⟨"countdown", fun _ => modifyGet fun (t, n) => (n != 0, (t, n - 1))⟩] 4).run (t, 3) =
      .ok ⟨4, [("countdown", 3)]⟩ (t, 0) := rfl

end FixedPoint

end JavaFold
