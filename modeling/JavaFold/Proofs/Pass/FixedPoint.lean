import JavaFold.Folding
import JavaFold.Proofs.Pass.Constants.Settled
import JavaFold.Proofs.Pass.Flat
import JavaFold.Proofs.Pass.Sweeps

/-!
# How fast folding ends

Neither pass leaves itself anything to do, folding blocks leaves nothing to fold for good, and
propagating constants in a flat program leaves nothing for either pass. So after at most two sweeps
nothing is left, and one more sweep finds that out (`foldTree_converges`). The tree is then that of a
program, on which all passes are idle.
-/

namespace JavaFold

/-- Folding blocks keeps the fields of a class. -/
theorem ClassDecl.fields_flatten (c : ClassDecl) : c.flatten.fields = c.fields := by
  have hfield : ∀ m : Member, m.flatten.declaredField? = m.declaredField? := by
    intro m
    cases m <;> rfl
  refine congrArg List.reverse ?_
  rw [ClassDecl.flatten, List.filterMap_map]
  exact List.filterMap_congr fun m _ => hfield m

/-- Folding the blocks of a flat program leaves it settled. -/
theorem CompilationUnit.settled_flatten {unit : CompilationUnit} (hflat : unit.Flat)
    (h : unit.Settled) : unit.flatten.Settled := by
  rw [flat_iff] at hflat
  intro c' hc' m' hm'
  obtain ⟨c, hc, rfl⟩ := List.mem_map.mp hc'
  obtain ⟨m, hm, rfl⟩ := List.mem_map.mp hm'
  rw [ClassDecl.fields_flatten]
  intro s hk
  rw [Member.kinds, Member.parts_flatten, Blocks.flatten_of_isFlat _ (hflat c hc m hm)] at hk
  exact h c hc m hm s hk

namespace PassKind

/-- What a pass makes of a program. -/
def apply : PassKind → CompilationUnit → CompilationUnit
  | blockFolding, unit => unit.flatten
  | constantPropagation, unit => unit.analysed

/-- The pass leaves the program alone. -/
def Idle : PassKind → CompilationUnit → Prop
  | blockFolding, unit => unit.Flat
  | constantPropagation, unit => unit.Settled

variable {kind : PassKind} {t : Tree} {unit : CompilationUnit}

theorem run_fold_idle (h : t.Holds unit) (hidle : kind.Idle unit) :
    ∃ t', (kind.fold t.root).run t = .ok false t' ∧ t'.Holds unit := by
  cases kind with
  | blockFolding => exact Blocks.run_fold_flat h hidle
  | constantPropagation => exact Constants.run_fold_settled h hidle

theorem idle_apply (kind : PassKind) (unit : CompilationUnit) : kind.Idle (kind.apply unit) := by
  cases kind with
  | blockFolding => exact unit.flat_flatten
  | constantPropagation => exact unit.settled_analysed

/-- A flat program stays flat. -/
theorem flat_apply (kind : PassKind) (h : unit.Flat) : (kind.apply unit).Flat := by
  cases kind with
  | blockFolding => exact unit.flat_flatten
  | constantPropagation => exact CompilationUnit.flat_analysed h

/-- What is idle on a flat program stays so. -/
theorem idle_apply_of_flat {other : PassKind} (h : unit.Flat) (hidle : kind.Idle unit) :
    kind.Idle (other.apply unit) := by
  cases other with
  | blockFolding =>
    cases kind with
    | blockFolding => exact unit.flat_flatten
    | constantPropagation => exact CompilationUnit.settled_flatten h hidle
  | constantPropagation =>
    cases kind with
    | blockFolding => exact CompilationUnit.flat_analysed h
    | constantPropagation => exact unit.settled_analysed

/-- A pass of a program's tree succeeds. Where it changes nothing, it gives no pass anything to do. -/
theorem run_fold (kind : PassKind) (h : t.Holds unit) :
    ∃ c t', (kind.fold t.root).run t = .ok c t' ∧ t'.Holds (kind.apply unit) ∧
      (c = false → ∀ other : PassKind, other.Idle unit → other.Idle (kind.apply unit)) := by
  cases kind with
  | blockFolding =>
    obtain ⟨c, t', hrun, h', hc⟩ := Blocks.run_fold h
    exact ⟨c, t', hrun, h', fun hfalse other hidle => idle_apply_of_flat (hc.mp hfalse) hidle⟩
  | constantPropagation =>
    obtain ⟨c, t', hrun, h'⟩ := Constants.run_fold h
    refine ⟨c, t', hrun, h', fun _ other hidle => ?_⟩
    cases other with
    | blockFolding => exact CompilationUnit.flat_analysed hidle
    | constantPropagation => exact unit.settled_analysed

/-! ## Sweeps over a program -/

/-- What the passes make of a program one after the other. -/
def applyAll (kinds : List PassKind) (unit : CompilationUnit) : CompilationUnit :=
  kinds.foldl (fun unit kind => kind.apply unit) unit

/-- All of the passes leave the program alone. -/
def IdleAll (kinds : List PassKind) (unit : CompilationUnit) : Prop := ∀ kind ∈ kinds, kind.Idle unit

theorem flat_applyAll : ∀ (kinds : List PassKind) {unit : CompilationUnit}, unit.Flat →
    (applyAll kinds unit).Flat
  | [], _, h => h
  | kind :: kinds, _, h => flat_applyAll kinds (flat_apply kind h)

theorem idle_applyAll_of_flat : ∀ (kinds : List PassKind) {unit : CompilationUnit}, unit.Flat →
    kind.Idle unit → kind.Idle (applyAll kinds unit)
  | [], _, _, hidle => hidle
  | other :: kinds, _, h, hidle =>
    idle_applyAll_of_flat kinds (flat_apply other h) (idle_apply_of_flat h hidle)

/-- One sweep over a flat program leaves nothing to do. -/
theorem idleAll_applyAll_of_flat : ∀ (kinds : List PassKind) {unit : CompilationUnit}, unit.Flat →
    IdleAll kinds (applyAll kinds unit)
  | [], _, _ => fun _ hk => absurd hk List.not_mem_nil
  | kind :: kinds, unit, h => List.forall_mem_cons.mpr
      ⟨idle_applyAll_of_flat kinds (flat_apply kind h) (idle_apply kind unit),
        idleAll_applyAll_of_flat kinds (flat_apply kind h)⟩

theorem flat_applyAll_of_mem : ∀ (kinds : List PassKind) {unit : CompilationUnit},
    blockFolding ∈ kinds → (applyAll kinds unit).Flat
  | kind :: kinds, unit, h => by
    rcases List.mem_cons.mp h with rfl | h
    · exact flat_applyAll kinds unit.flat_flatten
    · exact flat_applyAll_of_mem kinds h

theorem settled_applyAll : ∀ (kinds : List PassKind) {unit : CompilationUnit}, unit.Settled →
    blockFolding ∉ kinds → (applyAll kinds unit).Settled
  | [], _, h, _ => h
  | .blockFolding :: _, _, _, hno => absurd List.mem_cons_self hno
  | .constantPropagation :: kinds, unit, _, hno =>
    settled_applyAll kinds unit.settled_analysed (List.not_mem_of_not_mem_cons hno)

/-- One sweep leaves nothing to do if constants are propagated only after all blocks are folded. -/
theorem idleAll_applyAll : ∀ (kinds : List PassKind) {unit : CompilationUnit},
    ¬[constantPropagation, blockFolding].Sublist kinds → IdleAll kinds (applyAll kinds unit)
  | [], _, _ => fun _ hk => absurd hk List.not_mem_nil
  | .blockFolding :: kinds, unit, _ => List.forall_mem_cons.mpr
      ⟨flat_applyAll kinds unit.flat_flatten, idleAll_applyAll_of_flat kinds unit.flat_flatten⟩
  | .constantPropagation :: kinds, unit, h => by
    have hno : blockFolding ∉ kinds := fun hm => h (List.singleton_sublist.mpr hm |>.cons_cons _)
    have hsettled : (applyAll kinds unit.analysed).Settled :=
      settled_applyAll kinds unit.settled_analysed hno
    intro kind hk
    cases kind with
    | blockFolding => exact absurd ((List.mem_cons.mp hk).resolve_left nofun) hno
    | constantPropagation => exact hsettled

/-- Two sweeps leave nothing to do. -/
theorem idleAll_applyAll_twice (kinds : List PassKind) (unit : CompilationUnit) :
    IdleAll kinds (applyAll kinds (applyAll kinds unit)) := by
  by_cases h : blockFolding ∈ kinds
  · exact idleAll_applyAll_of_flat kinds (flat_applyAll_of_mem kinds h)
  · exact idleAll_applyAll kinds fun hs => h (hs.subset (by simp))

end PassKind

/-! ## Sweeps over a tree -/

namespace FixedPoint

open PassKind

variable {t : Tree} {unit : CompilationUnit}

/-- A pass as one of a run does what it does alone. -/
theorem run_pass {kind : PassKind} {t' : Tree} {c : Bool} (h : (kind.fold t.root).run t = .ok c t') :
    (((kind.pass : Pass Unit).fold t.root).run (t, ())) = .ok c (t', ()) := by
  exact EditWith.run_lift h ()

/-- A sweep over the tree of a program succeeds. If nothing changes, all passes are idle after it. -/
theorem run_sweep : ∀ (kinds : List PassKind) {t : Tree} {unit : CompilationUnit}, t.Holds unit →
    ∃ changed t', (sweep (kinds.map (PassKind.pass (σ := Unit)))).run (t, ()) = .ok changed (t', ()) ∧
      t'.Holds (applyAll kinds unit) ∧ (changed.any id = false →
        IdleAll kinds (applyAll kinds unit) ∧
          ∀ kind : PassKind, kind.Idle unit → kind.Idle (applyAll kinds unit))
  | [], t, unit, h =>
    ⟨[], t, rfl, h, fun _ => ⟨fun _ hk => absurd hk List.not_mem_nil, fun _ hidle => hidle⟩⟩
  | kind :: kinds, t, unit, h => by
    obtain ⟨c, t₁, hrun, h₁, hkeeps⟩ := kind.run_fold h
    obtain ⟨changed, t₂, hrun', h₂, hrest⟩ := run_sweep kinds h₁
    refine ⟨c :: changed, t₂, ?_, h₂, fun hany => ?_⟩
    · simp only [List.map_cons, sweep, EStateM.run_bind, Walk.run_tree, run_pass hrun, hrun',
        EStateM.run_pure]
    · rw [List.any_cons, Bool.or_eq_false_iff] at hany
      obtain ⟨hidle, hkept⟩ := hrest hany.2
      exact ⟨List.forall_mem_cons.mpr ⟨hkept kind (kind.idle_apply unit), hidle⟩,
        fun other ho => hkept other (hkeeps hany.1 other ho)⟩

/-- A sweep of idle passes changes nothing. -/
theorem run_sweep_idle : ∀ (kinds : List PassKind) {t : Tree} {unit : CompilationUnit}, t.Holds unit →
    IdleAll kinds unit → ∃ t', t'.Holds unit ∧
      (sweep (kinds.map (PassKind.pass (σ := Unit)))).run (t, ()) =
        .ok (kinds.map fun _ => false) (t', ())
  | [], t, unit, h, _ => ⟨t, h, rfl⟩
  | kind :: kinds, t, unit, h, hidle => by
    have ⟨hkind, hkinds⟩ := List.forall_mem_cons.mp hidle
    obtain ⟨t₁, hrun, h₁⟩ := PassKind.run_fold_idle h hkind
    obtain ⟨t₂, h₂, hrun'⟩ := run_sweep_idle kinds h₁ hkinds
    refine ⟨t₂, h₂, ?_⟩
    simp only [List.map_cons, sweep, EStateM.run_bind, Walk.run_tree, run_pass hrun, hrun',
      EStateM.run_pure]

/-! ## Runs -/

theorem sweeps_add (report : Report) (changed : List Bool) :
    (report.add changed).sweeps = report.sweeps + 1 := rfl

/-- A run ends with the first sweep that finds nothing to do. If there is nothing to do after `n`
sweeps, this comes after at most one more. -/
theorem run_go {kinds : List PassKind} {maxSweeps : Nat} : ∀ (n left : Nat) {report : Report} {t : Tree}
    {unit : CompilationUnit}, t.Holds unit → n < left → IdleAll kinds ((applyAll kinds)^[n] unit) →
    ∃ report' t' m, t'.Holds ((applyAll kinds)^[m] unit) ∧ IdleAll kinds ((applyAll kinds)^[m] unit) ∧
      report'.sweeps ≤ report.sweeps + n + 1 ∧
      (go (kinds.map (PassKind.pass (σ := Unit))) maxSweeps left report).run (t, ()) =
        .ok report' (t', ())
  | 0, left + 1, report, t, unit, h, _, hidle => by
    obtain ⟨t', h', hrun⟩ := run_sweep_idle kinds h hidle
    refine ⟨report.add (kinds.map fun _ => false), t', 0, h', hidle, (sweeps_add report _).le, ?_⟩
    rw [run_go_succ hrun, if_neg (by simp)]
  | n + 1, left + 1, report, t, unit, h, hn, hidle => by
    obtain ⟨changed, t₁, hrun, h₁, hquiet⟩ := run_sweep kinds h
    rw [run_go_succ hrun]
    by_cases hany : changed.any id = true
    · obtain ⟨report', t', m, h', hidle', hsweeps, hgo⟩ :=
        run_go n left h₁ (Nat.lt_of_succ_lt_succ hn) hidle
      refine ⟨report', t', m + 1, h', hidle', ?_, by rw [if_pos hany, hgo]⟩
      rw [sweeps_add] at hsweeps
      omega
    · refine ⟨report.add changed, t₁, 1, h₁, (hquiet (Bool.eq_false_of_not_eq_true hany)).1, ?_,
        by rw [if_neg hany]⟩
      rw [sweeps_add]
      omega

/-- A run that ends leaves the tree of what some sweeps make of the program. -/
theorem holds_of_run_go {kinds : List PassKind} {maxSweeps : Nat} : ∀ {left : Nat} {report report' : Report}
    {t t' : Tree} {unit : CompilationUnit}, t.Holds unit →
    (go (kinds.map (PassKind.pass (σ := Unit))) maxSweeps left report).run (t, ()) = .ok report' (t', ()) →
    ∃ m, t'.Holds ((applyAll kinds)^[m] unit)
  | 0, _, _, _, _, _, _, hgo => nomatch hgo
  | left + 1, report, report', t, t', unit, h, hgo => by
    obtain ⟨changed, t₁, hrun, h₁, -⟩ := run_sweep kinds h
    rw [run_go_succ hrun] at hgo
    split at hgo
    · obtain ⟨m, h'⟩ := holds_of_run_go h₁ hgo
      exact ⟨m + 1, h'⟩
    · cases hgo
      exact ⟨1, h₁⟩

end FixedPoint

namespace FoldOptions

open PassKind

variable {options : FoldOptions}

/-- Folding the tree of a program succeeds if the number of sweeps is greater than the number after which
all passes are idle. The tree is then that of a program on which they are idle, which is what the passes
make of the program in some sweeps. -/
theorem run_foldTree {unit : CompilationUnit} {n : Nat} (h : n < options.maxSweeps)
    (hidle : IdleAll options.passes ((applyAll options.passes)^[n] unit)) :
    ∃ report t' m, options.foldTree.run (.ofUnit unit) = .ok report t' ∧ report.sweeps ≤ n + 1 ∧
      t'.Holds ((applyAll options.passes)^[m] unit) ∧
      IdleAll options.passes ((applyAll options.passes)^[m] unit) := by
  obtain ⟨report, t', m, h', hidle', hsweeps, hgo⟩ :=
    @FixedPoint.run_go options.passes options.maxSweeps n options.maxSweeps
      (.start ((options.passes.map (PassKind.pass (σ := Unit))).map (·.name))) _ _
      (Tree.holds_ofUnit unit) h hidle
  refine ⟨report, t', m, EditWith.run_alone hgo, ?_, h', hidle'⟩
  have hstart : ∀ names, (Report.start names).sweeps = 0 := fun _ => rfl
  rw [hstart] at hsweeps
  omega

/-- What is read from the tree of a program that was folded is what some sweeps make of the program. -/
theorem unit_of_run_foldTree {unit g : CompilationUnit} {report : Report} {t : Tree}
    (hrun : options.foldTree.run (.ofUnit unit) = .ok report t) (hread : t.unit? = .ok g) :
    ∃ m, g = ((applyAll options.passes)^[m] unit).unplaced := by
  obtain ⟨m, h⟩ := FixedPoint.holds_of_run_go (Tree.holds_ofUnit unit) (EditWith.of_run_alone hrun)
  rw [h.unit?_eq] at hread
  exact ⟨m, (Except.ok.inj hread).symm⟩

/-- Where three sweeps are allowed, folding a program ends within them, and within two if constants are
propagated only after all blocks are folded. The tree is then that of a program, which can be read from
it: the one that the passes make of the given one in some sweeps, and on which all of them are idle. So
folding a source text can only fail because the text is not one of a program. -/
theorem foldTree_converges (options : FoldOptions) (h : 3 ≤ options.maxSweeps) :
    (∀ unit : CompilationUnit, ∃ report t' unit', options.foldTree.run (.ofUnit unit) = .ok report t' ∧
      report.sweeps ≤ 3 ∧
      (¬[constantPropagation, blockFolding].Sublist options.passes → report.sweeps ≤ 2) ∧
      t'.Holds unit' ∧ t'.unit? = .ok unit'.unplaced ∧ (∃ n, unit' = (applyAll options.passes)^[n] unit) ∧
      IdleAll options.passes unit') ∧
    ∀ source path error, options.foldSource source path = .error error →
      ∃ diagnostics, error = .syntaxErrors path diagnostics := by
  have hfold : ∀ unit : CompilationUnit, ∃ report t' unit',
      options.foldTree.run (.ofUnit unit) = .ok report t' ∧ report.sweeps ≤ 3 ∧
      (¬[constantPropagation, blockFolding].Sublist options.passes → report.sweeps ≤ 2) ∧
      t'.Holds unit' ∧ t'.unit? = .ok unit'.unplaced ∧ (∃ n, unit' = (applyAll options.passes)^[n] unit) ∧
      IdleAll options.passes unit' := by
    intro unit
    by_cases hs : [constantPropagation, blockFolding].Sublist options.passes
    · obtain ⟨report, t', m, hrun, hsweeps, h', hidle⟩ :=
        @run_foldTree options unit 2 h (idleAll_applyAll_twice options.passes unit)
      exact ⟨report, t', _, hrun, hsweeps, fun hn => absurd hs hn, h', h'.unit?_eq, ⟨m, rfl⟩, hidle⟩
    · obtain ⟨report, t', m, hrun, hsweeps, h', hidle⟩ :=
        @run_foldTree options unit 1 (by omega) (idleAll_applyAll options.passes hs)
      exact ⟨report, t', _, hrun, hsweeps.trans (by omega), fun _ => hsweeps, h', h'.unit?_eq, ⟨m, rfl⟩, hidle⟩
  refine ⟨hfold, fun source path error herror => ?_⟩
  unfold foldSource at herror
  split at herror
  · next diagnostics _ => exact ⟨diagnostics, by cases herror; rfl⟩
  · next unit comments _ =>
    obtain ⟨report, t', unit', hrun, -, -, -, hread, -⟩ := hfold unit
    rw [EStateM.run] at hrun
    rw [hrun] at herror
    dsimp only at herror
    cases hemit : options.emit with
    | source =>
      simp [write, hemit, hread, pure, Except.pure, bind, Except.bind] at herror
    | tree => simp [write, hemit, pure, Except.pure] at herror

/-- Both passes, in the order that may take a third sweep. -/
theorem foldTree_converges_constantsFirst :
    let options : FoldOptions := ⟨[constantPropagation, blockFolding], 3, .source⟩
    3 ≤ options.maxSweeps ∧
    (∀ unit : CompilationUnit, ∃ report t' unit', options.foldTree.run (.ofUnit unit) = .ok report t' ∧
      report.sweeps ≤ 3 ∧
      (¬[constantPropagation, blockFolding].Sublist options.passes → report.sweeps ≤ 2) ∧
      t'.Holds unit' ∧ t'.unit? = .ok unit'.unplaced ∧ (∃ n, unit' = (applyAll options.passes)^[n] unit) ∧
      IdleAll options.passes unit') ∧
    ∀ source path error, options.foldSource source path = .error error →
      ∃ diagnostics, error = .syntaxErrors path diagnostics := by
  exact ⟨Nat.le_refl 3, foldTree_converges _ (Nat.le_refl 3)⟩

end FoldOptions

end JavaFold
