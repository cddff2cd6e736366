import JavaFold.Pass.Basic
import JavaFold.Proofs.Walk

/-!
# Passes at the root

A pass that starts at the root of the tree of a program walks over the classes (`run_walk`).
-/

namespace JavaFold

open OrderedTree JavaFold.Tree

variable {v : Visitor Unit} {R : Effect} {t : Tree} {unit : CompilationUnit}

/-- A walk from the root of the tree of a program succeeds if the visits do, and leaves the root. -/
theorem Tree.Holds.run_walk (h : t.Holds unit) (hv : v.Does R) (hw : v.wants .unit = false) :
    ∃ ss ss' c t', t.Shows (.node t.top ss) ∧ partsAll ss = unit.classes.map ClassDecl.parts ∧
      Walk.WalkedAll v.wants R ss t.top [] ss' c ∧
      t'.WellFormed ∧ t'.root = t.root ∧ t'.Shows (.node t'.top ss') ∧
      (do Edit.checkFoldRoot t.root; (Walk.run v t.root).alone : Edit Bool).run t = .ok c t' := by
  obtain ⟨hwf, ss, hs, hparts⟩ := h
  obtain ⟨ss', c, t', st', hwalk, hr, hrun⟩ := Walk.run_run hv hwf hs hw ()
  obtain ⟨⟨parent, hroot⟩, -⟩ := id hs
  have hcheck : (Edit.checkFoldRoot t.root).run t = .ok () t := by
    simp [Edit.checkFoldRoot, Edit.run_live hroot]
  refine ⟨ss, ss', c, t', hs, hparts, hwalk, hr.wellFormed, hr.root, ?_, ?_⟩
  · rw [top, hr.root]
    exact hr.shows
  · rw [EStateM.run_bind, hcheck]
    exact EditWith.run_alone hrun

end JavaFold
