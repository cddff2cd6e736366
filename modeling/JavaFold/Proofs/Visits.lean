import JavaFold.Proofs.Pass.Blocks
import JavaFold.Proofs.Pass.Constants.Visit
import JavaFold.Proofs.Tree.Reachable

/-!
# Which nodes a walk visits

The visits of a walk are recorded by a visitor that does the same as the given one and notes the tree before and after
each visit and what came of it (`Visitor.recording`, `Walk.run_recording`).

A visit is *local* if it leaves the tree well-formed and changes no node that is not at or below the visited one, but
for the children of its parent (`Tree.ChangedWithin`). Local visits one after the other, or of the children of a node,
are local again. So however visits rewrite the part of the tree that has been walked over, the nodes that the walk has
still to come to are as they were at the beginning: if all visits are local, the nodes visited are the wanted ones
among those that were there at the beginning, each after those below it (`Walk.run_visits`), and the walk ends because
no node is left (`Walk.follow?_root`).
-/

namespace JavaFold

/-! ## Changes within a part of a tree -/

namespace Tree

variable {t t' t'' : Tree} {id p c j : NodeId} {n : Node}

/-- No node has changed but those at and below a node, and the children of its parent. -/
structure ChangedWithin (t : Tree) (id : NodeId) (t' : Tree) : Prop where
  kept {j : NodeId} {n : Node} : t.get? j = some n → ¬ t.Above id j →
    ∃ children, t'.get? j = some { n with children } ∧ (t.IsParent j id ∨ children = n.children)

namespace ChangedWithin

theorem refl (t : Tree) (id : NodeId) : t.ChangedWithin id t :=
  ⟨fun {_ n} hn _ => ⟨n.children, hn, .inr rfl⟩⟩

/-- A node that is not below the changed one, and not its parent, is as it was. -/
theorem get?_eq (h : t.ChangedWithin id t') (hn : t.get? j = some n) (hj : ¬ t.Above id j)
    (hp : ¬ t.IsParent j id) : t'.get? j = some n := by
  obtain ⟨children, hn', hor⟩ := h.kept hn hj
  rw [hn', hor.resolve_left hp]

/-- What comes below a node had already been below it, if it was there. -/
theorem above_of_above (h : t.ChangedWithin id t') (hw : t.WellFormed) (ha : t'.Above id j)
    (hn : t.get? j = some n) : t.Above id j := by
  induction ha generalizing n with
  | refl => exact .refl
  | @tail k j _ hp ih =>
    by_contra hj
    obtain ⟨children, hn', -⟩ := h.kept hn hj
    obtain ⟨n', hnj, hparent⟩ := hp
    rw [hn'] at hnj
    cases hnj
    have hk : t.IsParent k j := ⟨n, hn, hparent⟩
    obtain ⟨m, hm, -⟩ := hw.mem_of_isParent hk
    exact hj ((ih hm).tail hk)

theorem trans (h : t.ChangedWithin id t') (hw : t.WellFormed) (hw' : t'.WellFormed)
    (h' : t'.ChangedWithin id t'') : t.ChangedWithin id t'' := by
  refine ⟨fun {j n} hn hj => ?_⟩
  obtain ⟨children, hn', hor⟩ := h.kept hn hj
  obtain ⟨children', hn'', hor'⟩ := h'.kept hn' fun ha => hj (h.above_of_above hw ha hn)
  refine ⟨children', hn'', or_iff_not_imp_left.mpr fun hp => ?_⟩
  have hsame : children = n.children := hor.resolve_left hp
  refine (hor'.resolve_left fun hp' => hp ?_).trans hsame
  obtain ⟨m, hm, hmem⟩ := hw'.mem_of_isParent hp'
  rw [hn'] at hm
  cases hm
  exact hw.isParent_of_mem hn (hsame ▸ hmem)

/-- A change at a child is one at its parent. -/
theorem of_child (h : t.ChangedWithin c t') (hp : t.IsParent p c) : t.ChangedWithin p t' := by
  refine ⟨fun {j n} hn hj => ⟨n.children, ?_, .inr rfl⟩⟩
  refine h.get?_eq hn (fun ha => hj (.head hp ha)) fun hjc => ?_
  exact hj (hjc.unique hp ▸ .refl)

/-- A rewrite of the tree at a node is a change there. -/
theorem of_rewrite {u u' : OrderedTree Placed} (h : t.WellFormed) (hu : t.Shows u) (hr : t.Rewrite u u' t') :
    t.ChangedWithin u.label.id t' := by
  refine ⟨fun {j n} hn hj => ⟨_, (hr.kept hn fun hm => hj ((h.mem_ids_iff hu).mp hm)).2, ?_⟩⟩
  by_cases hp : t.IsParent j u.label.id
  · exact .inl hp
  · exact .inr (Edit.exchange_of_not_mem fun hm => hp (h.isParent_of_mem hn hm))

/-- The trees at the other children of its parent are as they were. -/
theorem get?_sibling {u : OrderedTree Placed} (h : t.ChangedWithin c t') (hw : t.WellFormed) (hp : t.IsParent p c)
    (hu : t.Shows u) (hpu : t.IsParent p u.label.id) (hne : u.label.id ≠ c) {x : NodeId} (hx : x ∈ u.ids) :
    t'.get? x = t.get? x := by
  obtain ⟨m, hm⟩ := hu.live hx
  have hux := (hw.mem_ids_iff hu).mp hx
  rw [hm]
  refine h.get?_eq hm (fun hcx => ?_) fun hxc => ?_
  · exact hne (hw.disjoint_siblings hpu hp hux hcx)
  · exact hw.not_above_of_isParent hpu (hxc.unique hp ▸ hux)

end ChangedWithin

end Tree

/-! ## Recorded visits -/

/-- A visit of a node: the tree before and after it, and what came of it. -/
structure Call where
  node : NodeId
  before : Tree
  result : Except TreeError Visit
  after : Tree

namespace Call

/-- The error with which a walk ends at a visit: that of the visit, or that what it gives back is not alive. -/
def error? (call : Call) : Option TreeError :=
  match call.result with
  | .ok visit => if call.after.contains visit.node then none else some (.stale visit.node)
  | .error e => some e

/-- Whether a visit says that it has changed anything. -/
def changed (call : Call) : Bool :=
  match call.result with
  | .ok visit => visit.changed
  | .error _ => false

/-- The visit keeps the tree well-formed and changes nothing that is not at or below the node, but for the children
of its parent. -/
structure Local (call : Call) : Prop where
  wellFormed : call.before.WellFormed → call.after.WellFormed
  within : call.before.ChangedWithin call.node call.after

/-- The visit is of a node that was there at the beginning, and that has only got other children since. -/
def Finds (start : Tree) (p : Placed) (call : Call) : Prop :=
  call.node = p.id ∧ ∃ parent children children', start.get? p.id = some ⟨p.kind, p.span, parent, children⟩ ∧
    call.before.get? p.id = some ⟨p.kind, p.span, parent, children'⟩

end Call

namespace Visitor

variable {σ : Type}

/-- The visit of a node. -/
def call (v : Visitor σ) (id : NodeId) (t : Tree) (st : σ) : Call :=
  match v.visit id (t, st) with
  | .ok visit (t', _) => ⟨id, t, .ok visit, t'⟩
  | .error e (t', _) => ⟨id, t, .error e, t'⟩

/-- The visitor that does the same and records its visits. -/
def recording (v : Visitor σ) : Visitor (σ × List Call) where
  wants := v.wants
  visit id := fun (t, st, calls) =>
    match v.visit id (t, st) with
    | .ok visit (t', st') => .ok visit (t', st', calls ++ [v.call id t st])
    | .error e (t', st') => .error e (t', st', calls ++ [v.call id t st])

theorem call_node (v : Visitor σ) (id : NodeId) (t : Tree) (st : σ) : (v.call id t st).node = id := by
  unfold call
  split <;> rfl

theorem call_before (v : Visitor σ) (id : NodeId) (t : Tree) (st : σ) : (v.call id t st).before = t := by
  unfold call
  split <;> rfl

end Visitor

/-- What comes of a recorded walk, without the record. -/
def withoutRecord {σ α : Type} : EStateM.Result TreeError (Tree × σ × List Call) α →
    EStateM.Result TreeError (Tree × σ) α
  | .ok a (t, st, _) => .ok a (t, st)
  | .error e (t, st, _) => .error e (t, st)

/-- The visits that have been recorded in the end. -/
def recorded {σ α : Type} (result : EStateM.Result TreeError (Tree × σ × List Call) α) : List Call :=
  (stateOf result).2.2

namespace Walk

variable {σ : Type} {v : Visitor σ} {t : Tree} {st : σ} {calls : List Call} {id : NodeId} {n : Node}

/-- The visits of a walk. -/
def visits (v : Visitor σ) (root : NodeId) (t : Tree) (st : σ) : List Call :=
  recorded ((run v.recording root).run (t, st, []))

/-- What has been recorded stays recorded. -/
theorem recorded_go (v : Visitor σ) (steps : Nat) (pending : List (NodeId × Bool)) (changed : Bool) (t : Tree) (st : σ)
    (calls : List Call) : calls <+: recorded ((go v.recording steps pending changed).run (t, st, calls)) := by
  refine go_keeps (I := fun s => calls <+: s.2.2) (fun id => ?_) steps pending changed (t, st, calls) List.prefix_rfl
  rintro ⟨t, st, calls'⟩ h
  have happend : ∀ call : Call, calls <+: calls' ++ [call] := fun call => h.trans (List.prefix_append _ _)
  simp only [EStateM.run, Visitor.recording]
  cases v.visit id (t, st) <;> exact happend _

/-- If each visit of a well-formed tree is local, all visits of a walk over one are. -/
theorem visits_local (hv : ∀ id t st, t.WellFormed → (v.call id t st).Local) (h : t.WellFormed) (root : NodeId)
    (st : σ) : ∀ call ∈ visits v root t st, call.Local := by
  have hkeeps : Keeps (fun s => s.1.WellFormed ∧ ∀ call ∈ s.2.2, call.Local) (run v.recording root) := by
    refine run_keeps (fun id => ?_) root
    rintro ⟨t, st, calls⟩ ⟨ht, hcalls⟩
    have hl := hv id t st ht
    have hall : ∀ call ∈ calls ++ [v.call id t st], call.Local := by
      intro call hcall
      rcases List.mem_append.mp hcall with hcall | hcall
      · exact hcalls call hcall
      · exact List.mem_singleton.mp hcall ▸ hl
    have hafter := hl.wellFormed ((v.call_before id t st).symm ▸ ht)
    simp only [EStateM.run, Visitor.recording, Visitor.call] at hall hafter ⊢
    cases hvisit : v.visit id (t, st) <;> rw [hvisit] at hall hafter <;> exact ⟨hafter, hall⟩
  exact (hkeeps (t, st, []) ⟨h, nofun⟩).2

/-- A node that has been freed is passed over. -/
theorem run_go_skip (hn : t.get? id = none) (expanded : Bool) (steps : Nat) (rest : List (NodeId × Bool))
    (changed : Bool) : (go v (steps + 1) ((id, expanded) :: rest) changed).run (t, st) =
      (go v steps rest changed).run (t, st) := by
  simp [go, take, run_tree, hn]

/-- A walk ends at a visit that fails. -/
theorem run_go_fail {e : TreeError} {s : Tree × σ} (hn : t.get? id = some n) (hw : v.wants n.kind = true)
    (hv : (v.visit id).run (t, st) = .error e s) (steps : Nat) (rest : List (NodeId × Bool)) (changed : Bool) :
    (go v (steps + 1) ((id, true) :: rest) changed).run (t, st) = .error e s := by
  simp [go, take, run_tree, hn, hw, hv]

/-- A walk goes on after a visit that succeeds, or ends with it if what it gives back is not alive. -/
theorem run_go_result {s : Tree × σ} {result : Visit} (hn : t.get? id = some n) (hw : v.wants n.kind = true)
    (hv : (v.visit id).run (t, st) = .ok result s) (steps : Nat) (rest : List (NodeId × Bool)) (changed : Bool) :
    (go v (steps + 1) ((id, true) :: rest) changed).run (t, st) = if s.1.contains result.node then
      (go v steps rest (changed || result.changed)).run s else .error (.stale result.node) s := by
  obtain ⟨t', st'⟩ := s
  split
  · next hc => exact run_go_visit hn hw hv hc steps rest changed
  · next hc => simp [go, take, run_tree, hn, hw, hv, hc]

/-- A visit, recorded or not: the walk goes on after it, or ends with its error. -/
theorem run_go_call (v : Visitor σ) (st : σ) (hn : t.get? id = some n) (hw : v.wants n.kind = true) :
    ∃ st', ∀ steps rest changed,
      (go v (steps + 1) ((id, true) :: rest) changed).run (t, st) = (match (v.call id t st).error? with
        | none => (go v steps rest (changed || (v.call id t st).changed)).run ((v.call id t st).after, st')
        | some e => .error e ((v.call id t st).after, st')) ∧
      ∀ calls, (go v.recording (steps + 1) ((id, true) :: rest) changed).run (t, st, calls) =
        match (v.call id t st).error? with
        | none => (go v.recording steps rest (changed || (v.call id t st).changed)).run
            ((v.call id t st).after, st', calls ++ [v.call id t st])
        | some e => .error e ((v.call id t st).after, st', calls ++ [v.call id t st]) := by
  have hw' : v.recording.wants n.kind = true := hw
  cases hv : (v.visit id).run (t, st) with
  | error e s =>
    have hcall : v.call id t st = ⟨id, t, .error e, s.1⟩ := by
      simp only [EStateM.run] at hv
      rw [Visitor.call, hv]
    have hv' (calls : List Call) : (v.recording.visit id).run (t, st, calls) =
        .error e (s.1, s.2, calls ++ [v.call id t st]) := by
      simp only [EStateM.run, Visitor.recording] at hv ⊢
      rw [hv]
    rw [hcall] at hv' ⊢
    refine ⟨s.2, fun steps rest changed => ⟨?_, fun calls => ?_⟩⟩
    · rw [run_go_fail hn hw hv]
      rfl
    · rw [run_go_fail hn hw' (hv' calls)]
      rfl
  | ok result s =>
    have hcall : v.call id t st = ⟨id, t, .ok result, s.1⟩ := by
      simp only [EStateM.run] at hv
      rw [Visitor.call, hv]
    have hv' (calls : List Call) : (v.recording.visit id).run (t, st, calls) =
        .ok result (s.1, s.2, calls ++ [v.call id t st]) := by
      simp only [EStateM.run, Visitor.recording] at hv ⊢
      rw [hv]
    rw [hcall] at hv' ⊢
    refine ⟨s.2, fun steps rest changed => ⟨?_, fun calls => ?_⟩⟩
    · rw [run_go_result hn hw hv, Call.error?]
      dsimp only
      cases s.1.contains result.node <;> rfl
    · rw [run_go_result hn hw' (hv' calls), Call.error?]
      dsimp only
      cases s.1.contains result.node <;> rfl

/-- A walk that is recorded does the same. -/
theorem run_go_recording (v : Visitor σ) : ∀ (steps : Nat) (pending : List (NodeId × Bool)) (changed : Bool) (t : Tree)
    (st : σ) (calls : List Call), withoutRecord ((go v.recording steps pending changed).run (t, st, calls)) =
      (go v steps pending changed).run (t, st)
  | 0, [], _, _, _, _ | 0, _ :: _, _, _, _, _ | _ + 1, [], _, _, _, _ => rfl
  | steps + 1, (id, expanded) :: rest, changed, t, st, calls => by
    have ih := run_go_recording v steps
    cases hn : t.get? id with
    | none => rw [run_go_skip hn, run_go_skip hn, ih]
    | some n =>
      cases expanded with
      | false => rw [run_go_expand hn, run_go_expand hn, ih]
      | true =>
        by_cases hw : v.wants n.kind = true
        · obtain ⟨st', hgo⟩ := run_go_call v st hn hw
          obtain ⟨hplain, hrecorded⟩ := hgo steps rest changed
          rw [hplain, hrecorded]
          cases (v.call id t st).error? with
          | none => exact ih ..
          | some e => rfl
        · rw [Bool.not_eq_true] at hw
          rw [run_go_pass hn hw, run_go_pass hn (show v.recording.wants n.kind = false from hw), ih]

/-- The visits of a walk are noted without any effect on what comes of it. -/
theorem run_recording (v : Visitor σ) (root : NodeId) (t : Tree) (st : σ) :
    withoutRecord ((run v.recording root).run (t, st, [])) = (run v root).run (t, st) := by
  rw [run_eq, run_eq, ← run_go_recording v _ _ _ t st []]
  cases (go v.recording (2 * t.slots.size) [(root, false)] false).run (t, st, []) <;> rfl

/-- Taking out whether the list has become empty leaves the record as it is. -/
theorem visits_eq (v : Visitor σ) (root : NodeId) (t : Tree) (st : σ) : visits v root t st =
    recorded ((go v.recording (2 * t.slots.size) [(root, false)] false).run (t, st, [])) := by
  rw [visits, run_eq]
  cases (go v.recording (2 * t.slots.size) [(root, false)] false).run (t, st, []) <;> rfl

end Walk

/-! ## The visits of the passes -/

section

open JavaFold.Tree OrderedTree

variable {t t' : Tree} {u : OrderedTree Placed} {vs : List (OrderedTree Placed)}

/-- What an edit changes within a part of a tree is local as a visit. -/
theorem Call.Local.of_edit {σ : Type} {v : Visitor σ} {id : NodeId} {t : Tree} {x : Edit Visit}
    (hv : v.visit id = EditWith.lift x) (hx : Keeps Tree.WellFormed x) (hw : t.ChangedWithin id (stateOf (x.run t)))
    (st : σ) : (v.call id t st).Local := by
  have hwf := hx t
  have hcall : v.call id t st = match x.run t with
      | .ok visit t' => ⟨id, t, .ok visit, t'⟩
      | .error e t' => ⟨id, t, .error e, t'⟩ := by
    unfold Visitor.call EStateM.run
    rw [hv, EditWith.lift]
    cases x t <;> rfl
  rw [hcall]
  cases hrun : x.run t <;> rw [hrun] at hwf hw <;> exact ⟨hwf, hw⟩

/-- Propagating constants changes nothing outside the member that is visited. -/
theorem Constants.visitor_local (id : NodeId) {t : Tree} (st : Unit) (h : t.WellFormed) :
    (Constants.visitor.call id t st).Local := by
  refine .of_edit rfl (Constants.visit_keeps id) ?_ st
  cases hs : t.subtree? id with
  | none =>
    have hrun : (Constants.visit id).run t = .error (.stale id) t := by
      rw [Constants.visit, EStateM.run_bind, EStateM.run_get]
      dsimp only
      rw [hs]
      rfl
    rw [hrun]
    exact .refl t id
  | some s =>
    obtain ⟨p, ts⟩ := s
    obtain ⟨hshow, rfl⟩ := shows_of_subtree? hs
    obtain ⟨fresh, t', hrun, hr, -⟩ := Constants.run_visit h hshow
    rw [show (node p ts).label.id = p.id from rfl, hrun]
    exact .of_rewrite h hshow hr

namespace Blocks

/-- Putting what has been taken out of a block below a fresh node is a change there. -/
theorem Opened.changedWithin (h : t.WellFormed) (hu : t.Shows u) (ho : Opened t u vs t') (kind : NodeKind)
    (span : Span) :
    t.ChangedWithin u.label.id (t'.insert kind span (vs.map (·.label.id))).2 :=
  ⟨fun {_ n} hn hj => ⟨n.children, (ho.kept_insert kind span hn fun hm => hj ((h.mem_ids_iff hu).mp hm)).2, .inr rfl⟩⟩

/-- The fresh node cannot be put in the place of a block without a parent, and stays floating. -/
theorem Opened.run_close_of_no_parent (hu : t.Shows u) (ho : Opened t u vs t') (hp : ∀ p, ¬ t.IsParent p u.label.id)
    (kind : NodeKind) (span : Span) : ∃ e, (do
      let fresh ← Edit.alloc kind span (vs.map (·.label.id))
      Edit.replace u.label.id fresh
      return Visit.replaced fresh : Edit Visit).run t' =
        .error e (t'.insert kind span (vs.map (·.label.id))).2 := by
  obtain ⟨parent, hn, -, htop⟩ := ho.top_insert hu kind span
  have hno : ∀ p, ¬ (t'.insert kind span (vs.map (·.label.id))).2.IsParent p u.label.id := by
    rintro p ⟨m, hm, hmp⟩
    rw [htop] at hm
    cases hm
    exact hp p ⟨_, hn, hmp⟩
  rcases allMet_or_firstUnmet (Demand.attached (t'.insert kind span (vs.map (·.label.id))).2 u.label.id ++
    (Demand.floating _ (t'.insert kind span (vs.map (·.label.id))).1 ++ [.notAbove _ _ _])) with hall | ⟨e, he⟩
  · obtain ⟨p, hp'⟩ := hall _ (List.mem_append_left _ (List.mem_cons_of_mem _ (List.mem_cons_of_mem _
      List.mem_cons_self)))
    exact absurd hp' (hno p)
  · have hreplace := (Edit.replace_decides (ho.wellFormed.insert kind span ho.nodup ho.floating_ids)).refused he
    exact ⟨e, by simp only [EStateM.run_bind, Edit.run_alloc kind span ho.floating_ids ho.nodup, hreplace]⟩

/-- Folding a block changes nothing outside it, but for the children of its parent. -/
theorem visitor_local (id : NodeId) {t : Tree} (st : Unit) (h : t.WellFormed) : (visitor.call id t st).Local := by
  refine .of_edit rfl (visit_keeps id) ?_ st
  cases hn : t.get? id with
  | none =>
    rw [visit, EStateM.run_bind, Edit.run_live_stale hn]
    exact .refl t id
  | some n =>
    obtain ⟨u, hu⟩ := h.exists_subtree? hn
    obtain ⟨hshow, rfl⟩ := shows_of_subtree? hu
    have hvisit := run_visit h hshow
    split at hvisit
    · obtain ⟨t₁, hopen, hvisit⟩ := hvisit
      rw [hvisit]
      by_cases hp : ∃ p, t.IsParent p u.label.id
      · obtain ⟨p, hp⟩ := hp
        obtain ⟨fresh, t₂, hrun, hr⟩ := hopen.close hshow hp (.stmt .block) u.label.span
        rw [hrun]
        exact .of_rewrite h hshow hr
      · obtain ⟨e, hrun⟩ := hopen.run_close_of_no_parent hshow (fun p hp' => hp ⟨p, hp'⟩) (.stmt .block) u.label.span
        rw [hrun]
        exact hopen.changedWithin h hshow _ _
    · rw [hvisit]
      exact .refl t u.label.id

end Blocks

end

/-! ## The nodes in the order of visits -/

namespace OrderedTree

variable {α : Type}

mutual

/-- All labels, each after those below it, and those of earlier subtrees before those of later ones. -/
def postorder : OrderedTree α → List α
  | node a ts => postorderAll ts ++ [a]

def postorderAll : List (OrderedTree α) → List α
  | [] => []
  | t :: ts => postorder t ++ postorderAll ts

end

mutual

theorem postorder_perm : ∀ s : OrderedTree α, s.postorder.Perm s.labels
  | node a ts => by
    rw [postorder, labels]
    exact (List.perm_append_singleton a _).trans ((postorderAll_perm ts).cons a)

theorem postorderAll_perm : ∀ ss : List (OrderedTree α), (postorderAll ss).Perm (labelsAll ss)
  | [] => .refl _
  | s :: ss => by
    rw [postorderAll, labelsAll]
    exact (postorder_perm s).append (postorderAll_perm ss)

end

end OrderedTree

/-- The visits of nodes that are listed: each finds its node, and none but the last ends the walk. -/
inductive Follows (start : Tree) : List Placed → List Call → Option TreeError → Prop
  | done : Follows start [] [] none
  | next {p : Placed} {ps : List Placed} {call : Call} {calls : List Call} {stop : Option TreeError} :
    call.Finds start p → call.error? = none → Follows start ps calls stop →
      Follows start (p :: ps) (call :: calls) stop
  | stop {p : Placed} {ps : List Placed} {call : Call} {e : TreeError} :
    call.Finds start p → call.error? = some e → Follows start (p :: ps) [call] (some e)

namespace Follows

variable {start t : Tree} {ps qs : List Placed} {calls calls' : List Call} {stop : Option TreeError} {e : TreeError}

theorem append : ∀ {ps : List Placed} {calls : List Call}, Follows start ps calls none →
    Follows start qs calls' stop → Follows start (ps ++ qs) (calls ++ calls') stop
  | _, _, .done, h' => h'
  | _, _, .next hf he h, h' => .next hf he (h.append h')

theorem append_stopped : ∀ {ps : List Placed} {calls : List Call}, Follows start ps calls (some e) →
    ∀ qs : List Placed, Follows start (ps ++ qs) calls (some e)
  | _, _, .next hf he h, qs => .next hf he (h.append_stopped qs)
  | _, _, .stop hf he, _ => .stop hf he

/-- Visits that find the nodes of one tree find those of another one in which the listed nodes are the same. -/
theorem of_same (h : Follows t ps calls stop) (hsame : ∀ p ∈ ps, t.get? p.id = start.get? p.id) :
    Follows start ps calls stop := by
  induction h with
  | done => exact .done
  | next hf he _ ih =>
    obtain ⟨hid, parent, children, children', hn, hn'⟩ := hf
    rw [hsame _ List.mem_cons_self] at hn
    exact .next ⟨hid, parent, children, children', hn, hn'⟩ he (ih fun p hp => hsame p (List.mem_cons_of_mem _ hp))
  | stop hf he =>
    obtain ⟨hid, parent, children, children', hn, hn'⟩ := hf
    rw [hsame _ List.mem_cons_self] at hn
    exact .stop ⟨hid, parent, children, children', hn, hn'⟩ he

theorem finds (h : Follows start ps calls stop) : ∀ call ∈ calls, ∃ p ∈ ps, call.Finds start p := by
  induction h with
  | done => nofun
  | next hf _ _ ih =>
    intro call hcall
    rcases List.mem_cons.mp hcall with rfl | hcall
    · exact ⟨_, List.mem_cons_self, hf⟩
    · obtain ⟨p, hp, hfinds⟩ := ih call hcall
      exact ⟨p, List.mem_cons_of_mem _ hp, hfinds⟩
  | stop hf _ =>
    intro call hcall
    rw [List.mem_singleton] at hcall
    exact ⟨_, List.mem_cons_self, hcall ▸ hf⟩

/-- A walk that does not end early visits all that is listed. -/
theorem all : ∀ {ps : List Placed} {calls : List Call}, Follows start ps calls none →
    calls.map (·.node) = ps.map (·.id) ∧ ∀ call ∈ calls, call.error? = none
  | _, _, .done => ⟨rfl, nofun⟩
  | _, _, .next hf he h => by
    obtain ⟨hmap, hall⟩ := h.all
    exact ⟨by rw [List.map_cons, List.map_cons, hmap, hf.1], List.forall_mem_cons.mpr ⟨he, hall⟩⟩

/-- A walk that ends early has visited what is listed up to the visit that ends it. -/
theorem upTo : ∀ {ps : List Placed} {calls : List Call}, Follows start ps calls (some e) →
    ∃ earlier last, calls = earlier ++ [last] ∧ calls.map (·.node) <+: ps.map (·.id) ∧
      (∀ call ∈ earlier, call.error? = none) ∧ last.error? = some e
  | _, _, .next hf he h => by
    obtain ⟨earlier, last, rfl, hprefix, hall, hlast⟩ := h.upTo
    refine ⟨_ :: earlier, last, rfl, ?_, List.forall_mem_cons.mpr ⟨he, hall⟩, hlast⟩
    rw [List.map_cons, List.map_cons, hf.1]
    exact List.cons_prefix_cons.mpr ⟨rfl, hprefix⟩
  | _, _, .stop hf he => by
    refine ⟨[], _, rfl, ?_, nofun, he⟩
    rw [List.map_cons, List.map_cons, hf.1]
    exact List.cons_prefix_cons.mpr ⟨rfl, List.nil_prefix⟩

end Follows

namespace Walk

open OrderedTree JavaFold.Tree

variable {σ : Type} {v : Visitor σ}

/-- What comes of walking over the nodes that are listed: the walk goes on with the rest from a tree with the property
`Q`, or it has ended with the error of a visit. -/
inductive Outcome (v : Visitor σ) (start : Tree) (ps : List Placed) (Q : Tree → Prop) (calls : List Call) (steps : Nat)
    (rest : List (NodeId × Bool)) (changed : Bool) (out : EStateM.Result TreeError (Tree × σ × List Call) (Bool × Bool)) : Prop
  | done (made : List Call) (t' : Tree) (st' : σ) : Follows start ps made none → Q t' →
      out = (go v.recording steps rest (changed || made.any (·.changed))).run (t', st', calls ++ made) → Outcome ..
  | stopped (made : List Call) (e : TreeError) (t' : Tree) (st' : σ) : Follows start ps made (some e) →
      out = .error e (t', st', calls ++ made) → Outcome ..

namespace Outcome

variable {start t : Tree} {ps qs : List Placed} {Q Q' : Tree → Prop} {calls : List Call} {steps steps' : Nat}
  {rest rest' : List (NodeId × Bool)} {changed : Bool} {out : EStateM.Result TreeError (Tree × σ × List Call) (Bool × Bool)}

/-- After what is listed first the walk goes on with what is listed next. -/
theorem bind (h : Outcome v start ps Q calls steps rest changed out) (hlocal : ∀ call ∈ recorded out, call.Local)
    (hnext : ∀ t' st' calls' changed', Q t' →
      let out' := (go v.recording steps rest changed').run (t', st', calls')
      (∀ call ∈ recorded out', call.Local) → Outcome v start qs Q' calls' steps' rest' changed' out') :
    Outcome v start (ps ++ qs) Q' calls steps' rest' changed out := by
  cases h with
  | stopped made e t' st' hf hout => exact .stopped made e t' st' (hf.append_stopped qs) hout
  | done made t' st' hf hQ hout =>
    cases hnext t' st' _ _ hQ (hout ▸ hlocal) with
    | stopped made' e t'' st'' hf' hout' =>
      refine .stopped (made ++ made') e t'' st'' (hf.append hf') ?_
      rw [hout, hout', List.append_assoc]
    | done made' t'' st'' hf' hQ' hout' =>
      refine .done (made ++ made') t'' st'' (hf.append hf') hQ' ?_
      rw [hout, hout', List.any_append, Bool.or_assoc, List.append_assoc]

/-- The same from an earlier tree in which the listed nodes are the same. -/
theorem of_same (h : Outcome v t ps Q calls steps rest changed out)
    (hsame : ∀ p ∈ ps, t.get? p.id = start.get? p.id) (hQ : ∀ t', Q t' → Q' t') :
    Outcome v start ps Q' calls steps rest changed out := by
  cases h with
  | stopped made e t' st' hf hout => exact .stopped made e t' st' (hf.of_same hsame) hout
  | done made t' st' hf hQ' hout => exact .done made t' st' (hf.of_same hsame) (hQ t' hQ') hout

end Outcome

/-- When the walk comes back to a node that has changed only at and below it, it visits the node if it is wanted. -/
theorem run_go_own (v : Visitor σ) {t t' : Tree} {p : Placed} {parent : Option NodeId} {children children' : List NodeId}
    (h : t.WellFormed) (hp : t.get? p.id = some ⟨p.kind, p.span, parent, children⟩) (hw : t'.WellFormed)
    (hc : t.ChangedWithin p.id t') (hp' : t'.get? p.id = some ⟨p.kind, p.span, parent, children'⟩) (st : σ)
    (calls : List Call) (steps : Nat) (rest : List (NodeId × Bool)) (changed : Bool)
    (hlocal : ∀ call ∈ recorded ((go v.recording (steps + 1) ((p.id, true) :: rest) changed).run (t', st, calls)),
      call.Local) :
    Outcome v t ([p].filter fun p => v.wants p.kind) (fun t'' => t''.WellFormed ∧ t.ChangedWithin p.id t'') calls steps
      rest changed ((go v.recording (steps + 1) ((p.id, true) :: rest) changed).run (t', st, calls)) := by
  by_cases hwants : v.wants p.kind = true
  · rw [show [p].filter (fun p => v.wants p.kind) = [p] from List.filter_cons_of_pos hwants]
    obtain ⟨st', hcall⟩ := run_go_call v st hp' hwants
    have hnode := v.call_node p.id t' st
    have hbefore := v.call_before p.id t' st
    generalize v.call p.id t' st = call at hcall hnode hbefore
    have hfinds : call.Finds t p := ⟨hnode, parent, children, children', hp, hbefore ▸ hp'⟩
    have hrun := (hcall steps rest changed).2 calls
    cases he : call.error? with
    | none =>
      rw [he] at hrun
      dsimp only at hrun
      have hrecorded := recorded_go v steps rest (changed || call.changed) call.after st' (calls ++ [call])
      have hl : call.Local := hlocal call (hrun ▸ hrecorded.subset (by simp))
      refine .done [call] call.after st' (.next hfinds he .done) ⟨hl.wellFormed (hbefore ▸ hw), hc.trans h hw ?_⟩ ?_
      · exact hbefore ▸ hnode ▸ hl.within
      · rw [hrun, List.any_cons, List.any_nil, Bool.or_false]
    | some e =>
      rw [he] at hrun
      exact .stopped [call] e call.after st' (.stop hfinds he) hrun
  · rw [show [p].filter (fun p => v.wants p.kind) = [] from List.filter_cons_of_neg hwants]
    rw [Bool.not_eq_true] at hwants
    have hpass : v.recording.wants p.kind = false := hwants
    refine .done [] t' st .done ⟨hw, hc⟩ ?_
    rw [run_go_pass hp' hpass, List.any_nil, Bool.or_false, List.append_nil]

mutual

theorem run_go_tree (v : Visitor σ) : ∀ (s : OrderedTree Placed) {t : Tree} (st : σ) (calls : List Call), t.WellFormed →
    t.Shows s → ∀ (steps : Nat) (rest : List (NodeId × Bool)) (changed : Bool),
      (∀ call ∈ recorded ((go v.recording (2 * s.ids.length + steps) ((s.label.id, false) :: rest) changed).run
        (t, st, calls)), call.Local) →
      Outcome v t (s.postorder.filter fun p => v.wants p.kind)
        (fun t' => t'.WellFormed ∧ t.ChangedWithin s.label.id t') calls steps rest changed
        ((go v.recording (2 * s.ids.length + steps) ((s.label.id, false) :: rest) changed).run (t, st, calls))
  | .node p ss, t, st, calls, h, hs, steps, rest, changed, hlocal => by
    obtain ⟨⟨parent, hp⟩, hall⟩ := hs
    have hss : ∀ s ∈ ss, t.Shows s ∧ t.IsParent p.id s.label.id := fun s hs =>
      ⟨showsAll_iff.mp hall s hs, h.isParent_of_mem hp (List.mem_map_of_mem hs)⟩
    have hgo : (go v.recording (2 * (node p ss).ids.length + steps) ((p.id, false) :: rest) changed).run
        (t, st, calls) = (go v.recording (2 * (idsAll ss).length + (steps + 1))
          ((ss.map fun s => (s.label.id, false)) ++ (p.id, true) :: rest) changed).run (t, st, calls) := by
      have hsteps : 2 * (node p ss).ids.length + steps = 2 * (idsAll ss).length + (steps + 1) + 1 := by
        rw [ids_node, List.length_cons]
        omega
      rw [hsteps, run_go_expand hp, List.map_map]
      rfl
    rw [show (node p ss).label.id = p.id from rfl, hgo] at hlocal ⊢
    rw [postorder, List.filter_append]
    have hchildren := run_go_trees v ss st calls h hp hss (h.nodup_children hp) (steps + 1) ((p.id, true) :: rest)
      changed hlocal
    refine hchildren.bind hlocal fun t₁ st₁ calls₁ changed₁ hQ hlocal₁ => ?_
    obtain ⟨hw₁, hc₁, children₁, hp₁⟩ := hQ
    exact run_go_own v h hp hw₁ hc₁ hp₁ st₁ calls₁ steps rest changed₁ hlocal₁

theorem run_go_trees (v : Visitor σ) : ∀ (ss : List (OrderedTree Placed)) {t : Tree} (st : σ) (calls : List Call)
    {p : NodeId} {n : Node}, t.WellFormed → t.get? p = some n → (∀ s ∈ ss, t.Shows s ∧ t.IsParent p s.label.id) →
    (ss.map (·.label.id)).Nodup → ∀ (steps : Nat) (rest : List (NodeId × Bool)) (changed : Bool),
      (∀ call ∈ recorded ((go v.recording (2 * (idsAll ss).length + steps)
        ((ss.map fun s => (s.label.id, false)) ++ rest) changed).run (t, st, calls)), call.Local) →
      Outcome v t ((postorderAll ss).filter fun p => v.wants p.kind)
        (fun t' => t'.WellFormed ∧ t.ChangedWithin p t' ∧ ∃ children, t'.get? p = some { n with children }) calls steps
        rest changed ((go v.recording (2 * (idsAll ss).length + steps)
          ((ss.map fun s => (s.label.id, false)) ++ rest) changed).run (t, st, calls))
  | [], t, st, calls, p, n, h, hn, hss, hd, steps, rest, changed, hlocal =>
    .done [] t st .done ⟨h, .refl t p, n.children, hn⟩ (by simp)
  | s :: ss, t, st, calls, p, n, h, hn, hss, hd, steps, rest, changed, hlocal => by
    obtain ⟨hs, hps⟩ := hss s List.mem_cons_self
    rw [List.map_cons, List.nodup_cons] at hd
    have hsteps : 2 * (idsAll (s :: ss)).length + steps = 2 * s.ids.length + (2 * (idsAll ss).length + steps) := by
      rw [idsAll_cons, List.length_append]
      omega
    rw [hsteps, List.map_cons, List.cons_append] at hlocal ⊢
    rw [postorderAll, List.filter_append]
    refine (run_go_tree v s st calls h hs _ _ changed hlocal).bind hlocal fun t₁ st₁ calls₁ changed₁ hQ hlocal₁ => ?_
    obtain ⟨hw₁, hc₁⟩ := hQ
    -- the trees at the other children are as they were, and so is their parent, but for its children
    have hsame : ∀ u ∈ ss, ∀ x ∈ u.ids, t₁.get? x = t.get? x := by
      intro u hu x hx
      obtain ⟨hshow, hpu⟩ := hss u (List.mem_cons_of_mem _ hu)
      exact hc₁.get?_sibling h hps hshow hpu (fun e => hd.1 (e ▸ List.mem_map_of_mem hu)) hx
    have hss₁ : ∀ u ∈ ss, t₁.Shows u ∧ t₁.IsParent p u.label.id := by
      intro u hu
      obtain ⟨hshow, m, hm, hparent⟩ := hss u (List.mem_cons_of_mem _ hu)
      refine ⟨hshow.congr u fun x hx k hk => ⟨k.parent, (hsame u hu x hx).trans hk⟩, m, ?_, hparent⟩
      exact (hsame u hu _ u.id_mem_ids).trans hm
    obtain ⟨children₁, hn₁, -⟩ := hc₁.kept hn (h.not_above_of_isParent hps)
    have hlisted : ∀ q ∈ (postorderAll ss).filter fun p => v.wants p.kind, t₁.get? q.id = t.get? q.id := by
      intro q hq
      have hlabel := (postorderAll_perm ss).subset (List.mem_filter.mp hq).1
      obtain ⟨u, hu, hx⟩ := mem_idsAll.mp (List.mem_map_of_mem hlabel : q.id ∈ idsAll ss)
      exact hsame u hu _ hx
    have hrest := run_go_trees v ss st₁ calls₁ hw₁ hn₁ hss₁ hd.2 steps rest changed₁ hlocal₁
    exact hrest.of_same hlisted fun t₂ ⟨hw₂, hc₂, hp₂⟩ => ⟨hw₂, (hc₁.of_child hps).trans h hw₁ hc₂, hp₂⟩

end

/-- A whole walk with local visits visits the wanted nodes of the tree at its root, until no node is left or a visit
ends it. -/
theorem run_go_root (v : Visitor σ) {t : Tree} (h : t.WellFormed) {s : OrderedTree Placed} (hs : t.Shows s) (st : σ)
    (hlocal : ∀ call ∈ visits v s.label.id t st, call.Local) :
    let calls := visits v s.label.id t st
    let wanted := s.postorder.filter fun p => v.wants p.kind
    (∃ s', (go v.recording (2 * t.slots.size) [(s.label.id, false)] false).run (t, st, []) =
      .ok (calls.any (·.changed), true) s' ∧ Follows t wanted calls none) ∨
    ∃ e s', (go v.recording (2 * t.slots.size) [(s.label.id, false)] false).run (t, st, []) = .error e s' ∧
      Follows t wanted calls (some e) := by
  intro calls wanted
  obtain ⟨k, hk⟩ := exists_steps h hs
  have hcalls : calls =
      recorded ((go v.recording (2 * s.ids.length + k) [(s.label.id, false)] false).run (t, st, [])) :=
    hk ▸ visits_eq v s.label.id t st
  rw [hk]
  cases run_go_tree v s st [] h hs k [] false (hcalls ▸ hlocal) with
  | done made t' st' hf _ hout =>
    have hend : (go v.recording k [] (false || made.any (·.changed))).run (t', st', [] ++ made) =
        .ok (made.any (·.changed), true) (t', st', made) := by
      cases k <;> rfl
    rw [hout, hend] at hcalls ⊢
    have hmade : calls = made := hcalls
    exact .inl ⟨(t', st', made), by rw [hmade], hmade ▸ hf⟩
  | stopped made e t' st' hf hout =>
    rw [hout] at hcalls ⊢
    have hmade : calls = made := hcalls
    exact .inr ⟨e, _, rfl, hmade ▸ hf⟩

/-- If its visits are local, the steps of a walk do not run out, whatever it begins at: it does what the walk does
that goes on until no node is left. -/
theorem follow?_root (v : Visitor σ) {t : Tree} (h : t.WellFormed) (root : NodeId) (st : σ)
    (hlocal : ∀ call ∈ visits v root t st, call.Local) :
    v.follow? [(root, false)] false (t, st) = some ((run v root).run (t, st)) := by
  rw [run_eq]
  refine follow?_eq v (2 * t.slots.size) [(root, false)] false (t, st) fun c s' hc => ?_
  cases hn : t.get? root with
  | none =>
    -- the tree has a root, so there is a step in which a node that is gone is passed over
    obtain ⟨n, hroot, -⟩ := h.root
    obtain ⟨k, hk⟩ : ∃ k, 2 * t.slots.size = k + 1 + 1 := by
      have hle := length_le_size (List.nodup_singleton t.root) fun id hm => ⟨n, List.mem_singleton.mp hm ▸ hroot⟩
      rw [List.length_singleton] at hle
      exact ⟨2 * t.slots.size - 2, by omega⟩
    rw [hk, run_go_skip hn] at hc
    cases hc
    rfl
  | some n =>
    obtain ⟨s, hs⟩ := h.exists_subtree? hn
    obtain ⟨hshow, rfl⟩ := shows_of_subtree? hs
    rw [← run_go_recording v _ _ _ t st []] at hc
    rcases run_go_root v h hshow st hlocal with ⟨s₁, hrun, -⟩ | ⟨e, s₁, hrun, -⟩
    · rw [hrun] at hc
      cases hc
      rfl
    · rw [hrun] at hc
      cases hc

/-- A walk with local visits from a live node of a reachable tree visits the wanted ones of the nodes that are at and
below it at the beginning, each once and after those below it, and none that has been made since. It says that it has
changed something if a visit does. If a visit fails, or gives back a node that is not alive, the walk ends with that
error, and has visited the nodes up to there. -/
theorem run_visits (v : Visitor σ) {t : Tree} (ht : t.Reachable) {root : NodeId} (hroot : t.contains root = true) (st : σ)
    (hlocal : ∀ call ∈ visits v root t st, call.Local) : ∃ s, t.subtree? root = some s ∧
      let calls := visits v root t st
      let wanted := (s.postorder.filter fun p => v.wants p.kind).map (·.id)
      wanted.Nodup ∧
      (∀ call ∈ calls, call.node ∈ wanted ∧ ∃ n children, t.get? call.node = some n ∧
        call.before.get? call.node = some { n with children }) ∧
      match (run v root).run (t, st) with
      | .ok changed _ => calls.map (·.node) = wanted ∧ (∀ call ∈ calls, call.error? = none) ∧
        changed = calls.any (·.changed)
      | .error e _ => ∃ earlier last, calls = earlier ++ [last] ∧ calls.map (·.node) <+: wanted ∧
        (∀ call ∈ earlier, call.error? = none) ∧ last.error? = some e := by
  have h := ht.wellFormed
  obtain ⟨n, hn⟩ := Option.isSome_iff_exists.mp hroot
  obtain ⟨s, hs⟩ := h.exists_subtree? hn
  obtain ⟨hshow, rfl⟩ := shows_of_subtree? hs
  refine ⟨s, hs, ?_⟩
  intro calls wanted
  have hids := Shows.nodup_ids h.toLinked s hshow
  have hwanted : wanted.Nodup := by
    refine List.Nodup.sublist (List.Sublist.map _ List.filter_sublist) ?_
    exact ((postorder_perm s).map _).nodup_iff.mpr hids
  have hfinds : ∀ {stop}, Follows t (s.postorder.filter fun p => v.wants p.kind) calls stop →
      ∀ call ∈ calls, call.node ∈ wanted ∧ ∃ n children, t.get? call.node = some n ∧
        call.before.get? call.node = some { n with children } := by
    intro stop hf call hcall
    obtain ⟨p, hp, hnode, parent, children, children', hn, hn'⟩ := hf.finds call hcall
    rw [hnode]
    exact ⟨List.mem_map_of_mem hp, _, children', hn, hn'⟩
  refine ⟨hwanted, ?_⟩
  rw [← run_recording, run_eq]
  rcases run_go_root v h hshow st hlocal with ⟨s', hrun, hf⟩ | ⟨e, s', hrun, hf⟩
  · rw [hrun]
    obtain ⟨hnodes, hok⟩ := hf.all
    exact ⟨hfinds hf, hnodes, hok, rfl⟩
  · rw [hrun]
    exact ⟨hfinds hf, hf.upTo⟩

/-- A method with a block in a block. -/
def nestedBlocks : Tree :=
  [.alloc (.stmt .empty) .dummy [], .alloc (.stmt .block) .dummy [⟨1, 0⟩], .alloc (.stmt .block) .dummy [⟨2, 0⟩],
    .alloc (.method [] .void "m" []) .dummy [⟨3, 0⟩]].foldl Operation.after empty

/-- The inner block is visited first. The outer one is then replaced, and the fresh one is not visited. -/
theorem run_visits_nestedBlocks : nestedBlocks.Reachable ∧ nestedBlocks.contains ⟨4, 0⟩ = true ∧
    (visits Blocks.visitor ⟨4, 0⟩ nestedBlocks ()).map (·.node) = [⟨2, 0⟩, ⟨3, 0⟩] ∧
      (visits Blocks.visitor ⟨4, 0⟩ nestedBlocks ()).any (·.changed) = true := by
  have ht : nestedBlocks.Reachable := .step (.alloc (.method [] .void "m" []) .dummy [⟨3, 0⟩])
    (.step (.alloc (.stmt .block) .dummy [⟨2, 0⟩]) (.step (.alloc (.stmt .block) .dummy [⟨1, 0⟩])
      (.step (.alloc (.stmt .empty) .dummy []) .empty)))
  have hlive : nestedBlocks.contains ⟨4, 0⟩ = true := by decide +kernel
  obtain ⟨s, hs, -, -, hout⟩ := run_visits Blocks.visitor ht hlive ()
    (visits_local (fun id _ st h => Blocks.visitor_local id st h) ht.wellFormed _ ())
  have hwanted : (nestedBlocks.subtree? ⟨4, 0⟩).map (fun s =>
      (s.postorder.filter fun p => Blocks.visitor.wants p.kind).map (·.id)) = some [⟨2, 0⟩, ⟨3, 0⟩] := by
    decide +kernel
  rw [hs, Option.map_some, Option.some_inj] at hwanted
  have hrun : (match (run Blocks.visitor ⟨4, 0⟩).run (nestedBlocks, ()) with
      | .ok changed _ => changed
      | .error _ _ => false) = true := by decide +kernel
  cases hend : (run Blocks.visitor ⟨4, 0⟩).run (nestedBlocks, ()) with
  | ok changed _ =>
    rw [hend] at hout hrun
    exact ⟨ht, hlive, hout.1.trans hwanted, hout.2.2 ▸ hrun⟩
  | error =>
    rw [hend] at hrun
    cases hrun

end Walk

end JavaFold
