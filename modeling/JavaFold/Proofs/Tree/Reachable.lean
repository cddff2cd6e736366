import JavaFold.Pass.FixedPoint
import JavaFold.Proofs.Tree.Programs

/-!
# Reachable trees

A tree is reachable if it can be made from the empty tree or the tree of a program by edits, passes
and runs of passes with any arguments, whether or not they are refused (`Tree.Reachable`). Every
reachable tree is well-formed (`Tree.Reachable.wellFormed`): each edit keeps a tree well-formed, and
a pass or a run of passes is a sequence of edits, of which any may be the last one (`Keeps`). In a reachable
tree every edit is decided by its demands (`Tree.Reachable.edits_decided`).
-/

namespace JavaFold

/-! ## What is kept from step to step -/

section Keeps

variable {ε S α β : Type} {I : S → Prop}

/-- The state in which a run ends, whether it succeeds or not. -/
def stateOf : EStateM.Result ε S α → S
  | .ok _ s => s
  | .error _ s => s

/-- Running `x` keeps `I`, whether it succeeds or not. -/
def Keeps (I : S → Prop) (x : EStateM ε S α) : Prop := ∀ s, I s → I (stateOf (x.run s))

theorem Keeps.pure (a : α) : Keeps I (Pure.pure a : EStateM ε S α) := fun _ h => h

theorem Keeps.throw (e : ε) : Keeps I (MonadExcept.throw e : EStateM ε S α) := fun _ h => h

theorem Keeps.get : Keeps I (MonadState.get : EStateM ε S S) := fun _ h => h

theorem Keeps.bind {x : EStateM ε S α} {f : α → EStateM ε S β} (hx : Keeps I x)
    (hf : ∀ a, Keeps I (f a)) : Keeps I (x >>= f) := by
  intro s h
  have hs := hx s h
  rw [EStateM.run_bind]
  cases hr : x.run s with
  | ok a s' =>
    rw [hr] at hs
    exact hf a s' hs
  | error e s' =>
    rw [hr] at hs
    exact hs

theorem Keeps.forM {f : α → EStateM ε S PUnit} (hf : ∀ a, Keeps I (f a)) :
    ∀ l : List α, Keeps I (l.forM f)
  | [] => Keeps.pure _
  | a :: l => (hf a).bind fun _ => Keeps.forM hf l

end Keeps

open JavaFold.Tree

/-- An edit that is decided by demands keeps what holds in the end if it succeeds. -/
theorem Edit.Decides.keeps {α : Type} {I : Tree → Prop} {x : Edit α} {demands : Tree → List Demand}
    (h : ∀ t, I t → Edit.Decides x t (demands t) fun _ t' => I t') : Keeps I x := by
  intro t ht
  rcases allMet_or_firstUnmet (demands t) with hall | ⟨e, he⟩
  · obtain ⟨a, t', hx, hi⟩ := (h t ht).done hall
    rw [hx]
    exact hi
  · rw [(h t ht).refused he]
    exact ht

section Passes

variable {σ α : Type}

/-- The tree of a state with a tree is well-formed. -/
def TreeWellFormed (s : Tree × σ) : Prop := s.1.WellFormed

theorem Keeps.lift {x : Edit α} (h : Keeps Tree.WellFormed x) :
    Keeps (TreeWellFormed (σ := σ)) (EditWith.lift x) := by
  rintro ⟨t, s⟩ ht
  have hx := h t ht
  unfold EStateM.run at hx ⊢
  unfold EditWith.lift
  dsimp only
  cases hr : x t with
  | ok a t' =>
    rw [hr] at hx
    exact hx
  | error e t' =>
    rw [hr] at hx
    exact hx

theorem Keeps.alone {x : EditWith Unit α} (h : Keeps TreeWellFormed x) :
    Keeps Tree.WellFormed x.alone := by
  intro t ht
  have hx := h (t, ()) ht
  unfold EStateM.run at hx ⊢
  unfold EditWith.alone
  cases hr : x (t, ()) with
  | ok a s =>
    rw [hr] at hx
    exact hx
  | error e s =>
    rw [hr] at hx
    exact hx

variable {I : Tree × σ → Prop}

theorem Keeps.tree : Keeps I (EditWith.tree : EditWith σ Tree) :=
  Keeps.get.bind fun _ => Keeps.pure _

/-- Taking a node keeps what each visit keeps. -/
theorem Walk.take_keeps {v : Visitor σ} (hv : ∀ id, Keeps I (v.visit id)) (id : NodeId) (expanded : Bool)
    (rest : List (NodeId × Bool)) (changed : Bool) : Keeps I (Walk.take v id expanded rest changed) := by
  refine Keeps.tree.bind fun t => ?_
  cases t.get? id with
  | none => exact Keeps.pure _
  | some node =>
    dsimp only
    split
    · exact Keeps.pure _
    · split
      · refine (hv id).bind fun result => Keeps.tree.bind fun t => ?_
        split
        · exact Keeps.pure _
        · exact (Keeps.throw _).bind fun _ => Keeps.pure _
      · exact Keeps.pure _

/-- A walk keeps what each visit keeps. -/
theorem Walk.go_keeps {v : Visitor σ} (hv : ∀ id, Keeps I (v.visit id)) :
    ∀ (steps : Nat) (pending : List (NodeId × Bool)) (changed : Bool),
      Keeps I (Walk.go v steps pending changed)
  | 0, [], changed | _ + 1, [], changed => Keeps.pure (changed, true)
  | 0, _ :: _, changed => Keeps.pure (changed, false)
  | steps + 1, (id, expanded) :: rest, changed =>
    (Walk.take_keeps hv id expanded rest changed).bind fun next => go_keeps hv steps next.1 next.2

theorem Walk.run_keeps {v : Visitor σ} (hv : ∀ id, Keeps I (v.visit id)) (root : NodeId) :
    Keeps I (Walk.run v root) :=
  Keeps.tree.bind fun _ => (Walk.go_keeps hv _ _ _).bind fun _ => Keeps.pure _

end Passes

namespace Edit

variable {t : Tree} {id : NodeId}

theorem live_keeps (id : NodeId) : Keeps WellFormed (live id) :=
  Decides.keeps fun _ h => live_decides.mono fun _ _ ⟨e, _⟩ => e ▸ h

theorem alloc_keeps (kind : NodeKind) (span : Span) (ids : List NodeId) :
    Keeps WellFormed (alloc kind span ids) :=
  Decides.keeps fun _ h => alloc_decides h kind span ids

theorem takeChildren_keeps (id : NodeId) : Keeps WellFormed (takeChildren id) :=
  Decides.keeps fun _ h => takeChildren_decides h

theorem discard_keeps (id : NodeId) : Keeps WellFormed (discard id) :=
  Decides.keeps fun _ h => discard_decides h

theorem replace_keeps (id new : NodeId) : Keeps WellFormed (replace id new) :=
  Decides.keeps fun _ h => replace_decides h

theorem checkFoldRoot_keeps (id : NodeId) : Keeps WellFormed (checkFoldRoot id) := by
  refine (live_keeps id).bind fun n => ?_
  split
  · exact Keeps.throw _
  · exact Keeps.pure _

end Edit

open Edit

/-! ## Passes -/

namespace Blocks

theorem absorb_keeps (child : NodeId) : Keeps WellFormed (absorb child) := by
  refine (live_keeps child).bind fun n => ?_
  split
  · exact (takeChildren_keeps child).bind fun inner =>
      (discard_keeps child).bind fun _ => Keeps.pure inner
  · exact Keeps.pure _

theorem absorbAll_keeps : ∀ children : List NodeId, Keeps WellFormed (absorbAll children)
  | [] => Keeps.pure _
  | child :: children => (absorb_keeps child).bind fun _ =>
      (absorbAll_keeps children).bind fun _ => Keeps.pure _

theorem visit_keeps (id : NodeId) : Keeps WellFormed (visit id) := by
  refine (live_keeps id).bind fun n => Keeps.get.bind fun t => ?_
  split
  · exact (takeChildren_keeps id).bind fun children => (absorbAll_keeps children).bind fun flat =>
      (alloc_keeps _ _ flat).bind fun fresh => (replace_keeps id fresh).bind fun _ => Keeps.pure _
  · exact Keeps.pure _

theorem fold_keeps (id : NodeId) : Keeps WellFormed (fold id) :=
  (checkFoldRoot_keeps id).bind fun _ =>
    (Walk.run_keeps (fun id => (visit_keeps id).lift) id).alone

end Blocks

namespace Constants

theorem substitute_keeps (r : Replacement) : Keeps WellFormed (substitute r) :=
  (live_keeps r.node).bind fun _ => (alloc_keeps _ _ []).bind fun fresh => replace_keeps _ fresh

theorem visit_keeps (id : NodeId) : Keeps WellFormed (visit id) := by
  refine Keeps.get.bind fun t => ?_
  cases t.subtree? id with
  | none => exact Keeps.throw _
  | some s => exact (Keeps.forM substitute_keeps _).bind fun _ => Keeps.pure _

theorem fold_keeps (id : NodeId) : Keeps WellFormed (fold id) :=
  (checkFoldRoot_keeps id).bind fun _ =>
    (Walk.run_keeps (fun id => (visit_keeps id).lift) id).alone

end Constants

theorem PassKind.fold_keeps (kind : PassKind) (id : NodeId) : Keeps WellFormed (kind.fold id) := by
  cases kind with
  | blockFolding => exact Blocks.fold_keeps id
  | constantPropagation => exact Constants.fold_keeps id

namespace FixedPoint

variable {σ : Type}

theorem sweep_keeps : ∀ passes : List (Pass σ), (∀ p ∈ passes, ∀ id, Keeps TreeWellFormed (p.fold id)) →
    Keeps TreeWellFormed (sweep passes)
  | [], _ => Keeps.pure _
  | p :: passes, h => Keeps.tree.bind fun t =>
      (h p List.mem_cons_self t.root).bind fun _ =>
        (sweep_keeps passes fun q hq => h q (List.mem_cons_of_mem _ hq)).bind fun _ => Keeps.pure _

theorem go_keeps {passes : List (Pass σ)} (h : ∀ p ∈ passes, ∀ id, Keeps TreeWellFormed (p.fold id))
    (maxSweeps : Nat) : ∀ (left : Nat) (report : Report),
      Keeps TreeWellFormed (go passes maxSweeps left report)
  | 0, _ => Keeps.throw _
  | left + 1, report => by
    refine (sweep_keeps passes h).bind fun changed => ?_
    dsimp only
    split
    · exact go_keeps h maxSweeps left _
    · exact Keeps.pure _

/-- Running any of the passes keeps a tree well-formed. -/
theorem run_keeps (kinds : List PassKind) (maxSweeps : Nat) :
    Keeps WellFormed (run (kinds.map PassKind.pass) maxSweeps).alone := by
  refine (go_keeps (fun p hp id => ?_) maxSweeps maxSweeps _).alone
  obtain ⟨kind, -, rfl⟩ := List.mem_map.mp hp
  exact (kind.fold_keeps id).lift

end FixedPoint

/-! ## Reachable trees -/

/-- What can be done to a tree. -/
inductive Operation
  | alloc (kind : NodeKind) (span : Span) (children : List NodeId)
  | deepCopy (id : NodeId)
  | pushChild (parent child : NodeId)
  | insertChild (parent : NodeId) (index : Nat) (child : NodeId)
  | takeChildren (id : NodeId)
  | detach (id : NodeId)
  | discard (id : NodeId)
  | setRoot (id : NodeId)
  | replace (id new : NodeId)
  | fold (pass : PassKind) (id : NodeId)
  | run (passes : List PassKind) (maxSweeps : Nat)

namespace Operation

/-- The tree after an operation, which may have been refused at any step. -/
def after (t : Tree) : Operation → Tree
  | alloc kind span children => stateOf ((Edit.alloc kind span children).run t)
  | deepCopy id => stateOf ((Edit.deepCopy id).run t)
  | pushChild parent child => stateOf ((Edit.pushChild parent child).run t)
  | insertChild parent index child => stateOf ((Edit.insertChild parent index child).run t)
  | takeChildren id => stateOf ((Edit.takeChildren id).run t)
  | detach id => stateOf ((Edit.detach id).run t)
  | discard id => stateOf ((Edit.discard id).run t)
  | setRoot id => stateOf ((Edit.setRoot id).run t)
  | replace id new => stateOf ((Edit.replace id new).run t)
  | fold pass id => stateOf ((pass.fold id).run t)
  | run passes maxSweeps =>
    stateOf ((FixedPoint.run (passes.map PassKind.pass) maxSweeps).alone.run t)

theorem after_wellFormed {t : Tree} (h : t.WellFormed) (op : Operation) :
    (op.after t).WellFormed := by
  cases op with
  | alloc kind span children => exact alloc_keeps kind span children t h
  | deepCopy id => exact Decides.keeps (fun _ h => deepCopy_decides h) t h
  | pushChild parent child => exact Decides.keeps (fun _ h => pushChild_decides h) t h
  | insertChild parent index child => exact Decides.keeps (fun _ h => insertChild_decides h index) t h
  | takeChildren id => exact takeChildren_keeps id t h
  | detach id => exact Decides.keeps (fun _ h => detach_decides h) t h
  | discard id => exact discard_keeps id t h
  | setRoot id => exact Decides.keeps (fun _ h => setRoot_decides h) t h
  | replace id new => exact replace_keeps id new t h
  | fold pass id => exact pass.fold_keeps id t h
  | run passes maxSweeps => exact FixedPoint.run_keeps passes maxSweeps t h

end Operation

namespace Tree

/-- A tree that can be made from an empty one or from a program by any operations. -/
inductive Reachable : Tree → Prop
  | empty : Reachable empty
  | ofUnit (unit : CompilationUnit) : Reachable (ofUnit unit)
  | step {t : Tree} (op : Operation) : Reachable t → Reachable (op.after t)

theorem Reachable.wellFormed {t : Tree} (h : t.Reachable) : t.WellFormed := by
  induction h with
  | empty => exact wellFormed_empty
  | ofUnit unit => exact wellFormed_ofUnit unit
  | step op _ ih => exact op.after_wellFormed ih

/-- The links, the free list and the count of every reachable tree are in order. -/
theorem Reachable.links_in_order {t : Tree} (h : t.Reachable) :
    (∀ id n p, t.get? id = some n → n.parent = some p →
      ∃ m, t.get? p = some m ∧ m.children.count id = 1) ∧
    (∀ id n c, t.get? id = some n → c ∈ n.children →
      (∃ m, t.get? c = some m ∧ m.parent = some id) ∧
      ∀ id' n', t.get? id' = some n' → c ∈ n'.children → id' = id) ∧
    (∀ id, ¬ Relation.TransGen t.IsParent id id) ∧
    (∃ n, t.get? t.root = some n ∧ n.parent = none ∧ n.kind = .unit) ∧
    t.free.Nodup ∧
    (∀ i, i ∈ t.free ↔ ∃ slot, t.slots[i]? = some slot ∧ slot.node = none) ∧
    t.live = t.slots.toList.countP (·.node.isSome) := by
  have hw := h.wellFormed
  refine ⟨fun id n p hn hp => hw.listed hn hp, fun id n c hn hc => ⟨hw.named hn hc, ?_⟩,
    hw.not_transGen_self, hw.root, hw.free_nodup, hw.mem_free, hw.live_eq⟩
  intro id' n' hn' hc'
  exact IsParent.unique (hw.isParent_of_mem hn' hc') (hw.isParent_of_mem hn hc)

/-- A tree with one class, made by two operations. -/
def oneClass : Tree :=
  (Operation.pushChild ⟨0, 0⟩ ⟨1, 0⟩).after ((Operation.alloc (.classDecl [] "A") .dummy []).after empty)

theorem links_in_order_oneClass : oneClass.Reachable ∧
    ∃ m, oneClass.get? ⟨0, 0⟩ = some m ∧ m.children.count ⟨1, 0⟩ = 1 :=
  have h : oneClass.Reachable := .step _ (.step _ .empty)
  ⟨h, h.links_in_order.1 ⟨1, 0⟩ ⟨.classDecl [] "A", .dummy, some ⟨0, 0⟩, []⟩ ⟨0, 0⟩ rfl rfl⟩

/-! ## Refused edits -/

/-- In a reachable tree every edit is decided by its demands, whatever ids it is given. It is refused with the error
of the first demand that is not met, and the tree is exactly as it was; if all are met, it succeeds. -/
theorem Reachable.edits_decided {t : Tree} (h : t.Reachable) :
    (∀ kind span children,
      Decides (Edit.alloc kind span children) t (Demand.adoptees t [] children) fun _ t' => t'.WellFormed) ∧
    (∀ id, Decides (Edit.deepCopy id) t [.live t id] fun _ t' => t'.WellFormed) ∧
    (∀ parent child,
      Decides (Edit.pushChild parent child) t (Demand.adoptable t parent child) fun _ t' => t'.WellFormed) ∧
    (∀ parent index child, Decides (Edit.insertChild parent index child) t
      (Demand.adoptable t parent child ++ [.notPastEnd t parent index]) fun _ t' => t'.WellFormed) ∧
    (∀ id, Decides (Edit.takeChildren id) t [.live t id] fun _ t' => t'.WellFormed) ∧
    (∀ id, Decides (Edit.detach id) t (Demand.attached t id) fun _ t' => t'.WellFormed) ∧
    (∀ id, Decides (Edit.discard id) t (.notRoot t id :: Demand.floating t id) fun _ t' => t'.WellFormed) ∧
    (∀ id, Decides (Edit.setRoot id) t (Demand.floating t id ++ [.isUnit t id]) fun _ t' => t'.WellFormed) ∧
    (∀ id new, Decides (Edit.replace id new) t
      (Demand.attached t id ++ (Demand.floating t new ++ [.notAbove t new id])) fun _ t' => t'.WellFormed) := by
  have hw := h.wellFormed
  exact ⟨alloc_decides hw, fun _ => deepCopy_decides hw, fun _ _ => pushChild_decides hw,
    fun _ index _ => insertChild_decides hw index, fun _ => takeChildren_decides hw, fun _ => detach_decides hw,
    fun _ => discard_decides hw, fun _ => setRoot_decides hw, fun _ _ => replace_decides hw⟩

/-- The root is not floating, so it cannot be put below its class. -/
theorem edits_decided_oneClass : oneClass.Reachable ∧
    (Edit.pushChild ⟨1, 0⟩ ⟨0, 0⟩).run oneClass = .error (.attached ⟨0, 0⟩) oneClass := by
  have h : oneClass.Reachable := .step _ (.step _ .empty)
  refine ⟨h, (h.edits_decided.2.2.1 ⟨1, 0⟩ ⟨0, 0⟩).refused ?_⟩
  refine .tail ⟨_, rfl⟩ (.tail ⟨_, rfl⟩ (.head fun hmet => hmet.1 rfl))

end Tree

end JavaFold
