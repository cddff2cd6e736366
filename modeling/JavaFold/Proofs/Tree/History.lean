import Mathlib.Algebra.GroupWithZero.Nat
import Mathlib.Data.List.Chain
import JavaFold.Proofs.Tree.Generations

/-!
# Histories of trees

A run of operations goes through more trees than it shows: a pass makes and frees nodes many times before
it is done. `history` is the list of all of them, one for each edit, the latest first. It comes from running
the operations with the list beside the tree (`Logged`): the passes are the same as without it, edit by edit
(`Records`).

In a history a slot's generation is the number of times that its node has been freed, wrapped at the last
generation (`Trail.generation`), so that an id whose node has been freed names nothing until the generations
have come round to it again (`Tree.Reachable.stale_stays_stale`).
-/

namespace JavaFold

open JavaFold.Tree

/-! ## Writing the trees down -/

/-- Changing a tree, with the trees gone through beside it, the latest first. -/
abbrev Logged := EditWith (List Tree)

/-- An edit after which its tree is written down. -/
def Edit.logged {α : Type} (x : Edit α) : Logged α := fun (t, trail) =>
  match x t with
  | .ok a t' => .ok a (t', t' :: trail)
  | .error e t' => .error e (t', t' :: trail)

namespace Blocks

/-- `absorb`, with the trees written down. -/
def absorbLogged (child : NodeId) : Logged (List NodeId) := do
  let node ← Edit.live child
  if node.kind.isBlock then
    let inner ← (Edit.takeChildren child).logged
    (Edit.discard child).logged
    return inner
  else
    return [child]

/-- `absorbAll`, with the trees written down. -/
def absorbAllLogged : List NodeId → Logged (List NodeId)
  | [] => return []
  | child :: children => do
    let first ← absorbLogged child
    return first ++ (← absorbAllLogged children)

/-- `visit`, with the trees written down. -/
def visitLogged (id : NodeId) : Logged Visit := do
  let node ← Edit.live id
  let t ← EditWith.tree
  if node.children.any (isNested t) then
    let children ← (Edit.takeChildren id).logged
    let flat ← absorbAllLogged children
    let fresh ← (Edit.alloc (.stmt .block) node.span flat).logged
    (Edit.replace id fresh).logged
    return .replaced fresh
  else
    return .unchanged id

/-- `fold`, with the trees written down. -/
def foldLogged (id : NodeId) : Logged Bool := do
  Edit.checkFoldRoot id
  Walk.run ⟨NodeKind.isBlock, visitLogged⟩ id

end Blocks

namespace Constants

/-- `substitute`, with the trees written down. -/
def substituteLogged (r : Replacement) : Logged Unit := do
  let node ← Edit.live r.node
  let fresh ← (Edit.alloc (.expr (.literal r.value)) node.span []).logged
  (Edit.replace r.node fresh).logged

/-- `visit`, with the trees written down. -/
def visitLogged (id : NodeId) : Logged Visit := do
  let t ← EditWith.tree
  match t.subtree? id with
  | none => throw (.stale id)
  | some s =>
    let found := replacements (fieldsAround t id) s
    found.forM substituteLogged
    return ⟨!found.isEmpty, id⟩

/-- `fold`, with the trees written down. -/
def foldLogged (id : NodeId) : Logged Bool := do
  Edit.checkFoldRoot id
  Walk.run ⟨isMember, visitLogged⟩ id

end Constants

namespace PassKind

/-- `fold`, with the trees written down. -/
def foldLogged : PassKind → NodeId → Logged Bool
  | blockFolding => Blocks.foldLogged
  | constantPropagation => Constants.foldLogged

/-- The pass with the trees written down. -/
def passLogged (kind : PassKind) : Pass (List Tree) := ⟨kind.name, kind.foldLogged⟩

end PassKind

namespace Operation

/-- The operation as an edit, less what it gives back. -/
def edit : Operation → Edit Unit
  | alloc kind span children => do
    let _ ← Edit.alloc kind span children
  | deepCopy id => do
    let _ ← Edit.deepCopy id
  | pushChild parent child => Edit.pushChild parent child
  | insertChild parent index child => Edit.insertChild parent index child
  | takeChildren id => do
    let _ ← Edit.takeChildren id
  | detach id => Edit.detach id
  | discard id => Edit.discard id
  | setRoot id => Edit.setRoot id
  | replace id new => Edit.replace id new
  | fold pass id => do
    let _ ← pass.fold id
  | run passes maxSweeps => do
    let _ ← (FixedPoint.run (passes.map PassKind.pass) maxSweeps).alone

/-- The operation with the trees written down: an edit leaves one tree, a pass one for each of its edits. -/
def logged : Operation → Logged Unit
  | fold pass id => do
    let _ ← pass.foldLogged id
  | run passes maxSweeps => do
    let _ ← FixedPoint.run (passes.map PassKind.passLogged) maxSweeps
  | op => op.edit.logged

/-- The ids that an operation is given. -/
def arguments : Operation → List NodeId
  | alloc _ _ children => children
  | deepCopy id | takeChildren id | detach id | discard id | setRoot id | fold _ id => [id]
  | pushChild parent child | insertChild parent _ child => [parent, child]
  | replace id new => [id, new]
  | run _ _ => []

end Operation

/-- All trees that a run of operations goes through from `t` on, whether or not they are refused, the latest
first. -/
def history (t : Tree) (ops : List Operation) : List Tree :=
  (ops.foldl (fun s op => stateOf (op.logged.run s)) (t, [t])).2

/-! ## The list does not get in the way -/

/-- The list of trees ends in `t`, each of them comes from the one before by an edit, and all are in order. -/
structure Trail (t : Tree) (trail : List Tree) : Prop where
  head : trail.head? = some t
  chain : trail.IsChain fun new old => old.Ageing new
  wellFormed : ∀ u ∈ trail, u.WellFormed

theorem Trail.start {t : Tree} (h : t.WellFormed) : Trail t [t] :=
  ⟨rfl, .singleton t, by simpa using h⟩

theorem Trail.push {t t' : Tree} {trail : List Tree} (h : Trail t trail) (ha : t.Ageing t')
    (hw : t'.WellFormed) : Trail t' (t' :: trail) := by
  refine ⟨rfl, ?_, List.forall_mem_cons.mpr ⟨hw, h.wellFormed⟩⟩
  match trail, h with
  | old :: rest, h =>
    obtain rfl : old = t := Option.some.inj h.head
    exact h.chain.cons_cons ha

/-- The outcome of an edit with a state beside the tree. -/
def beside {α σ : Type} : EStateM.Result TreeError Tree α → σ → EStateM.Result TreeError (Tree × σ) α
  | .ok a t, s => .ok a (t, s)
  | .error e t, s => .error e (t, s)

/-- Running `x` is running `y` with a trail written down. -/
def Records {α : Type} (x : Logged α) (y : Edit α) : Prop :=
  ∀ t trail, Trail t trail → ∃ trail', x.run (t, trail) = beside (y.run t) trail' ∧ Trail (stateOf (y.run t)) trail'

namespace Records

variable {α β : Type} {x : Logged α} {y : Edit α} {f : α → Logged β} {g : α → Edit β}

theorem pure (a : α) : Records (Pure.pure a) (Pure.pure a : Edit α) := fun _ trail h => ⟨trail, rfl, h⟩

theorem throw (e : TreeError) : Records (α := α) (MonadExcept.throw e) (MonadExcept.throw e) :=
  fun _ trail h => ⟨trail, rfl, h⟩

theorem bind (hx : Records x y) (hf : ∀ a, Records (f a) (g a)) : Records (x >>= f) (y >>= g) := by
  intro t trail h
  obtain ⟨trail', hrun, h'⟩ := hx t trail h
  rw [EStateM.run_bind, EStateM.run_bind, hrun]
  cases hy : y.run t with
  | ok a t' =>
    rw [hy] at h'
    exact hf a t' trail' h'
  | error e t' =>
    rw [hy] at h'
    exact ⟨trail', rfl, h'⟩

theorem tree : Records EditWith.tree get := fun _ trail h => ⟨trail, rfl, h⟩

/-- A check is not written down. -/
theorem lift (hy : ∀ {I : Tree → Prop}, Keeps I y) : Records (EditWith.lift y) y := by
  intro t trail h
  have ht : stateOf (y.run t) = t := hy (I := (· = t)) t rfl
  refine ⟨trail, ?_, by rwa [ht]⟩
  show EditWith.lift y (t, trail) = beside (y t) trail
  unfold EditWith.lift
  dsimp only
  cases y t <;> rfl

theorem logged (hw : Keeps WellFormed y) (ha : ∀ t : Tree, t.Ageing (stateOf (y.run t))) : Records y.logged y := by
  intro t trail h
  have ht : t.WellFormed := h.wellFormed t (List.mem_of_head? h.head)
  refine ⟨stateOf (y.run t) :: trail, ?_, h.push (ha t) (hw t ht)⟩
  show y.logged (t, trail) = beside (y t) (stateOf (y t) :: trail)
  unfold Edit.logged
  dsimp only
  cases y t <;> rfl

theorem forM {f : α → Logged PUnit} {g : α → Edit PUnit} (hf : ∀ a, Records (f a) (g a)) :
    ∀ l : List α, Records (l.forM f) (l.forM g)
  | [] => pure _
  | a :: l => (hf a).bind fun _ => forM hf l

end Records

/-! ## Walks and runs of passes -/

namespace EditWith

variable {α β : Type}

theorem alone_bind (x : EditWith Unit α) (f : α → EditWith Unit β) :
    (x >>= f).alone = x.alone >>= fun a => (f a).alone := by
  funext t
  have hbind : (x >>= f) (t, ()) = EStateM.bind x f (t, ()) := rfl
  have hbind' : (x.alone >>= fun a => (f a).alone) t = EStateM.bind x.alone (fun a => (f a).alone) t := rfl
  rw [alone, hbind, hbind', EStateM.bind, EStateM.bind, alone]
  cases x (t, ()) <;> rfl

theorem alone_lift (x : Edit α) : (lift x : EditWith Unit α).alone = x := by
  funext t
  unfold alone lift
  dsimp only
  cases x t <;> rfl

end EditWith

/-- What is recorded of a run with no state. -/
abbrev RecordsAlone {α : Type} (x : Logged α) (y : EditWith Unit α) : Prop := Records x y.alone

namespace RecordsAlone

variable {α β : Type} {x : Logged α} {y : EditWith Unit α} {f : α → Logged β} {g : α → EditWith Unit β}

theorem pure (a : α) : RecordsAlone (Pure.pure a) (Pure.pure a) := Records.pure a

theorem throw (e : TreeError) : RecordsAlone (α := α) (MonadExcept.throw e) (MonadExcept.throw e) :=
  Records.throw e

theorem tree : RecordsAlone EditWith.tree EditWith.tree := Records.tree

theorem bind (hx : RecordsAlone x y) (hf : ∀ a, RecordsAlone (f a) (g a)) :
    RecordsAlone (x >>= f) (y >>= g) := by
  rw [RecordsAlone, EditWith.alone_bind]
  exact Records.bind hx hf

theorem lift {y : Edit α} (h : Records x y) : RecordsAlone x (EditWith.lift y) := by
  rw [RecordsAlone, EditWith.alone_lift]
  exact h

end RecordsAlone

namespace Walk

variable {wants : NodeKind → Bool} {visitLogged : NodeId → Logged Visit} {visit : NodeId → EditWith Unit Visit}

theorem take_records (h : ∀ id, RecordsAlone (visitLogged id) (visit id)) (id : NodeId) (expanded : Bool)
    (rest : List (NodeId × Bool)) (changed : Bool) :
    RecordsAlone (take ⟨wants, visitLogged⟩ id expanded rest changed)
      (take ⟨wants, visit⟩ id expanded rest changed) := by
  refine RecordsAlone.tree.bind fun t => ?_
  cases t.get? id with
  | none => exact .pure _
  | some node =>
    dsimp only
    split
    · exact .pure _
    · split
      · refine (h id).bind fun result => RecordsAlone.tree.bind fun t => ?_
        split
        · exact .pure _
        · exact (RecordsAlone.throw _).bind fun _ => .pure _
      · exact .pure _

theorem go_records (h : ∀ id, RecordsAlone (visitLogged id) (visit id)) :
    ∀ (steps : Nat) (pending : List (NodeId × Bool)) (changed : Bool),
      RecordsAlone (go ⟨wants, visitLogged⟩ steps pending changed) (go ⟨wants, visit⟩ steps pending changed)
  | 0, [], changed | _ + 1, [], changed => .pure (changed, true)
  | 0, _ :: _, changed => .pure (changed, false)
  | steps + 1, (id, expanded) :: rest, changed =>
    (take_records h id expanded rest changed).bind fun next => go_records h steps next.1 next.2

theorem run_records (h : ∀ id, RecordsAlone (visitLogged id) (visit id)) (root : NodeId) :
    RecordsAlone (run ⟨wants, visitLogged⟩ root) (run ⟨wants, visit⟩ root) :=
  RecordsAlone.tree.bind fun _ => (go_records h _ _ _).bind fun _ => .pure _

end Walk

namespace Edit

theorem live_records (id : NodeId) : Records (live id) (live id) := .lift (keeps_live id)

theorem checkFoldRoot_records (id : NodeId) : Records (checkFoldRoot id) (checkFoldRoot id) :=
  .lift (keeps_checkFoldRoot id)

theorem alloc_records (kind : NodeKind) (span : Span) (ids : List NodeId) :
    Records (alloc kind span ids).logged (alloc kind span ids) :=
  .logged (alloc_keeps kind span ids) (ageing_of_using fun _ => using_alloc kind span ids)

theorem takeChildren_records (id : NodeId) : Records (takeChildren id).logged (takeChildren id) :=
  .logged (takeChildren_keeps id) (ageing_of_using fun _ => using_takeChildren id)

theorem discard_records (id : NodeId) : Records (discard id).logged (discard id) :=
  .logged (discard_keeps id) (ageing_of_leads fun _ => leads_discard id)

theorem replace_records (id new : NodeId) : Records (replace id new).logged (replace id new) :=
  .logged (replace_keeps id new) (ageing_of_leads fun _ => leads_replace id new)

end Edit

open Edit

namespace Blocks

theorem absorb_records (child : NodeId) : Records (absorbLogged child) (absorb child) := by
  refine (live_records child).bind fun n => ?_
  split
  · exact (takeChildren_records child).bind fun inner => (discard_records child).bind fun _ => .pure inner
  · exact .pure _

theorem absorbAll_records : ∀ children : List NodeId, Records (absorbAllLogged children) (absorbAll children)
  | [] => .pure _
  | child :: children => (absorb_records child).bind fun _ =>
      (absorbAll_records children).bind fun _ => .pure _

theorem visit_records (id : NodeId) : Records (visitLogged id) (visit id) := by
  refine (live_records id).bind fun n => Records.tree.bind fun t => ?_
  split
  · exact (takeChildren_records id).bind fun children => (absorbAll_records children).bind fun flat =>
      (alloc_records _ _ flat).bind fun fresh => (replace_records id fresh).bind fun _ => .pure _
  · exact .pure _

theorem fold_records (id : NodeId) : Records (foldLogged id) (fold id) :=
  (checkFoldRoot_records id).bind fun _ => Walk.run_records (fun id => .lift (visit_records id)) id

end Blocks

namespace Constants

theorem substitute_records (r : Replacement) : Records (substituteLogged r) (substitute r) :=
  (live_records r.node).bind fun _ => (alloc_records _ _ []).bind fun fresh => replace_records _ fresh

theorem visit_records (id : NodeId) : Records (visitLogged id) (visit id) := by
  refine Records.tree.bind fun t => ?_
  cases t.subtree? id with
  | none => exact .throw _
  | some s => exact (Records.forM substitute_records _).bind fun _ => .pure _

theorem fold_records (id : NodeId) : Records (foldLogged id) (fold id) :=
  (checkFoldRoot_records id).bind fun _ => Walk.run_records (fun id => .lift (visit_records id)) id

end Constants

theorem PassKind.fold_records (kind : PassKind) (id : NodeId) : Records (kind.foldLogged id) (kind.fold id) := by
  cases kind with
  | blockFolding => exact Blocks.fold_records id
  | constantPropagation => exact Constants.fold_records id

namespace FixedPoint

theorem sweep_records : ∀ kinds : List PassKind,
    RecordsAlone (sweep (kinds.map PassKind.passLogged)) (sweep (kinds.map PassKind.pass))
  | [] => .pure _
  | kind :: kinds => RecordsAlone.tree.bind fun t => (RecordsAlone.lift (kind.fold_records t.root)).bind fun _ =>
      (sweep_records kinds).bind fun _ => .pure _

theorem go_records (kinds : List PassKind) (maxSweeps : Nat) : ∀ (left : Nat) (report : Report),
    RecordsAlone (go (kinds.map PassKind.passLogged) maxSweeps left report)
      (go (kinds.map PassKind.pass) maxSweeps left report)
  | 0, _ => .throw _
  | left + 1, report => by
    refine (sweep_records kinds).bind fun changed => ?_
    dsimp only
    split
    · exact go_records kinds maxSweeps left _
    · exact .pure _

theorem run_records (kinds : List PassKind) (maxSweeps : Nat) :
    RecordsAlone (run (kinds.map PassKind.passLogged) maxSweeps) (run (kinds.map PassKind.pass) maxSweeps) := by
  unfold run
  rw [List.map_map, List.map_map]
  exact go_records kinds maxSweeps maxSweeps _

end FixedPoint

/-! ## Operations -/

theorem stateOf_discard {α : Type} (x : Edit α) (t : Tree) :
    stateOf ((do let _ ← x : Edit Unit).run t) = stateOf (x.run t) := by
  rw [EStateM.run_bind]
  cases x.run t <;> rfl

namespace Operation

theorem after_eq (op : Operation) (t : Tree) : op.after t = stateOf (op.edit.run t) := by
  cases op with
  | pushChild | insertChild | detach | discard | setRoot | replace => rfl
  | alloc | deepCopy | takeChildren | fold | run => exact (stateOf_discard _ t).symm

theorem edit_keeps (op : Operation) : Keeps WellFormed op.edit := by
  intro t h
  rw [← after_eq]
  exact op.after_wellFormed h

theorem logged_records (op : Operation) : Records op.logged op.edit := by
  cases op with
  | alloc kind span ids =>
    refine .logged (edit_keeps _) (ageing_of_using fun _ => ?_)
    exact (using_alloc kind span ids).bind fun _ => Keeps.pure _
  | deepCopy id =>
    refine .logged (edit_keeps _) (ageing_of_using fun _ => ?_)
    exact (using_deepCopy id).bind fun _ => Keeps.pure _
  | pushChild p c => exact .logged (edit_keeps _) (ageing_of_using fun _ => using_pushChild p c)
  | insertChild p index c =>
    exact .logged (edit_keeps _) (ageing_of_using fun _ => using_insertChild p index c)
  | takeChildren id =>
    refine .logged (edit_keeps _) (ageing_of_using fun _ => ?_)
    exact (using_takeChildren id).bind fun _ => Keeps.pure _
  | detach id => exact .logged (edit_keeps _) (ageing_of_using fun _ => using_detach id)
  | discard id => exact .logged (edit_keeps _) (ageing_of_leads fun _ => leads_discard id)
  | setRoot id => exact .logged (edit_keeps _) (ageing_of_leads fun _ => leads_setRoot id)
  | replace id new => exact .logged (edit_keeps _) (ageing_of_leads fun _ => leads_replace id new)
  | fold pass id => exact (pass.fold_records id).bind fun _ => .pure _
  | run passes maxSweeps => exact Records.bind (FixedPoint.run_records passes maxSweeps) fun _ => .pure _

end Operation

/-- Running operations with the trees written down is running them. -/
theorem foldl_logged (ops : List Operation) {t : Tree} {trail : List Tree} (h : Trail t trail) :
    ∃ trail', ops.foldl (fun s op => stateOf (op.logged.run s)) (t, trail) =
      (ops.foldl Operation.after t, trail') ∧ Trail (ops.foldl Operation.after t) trail' := by
  induction ops generalizing t trail with
  | nil => exact ⟨trail, rfl, h⟩
  | cons op ops ih =>
    obtain ⟨trail', hrun, h'⟩ := op.logged_records t trail h
    rw [← Operation.after_eq] at h'
    rw [List.foldl_cons, List.foldl_cons, hrun]
    have hstate : stateOf (beside (op.edit.run t) trail') = (op.after t, trail') := by
      rw [Operation.after_eq]
      cases op.edit.run t <;> rfl
    rw [hstate]
    exact ih h'

theorem trail_history {t : Tree} (h : t.WellFormed) (ops : List Operation) :
    Trail (ops.foldl Operation.after t) (history t ops) := by
  obtain ⟨trail, hrun, htrail⟩ := foldl_logged ops (Trail.start h)
  rw [history, hrun]
  exact htrail

/-! ## Refused operations -/

namespace Demand

variable {t : Tree} {id : NodeId}

theorem live_mem_floating (t : Tree) (id : NodeId) : live t id ∈ floating t id := List.mem_cons_self

theorem live_mem_adoptees : ∀ (seen : List NodeId) {ids : List NodeId}, id ∈ ids →
    live t id ∈ adoptees t seen ids
  | seen, c :: ids, hm => by
    rw [adoptees, List.mem_append, List.mem_cons]
    rcases List.mem_cons.mp hm with rfl | hm
    · exact .inl (live_mem_floating t id)
    · exact .inr (.inr (live_mem_adoptees _ hm))

theorem live_mem_adoptable {p c : NodeId} (hm : id ∈ [p, c]) : live t id ∈ adoptable t p c := by
  rw [adoptable, List.mem_cons, List.mem_append]
  rcases List.mem_pair.mp hm with rfl | rfl
  · exact .inl rfl
  · exact .inr (.inl (live_mem_floating t id))

end Demand

namespace Operation

variable {t : Tree} {id : NodeId}

/-- An edit that demands a node that has been freed is refused, and nothing is changed. -/
theorem refused_of_live_mem {α : Type} {x : Edit α} {ds : List Demand} {R : α → Tree → Prop}
    (h : Edit.Decides x t ds R) (hid : t.get? id = none) (hm : Demand.live t id ∈ ds) :
    ∃ e, x.run t = .error e t := by
  rcases allMet_or_firstUnmet ds with hall | ⟨e, he⟩
  · obtain ⟨n, hn⟩ := hall _ hm
    rw [hid] at hn
    cases hn
  · exact ⟨e, h.refused he⟩

theorem refused_discard {α : Type} {x : Edit α} (h : ∃ e, x.run t = .error e t) :
    ∃ e, (do let _ ← x : Edit Unit).run t = .error e t := by
  obtain ⟨e, he⟩ := h
  exact ⟨e, by rw [EStateM.run_bind, he]⟩

theorem refused_fold (hid : t.get? id = none) (pass : PassKind) : ∃ e, (pass.fold id).run t = .error e t := by
  refine ⟨.stale id, ?_⟩
  cases pass <;> simp [PassKind.fold, Blocks.fold, Constants.fold, checkFoldRoot, run_live_stale hid]

/-- Every operation that is given the id of a node that has been freed is refused, and nothing is changed. -/
theorem refused_of_stale (h : t.WellFormed) (hid : t.get? id = none) (op : Operation)
    (hm : id ∈ op.arguments) : ∃ e, op.edit.run t = .error e t := by
  have hone {j : NodeId} (hm : id ∈ [j]) : j = id := (List.mem_singleton.mp hm).symm
  cases op with
  | alloc kind span ids =>
    exact refused_discard (refused_of_live_mem (alloc_decides h kind span ids) hid
      (Demand.live_mem_adoptees [] hm))
  | deepCopy j =>
    obtain rfl := hone hm
    exact refused_discard (refused_of_live_mem (deepCopy_decides h) hid List.mem_cons_self)
  | pushChild p c => exact refused_of_live_mem (pushChild_decides h) hid (Demand.live_mem_adoptable hm)
  | insertChild p index c =>
    exact refused_of_live_mem (insertChild_decides h index) hid
      (List.mem_append_left _ (Demand.live_mem_adoptable hm))
  | takeChildren j =>
    obtain rfl := hone hm
    exact refused_discard (refused_of_live_mem (takeChildren_decides h) hid List.mem_cons_self)
  | detach j =>
    obtain rfl := hone hm
    exact refused_of_live_mem (detach_decides h) hid List.mem_cons_self
  | discard j =>
    obtain rfl := hone hm
    exact refused_of_live_mem (discard_decides h) hid
      (List.mem_cons_of_mem _ (Demand.live_mem_floating t j))
  | setRoot j =>
    obtain rfl := hone hm
    exact refused_of_live_mem (setRoot_decides h) hid
      (List.mem_append_left _ (Demand.live_mem_floating t j))
  | replace j new =>
    refine refused_of_live_mem (replace_decides h) hid ?_
    rcases List.mem_pair.mp hm with rfl | rfl
    · exact List.mem_append_left _ List.mem_cons_self
    · exact List.mem_append_right _ (List.mem_append_left _ (Demand.live_mem_floating t id))
  | fold pass j =>
    obtain rfl := hone hm
    exact refused_discard (refused_fold hid pass)
  | run passes maxSweeps => cases hm

end Operation

/-! ## How often a slot is freed -/

/-- Whether the node in a slot of the one tree has been freed in the other. -/
def frees (i : Nat) (t t' : Tree) : Bool :=
  match t.slots[i]? with
  | some ⟨generation, some _⟩ => !t'.contains ⟨i, generation⟩
  | _ => false

/-- How often the node in a slot has been freed in a history, the latest tree first. -/
def timesFreed (i : Nat) : List Tree → Nat
  | new :: old :: trail => timesFreed i (old :: trail) + (frees i old new).toNat
  | _ => 0

theorem timesFreed_le_of_suffix {i : Nat} {l l' : List Tree} (h : l <:+ l') :
    timesFreed i l ≤ timesFreed i l' := by
  induction l' with
  | nil => rw [List.suffix_nil.mp h]
  | cons t l' ih =>
    rcases List.suffix_cons_iff.mp h with rfl | h
    · exact Nat.le_refl _
    · refine (ih h).trans ?_
      cases l' with
      | nil => exact Nat.zero_le _
      | cons u l' => exact Nat.le_add_right _ _

section

variable {i : Nat} {t t' : Tree} {s : Slot}

/-- An edit leaves the generation of a slot, or frees its node and moves the generation on by one. -/
theorem Tree.Slotwise.frees (h : t.Ageing t') (hs : t.slots[i]? = some s) :
    ∃ s', t'.slots[i]? = some s' ∧ s'.generation = s.generation + UInt32.ofNat (frees i t t').toNat ∧
      (frees i t t' = false → s.node.isSome = true → s'.node.isSome = true) := by
  obtain ⟨s', hs', hslot⟩ := h i s hs
  refine ⟨s', hs', ?_⟩
  obtain ⟨generation, node⟩ := s
  rcases hslot with ⟨hg, hn⟩ | ⟨hn, hg⟩
  · have hfrees : JavaFold.frees i t t' = false := by
      unfold JavaFold.frees
      rw [hs]
      cases node with
      | none => rfl
      | some n =>
        obtain ⟨n', hn'⟩ := Option.isSome_iff_exists.mp (hn rfl)
        have hget : t'.get? ⟨i, generation⟩ = some n' := get?_eq_some_iff.mpr ⟨s', hs', hg, hn'⟩
        simp [contains_of_get? hget]
    rw [hfrees]
    exact ⟨by simp [hg], fun _ => hn⟩
  · have hfrees : JavaFold.frees i t t' = true := by
      obtain ⟨n, rfl⟩ := Option.isSome_iff_exists.mp hn
      unfold JavaFold.frees
      rw [hs]
      have hget : t'.get? ⟨i, generation⟩ = none := by
        simp [get?, hs', hg]
      simp [contains, hget]
    rw [hfrees]
    exact ⟨hg, fun h => absurd h (by decide)⟩

/-- The generation of a slot counts how often its node has been freed; a node that has not been freed is still
there. -/
theorem generation_of_chain {seen : Tree} (hs : seen.slots[i]? = some s) : ∀ (rest : List Tree) (now : Tree),
    (now :: rest).IsChain (fun new old => old.Ageing new) → (now :: rest).getLast? = some seen →
      ∃ s', now.slots[i]? = some s' ∧
        s'.generation = s.generation + UInt32.ofNat (timesFreed i (now :: rest)) ∧
        (timesFreed i (now :: rest) = 0 → s.node.isSome = true → s'.node.isSome = true)
  | [], now, _, hlast => by
    obtain rfl : now = seen := Option.some.inj hlast
    exact ⟨s, hs, by simp [timesFreed], fun _ hn => hn⟩
  | old :: rest, now, hchain, hlast => by
    obtain ⟨hage, hchain⟩ := List.isChain_cons_cons.mp hchain
    rw [List.getLast?_cons_cons] at hlast
    obtain ⟨s₁, hs₁, hg₁, hn₁⟩ := generation_of_chain hs rest old hchain hlast
    obtain ⟨s', hs', hg', hn'⟩ := Slotwise.frees hage hs₁
    refine ⟨s', hs', ?_, fun hzero hn => ?_⟩
    · rw [hg', hg₁, timesFreed, UInt32.ofNat_add, UInt32.add_assoc]
    · rw [timesFreed, Nat.add_eq_zero_iff, Bool.toNat_eq_zero] at hzero
      exact hn' hzero.2 (hn₁ hzero.1 hn)

end

theorem add_ofNat_ne {c : Nat} (hpos : 0 < c) (hlt : c < 2 ^ 32) (g : UInt32) : g + UInt32.ofNat c ≠ g := by
  intro h
  have hnat := congrArg UInt32.toNat h
  rw [UInt32.toNat_add, UInt32.toNat_ofNat'] at hnat
  have := g.toNat_lt
  omega

/-- An id that named a node and has stopped naming it names nothing, until its slot has been freed as often as
there are generations. -/
theorem get?_of_freed {now seen : Tree} {between : List Tree} {id : NodeId}
    (hchain : (now :: (between ++ [seen])).IsChain fun new old => old.Ageing new)
    (hseen : seen.contains id = true) (hfreed : ∃ u ∈ now :: between, u.contains id = false)
    (hlt : timesFreed id.index (now :: (between ++ [seen])) < 2 ^ 32) : now.get? id = none := by
  obtain ⟨n, hn⟩ := contains_iff.mp hseen
  obtain ⟨s, hs, hg, hsn⟩ := get?_eq_some_iff.mp hn
  have hsome : s.node.isSome = true := Option.isSome_iff_exists.mpr ⟨n, hsn⟩
  have hlast : ∀ l : List Tree, (l ++ [seen]).getLast? = some seen := fun l => by simp
  -- As long as the slot has not been freed at all, the node is still there.
  have hpos : 0 < timesFreed id.index (now :: (between ++ [seen])) := by
    by_contra hzero
    obtain ⟨u, hu, hnot⟩ := hfreed
    obtain ⟨l₁, l₂, hsplit⟩ := List.append_of_mem hu
    have hsuffix : u :: (l₂ ++ [seen]) <:+ now :: (between ++ [seen]) := by
      refine ⟨l₁, ?_⟩
      rw [← List.cons_append, ← List.cons_append, hsplit, List.append_assoc]
    obtain ⟨s', hs', hg', hn'⟩ := generation_of_chain hs (l₂ ++ [seen]) u (hchain.suffix hsuffix) (hlast (u :: l₂))
    have hzero' : timesFreed id.index (u :: (l₂ ++ [seen])) = 0 := by
      have := timesFreed_le_of_suffix (i := id.index) hsuffix
      omega
    obtain ⟨n', hnode⟩ := Option.isSome_iff_exists.mp (hn' hzero' hsome)
    have hgen : s'.generation = id.generation := by simp [hg', hzero', hg]
    rw [contains_of_get? (get?_eq_some_iff.mpr ⟨s', hs', hgen, hnode⟩)] at hnot
    cases hnot
  obtain ⟨s', hs', hg', -⟩ := generation_of_chain hs (between ++ [seen]) now hchain (hlast (now :: between))
  have hne : s'.generation ≠ id.generation := by
    rw [hg', hg]
    exact add_ofNat_ne hpos hlt _
  simp [get?, hs', hne]

/-- An id does not come back. In a run of operations from a reachable tree, let `seen` be any tree in which an id
names a node, `now` any later one, and let the id have named nothing somewhere between. As long as the slot has
been freed less often than there are generations, the id names nothing in `now`, and every operation that is given
it is refused there and changes nothing. -/
theorem Tree.Reachable.stale_stays_stale {t : Tree} (h : t.Reachable) (ops : List Operation) :
    (history t ops).head? = some (ops.foldl Operation.after t) ∧
    ∀ (id : NodeId) (later between earlier : List Tree) (now seen : Tree),
      history t ops = later ++ now :: (between ++ seen :: earlier) → seen.contains id = true →
      (∃ u ∈ now :: between, u.contains id = false) →
      timesFreed id.index (now :: (between ++ [seen])) < 2 ^ 32 →
        now.get? id = none ∧ now.contains id = false ∧
          ∀ op : Operation, id ∈ op.arguments → ∃ e, op.edit.run now = .error e now := by
  have htrail := trail_history h.wellFormed ops
  refine ⟨htrail.head, fun id later between earlier now seen hsplit hseen hfreed hlt => ?_⟩
  have hpart : now :: (between ++ [seen]) <:+: history t ops := ⟨later, earlier, by simp [hsplit]⟩
  have hchain := List.IsChain.infix htrail.chain hpart
  have hid : now.get? id = none := get?_of_freed hchain hseen hfreed hlt
  have hnow : now.WellFormed := htrail.wellFormed now (hpart.mem List.mem_cons_self)
  exact ⟨hid, by simp [contains, hid], fun op hm => op.refused_of_stale hnow hid hm⟩

/-- A block is made and freed, and an empty statement is made in its slot. The id of the block names nothing and
cannot be freed again. -/
theorem stale_stays_stale_reused :
    let ops : List Operation := [.alloc (.stmt .block) .dummy [], .discard ⟨1, 0⟩, .alloc (.stmt .empty) .dummy []]
    let now := ops.foldl Operation.after empty
    empty.Reachable ∧ now.contains ⟨1, 1⟩ = true ∧ now.contains ⟨1, 0⟩ = false ∧
      ∃ e, (Operation.discard ⟨1, 0⟩).edit.run now = .error e now := by
  refine ⟨.empty, rfl, ?_⟩
  have h := (Reachable.stale_stays_stale .empty
    [.alloc (.stmt .block) .dummy [], .discard ⟨1, 0⟩, .alloc (.stmt .empty) .dummy []]).2 ⟨1, 0⟩ [] [_] [_] _ _
      rfl rfl ⟨_, List.mem_cons_of_mem _ List.mem_cons_self, rfl⟩ (by decide)
  exact ⟨h.2.1, h.2.2 _ List.mem_cons_self⟩

end JavaFold
