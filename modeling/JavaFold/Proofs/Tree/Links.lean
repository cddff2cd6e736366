import JavaFold.Tree.Following
import JavaFold.Proofs.Tree.Census

/-!
# The check of links decides

`Tree.checkLinks` looks at one node after another. Whatever the links are, it finds nothing exactly if the root has no
parent, parents list their children once, children name the node that lists them, and no node is above itself
(`Tree.checkLinks_decides`).

A climb meets the node that it starts from if that node is above itself, however many steps it is given
(`climbsInCircle_of_transGen`). If no node is above itself, the nodes passed on the way up are distinct, so there are
not more of them than nodes in the tree (`climbsInCircle_eq_false`). Where the climb runs into a circle that it does not
start in, only the number of steps stops it; the check that follows the links alone ends for that reason
(`climb?_eq`, `checkLinks?_eq`).
-/

namespace JavaFold

namespace Tree

variable {t : Tree} {id p : NodeId} {n : Node}

/-! ## Going up -/

/-- From a node that `id` is above, a climb meets `id` or runs out of steps. -/
theorem climbsInCircle_of_transGen : ∀ (steps : Nat) {x : NodeId} {n : Node},
    Relation.TransGen t.IsParent id x → t.get? x = some n → t.climbsInCircle id steps n.parent = true
  | steps, x, n, ha, hn => by
    obtain ⟨p, hap, m, hm, hmp⟩ := Relation.TransGen.tail'_iff.mp ha
    rw [hn] at hm
    cases hm
    cases steps with
    | zero => rw [hmp, climbsInCircle]
    | succ steps =>
      rw [hmp, climbsInCircle, Bool.or_eq_true, beq_iff_eq]
      refine Decidable.or_iff_not_imp_left.mpr fun hpid => ?_
      have hap : Relation.TransGen t.IsParent id p :=
        (Relation.reflTransGen_iff_eq_or_transGen.mp hap).resolve_left hpid
      obtain ⟨q, -, k, hk, -⟩ := Relation.TransGen.tail'_iff.mp hap
      rw [hk]
      exact climbsInCircle_of_transGen steps hap hk

/-- Distinct nodes are not more than there are nodes. -/
theorem length_le_occupied {ids : List NodeId} (hd : ids.Nodup) (hl : ∀ x ∈ ids, ∃ n, t.get? x = some n) :
    ids.length ≤ t.occupied := by
  rw [← length_liveIds]
  exact (hd.subperm fun x hx => mem_liveIds.mpr (hl x hx)).length_le

/-- Where no node is above itself and parents are there, a climb ends in time: the nodes passed are distinct. -/
theorem climbsInCircle_eq_false (hacyclic : ∀ x, ¬ Relation.TransGen t.IsParent x x)
    (hlive : ∀ p x, t.IsParent p x → ∃ m, t.get? p = some m) :
    ∀ (steps : Nat) {x : NodeId} {n : Node} (passed : List NodeId), t.get? x = some n → passed.Nodup → id ∈ passed →
      (∀ y ∈ passed, (∃ m, t.get? y = some m) ∧ t.Above x y) → t.occupied < steps + passed.length →
        t.climbsInCircle id steps n.parent = false
  | steps, x, n, passed, hn, hd, hid, hpassed, hsteps => by
    cases hparent : n.parent with
    | none => cases steps <;> rfl
    | some p =>
      have hp : t.IsParent p x := ⟨n, hn, hparent⟩
      have habove : ∀ y ∈ passed, Relation.TransGen t.IsParent p y := fun y hy => .head' hp (hpassed y hy).2
      cases steps with
      | zero =>
        have := length_le_occupied hd fun y hy => (hpassed y hy).1
        omega
      | succ steps =>
        obtain ⟨m, hm⟩ := hlive p x hp
        have hfresh : p ∉ passed := fun hmem => hacyclic p (habove p hmem)
        have hne : p ≠ id := fun e => hfresh (e ▸ hid)
        rw [climbsInCircle, beq_false_of_ne hne, Bool.false_or, hm]
        refine climbsInCircle_eq_false hacyclic hlive steps (p :: passed) hm (List.nodup_cons.mpr ⟨hfresh, hd⟩)
          (List.mem_cons_of_mem _ hid) (List.forall_mem_cons.mpr ⟨⟨⟨m, hm⟩, .refl⟩, fun y hy => ?_⟩)
          (by simp only [List.length_cons]; omega)
        exact ⟨(hpassed y hy).1, (habove y hy).to_reflTransGen⟩

/-! ## The checks -/

theorem checkParent_eq_ok_iff :
    t.checkParent id n = .ok () ↔ ∀ p, n.parent = some p → ∃ m, t.get? p = some m ∧ m.children.count id = 1 := by
  unfold checkParent
  cases hp : n.parent with
  | none => simp
  | some p =>
    cases hm : t.get? p with
    | none => simp [hm]
    | some m =>
      by_cases hcount : m.children.count id = 1 <;> simp [hm, hcount]

theorem checkChildren_eq_ok_iff : ∀ {children : List NodeId}, t.checkChildren id children = .ok () ↔
    ∀ c ∈ children, ∃ m, t.get? c = some m ∧ m.parent = some id
  | [] => by simp [checkChildren]
  | c :: children => by
    rw [checkChildren, List.forall_mem_cons]
    cases hm : t.get? c with
    | none => simp
    | some m =>
      by_cases hp : m.parent = some id
      · simp [hp, checkChildren_eq_ok_iff]
      · simp [hp]

theorem checkNode_eq_ok_iff : t.checkNode id n = .ok () ↔
    t.checkParent id n = .ok () ∧ t.checkChildren id n.children = .ok () ∧
      t.climbsInCircle id (t.live + 1) n.parent = false := by
  unfold checkNode
  cases t.checkParent id n with
  | error e => simp [bind, Except.bind]
  | ok =>
    cases t.checkChildren id n.children with
    | error e => simp [bind, Except.bind]
    | ok => cases t.climbsInCircle id (t.live + 1) n.parent <;> simp [bind, Except.bind, pure, Except.pure]

theorem checkSlots_eq_ok_iff : ∀ {index : Nat} {slots : List Slot}, t.checkSlots index slots = .ok () ↔
    ∀ i slot n, slots[i]? = some slot → slot.node = some n → t.checkNode ⟨index + i, slot.generation⟩ n = .ok ()
  | _, [] => by simp [checkSlots]
  | index, slot :: slots => by
    have hfirst : t.checkSlots index (slot :: slots) = .ok () ↔
        (∀ n, slot.node = some n → t.checkNode ⟨index, slot.generation⟩ n = .ok ()) ∧
          t.checkSlots (index + 1) slots = .ok () := by
      rw [checkSlots]
      cases hn : slot.node with
      | none => simp
      | some n =>
        cases hc : t.checkNode ⟨index, slot.generation⟩ n <;> simp [hc, bind, Except.bind]
    rw [hfirst, checkSlots_eq_ok_iff]
    constructor
    · rintro ⟨hslot, hrest⟩ i s n hs hn
      cases i with
      | zero =>
        cases hs
        exact hslot n hn
      | succ i =>
        have := hrest i s n hs hn
        rwa [Nat.add_right_comm, Nat.add_assoc] at this
    · intro h
      refine ⟨fun n hn => h 0 slot n rfl hn, fun i s n hs hn => ?_⟩
      rw [Nat.add_right_comm, Nat.add_assoc]
      exact h (i + 1) s n hs hn

/-- The check goes over all nodes. -/
theorem checkSlots_toList_eq_ok_iff : t.checkSlots 0 t.slots.toList = .ok () ↔
    ∀ id n, t.get? id = some n → t.checkNode id n = .ok () := by
  rw [checkSlots_eq_ok_iff]
  constructor
  · intro h id n hn
    obtain ⟨slot, hs, hg, hnode⟩ := get?_eq_some_iff.mp hn
    have := h id.index slot n (by simpa using hs) hnode
    rwa [Nat.zero_add, hg] at this
  · intro h i slot n hs hn
    rw [Nat.zero_add]
    exact h _ n (get?_eq_some_iff.mpr ⟨slot, by simpa using hs, rfl, hn⟩)

/-! ## Checking without a bound -/

/-- Checks that end and find the same can follow each other. -/
theorem LinkCheck.run_bind {α β : Type} {x : LinkCheck α} {e : Except BrokenLink α} {f : α → LinkCheck β}
    {g : α → Except BrokenLink β} (hx : x.run = some e) (hf : ∀ a, (f a).run = some (g a)) :
    (x >>= f).run = some (e >>= g) := by
  rw [ExceptT.run_bind, hx]
  cases e with
  | error => rfl
  | ok a => exact hf a

/-- The climb that counts ends, because it counts. -/
theorem climb?_eq (id : NodeId) {passed left : Nat} (h : passed + left = t.live + 1) (next : Option NodeId) :
    t.climb? id passed next = some (t.climbsInCircle id left next) := by
  induction left generalizing passed next with
  | zero =>
    rw [climb?.eq_def]
    cases next with
    | none => rfl
    | some p =>
      have hlt : t.live < passed := by omega
      simp [hlt, climbsInCircle]
  | succ left ih =>
    rw [climb?.eq_def]
    cases next with
    | none => rfl
    | some p =>
      have hle : ¬ t.live < passed := by omega
      by_cases hp : p = id
      · simp [hp, climbsInCircle]
      · simp [hp, hle, climbsInCircle, ih (show passed + 1 + left = t.live + 1 by omega)]

theorem checkNode?_eq (id : NodeId) (n : Node) : (t.checkNode? id n).run = some (t.checkNode id n) := by
  refine LinkCheck.run_bind rfl fun _ => LinkCheck.run_bind rfl fun _ => ?_
  rw [climb?_eq id (Nat.zero_add (t.live + 1)) n.parent]
  cases t.climbsInCircle id (t.live + 1) n.parent <;> rfl

theorem checkSlots?_eq : ∀ (index : Nat) (slots : List Slot),
    (t.checkSlots? index slots).run = some (t.checkSlots index slots)
  | _, [] => rfl
  | index, slot :: slots => by
    rw [checkSlots?, checkSlots]
    cases slot.node with
    | none => exact checkSlots?_eq (index + 1) slots
    | some n => exact LinkCheck.run_bind (checkNode?_eq _ n) fun _ => checkSlots?_eq (index + 1) slots

/-- Following the links alone, the check ends, and finds the same. -/
theorem checkLinks?_eq (t : Tree) : t.checkLinks?.run = some t.checkLinks := by
  unfold checkLinks? checkLinks
  split
  · rfl
  · exact checkSlots?_eq 0 _

/-! ## What is found -/

/-- The root is checked first, then every node. -/
theorem checkLinks_eq_ok_iff (hroot : t.get? t.root = some n) : t.checkLinks = .ok () ↔
    n.parent = none ∧ ∀ id m, t.get? id = some m → t.checkNode id m = .ok () := by
  rw [checkLinks, hroot, Option.bind_some, ← checkSlots_toList_eq_ok_iff]
  cases n.parent <;> simp

/-- Where the links of the nodes are in order one by one and no node is above itself, no climb finds a circle. -/
theorem climbsInCircle_eq_false_of_acyclic (hlive : t.live = t.occupied)
    (hparents : ∀ id n p, t.get? id = some n → n.parent = some p → ∃ m, t.get? p = some m ∧ m.children.count id = 1)
    (hacyclic : ∀ id, ¬ Relation.TransGen t.IsParent id id) (hn : t.get? id = some n) :
    t.climbsInCircle id (t.live + 1) n.parent = false := by
  have hparent : ∀ p x, t.IsParent p x → ∃ m, t.get? p = some m := by
    rintro p x ⟨k, hk, hkp⟩
    exact (hparents x k p hk hkp).imp fun _ hm => hm.1
  refine climbsInCircle_eq_false hacyclic hparent (t.live + 1) [id] hn (List.nodup_singleton id)
    (List.mem_singleton_self id) (fun y hy => ?_) (by rw [hlive, List.length_singleton]; omega)
  rw [List.mem_singleton.mp hy]
  exact ⟨⟨n, hn⟩, .refl⟩

/-- Whatever the links are, the check ends, and it finds nothing exactly if they are in order. -/
theorem checkLinks_decides (t : Tree) (hlive : t.live = t.occupied) (hroot : ∃ n, t.get? t.root = some n) :
    t.checkLinks?.run = some t.checkLinks ∧
    (t.checkLinks = .ok () ↔
      (∃ n, t.get? t.root = some n ∧ n.parent = none) ∧
      (∀ id n p, t.get? id = some n → n.parent = some p → ∃ m, t.get? p = some m ∧ m.children.count id = 1) ∧
      (∀ id n c, t.get? id = some n → c ∈ n.children → ∃ m, t.get? c = some m ∧ m.parent = some id) ∧
      ∀ id, ¬ Relation.TransGen t.IsParent id id) := by
  obtain ⟨r, hr⟩ := hroot
  refine ⟨checkLinks?_eq t, (checkLinks_eq_ok_iff hr).trans ?_⟩
  constructor
  · rintro ⟨hrp, hnodes⟩
    have hnode := fun id n hn => checkNode_eq_ok_iff.mp (hnodes id n hn)
    refine ⟨⟨r, hr, hrp⟩, fun id n p hn => checkParent_eq_ok_iff.mp (hnode id n hn).1 p,
      fun id n c hn => checkChildren_eq_ok_iff.mp (hnode id n hn).2.1 c, fun id hid => ?_⟩
    obtain ⟨p, -, n, hn, -⟩ := Relation.TransGen.tail'_iff.mp hid
    have hclimb := climbsInCircle_of_transGen (t.live + 1) hid hn
    rw [(hnode id n hn).2.2] at hclimb
    cases hclimb
  · rintro ⟨⟨r', hr', hrp⟩, hparents, hchildren, hacyclic⟩
    rw [hr] at hr'
    cases hr'
    refine ⟨hrp, fun id n hn => checkNode_eq_ok_iff.mpr ⟨checkParent_eq_ok_iff.mpr fun p => hparents id n p hn,
      checkChildren_eq_ok_iff.mpr fun c => hchildren id n c hn, ?_⟩⟩
    exact climbsInCircle_eq_false_of_acyclic hlive hparents hacyclic hn

/-- A node below a circle of two others, all of them beside the root. -/
def circleBeside : Tree where
  slots := #[⟨0, some ⟨.unit, .dummy, none, []⟩⟩, ⟨0, some ⟨.stmt .empty, .dummy, some ⟨2, 0⟩, []⟩⟩,
    ⟨0, some ⟨.stmt .block, .dummy, some ⟨3, 0⟩, [⟨1, 0⟩, ⟨3, 0⟩]⟩⟩,
    ⟨0, some ⟨.stmt .block, .dummy, some ⟨2, 0⟩, [⟨2, 0⟩]⟩⟩]
  free := []
  root := ⟨0, 0⟩
  live := 4

/-- The first node after the root only leads into the circle, so its climb is stopped by the number of steps alone. -/
theorem checkLinks_decides_circle : circleBeside.live = circleBeside.occupied ∧
    (∃ n, circleBeside.get? circleBeside.root = some n) ∧ circleBeside.checkLinks ≠ .ok () := by
  refine ⟨rfl, ⟨_, rfl⟩, fun h => ?_⟩
  obtain ⟨-, -, -, hacyclic⟩ := (checkLinks_decides circleBeside rfl ⟨_, rfl⟩).2.mp h
  exact hacyclic ⟨2, 0⟩ (.tail (.single ⟨_, rfl, rfl⟩) ⟨_, rfl, rfl⟩)

end Tree

end JavaFold
