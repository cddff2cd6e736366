import Mathlib.Logic.Relation
import Mathlib.Order.WellFounded
import Mathlib.Data.List.Nodup
import Mathlib.Data.List.Perm.Subperm
import JavaFold.Proofs.Tree.Slots

/-!
# Well-formed trees

`Tree.Linked` says that the links of a tree are in order: parents and children name each other, each
child is listed once, going up from a node ends, and the root is a compilation unit without a parent.
`Tree.WellFormed` adds that the slots are in order (`Tree.Stored`).

Going up or down from a node meets each node at most once, so it takes fewer steps than there are
slots. Hence the two bounded searches of a tree find all there is: `Tree.isAncestor` is the relation
of being above (`isAncestor_iff`), and `Tree.subtree?` finds the tree at every node
(`Linked.subtree?_of_shows`, `Linked.exists_subtree?`).
-/

namespace JavaFold

namespace Tree

variable {t : Tree} {id p c x a : NodeId} {n m : Node}

/-- The node `c` names `p` as its parent. -/
def IsParent (t : Tree) (p c : NodeId) : Prop := ∃ n, t.get? c = some n ∧ n.parent = some p

/-- `a` is `x`, or above it. -/
abbrev Above (t : Tree) : NodeId → NodeId → Prop := Relation.ReflTransGen t.IsParent

/-- The links of a tree are in order. -/
structure Linked (t : Tree) : Prop where
  /-- The parent of a node lists it exactly once. -/
  listed {id p : NodeId} {n : Node} : t.get? id = some n → n.parent = some p →
    ∃ m, t.get? p = some m ∧ m.children.count id = 1
  /-- A listed child names the node that lists it as its parent. -/
  named {id c : NodeId} {n : Node} : t.get? id = some n → c ∈ n.children →
    ∃ m, t.get? c = some m ∧ m.parent = some id
  /-- Going up from parent to parent ends. -/
  climbs (id : NodeId) : Acc t.IsParent id
  root : ∃ n, t.get? t.root = some n ∧ n.parent = none ∧ n.kind = .unit

/-- The slots and the links of a tree are in order. -/
structure WellFormed (t : Tree) : Prop extends Stored t, Linked t

theorem IsParent.live (h : t.IsParent p c) : ∃ n, t.get? c = some n := h.imp fun _ hn => hn.1

theorem IsParent.unique {q : NodeId} (hp : t.IsParent p c) (hq : t.IsParent q c) : p = q := by
  obtain ⟨n, hn, hnp⟩ := hp
  obtain ⟨m, hm, hmq⟩ := hq
  rw [hn] at hm
  cases hm
  exact Option.some.inj (hnp.symm.trans hmq)

namespace Linked

theorem isParent_of_mem (h : t.Linked) (hn : t.get? id = some n) (hc : c ∈ n.children) :
    t.IsParent id c := h.named hn hc

theorem mem_of_isParent (h : t.Linked) (hp : t.IsParent p c) :
    ∃ m, t.get? p = some m ∧ c ∈ m.children := by
  obtain ⟨n, hn, hnp⟩ := hp
  obtain ⟨m, hm, hcount⟩ := h.listed hn hnp
  exact ⟨m, hm, List.count_pos_iff.mp (by omega)⟩

theorem nodup_children (h : t.Linked) (hn : t.get? id = some n) : n.children.Nodup := by
  refine List.nodup_iff_count_le_one.mpr fun c => ?_
  by_cases hc : c ∈ n.children
  · obtain ⟨m, hm, hmp⟩ := h.named hn hc
    obtain ⟨n', hn', hcount⟩ := h.listed hm hmp
    rw [hn] at hn'
    cases hn'
    omega
  · rw [List.count_eq_zero_of_not_mem hc]
    omega

/-- No node is above itself. -/
theorem not_transGen_self (h : t.Linked) (id : NodeId) : ¬ Relation.TransGen t.IsParent id id := by
  have wf : WellFounded t.IsParent := ⟨h.climbs⟩
  exact wf.transGen.irrefl.irrefl id

theorem ne_of_isParent (h : t.Linked) (hp : t.IsParent p c) : p ≠ c := by
  rintro rfl
  exact h.not_transGen_self p (.single hp)

theorem not_above_of_isParent (h : t.Linked) (hp : t.IsParent p c) : ¬ t.Above c p := fun ha =>
  h.not_transGen_self c (.tail' ha hp)

theorem above_antisymm (h : t.Linked) (hp : t.Above p c) (hc : t.Above c p) : p = c := by
  rcases Relation.reflTransGen_iff_eq_or_transGen.mp hp with e | hp
  · exact e.symm
  · exact absurd (hp.trans_left hc) (h.not_transGen_self p)

end Linked

/-- A node above `x` other than `x` is above the parent of `x`. -/
theorem above_parent (ha : t.Above a x) (hne : a ≠ x) (hp : t.IsParent p x) : t.Above a p := by
  rcases Relation.ReflTransGen.cases_tail ha with e | ⟨q, haq, hq⟩
  · exact absurd e.symm hne
  · exact hp.unique hq ▸ haq

/-! ## Bounded searches -/

/-- Distinct nodes are not more than there are slots. -/
theorem length_le_size {ids : List NodeId} (hd : ids.Nodup)
    (hl : ∀ id ∈ ids, ∃ n, t.get? id = some n) : ids.length ≤ t.slots.size := by
  have hmap : (ids.map NodeId.index).Nodup := by
    refine List.Nodup.map_on (fun a ha b hb e => ?_) hd
    obtain ⟨n, hn⟩ := hl a ha
    obtain ⟨m, hm⟩ := hl b hb
    exact eq_of_index_eq hn hm e
  have hsub : ids.map NodeId.index ⊆ List.range t.slots.size := by
    intro i hi
    obtain ⟨a, ha, rfl⟩ := List.mem_map.mp hi
    obtain ⟨n, hn⟩ := hl a ha
    exact List.mem_range.mpr (index_lt hn)
  simpa using (hmap.subperm hsub).length_le

theorem above_of_isAncestorWithin :
    ∀ (steps : Nat) (id : NodeId), t.isAncestorWithin a steps id = true → t.Above a id
  | 0, id, h => by
    rw [isAncestorWithin, beq_iff_eq] at h
    exact h ▸ .refl
  | steps + 1, id, h => by
    rw [isAncestorWithin, Bool.or_eq_true, beq_iff_eq] at h
    rcases h with rfl | h
    · exact .refl
    · split at h
      · cases h
      · next n hn =>
        split at h
        · cases h
        · next p hp => exact (above_of_isAncestorWithin steps p h).tail ⟨n, hn, hp⟩

/-- Going up finds whatever is above: the nodes passed are distinct, so the steps do not run out. -/
theorem isAncestorWithin_of_above (h : t.Linked) :
    ∀ (steps : Nat) (id : NodeId) (passed : List NodeId), passed.Nodup →
      (∀ b ∈ passed, (∃ n, t.get? b = some n) ∧ Relation.TransGen t.IsParent id b) →
      t.slots.size ≤ steps + passed.length → t.Above a id → t.isAncestorWithin a steps id = true
  | steps, id, passed, hd, hb, hs, ha => by
    by_cases he : id = a
    · cases steps <;> simp [isAncestorWithin, he]
    rcases Relation.ReflTransGen.cases_tail ha with e | ⟨p, hap, hp⟩
    · exact absurd e he
    obtain ⟨n, hn, hnp⟩ := hp
    have hid : id ∉ passed := fun hm => h.not_transGen_self id (hb id hm).2
    have hd' : (id :: passed).Nodup := List.nodup_cons.mpr ⟨hid, hd⟩
    have hlen := length_le_size hd' (by
      intro b hm
      rcases List.mem_cons.mp hm with rfl | hm
      · exact ⟨n, hn⟩
      · exact (hb b hm).1)
    cases steps with
    | zero =>
      simp only [List.length_cons] at hlen
      omega
    | succ steps =>
      have hstep := isAncestorWithin_of_above h steps p (id :: passed) hd' (by
          intro b hm
          rcases List.mem_cons.mp hm with rfl | hm
          · exact ⟨⟨n, hn⟩, .single ⟨n, hn, hnp⟩⟩
          · exact ⟨(hb b hm).1, .head ⟨n, hn, hnp⟩ (hb b hm).2⟩)
        (by simp only [List.length_cons]; omega) hap
      rw [isAncestorWithin]
      simp only [hn, hnp, hstep, Bool.or_true]

/-- The bounded search upward finds exactly the nodes above. -/
theorem Linked.isAncestor_iff (h : t.Linked) : t.isAncestor a id = true ↔ t.Above a id :=
  ⟨above_of_isAncestorWithin _ _, fun ha => isAncestorWithin_of_above h _ _ [] .nil
    (fun _ hm => nomatch hm) (by simp) ha⟩

end Tree

/-! ## The tree at a node -/

namespace OrderedTree

theorem labelsAll_append {α : Type} (ss us : List (OrderedTree α)) :
    labelsAll (ss ++ us) = labelsAll ss ++ labelsAll us := by
  induction ss with
  | nil => rfl
  | cons s ss ih => rw [List.cons_append, labelsAll, labelsAll, ih, List.append_assoc]

/-- The ids of a tree of nodes, each before those below it. -/
def ids (s : OrderedTree Placed) : List NodeId := s.labels.map (·.id)

/-- The ids of some trees. -/
def idsAll (ss : List (OrderedTree Placed)) : List NodeId := (labelsAll ss).map (·.id)

theorem ids_node (q : Placed) (ss : List (OrderedTree Placed)) :
    (node q ss).ids = q.id :: idsAll ss := by
  simp [ids, idsAll, labels]

@[simp] theorem idsAll_nil : idsAll [] = [] := rfl

@[simp] theorem idsAll_cons (s : OrderedTree Placed) (ss : List (OrderedTree Placed)) :
    idsAll (s :: ss) = s.ids ++ idsAll ss := by
  simp [ids, idsAll, labelsAll]

@[simp] theorem idsAll_append (ss us : List (OrderedTree Placed)) :
    idsAll (ss ++ us) = idsAll ss ++ idsAll us := by
  simp [idsAll, labelsAll_append]

theorem mem_idsAll {x : NodeId} {ss : List (OrderedTree Placed)} :
    x ∈ idsAll ss ↔ ∃ s ∈ ss, x ∈ s.ids := by
  induction ss with
  | nil => simp
  | cons s ss ih => simp [ih]

theorem id_mem_ids (s : OrderedTree Placed) : s.label.id ∈ s.ids := by
  cases s
  simp [ids_node, label]

end OrderedTree

namespace Tree

open OrderedTree

variable {t : Tree} {id p c x a : NodeId} {n m : Node} {s s' : OrderedTree Placed}

mutual

/-- The nodes of a tree stand in the arrangement of `s`, whatever the parent of the top one is. -/
def Shows (t : Tree) : OrderedTree Placed → Prop
  | .node q ss =>
    (∃ parent, t.get? q.id = some ⟨q.kind, q.span, parent, ss.map (·.label.id)⟩) ∧ ShowsAll t ss

def ShowsAll (t : Tree) : List (OrderedTree Placed) → Prop
  | [] => True
  | s :: ss => Shows t s ∧ ShowsAll t ss

end

theorem showsAll_iff {ss : List (OrderedTree Placed)} :
    ShowsAll t ss ↔ ∀ s ∈ ss, Shows t s := by
  induction ss with
  | nil => simp [ShowsAll]
  | cons s ss ih => simp [ShowsAll, ih]

/-- The node at the top of a shown tree. -/
theorem Shows.top (h : t.Shows s) : ∃ parent,
    t.get? s.label.id = some ⟨s.label.kind, s.label.span, parent, s.children.map (·.label.id)⟩ := by
  cases s
  exact h.1

theorem Shows.below (h : t.Shows s) : ∀ u ∈ s.children, t.Shows u := by
  cases s
  exact showsAll_iff.mp h.2

mutual

theorem Shows.unique : ∀ (s s' : OrderedTree Placed), t.Shows s → t.Shows s' →
    s.label.id = s'.label.id → s = s'
  | .node q ss, .node q' ss', h, h', e => by
    obtain ⟨⟨parent, hn⟩, hs⟩ := h
    obtain ⟨⟨parent', hn'⟩, hs'⟩ := h'
    simp only [label] at e
    rw [e, hn'] at hn
    simp only [Option.some.injEq, Node.mk.injEq] at hn
    obtain ⟨hk, hsp, -, hc⟩ := hn
    have hq : q = q' := by
      cases q
      cases q'
      simp_all
    rw [hq, ShowsAll.unique ss ss' hs hs' hc.symm]

theorem ShowsAll.unique : ∀ (ss ss' : List (OrderedTree Placed)), ShowsAll t ss → ShowsAll t ss' →
    ss.map (·.label.id) = ss'.map (·.label.id) → ss = ss'
  | [], [], _, _, _ => rfl
  | [], _ :: _, _, _, e => by simp at e
  | _ :: _, [], _, _, e => by simp at e
  | s :: ss, s' :: ss', h, h', e => by
    simp only [List.map_cons, List.cons.injEq] at e
    rw [Shows.unique s s' h.1 h'.1 e.1, ShowsAll.unique ss ss' h.2 h'.2 e.2]

end

theorem mapM_some_iff {α β : Type} (f : α → Option β) :
    ∀ (l : List α) (r : List β), l.mapM f = some r ↔ List.Forall₂ (fun a b => f a = some b) l r
  | [], r => by
    cases r <;> simp
  | a :: l, r => by
    cases r with
    | nil => simp [List.mapM_cons, Option.bind_eq_some_iff]
    | cons b r =>
      simp [List.mapM_cons, Option.bind_eq_some_iff, mapM_some_iff f l]

theorem shows_of_subtreeWithin : ∀ (depth : Nat) (id : NodeId) (s : OrderedTree Placed),
    t.subtreeWithin depth id = some s → t.Shows s ∧ s.label.id = id
  | 0, _, _, h => by simp [subtreeWithin] at h
  | depth + 1, id, s, h => by
    simp only [subtreeWithin, Option.bind_eq_bind, Option.bind_eq_some_iff, Option.pure_def,
      Option.some.injEq] at h
    obtain ⟨n, hn, ss, hss, rfl⟩ := h
    rw [mapM_some_iff] at hss
    have hch : n.children = ss.map (·.label.id) ∧ ∀ s ∈ ss, t.Shows s := by
      clear hn
      generalize n.children = cs at hss
      induction hss with
      | nil => simp
      | cons hs _ ih =>
        obtain ⟨hshow, hid⟩ := shows_of_subtreeWithin depth _ _ hs
        simp [hid, ih.1, hshow]
        exact ih.2
    refine ⟨⟨⟨n.parent, ?_⟩, showsAll_iff.mpr hch.2⟩, rfl⟩
    rw [← hch.1]
    exact hn

/-- Going down ends in time: the nodes passed are distinct, so they are fewer than there are
slots. -/
theorem exists_subtreeWithin (h : t.Linked) :
    ∀ (depth : Nat) (id : NodeId) (passed : List NodeId), (∃ n, t.get? id = some n) →
      passed.Nodup → id ∉ passed →
      (∀ b ∈ passed, (∃ n, t.get? b = some n) ∧ t.Above b id) →
      t.slots.size ≤ depth + passed.length → ∃ s, t.subtreeWithin depth id = some s
  | depth, id, passed, ⟨n, hn⟩, hd, hid, hb, hs => by
    have hd' : (id :: passed).Nodup := List.nodup_cons.mpr ⟨hid, hd⟩
    have hlive : ∀ b ∈ id :: passed, ∃ n, t.get? b = some n := by
      intro b hm
      rcases List.mem_cons.mp hm with rfl | hm
      · exact ⟨n, hn⟩
      · exact (hb b hm).1
    have hlen := length_le_size hd' hlive
    cases depth with
    | zero =>
      simp only [List.length_cons] at hlen
      omega
    | succ depth =>
      have hall : ∀ c ∈ n.children, ∃ s, t.subtreeWithin depth c = some s := by
        intro c hc
        have hp := h.isParent_of_mem hn hc
        refine exists_subtreeWithin h depth c (id :: passed) hp.live hd' (fun hm => ?_)
          (fun b hm => ⟨hlive b hm, ?_⟩) (by simp only [List.length_cons]; omega)
        · rcases List.mem_cons.mp hm with rfl | hm
          · exact h.ne_of_isParent hp rfl
          · exact h.not_above_of_isParent hp (hb c hm).2
        · rcases List.mem_cons.mp hm with rfl | hm
          · exact .single hp
          · exact (hb b hm).2.tail hp
      have hm : ∃ ss, n.children.mapM (t.subtreeWithin depth) = some ss := by
        generalize n.children = cs at hall
        induction cs with
        | nil => exact ⟨[], rfl⟩
        | cons c cs ih =>
          obtain ⟨s, hs⟩ := hall c (by simp)
          obtain ⟨ss, hss⟩ := ih fun c hc => hall c (by simp [hc])
          exact ⟨s :: ss, by simp [List.mapM_cons, hs, hss]⟩
      obtain ⟨ss, hss⟩ := hm
      refine ⟨.node ⟨id, n.kind, n.span⟩ ss, ?_⟩
      simp only [subtreeWithin, hn, hss, Option.bind_eq_bind, Option.bind_some, Option.pure_def]

theorem Linked.exists_subtree? (h : t.Linked) (hn : t.get? id = some n) :
    ∃ s, t.subtree? id = some s :=
  exists_subtreeWithin h _ id [] ⟨n, hn⟩ .nil (by simp) (fun _ hm => nomatch hm) (by simp)

theorem shows_of_subtree? (h : t.subtree? id = some s) : t.Shows s ∧ s.label.id = id :=
  shows_of_subtreeWithin _ _ _ h

/-- The bounded search downward finds exactly the tree that is shown. -/
theorem Linked.subtree?_of_shows (h : t.Linked) (hs : t.Shows s) :
    t.subtree? s.label.id = some s := by
  obtain ⟨parent, hn⟩ := hs.top
  obtain ⟨s', hs'⟩ := h.exists_subtree? hn
  obtain ⟨hshow, hid⟩ := shows_of_subtree? hs'
  rw [hs', Shows.unique s' s hshow hs hid]

theorem subtree?_of_stale (h : t.get? id = none) : t.subtree? id = none := by
  cases hs : t.subtree? id with
  | none => rfl
  | some s =>
    obtain ⟨hshow, rfl⟩ := shows_of_subtree? hs
    obtain ⟨parent, hn⟩ := hshow.top
    rw [h] at hn
    cases hn

/-! ## Ids of the tree at a node -/

mutual

theorem Shows.above_of_mem_ids (h : t.Linked) : ∀ (s : OrderedTree Placed), t.Shows s →
    ∀ x ∈ s.ids, t.Above s.label.id x
  | .node q ss, hs, x, hx => by
    rw [ids_node] at hx
    rcases List.mem_cons.mp hx with rfl | hx
    · exact .refl
    · obtain ⟨⟨parent, hn⟩, hss⟩ := hs
      obtain ⟨c, hc, ha⟩ := ShowsAll.above_of_mem_idsAll h ss hss x hx
      exact .head (h.isParent_of_mem hn hc) ha

theorem ShowsAll.above_of_mem_idsAll (h : t.Linked) : ∀ (ss : List (OrderedTree Placed)),
    ShowsAll t ss → ∀ x ∈ idsAll ss, ∃ c ∈ ss.map (·.label.id), t.Above c x
  | [], _, x, hx => by simp at hx
  | s :: ss, hs, x, hx => by
    rw [idsAll_cons] at hx
    rcases List.mem_append.mp hx with hx | hx
    · exact ⟨_, by simp, Shows.above_of_mem_ids h s hs.1 x hx⟩
    · obtain ⟨c, hc, ha⟩ := ShowsAll.above_of_mem_idsAll h ss hs.2 x hx
      exact ⟨c, by simp [List.mem_map.mp hc], ha⟩

end

mutual

theorem Shows.children_mem_ids : ∀ (s : OrderedTree Placed), t.Shows s →
    ∀ x ∈ s.ids, ∃ n, t.get? x = some n ∧ ∀ c ∈ n.children, c ∈ s.ids
  | .node q ss, hs, x, hx => by
    obtain ⟨⟨parent, hn⟩, hss⟩ := hs
    rw [ids_node] at hx ⊢
    rcases List.mem_cons.mp hx with rfl | hx
    · refine ⟨_, hn, fun c hc => List.mem_cons_of_mem _ ?_⟩
      obtain ⟨u, hu, rfl⟩ := List.mem_map.mp hc
      exact mem_idsAll.mpr ⟨u, hu, u.id_mem_ids⟩
    · obtain ⟨n, hn, hc⟩ := ShowsAll.children_mem_idsAll ss hss x hx
      exact ⟨n, hn, fun c hm => List.mem_cons_of_mem _ (hc c hm)⟩

theorem ShowsAll.children_mem_idsAll : ∀ (ss : List (OrderedTree Placed)), ShowsAll t ss →
    ∀ x ∈ idsAll ss, ∃ n, t.get? x = some n ∧ ∀ c ∈ n.children, c ∈ idsAll ss
  | [], _, x, hx => by simp at hx
  | s :: ss, hs, x, hx => by
    rw [idsAll_cons] at hx ⊢
    rcases List.mem_append.mp hx with hx | hx
    · obtain ⟨n, hn, hc⟩ := Shows.children_mem_ids s hs.1 x hx
      exact ⟨n, hn, fun c hm => List.mem_append_left _ (hc c hm)⟩
    · obtain ⟨n, hn, hc⟩ := ShowsAll.children_mem_idsAll ss hs.2 x hx
      exact ⟨n, hn, fun c hm => List.mem_append_right _ (hc c hm)⟩

end

theorem Shows.live (hs : t.Shows s) (hx : x ∈ s.ids) : ∃ n, t.get? x = some n :=
  (Shows.children_mem_ids s hs x hx).imp fun _ h => h.1

/-- The tree at a node holds exactly the nodes that the node is above. -/
theorem Linked.mem_ids_iff (h : t.Linked) (hs : t.Shows s) :
    x ∈ s.ids ↔ t.Above s.label.id x := by
  refine ⟨Shows.above_of_mem_ids h s hs x, fun ha => ?_⟩
  induction ha with
  | refl => exact s.id_mem_ids
  | tail _ hp ih =>
    obtain ⟨n, hn, hc⟩ := Shows.children_mem_ids s hs _ ih
    obtain ⟨m, hm, hmem⟩ := h.mem_of_isParent hp
    rw [hn] at hm
    cases hm
    exact hc _ hmem

/-- Trees at different children of a node have no node in common. -/
theorem Linked.disjoint_siblings (h : t.Linked) {b : NodeId} (ha : t.IsParent p a)
    (hb : t.IsParent p b) (hax : t.Above a x) (hbx : t.Above b x) : a = b := by
  have key : ∀ {a b : NodeId}, t.IsParent p a → t.IsParent p b → t.Above a b → a = b := by
    intro a b ha hb hab
    by_contra hne
    exact h.not_above_of_isParent ha (above_parent hab hne hb)
  induction hax generalizing b with
  | refl => exact (key hb ha hbx).symm
  | @tail y z hay hyz ih =>
    by_cases hbz : b = z
    · subst hbz
      exact key ha hb (hay.tail hyz)
    · exact ih hb (above_parent hbx hbz hyz)

mutual

theorem Shows.nodup_ids (h : t.Linked) : ∀ (s : OrderedTree Placed), t.Shows s → s.ids.Nodup
  | .node q ss, hs => by
    have hs' := hs
    obtain ⟨⟨parent, hn⟩, hss⟩ := hs
    rw [ids_node, List.nodup_cons]
    refine ⟨fun hm => ?_, ShowsAll.nodup_idsAll h q.id ss hss (fun c hc =>
      h.isParent_of_mem hn hc) (h.nodup_children hn)⟩
    obtain ⟨c, hc, ha⟩ := ShowsAll.above_of_mem_idsAll h ss hss _ hm
    exact h.not_above_of_isParent (h.isParent_of_mem hn hc) ha

theorem ShowsAll.nodup_idsAll (h : t.Linked) (p : NodeId) : ∀ (ss : List (OrderedTree Placed)),
    ShowsAll t ss → (∀ c ∈ ss.map (·.label.id), t.IsParent p c) →
      (ss.map (·.label.id)).Nodup → (idsAll ss).Nodup
  | [], _, _, _ => .nil
  | s :: ss, hs, hp, hd => by
    simp only [List.map_cons, List.nodup_cons] at hd
    rw [idsAll_cons]
    refine List.Nodup.append (Shows.nodup_ids h s hs.1)
      (ShowsAll.nodup_idsAll h p ss hs.2 (fun c hc => hp c (List.mem_cons_of_mem _ hc)) hd.2) ?_
    intro x hx hx'
    obtain ⟨c, hc, ha⟩ := ShowsAll.above_of_mem_idsAll h ss hs.2 x hx'
    have e := h.disjoint_siblings (hp _ (by simp)) (hp c (List.mem_cons_of_mem _ hc))
      (Shows.above_of_mem_ids h s hs.1 x hx) ha
    exact hd.1 (e ▸ hc)

end

end Tree

end JavaFold
