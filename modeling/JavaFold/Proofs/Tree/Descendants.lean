import JavaFold.Proofs.Tree.Freeing

/-!
# Going down and going up agree

`Tree.descendants` lists a node and all nodes below it, `Tree.isAncestor` goes up from a node by its parents. In a
reachable tree following the links alone comes to the same, and ends, both ways (`descendants?_eq`, `isAncestor?_eq`).
The list goes from the top down (`Tree.TopDown`), and it holds a node exactly if its first one is met going up from
there (`Tree.Reachable.views_agree`).

Going down, the nodes of the first tree that waits have their turns before the next one has, whatever waits behind it
(`visitWaiting?_shown`). Going up needs the parents to end, and nothing else of the links (`climbTo?_eq`).
-/

namespace JavaFold

namespace OrderedTree

/-- Fewer trees hold fewer ids, in the same order. -/
theorem idsAll_sublist {us ss : List (OrderedTree Placed)} (h : us.Sublist ss) : (idsAll us).Sublist (idsAll ss) := by
  induction h with
  | slnil => exact .refl _
  | cons s _ ih =>
    rw [idsAll_cons]
    exact ih.trans (List.sublist_append_right _ _)
  | cons_cons s _ ih =>
    rw [idsAll_cons, idsAll_cons]
    exact ih.append_left _

end OrderedTree

namespace Tree

open OrderedTree

variable {t : Tree} {id p x a : NodeId} {n : Node} {s : OrderedTree Placed}

/-! ## Going down -/

mutual

/-- The nodes of a tree are met from the top down before the next node that waits has its turn. -/
theorem visitWaiting?_shown : ∀ (s : OrderedTree Placed) (waiting : List NodeId), t.Shows s →
    t.visitWaiting? (s.label.id :: waiting) = (t.visitWaiting? waiting).map (s.ids ++ ·)
  | .node q ss, waiting, ⟨⟨parent, hn⟩, hss⟩ => by
    have hbelow : (t.get? q.id).elim [] (·.children) = ss.map (·.label.id) := by rw [hn, Option.elim_some]
    rw [visitWaiting?.eq_def]
    change (do return q.id :: (← t.visitWaiting? ((t.get? q.id).elim [] (·.children) ++ waiting))) = _
    rw [hbelow, visitWaiting?_shownAll ss waiting hss, ids_node]
    cases t.visitWaiting? waiting <;> rfl

theorem visitWaiting?_shownAll : ∀ (ss : List (OrderedTree Placed)) (waiting : List NodeId), ShowsAll t ss →
    t.visitWaiting? (ss.map (·.label.id) ++ waiting) = (t.visitWaiting? waiting).map (idsAll ss ++ ·)
  | [], waiting, _ => by simp
  | s :: ss, waiting, ⟨hs, hss⟩ => by
    rw [List.map_cons, List.cons_append, visitWaiting?_shown s _ hs, visitWaiting?_shownAll ss waiting hss,
      Option.map_map, idsAll_cons]
    exact congrArg (Option.map · _) (funext fun _ => (List.append_assoc _ _ _).symm)

end

theorem descendants?_of_shows (hs : t.Shows s) : t.descendants? s.label.id = some s.ids := by
  obtain ⟨parent, hn⟩ := hs.top
  rw [descendants?, if_pos (contains_of_get? hn), visitWaiting?_shown s [] hs, visitWaiting?.eq_def]
  simp

/-- Following the children meets the nodes of the tree at a node, and ends. -/
theorem Linked.descendants?_eq (h : t.Linked) (id : NodeId) : t.descendants? id = some (t.descendants id) := by
  cases hn : t.get? id with
  | none =>
    rw [descendants?, if_neg (by simp [contains, hn]), descendants, subtree?_of_stale hn, visitWaiting?.eq_def]
  | some n =>
    obtain ⟨s, hs⟩ := h.exists_subtree? hn
    obtain ⟨hshow, rfl⟩ := shows_of_subtree? hs
    rw [descendants?_of_shows hshow, descendants_of_shows h hshow]

/-! ## From the top down -/

/-- A list of nodes that begins with `a` and goes from the top down. -/
structure TopDown (t : Tree) (a : NodeId) (ids : List NodeId) : Prop where
  nodup : ids.Nodup
  starts : ids.head? = some a
  /-- A node stands before its children. -/
  parent_first {p c : NodeId} : p ∈ ids → t.Lists p c → [p, c].Sublist ids
  /-- All nodes at and below a child stand before those at and below a later one. -/
  earlier_first {p c c' x y : NodeId} {n : Node} : p ∈ ids → t.get? p = some n → [c, c'].Sublist n.children →
    t.Under c x → t.Under c' y → [x, y].Sublist ids

mutual

/-- A tree of nodes holds the whole tree at each of them, in one piece. -/
theorem Shows.exists_infix : ∀ (s : OrderedTree Placed), t.Shows s → ∀ p ∈ s.ids, ∃ u, t.Shows u ∧ u.label.id = p ∧
    u.ids.IsInfix s.ids
  | .node q ss, hs, p, hp => by
    rw [ids_node] at hp ⊢
    rcases List.mem_cons.mp hp with rfl | hp
    · exact ⟨.node q ss, hs, rfl, (ids_node q ss).symm ▸ List.infix_rfl⟩
    · obtain ⟨u, hu, hid, hin⟩ := ShowsAll.exists_infix ss hs.2 p hp
      exact ⟨u, hu, hid, hin.trans (List.suffix_cons _ _).isInfix⟩

theorem ShowsAll.exists_infix : ∀ (ss : List (OrderedTree Placed)), ShowsAll t ss → ∀ p ∈ idsAll ss, ∃ u,
    t.Shows u ∧ u.label.id = p ∧ u.ids.IsInfix (idsAll ss)
  | [], _, p, hp => by simp at hp
  | s :: ss, hs, p, hp => by
    rw [idsAll_cons] at hp ⊢
    rcases List.mem_append.mp hp with hp | hp
    · obtain ⟨u, hu, hid, hin⟩ := Shows.exists_infix s hs.1 p hp
      exact ⟨u, hu, hid, hin.trans (List.prefix_append _ _).isInfix⟩
    · obtain ⟨u, hu, hid, hin⟩ := ShowsAll.exists_infix ss hs.2 p hp
      exact ⟨u, hu, hid, hin.trans (List.suffix_append _ _).isInfix⟩

end

/-- The children of the node at the top are the tops of the trees below it. -/
theorem Shows.children_eq (hs : t.Shows s) (hn : t.get? s.label.id = some n) :
    n.children = s.children.map (·.label.id) := by
  obtain ⟨parent, htop⟩ := hs.top
  rw [hn] at htop
  cases htop
  rfl

theorem ids_eq_cons (s : OrderedTree Placed) : s.ids = s.label.id :: idsAll s.children := by
  cases s
  exact ids_node _ _

theorem Linked.topDown (h : t.Linked) (hs : t.Shows s) : t.TopDown s.label.id s.ids where
  nodup := Shows.nodup_ids h s hs
  starts := by rw [ids_eq_cons, List.head?_cons]
  parent_first := by
    rintro p c hp ⟨n, hn, hc⟩
    obtain ⟨u, hu, rfl, hin⟩ := Shows.exists_infix s hs p hp
    rw [hu.children_eq hn] at hc
    obtain ⟨v, hv, rfl⟩ := List.mem_map.mp hc
    refine .trans ?_ hin.sublist
    rw [ids_eq_cons]
    exact (List.singleton_sublist.mpr (mem_idsAll.mpr ⟨v, hv, v.id_mem_ids⟩)).cons_cons _
  earlier_first := by
    intro p c c' x y n hp hn hcs hx hy
    obtain ⟨u, hu, rfl, hin⟩ := Shows.exists_infix s hs p hp
    rw [hu.children_eq hn] at hcs
    obtain ⟨vs, hvs, heq⟩ := List.sublist_map_iff.mp hcs
    obtain ⟨v, v', rfl, rfl, rfl⟩ : ∃ v v', vs = [v, v'] ∧ c = v.label.id ∧ c' = v'.label.id := by
      match vs, heq with
      | [v, v'], heq => simpa using heq
    have hmem : ∀ w ∈ [v, v'], ∀ z, t.Under w.label.id z → z ∈ w.ids := fun w hw z hz =>
      (h.mem_ids_iff (hu.below w (hvs.subset hw))).mpr (h.under_iff_above.mp hz)
    have hpair : [x, y].Sublist (idsAll [v, v']) := by
      rw [idsAll_cons, idsAll_cons, idsAll_nil, List.append_nil]
      exact (List.singleton_sublist.mpr (hmem v (by simp) x hx)).append
        (List.singleton_sublist.mpr (hmem v' (by simp) y hy))
    refine (hpair.trans (idsAll_sublist hvs)).trans (.trans ?_ hin.sublist)
    rw [ids_eq_cons u]
    exact List.sublist_cons_self _ _

/-! ## Going up -/

/-- Going up from a node ends, and meets what is above it. -/
theorem climbTo?_eq (hx : Acc t.IsParent x) : ∃ met, t.climbTo? a (some x) = some met ∧ (met = true ↔ t.Above a x) := by
  induction hx with
  | intro x _ ih =>
    rw [climbTo?.eq_def]
    by_cases hxa : x = a
    · exact ⟨true, by simp [hxa], by simp [hxa, Relation.ReflTransGen.refl]⟩
    · simp only [if_neg hxa]
      cases hp : (t.get? x).bind (·.parent) with
      | none =>
        refine ⟨false, by rw [climbTo?.eq_def], by simp, fun ha => ?_⟩
        rcases Relation.ReflTransGen.cases_tail ha with e | ⟨p, -, n, hn, hnp⟩
        · exact absurd e hxa
        · rw [hn, Option.bind_some, hnp] at hp
          cases hp
      | some p =>
        have hparent : t.IsParent p x := Option.bind_eq_some_iff.mp hp
        obtain ⟨met, hmet, hiff⟩ := ih p hparent
        exact ⟨met, hmet, hiff.trans ⟨fun ha => ha.tail hparent, fun ha => above_parent ha (Ne.symm hxa) hparent⟩⟩

/-- Following the parents finds what the bounded search finds, and ends. -/
theorem Linked.isAncestor?_eq (h : t.Linked) (a x : NodeId) : t.isAncestor? a x = some (t.isAncestor a x) := by
  obtain ⟨met, hmet, hiff⟩ := climbTo?_eq (a := a) (h.climbs x)
  rw [isAncestor?, hmet, Option.some.injEq, Bool.eq_iff_iff, hiff, h.isAncestor_iff]

/-! ## Both ways -/

/-- In a reachable tree the list of the nodes below a node goes from the top down, and holds a node exactly if its first
one is met going up from there. Following the links alone, down and up, comes to the same, and ends. -/
theorem Reachable.views_agree (h : t.Reachable) (hn : t.get? a = some n) :
    t.descendants? a = some (t.descendants a) ∧ t.TopDown a (t.descendants a) ∧
      ∀ x, t.isAncestor? a x = some (t.isAncestor a x) ∧ (x ∈ t.descendants a ↔ t.isAncestor a x = true) := by
  have hlinked := h.wellFormed.toLinked
  obtain ⟨s, hs⟩ := hlinked.exists_subtree? hn
  obtain ⟨hshow, rfl⟩ := shows_of_subtree? hs
  refine ⟨hlinked.descendants?_eq _, ?_, fun x => ⟨hlinked.isAncestor?_eq _ x, ?_⟩⟩
  · rw [descendants_of_shows hlinked hshow]
    exact hlinked.topDown hshow
  · rw [descendants_of_shows hlinked hshow, hlinked.mem_ids_iff hshow, hlinked.isAncestor_iff]

/-- From the root of a program the class and its method are met, and the class beside it is not. -/
theorem views_agree_classBeside : classBeside.Reachable ∧ (∃ n, classBeside.get? ⟨0, 0⟩ = some n) ∧
    classBeside.descendants? ⟨0, 0⟩ = some [⟨0, 0⟩, ⟨2, 0⟩, ⟨1, 0⟩] ∧
    classBeside.TopDown ⟨0, 0⟩ [⟨0, 0⟩, ⟨2, 0⟩, ⟨1, 0⟩] ∧ classBeside.isAncestor? ⟨0, 0⟩ ⟨1, 0⟩ = some true ∧
    classBeside.isAncestor? ⟨0, 0⟩ ⟨3, 0⟩ = some false := by
  have h : classBeside.Reachable := .step _ (.step _ (.step _ (.step _ (.step _ .empty))))
  obtain ⟨hdown, htop, hup⟩ := h.views_agree (a := ⟨0, 0⟩) (n := _) rfl
  exact ⟨h, ⟨_, rfl⟩, hdown, htop, (hup ⟨1, 0⟩).1, (hup ⟨3, 0⟩).1⟩

end Tree

end JavaFold
