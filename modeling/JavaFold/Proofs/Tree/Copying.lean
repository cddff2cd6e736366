import JavaFold.Tree.Following
import JavaFold.Proofs.Tree.Census
import JavaFold.Proofs.Tree.Reachable

/-!
# Copies are exact

`deepCopy` makes nodes one by one in slots that are free, while it reads what it copies in the same tree. It puts
copies of all children of a node below the copy of the node (`Tree.Sprouts`), and then goes on below each of them, the
last one first. What has been copied stands below leaves that were there before, and everything else is as it was
(`Tree.Grows`): so the nodes that are still to be copied are found unchanged, and each copy gets its children in
order. Hence the copy is floating, stands for the same parts as the node, has none of the old nodes in it, and leaves
them as they were (`Tree.Reachable.deepCopy_exact`).

The same induction shows that letting each child wait with its copy, and following only links, makes the same nodes in
the same order, and ends (`Edit.copyBelow_grows`).
-/

namespace JavaFold

namespace Tree

open OrderedTree

variable {t t₁ t₂ : Tree} {c x : NodeId} {n : Node} {q : Placed} {qs : List Placed} {u : OrderedTree Placed}
  {us : List (OrderedTree Placed)}

/-! ## Leaves -/

/-- From `t` to `t'` new nodes without children are put after the children of `c`. -/
structure Sprouts (t : Tree) (c : NodeId) (leaves : List Placed) (t' : Tree) : Prop where
  stored : t'.Stored
  root : t'.root = t.root
  kept {x : NodeId} {n : Node} : t.get? x = some n → x ≠ c → t'.get? x = some n
  top {n : Node} : t.get? c = some n → t'.get? c = some { n with children := n.children ++ leaves.map (·.id) }
  leaf : ∀ q ∈ leaves, t.get? q.id = none ∧ t'.get? q.id = some ⟨q.kind, q.span, some c, []⟩
  nodup : (leaves.map (·.id)).Nodup
  only {x : NodeId} {n : Node} : t'.get? x = some n → x ∈ leaves.map (·.id) ∨ ∃ m, t.get? x = some m

theorem Sprouts.nil (h : t.Stored) (c : NodeId) : t.Sprouts c [] t :=
  ⟨h, rfl, fun hn _ => hn, fun hn => by simpa using hn, by simp, .nil, fun hn => .inr ⟨_, hn⟩⟩

/-- No node is freed. -/
theorem Sprouts.stale {leaves : List Placed} (h : t.Sprouts c leaves t₁) (hx : t₁.get? x = none) :
    t.get? x = none := by
  refine Option.eq_none_iff_forall_ne_some.mpr fun n hn => ?_
  by_cases hxc : x = c
  · subst hxc
    rw [h.top hn] at hx
    cases hx
  · rw [h.kept hn hxc] at hx
    cases hx

/-- Making a node and linking it. -/
theorem sprouts_link (h : t.Stored) (hn : t.get? c = some n) (kind : NodeKind) (span : Span) :
    t.Sprouts c [⟨t.reserve.1, kind, span⟩] ((t.insert kind span []).2.link c t.reserve.1) := by
  have hold := fun {j m} (hj : t.get? j = some m) => get?_insert_of_not_mem h kind span hj List.not_mem_nil
  have hfresh : (t.insert kind span []).2.get? t.reserve.1 = some ⟨kind, span, none, []⟩ := by
    rw [get?_insert h, if_pos rfl]
  have hne : c ≠ t.reserve.1 := (hold hn).1
  have hlink := get?_link (t := (t.insert kind span []).2) hne
  refine ⟨((h.insert kind span []).updateNode _ _).updateNode _ _, (root_link _ _ _).trans (root_insert ..),
    fun hx hxc => ?_, fun hc => ?_, ?_, List.nodup_singleton _, fun {x m} hx => ?_⟩
  · rw [hlink, if_neg (hold hx).1, if_neg hxc, (hold hx).2]
  · rw [hlink, if_neg hne, if_pos rfl, (hold hc).2]
    rfl
  · simp only [List.mem_singleton, forall_eq]
    exact ⟨get?_fresh h, by rw [hlink, if_pos rfl, hfresh]; rfl⟩
  · rw [List.map_singleton, List.mem_singleton]
    rw [hlink] at hx
    split_ifs at hx with hxf hxc
    · exact .inl hxf
    · exact .inr ⟨n, hxc ▸ hn⟩
    · exact live_of_get?_insert h hx

theorem Sprouts.cons (hn : t.get? c = some n) (h₁ : t.Sprouts c [q] t₁) (h₂ : t₁.Sprouts c qs t₂) :
    t.Sprouts c (q :: qs) t₂ := by
  obtain ⟨hq, hq₁⟩ := h₁.leaf q List.mem_cons_self
  have hqc : q.id ≠ c := by
    rintro e
    rw [e, hn] at hq
    cases hq
  refine ⟨h₂.stored, h₂.root.trans h₁.root, fun hx hxc => h₂.kept (h₁.kept hx hxc) hxc, fun hc => ?_,
    List.forall_mem_cons.mpr ⟨⟨hq, h₂.kept hq₁ hqc⟩, fun r hr => ⟨h₁.stale (h₂.leaf r hr).1, (h₂.leaf r hr).2⟩⟩,
    ?_, fun hx => ?_⟩
  · rw [h₂.top (h₁.top hc)]
    simp
  · rw [List.map_cons, List.nodup_cons]
    refine ⟨fun hm => ?_, h₂.nodup⟩
    obtain ⟨r, hr, hrq⟩ := List.mem_map.mp hm
    have := (h₂.leaf r hr).1
    rw [hrq, hq₁] at this
    cases this
  · rw [List.map_cons, List.mem_cons, or_assoc]
    rcases h₂.only hx with hx | ⟨m, hm⟩
    · exact .inr (.inl hx)
    · rcases h₁.only hm with hm | hm
      · exact .inl (List.mem_singleton.mp hm)
      · exact .inr (.inr hm)

/-! ## Trees that grow -/

/-- From `t` to `t'` nodes are made below the tops of `us`, which are leaves of `t`. -/
structure Grows (t t' : Tree) (us : List (OrderedTree Placed)) : Prop where
  stored : t'.Stored
  root : t'.root = t.root
  kept {x : NodeId} {n : Node} : t.get? x = some n → x ∉ us.map (·.label.id) → t'.get? x = some n
  parent {x : NodeId} {n : Node} : t.get? x = some n → ∃ m, t'.get? x = some m ∧ m.parent = n.parent
  shows : t'.ShowsAll us
  fresh : ∀ x ∈ idsAll us, x ∉ us.map (·.label.id) → t.get? x = none
  only {x : NodeId} {n : Node} : t'.get? x = some n → x ∈ idsAll us ∨ ∃ m, t.get? x = some m

theorem Grows.nil (h : t.Stored) : t.Grows t [] :=
  ⟨h, rfl, fun hn _ => hn, fun hn => ⟨_, hn, rfl⟩, trivial, by simp, fun hn => .inr ⟨_, hn⟩⟩

/-- No node is freed. -/
theorem Grows.stale (h : t.Grows t₁ us) (hx : t₁.get? x = none) : t.get? x = none := by
  refine Option.eq_none_iff_forall_ne_some.mpr fun n hn => ?_
  obtain ⟨m, hm, -⟩ := h.parent hn
  rw [hm] at hx
  cases hx

/-- A tree that was shown, and into which nothing has been put, is shown still. -/
theorem Grows.shows_of_shows {s : OrderedTree Placed} (h : t.Grows t₁ us) (hs : t.Shows s)
    (hapart : ∀ x ∈ s.ids, x ∉ us.map (·.label.id)) : t₁.Shows s :=
  hs.congr s fun x hx n hn => ⟨n.parent, h.kept hn (hapart x hx)⟩

/-- One more tree grows. -/
theorem Grows.cons (h₁ : t.Grows t₁ us) (h₂ : t₁.Grows t₂ [u]) (hn : t.get? u.label.id = some n)
    (hu : u.label.id ∉ us.map (·.label.id)) : t.Grows t₂ (u :: us) := by
  have htop : ∀ {x}, x ∉ [u].map (·.label.id) ↔ x ≠ u.label.id := by simp
  have hout : u.label.id ∉ idsAll us := fun hm => by
    rw [h₁.fresh _ hm hu] at hn
    cases hn
  refine ⟨h₂.stored, h₂.root.trans h₁.root, fun {x m} hx hm => ?_, fun hx => ?_, ⟨h₂.shows.1, ?_⟩, fun x hx hm => ?_,
    fun hx => ?_⟩
  · rw [List.map_cons, List.mem_cons, not_or] at hm
    exact h₂.kept (h₁.kept hx hm.2) (htop.mpr hm.1)
  · obtain ⟨m, hm, hmp⟩ := h₁.parent hx
    obtain ⟨k, hk, hkp⟩ := h₂.parent hm
    exact ⟨k, hk, hkp.trans hmp⟩
  · exact ShowsAll.congr us h₁.shows fun x hx m hm =>
      ⟨m.parent, h₂.kept hm (htop.mpr fun e => hout (e ▸ hx))⟩
  · rw [List.map_cons, List.mem_cons, not_or] at hm
    rw [idsAll_cons, List.mem_append] at hx
    rcases hx with hx | hx
    · exact h₁.stale (h₂.fresh x (by simpa using hx) (htop.mpr hm.1))
    · exact h₁.fresh x hx hm.2
  · rw [idsAll_cons, List.mem_append, or_assoc]
    rcases h₂.only hx with hx | ⟨m, hm⟩
    · exact .inl (by simpa using hx)
    · exact .inr (h₁.only hm)

/-- A leaf that gets leaves, which grow. -/
theorem Grows.node {parent : Option NodeId} (hn : t.get? q.id = some ⟨q.kind, q.span, parent, []⟩)
    (h₁ : t.Sprouts q.id (us.map (·.label)) t₁) (h₂ : t₁.Grows t₂ us) : t.Grows t₂ [.node q us] := by
  have htops : (us.map (·.label)).map (·.id) = us.map (·.label.id) := List.map_map ..
  have hleaf : ∀ {x m}, t.get? x = some m → x ∉ us.map (·.label.id) := fun {x m} hx hm => by
    obtain ⟨u, hu, rfl⟩ := List.mem_map.mp hm
    rw [(h₁.leaf u.label (List.mem_map_of_mem hu)).1] at hx
    cases hx
  have htop := h₂.kept (h₁.top hn) (hleaf hn)
  rw [htops] at htop
  have hids : ∀ {x}, x ∈ idsAll [.node q us] ↔ x = q.id ∨ x ∈ idsAll us := by simp [ids_node]
  have hmap : ∀ {x}, x ∉ [OrderedTree.node q us].map (·.label.id) ↔ x ≠ q.id := by simp [label]
  refine ⟨h₂.stored, h₂.root.trans h₁.root, fun hx hm => h₂.kept (h₁.kept hx (hmap.mp hm)) (hleaf hx),
    fun {x m} hx => ?_, ⟨⟨⟨parent, htop⟩, h₂.shows⟩, trivial⟩, fun x hx hm => ?_, fun hx => ?_⟩
  · by_cases hxq : x = q.id
    · subst hxq
      rw [hn] at hx
      cases hx
      exact ⟨_, htop, rfl⟩
    · exact ⟨m, h₂.kept (h₁.kept hx hxq) (hleaf hx), rfl⟩
  · by_cases hmem : x ∈ us.map (·.label.id)
    · obtain ⟨u, hu, rfl⟩ := List.mem_map.mp hmem
      exact (h₁.leaf u.label (List.mem_map_of_mem hu)).1
    · exact h₁.stale (h₂.fresh x ((hids.mp hx).resolve_left (hmap.mp hm)) hmem)
  · rw [hids, or_assoc]
    rcases h₂.only hx with hx | ⟨m, hm⟩
    · exact .inr (.inl hx)
    · rcases h₁.only hm with hm | hm
      · obtain ⟨u, hu, rfl⟩ := List.mem_map.mp (htops ▸ hm)
        exact .inr (.inl (mem_idsAll.mpr ⟨u, hu, u.id_mem_ids⟩))
      · exact .inr (.inr hm)

end Tree

/-! ## Running the copy -/

namespace Edit

open JavaFold.Tree OrderedTree

variable {t : Tree} {c : NodeId} {n : Node}

/-- The node at the top of a tree is there, wherever the other nodes of it are. -/
def Stands (t : Tree) (s : OrderedTree Placed) : Prop :=
  ∃ n, t.get? s.label.id = some n ∧ n.kind = s.label.kind ∧ n.span = s.label.span

/-- Copies of all children of a node are put below its copy. Finding the children by their ids makes the same copies,
and lets each child wait with its own. -/
theorem mapM_grow_sprouts : ∀ (ss : List (OrderedTree Placed)) {t : Tree} {n : Node}, t.Stored → t.get? c = some n →
    ∃ leaves t', (ss.mapM fun s => grow c s.label).run t = .ok (leaves.map (·.id)) t' ∧ t.Sprouts c leaves t' ∧
      leaves.map Placed.part = ss.map (·.label.part) ∧
      ∀ waiting, (∀ s ∈ ss, s.label.id ≠ c ∧ Stands t s) → t.copyChildren? c waiting (ss.map (·.label.id)) =
        some (((ss.map (·.label.id)).zip (leaves.map (·.id))).reverse ++ waiting, t')
  | [], t, n, h, _ => ⟨[], t, rfl, .nil h c, rfl, fun _ _ => rfl⟩
  | s :: ss, t, n, h, hn => by
    let leaf : Placed := ⟨t.reserve.1, s.label.kind, s.label.span⟩
    let t₁ := (t.insert s.label.kind s.label.span []).2.link c leaf.id
    have hrun : (grow c s.label).run t = .ok leaf.id t₁ := rfl
    have hs₁ : t.Sprouts c [leaf] t₁ := sprouts_link h hn s.label.kind s.label.span
    obtain ⟨leaves, t₂, hruns, hs₂, hparts, hfollow⟩ := mapM_grow_sprouts ss hs₁.stored (hs₁.top hn)
    refine ⟨leaf :: leaves, t₂, ?_, hs₁.cons hn hs₂, ?_, fun waiting hstand => ?_⟩
    · simp only [List.mapM_cons, EStateM.run_bind, hrun, hruns, EStateM.run_pure, List.map_cons]
    · rw [List.map_cons, List.map_cons, hparts]
      rfl
    · obtain ⟨⟨-, m, hm, hkind, hspan⟩, hstand⟩ := List.forall_mem_cons.mp hstand
      have hnext : t.copyChildren? c waiting (s.label.id :: ss.map (·.label.id)) =
          t₁.copyChildren? c ((s.label.id, leaf.id) :: waiting) (ss.map (·.label.id)) := by
        rw [copyChildren?, hm, Option.bind_eq_bind, Option.bind_some, hkind, hspan]
        rfl
      have hstand₁ : ∀ u ∈ ss, u.label.id ≠ c ∧ Stands t₁ u := fun u hu => by
        obtain ⟨huc, k, hk, hk'⟩ := hstand u hu
        exact ⟨huc, k, hs₁.kept hk huc, hk'⟩
      rw [List.map_cons, hnext, hfollow _ hstand₁]
      simp

mutual

/-- What is below a node is copied below a leaf with its kind and span. Following the children makes the same copies,
before the next node has its turn. -/
theorem copyBelow_grows : ∀ (s : OrderedTree Placed) {t : Tree} {q : Placed} {parent : Option NodeId}, t.Stored →
    t.get? q.id = some ⟨q.kind, q.span, parent, []⟩ → q.part = s.label.part →
    ∃ t' us, (copyBelow s q.id).run t = .ok () t' ∧ t.Grows t' [.node q us] ∧
      (OrderedTree.node q us).parts = s.parts ∧
      ∀ waiting, t.Shows s → q.id ∉ s.ids →
        t.copyWaiting? ((s.label.id, q.id) :: waiting) = t'.copyWaiting? waiting
  | .node p ss, t, q, parent, h, hq, hpart => by
    obtain ⟨leaves, t₁, hrun, hsprouts, hleaves, hfollow⟩ := mapM_grow_sprouts ss h hq
    obtain ⟨t₂, us, hruns, hgrows, hlabels, hparts, hwait⟩ := copyBelowAll_grows ss hsprouts.stored
      (fun r hr => (hsprouts.leaf r hr).2) hsprouts.nodup hleaves
    refine ⟨t₂, us, by simp [copyBelow, hrun, hruns], .node hq (hlabels ▸ hsprouts) hgrows, ?_,
      fun waiting ⟨⟨parent', hp⟩, hss⟩ hfresh => ?_⟩
    · rw [OrderedTree.parts, OrderedTree.parts, hparts, hpart, label]
    · rw [ids_node, List.mem_cons, not_or] at hfresh
      have hne : ∀ x ∈ idsAll ss, x ≠ q.id := fun x hx e => hfresh.2 (e ▸ hx)
      have hstand : ∀ s ∈ ss, s.label.id ≠ q.id ∧ Stands t s := fun s hs => by
        obtain ⟨_, htop⟩ := (showsAll_iff.mp hss s hs).top
        exact ⟨hne _ (mem_idsAll.mpr ⟨s, hs, s.id_mem_ids⟩), _, htop, rfl, rfl⟩
      have hshow : t₁.ShowsAll ss := ShowsAll.congr ss hss fun x hx n hn =>
        ⟨n.parent, hsprouts.kept hn (hne x hx)⟩
      have hapart : ∀ x ∈ leaves.map (·.id), x ∉ idsAll ss := fun x hx hm => by
        obtain ⟨r, hr, rfl⟩ := List.mem_map.mp hx
        obtain ⟨n, hn, -⟩ := ShowsAll.children_mem_idsAll ss hss _ hm
        rw [(hsprouts.leaf r hr).1] at hn
        cases hn
      show t.copyWaiting? ((p.id, q.id) :: waiting) = _
      rw [copyWaiting?.eq_def]
      simp only [hp, Option.bind_eq_bind, Option.bind_some]
      rw [hfollow waiting hstand]
      exact hwait waiting hshow hapart

theorem copyBelowAll_grows : ∀ (ss : List (OrderedTree Placed)) {t : Tree} {c : NodeId} {leaves : List Placed},
    t.Stored → (∀ q ∈ leaves, t.get? q.id = some ⟨q.kind, q.span, some c, []⟩) → (leaves.map (·.id)).Nodup →
    leaves.map Placed.part = ss.map (·.label.part) →
    ∃ t' us, (copyBelowAll ss (leaves.map (·.id))).run t = .ok () t' ∧ t.Grows t' us ∧ us.map (·.label) = leaves ∧
      partsAll us = partsAll ss ∧
      ∀ waiting, t.ShowsAll ss → (∀ x ∈ leaves.map (·.id), x ∉ idsAll ss) →
        t.copyWaiting? (((ss.map (·.label.id)).zip (leaves.map (·.id))).reverse ++ waiting) = t'.copyWaiting? waiting
  | [], t, _, leaves, h, _, _, hparts => by
    obtain rfl : leaves = [] := List.map_eq_nil_iff.mp hparts
    exact ⟨t, [], rfl, .nil h, rfl, rfl, fun _ _ _ => rfl⟩
  | s :: ss, t, _, [], _, _, _, hparts => nomatch hparts
  | s :: ss, t, c, q :: leaves, h, hleaf, hd, hparts => by
    rw [List.map_cons, List.nodup_cons] at hd
    rw [List.map_cons, List.map_cons, List.cons.injEq] at hparts
    obtain ⟨hq, hrest⟩ := List.forall_mem_cons.mp hleaf
    obtain ⟨t₁, us, hrun, hgrows, hlabels, hus, hwait⟩ := copyBelowAll_grows ss h hrest hd.2 hparts.2
    have hids : us.map (·.label.id) = leaves.map (·.id) := by rw [← hlabels, List.map_map]; rfl
    have hout : q.id ∉ us.map (·.label.id) := hids ▸ hd.1
    obtain ⟨t₂, vs, hrun₂, hgrows₂, hvs, hwait₂⟩ := copyBelow_grows s hgrows.stored (hgrows.kept hq hout) hparts.1
    refine ⟨t₂, .node q vs :: us, by simp [copyBelowAll, hrun, hrun₂], hgrows.cons hgrows₂ hq hout, ?_, ?_,
      fun waiting ⟨hs, hss⟩ hapart => ?_⟩
    · rw [List.map_cons, hlabels, label]
    · rw [partsAll, partsAll, hvs, hus]
    · simp only [idsAll_cons, List.mem_append, not_or, List.map_cons, List.forall_mem_cons] at hapart
      obtain ⟨hq', hrest'⟩ := hapart
      have hs₁ : t₁.Shows s := hgrows.shows_of_shows hs fun x hx hm => (hrest' x (hids ▸ hm)).1 hx
      rw [List.map_cons, List.map_cons, List.zip_cons_cons, List.reverse_cons, List.append_assoc,
        List.singleton_append, hwait _ hss fun x hx => (hrest' x hx).2, hwait₂ waiting hs₁ hq'.1]

end

/-- The copy of a tree is a leaf that has grown. -/
theorem deepCopy_grows {s : OrderedTree Placed} (h : t.WellFormed) (hs : t.Shows s) :
    let copy : Placed := ⟨t.reserve.1, s.label.kind, s.label.span⟩
    ∃ t' us, (deepCopy s.label.id).run t = .ok copy.id t' ∧ t.copy? s.label.id = some (copy.id, t') ∧
      (t.insert copy.kind copy.span []).2.Grows t' [.node copy us] ∧ (OrderedTree.node copy us).parts = s.parts := by
  intro copy
  obtain ⟨parent, htop⟩ := hs.top
  let t₀ := (t.insert copy.kind copy.span []).2
  have hleaf : t₀.get? copy.id = some ⟨copy.kind, copy.span, none, []⟩ := by
    rw [get?_insert h.toStored, if_pos rfl]
  obtain ⟨t', us, hrun, hgrows, hparts, hwait⟩ := copyBelow_grows s (h.toStored.insert copy.kind copy.span []) hleaf rfl
  have hold := fun {x m} (hx : t.get? x = some m) =>
    get?_insert_of_not_mem h.toStored copy.kind copy.span hx List.not_mem_nil
  have hshow : t₀.Shows s := hs.congr s fun x _ m hm => ⟨m.parent, (hold hm).2⟩
  have hfresh : copy.id ∉ s.ids := fun hm => by
    obtain ⟨m, hm⟩ := hs.live hm
    exact (hold hm).1 rfl
  refine ⟨t', us, ?_, ?_, hgrows, hparts⟩
  · have hbelow : (copyBelow s (t.insert s.label.kind s.label.span []).1).run
        (t.insert s.label.kind s.label.span []).2 = .ok () t' := hrun
    simp only [deepCopy, EStateM.run_bind, EStateM.run_get, h.subtree?_of_shows hs, Edit.insert,
      EStateM.run_modifyGet, hbelow, EStateM.run_pure]
    rfl
  · have hfollow : t₀.copyWaiting? [(s.label.id, copy.id)] = some t' := by
      rw [hwait [] hshow hfresh, copyWaiting?.eq_def]
    rw [copy?, htop]
    show (t₀.copyWaiting? [(s.label.id, copy.id)]).bind _ = _
    rw [hfollow]
    rfl

/-- The copy of a tree stands for the same parts, beside all nodes of before, and nothing else is made. -/
theorem deepCopy_beside {s : OrderedTree Placed} (h : t.WellFormed) (hs : t.Shows s) :
    ∃ t' u, (deepCopy s.label.id).run t = .ok u.label.id t' ∧ t.copy? s.label.id = some (u.label.id, t') ∧
      t.Beside t' [u] ∧ u.parts = s.parts ∧ ∀ x n, t'.get? x = some n → x ∈ u.ids ∨ ∃ m, t.get? x = some m := by
  obtain ⟨t', us, hrun, hcopy, hgrows, hparts⟩ := deepCopy_grows h hs
  have hwf : t'.WellFormed := by
    obtain ⟨parent, htop⟩ := hs.top
    obtain ⟨a, t'', hrun', hwf⟩ := (deepCopy_decides h).done (allMet_cons.mpr ⟨⟨_, htop⟩, allMet_nil⟩)
    rw [hrun] at hrun'
    cases hrun'
    exact hwf
  have hold := fun {x m} (hx : t.get? x = some m) =>
    get?_insert_of_not_mem h.toStored s.label.kind s.label.span hx List.not_mem_nil
  have hroot : t'.root = t.root := hgrows.root.trans (root_insert ..)
  have hfloating : t'.Floating t.reserve.1 := by
    obtain ⟨m, hm, hmp⟩ := hgrows.parent (x := t.reserve.1) (by rw [get?_insert h.toStored, if_pos rfl])
    obtain ⟨r, hr, -⟩ := h.root
    exact ⟨m, hm, hmp, fun e => (hold hr).1 (e.trans hroot).symm⟩
  refine ⟨t', .node ⟨t.reserve.1, s.label.kind, s.label.span⟩ us, hrun, hcopy,
    ⟨hwf, hroot, fun {x m} hx => ?_, hgrows.shows, ?_, List.nodup_singleton _⟩, hparts, fun x n hx => ?_⟩
  · have htop : x ∉ [OrderedTree.node ⟨t.reserve.1, s.label.kind, s.label.span⟩ us].map (·.label.id) := by
      simpa [label] using (hold hx).1
    refine ⟨hgrows.kept (hold hx).2 htop, fun hm => ?_⟩
    have hnone := hgrows.fresh x hm htop
    rw [(hold hx).2] at hnone
    cases hnone
  · simpa [label] using hfloating
  · rcases hgrows.only hx with hx | ⟨m, hm⟩
    · exact .inl (by simpa using hx)
    · rcases live_of_get?_insert h.toStored hm with rfl | hx
      · exact .inl (id_mem_ids _)
      · exact .inr hx

end Edit

namespace Tree

open OrderedTree

variable {t t' : Tree} {id : NodeId} {n : Node} {s u : OrderedTree Placed}

/-- The nodes that are counted are those of before and those of the tree that has been made. -/
theorem Beside.live_eq (h : t.WellFormed) (hb : t.Beside t' [u])
    (honly : ∀ x n, t'.get? x = some n → x ∈ u.ids ∨ ∃ m, t.get? x = some m) : t'.live = t.live + u.ids.length := by
  have hkept := fun {x n} (hx : t.get? x = some n) => hb.kept hx
  simp only [idsAll_cons, idsAll_nil, List.append_nil] at hkept
  have hu := hb.shows.1
  refine h.toStored.live_add_length hb.wellFormed.toStored .nil (Shows.nodup_ids hb.wellFormed.toLinked u hu) (by simp)
    (fun x hx => hu.live hx) fun x => ⟨?_, ?_⟩
  · rintro ⟨⟨n, hn⟩, -⟩
    exact ⟨⟨n, (hkept hn).1⟩, (hkept hn).2⟩
  · rintro ⟨⟨n, hn⟩, hx⟩
    exact ⟨(honly x n hn).resolve_left hx, List.not_mem_nil⟩

theorem length_ids_of_parts (h : u.parts = s.parts) : u.ids.length = s.ids.length := by
  have hlabels := congrArg (fun p => p.labels.length) h
  simpa [labels_parts, ids] using hlabels

/-- In a reachable tree the copy of a node is made, whether the whole tree is looked at first or only links are
followed. It is floating, and its tree stands for the same parts in the same order; it is made of new nodes, as many
as were copied; and all nodes of before are as they were. -/
theorem Reachable.deepCopy_exact (h : t.Reachable) (hn : t.get? id = some n) : ∃ copy t' s u,
    (Edit.deepCopy id).run t = .ok copy t' ∧ t.copy? id = some (copy, t') ∧ t'.isFloating copy = true ∧
    (t.Shows s ∧ s.label.id = id) ∧ (t'.Shows u ∧ u.label.id = copy) ∧ u.parts = s.parts ∧
    (∀ x ∈ u.ids, t.get? x = none) ∧ s.ids.Nodup ∧ t'.live = t.live + s.ids.length ∧ t'.root = t.root ∧
    ∀ x m, t.get? x = some m → t'.get? x = some m := by
  have hw := h.wellFormed
  obtain ⟨s, hs⟩ := hw.exists_subtree? hn
  obtain ⟨hshow, rfl⟩ := shows_of_subtree? hs
  obtain ⟨t', u, hrun, hcopy, hbeside, hparts, honly⟩ := Edit.deepCopy_beside hw hshow
  obtain ⟨m, hm, hmp, hmr⟩ := hbeside.floating u List.mem_cons_self
  refine ⟨u.label.id, t', s, u, hrun, hcopy, ?_, ⟨hshow, rfl⟩, ⟨hbeside.shows.1, rfl⟩, hparts, fun x hx => ?_,
    Shows.nodup_ids hw.toLinked s hshow, ?_, hbeside.root, fun x k hk => (hbeside.kept hk).1⟩
  · simp [isFloating, hm, hmp, hmr]
  · refine Option.eq_none_iff_forall_ne_some.mpr fun k hk => ?_
    have hout := (hbeside.kept hk).2
    rw [idsAll_cons, idsAll_nil, List.append_nil] at hout
    exact hout hx
  · rw [hbeside.live_eq hw honly, length_ids_of_parts hparts]

/-- A program of one class, with a method that has been freed. -/
def classAlone : Tree :=
  (Operation.discard ⟨2, 0⟩).after <|
    (Operation.alloc (.method [] .void "m" []) .dummy []).after oneClass

/-- The copy of the whole program begins in the slot of the method, and is of two nodes. -/
theorem deepCopy_exact_reused : classAlone.Reachable ∧ (∃ n, classAlone.get? ⟨0, 0⟩ = some n) ∧
    ∃ t', (Edit.deepCopy ⟨0, 0⟩).run classAlone = .ok ⟨2, 1⟩ t' ∧ t'.live = classAlone.live + 2 := by
  have h : classAlone.Reachable := .step _ (.step _ (.step _ (.step _ .empty)))
  have hunit : classAlone.get? ⟨0, 0⟩ = some ⟨.unit, .dummy, none, [⟨1, 0⟩]⟩ := rfl
  obtain ⟨copy, t', s, u, hrun, -, -, ⟨hs, hid⟩, -, -, -, -, hlive, -, -⟩ := h.deepCopy_exact hunit
  have hclass : classAlone.Shows (.node ⟨⟨1, 0⟩, .classDecl [] "A", .dummy⟩ []) := ⟨⟨some ⟨0, 0⟩, rfl⟩, trivial⟩
  obtain rfl : s = .node ⟨⟨0, 0⟩, .unit, .dummy⟩ [.node ⟨⟨1, 0⟩, .classDecl [] "A", .dummy⟩ []] :=
    Shows.unique _ _ hs ⟨⟨none, rfl⟩, hclass, trivial⟩ hid
  have hcopy : EStateM.Result.ok ⟨2, 1⟩ _ = EStateM.Result.ok copy t' := hrun
  cases hcopy
  exact ⟨h, ⟨_, hunit⟩, _, hrun, hlive⟩

end Tree

end JavaFold
