import JavaFold.Proofs.Tree.Programs

/-!
# Rewriting a part of a tree

`Tree.Rewrite t u u' t'` says that `t'` is `t` with the tree `u'` in the place of the tree `u`, and
that no other node has changed, but for the parent of `u`, which lists the new top in the place of
the old one. Rewrites follow each other (`Rewrite.trans`), and a rewrite of a child is one of its
parent (`Rewrite.child`), so what a walk does can be put together from what it does at each node.
`Edit.replace` is a rewrite (`Edit.run_replace_shown`).
-/

namespace JavaFold

/-! ## Exchanging one of several children -/

namespace Edit

variable {old new : NodeId}

theorem exchange_self (old : NodeId) : ∀ cs : List NodeId, exchange old old cs = cs
  | [] => rfl
  | c :: cs => by
    rw [exchange, exchange_self old cs]
    split
    · next h => rw [h]
    · rfl

theorem exchange_of_not_mem : ∀ {cs : List NodeId}, old ∉ cs → exchange old new cs = cs
  | [], _ => rfl
  | c :: cs, h => by
    rw [List.mem_cons, not_or] at h
    rw [exchange, if_neg (Ne.symm h.1), exchange_of_not_mem h.2]

theorem exchange_append : ∀ {cs : List NodeId} (ds : List NodeId), old ∉ cs →
    exchange old new (cs ++ old :: ds) = cs ++ new :: ds
  | [], ds, _ => by rw [List.nil_append, exchange, if_pos rfl]; rfl
  | c :: cs, ds, h => by
    rw [List.mem_cons, not_or] at h
    rw [List.cons_append, exchange, if_neg (Ne.symm h.1), exchange_append ds h.2]
    rfl

theorem exchange_exchange {mid : NodeId} : ∀ {cs : List NodeId}, mid ∉ cs ∨ mid = old →
    exchange mid new (exchange old mid cs) = exchange old new cs
  | [], _ => rfl
  | c :: cs, h => by
    by_cases hc : c = old
    · rw [exchange, if_pos hc, exchange, if_pos rfl, exchange, if_pos hc]
    · have hcm : c ≠ mid := by
        rintro rfl
        rcases h with h | h
        · exact h List.mem_cons_self
        · exact hc h
      have ih : exchange mid new (exchange old mid cs) = exchange old new cs :=
        exchange_exchange (h.imp_left fun h hm => h (List.mem_cons_of_mem _ hm))
      rw [exchange, if_neg hc, exchange, if_neg hcm, ih, exchange, if_neg hc]

end Edit

namespace Tree

open OrderedTree

variable {t t' t₁ t₂ : Tree} {id p j a b x : NodeId} {n : Node} {u u' u'' s : OrderedTree Placed}

/-- Two nodes above the same one are above each other one way or the other. -/
theorem above_total (ha : t.Above a x) (hb : t.Above b x) : t.Above a b ∨ t.Above b a := by
  induction ha with
  | refl => exact .inr hb
  | @tail y z hay hyz ih =>
    by_cases hbz : b = z
    · exact .inl (hbz ▸ hay.tail hyz)
    · exact ih (above_parent hb hbz hyz)

/-- The tree `u'` has taken the place of `u`, and nothing else has changed. -/
structure Rewrite (t : Tree) (u u' : OrderedTree Placed) (t' : Tree) : Prop where
  wellFormed : t'.WellFormed
  root : t'.root = t.root
  shows : t'.Shows u'
  isParent {p : NodeId} : t.IsParent p u.label.id → t'.IsParent p u'.label.id
  kept {j : NodeId} {n : Node} : t.get? j = some n → j ∉ u.ids → j ∉ u'.ids ∧
    t'.get? j = some { n with children := Edit.exchange u.label.id u'.label.id n.children }
  only {j : NodeId} {n : Node} : t'.get? j = some n → j ∉ u'.ids → j ∉ u.ids ∧ ∃ m, t.get? j = some m

theorem Rewrite.refl (h : t.WellFormed) (hs : t.Shows u) : Rewrite t u u t :=
  ⟨h, rfl, hs, id, fun hn hj => ⟨hj, by rw [Edit.exchange_self, hn]⟩, fun hn hj => ⟨hj, _, hn⟩⟩

theorem Rewrite.trans (h : t.WellFormed) (hs : t.Shows u) (h₁ : Rewrite t u u' t₁)
    (h₂ : Rewrite t₁ u' u'' t₂) : Rewrite t u u'' t₂ := by
  refine ⟨h₂.wellFormed, h₂.root.trans h₁.root, h₂.shows, fun hp => h₂.isParent (h₁.isParent hp),
    fun {j n} hn hj => ?_, fun hn hj => ?_⟩
  swap
  · obtain ⟨hj₁, m, hm⟩ := h₂.only hn hj
    exact h₁.only hm hj₁
  obtain ⟨hj₁, hn₁⟩ := h₁.kept hn hj
  obtain ⟨hj₂, hn₂⟩ := h₂.kept hn₁ hj₁
  -- A child of `j` that is in `u'` was in `u`, so its parent would be there too, unless it is the top.
  have hmid : u'.label.id ∉ n.children ∨ u'.label.id = u.label.id := by
    by_cases hm : u'.label.id ∈ n.children
    · refine .inr ?_
      have hp := h.isParent_of_mem hn hm
      obtain ⟨k, hk⟩ := hp.live
      by_contra hne
      by_cases hu : u'.label.id ∈ u.ids
      · refine hj ((h.mem_ids_iff hs).mpr (above_parent ((h.mem_ids_iff hs).mp hu) (Ne.symm hne) hp))
      · exact (h₁.kept hk hu).1 u'.id_mem_ids
    · exact .inl hm
  refine ⟨hj₂, ?_⟩
  rw [hn₂, Edit.exchange_exchange hmid]

/-- The top of a tree at a child is not above the parent. -/
theorem not_mem_ids_of_child (h : t.WellFormed) (hs : t.Shows u) (hp : t.IsParent p u.label.id) :
    p ∉ u.ids := fun hm => h.not_above_of_isParent hp ((h.mem_ids_iff hs).mp hm)

/-- A rewrite of a child is one of its parent. -/
theorem Rewrite.child {q : Placed} {before after : List (OrderedTree Placed)} (h : t.WellFormed)
    (hs : t.Shows (.node q (before ++ u :: after))) (hr : Rewrite t u u' t') :
    Rewrite t (.node q (before ++ u :: after)) (.node q (before ++ u' :: after)) t' := by
  have ⟨⟨parent, hq⟩, hall⟩ := hs
  have hshow : ∀ v ∈ before ++ u :: after, t.Shows v := fun v hv => showsAll_iff.mp hall v hv
  have hu : t.Shows u := hshow u (by simp)
  have hchild : ∀ v ∈ before ++ u :: after, t.IsParent q.id v.label.id := fun v hv =>
    h.isParent_of_mem hq (List.mem_map_of_mem hv)
  have hqu := hchild u (by simp)
  have hnodup := h.nodup_children hq
  rw [List.map_append, List.map_cons] at hnodup
  have hbefore : u.label.id ∉ before.map (·.label.id) := fun hm =>
    (List.nodup_append.mp hnodup).2.2 _ hm _ List.mem_cons_self rfl
  have hafter : u.label.id ∉ after.map (·.label.id) :=
    (List.nodup_cons.mp (List.nodup_append.mp hnodup).2.1).1
  have hq' := (hr.kept hq (not_mem_ids_of_child h hu hqu)).2
  rw [List.map_append, List.map_cons, Edit.exchange_append _ hbefore] at hq'
  have hother : ∀ {j n}, t.get? j = some n → j ∉ u.ids → j ≠ q.id →
      j ∉ u'.ids ∧ t'.get? j = some n := by
    intro j n hn hj hjq
    have hk := hr.kept hn hj
    rwa [Edit.exchange_of_not_mem fun hm => hjq ((h.isParent_of_mem hn hm).unique hqu)] at hk
  have hsibling : ∀ v ∈ before ++ u :: after, v.label.id ≠ u.label.id → t'.Shows v := by
    intro v hv hne
    refine (hshow v hv).congr v fun x hx n hn => ?_
    have hvx := (h.mem_ids_iff (hshow v hv)).mp hx
    have hxu : x ∉ u.ids := fun hm =>
      hne (h.disjoint_siblings (hchild v hv) hqu hvx ((h.mem_ids_iff hu).mp hm))
    have hxq : x ≠ q.id := by
      rintro rfl
      exact not_mem_ids_of_child h (hshow v hv) (hchild v hv) hx
    exact ⟨n.parent, (hother hn hxu hxq).2⟩
  refine ⟨hr.wellFormed, hr.root, ⟨⟨parent, ?_⟩, showsAll_iff.mpr fun v hv => ?_⟩, ?_, ?_, ?_⟩
  · rw [hq', List.map_append, List.map_cons]
  · rcases List.mem_append.mp hv with hv | hv
    · exact hsibling v (List.mem_append_left _ hv) fun e => hbefore (e ▸ List.mem_map_of_mem hv)
    · rcases List.mem_cons.mp hv with rfl | hv
      · exact hr.shows
      · exact hsibling v (by simp [hv]) fun e => hafter (e ▸ List.mem_map_of_mem hv)
  · rintro p ⟨n, hn, hp⟩
    rw [show (node q (before ++ u :: after)).label.id = q.id from rfl, hq] at hn
    cases hn
    exact ⟨_, hq', hp⟩
  · intro j n hn hj
    have hself : (node q (before ++ u :: after)).label.id = (node q (before ++ u' :: after)).label.id :=
      rfl
    rw [hself, Edit.exchange_self]
    rw [ids_node, List.mem_cons, not_or, mem_idsAll] at hj ⊢
    have hju : j ∉ u.ids := fun hm => hj.2 ⟨u, by simp, hm⟩
    obtain ⟨hj', hn'⟩ := hother hn hju hj.1
    refine ⟨⟨hj.1, ?_⟩, hn'⟩
    rintro ⟨v, hv, hm⟩
    rcases List.mem_append.mp hv with hv | hv
    · exact hj.2 ⟨v, List.mem_append_left _ hv, hm⟩
    · rcases List.mem_cons.mp hv with rfl | hv
      · exact hj' hm
      · exact hj.2 ⟨v, by simp [hv], hm⟩
  · intro j n hn hj
    rw [ids_node, List.mem_cons, not_or, mem_idsAll] at hj ⊢
    obtain ⟨hju, hm⟩ := hr.only hn fun hm => hj.2 ⟨u', by simp, hm⟩
    refine ⟨⟨hj.1, ?_⟩, hm⟩
    rintro ⟨v, hv, hm⟩
    rcases List.mem_append.mp hv with hv | hv
    · exact hj.2 ⟨v, List.mem_append_left _ hv, hm⟩
    · rcases List.mem_cons.mp hv with rfl | hv
      · exact hju hm
      · exact hj.2 ⟨v, by simp [hv], hm⟩

end Tree

namespace OrderedTree

mutual

/-- The tree with `u` in the place of the subtrees whose top has the id `id`. -/
def graft (id : NodeId) (u : OrderedTree Placed) : OrderedTree Placed → OrderedTree Placed
  | .node q ss => if q.id = id then u else .node q (graftAll id u ss)

def graftAll (id : NodeId) (u : OrderedTree Placed) :
    List (OrderedTree Placed) → List (OrderedTree Placed)
  | [] => []
  | s :: ss => graft id u s :: graftAll id u ss

end

mutual

theorem graft_of_not_mem {id : NodeId} {u : OrderedTree Placed} :
    ∀ s : OrderedTree Placed, id ∉ s.ids → graft id u s = s
  | .node q ss, h => by
    rw [ids_node, List.mem_cons, not_or] at h
    rw [graft, if_neg (Ne.symm h.1), graftAll_of_not_mem ss h.2]

theorem graftAll_of_not_mem {id : NodeId} {u : OrderedTree Placed} :
    ∀ ss : List (OrderedTree Placed), id ∉ idsAll ss → graftAll id u ss = ss
  | [], _ => rfl
  | s :: ss, h => by
    rw [idsAll_cons, List.mem_append, not_or] at h
    rw [graftAll, graft_of_not_mem s h.1, graftAll_of_not_mem ss h.2]

end

end OrderedTree

namespace Tree

open OrderedTree

variable {t t' : Tree} {p j : NodeId} {n : Node} {u u' : OrderedTree Placed}

mutual

/-- A rewrite anywhere below a node is one of the whole tree at the node. -/
theorem Rewrite.graft (h : t.WellFormed) (hu : t.Shows u) (hr : Rewrite t u u' t') :
    ∀ s : OrderedTree Placed, t.Shows s → u.label.id ∈ s.ids →
      Rewrite t s (OrderedTree.graft u.label.id u' s) t'
  | .node q ss, hs, hm => by
    rw [OrderedTree.graft]
    split
    · next he => exact Shows.unique _ _ hu hs he.symm ▸ hr
    · next he =>
      rw [ids_node, List.mem_cons] at hm
      exact Rewrite.graftAll h hu hr q [] ss hs (hm.resolve_left (Ne.symm he))

theorem Rewrite.graftAll (h : t.WellFormed) (hu : t.Shows u) (hr : Rewrite t u u' t') (q : Placed) :
    ∀ before ss : List (OrderedTree Placed), t.Shows (.node q (before ++ ss)) →
      u.label.id ∈ idsAll ss → Rewrite t (.node q (before ++ ss))
        (.node q (before ++ OrderedTree.graftAll u.label.id u' ss)) t'
  | _, [], _, hm => nomatch hm
  | before, s :: ss, hs, hm => by
    rw [OrderedTree.graftAll]
    have hshow : t.Shows s := showsAll_iff.mp hs.2 s (by simp)
    by_cases hms : u.label.id ∈ s.ids
    · -- The trees at the other children have no node in common with this one.
      have hnodup := Shows.nodup_ids h.toLinked _ hs
      have hss : u.label.id ∉ idsAll ss := fun hm' => by
        rw [ids_node, List.nodup_cons, idsAll_append, idsAll_cons, List.nodup_append,
          List.nodup_append] at hnodup
        exact hnodup.2.2.1.2.2 _ hms _ hm' rfl
      rw [graftAll_of_not_mem ss hss]
      exact (Rewrite.graft h hu hr s hshow hms).child h hs
    · rw [graft_of_not_mem s hms]
      rw [idsAll_cons, List.mem_append] at hm
      have ih := Rewrite.graftAll h hu hr q (before ++ [s]) ss (by simpa using hs)
        (hm.resolve_left hms)
      simpa using ih

end

end Tree

namespace Edit

open JavaFold.Tree OrderedTree

variable {t : Tree} {p : NodeId} {u u' : OrderedTree Placed}

/-- Trees at nodes of which none is above the other have no node in common. -/
theorem not_mem_ids_of_not_above (h : t.WellFormed) (hu : t.Shows u) (hu' : t.Shows u')
    (hf : t.Floating u'.label.id) (hna : ¬ t.Above u'.label.id u.label.id) {x : NodeId}
    (hx : x ∈ u'.ids) : x ∉ u.ids := fun hm => by
  rcases above_total ((h.mem_ids_iff hu).mp hm) ((h.mem_ids_iff hu').mp hx) with ha | ha
  · exact hna ((hf.eq_of_above ha).symm ▸ .refl)
  · exact hna ha

/-- The tree at a node is as it was when another node has taken its place. -/
theorem subtree?_relinked {new : NodeId} (h : t.WellFormed) (hp : t.IsParent p u.label.id) (hu : t.Shows u)
    (hf : t.Floating new) (hna : ¬ t.Above new u.label.id) :
    (t.relinked p u.label.id new).subtree? u.label.id = some u := by
  have hni : new ≠ u.label.id := fun e => hna (e ▸ .refl)
  have hpn : p ≠ new := by
    rintro rfl
    exact hna (.single hp)
  refine (h.relinked hp hf hna).subtree?_of_shows (hu.congr u fun x hx n hn => ?_)
  have hxn : x ≠ new := by
    rintro rfl
    exact hni (hf.eq_of_above ((h.mem_ids_iff hu).mp hx)).symm
  have hxp : x ≠ p := fun e => not_mem_ids_of_child h hu hp (e ▸ hx)
  rw [get?_relinked hpn (h.ne_of_isParent hp) hni, if_neg hxn, if_neg hxp, hn]
  split
  · exact ⟨none, rfl⟩
  · exact ⟨n.parent, rfl⟩

/-- What replacing does to what is shown, and to all other nodes. -/
theorem run_replace_shown (u u' : OrderedTree Placed) (h : t.WellFormed)
    (hp : t.IsParent p u.label.id) (hu : t.Shows u) (hu' : t.Shows u')
    (hf : t.Floating u'.label.id) (hna : ¬ t.Above u'.label.id u.label.id) :
    ∃ t', (replace u.label.id u'.label.id).run t = .ok () t' ∧ t'.WellFormed ∧ t'.root = t.root ∧
      t'.Shows u' ∧ t'.IsParent p u'.label.id ∧
      (∀ j n, t.get? j = some n → j ∉ u.ids → j ∉ u'.ids →
        t'.get? j = some { n with children := exchange u.label.id u'.label.id n.children }) ∧
      ∀ j n, t'.get? j = some n → j ∉ u.ids ∧ ∃ m, t.get? j = some m := by
  have hdisj := fun {x} => not_mem_ids_of_not_above (x := x) h hu hu' hf hna
  have hni : u'.label.id ≠ u.label.id := fun e => hna (e ▸ .refl)
  have hpi := h.ne_of_isParent hp
  have hpn : p ≠ u'.label.id := by
    rintro rfl
    exact hna (.single hp)
  have hpu' : p ∉ u'.ids := fun hm => hna (((h.mem_ids_iff hu').mp hm).tail hp)
  have hg := get?_relinked (t := t) hpn hpi hni
  have hr := get?_release (subtree?_relinked h hp hu hf hna)
  refine ⟨_, run_replace h hp hf hna, (h.relinked hp hf hna).release (h.floating_relinked hp hf hna),
    (root_release _ _).trans (root_relinked _ _ _ _), hu'.congr u' fun x hx n hn => ?_, ?_, ?_, ?_⟩
  · have hxp : x ≠ p := fun e => hpu' (e ▸ hx)
    have hxu : x ≠ u.label.id := fun e => hdisj hx (e ▸ u.id_mem_ids)
    rw [hr, if_neg (hdisj hx), hg, if_neg hxu, if_neg hxp, hn]
    split
    · exact ⟨some p, rfl⟩
    · exact ⟨n.parent, rfl⟩
  · obtain ⟨n, hn⟩ := hf.live
    exact ⟨{ n with parent := some p }, by rw [hr, if_neg (hdisj u'.id_mem_ids), hg, if_pos rfl, hn]; rfl,
      rfl⟩
  · intro j n hn hj hj'
    have hjn : j ≠ u'.label.id := fun e => hj' (e ▸ u'.id_mem_ids)
    have hju : j ≠ u.label.id := fun e => hj (e ▸ u.id_mem_ids)
    rw [hr, if_neg hj, hg, if_neg hjn, if_neg hju, hn]
    split
    · rfl
    · next hjp =>
      rw [exchange_of_not_mem fun hm => hjp ((h.isParent_of_mem hn hm).unique hp)]
  · intro j n hn
    rw [hr] at hn
    split at hn
    · cases hn
    · next hj =>
      exact ⟨hj, live_of_get?_relinked hpn hpi hni hn⟩

/-- A fresh node without children can be put in the place of a node, which is a rewrite. -/
theorem run_renew (h : t.WellFormed) (hu : t.Shows u) (hp : t.IsParent p u.label.id) (kind : NodeKind) (span : Span) :
    ∃ t₁ t', (alloc kind span []).run t = .ok t.reserve.1 t₁ ∧ (replace u.label.id t.reserve.1).run t₁ = .ok () t' ∧
      t.Rewrite u (.node ⟨t.reserve.1, kind, span⟩ []) t' := by
  let leaf : OrderedTree Placed := .node ⟨t.reserve.1, kind, span⟩ []
  let t₁ := (t.insert kind span []).2
  have hwf₁ : t₁.WellFormed := h.insert _ _ .nil fun c hc => absurd hc List.not_mem_nil
  have hfloat : t₁.Floating t.reserve.1 := h.floating_insert kind span []
  have hold : ∀ {j n}, t.get? j = some n → j ≠ t.reserve.1 ∧ t₁.get? j = some n := fun hn =>
    get?_insert_of_not_mem h.toStored kind span hn List.not_mem_nil
  have hleaf : t₁.Shows leaf := ⟨⟨none, by rw [get?_insert h.toStored, if_pos rfl]; rfl⟩, trivial⟩
  have hu₁ : t₁.Shows u := hu.congr u fun x _ n hn => ⟨n.parent, (hold hn).2⟩
  obtain ⟨n, hn, hnp⟩ := hp
  have hp₁ : t₁.IsParent p u.label.id := ⟨n, (hold hn).2, hnp⟩
  have hna : ¬ t₁.Above leaf.label.id u.label.id := by
    intro ha
    have hm := (hwf₁.mem_ids_iff hleaf).mpr ha
    rw [ids_node] at hm
    exact (hold hn).1 (List.mem_singleton.mp hm)
  obtain ⟨t', hrun, hwf', hr', hs', hp', hk', ho'⟩ := run_replace_shown u leaf hwf₁ hp₁ hu₁ hleaf hfloat hna
  have hnone : ∀ c ∈ ([] : List NodeId), t.Floating c := fun c hc => absurd hc List.not_mem_nil
  refine ⟨t₁, t', run_alloc kind span hnone .nil, hrun, hwf', hr'.trans (root_insert ..), hs', fun hq => ?_,
    fun {j m} hj hju => ?_, fun {j m} hj hjl => ?_⟩
  · exact hq.unique ⟨n, hn, hnp⟩ ▸ hp'
  · have hj' : j ∉ leaf.ids := by
      rw [ids_node]
      exact fun hm => (hold hj).1 (List.mem_singleton.mp hm)
    exact ⟨hj', hk' _ _ (hold hj).2 hju hj'⟩
  · obtain ⟨hju, k, hk⟩ := ho' j m hj
    refine ⟨hju, (live_of_get?_insert h.toStored hk).resolve_left fun e => hjl ?_⟩
    rw [ids_node, e]
    exact List.mem_cons_self

end Edit

end JavaFold
