import JavaFold.Pass.Blocks
import JavaFold.Proofs.Walk

/-!
# What folding blocks does

At each block with blocks among its children, the trees at the children are taken out, those of the
inner blocks in the place of these, and put below a fresh block in the place of the old one
(`Blocks.visitor_does`). While that goes on, the trees that have been taken out are floating beside a
node without children (`Blocks.Opened`).
-/

namespace JavaFold

namespace Blocks

open OrderedTree JavaFold.Tree Edit

/-- The trees in the place of one that is a child of a block. -/
def absorbed (s : OrderedTree Placed) : List (OrderedTree Placed) :=
  if s.label.kind.isBlock then s.children else [s]

/-- Whether the top of a tree is a block with a block among its children. -/
def isNestedIn (u : OrderedTree Placed) : Bool := u.children.any (·.label.kind.isBlock)

/-- What a visit makes of the tree at a block. -/
def Spliced : Effect := fun _ _ u _ u' c => c = isNestedIn u ∧
  if c then ∃ fresh, u' = .node ⟨fresh, .stmt .block, u.label.span⟩ (u.children.flatMap absorbed)
  else u' = u

variable {t t' t'' : Tree} {id : NodeId} {u c : OrderedTree Placed} {vs : List (OrderedTree Placed)}

/-- The trees `vs`, which have been taken out of `u`, are floating, the top of `u` has no children,
nothing else is left of `u`, and nothing outside it has changed. -/
structure Opened (t : Tree) (u : OrderedTree Placed) (vs : List (OrderedTree Placed)) (t' : Tree) :
    Prop where
  wellFormed : t'.WellFormed
  root : t'.root = t.root
  top : t'.get? u.label.id = (t.get? u.label.id).map ({ · with children := [] })
  shows : t'.ShowsAll vs
  floating : ∀ v ∈ vs, t'.Floating v.label.id
  nodup : (vs.map (·.label.id)).Nodup
  within : ∀ x ∈ idsAll vs, x ∈ u.ids ∧ x ≠ u.label.id
  only : ∀ x ∈ u.ids, x ≠ u.label.id → x ∉ idsAll vs → t'.get? x = none
  kept : ∀ j, j ∉ u.ids → t'.get? j = t.get? j

/-- The children of a node, when they have been taken out of it, show what they showed. -/
theorem showsAll_emptied {q : Placed} {ss : List (OrderedTree Placed)} (h : t.WellFormed)
    (hs : t.Shows (.node q ss)) : (t.emptied q.id (ss.map (·.label.id))).ShowsAll ss := by
  obtain ⟨⟨parent, hq⟩, hss⟩ := hs
  refine ShowsAll.congr ss hss fun x hx n hn => ?_
  obtain ⟨v, hv, hm⟩ := mem_idsAll.mp hx
  have hxq : x ≠ q.id := by
    rintro rfl
    have hp : t.IsParent q.id v.label.id := h.isParent_of_mem hq (List.mem_map_of_mem hv)
    exact not_mem_ids_of_child h (showsAll_iff.mp hss v hv) hp hm
  rw [get?_emptied (h.not_mem_children hq), if_neg hxq, hn]
  split
  · exact ⟨none, rfl⟩
  · exact ⟨n.parent, rfl⟩

theorem floating_emptied {n : Node} (h : t.WellFormed) (hn : t.get? id = some n) {x : NodeId}
    (hx : x ∈ n.children) : (t.emptied id n.children).Floating x := by
  have hp := h.isParent_of_mem hn hx
  obtain ⟨m, hm⟩ := hp.live
  refine ⟨{ m with parent := none }, ?_, rfl, ?_⟩
  · rw [get?_emptied (h.not_mem_children hn), if_pos hx, hm]
    rfl
  · rw [root_emptied]
    exact h.ne_root_of_isParent hp

theorem opened_emptied {q : Placed} {ss : List (OrderedTree Placed)} (h : t.WellFormed)
    (hs : t.Shows (.node q ss)) :
    Opened t (.node q ss) ss (t.emptied q.id (ss.map (·.label.id))) := by
  have ⟨⟨parent, hq⟩, hss⟩ := hs
  have hg := get?_emptied (t := t) (h.not_mem_children hq)
  have hnodup := Shows.nodup_ids h.toLinked _ hs
  rw [ids_node, List.nodup_cons] at hnodup
  refine ⟨h.emptied hq, root_emptied _ _ _, ?_, showsAll_emptied h hs, fun v hv => ?_,
    h.nodup_children hq, fun x hx => ⟨?_, fun e => hnodup.1 (e ▸ hx)⟩, fun x hx hne hss => ?_, fun j hj => ?_⟩
  · exact (hg q.id).trans ((if_neg (h.not_mem_children hq)).trans (if_pos rfl))
  · exact floating_emptied h hq (List.mem_map_of_mem hv)
  · rw [ids_node]
    exact List.mem_cons_of_mem _ hx
  · rw [ids_node] at hx
    exact absurd ((List.mem_cons.mp hx).resolve_left hne) hss
  · rw [ids_node, List.mem_cons, not_or] at hj
    have hjc : j ∉ ss.map (·.label.id) := fun hm => by
      obtain ⟨v, hv, rfl⟩ := List.mem_map.mp hm
      exact hj.2 (mem_idsAll.mpr ⟨v, hv, v.id_mem_ids⟩)
    rw [hg, if_neg hjc, if_neg hj.1]

/-- Two floating trees with different tops have no node in common. -/
theorem not_mem_of_floating {v : OrderedTree Placed} (h : t.WellFormed) (hc : t.Shows c)
    (hv : t.Shows v) (hfc : t.Floating c.label.id) (hfv : t.Floating v.label.id)
    (hne : c.label.id ≠ v.label.id) {x : NodeId} (hx : x ∈ v.ids) : x ∉ c.ids := fun hm => by
  rcases above_total ((h.mem_ids_iff hc).mp hm) ((h.mem_ids_iff hv).mp hx) with ha | ha
  · exact hne (hfv.eq_of_above ha)
  · exact hne (hfc.eq_of_above ha).symm

/-- The top of the floating tree `c` has been freed, the trees at its children are floating, and nothing else
has changed. -/
structure Peeled (t : Tree) (c : OrderedTree Placed) (t' : Tree) : Prop where
  wellFormed : t'.WellFormed
  root : t'.root = t.root
  shows : t'.ShowsAll c.children
  floating : ∀ v ∈ c.children, t'.Floating v.label.id
  nodup : (c.children.map (·.label.id)).Nodup
  gone : t'.get? c.label.id = none
  kept : ∀ j, j ∉ c.ids → t'.get? j = t.get? j

/-- Freeing the top of a floating tree, but not what is below. -/
theorem run_discard_top (h : t.WellFormed) (hc : t.Shows c) (hf : t.Floating c.label.id) :
    ∃ t', (do
      let inner ← Edit.takeChildren c.label.id
      Edit.discard c.label.id
      return inner : Edit (List NodeId)).run t = .ok (c.children.map (·.label.id)) t' ∧ Peeled t c t' := by
  obtain ⟨q, cs⟩ := c
  have hf : t.Floating q.id := hf
  have ⟨⟨parent, hq⟩, _⟩ := hc
  have hopen := opened_emptied h hc
  have hwf := hopen.wellFormed
  have htop : (t.emptied q.id (cs.map (·.label.id))).get? q.id = some ⟨q.kind, q.span, parent, []⟩ :=
    hopen.top.trans (map_of_get? _ hq)
  have hfloating : (t.emptied q.id (cs.map (·.label.id))).Floating q.id := by
    obtain ⟨n, hn, hnp, hnr⟩ := hf
    rw [hq] at hn
    cases hn
    exact ⟨_, htop, hnp, hopen.root ▸ hnr⟩
  have hg : ∀ j, ((t.emptied q.id (cs.map (·.label.id))).release q.id).get? j =
      if j = q.id then none else (t.emptied q.id (cs.map (·.label.id))).get? j := by
    have hsub : (t.emptied q.id (cs.map (·.label.id))).subtree? q.id = some (.node q []) :=
      hwf.subtree?_of_shows (s := .node q []) ⟨⟨parent, htop⟩, trivial⟩
    intro j
    rw [get?_release hsub, ids_node, idsAll_nil]
    simp
  have hinner : ∀ v ∈ cs, ∀ x ∈ v.ids, x ≠ q.id := fun v hv x hx =>
    (hopen.within x (mem_idsAll.mpr ⟨v, hv, hx⟩)).2
  have hroot := root_release (t.emptied q.id (cs.map (·.label.id))) q.id
  refine ⟨_, ?_, hwf.release hfloating, hroot.trans hopen.root, ?_, fun v hv => ?_, hopen.nodup,
    (hg q.id).trans (if_pos rfl), fun j hj => ?_⟩
  · rw [show (node q cs).label.id = q.id from rfl, show (node q cs).children = cs from rfl]
    simp only [EStateM.run_bind, run_takeChildren h hq, run_discard hfloating, EStateM.run_pure]
  · refine showsAll_iff.mpr fun v hv => (showsAll_iff.mp hopen.shows v hv).congr v fun x hx n hn => ⟨n.parent, ?_⟩
    rw [hg, if_neg (hinner v hv x hx), hn]
  · refine (hopen.floating v hv).of_kept ?_ hroot
    rw [hg, if_neg (hinner v hv _ v.id_mem_ids)]
  · have hjq : j ≠ q.id := fun e => hj (e ▸ (node q cs).id_mem_ids)
    rw [hg, if_neg hjq, hopen.kept j hj]

/-- Freeing one of the trees that have been taken out, but not those below its top. -/
theorem Opened.absorb {before after : List (OrderedTree Placed)}
    (h : Opened t u (before ++ c :: after) t') (hpeel : Peeled t' c t'') :
    Opened t u (before ++ (c.children ++ after)) t'' := by
  have hshow := fun v hv => showsAll_iff.mp h.shows v hv
  have hnodup := h.nodup
  rw [List.map_append, List.map_cons, List.nodup_middle, List.nodup_cons, ← List.map_append] at hnodup
  obtain ⟨hcother, hothers⟩ := hnodup
  have hmem : ∀ v ∈ before ++ after, v ∈ before ++ c :: after := fun v hv => by
    rcases List.mem_append.mp hv with hv | hv <;> simp [hv]
  -- the other trees have no node in common with this one, so nothing changes in them
  have hdisj : ∀ v ∈ before ++ after, ∀ x ∈ v.ids, x ∉ c.ids := fun v hv x hx =>
    not_mem_of_floating h.wellFormed (hshow c (by simp)) (hshow v (hmem v hv)) (h.floating c (by simp))
      (h.floating v (hmem v hv)) (fun e => hcother (e ▸ List.mem_map_of_mem hv)) hx
  have hcases : ∀ v ∈ before ++ (c.children ++ after), v ∈ c.children ∨ v ∈ before ++ after := by
    intro v hv
    simp only [List.mem_append] at hv ⊢
    tauto
  have hinner : ∀ w ∈ c.children, ∀ x ∈ w.ids, x ∈ c.ids := fun w hw x hx => by
    obtain ⟨q, cs⟩ := c
    exact List.mem_cons_of_mem _ (mem_idsAll.mpr ⟨w, hw, hx⟩)
  have hc : c ∈ before ++ c :: after := by simp
  refine ⟨hpeel.wellFormed, hpeel.root.trans h.root, ?_, showsAll_iff.mpr fun v hv => ?_, fun v hv => ?_, ?_,
    fun x hx => ?_, fun x hx hne hvs => ?_, fun j hj => ?_⟩
  · exact (hpeel.kept _ fun hm => (h.within _ (mem_idsAll.mpr ⟨c, hc, hm⟩)).2 rfl).trans h.top
  · rcases hcases v hv with hv | hv
    · exact showsAll_iff.mp hpeel.shows v hv
    · refine (hshow v (hmem v hv)).congr v fun x hx n hn => ⟨n.parent, ?_⟩
      rw [hpeel.kept x (hdisj v hv x hx), hn]
  · rcases hcases v hv with hv | hv
    · exact hpeel.floating v hv
    · exact (h.floating v (hmem v hv)).of_kept (hpeel.kept _ (hdisj v hv _ v.id_mem_ids)).symm hpeel.root
  · rw [List.map_append, List.map_append, (List.perm_append_comm_assoc _ _ _).nodup_iff, ← List.map_append]
    refine List.nodup_append.mpr ⟨hpeel.nodup, hothers, ?_⟩
    rintro a ha b hb rfl
    obtain ⟨w, hw, rfl⟩ := List.mem_map.mp ha
    obtain ⟨v, hv, e⟩ := List.mem_map.mp hb
    exact hdisj v hv _ v.id_mem_ids (e ▸ hinner w hw _ w.id_mem_ids)
  · obtain ⟨v, hv, hx⟩ := mem_idsAll.mp hx
    rcases hcases v hv with hv | hv
    · exact h.within x (mem_idsAll.mpr ⟨c, hc, hinner v hv x hx⟩)
    · exact h.within x (mem_idsAll.mpr ⟨v, hmem v hv, hx⟩)
  · have hlisted : ∀ v ∈ before ++ (c.children ++ after), x ∉ v.ids := fun v hv hm =>
      hvs (mem_idsAll.mpr ⟨v, hv, hm⟩)
    by_cases hxc : x ∈ c.ids
    · obtain ⟨q, cs⟩ := c
      rcases List.mem_cons.mp hxc with rfl | hxc
      · exact hpeel.gone
      · obtain ⟨v, hv, hm⟩ := mem_idsAll.mp hxc
        exact absurd hm (hlisted v (by simp [show v ∈ (node q cs).children from hv]))
    · rw [hpeel.kept x hxc]
      refine h.only x hx hne fun hall => ?_
      obtain ⟨v, hv, hm⟩ := mem_idsAll.mp hall
      rcases List.mem_append.mp hv with hv | hv
      · exact hlisted v (by simp [hv]) hm
      · rcases List.mem_cons.mp hv with rfl | hv
        · exact hxc hm
        · exact hlisted v (by simp [hv]) hm
  · rw [hpeel.kept j fun hm => hj (h.within j (mem_idsAll.mpr ⟨c, hc, hm⟩)).1, h.kept j hj]

theorem run_absorb {before after : List (OrderedTree Placed)}
    (h : Opened t u (before ++ c :: after) t') : ∃ t'',
      (Blocks.absorb c.label.id).run t' = .ok ((absorbed c).map (·.label.id)) t'' ∧
        Opened t u (before ++ (absorbed c ++ after)) t'' := by
  obtain ⟨parent, hc⟩ := (showsAll_iff.mp h.shows c (by simp)).top
  by_cases hb : c.label.kind.isBlock = true
  · obtain ⟨t'', hrun, hpeel⟩ := run_discard_top h.wellFormed (showsAll_iff.mp h.shows c (by simp))
      (h.floating c (by simp))
    rw [absorbed, if_pos hb]
    refine ⟨t'', ?_, h.absorb hpeel⟩
    simpa [Blocks.absorb, run_live hc, hb] using hrun
  · rw [absorbed, if_neg hb]
    exact ⟨t', by simp [Blocks.absorb, run_live hc, hb], h⟩

theorem run_absorbAll : ∀ (cs : List (OrderedTree Placed)) {before : List (OrderedTree Placed)}
    {t' : Tree}, Opened t u (before ++ cs) t' → ∃ t'',
      (Blocks.absorbAll (cs.map (·.label.id))).run t' =
        .ok ((cs.flatMap absorbed).map (·.label.id)) t'' ∧
      Opened t u (before ++ cs.flatMap absorbed) t''
  | [], before, t', h => ⟨t', by simp [Blocks.absorbAll], h⟩
  | c :: cs, before, t', h => by
    obtain ⟨t₁, hrun₁, h₁⟩ := run_absorb h
    rw [← List.append_assoc] at h₁
    obtain ⟨t₂, hrun₂, h₂⟩ := run_absorbAll cs h₁
    refine ⟨t₂, ?_, ?_⟩
    · simp only [Blocks.absorbAll, List.map_cons, EStateM.run_bind, hrun₁, hrun₂, EStateM.run_pure,
        List.flatMap_cons, List.map_append]
    · rw [List.flatMap_cons, ← List.append_assoc]
      exact h₂

/-! ## A visit -/

theorem Opened.floating_ids (ho : Opened t u vs t') : ∀ id ∈ vs.map (·.label.id), t'.Floating id := by
  intro id hid
  obtain ⟨v, hv, rfl⟩ := List.mem_map.mp hid
  exact ho.floating v hv

/-- Putting the trees that have been taken out below a fresh node leaves all nodes outside as they were. -/
theorem Opened.kept_insert (ho : Opened t u vs t') (kind : NodeKind) (span : Span) {j : NodeId} {n : Node}
    (hn : t.get? j = some n) (hj : j ∉ u.ids) :
    j ≠ t'.reserve.1 ∧ (t'.insert kind span (vs.map (·.label.id))).2.get? j = some n := by
  refine get?_insert_of_not_mem ho.wellFormed.toStored kind span ((ho.kept j hj).trans hn) fun hm => ?_
  obtain ⟨v, hv, rfl⟩ := List.mem_map.mp hm
  exact hj (ho.within _ (mem_idsAll.mpr ⟨v, hv, v.id_mem_ids⟩)).1

/-- The top is still where it was, without children. -/
theorem Opened.top_insert (hu : t.Shows u) (ho : Opened t u vs t') (kind : NodeKind) (span : Span) :
    ∃ parent, t.get? u.label.id = some ⟨u.label.kind, u.label.span, parent, u.children.map (·.label.id)⟩ ∧
      u.label.id ≠ t'.reserve.1 ∧ (t'.insert kind span (vs.map (·.label.id))).2.get? u.label.id =
        some ⟨u.label.kind, u.label.span, parent, []⟩ := by
  obtain ⟨parent, hn⟩ := hu.top
  have htop : t'.get? u.label.id = some ⟨u.label.kind, u.label.span, parent, []⟩ := ho.top.trans (map_of_get? _ hn)
  refine ⟨parent, hn, get?_insert_of_not_mem ho.wellFormed.toStored kind span htop fun hm => ?_⟩
  obtain ⟨v, hv, e⟩ := List.mem_map.mp hm
  exact (ho.within _ (mem_idsAll.mpr ⟨v, hv, v.id_mem_ids⟩)).2 e

/-- Putting the trees that have been taken out below a fresh block, and that in the place of the old
one, is a rewrite. -/
theorem Opened.close {p : NodeId} (hu : t.Shows u) (hp : t.IsParent p u.label.id)
    (ho : Opened t u vs t') (kind : NodeKind) (span : Span) :
    ∃ fresh t'', (do
      let fresh ← Edit.alloc kind span (vs.map (·.label.id))
      Edit.replace u.label.id fresh
      return Visit.replaced fresh : Edit Visit).run t' = .ok (.replaced fresh) t'' ∧
      t.Rewrite u (.node ⟨fresh, kind, span⟩ vs) t'' := by
  have hwf := ho.wellFormed
  have hwf₁ := hwf.insert kind span ho.nodup ho.floating_ids
  have hf₁ := hwf.floating_insert kind span (vs.map (·.label.id))
  rw [insert_fst] at hf₁
  obtain ⟨parent, hn, hne, htop⟩ := ho.top_insert hu kind span
  have hshow₁ : (t'.insert kind span (vs.map (·.label.id))).2.Shows
      (.node ⟨t'.reserve.1, kind, span⟩ vs) := by
    refine ⟨⟨none, by rw [get?_insert hwf.toStored, if_pos rfl]⟩, ShowsAll.congr vs ho.shows fun x hx n hn => ?_⟩
    have hx : x ≠ t'.reserve.1 := by
      rintro rfl
      rw [get?_fresh hwf.toStored] at hn
      cases hn
    rw [get?_insert hwf.toStored, if_neg hx, hn]
    split
    · exact ⟨_, rfl⟩
    · exact ⟨n.parent, rfl⟩
  have hp₁ : (t'.insert kind span (vs.map (·.label.id))).2.IsParent p u.label.id := by
    obtain ⟨m, hm, hmp⟩ := hp
    rw [hn] at hm
    cases hm
    exact ⟨_, htop, hmp⟩
  have hna : ¬ (t'.insert kind span (vs.map (·.label.id))).2.Above t'.reserve.1 u.label.id := by
    intro ha
    have hm := (hwf₁.mem_ids_iff hshow₁).mpr ha
    rw [ids_node, List.mem_cons] at hm
    rcases hm with e | hm
    · exact hne e
    · exact (ho.within _ hm).2 rfl
  obtain ⟨t'', hrun, hwf', hr', hs', hp', hk', ho'⟩ := run_replace_shown
    (.node u.label []) (.node ⟨t'.reserve.1, kind, span⟩ vs) hwf₁ hp₁
    ⟨⟨parent, htop⟩, trivial⟩ hshow₁ hf₁ hna
  refine ⟨t'.reserve.1, t'', ?_, hwf', hr'.trans ((root_insert ..).trans ho.root), hs', ?_,
    fun {j n} hj hju => ?_, fun {j n} hj hjn => ?_⟩
  · have halloc := run_alloc kind span ho.floating_ids ho.nodup
    rw [insert_fst] at halloc
    simp only [EStateM.run_bind, halloc, EStateM.run_pure]
    rw [show (node ⟨t'.reserve.1, kind, span⟩ vs).label.id = t'.reserve.1 from rfl] at hrun
    rw [show (node u.label []).label.id = u.label.id from rfl] at hrun
    rw [hrun]
  · intro p' hpu
    rw [hpu.unique hp]
    exact hp'
  · obtain ⟨hjf, hj₁⟩ := ho.kept_insert kind span hj hju
    have hjn : j ∉ (node (⟨t'.reserve.1, kind, span⟩ : Placed) vs).ids := by
      rw [ids_node, List.mem_cons, not_or]
      exact ⟨hjf, fun hm => hju (ho.within j hm).1⟩
    refine ⟨hjn, hk' j n hj₁ ?_ hjn⟩
    rw [ids_node, idsAll_nil, List.mem_singleton]
    exact fun e => hju (e ▸ u.id_mem_ids)
  · obtain ⟨hjt, m, hm⟩ := ho' j n hj
    rw [ids_node, idsAll_nil, List.mem_singleton] at hjt
    rw [ids_node, List.mem_cons, not_or] at hjn
    obtain ⟨m', hm'⟩ := (live_of_get?_insert hwf.toStored hm).resolve_left hjn.1
    have hju : j ∉ u.ids := fun hju => by
      rw [ho.only j hju hjt hjn.2] at hm'
      cases hm'
    exact ⟨hju, m', ho.kept j hju ▸ hm'⟩

/-- A visit takes all statements out of a block with blocks in it, to put them below a fresh one, and leaves other
blocks alone. -/
theorem run_visit (h : t.WellFormed) (hs : t.Shows u) : if isNestedIn u then
    ∃ t', Opened t u (u.children.flatMap absorbed) t' ∧ (visit u.label.id).run t = (do
      let fresh ← Edit.alloc (.stmt .block) u.label.span ((u.children.flatMap absorbed).map (·.label.id))
      Edit.replace u.label.id fresh
      return Visit.replaced fresh : Edit Visit).run t'
    else (visit u.label.id).run t = .ok (.unchanged u.label.id) t := by
  obtain ⟨parent, hu⟩ := hs.top
  have hnested : (u.children.map (·.label.id)).any (isNested t) = isNestedIn u := by
    rw [isNestedIn, List.any_map, Bool.eq_iff_iff, List.any_eq_true, List.any_eq_true]
    have hkind : ∀ v ∈ u.children, isNested t v.label.id = v.label.kind.isBlock := fun v hv => by
      obtain ⟨parent, hv⟩ := (hs.below v hv).top
      rw [isNested, hv]
    refine exists_congr fun v => and_congr_right fun hv => ?_
    rw [Function.comp_apply, hkind v hv]
  split
  · next hn =>
    have hopen : Opened t u ([] ++ u.children) (t.emptied u.label.id (u.children.map (·.label.id))) := by
      obtain ⟨p, ss⟩ := u
      exact opened_emptied h hs
    obtain ⟨t₁, hrun₁, h₁⟩ := run_absorbAll u.children hopen
    refine ⟨t₁, h₁, ?_⟩
    simp only [visit, EStateM.run_bind, run_live hu, EStateM.run_get, hnested, if_pos hn, run_takeChildren h hu, hrun₁]
  · next hn =>
    simp only [visit, EStateM.run_bind, run_live hu, EStateM.run_get, hnested, if_neg hn, EStateM.run_pure]

/-- A visit puts a flat block in the place of one with blocks in it, and leaves other blocks alone. -/
theorem visitor_does : visitor.Does Spliced := by
  intro t st q before u after h hs hw
  have hshow : t.Shows u := showsAll_iff.mp hs.2 u (by simp)
  have hp : t.IsParent q.id u.label.id := by
    obtain ⟨⟨parent, hq⟩, -⟩ := hs
    exact h.isParent_of_mem hq (List.mem_map_of_mem (by simp))
  have hvisit := run_visit h hshow
  split at hvisit
  · next hn =>
    obtain ⟨t₁, h₁, hvisit⟩ := hvisit
    obtain ⟨fresh, t₂, hrun₂, hr⟩ := h₁.close hshow hp (.stmt .block) u.label.span
    refine ⟨_, true, t₂, st, ?_, hr, hn.symm, by rw [if_pos rfl]; exact ⟨fresh, rfl⟩⟩
    exact EditWith.run_lift (hvisit.trans hrun₂) st
  · next hn =>
    refine ⟨u, false, t, st, ?_, .refl h hshow, by simpa using Eq.symm (by simpa using hn), by simp⟩
    exact EditWith.run_lift hvisit st

end Blocks

end JavaFold
