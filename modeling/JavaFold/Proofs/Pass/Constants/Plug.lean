import JavaFold.Pass.Constants
import JavaFold.Proofs.Tree.Rewrite

/-!
# Putting literals into a tree

`plug` puts the literals of a list of replacements into a tree of nodes; where one of them takes the
place of a node, nothing below the node is left. `refill` does so with fresh nodes for the literals.
`run_substitutes` proves that the replacements, made one after the other, do just that, provided that none
is of a node that an earlier one has taken away.
`Yields` says this of the replacements found in a tree, and how those of its subtrees make up those of
the whole.
-/

namespace JavaFold

open OrderedTree

theorem OrderedTree.subtrees_subset_subtreesAll {α : Type} {s : OrderedTree α} : ∀ {ss : List (OrderedTree α)},
    s ∈ ss → s.subtrees ⊆ subtreesAll ss
  | u :: ss, hs => by
    rw [subtreesAll]
    rcases List.mem_cons.mp hs with rfl | hs
    · exact List.subset_append_left _ _
    · exact List.Subset.trans (subtrees_subset_subtreesAll hs) (List.subset_append_right _ _)

mutual

theorem OrderedTree.label_mem_labels_of_mem_subtrees {α : Type} {u : OrderedTree α} : ∀ s : OrderedTree α,
    u ∈ s.subtrees → u.label ∈ s.labels
  | .node p ss, hu => by
    rcases List.mem_cons.mp hu with rfl | hu
    · exact List.mem_cons_self
    · exact List.mem_cons_of_mem _ (label_mem_labelsAll_of_mem_subtreesAll ss hu)

theorem OrderedTree.label_mem_labelsAll_of_mem_subtreesAll {α : Type} {u : OrderedTree α} :
    ∀ ss : List (OrderedTree α), u ∈ subtreesAll ss → u.label ∈ labelsAll ss
  | s :: ss, hu => by
    rw [labelsAll, List.mem_append]
    exact (List.mem_append.mp hu).imp (label_mem_labels_of_mem_subtrees s) (label_mem_labelsAll_of_mem_subtreesAll ss)

end

namespace Constants

mutual

/-- The parts of a tree with literals in the place of some nodes. -/
def plug (rs : List Replacement) : OrderedTree Placed → OrderedTree Part
  | .node p ss =>
    match rs.find? (·.node == p.id) with
    | some r => .node ⟨.expr (.literal r.value), p.span⟩ []
    | none => .node p.part (plugAll rs ss)

def plugAll (rs : List Replacement) : List (OrderedTree Placed) → List (OrderedTree Part)
  | [] => []
  | s :: ss => plug rs s :: plugAll rs ss

end

section

variable {rs rs' : List Replacement} {p : Placed} {ss : List (OrderedTree Placed)}

theorem plug_self {r : Replacement} (h : rs.find? (·.node == p.id) = some r) :
    plug rs (.node p ss) = .node ⟨.expr (.literal r.value), p.span⟩ [] := by
  rw [plug, h]

theorem plug_node (h : ∀ r ∈ rs, r.node ≠ p.id) :
    plug rs (.node p ss) = .node p.part (plugAll rs ss) := by
  have hnone : rs.find? (·.node == p.id) = none := by
    exact List.find?_eq_none.mpr fun r hr => by simpa using h r hr
  rw [plug, hnone]

mutual

/-- Only replacements of nodes of the tree count. -/
theorem plug_congr : ∀ s : OrderedTree Placed,
    (∀ x ∈ s.ids, rs.find? (·.node == x) = rs'.find? (·.node == x)) → plug rs s = plug rs' s
  | .node p ss, h => by
    rw [ids_node] at h
    rw [plug, plug, h p.id List.mem_cons_self,
      plugAll_congr ss fun x hx => h x (List.mem_cons_of_mem _ hx)]

theorem plugAll_congr : ∀ ss : List (OrderedTree Placed),
    (∀ x ∈ idsAll ss, rs.find? (·.node == x) = rs'.find? (·.node == x)) →
      plugAll rs ss = plugAll rs' ss
  | [], _ => rfl
  | s :: ss, h => by
    rw [idsAll_cons] at h
    rw [plugAll, plugAll, plug_congr s fun x hx => h x (List.mem_append_left _ hx),
      plugAll_congr ss fun x hx => h x (List.mem_append_right _ hx)]

end

mutual

theorem plug_nil : ∀ s : OrderedTree Placed, plug [] s = s.parts
  | .node p ss => by
    rw [plug_node fun r hr => absurd hr List.not_mem_nil, parts, plugAll_nil ss]

theorem plugAll_nil : ∀ ss : List (OrderedTree Placed), plugAll [] ss = partsAll ss
  | [] => rfl
  | s :: ss => by rw [plugAll, partsAll, plug_nil s, plugAll_nil ss]

end

theorem plugAll_append (ss us : List (OrderedTree Placed)) :
    plugAll rs (ss ++ us) = plugAll rs ss ++ plugAll rs us := by
  induction ss with
  | nil => rfl
  | cons s ss ih => rw [List.cons_append, plugAll, plugAll, ih, List.cons_append]

theorem find?_append_left {x : NodeId} (h : ∀ r ∈ rs', r.node ≠ x) :
    (rs ++ rs').find? (·.node == x) = rs.find? (·.node == x) := by
  have hnone : rs'.find? (·.node == x) = none := by
    exact List.find?_eq_none.mpr fun r hr => by simpa using h r hr
  rw [List.find?_append, hnone, Option.or_none]

theorem find?_append_right {x : NodeId} (h : ∀ r ∈ rs, r.node ≠ x) :
    (rs ++ rs').find? (·.node == x) = rs'.find? (·.node == x) := by
  have hnone : rs.find? (·.node == x) = none := by
    exact List.find?_eq_none.mpr fun r hr => by simpa using h r hr
  rw [List.find?_append, hnone, Option.none_or]

end

/-! ## Making replacements -/

section

variable {t t' : Tree} {s : OrderedTree Placed} {id x : NodeId} {l : Placed}

mutual

/-- What is not below the node stays when a tree takes its place. -/
theorem mem_ids_graft {u : OrderedTree Placed} : ∀ s : OrderedTree Placed,
    x ∈ s.ids → (∀ v ∈ s.subtrees, v.label.id = id → x ∉ v.ids) → x ∈ (graft id u s).ids
  | .node p ss, hx, h => by
    rw [graft]
    split
    · next hp => exact absurd hx (h _ List.mem_cons_self hp)
    · rw [ids_node, List.mem_cons] at hx ⊢
      refine hx.imp_right fun hx => mem_idsAll_graftAll ss hx fun v hv => ?_
      exact h v (List.mem_cons_of_mem _ hv)

theorem mem_idsAll_graftAll {u : OrderedTree Placed} : ∀ ss : List (OrderedTree Placed),
    x ∈ idsAll ss → (∀ v ∈ subtreesAll ss, v.label.id = id → x ∉ v.ids) →
      x ∈ idsAll (graftAll id u ss)
  | [], hx, _ => hx
  | s :: ss, hx, h => by
    rw [graftAll, idsAll_cons, List.mem_append]
    rw [idsAll_cons, List.mem_append] at hx
    rcases hx with hx | hx
    · exact .inl (mem_ids_graft s hx fun v hv => h v (List.mem_append_left _ hv))
    · exact .inr (mem_idsAll_graftAll ss hx fun v hv => h v (List.mem_append_right _ hv))

end

mutual

/-- A tree with literals in the place of some nodes, each with the fresh id that is given for the node. -/
def refill (rs : List Replacement) (fresh : NodeId → NodeId) : OrderedTree Placed → OrderedTree Placed
  | .node p ss =>
    match rs.find? (·.node == p.id) with
    | some r => .node ⟨fresh p.id, .expr (.literal r.value), p.span⟩ []
    | none => .node p (refillAll rs fresh ss)

def refillAll (rs : List Replacement) (fresh : NodeId → NodeId) :
    List (OrderedTree Placed) → List (OrderedTree Placed)
  | [] => []
  | s :: ss => refill rs fresh s :: refillAll rs fresh ss

end

section

variable {rs : List Replacement} {fresh : NodeId → NodeId}

theorem find?_eq_none {x : NodeId} (h : ∀ r ∈ rs, r.node ≠ x) : rs.find? (·.node == x) = none :=
  List.find?_eq_none.mpr fun r hr => by simpa using h r hr

theorem refill_node {p : Placed} {ss : List (OrderedTree Placed)} (h : ∀ r ∈ rs, r.node ≠ p.id) :
    refill rs fresh (.node p ss) = .node p (refillAll rs fresh ss) := by
  rw [refill, find?_eq_none h]

mutual

theorem refill_nil : ∀ s : OrderedTree Placed, refill [] fresh s = s
  | .node p ss => by rw [refill_node fun r hr => absurd hr List.not_mem_nil, refillAll_nil ss]

theorem refillAll_nil : ∀ ss : List (OrderedTree Placed), refillAll [] fresh ss = ss
  | [] => rfl
  | s :: ss => by rw [refillAll, refill_nil s, refillAll_nil ss]

end

mutual

/-- The parts of the nodes do not depend on the ids of the fresh ones. -/
theorem parts_refill : ∀ s : OrderedTree Placed, (refill rs fresh s).parts = plug rs s
  | .node p ss => by
    rw [refill, plug]
    split
    · rfl
    · rw [parts, partsAll_refillAll ss]

theorem partsAll_refillAll : ∀ ss : List (OrderedTree Placed), partsAll (refillAll rs fresh ss) = plugAll rs ss
  | [] => rfl
  | s :: ss => by rw [refillAll, partsAll, plugAll, parts_refill s, partsAll_refillAll ss]

end

mutual

/-- A literal that has been put in by hand is one that is filled in. -/
theorem refill_graft {r : Replacement} (hl : l.kind = .expr (.literal r.value)) (hfresh : ∀ r ∈ rs, r.node ≠ l.id) :
    ∀ s : OrderedTree Placed,
      (∀ v ∈ s.subtrees, v.label.id = r.node → v.label.span = l.span) →
        refill rs fresh (graft r.node (.node l []) s) =
          refill (r :: rs) (fun x => if x = r.node then l.id else fresh x) s
  | .node p ss, h => by
    rw [graft]
    split
    · next hp =>
      have hspan := h _ List.mem_cons_self hp
      have hfind : (r :: rs).find? (·.node == p.id) = some r := by
        rw [List.find?_cons_of_pos (by simp [hp])]
      have hleaf : l = ⟨l.id, .expr (.literal r.value), p.span⟩ := by rw [← hl, show p.span = l.span from hspan]
      rw [refill_node hfresh, refill, hfind]
      dsimp only
      rw [if_pos hp, ← hleaf]
      rfl
    · next hp =>
      have hfind : (r :: rs).find? (·.node == p.id) = rs.find? (·.node == p.id) := by
        rw [List.find?_cons_of_neg (by simpa using Ne.symm hp)]
      rw [refill, refill, hfind, if_neg hp,
        refillAll_graftAll hl hfresh ss fun v hv => h v (List.mem_cons_of_mem _ hv)]

theorem refillAll_graftAll {r : Replacement} (hl : l.kind = .expr (.literal r.value))
    (hfresh : ∀ r ∈ rs, r.node ≠ l.id) : ∀ ss : List (OrderedTree Placed),
      (∀ v ∈ subtreesAll ss, v.label.id = r.node → v.label.span = l.span) →
        refillAll rs fresh (graftAll r.node (.node l []) ss) =
          refillAll (r :: rs) (fun x => if x = r.node then l.id else fresh x) ss
  | [], _ => rfl
  | s :: ss, h => by
    rw [graftAll, refillAll, refillAll,
      refill_graft hl hfresh s fun v hv => h v (List.mem_append_left _ hv),
      refillAll_graftAll hl hfresh ss fun v hv => h v (List.mem_append_right _ hv)]

end

end

end

section

open JavaFold.Tree

variable {t t' : Tree} {s u : OrderedTree Placed} {p a b : NodeId}

/-- Putting a literal in the place of a node is a rewrite. -/
theorem run_substitute (h : t.WellFormed) (hu : t.Shows u) (hp : t.IsParent p u.label.id)
    (v : Literal) : ∃ t', (substitute ⟨u.label.id, v⟩).run t = .ok () t' ∧
      t.get? t.reserve.1 = none ∧
      t.Rewrite u (.node ⟨t.reserve.1, .expr (.literal v), u.label.span⟩ []) t' := by
  obtain ⟨t₁, t', halloc, hrun, hr⟩ := Edit.run_renew h hu hp (.expr (.literal v)) u.label.span
  obtain ⟨parent, htop⟩ := hu.top
  refine ⟨t', ?_, get?_fresh h.toStored, hr⟩
  unfold substitute
  simp only [EStateM.run_bind, Edit.run_live htop, halloc]
  exact hrun

/-- Among nodes that are kept, a rewrite puts none above another. -/
theorem above_of_rewrite {u' : OrderedTree Placed} (h : t.WellFormed) (hu : t.Shows u)
    (hr : t.Rewrite u u' t') (ha : t'.Above a b) :
    ∀ {n : Node}, t.get? b = some n → b ∉ u.ids → t.Above a b := by
  induction ha with
  | refl => exact fun _ _ => .refl
  | @tail x b _ hx ih =>
    intro n hb hbu
    have hxb : t.IsParent x b := by
      obtain ⟨m, hm, hmp⟩ := hx
      rw [(hr.kept hb hbu).2] at hm
      cases hm
      exact ⟨n, hb, hmp⟩
    obtain ⟨m, hm, -⟩ := h.mem_of_isParent hxb
    have hxu : x ∉ u.ids := fun hx => hbu ((h.mem_ids_iff hu).mpr (((h.mem_ids_iff hu).mp hx).tail hxb))
    exact (ih hm hxu).tail hxb

mutual

/-- The trees below a shown one are shown. -/
theorem shows_of_mem_subtrees : ∀ s : OrderedTree Placed, t.Shows s → ∀ v ∈ s.subtrees, t.Shows v
  | .node p ss, h, v, hv => by
    rcases List.mem_cons.mp hv with rfl | hv
    · exact h
    · exact shows_of_mem_subtreesAll ss h.2 v hv

theorem shows_of_mem_subtreesAll : ∀ ss : List (OrderedTree Placed), t.ShowsAll ss →
    ∀ v ∈ subtreesAll ss, t.Shows v
  | [], _, _, hv => absurd hv List.not_mem_nil
  | s :: ss, h, v, hv => by
    rcases List.mem_append.mp hv with hv | hv
    · exact shows_of_mem_subtrees s h.1 v hv
    · exact shows_of_mem_subtreesAll ss h.2 v hv

end

/-- Replacements made one after the other put their literals in, if none of them is of a node that an
earlier one has taken away. -/
theorem run_substitutes : ∀ {rs : List Replacement} {t : Tree} {s : OrderedTree Placed},
    t.WellFormed → t.Shows s → (∀ r ∈ rs, r.node ∈ idsAll s.children) →
    rs.Pairwise (fun r r' => ¬ t.Above r.node r'.node) →
    ∃ fresh t', (rs.forM substitute).run t = .ok () t' ∧ t.Rewrite s (refill rs fresh s) t' ∧
      (refill rs fresh s).label = s.label := by
  intro rs
  induction rs with
  | nil =>
    intro t s h hs _ _
    refine ⟨id, t, rfl, ?_, ?_⟩
    · rw [refill_nil]
      exact .refl h hs
    · rw [refill_nil]
  | cons r rs ih =>
    intro t s h hs hmem hpair
    obtain ⟨q, ss⟩ := s
    have ⟨hr, hrs⟩ := List.forall_mem_cons.mp hmem
    have ⟨hafter, hpair⟩ := List.pairwise_cons.mp hpair
    have hrs' : r.node ∈ (node q ss).ids := by
      rw [ids_node]
      exact List.mem_cons_of_mem _ hr
    have hq : q.id ≠ r.node := by
      have hnodup := Shows.nodup_ids h.toLinked _ hs
      rw [ids_node] at hnodup
      exact fun e => (List.nodup_cons.mp hnodup).1 (e ▸ hr)
    obtain ⟨n, hn⟩ := hs.live hrs'
    obtain ⟨u, hsub⟩ := h.exists_subtree? hn
    obtain ⟨hu, hur⟩ := shows_of_subtree? hsub
    obtain ⟨p, -, hp⟩ := (Relation.ReflTransGen.cases_tail ((h.mem_ids_iff hs).mp hrs')).resolve_left
      (Ne.symm hq)
    have hsame : ∀ v, t.Shows v → v.label.id = r.node → v = u := fun v hv e =>
      Shows.unique v u hv hu (e.trans hur.symm)
    -- The nodes that are still to be replaced are kept.
    have hkept : ∀ r' ∈ rs, r'.node ∉ u.ids := fun r' hr' hm =>
      hafter r' hr' (hur ▸ (h.mem_ids_iff hu).mp hm)
    have hlive : ∀ r' ∈ rs, ∃ n, t.get? r'.node = some n := fun r' hr' =>
      hs.live (by rw [ids_node]; exact List.mem_cons_of_mem _ (hrs r' hr'))
    obtain ⟨t₁, hrun, hfresh, hrew⟩ := run_substitute h hu (hur ▸ hp) r.value
    have hgraft := Rewrite.graft h hu hrew (node q ss) hs (hur ▸ hrs')
    rw [hur] at hrun hgraft
    rw [graft, if_neg hq] at hgraft
    obtain ⟨fresh, t', hrun', hrew', hlabel⟩ := ih hgraft.wellFormed hgraft.shows
      (fun r' hr' => mem_idsAll_graftAll ss (hrs r' hr') fun v hv e =>
        hsame v (shows_of_mem_subtreesAll ss hs.2 v hv) e ▸ hkept r' hr')
      (hpair.imp_of_mem fun {a b} _ hb hab ha => by
        obtain ⟨n, hn⟩ := hlive b hb
        exact hab (above_of_rewrite h hu hrew ha hn (hkept b hb)))
    have hnew : ∀ r' ∈ rs, r'.node ≠ t.reserve.1 := by
      intro r' hr' e
      obtain ⟨n, hn⟩ := hlive r' hr'
      rw [e, hfresh] at hn
      cases hn
    have hspan : ∀ v ∈ (node q ss).subtrees, v.label.id = r.node → v.label.span = u.label.span := by
      intro v hv e
      rw [hsame v (shows_of_mem_subtrees _ hs v hv) e]
    let leaf : Placed := ⟨t.reserve.1, .expr (.literal r.value), u.label.span⟩
    have hrefill : refill rs fresh (graft r.node (.node leaf []) (node q ss)) = _ :=
      refill_graft rfl hnew (node q ss) hspan
    rw [graft, if_neg hq] at hrefill
    rw [hrefill] at hrew' hlabel
    refine ⟨_, t', ?_, hgraft.trans h hs hrew', hlabel⟩
    have hcons : (r :: rs).forM substitute = (substitute r >>= fun _ => rs.forM substitute) := rfl
    rw [hcons, EStateM.run_bind, hrun]
    exact hrun'

end

/-! ## Trees side by side -/

/-- No node of one tree is above a node of the other. -/
def Apart (t : Tree) (s u : OrderedTree Placed) : Prop :=
  ∀ x ∈ s.ids, ∀ y ∈ u.ids, ¬ t.Above x y ∧ ¬ t.Above y x

/-- Trees that stand side by side. -/
def Spread (t : Tree) (ss : List (OrderedTree Placed)) : Prop :=
  t.ShowsAll ss ∧ ss.Pairwise (Apart t)

/-- The replacements `rs` are of nodes of the trees `ss`, and none is of a node that an earlier one has
taken away. -/
structure InOrder (t : Tree) (ss : List (OrderedTree Placed)) (rs : List Replacement) : Prop where
  nodes : ∀ r ∈ rs, r.node ∈ idsAll ss
  order : rs.Pairwise fun r r' => ¬ t.Above r.node r'.node

/-- The replacements `rs` are of nodes of the trees `ss` and make `outs` of them. -/
structure Yields (ss : List (OrderedTree Placed)) (rs : List Replacement)
    (outs : List (OrderedTree Part)) : Prop where
  nodes : ∀ r ∈ rs, r.node ∈ idsAll ss
  plugged : plugAll rs ss = outs

section

open JavaFold.Tree

variable {t : Tree} {s : OrderedTree Placed} {ss us : List (OrderedTree Placed)} {p : Placed}
  {rs rs' : List Replacement} {outs outs' : List (OrderedTree Part)}

theorem Apart.symm {u : OrderedTree Placed} (h : Apart t s u) : Apart t u s :=
  fun x hx y hy => (h y hy x hx).symm

/-- The trees at the children of a node stand side by side. -/
theorem spread_of_shows (h : t.WellFormed) (hs : t.Shows (.node p ss)) : Spread t ss := by
  have ⟨⟨parent, hp⟩, hss⟩ := hs
  have hnodup := List.pairwise_map.mp (h.nodup_children hp)
  refine ⟨hss, hnodup.imp_of_mem fun {s u} hs' hu' hne x hx y hy => ?_⟩
  have hps : t.IsParent p.id s.label.id := h.isParent_of_mem hp (List.mem_map_of_mem hs')
  have hpu : t.IsParent p.id u.label.id := h.isParent_of_mem hp (List.mem_map_of_mem hu')
  have hsx := (h.mem_ids_iff (showsAll_iff.mp hss s hs')).mp hx
  have huy := (h.mem_ids_iff (showsAll_iff.mp hss u hu')).mp hy
  exact ⟨fun hxy => hne (h.disjoint_siblings hps hpu (hsx.trans hxy) huy),
    fun hyx => hne (h.disjoint_siblings hps hpu hsx (huy.trans hyx))⟩

theorem Spread.append (h : Spread t (ss ++ us)) : Spread t ss ∧ Spread t us := by
  have ⟨hshow, hapart⟩ := h
  have ⟨hss, hus, _⟩ := List.pairwise_append.mp hapart
  rw [showsAll_iff] at hshow
  exact ⟨⟨showsAll_iff.mpr fun s hs => hshow s (List.mem_append_left _ hs), hss⟩,
    ⟨showsAll_iff.mpr fun s hs => hshow s (List.mem_append_right _ hs), hus⟩⟩

theorem Spread.across (h : Spread t (ss ++ us)) : ∀ s ∈ ss, ∀ u ∈ us, Apart t s u := by
  exact (List.pairwise_append.mp h.2).2.2

/-- Trees side by side have no node in common. -/
theorem Spread.disjoint (h : Spread t (ss ++ us)) : (idsAll ss).Disjoint (idsAll us) := by
  intro x hx hy
  obtain ⟨s, hs, hxs⟩ := mem_idsAll.mp hx
  obtain ⟨u, hu, hxu⟩ := mem_idsAll.mp hy
  exact (h.across s hs u hu x hxs x hxu).1 .refl

/-! ### Replacements in order -/

theorem InOrder.nil (t : Tree) (ss : List (OrderedTree Placed)) : InOrder t ss [] := by
  exact ⟨fun _ hr => absurd hr List.not_mem_nil, .nil⟩

/-- Replacements in trees side by side may follow each other. -/
theorem InOrder.append (h : InOrder t ss rs) (h' : InOrder t us rs')
    (hap : ∀ s ∈ ss, ∀ u ∈ us, Apart t s u) : InOrder t (ss ++ us) (rs ++ rs') := by
  refine ⟨fun r hr => ?_, List.pairwise_append.mpr ⟨h.order, h'.order, fun r hr r' hr' => ?_⟩⟩
  · rw [idsAll_append, List.mem_append]
    exact (List.mem_append.mp hr).imp (h.nodes r) (h'.nodes r)
  · obtain ⟨s, hs, hm⟩ := mem_idsAll.mp (h.nodes r hr)
    obtain ⟨u, hu, hm'⟩ := mem_idsAll.mp (h'.nodes r' hr')
    exact (hap s hs u hu _ hm _ hm').1

/-- A replacement of a node comes after those below it. -/
theorem InOrder.replaced (h : t.WellFormed) (hs : t.Shows (.node p ss)) (hss : InOrder t ss rs)
    (v : Literal) : InOrder t [.node p ss] (rs ++ [⟨p.id, v⟩]) := by
  have hbelow : ∀ r ∈ rs, r.node ≠ p.id := by
    have hnodup := Shows.nodup_ids h.toLinked _ hs
    rw [ids_node] at hnodup
    exact fun r hr e => (List.nodup_cons.mp hnodup).1 (e ▸ hss.nodes r hr)
  have hids : idsAll [.node p ss] = p.id :: idsAll ss := by
    rw [idsAll_cons, idsAll_nil, List.append_nil, ids_node]
  have habove : ∀ r ∈ rs, t.Above p.id r.node := fun r hr =>
    (h.mem_ids_iff hs).mp (ids_node p ss ▸ List.mem_cons_of_mem _ (hss.nodes r hr))
  refine ⟨fun r hr => ?_, List.pairwise_append.mpr ⟨hss.order, List.pairwise_singleton _ _,
    fun r hr r' hr' ha => ?_⟩⟩
  · rw [hids, List.mem_cons]
    rcases List.mem_append.mp hr with hr | hr
    · exact .inr (hss.nodes r hr)
    · exact .inl (by rw [List.mem_singleton.mp hr])
  · rw [List.mem_singleton.mp hr'] at ha
    exact hbelow r hr (h.above_antisymm ha (habove r hr))

/-! ### What replacements make of trees -/

theorem Yields.unchanged (ss : List (OrderedTree Placed)) : Yields ss [] (partsAll ss) := by
  exact ⟨fun _ hr => absurd hr List.not_mem_nil, plugAll_nil ss⟩

/-- The replacements in trees side by side may come in either order. -/
theorem Yields.append_of {all : List Replacement} (hs : Yields ss rs outs) (h : Spread t (ss ++ us))
    (hu : Yields us rs' outs') (hall : all = rs ++ rs' ∨ all = rs' ++ rs) :
    Yields (ss ++ us) all (outs ++ outs') := by
  have hleft : ∀ x ∈ idsAll ss, all.find? (·.node == x) = rs.find? (·.node == x) := by
    intro x hx
    have hne : ∀ r ∈ rs', r.node ≠ x := fun r hr e => h.disjoint hx (e ▸ hu.nodes r hr)
    rcases hall with rfl | rfl
    · exact find?_append_left hne
    · exact find?_append_right hne
  have hright : ∀ x ∈ idsAll us, all.find? (·.node == x) = rs'.find? (·.node == x) := by
    intro x hx
    have hne : ∀ r ∈ rs, r.node ≠ x := fun r hr e => h.disjoint (e ▸ hs.nodes r hr) hx
    rcases hall with rfl | rfl
    · exact find?_append_right hne
    · exact find?_append_left hne
  refine ⟨fun r hr => ?_, ?_⟩
  · have hmem : r ∈ rs ∨ r ∈ rs' := by
      rcases hall with rfl | rfl
      · exact List.mem_append.mp hr
      · exact (List.mem_append.mp hr).symm
    rw [idsAll_append, List.mem_append]
    exact hmem.imp (hs.nodes r) (hu.nodes r)
  · rw [plugAll_append, plugAll_congr ss hleft, plugAll_congr us hright, hs.plugged, hu.plugged]

theorem Yields.append (hs : Yields ss rs outs) (h : Spread t (ss ++ us)) (hu : Yields us rs' outs') :
    Yields (ss ++ us) (rs ++ rs') (outs ++ outs') := by
  exact hs.append_of h hu (.inl rfl)

/-- Replacements below a node are of other nodes. -/
theorem Yields.ne_top (h : t.WellFormed) (hs : t.Shows (.node p ss)) (hss : Yields ss rs outs) :
    ∀ r ∈ rs, r.node ≠ p.id := by
  have hnodup := Shows.nodup_ids h.toLinked _ hs
  rw [ids_node] at hnodup
  exact fun r hr e => (List.nodup_cons.mp hnodup).1 (e ▸ hss.nodes r hr)

/-- The replacements below a node. -/
theorem Yields.node (h : t.WellFormed) (hs : t.Shows (.node p ss)) (hss : Yields ss rs outs) :
    Yields [.node p ss] rs [.node p.part outs] := by
  refine ⟨fun r hr => ?_, ?_⟩
  · rw [idsAll_cons, idsAll_nil, List.append_nil, ids_node]
    exact List.mem_cons_of_mem _ (hss.nodes r hr)
  · rw [plugAll, plugAll, plug_node (hss.ne_top h hs), hss.plugged]

/-- A literal in the place of the node itself. -/
theorem Yields.replaced (h : t.WellFormed) (hs : t.Shows (.node p ss)) (hss : Yields ss rs outs)
    (v : Literal) :
    Yields [.node p ss] (rs ++ [⟨p.id, v⟩]) [.node ⟨.expr (.literal v), p.span⟩ []] := by
  refine ⟨fun r hr => ?_, ?_⟩
  · rcases List.mem_append.mp hr with hr | hr
    · exact (hss.node h hs).nodes r hr
    · rw [List.mem_singleton.mp hr, idsAll_cons, ids_node]
      exact List.mem_cons_self
  · let r : Replacement := ⟨p.id, v⟩
    have hfind : (rs ++ [r]).find? (·.node == p.id) = some r := by
      rw [find?_append_right (hss.ne_top h hs)]
      exact List.find?_cons_of_pos (by simp [r])
    rw [plugAll, plugAll, plug_self hfind]

end

end Constants

end JavaFold
