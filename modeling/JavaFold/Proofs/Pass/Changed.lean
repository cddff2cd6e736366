import JavaFold.Proofs.Pass.Constants.Fold
import JavaFold.Proofs.Pass.Constants.Foldable
import JavaFold.Proofs.Tree.Layouts
import JavaFold.Proofs.Visits

/-!
# When a pass says that it has changed something

A visit that says that it has changed nothing leaves the tree as it is (`Visitor.Honest`), so a walk does too
(`Walk.go_unchanged`). A visit that says otherwise leaves fewer nodes that are not literals than there were: a block
that takes in other blocks has those no more, and a literal takes the place of a name or an operator. Such nodes never
become more on a walk (`Walk.unfolded_of_walked`), so a walk that has changed something has changed the shape of the
tree it was at, whatever the layout of the nodes is. `PassKind.fold_tells` puts this together with the nodes at which
no pass starts.
-/

namespace JavaFold

open OrderedTree JavaFold.Tree

/-! ## Walks that change nothing -/

/-- A visit that says that it has changed nothing has changed nothing. -/
def Visitor.Honest {σ : Type} (v : Visitor σ) : Prop :=
  ∀ {id node : NodeId} {s s' : Tree × σ}, (v.visit id).run s = .ok ⟨false, node⟩ s' → s' = s

theorem Visitor.Honest.of_edit {wants : NodeKind → Bool} {visit : NodeId → Edit Visit}
    (h : ∀ {id node : NodeId} {t t' : Tree}, (visit id).run t = .ok ⟨false, node⟩ t' → t' = t) :
    (⟨wants, fun id => EditWith.lift (visit id)⟩ : Visitor Unit).Honest := by
  rintro id node ⟨t, st⟩ s' hrun
  simp only [EStateM.run, EditWith.lift] at hrun
  split at hrun
  · next a t' hx =>
    cases hrun
    rw [h hx]
  · cases hrun

/-- A walk that says that it has changed nothing has changed nothing. -/
theorem Walk.go_unchanged {σ : Type} {v : Visitor σ} (hv : v.Honest) : ∀ (steps : Nat) (ended : Bool)
    (pending : List (NodeId × Bool)) (changed : Bool) {s s' : Tree × σ},
      (go v steps pending changed).run s = .ok (false, ended) s' → s' = s ∧ changed = false
  | 0, _, [], _, _, _, h | 0, _, _ :: _, _, _, _, h | _ + 1, _, [], _, _, _, h => by
    cases h
    exact ⟨rfl, rfl⟩
  | steps + 1, ended, (id, expanded) :: rest, changed, (t, st), s', h => by
    have ih := fun pending => go_unchanged hv steps ended pending
    cases hn : t.get? id with
    | none => exact ih rest _ (run_go_skip hn expanded steps rest changed ▸ h)
    | some n =>
      cases expanded with
      | false => exact ih _ _ (run_go_expand hn steps rest changed ▸ h)
      | true =>
        by_cases hw : v.wants n.kind = true
        · cases hvisit : (v.visit id).run (t, st) with
          | error e s₁ =>
            rw [run_go_fail hn hw hvisit] at h
            cases h
          | ok result s₁ =>
            rw [run_go_result hn hw hvisit] at h
            split at h
            · obtain ⟨rfl, hor⟩ := ih rest _ h
              obtain ⟨hchanged, hresult⟩ := Bool.or_eq_false_iff.mp hor
              obtain ⟨c, node⟩ := result
              cases hresult
              exact ⟨hv hvisit, hchanged⟩
            · cases h
        · rw [Bool.not_eq_true] at hw
          exact ih rest _ (run_go_pass hn hw steps rest changed ▸ h)

theorem Walk.run_unchanged {σ : Type} {v : Visitor σ} (hv : v.Honest) {root : NodeId} {s s' : Tree × σ}
    (h : (run v root).run s = .ok false s') : s' = s := by
  rw [run_eq] at h
  cases hgo : (go v (2 * s.1.slots.size) [(root, false)] false).run s with
  | error e s₁ =>
    rw [hgo] at h
    cases h
  | ok c s₁ =>
    obtain ⟨changed, ended⟩ := c
    rw [hgo] at h
    cases h
    exact (go_unchanged hv _ ended _ _ hgo).1

/-- A visit of a block that puts a fresh one in its place says so. -/
theorem Blocks.visit_unchanged {id node : NodeId} {t t' : Tree} (h : (visit id).run t = .ok ⟨false, node⟩ t') :
    t' = t := by
  rw [visit, EStateM.run_bind] at h
  cases hn : t.get? id with
  | none =>
    rw [Edit.run_live_stale hn] at h
    cases h
  | some n =>
    simp only [Edit.run_live hn, EStateM.run_bind, EStateM.run_get] at h
    split at h
    · -- each step goes on to the end, which says that the block has been replaced, or fails
      simp only [EStateM.run_bind] at h
      repeat' split at h
      all_goals cases h
    · cases h
      rfl

/-- A visit of a member in which something is replaced says so. -/
theorem Constants.visit_unchanged {id node : NodeId} {t t' : Tree} (h : (visit id).run t = .ok ⟨false, node⟩ t') :
    t' = t := by
  rw [visit, EStateM.run_bind, EStateM.run_get] at h
  dsimp only at h
  split at h
  · cases h
  · next s _ =>
    generalize replacements (fieldsAround t id) s = found at h
    cases found with
    | nil =>
      cases h
      rfl
    | cons r rs =>
      rw [EStateM.run_bind] at h
      split at h <;> cases h

/-! ## Nodes that are not literals -/

namespace OrderedTree

/-- The number of the nodes of a tree that are not literals. -/
def unfolded (s : OrderedTree Placed) : Nat := s.labels.countP (·.kind.literal?.isNone)

def unfoldedAll (ss : List (OrderedTree Placed)) : Nat := (labelsAll ss).countP (·.kind.literal?.isNone)

theorem unfolded_node (p : Placed) (ss : List (OrderedTree Placed)) :
    (node p ss).unfolded = unfoldedAll ss + if p.kind.literal?.isNone then 1 else 0 := by
  rw [unfolded, labels, List.countP_cons, unfoldedAll]

theorem unfoldedAll_nil : unfoldedAll [] = 0 := rfl

theorem unfoldedAll_cons (s : OrderedTree Placed) (ss : List (OrderedTree Placed)) :
    unfoldedAll (s :: ss) = s.unfolded + unfoldedAll ss := by
  rw [unfoldedAll, labelsAll, List.countP_append, unfolded, unfoldedAll]

theorem unfoldedAll_append (ss us : List (OrderedTree Placed)) :
    unfoldedAll (ss ++ us) = unfoldedAll ss + unfoldedAll us := by
  rw [unfoldedAll, labelsAll_append, List.countP_append, unfoldedAll, unfoldedAll]

mutual

theorem unfolded_eq_of_sameBy : ∀ {s u : OrderedTree Placed}, s.sameBy (fun x y => x.kind == y.kind) u = true →
    s.unfolded = u.unfolded
  | .node p ss, .node q us, h => by
    rw [sameBy, Bool.and_eq_true, beq_iff_eq] at h
    rw [unfolded_node, unfolded_node, h.1, unfoldedAll_eq_of_sameByAll h.2]

theorem unfoldedAll_eq_of_sameByAll : ∀ {ss us : List (OrderedTree Placed)},
    sameByAll (fun x y => x.kind == y.kind) ss us = true → unfoldedAll ss = unfoldedAll us
  | [], [], _ => rfl
  | s :: ss, u :: us, h => by
    rw [sameByAll, Bool.and_eq_true] at h
    rw [unfoldedAll_cons, unfoldedAll_cons, unfolded_eq_of_sameBy h.1, unfoldedAll_eq_of_sameByAll h.2]

end

end OrderedTree

/-- A visit that says that it has changed something leaves fewer nodes that are not literals, and any other visit not
more. -/
def Effect.Folds (wants : NodeKind → Bool) (R : Effect) : Prop :=
  ∀ {q : Placed} {before after : List (OrderedTree Placed)} {u u' : OrderedTree Placed} {c : Bool},
    wants u.label.kind = true → R q before u after u' c → u'.unfolded + c.toNat ≤ u.unfolded

namespace Walk

variable {wants : NodeKind → Bool} {R : Effect}

theorem toNat_or_le (a b : Bool) : (a || b).toNat ≤ a.toNat + b.toNat := by
  cases a <;> cases b <;> decide

mutual

theorem unfolded_of_walked (hR : R.Folds wants) : ∀ {s s' : OrderedTree Placed} {q : Placed}
    {before after : List (OrderedTree Placed)} {c : Bool}, Walked wants R s q before after s' c →
      s'.unfolded + c.toNat ≤ s.unfolded
  | .node p ss, s', q, before, after, c, h => by
    obtain ⟨ss', c₁, hss, h⟩ := h
    have ih := unfoldedAll_of_walkedAll hR hss
    have hbelow : (node p ss').unfolded + c₁.toNat ≤ (node p ss).unfolded := by
      rw [unfolded_node, unfolded_node]
      omega
    split at h
    · next hw =>
      obtain ⟨c₂, hu, rfl⟩ := h
      have hvisit := hR (u := .node p ss') hw hu
      have hor := toNat_or_le c₁ c₂
      omega
    · obtain ⟨rfl, rfl⟩ := h
      exact hbelow

theorem unfoldedAll_of_walkedAll (hR : R.Folds wants) : ∀ {ss ss' : List (OrderedTree Placed)} {q : Placed}
    {before : List (OrderedTree Placed)} {c : Bool}, WalkedAll wants R ss q before ss' c →
      unfoldedAll ss' + c.toNat ≤ unfoldedAll ss
  | [], _, _, _, _, h => by
    obtain ⟨rfl, rfl⟩ := h
    rfl
  | s :: ss, rs, q, before, c, h => by
    obtain ⟨s', ss', c₁, c₂, rfl, hs, hss, rfl⟩ := h
    have ih := unfolded_of_walked hR hs
    have ihs := unfoldedAll_of_walkedAll hR hss
    have hor := toNat_or_le c₁ c₂
    rw [unfoldedAll_cons, unfoldedAll_cons]
    omega

end

end Walk

/-! ## What a visit folds -/

namespace Blocks

theorem unfolded_of_isBlock {s : OrderedTree Placed} (h : s.label.kind.isBlock = true) :
    s.unfolded = unfoldedAll s.children + 1 := by
  obtain ⟨p, ss⟩ := s
  have hkind : p.kind.literal?.isNone = true := by
    have hp : p.kind.isBlock = true := h
    revert hp
    cases p.kind <;> simp [NodeKind.isBlock, NodeKind.literal?]
  rw [unfolded_node, if_pos hkind]
  rfl

/-- Taking in the statements of blocks takes away those blocks and nothing else. -/
theorem unfoldedAll_flatMap_absorbed (ss : List (OrderedTree Placed)) :
    unfoldedAll (ss.flatMap absorbed) + ss.countP (·.label.kind.isBlock) = unfoldedAll ss := by
  induction ss with
  | nil => rfl
  | cons s ss ih =>
    rw [List.flatMap_cons, unfoldedAll_append, List.countP_cons, unfoldedAll_cons]
    by_cases hs : s.label.kind.isBlock = true
    · have hblock : s.unfolded = unfoldedAll s.children + 1 := unfolded_of_isBlock hs
      rw [absorbed, if_pos hs, if_pos hs]
      omega
    · rw [absorbed, if_neg hs, if_neg hs, unfoldedAll_cons, unfoldedAll_nil]
      omega

theorem spliced_folds : Effect.Folds NodeKind.isBlock Spliced := by
  rintro q before after u u' c hw ⟨hc, hu⟩
  split at hu
  · next hchanged =>
    obtain ⟨fresh, rfl⟩ := hu
    have hcount := unfoldedAll_flatMap_absorbed u.children
    have hpos : 0 < u.children.countP (·.label.kind.isBlock) := by
      rw [hchanged, isNestedIn] at hc
      exact List.countP_pos_iff.mpr (List.any_eq_true.mp hc.symm)
    have hnew : (node (⟨fresh, .stmt .block, u.label.span⟩ : Placed) (u.children.flatMap absorbed)).unfolded =
        unfoldedAll (u.children.flatMap absorbed) + 1 := unfolded_of_isBlock rfl
    have hold := unfolded_of_isBlock hw
    rw [hchanged, Bool.toNat_true]
    omega
  · next hchanged =>
    rw [Bool.not_eq_true] at hchanged
    rw [hu, hchanged, Bool.toNat_false, Nat.add_zero]

end Blocks

namespace Constants

section

variable {rs : List Replacement} {r : Replacement} {p : Placed}

mutual

theorem unfolded_plug_le : ∀ s : OrderedTree Placed,
    (plug rs s).labels.countP (·.kind.literal?.isNone) ≤ s.unfolded
  | .node q ss => by
    rw [plug]
    split
    · exact Nat.zero_le _
    · have ih := unfoldedAll_plugAll_le ss
      rw [labels, List.countP_cons, unfolded_node]
      exact Nat.add_le_add_right ih _

theorem unfoldedAll_plugAll_le : ∀ ss : List (OrderedTree Placed),
    (labelsAll (plugAll rs ss)).countP (·.kind.literal?.isNone) ≤ unfoldedAll ss
  | [] => Nat.le_refl 0
  | s :: ss => by
    rw [plugAll, labelsAll, List.countP_append, unfoldedAll_cons]
    exact Nat.add_le_add (unfolded_plug_le s) (unfoldedAll_plugAll_le ss)

end

mutual

/-- A literal that takes the place of a node, or of one above it, takes that node away. -/
theorem unfolded_plug_lt (hp : p.kind.literal?.isNone = true) (hr : r ∈ rs) (he : r.node = p.id) :
    ∀ s : OrderedTree Placed, p ∈ s.labels → (plug rs s).labels.countP (·.kind.literal?.isNone) < s.unfolded
  | .node q ss, hm => by
    rw [plug]
    split
    · exact List.countP_pos_iff.mpr ⟨p, hm, hp⟩
    · next hnone =>
      rcases List.mem_cons.mp hm with rfl | hm
      · exact absurd (List.find?_eq_none.mp hnone r hr) (by simp [he])
      · have ih := unfoldedAll_plugAll_lt hp hr he ss hm
        rw [labels, List.countP_cons, unfolded_node]
        exact Nat.add_lt_add_right ih _

theorem unfoldedAll_plugAll_lt (hp : p.kind.literal?.isNone = true) (hr : r ∈ rs) (he : r.node = p.id) :
    ∀ ss : List (OrderedTree Placed), p ∈ labelsAll ss →
      (labelsAll (plugAll rs ss)).countP (·.kind.literal?.isNone) < unfoldedAll ss
  | s :: ss, hm => by
    rw [plugAll, labelsAll, List.countP_append, unfoldedAll_cons]
    rw [labelsAll, List.mem_append] at hm
    rcases hm with hm | hm
    · exact Nat.add_lt_add_of_lt_of_le (unfolded_plug_lt hp hr he s hm) (unfoldedAll_plugAll_le ss)
    · exact Nat.add_lt_add_of_le_of_lt (unfolded_plug_le s) (unfoldedAll_plugAll_lt hp hr he ss hm)

end

theorem plugged_folds : Effect.Folds isMember Plugged := by
  rintro q before after u u' c - ⟨-, hparts, hc⟩
  have hunfolded : u'.unfolded = u'.parts.labels.countP (·.kind.literal?.isNone) := by
    rw [labels_parts, List.countP_map]
    rfl
  obtain ⟨q, ts⟩ := u
  have hof := foldable_replacements (fieldsIn (before ++ .node q ts :: after)) q ts
  generalize replacements (fieldsIn (before ++ .node q ts :: after)) (.node q ts) = rs at hparts hc hof
  rw [hunfolded, hparts, hc]
  cases rs with
  | nil => exact unfolded_plug_le _
  | cons r rs =>
    obtain ⟨s, hs, u, hu, he, hnone, -⟩ := hof r List.mem_cons_self
    have hm : u.label ∈ (node q ts).labels :=
      label_mem_labels_of_mem_subtrees _ (List.mem_cons_of_mem _ (subtrees_subset_subtreesAll hs hu.mem_subtrees))
    exact unfolded_plug_lt (by rw [hnone]; rfl) List.mem_cons_self he.symm _ hm

end

end Constants

/-! ## A fold -/

/-- The tree at `id` has got another shape and stands at `id'`. No node outside it has changed, but for the one entry
among the children of its parent, and no node outside it is new. -/
structure Tree.Reshaped (t : Tree) (id id' : NodeId) (t' : Tree) : Prop where
  shape : t'.sameShape id' t id = false
  root : t'.root = t.root
  parent {p : NodeId} : t'.IsParent p id' ↔ t.IsParent p id
  unmoved : (∀ p, ¬ t.IsParent p id) → id' = id
  kept {j : NodeId} {n : Node} : t.get? j = some n → ¬ t.Above id j →
    ¬ t'.Above id' j ∧ t'.get? j = some { n with children := Edit.exchange id id' n.children }
  only {j : NodeId} {n : Node} : t'.get? j = some n → ¬ t'.Above id' j → ¬ t.Above id j ∧ ∃ m, t.get? j = some m

section

variable {t t' : Tree} {u u' : OrderedTree Placed} {p id id' : NodeId}

theorem Edit.mem_exchange {old new c : NodeId} : ∀ {cs : List NodeId}, c ∈ exchange old new cs →
    c = new ∧ old ∈ cs ∨ c ∈ cs
  | b :: cs, h => by
    rw [exchange] at h
    split at h
    · next hb =>
      rcases List.mem_cons.mp h with rfl | h
      · exact .inl ⟨rfl, hb ▸ List.mem_cons_self⟩
      · exact .inr (List.mem_cons_of_mem _ h)
    · rcases List.mem_cons.mp h with rfl | h
      · exact .inr List.mem_cons_self
      · exact (mem_exchange h).imp (And.imp_right (List.mem_cons_of_mem _)) (List.mem_cons_of_mem _)

/-- The new top has the parent of the old one. -/
theorem Tree.Rewrite.isParent_iff (h : t.WellFormed) (hu : t.Shows u) (hr : t.Rewrite u u' t') :
    t'.IsParent p u'.label.id ↔ t.IsParent p u.label.id := by
  refine ⟨fun hp => ?_, hr.isParent⟩
  obtain ⟨m', hm', hmem⟩ := hr.wellFormed.mem_of_isParent hp
  obtain ⟨hpu, m, hm⟩ := hr.only hm' (not_mem_ids_of_child hr.wellFormed hr.shows hp)
  have hkept := (hr.kept hm hpu).2
  rw [hm'] at hkept
  cases hkept
  rcases Edit.mem_exchange hmem with ⟨-, hold⟩ | hnew
  · exact h.isParent_of_mem hm hold
  · -- the new top was there, so it was in the tree, and at its top, because its parent was not
    have hp' := h.isParent_of_mem hm hnew
    obtain ⟨k, hk⟩ := hp'.live
    have hin : u'.label.id ∈ u.ids := by
      by_contra hout
      exact (hr.kept hk hout).1 u'.id_mem_ids
    by_cases he : u.label.id = u'.label.id
    · exact he ▸ hp'
    · exact absurd ((h.mem_ids_iff hu).mpr (above_parent ((h.mem_ids_iff hu).mp hin) he hp')) hpu

theorem Tree.Rewrite.reshaped (h : t.WellFormed) (hu : t.Shows u) (hr : t.Rewrite u u' t')
    (hlt : u'.unfolded < u.unfolded) (hmoved : (∃ p, t.IsParent p u.label.id) ∨ u'.label.id = u.label.id) :
    t.Reshaped u.label.id u'.label.id t' := by
  have hmem := fun {j} => h.mem_ids_iff (x := j) hu
  have hmem' := fun {j} => hr.wellFormed.mem_ids_iff (x := j) hr.shows
  refine ⟨?_, hr.root, hr.isParent_iff h hu, fun hp => hmoved.resolve_left fun ⟨p, hp'⟩ => hp p hp',
    fun hn hj => ?_, fun hn hj => ?_⟩
  · rw [sameShape, hr.wellFormed.subtree?_of_shows hr.shows, h.subtree?_of_shows hu]
    dsimp only
    by_contra hsame
    rw [Bool.not_eq_false] at hsame
    have heq := unfolded_eq_of_sameBy hsame
    omega
  · rw [← hmem] at hj
    rw [← hmem']
    exact hr.kept hn hj
  · rw [← hmem'] at hj
    rw [← hmem]
    exact hr.only hn hj

/-- A tree that has been given another shape is not the one that it was. -/
theorem Tree.Reshaped.ne (h : t.WellFormed) (hlive : t.contains id = true) (hr : t.Reshaped id id' t') : t' ≠ t := by
  rintro rfl
  obtain ⟨n, hn⟩ := contains_iff.mp hlive
  by_cases he : id' = id
  · obtain ⟨u, hu⟩ := h.exists_subtree? hn
    have hshape := hr.shape
    rw [he, sameShape, hu] at hshape
    exact Bool.noConfusion ((sameBy_of_parts u u rfl).symm.trans hshape)
  · -- the parent would have two children in the place of one
    have hp : ∃ p, t'.IsParent p id := by
      by_contra hno
      exact he (hr.unmoved fun p hp => hno ⟨p, hp⟩)
    obtain ⟨p, hp⟩ := hp
    obtain ⟨k, hk⟩ := (hr.parent.mpr hp).live
    have hin : t'.Above id id' := by
      by_contra hout
      exact (hr.kept hk hout).1 .refl
    exact h.not_above_of_isParent hp (above_parent hin (Ne.symm he) (hr.parent.mpr hp))

end

namespace Walk

variable {σ : Type} {v : Visitor σ} {R : Effect} {t : Tree} {u : OrderedTree Placed} {p : NodeId}

/-- A walk that begins at a node with a parent rewrites the tree at it. -/
theorem run_attached (hv : v.Does R) (h : t.WellFormed) (hu : t.Shows u) (hp : t.IsParent p u.label.id) (st : σ) :
    ∃ q before after u' c t' st', Walked v.wants R u q before after u' c ∧ t.Rewrite u u' t' ∧
      (run v u.label.id).run (t, st) = .ok c (t', st') := by
  obtain ⟨n, hn, hm⟩ := h.mem_of_isParent hp
  obtain ⟨s, hs⟩ := h.exists_subtree? hn
  obtain ⟨hshow, rfl⟩ := shows_of_subtree? hs
  obtain ⟨q, ss⟩ := s
  obtain ⟨⟨parent, hq⟩, hall⟩ := id hshow
  rw [show (node q ss).label.id = q.id from rfl, hq] at hn
  cases hn
  obtain ⟨w, hw, he⟩ := List.mem_map.mp hm
  obtain rfl := Shows.unique w u (showsAll_iff.mp hall w hw) hu he
  obtain ⟨before, after, rfl⟩ := List.append_of_mem hw
  obtain ⟨k, hk⟩ := exists_steps h hu
  obtain ⟨u', c, t', st', hwalk, hr, hgo⟩ := run_go hv w st h hshow k [] false
  refine ⟨q, before, after, u', c, t', st', hwalk, hr, ?_⟩
  rw [run_eq, hk, hgo, Bool.false_or]
  cases k <;> rfl

/-- A walk from a node at which passes start rewrites the tree at it. -/
theorem run_started (hv : v.Does R) (hunit : v.wants .unit = false) (h : t.WellFormed) (hu : t.Shows u)
    (hroot : (∃ p, t.IsParent p u.label.id) ∨ u.label.kind = .unit) (st : σ) :
    ∃ q before after u' c t' st', Walked v.wants R u q before after u' c ∧ t.Rewrite u u' t' ∧
      ((∃ p, t.IsParent p u.label.id) ∨ u'.label.id = u.label.id) ∧
      (run v u.label.id).run (t, st) = .ok c (t', st') := by
  by_cases hp : ∃ p, t.IsParent p u.label.id
  · have ⟨p, hp'⟩ := hp
    obtain ⟨q, before, after, u', c, t', st', hwalk, hr, hrun⟩ := run_attached hv h hu hp' st
    exact ⟨q, before, after, u', c, t', st', hwalk, hr, .inl hp, hrun⟩
  · obtain ⟨q, ss⟩ := u
    have hq : q.kind = .unit := hroot.resolve_left hp
    obtain ⟨ss', c, t', st', hwalk, hr, hrun⟩ := run_run hv h hu (hq ▸ hunit) st
    refine ⟨q, [], [], .node q ss', c, t', st', ⟨ss', c, hwalk, ?_⟩, hr, .inr rfl, hrun⟩
    rw [hq, hunit, if_neg Bool.false_ne_true]
    exact ⟨rfl, rfl⟩

end Walk

theorem Edit.run_checkFoldRoot {t : Tree} {id : NodeId} {n : Node} (hn : t.get? id = some n) :
    (checkFoldRoot id).run t = if n.parent.isNone ∧ n.kind ≠ .unit then .error (.invalidRoot id) t else .ok () t := by
  rw [checkFoldRoot, EStateM.run_bind, run_live hn]
  dsimp only
  split <;> rfl

namespace PassKind

variable {t : Tree} {id : NodeId} {n : Node}

/-- The visitor of a pass. -/
def visitor : PassKind → Visitor Unit
  | blockFolding => Blocks.visitor
  | constantPropagation => Constants.visitor

theorem run_fold_eq (kind : PassKind) (id : NodeId) (t : Tree) : (kind.fold id).run t =
    (do Edit.checkFoldRoot id; (Walk.run kind.visitor id).alone : Edit Bool).run t := by
  cases kind <;> rfl

/-- A visit of a pass changes nothing that is not at or below the node, but for the children of its parent. -/
theorem visitor_local (kind : PassKind) (id : NodeId) (h : t.WellFormed) (st : Unit) :
    (kind.visitor.call id t st).Local := by
  cases kind with
  | blockFolding => exact Blocks.visitor_local id st h
  | constantPropagation => exact Constants.visitor_local id st h

/-- The walk of a pass over a reachable tree, from whatever node, ends because no node is left. -/
theorem follow?_visitor (kind : PassKind) (ht : t.Reachable) (id : NodeId) :
    kind.visitor.follow? [(id, false)] false (t, ()) = some ((Walk.run kind.visitor id).run (t, ())) :=
  Walk.follow?_root kind.visitor ht.wellFormed id ()
    (Walk.visits_local (fun id _ st h => kind.visitor_local id h st) ht.wellFormed id ())

theorem visitor_honest (kind : PassKind) : kind.visitor.Honest := by
  cases kind with
  | blockFolding => exact Visitor.Honest.of_edit Blocks.visit_unchanged
  | constantPropagation => exact Visitor.Honest.of_edit Constants.visit_unchanged

/-- A fold at a node at which passes start is a walk from there. -/
theorem run_fold_of_start (kind : PassKind) (hn : t.get? id = some n) (hroot : ¬ (n.parent.isNone ∧ n.kind ≠ .unit)) :
    (kind.fold id).run t = (Walk.run kind.visitor id).alone.run t := by
  rw [run_fold_eq, EStateM.run_bind, Edit.run_checkFoldRoot hn, if_neg hroot]

/-- If each visit of a pass succeeds, a fold at a node at which passes start does too. -/
theorem run_fold_walked {R : Effect} (kind : PassKind) (hv : kind.visitor.Does R) (h : t.WellFormed)
    (hn : t.get? id = some n) (hroot : ¬ (n.parent.isNone ∧ n.kind ≠ .unit)) : ∃ u q before after u' c t',
      t.subtree? id = some u ∧ Walk.Walked kind.visitor.wants R u q before after u' c ∧ t.Rewrite u u' t' ∧
      ((∃ p, t.IsParent p id) ∨ u'.label.id = id) ∧ (kind.fold id).run t = .ok c t' := by
  obtain ⟨u, hu⟩ := h.exists_subtree? hn
  obtain ⟨hshow, rfl⟩ := shows_of_subtree? hu
  have hstart : (∃ p, t.IsParent p u.label.id) ∨ u.label.kind = .unit := by
    obtain ⟨parent, htop⟩ := hshow.top
    rw [hn] at htop
    cases htop
    cases parent with
    | some p => exact .inl ⟨p, _, hn, rfl⟩
    | none => exact .inr (by_contra fun hk => hroot ⟨rfl, hk⟩)
  have hunit : kind.visitor.wants .unit = false := by cases kind <;> rfl
  obtain ⟨q, before, after, u', c, t', st', hwalk, hr, hmoved, hrun⟩ := Walk.run_started hv hunit h hshow hstart ()
  refine ⟨u, q, before, after, u', c, t', hu, hwalk, hr, hmoved, ?_⟩
  rw [run_fold_of_start kind hn hroot]
  exact EditWith.run_alone hrun

/-- A fold at a node at which passes start succeeds. It changes nothing at all, or the shape of the tree there. -/
theorem run_fold_started (kind : PassKind) (h : t.WellFormed) (hn : t.get? id = some n)
    (hroot : ¬ (n.parent.isNone ∧ n.kind ≠ .unit)) : ∃ changed t', (kind.fold id).run t = .ok changed t' ∧
      (changed = false → t' = t) ∧ (changed = true → ∃ id', t.Reshaped id id' t') := by
  obtain ⟨u, u', c, t', hu, hle, hr, hmoved, hrun⟩ : ∃ u u' c t', t.subtree? id = some u ∧
      u'.unfolded + c.toNat ≤ u.unfolded ∧ t.Rewrite u u' t' ∧ ((∃ p, t.IsParent p id) ∨ u'.label.id = id) ∧
      (kind.fold id).run t = .ok c t' := by
    cases kind with
    | blockFolding =>
      obtain ⟨u, q, before, after, u', c, t', hu, hwalk, hrest⟩ :=
        run_fold_walked blockFolding Blocks.visitor_does h hn hroot
      exact ⟨u, u', c, t', hu, Walk.unfolded_of_walked Blocks.spliced_folds hwalk, hrest⟩
    | constantPropagation =>
      obtain ⟨u, q, before, after, u', c, t', hu, hwalk, hrest⟩ :=
        run_fold_walked constantPropagation Constants.visitor_does h hn hroot
      exact ⟨u, u', c, t', hu, Walk.unfolded_of_walked Constants.plugged_folds hwalk, hrest⟩
  obtain ⟨hshow, rfl⟩ := shows_of_subtree? hu
  refine ⟨c, t', hrun, fun hc => ?_, fun hc => ⟨u'.label.id, hr.reshaped h hshow ?_ hmoved⟩⟩
  · rw [run_fold_of_start kind hn hroot, hc] at hrun
    exact congrArg Prod.fst (Walk.run_unchanged kind.visitor_honest (EditWith.of_run_alone hrun))
  · rw [hc, Bool.toNat_true] at hle
    omega

/-- A fold of any node of a reachable tree, whatever the layout of the nodes is, fails only if no node has the id, or
if the node has no parent and is not a unit, and then leaves the tree exactly as it was. Otherwise it succeeds. It
says that it has changed nothing if and only if the tree is exactly as it was. If it says that it has changed
something, the tree at the node has another shape, and no node outside it has changed but for the one entry among the
children of its parent. -/
theorem fold_tells (kind : PassKind) {t : Tree} (ht : t.Reachable) (id : NodeId) :
    match t.get? id with
    | none => (kind.fold id).run t = .error (.stale id) t
    | some n =>
      if n.parent.isNone ∧ n.kind ≠ .unit then (kind.fold id).run t = .error (.invalidRoot id) t
      else ∃ changed t', (kind.fold id).run t = .ok changed t' ∧ (changed = false ↔ t' = t) ∧
        (changed = true → ∃ id', t.Reshaped id id' t') := by
  have h := ht.wellFormed
  split
  · next hn => rw [run_fold_eq, EStateM.run_bind, Edit.checkFoldRoot, EStateM.run_bind, Edit.run_live_stale hn]
  · next n hn =>
    split
    · next hroot => rw [run_fold_eq, EStateM.run_bind, Edit.run_checkFoldRoot hn, if_pos hroot]
    · next hroot =>
      obtain ⟨changed, t', hrun, hsame, hshape⟩ := run_fold_started kind h hn hroot
      refine ⟨changed, t', hrun, ⟨hsame, fun he => ?_⟩, hshape⟩
      by_contra hchanged
      obtain ⟨id', hr⟩ := hshape (Bool.eq_true_of_not_eq_false hchanged)
      exact hr.ne h (contains_of_get? hn) he

/-- The outer one of two blocks takes in the inner one, and a fresh block stands in its place. -/
theorem fold_tells_nestedBlocks : Walk.nestedBlocks.Reachable ∧ ∃ t' id',
    (blockFolding.fold ⟨3, 0⟩).run Walk.nestedBlocks = .ok true t' ∧ t' ≠ Walk.nestedBlocks ∧
      Walk.nestedBlocks.Reshaped ⟨3, 0⟩ id' t' := by
  have ht : Walk.nestedBlocks.Reachable := .step (.alloc (.method [] .void "m" []) .dummy [⟨3, 0⟩])
    (.step (.alloc (.stmt .block) .dummy [⟨2, 0⟩]) (.step (.alloc (.stmt .block) .dummy [⟨1, 0⟩])
      (.step (.alloc (.stmt .empty) .dummy []) .empty)))
  have hnode : Walk.nestedBlocks.get? ⟨3, 0⟩ = some ⟨.stmt .block, .dummy, some ⟨4, 0⟩, [⟨2, 0⟩]⟩ := by decide +kernel
  have htells := fold_tells blockFolding ht ⟨3, 0⟩
  rw [hnode] at htells
  obtain ⟨changed, t', hrun, hsame, hshape⟩ := htells
  have hchanged : (match (blockFolding.fold ⟨3, 0⟩).run Walk.nestedBlocks with
      | .ok changed _ => changed
      | .error _ _ => false) = true := by decide +kernel
  rw [hrun] at hchanged
  obtain rfl : changed = true := hchanged
  obtain ⟨id', hr⟩ := hshape rfl
  exact ⟨ht, t', id', hrun, fun e => Bool.noConfusion (hsame.mpr e), hr⟩

end PassKind

end JavaFold
