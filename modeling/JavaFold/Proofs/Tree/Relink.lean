import JavaFold.Proofs.Tree.WellFormed

/-!
# Changing links

The changes of links that the edits of a tree are made of: putting a floating node below another one
(`Linked.adopt`), taking a node or all children out (`Linked.unlink`, `Linked.unlinkAll`), making a
node above floating ones (`Linked.insert`), and freeing a node with all nodes below it
(`Linked.release`). Each is stated of any two trees of which one names what the other names after the
change, so it does not matter by which steps the change is made. Links that were in order stay in
order.
-/

namespace JavaFold

namespace Tree

open OrderedTree

variable {t t' : Tree} {id p c : NodeId} {n m : Node}

theorem map_of_get? (f : Node → Node) (hn : t.get? id = some n) :
    (t.get? id).map f = some (f n) := by rw [hn]; rfl

/-- A node without a parent that is not the root. -/
def Floating (t : Tree) (id : NodeId) : Prop :=
  ∃ n, t.get? id = some n ∧ n.parent = none ∧ id ≠ t.root

theorem Floating.not_isParent (h : t.Floating id) : ¬ t.IsParent p id := by
  rintro ⟨n, hn, hp⟩
  obtain ⟨m, hm, hmp, -⟩ := h
  rw [hn] at hm
  cases hm
  rw [hp] at hmp
  cases hmp

/-- Only a node itself is above a floating one. -/
theorem Floating.eq_of_above (h : t.Floating id) (ha : t.Above p id) : p = id := by
  rcases Relation.ReflTransGen.cases_tail ha with e | ⟨q, -, hq⟩
  · exact e.symm
  · exact absurd hq h.not_isParent

theorem Linked.not_isParent_root (h : t.Linked) : ¬ t.IsParent p t.root := by
  rintro ⟨n, hn, hp⟩
  obtain ⟨m, hm, hmp, -⟩ := h.root
  rw [hn] at hm
  cases hm
  rw [hp] at hmp
  cases hmp

theorem Linked.ne_root_of_isParent (h : t.Linked) (hp : t.IsParent p c) : c ≠ t.root := fun e =>
  h.not_isParent_root (e ▸ hp)

/-- Another root that is a floating compilation unit. -/
theorem Linked.withRoot (h : t.Linked) (hn : t.get? id = some n) (hp : n.parent = none)
    (hk : n.kind = .unit) : Linked { t with root := id } where
  listed := h.listed
  named := h.named
  climbs := h.climbs
  root := ⟨n, hn, hp, hk⟩

/-- Going up ends if each way up goes along old ways. -/
theorem Linked.climbs_of_subrelation (h : t.Linked)
    (hs : ∀ p c, t'.IsParent p c → t.IsParent p c) (id : NodeId) : Acc t'.IsParent id :=
  Subrelation.accessible (fun {p c} => hs p c) (h.climbs id)

/-! ## Taking nodes out -/

/-- Taking a node out of its parent. -/
theorem Linked.unlink (h : t.Linked) (hp : t.IsParent p id)
    (hg : ∀ j, t'.get? j = if j = id then (t.get? j).map ({ · with parent := none })
      else if j = p then (t.get? j).map fun n => { n with children := n.children.filter (· != id) }
      else t.get? j)
    (hr : t'.root = t.root) : t'.Linked := by
  have hpid := h.ne_of_isParent hp
  -- The parents are those of before, but for the node that is taken out.
  have hparent : ∀ q x, t'.IsParent q x ↔ t.IsParent q x ∧ x ≠ id := by
    intro q x
    simp only [IsParent, hg]
    by_cases hx : x = id
    · simp [hx]
    · by_cases hxp : x = p <;> simp [hx, hxp, hpid]
  have hnode : ∀ {j n}, t.get? j = some n →
      ∃ n', t'.get? j = some n' ∧ ∀ c, c ≠ id → n'.children.count c = n.children.count c := by
    intro j n hn
    rw [hg]
    by_cases hj : j = id
    · rw [if_pos hj]
      exact ⟨_, map_of_get? _ hn, fun _ _ => rfl⟩
    · rw [if_neg hj]
      split
      · refine ⟨_, map_of_get? _ hn, fun c hc => ?_⟩
        rw [List.count_filter (by simpa using hc)]
      · exact ⟨n, hn, fun _ _ => rfl⟩
  refine ⟨fun {j q n} hn hq => ?_, fun {j c n} hn hc => ?_, fun j => ?_, ?_⟩
  · obtain ⟨⟨n₀, hn₀, hq₀⟩, hj⟩ := (hparent q j).mp ⟨n, hn, hq⟩
    obtain ⟨m, hm, hcount⟩ := h.listed hn₀ hq₀
    obtain ⟨m', hm', hc⟩ := hnode hm
    exact ⟨m', hm', by rw [hc j hj, hcount]⟩
  · show t'.IsParent j c
    rw [hparent]
    rw [hg] at hn
    by_cases hj : j = id
    · subst hj
      simp only [if_true, Option.map_eq_some_iff] at hn
      obtain ⟨n₀, hn₀, rfl⟩ := hn
      refine ⟨h.named hn₀ hc, fun e => ?_⟩
      exact h.ne_of_isParent (h.named hn₀ hc) e.symm
    · rw [if_neg hj] at hn
      by_cases hjp : j = p
      · subst hjp
        simp only [if_true, Option.map_eq_some_iff] at hn
        obtain ⟨n₀, hn₀, rfl⟩ := hn
        simp only [List.mem_filter, bne_iff_ne] at hc
        exact ⟨h.named hn₀ hc.1, hc.2⟩
      · rw [if_neg hjp] at hn
        refine ⟨h.named hn hc, ?_⟩
        rintro rfl
        exact hjp (IsParent.unique (h.named hn hc) hp)
  · exact h.climbs_of_subrelation (fun p c hc => ((hparent p c).mp hc).1) j
  · obtain ⟨n, hn, hnp, hk⟩ := h.root
    rw [hr, hg, if_neg (h.ne_root_of_isParent hp).symm]
    split
    · exact ⟨_, map_of_get? _ hn, hnp, hk⟩
    · exact ⟨n, hn, hnp, hk⟩

/-- Taking all children out of a node. -/
theorem Linked.unlinkAll (h : t.Linked) (hn : t.get? p = some n)
    (hg : ∀ j, t'.get? j = if j ∈ n.children then (t.get? j).map ({ · with parent := none })
      else if j = p then (t.get? j).map ({ · with children := [] })
      else t.get? j)
    (hr : t'.root = t.root) : t'.Linked := by
  have hpn : p ∉ n.children := fun hm => h.ne_of_isParent (h.isParent_of_mem hn hm) rfl
  have hparent : ∀ q x, t'.IsParent q x ↔ t.IsParent q x ∧ x ∉ n.children := by
    intro q x
    simp only [IsParent, hg]
    by_cases hx : x ∈ n.children
    · simp [hx]
    · by_cases hxp : x = p <;> simp [hx, hxp, hpn]
  refine ⟨fun {j q k} hk hq => ?_, fun {j c k} hk hc => ?_, fun j => ?_, ?_⟩
  · obtain ⟨⟨k₀, hk₀, hq₀⟩, hj⟩ := (hparent q j).mp ⟨k, hk, hq⟩
    obtain ⟨m, hm, hcount⟩ := h.listed hk₀ hq₀
    have hqp : q ≠ p := by
      rintro rfl
      rw [hn] at hm
      cases hm
      exact hj (List.count_pos_iff.mp (by omega))
    rw [hg, if_neg hqp]
    split
    · exact ⟨_, map_of_get? _ hm, hcount⟩
    · exact ⟨m, hm, hcount⟩
  · show t'.IsParent j c
    rw [hparent]
    rw [hg] at hk
    have hjp : j ≠ p := by
      rintro rfl
      rw [if_neg hpn, if_pos rfl, hn] at hk
      cases hk
      simp at hc
    have hkc : ∃ k₀, t.get? j = some k₀ ∧ c ∈ k₀.children := by
      rw [if_neg hjp] at hk
      split at hk
      · obtain ⟨k₀, hk₀, rfl⟩ := Option.map_eq_some_iff.mp hk
        exact ⟨k₀, hk₀, hc⟩
      · exact ⟨k, hk, hc⟩
    obtain ⟨k₀, hk₀, hc₀⟩ := hkc
    have hjc := h.isParent_of_mem hk₀ hc₀
    exact ⟨hjc, fun hm => hjp (hjc.unique (h.isParent_of_mem hn hm))⟩
  · exact h.climbs_of_subrelation (fun p c hc => ((hparent p c).mp hc).1) j
  · obtain ⟨k, hk, hkp, hkk⟩ := h.root
    have hroot : t.root ∉ n.children := fun hm =>
      h.not_isParent_root (h.isParent_of_mem hn hm)
    rw [hr, hg, if_neg hroot]
    split
    · exact ⟨_, map_of_get? _ hk, hkp, hkk⟩
    · exact ⟨k, hk, hkp, hkk⟩

/-- Freeing a node without a parent and all nodes below it. -/
theorem Linked.release {s : OrderedTree Placed} (h : t.Linked) (hs : t.Shows s)
    (hf : ∀ p, ¬ t.IsParent p s.label.id) (hne : s.label.id ≠ t.root)
    (hg : ∀ j, t'.get? j = if j ∈ s.ids then none else t.get? j)
    (hr : t'.root = t.root) : t'.Linked := by
  have hparent : ∀ q x, t'.IsParent q x ↔ t.IsParent q x ∧ x ∉ s.ids := by
    intro q x
    simp only [IsParent, hg]
    by_cases hx : x ∈ s.ids <;> simp [hx]
  -- A child is freed exactly if its parent is.
  have hstep : ∀ {q x}, t.IsParent q x → (x ∈ s.ids ↔ q ∈ s.ids) := by
    intro q x hq
    rw [h.mem_ids_iff hs, h.mem_ids_iff hs]
    refine ⟨fun ha => above_parent ha ?_ hq, fun ha => ha.tail hq⟩
    rintro rfl
    exact hf q hq
  refine ⟨fun {j q n} hn hq => ?_, fun {j c n} hn hc => ?_, fun j => ?_, ?_⟩
  · obtain ⟨⟨n₀, hn₀, hq₀⟩, hj⟩ := (hparent q j).mp ⟨n, hn, hq⟩
    obtain ⟨m, hm, hcount⟩ := h.listed hn₀ hq₀
    have hqs : q ∉ s.ids := fun hm => hj ((hstep ⟨n₀, hn₀, hq₀⟩).mpr hm)
    exact ⟨m, by rw [hg, if_neg hqs, hm], hcount⟩
  · show t'.IsParent j c
    rw [hparent]
    rw [hg] at hn
    split at hn
    · cases hn
    · next hj =>
      have hjc := h.isParent_of_mem hn hc
      exact ⟨hjc, fun hm => hj ((hstep hjc).mp hm)⟩
  · exact h.climbs_of_subrelation (fun p c hc => ((hparent p c).mp hc).1) j
  · obtain ⟨n, hn, hnp, hk⟩ := h.root
    have hroot : t.root ∉ s.ids := fun hm => by
      rcases Relation.ReflTransGen.cases_tail ((h.mem_ids_iff hs).mp hm) with e | ⟨q, -, hq⟩
      · exact hne e.symm
      · exact h.not_isParent_root hq
    exact ⟨n, by rw [hr, hg, if_neg hroot, hn], hnp, hk⟩

/-! ## Putting nodes in -/

/-- One more way up, to a node that was not below the one it starts from, leads to no circle. -/
theorem acc_of_new_parent {α : Type} {r r' : α → α → Prop} {a b : α} (h : ∀ x, Acc r x)
    (hr : ∀ y x, r' y x → r y x ∨ y = a ∧ x = b) (hab : ¬ Relation.ReflTransGen r b a) (x : α) :
    Acc r' x := by
  -- Above `a` the new way is not met.
  have above : ∀ x, Acc r x → ¬ Relation.ReflTransGen r b x → Acc r' x := by
    intro x hx
    induction hx with
    | intro x _ ih =>
      intro hbx
      refine ⟨x, fun y hy => ?_⟩
      rcases hr y x hy with hyx | ⟨-, rfl⟩
      · exact ih y hyx fun hby => hbx (hby.tail hyx)
      · exact absurd .refl hbx
  induction h x with
  | intro x _ ih =>
    refine ⟨x, fun y hy => ?_⟩
    rcases hr y x hy with hyx | ⟨rfl, -⟩
    · exact ih y hyx
    · exact above y (h y) hab

/-- Putting a floating node among the children of a node that it is not above. -/
theorem Linked.adopt (h : t.Linked) (hf : t.Floating c) (hn : t.get? p = some n)
    (hna : ¬ t.Above c p) {cs : List NodeId} (hcs : cs.Perm (c :: n.children))
    (hg : ∀ j, t'.get? j = if j = c then (t.get? j).map ({ · with parent := some p })
      else if j = p then (t.get? j).map ({ · with children := cs })
      else t.get? j)
    (hr : t'.root = t.root) : t'.Linked := by
  have hcp : c ≠ p := fun e => hna (e ▸ .refl)
  have hcn : c ∉ n.children := fun hm => hf.not_isParent (h.isParent_of_mem hn hm)
  obtain ⟨k, hk, hkp, hkr⟩ := id hf
  have hparent : ∀ q x, t'.IsParent q x ↔ t.IsParent q x ∨ q = p ∧ x = c := by
    intro q x
    by_cases hx : x = c
    · subst hx
      simp [IsParent, hg, hk, hkp, eq_comm]
    · by_cases hxp : x = p <;> simp [IsParent, hg, hx, hxp, hcp.symm]
  refine ⟨fun {j q m} hm hq => ?_, fun {j x m} hm hx => ?_, fun j => ?_, ?_⟩
  · rcases (hparent q j).mp ⟨m, hm, hq⟩ with ⟨m₀, hm₀, hq₀⟩ | ⟨rfl, rfl⟩
    · obtain ⟨l, hl, hcount⟩ := h.listed hm₀ hq₀
      rw [hg]
      by_cases hqc : q = c
      · exact ⟨_, (if_pos hqc).trans (map_of_get? _ hl), hcount⟩
      · rw [if_neg hqc]
        by_cases hqp : q = p
        · subst hqp
          rw [hn] at hl
          cases hl
          refine ⟨_, (if_pos rfl).trans (map_of_get? _ hn), ?_⟩
          have hjc : j ≠ c := by
            rintro rfl
            exact hf.not_isParent ⟨m₀, hm₀, hq₀⟩
          simp only [hcs.count_eq, List.count_cons_of_ne hjc.symm, hcount]
        · exact ⟨l, by rw [if_neg hqp, hl], hcount⟩
    · refine ⟨_, (hg _).trans ((if_neg hcp.symm).trans ((if_pos rfl).trans (map_of_get? _ hn))), ?_⟩
      simp only [hcs.count_eq, List.count_cons_self, List.count_eq_zero_of_not_mem hcn]
  · show t'.IsParent j x
    rw [hparent]
    rw [hg] at hm
    by_cases hjc : j = c
    · subst hjc
      simp only [if_true, Option.map_eq_some_iff] at hm
      obtain ⟨m₀, hm₀, rfl⟩ := hm
      exact .inl (h.named hm₀ hx)
    · rw [if_neg hjc] at hm
      by_cases hjp : j = p
      · subst hjp
        simp only [if_true, hn, Option.map_some, Option.some.injEq] at hm
        subst hm
        rcases List.mem_cons.mp (hcs.mem_iff.mp hx) with rfl | hx
        · exact .inr ⟨rfl, rfl⟩
        · exact .inl (h.named hn hx)
      · rw [if_neg hjp] at hm
        exact .inl (h.named hm hx)
  · exact acc_of_new_parent h.climbs (fun y x hy => (hparent y x).mp hy) hna j
  · obtain ⟨l, hl, hlp, hlk⟩ := h.root
    rw [hr, hg, if_neg hkr.symm]
    split
    · exact ⟨_, map_of_get? _ hl, hlp, hlk⟩
    · exact ⟨l, hl, hlp, hlk⟩

/-- Making a node above distinct floating nodes. -/
theorem Linked.insert (h : t.Linked) {kind : NodeKind} {span : Span} {cs : List NodeId}
    (hd : cs.Nodup) (hf : ∀ c ∈ cs, t.Floating c) (hnew : t.get? id = none)
    (hg : ∀ j, t'.get? j = if j = id then some ⟨kind, span, none, cs⟩
      else if j ∈ cs then (t.get? j).map ({ · with parent := some id })
      else t.get? j)
    (hr : t'.root = t.root) : t'.Linked := by
  have hcs : id ∉ cs := fun hm => by
    obtain ⟨n, hn, -⟩ := hf id hm
    rw [hnew] at hn
    cases hn
  have hlive : ∀ {j n}, t.get? j = some n → j ≠ id := by
    rintro j n hn rfl
    rw [hnew] at hn
    cases hn
  have hparent : ∀ q x, t'.IsParent q x ↔ t.IsParent q x ∨ q = id ∧ x ∈ cs := by
    intro q x
    by_cases hx : x = id
    · subst hx
      simp [IsParent, hg, hnew, hcs]
    · by_cases hxc : x ∈ cs
      · obtain ⟨n, hn, hnp, -⟩ := hf x hxc
        simp [IsParent, hg, hx, hxc, hn, hnp, eq_comm]
      · simp [IsParent, hg, hx, hxc]
  refine ⟨fun {j q m} hm hq => ?_, fun {j x m} hm hx => ?_, fun j => ?_, ?_⟩
  · rcases (hparent q j).mp ⟨m, hm, hq⟩ with ⟨m₀, hm₀, hq₀⟩ | ⟨rfl, hj⟩
    · obtain ⟨l, hl, hcount⟩ := h.listed hm₀ hq₀
      rw [hg, if_neg (hlive hl)]
      split
      · exact ⟨_, map_of_get? _ hl, hcount⟩
      · exact ⟨l, hl, hcount⟩
    · exact ⟨_, by rw [hg, if_pos rfl], List.count_eq_one_of_mem hd hj⟩
  · show t'.IsParent j x
    rw [hparent]
    rw [hg] at hm
    by_cases hj : j = id
    · subst hj
      rw [if_pos rfl, Option.some.injEq] at hm
      subst hm
      exact .inr ⟨rfl, hx⟩
    · rw [if_neg hj] at hm
      refine .inl ?_
      split at hm
      · obtain ⟨m₀, hm₀, rfl⟩ := Option.map_eq_some_iff.mp hm
        exact h.named hm₀ hx
      · exact h.named hm hx
  · -- The new node has no parent, so going up from an old one ends there or as before.
    have top : Acc t'.IsParent id := ⟨id, fun y hy => by
      rcases (hparent y id).mp hy with hy | ⟨-, hm⟩
      · obtain ⟨n, hn⟩ := hy.live
        exact absurd rfl (hlive hn)
      · exact absurd hm hcs⟩
    induction h.climbs j with
    | intro j _ ih =>
      refine ⟨j, fun y hy => ?_⟩
      rcases (hparent y j).mp hy with hy | ⟨rfl, -⟩
      · exact ih y hy
      · exact top
  · obtain ⟨l, hl, hlp, hlk⟩ := h.root
    have hroot : t.root ∉ cs := fun hm => by
      obtain ⟨n, -, -, hne⟩ := hf _ hm
      exact hne rfl
    exact ⟨l, by rw [hr, hg, if_neg (hlive hl), if_neg hroot, hl], hlp, hlk⟩

end Tree

end JavaFold
