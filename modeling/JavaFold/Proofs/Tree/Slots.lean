import JavaFold.Tree.Edit

/-!
# Slots of a tree

What the changes of single slots (`Tree.updateNode`, `Tree.reserve`, `Tree.insert`, `Tree.vacate`) do
to the nodes that ids name. A slot holds the node of at most one id, the one with its generation, so
each change is described by `Tree.get?` alone: it changes what its own id names and nothing else.

`Tree.Stored` says that the free slots are listed and the nodes are counted. Every change of single
slots keeps it, whatever the links of the nodes are.
-/

namespace JavaFold

theorem NodeId.eq_of_parts {a b : NodeId} (hi : a.index = b.index)
    (hg : a.generation = b.generation) : a = b := by
  cases a
  cases b
  exact congr (congrArg NodeId.mk hi) hg

namespace Tree

variable {t : Tree} {id j : NodeId} {n : Node}

theorem get?_eq_some_iff : t.get? id = some n ↔
    ∃ slot, t.slots[id.index]? = some slot ∧ slot.generation = id.generation ∧
      slot.node = some n := by
  unfold get?
  constructor
  · intro h
    split at h
    · next slot hs =>
      split at h
      · next hg => exact ⟨slot, hs, hg, h⟩
      · cases h
    · cases h
  · rintro ⟨slot, hs, hg, hn⟩
    simp [hs, hg, hn]

theorem contains_iff : t.contains id = true ↔ ∃ n, t.get? id = some n := by
  simp [contains, Option.isSome_iff_exists]

theorem contains_of_get? (h : t.get? id = some n) : t.contains id = true :=
  contains_iff.mpr ⟨n, h⟩

theorem get?_of_not_contains (h : ¬ t.contains id = true) : t.get? id = none := by
  simpa [contains] using h

/-- An id that names a node has its slot among the slots. -/
theorem index_lt (h : t.get? id = some n) : id.index < t.slots.size := by
  obtain ⟨slot, hs, -, -⟩ := get?_eq_some_iff.mp h
  exact (Array.getElem?_eq_some_iff.mp hs).1

/-- Two ids that name nodes in one slot are the same. -/
theorem eq_of_index_eq {m : Node} (hn : t.get? id = some n) (hm : t.get? j = some m)
    (h : id.index = j.index) : id = j := by
  obtain ⟨slot, hs, hg, -⟩ := get?_eq_some_iff.mp hn
  obtain ⟨slot', hs', hg', -⟩ := get?_eq_some_iff.mp hm
  rw [h, hs'] at hs
  cases hs
  exact NodeId.eq_of_parts h (hg.symm.trans hg')

/-! ## Changing a node -/

theorem get?_updateNode (t : Tree) (id : NodeId) (f : Node → Node) (j : NodeId) :
    (t.updateNode id f).get? j = if j = id then (t.get? id).map f else t.get? j := by
  unfold updateNode
  split
  · next hc =>
    obtain ⟨n, hn⟩ := contains_iff.mp hc
    obtain ⟨slot, hs, hg, hsn⟩ := get?_eq_some_iff.mp hn
    by_cases hi : id.index = j.index
    · have hjs : t.slots[j.index]? = some slot := hi ▸ hs
      by_cases hj : j = id
      · subst hj
        simp [get?, Array.getElem?_modify, hs, hg]
      · have hgj : ¬ slot.generation = j.generation := fun hgj =>
          hj (NodeId.eq_of_parts hi.symm (hgj.symm.trans hg))
        simp [get?, Array.getElem?_modify, hi, hjs, hgj, hj]
    · have hj : j ≠ id := fun e => hi (e ▸ rfl)
      simp [get?, Array.getElem?_modify, hi, hj]
  · next hc =>
    split
    · next hj =>
      subst hj
      rw [get?_of_not_contains hc]
      rfl
    · rfl

@[simp] theorem root_updateNode (t : Tree) (id : NodeId) (f : Node → Node) :
    (t.updateNode id f).root = t.root := by
  unfold updateNode
  split <;> rfl

/-! ## The slots as a whole -/

/-- The number of slots that hold a node. -/
def occupied (t : Tree) : Nat := t.slots.toList.countP (·.node.isSome)

/-- The free list holds each slot without a node exactly once and no other, and the nodes are
counted. -/
structure Stored (t : Tree) : Prop where
  free_nodup : t.free.Nodup
  mem_free (i : Nat) : i ∈ t.free ↔ ∃ slot, t.slots[i]? = some slot ∧ slot.node = none
  live_eq : t.live = t.occupied

theorem countP_modify_of_same {α : Type} (p : α → Bool) (f : α → α) (h : ∀ a, p (f a) = p a) :
    ∀ (l : List α) (i : Nat), (l.modify i f).countP p = l.countP p
  | [], i => by cases i <;> rfl
  | a :: l, 0 => by simp [List.countP_cons, h]
  | a :: l, i + 1 => by simp [List.countP_cons, countP_modify_of_same p f h l i]

theorem countP_modify_of_new {α : Type} (p : α → Bool) (f : α → α) :
    ∀ (l : List α) (i : Nat) (a : α), l[i]? = some a → p a = false → p (f a) = true →
      (l.modify i f).countP p = l.countP p + 1
  | [], i, a, h, _, _ => by simp at h
  | b :: l, 0, a, h, ha, hf => by
    simp only [List.getElem?_cons_zero, Option.some.injEq] at h
    subst h
    simp [ha, hf]
  | b :: l, i + 1, a, h, ha, hf => by
    have ih := countP_modify_of_new p f l i a (by simpa using h) ha hf
    simp only [List.modify_succ_cons, List.countP_cons, ih]
    omega

theorem countP_modify_of_gone {α : Type} (p : α → Bool) (f : α → α) :
    ∀ (l : List α) (i : Nat) (a : α), l[i]? = some a → p a = true → p (f a) = false →
      (l.modify i f).countP p + 1 = l.countP p
  | [], i, a, h, _, _ => by simp at h
  | b :: l, 0, a, h, ha, hf => by
    simp only [List.getElem?_cons_zero, Option.some.injEq] at h
    subst h
    simp [ha, hf]
  | b :: l, i + 1, a, h, ha, hf => by
    have ih := countP_modify_of_gone p f l i a (by simpa using h) ha hf
    simp only [List.modify_succ_cons, List.countP_cons]
    omega

theorem Stored.updateNode (h : t.Stored) (id : NodeId) (f : Node → Node) :
    (t.updateNode id f).Stored := by
  unfold Tree.updateNode
  split
  · refine ⟨h.free_nodup, fun i => ?_, ?_⟩
    · rw [h.mem_free i]
      simp only [Array.getElem?_modify]
      split
      · cases t.slots[i]? <;> simp
      · rfl
    · show t.live = _
      rw [h.live_eq, occupied, occupied, Array.toList_modify]
      exact (countP_modify_of_same _ _ (fun a => by simp) _ _).symm
  · exact h

/-! ## Making a node -/

theorem get?_reserve (t : Tree) (j : NodeId) : t.reserve.2.get? j = t.get? j := by
  unfold reserve
  split
  · rfl
  · next hf =>
    by_cases hj : j.index < t.slots.size
    · simp [get?, Array.getElem?_push, Nat.ne_of_lt hj]
    · have hnone : t.slots[j.index]? = none := by simp [Nat.le_of_not_lt hj]
      simp only [get?, Array.getElem?_push, hnone]
      split
      · next slot hs =>
        split at hs
        · cases hs
          simp
        · cases hs
      · rfl

/-- The slot that the next node gets holds none, and has the generation of the next id. -/
theorem slot_reserve (h : t.Stored) :
    t.reserve.2.slots[t.reserve.1.index]? = some ⟨t.reserve.1.generation, none⟩ := by
  unfold reserve
  split
  · next index free hf =>
    obtain ⟨⟨generation, node⟩, hs, hn⟩ := (h.mem_free index).mp (by simp [hf])
    simp only at hn
    subst hn
    simp [hs]
  · simp

/-- The id of the next node names nothing yet. -/
theorem get?_fresh (h : t.Stored) : t.get? t.reserve.1 = none := by
  rw [← get?_reserve t]
  simp [get?, slot_reserve h]

@[simp] theorem root_reserve (t : Tree) : t.reserve.2.root = t.root := by
  unfold reserve
  split <;> rfl

/-- A tree with a slot reserved for a node: the slot is in no list and holds no node. -/
structure Reserved (t : Tree) (id : NodeId) : Prop where
  free_nodup : t.free.Nodup
  mem_free (i : Nat) :
    i ∈ t.free ↔ i ≠ id.index ∧ ∃ slot, t.slots[i]? = some slot ∧ slot.node = none
  slot_eq : t.slots[id.index]? = some ⟨id.generation, none⟩
  live_eq : t.live = t.occupied

theorem Stored.reserve (h : t.Stored) : t.reserve.2.Reserved t.reserve.1 := by
  refine ⟨?_, fun i => ?_, slot_reserve h, ?_⟩
  · unfold Tree.reserve
    split
    · next index free hf =>
      have := h.free_nodup
      rw [hf] at this
      exact (List.nodup_cons.mp this).2
    · exact h.free_nodup
  · unfold Tree.reserve
    split
    · next index free hf =>
      have hn := h.free_nodup
      have hm := h.mem_free i
      rw [hf] at hn hm
      constructor
      · intro hi
        refine ⟨fun e => (List.nodup_cons.mp hn).1 ?_, hm.mp (List.mem_cons_of_mem _ hi)⟩
        rwa [show i = index from e] at hi
      · rintro ⟨hne, hs⟩
        exact (List.mem_cons.mp (hm.mpr hs)).resolve_left hne
    · rw [h.mem_free i]
      simp only [Array.getElem?_push]
      constructor
      · rintro ⟨slot, hs, hn⟩
        have hlt := (Array.getElem?_eq_some_iff.mp hs).1
        exact ⟨Nat.ne_of_lt hlt, slot, by rw [if_neg (Nat.ne_of_lt hlt)]; exact hs, hn⟩
      · rintro ⟨hne, slot, hs, hn⟩
        rw [if_neg hne] at hs
        exact ⟨slot, hs, hn⟩
  · unfold Tree.reserve
    split
    · exact h.live_eq
    · simpa [occupied] using h.live_eq

theorem Reserved.updateNode (h : t.Reserved id) (j : NodeId) (f : Node → Node) :
    (t.updateNode j f).Reserved id := by
  unfold Tree.updateNode
  split
  · refine ⟨h.free_nodup, fun i => ?_, ?_, ?_⟩
    · rw [h.mem_free i]
      simp only [Array.getElem?_modify]
      split
      · cases t.slots[i]? <;> simp
      · rfl
    · simp only [Array.getElem?_modify, h.slot_eq]
      split <;> simp
    · show t.live = _
      rw [h.live_eq, occupied, occupied, Array.toList_modify]
      exact (countP_modify_of_same _ _ (fun a => by simp) _ _).symm
  · exact h

theorem Reserved.updateAll (h : t.Reserved id) (f : Node → Node) (ids : List NodeId) :
    (ids.foldl (fun t c => t.updateNode c f) t).Reserved id := by
  induction ids generalizing t with
  | nil => exact h
  | cons c ids ih => exact ih (h.updateNode c f)

/-- What a change of several nodes does to what an id names. -/
theorem get?_updateAll (f : Node → Node) (hf : ∀ n, f (f n) = f n) (ids : List NodeId) (t : Tree)
    (j : NodeId) : (ids.foldl (fun t c => t.updateNode c f) t).get? j =
      if j ∈ ids then (t.get? j).map f else t.get? j := by
  induction ids generalizing t with
  | nil => simp
  | cons c ids ih =>
    rw [List.foldl_cons, ih, get?_updateNode]
    by_cases hj : j = c
    · subst hj
      cases t.get? j <;> simp [hf]
    · simp [hj]

theorem root_updateAll (f : Node → Node) (ids : List NodeId) (t : Tree) :
    (ids.foldl (fun t c => t.updateNode c f) t).root = t.root := by
  induction ids generalizing t with
  | nil => rfl
  | cons c ids ih => rw [List.foldl_cons, ih, root_updateNode]

theorem insert_fst (t : Tree) (kind : NodeKind) (span : Span) (ids : List NodeId) :
    (t.insert kind span ids).1 = t.reserve.1 := rfl

@[simp] theorem root_insert (t : Tree) (kind : NodeKind) (span : Span) (ids : List NodeId) :
    (t.insert kind span ids).2.root = t.root := by
  simp only [insert, root_updateAll, root_reserve]

theorem get?_insert (h : t.Stored) (kind : NodeKind) (span : Span) (ids : List NodeId)
    (j : NodeId) : (t.insert kind span ids).2.get? j =
      if j = t.reserve.1 then some ⟨kind, span, none, ids⟩
      else if j ∈ ids then (t.get? j).map ({ · with parent := some t.reserve.1 })
      else t.get? j := by
  have hr := h.reserve.updateAll ({ · with parent := some t.reserve.1 }) ids
  have hg := fun j => get?_updateAll ({ · with parent := some t.reserve.1 }) (fun _ => rfl) ids
    t.reserve.2 j
  by_cases hj : j = t.reserve.1
  · subst hj
    simp [insert, get?, Array.getElem?_modify, hr.slot_eq]
  · rw [if_neg hj, ← get?_reserve t, ← hg]
    by_cases hi : t.reserve.1.index = j.index
    · have hgen : t.reserve.1.generation ≠ j.generation := fun e =>
        hj (NodeId.eq_of_parts hi.symm e.symm)
      simp only [insert, get?, Array.getElem?_modify]
      rw [← hi, hr.slot_eq]
      simp [hgen]
    · simp [insert, get?, Array.getElem?_modify, hi]

/-- A node that is there already is not the fresh one, and is as it was unless the fresh one is put above it. -/
theorem get?_insert_of_not_mem (h : t.Stored) (kind : NodeKind) (span : Span) {ids : List NodeId} {j : NodeId}
    {n : Node} (hn : t.get? j = some n) (hj : j ∉ ids) :
    j ≠ t.reserve.1 ∧ (t.insert kind span ids).2.get? j = some n := by
  have hne : j ≠ t.reserve.1 := by
    rintro rfl
    rw [get?_fresh h] at hn
    cases hn
  exact ⟨hne, by rw [get?_insert h, if_neg hne, if_neg hj, hn]⟩

/-- Only the fresh node is new. -/
theorem live_of_get?_insert (h : t.Stored) {kind : NodeKind} {span : Span} {ids : List NodeId} {j : NodeId} {n : Node}
    (hn : (t.insert kind span ids).2.get? j = some n) : j = t.reserve.1 ∨ ∃ m, t.get? j = some m := by
  refine Decidable.or_iff_not_imp_left.mpr fun hj => ?_
  rw [get?_insert h, if_neg hj] at hn
  split at hn
  · exact (Option.map_eq_some_iff.mp hn).imp fun _ hm => hm.1
  · exact ⟨n, hn⟩

theorem Stored.insert (h : t.Stored) (kind : NodeKind) (span : Span) (ids : List NodeId) :
    (t.insert kind span ids).2.Stored := by
  have hr := h.reserve.updateAll ({ · with parent := some t.reserve.1 }) ids
  refine ⟨hr.free_nodup, fun i => ?_, ?_⟩
  · refine (hr.mem_free i).trans ?_
    simp only [Tree.insert, Array.getElem?_modify]
    by_cases hi : t.reserve.1.index = i
    · subst hi
      simp [hr.slot_eq]
    · simp [hi, Ne.symm hi]
  · refine (congrArg (· + 1) hr.live_eq).trans ?_
    simp only [occupied, Tree.insert, Array.toList_modify]
    refine (countP_modify_of_new _ _ _ _ ⟨t.reserve.1.generation, none⟩ ?_ rfl rfl).symm
    simpa using hr.slot_eq

/-! ## Freeing nodes -/

theorem get?_vacate (t : Tree) (id j : NodeId) :
    (t.vacate id).get? j = if j = id then none else t.get? j := by
  unfold vacate
  split
  · next hc =>
    obtain ⟨n, hn⟩ := contains_iff.mp hc
    obtain ⟨slot, hs, hg, hsn⟩ := get?_eq_some_iff.mp hn
    by_cases hi : id.index = j.index
    · have hjs : t.slots[j.index]? = some slot := hi ▸ hs
      by_cases hj : j = id
      · simp [get?, Array.getElem?_modify, hi, hjs, hj]
      · have hgj : ¬ slot.generation = j.generation := fun hgj =>
          hj (NodeId.eq_of_parts hi.symm (hgj.symm.trans hg))
        simp [get?, Array.getElem?_modify, hi, hjs, hgj, hj]
    · have hj : j ≠ id := fun e => hi (e ▸ rfl)
      simp [get?, Array.getElem?_modify, hi, hj]
  · next hc =>
    split
    · next hj =>
      subst hj
      exact get?_of_not_contains hc
    · rfl

@[simp] theorem root_vacate (t : Tree) (id : NodeId) : (t.vacate id).root = t.root := by
  unfold vacate
  split <;> rfl

theorem Stored.vacate (h : t.Stored) (id : NodeId) : (t.vacate id).Stored := by
  unfold Tree.vacate
  split
  · next hc =>
    obtain ⟨n, hn⟩ := contains_iff.mp hc
    obtain ⟨slot, hs, hg, hsn⟩ := get?_eq_some_iff.mp hn
    refine ⟨?_, fun i => ?_, ?_⟩
    · refine List.nodup_cons.mpr ⟨fun hm => ?_, h.free_nodup⟩
      obtain ⟨slot', hs', hn'⟩ := (h.mem_free _).mp hm
      rw [hs] at hs'
      cases hs'
      rw [hsn] at hn'
      cases hn'
    · simp only [List.mem_cons, h.mem_free i, Array.getElem?_modify]
      by_cases hi : id.index = i
      · subst hi
        simp [hs]
      · simp [hi, Ne.symm hi]
    · show t.live - 1 = _
      have := countP_modify_of_gone (·.node.isSome) (fun slot => ⟨slot.generation + 1, none⟩)
        t.slots.toList id.index slot (by simpa using hs) (by simp [hsn]) rfl
      rw [h.live_eq, occupied, occupied, Array.toList_modify]
      omega
  · exact h

theorem get?_vacateAll (ids : List NodeId) (t : Tree) (j : NodeId) :
    (ids.foldl vacate t).get? j = if j ∈ ids then none else t.get? j := by
  induction ids generalizing t with
  | nil => simp
  | cons c ids ih =>
    rw [List.foldl_cons, ih, get?_vacate]
    by_cases hj : j = c <;> simp [hj]

theorem root_vacateAll (ids : List NodeId) (t : Tree) : (ids.foldl vacate t).root = t.root := by
  induction ids generalizing t with
  | nil => rfl
  | cons c ids ih => rw [List.foldl_cons, ih, root_vacate]

theorem Stored.vacateAll (h : t.Stored) (ids : List NodeId) : (ids.foldl Tree.vacate t).Stored := by
  induction ids generalizing t with
  | nil => exact h
  | cons c ids ih => exact ih (h.vacate c)

end Tree

end JavaFold
