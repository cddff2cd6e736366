import JavaFold.Proofs.Tree.Rewrite

/-!
# Counting nodes

The nodes of a tree are listed slot by slot (`Tree.liveIds`), each once, so their number is what `Tree.live` says. What
a rewrite puts in the place of a tree takes that tree away and leaves all other nodes, so the number of nodes changes by
the difference of the two trees (`Rewrite.live`).
-/

namespace JavaFold

namespace Tree

open OrderedTree

variable {t t' : Tree} {id : NodeId} {u u' : OrderedTree Placed}

/-- The id of the node in a slot, if it holds one. -/
def idAt? (t : Tree) (i : Nat) : Option NodeId :=
  match t.slots[i]? with
  | some ⟨generation, some _⟩ => some ⟨i, generation⟩
  | _ => none

/-- The ids of all nodes, slot by slot. -/
def liveIds (t : Tree) : List NodeId := (List.range t.slots.size).filterMap t.idAt?

theorem idAt?_eq_some_iff {i : Nat} : t.idAt? i = some id ↔ id.index = i ∧ ∃ n, t.get? id = some n := by
  simp only [get?_eq_some_iff]
  constructor
  · intro h
    unfold idAt? at h
    split at h
    · next generation n hs =>
      cases h
      exact ⟨rfl, n, _, hs, rfl, rfl⟩
    · cases h
  · rintro ⟨rfl, n, ⟨generation, node⟩, hs, rfl, rfl⟩
    rw [idAt?, hs]

theorem mem_liveIds : id ∈ t.liveIds ↔ ∃ n, t.get? id = some n := by
  rw [liveIds, List.mem_filterMap]
  constructor
  · rintro ⟨i, -, hi⟩
    exact (idAt?_eq_some_iff.mp hi).2
  · rintro ⟨n, hn⟩
    exact ⟨id.index, List.mem_range.mpr (index_lt hn), idAt?_eq_some_iff.mpr ⟨rfl, n, hn⟩⟩

theorem nodup_liveIds (t : Tree) : t.liveIds.Nodup :=
  List.nodup_range.filterMap fun _ _ _ hi hj =>
    (idAt?_eq_some_iff.mp hi).1.symm.trans (idAt?_eq_some_iff.mp hj).1

theorem isSome_idAt? (t : Tree) (i : Nat) : (t.idAt? i).isSome = ((t.slots[i]?.bind (·.node)).isSome) := by
  unfold idAt?
  split
  · next hs => simp [hs]
  · next hs =>
    cases hslot : t.slots[i]? with
    | none => rfl
    | some slot =>
      obtain ⟨generation, node⟩ := slot
      cases node with
      | none => rfl
      | some n => exact absurd hslot (hs generation n)

theorem length_liveIds (t : Tree) : t.liveIds.length = t.occupied := by
  have hslots : t.slots.toList.map (·.node.isSome) = (List.range t.slots.size).map fun i => (t.idAt? i).isSome := by
    refine List.ext_getElem (by simp) fun i hi _ => ?_
    have hlt : i < t.slots.size := by simpa using hi
    simp [isSome_idAt?, hlt]
  calc t.liveIds.length = (List.range t.slots.size).countP fun i => (t.idAt? i).isSome :=
        List.length_filterMap_eq_countP
    _ = ((List.range t.slots.size).map fun i => (t.idAt? i).isSome).countP id := by rw [List.countP_map]; rfl
    _ = (t.slots.toList.map (·.node.isSome)).countP id := by rw [hslots]
    _ = t.occupied := by rw [List.countP_map]; rfl

/-- The nodes are some of them, each listed once, and the others. -/
theorem Stored.live_eq_add {ids : List NodeId} (h : t.Stored) (hd : ids.Nodup)
    (hlive : ∀ x ∈ ids, ∃ n, t.get? x = some n) : t.live = ids.length + (t.liveIds.filter (· ∉ ids)).length := by
  have hin : t.liveIds.filter (· ∈ ids) |>.Perm ids := by
    refine (List.perm_ext_iff_of_nodup ((nodup_liveIds t).filter _) hd).mpr fun x => ?_
    rw [List.mem_filter, decide_eq_true_iff, mem_liveIds]
    exact ⟨And.right, fun hx => ⟨hlive x hx, hx⟩⟩
  rw [h.live_eq, ← length_liveIds, ← hin.length_eq, List.length_eq_length_filter_add (decide <| · ∈ ids)]
  simp

/-- If two trees have the same nodes but for some of each, their numbers differ as those do. -/
theorem Stored.live_add_length {ids ids' : List NodeId} (h : t.Stored) (h' : t'.Stored) (hd : ids.Nodup)
    (hd' : ids'.Nodup) (hlive : ∀ x ∈ ids, ∃ n, t.get? x = some n) (hlive' : ∀ x ∈ ids', ∃ n, t'.get? x = some n)
    (hothers : ∀ x, ((∃ n, t.get? x = some n) ∧ x ∉ ids) ↔ (∃ n, t'.get? x = some n) ∧ x ∉ ids') :
    t'.live + ids.length = t.live + ids'.length := by
  have hperm : (t.liveIds.filter (· ∉ ids)).Perm (t'.liveIds.filter (· ∉ ids')) := by
    refine (List.perm_ext_iff_of_nodup ((nodup_liveIds t).filter _) ((nodup_liveIds t').filter _)).mpr fun x => ?_
    rw [List.mem_filter, List.mem_filter, decide_eq_true_iff, decide_eq_true_iff, mem_liveIds, mem_liveIds, hothers]
  rw [h.live_eq_add hd hlive, h'.live_eq_add hd' hlive', hperm.length_eq]
  omega

/-- If a tree that is shown has as many nodes as there are, it has all of them. -/
theorem WellFormed.mem_ids_of_live {n : Node} (h : t.WellFormed) (hu : t.Shows u) (hlive : t.live = u.ids.length)
    (hn : t.get? id = some n) : id ∈ u.ids := by
  have hall := h.toStored.live_eq_add (Shows.nodup_ids h.toLinked u hu) fun x hx => hu.live hx
  have hothers : t.liveIds.filter (· ∉ u.ids) = [] := by
    rw [← List.length_eq_zero_iff]
    omega
  have hin := List.filter_eq_nil_iff.mp hothers id (mem_liveIds.mpr ⟨n, hn⟩)
  simpa using hin

/-- A rewrite changes the number of nodes by the difference of the two trees. -/
theorem Rewrite.live (h : t.WellFormed) (hu : t.Shows u) (hr : t.Rewrite u u' t') :
    t'.live + u.ids.length = t.live + u'.ids.length := by
  refine h.toStored.live_add_length hr.wellFormed.toStored (Shows.nodup_ids h.toLinked u hu)
    (Shows.nodup_ids hr.wellFormed.toLinked u' hr.shows) (fun x hx => hu.live hx) (fun x hx => hr.shows.live hx)
    fun x => ⟨?_, ?_⟩
  · rintro ⟨⟨n, hn⟩, hx⟩
    obtain ⟨hx', hn'⟩ := hr.kept hn hx
    exact ⟨⟨_, hn'⟩, hx'⟩
  · rintro ⟨⟨n, hn⟩, hx⟩
    exact (hr.only hn hx).symm

end Tree

end JavaFold
