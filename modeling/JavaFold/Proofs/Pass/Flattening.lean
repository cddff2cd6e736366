import JavaFold.Proofs.Pass.Changed
import JavaFold.Proofs.Pass.Flat
import JavaFold.Proofs.Tree.Census

/-!
# Folding blocks flattens the tree

`Blocks.flattened` puts the statements of each block that is a child of a block in its place, from the bottom up. The
nodes that go are exactly those blocks (`ids_flattened`). A fold at any node at which passes start makes this of the
tree there (`fold_flattens`): the blocks that have taken in others get new ids, and nothing else in it changes.
-/

namespace JavaFold

open OrderedTree JavaFold.Tree

namespace OrderedTree

theorem sameByAll_append {α β : Type} {same : α → β → Bool} : ∀ {ts vs : List (OrderedTree α)}
    {ts' vs' : List (OrderedTree β)}, sameByAll same ts ts' = true → sameByAll same vs vs' = true →
      sameByAll same (ts ++ vs) (ts' ++ vs') = true
  | [], _, [], _, _, h => h
  | t :: ts, _, t' :: ts', _, h, h' => by
    rw [sameByAll, Bool.and_eq_true] at h
    rw [List.cons_append, List.cons_append, sameByAll, h.1, sameByAll_append h.2 h', Bool.and_self]

theorem of_sameBy {same : Placed → Placed → Bool} {s s' : OrderedTree Placed} (h : s.sameBy same s' = true) :
    same s.label s'.label = true ∧ sameByAll same s.children s'.children = true := by
  cases s
  cases s'
  rwa [sameBy, Bool.and_eq_true] at h

mutual

theorem length_ids_of_sameBy {same : Placed → Placed → Bool} : ∀ {s s' : OrderedTree Placed},
    s.sameBy same s' = true → s'.ids.length = s.ids.length
  | .node p ss, .node p' ss', h => by
    rw [sameBy, Bool.and_eq_true] at h
    rw [ids_node, ids_node, List.length_cons, List.length_cons, length_idsAll_of_sameByAll h.2]

theorem length_idsAll_of_sameByAll {same : Placed → Placed → Bool} : ∀ {ss ss' : List (OrderedTree Placed)},
    sameByAll same ss ss' = true → (idsAll ss').length = (idsAll ss).length
  | [], [], _ => rfl
  | s :: ss, s' :: ss', h => by
    rw [sameByAll, Bool.and_eq_true] at h
    rw [idsAll_cons, idsAll_cons, List.length_append, List.length_append, length_ids_of_sameBy h.1,
      length_idsAll_of_sameByAll h.2]

end

end OrderedTree

namespace Blocks

variable {s : OrderedTree Placed} {ss : List (OrderedTree Placed)} {p : Placed}

mutual

/-- The tree with the children of each block that is a child of a block in its place. -/
def flattened : OrderedTree Placed → OrderedTree Placed
  | node p ss => node p (if p.kind.isBlock then (flattenedAll ss).flatMap absorbed else flattenedAll ss)

def flattenedAll : List (OrderedTree Placed) → List (OrderedTree Placed)
  | [] => []
  | s :: ss => flattened s :: flattenedAll ss

end

/-- The ids of the blocks among the children of a node. -/
def blockIds (ss : List (OrderedTree Placed)) : List NodeId :=
  (ss.filter (·.label.kind.isBlock)).map (·.label.id)

/-- The ids of the blocks that are children of the top of a tree, if that is a block too. -/
def innerOf (u : OrderedTree Placed) : List NodeId := if u.label.kind.isBlock then blockIds u.children else []

/-- The ids of the blocks below the top of a tree that are children of blocks. -/
def innerBlocks (s : OrderedTree Placed) : List NodeId := s.subtrees.flatMap innerOf

def innerBlocksAll (ss : List (OrderedTree Placed)) : List NodeId := (subtreesAll ss).flatMap innerOf

/-- The ids of the blocks of a tree that have a block among their children. -/
def outerBlocks (s : OrderedTree Placed) : List NodeId :=
  (s.subtrees.filter fun u => u.label.kind.isBlock && isNestedIn u).map (·.label.id)

theorem innerBlocks_node (p : Placed) (ss : List (OrderedTree Placed)) :
    innerBlocks (node p ss) = (if p.kind.isBlock then blockIds ss else []) ++ innerBlocksAll ss := by
  rw [innerBlocks, subtrees, List.flatMap_cons, innerBlocksAll]
  rfl

theorem innerBlocksAll_cons (s : OrderedTree Placed) (ss : List (OrderedTree Placed)) :
    innerBlocksAll (s :: ss) = innerBlocks s ++ innerBlocksAll ss := by
  rw [innerBlocksAll, subtreesAll, List.flatMap_append, innerBlocks, innerBlocksAll]

/-! ## What is left of the nodes -/

theorem label_flattened (s : OrderedTree Placed) : (flattened s).label = s.label := by
  cases s
  rfl

theorem blockIds_cons (s : OrderedTree Placed) (ss : List (OrderedTree Placed)) :
    blockIds (s :: ss) = if s.label.kind.isBlock then s.label.id :: blockIds ss else blockIds ss := by
  rw [blockIds, List.filter_cons]
  split <;> rfl

theorem blockIds_flattenedAll (ss : List (OrderedTree Placed)) : blockIds (flattenedAll ss) = blockIds ss := by
  induction ss with
  | nil => rfl
  | cons s ss ih => rw [flattenedAll, blockIds_cons, blockIds_cons, label_flattened, ih]

/-- Taking in the statements of blocks takes away the ids of those blocks. -/
theorem ids_flatMap_absorbed (ss : List (OrderedTree Placed)) :
    (idsAll (ss.flatMap absorbed) ++ blockIds ss).Perm (idsAll ss) := by
  induction ss with
  | nil => exact .nil
  | cons s ss ih =>
    rw [List.flatMap_cons, idsAll_append, idsAll_cons, blockIds_cons, absorbed, List.append_assoc]
    split
    · obtain ⟨p, ts⟩ := s
      rw [ids_node]
      calc idsAll ts ++ (idsAll (ss.flatMap absorbed) ++ p.id :: blockIds ss)
        _ |>.Perm (idsAll ts ++ p.id :: (idsAll (ss.flatMap absorbed) ++ blockIds ss)) :=
            List.perm_middle.append_left _
        _ |>.Perm (p.id :: (idsAll ts ++ (idsAll (ss.flatMap absorbed) ++ blockIds ss))) := List.perm_middle
        _ |>.Perm (p.id :: (idsAll ts ++ idsAll ss)) := (ih.append_left _).cons _
    · rw [idsAll_cons, idsAll_nil, List.append_nil]
      exact ih.append_left _

mutual

/-- The nodes that go are the blocks that are children of blocks. -/
theorem ids_flattened : ∀ s : OrderedTree Placed, ((flattened s).ids ++ innerBlocks s).Perm s.ids
  | .node p ss => by
    have ih := idsAll_flattenedAll ss
    rw [flattened, ids_node, ids_node, innerBlocks_node]
    refine List.Perm.cons _ ?_
    split
    · have htaken := ids_flatMap_absorbed (flattenedAll ss)
      rw [blockIds_flattenedAll] at htaken
      change (idsAll _ ++ (blockIds ss ++ innerBlocksAll ss)).Perm (idsAll ss)
      rw [← List.append_assoc]
      exact (htaken.append_right _).trans ih
    · exact ih

theorem idsAll_flattenedAll : ∀ ss : List (OrderedTree Placed),
    (idsAll (flattenedAll ss) ++ innerBlocksAll ss).Perm (idsAll ss)
  | [] => .nil
  | s :: ss => by
    have ih := idsAll_flattenedAll ss
    rw [flattenedAll, idsAll_cons, idsAll_cons, innerBlocksAll_cons]
    calc (flattened s).ids ++ idsAll (flattenedAll ss) ++ (innerBlocks s ++ innerBlocksAll ss)
      _ |>.Perm ((flattened s).ids ++ innerBlocks s ++ (idsAll (flattenedAll ss) ++ innerBlocksAll ss)) := by
          simp only [List.append_assoc]
          exact (List.perm_append_comm_assoc _ _ _).append_left _
      _ |>.Perm (s.ids ++ idsAll ss) := (ids_flattened s).append ih

end

theorem blockIds_eq_nil_iff : blockIds ss = [] ↔ isNestedIn (node p ss) = false := by
  rw [blockIds, List.map_eq_nil_iff, List.filter_eq_nil_iff, isNestedIn, List.any_eq_false]
  rfl

mutual

/-- A tree is flat if no block is a child of a block. -/
theorem isFlat_iff_innerBlocks : ∀ s : OrderedTree Placed, isFlat s.kinds = true ↔ innerBlocks s = []
  | .node p ss => by
    have hnested : (mapAll Placed.kind ss).any (·.label.isBlock) = isNestedIn (node p ss) := by
      rw [isNestedIn_node, ← any_isBlock_mapAll, mapAll_partsAll]
    rw [kinds, OrderedTree.map, isFlat, hnested, Bool.and_eq_true, innerBlocks_node, List.append_eq_nil_iff,
      isFlatAll_iff_innerBlocks ss]
    refine and_congr_left fun _ => ?_
    cases hb : p.kind.isBlock with
    | false => simp
    | true => simp [blockIds_eq_nil_iff (p := p)]

theorem isFlatAll_iff_innerBlocks : ∀ ss : List (OrderedTree Placed), isFlatAll (kindsAll ss) = true ↔ innerBlocksAll ss = []
  | [] => ⟨fun _ => rfl, fun _ => rfl⟩
  | s :: ss => by
    rw [kindsAll, mapAll, isFlatAll, Bool.and_eq_true, innerBlocksAll_cons, List.append_eq_nil_iff, ← isFlat_iff_innerBlocks s,
      ← isFlatAll_iff_innerBlocks ss]

end

/-! ## What a walk makes of the nodes -/

/-- Whether a node is what another one was, and has its id unless that is to be renewed. -/
def keeps (renewed : List NodeId) (p p' : Placed) : Bool :=
  p.part == p'.part && (p.id == p'.id || renewed.contains p.id)

variable {renewed : List NodeId}

theorem isBlock_of_keeps {p' : Placed} (h : keeps renewed p p' = true) : p'.kind.isBlock = p.kind.isBlock := by
  rw [keeps, Bool.and_eq_true, beq_iff_eq] at h
  exact congrArg (·.kind.isBlock) h.1.symm

theorem sameByAll_flatMap_absorbed : ∀ {us us' : List (OrderedTree Placed)},
    sameByAll (keeps renewed) us us' = true →
      sameByAll (keeps renewed) (us.flatMap absorbed) (us'.flatMap absorbed) = true
  | [], [], h => h
  | u :: us, u' :: us', h => by
    rw [sameByAll, Bool.and_eq_true] at h
    have ⟨hlabel, hchildren⟩ := of_sameBy h.1
    rw [List.flatMap_cons, List.flatMap_cons]
    refine sameByAll_append ?_ (sameByAll_flatMap_absorbed h.2)
    rw [absorbed, absorbed, isBlock_of_keeps hlabel]
    split
    · exact hchildren
    · rw [sameByAll, h.1]
      rfl

theorem any_isBlock_of_sameByAll : ∀ {us us' : List (OrderedTree Placed)}, sameByAll (keeps renewed) us us' = true →
    us'.any (·.label.kind.isBlock) = us.any (·.label.kind.isBlock)
  | [], [], _ => rfl
  | u :: us, u' :: us', h => by
    rw [sameByAll, Bool.and_eq_true] at h
    rw [List.any_cons, List.any_cons, isBlock_of_keeps (of_sameBy h.1).1, any_isBlock_of_sameByAll h.2]

theorem any_isBlock_flattenedAll (ss : List (OrderedTree Placed)) :
    (flattenedAll ss).any (·.label.kind.isBlock) = ss.any (·.label.kind.isBlock) := by
  induction ss with
  | nil => rfl
  | cons s ss ih => rw [flattenedAll, List.any_cons, List.any_cons, label_flattened, ih]

theorem flatMap_absorbed {ss : List (OrderedTree Placed)} (h : ss.any (·.label.kind.isBlock) = false) :
    ss.flatMap absorbed = ss := by
  induction ss with
  | nil => rfl
  | cons s ss ih =>
    rw [List.any_cons, Bool.or_eq_false_iff] at h
    rw [List.flatMap_cons, ih h.2, absorbed, h.1]
    rfl

theorem outerBlocks_node (p : Placed) (ss : List (OrderedTree Placed)) :
    outerBlocks (node p ss) = (if p.kind.isBlock && isNestedIn (node p ss) then [p.id] else []) ++
      ((subtreesAll ss).filter fun u => u.label.kind.isBlock && isNestedIn u).map (·.label.id) := by
  rw [outerBlocks, subtrees, List.filter_cons]
  change (if (p.kind.isBlock && isNestedIn (node p ss)) = true then _ else _ : List (OrderedTree Placed)).map _ = _
  split <;> rfl

theorem mem_outerBlocks_top (hb : p.kind.isBlock = true) (hn : isNestedIn (node p ss) = true) :
    p.id ∈ outerBlocks (node p ss) := by
  rw [outerBlocks_node, hb, hn]
  exact List.mem_cons_self

theorem outerBlocks_subset (hs : s ∈ ss) : outerBlocks s ⊆ outerBlocks (node p ss) := by
  rw [outerBlocks_node]
  refine List.Subset.trans ?_ (List.subset_append_right _ _)
  exact List.map_subset _ (List.filter_subset _ (subtrees_subset_subtreesAll hs))

mutual

/-- A walk makes the flattened tree, with other ids for the blocks that have taken in others. -/
theorem sameBy_of_walked : ∀ {s s' : OrderedTree Placed} {q : Placed} {before after : List (OrderedTree Placed)}
    {c : Bool}, Walk.Walked NodeKind.isBlock Spliced s q before after s' c → outerBlocks s ⊆ renewed →
      (flattened s).sameBy (keeps renewed) s' = true
  | .node p ss, s', q, before, after, c, ⟨ss', c₁, hall, hs⟩, hsub => by
    have ih := sameByAll_of_walkedAll hall fun u hu => List.Subset.trans (outerBlocks_subset hu) hsub
    have hself : keeps renewed p p = true := by simp [keeps]
    rw [flattened]
    by_cases hb : p.kind.isBlock = true
    · rw [if_pos hb] at hs ⊢
      obtain ⟨c₂, ⟨rfl, hspliced⟩, -⟩ := hs
      have hnested : isNestedIn (node p ss') = isNestedIn (node p ss) :=
        (any_isBlock_of_sameByAll ih).trans (any_isBlock_flattenedAll ss)
      split at hspliced
      · next hn =>
        obtain ⟨fresh, rfl⟩ := hspliced
        have houter : p.id ∈ renewed := hsub (mem_outerBlocks_top hb (hnested ▸ hn))
        rw [sameBy, show (node p ss').children = ss' from rfl, sameByAll_flatMap_absorbed ih, Bool.and_true]
        simp [keeps, houter, eq_of_isBlock hb, Placed.part, label]
      · next hn =>
        have hnone : (flattenedAll ss).any (·.label.kind.isBlock) = false :=
          (any_isBlock_of_sameByAll ih).symm.trans (Bool.eq_false_of_not_eq_true hn)
        rw [hspliced, flatMap_absorbed hnone, sameBy, ih, hself, Bool.and_self]
    · rw [if_neg hb] at hs ⊢
      rw [hs.1, sameBy, ih, hself, Bool.and_self]

theorem sameByAll_of_walkedAll : ∀ {ss ss' : List (OrderedTree Placed)} {q : Placed}
    {before : List (OrderedTree Placed)} {c : Bool}, Walk.WalkedAll NodeKind.isBlock Spliced ss q before ss' c →
      (∀ s ∈ ss, outerBlocks s ⊆ renewed) → sameByAll (keeps renewed) (flattenedAll ss) ss' = true
  | [], _, _, _, _, ⟨hss', _⟩, _ => by
    rw [hss']
    rfl
  | s :: ss, _, _, _, _, ⟨s', ss', c₁, c₂, rfl, hs, hss, _⟩, hsub => by
    have ⟨hfirst, hrest⟩ := List.forall_mem_cons.mp hsub
    rw [flattenedAll, sameByAll, sameBy_of_walked hs hfirst, sameByAll_of_walkedAll hss hrest, Bool.and_self]

end

end Blocks

namespace PassKind

open Blocks

/-- A fold of blocks at any node of a reachable tree at which passes start succeeds and flattens the tree there. What
has come out has no block as a child of a block, and each node of it is what it was, with the same id unless it is a
block that has taken in others. The nodes outside are what they were, the number of nodes drops by that of the blocks
that have been taken in, and the fold says that it has changed something exactly if there are any. -/
theorem fold_flattens {t : Tree} (ht : t.Reachable) {id : NodeId} {n : Node} (hn : t.get? id = some n)
    (hroot : n.parent ≠ none ∨ n.kind = .unit) : ∃ s s' t', t.subtree? id = some s ∧
      (blockFolding.fold id).run t = .ok (!(innerBlocks s).isEmpty) t' ∧
      t'.subtree? s'.label.id = some s' ∧ t.Rewrite s s' t' ∧
      (flattened s).sameBy (keeps (outerBlocks s)) s' = true ∧ innerBlocks s' = [] ∧
      t'.live + (innerBlocks s).length = t.live := by
  have h := ht.wellFormed
  have hstart : ¬ (n.parent.isNone ∧ n.kind ≠ .unit) := fun ⟨hnone, hk⟩ =>
    hroot.elim (· (Option.isNone_iff_eq_none.mp hnone)) hk
  obtain ⟨s, q, before, after, s', c, t', hs, hwalk, hr, -, hrun⟩ :=
    run_fold_walked blockFolding visitor_does h hn hstart
  obtain ⟨hshow, -⟩ := shows_of_subtree? hs
  have ⟨hparts, hc⟩ := parts_of_walked hwalk
  have hsame : (flattened s).sameBy (keeps (outerBlocks s)) s' = true := sameBy_of_walked hwalk (List.Subset.refl _)
  refine ⟨s, s', t', hs, ?_, hr.wellFormed.subtree?_of_shows hr.shows, hr, hsame, ?_, ?_⟩
  · have hempty : isFlat s.kinds = (innerBlocks s).isEmpty :=
      Bool.eq_iff_iff.mpr ((isFlat_iff_innerBlocks s).trans List.isEmpty_iff.symm)
    rw [← hempty, ← hc, hrun]
  · rw [← isFlat_iff_innerBlocks, ← map_parts, hparts]
    exact isFlat_flatten s.parts
  · have hlive := hr.live h hshow
    have hids := (ids_flattened s).length_eq
    have hlength := length_ids_of_sameBy hsame
    rw [List.length_append] at hids
    omega

/-- In a method with a block in a block, the outer block is flattened. -/
theorem fold_flattens_nestedBlocks : Walk.nestedBlocks.Reachable ∧
    Walk.nestedBlocks.get? ⟨3, 0⟩ = some ⟨.stmt .block, .dummy, some ⟨4, 0⟩, [⟨2, 0⟩]⟩ ∧
    ∃ s s' t', Walk.nestedBlocks.subtree? ⟨3, 0⟩ = some s ∧
      (blockFolding.fold ⟨3, 0⟩).run Walk.nestedBlocks = .ok true t' ∧ t'.subtree? s'.label.id = some s' ∧
      innerBlocks s = [⟨2, 0⟩] ∧ t'.live + 1 = Walk.nestedBlocks.live := by
  have ht : Walk.nestedBlocks.Reachable := .step (.alloc (.method [] .void "m" []) .dummy [⟨3, 0⟩])
    (.step (.alloc (.stmt .block) .dummy [⟨2, 0⟩]) (.step (.alloc (.stmt .block) .dummy [⟨1, 0⟩])
      (.step (.alloc (.stmt .empty) .dummy []) .empty)))
  have hnode : Walk.nestedBlocks.get? ⟨3, 0⟩ = some ⟨.stmt .block, .dummy, some ⟨4, 0⟩, [⟨2, 0⟩]⟩ := by decide +kernel
  obtain ⟨s, s', t', hs, hrun, hs', -, -, -, hlive⟩ := fold_flattens ht hnode (.inl nofun)
  have hinner : (Walk.nestedBlocks.subtree? ⟨3, 0⟩).map innerBlocks = some [⟨2, 0⟩] := by decide +kernel
  rw [hs, Option.map_some, Option.some_inj] at hinner
  rw [hinner] at hrun hlive
  exact ⟨ht, hnode, s, s', t', hs, hrun, hs', hinner, hlive⟩

end PassKind

end JavaFold
