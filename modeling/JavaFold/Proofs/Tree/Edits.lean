import JavaFold.Proofs.Tree.Demands

/-!
# Edits keep trees well-formed

What each edit does where its demands are met, and that it keeps a tree well-formed
(`Tree.WellFormed`). An edit checks its demands before it changes anything, so one that fails
leaves the tree as it was (`Edit.Decides`); once the checks have passed, no step of it can fail, because
the links of a well-formed tree lead from live nodes to live nodes only.
-/

namespace JavaFold

namespace Tree

open OrderedTree

variable {t t' : Tree} {id p c : NodeId} {n m : Node}

theorem Floating.live (h : t.Floating id) : ∃ n, t.get? id = some n := h.imp fun _ hn => hn.1

/-- Making a node above distinct floating nodes. -/
theorem WellFormed.insert (h : t.WellFormed) (kind : NodeKind) (span : Span) {cs : List NodeId}
    (hd : cs.Nodup) (hf : ∀ c ∈ cs, t.Floating c) : (t.insert kind span cs).2.WellFormed :=
  ⟨h.toStored.insert kind span cs, h.toLinked.insert hd hf (get?_fresh h.toStored)
    (fun j => get?_insert h.toStored kind span cs j) (root_insert t kind span cs)⟩

/-- The new node is floating. -/
theorem WellFormed.floating_insert (h : t.WellFormed) (kind : NodeKind) (span : Span)
    (cs : List NodeId) : (t.insert kind span cs).2.Floating (t.insert kind span cs).1 := by
  refine ⟨_, by rw [get?_insert h.toStored, insert_fst, if_pos rfl], rfl, ?_⟩
  obtain ⟨n, hn, -⟩ := h.root
  rw [root_insert, insert_fst]
  rintro e
  rw [← e, get?_fresh h.toStored] at hn
  cases hn

theorem get?_link (hne : p ≠ c) (j : NodeId) : (t.link p c).get? j =
    if j = c then (t.get? j).map ({ · with parent := some p })
    else if j = p then (t.get? j).map fun n => { n with children := n.children ++ [c] }
    else t.get? j := by
  rw [link, get?_updateNode, get?_updateNode]
  by_cases hj : j = c
  · simp [hj, hne.symm]
  · by_cases hp : j = p <;> simp [hj, hp, hne, get?_updateNode]

theorem root_link (t : Tree) (p c : NodeId) : (t.link p c).root = t.root := by
  rw [link, root_updateNode, root_updateNode]

/-- Putting a floating node after the children of a node that it is not above. -/
theorem WellFormed.link (h : t.WellFormed) (hf : t.Floating c) (hn : t.get? p = some n)
    (hna : ¬ t.Above c p) : (t.link p c).WellFormed := by
  have hpc : p ≠ c := fun e => hna (e ▸ .refl)
  refine ⟨(h.toStored.updateNode p _).updateNode c _, h.toLinked.adopt hf hn hna
    (List.perm_append_comm : (n.children ++ [c]).Perm ([c] ++ n.children)) (fun j => ?_)
    (root_link t p c)⟩
  rw [get?_link hpc]
  by_cases hj : j = c
  · simp [hj]
  · by_cases hp : j = p
    · subst hp
      simp [hj, hn]
    · simp [hj, hp]

/-! ## Freeing -/

mutual

theorem mem_freeOrder : ∀ (s : OrderedTree Placed) (x : NodeId), x ∈ freeOrder s ↔ x ∈ s.ids
  | .node q ss, x => by
    rw [freeOrder, ids_node, List.mem_cons, List.mem_cons, mem_freeOrderAll ss x]

theorem mem_freeOrderAll : ∀ (ss : List (OrderedTree Placed)) (x : NodeId),
    x ∈ freeOrderAll ss ↔ x ∈ idsAll ss
  | [], x => by simp [freeOrderAll]
  | s :: ss, x => by
    rw [freeOrderAll, idsAll_cons, List.mem_append, List.mem_append, mem_freeOrderAll ss x,
      mem_freeOrder s x, or_comm]

end

theorem get?_release {s : OrderedTree Placed} (hs : t.subtree? id = some s) (j : NodeId) :
    (t.release id).get? j = if j ∈ s.ids then none else t.get? j := by
  rw [release, hs]
  simp only [get?_vacateAll, mem_freeOrder]

theorem root_release (t : Tree) (id : NodeId) : (t.release id).root = t.root := by
  unfold release
  split
  · rfl
  · exact root_vacateAll _ _

theorem Stored.release (h : t.Stored) (id : NodeId) : (t.release id).Stored := by
  unfold Tree.release
  split
  · exact h
  · exact h.vacateAll _

/-- Freeing a floating node and all nodes below it. -/
theorem WellFormed.release (h : t.WellFormed) (hf : t.Floating id) : (t.release id).WellFormed := by
  have ⟨n, hn, _, hr⟩ := hf
  obtain ⟨s, hs⟩ := h.exists_subtree? hn
  obtain ⟨hshow, rfl⟩ := shows_of_subtree? hs
  exact ⟨h.toStored.release _, h.toLinked.release hshow (fun _ => hf.not_isParent) hr
    (get?_release hs) (root_release _ _)⟩

/-! ## Exchanging a child -/

theorem exchange_perm {old new : NodeId} : ∀ {cs : List NodeId}, cs.Nodup → old ∈ cs →
    (Edit.exchange old new cs).Perm (new :: cs.filter (· != old))
  | [], _, hm => nomatch hm
  | c :: cs, hd, hm => by
    rw [List.nodup_cons] at hd
    rw [Edit.exchange]
    split
    · next hc =>
      subst hc
      have hrest : cs.filter (· != c) = cs := List.filter_eq_self.mpr fun x hx => by
        rw [bne_iff_ne]
        rintro rfl
        exact hd.1 hx
      simp [hrest]
    · next hc =>
      have ih : (Edit.exchange old new cs).Perm (new :: cs.filter (· != old)) :=
        exchange_perm hd.2 ((List.mem_cons.mp hm).resolve_left (Ne.symm hc))
      have hkeep : (c :: cs).filter (· != old) = c :: cs.filter (· != old) := by simp [hc]
      rw [hkeep]
      exact (ih.cons c).trans (.swap _ _ _)

/-- The tree in which `new` has taken the place of `id` below `p`, and `id` is floating. -/
def relinked (t : Tree) (p id new : NodeId) : Tree :=
  ((t.updateNode p fun n => { n with children := Edit.exchange id new n.children }).updateNode new
    ({ · with parent := some p })).updateNode id ({ · with parent := none })

variable {new : NodeId}

theorem root_relinked (t : Tree) (p id new : NodeId) : (t.relinked p id new).root = t.root := by
  rw [relinked, root_updateNode, root_updateNode, root_updateNode]

theorem get?_relinked (hpn : p ≠ new) (hpi : p ≠ id) (hni : new ≠ id) (j : NodeId) :
    (t.relinked p id new).get? j =
      if j = new then (t.get? j).map ({ · with parent := some p })
      else if j = id then (t.get? j).map ({ · with parent := none })
      else if j = p then
        (t.get? j).map fun n => { n with children := Edit.exchange id new n.children }
      else t.get? j := by
  simp only [relinked, get?_updateNode]
  by_cases h₁ : j = new
  · simp [h₁, hni, hpn.symm]
  · by_cases h₂ : j = id
    · simp [h₂, hni.symm, hpi.symm]
    · by_cases h₃ : j = p <;> simp [h₁, h₂, h₃, hpn, hpi]

/-- Relinking makes no node. -/
theorem live_of_get?_relinked (hpn : p ≠ new) (hpi : p ≠ id) (hni : new ≠ id) {j : NodeId} {n : Node}
    (hn : (t.relinked p id new).get? j = some n) : ∃ m, t.get? j = some m := by
  rw [get?_relinked hpn hpi hni] at hn
  split_ifs at hn <;> first | exact ⟨n, hn⟩ | exact (Option.map_eq_some_iff.mp hn).imp fun _ hm => hm.1

/-- Putting a floating node in the place of another one, which it is not above. -/
theorem WellFormed.relinked (h : t.WellFormed) (hp : t.IsParent p id) (hf : t.Floating new)
    (hna : ¬ t.Above new id) : (t.relinked p id new).WellFormed := by
  obtain ⟨n, hn, hmem⟩ := h.mem_of_isParent hp
  have hpi := h.ne_of_isParent hp
  have hni : new ≠ id := fun e => hna (e ▸ .refl)
  have hpn : p ≠ new := by
    rintro rfl
    exact hna (.single hp)
  -- First `id` is taken out, then `new` is put in.
  let t₁ := (t.updateNode p fun n => { n with children := n.children.filter (· != id) }).updateNode
    id ({ · with parent := none })
  have hg₁ : ∀ j, t₁.get? j = if j = id then (t.get? j).map ({ · with parent := none })
      else if j = p then (t.get? j).map fun n => { n with children := n.children.filter (· != id) }
      else t.get? j := by
    intro j
    simp only [t₁, get?_updateNode]
    by_cases h₂ : j = id
    · simp [h₂, hpi.symm]
    · by_cases h₃ : j = p <;> simp [h₂, h₃, hpi]
  have hr₁ : t₁.root = t.root := by simp [t₁]
  have h₁ : t₁.Linked := h.toLinked.unlink hp hg₁ hr₁
  have hn₁ : t₁.get? p = some { n with children := n.children.filter (· != id) } := by
    rw [hg₁, if_neg hpi, if_pos rfl, hn]
    rfl
  have hf₁ : t₁.Floating new := by
    obtain ⟨m, hm, hmp, hmr⟩ := hf
    exact ⟨m, by rw [hg₁, if_neg hni, if_neg hpn.symm, hm], hmp, hr₁ ▸ hmr⟩
  have hsub : ∀ q x, t₁.IsParent q x → t.IsParent q x := by
    rintro q x ⟨k, hk, hkq⟩
    rw [hg₁] at hk
    split at hk
    · obtain ⟨k₀, -, rfl⟩ := Option.map_eq_some_iff.mp hk
      cases hkq
    · split at hk
      · obtain ⟨k₀, hk₀, rfl⟩ := Option.map_eq_some_iff.mp hk
        exact ⟨k₀, hk₀, hkq⟩
      · exact ⟨k, hk, hkq⟩
  refine ⟨((h.toStored.updateNode _ _).updateNode _ _).updateNode _ _,
    h₁.adopt hf₁ hn₁ (fun ha => hna ((Relation.ReflTransGen.mono hsub _ _ ha).tail hp))
      (exchange_perm (h.nodup_children hn) hmem) (fun j => ?_)
      ((root_relinked _ _ _ _).trans hr₁.symm)⟩
  rw [get?_relinked hpn hpi hni, hg₁]
  by_cases h₁ : j = new
  · simp [h₁, hni, hpn.symm]
  · by_cases h₂ : j = id
    · simp [h₂, hni.symm, hpi.symm]
    · by_cases h₃ : j = p
      · subst h₃
        simp [hpn, hpi, hn]
      · simp [h₁, h₂, h₃]

theorem WellFormed.floating_relinked (h : t.WellFormed) (hp : t.IsParent p id)
    (hf : t.Floating new) (hna : ¬ t.Above new id) : (t.relinked p id new).Floating id := by
  have hni : new ≠ id := fun e => hna (e ▸ .refl)
  have hpn : p ≠ new := by
    rintro rfl
    exact hna (.single hp)
  obtain ⟨m, hm⟩ := hp.live
  refine ⟨{ m with parent := none }, ?_, rfl, ?_⟩
  · rw [get?_relinked hpn (h.ne_of_isParent hp) hni, if_neg hni.symm, if_pos rfl, hm]
    rfl
  · rw [root_relinked]
    exact h.ne_root_of_isParent hp

/-! ## Taking children out -/

/-- The tree in which the children `ids` of a node have been taken out. -/
def emptied (t : Tree) (id : NodeId) (ids : List NodeId) : Tree :=
  ids.foldl (fun t c => t.updateNode c ({ · with parent := none }))
    (t.updateNode id ({ · with children := [] }))

theorem root_emptied (t : Tree) (id : NodeId) (ids : List NodeId) :
    (t.emptied id ids).root = t.root := by
  rw [emptied, root_updateAll, root_updateNode]

theorem get?_emptied {ids : List NodeId} (hid : id ∉ ids) (j : NodeId) :
    (t.emptied id ids).get? j =
      if j ∈ ids then (t.get? j).map ({ · with parent := none })
      else if j = id then (t.get? j).map ({ · with children := [] })
      else t.get? j := by
  rw [emptied, get?_updateAll ({ · with parent := none }) (fun _ => rfl), get?_updateNode]
  by_cases hj : j ∈ ids
  · have hne : j ≠ id := fun e => hid (e ▸ hj)
    simp [hj, hne]
  · by_cases he : j = id
    · subst he
      simp [hj]
    · simp [hj, he]

theorem Stored.updateAll (h : t.Stored) (f : Node → Node) (ids : List NodeId) :
    (ids.foldl (fun t c => t.updateNode c f) t).Stored := by
  induction ids generalizing t with
  | nil => exact h
  | cons c ids ih => exact ih (h.updateNode c f)

theorem Linked.not_mem_children (h : t.Linked) (hn : t.get? id = some n) : id ∉ n.children :=
  fun hm => h.ne_of_isParent (h.isParent_of_mem hn hm) rfl

theorem WellFormed.emptied (h : t.WellFormed) (hn : t.get? id = some n) :
    (t.emptied id n.children).WellFormed :=
  ⟨(h.toStored.updateNode id _).updateAll _ _, h.toLinked.unlinkAll hn
    (get?_emptied (h.not_mem_children hn)) (root_emptied t id n.children)⟩

end Tree

/-! ## Running edits -/

namespace Edit

open JavaFold.Tree

variable {t t' : Tree} {id p c new : NodeId} {n m : Node} {α β : Type}

@[simp] theorem run_throw (e : TreeError) (t : Tree) : (throw e : Edit α).run t = .error e t := rfl

theorem run_live (h : t.get? id = some n) : (live id).run t = .ok n t := by
  simp [live, h]

theorem run_live_stale (h : t.get? id = none) : (live id).run t = .error (.stale id) t := by
  simp [live, h]

theorem live_decides : Decides (live id) t [.live t id] fun n t' => t' = t ∧ t.get? id = some n := by
  refine .demand (fun hn => ?_) fun ⟨n, hn⟩ => .of_ok (run_live hn) ⟨rfl, hn⟩
  exact run_live_stale (Demand.get?_of_not_live hn)

theorem run_modifyNode (f : Node → Node) (h : t.get? id = some n) :
    (modifyNode id f).run t = .ok () (t.updateNode id f) := by
  simp [modifyNode, run_live h]

theorem run_checkFloating (h : t.Floating id) : (checkFloating id).run t = .ok () t := by
  obtain ⟨n, hn, hp, hr⟩ := h
  simp [checkFloating, run_live hn, hp, hr]

theorem checkFloating_decides :
    Decides (checkFloating id) t (Demand.floating t id) fun _ t' => t' = t ∧ t.Floating id := by
  refine live_decides.bind fun n hn => .demand (fun hatt => ?_) fun ⟨hroot, hp⟩ => ?_
  · have hc : n.parent.isSome = true ∨ id = t.root := by
      by_contra hc
      rw [not_or, Bool.not_eq_true, Option.isSome_eq_false_iff, Option.isNone_iff_eq_none] at hc
      refine hatt ⟨hc.2, fun p ⟨m, hm, hmp⟩ => ?_⟩
      rw [hn] at hm
      cases hm
      rw [hc.1] at hmp
      cases hmp
    simp [hc]
  · have hparent : n.parent = none := Option.eq_none_iff_forall_ne_some.mpr fun p h => hp p ⟨n, hn, h⟩
    exact .of_ok (a := ()) (by simp [hparent, hroot]) ⟨rfl, n, hn, hparent, hroot⟩

theorem run_checkAdoptees : ∀ (seen ids : List NodeId), (∀ id ∈ ids, t.Floating id) → ids.Nodup →
    (∀ id ∈ ids, id ∉ seen) → (checkAdoptees seen ids).run t = .ok () t
  | _, [], _, _, _ => by simp [checkAdoptees]
  | seen, id :: ids, hf, hd, hs => by
    rw [List.nodup_cons] at hd
    have ih := run_checkAdoptees (id :: seen) ids (fun c hc => hf c (List.mem_cons_of_mem _ hc)) hd.2
      (fun c hc => by
        rw [List.mem_cons, not_or]
        exact ⟨fun e => hd.1 (e ▸ hc), hs c (List.mem_cons_of_mem _ hc)⟩)
    simp [checkAdoptees, run_checkFloating (hf id List.mem_cons_self), hs id List.mem_cons_self, ih]

theorem checkAdoptees_decides : ∀ (seen ids : List NodeId), Decides (checkAdoptees seen ids) t
    (Demand.adoptees t seen ids) fun _ t' => t' = t ∧ (∀ id ∈ ids, t.Floating id) ∧ ids.Nodup ∧ ∀ id ∈ ids, id ∉ seen
  | _, [] => .of_ok (a := ()) rfl ⟨rfl, by simp⟩
  | seen, id :: ids => by
    refine checkFloating_decides.bind fun _ hf => .demand (fun hs => ?_) fun hs => ?_
    · simp [not_not.mp hs]
    · have hs : id ∉ seen := hs
      simp only [hs, if_false]
      refine (checkAdoptees_decides (id :: seen) ids).mono ?_
      rintro _ _ ⟨rfl, hfs, hd, hss⟩
      refine ⟨rfl, List.forall_mem_cons.mpr ⟨hf, hfs⟩, ?_, ?_⟩
      · exact List.nodup_cons.mpr ⟨fun hc => hss id hc List.mem_cons_self, hd⟩
      · exact List.forall_mem_cons.mpr ⟨hs, fun c hc hm => hss c hc (List.mem_cons_of_mem _ hm)⟩

theorem run_alloc (kind : NodeKind) (span : Span) {ids : List NodeId}
    (hf : ∀ id ∈ ids, t.Floating id) (hd : ids.Nodup) :
    (alloc kind span ids).run t =
      .ok (t.insert kind span ids).1 (t.insert kind span ids).2 := by
  simp [alloc, run_checkAdoptees [] ids hf hd (by simp), Edit.insert]

theorem alloc_decides (h : t.WellFormed) (kind : NodeKind) (span : Span) (ids : List NodeId) :
    Decides (alloc kind span ids) t (Demand.adoptees t [] ids) fun _ t' => t'.WellFormed := by
  refine (checkAdoptees_decides [] ids).last fun _ ⟨hf, hd, _⟩ => ?_
  exact .of_ok rfl (h.insert kind span hd hf)

/-! ## Putting nodes in -/

theorem checkAdoptable_decides (h : t.WellFormed) : Decides (checkAdoptable p c) t (Demand.adoptable t p c) fun _ t' =>
    t' = t ∧ (∃ n, t.get? p = some n) ∧ t.Floating c ∧ ¬ t.Above c p := by
  refine live_decides.bind fun n hn => checkFloating_decides.bind fun _ hf => .demand (fun ha => ?_) fun hna => ?_
  · simp [h.isAncestor_iff.mpr (not_not.mp ha), Demand.notAbove]
  · have ha : ¬ t.isAncestor c p = true := fun ha => hna (h.isAncestor_iff.mp ha)
    exact .of_ok (a := ()) (by simp [ha]) ⟨rfl, ⟨n, hn⟩, hf, hna⟩

theorem pushChild_decides (h : t.WellFormed) :
    Decides (pushChild p c) t (Demand.adoptable t p c) fun _ t' => t'.WellFormed := by
  refine (checkAdoptable_decides h).last fun _ ⟨⟨n, hn⟩, hf, hna⟩ => ?_
  exact .of_ok (a := ()) rfl (h.link hf hn hna)

theorem insertChild_decides (h : t.WellFormed) (index : Nat) :
    Decides (insertChild p index c) t (Demand.adoptable t p c ++ [.notPastEnd t p index])
      fun _ t' => t'.WellFormed := by
  refine (checkAdoptable_decides h).bind fun _ ⟨⟨n, hn⟩, hf, hna⟩ => .demand (fun hi => ?_) fun hi => ?_
  · have hi : n.children.length < index := by
      by_contra hle
      refine hi fun m hm => ?_
      rw [hn] at hm
      cases hm
      omega
    simp [run_live hn, hi, Demand.notPastEnd]
  have hi : ¬ n.children.length < index := Nat.not_lt.mpr (hi n hn)
  have hpc : p ≠ c := fun e => hna (e ▸ .refl)
  obtain ⟨m, hm⟩ := hf.live
  have hm₁ : (t.updateNode p fun n => { n with children := n.children.insertIdx index c }).get? c =
      some m := by rw [get?_updateNode, if_neg hpc.symm, hm]
  refine .of_ok (a := ()) (by simp [run_live hn, hi, run_modifyNode _ hn, run_modifyNode _ hm₁]; rfl)
    ⟨(h.toStored.updateNode _ _).updateNode _ _, h.toLinked.adopt hf hn hna
      (List.perm_insertIdx c n.children (Nat.le_of_not_lt hi)) (fun j => ?_) (by simp)⟩
  simp only [get?_updateNode]
  by_cases hj : j = c
  · simp [hj, hpc.symm]
  · by_cases hp : j = p
    · subst hp
      simp [hj, hn]
    · simp [hj, hp]

/-! ## Taking nodes out -/

theorem run_forM_modifyNode (f : Node → Node) : ∀ (ids : List NodeId) (t : Tree),
    (∀ id ∈ ids, ∃ n, t.get? id = some n) →
    (ids.forM fun id => modifyNode id f).run t =
      .ok () (ids.foldl (fun t id => t.updateNode id f) t)
  | [], _, _ => by simp
  | id :: ids, t, h => by
    obtain ⟨n, hn⟩ := h id List.mem_cons_self
    have ih := run_forM_modifyNode f ids (t.updateNode id f) fun c hc => by
      obtain ⟨m, hm⟩ := h c (List.mem_cons_of_mem _ hc)
      rw [get?_updateNode]
      split
      · exact ⟨_, map_of_get? _ hn⟩
      · exact ⟨m, hm⟩
    rw [List.forM_eq_forM] at ih
    simp [run_modifyNode f hn, ih]

theorem run_takeChildren (h : t.WellFormed) (hn : t.get? id = some n) :
    (takeChildren id).run t = .ok n.children (t.emptied id n.children) := by
  have hall := run_forM_modifyNode ({ · with parent := none }) n.children
    (t.updateNode id ({ · with children := [] })) fun c hc => by
      obtain ⟨m, hm, -⟩ := h.named hn hc
      have hne : c ≠ id := fun e => h.not_mem_children hn (e ▸ hc)
      exact ⟨m, by rw [get?_updateNode, if_neg hne, hm]⟩
  simp only [takeChildren, EStateM.run_bind, run_live hn, run_modifyNode _ hn, hall]
  rfl

theorem takeChildren_decides (h : t.WellFormed) :
    Decides (takeChildren id) t [.live t id] fun _ t' => t'.WellFormed := by
  refine .demand (fun hn => ?_) fun ⟨n, hn⟩ => .of_ok (run_takeChildren h hn) (h.emptied hn)
  simp [takeChildren, run_live_stale (Demand.get?_of_not_live hn), Demand.live]

theorem run_attachedParent (hr : id ≠ t.root) (hp : t.IsParent p id) :
    (attachedParent id).run t = .ok p t := by
  obtain ⟨n, hn, hnp⟩ := hp
  simp [attachedParent, run_live hn, hr, hnp]

theorem attachedParent_decides :
    Decides (attachedParent id) t (Demand.attached t id) fun p t' => t' = t ∧ t.IsParent p id := by
  refine live_decides.bind fun n hn => .demand (fun hr => ?_) fun hr => .demand (fun hp => ?_) fun hp => ?_
  · simp [not_not.mp hr, Demand.notRoot]
  · have hr : id ≠ t.root := hr
    have hparent : n.parent = none := Option.eq_none_iff_forall_ne_some.mpr fun p h => hp ⟨p, n, hn, h⟩
    simp [hr, hparent]
  · have hr : id ≠ t.root := hr
    obtain ⟨p, m, hm, hmp⟩ := hp
    rw [hn] at hm
    cases hm
    exact .of_ok (a := p) (by simp [hr, hmp]) ⟨rfl, n, hn, hmp⟩

theorem detach_decides (h : t.WellFormed) :
    Decides (detach id) t (Demand.attached t id) fun _ t' => t'.WellFormed := by
  refine attachedParent_decides.last fun p hp => ?_
  obtain ⟨m, hm, -⟩ := h.mem_of_isParent hp
  obtain ⟨n, hn⟩ := hp.live
  have hpi := h.ne_of_isParent hp
  have hn₁ : (t.updateNode p fun p => { p with children := p.children.filter (· != id) }).get? id =
      some n := by rw [get?_updateNode, if_neg hpi.symm, hn]
  refine .of_ok (a := ()) (by simp [run_modifyNode _ hm, run_modifyNode _ hn₁]; rfl)
    ⟨(h.toStored.updateNode _ _).updateNode _ _, h.toLinked.unlink hp (fun j => ?_) (by simp)⟩
  simp only [get?_updateNode]
  by_cases hj : j = id
  · simp [hj, hpi.symm]
  · by_cases he : j = p <;> simp [hj, he, hpi]

/-! ## Freeing nodes -/

theorem run_discard (h : t.Floating id) : (discard id).run t = .ok () (t.release id) := by
  have ⟨_, _, _, hr⟩ := h
  simp [discard, run_checkFloating h, hr]

theorem discard_decides (h : t.WellFormed) :
    Decides (discard id) t (.notRoot t id :: Demand.floating t id) fun _ t' => t'.WellFormed := by
  refine .demand (fun hr => by simp [discard, not_not.mp hr, Demand.notRoot]) fun hr => ?_
  have hr : id ≠ t.root := hr
  have hrun : (discard id).run t = (checkFloating id >>= fun _ => modify (·.release id)).run t := by
    simp [discard, hr]
  exact .congr hrun (checkFloating_decides.last fun _ hf => .of_ok (a := ()) rfl (h.release hf))

theorem setRoot_decides (h : t.WellFormed) :
    Decides (setRoot id) t (Demand.floating t id ++ [.isUnit t id]) fun _ t' => t'.WellFormed := by
  refine checkFloating_decides.bind fun _ hf => ?_
  obtain ⟨n, hn, hparent, hr⟩ := hf
  refine .demand (fun hk => ?_) fun hk => ?_
  · have hk : n.kind ≠ .unit := fun e => hk fun m hm => by
      rw [hn] at hm
      cases hm
      exact e
    simp [run_live hn, hk, Demand.isUnit]
  · have hk : n.kind = .unit := hk n hn
    have h' : WellFormed { t with root := id } :=
      ⟨⟨h.free_nodup, h.mem_free, h.live_eq⟩, h.toLinked.withRoot hn hparent hk⟩
    obtain ⟨r, hrn, hrp, -⟩ := h.root
    exact .of_ok (a := ()) (by simp [run_live hn, hk]) (h'.release ⟨r, hrn, hrp, hr.symm⟩)

theorem run_replace (h : t.WellFormed) (hp : t.IsParent p id) (hf : t.Floating new)
    (hna : ¬ t.Above new id) :
    (replace id new).run t = .ok () ((t.relinked p id new).release id) := by
  have hni : new ≠ id := fun e => hna (e ▸ .refl)
  have hpi := h.ne_of_isParent hp
  have hpn : p ≠ new := by
    rintro rfl
    exact hna (.single hp)
  obtain ⟨m, hm, -⟩ := h.mem_of_isParent hp
  obtain ⟨k, hk⟩ := hf.live
  obtain ⟨n, hn⟩ := hp.live
  have hk₁ : (t.updateNode p fun n => { n with children := exchange id new n.children }).get? new =
      some k := by rw [get?_updateNode, if_neg hpn.symm, hk]
  have hn₂ : ((t.updateNode p fun n => { n with children := exchange id new n.children }).updateNode
      new ({ · with parent := some p })).get? id = some n := by
    rw [get?_updateNode, if_neg hni.symm, get?_updateNode, if_neg hpi.symm, hn]
  have ha : ¬ t.isAncestor new id = true := fun ha => hna (h.isAncestor_iff.mp ha)
  simp [replace, run_attachedParent (h.ne_root_of_isParent hp) hp, run_checkFloating hf, ha,
    run_modifyNode _ hm, run_modifyNode _ hk₁, run_modifyNode _ hn₂]
  rfl

theorem replace_decides (h : t.WellFormed) :
    Decides (replace id new) t (Demand.attached t id ++ (Demand.floating t new ++ [.notAbove t new id]))
      fun _ t' => t'.WellFormed := by
  refine attachedParent_decides.bind fun p hp => checkFloating_decides.bind fun _ hf =>
    .demand (fun ha => ?_) fun hna => ?_
  · simp [h.isAncestor_iff.mpr (not_not.mp ha), Demand.notAbove]
  · have hrun := run_replace h hp hf hna
    simp only [replace, EStateM.run_bind, run_attachedParent (h.ne_root_of_isParent hp) hp,
      run_checkFloating hf] at hrun
    exact .of_ok hrun ((h.relinked hp hf hna).release (h.floating_relinked hp hf hna))

/-! ## Copying -/

/-- A well-formed tree in which nothing has been freed since `t`. -/
def Grown (t t' : Tree) : Prop :=
  t'.WellFormed ∧ ∀ j, (∃ n, t.get? j = some n) → ∃ n, t'.get? j = some n

theorem Grown.trans {t₁ t₂ t₃ : Tree} (h : Grown t₁ t₂) (h' : Grown t₂ t₃) : Grown t₁ t₃ :=
  ⟨h'.1, fun j hj => h'.2 j (h.2 j hj)⟩

theorem grown_insert (h : t.WellFormed) (kind : NodeKind) (span : Span) :
    Grown t (t.insert kind span []).2 := by
  refine ⟨h.insert kind span .nil (by simp), fun j ⟨n, hn⟩ => ?_⟩
  rw [get?_insert h.toStored]
  split
  · exact ⟨_, rfl⟩
  · exact ⟨n, by simpa using hn⟩

theorem run_grow (h : t.WellFormed) (hn : t.get? p = some n) (q : Placed) :
    ∃ copy t', (grow p q).run t = .ok copy t' ∧ Grown t t' ∧ ∃ m, t'.get? copy = some m := by
  let t₁ := (t.insert q.kind q.span []).2
  let copy := (t.insert q.kind q.span []).1
  have hg := grown_insert h q.kind q.span
  have hf : t₁.Floating copy := h.floating_insert q.kind q.span []
  obtain ⟨n₁, hn₁⟩ := hg.2 p ⟨n, hn⟩
  have hcopy : t₁.get? copy = some ⟨q.kind, q.span, none, []⟩ := by
    rw [get?_insert h.toStored, if_pos (insert_fst ..)]
  have hna : ¬ t₁.Above copy p := fun ha => by
    rcases Relation.ReflTransGen.cases_head ha with e | ⟨x, hx, -⟩
    · have hfresh := get?_fresh h.toStored
      rw [← insert_fst t q.kind q.span [], show (t.insert q.kind q.span []).1 = p from e, hn]
        at hfresh
      cases hfresh
    · obtain ⟨m, hm, hmem⟩ := hg.1.mem_of_isParent hx
      rw [hcopy] at hm
      cases hm
      cases hmem
  have hpc : p ≠ copy := fun e => hna (e ▸ .refl)
  have hlive : ∀ j, (∃ n, t₁.get? j = some n) → ∃ n, (t₁.link p copy).get? j = some n := by
    rintro j ⟨k, hk⟩
    rw [get?_link hpc]
    split
    · exact ⟨_, map_of_get? _ hk⟩
    · split
      · exact ⟨_, map_of_get? _ hk⟩
      · exact ⟨k, hk⟩
  exact ⟨copy, t₁.link p copy, rfl, ⟨hg.1.link hf hn₁ hna, fun j hj => hlive j (hg.2 j hj)⟩,
    hlive copy ⟨_, hcopy⟩⟩

theorem run_mapM_grow : ∀ (ss : List (OrderedTree Placed)) {t : Tree} {n : Node}, t.WellFormed →
    t.get? p = some n → ∃ copies t', (ss.mapM fun s => grow p s.label).run t = .ok copies t' ∧
      Grown t t' ∧ ∀ c ∈ copies, ∃ m, t'.get? c = some m
  | [], t, n, h, hn => ⟨[], t, rfl, ⟨h, fun _ hj => hj⟩, by simp⟩
  | s :: ss, t, n, h, hn => by
    obtain ⟨copy, t₁, hrun, hg, hc⟩ := run_grow h hn s.label
    obtain ⟨n₁, hn₁⟩ := hg.2 p ⟨n, hn⟩
    obtain ⟨copies, t₂, hruns, hg', hcs⟩ := run_mapM_grow ss hg.1 hn₁
    refine ⟨copy :: copies, t₂, ?_, hg.trans hg', ?_⟩
    · simp only [List.mapM_cons, EStateM.run_bind, hrun, hruns, EStateM.run_pure]
    · rintro c hm
      rcases List.mem_cons.mp hm with rfl | hm
      · exact hg'.2 c hc
      · exact hcs c hm

mutual

theorem run_copyBelow : ∀ (s : OrderedTree Placed) (copy : NodeId) {t : Tree} {n : Node},
    t.WellFormed → t.get? copy = some n →
      ∃ t', (copyBelow s copy).run t = .ok () t' ∧ Grown t t'
  | .node _ ss, copy, t, n, h, hn => by
    obtain ⟨copies, t₁, hrun, hg, hcs⟩ := run_mapM_grow ss h hn
    obtain ⟨t₂, hrun₂, hg₂⟩ := run_copyBelowAll ss copies hg.1 hcs
    exact ⟨t₂, by simp [copyBelow, hrun, hrun₂], hg.trans hg₂⟩

theorem run_copyBelowAll : ∀ (ss : List (OrderedTree Placed)) (copies : List NodeId) {t : Tree},
    t.WellFormed → (∀ c ∈ copies, ∃ n, t.get? c = some n) →
      ∃ t', (copyBelowAll ss copies).run t = .ok () t' ∧ Grown t t'
  | s :: ss, copy :: copies, t, h, hc => by
    obtain ⟨t₁, hrun, hg⟩ := run_copyBelowAll ss copies h fun c hm => hc c (List.mem_cons_of_mem _ hm)
    obtain ⟨n, hn⟩ := hg.2 copy (hc copy List.mem_cons_self)
    obtain ⟨t₂, hrun₂, hg₂⟩ := run_copyBelow s copy hg.1 hn
    exact ⟨t₂, by simp [copyBelowAll, hrun, hrun₂], hg.trans hg₂⟩
  | [], _, t, h, _ => ⟨t, by simp [copyBelowAll], h, fun _ hj => hj⟩
  | _ :: _, [], t, h, _ => ⟨t, by simp [copyBelowAll], h, fun _ hj => hj⟩

end

theorem deepCopy_decides (h : t.WellFormed) :
    Decides (deepCopy id) t [.live t id] fun _ t' => t'.WellFormed := by
  refine .demand (fun hn => ?_) fun ⟨n, hn⟩ => ?_
  · simp [deepCopy, subtree?_of_stale (Demand.get?_of_not_live hn), Demand.live]
  · obtain ⟨s, hs⟩ := h.exists_subtree? hn
    have hg := grown_insert h s.label.kind s.label.span
    have hcopy : (t.insert s.label.kind s.label.span []).2.get?
        (t.insert s.label.kind s.label.span []).1 = some ⟨s.label.kind, s.label.span, none, []⟩ := by
      rw [get?_insert h.toStored, if_pos (insert_fst ..)]
    obtain ⟨t', hrun, hg'⟩ := run_copyBelow s _ hg.1 hcopy
    refine .of_ok (a := (t.insert s.label.kind s.label.span []).1) ?_ hg'.1
    simp only [deepCopy, EStateM.run_bind, EStateM.run_get, hs, Edit.insert, EStateM.run_modifyGet, hrun,
      EStateM.run_pure]

end Edit

end JavaFold
