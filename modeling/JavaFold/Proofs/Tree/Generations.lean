import JavaFold.Proofs.Tree.Reachable

/-!
# Generations of slots

What an edit does to each slot, whatever the links of the tree. A slot that holds a node keeps its
generation as long as the node is there, and goes on to the next generation when the node is freed; an
edit frees the node of a slot at most once (`Slot.Aged`). Edits that free nothing keep every generation
(`Slot.Used`). The others change links first, which leaves the same slots with and without nodes
(`Slot.Kept`), and then free the nodes of a tree (`Slot.Freed`).
-/

namespace JavaFold

namespace Slot

/-- The generation stays, and whether there is a node. -/
def Kept (s s' : Slot) : Prop := s'.generation = s.generation ∧ s'.node.isSome = s.node.isSome

/-- The generation stays, and a node that is there stays; one may be made. -/
def Used (s s' : Slot) : Prop :=
  s'.generation = s.generation ∧ (s.node.isSome = true → s'.node.isSome = true)

/-- The slot stays as it is, or its node is freed. -/
def Freed (s s' : Slot) : Prop := s' = s ∨ s.node.isSome = true ∧ s' = ⟨s.generation + 1, none⟩

/-- The generation stays with the node, or goes on by one as the node is freed. -/
def Aged (s s' : Slot) : Prop :=
  s.Used s' ∨ s.node.isSome = true ∧ s'.generation = s.generation + 1

variable {s₁ s₂ s₃ : Slot}

theorem Used.trans (h : s₁.Used s₂) (h' : s₂.Used s₃) : s₁.Used s₃ :=
  ⟨h'.1.trans h.1, fun hn => h'.2 (h.2 hn)⟩

theorem Kept.trans (h : s₁.Kept s₂) (h' : s₂.Kept s₃) : s₁.Kept s₃ :=
  ⟨h'.1.trans h.1, h'.2.trans h.2⟩

theorem Kept.used (h : s₁.Kept s₂) : s₁.Used s₂ := ⟨h.1, fun hn => h.2.trans hn⟩

/-- A slot whose node has been freed has no node that can be freed again. -/
theorem Freed.trans (h : s₁.Freed s₂) (h' : s₂.Freed s₃) : s₁.Freed s₃ := by
  rcases h with rfl | ⟨hn, rfl⟩
  · exact h'
  · rcases h' with rfl | ⟨hn', -⟩
    · exact .inr ⟨hn, rfl⟩
    · cases hn'

theorem Kept.aged (h : s₁.Kept s₂) (h' : s₂.Freed s₃) : s₁.Aged s₃ := by
  rcases h' with rfl | ⟨hn, rfl⟩
  · exact .inl h.used
  · exact .inr ⟨h.2 ▸ hn, congrArg (· + 1) h.1⟩

end Slot

namespace Tree

/-- Each slot of the one tree is a slot of the other, and the two are in relation. -/
def Slotwise (R : Slot → Slot → Prop) (t t' : Tree) : Prop :=
  ∀ (i : Nat) (s : Slot), t.slots[i]? = some s → ∃ s', t'.slots[i]? = some s' ∧ R s s'

namespace Slotwise

variable {R S T : Slot → Slot → Prop} {t t₁ t₂ : Tree}

theorem refl (h : ∀ s, R s s) (t : Tree) : Slotwise R t t := fun _ s hs => ⟨s, hs, h s⟩

theorem comp (h : Slotwise R t t₁) (h' : Slotwise S t₁ t₂)
    (hT : ∀ {s s₁ s₂}, R s s₁ → S s₁ s₂ → T s s₂) : Slotwise T t t₂ := by
  intro i s hs
  obtain ⟨s₁, hs₁, hr⟩ := h i s hs
  obtain ⟨s₂, hs₂, hr'⟩ := h' i s₁ hs₁
  exact ⟨s₂, hs₂, hT hr hr'⟩

theorem mono (h : Slotwise R t t₁) (hS : ∀ {s s'}, R s s' → S s s') : Slotwise S t t₁ := by
  intro i s hs
  obtain ⟨s', hs', hr⟩ := h i s hs
  exact ⟨s', hs', hS hr⟩

/-- Changing one slot of a tree. -/
theorem modify (f : Slot → Slot) (j : Nat) (hslots : t₁.slots = t.slots.modify j f)
    (hrefl : ∀ s, R s s) (hf : ∀ s, t.slots[j]? = some s → R s (f s)) : Slotwise R t t₁ := by
  intro i s hs
  rw [hslots, Array.getElem?_modify]
  by_cases hj : j = i
  · subst hj
    exact ⟨f s, by simp [hs], hf s hs⟩
  · exact ⟨s, by simp [hj, hs], hrefl s⟩

end Slotwise

/-- Every slot keeps its generation and is left with a node or without one, as it was. -/
abbrev Keeping : Tree → Tree → Prop := Slotwise Slot.Kept

/-- Every slot keeps its generation, and every node stays. -/
abbrev Using : Tree → Tree → Prop := Slotwise Slot.Used

/-- Some nodes are freed, and nothing else is changed. -/
abbrev Freeing : Tree → Tree → Prop := Slotwise Slot.Freed

/-- No generation is skipped, and a node is freed whenever a generation is left. -/
abbrev Ageing : Tree → Tree → Prop := Slotwise Slot.Aged

variable {t t₁ t₂ : Tree}

theorem Keeping.refl (t : Tree) : t.Keeping t := Slotwise.refl (fun _ => ⟨rfl, rfl⟩) t

theorem Keeping.trans (h : t.Keeping t₁) (h' : t₁.Keeping t₂) : t.Keeping t₂ :=
  Slotwise.comp h h' Slot.Kept.trans

theorem Using.refl (t : Tree) : t.Using t := Slotwise.refl (fun _ => ⟨rfl, id⟩) t

theorem Using.trans (h : t.Using t₁) (h' : t₁.Using t₂) : t.Using t₂ :=
  Slotwise.comp h h' Slot.Used.trans

theorem Using.ageing (h : t.Using t₁) : t.Ageing t₁ := Slotwise.mono h Or.inl

theorem Keeping.ageing (h : t.Keeping t₁) (h' : t₁.Freeing t₂) : t.Ageing t₂ :=
  Slotwise.comp h h' Slot.Kept.aged

/-! ## Changes of single slots -/

theorem keeping_updateNode (t : Tree) (id : NodeId) (f : Node → Node) :
    t.Keeping (t.updateNode id f) := by
  unfold updateNode
  split
  · exact Slotwise.modify (fun slot => { slot with node := slot.node.map f }) id.index rfl
      (fun _ => ⟨rfl, rfl⟩) fun _ _ => ⟨rfl, Option.isSome_map⟩
  · exact .refl t

theorem using_updateNode (t : Tree) (id : NodeId) (f : Node → Node) : t.Using (t.updateNode id f) :=
  (keeping_updateNode t id f).mono Slot.Kept.used

theorem using_updateAll (f : Node → Node) (ids : List NodeId) (t : Tree) :
    t.Using (ids.foldl (fun t c => t.updateNode c f) t) := by
  induction ids generalizing t with
  | nil => exact .refl t
  | cons c ids ih => exact (using_updateNode t c f).trans (ih _)

theorem using_reserve (t : Tree) : t.Using t.reserve.2 := by
  unfold reserve
  split
  · exact .refl t
  · intro i s hs
    refine ⟨s, ?_, rfl, id⟩
    have hlt := (Array.getElem?_eq_some_iff.mp hs).1
    rw [Array.getElem?_push, if_neg (Nat.ne_of_lt hlt)]
    exact hs

theorem using_insert (t : Tree) (kind : NodeKind) (span : Span) (ids : List NodeId) :
    t.Using (t.insert kind span ids).2 := by
  have h := using_updateAll ({ · with parent := some t.reserve.1 }) ids t.reserve.2
  refine (using_reserve t).trans (h.trans ?_)
  exact Slotwise.modify ({ · with node := some ⟨kind, span, none, ids⟩ }) t.reserve.1.index rfl
    (fun _ => ⟨rfl, id⟩) fun _ _ => ⟨rfl, fun _ => rfl⟩

theorem using_link (t : Tree) (p c : NodeId) : t.Using (t.link p c) :=
  (using_updateNode t p _).trans (using_updateNode _ c _)

theorem freeing_vacate (t : Tree) (id : NodeId) : t.Freeing (t.vacate id) := by
  unfold vacate
  split
  · next hc =>
    obtain ⟨n, hn⟩ := contains_iff.mp hc
    obtain ⟨slot, hs, -, hsn⟩ := get?_eq_some_iff.mp hn
    refine Slotwise.modify (fun slot => ⟨slot.generation + 1, none⟩) id.index rfl
      (fun _ => .inl rfl) fun s hs' => ?_
    rw [hs] at hs'
    cases hs'
    exact .inr ⟨Option.isSome_iff_exists.mpr ⟨n, hsn⟩, rfl⟩
  · exact Slotwise.refl (fun _ => .inl rfl) t

theorem freeing_vacateAll (ids : List NodeId) (t : Tree) : t.Freeing (ids.foldl vacate t) := by
  induction ids generalizing t with
  | nil => exact Slotwise.refl (fun _ => .inl rfl) t
  | cons c ids ih => exact Slotwise.comp (freeing_vacate t c) (ih _) Slot.Freed.trans

theorem freeing_release (t : Tree) (id : NodeId) : t.Freeing (t.release id) := by
  unfold release
  split
  · exact Slotwise.refl (fun _ => .inl rfl) t
  · exact freeing_vacateAll _ t

end Tree

open JavaFold.Tree

/-! ## Edits that free nothing -/

section Leads

variable {α β : Type} {I J : Tree → Prop}

/-- Where `I` holds, `J` holds of the tree after the edit, whether it succeeds or not. -/
def Leads (I J : Tree → Prop) (x : Edit α) : Prop := ∀ t, I t → J (stateOf (x.run t))

theorem Leads.bind {x : Edit α} {f : α → Edit β} (hx : Keeps I x) (hIJ : ∀ t, I t → J t)
    (hf : ∀ a, Leads I J (f a)) : Leads I J (x >>= f) := by
  intro t h
  have ht := hx t h
  rw [EStateM.run_bind]
  cases hr : x.run t with
  | ok a t' =>
    rw [hr] at ht
    exact hf a t' ht
  | error e t' =>
    rw [hr] at ht
    exact hIJ t' ht

theorem Leads.modify {f : Tree → Tree} (hf : ∀ t, I t → J (f t)) : Leads I J (modify f : Edit PUnit) := hf

end Leads

theorem Keeps.modify {I : Tree → Prop} {f : Tree → Tree} (hf : ∀ t, I t → I (f t)) :
    Keeps I (modify f : Edit PUnit) := hf

theorem Keeps.modifyGet {α : Type} {I : Tree → Prop} {f : Tree → α × Tree} (hf : ∀ t, I t → I (f t).2) :
    Keeps I (modifyGet f : Edit α) := hf

theorem Keeps.mapM {α β : Type} {I : Tree → Prop} {f : α → Edit β} (hf : ∀ a, Keeps I (f a)) :
    ∀ l : List α, Keeps I (l.mapM f)
  | [] => by
    rw [List.mapM_nil]
    exact Keeps.pure _
  | a :: l => by
    rw [List.mapM_cons]
    exact (hf a).bind fun _ => (Keeps.mapM hf l).bind fun _ => Keeps.pure _

namespace Edit

/-! The checks of an edit keep whatever holds, since they change nothing. -/

section Checks

variable {I : Tree → Prop}

theorem keeps_live (id : NodeId) : Keeps I (live id) := by
  refine Keeps.get.bind fun t => ?_
  split
  · exact Keeps.pure _
  · exact Keeps.throw _

theorem keeps_checkFloating (id : NodeId) : Keeps I (checkFloating id) := by
  refine (keeps_live id).bind fun n => Keeps.get.bind fun t => ?_
  split
  · exact Keeps.throw _
  · exact Keeps.pure _

theorem keeps_checkAdoptees : ∀ seen ids : List NodeId, Keeps I (checkAdoptees seen ids)
  | _, [] => Keeps.pure _
  | seen, id :: ids => by
    refine (keeps_checkFloating id).bind fun _ => ?_
    split
    · exact (Keeps.throw _).bind fun _ => keeps_checkAdoptees _ ids
    · exact keeps_checkAdoptees _ ids

theorem keeps_checkAdoptable (p c : NodeId) : Keeps I (checkAdoptable p c) := by
  refine (keeps_live p).bind fun _ => (keeps_checkFloating c).bind fun _ => Keeps.get.bind fun t => ?_
  split
  · exact Keeps.throw _
  · exact Keeps.pure _

theorem keeps_attachedParent (id : NodeId) : Keeps I (attachedParent id) := by
  refine (keeps_live id).bind fun n => Keeps.get.bind fun t => ?_
  by_cases hr : id = t.root
  · simp only [hr, if_true]
    exact (Keeps.throw _).bind fun _ => by split <;> first | exact Keeps.pure _ | exact Keeps.throw _
  · simp only [hr, if_false]
    split
    · exact Keeps.pure _
    · exact Keeps.throw _

theorem keeps_checkFoldRoot (id : NodeId) : Keeps I (checkFoldRoot id) := by
  refine (keeps_live id).bind fun n => ?_
  split
  · exact Keeps.throw _
  · exact Keeps.pure _

end Checks

theorem keeps_modifyNode {I : Tree → Prop} (id : NodeId) (f : Node → Node)
    (hf : ∀ t, I t → I (t.updateNode id f)) : Keeps I (modifyNode id f) :=
  (keeps_live id).bind fun _ => Keeps.modify hf

variable {t₀ : Tree}

theorem using_modifyNode (id : NodeId) (f : Node → Node) : Keeps t₀.Using (modifyNode id f) :=
  keeps_modifyNode id f fun _ h => h.trans (using_updateNode _ id f)

theorem keeping_modifyNode (id : NodeId) (f : Node → Node) : Keeps t₀.Keeping (modifyNode id f) :=
  keeps_modifyNode id f fun _ h => h.trans (keeping_updateNode _ id f)

theorem using_insert (kind : NodeKind) (span : Span) (ids : List NodeId) :
    Keeps t₀.Using (Edit.insert kind span ids) :=
  Keeps.modifyGet fun _ h => h.trans (Tree.using_insert _ kind span ids)

theorem using_alloc (kind : NodeKind) (span : Span) (ids : List NodeId) :
    Keeps t₀.Using (alloc kind span ids) :=
  (keeps_checkAdoptees [] ids).bind fun _ => using_insert kind span ids

theorem using_pushChild (p c : NodeId) : Keeps t₀.Using (pushChild p c) :=
  (keeps_checkAdoptable p c).bind fun _ => Keeps.modify fun _ h => h.trans (using_link _ p c)

theorem using_insertChild (p : NodeId) (index : Nat) (c : NodeId) :
    Keeps t₀.Using (insertChild p index c) := by
  refine (keeps_checkAdoptable p c).bind fun _ => (keeps_live p).bind fun n => ?_
  have hlast : Keeps t₀.Using (do
      modifyNode p fun p => { p with children := p.children.insertIdx index c }
      modifyNode c ({ · with parent := some p })) :=
    (using_modifyNode p _).bind fun _ => using_modifyNode c _
  by_cases hi : n.children.length < index
  · simp only [hi, if_true]
    exact (Keeps.throw _).bind fun _ => hlast
  · simp only [hi, if_false]
    exact hlast

theorem using_takeChildren (id : NodeId) : Keeps t₀.Using (takeChildren id) :=
  (keeps_live id).bind fun _ => (using_modifyNode id _).bind fun _ =>
    (Keeps.forM (fun c => using_modifyNode c _) _).bind fun _ => Keeps.pure _

theorem using_detach (id : NodeId) : Keeps t₀.Using (detach id) :=
  (keeps_attachedParent id).bind fun p => (using_modifyNode p _).bind fun _ => using_modifyNode id _

theorem using_grow (p : NodeId) (q : Placed) : Keeps t₀.Using (grow p q) :=
  (using_insert q.kind q.span []).bind fun copy =>
    (Keeps.modify fun _ h => h.trans (using_link _ p copy)).bind fun _ => Keeps.pure _

mutual

theorem using_copyBelow : ∀ (s : OrderedTree Placed) (copy : NodeId), Keeps t₀.Using (copyBelow s copy)
  | .node _ ss, copy => by
    rw [copyBelow]
    have hcopies : Keeps t₀.Using (ss.mapM fun s => grow copy s.label) :=
      Keeps.mapM (fun _ => using_grow copy _) ss
    exact hcopies.bind fun copies => using_copyBelowAll ss copies
termination_by structural s => s

theorem using_copyBelowAll : ∀ (ss : List (OrderedTree Placed)) (copies : List NodeId),
    Keeps t₀.Using (copyBelowAll ss copies)
  | s :: ss, copy :: copies => by
    rw [copyBelowAll]
    exact (using_copyBelowAll ss copies).bind fun _ => using_copyBelow s copy
  | [], _ => by
    rw [copyBelowAll]
    · exact Keeps.pure _
    · nofun
  | _ :: _, [] => by
    rw [copyBelowAll]
    · exact Keeps.pure _
    · nofun
termination_by structural ss => ss

end

theorem using_deepCopy (id : NodeId) : Keeps t₀.Using (deepCopy id) := by
  refine Keeps.get.bind fun t => ?_
  split
  · exact Keeps.throw _
  · next s _ =>
    exact (using_insert _ _ []).bind fun copy => (using_copyBelow s copy).bind fun _ => Keeps.pure _

/-! ## Edits that free -/

/-- An edit that frees nothing ages a tree. -/
theorem ageing_of_using {α : Type} {x : Edit α} (h : ∀ t₀ : Tree, Keeps t₀.Using x) (t : Tree) :
    t.Ageing (stateOf (x.run t)) :=
  (h t t (.refl t)).ageing

/-- Freeing the nodes of a tree, after links have been changed. -/
theorem leads_release (id : NodeId) : Leads t₀.Keeping t₀.Ageing (modify (·.release id) : Edit PUnit) :=
  Leads.modify fun t h => h.ageing (freeing_release t id)

theorem ageing_of_keeping {t : Tree} (h : t₀.Keeping t) : t₀.Ageing t :=
  Using.ageing (Slotwise.mono h Slot.Kept.used)

theorem leads_discard (id : NodeId) : Leads t₀.Keeping t₀.Ageing (discard id) := by
  refine Leads.bind Keeps.get (fun _ => ageing_of_keeping) fun t => ?_
  have hlast : Leads t₀.Keeping t₀.Ageing (do checkFloating id; modify (·.release id)) :=
    Leads.bind (keeps_checkFloating id) (fun _ => ageing_of_keeping) fun _ => leads_release id
  by_cases hr : id = t.root
  · simp only [hr, if_true]
    exact Leads.bind (Keeps.throw _) (fun _ => ageing_of_keeping) fun _ => hr ▸ hlast
  · simp only [hr, if_false]
    exact hlast

theorem leads_setRoot (id : NodeId) : Leads t₀.Keeping t₀.Ageing (setRoot id) := by
  refine Leads.bind (keeps_checkFloating id) (fun _ => ageing_of_keeping) fun _ => ?_
  refine Leads.bind (keeps_live id) (fun _ => ageing_of_keeping) fun n => ?_
  have hlast : Leads t₀.Keeping t₀.Ageing
      (modify fun t => { t with root := id }.release t.root : Edit PUnit) :=
    Leads.modify fun t h => h.ageing (freeing_release { t with root := id } t.root)
  by_cases hk : n.kind = .unit
  · simp only [hk, if_true]
    exact hlast
  · simp only [hk, if_false]
    exact Leads.bind (Keeps.throw _) (fun _ => ageing_of_keeping) fun _ => hlast

theorem leads_replace (id new : NodeId) : Leads t₀.Keeping t₀.Ageing (replace id new) := by
  refine Leads.bind (keeps_attachedParent id) (fun _ => ageing_of_keeping) fun p => ?_
  refine Leads.bind (keeps_checkFloating new) (fun _ => ageing_of_keeping) fun _ => ?_
  refine Leads.bind Keeps.get (fun _ => ageing_of_keeping) fun t => ?_
  have hlast : Leads t₀.Keeping t₀.Ageing (do
      modifyNode p fun p => { p with children := exchange id new p.children }
      modifyNode new ({ · with parent := some p })
      modifyNode id ({ · with parent := none })
      modify (·.release id)) :=
    Leads.bind (keeping_modifyNode p _) (fun _ => ageing_of_keeping) fun _ =>
      Leads.bind (keeping_modifyNode new _) (fun _ => ageing_of_keeping) fun _ =>
        Leads.bind (keeping_modifyNode id _) (fun _ => ageing_of_keeping) fun _ => leads_release id
  by_cases ha : t.isAncestor new id = true
  · simp only [ha, if_true]
    exact Leads.bind (Keeps.throw _) (fun _ => ageing_of_keeping) fun _ => hlast
  · simp only [ha]
    exact hlast

theorem ageing_of_leads {α : Type} {x : Edit α} (h : ∀ t₀ : Tree, Leads t₀.Keeping t₀.Ageing x) (t : Tree) :
    t.Ageing (stateOf (x.run t)) :=
  h t t (.refl t)

end Edit

end JavaFold
