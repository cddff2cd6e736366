import JavaFold.Walk
import JavaFold.Proofs.Tree.Rewrite

/-!
# What a walk does

A walk rewrites the tree at a node from the bottom up (`Walk.Walked`): first the trees at its
children, in order, and then, if the node is wanted, the tree that has come out of that. If each visit
is a rewrite (`Visitor.Does`), the walk is one too, it visits the nodes that were there when it began,
and its steps do not run out (`Walk.run_go`). A walk whose steps do not run out does what the walk
without a bound does (`Walk.follow?_eq`).
-/

namespace JavaFold

/-- What a visit may make of a tree, given the parent and the trees before and after it, and whether
it says that it changed anything. -/
abbrev Effect := Placed → List (OrderedTree Placed) → OrderedTree Placed →
  List (OrderedTree Placed) → OrderedTree Placed → Bool → Prop

/-- Each visit of a wanted node succeeds and rewrites the tree at the node as `R` says. -/
def Visitor.Does {σ : Type} (v : Visitor σ) (R : Effect) : Prop :=
  ∀ (t : Tree) (st : σ) (q : Placed) (before : List (OrderedTree Placed)) (u : OrderedTree Placed)
    (after : List (OrderedTree Placed)), t.WellFormed → t.Shows (.node q (before ++ u :: after)) →
      v.wants u.label.kind = true → ∃ u' c t' st',
        (v.visit u.label.id).run (t, st) = .ok ⟨c, u'.label.id⟩ (t', st') ∧ t.Rewrite u u' t' ∧
          R q before u after u' c

theorem Visitor.Does.imp {σ : Type} {v : Visitor σ} {R R' : Effect} (h : v.Does R)
    (hR : ∀ {q before u after u' c}, R q before u after u' c → R' q before u after u' c) : v.Does R' := by
  intro t st q before u after hwf hs hw
  obtain ⟨u', c, t', st', hrun, hr, hu⟩ := h t st q before u after hwf hs hw
  exact ⟨u', c, t', st', hrun, hr, hR hu⟩

theorem EditWith.run_lift {σ α : Type} {x : Edit α} {t t' : Tree} {a : α}
    (h : x.run t = .ok a t') (st : σ) : (EditWith.lift x).run (t, st) = .ok a (t', st) := by
  have hx : x t = .ok a t' := h
  simp only [EStateM.run, lift, hx]

theorem EditWith.run_alone {α : Type} {x : EditWith Unit α} {t t' : Tree} {a : α}
    (h : x.run (t, ()) = .ok a (t', ())) : x.alone.run t = .ok a t' := by
  have hx : x (t, ()) = .ok a (t', ()) := h
  simp only [EStateM.run, alone, hx]

theorem EditWith.of_run_alone {α : Type} {x : EditWith Unit α} {t t' : Tree} {a : α}
    (h : x.alone.run t = .ok a t') : x.run (t, ()) = .ok a (t', ()) := by
  have hx : x.alone t = .ok a t' := h
  unfold alone at hx
  split at hx
  · next a' t'' heq =>
    cases hx
    exact heq
  · cases hx

namespace Walk

open OrderedTree JavaFold.Tree

mutual

/-- What a walk that visits the nodes that are wanted makes of a tree. -/
def Walked (wants : NodeKind → Bool) (R : Effect) : OrderedTree Placed → Placed →
    List (OrderedTree Placed) → List (OrderedTree Placed) → OrderedTree Placed → Bool → Prop
  | .node p ss, q, before, after, u', c => ∃ ss' c₁, WalkedAll wants R ss p [] ss' c₁ ∧
      if wants p.kind then ∃ c₂, R q before (.node p ss') after u' c₂ ∧ c = (c₁ || c₂)
      else u' = .node p ss' ∧ c = c₁
termination_by structural s => s

/-- What a walk makes of the trees at the children of a node, given those it has been at. -/
def WalkedAll (wants : NodeKind → Bool) (R : Effect) : List (OrderedTree Placed) → Placed →
    List (OrderedTree Placed) → List (OrderedTree Placed) → Bool → Prop
  | [], _, _, ss', c => ss' = [] ∧ c = false
  | s :: ss, q, before, rs, c => ∃ s' ss' c₁ c₂, rs = s' :: ss' ∧ Walked wants R s q before ss s' c₁ ∧
      WalkedAll wants R ss q (before ++ [s']) ss' c₂ ∧ c = (c₁ || c₂)
termination_by structural ss => ss

end

variable {σ : Type} {v : Visitor σ} {R : Effect} {t : Tree} {st : σ} {id : NodeId} {n : Node}

theorem run_tree (t : Tree) (st : σ) :
    (EditWith.tree : EditWith σ Tree).run (t, st) = .ok t (t, st) := rfl

/-- What comes of a walk, but for whether its list has become empty. -/
def withoutEnd {S : Type} : EStateM.Result TreeError S (Bool × Bool) → EStateM.Result TreeError S Bool
  | .ok c s => .ok c.1 s
  | .error e s => .error e s

theorem run_eq (v : Visitor σ) (root : NodeId) (s : Tree × σ) :
    (run v root).run s = withoutEnd ((go v (2 * s.1.slots.size) [(root, false)] false).run s) := by
  have hrun : (run v root).run s = (do
      return (← go v (2 * s.1.slots.size) [(root, false)] false).1 : EditWith σ Bool).run s := rfl
  rw [hrun, EStateM.run_bind]
  cases (go v (2 * s.1.slots.size) [(root, false)] false).run s <;> rfl

section

variable {expanded changed : Bool} {rest : List (NodeId × Bool)} {s s' : Tree × σ}

theorem run_go_take {next : List (NodeId × Bool) × Bool} (h : take v id expanded rest changed s = .ok next s')
    (steps : Nat) :
    (go v (steps + 1) ((id, expanded) :: rest) changed).run s = (go v steps next.1 next.2).run s' := by
  have hrun : (take v id expanded rest changed).run s = .ok next s' := h
  rw [go, EStateM.run_bind, hrun]

theorem run_go_stop {e : TreeError} (h : take v id expanded rest changed s = .error e s') (steps : Nat) :
    (go v (steps + 1) ((id, expanded) :: rest) changed).run s = .error e s' := by
  have hrun : (take v id expanded rest changed).run s = .error e s' := h
  rw [go, EStateM.run_bind, hrun]

end

/-- Without a bound a walk ends as one whose steps do not run out. -/
theorem follow?_eq (v : Visitor σ) : ∀ (steps : Nat) (pending : List (NodeId × Bool)) (changed : Bool) (s : Tree × σ),
    (∀ c s', (go v steps pending changed).run s = .ok c s' → c.2 = true) →
      v.follow? pending changed s = some (withoutEnd ((go v steps pending changed).run s))
  | steps, [], changed, s, _ => by
    rw [Visitor.follow?]
    cases steps <;> rfl
  | 0, p :: rest, changed, s, h => absurd (h _ _ rfl) Bool.false_ne_true
  | steps + 1, (id, expanded) :: rest, changed, s, h => by
    rw [Visitor.follow?]
    cases htake : take v id expanded rest changed s with
    | error e s' =>
      rw [run_go_stop htake]
      rfl
    | ok next s' =>
      rw [run_go_take htake] at h ⊢
      exact follow?_eq v steps next.1 next.2 s' h

/-- A node that is met for the first time is put back behind its children. -/
theorem run_go_expand (hn : t.get? id = some n) (steps : Nat) (rest : List (NodeId × Bool))
    (changed : Bool) : (go v (steps + 1) ((id, false) :: rest) changed).run (t, st) =
      (go v steps (n.children.map (·, false) ++ (id, true) :: rest) changed).run (t, st) := by
  simp [go, take, run_tree, hn]

/-- A node that is not wanted is passed over. -/
theorem run_go_pass (hn : t.get? id = some n) (hw : v.wants n.kind = false) (steps : Nat)
    (rest : List (NodeId × Bool)) (changed : Bool) :
    (go v (steps + 1) ((id, true) :: rest) changed).run (t, st) =
      (go v steps rest changed).run (t, st) := by
  simp [go, take, run_tree, hn, hw]

/-- A wanted node is visited when all nodes below it have been. -/
theorem run_go_visit {t' : Tree} {st' : σ} {result : Visit} (hn : t.get? id = some n)
    (hw : v.wants n.kind = true) (hv : (v.visit id).run (t, st) = .ok result (t', st'))
    (hc : t'.contains result.node = true) (steps : Nat) (rest : List (NodeId × Bool))
    (changed : Bool) : (go v (steps + 1) ((id, true) :: rest) changed).run (t, st) =
      (go v steps rest (changed || result.changed)).run (t', st') := by
  simp [go, take, run_tree, hn, hw, hv, hc]

mutual

theorem run_go (hv : v.Does R) : ∀ (s : OrderedTree Placed) {t : Tree} (st : σ) {q : Placed}
    {before after : List (OrderedTree Placed)}, t.WellFormed →
      t.Shows (.node q (before ++ s :: after)) →
      ∀ (steps : Nat) (rest : List (NodeId × Bool)) (changed : Bool), ∃ s' c t' st',
        Walked v.wants R s q before after s' c ∧ t.Rewrite s s' t' ∧
        (go v (2 * s.ids.length + steps) ((s.label.id, false) :: rest) changed).run (t, st) =
          (go v steps rest (changed || c)).run (t', st')
  | .node p ss, t, st, q, before, after, h, hs, steps, rest, changed => by
    have hnode : t.Shows (.node p ss) := showsAll_iff.mp hs.2 _ (by simp)
    obtain ⟨parent, hp⟩ := hnode.1
    obtain ⟨ss', c₁, t₁, st₁, hwalk, hr, hgo⟩ :=
      run_goAll hv ss st h (show t.Shows (.node p ([] ++ ss)) from hnode) (steps + 1)
        ((p.id, true) :: rest) changed
    rw [List.nil_append, List.nil_append] at hr
    have hsteps : 2 * (node p ss).ids.length + steps =
        2 * (idsAll ss).length + (steps + 1) + 1 := by
      rw [ids_node, List.length_cons]
      omega
    have hchildren : (ss.map (·.label.id)).map (·, false) = ss.map fun s => (s.label.id, false) := by
      rw [List.map_map]
      rfl
    have hs₁ := (hr.child h hs).shows
    obtain ⟨⟨parent₁, hp₁⟩, -⟩ := hr.shows
    rw [hsteps, show (node p ss).label.id = p.id from rfl, run_go_expand hp, hchildren, hgo]
    by_cases hw : v.wants p.kind = true
    · obtain ⟨u', c₂, t₂, st₂, hvisit, hr₂, hR⟩ :=
        hv t₁ st₁ q before (.node p ss') after hr.wellFormed hs₁ hw
      obtain ⟨parent₂, hu'⟩ := hr₂.shows.top
      refine ⟨u', c₁ || c₂, t₂, st₂, ?_, hr.trans h hnode hr₂, ?_⟩
      · refine ⟨ss', c₁, hwalk, ?_⟩
        rw [if_pos hw]
        exact ⟨c₂, hR, rfl⟩
      · rw [run_go_visit hp₁ hw hvisit (contains_of_get? hu'), Bool.or_assoc]
    · rw [Bool.not_eq_true] at hw
      refine ⟨.node p ss', c₁, t₁, st₁, ?_, hr, run_go_pass hp₁ hw steps rest _⟩
      refine ⟨ss', c₁, hwalk, ?_⟩
      rw [hw]
      exact ⟨rfl, rfl⟩

theorem run_goAll (hv : v.Does R) : ∀ (ss : List (OrderedTree Placed)) {t : Tree} (st : σ)
    {q : Placed} {before : List (OrderedTree Placed)}, t.WellFormed →
      t.Shows (.node q (before ++ ss)) →
      ∀ (steps : Nat) (rest : List (NodeId × Bool)) (changed : Bool), ∃ ss' c t' st',
        WalkedAll v.wants R ss q before ss' c ∧
        t.Rewrite (.node q (before ++ ss)) (.node q (before ++ ss')) t' ∧
        (go v (2 * (idsAll ss).length + steps) ((ss.map fun s => (s.label.id, false)) ++ rest)
          changed).run (t, st) = (go v steps rest (changed || c)).run (t', st')
  | [], t, st, q, before, h, hs, steps, rest, changed =>
    ⟨[], false, t, st, ⟨rfl, rfl⟩, .refl h hs, by simp⟩
  | s :: ss, t, st, q, before, h, hs, steps, rest, changed => by
    have hsteps : 2 * (idsAll (s :: ss)).length + steps =
        2 * s.ids.length + (2 * (idsAll ss).length + steps) := by
      rw [idsAll_cons, List.length_append]
      omega
    obtain ⟨s', c₁, t₁, st₁, hwalk₁, hr₁, hgo₁⟩ := run_go hv s st h hs
      (2 * (idsAll ss).length + steps) ((ss.map fun s => (s.label.id, false)) ++ rest) changed
    have hparent := hr₁.child h hs
    have hs₁ : t₁.Shows (.node q (before ++ [s'] ++ ss)) := by
      rw [List.append_assoc]
      exact hparent.shows
    obtain ⟨ss', c₂, t₂, st₂, hwalk₂, hr₂, hgo₂⟩ :=
      run_goAll hv ss st₁ hparent.wellFormed hs₁ steps rest (changed || c₁)
    rw [List.append_assoc, List.append_assoc] at hr₂
    refine ⟨s' :: ss', c₁ || c₂, t₂, st₂, ⟨s', ss', c₁, c₂, rfl, hwalk₁, hwalk₂, rfl⟩,
      hparent.trans h hs hr₂, ?_⟩
    rw [hsteps, List.map_cons, List.cons_append, hgo₁, hgo₂, Bool.or_assoc]

end

/-- Each node is taken from the list twice, and there are not more nodes than slots. -/
theorem exists_steps (h : t.WellFormed) {s : OrderedTree Placed} (hs : t.Shows s) :
    ∃ k, 2 * t.slots.size = 2 * s.ids.length + k := by
  have hle := length_le_size (Shows.nodup_ids h.toLinked s hs) fun id hm => hs.live hm
  exact ⟨2 * t.slots.size - 2 * s.ids.length, by omega⟩

/-- A walk that begins at a node that is not wanted rewrites the tree at it. -/
theorem run_run (hv : v.Does R) {p : Placed} {ss : List (OrderedTree Placed)} (h : t.WellFormed)
    (hs : t.Shows (.node p ss)) (hw : v.wants p.kind = false) (st : σ) : ∃ ss' c t' st',
      WalkedAll v.wants R ss p [] ss' c ∧ t.Rewrite (.node p ss) (.node p ss') t' ∧
      (run v p.id).run (t, st) = .ok c (t', st') := by
  have ⟨⟨parent, hp⟩, _⟩ := hs
  obtain ⟨k, hk⟩ : ∃ k, 2 * t.slots.size = 2 * (idsAll ss).length + (k + 1) + 1 := by
    obtain ⟨k, hk⟩ := exists_steps h hs
    rw [ids_node, List.length_cons] at hk
    exact ⟨k, by omega⟩
  obtain ⟨ss', c, t', st', hwalk, hr, hgo⟩ :=
    run_goAll hv ss st h (show t.Shows (.node p ([] ++ ss)) from hs) (k + 1) [(p.id, true)] false
  rw [List.nil_append, List.nil_append] at hr
  obtain ⟨⟨parent', hp'⟩, -⟩ := hr.shows
  have hchildren : (ss.map (·.label.id)).map (·, false) = ss.map fun s => (s.label.id, false) := by
    rw [List.map_map]
    rfl
  refine ⟨ss', c, t', st', hwalk, hr, ?_⟩
  rw [run_eq, hk, run_go_expand hp, hchildren, hgo, run_go_pass hp' hw, Bool.false_or]
  cases k <;> rfl

end Walk

end JavaFold
