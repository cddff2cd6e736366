import JavaFold.Proofs.Pass.Changed
import JavaFold.Proofs.Pass.Hygiene
import JavaFold.Proofs.Tree.Census

/-!
# Which expressions propagating constants replaces

In a tree whose nodes are arranged as those of programs are, what a fold replaces is made of names, literals and
operators that write to nothing (`isPure`), stands in a method body or the initial value of a field, and is not in what
an assignment or a step writes to (`targets`). `Swapped` says where literals have taken the places of subtrees, all
other nodes being what they were; `exists_swaps` lists these subtrees, which have no node in common.
-/

namespace JavaFold

open OrderedTree

namespace Constants

/-- Whether a node is a name, a literal or an operator that writes to nothing. -/
def isPure : NodeKind → Bool
  | .expr (.name _) | .expr (.literal _) | .expr (.binary _) => true
  | .expr (.unary (.step _)) => false
  | .expr (.unary _) => true
  | _ => false

/-- The child of the top of a tree that it writes to, if it writes to any. -/
def targets (u : OrderedTree Placed) : List (OrderedTree Placed) :=
  if writes u.label.kind then u.children.take 1 else []

/-- A subtree that a literal takes the place of, and the id of the fresh node. -/
structure Swap where
  old : OrderedTree Placed
  fresh : NodeId
  value : Literal

/-- The literal, with the span of the top of the subtree. -/
def Swap.leaf (w : Swap) : OrderedTree Placed := .node ⟨w.fresh, .expr (.literal w.value), w.old.label.span⟩ []

mutual

/-- The tree with literals in the place of subtrees. -/
def swapped (ws : List Swap) : OrderedTree Placed → OrderedTree Placed
  | .node p ss =>
    match ws.find? (·.old.label.id == p.id) with
    | some w => w.leaf
    | none => .node p (swappedAll ws ss)

def swappedAll (ws : List Swap) : List (OrderedTree Placed) → List (OrderedTree Placed)
  | [] => []
  | s :: ss => swapped ws s :: swappedAll ws ss

end

mutual

/-- The second tree is the first one with literals in the place of some subtrees for which `C` holds. -/
def Swapped (C : OrderedTree Placed → Literal → Prop) : OrderedTree Placed → OrderedTree Placed → Prop
  | .node p ss, s' =>
    (∃ fresh v, C (.node p ss) v ∧ s' = .node ⟨fresh, .expr (.literal v), p.span⟩ []) ∨
      ∃ ss', SwappedAll C ss ss' ∧ s' = .node p ss'

def SwappedAll (C : OrderedTree Placed → Literal → Prop) : List (OrderedTree Placed) → List (OrderedTree Placed) → Prop
  | [], ss' => ss' = []
  | s :: ss, us => ∃ s' ss', Swapped C s s' ∧ SwappedAll C ss ss' ∧ us = s' :: ss'

end

section

variable {C : OrderedTree Placed → Literal → Prop}

mutual

theorem Swapped.refl : ∀ s : OrderedTree Placed, Swapped C s s
  | .node _ ss => .inr ⟨ss, SwappedAll.refl ss, rfl⟩

theorem SwappedAll.refl : ∀ ss : List (OrderedTree Placed), SwappedAll C ss ss
  | [] => rfl
  | s :: ss => ⟨s, ss, Swapped.refl s, SwappedAll.refl ss, rfl⟩

end

/-! ## The subtrees as a list -/

section

variable {ws ws' : List Swap}

mutual

theorem swapped_congr : ∀ s : OrderedTree Placed,
    (∀ x ∈ s.ids, ws.find? (·.old.label.id == x) = ws'.find? (·.old.label.id == x)) → swapped ws s = swapped ws' s
  | .node p ss, h => by
    rw [ids_node] at h
    rw [swapped, swapped, h p.id List.mem_cons_self, swappedAll_congr ss fun x hx => h x (List.mem_cons_of_mem _ hx)]

theorem swappedAll_congr : ∀ ss : List (OrderedTree Placed),
    (∀ x ∈ idsAll ss, ws.find? (·.old.label.id == x) = ws'.find? (·.old.label.id == x)) →
      swappedAll ws ss = swappedAll ws' ss
  | [], _ => rfl
  | s :: ss, h => by
    rw [idsAll_cons] at h
    rw [swappedAll, swappedAll, swapped_congr s fun x hx => h x (List.mem_append_left _ hx),
      swappedAll_congr ss fun x hx => h x (List.mem_append_right _ hx)]

end

theorem find?_old_eq_none {x : NodeId} (h : ∀ w ∈ ws, x ∉ w.old.ids) : ws.find? (·.old.label.id == x) = none :=
  List.find?_eq_none.mpr fun w hw e => h w hw (beq_iff_eq.mp e ▸ w.old.id_mem_ids)

mutual

theorem ids_subset_of_mem_subtrees {u : OrderedTree Placed} : ∀ s : OrderedTree Placed, u ∈ s.subtrees → u.ids ⊆ s.ids
  | .node p ss, hu => by
    rcases List.mem_cons.mp hu with rfl | hu
    · exact List.Subset.refl _
    · rw [ids_node]
      exact List.Subset.trans (ids_subset_of_mem_subtreesAll ss hu) (List.subset_cons_self _ _)

theorem ids_subset_of_mem_subtreesAll {u : OrderedTree Placed} : ∀ ss : List (OrderedTree Placed),
    u ∈ subtreesAll ss → u.ids ⊆ idsAll ss
  | s :: ss, hu => by
    rw [idsAll_cons]
    rcases List.mem_append.mp hu with hu | hu
    · exact List.Subset.trans (ids_subset_of_mem_subtrees s hu) (List.subset_append_left _ _)
    · exact List.Subset.trans (ids_subset_of_mem_subtreesAll ss hu) (List.subset_append_right _ _)

end

/-- Some subtrees of some trees for which `C` holds, which have no node in common. -/
structure Lists (C : OrderedTree Placed → Literal → Prop) (ss : List (OrderedTree Placed)) (ws : List Swap) : Prop where
  within : ∀ w ∈ ws, w.old ∈ subtreesAll ss ∧ C w.old w.value
  apart : ws.Pairwise fun w w' => w.old.ids.Disjoint w'.old.ids

mutual

theorem exists_swaps : ∀ {s s' : OrderedTree Placed}, Swapped C s s' → s.ids.Nodup →
    ∃ ws, swapped ws s = s' ∧ Lists C [s] ws
  | .node p ss, s', h, hd => by
    rcases h with ⟨fresh, v, hC, rfl⟩ | ⟨ss', hss, rfl⟩
    · refine ⟨[⟨.node p ss, fresh, v⟩], ?_, fun w hw => ?_, List.pairwise_singleton _ _⟩
      · have hfind : List.find? (·.old.label.id == p.id) [(⟨.node p ss, fresh, v⟩ : Swap)] = some ⟨.node p ss, fresh, v⟩ := by
          rw [List.find?_cons_of_pos (by simp [label])]
        rw [swapped, hfind]
        rfl
      · rw [List.mem_singleton.mp hw]
        exact ⟨List.mem_append_left _ List.mem_cons_self, hC⟩
    · rw [ids_node, List.nodup_cons] at hd
      obtain ⟨ws, rfl, hwithin, hapart⟩ := exists_swapsAll hss hd.2
      refine ⟨ws, ?_, fun w hw => ?_, hapart⟩
      · rw [swapped, find?_old_eq_none fun w hw hx => hd.1 (ids_subset_of_mem_subtreesAll ss (hwithin w hw).1 hx)]
      · exact ⟨List.mem_append_left _ (List.mem_cons_of_mem _ (hwithin w hw).1), (hwithin w hw).2⟩

theorem exists_swapsAll : ∀ {ss ss' : List (OrderedTree Placed)}, SwappedAll C ss ss' → (idsAll ss).Nodup →
    ∃ ws, swappedAll ws ss = ss' ∧ Lists C ss ws
  | [], _, rfl, _ => ⟨[], rfl, fun w hw => absurd hw List.not_mem_nil, .nil⟩
  | s :: ss, _, ⟨s', ss', hs, hss, rfl⟩, hd => by
    rw [idsAll_cons, List.nodup_append] at hd
    obtain ⟨ws, rfl, hwithin, hapart⟩ := exists_swaps hs hd.1
    obtain ⟨ws', rfl, hwithin', hapart'⟩ := exists_swapsAll hss hd.2.1
    have hs : ∀ w ∈ ws, w.old.ids ⊆ s.ids := fun w hw => by
      have hsub := ids_subset_of_mem_subtreesAll [s] (hwithin w hw).1
      rwa [idsAll_cons, idsAll_nil, List.append_nil] at hsub
    have hss : ∀ w ∈ ws', w.old.ids ⊆ idsAll ss := fun w hw => ids_subset_of_mem_subtreesAll ss (hwithin' w hw).1
    have hdisj : ∀ x ∈ s.ids, x ∉ idsAll ss := fun x hx hx' => hd.2.2 x hx x hx' rfl
    refine ⟨ws ++ ws', ?_, fun w hw => ?_, List.pairwise_append.mpr ⟨hapart, hapart', fun w hw w' hw' x hx hx' =>
      hdisj x (hs w hw hx) (hss w' hw' hx')⟩⟩
    · rw [swappedAll]
      congr 1
      · refine swapped_congr s fun x hx => ?_
        rw [List.find?_append, find?_old_eq_none fun w hw hm => hdisj x hx (hss w hw hm), Option.or_none]
      · refine swappedAll_congr ss fun x hx => ?_
        rw [List.find?_append, find?_old_eq_none fun w hw hm => hdisj x (hs w hw hm) hx, Option.none_or]
    · rcases List.mem_append.mp hw with hw | hw
      · obtain ⟨hw, hC⟩ := hwithin w hw
        rw [subtreesAll, subtreesAll, List.append_nil] at hw
        exact ⟨List.mem_append_left _ hw, hC⟩
      · exact ⟨List.mem_append_right _ (hwithin' w hw).1, (hwithin' w hw).2⟩

end

end

/-! ## What a visit swaps -/

mutual

theorem swapped_refill {rs : List Replacement} {fresh : NodeId → NodeId} : ∀ s : OrderedTree Placed,
    (∀ r ∈ rs, ∀ u ∈ s.subtrees, u.label.id = r.node → C u r.value) → Swapped C s (refill rs fresh s)
  | .node p ss, h => by
    rw [refill]
    split
    · next r hr =>
      have hnode : r.node = p.id := by simpa using List.find?_some hr
      exact .inl ⟨_, r.value, h r (List.mem_of_find?_eq_some hr) _ List.mem_cons_self hnode.symm, rfl⟩
    · exact .inr ⟨_, swappedAll_refillAll ss fun r hr u hu => h r hr u (List.mem_cons_of_mem _ hu), rfl⟩

theorem swappedAll_refillAll {rs : List Replacement} {fresh : NodeId → NodeId} : ∀ ss : List (OrderedTree Placed),
    (∀ r ∈ rs, ∀ u ∈ subtreesAll ss, u.label.id = r.node → C u r.value) → SwappedAll C ss (refillAll rs fresh ss)
  | [], _ => rfl
  | s :: ss, h =>
    ⟨_, _, swapped_refill s fun r hr u hu => h r hr u (List.mem_append_left _ hu),
      swappedAll_refillAll ss fun r hr u hu => h r hr u (List.mem_append_right _ hu), rfl⟩

end

end

/-! ## What is read -/

mutual

/-- In a tree each node is the top of one subtree. -/
theorem eq_of_mem_subtrees {u v : OrderedTree Placed} : ∀ {s : OrderedTree Placed}, s.ids.Nodup → u ∈ s.subtrees →
    v ∈ s.subtrees → u.label.id = v.label.id → u = v
  | .node p ss, hd, hu, hv, he => by
    rw [ids_node, List.nodup_cons] at hd
    have hbelow : ∀ {w : OrderedTree Placed}, w ∈ subtreesAll ss → w.label.id ≠ p.id := fun hw e =>
      hd.1 (ids_subset_of_mem_subtreesAll ss hw (e ▸ OrderedTree.id_mem_ids _))
    rcases List.mem_cons.mp hu with rfl | hu <;> rcases List.mem_cons.mp hv with rfl | hv
    · rfl
    · exact absurd he.symm (hbelow hv)
    · exact absurd he (hbelow hu)
    · exact eq_of_mem_subtreesAll hd.2 hu hv he

theorem eq_of_mem_subtreesAll {u v : OrderedTree Placed} : ∀ {ss : List (OrderedTree Placed)}, (idsAll ss).Nodup →
    u ∈ subtreesAll ss → v ∈ subtreesAll ss → u.label.id = v.label.id → u = v
  | s :: ss, hd, hu, hv, he => by
    rw [idsAll_cons, List.nodup_append] at hd
    have hapart : ∀ {w w' : OrderedTree Placed}, w ∈ s.subtrees → w' ∈ subtreesAll ss → w.label.id ≠ w'.label.id :=
      fun hw hw' e => hd.2.2 _ (ids_subset_of_mem_subtrees s hw (OrderedTree.id_mem_ids _)) _
        (ids_subset_of_mem_subtreesAll ss hw' (OrderedTree.id_mem_ids _)) e
    rcases List.mem_append.mp hu with hu | hu <;> rcases List.mem_append.mp hv with hv | hv
    · exact eq_of_mem_subtrees hd.1 hu hv he
    · exact absurd he (hapart hu hv)
    · exact absurd he.symm (hapart hv hu)
    · exact eq_of_mem_subtreesAll hd.2.1 hu hv he

end

theorem mem_subtreesAll {u : OrderedTree Placed} {ss : List (OrderedTree Placed)} :
    u ∈ subtreesAll ss ↔ ∃ s ∈ ss, u ∈ s.subtrees := by
  induction ss with
  | nil => simp [subtreesAll]
  | cons s ss ih => rw [subtreesAll, List.mem_append, ih, List.exists_mem_cons_iff]

theorem targets_subset (u : OrderedTree Placed) : targets u ⊆ u.children := by
  unfold targets
  split
  · exact List.take_subset _ _
  · exact List.nil_subset _

/-- What a node writes to has no node in common with its other children. -/
theorem disjoint_target {p : Placed} {s x : OrderedTree Placed} {ts : List (OrderedTree Placed)}
    (hd : (idsAll ts).Nodup) (hs : s ∈ unwritten p.kind ts) (hx : x ∈ targets (.node p ts)) : s.ids.Disjoint x.ids := by
  rw [targets, show (node p ts).label.kind = p.kind from rfl] at hx
  rw [unwritten] at hs
  split at hx
  · next hw =>
    rw [if_pos hw] at hs
    cases ts with
    | nil => cases hs
    | cons t ts =>
      obtain rfl : x = t := List.mem_singleton.mp hx
      rw [idsAll_cons, List.nodup_append] at hd
      exact fun y hy hyx => hd.2.2 y hyx y (mem_idsAll.mpr ⟨s, hs, hy⟩) rfl
  · cases hx

/-- What is read is not in what some node writes to. -/
theorem ReadIn.not_mem_target {u s : OrderedTree Placed} (h : ReadIn u s) (hd : s.ids.Nodup) :
    ∀ v ∈ s.subtrees, ∀ x ∈ targets v, u.label.id ∉ x.ids := by
  have hbelow : ∀ {v x : OrderedTree Placed} {p : Placed} {ts : List (OrderedTree Placed)}, v ∈ subtreesAll ts →
      x ∈ targets v → x.ids ⊆ idsAll ts := fun {v x p ts} hv hx => by
    have hxv : x.ids ⊆ idsAll v.children := fun y hy => mem_idsAll.mpr ⟨x, targets_subset v hx, hy⟩
    obtain ⟨q, vs⟩ := v
    exact List.Subset.trans (List.Subset.trans hxv (List.subset_cons_self _ _)) (ids_subset_of_mem_subtreesAll ts hv)
  induction h with
  | top =>
    intro v hv x hx hm
    obtain ⟨p, ts⟩ := u
    rw [ids_node, List.nodup_cons] at hd
    refine hd.1 ?_
    rcases List.mem_cons.mp hv with rfl | hv
    · exact mem_idsAll.mpr ⟨x, targets_subset _ hx, hm⟩
    · exact hbelow (p := p) hv hx hm
  | @inside p s ts hs hu ih =>
    intro v hv x hx
    rw [ids_node, List.nodup_cons] at hd
    have hmem : u.label.id ∈ s.ids := ids_subset_of_mem_subtrees s hu.mem_subtrees u.id_mem_ids
    have hsd : s.ids.Nodup := by
      obtain ⟨before, after, hts⟩ := List.append_of_mem (unwritten_subset _ _ hs)
      rw [hts, idsAll_append, idsAll_cons] at hd
      exact (List.nodup_append.mp (List.nodup_append.mp hd.2).2.1).1
    rcases List.mem_cons.mp hv with rfl | hv
    · exact disjoint_target hd.2 hs hx hmem
    · obtain ⟨c, hc, hv⟩ := mem_subtreesAll.mp hv
      intro hm
      have hxc : x.ids ⊆ c.ids := by
        obtain ⟨q, cs⟩ := c
        have hsub := hbelow (p := q) (mem_subtreesAll.mpr ⟨_, List.mem_singleton_self _, hv⟩) hx
        rwa [idsAll_cons, idsAll_nil, List.append_nil] at hsub
      obtain rfl := Blocks.eq_of_mem_ids hd.2 (unwritten_subset _ _ hs) hc hmem (hxc hm)
      exact ih hsd v hv x hx hm

/-! ## Trees that are laid out -/

/-- Whether a node is a statement or an expression. -/
def isCode : NodeKind → Bool
  | .stmt _ | .expr _ => true
  | _ => false

/-- Whether what is of a sort is a statement or an expression. -/
def ofCode : NodeSort → Bool
  | .aClass | .aMember => false
  | .aBlock | .aStatement | .anExpression => true

theorem isCode_of_has {sort : NodeSort} {k : NodeKind} (h : sort.has k = true) (hsort : ofCode sort = true) :
    isCode k = true := by
  cases sort with
  | aClass | aMember => cases hsort
  | aBlock | aStatement | anExpression => cases k <;> first | rfl | simp at h

/-- The sorts of what may stand behind the children that a node always has. -/
def sortsOf : Remaining → List NodeSort
  | .nothing => []
  | .perhaps sort | .anyNumber sort => [sort]

theorem has_of_admitsAfter (r : Remaining) : ∀ (sorts : List NodeSort) {kinds : List NodeKind},
    r.admitsAfter sorts kinds = true → ∀ k ∈ kinds, ∃ sort ∈ sorts ++ sortsOf r, sort.has k = true
  | [], kinds, h, k, hk => by
    unfold Remaining.admitsAfter at h
    cases r with
    | nothing => exact absurd hk (by simp_all)
    | perhaps sort | anyNumber sort => exact ⟨sort, List.mem_singleton_self _, by simp_all⟩
  | sort :: sorts, kind :: kinds, h, k, hk => by
    rw [Remaining.admitsAfter, Bool.and_eq_true] at h
    rcases List.mem_cons.mp hk with rfl | hk
    · exact ⟨sort, List.mem_cons_self, h.1⟩
    · obtain ⟨sort', hm, hhas⟩ := has_of_admitsAfter r sorts h.2 k hk
      exact ⟨sort', List.mem_cons_of_mem _ hm, hhas⟩

theorem all_ofCode {p : NodeKind} (hp : isMember p = true ∨ isCode p = true) :
    (p.arrangement.always ++ sortsOf p.arrangement.remaining).all ofCode = true := by
  cases p with
  | unit | classDecl => simp [isMember, isCode] at hp
  | field | method => rfl
  | stmt kind =>
    cases kind with
    | forLoop init cond update => cases init <;> cases cond <;> cases update <;> rfl
    | _ => rfl
  | expr kind => cases kind <;> rfl

/-- Below a member, a statement or an expression there are only statements and expressions. -/
theorem isCode_of_admits {p : NodeKind} {kinds : List NodeKind} (h : p.arrangement.admits kinds = true)
    (hp : isMember p = true ∨ isCode p = true) : ∀ k ∈ kinds, isCode k = true := by
  intro k hk
  obtain ⟨sort, hsort, hhas⟩ := has_of_admitsAfter _ _ h k hk
  exact isCode_of_has hhas (List.all_eq_true.mp (all_ofCode hp) sort hsort)

mutual

theorem isCode_labels : ∀ s : OrderedTree Placed, s.LaidOut → isCode s.label.kind = true →
    ∀ p ∈ s.labels, isCode p.kind = true
  | .node p ts, ⟨hadmits, hts⟩, hp => by
    rw [labels, List.forall_mem_cons]
    refine ⟨hp, isCode_labelsAll ts hts fun s hs => ?_⟩
    exact isCode_of_admits hadmits (.inr hp) _ (List.mem_map_of_mem hs)

theorem isCode_labelsAll : ∀ ss : List (OrderedTree Placed), LaidOutAll ss → (∀ s ∈ ss, isCode s.label.kind = true) →
    ∀ p ∈ labelsAll ss, isCode p.kind = true
  | [], _, _ => fun _ hp => absurd hp List.not_mem_nil
  | s :: ss, ⟨hs, hss⟩, h => by
    have ⟨hcode, hcodes⟩ := List.forall_mem_cons.mp h
    rw [labelsAll, List.forall_mem_append]
    exact ⟨isCode_labels s hs hcode, isCode_labelsAll ss hss hcodes⟩

end

mutual

theorem laidOut_of_mem_subtrees {u : OrderedTree Placed} : ∀ s : OrderedTree Placed, s.LaidOut → u ∈ s.subtrees →
    u.LaidOut
  | .node _ ss, h, hu => by
    rcases List.mem_cons.mp hu with rfl | hu
    · exact h
    · exact laidOut_of_mem_subtreesAll ss h.2 hu

theorem laidOut_of_mem_subtreesAll {u : OrderedTree Placed} : ∀ ss : List (OrderedTree Placed), LaidOutAll ss →
    u ∈ subtreesAll ss → u.LaidOut
  | s :: ss, h, hu =>
    (List.mem_append.mp hu).elim (laidOut_of_mem_subtrees s h.1) (laidOut_of_mem_subtreesAll ss h.2)

end

/-- Only expressions write to a child. -/
theorem unwritten_of_not_isCode {k : NodeKind} (h : ¬ isCode k = true) (ts : List (OrderedTree Placed)) :
    unwritten k ts = ts := by
  cases k <;> first | rfl | exact absurd rfl h

theorem not_isMember_of_isCode {k : NodeKind} (h : isCode k = true) : isMember k = false := by
  cases k <;> first | rfl | cases h

/-- What can be folded in a tree that is laid out has only nodes that are pure. -/
theorem isPure_labels : ∀ s : OrderedTree Placed, s.LaidOut → isFoldable s = true → ∀ p ∈ s.labels, isPure p.kind = true
  | .node p ts, ⟨hadmits, hts⟩, h => by
    unfold isFoldable at h
    rw [labels, List.forall_mem_cons]
    split at h
    · next hkind =>
      rw [hkind] at hadmits ⊢
      have hnil := List.map_eq_nil_iff.mp (List.isEmpty_iff.mp hadmits)
      rw [hnil]
      exact ⟨rfl, fun _ hp => absurd hp List.not_mem_nil⟩
    · next hkind =>
      rw [hkind] at hadmits ⊢
      have hnil := List.map_eq_nil_iff.mp (List.isEmpty_iff.mp hadmits)
      rw [hnil]
      exact ⟨rfl, fun _ hp => absurd hp List.not_mem_nil⟩
    · next op lhs rhs hkind =>
      rw [Bool.and_eq_true] at h
      have hl := isPure_labels lhs hts.1 h.1
      have hr := isPure_labels rhs hts.2.1 h.2
      rw [hkind]
      simpa [labelsAll, or_imp, forall_and, isPure] using And.intro hl hr
    · cases h
    · next op operand hstep hkind =>
      have ho := isPure_labels operand hts.1 h
      rw [hkind]
      refine ⟨?_, by simpa [labelsAll] using ho⟩
      cases op with
      | step op => exact absurd rfl (hstep op)
      | _ => rfl
    · cases h

/-! ## A walk -/

/-- The tree `u` stands in a member in `s`, is read and can be folded. -/
def InMember (s u : OrderedTree Placed) : Prop :=
  ∃ m, ReadIn m s ∧ isMember m.label.kind = true ∧ ∃ c ∈ m.children, ReadIn u c ∧ isFoldable u = true

theorem ReadIn.ofMember {m c u : OrderedTree Placed} (hm : isMember m.label.kind = true) (hc : c ∈ m.children)
    (h : ReadIn u c) : ReadIn u m := by
  obtain ⟨p, ts⟩ := m
  have hread : unwritten p.kind ts = ts := unwritten_of_not_isCode (fun hcode =>
    Bool.noConfusion ((not_isMember_of_isCode hcode).symm.trans hm)) ts
  exact .inside (hread.symm ▸ hc) h

mutual

/-- A walk swaps trees in members that are read and can be folded. -/
theorem swapped_of_walked {C : OrderedTree Placed → Literal → Prop} : ∀ {s s' : OrderedTree Placed} {q : Placed}
    {before after : List (OrderedTree Placed)} {c : Bool}, s.LaidOut → s.ids.Nodup →
    (∀ u v, InMember s u → C u v) → Walk.Walked isMember Refilled s q before after s' c →
      Swapped C s s' ∧ s'.label = s.label
  | .node p ss, s', q, before, after, c, ⟨hadmits, hss⟩, hd, hC, ⟨ss', c₁, hall, hs⟩ => by
    by_cases hcode : isMember p.kind = true ∨ isCode p.kind = true
    · -- no member stands below, so the walk only comes to the top
      have hbelow : ∀ l ∈ labelsAll ss, isMember l.kind = false := fun l hl =>
        not_isMember_of_isCode (isCode_labelsAll ss hss (fun s hs =>
          isCode_of_admits hadmits hcode _ (List.mem_map_of_mem hs)) l hl)
      obtain ⟨rfl, rfl⟩ := walkedAll_of_unwanted hbelow hall
      split at hs
      · next hm =>
        obtain ⟨c₂, ⟨hlabel, ⟨fresh, rfl⟩, -⟩, -⟩ := hs
        refine ⟨swapped_refill _ fun r hr u hu he => hC _ _ ⟨_, .top, hm, ?_⟩, hlabel⟩
        obtain ⟨child, hchild, v, hread, hv, -, hfold⟩ := foldable_replacements _ _ _ r hr
        have hmem : v ∈ (node p ss').subtrees :=
          List.mem_cons_of_mem _ (subtrees_subset_subtreesAll hchild hread.mem_subtrees)
        obtain rfl := eq_of_mem_subtrees hd hu hmem (he.trans hv.symm)
        exact ⟨child, hchild, hread, hfold⟩
      · rw [hs.1]
        exact ⟨.refl _, rfl⟩
    · rw [not_or] at hcode
      rw [if_neg hcode.1] at hs
      rw [ids_node, List.nodup_cons] at hd
      have hread : unwritten p.kind ss = ss := unwritten_of_not_isCode hcode.2 ss
      refine ⟨.inr ⟨ss', swappedAll_of_walkedAll hss hd.2 (fun s hs u v hu => ?_) hall, hs.1⟩, by rw [hs.1]; rfl⟩
      obtain ⟨m, hm, hrest⟩ := hu
      exact hC u v ⟨m, .inside (hread.symm ▸ hs) hm, hrest⟩

theorem swappedAll_of_walkedAll {C : OrderedTree Placed → Literal → Prop} : ∀ {ss ss' : List (OrderedTree Placed)}
    {q : Placed} {before : List (OrderedTree Placed)} {c : Bool}, LaidOutAll ss → (idsAll ss).Nodup →
    (∀ s ∈ ss, ∀ u v, InMember s u → C u v) → Walk.WalkedAll isMember Refilled ss q before ss' c → SwappedAll C ss ss'
  | [], _, _, _, _, _, _, _, h => h.1
  | s :: ss, _, _, _, _, ⟨hs, hss⟩, hd, hC, ⟨s', ss', c₁, c₂, e, hw, hws, _⟩ => by
    rw [idsAll_cons, List.nodup_append] at hd
    have ⟨hCs, hCss⟩ := List.forall_mem_cons.mp hC
    exact ⟨s', ss', (swapped_of_walked hs hd.1 hCs hw).1, swappedAll_of_walkedAll hss hd.2.1 hCss hws, e⟩

end

end Constants

/-! ## The tree of a program -/

namespace Tree

/-- The tree of a program has no nodes but those at and below its root. -/
theorem mem_ids_ofUnit (unit : CompilationUnit) {s : OrderedTree Placed} {id : NodeId} {n : Node}
    (hs : (ofUnit unit).subtree? (ofUnit unit).root = some s) (hn : (ofUnit unit).get? id = some n) : id ∈ s.ids := by
  obtain ⟨h, ss, hshow, hparts⟩ := ofUnit_spec unit
  obtain rfl := Option.some.inj ((h.subtree?_of_shows hshow).symm.trans hs)
  refine h.mem_ids_of_live hshow ?_ hn
  have hlength : (idsAll ss).length = unit.nodes := by
    rw [idsAll, List.length_map, ← List.length_map Placed.part, ← labelsAll_partsAll, hparts, length_labelsAll_map]
    exact congrArg List.sum (List.map_congr_left fun c _ => c.length_labels)
  rw [live_ofUnit, ids_node, List.length_cons, hlength, Nat.add_comm]

/-- In the tree of a program the children of each node are arranged as its kind says. -/
theorem laidOut_ofUnit (unit : CompilationUnit) {id : NodeId} {s : OrderedTree Placed}
    (hs : (ofUnit unit).subtree? id = some s) : s.LaidOut := by
  obtain ⟨top, htop, hdec⟩ := (wellFormed_ofUnit unit).unit?_decides
  have hlaid : top.LaidOut := by
    by_contra hnot
    obtain ⟨_, _, _, herror⟩ := hdec.refused hnot
    rw [(holds_ofUnit unit).unit?_eq] at herror
    cases herror
  obtain ⟨hshow, -⟩ := shows_of_subtree? hs
  obtain ⟨htops, -⟩ := shows_of_subtree? htop
  rw [hshow.laidOut_iff]
  intro x hx
  obtain ⟨n, hn⟩ := hshow.live hx
  exact htops.laidOut_iff.mp hlaid x (mem_ids_ofUnit unit htop hn)

end Tree

namespace PassKind

open Constants

/-- A fold of constants at any node of the tree of a program at which passes start succeeds, and puts literals in the
place of subtrees of the tree there. These have no node in common. Each of them stands in a method or in the initial
value of a field, is not in what an assignment or a step writes to, and is made of names, literals and operators that
write to nothing. All other nodes of the tree are what they were, and so are the nodes outside. -/
theorem fold_swapsPure (unit : CompilationUnit) {id : NodeId} {n : Node} (hn : (Tree.ofUnit unit).get? id = some n)
    (hroot : n.parent ≠ none ∨ n.kind = .unit) : ∃ s changed t' ws,
      (Tree.ofUnit unit).subtree? id = some s ∧
      (constantPropagation.fold id).run (Tree.ofUnit unit) = .ok changed t' ∧
      t'.subtree? id = some (swapped ws s) ∧ (Tree.ofUnit unit).Rewrite s (swapped ws s) t' ∧
      ws.Pairwise (fun w w' => w.old.ids.Disjoint w'.old.ids) ∧
      ∀ w ∈ ws, w.old ∈ s.subtrees ∧ (∀ p ∈ w.old.labels, isPure p.kind = true) ∧
        (∃ m ∈ s.subtrees, isMember m.label.kind = true ∧ w.old ∈ subtreesAll m.children) ∧
        ∀ v ∈ s.subtrees, ∀ x ∈ targets v, w.old.label.id ∉ x.ids := by
  have h := Tree.wellFormed_ofUnit unit
  have hstart : ¬ (n.parent.isNone ∧ n.kind ≠ .unit) := fun ⟨hnone, hk⟩ =>
    hroot.elim (· (Option.isNone_iff_eq_none.mp hnone)) hk
  obtain ⟨s, q, before, after, s', c, t', hs, hwalk, hr, -, hrun⟩ :=
    run_fold_walked constantPropagation visitor_refills h hn hstart
  obtain ⟨hshow, rfl⟩ := Tree.shows_of_subtree? hs
  have hd := Tree.Shows.nodup_ids h.toLinked s hshow
  have hlaid := Tree.laidOut_ofUnit unit hs
  obtain ⟨hswapped, hlabel⟩ := swapped_of_walked (C := fun u _ => InMember s u) hlaid hd (fun _ _ hu => hu) hwalk
  obtain ⟨ws, rfl, hwithin, hapart⟩ := exists_swaps hswapped hd
  have htop := hr.wellFormed.subtree?_of_shows hr.shows
  rw [hlabel] at htop
  refine ⟨s, c, t', ws, hs, hrun, htop, hr, hapart, fun w hw => ?_⟩
  obtain ⟨m, hm, hmember, child, hchild, hread, hfold⟩ := (hwithin w hw).2
  have hin : ReadIn w.old s := (hread.ofMember hmember hchild).trans hm
  refine ⟨hin.mem_subtrees, ?_, ⟨m, hm.mem_subtrees, hmember, ?_⟩, hin.not_mem_target hd⟩
  · exact isPure_labels w.old (laidOut_of_mem_subtrees s hlaid hin.mem_subtrees) hfold
  · exact subtrees_subset_subtreesAll hchild hread.mem_subtrees

/-- The sum of two literals, the initial value of a field, is replaced. -/
theorem fold_swapsPure_sum : ∃ unit comments n, CompilationUnit.ofSource? "class A { int x = 1 + 2; }" =
    .ok (unit, comments) ∧ (Tree.ofUnit unit).get? (Tree.ofUnit unit).root = some n ∧ n.kind = .unit ∧
    ∃ s t' ws, (Tree.ofUnit unit).subtree? (Tree.ofUnit unit).root = some s ∧
      (constantPropagation.fold (Tree.ofUnit unit).root).run (Tree.ofUnit unit) = .ok true t' ∧
      t'.subtree? (Tree.ofUnit unit).root = some (swapped ws s) ∧ ∀ w ∈ ws, ∀ p ∈ w.old.labels, isPure p.kind = true := by
  have hchanged : ((CompilationUnit.ofSource? "class A { int x = 1 + 2; }").toOption.map fun parsed =>
      match (constantPropagation.fold (Tree.ofUnit parsed.1).root).run (Tree.ofUnit parsed.1) with
      | .ok changed _ => changed
      | .error _ _ => false) = some true := by decide +kernel
  obtain ⟨⟨unit, comments⟩, hparsed, hchanged⟩ := Option.map_eq_some_iff.mp hchanged
  obtain ⟨n, hn, -, hkind⟩ := (Tree.wellFormed_ofUnit unit).root
  obtain ⟨s, changed, t', ws, hs, hrun, hs', -, -, hws⟩ := fold_swapsPure unit hn (.inr hkind)
  simp only [hrun] at hchanged
  exact ⟨unit, comments, n, eq_ok_of_toOption hparsed, hn, hkind, s, t', ws, hs, hchanged ▸ hrun, hs',
    fun w hw => (hws w hw).2.1⟩

end PassKind

end JavaFold
