import JavaFold.Pass.FixedPoint
import JavaFold.Program.Unit.Parser
import JavaFold.Proofs.Pass.Basic
import JavaFold.Proofs.Pass.Blocks
import JavaFold.Proofs.Pass.Names

/-!
# Folding blocks and names

When an inner block is folded its variables come into the scope of the outer block. They may then catch
names after the inner block that stood for something else, or meet a variable of the same name.
`Hygienic` says of a program that this cannot happen: no variable of an inner block has a name that
occurs free after the block, or that the outer block or another inner block declares. Exactly then all
names stand for what they stood for before, and no scope gets two variables of one name from different
scopes (`fold_keepsNames_iff`).
-/

namespace JavaFold

namespace Blocks

open OrderedTree Names JavaFold.Tree

/-! ## The folded tree -/

mutual

/-- The tree `s'` is `s` with all inner blocks folded; blocks may be fresh. -/
def Flat : OrderedTree Placed → OrderedTree Placed → Prop
  | .node p ss, s' => ∃ p' ss', FlatAll ss ss' ∧ p'.kind = p.kind ∧
      (p.kind.isBlock = false → p' = p) ∧
      s' = .node p' (if p.kind.isBlock then ss'.flatMap absorbed else ss')
termination_by structural s => s

def FlatAll : List (OrderedTree Placed) → List (OrderedTree Placed) → Prop
  | [], rs => rs = []
  | s :: ss, rs => ∃ s' ss', rs = s' :: ss' ∧ Flat s s' ∧ FlatAll ss ss'
termination_by structural ss => ss

end

theorem eq_of_isBlock {k : NodeKind} (h : k.isBlock = true) : k = .stmt .block := by
  unfold NodeKind.isBlock at h
  split at h
  · rfl
  · cases h

theorem flatMap_absorbed_of_flat {ss : List (OrderedTree Placed)}
    (h : ss.any (·.label.kind.isBlock) = false) : ss.flatMap absorbed = ss := by
  induction ss with
  | nil => rfl
  | cons s ss ih =>
    rw [List.any_cons, Bool.or_eq_false_iff] at h
    rw [List.flatMap_cons, ih h.2, absorbed, h.1]
    rfl

mutual

theorem flat_of_walked : ∀ {s s' : OrderedTree Placed} {q : Placed}
    {before after : List (OrderedTree Placed)} {c : Bool},
    Walk.Walked NodeKind.isBlock Spliced s q before after s' c → Flat s s'
  | .node p ss, s', q, before, after, c, ⟨ss', c₁, hall, hs⟩ => by
    have hflat := flatAll_of_walkedAll hall
    by_cases hb : p.kind.isBlock = true
    · rw [if_pos hb] at hs
      obtain ⟨c₂, ⟨hc, hspliced⟩, -⟩ := hs
      by_cases hn : isNestedIn (.node p ss') = true
      · rw [hc, if_pos hn] at hspliced
        obtain ⟨fresh, rfl⟩ := hspliced
        refine ⟨⟨fresh, .stmt .block, p.span⟩, ss', hflat, (eq_of_isBlock hb).symm, fun h => ?_, ?_⟩
        · rw [hb] at h
          cases h
        · rw [if_pos hb]
          rfl
      · rw [hc, if_neg hn] at hspliced
        refine ⟨p, ss', hflat, rfl, fun _ => rfl, ?_⟩
        rw [hspliced, if_pos hb,
          flatMap_absorbed_of_flat (by simpa [isNestedIn, OrderedTree.children] using hn)]
    · rw [if_neg hb] at hs
      exact ⟨p, ss', hflat, rfl, fun _ => rfl, by rw [if_neg hb, hs.1]⟩

theorem flatAll_of_walkedAll : ∀ {ss ss' : List (OrderedTree Placed)} {q : Placed}
    {before : List (OrderedTree Placed)} {c : Bool},
    Walk.WalkedAll NodeKind.isBlock Spliced ss q before ss' c → FlatAll ss ss'
  | [], _, _, _, _, h => h.1
  | s :: ss, _, _, _, _, ⟨s', ss', c₁, c₂, e, hs, hss, _⟩ =>
    ⟨s', ss', e, flat_of_walked hs, flatAll_of_walkedAll hss⟩

end

/-! ## Hygiene -/

mutual

/-- The variables that a statement declares in the scope around it once its blocks are folded into
that: those of a block, or else those that it declares there anyway. -/
def exposed : OrderedTree Placed → List Declared
  | .node p ss => if p.kind.isBlock then exposedAll ss else declares (.node p ss)

def exposedAll : List (OrderedTree Placed) → List Declared
  | [] => []
  | s :: ss => exposed s ++ exposedAll ss

end

/-- The statements of a block are apart: no variable of an inner block has the name of one that another
statement exposes, or a name that occurs free after it. -/
def Apart : List (OrderedTree Placed) → Prop
  | [] => True
  | s :: ss => (s.label.kind.isBlock = true → ∀ d ∈ exposed s, d.1 ∉ freeAll ss) ∧
      (∀ u ∈ ss, s.label.kind.isBlock = true ∨ u.label.kind.isBlock = true →
        ∀ d ∈ exposed s, ∀ e ∈ exposed u, d.1 ≠ e.1) ∧
      Apart ss

mutual

/-- The statements of each block are apart. -/
def Hygienic : OrderedTree Placed → Prop
  | .node p ss => (p.kind.isBlock = true → Apart ss) ∧ HygienicAll ss

def HygienicAll : List (OrderedTree Placed) → Prop
  | [] => True
  | s :: ss => Hygienic s ∧ HygienicAll ss

end

instance decidableApart : ∀ ss : List (OrderedTree Placed), Decidable (Apart ss)
  | [] => .isTrue trivial
  | _ :: ss =>
    have := decidableApart ss
    inferInstanceAs (Decidable (_ ∧ _ ∧ _))

mutual

def decidableHygienic : ∀ s : OrderedTree Placed, Decidable (Hygienic s)
  | .node _ ss =>
    have := decidableHygienicAll ss
    inferInstanceAs (Decidable (_ ∧ _))

def decidableHygienicAll : ∀ ss : List (OrderedTree Placed), Decidable (HygienicAll ss)
  | [] => .isTrue trivial
  | s :: ss =>
    have := decidableHygienic s
    have := decidableHygienicAll ss
    inferInstanceAs (Decidable (_ ∧ _))

end

instance (s : OrderedTree Placed) : Decidable (Hygienic s) := decidableHygienic s

/-- No scope of `sc'` holds two variables of one name that were in no scope of `sc` together. -/
def NoMerge (sc sc' : List (List Declared)) : Prop :=
  ∀ l' ∈ sc', ∀ d ∈ l', ∀ e ∈ l', d.1 = e.1 → ∃ l ∈ sc, d ∈ l ∧ e ∈ l

/-- All names of `s'` stand for what they stand for in `s`, and no scope has got two variables of one
name from different scopes. -/
def KeepsNames (s s' : OrderedTree Placed) : Prop :=
  ofProgram s' = ofProgram s ∧ NoMerge (scopes s) (scopes s')

/-! ## What a folded tree declares -/

variable {m m' : Meaning} {s s' : OrderedTree Placed} {ss ss' : List (OrderedTree Placed)}
  {p p' : Placed}

theorem declares_of_isBlock (h : p.kind.isBlock = true) : declares (.node p ss) = [] := by
  rw [declares, eq_of_isBlock h]
  rfl

theorem exposed_of_not_isBlock (h : s.label.kind.isBlock = false) : exposed s = declares s := by
  cases s
  rw [exposed, if_neg (by simpa [label] using h)]

theorem Flat.kind_eq (h : Flat s s') : s'.label.kind = s.label.kind := by
  cases s
  obtain ⟨p', ss', -, hk, -, rfl⟩ := h
  exact hk

theorem absorbed_of_block (h : p.kind.isBlock = true) : absorbed (.node p ss) = ss := by
  rw [absorbed, label, if_pos h]
  rfl

theorem absorbed_of_other (h : s.label.kind.isBlock = false) : absorbed s = [s] := by
  rw [absorbed, h]
  rfl

mutual

theorem declares_flat : ∀ (s : OrderedTree Placed) {s' : OrderedTree Placed}, Flat s s' →
    declares s' = declares s
  | .node p ss, s', ⟨p', ss', hall, hk, hp, e⟩ => by
    subst e
    by_cases hb : p.kind.isBlock = true
    · rw [declares_of_isBlock hb, declares_of_isBlock (hk ▸ hb)]
    · rw [Bool.not_eq_true] at hb
      rw [hp hb, hb, if_neg Bool.false_ne_true, declares, declares, declaresAll_flat ss hall]

theorem declaresAll_flat : ∀ (ss : List (OrderedTree Placed)) {ss' : List (OrderedTree Placed)},
    FlatAll ss ss' → declaresAll ss' = declaresAll ss
  | [], _, e => by rw [show _ = [] from e]
  | s :: ss, _, ⟨s', ss', e, hs, hss⟩ => by
    rw [e, declaresAll, declares_flat s hs, declaresAll_flat ss hss, declaresAll]

end

mutual

theorem declaresAll_absorbed : ∀ (s : OrderedTree Placed) {s' : OrderedTree Placed}, Flat s s' →
    declaresAll (absorbed s') = exposed s
  | .node p ss, s', h => by
    by_cases hb : p.kind.isBlock = true
    · obtain ⟨p', ss', hall, hk, -, rfl⟩ := h
      rw [absorbed_of_block (hk ▸ hb), if_pos hb, exposed, if_pos hb,
        declaresAll_flatMap_absorbed ss hall]
    · rw [Bool.not_eq_true] at hb
      rw [absorbed_of_other (h.kind_eq ▸ hb), exposed_of_not_isBlock (s := .node p ss) hb,
        declaresAll, declaresAll,
        List.append_nil, declares_flat _ h]

theorem declaresAll_flatMap_absorbed : ∀ (ss : List (OrderedTree Placed))
    {ss' : List (OrderedTree Placed)}, FlatAll ss ss' →
      declaresAll (ss'.flatMap absorbed) = exposedAll ss
  | [], _, e => by rw [show _ = [] from e]; rfl
  | s :: ss, _, ⟨s', ss', e, hs, hss⟩ => by
    rw [e, List.flatMap_cons, declaresAll_append, declaresAll_absorbed s hs,
      declaresAll_flatMap_absorbed ss hss, exposedAll]

end

theorem kinds_flat : ∀ {ss ss' : List (OrderedTree Placed)}, FlatAll ss ss' →
    ss'.map (·.label.kind) = ss.map (·.label.kind)
  | [], _, e => by rw [show _ = [] from e]
  | s :: ss, _, ⟨s', ss', e, hs, hss⟩ => by
    rw [e, List.map_cons, List.map_cons, hs.kind_eq, kinds_flat hss]

theorem declarations_of_isBlock (h : p.kind.isBlock = true) :
    declarations (.node p ss) = declarationsAll ss := by
  obtain ⟨id, kind, span⟩ := p
  have hk : kind = .stmt .block := eq_of_isBlock h
  subst hk
  rfl

theorem declarationsAll_absorbed (s : OrderedTree Placed) :
    declarationsAll (absorbed s) = declarations s := by
  by_cases hb : s.label.kind.isBlock = true
  · obtain ⟨p, ss⟩ := s
    rw [absorbed_of_block (p := p) hb, declarations_of_isBlock (p := p) hb]
  · rw [absorbed_of_other (by simpa using hb), declarationsAll, declarationsAll, List.append_nil]

mutual

/-- Folding blocks declares nothing and drops no declaration. -/
theorem declarations_flat : ∀ (s : OrderedTree Placed) {s' : OrderedTree Placed}, Flat s s' →
    declarations s' = declarations s
  | .node p ss, _, ⟨p', ss', hall, hk, hp, e⟩ => by
    subst e
    by_cases hb : p.kind.isBlock = true
    · rw [declarations_of_isBlock hb, declarations_of_isBlock (hk ▸ hb), if_pos hb,
        declarationsAll_flatMap_absorbed ss hall]
    · rw [Bool.not_eq_true] at hb
      rw [hp hb, hb, if_neg Bool.false_ne_true, declarations, declarations, kinds_flat hall,
        declarationsAll_flat ss hall]

theorem declarationsAll_flat : ∀ (ss : List (OrderedTree Placed)) {ss' : List (OrderedTree Placed)},
    FlatAll ss ss' → declarationsAll ss' = declarationsAll ss
  | [], _, e => by rw [show _ = [] from e]
  | s :: ss, _, ⟨s', ss', e, hs, hss⟩ => by
    rw [e, declarationsAll, declarations_flat s hs, declarationsAll_flat ss hss, declarationsAll]

theorem declarationsAll_flatMap_absorbed : ∀ (ss : List (OrderedTree Placed))
    {ss' : List (OrderedTree Placed)}, FlatAll ss ss' →
      declarationsAll (ss'.flatMap absorbed) = declarationsAll ss
  | [], _, e => by rw [show _ = [] from e]; rfl
  | s :: ss, _, ⟨s', ss', e, hs, hss⟩ => by
    rw [e, List.flatMap_cons, declarationsAll_append, declarationsAll_absorbed,
      declarations_flat s hs, declarationsAll_flatMap_absorbed ss hss, declarationsAll]

end

theorem usesAll_absorbed (m : Meaning) (s : OrderedTree Placed) :
    usesAll m (absorbed s) = uses m s := by
  by_cases hb : s.label.kind.isBlock = true
  · obtain ⟨p, ss⟩ := s
    have hk : p.kind = .stmt .block := eq_of_isBlock hb
    rw [absorbed_of_block (p := p) hb, uses, entered, hk]
    rfl
  · rw [absorbed_of_other (by simpa using hb), usesAll, usesAll, List.append_nil]

theorem scopesAll_absorbed_subset (s : OrderedTree Placed) : scopesAll (absorbed s) ⊆ scopes s := by
  by_cases hb : s.label.kind.isBlock = true
  · obtain ⟨p, ss⟩ := s
    rw [absorbed_of_block (p := p) hb, scopes]
    exact List.subset_append_right _ _
  · rw [absorbed_of_other (by simpa using hb), scopesAll, scopesAll, List.append_nil]
    exact List.Subset.refl _

/-! ## Hygiene is enough -/

/-- Meanings that agree on the free names of a list of trees agree, after the first one, on the free
names of the others. -/
theorem agree_after (h : ∀ x ∈ freeAll (s :: ss), m' x = m x) :
    ∀ x ∈ freeAll ss, m'.declare (declares s) x = m.declare (declares s) x := fun x hx =>
  declare_congr fun hn => h x (List.mem_append_right _ (List.mem_filter.mpr ⟨hx, by simpa using hn⟩))

mutual

theorem uses_flat : ∀ (s : OrderedTree Placed) {s' : OrderedTree Placed} {m m' : Meaning},
    Flat s s' → Hygienic s → (∀ x ∈ free s, m' x = m x) → uses m' s' = uses m s
  | .node p ss, _, m, m', ⟨p', ss', hall, hk, hp, e⟩, ⟨hapart, hss⟩, hm => by
    subst e
    by_cases hb : p.kind.isBlock = true
    · have hblock := eq_of_isBlock hb
      have hfree : ∀ x ∈ freeAll ss, m' x = m x := fun x hx => hm x (by
        simpa [Names.free, entered, hblock, NodeKind.name?] using hx)
      rw [uses, uses, hk, if_pos hb, entered, entered, hk, hblock]
      exact congrArg _ (usesAll_flatMap_absorbed ss hall hss (hapart hb) hfree)
    · rw [Bool.not_eq_true] at hb
      have hfree : ∀ x ∈ freeAll ss,
          m'.declare (entered p (ss.map (·.label.kind))) x =
            m.declare (entered p (ss.map (·.label.kind))) x := fun x hx =>
        declare_congr fun hn =>
          hm x (List.mem_append_right _ (List.mem_filter.mpr ⟨hx, by simpa using hn⟩))
      rw [hp hb, hb, if_neg Bool.false_ne_true, uses, uses, kinds_flat hall,
        usesAll_flat ss hall hss hfree]
      congr 1
      cases hx : p.kind.name? with
      | none => rfl
      | some x => rw [Option.map_some, Option.map_some, hm x (by simp [Names.free, hx])]

theorem usesAll_flat : ∀ (ss : List (OrderedTree Placed)) {ss' : List (OrderedTree Placed)}
    {m m' : Meaning}, FlatAll ss ss' → HygienicAll ss → (∀ x ∈ freeAll ss, m' x = m x) →
      usesAll m' ss' = usesAll m ss
  | [], _, m, m', e, _, _ => by rw [show _ = [] from e]; rfl
  | s :: ss, _, m, m', ⟨s', ss', e, hs, hss⟩, ⟨hy, hys⟩, hm => by
    rw [e, usesAll, usesAll, declares_flat s hs, usesAll_flat ss hss hys (agree_after hm),
      uses_flat s hs hy fun x hx => hm x (List.mem_append_left _ hx)]

theorem usesAll_flatMap_absorbed : ∀ (ss : List (OrderedTree Placed))
    {ss' : List (OrderedTree Placed)} {m m' : Meaning}, FlatAll ss ss' → HygienicAll ss → Apart ss →
      (∀ x ∈ freeAll ss, m' x = m x) → usesAll m' (ss'.flatMap absorbed) = usesAll m ss
  | [], _, m, m', e, _, _, _ => by rw [show _ = [] from e]; rfl
  | s :: ss, _, m, m', ⟨s', ss', e, hs, hss⟩, ⟨hy, hys⟩, ⟨hfree, _, happ⟩, hm => by
    -- The variables of an inner block do not occur free after it, so it does not matter that they
    -- are known there now.
    have hafter : ∀ x ∈ freeAll ss, m'.declare (exposed s) x = m.declare (declares s) x := by
      intro x hx
      by_cases hb : s.label.kind.isBlock = true
      · have hd : declares s = [] := by
          cases s
          exact declares_of_isBlock hb
        have hn : x ∉ (exposed s).map (·.1) := fun hn => by
          obtain ⟨d, hd, rfl⟩ := List.mem_map.mp hn
          exact hfree hb d hd hx
        rw [declare_of_not_mem hn, hd]
        exact hm x (List.mem_append_right _ (List.mem_filter.mpr ⟨hx, by simp [hd]⟩))
      · rw [exposed_of_not_isBlock (by simpa using hb)]
        exact agree_after hm x hx
    rw [e, List.flatMap_cons, usesAll_append, usesAll_absorbed, declaresAll_absorbed s hs, usesAll,
      usesAll_flatMap_absorbed ss hss hys happ hafter,
      uses_flat s hs hy fun x hx => hm x (List.mem_append_left _ hx)]

end

theorem NoMerge.mono {sc sc₁ sc' : List (List Declared)} (h : NoMerge sc sc') (hs : sc ⊆ sc₁) :
    NoMerge sc₁ sc' := fun l' hl' d hd e he hde =>
  let ⟨l, hl, hm⟩ := h l' hl' d hd e he hde
  ⟨l, hs hl, hm⟩

theorem NoMerge.append {sc sc₁ sc₂ : List (List Declared)} (h₁ : NoMerge sc sc₁)
    (h₂ : NoMerge sc sc₂) : NoMerge sc (sc₁ ++ sc₂) := fun l' hl' =>
  (List.mem_append.mp hl').elim (h₁ l') (h₂ l')

theorem mem_exposedAll {d : Declared} : d ∈ exposedAll ss ↔ ∃ s ∈ ss, d ∈ exposed s := by
  induction ss with
  | nil => simp [exposedAll]
  | cons s ss ih => simp [exposedAll, ih]

theorem mem_declaresAll {d : Declared} : d ∈ declaresAll ss ↔ ∃ s ∈ ss, d ∈ declares s := by
  induction ss with
  | nil => simp [declaresAll]
  | cons s ss ih => simp [declaresAll, ih]

mutual

/-- Variables of one name that a block exposes are from one scope in it. -/
theorem noMerge_exposed : ∀ (s : OrderedTree Placed), Hygienic s → s.label.kind.isBlock = true →
    NoMerge (scopes s) [exposed s]
  | .node p ss, ⟨hapart, hss⟩, hb => by
    have h := noMerge_exposedAll ss hss (hapart hb)
    have hk : p.kind = .stmt .block := eq_of_isBlock hb
    rw [scopes, exposed, hk]
    exact h

theorem noMerge_exposedAll : ∀ (ss : List (OrderedTree Placed)), HygienicAll ss → Apart ss →
    NoMerge (declaresAll ss :: scopesAll ss) [exposedAll ss]
  | [], _, _ => fun l' hl' d hd => by
    rw [List.mem_singleton.mp hl'] at hd
    cases hd
  | s :: ss, ⟨hy, hys⟩, ⟨_, hdist, happ⟩ => by
    intro l' hl' d hd e he hde
    rw [List.mem_singleton.mp hl', exposedAll, List.mem_append] at hd he
    -- Variables of one name from different statements are declared by both themselves.
    have hboth : ∀ {d e : Declared}, d.1 = e.1 → d ∈ exposed s → e ∈ exposedAll ss →
        d ∈ declaresAll (s :: ss) ∧ e ∈ declaresAll (s :: ss) := by
      intro d e hde hd he
      obtain ⟨u, hu, he⟩ := mem_exposedAll.mp he
      have hns : s.label.kind.isBlock = false := by
        by_contra hb
        exact hdist u hu (.inl (by simpa using hb)) d hd e he hde
      have hnu : u.label.kind.isBlock = false := by
        by_contra hb
        exact hdist u hu (.inr (by simpa using hb)) d hd e he hde
      rw [exposed_of_not_isBlock hns] at hd
      rw [exposed_of_not_isBlock hnu] at he
      exact ⟨List.mem_append_left _ hd, List.mem_append_right _ (mem_declaresAll.mpr ⟨u, hu, he⟩)⟩
    rcases hd with hd | hd <;> rcases he with he | he
    · by_cases hb : s.label.kind.isBlock = true
      · obtain ⟨l, hl, hm⟩ := noMerge_exposed s hy hb _ (List.mem_singleton.mpr rfl) d hd e he hde
        exact ⟨l, List.mem_cons_of_mem _ (List.mem_append_left _ hl), hm⟩
      · rw [exposed_of_not_isBlock (by simpa using hb)] at hd he
        exact ⟨_, List.mem_cons_self, List.mem_append_left _ hd, List.mem_append_left _ he⟩
    · exact ⟨_, List.mem_cons_self, hboth hde hd he⟩
    · exact ⟨_, List.mem_cons_self, (hboth hde.symm he hd).symm⟩
    · obtain ⟨l, hl, hm⟩ := noMerge_exposedAll ss hys happ _ (List.mem_singleton.mpr rfl) d hd e he hde
      rcases List.mem_cons.mp hl with rfl | hl
      · exact ⟨_, List.mem_cons_self, List.mem_append_right _ hm.1, List.mem_append_right _ hm.2⟩
      · exact ⟨l, List.mem_cons_of_mem _ (List.mem_append_right _ hl), hm⟩

end

theorem scopesAll_flatMap_absorbed_subset (ss : List (OrderedTree Placed)) :
    scopesAll (ss.flatMap absorbed) ⊆ scopesAll ss := by
  induction ss with
  | nil => exact List.Subset.refl _
  | cons s ss ih =>
    rw [List.flatMap_cons, scopesAll_append, scopesAll]
    exact List.append_subset.mpr
      ⟨List.Subset.trans (scopesAll_absorbed_subset s) (List.subset_append_left _ _),
        List.Subset.trans ih (List.subset_append_right _ _)⟩

theorem NoMerge.anti {sc sc₁ sc' : List (List Declared)} (h : NoMerge sc sc') (hs : sc₁ ⊆ sc') :
    NoMerge sc sc₁ := fun l' hl' => h l' (hs hl')

mutual

theorem noMerge_flat : ∀ (s : OrderedTree Placed) {s' : OrderedTree Placed}, Flat s s' →
    Hygienic s → NoMerge (scopes s) (scopes s')
  | .node p ss, _, ⟨p', ss', hall, hk, hp, e⟩, ⟨hapart, hss⟩ => by
    subst e
    have hbelow := (noMergeAll_flat ss hall hss).mono
      (List.subset_append_right (if isScope p.kind then [declaresAll ss] else []) (scopesAll ss))
    by_cases hb : p.kind.isBlock = true
    · have hexposed := noMerge_exposedAll ss hss (hapart hb)
      have hscope : isScope p.kind = true := by
        rw [eq_of_isBlock hb]
        rfl
      rw [hscope] at hbelow
      rw [← declaresAll_flatMap_absorbed ss hall] at hexposed
      rw [scopes, scopes, if_pos hb, hk, hscope]
      exact hexposed.append (hbelow.anti (scopesAll_flatMap_absorbed_subset ss'))
    · rw [Bool.not_eq_true] at hb
      rw [hp hb, hb, if_neg Bool.false_ne_true, scopes, scopes, declaresAll_flat ss hall]
      refine NoMerge.append (fun l' hl' d hd e he _ => ?_) hbelow
      exact ⟨l', List.mem_append_left _ hl', hd, he⟩

theorem noMergeAll_flat : ∀ (ss : List (OrderedTree Placed)) {ss' : List (OrderedTree Placed)},
    FlatAll ss ss' → HygienicAll ss → NoMerge (scopesAll ss) (scopesAll ss')
  | [], _, e, _ => by
    rw [show _ = [] from e]
    exact fun l' hl' => nomatch hl'
  | s :: ss, _, ⟨s', ss', e, hs, hss⟩, ⟨hy, hys⟩ => by
    rw [e, scopesAll, scopesAll]
    exact ((noMerge_flat s hs hy).mono (List.subset_append_left _ _)).append
      ((noMergeAll_flat ss hss hys).mono (List.subset_append_right _ _))

end

/-! ## Hygiene is needed -/

/-- Nothing that a name stands for is declared in the nodes `ids`. -/
def Outside (m : Meaning) (ids : List NodeId) : Prop :=
  ∀ (x : String) (d : Declaration), m x = some d → d.node ∉ ids

theorem Outside.declare {ids : List NodeId} {ds : List Declared} (h : Outside m ids)
    (hd : ∀ d ∈ ds, d.2.node ∉ ids) : Outside (m.declare ds) ids := by
  intro x d hx
  rcases declare_cases m ds x with he | ⟨e, he, hxe⟩
  · exact h x d (he ▸ hx)
  · rw [hx, Option.some.injEq] at hxe
    exact hxe ▸ hd _ he

theorem Outside.mono {ids ids' : List NodeId} (h : Outside m ids) (hs : ids' ⊆ ids) :
    Outside m ids' := fun x d hx hm => h x d hx (hs hm)

mutual

theorem length_uses_flat : ∀ (s : OrderedTree Placed) {s' : OrderedTree Placed} (m m' : Meaning),
    Flat s s' → (uses m' s').length = (uses m s).length
  | .node p ss, _, m, m', ⟨p', ss', hall, hk, hp, e⟩ => by
    subst e
    rw [uses, uses, hk]
    by_cases hb : p.kind.isBlock = true
    · rw [if_pos hb, List.length_append, List.length_append,
        length_usesAll_flatMap_absorbed ss _ _ hall]
      cases p.kind.name? <;> rfl
    · rw [if_neg hb, List.length_append, List.length_append, length_usesAll_flat ss _ _ hall]
      cases p.kind.name? <;> rfl

theorem length_usesAll_flat : ∀ (ss : List (OrderedTree Placed)) {ss' : List (OrderedTree Placed)}
    (m m' : Meaning), FlatAll ss ss' → (usesAll m' ss').length = (usesAll m ss).length
  | [], _, m, m', e => by rw [show _ = [] from e]; rfl
  | s :: ss, _, m, m', ⟨s', ss', e, hs, hss⟩ => by
    rw [e, usesAll, usesAll, List.length_append, List.length_append, length_uses_flat s m m' hs,
      length_usesAll_flat ss _ _ hss]

theorem length_usesAll_flatMap_absorbed : ∀ (ss : List (OrderedTree Placed))
    {ss' : List (OrderedTree Placed)} (m m' : Meaning), FlatAll ss ss' →
      (usesAll m' (ss'.flatMap absorbed)).length = (usesAll m ss).length
  | [], _, m, m', e => by rw [show _ = [] from e]; rfl
  | s :: ss, _, m, m', ⟨s', ss', e, hs, hss⟩ => by
    rw [e, List.flatMap_cons, usesAll_append, usesAll, usesAll_absorbed, List.length_append,
      List.length_append, length_uses_flat s m m' hs, length_usesAll_flatMap_absorbed ss _ _ hss]

end

mutual

theorem exposed_subset : ∀ s : OrderedTree Placed, exposed s ⊆ declarations s
  | .node p ss => by
    rw [exposed]
    split
    · next hb =>
      rw [declarations_of_isBlock hb]
      exact exposedAll_subset ss
    · exact declares_subset _

theorem exposedAll_subset : ∀ ss : List (OrderedTree Placed), exposedAll ss ⊆ declarationsAll ss
  | [] => List.Subset.refl _
  | s :: ss => by
    rw [exposedAll, declarationsAll]
    exact List.append_subset.mpr
      ⟨List.Subset.trans (exposed_subset s) (List.subset_append_left _ _),
        List.Subset.trans (exposedAll_subset ss) (List.subset_append_right _ _)⟩

end

theorem mem_scopesAll {l : List Declared} : l ∈ scopesAll ss ↔ ∃ s ∈ ss, l ∈ scopes s := by
  induction ss with
  | nil => simp [scopesAll]
  | cons s ss ih => simp [scopesAll, ih]

/-- In a tree no two of the trees below a node have a node in common. -/
theorem eq_of_mem_ids {u v : OrderedTree Placed} {x : NodeId} :
    ∀ {ss : List (OrderedTree Placed)}, (idsAll ss).Nodup → u ∈ ss → v ∈ ss → x ∈ u.ids →
      x ∈ v.ids → u = v
  | s :: ss, hd, hu, hv, hxu, hxv => by
    rw [idsAll_cons, List.nodup_append] at hd
    have hnot : ∀ {w : OrderedTree Placed}, w ∈ ss → x ∈ w.ids → x ∉ s.ids := fun hw hxw hxs =>
      hd.2.2 _ hxs _ (mem_idsAll.mpr ⟨_, hw, hxw⟩) rfl
    rcases List.mem_cons.mp hu with e | hu' <;> rcases List.mem_cons.mp hv with e' | hv'
    · exact e.trans e'.symm
    · exact absurd (e ▸ hxu) (hnot hv' hxv)
    · exact absurd (e' ▸ hxv) (hnot hu' hxu)
    · exact eq_of_mem_ids hd.2.1 hu' hv' hxu hxv

/-- What is in a tree is declared by it if it is declared by one of the trees beside it. -/
theorem mem_declares_of_mem {d : Declared} (hd : (idsAll ss).Nodup) (hs : s ∈ ss)
    (h : d ∈ declarations s) (hm : d ∈ declaresAll ss) : d ∈ declares s := by
  obtain ⟨v, hv, hdv⟩ := mem_declaresAll.mp hm
  have e := eq_of_mem_ids hd hs hv (declarations_within s d h)
    (declarations_within v d (declares_subset v hdv))
  exact e ▸ hdv

/-- Variables in one of several trees that are in one of the scopes or declared together, are so in that
tree already. -/
theorem NoMerge.part {sc : List (List Declared)} (hd : (idsAll ss).Nodup) (hs : s ∈ ss)
    (hsc : ∀ l ∈ sc, l ⊆ declarations s) (h : NoMerge (declaresAll ss :: scopesAll ss) sc) :
    NoMerge (declares s :: scopes s) sc := by
  intro l' hl' d hd' e he' hde
  have hds := hsc l' hl' hd'
  have hes := hsc l' hl' he'
  obtain ⟨l, hl, hdl, hel⟩ := h l' hl' d hd' e he' hde
  rcases List.mem_cons.mp hl with rfl | hl
  · exact ⟨_, List.mem_cons_self, mem_declares_of_mem hd hs hds hdl,
      mem_declares_of_mem hd hs hes hel⟩
  · obtain ⟨v, hv, hlv⟩ := mem_scopesAll.mp hl
    have e := eq_of_mem_ids hd hs hv (declarations_within s d hds)
      (declarations_within v d (scopes_subset v l hlv hdl))
    exact ⟨l, List.mem_cons_of_mem _ (e ▸ hlv), hdl, hel⟩

theorem not_mem_declares_of_isBlock {d : Declared} (hb : s.label.kind.isBlock = true) :
    d ∉ declares s := by
  obtain ⟨p, ss⟩ := s
  rw [declares_of_isBlock (p := p) hb]
  exact List.not_mem_nil

/-- If a block does not get variables of one name from different scopes, those that an inner block
exposes have other names than those of the other statements. -/
theorem exposed_apart {u : OrderedTree Placed} (hd : (idsAll ss).Nodup)
    (hn : NoMerge (declaresAll ss :: scopesAll ss) [exposedAll ss]) (hs : s ∈ ss) (hu : u ∈ ss)
    (hne : s ≠ u) (hb : s.label.kind.isBlock = true ∨ u.label.kind.isBlock = true) :
    ∀ d ∈ exposed s, ∀ e ∈ exposed u, d.1 ≠ e.1 := by
  intro d hds e heu hde
  have hdd := exposed_subset s hds
  have hee := exposed_subset u heu
  obtain ⟨l, hl, hdl, hel⟩ := hn _ (List.mem_singleton.mpr rfl) d
    (mem_exposedAll.mpr ⟨s, hs, hds⟩) e (mem_exposedAll.mpr ⟨u, hu, heu⟩) hde
  rcases List.mem_cons.mp hl with rfl | hl
  · rcases hb with hb | hb
    · exact not_mem_declares_of_isBlock hb (mem_declares_of_mem hd hs hdd hdl)
    · exact not_mem_declares_of_isBlock hb (mem_declares_of_mem hd hu hee hel)
  · obtain ⟨v, hv, hlv⟩ := mem_scopesAll.mp hl
    have hwithin := fun {d} hdl => declarations_within v d (scopes_subset v l hlv hdl)
    have h₁ := eq_of_mem_ids hd hs hv (declarations_within s d hdd) (hwithin hdl)
    have h₂ := eq_of_mem_ids hd hu hv (declarations_within u e hee) (hwithin hel)
    exact hne (h₁.trans h₂.symm)

/-- If the names and the scopes of the statements of a block are kept, the statements are apart. -/
theorem apart_of_kept {all : List (OrderedTree Placed)} (hd : (idsAll all).Nodup)
    (hn : NoMerge (declaresAll all :: scopesAll all) [exposedAll all]) :
    ∀ (ss : List (OrderedTree Placed)) {ss' : List (OrderedTree Placed)} {m m' : Meaning},
      (∀ s ∈ ss, s ∈ all) → (idsAll ss).Nodup → FlatAll ss ss' → Outside m (idsAll ss) →
      usesAll m' (ss'.flatMap absorbed) = usesAll m ss → Apart ss
  | [], _, _, _, _, _, _, _, _ => trivial
  | s :: ss, _, m, m', hall, hnd, ⟨s', ss', e, hs, hss⟩, hm, hu => by
    subst e
    rw [List.flatMap_cons, usesAll_append, usesAll_absorbed, declaresAll_absorbed s hs, usesAll] at hu
    obtain ⟨-, hu⟩ := List.append_inj hu (length_uses_flat s m m' hs)
    rw [idsAll_cons] at hnd hm
    obtain ⟨-, hnd', hdisj⟩ := List.nodup_append.mp hnd
    have hne : ∀ u ∈ ss, s ≠ u := by
      rintro u hu rfl
      exact hdisj _ s.id_mem_ids _ (mem_idsAll.mpr ⟨s, hu, s.id_mem_ids⟩) rfl
    have hout : Outside (m.declare (declares s)) (idsAll ss) :=
      (hm.mono (List.subset_append_right _ _)).declare fun d hds hm =>
        hdisj _ (declarations_within s d (declares_subset s hds)) _ hm rfl
    refine ⟨fun hb d hds hfree => ?_, fun u hu hb => ?_,
      apart_of_kept hd hn ss (fun u hu => hall u (List.mem_cons_of_mem _ hu)) hnd' hss hout hu⟩
    · -- The name stands for something outside the block, but now for the variable of the inner block.
      have hdecl : declares s = [] := List.eq_nil_iff_forall_not_mem.mpr fun d =>
        not_mem_declares_of_isBlock hb
      rw [hdecl] at hu
      obtain ⟨id, huse⟩ := exists_useAll_of_free ss d.1 hfree
      obtain ⟨v, hv, hev⟩ := mem_of_declare (m := m') (List.mem_map_of_mem hds)
      have huse' := huse m
      rw [show m.declare [] = m from rfl] at hu
      rw [← hu] at huse'
      rcases declaration_of_mem_usesAll _ _ _ huse' with he | ⟨w, hw, he⟩
      · have hnode := declarations_within s _ (exposed_subset s hv)
        exact hm d.1 v (he.trans hev) (List.mem_append_left _ hnode)
      · rw [declarationsAll_flatMap_absorbed ss hss] at hw
        exact hm d.1 w.2 he (List.mem_append_right _ (declarationsAll_within ss w hw))
    · exact exposed_apart hd hn (hall s List.mem_cons_self) (hall u (List.mem_cons_of_mem _ hu))
        (hne u hu) hb

/-- The names of each of the trees are kept, whatever stands before them. -/
def KeptAll (m : Meaning) : List (OrderedTree Placed) → List (OrderedTree Placed) → Prop
  | s :: ss, s' :: ss' => (∃ m', uses m' s' = uses m s) ∧ KeptAll (m.declare (declares s)) ss ss'
  | _, _ => True

theorem keptAll_of_usesAll : ∀ {ss ss' : List (OrderedTree Placed)} {m m' : Meaning}, FlatAll ss ss' →
    usesAll m' ss' = usesAll m ss → KeptAll m ss ss'
  | [], _, _, _, e, _ => by rw [show _ = [] from e]; trivial
  | s :: ss, _, m, m', ⟨s', ss', e, hs, hss⟩, hu => by
    subst e
    rw [usesAll, usesAll] at hu
    obtain ⟨h₁, h₂⟩ := List.append_inj hu (length_uses_flat s m m' hs)
    exact ⟨⟨m', h₁⟩, keptAll_of_usesAll hss h₂⟩

theorem keptAll_of_flatMap : ∀ {ss ss' : List (OrderedTree Placed)} {m m' : Meaning}, FlatAll ss ss' →
    usesAll m' (ss'.flatMap absorbed) = usesAll m ss → KeptAll m ss ss'
  | [], _, _, _, e, _ => by rw [show _ = [] from e]; trivial
  | s :: ss, _, m, m', ⟨s', ss', e, hs, hss⟩, hu => by
    subst e
    rw [List.flatMap_cons, usesAll_append, usesAll_absorbed, usesAll] at hu
    obtain ⟨h₁, h₂⟩ := List.append_inj hu (length_uses_flat s m m' hs)
    exact ⟨⟨m', h₁⟩, keptAll_of_flatMap hss h₂⟩

/-- The scopes of an inner block are those of the block that it is folded into, or exposed to it. -/
theorem NoMerge.unfold {sc : List (List Declared)} : ∀ {ss ss' : List (OrderedTree Placed)},
    FlatAll ss ss' → NoMerge sc (exposedAll ss :: scopesAll (ss'.flatMap absorbed)) →
      NoMerge sc (scopesAll ss')
  | [], _, e, _ => by
    rw [show _ = [] from e]
    exact fun l' hl' => nomatch hl'
  | s :: ss, _, ⟨s', ss', e, hs, hss⟩, h => by
    subst e
    rw [List.flatMap_cons, scopesAll_append] at h
    have htail : NoMerge sc (exposedAll ss :: scopesAll (ss'.flatMap absorbed)) := by
      intro l' hl' d hd e he hde
      rcases List.mem_cons.mp hl' with rfl | hl'
      · exact h _ List.mem_cons_self d (List.mem_append_right _ hd) e (List.mem_append_right _ he) hde
      · exact h l' (by simp [hl']) d hd e he hde
    refine NoMerge.append (fun l' hl' d hd e he hde => ?_) (NoMerge.unfold hss htail)
    by_cases hb : s'.label.kind.isBlock = true
    · obtain ⟨p, cs⟩ := s'
      have hk : p.kind = .stmt .block := eq_of_isBlock hb
      rw [absorbed_of_block (p := p) hb] at h
      rw [scopes, hk] at hl'
      rcases List.mem_cons.mp hl' with rfl | hl'
      · have hexp := declaresAll_absorbed s hs
        rw [absorbed_of_block (p := p) hb] at hexp
        rw [hexp] at hd he
        exact h _ List.mem_cons_self d (List.mem_append_left _ hd) e (List.mem_append_left _ he) hde
      · exact h l' (by simp at hl'; simp [hl']) d hd e he hde
    · rw [absorbed_of_other (by simpa using hb)] at h
      exact h l' (by simp [scopesAll, hl']) d hd e he hde

mutual

theorem hygienic_of_kept : ∀ (s : OrderedTree Placed) {s' : OrderedTree Placed} {m m' : Meaning},
    Flat s s' → s.ids.Nodup → Outside m s.ids → uses m' s' = uses m s →
      NoMerge (declares s :: scopes s) (scopes s') → Hygienic s
  | .node p ss, _, m, m', ⟨p', ss', hall, hk, hp, e⟩, hd, hm, hu, hn => by
    subst e
    rw [ids_node, List.nodup_cons] at hd
    rw [ids_node] at hm
    have hlen : ((p'.kind.name?.map fun x => (⟨p'.id, x, m' x⟩ : Use)).toList).length =
        ((p.kind.name?.map fun x => (⟨p.id, x, m x⟩ : Use)).toList).length := by
      rw [hk]
      cases p.kind.name? <;> rfl
    rw [uses, uses] at hu
    have hu := (List.append_inj hu hlen).2
    have hout : Outside (m.declare (entered p (ss.map (·.label.kind)))) (idsAll ss) :=
      (hm.mono (List.subset_cons_self _ _)).declare fun d hd' hmem =>
        hd.1 (node_of_mem_entered hd' ▸ hmem)
    by_cases hb : p.kind.isBlock = true
    · have hblock := eq_of_isBlock hb
      rw [if_pos hb] at hu
      have hn' : NoMerge (declaresAll ss :: scopesAll ss)
          (exposedAll ss :: scopesAll (ss'.flatMap absorbed)) := by
        intro l' hl' d hd' e he hde
        have hl'' : l' ∈ scopes (node p' (ss'.flatMap absorbed)) := by
          rw [scopes, hk, hblock, declaresAll_flatMap_absorbed ss hall]
          exact hl'
        rw [if_pos hb] at hn
        obtain ⟨l, hl, hdl, hel⟩ := hn l' hl'' d hd' e he hde
        rcases List.mem_cons.mp hl with rfl | hl
        · exact absurd hdl (not_mem_declares_of_isBlock (s := .node p ss) hb)
        · rw [scopes, hblock] at hl
          exact ⟨l, hl, hdl, hel⟩
      exact ⟨fun _ => apart_of_kept hd.2 (hn'.anti (by simp)) ss (fun _ h => h) hd.2 hall hout hu,
        hygienicAll_of_kept hd.2 ss (fun _ h => h) hall hd.2 hout (keptAll_of_flatMap hall hu)
          (hn'.unfold hall)⟩
    · rw [Bool.not_eq_true] at hb
      rw [hb, if_neg Bool.false_ne_true] at hu
      refine ⟨fun hb' => ?_, hygienicAll_of_kept hd.2 ss (fun _ h => h) hall hd.2 hout
        (keptAll_of_usesAll hall hu) fun l' hl' d hd' e he hde => ?_⟩
      · rw [hb] at hb'
        cases hb'
      · have hl'' : l' ∈
            scopes (node p' (if p.kind.isBlock = true then ss'.flatMap absorbed else ss')) := by
          rw [hb, if_neg Bool.false_ne_true, scopes]
          exact List.mem_append_right _ hl'
        obtain ⟨l, hl, hdl, hel⟩ := hn l' hl'' d hd' e he hde
        have hbelow : ∀ {d : Declared}, d ∈ l' → d ∉ declaration p := fun {d} hd' hdp => by
          have hw := declarationsAll_within ss d
            (declarationsAll_flat ss hall ▸ scopesAll_subset ss' l' hl' hd')
          exact hd.1 (node_of_mem_declaration hdp ▸ hw)
        rcases List.mem_cons.mp hl with rfl | hl
        · rw [declares] at hdl hel
          split at hdl
          · cases hdl
          · rw [if_neg (by assumption)] at hel
            exact ⟨_, List.mem_cons_self, (List.mem_append.mp hdl).resolve_right (hbelow hd'),
              (List.mem_append.mp hel).resolve_right (hbelow he)⟩
        · rw [scopes] at hl
          rcases List.mem_append.mp hl with hl | hl
          · split at hl
            · exact ⟨l, List.mem_cons.mpr (.inl (List.mem_singleton.mp hl)), hdl, hel⟩
            · cases hl
          · exact ⟨l, List.mem_cons_of_mem _ hl, hdl, hel⟩

theorem hygienicAll_of_kept {all : List (OrderedTree Placed)} (hd : (idsAll all).Nodup) :
    ∀ (ss : List (OrderedTree Placed)) {ss' : List (OrderedTree Placed)} {m : Meaning},
      (∀ s ∈ ss, s ∈ all) → FlatAll ss ss' → (idsAll ss).Nodup → Outside m (idsAll ss) →
      KeptAll m ss ss' → NoMerge (declaresAll all :: scopesAll all) (scopesAll ss') → HygienicAll ss
  | [], _, _, _, _, _, _, _, _ => trivial
  | s :: ss, _, m, hall, ⟨s', ss', e, hs, hss⟩, hnd, hm, hu, hn => by
    subst e
    obtain ⟨⟨m', h₁⟩, h₂⟩ := hu
    rw [idsAll_cons] at hnd hm
    obtain ⟨hns, hnd', hdisj⟩ := List.nodup_append.mp hnd
    have hout : Outside (m.declare (declares s)) (idsAll ss) :=
      (hm.mono (List.subset_append_right _ _)).declare fun d hds hm =>
        hdisj _ (declarations_within s d (declares_subset s hds)) _ hm rfl
    have hpart : NoMerge (declares s :: scopes s) (scopes s') := by
      refine (hn.anti (List.subset_append_left _ _)).part hd (hall s List.mem_cons_self) fun l hl => ?_
      rw [← declarations_flat s hs]
      exact scopes_subset s' l hl
    exact ⟨hygienic_of_kept s hs hns (hm.mono (List.subset_append_left _ _)) h₁ hpart,
      hygienicAll_of_kept hd ss (fun u hu => hall u (List.mem_cons_of_mem _ hu)) hss hnd' hout h₂
        (hn.anti (List.subset_append_right _ _))⟩

end

/-! ## Folding a program -/

/-- In a tree, folding blocks keeps what names mean exactly if the tree is hygienic. -/
theorem keepsNames_iff (h : Flat s s') (hd : s.ids.Nodup) : KeepsNames s s' ↔ Hygienic s := by
  refine ⟨fun ⟨hu, hn⟩ => ?_, fun hy => ⟨uses_flat s h hy fun _ _ => rfl, noMerge_flat s h hy⟩⟩
  exact hygienic_of_kept s h hd (fun x d hx => by cases hx) hu
    (hn.mono (List.subset_cons_self _ _))

/-- Folding the blocks of a program succeeds and gives a flat tree. -/
theorem run_fold_ofUnit (unit : CompilationUnit) : ∃ c t' s s',
    (fold (ofUnit unit).root).run (ofUnit unit) = .ok c t' ∧
      (ofUnit unit).subtree? (ofUnit unit).root = some s ∧ t'.subtree? t'.root = some s' ∧
      Flat s s' ∧ s.ids.Nodup := by
  have h := holds_ofUnit unit
  obtain ⟨ss, ss', c, t', hs, -, hwalk, hwf', hroot, hs', hrun⟩ := h.run_walk visitor_does rfl
  exact ⟨c, t', _, _, hrun, h.wellFormed.subtree?_of_shows hs, hwf'.subtree?_of_shows hs',
    ⟨t'.top, ss', flatAll_of_walkedAll hwalk, rfl, fun _ => by rw [top, hroot], rfl⟩,
    Shows.nodup_ids h.wellFormed.toLinked _ hs⟩

/-- Folding the blocks of a program always succeeds. All names then stand for what they stood for
before, and no scope holds two variables of one name from different scopes, exactly if no variable of
an inner block has a name that occurs free after the block or that another statement of the outer block
exposes. -/
theorem fold_keepsNames_iff (unit : CompilationUnit) : ∃ c t' s s',
    (PassKind.blockFolding.fold (ofUnit unit).root).run (ofUnit unit) = .ok c t' ∧
      (ofUnit unit).subtree? (ofUnit unit).root = some s ∧ t'.subtree? t'.root = some s' ∧
      (KeepsNames s s' ↔ Hygienic s) := by
  obtain ⟨c, t', s, s', hrun, hs, hs', hflat, hd⟩ := run_fold_ofUnit unit
  exact ⟨c, t', s, s', hrun, hs, hs', keepsNames_iff hflat hd⟩

/-- Whether the program of a source text is hygienic, if the text is one of a program. -/
def hygienicSource? (source : String) : Option Bool :=
  match CompilationUnit.ofSource? source with
  | .error _ => none
  | .ok (unit, _) => ((ofUnit unit).subtree? (ofUnit unit).root).map fun s => decide (Hygienic s)

/-- A variable of an inner block that has the name of a field catches the name of the field. -/
theorem fold_catches_field : ∃ unit comments,
    CompilationUnit.ofSource? "class A { int x; void m() { { int x = 1; } f(x); } }" =
        .ok (unit, comments) ∧
      ∃ c t' s s', (PassKind.blockFolding.fold (ofUnit unit).root).run (ofUnit unit) = .ok c t' ∧
        (ofUnit unit).subtree? (ofUnit unit).root = some s ∧ t'.subtree? t'.root = some s' ∧
        ¬ KeepsNames s s' := by
  have hnot : hygienicSource? "class A { int x; void m() { { int x = 1; } f(x); } }" =
      some false := by decide +kernel
  unfold hygienicSource? at hnot
  split at hnot
  · cases hnot
  · next unit comments hsource =>
    obtain ⟨c, t', s, s', hrun, hs, hs', hflat, hd⟩ := run_fold_ofUnit unit
    rw [hs, Option.map_some, Option.some.injEq, decide_eq_false_iff_not] at hnot
    exact ⟨unit, comments, hsource, c, t', s, s', hrun, hs, hs',
      fun hk => hnot ((keepsNames_iff hflat hd).mp hk)⟩

end Blocks

end JavaFold
