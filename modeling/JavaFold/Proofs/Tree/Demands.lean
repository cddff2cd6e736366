import JavaFold.Proofs.Tree.Relink

/-!
# What edits demand

An edit has demands on the tree, each with the error that tells that it is not met, and it looks at them in one
order (`Demand.adoptable` and others). It is refused with the error of the first one that is not met, and the
tree stays as it was; if all are met, it succeeds (`Edit.Decides`). The demands are put in terms of links: being
above a node is being its parent, or its parent's parent, and so on.
-/

namespace JavaFold

open JavaFold.Tree

/-- A demand on a tree, and the error that tells that it is not met. -/
structure Demand where
  error : TreeError
  met : Prop

namespace Demand

variable (t : Tree)

def live (id : NodeId) : Demand := ⟨.stale id, ∃ n, t.get? id = some n⟩

def floating (id : NodeId) : List Demand :=
  [live t id, ⟨.attached id, id ≠ t.root ∧ ∀ p, ¬ t.IsParent p id⟩]

/-- The nodes are floating, and none is listed twice, given those listed before. -/
def adoptees (seen : List NodeId) : List NodeId → List Demand
  | [] => []
  | id :: ids => floating t id ++ ⟨.attached id, id ∉ seen⟩ :: adoptees (id :: seen) ids

def notAbove (c p : NodeId) : Demand := ⟨.wouldCycle c, ¬ t.Above c p⟩

/-- The floating `child` can be put below `parent`. -/
def adoptable (parent child : NodeId) : List Demand :=
  live t parent :: (floating t child ++ [notAbove t child parent])

def notPastEnd (parent : NodeId) (index : Nat) : Demand :=
  ⟨.indexPastEnd parent index, ∀ n, t.get? parent = some n → index ≤ n.children.length⟩

def notRoot (id : NodeId) : Demand := ⟨.rootReplacement id, id ≠ t.root⟩

/-- The node can be taken out of its parent. -/
def attached (id : NodeId) : List Demand := [live t id, notRoot t id, ⟨.detached id, ∃ p, t.IsParent p id⟩]

def isUnit (id : NodeId) : Demand := ⟨.invalidRoot id, ∀ n, t.get? id = some n → n.kind = .unit⟩

variable {t} {id : NodeId}

theorem get?_of_not_live (h : ¬ (live t id).met) : t.get? id = none :=
  Option.eq_none_iff_forall_ne_some.mpr fun n hn => h ⟨n, hn⟩

end Demand

/-- All demands are met. -/
def AllMet (ds : List Demand) : Prop := ∀ d ∈ ds, d.met

/-- The error is that of the first demand that is not met. -/
inductive FirstUnmet : List Demand → TreeError → Prop
  | head {d : Demand} {ds : List Demand} : ¬ d.met → FirstUnmet (d :: ds) d.error
  | tail {d : Demand} {ds : List Demand} {e : TreeError} : d.met → FirstUnmet ds e → FirstUnmet (d :: ds) e

section

variable {d : Demand} {ds ds' : List Demand} {e : TreeError}

theorem allMet_nil : AllMet [] := nofun

theorem allMet_cons : AllMet (d :: ds) ↔ d.met ∧ AllMet ds := List.forall_mem_cons

theorem allMet_append : AllMet (ds ++ ds') ↔ AllMet ds ∧ AllMet ds' := List.forall_mem_append

/-- Either all demands are met, or one is the first that is not. -/
theorem allMet_or_firstUnmet : ∀ ds : List Demand, AllMet ds ∨ ∃ e, FirstUnmet ds e
  | [] => .inl allMet_nil
  | d :: ds => by
    by_cases hd : d.met
    · rcases allMet_or_firstUnmet ds with hds | ⟨e, he⟩
      · exact .inl (allMet_cons.mpr ⟨hd, hds⟩)
      · exact .inr ⟨e, .tail hd he⟩
    · exact .inr ⟨d.error, .head hd⟩

namespace FirstUnmet

/-- The first one that is not met is among the former demands, or else among the latter. -/
theorem of_append (h : FirstUnmet (ds ++ ds') e) : FirstUnmet ds e ∨ AllMet ds ∧ FirstUnmet ds' e := by
  induction ds with
  | nil => exact .inr ⟨allMet_nil, h⟩
  | cons d ds ih =>
    cases h with
    | head hd => exact .inl (.head hd)
    | tail hd h =>
      rcases ih h with h | ⟨hall, h⟩
      · exact .inl (.tail hd h)
      · exact .inr ⟨allMet_cons.mpr ⟨hd, hall⟩, h⟩

end FirstUnmet

end

namespace Edit

variable {α β : Type} {t t' : Tree} {d : Demand} {ds ds' : List Demand} {e : TreeError}

/-- The demands decide what an edit does. If one is not met, the first such one is the cause for which the edit is
refused, and the tree stays as it was; if all are met, the edit gives a value and a tree in the relation `R`. -/
structure Decides (x : Edit α) (t : Tree) (ds : List Demand) (R : α → Tree → Prop) : Prop where
  refused {e : TreeError} : FirstUnmet ds e → x.run t = .error e t
  done : AllMet ds → ∃ a t', x.run t = .ok a t' ∧ R a t'

namespace Decides

variable {x : Edit α} {f : α → Edit β} {R S : α → Tree → Prop}

/-- An edit succeeds exactly if all demands are met. -/
theorem ok_iff (h : Decides x t ds R) : (∃ a t', x.run t = .ok a t') ↔ AllMet ds := by
  constructor
  · rintro ⟨a, t', hok⟩
    rcases allMet_or_firstUnmet ds with hall | ⟨e, he⟩
    · exact hall
    · rw [h.refused he] at hok
      cases hok
  · intro hall
    obtain ⟨a, t', hok, -⟩ := h.done hall
    exact ⟨a, t', hok⟩

theorem of_ok {a : α} (h : x.run t = .ok a t') (hr : R a t') : Decides x t [] R :=
  ⟨nofun, fun _ => ⟨a, t', h, hr⟩⟩

theorem mono (h : Decides x t ds R) (hi : ∀ a t', R a t' → S a t') : Decides x t ds S := by
  refine ⟨h.refused, fun hall => ?_⟩
  obtain ⟨a, t', hok, hr⟩ := h.done hall
  exact ⟨a, t', hok, hi a t' hr⟩

theorem congr {y : Edit α} (hxy : x.run t = y.run t) (h : Decides y t ds R) : Decides x t ds R := by
  refine ⟨fun he => ?_, fun hall => ?_⟩
  · rw [hxy]
    exact h.refused he
  · rw [hxy]
    exact h.done hall

/-- One more demand, which comes first. -/
theorem demand (hn : ¬ d.met → x.run t = .error d.error t) (h : d.met → Decides x t ds R) :
    Decides x t (d :: ds) R := by
  refine ⟨fun he => ?_, fun hall => ?_⟩
  · cases he with
    | head hd => exact hn hd
    | tail hd he => exact (h hd).refused he
  · obtain ⟨hd, hall⟩ := allMet_cons.mp hall
    exact (h hd).done hall

/-- After a check, which changes nothing. -/
theorem bind {P : α → Prop} {R : β → Tree → Prop} (h : Decides x t ds fun a t' => t' = t ∧ P a)
    (hf : ∀ a, P a → Decides (f a) t ds' R) : Decides (x >>= f) t (ds ++ ds') R := by
  refine ⟨fun he => ?_, fun hall => ?_⟩
  · rcases he.of_append with he | ⟨hall, he⟩
    · simp [h.refused he]
    · obtain ⟨a, t', hx, rfl, ha⟩ := h.done hall
      simp [hx, (hf a ha).refused he]
  · obtain ⟨hall, hall'⟩ := allMet_append.mp hall
    obtain ⟨a, t', hx, rfl, ha⟩ := h.done hall
    obtain ⟨b, t₂, hb, hr⟩ := (hf a ha).done hall'
    exact ⟨b, t₂, by simp [hx, hb], hr⟩

/-- After all checks. -/
theorem last {P : α → Prop} {R : β → Tree → Prop} (h : Decides x t ds fun a t' => t' = t ∧ P a)
    (hf : ∀ a, P a → Decides (f a) t [] R) : Decides (x >>= f) t ds R := by
  rw [← List.append_nil ds]
  exact h.bind hf

end Decides

end Edit

end JavaFold
