import JavaFold.Proofs.Tree.Programs

/-!
# Kinds

The tree of the kinds of a program's parts is what is left when ids and spans are forgotten. The passes
decide by it alone, so trees with the same kinds are dealt with alike. The lemmas here take a tree whose
kinds are known apart.
-/

namespace JavaFold

namespace OrderedTree

variable {α β γ : Type}

mutual

/-- The tree with a function applied to all labels. -/
def map (f : α → β) : OrderedTree α → OrderedTree β
  | node a ts => node (f a) (mapAll f ts)

def mapAll (f : α → β) : List (OrderedTree α) → List (OrderedTree β)
  | [] => []
  | t :: ts => map f t :: mapAll f ts

end

theorem mapAll_eq_map (f : α → β) (ts : List (OrderedTree α)) : mapAll f ts = ts.map (map f) := by
  induction ts with
  | nil => rfl
  | cons t ts ih => rw [mapAll, ih, List.map_cons]

theorem mapAll_append (f : α → β) (ts us : List (OrderedTree α)) :
    mapAll f (ts ++ us) = mapAll f ts ++ mapAll f us := by
  rw [mapAll_eq_map, mapAll_eq_map, mapAll_eq_map, List.map_append]

mutual

theorem map_map (f : α → β) (g : β → γ) : ∀ t : OrderedTree α, (t.map f).map g = t.map (g ∘ f)
  | node a ts => by rw [map, map, map, mapAll_mapAll f g ts, Function.comp_apply]

theorem mapAll_mapAll (f : α → β) (g : β → γ) : ∀ ts : List (OrderedTree α),
    mapAll g (mapAll f ts) = mapAll (g ∘ f) ts
  | [] => rfl
  | t :: ts => by rw [mapAll, mapAll, mapAll, map_map f g t, mapAll_mapAll f g ts]

end

/-- The kinds of the nodes of a tree. -/
abbrev kinds (s : OrderedTree Placed) : OrderedTree NodeKind := s.map Placed.kind

abbrev kindsAll (ss : List (OrderedTree Placed)) : List (OrderedTree NodeKind) :=
  mapAll Placed.kind ss

mutual

theorem map_parts : ∀ s : OrderedTree Placed, s.parts.map Part.kind = s.kinds
  | node p ss => by
    rw [parts, map, kinds, map, mapAll_partsAll ss]
    rfl

theorem mapAll_partsAll : ∀ ss : List (OrderedTree Placed), OrderedTree.mapAll Part.kind (partsAll ss) = kindsAll ss
  | [] => rfl
  | s :: ss => by rw [partsAll, mapAll, kindsAll, mapAll, map_parts s, mapAll_partsAll ss]

end

end OrderedTree

open OrderedTree

/-- The kinds of the parts of an expression. -/
abbrev Expr.kinds (e : Expr) : OrderedTree NodeKind := e.parts.map Part.kind

abbrev Expr.kindsAll (es : List Expr) : List (OrderedTree NodeKind) :=
  OrderedTree.mapAll Part.kind (Expr.partsAll es)

abbrev Expr.optKinds (e : Option Expr) : List (OrderedTree NodeKind) :=
  OrderedTree.mapAll Part.kind (Expr.optParts e)

/-- The kinds of the parts of a statement. -/
abbrev Stmt.kinds (x : Stmt) : OrderedTree NodeKind := x.parts.map Part.kind

abbrev Stmt.kindsAll (xs : List Stmt) : List (OrderedTree NodeKind) :=
  OrderedTree.mapAll Part.kind (Stmt.partsAll xs)

/-- The kinds of the parts of a field or method. -/
abbrev Member.kinds (m : Member) : OrderedTree NodeKind := m.parts.map Part.kind

/-- The kinds of the parts of a class. -/
abbrev ClassDecl.kinds (c : ClassDecl) : OrderedTree NodeKind := c.parts.map Part.kind

theorem OrderedTree.kinds_of_parts {s : OrderedTree Placed} {q : OrderedTree Part} (h : s.parts = q) :
    s.kinds = q.map Part.kind := by
  rw [← map_parts, h]

theorem OrderedTree.kindsAll_of_parts {ss : List (OrderedTree Placed)} {qs : List (OrderedTree Part)}
    (h : partsAll ss = qs) : kindsAll ss = OrderedTree.mapAll Part.kind qs := by
  rw [← mapAll_partsAll, h]

/-! ## Trees of known kinds -/

namespace OrderedTree

variable {s : OrderedTree Placed} {ss : List (OrderedTree Placed)} {k : NodeKind}
  {q q' : OrderedTree NodeKind} {qs us : List (OrderedTree NodeKind)}

theorem kinds_eq_node (h : s.kinds = .node k qs) :
    ∃ id span ts, s = .node ⟨id, k, span⟩ ts ∧ kindsAll ts = qs := by
  obtain ⟨⟨id, kind, span⟩, ts⟩ := s
  rw [kinds, map, node.injEq] at h
  obtain ⟨rfl, rfl⟩ := h
  exact ⟨id, span, ts, rfl, rfl⟩

theorem kindsAll_eq_nil (h : kindsAll ss = []) : ss = [] := by
  cases ss with
  | nil => rfl
  | cons s ss => cases h

theorem kindsAll_eq_cons (h : kindsAll ss = q :: qs) :
    ∃ s ss', ss = s :: ss' ∧ s.kinds = q ∧ kindsAll ss' = qs := by
  cases ss with
  | nil => cases h
  | cons s ss =>
    rw [kindsAll, mapAll, List.cons.injEq] at h
    exact ⟨s, ss, rfl, h.1, h.2⟩

theorem kindsAll_eq_append (h : kindsAll ss = qs ++ us) :
    ∃ ss₁ ss₂, ss = ss₁ ++ ss₂ ∧ kindsAll ss₁ = qs ∧ kindsAll ss₂ = us := by
  rw [kindsAll, mapAll_eq_map] at h
  obtain ⟨ss₁, ss₂, rfl, rfl, rfl⟩ := List.map_eq_append_iff.mp h
  exact ⟨ss₁, ss₂, rfl, mapAll_eq_map .., mapAll_eq_map ..⟩

theorem kindsAll_eq_singleton (h : kindsAll ss = [q]) : ∃ s, ss = [s] ∧ s.kinds = q := by
  obtain ⟨s, ss', rfl, hs, hss⟩ := kindsAll_eq_cons h
  rw [kindsAll_eq_nil hss]
  exact ⟨s, rfl, hs⟩

theorem kindsAll_eq_pair (h : kindsAll ss = [q, q']) :
    ∃ s s', ss = [s, s'] ∧ s.kinds = q ∧ s'.kinds = q' := by
  obtain ⟨s, ss', rfl, hs, hss⟩ := kindsAll_eq_cons h
  obtain ⟨s', rfl, hs'⟩ := kindsAll_eq_singleton hss
  exact ⟨s, s', rfl, hs, hs'⟩

/-- The trees of an expression that may be missing. -/
theorem kindsAll_eq_optKinds {e : Option Expr} (h : kindsAll ss = Expr.optKinds e) :
    (e = none ∧ ss = []) ∨ ∃ e' s, e = some e' ∧ ss = [s] ∧ s.kinds = e'.kinds := by
  cases e with
  | none => exact .inl ⟨rfl, kindsAll_eq_nil h⟩
  | some e =>
    obtain ⟨s, rfl, hs⟩ := kindsAll_eq_singleton h
    exact .inr ⟨e, s, rfl, rfl, hs⟩

/-- The trees of the parts of a loop. -/
theorem kindsAll_eq_looped {c u : Option Expr} {b : OrderedTree Part}
    (h : kindsAll ss = OrderedTree.mapAll Part.kind (Expr.optParts c ++ Expr.optParts u ++ [b])) :
    ∃ sc su sb, ss = sc ++ su ++ [sb] ∧ kindsAll sc = Expr.optKinds c ∧
      kindsAll su = Expr.optKinds u ∧ sb.kinds = b.map Part.kind := by
  rw [mapAll_append, mapAll_append] at h
  obtain ⟨ss₁, ss₂, rfl, h₁, h₂⟩ := kindsAll_eq_append h
  obtain ⟨sc, su, rfl, hc, hu⟩ := kindsAll_eq_append h₁
  obtain ⟨sb, rfl, hb⟩ := kindsAll_eq_singleton h₂
  exact ⟨sc, su, sb, rfl, hc, hu, hb⟩

end OrderedTree

end JavaFold
