import JavaFold.Proofs.Pass.Constants.Propagation

/-!
# What changes for strings

A literal in the place of a string is the one that all literals of its text share. So it makes no difference only where
the string was this one before. It was not if it is the result of a concatenation that is not one of literals alone, and
a concatenation that gets to be one of literals alone makes no string of its own any more. An operator that has given
way to its value leaves nothing in the places of its operands. `Expr.changes` lists both; runs in which a change can be
told are those for which it is not `Harmless`.
-/

namespace JavaFold

open Constants (Scope Flow)

namespace Constants

/-- What happens where constants are put in: a concatenation that made a string gives a shared one or is taken for one,
or the expression at a place goes into the value of an operator around it, so that nothing is left there. -/
inductive Change
  | shares
  | absorbs (place : Span)
deriving DecidableEq, Repr

/-- A concatenation gives a shared string unless that is excluded. -/
def Change.sharesUnless (excluded : Bool) : List Change := if excluded then [] else [shares]

/-- An expression of a program, what is declared where it stands, and what is known there. -/
structure Point where
  scopes : List Scope
  flow : Flow
  expr : Expr

/-- The point of an expression that may be missing. -/
def Point.optional (scopes : List Scope) (flow : Flow) (e : Option Expr) : List Point :=
  (e.map (⟨scopes, flow, ·⟩)).toList

end Constants

open Constants (Change Point)

namespace Propagated

/-- Whether a concatenation gives a shared string after a change if and only if it did before, and a string that is
known is one. -/
def sharesAlike (e : Expr) (p : Propagated) : Bool :=
  e.isConstant || match p.value with
    | some v => !v.isText
    | none => !p.expr.isConstant

theorem sharesAlike_of_some {p : Propagated} {v : Literal} (h : p.value = some v) (e : Expr) :
    p.sharesAlike e = (e.isConstant || !v.isText) := by
  rw [sharesAlike, h]

theorem sharesAlike_of_none {p : Propagated} (h : p.value = none) (e : Expr) :
    p.sharesAlike e = (e.isConstant || !p.expr.isConstant) := by
  rw [sharesAlike, h]

/-- The operands of an operator that has given way to its value. -/
def absorbed (operands : List Expr) (p : Propagated) : List Change :=
  if p.expr.isLiteral then operands.map fun e => .absorbs e.span else []

end Propagated

namespace Expr

section

variable (fields : Scope) (scopes : List Scope)

mutual

/-- What changes in an expression when constants are put in. It makes no difference which object a string is that is
`joined` to another one at once. -/
def changes (joined : Bool) : Expr → Flow → List Change
  | literal _ _, _ | name _ _, _ | unary _ (.step _) _, _ | postStep _ _ _, _ => []
  | binary s op l r, flow =>
    let p := (binary s op l r).propagate fields scopes flow
    changes (op == .add) l flow ++ (changes (op == .add) r (l.propagate fields scopes flow).flow ++
      (Change.sharesUnless (joined || op != .add || p.sharesAlike (binary s op l r)) ++ p.absorbed [l, r]))
  | unary s op e, flow => changes false e flow ++ ((unary s op e).propagate fields scopes flow).absorbed [e]
  | assign _ .plain _ v, flow => changes false v flow
  | assign s (.compound op) t v, flow =>
    changes (op == .add) v flow ++
      Change.sharesUnless !((assign s (.compound op) t v).propagate fields scopes flow).value.any Literal.isText
  | call _ _ args, flow => changesAll args flow

def changesAll : List Expr → Flow → List Change
  | [], _ => []
  | e :: es, flow => changes false e flow ++ changesAll es (e.propagate fields scopes flow).flow

end

end

end Expr

namespace Stmt

mutual

/-- The expressions of a statement, each with what is known where it stands. -/
def points (fields : Scope) (scopes : List Scope) : Stmt → Flow → List Point
  | block _ ss, flow => pointsAll fields ([] :: scopes) ss flow
  | expr _ e, flow => [⟨scopes, flow, e⟩]
  | localVar _ _ _ init, flow => Point.optional scopes flow init
  | ifElse _ c t none, flow => ⟨scopes, flow, c⟩ :: points fields scopes t (c.propagate fields scopes flow).flow
  | ifElse _ c t (some e), flow =>
    let cond := c.propagate fields scopes flow
    ⟨scopes, flow, c⟩ :: (points fields scopes t cond.flow ++ points fields scopes e cond.flow)
  | whileLoop _ c b, flow =>
    let head := flow.enterLoop scopes (c.written ++ b.written)
    ⟨scopes, head, c⟩ :: points fields scopes b (c.propagate fields scopes head).flow
  | forLoop _ none c u b, flow =>
    let head := flow.enterLoop ([] :: scopes) (Expr.writtenOpt c ++ (Expr.writtenOpt u ++ b.written))
    Point.optional ([] :: scopes) head c ++ (Point.optional ([] :: scopes) head u ++
      points fields ([] :: scopes) b (Expr.propagateOpt fields ([] :: scopes) c head).2)
  | forLoop _ (some i) c u b, flow =>
    let inner := i.declared ([] :: scopes)
    let head := (i.propagate fields ([] :: scopes) flow).2.enterLoop inner
      (Expr.writtenOpt c ++ (Expr.writtenOpt u ++ b.written))
    points fields ([] :: scopes) i flow ++ (Point.optional inner head c ++ (Point.optional inner head u ++
      points fields inner b (Expr.propagateOpt fields inner c head).2))
  | ret _ e, flow => Point.optional scopes flow e
  | brk _, _ | cont _, _ | empty _, _ => []

def pointsAll (fields : Scope) (scopes : List Scope) : List Stmt → Flow → List Point
  | [], _ => []
  | s :: ss, flow => points fields scopes s flow ++
      pointsAll fields (s.declared scopes) ss (s.propagate fields scopes flow).2

end

end Stmt

/-- The expressions of a field or method, each with what is known where it stands. -/
def Member.points (fields : Scope) : Member → List Point
  | field _ d => Point.optional [] (some []) d.init
  | method _ d => Stmt.pointsAll fields [[], d.scope] d.body.stmts (some [])

/-- What changes at a point when constants are put in. -/
def Constants.Point.changes (fields : Scope) (p : Point) : List Change := p.expr.changes fields p.scopes false p.flow

/-- What changes in a field or method when constants are put in. -/
def Member.changes (fields : Scope) (m : Member) : List Change := (m.points fields).flatMap (Point.changes fields)

section

variable {fields : Scope} {scopes : List Scope}

theorem Expr.isConstant_of_isLiteral {e : Expr} (h : e.isLiteral = true) : e.isConstant = true := by
  obtain ⟨s, v, rfl⟩ := Constants.exists_literal h
  rfl

theorem Expr.isConstant_unary {op : UnaryOp} (hop : ∀ o, op ≠ .step o) (s : Span) (e : Expr) :
    (Expr.unary s op e).isConstant = e.isConstant := by
  cases op with
  | step o => exact absurd rfl (hop o)
  | _ => rfl

theorem Expr.isConstant_settled (s : Span) (value : Option Literal) (operands : List Expr) {e : Expr}
    (h : e.isConstant = true) : (Propagated.settled s value operands e).isConstant = true := by
  rcases Constants.settled_cases s value operands e with hs | ⟨v, -, -, hs⟩
  · rw [hs, h]
  · rw [hs, isConstant]

/-- An operator is one of literals alone if it stays so or if its operands have given way to literals. -/
theorem Expr.isConstant_of_settled {s : Span} {value : Option Literal} {operands : List Expr} {e : Expr}
    (h : (Propagated.settled s value operands e).isConstant = true) :
    e.isConstant = true ∨ ∀ o ∈ operands, o.isConstant = true := by
  rcases Constants.settled_cases s value operands e with hs | ⟨v, -, hlit, -⟩
  · exact .inl (hs ▸ h)
  · exact .inr fun o ho => isConstant_of_isLiteral (List.all_eq_true.mp hlit o ho)

/-- What is made of literals alone stays so. -/
theorem Expr.isConstant_propagate : ∀ {e : Expr} {flow : Flow}, e.isConstant = true →
    (e.propagate fields scopes flow).expr.isConstant = true
  | .literal _ _, _, _ => rfl
  | .binary s op l r, flow, h => by
    have ⟨hl, hr⟩ := Bool.and_eq_true_iff.mp h
    exact isConstant_settled _ _ _ (Bool.and_eq_true_iff.mpr ⟨isConstant_propagate hl, isConstant_propagate hr⟩)
  | .unary s op e, flow, h => by
    have hop : ∀ o, op ≠ .step o := by
      rintro o rfl
      cases h
    rw [isConstant_unary hop] at h
    rw [Constants.propagate_unary hop]
    exact isConstant_settled _ _ _ ((isConstant_unary hop ..).trans (isConstant_propagate h))

/-- What stands in the place of an expression has its place. -/
theorem Expr.span_propagate (e : Expr) (flow : Flow) : (e.propagate fields scopes flow).expr.span = e.span := by
  have hsettled (s : Span) (value : Option Literal) (operands : List Expr) {e' : Expr} (h : e'.span = s) :
      (Propagated.settled s value operands e').span = s := by
    rcases Constants.settled_cases s value operands e' with hs | ⟨v, -, -, hs⟩ <;> rw [hs]
    · exact h
    · rfl
  cases e with
  | literal s v => rfl
  | name s x =>
    unfold propagate
    split <;> rfl
  | binary s op l r => exact hsettled s _ _ rfl
  | unary s op e =>
    cases op with
    | step op => exact congrArg span (Constants.step_expr ..)
    | _ => exact hsettled s _ _ rfl
  | postStep s op e => exact congrArg span (Constants.step_expr ..)
  | assign s op t v =>
    unfold propagate
    dsimp only
    split <;> rfl
  | call s path args => rfl

end

/-! ## Runs in which nothing is told -/

namespace Constants

variable {V σ : Type}

/-- Whether a change cannot be told in runs of a kind: all strings of a text are the same there, or nothing is put on
record at the place. -/
def Change.Harmless (S : Execution.Semantics V σ) : Change → Prop
  | shares => ∀ shared v log, S.result shared v log = (S.ofLiteral v, log)
  | absorbs place => ∀ v log, S.record place v log = log

/-- Whether this is so of all that changes at a point. -/
def Point.Harmless (S : Execution.Semantics V σ) (fields : Scope) (p : Point) : Prop :=
  ∀ c ∈ p.changes fields, c.Harmless S

theorem Point.Harmless.optional {S : Execution.Semantics V σ} {fields : Scope} {scopes : List Scope} {flow : Flow}
    {e : Expr} (h : Point.Harmless S fields ⟨scopes, flow, e⟩) :
    ∀ p ∈ Point.optional scopes flow (some e), p.Harmless S fields := List.forall_mem_singleton.mpr h

end Constants

theorem Member.harmless {V σ : Type} {S : Execution.Semantics V σ} {fields : Scope} {m : Member}
    (h : ∀ c ∈ m.changes fields, c.Harmless S) : ∀ p ∈ m.points fields, p.Harmless S fields :=
  fun p hp c hc => h c (List.mem_flatMap.mpr ⟨p, hp, hc⟩)

end JavaFold
