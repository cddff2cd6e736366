import JavaFold.Pass.Constants.Facts
import JavaFold.Proofs.Program.Declarations
import JavaFold.Proofs.Program.Writes

/-!
# Propagating constants in a program

What the pass makes of a program, written down on the program itself rather than on its tree. What is
known goes through expressions and statements in the order in which they run; the result is the changed
part together with what is known after it. `Found.lean` proves that the analysis of the tree finds
exactly these changes, and `Soundness.lean` that they make no difference to a run.
-/

namespace JavaFold

namespace Constants

namespace Flow

/-- Forgets all variables that are not local. -/
def forgetFields (scopes : List Scope) (flow : Flow) : Flow :=
  flow.map fun facts => facts.filter fun fact => isLocal scopes fact.1

/-- A variable gets a value, of which nothing may be known. -/
def give (fields : Scope) (scopes : List Scope) (name : String) (value : Option Literal)
    (flow : Flow) : Flow :=
  flow.map fun facts =>
    match value with
    | none => facts.forget name
    | some v =>
      if (declaredType? scopes fields name).any (holds · v) then facts.learn name v
      else facts.forget name

/-- A name is written to. -/
def write (fields : Scope) (scopes : List Scope) (name : String) (value : Option Literal)
    (flow : Flow) : Flow :=
  if isDotted name then flow.forgetFields scopes else flow.give fields scopes name value

/-- Forgets what a loop may write to. -/
def enterLoop (scopes : List Scope) (written : List (Option String)) (flow : Flow) : Flow :=
  flow.map fun facts => facts.filter fun fact =>
    !written.contains (some fact.1) && (!written.contains none || isLocal scopes fact.1)

/-- A scope ends, and its variables are forgotten. -/
def leave (scope : Scope) (flow : Flow) : Flow :=
  flow.map fun facts => scope.foldl (fun facts v => facts.forget v.1) facts

end Flow

end Constants

open Constants (Scope Flow isDotted)

/-- Whether an expression is a literal. -/
def Expr.isLiteral : Expr → Bool
  | literal _ _ => true
  | _ => false

/-- An expression in which constants have been put, its value as far as it is known, and what is known
after it. -/
structure Propagated where
  expr : Expr
  value : Option Literal
  flow : Flow

namespace Propagated

/-- An operator whose operands are literals gives way to its value. -/
def settled (span : Span) (value : Option Literal) (operands : List Expr) (e : Expr) : Expr :=
  match value with
  | some v => if operands.all Expr.isLiteral then .literal span v else e
  | none => e

/-- A step of a variable. -/
def step (fields : Scope) (scopes : List Scope) (op : StepOp) (isAfter : Bool) (target e : Expr)
    (flow : Flow) : Propagated :=
  match target.name? with
  | none => ⟨e, none, flow.forgetFields scopes⟩
  | some name =>
    let old := flow.value? name
    let new := old.bind op.eval?
    ⟨e, if isAfter then old else new, flow.write fields scopes name new⟩

/-- The value of a binary operator, given those of its operands. -/
def combined (op : BinaryOp) : Option Literal → Option Literal → Option Literal
  | some a, some b => op.eval? a b
  | _, _ => none

theorem combined_eq_some {op : BinaryOp} {left right : Option Literal} {v : Literal}
    (h : combined op left right = some v) :
    ∃ a b, left = some a ∧ right = some b ∧ op.eval? a b = some v := by
  cases left with
  | none => cases h
  | some a =>
    cases right with
    | none => cases h
    | some b => exact ⟨a, b, rfl, rfl, h⟩

/-- The value of an assignment, given those of its target and its right side. -/
def assigned : AssignOp → Option Literal → Option Literal → Option Literal
  | .plain, _, value => value
  | .compound op, old, value => combined op old value

end Propagated

namespace Expr

open Propagated

mutual

def propagate (fields : Scope) (scopes : List Scope) : Expr → Flow → Propagated
  | literal s v, flow => ⟨literal s v, some v, flow⟩
  | name s x, flow =>
    match flow.value? x with
    | some v => ⟨literal s v, some v, flow⟩
    | none => ⟨name s x, none, flow⟩
  | binary s op l r, flow =>
    let left := propagate fields scopes l flow
    let right := propagate fields scopes r left.flow
    let value := combined op left.value right.value
    ⟨settled s value [left.expr, right.expr] (binary s op left.expr right.expr), value,
      if op.isShortCircuit then left.flow.join right.flow else right.flow⟩
  | unary s (.step op) e, flow => step fields scopes op false e (unary s (.step op) e) flow
  | unary s op e, flow =>
    let inner := propagate fields scopes e flow
    let value := inner.value.bind op.eval?
    ⟨settled s value [inner.expr] (unary s op inner.expr), value, inner.flow⟩
  | postStep s op e, flow => step fields scopes op true e (postStep s op e) flow
  | assign s op t v, flow =>
    let right := propagate fields scopes v flow
    match t.name? with
    | none => ⟨assign s op t right.expr, none, right.flow.forgetFields scopes⟩
    | some x =>
      let new := assigned op (flow.value? x) right.value
      ⟨assign s op t right.expr, new, right.flow.write fields scopes x new⟩
  | call s path args, flow =>
    let r := propagateAll fields scopes args flow
    ⟨call s path r.1, none, r.2.forgetFields scopes⟩

def propagateAll (fields : Scope) (scopes : List Scope) : List Expr → Flow → List Expr × Flow
  | [], flow => ([], flow)
  | e :: es, flow =>
    let first := propagate fields scopes e flow
    let r := propagateAll fields scopes es first.flow
    (first.expr :: r.1, r.2)

end

/-- Constants in an expression that may be missing. -/
def propagateOpt (fields : Scope) (scopes : List Scope) : Option Expr → Flow → Option Expr × Flow
  | none, flow => (none, flow)
  | some e, flow =>
    let r := e.propagate fields scopes flow
    (some r.expr, r.flow)

end Expr

namespace Constants

variable {fields : Scope} {scopes : List Scope}

/-- An operator either stays or gives way to its value. -/
theorem settled_cases (s : Span) (value : Option Literal) (operands : List Expr) (e : Expr) :
    Propagated.settled s value operands e = e ∨
      ∃ v, value = some v ∧ operands.all Expr.isLiteral = true ∧
        Propagated.settled s value operands e = .literal s v := by
  unfold Propagated.settled
  split
  · next v =>
    split
    · next h => exact .inr ⟨v, rfl, h, rfl⟩
    · exact .inl rfl
  · exact .inl rfl

theorem step_expr (fields : Scope) (scopes : List Scope) (op : StepOp) (isAfter : Bool)
    (target e : Expr) (flow : Flow) :
    (Propagated.step fields scopes op isAfter target e flow).expr = e := by
  unfold Propagated.step
  split <;> rfl

theorem propagate_unary {op : UnaryOp} (h : ∀ o, op ≠ .step o) (s : Span) (e : Expr) (flow : Flow) :
    (Expr.unary s op e).propagate fields scopes flow =
      let inner := e.propagate fields scopes flow
      let value := inner.value.bind op.eval?
      ⟨Propagated.settled s value [inner.expr] (.unary s op inner.expr), value, inner.flow⟩ := by
  cases op with
  | step o => exact absurd rfl (h o)
  | _ => rfl

/-- The value of an expression that is a literal now is known. -/
theorem value_of_expr_eq {e : Expr} {flow : Flow} {s : Span} {a : Literal}
    (h : (e.propagate fields scopes flow).expr = .literal s a) :
    (e.propagate fields scopes flow).value = some a := by
  cases e with
  | literal s v =>
    cases h
    rfl
  | name s x =>
    unfold Expr.propagate at h ⊢
    split
    · next v hv =>
      rw [hv] at h
      cases h
      rfl
    · next hv =>
      rw [hv] at h
      cases h
  | binary s₁ op l r =>
    unfold Expr.propagate at h ⊢
    rcases settled_cases s₁ _ _ _ with hs | ⟨v, hv, -, hs⟩
    · cases hs.symm.trans h
    · have heq := hs.symm.trans h
      cases heq
      exact hv
  | unary s₁ op e =>
    have hop : ∀ o, op ≠ .step o := by
      rintro o rfl
      cases (step_expr fields scopes o false e _ flow).symm.trans h
    rw [propagate_unary hop] at h ⊢
    rcases settled_cases s₁ _ _ _ with hs | ⟨v, hv, -, hs⟩
    · cases hs.symm.trans h
    · have heq := hs.symm.trans h
      cases heq
      exact hv
  | postStep s₁ op e => cases (step_expr fields scopes op true e _ flow).symm.trans h
  | assign s₁ op t v =>
    unfold Expr.propagate at h
    cases hx : t.name? <;> simp [hx] at h
  | call s₁ path args => cases h

theorem exists_literal {e : Expr} (h : e.isLiteral = true) : ∃ s v, e = .literal s v := by
  cases e with
  | literal s v => exact ⟨s, v, rfl⟩
  | _ => cases h

end Constants

namespace Stmt

mutual

def propagate (fields : Scope) (scopes : List Scope) : Stmt → Flow → Stmt × Flow
  | block s ss, flow =>
    let r := propagateAll fields ([] :: scopes) ss flow
    (block s r.1, r.2.leave ((declaredAll ss ([] :: scopes)).headD []))
  | expr s e, flow =>
    let r := e.propagate fields scopes flow
    (expr s r.expr, r.flow)
  | localVar s ty name none, flow =>
    (localVar s ty name none,
      flow.give fields (Constants.declaring name.value ty.value scopes) name.value none)
  | localVar s ty name (some e), flow =>
    let r := e.propagate fields scopes flow
    (localVar s ty name (some r.expr),
      r.flow.give fields (Constants.declaring name.value ty.value scopes) name.value r.value)
  | ifElse s c t none, flow =>
    let cond := c.propagate fields scopes flow
    let yes := propagate fields scopes t cond.flow
    (ifElse s cond.expr yes.1 none, yes.2.join cond.flow)
  | ifElse s c t (some e), flow =>
    let cond := c.propagate fields scopes flow
    let yes := propagate fields scopes t cond.flow
    let no := propagate fields scopes e cond.flow
    (ifElse s cond.expr yes.1 (some no.1), yes.2.join no.2)
  | whileLoop s c b, flow =>
    let head := flow.enterLoop scopes (c.written ++ b.written)
    let cond := c.propagate fields scopes head
    let body := propagate fields scopes b cond.flow
    (whileLoop s cond.expr body.1, head)
  | forLoop s none c u b, flow =>
    let head := flow.enterLoop ([] :: scopes)
      (Expr.writtenOpt c ++ (Expr.writtenOpt u ++ b.written))
    let cond := Expr.propagateOpt fields ([] :: scopes) c head
    let body := propagate fields ([] :: scopes) b cond.2
    let update := Expr.propagateOpt fields ([] :: scopes) u head
    (forLoop s none cond.1 update.1 body.1, head.leave [])
  | forLoop s (some i) c u b, flow =>
    let first := propagate fields ([] :: scopes) i flow
    let inner := i.declared ([] :: scopes)
    let head := first.2.enterLoop inner (Expr.writtenOpt c ++ (Expr.writtenOpt u ++ b.written))
    let cond := Expr.propagateOpt fields inner c head
    let body := propagate fields inner b cond.2
    let update := Expr.propagateOpt fields inner u head
    (forLoop s (some first.1) cond.1 update.1 body.1, head.leave (inner.headD []))
  | ret s none, _ => (ret s none, none)
  | ret s (some e), flow => (ret s (some (e.propagate fields scopes flow).expr), none)
  | brk s, _ => (brk s, none)
  | cont s, _ => (cont s, none)
  | empty s, flow => (empty s, flow)

def propagateAll (fields : Scope) (scopes : List Scope) : List Stmt → Flow → List Stmt × Flow
  | [], flow => ([], flow)
  | s :: ss, flow =>
    let first := propagate fields scopes s flow
    let r := propagateAll fields (s.declared scopes) ss first.2
    (first.1 :: r.1, r.2)

end

end Stmt

/-! ## Statements anywhere

A statement that declares a variable may stand where no source text can have it, as the body of a loop;
its variable then comes into the scope around the loop. `Stmt.analysed` says what the pass makes of any
statements, along with the scopes after them. On those that can be written it is `Stmt.propagate`. -/

/-- What the pass makes of a part of a program, what is known after it, and the scopes after it. -/
structure Analysed (α : Type) where
  part : α
  flow : Flow
  scopes : List Scope

/-- What the pass makes of a `for` from its condition on, given what it makes of the body. -/
def Analysed.looped (fields : Scope) (c u : Option Expr) (written : List (Option String))
    (body : Flow → List Scope → Analysed Stmt) (flow : Flow) (scopes : List Scope) :
    Analysed (Option Expr × Option Expr × Stmt) :=
  let head := flow.enterLoop scopes written
  let cond := Expr.propagateOpt fields scopes c head
  let round := body cond.2 scopes
  let update := Expr.propagateOpt fields round.scopes u head
  ⟨(cond.1, update.1, round.part), head.leave (round.scopes.headD []), round.scopes.tail⟩

namespace Stmt

mutual

def analysed (fields : Scope) : Stmt → Flow → List Scope → Analysed Stmt
  | block s ss, flow, scopes =>
    let r := analysedAll fields ss flow ([] :: scopes)
    ⟨block s r.part, r.flow.leave (r.scopes.headD []), r.scopes.tail⟩
  | expr s e, flow, scopes =>
    let r := e.propagate fields scopes flow
    ⟨expr s r.expr, r.flow, scopes⟩
  | localVar s ty name none, flow, scopes =>
    let inner := Constants.declaring name.value ty.value scopes
    ⟨localVar s ty name none, flow.give fields inner name.value none, inner⟩
  | localVar s ty name (some e), flow, scopes =>
    let r := e.propagate fields scopes flow
    let inner := Constants.declaring name.value ty.value scopes
    ⟨localVar s ty name (some r.expr), r.flow.give fields inner name.value r.value, inner⟩
  | ifElse s c t none, flow, scopes =>
    let cond := c.propagate fields scopes flow
    let yes := analysed fields t cond.flow scopes
    ⟨ifElse s cond.expr yes.part none, yes.flow.join cond.flow, yes.scopes⟩
  | ifElse s c t (some e), flow, scopes =>
    let cond := c.propagate fields scopes flow
    let yes := analysed fields t cond.flow scopes
    let no := analysed fields e cond.flow yes.scopes
    ⟨ifElse s cond.expr yes.part (some no.part), yes.flow.join no.flow, no.scopes⟩
  | whileLoop s c b, flow, scopes =>
    let head := flow.enterLoop scopes (c.written ++ b.written)
    let cond := c.propagate fields scopes head
    let body := analysed fields b cond.flow scopes
    ⟨whileLoop s cond.expr body.part, head, body.scopes⟩
  | forLoop s none c u b, flow, scopes =>
    let r := Analysed.looped fields c u (Expr.writtenOpt c ++ (Expr.writtenOpt u ++ b.written))
      (analysed fields b) flow ([] :: scopes)
    ⟨forLoop s none r.part.1 r.part.2.1 r.part.2.2, r.flow, r.scopes⟩
  | forLoop s (some i) c u b, flow, scopes =>
    let first := analysed fields i flow ([] :: scopes)
    let r := Analysed.looped fields c u (Expr.writtenOpt c ++ (Expr.writtenOpt u ++ b.written))
      (analysed fields b) first.flow first.scopes
    ⟨forLoop s (some first.part) r.part.1 r.part.2.1 r.part.2.2, r.flow, r.scopes⟩
  | ret s none, _, scopes => ⟨ret s none, none, scopes⟩
  | ret s (some e), flow, scopes =>
    ⟨ret s (some (e.propagate fields scopes flow).expr), none, scopes⟩
  | brk s, _, scopes => ⟨brk s, none, scopes⟩
  | cont s, _, scopes => ⟨cont s, none, scopes⟩
  | empty s, flow, scopes => ⟨empty s, flow, scopes⟩

def analysedAll (fields : Scope) : List Stmt → Flow → List Scope → Analysed (List Stmt)
  | [], flow, scopes => ⟨[], flow, scopes⟩
  | s :: ss, flow, scopes =>
    let first := analysed fields s flow scopes
    let r := analysedAll fields ss first.flow first.scopes
    ⟨first.part :: r.part, r.flow, r.scopes⟩

end

mutual

/-- A statement that can be written leaves no variable behind unless it is a declaration. -/
theorem analysed_eq (fields : Scope) : ∀ (x : Stmt) (flow : Flow) (scopes : List Scope), x.Legal →
    x.analysed fields flow scopes =
      ⟨(x.propagate fields scopes flow).1, (x.propagate fields scopes flow).2, x.declared scopes⟩
  | block s ss, flow, scopes, h => by
    obtain ⟨scope, hscope⟩ := declaredAll_cons ss [] scopes
    simp only [analysed, propagate, analysedAll_eq fields ss flow _ h, hscope]
    rfl
  | expr _ _, _, _, _ | localVar _ _ _ none, _, _, _ | localVar _ _ _ (some _), _, _, _
  | ret _ none, _, _, _ | ret _ (some _), _, _, _ | brk _, _, _, _ | cont _, _, _, _
  | empty _, _, _, _ => by
    simp only [analysed, propagate]
    rfl
  | ifElse s c t none, flow, scopes, h => by
    simp only [analysed, propagate, analysed_eq fields t _ _ h.2.1, declared_eq h.2.2]
    rfl
  | ifElse s c t (some e), flow, scopes, h => by
    obtain ⟨-, ht, htd, -, he, hed⟩ := h
    simp only [analysed, propagate, analysed_eq fields t _ _ ht, analysed_eq fields e _ _ he,
      declared_eq htd, declared_eq hed]
    rfl
  | whileLoop s c b, flow, scopes, h => by
    simp only [analysed, propagate, analysed_eq fields b _ _ h.2.1, declared_eq h.2.2]
    rfl
  | forLoop s none c u b, flow, scopes, h => by
    simp only [analysed, propagate, Analysed.looped, analysed_eq fields b _ _ h.2.2.1,
      declared_eq h.2.2.2]
    rfl
  | forLoop s (some i) c u b, flow, scopes, h => by
    obtain ⟨hi, -, -, -, hb, hbd⟩ := h
    obtain ⟨scope, hscope⟩ := declared_cons i [] scopes
    simp only [analysed, propagate, Analysed.looped, analysed_eq fields b _ _ hb,
      analysed_eq fields i _ _ hi, declared_eq hbd, hscope]
    rfl

theorem analysedAll_eq (fields : Scope) : ∀ (xs : List Stmt) (flow : Flow) (scopes : List Scope),
    LegalAll xs → analysedAll fields xs flow scopes =
      ⟨(propagateAll fields scopes xs flow).1, (propagateAll fields scopes xs flow).2,
        declaredAll xs scopes⟩
  | [], _, _, _ => rfl
  | x :: xs, flow, scopes, h => by
    simp only [analysedAll, propagateAll, analysed_eq fields x _ _ h.1,
      analysedAll_eq fields xs _ _ h.2]
    rfl

end

end Stmt

/-- What the pass makes of the body of any method. -/
def MethodDecl.analysed (fields : Scope) (d : MethodDecl) : MethodDecl :=
  { d with body := ⟨d.body.span, (Stmt.analysedAll fields d.body.stmts (some []) [[], d.scope]).part⟩ }

/-- Constants in the body of a method. -/
def MethodDecl.propagate (fields : Scope) (d : MethodDecl) : MethodDecl :=
  { d with body :=
      ⟨d.body.span, (Stmt.propagateAll fields ([] :: [d.scope]) d.body.stmts (some [])).1⟩ }

/-- Constants in the initial value of a field. -/
def FieldDecl.propagate (fields : Scope) (d : FieldDecl) : FieldDecl :=
  { d with init := (Expr.propagateOpt fields [] d.init (some [])).1 }

namespace Member

def propagate (fields : Scope) : Member → Member
  | field s d => field s (d.propagate fields)
  | method s d => method s (d.propagate fields)

/-- What the pass makes of any field or method. -/
def analysed (fields : Scope) : Member → Member
  | field s d => field s (d.propagate fields)
  | method s d => method s (d.analysed fields)

theorem analysed_eq {m : Member} (legal : m.Legal) (fields : Scope) :
    m.analysed fields = m.propagate fields := by
  cases m with
  | field s d => rfl
  | method s d =>
    simp only [analysed, MethodDecl.analysed,
      Stmt.analysedAll_eq fields d.body.stmts _ _ (MethodDecl.Legal.body legal)]
    rfl

end Member

/-- Constants in all members of a class. -/
def ClassDecl.propagate (c : ClassDecl) : ClassDecl :=
  { c with members := c.members.map (Member.propagate c.fields) }

/-- What the pass makes of any class. -/
def ClassDecl.analysed (c : ClassDecl) : ClassDecl :=
  { c with members := c.members.map (Member.analysed c.fields) }

/-- Constants in a program. -/
def CompilationUnit.propagate (unit : CompilationUnit) : CompilationUnit :=
  ⟨unit.classes.map ClassDecl.propagate⟩

/-- What the pass makes of any program. -/
def CompilationUnit.analysed (unit : CompilationUnit) : CompilationUnit :=
  ⟨unit.classes.map ClassDecl.analysed⟩

theorem CompilationUnit.analysed_eq {unit : CompilationUnit} (legal : unit.Legal) :
    unit.analysed = unit.propagate := by
  refine congrArg CompilationUnit.mk (List.map_congr_left fun c hc => ?_)
  refine congrArg (fun ms => ClassDecl.mk c.span c.modifiers c.name ms) ?_
  exact List.map_congr_left fun m hm => Member.analysed_eq ((legal c hc).members m hm) c.fields

end JavaFold
