import JavaFold.Program.Unit.Parser
import JavaFold.Proofs.Token.Problems

/-!
# Where the problems of a program are

Reading a program notes a problem at a token or at what has been read, whose span is merged from those of tokens. What
holds of the spans of all tokens, and of a merged span whenever it does of its parts, therefore holds of the span of
every problem (`CompilationUnit.problems_ofTokens?`). `Stays P x Q` says this of a part `x` of the reading: as long as
`P` holds of the spans in the cursor, it goes on to hold, and `Q` holds of the result.
-/

namespace JavaFold

namespace Span

/-- What holds of a merged span whenever it holds of its parts. -/
structure Closed (P : Span → Prop) : Prop where
  dummy : P .dummy
  merge : ∀ {a b : Span}, P a → P b → P (a.merge b)

theorem closed_within (n : Nat) : Closed (Within n) where
  dummy := ⟨Nat.le_refl _, Nat.zero_le _⟩
  merge := by
    intro a b ha hb
    unfold merge
    split
    · exact hb
    split
    · exact ha
    · have hstart : min a.start b.start ≤ a.stop := Nat.le_trans (Nat.min_le_left _ _) ha.1
      exact ⟨Nat.le_trans hstart (Nat.le_max_left _ _), Nat.max_le.mpr ⟨ha.2, hb.2⟩⟩

end Span

namespace Cursor

/-- Something holds of the spans of the tokens ahead, of the token just passed, and of the problems. -/
structure Has (P : Span → Prop) (c : Cursor) : Prop where
  ahead : ∀ t ∈ c.ahead, P t.span
  passed : ∀ s ∈ c.passed, P s
  problems : ∀ d ∈ c.problems, P d.span

namespace Has

variable {P : Span → Prop} {c : Cursor}

theorem here (closed : Span.Closed P) (h : c.Has P) : P c.here := by
  unfold Cursor.here
  split
  · exact closed.dummy
  · next t rest hahead => exact h.ahead t (hahead ▸ List.mem_cons_self)

theorem behind (closed : Span.Closed P) (h : c.Has P) : P c.behind := by
  unfold Cursor.behind
  cases hpassed : c.passed with
  | none => exact h.here closed
  | some s => exact h.passed s hpassed

theorem advance (h : c.Has P) : c.advance.Has P := by
  unfold Cursor.advance
  split
  · next t u rest hahead =>
    have hall := hahead ▸ h.ahead
    refine ⟨fun x hx => hall x (List.mem_cons_of_mem _ hx), fun s hs => ?_, h.problems⟩
    cases hs
    exact hall t List.mem_cons_self
  · exact h

theorem skipToEnd (h : c.Has P) : c.skipToEnd.Has P := by
  refine ⟨fun t ht => h.ahead t ((List.dropWhile_suffix _).subset ht), fun s hs => ?_, h.problems⟩
  rcases Option.or_eq_some_iff.mp hs with hlast | ⟨-, hpassed⟩
  · obtain ⟨t, ht, rfl⟩ := Option.map_eq_some_iff.mp hlast
    exact h.ahead t ((List.takeWhile_prefix _).subset (List.mem_of_getLast? ht))
  · exact h.passed s hpassed

theorem note (h : c.Has P) (p : Problem) {s : Span} (hs : P s) : (c.note p s).Has P :=
  ⟨h.ahead, h.passed, List.forall_mem_cons.mpr ⟨hs, h.problems⟩⟩

end Has

end Cursor

namespace Parser

variable {α β : Type} {x : Parser α} {f : α → Parser β} {P : Span → Prop} {Q : α → Prop} {R : β → Prop}

/-- What holds of the spans in the cursor goes on to hold, and the result is as said. -/
def Stays (P : Span → Prop) (x : Parser α) (Q : α → Prop) : Prop :=
  ∀ c : Cursor, c.Has P → (x.run c).2.Has P ∧ Q (x.run c).1

namespace Stays

theorem pure {a : α} (h : Q a) : Stays P (Pure.pure a) Q := fun _ hc => ⟨hc, h⟩

theorem bind (hx : Stays P x Q) (hf : ∀ a, Q a → Stays P (f a) R) : Stays P (x >>= f) R := by
  intro c hc
  have ⟨hc', ha⟩ := hx c hc
  exact hf _ ha _ hc'

theorem get {f : Cursor → Parser β} (h : ∀ c, c.Has P → Stays P (f c) R) : Stays P (MonadState.get >>= f) R :=
  fun c hc => h c hc c hc

theorem peek {f : Token → Parser β} (h : ∀ t, Stays P (f t) R) : Stays P (Parser.peek >>= f) R :=
  fun c hc => h c.token c hc

/-- Something is checked first, and reading goes on in any case. -/
theorem check {b : Prop} [Decidable b] {note : Parser Unit} {f : Unit → Parser β} (hnote : Stays P note fun _ => True)
    (h : Stays P (f ()) R) : Stays P (if b then f () else note >>= f) R := by
  split
  · exact h
  · exact .bind hnote fun _ _ => h

theorem refuse {b : Prop} [Decidable b] {note : Parser Unit} {f : Unit → Parser β} (hnote : Stays P note fun _ => True)
    (h : Stays P (f ()) R) : Stays P (if b then note >>= f else f ()) R := by
  split
  · exact .bind hnote fun _ _ => h
  · exact h

end Stays

theorem stays_modify {g : Cursor → Cursor} (h : ∀ c, c.Has P → (g c).Has P) : Stays P (modify g) fun _ => True :=
  fun c hc => ⟨h c hc, trivial⟩

theorem stays_advance : Stays P advance fun _ => True := stays_modify fun _ hc => hc.advance

theorem stays_eat (t : Token) : Stays P (eat t) fun _ => True := by
  unfold eat
  refine .peek fun u => ?_
  split
  · exact .bind stays_advance fun _ _ => .pure trivial
  · exact .pure trivial

theorem stays_reportAt (p : Problem) {s : Span} (hs : P s) : Stays P (reportAt p s) fun _ => True :=
  stays_modify fun _ hc => hc.note p hs

section

variable (closed : Span.Closed P)

include closed

theorem stays_here : Stays P here P := fun _ hc => ⟨hc, hc.here closed⟩

theorem stays_behind : Stays P behind P := fun _ hc => ⟨hc, hc.behind closed⟩

theorem stays_report (p : Problem) : Stays P (report p) fun _ => True := by
  unfold report
  exact .bind (stays_here closed) fun s hs => stays_reportAt p hs

/-! ## Tokens and names -/

theorem stays_expect (t : Token) : Stays P (expect t) fun _ => True := by
  unfold expect
  refine .bind (stays_eat t) fun b _ => ?_
  split
  · exact .pure trivial
  · exact .peek fun u => stays_report closed _

theorem stays_identifier : Stays P identifier fun name => P name.span := by
  unfold identifier
  refine .peek fun t => ?_
  split
  · exact .bind (stays_here closed) fun s hs => .bind stays_advance fun _ _ => .pure hs
  · exact .bind (stays_report closed _) fun _ _ => .bind (stays_here closed) fun s hs => .pure hs

theorem stays_nameParts (limit : Nat) {name : Spanned String} (h : P name.span) :
    Stays P (nameParts limit name) fun path => P path.span := by
  induction limit generalizing name with
  | zero => exact .pure h
  | succ limit ih =>
    unfold nameParts
    refine .get fun c hc => ?_
    split
    · next dot part span rest hahead =>
      have hspan : P span := hc.ahead ⟨.identifier part, span⟩ (hahead ▸ by simp)
      exact .bind stays_advance fun _ _ => .bind stays_advance fun _ _ => ih (closed.merge h hspan)
    · exact .pure h

theorem stays_dottedName : Stays P dottedName fun path => P path.span := by
  unfold dottedName
  exact .bind (stays_identifier closed) fun first hfirst => .get fun _ _ => stays_nameParts closed _ hfirst

theorem stays_enterNesting : Stays P enterNesting fun _ => True := by
  unfold enterNesting
  refine .bind (stays_modify fun c hc => ⟨hc.ahead, hc.passed, hc.problems⟩) fun _ _ => .get fun _ _ => ?_
  split
  · exact .pure trivial
  · refine .bind (stays_report closed _) fun _ _ => ?_
    exact .bind (stays_modify fun _ hc => hc.skipToEnd) fun _ _ => .pure trivial

end

theorem stays_leaveNesting : Stays P leaveNesting fun _ => True :=
  stays_modify fun _ hc => ⟨hc.ahead, hc.passed, hc.problems⟩

/-! ## Expressions -/

/-- What is read is an expression with such a span. -/
abbrev StaysExpr (P : Span → Prop) (x : Parser Expr) : Prop := Stays P x fun e => P e.span

/-- What is read of the functions that read expressions, for one bound of their recursion. -/
structure StaysExprs (P : Span → Prop) (n : Nat) : Prop where
  expr : StaysExpr P (expr n)
  assignment : StaysExpr P (assignment n)
  binary : ∀ least, StaysExpr P (binary n least)
  binaryTail : ∀ least (lhs : Expr), P lhs.span → StaysExpr P (binaryTail n least lhs)
  unary : StaysExpr P (unary n)
  primary : StaysExpr P (primary n)
  arguments : Stays P (arguments n) fun _ => True

section

variable (closed : Span.Closed P)

include closed

theorem stays_missingExpr : StaysExpr P missingExpr := by
  unfold missingExpr
  exact .bind (stays_here closed) fun s hs => .pure hs

theorem stays_exhausted : StaysExpr P exhausted := by
  unfold exhausted
  exact .bind (stays_report closed _) fun _ _ => stays_missingExpr closed

theorem stays_postSteps (limit : Nat) {operand : Expr} (h : P operand.span) :
    StaysExpr P (postSteps limit operand) := by
  induction limit generalizing operand with
  | zero => exact .pure h
  | succ limit ih =>
    unfold postSteps
    refine .peek fun t => ?_
    split
    · refine .check (stays_report closed _) (.bind stays_advance fun _ _ => ?_)
      exact .bind (stays_behind closed) fun s hs => ih (closed.merge h hs)
    · exact .pure h

theorem staysExprs_zero : StaysExprs P 0 where
  expr := stays_exhausted closed
  assignment := stays_exhausted closed
  binary _ := stays_exhausted closed
  binaryTail _ _ _ := stays_exhausted closed
  unary := stays_exhausted closed
  primary := stays_exhausted closed
  arguments := .bind (stays_exhausted closed) fun _ _ => .pure trivial

variable {n : Nat} (ih : StaysExprs P n)

include ih

theorem stays_expr_succ : StaysExpr P (expr (n + 1)) := by
  unfold expr
  refine .bind (stays_enterNesting closed) fun b _ => ?_
  split
  · exact .bind ih.assignment fun e he => .bind stays_leaveNesting fun _ _ => .pure he
  · exact stays_missingExpr closed

theorem stays_assignment_succ : StaysExpr P (assignment (n + 1)) := by
  unfold assignment
  refine .bind (ih.binary 0) fun target htarget => .peek fun t => ?_
  split
  · exact .pure htarget
  · refine .check (stays_report closed _) (.bind stays_advance fun _ _ => ?_)
    exact .bind ih.assignment fun value hvalue => .pure (closed.merge htarget hvalue)

omit closed in
theorem stays_binary_succ (least : Nat) : StaysExpr P (binary (n + 1) least) := by
  unfold binary
  exact .bind ih.unary fun lhs hlhs => ih.binaryTail least lhs hlhs

theorem stays_binaryTail_succ (least : Nat) {lhs : Expr} (h : P lhs.span) :
    StaysExpr P (binaryTail (n + 1) least lhs) := by
  unfold binaryTail
  refine .peek fun t => ?_
  split
  · split
    · exact .pure h
    · refine .bind stays_advance fun _ _ => .bind (ih.binary _) fun rhs hrhs => ?_
      exact ih.binaryTail least _ (closed.merge h hrhs)
  · exact .pure h

theorem stays_unary_succ : StaysExpr P (unary (n + 1)) := by
  unfold unary
  refine .bind (stays_here closed) fun start hstart => .peek fun t => ?_
  split
  · exact .bind ih.primary fun operand hoperand => .get fun _ _ => stays_postSteps closed _ hoperand
  · next op _ =>
    refine .bind stays_advance fun _ _ => .peek fun u => ?_
    split
    · refine .bind stays_advance fun _ _ => ?_
      exact .bind (stays_behind closed) fun s hs => .pure (closed.merge hstart hs)
    · refine .bind (stays_enterNesting closed) fun b _ => ?_
      split
      · refine .bind ih.unary fun operand hoperand => .bind stays_leaveNesting fun _ _ => ?_
        have hspan : P (start.merge operand.span) := closed.merge hstart hoperand
        cases op with
        | step op => exact .check (stays_reportAt _ hoperand) (.pure hspan)
        | neg => exact .pure hspan
        | not => exact .pure hspan
        | bitNot => exact .pure hspan
      · exact stays_missingExpr closed

theorem stays_primary_succ : StaysExpr P (primary (n + 1)) := by
  unfold primary
  refine .bind (stays_here closed) fun start hstart => .peek fun t => ?_
  split
  · refine .bind stays_advance fun _ _ => ?_
    split
    · exact .pure hstart
    · exact .bind (stays_reportAt _ hstart) fun _ _ => .pure hstart
  · exact .bind stays_advance fun _ _ => .pure hstart
  · exact .bind stays_advance fun _ _ => .pure hstart
  · exact .bind stays_advance fun _ _ => .pure hstart
  · exact .bind stays_advance fun _ _ => .pure hstart
  · refine .bind stays_advance fun _ _ => .bind ih.expr fun inner hinner => ?_
    exact .bind (stays_expect closed _) fun _ _ => .pure hinner
  · refine .bind (stays_dottedName closed) fun path hpath => .bind (stays_eat _) fun b _ => ?_
    split
    · refine .bind ih.arguments fun args _ => .bind (stays_expect closed _) fun _ _ => ?_
      exact .bind (stays_behind closed) fun s hs => .pure (closed.merge hstart hs)
    · exact .pure hpath
  · exact .bind (stays_report closed _) fun _ _ => stays_missingExpr closed

omit closed in
theorem stays_arguments_succ : Stays P (arguments (n + 1)) fun _ => True := by
  unfold arguments
  refine .peek fun t => ?_
  split
  · exact .pure trivial
  · exact .pure trivial
  · refine .bind ih.expr fun arg _ => .bind (stays_eat _) fun b _ => ?_
    split
    · exact .bind ih.arguments fun _ _ => .pure trivial
    · exact .pure trivial

end

section

variable (closed : Span.Closed P)

include closed

theorem staysExprs (n : Nat) : StaysExprs P n := by
  induction n with
  | zero => exact staysExprs_zero closed
  | succ n ih =>
    exact {
      expr := stays_expr_succ closed ih
      assignment := stays_assignment_succ closed ih
      binary := stays_binary_succ ih
      binaryTail := fun least _ h => stays_binaryTail_succ closed ih least h
      unary := stays_unary_succ closed ih
      primary := stays_primary_succ closed ih
      arguments := stays_arguments_succ ih }

theorem stays_expression : StaysExpr P expression := by
  unfold expression
  exact .get fun _ _ => (staysExprs closed _).expr

/-! ## Statements -/

theorem stays_ty : Stays P ty fun t => P t.span := by
  unfold ty
  refine .bind (stays_here closed) fun start hstart => .peek fun t => ?_
  split
  · exact .bind stays_advance fun _ _ => .pure hstart
  · exact .bind stays_advance fun _ _ => .pure hstart
  · exact .bind stays_advance fun _ _ => .pure hstart
  · exact .bind (stays_dottedName closed) fun _ hpath => .pure hpath
  · exact .bind (stays_report closed _) fun _ _ => .pure hstart

theorem stays_initializer : Stays P initializer fun _ => True := by
  unfold initializer
  refine .bind (stays_eat _) fun b _ => ?_
  split
  · exact .bind (stays_expression closed) fun _ _ => .pure trivial
  · exact .pure trivial

theorem stays_localVar : Stays P localVar fun _ => True := by
  unfold localVar
  refine .bind (stays_here closed) fun _ _ => .bind (stays_ty closed) fun t ht => .refuse (stays_reportAt _ ht) ?_
  refine .bind (stays_identifier closed) fun _ _ => .bind (stays_initializer closed) fun _ _ => ?_
  exact .bind (stays_behind closed) fun _ _ => .pure trivial

theorem stays_expressionUnless (stop : Token) : Stays P (expressionUnless stop) fun _ => True := by
  unfold expressionUnless
  refine .peek fun t => ?_
  split
  · exact .pure trivial
  · exact .bind (stays_expression closed) fun _ _ => .pure trivial

theorem stays_condition : Stays P condition fun _ => True := by
  unfold condition
  refine .bind (stays_expect closed _) fun _ _ => .bind (stays_expression closed) fun _ _ => ?_
  exact .bind (stays_expect closed _) fun _ _ => .pure trivial

theorem stays_forInit : Stays P forInit fun _ => True := by
  unfold forInit
  refine .peek fun t => ?_
  split
  · exact .pure trivial
  · refine .get fun _ _ => ?_
    split
    · exact .bind (stays_localVar closed) fun _ _ => .pure trivial
    · exact .bind (stays_expression closed) fun _ _ => .pure trivial

/-- A semicolon at the end of what has been read. -/
theorem stays_semicolon {a : Span → α} : Stays P (do expect .semicolon; return a (← behind)) fun _ => True :=
  .bind (stays_expect closed _) fun _ _ => .bind (stays_behind closed) fun _ _ => .pure trivial

end

/-- What is read of the functions that read statements, for one bound of their recursion. -/
structure StaysStmts (P : Span → Prop) (n : Nat) : Prop where
  stmt : Stays P (stmt n) fun _ => True
  elseClause : Stays P (elseClause n) fun _ => True
  nested : Stays P (nested n) fun _ => True
  stmts : Stays P (stmts n) fun _ => True
  blockBody : Stays P (blockBody n) fun _ => True

section

variable (closed : Span.Closed P)

include closed

theorem staysStmts_zero : StaysStmts P 0 where
  stmt := .bind (stays_report closed _) fun _ _ => .bind (stays_here closed) fun _ _ => .pure trivial
  elseClause := .bind (stays_report closed _) fun _ _ => .pure trivial
  nested := .bind (stays_report closed _) fun _ _ => .bind (stays_here closed) fun _ _ => .pure trivial
  stmts := .bind (stays_report closed _) fun _ _ => .pure trivial
  blockBody := .bind (stays_report closed _) fun _ _ => .pure trivial

variable {n : Nat} (ih : StaysStmts P n)

include ih

theorem stays_stmt_succ : Stays P (stmt (n + 1)) fun _ => True := by
  unfold stmt
  refine .bind (stays_here closed) fun start _ => .peek fun t => ?_
  split
  case h_1 =>
    refine .bind stays_advance fun _ _ => .bind ih.blockBody fun _ _ => ?_
    exact .bind (stays_behind closed) fun _ _ => .pure trivial
  case h_2 =>
    refine .bind stays_advance fun _ _ => .bind (stays_condition closed) fun _ _ => .bind ih.nested fun _ _ => ?_
    exact .bind ih.elseClause fun _ _ => .bind (stays_behind closed) fun _ _ => .pure trivial
  case h_3 =>
    refine .bind stays_advance fun _ _ => .bind (stays_condition closed) fun _ _ => .bind ih.nested fun _ _ => ?_
    exact .bind (stays_behind closed) fun _ _ => .pure trivial
  case h_4 =>
    refine .bind stays_advance fun _ _ => .bind (stays_expect closed _) fun _ _ => ?_
    refine .bind (stays_forInit closed) fun _ _ => .bind (stays_expect closed _) fun _ _ => ?_
    refine .bind (stays_expressionUnless closed _) fun _ _ => .bind (stays_expect closed _) fun _ _ => ?_
    refine .bind (stays_expressionUnless closed _) fun _ _ => .bind (stays_expect closed _) fun _ _ => ?_
    exact .bind ih.nested fun _ _ => .bind (stays_behind closed) fun _ _ => .pure trivial
  case h_5 =>
    exact .bind stays_advance fun _ _ => .bind (stays_expressionUnless closed _) fun _ _ => stays_semicolon closed
  case h_6 => exact .bind stays_advance fun _ _ => stays_semicolon closed
  case h_7 => exact .bind stays_advance fun _ _ => stays_semicolon closed
  case h_8 => exact .bind stays_advance fun _ _ => .pure trivial
  case h_9 =>
    refine .get fun _ _ => ?_
    split
    · exact .bind (stays_localVar closed) fun _ _ => stays_semicolon closed
    · exact .bind (stays_expression closed) fun _ _ => stays_semicolon closed

omit closed in
theorem stays_elseClause_succ : Stays P (elseClause (n + 1)) fun _ => True := by
  unfold elseClause
  refine .bind (stays_eat _) fun b _ => ?_
  split
  · exact .bind ih.nested fun _ _ => .pure trivial
  · exact .pure trivial

theorem stays_nested_succ : Stays P (nested (n + 1)) fun _ => True := by
  unfold nested
  refine .get fun _ _ => .refuse (stays_report closed _) (.bind (stays_enterNesting closed) fun b _ => ?_)
  split
  · exact .bind ih.stmt fun _ _ => .bind stays_leaveNesting fun _ _ => .pure trivial
  · exact .bind (stays_here closed) fun _ _ => .pure trivial

omit closed in
theorem stays_stmts_succ : Stays P (stmts (n + 1)) fun _ => True := by
  unfold stmts
  refine .peek fun t => ?_
  split
  · exact .pure trivial
  · exact .pure trivial
  · refine .get fun _ _ => .bind ih.stmt fun _ _ => .get fun _ _ => .refuse stays_advance ?_
    exact .bind ih.stmts fun _ _ => .pure trivial

theorem stays_blockBody_succ : Stays P (blockBody (n + 1)) fun _ => True := by
  unfold blockBody
  refine .bind (stays_enterNesting closed) fun b _ => ?_
  split
  · refine .bind ih.stmts fun _ _ => .bind stays_leaveNesting fun _ _ => ?_
    exact .bind (stays_expect closed _) fun _ _ => .pure trivial
  · exact .pure trivial

end

section

variable (closed : Span.Closed P)

include closed

theorem staysStmts (n : Nat) : StaysStmts P n := by
  induction n with
  | zero => exact staysStmts_zero closed
  | succ n ih =>
    exact {
      stmt := stays_stmt_succ closed ih
      elseClause := stays_elseClause_succ ih
      nested := stays_nested_succ closed ih
      stmts := stays_stmts_succ ih
      blockBody := stays_blockBody_succ closed ih }

theorem stays_block : Stays P block fun _ => True := by
  unfold block
  refine .bind (stays_here closed) fun _ _ => .bind (stays_expect closed _) fun _ _ => .get fun _ _ => ?_
  exact .bind (staysStmts closed _).blockBody fun _ _ => .bind (stays_behind closed) fun _ _ => .pure trivial

/-! ## Classes -/

theorem stays_modifiersAfter (limit : Nat) (seen : List Modifier) :
    Stays P (modifiersAfter limit seen) fun _ => True := by
  induction limit generalizing seen with
  | zero => exact .pure trivial
  | succ limit ih =>
    unfold modifiersAfter
    refine .peek fun t => ?_
    split
    · exact .pure trivial
    · exact .refuse (stays_report closed _) (.bind stays_advance fun _ _ => ih _)

theorem stays_modifiers : Stays P modifiers fun _ => True := by
  unfold modifiers
  exact .get fun _ _ => stays_modifiersAfter closed _ _

theorem stays_params (limit : Nat) : Stays P (params limit) fun _ => True := by
  induction limit with
  | zero => exact .pure trivial
  | succ limit ih =>
    unfold params
    refine .peek fun t => ?_
    split
    · exact .pure trivial
    · exact .pure trivial
    · refine .bind (stays_ty closed) fun _ _ => .bind (stays_identifier closed) fun _ _ => ?_
      refine .bind (stays_eat _) fun b _ => ?_
      split
      · exact .bind ih fun _ _ => .pure trivial
      · exact .pure trivial

theorem stays_member : Stays P member fun _ => True := by
  unfold member
  refine .bind (stays_here closed) fun _ _ => .bind (stays_modifiers closed) fun _ _ => ?_
  refine .bind (stays_ty closed) fun t ht => .bind (stays_identifier closed) fun _ _ => ?_
  refine .bind (stays_eat _) fun b _ => ?_
  split
  · refine .get fun _ _ => .bind (stays_params closed _) fun _ _ => .bind (stays_expect closed _) fun _ _ => ?_
    exact .bind (stays_block closed) fun _ _ => .bind (stays_behind closed) fun _ _ => .pure trivial
  · refine .refuse (stays_reportAt _ ht) (.bind (stays_initializer closed) fun _ _ => ?_)
    exact stays_semicolon closed

theorem stays_members (limit : Nat) : Stays P (members limit) fun _ => True := by
  induction limit with
  | zero => exact .pure trivial
  | succ limit ih =>
    unfold members
    refine .peek fun t => ?_
    split
    · exact .pure trivial
    · exact .pure trivial
    · refine .get fun _ _ => .bind (stays_member closed) fun _ _ => .get fun _ _ => .refuse stays_advance ?_
      exact .bind ih fun _ _ => .pure trivial

theorem stays_classDecl : Stays P classDecl fun _ => True := by
  unfold classDecl
  refine .bind (stays_here closed) fun _ _ => .bind (stays_modifiers closed) fun _ _ => .peek fun t => ?_
  split
  · refine .bind stays_advance fun _ _ => .bind (stays_identifier closed) fun _ _ => ?_
    refine .bind (stays_expect closed _) fun _ _ => .get fun _ _ => .bind (stays_members closed _) fun _ _ => ?_
    exact .bind (stays_expect closed _) fun _ _ => .bind (stays_behind closed) fun _ _ => .pure trivial
  · exact .bind (stays_report closed _) fun _ _ => .pure trivial

theorem stays_classes (limit : Nat) : Stays P (classes limit) fun _ => True := by
  induction limit with
  | zero => exact .pure trivial
  | succ limit ih =>
    unfold classes
    refine .peek fun t => ?_
    split
    · exact .pure trivial
    · refine .get fun _ _ => .bind (stays_classDecl closed) fun _ _ => .get fun _ _ => .refuse stays_advance ?_
      exact .bind ih fun _ _ => .pure trivial

end

end Parser

namespace CompilationUnit

/-- The problems of a program are at spans that are merged from those of its tokens. -/
theorem problems_ofTokens? {P : Span → Prop} (closed : Span.Closed P) {tokens : List (Spanned Token)}
    {diagnostics : List Diagnostic} (htokens : ∀ t ∈ tokens, P t.span)
    (h : ofTokens? tokens = .error diagnostics) : ∀ d ∈ diagnostics, P d.span := by
  have hstart : (Cursor.ofTokens tokens).Has P := {
    ahead := htokens
    passed := fun s hs => absurd hs (Option.not_mem_none s)
    problems := List.forall_mem_nil _ }
  have hend := (Parser.stays_classes closed tokens.length _ hstart).1
  unfold ofTokens? at h
  split at h
  next classes cursor hrun =>
  rw [hrun] at hend
  split at h
  · cases h
  · cases h
    exact fun d hd => hend.problems d (List.mem_reverse.mp hd)

end CompilationUnit

/-! ## The problems of a text -/

theorem Lexed.Tiling.within_token {text : List UInt8} {lexed : Lexed} (h : lexed.Tiling text) :
    ∀ t ∈ lexed.tokens, t.span.Within text.length := by
  intro t ht
  refine h.within (.token t) (List.mem_mergeSort.mpr (List.mem_append_left _ ?_))
  exact List.mem_map_of_mem ht

namespace CompilationUnit

/-- Every problem of a text is at a place in it, but for the escape at the end of a text that ends in one. -/
theorem within_ofSource? {source : String} {diagnostics : List Diagnostic} (h : ofSource? source = .error diagnostics) :
    (∀ d ∈ diagnostics, d.span.Within (Utf8.encode source).length ∨
      EndsInEscape (Utf8.encode source) ∧ d = .escapeAtEnd (Utf8.encode source).length) ∧
    ((∀ d ∈ diagnostics, d.span.Within (Utf8.encode source).length) ↔ ¬EndsInEscape (Utf8.encode source)) := by
  have hlexed := @Lexed.within_of_mem_diagnostics (Utf8.encode source) .origin _ (Nat.zero_add _)
  have hescape := @Lexed.escapeAtEnd_mem_diagnostics (Utf8.encode source) .origin _ (Nat.zero_add _)
  rw [← Lexed.ofSource] at hlexed hescape
  unfold ofSource? at h
  dsimp only at h
  split at h
  · next hclean =>
    rw [List.isEmpty_iff] at hclean
    have hends : ¬EndsInEscape (Utf8.encode source) := by
      intro hends
      have hmem := hescape hends
      rw [hclean] at hmem
      exact List.not_mem_nil hmem
    have hwithin : ∀ d ∈ diagnostics, d.span.Within (Utf8.encode source).length := by
      have htokens := (Lexed.tiling_ofSource hclean).within_token
      cases hread : ofTokens? (Lexed.ofSource source).tokens with
      | ok unit =>
        rw [hread] at h
        cases h
      | error problems =>
        rw [hread] at h
        cases h
        exact problems_ofTokens? (Span.closed_within _) htokens hread
    exact ⟨fun d hd => .inl (hwithin d hd), fun _ => hends, fun _ => hwithin⟩
  · cases h
    refine ⟨hlexed, fun hwithin hends => ?_, fun hends d hd => ?_⟩
    · have hstop := (hwithin _ (hescape hends)).2
      exact Nat.not_succ_le_self _ hstop
    · exact (hlexed d hd).resolve_right fun h => hends h.1

/-- A value is missing. -/
theorem within_ofSource?_initializer :
    ∃ diagnostics, ofSource? "class A \x7b int x = ; \x7d" = .error diagnostics ∧
      diagnostics = [⟨.expectedExpression .semicolon, ⟨18, 19⟩⟩] ∧
      ∀ d ∈ diagnostics, d.span.Within (Utf8.encode "class A \x7b int x = ; \x7d").length := by
  have hproblems : (match ofSource? "class A \x7b int x = ; \x7d" with
      | .ok _ => []
      | .error diagnostics => diagnostics) = [⟨.expectedExpression .semicolon, ⟨18, 19⟩⟩] := by
    decide +kernel
  have hends : ¬EndsInEscape (Utf8.encode "class A \x7b int x = ; \x7d") := by decide +kernel
  cases h : ofSource? "class A \x7b int x = ; \x7d" with
  | ok parsed =>
    rw [h] at hproblems
    cases hproblems
  | error diagnostics =>
    rw [h] at hproblems
    exact ⟨diagnostics, rfl, hproblems, (within_ofSource? h).2.mpr hends⟩

/-- The second byte of the escape at the end of this text is behind the text. -/
theorem not_within_ofSource? :
    ofSource? "\"\\" = .error [⟨.unknownEscape, ⟨1, 3⟩⟩, ⟨.unterminatedString, ⟨0, 2⟩⟩] ∧
      ¬(Span.mk 1 3).Within (Utf8.encode "\"\\").length := by
  have hproblems : (Lexed.ofSource "\"\\").diagnostics =
      [⟨.unknownEscape, ⟨1, 3⟩⟩, ⟨.unterminatedString, ⟨0, 2⟩⟩] := by
    decide +kernel
  have hlength : (Utf8.encode "\"\\").length = 2 := by decide +kernel
  refine ⟨?_, fun hwithin => ?_⟩
  · rw [ofSource?, hproblems]
    rfl
  · rw [hlength] at hwithin
    exact absurd hwithin.2 (by decide)

end CompilationUnit

end JavaFold
