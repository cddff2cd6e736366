import JavaFold.Program.Unit.Parser
import JavaFold.Proofs.Token.Cursor

/-!
# Reading gives programs that can be written

Every program that is read without a problem is legal. The proofs follow the functions of the parser:
each ensures that what it gives is legal, by induction on the bound of its recursion.
-/

namespace JavaFold

namespace Parser

open JavaFold.Expr (LegalAll LegalOpt)

/-! ## Expressions -/

theorem ensures_missingExpr (c : Cursor) : Ensures missingExpr c fun _ _ => True := by
  unfold missingExpr
  exact .here (.pure trivial)

theorem ensures_exhausted (c : Cursor) : Ensures exhausted c fun _ _ => False := by
  unfold exhausted
  exact (Ensures.report (ensures_missingExpr _)).imp fun _ _ h => h

theorem ensures_postSteps {limit : Nat} : ∀ {operand : Expr} {c : Cursor},
    Ensures (postSteps limit operand) c fun e _ => operand.Legal → e.Legal := by
  induction limit with
  | zero =>
    intro operand c
    exact .pure fun h => h
  | succ limit ih =>
    intro operand c
    unfold postSteps
    refine .peek ?_
    split
    · refine .check rfl fun c' _ _ _ => .advance (.behind ?_)
      exact ih.imp fun e _ h named hoperand => h ⟨hoperand, named⟩
    · exact .pure fun h => h

theorem hasCompound_of_assignOp? {t : Token} {op : AssignOp} (h : assignOp? t = some op) :
    op.Legal := by
  unfold assignOp? at h
  split at h
  · cases h
    trivial
  · split at h
    · cases h
      assumption
    · cases h
  · cases h

/-- What is ensured of the functions that read expressions, for one bound of their recursion. -/
structure ReadsExprs (n : Nat) : Prop where
  expr : ∀ c : Cursor, c.Legal → Ensures (expr n) c fun e _ => e.Legal
  assignment : ∀ c : Cursor, c.Legal → Ensures (assignment n) c fun e _ => e.Legal
  binary : ∀ (least : Nat) (c : Cursor), c.Legal → Ensures (binary n least) c fun e _ => e.Legal
  binaryTail : ∀ (least : Nat) (lhs : Expr) (c : Cursor), c.Legal →
    Ensures (binaryTail n least lhs) c fun e _ => lhs.Legal → e.Legal
  unary : ∀ c : Cursor, c.Legal → Ensures (unary n) c fun e _ => e.Legal
  primary : ∀ c : Cursor, c.Legal → Ensures (primary n) c fun e _ => e.Legal
  arguments : ∀ c : Cursor, c.Legal → Ensures (arguments n) c fun es _ => LegalAll es

theorem readsExprs_zero : ReadsExprs 0 where
  expr c _ := (ensures_exhausted c).imp fun _ _ h => h.elim
  assignment c _ := (ensures_exhausted c).imp fun _ _ h => h.elim
  binary _ c _ := (ensures_exhausted c).imp fun _ _ h => h.elim
  binaryTail _ _ c _ := (ensures_exhausted c).imp fun _ _ h => h.elim
  unary c _ := (ensures_exhausted c).imp fun _ _ h => h.elim
  primary c _ := (ensures_exhausted c).imp fun _ _ h => h.elim
  arguments c _ := .bind (ensures_exhausted c) fun _ _ _ => .pure fun h => h.elim

section

variable {n : Nat} (ih : ReadsExprs n) {c : Cursor} (hc : c.Legal)

include ih hc

theorem ensures_expr_succ : Ensures (expr (n + 1)) c fun e _ => e.Legal := by
  unfold expr
  refine .bind (ensures_enterNesting c) fun b c₁ on₁ => ?_
  split
  · refine .bind (ih.assignment c₁ (on₁.legal hc)) fun e c₂ _ => ?_
    exact .bind (ensures_leaveNesting c₂) fun _ _ _ => .pure fun _ he _ => he
  · next hb => exact (ensures_missingExpr c₁).imp fun _ _ _ h => absurd h.1 hb

theorem ensures_assignment_succ : Ensures (assignment (n + 1)) c fun e _ => e.Legal := by
  unfold assignment
  refine .bind (ih.binary 0 c hc) fun target c₁ on₁ => .peek ?_
  split
  · exact .pure fun h => h
  · next op hop =>
    refine .check rfl fun c₂ on₂ _ _ => .advance ?_
    have hc₂ := (on₁.trans (on₂.trans c₂.onward_advance)).legal hc
    refine .bind (ih.assignment _ hc₂) fun value _ _ => .pure ?_
    intro hvalue named htarget
    exact ⟨hasCompound_of_assignOp? hop, htarget, named, hvalue⟩

theorem ensures_binary_succ (least : Nat) :
    Ensures (binary (n + 1) least) c fun e _ => e.Legal := by
  unfold binary
  refine .bind (ih.unary c hc) fun lhs c₁ on₁ => ?_
  exact ih.binaryTail least lhs c₁ (on₁.legal hc)

theorem ensures_binaryTail_succ (least : Nat) (lhs : Expr) :
    Ensures (binaryTail (n + 1) least lhs) c fun e _ => lhs.Legal → e.Legal := by
  unfold binaryTail
  refine .peek ?_
  split
  · split
    · exact .pure fun h => h
    · refine .advance ?_
      have hc₁ := c.onward_advance.legal hc
      refine .bind (ih.binary _ _ hc₁) fun rhs c₂ on₂ => ?_
      refine (ih.binaryTail least _ c₂ (on₂.legal hc₁)).imp ?_
      exact fun e _ he hrhs hlhs => he ⟨hlhs, hrhs⟩
  · exact .pure fun h => h

theorem ensures_unary_succ : Ensures (unary (n + 1)) c fun e _ => e.Legal := by
  unfold unary
  refine .here (.peek ?_)
  split
  · refine .bind (ih.primary c hc) fun operand c₁ _ => .get ?_
    exact ensures_postSteps
  · next op hop =>
    refine .advance (.peek ?_)
    have hc₁ := c.onward_advance.legal hc
    split
    · exact .advance (.behind (.pure trivial))
    · refine .bind (ensures_enterNesting _) fun b c₂ on₂ => ?_
      split
      · refine .bind (ih.unary c₂ (on₂.legal hc₁)) fun operand c₃ _ => ?_
        refine .bind (ensures_leaveNesting c₃) fun _ c₄ _ => ?_
        cases op with
        | step op =>
          refine .check rfl fun _ _ _ _ => .pure ?_
          exact fun named _ h _ => ⟨h, named⟩
        | neg => exact .pure fun _ h _ => h
        | not => exact .pure fun _ h _ => h
        | bitNot => exact .pure fun _ h _ => h
      · next hb => exact (ensures_missingExpr c₂).imp fun _ _ _ h => absurd h.1 hb

theorem ensures_primary_succ : Ensures (primary (n + 1)) c fun e _ => e.Legal := by
  unfold primary
  refine .here (.peek ?_)
  have hc₁ := c.onward_advance.legal hc
  split
  · refine .advance ?_
    split
    · exact .pure trivial
    · exact .reportAt (.pure trivial)
  · exact .advance (.pure trivial)
  · exact .advance (.pure trivial)
  · exact .advance (.pure trivial)
  · exact .advance (.pure trivial)
  · refine .advance (.bind (ih.expr _ hc₁) fun e c₂ _ => ?_)
    exact .bind (ensures_expect _ _) fun _ _ _ => .pure fun _ h => h
  · refine .bind (ensures_dottedName hc) fun path c₂ on₂ => ?_
    refine .bind (ensures_eat _ _) fun b c₃ on₃ => ?_
    split
    · refine .bind (ih.arguments c₃ (on₃.legal (on₂.legal hc))) fun args c₄ _ => ?_
      refine .bind (ensures_expect _ _) fun _ _ _ => .behind (.pure ?_)
      exact fun _ hargs _ hpath => ⟨hpath, hargs⟩
    · exact .pure fun _ hpath => hpath
  · exact .report (ensures_missingExpr _)

theorem ensures_arguments_succ : Ensures (arguments (n + 1)) c fun es _ => LegalAll es := by
  unfold arguments
  refine .peek ?_
  split
  · exact .pure trivial
  · exact .pure trivial
  · refine .bind (ih.expr c hc) fun arg c₁ on₁ => ?_
    refine .bind (ensures_eat _ _) fun b c₂ on₂ => ?_
    split
    · refine .bind (ih.arguments c₂ (on₂.legal (on₁.legal hc))) fun args _ _ => ?_
      exact .pure fun hargs _ harg => ⟨harg, hargs⟩
    · exact .pure fun _ harg => ⟨harg, trivial⟩

end

theorem readsExprs (n : Nat) : ReadsExprs n := by
  induction n with
  | zero => exact readsExprs_zero
  | succ n ih =>
    exact {
      expr := fun c hc => ensures_expr_succ ih hc
      assignment := fun c hc => ensures_assignment_succ ih hc
      binary := fun least c hc => ensures_binary_succ ih hc least
      binaryTail := fun least lhs c hc => ensures_binaryTail_succ ih hc least lhs
      unary := fun c hc => ensures_unary_succ ih hc
      primary := fun c hc => ensures_primary_succ ih hc
      arguments := fun c hc => ensures_arguments_succ ih hc }

theorem ensures_expression {c : Cursor} (hc : c.Legal) :
    Ensures expression c fun e _ => e.Legal := by
  unfold expression
  exact .get ((readsExprs _).expr c hc)

/-! ## Statements -/

theorem ensures_ty {c : Cursor} (hc : c.Legal) : Ensures ty c fun t _ => t.value.Legal := by
  unfold ty
  refine .here (.peek ?_)
  split
  · exact .advance (.pure trivial)
  · exact .advance (.pure trivial)
  · exact .advance (.pure trivial)
  · exact .bind (ensures_dottedName hc) fun _ _ _ => .pure fun h => h
  · exact .report (.pure trivial)

theorem ensures_initializer {c : Cursor} (hc : c.Legal) :
    Ensures initializer c fun init _ => LegalOpt init := by
  unfold initializer
  refine .bind (ensures_eat _ c) fun b c₁ on₁ => ?_
  split
  · refine .bind (ensures_expression (on₁.legal hc)) fun e _ _ => .pure ?_
    exact fun he _ x hx => Option.mem_some.mp hx ▸ he
  · exact .pure fun _ x hx => absurd hx (Option.not_mem_none x)

theorem ensures_localVar {c : Cursor} (hc : c.Legal) :
    Ensures localVar c fun s _ => s.Legal ∧ s.isSimple = true := by
  unfold localVar
  refine .here (.bind (ensures_ty hc) fun t c₁ on₁ => .refuse rfl fun c₂ on₂ _ _ => ?_)
  have hc₂ := on₂.legal (on₁.legal hc)
  refine .bind (ensures_identifier hc₂) fun name c₃ on₃ => ?_
  refine .bind (ensures_initializer (on₃.legal hc₂)) fun init _ _ => .behind (.pure ?_)
  exact fun hinit hname hvoid ht => ⟨⟨ht, hvoid, hname.2, hinit⟩, rfl⟩

theorem ensures_expressionUnless {stop : Token} {c : Cursor} (hc : c.Legal) :
    Ensures (expressionUnless stop) c fun e _ => LegalOpt e := by
  unfold expressionUnless
  refine .peek ?_
  split
  · exact .pure fun x hx => absurd hx (Option.not_mem_none x)
  · refine .bind (ensures_expression hc) fun e _ _ => .pure ?_
    exact fun he x hx => Option.mem_some.mp hx ▸ he

theorem ensures_condition {c : Cursor} (hc : c.Legal) :
    Ensures condition c fun e _ => e.Legal := by
  unfold condition
  refine .bind (ensures_expect _ c) fun _ c₁ on₁ => ?_
  refine .bind (ensures_expression (on₁.legal hc)) fun e c₂ _ => ?_
  exact .bind (ensures_expect _ c₂) fun _ _ _ => .pure fun _ he _ => he

theorem ensures_forInit {c : Cursor} (hc : c.Legal) :
    Ensures forInit c fun init _ => ∀ i ∈ init, i.Legal ∧ i.isSimple = true := by
  unfold forInit
  refine .peek ?_
  split
  · exact .pure fun i hi => absurd hi (Option.not_mem_none i)
  · refine .get ?_
    split
    · refine .bind (ensures_localVar hc) fun s _ _ => .pure ?_
      exact fun hs i hi => Option.mem_some.mp hi ▸ hs
    · refine .bind (ensures_expression hc) fun e _ _ => .pure ?_
      exact fun he i hi => Option.mem_some.mp hi ▸ ⟨he, rfl⟩

theorem legal_withSpan (span : Span) {s : Stmt} (hs : s.isSimple = true) (h : s.Legal) :
    (withSpan span s).Legal ∧ (withSpan span s).takesElse = false := by
  cases s <;> simp_all [withSpan, Stmt.isSimple, Stmt.Legal, Stmt.takesElse]

/-- A statement after which an `else` would belong to an `if` in it is followed by none. -/
def TakesNoElse (s : Stmt) (c : Cursor) : Prop :=
  s.takesElse = true → c.token ≠ .keyword .«else»

/-- What is ensured of a statement that may be a declaration only if one follows. -/
def StmtRead (isDecl : Bool) (s : Stmt) (c : Cursor) : Prop :=
  s.Legal ∧ TakesNoElse s c ∧ (isDecl = false → s.isDeclaration = false)

/-- What is ensured of the functions that read statements, for one bound of their recursion. -/
structure ReadsStmts (n : Nat) : Prop where
  stmt : ∀ c : Cursor, c.Legal → Ensures (stmt n) c (StmtRead (declFollows c.ahead))
  elseClause : ∀ c : Cursor, c.Legal → Ensures (elseClause n) c fun s c' =>
    (s = none → c'.token ≠ .keyword .«else») ∧
      ∀ e ∈ s, c.token = .keyword .«else» ∧ StmtRead false e c'
  nested : ∀ c : Cursor, c.Legal → Ensures (nested n) c (StmtRead false)
  stmts : ∀ c : Cursor, c.Legal → Ensures (stmts n) c fun ss _ => Stmt.LegalAll ss
  blockBody : ∀ c : Cursor, c.Legal → Ensures (blockBody n) c fun ss _ => Stmt.LegalAll ss

theorem readsStmts_zero : ReadsStmts 0 where
  stmt _ _ := .report (.here (.pure trivial))
  elseClause _ _ := .report (.pure trivial)
  nested _ _ := .report (.here (.pure trivial))
  stmts _ _ := .report (.pure trivial)
  blockBody _ _ := .report (.pure trivial)

section

variable {n : Nat} (ih : ReadsStmts n) {c : Cursor} (hc : c.Legal)

include ih hc

theorem ensures_stmt_succ :
    Ensures (stmt (n + 1)) c (StmtRead (declFollows c.ahead)) := by
  unfold stmt
  refine .here (.peek ?_)
  have hc₁ := c.onward_advance.legal hc
  split
  case h_1 =>
    refine .advance (.bind (ih.blockBody _ hc₁) fun ss _ _ => .behind (.pure ?_))
    exact fun hss => ⟨hss, fun h => absurd h Bool.false_ne_true, fun _ => rfl⟩
  case h_2 =>
    refine .advance (.bind (ensures_condition hc₁) fun cond c₂ on₂ => ?_)
    have hc₂ := on₂.legal hc₁
    refine .bind (ih.nested c₂ hc₂) fun t c₃ on₃ => ?_
    refine .bind (ih.elseClause c₃ (on₃.legal hc₂)) fun e c₄ _ => .behind (.pure ?_)
    intro he ht hcond
    cases e with
    | none => exact ⟨⟨hcond, ht.1, ht.2.2 rfl⟩, fun _ => he.1 rfl, fun _ => rfl⟩
    | some e =>
      have ⟨helse, he⟩ := he.2 e rfl
      have hclosed : t.takesElse = false := by
        cases h : t.takesElse with
        | false => rfl
        | true => exact absurd helse (ht.2.1 h)
      exact ⟨⟨hcond, ht.1, ht.2.2 rfl, hclosed, he.1, he.2.2 rfl⟩, he.2.1, fun _ => rfl⟩
  case h_3 =>
    refine .advance (.bind (ensures_condition hc₁) fun cond c₂ on₂ => ?_)
    refine .bind (ih.nested c₂ (on₂.legal hc₁)) fun b _ _ => .behind (.pure ?_)
    exact fun hb hcond => ⟨⟨hcond, hb.1, hb.2.2 rfl⟩, hb.2.1, fun _ => rfl⟩
  case h_4 =>
    refine .advance (.bind (ensures_expect _ _) fun _ c₂ on₂ => ?_)
    have hc₂ := on₂.legal hc₁
    refine .bind (ensures_forInit hc₂) fun i c₃ on₃ => ?_
    have hc₃ := on₃.legal hc₂
    refine .bind (ensures_expect _ _) fun _ c₄ on₄ => ?_
    have hc₄ := on₄.legal hc₃
    refine .bind (ensures_expressionUnless hc₄) fun cond c₅ on₅ => ?_
    have hc₅ := on₅.legal hc₄
    refine .bind (ensures_expect _ _) fun _ c₆ on₆ => ?_
    have hc₆ := on₆.legal hc₅
    refine .bind (ensures_expressionUnless hc₆) fun update c₇ on₇ => ?_
    have hc₇ := on₇.legal hc₆
    refine .bind (ensures_expect _ _) fun _ c₈ on₈ => ?_
    refine .bind (ih.nested c₈ (on₈.legal hc₇)) fun b _ _ => .behind (.pure ?_)
    intro hb _ hupdate _ hcond _ hi _
    cases i with
    | none => exact ⟨⟨hcond, hupdate, hb.1, hb.2.2 rfl⟩, hb.2.1, fun _ => rfl⟩
    | some i =>
      have hi := hi i rfl
      exact ⟨⟨hi.1, hi.2, hcond, hupdate, hb.1, hb.2.2 rfl⟩, hb.2.1, fun _ => rfl⟩
  case h_5 =>
    refine .advance (.bind (ensures_expressionUnless hc₁) fun e c₂ _ => ?_)
    refine .bind (ensures_expect _ c₂) fun _ _ _ => .behind (.pure ?_)
    exact fun _ he => ⟨he, fun h => absurd h Bool.false_ne_true, fun _ => rfl⟩
  case h_6 =>
    refine .advance (.bind (ensures_expect _ _) fun _ _ _ => .behind (.pure ?_))
    exact fun _ => ⟨trivial, fun h => absurd h Bool.false_ne_true, fun _ => rfl⟩
  case h_7 =>
    refine .advance (.bind (ensures_expect _ _) fun _ _ _ => .behind (.pure ?_))
    exact fun _ => ⟨trivial, fun h => absurd h Bool.false_ne_true, fun _ => rfl⟩
  case h_8 =>
    exact .advance (.pure ⟨trivial, fun h => absurd h Bool.false_ne_true, fun _ => rfl⟩)
  case h_9 =>
    refine .get ?_
    split
    · next hdecl =>
      refine .bind (ensures_localVar hc) fun s c₂ _ => ?_
      refine .bind (ensures_expect _ c₂) fun _ c₃ _ => .behind (.pure ?_)
      intro _ hs
      have ⟨hlegal, htakes⟩ := legal_withSpan (c.here.merge c₃.behind) hs.2 hs.1
      refine ⟨hlegal, fun h => ?_, fun h => absurd hdecl (by simp [h])⟩
      exact absurd (htakes ▸ h) Bool.false_ne_true
    · refine .bind (ensures_expression hc) fun e c₂ _ => ?_
      refine .bind (ensures_expect _ c₂) fun _ _ _ => .behind (.pure ?_)
      exact fun _ he => ⟨he, fun h => absurd h Bool.false_ne_true, fun _ => rfl⟩

theorem ensures_elseClause_succ : Ensures (elseClause (n + 1)) c fun s c' =>
    (s = none → c'.token ≠ .keyword .«else») ∧
      ∀ e ∈ s, c.token = .keyword .«else» ∧ StmtRead false e c' := by
  unfold elseClause
  refine .bind (ensures_eat _ c) fun b c₁ on₁ => ?_
  split
  · next hb =>
    refine .bind (ih.nested c₁ (on₁.legal hc)) fun e _ _ => .pure ?_
    intro he heat
    refine ⟨fun h => absurd h (Option.some_ne_none _), fun x hx => ?_⟩
    exact Option.mem_some.mp hx ▸ ⟨heat.2.mp hb, he⟩
  · next hb =>
    refine .pure fun heat => ⟨fun _ => ?_, fun x hx => absurd hx (Option.not_mem_none x)⟩
    have same : c₁ = c := by simpa [hb] using heat.1
    exact fun h => hb (heat.2.mpr (same ▸ h))

theorem ensures_nested_succ : Ensures (nested (n + 1)) c (StmtRead false) := by
  unfold nested
  refine .get (.refuse rfl fun c₁ on₁ same₁ _ => ?_)
  have hc₁ := on₁.legal hc
  refine .bind (ensures_enterNesting c₁) fun b c₂ on₂ => ?_
  split
  · refine .bind (ih.stmt c₂ (on₂.legal hc₁)) fun s c₃ _ => ?_
    refine .bind (ensures_leaveNesting c₃) fun _ c₄ _ => .pure ?_
    intro hleave hs henter hdecl
    have same₂ : c₂.ahead = c₁.ahead := by rw [henter.2.1]
    rw [same₂, same₁] at hs
    have htoken : c₄.token = c₃.token := by
      rw [hleave]
      rfl
    refine ⟨hs.1, fun h => htoken ▸ hs.2.1 h, fun _ => hs.2.2 ?_⟩
    simpa using hdecl
  · next hb => exact .here (.pure fun h => absurd h.1 hb)

theorem ensures_stmts_succ : Ensures (stmts (n + 1)) c fun ss _ => Stmt.LegalAll ss := by
  unfold stmts
  refine .peek ?_
  split
  · exact .pure trivial
  · exact .pure trivial
  · refine .get (.bind (ih.stmt c hc) fun s c₁ on₁ => .get (.mayAdvance fun c₂ on₂ => ?_))
    have hc₂ := on₂.legal (on₁.legal hc)
    exact .bind (ih.stmts c₂ hc₂) fun ss _ _ => .pure fun hss hs => ⟨hs.1, hss⟩

theorem ensures_blockBody_succ :
    Ensures (blockBody (n + 1)) c fun ss _ => Stmt.LegalAll ss := by
  unfold blockBody
  refine .bind (ensures_enterNesting c) fun b c₁ on₁ => ?_
  split
  · refine .bind (ih.stmts c₁ (on₁.legal hc)) fun ss c₂ _ => ?_
    refine .bind (ensures_leaveNesting c₂) fun _ c₃ _ => ?_
    refine .bind (ensures_expect _ c₃) fun _ _ _ => .pure ?_
    exact fun _ _ hss _ => hss
  · next hb => exact .pure fun h => absurd h.1 hb

end

theorem readsStmts (n : Nat) : ReadsStmts n := by
  induction n with
  | zero => exact readsStmts_zero
  | succ n ih =>
    exact {
      stmt := fun c hc => ensures_stmt_succ ih hc
      elseClause := fun c hc => ensures_elseClause_succ ih hc
      nested := fun c hc => ensures_nested_succ ih hc
      stmts := fun c hc => ensures_stmts_succ ih hc
      blockBody := fun c hc => ensures_blockBody_succ ih hc }

theorem ensures_block {c : Cursor} (hc : c.Legal) :
    Ensures block c fun b _ => Stmt.LegalAll b.stmts := by
  unfold block
  refine .here (.bind (ensures_expect _ c) fun _ c₁ on₁ => .get ?_)
  refine .bind ((readsStmts _).blockBody c₁ (on₁.legal hc)) fun ss _ _ => .behind (.pure ?_)
  exact fun hss _ => hss

/-! ## Classes -/

theorem ensures_modifiersAfter {limit : Nat} : ∀ {seen : List Modifier} {c : Cursor},
    Ensures (modifiersAfter limit seen) c fun ms _ => seen.Nodup → ms.Nodup := by
  induction limit with
  | zero =>
    intro seen c
    exact .pure fun h => h
  | succ limit ih =>
    intro seen c
    unfold modifiersAfter
    refine .peek ?_
    split
    · exact .pure fun h => h
    · next m _ =>
      refine .refuse rfl fun c₁ _ _ _ => .advance (ih.imp fun ms _ h hnew hseen => h ?_)
      refine List.nodup_append.mpr ⟨hseen, List.pairwise_singleton _ m, fun a ha b hb => ?_⟩
      rw [List.mem_singleton.mp hb]
      exact fun h => hnew (h ▸ ha)

theorem ensures_modifiers (c : Cursor) : Ensures modifiers c fun ms _ => ms.Nodup := by
  unfold modifiers
  exact .get (ensures_modifiersAfter.imp fun _ _ h => h List.nodup_nil)

theorem ensures_params {limit : Nat} : ∀ {c : Cursor}, c.Legal →
    Ensures (params limit) c fun ps _ => ∀ p ∈ ps, p.Legal := by
  induction limit with
  | zero =>
    intro c _
    exact .pure fun p hp => absurd hp List.not_mem_nil
  | succ limit ih =>
    intro c hc
    unfold params
    refine .peek ?_
    split
    · exact .pure fun p hp => absurd hp List.not_mem_nil
    · exact .pure fun p hp => absurd hp List.not_mem_nil
    · refine .bind (ensures_ty hc) fun t c₁ on₁ => ?_
      have hc₁ := on₁.legal hc
      refine .bind (ensures_identifier hc₁) fun name c₂ on₂ => ?_
      have hc₂ := on₂.legal hc₁
      refine .bind (ensures_eat _ c₂) fun b c₃ on₃ => ?_
      split
      · refine .bind (ih (on₃.legal hc₂)) fun ps _ _ => .pure ?_
        intro hps _ hname ht p hp
        rcases List.mem_cons.mp hp with rfl | hp
        · exact ⟨ht, hname.2⟩
        · exact hps p hp
      · refine .pure fun _ hname ht p hp => ?_
        rw [List.mem_singleton.mp hp]
        exact ⟨ht, hname.2⟩

theorem ensures_member {c : Cursor} (hc : c.Legal) : Ensures member c fun m _ => m.Legal := by
  unfold member
  refine .here (.bind (ensures_modifiers c) fun ms c₁ on₁ => ?_)
  have hc₁ := on₁.legal hc
  refine .bind (ensures_ty hc₁) fun t c₂ on₂ => ?_
  have hc₂ := on₂.legal hc₁
  refine .bind (ensures_identifier hc₂) fun name c₃ on₃ => ?_
  have hc₃ := on₃.legal hc₂
  refine .bind (ensures_eat _ c₃) fun b c₄ on₄ => ?_
  have hc₄ := on₄.legal hc₃
  split
  · refine .get (.bind (ensures_params hc₄) fun ps c₅ on₅ => ?_)
    refine .bind (ensures_expect _ c₅) fun _ c₆ on₆ => ?_
    refine .bind (ensures_block (on₆.legal (on₅.legal hc₄))) fun body _ _ => .behind (.pure ?_)
    exact fun hbody _ hps _ hname ht hms => ⟨hms, ht, hname.2, hps, hbody⟩
  · refine .refuse rfl fun c₅ on₅ _ _ => ?_
    refine .bind (ensures_initializer (on₅.legal hc₄)) fun init c₆ _ => ?_
    refine .bind (ensures_expect _ c₆) fun _ _ _ => .behind (.pure ?_)
    exact fun _ hinit hvoid _ hname ht hms => ⟨hms, ht, hvoid, hname.2, hinit⟩

theorem ensures_members {limit : Nat} : ∀ {c : Cursor}, c.Legal →
    Ensures (members limit) c fun ms _ => ∀ m ∈ ms, m.Legal := by
  induction limit with
  | zero =>
    intro c _
    exact .pure fun m hm => absurd hm List.not_mem_nil
  | succ limit ih =>
    intro c hc
    unfold members
    refine .peek ?_
    split
    · exact .pure fun m hm => absurd hm List.not_mem_nil
    · exact .pure fun m hm => absurd hm List.not_mem_nil
    · refine .get (.bind (ensures_member hc) fun m c₁ on₁ => .get (.mayAdvance fun c₂ on₂ => ?_))
      refine .bind (ih (on₂.legal (on₁.legal hc))) fun ms _ _ => .pure ?_
      exact fun hms hm => List.forall_mem_cons.mpr ⟨hm, hms⟩

theorem ensures_classDecl {c : Cursor} (hc : c.Legal) :
    Ensures classDecl c fun d _ => d.Legal := by
  unfold classDecl
  refine .here (.bind (ensures_modifiers c) fun ms c₁ on₁ => .peek ?_)
  split
  · refine .advance ?_
    have hc₂ := c₁.onward_advance.legal (on₁.legal hc)
    refine .bind (ensures_identifier hc₂) fun name c₃ on₃ => ?_
    refine .bind (ensures_expect _ c₃) fun _ c₄ on₄ => .get ?_
    refine .bind (ensures_members (on₄.legal (on₃.legal hc₂))) fun members c₅ _ => ?_
    refine .bind (ensures_expect _ c₅) fun _ _ _ => .behind (.pure ?_)
    exact fun _ hmembers _ hname hms => ⟨hms, hname.2, hmembers⟩
  · exact .report (.pure trivial)

theorem ensures_classes {limit : Nat} : ∀ {c : Cursor}, c.Legal →
    Ensures (classes limit) c fun ds _ => ∀ d ∈ ds, d.Legal := by
  induction limit with
  | zero =>
    intro c _
    exact .pure fun d hd => absurd hd List.not_mem_nil
  | succ limit ih =>
    intro c hc
    unfold classes
    refine .peek ?_
    split
    · exact .pure fun d hd => absurd hd List.not_mem_nil
    · refine .get (.bind (ensures_classDecl hc) fun d c₁ on₁ => .get (.mayAdvance fun c₂ on₂ => ?_))
      refine .bind (ih (on₂.legal (on₁.legal hc))) fun ds _ _ => .pure ?_
      exact fun hds hd => List.forall_mem_cons.mpr ⟨hd, hds⟩

end Parser

/-! ## Words -/

namespace Piece

/-- A word starts with a letter, and letters and digits follow; a sign is no word. -/
def WordShaped : Piece → Prop
  | word run => ∃ b rest, run = b :: rest ∧ Ascii.startsWord b = true ∧
      ∀ c ∈ rest, Ascii.continuesWord c = true
  | sign _ token => token.Legal
  | _ => True

theorem legal_of_signAt? {bytes spelling : List UInt8} {token : Token}
    (h : signAt? bytes = some (spelling, token)) : token.Legal := by
  have mem := List.mem_of_find?_eq_some h
  have all : ∀ s ∈ signs, s.2.Legal := by simp [signs, Token.Legal]
  obtain ⟨s, hs, heq⟩ := List.mem_map.mp mem
  cases heq
  exact all s hs

theorem wordShaped_next (b : UInt8) (rest : List UInt8) : (next b rest).1.WordShaped := by
  unfold next
  split
  · trivial
  split
  · trivial
  split
  · trivial
  split
  · next h => exact ⟨b, _, rfl, h, List.all_eq_true.mp List.all_takeWhile⟩
  split
  · trivial
  split
  · trivial
  split
  · next h => exact legal_of_signAt? h
  · trivial

theorem wordShaped_cut (text : List UInt8) : ∀ piece ∈ cut text, piece.WordShaped := by
  fun_induction cut text with
  | case1 => exact fun piece h => absurd h List.not_mem_nil
  | case2 b rest ih => exact List.forall_mem_cons.mpr ⟨wordShaped_next b rest, ih⟩

end Piece

namespace Lexed

theorem legal_wordToken {run : List UInt8} (h : (Piece.word run).WordShaped) :
    (wordToken (Ascii.text run)).Legal := by
  obtain ⟨b, rest, rfl, hb, hrest⟩ := h
  unfold wordToken
  split
  · trivial
  · next hkeyword => exact ⟨b, rest, hb, hrest, rfl, hkeyword⟩

theorem legal_token? {offset : Nat} {piece : Piece} {t : Token} (h : piece.WordShaped)
    (ht : token? offset piece = some t) : t.Legal := by
  cases piece with
  | word run => exact Option.some.inj ht ▸ legal_wordToken h
  | sign spelling token => exact Option.some.inj ht ▸ h
  | number digits => exact Option.some.inj ht ▸ trivial
  | quoted body closed => exact Option.some.inj ht ▸ trivial
  | blank run => cases ht
  | lineComment body => cases ht
  | blockComment body closed => cases ht
  | stray byte => cases ht

theorem legal_ofPieces : ∀ {pieces : List Piece} {place : Place},
    (∀ piece ∈ pieces, piece.WordShaped) → ∀ t ∈ (ofPieces place pieces).tokens, t.value.Legal := by
  intro pieces
  induction pieces with
  | nil =>
    intro place _ t ht
    rw [List.mem_singleton.mp ht]
    trivial
  | cons piece pieces ih =>
    intro place h t ht
    have ⟨hpiece, hpieces⟩ := List.forall_mem_cons.mp h
    rcases List.mem_append.mp ht with ht | ht
    · obtain ⟨token, htoken, rfl⟩ := Option.map_eq_some_iff.mp (Option.mem_toList.mp ht)
      exact legal_token? hpiece htoken
    · exact ih hpieces t ht

theorem legal_ofSource (source : String) : ∀ t ∈ (ofSource source).tokens, t.value.Legal := by
  exact legal_ofPieces (Piece.wordShaped_cut _)

end Lexed

/-- What is there has succeeded. -/
theorem eq_ok_of_toOption {ε α : Type} {x : Except ε α} {a : α} (h : x.toOption = some a) : x = .ok a := by
  cases x with
  | error e => cases h
  | ok a' => rw [Option.some.inj h]

namespace CompilationUnit

/-- What is read from tokens whose names are words is a program that can be written. -/
theorem legal_of_ofTokens? {tokens : List (Spanned Token)} {unit : CompilationUnit}
    (ht : ∀ t ∈ tokens, t.value.Legal) (h : ofTokens? tokens = .ok unit) : unit.Legal := by
  have hread : Parser.Ensures (Parser.classes tokens.length) (.ofTokens tokens) _ :=
    Parser.ensures_classes ht
  unfold ofTokens? at h
  split at h
  next classes cursor hrun =>
  have hpost := hread.post
  rw [hrun] at hpost
  split at h
  · next clean =>
    cases h
    exact hpost (List.isEmpty_iff.mp clean)
  · cases h

/-- Every program that is read from a source text can be written. -/
theorem legal_of_ofSource? {source : String} {unit : CompilationUnit} {comments : List Comment}
    (h : ofSource? source = .ok (unit, comments)) : unit.Legal := by
  unfold ofSource? at h
  dsimp only at h
  split at h
  · cases hunit : ofTokens? (Lexed.ofSource source).tokens with
    | error e =>
      rw [hunit] at h
      cases h
    | ok u =>
      rw [hunit] at h
      cases h
      exact legal_of_ofTokens? (Lexed.legal_ofSource source) hunit
  · cases h

end CompilationUnit

end JavaFold
