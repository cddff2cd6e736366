import JavaFold.Proofs.Program.Grammar.Sound.Expr

/-!
# Statements that are read derive from the grammar

The same for statements. That an `else` belongs to the nearest `if` shows at the token after a statement.
-/

namespace JavaFold

namespace Grammar

open JavaFold.Parser

/-! ## Declarations and headers -/

theorem gives_ty (c : Cursor) : Ensures ty c fun t c' => c.Gives (fun ts n => n = 0 ∧ TyTokens t ts) c' := by
  have hword : ∀ {word : Keyword} {ty : Ty}, c.token = .keyword word →
      (word, ty) ∈ [(.int, .int), (.boolean, .boolean), (.void, .void)] →
        c.Gives (fun ts n => n = 0 ∧ TyTokens ⟨ty, c.here⟩ ts) c.advance := by
    intro word ty htoken h ends
    exact ⟨_, 0, ends.pass htoken (by simp), rfl, .word (t := ⟨.keyword word, c.here⟩) rfl h⟩
  unfold ty
  refine .here (.peek ?_)
  split
  · next htoken => exact .advance (.pure (hword htoken (by simp)))
  · next htoken => exact .advance (.pure (hword htoken (by simp)))
  · next htoken => exact .advance (.pure (hword htoken (by simp)))
  · refine .bind (ensures_dottedName_tokens c) fun path c₁ _ => .pure fun hpath ends => ?_
    obtain ⟨ts, _, hpassed, rfl, hpath⟩ := hpath ends
    exact ⟨ts, 0, hpassed, rfl, .path hpath⟩
  · exact .report (.pure trivial)

theorem gives_initializer (c : Cursor) : Ensures initializer c fun init c' => c.Gives (InitTokens true init) c' := by
  unfold initializer
  refine .bind (ensures_eat .assign c) fun b c₁ _ => ?_
  split
  · next hb =>
    refine .bind (gives_expression c₁) fun e c₂ _ => .pure fun he heat ends => ?_
    obtain ⟨rfl, hassign⟩ := heat
    have hpass := ends.pass (hassign.mp hb) (by simp)
    obtain ⟨ts, _, hpassed, m, rfl, he⟩ := he hpass.ends
    exact ⟨_, _, hpass.cons hpassed, .some (t := ⟨.assign, c.here⟩) rfl he⟩
  · refine .pure fun heat ends => ?_
    obtain ⟨rfl, -⟩ := heat
    exact ⟨[], 0, .refl ends, .none⟩

theorem gives_localVar (c : Cursor) : Ensures localVar c fun s c' => s.isDeclaration = true ∧ c.Gives (fun ts n =>
    ∃ ty name init, s = .localVar (spanAll ts) ty name init ∧ DeclTokens true ty name init ts n) c' := by
  unfold localVar
  refine .here (.bind (gives_ty c) fun ty c₁ _ => .refuse rfl fun c₂ _ _ same => ?_)
  refine .bind (ensures_identifier_token c₂) fun name c₃ _ => ?_
  refine .bind (gives_initializer c₃) fun init c₄ _ => .behind (.pure ?_)
  rintro hinit ⟨rfl, htoken, hspan⟩ hvoid hty
  refine ⟨rfl, fun ends => ?_⟩
  obtain rfl := same hvoid
  obtain ⟨ts, _, hpassed, rfl, hty⟩ := hty ends
  have hpass := hpassed.ends.pass htoken (by simp)
  obtain ⟨us, m, hpassed', hinit⟩ := hinit hpass.ends
  have hall := hpassed.trans (hpass.cons hpassed')
  rw [Nat.zero_max] at hall
  refine ⟨_, _, hall, ty, name, init, ?_, ?_⟩
  · rw [hall.span (by simp)]
  · obtain ⟨name, span⟩ := name
    obtain rfl : span = c₂.here := hspan
    exact .mk (t := ⟨.identifier name, c₂.here⟩) hty hvoid rfl hinit

theorem takesElse_withSpan (span : Span) {s : Stmt} (h : s.isDeclaration = true) :
    (withSpan span s).takesElse = false := by
  cases s <;> first | rfl | cases h

theorem gives_expressionUnless {stop : Token} (c : Cursor) : Ensures (expressionUnless stop) c fun e c' =>
    c.Gives (OptionalTokens true e) c' := by
  unfold expressionUnless
  refine .peek ?_
  split
  · exact .pure fun ends => ⟨[], 0, .refl ends, .none⟩
  · refine .bind (gives_expression c) fun e c₁ _ => .pure fun he ends => ?_
    obtain ⟨ts, _, hpassed, m, rfl, he⟩ := he ends
    exact ⟨ts, _, hpassed, .some he⟩

/-- A condition, with its parentheses. -/
def ConditionTokens (e : Expr) (ts : List (Spanned Token)) (n : Nat) : Prop :=
  ∃ l us r m, ts = l :: (us ++ [r]) ∧ n = m + 1 ∧ l.value = .lparen ∧ ExprTokens true (.expr 0 e) us m ∧
    r.value = .rparen

theorem gives_condition (c : Cursor) : Ensures condition c fun e c' => c.Gives (ConditionTokens e) c' := by
  unfold condition
  refine .bind (ensures_expect .lparen c) fun _ c₁ _ => ?_
  refine .bind (gives_expression c₁) fun e c₂ _ => ?_
  refine .bind (ensures_expect .rparen c₂) fun _ c₃ _ => .pure ?_
  rintro ⟨rfl, hclose⟩ he ⟨rfl, hopen⟩ ends
  have hpass := ends.pass hopen (by simp)
  obtain ⟨us, _, hpassed, m, rfl, he⟩ := he hpass.ends
  have hpass' := hpassed.ends.pass hclose (by simp)
  exact ⟨_, _, hpass.cons (hpassed.concat hpass'), _, us, _, m, rfl, rfl, rfl, he, rfl⟩

theorem gives_forInit (c : Cursor) : Ensures forInit c fun init c' => c.Gives (ForInitTokens true init) c' := by
  unfold forInit
  refine .peek ?_
  split
  · exact .pure fun ends => ⟨[], 0, .refl ends, .none⟩
  · refine .get ?_
    split
    · refine .bind (gives_localVar c) fun s c₁ _ => .pure fun hs ends => ?_
      obtain ⟨ts, n, hpassed, ty, name, init, rfl, hdecl⟩ := hs.2 ends
      exact ⟨ts, n, hpassed, .localVar hdecl⟩
    · refine .bind (gives_expression c) fun e c₁ _ => .pure fun he ends => ?_
      obtain ⟨ts, _, hpassed, m, rfl, he⟩ := he ends
      exact ⟨ts, _, hpassed, .expr he⟩

/-! ## Statements -/

/-- What is ensured of a function that reads a statement. -/
def GivesStmt (c : Cursor) (s : Stmt) (c' : Cursor) : Prop :=
  TakesNoElse s c' ∧ (declFollows c.ahead = false → s.isDeclaration = false) ∧
    c.Gives (StmtTokens true (.stmt s)) c'

/-- What is ensured of a function that reads the body of another statement. -/
def GivesNested (c : Cursor) (s : Stmt) (c' : Cursor) : Prop :=
  TakesNoElse s c' ∧ s.isDeclaration = false ∧
    c.Gives (fun ts n => ∃ k, n = k + 1 ∧ StmtTokens true (.stmt s) ts k) c'

/-- What is ensured of a function that reads an `else` with its statement, if there is one. -/
def GivesElse (c : Cursor) (e : Option Stmt) (c' : Cursor) : Prop :=
  (e = none → c'.token ≠ .keyword .«else» ∧ c' = c) ∧
    ∀ s ∈ e, c.token = .keyword .«else» ∧ GivesNested c.advance s c'

/-- The statements of a block one level deeper, with the closing brace. -/
def BodyTokens (ss : List Stmt) (ts : List (Spanned Token)) (n : Nat) : Prop :=
  ∃ us r k, ts = us ++ [r] ∧ n = k + 1 ∧ StmtTokens true (.stmts ss) us k ∧ r.value = .rbrace

/-! ### The forms of a statement -/

section

variable {c c₁ c₂ c₃ c₄ c₅ : Cursor} {s : Stmt}

theorem givesStmt_block {ss : List Stmt} (htoken : c.token = .lbrace) (h : c.advance.Gives (BodyTokens ss) c₁) :
    GivesStmt c (.block (c.here.merge c₁.behind) ss) c₁ := by
  refine ⟨fun h => absurd h Bool.false_ne_true, fun _ => rfl, fun ends => ?_⟩
  have hpass := ends.pass htoken (by simp)
  obtain ⟨_, _, hpassed, us, r, k, rfl, rfl, hss, hr⟩ := h hpass.ends
  have hall := hpass.cons hpassed
  refine ⟨_, _, hall, ?_⟩
  rw [hall.span (by simp)]
  exact .block (l := ⟨.lbrace, c.here⟩) rfl hss hr

/-- The tokens of a keyword, a condition and a statement. -/
theorem passed_header {k : Keyword} {cond : Expr} (htoken : c.token = .keyword k)
    (hcond : c.advance.Gives (ConditionTokens cond) c₁) (hs : GivesNested c₁ s c₂) (ends : c.Ends) :
    ∃ l cs r ts a b, c.Passed (⟨.keyword k, c.here⟩ :: l :: (cs ++ r :: ts)) (max (a + 1) (b + 1)) c₂ ∧
      l.value = .lparen ∧ ExprTokens true (.expr 0 cond) cs a ∧ r.value = .rparen ∧
      StmtTokens true (.stmt s) ts b := by
  have hpass := ends.pass htoken (by simp)
  obtain ⟨_, _, hpassed, l, cs, r, a, rfl, rfl, hl, hcond, hr⟩ := hcond hpass.ends
  obtain ⟨ts, _, hpassed', b, rfl, hs⟩ := hs.2.2 hpassed.ends
  have hall := hpass.cons (hpassed.trans hpassed')
  rw [List.cons_append, List.append_assoc, List.singleton_append] at hall
  exact ⟨l, cs, r, ts, a, b, hall, hl, hcond, hr, hs⟩

/-- An `else` belongs to the nearest `if`, since that one takes it if it is there. -/
theorem givesStmt_ifElse {cond : Expr} {e : Option Stmt} (htoken : c.token = .keyword .«if»)
    (hcond : c.advance.Gives (ConditionTokens cond) c₁) (hs : GivesNested c₁ s c₂) (helse : GivesElse c₂ e c₃) :
    GivesStmt c (.ifElse (c.here.merge c₃.behind) cond s e) c₃ := by
  cases e with
  | none =>
    obtain ⟨hno, rfl⟩ := helse.1 rfl
    refine ⟨fun _ => hno, fun _ => rfl, fun ends => ?_⟩
    obtain ⟨l, cs, r, ts, a, b, hall, hl, hcond, hr, hstmt⟩ := passed_header htoken hcond hs ends
    refine ⟨_, _, hall, ?_⟩
    rw [hall.span (by simp)]
    exact .ifElse (k := ⟨.keyword .«if», c.here⟩) rfl hl hcond hr hstmt hs.2.1
  | some s' =>
    obtain ⟨htoken', htakes', hdecl', hs'⟩ := helse.2 s' rfl
    refine ⟨htakes', fun _ => rfl, fun ends => ?_⟩
    obtain ⟨l, cs, r, ts, a, b, hpassed, hl, hcond, hr, hstmt⟩ := passed_header htoken hcond hs ends
    have hpass' := hpassed.ends.pass htoken' (by simp)
    obtain ⟨us, _, hpassed', b', rfl, hs'⟩ := hs' hpass'.ends
    have hall := hpassed.trans (hpass'.cons hpassed')
    rw [List.cons_append, List.cons_append, List.append_assoc, List.cons_append, max_assoc] at hall
    have hclosed : s.takesElse = false := Bool.eq_false_iff.mpr fun h => hs.1 h htoken'
    refine ⟨_, _, hall, ?_⟩
    rw [hall.span (by simp)]
    exact .ifElse_else (k := ⟨.keyword .«if», c.here⟩) rfl hl hcond hr hstmt hs.2.1 hclosed rfl hs' hdecl'

theorem givesStmt_whileLoop {cond : Expr} (htoken : c.token = .keyword .«while»)
    (hcond : c.advance.Gives (ConditionTokens cond) c₁) (hs : GivesNested c₁ s c₂) :
    GivesStmt c (.whileLoop (c.here.merge c₂.behind) cond s) c₂ := by
  refine ⟨hs.1, fun _ => rfl, fun ends => ?_⟩
  obtain ⟨l, cs, r, ts, a, b, hall, hl, hcond, hr, hstmt⟩ := passed_header htoken hcond hs ends
  refine ⟨_, _, hall, ?_⟩
  rw [hall.span (by simp)]
  exact .whileLoop (k := ⟨.keyword .«while», c.here⟩) rfl hl hcond hr hstmt hs.2.1

theorem givesStmt_forLoop {init : Option Stmt} {cond update : Option Expr} (htoken : c.token = .keyword .«for»)
    (hl : c.advance.token = .lparen) (hinit : c.advance.advance.Gives (ForInitTokens true init) c₁)
    (hm : c₁.token = .semicolon) (hcond : c₁.advance.Gives (OptionalTokens true cond) c₂)
    (hm' : c₂.token = .semicolon) (hupdate : c₂.advance.Gives (OptionalTokens true update) c₃)
    (hr : c₃.token = .rparen) (hs : GivesNested c₃.advance s c₄) :
    GivesStmt c (.forLoop (c.here.merge c₄.behind) init cond update s) c₄ := by
  refine ⟨hs.1, fun _ => rfl, fun ends => ?_⟩
  have hk := ends.pass htoken (by simp)
  have hl := hk.ends.pass hl (by simp)
  obtain ⟨is, a, hpassed, hinit⟩ := hinit hl.ends
  have hm := hpassed.ends.pass hm (by simp)
  obtain ⟨cs, b, hpassed', hcond⟩ := hcond hm.ends
  have hm' := hpassed'.ends.pass hm' (by simp)
  obtain ⟨vs, d, hpassed'', hupdate⟩ := hupdate hm'.ends
  have hr := hpassed''.ends.pass hr (by simp)
  obtain ⟨ts, _, hbody, e, rfl, hstmt⟩ := hs.2.2 hr.ends
  have hall := hk.cons (hl.cons (hpassed.trans (hm.cons (hpassed'.trans (hm'.cons (hpassed''.trans
    (hr.cons hbody)))))))
  have hsecond : (⟨.semicolon, c₂.here⟩ : Spanned Token).value = .semicolon := rfl
  refine ⟨_, _, hall, ?_⟩
  rw [hall.span (by simp)]
  exact .forLoop (k := ⟨.keyword .«for», c.here⟩) (l := ⟨.lparen, c.advance.here⟩) (m := ⟨.semicolon, c₁.here⟩)
    (r := ⟨.rparen, c₃.here⟩) rfl rfl hinit rfl hcond hsecond hupdate rfl hstmt hs.2.1

theorem givesStmt_ret {value : Option Expr} (htoken : c.token = .keyword .«return»)
    (h : c.advance.Gives (OptionalTokens true value) c₁) (hr : c₁.token = .semicolon) :
    GivesStmt c (.ret (c.here.merge c₁.advance.behind) value) c₁.advance := by
  refine ⟨fun h => absurd h Bool.false_ne_true, fun _ => rfl, fun ends => ?_⟩
  have hk := ends.pass htoken (by simp)
  obtain ⟨ts, a, hpassed, hvalue⟩ := h hk.ends
  have hall := hk.cons (hpassed.concat (hpassed.ends.pass hr (by simp)))
  refine ⟨_, _, hall, ?_⟩
  rw [hall.span (by simp)]
  exact .ret (k := ⟨.keyword .«return», c.here⟩) (r := ⟨.semicolon, c₁.here⟩) rfl hvalue rfl

/-- A statement that is a keyword with its semicolon. -/
theorem givesStmt_jump {k : Keyword} {jump : Span → Stmt} (htoken : c.token = .keyword k)
    (hr : c.advance.token = .semicolon) (htakes : ∀ span, (jump span).takesElse = false)
    (hdecl : ∀ span, (jump span).isDeclaration = false)
    (hjump : ∀ {t r : Spanned Token}, t.value = .keyword k → r.value = .semicolon →
      StmtTokens true (.stmt (jump (spanAll [t, r]))) [t, r] 0) :
    GivesStmt c (jump (c.here.merge c.advance.advance.behind)) c.advance.advance := by
  refine ⟨fun h => absurd h (by simp [htakes]), fun _ => hdecl _, fun ends => ?_⟩
  have hk := ends.pass htoken (by simp)
  have hall := hk.cons (hk.ends.pass hr (by simp))
  refine ⟨_, _, hall, ?_⟩
  rw [hall.span (by simp)]
  exact hjump rfl rfl

theorem givesStmt_empty (htoken : c.token = .semicolon) : GivesStmt c (.empty c.here) c.advance := by
  refine ⟨fun h => absurd h Bool.false_ne_true, fun _ => rfl, fun ends => ?_⟩
  exact ⟨_, _, ends.pass htoken (by simp), .empty (t := ⟨.semicolon, c.here⟩) rfl⟩

theorem givesStmt_localVar (hfollows : declFollows c.ahead = true) (hlocal : s.isDeclaration = true)
    (hs : c.Gives (fun ts n =>
      ∃ ty name init, s = .localVar (spanAll ts) ty name init ∧ DeclTokens true ty name init ts n) c₁)
    (hr : c₁.token = .semicolon) :
    GivesStmt c (withSpan (c.here.merge c₁.advance.behind) s) c₁.advance := by
  refine ⟨fun h => ?_, fun h => absurd hfollows (by simp [h]), fun ends => ?_⟩
  · rw [takesElse_withSpan _ hlocal] at h
    cases h
  · obtain ⟨ts, a, hpassed, ty, name, init, rfl, hvar⟩ := hs ends
    have hall := hpassed.concat (hpassed.ends.pass hr (by simp))
    refine ⟨_, _, hall, ?_⟩
    rw [hall.span (by simp)]
    exact .localVar (r := ⟨.semicolon, c₁.here⟩) hvar rfl

theorem givesStmt_expr {e : Expr} (he : c.Gives (fun ts n => ∃ m, n = m + 1 ∧ ExprTokens true (.expr 0 e) ts m) c₁)
    (hr : c₁.token = .semicolon) :
    GivesStmt c (.expr (c.here.merge c₁.advance.behind) e) c₁.advance := by
  refine ⟨fun h => absurd h Bool.false_ne_true, fun _ => rfl, fun ends => ?_⟩
  obtain ⟨ts, _, hpassed, a, rfl, he⟩ := he ends
  have hall := hpassed.concat (hpassed.ends.pass hr (by simp))
  refine ⟨_, _, hall, ?_⟩
  rw [hall.span (by simp)]
  exact .expr (r := ⟨.semicolon, c₁.here⟩) he rfl

end

/-! ### The functions that read statements -/

/-- What is ensured of the functions that read statements, for one bound of their recursion. -/
structure GivesStmts (n : Nat) : Prop where
  stmt : ∀ c : Cursor, Ensures (stmt n) c (GivesStmt c)
  elseClause : ∀ c : Cursor, Ensures (elseClause n) c (GivesElse c)
  nested : ∀ c : Cursor, Ensures (nested n) c (GivesNested c)
  stmts : ∀ c : Cursor, Ensures (stmts n) c fun ss c' => c.Gives (StmtTokens true (.stmts ss)) c'
  blockBody : ∀ c : Cursor, Ensures (blockBody n) c fun ss c' => c.Gives (BodyTokens ss) c'

theorem givesStmts_zero : GivesStmts 0 where
  stmt _ := .report (.here (.pure trivial))
  elseClause _ := .report (.pure trivial)
  nested _ := .report (.here (.pure trivial))
  stmts _ := .report (.pure trivial)
  blockBody _ := .report (.pure trivial)

section

variable {n : Nat} (ih : GivesStmts n) (c : Cursor)

include ih

theorem gives_stmt_succ : Ensures (stmt (n + 1)) c (GivesStmt c) := by
  unfold stmt
  refine .here (.peek ?_)
  split
  case h_1 htoken =>
    exact .advance (.bind (ih.blockBody _) fun ss c₁ _ => .behind (.pure fun hss => givesStmt_block htoken hss))
  case h_2 htoken =>
    refine .advance (.bind (gives_condition _) fun cond c₁ _ => ?_)
    refine .bind (ih.nested c₁) fun s c₂ _ => ?_
    refine .bind (ih.elseClause c₂) fun e c₃ _ => .behind (.pure fun helse hs hcond => ?_)
    exact givesStmt_ifElse htoken hcond hs helse
  case h_3 htoken =>
    refine .advance (.bind (gives_condition _) fun cond c₁ _ => ?_)
    refine .bind (ih.nested c₁) fun s c₂ _ => .behind (.pure fun hs hcond => ?_)
    exact givesStmt_whileLoop htoken hcond hs
  case h_4 htoken =>
    refine .advance (.bind (ensures_expect .lparen _) fun _ c₁ _ => ?_)
    refine .bind (gives_forInit c₁) fun init c₂ _ => ?_
    refine .bind (ensures_expect .semicolon c₂) fun _ c₃ _ => ?_
    refine .bind (gives_expressionUnless c₃) fun cond c₄ _ => ?_
    refine .bind (ensures_expect .semicolon c₄) fun _ c₅ _ => ?_
    refine .bind (gives_expressionUnless c₅) fun update c₆ _ => ?_
    refine .bind (ensures_expect .rparen c₆) fun _ c₇ _ => ?_
    refine .bind (ih.nested c₇) fun s c₈ _ => .behind (.pure ?_)
    rintro hs ⟨rfl, hr⟩ hupdate ⟨rfl, hm'⟩ hcond ⟨rfl, hm⟩ hinit ⟨rfl, hl⟩
    exact givesStmt_forLoop htoken hl hinit hm hcond hm' hupdate hr hs
  case h_5 htoken =>
    refine .advance (.bind (gives_expressionUnless _) fun e c₁ _ => ?_)
    refine .bind (ensures_expect .semicolon c₁) fun _ c₂ _ => .behind (.pure ?_)
    rintro ⟨rfl, hr⟩ he
    exact givesStmt_ret htoken he hr
  case h_6 htoken =>
    refine .advance (.bind (ensures_expect .semicolon _) fun _ c₁ _ => .behind (.pure ?_))
    rintro ⟨rfl, hr⟩
    exact givesStmt_jump htoken hr (fun _ => rfl) (fun _ => rfl) .brk
  case h_7 htoken =>
    refine .advance (.bind (ensures_expect .semicolon _) fun _ c₁ _ => .behind (.pure ?_))
    rintro ⟨rfl, hr⟩
    exact givesStmt_jump htoken hr (fun _ => rfl) (fun _ => rfl) .cont
  case h_8 htoken => exact .advance (.pure (givesStmt_empty htoken))
  case h_9 =>
    refine .get ?_
    split
    · next hfollows =>
      refine .bind (gives_localVar c) fun s c₁ _ => ?_
      refine .bind (ensures_expect .semicolon c₁) fun _ c₂ _ => .behind (.pure ?_)
      rintro ⟨rfl, hr⟩ ⟨hlocal, hs⟩
      exact givesStmt_localVar hfollows hlocal hs hr
    · refine .bind (gives_expression c) fun e c₁ _ => ?_
      refine .bind (ensures_expect .semicolon c₁) fun _ c₂ _ => .behind (.pure ?_)
      rintro ⟨rfl, hr⟩ he
      exact givesStmt_expr he hr

theorem gives_elseClause_succ : Ensures (elseClause (n + 1)) c (GivesElse c) := by
  unfold elseClause
  refine .bind (ensures_eat _ c) fun b c₁ _ => ?_
  split
  · next hb =>
    refine .bind (ih.nested c₁) fun s c₂ _ => .pure ?_
    rintro hs ⟨rfl, helse⟩
    refine ⟨fun h => absurd h (Option.some_ne_none _), fun x hx => ?_⟩
    obtain rfl := Option.mem_some.mp hx
    exact ⟨helse.mp hb, by simpa [hb] using hs⟩
  · next hb =>
    refine .pure ?_
    intro heat
    obtain rfl : c₁ = c := by simpa [hb] using heat.1
    exact ⟨fun _ => ⟨fun h => hb (heat.2.mpr h), rfl⟩, fun x hx => absurd hx (Option.not_mem_none x)⟩

theorem gives_nested_succ : Ensures (nested (n + 1)) c (GivesNested c) := by
  unfold nested
  refine .get (.refuse rfl fun c₁ _ _ same => ?_)
  refine .bind (ensures_enterNesting c₁) fun b c₂ _ => ?_
  split
  · refine .bind (ih.stmt c₂) fun s c₃ _ => ?_
    refine .bind (ensures_leaveNesting c₃) fun _ c₄ _ => .pure ?_
    rintro rfl ⟨htakes, hdecl, hs⟩ ⟨-, rfl, hdepth⟩ hnot
    obtain rfl := same hnot
    refine ⟨htakes, hdecl (by simpa using hnot), fun ends => ?_⟩
    obtain ⟨ts, a, hpassed, hs⟩ := hs ends
    exact ⟨ts, a + 1, hpassed.nested hdepth, a, rfl, hs⟩
  · next hb => exact .here (.pure fun h => absurd h.1 hb)

theorem gives_stmts_succ :
    Ensures (stmts (n + 1)) c fun ss c' => c.Gives (StmtTokens true (.stmts ss)) c' := by
  have hnil : c.Gives (StmtTokens true (.stmts [])) c := fun ends => ⟨[], 0, .refl ends, .nil⟩
  unfold stmts
  refine .peek ?_
  split
  · exact .pure hnil
  · exact .pure hnil
  · refine .get (.bind (ih.stmt c) fun s c₁ _ => .get ?_)
    -- a statement takes tokens, so none is skipped
    have hmoves : GivesStmt c s c₁ → c.Ends → c₁.left ≠ c.left := by
      rintro ⟨-, -, hs⟩ ends
      obtain ⟨ts, a, hpassed, hs⟩ := hs ends
      obtain ⟨t, us, rfl, -⟩ := hs.starts
      rw [c.left_eq, c₁.left_eq, hpassed.ahead, List.length_append, List.length_cons]
      omega
    split
    · next hstuck =>
      refine .advance (.bind (ih.stmts _) fun ss c₂ _ => .pure fun _ hs ends => ?_)
      exact absurd hstuck (hmoves hs ends)
    · refine .bind (ih.stmts c₁) fun ss c₂ _ => .pure ?_
      rintro hss ⟨-, -, hs⟩ ends
      obtain ⟨ts, a, hpassed, hs⟩ := hs ends
      obtain ⟨us, b, hpassed', hss⟩ := hss hpassed.ends
      exact ⟨_, _, hpassed.trans hpassed', .cons hs hss⟩

theorem gives_blockBody_succ : Ensures (blockBody (n + 1)) c fun ss c' => c.Gives (BodyTokens ss) c' := by
  unfold blockBody
  refine .bind (ensures_enterNesting c) fun b c₁ _ => ?_
  split
  · refine .bind (ih.stmts c₁) fun ss c₂ _ => ?_
    refine .bind (ensures_leaveNesting c₂) fun _ c₃ _ => ?_
    refine .bind (ensures_expect .rbrace c₃) fun _ c₄ _ => .pure ?_
    rintro ⟨rfl, hr⟩ rfl hss ⟨-, rfl, hdepth⟩ ends
    obtain ⟨ts, a, hpassed, hss⟩ := hss ends
    have hnested := hpassed.nested hdepth
    exact ⟨_, _, hnested.concat (hnested.ends.pass hr (by simp)), ts, _, a, rfl, rfl, hss, rfl⟩
  · next hb => exact .pure fun h => absurd h.1 hb

end

theorem givesStmts (n : Nat) : GivesStmts n := by
  induction n with
  | zero => exact givesStmts_zero
  | succ n ih =>
    exact {
      stmt := gives_stmt_succ ih
      elseClause := gives_elseClause_succ ih
      nested := gives_nested_succ ih
      stmts := gives_stmts_succ ih
      blockBody := gives_blockBody_succ ih }

end Grammar

end JavaFold
