import JavaFold.Proofs.Program.Indexed.Expr

/-!
# Statements by index

Each function that reads a part of a statement by index agrees with the one that reads it from a cursor, if the bound on
the recursion is large enough for the tokens ahead (`StmtAgrees`). A loop over statements ends because it skips a token
where the statement has taken none.
-/

namespace JavaFold

variable {tokens : TokenList} {m n : Nat} {c : Cursor}

theorem agrees_ty : Agrees tokens tokens.ty Parser.ty m c (c.Within 1 46 m) := by
  rw [TokenList.ty, Parser.ty]
  refine .called (.here (.peek ?_))
  generalize ht : c.token = t
  have hrefused : ∀ found start, Agrees tokens
      (do
        tokens.report (.expectedType found)
        return (⟨.named Parser.missingName, start⟩ : Spanned Ty))
      (do
        Parser.report (.expectedType found)
        return ⟨.named Parser.missingName, start⟩) (m + 1) c (c.Within 1 46 m) := by
    refine fun found start => .report fun c₁ hs => .pure ?_
    have hsame := hs.left
    have hsdepth := hs.depth
    exact ⟨by omega, by omega⟩
  have hword : ∀ ty : Spanned Ty, t ≠ .endOfFile → Agrees tokens
      (do tokens.advance; return ty) (do Parser.advance; return ty) (m + 1) c (c.Within 1 46 m) :=
    fun ty hne => .advance (ht ▸ hne) fun hleft hdepth => .pure ⟨by omega, by omega⟩
  cases t with
  | keyword word =>
    cases word with
    | int | boolean | void => exact hword _ (by simp)
    | _ => exact hrefused _ _
  | identifier name =>
    refine .bind agrees_dottedName fun path m₁ c₁ h => .pure ?_
    obtain ⟨rfl, hle, hdepth, hname⟩ := h
    have hless := hname ⟨name, ht⟩
    exact ⟨by omega, by omega⟩
  | _ => exact hrefused _ _

/-! ## Whether a declaration follows -/

theorem run_nameFollows (hc : c.Among tokens) (offset : Nat) :
    (tokens.nameFollows offset).run (c.indexed tokens m) =
      some (Parser.nameFollows (c.ahead.drop offset), c.indexed tokens m) := by
  induction hk : c.ahead.length - offset using Nat.strongRecOn generalizing offset with
  | _ k ih =>
    rw [TokenList.nameFollows, StateT.run_bind, Agrees.run_peekAt hc, Option.bind_eq_bind, Option.bind_some]
    rcases hdrop : c.ahead.drop offset with _ | ⟨⟨t, span⟩, rest⟩
    · rfl
    · cases t with
      | dot =>
        have hlength := congrArg List.length hdrop
        rw [List.length_drop, List.length_cons] at hlength
        have hnext : c.ahead.drop (offset + 1) = rest := by
          rw [← List.drop_drop, hdrop, List.drop_one, List.tail_cons]
        dsimp only [Agrees.tokenFrom, List.head?_cons, Option.map_some, Option.getD_some]
        rw [StateT.run_bind, Agrees.run_peekAt hc, Option.bind_eq_bind, Option.bind_some, hnext]
        rcases rest with _ | ⟨⟨u, span'⟩, rest⟩
        · rfl
        · cases u with
          | identifier part =>
            have hrest := ih _ (by omega) (offset + 2) rfl
            rwa [show offset + 2 = offset + 1 + 1 from rfl, ← List.drop_drop, hnext, List.drop_one,
              List.tail_cons] at hrest
          | _ => rfl
      | _ => rfl

theorem run_declFollows (hc : c.Among tokens) : tokens.declFollows.run (c.indexed tokens m) =
    some (Parser.declFollows c.ahead, c.indexed tokens m) := by
  rw [TokenList.declFollows, StateT.run_bind, Agrees.run_peek hc, Option.bind_eq_bind, Option.bind_some]
  obtain ⟨rest, hahead⟩ := hc.ends.ahead_eq
  have hnext := run_nameFollows (m := m) hc 1
  rw [hahead, List.drop_one, List.tail_cons] at hnext
  rw [hahead]
  generalize c.token = t at hnext
  cases t with
  | identifier name => exact hnext
  | keyword word => cases word <;> rfl
  | _ => rfl

theorem agrees_initializer :
    Agrees tokens tokens.initializer Parser.initializer m c (c.Within 0 40 m) := by
  rw [TokenList.initializer, Parser.initializer]
  refine .eat (by simp) (fun c₁ htoken hleft hdepth => ?_) fun hno => ?_
  · refine .bind agrees_expression fun e m₂ c₂ h => .pure ?_
    obtain ⟨hd, hm⟩ := h
    exact ⟨by omega, by omega⟩
  · exact .pure ⟨Nat.le_refl _, by omega⟩

theorem agrees_localVar : Agrees tokens tokens.localVar Parser.localVar m c (c.Within 2 38 m) := by
  rw [TokenList.localVar, Parser.localVar]
  refine .called (.here (.bind agrees_ty fun ty m₁ c₁ h₁ => ?_))
  refine .noteIf (fun _ => rfl) rfl fun c₂ hs => .bind agrees_identifier fun name m₃ c₃ h₃ => ?_
  obtain ⟨rfl, hstep, -⟩ := h₃
  refine .bind agrees_initializer fun init m₄ c₄ h₄ => .behind (.pure ?_)
  have hname : c₁.Within 0 48 m₃ m₃ c₃ := hs.within.trans hstep.within (by omega) (by omega)
  obtain ⟨hd, hm⟩ := (h₁.trans hname (r := 46) (by omega) (by omega)).trans h₄ (r := 39) (by omega) (by omega)
  exact ⟨by omega, by omega⟩

theorem agrees_exprUnless (stop : Token) :
    Agrees tokens (tokens.exprUnless stop) (Parser.expressionUnless stop) m c (c.Within 6 25 m) := by
  rw [TokenList.exprUnless, Parser.expressionUnless]
  refine .peek ?_
  split
  · exact .pure ⟨Nat.le_refl _, by omega⟩
  · exact .bind agrees_expression fun e m₁ c₁ h => .pure h

theorem agrees_condition : Agrees tokens tokens.condition Parser.condition m c (c.Within 7 24 m) := by
  rw [TokenList.condition, Parser.condition]
  refine .called (.expect (by simp) fun c₁ hs₁ => .bind agrees_expression fun e m₂ c₂ h => ?_)
  refine .expect (by simp) fun c₃ hs₃ => .pure ?_
  have hcond : c.Within 6 25 (m + 1) m₂ c₂ := hs₁.within.trans h (by omega) (by omega)
  obtain ⟨hd, hm⟩ := hcond.trans hs₃.within (r := 25) (by omega) (by omega)
  exact ⟨by omega, by omega⟩

theorem agrees_forInit : Agrees tokens tokens.forInit Parser.forInit m c (c.Within 6 25 m) := by
  rw [TokenList.forInit, Parser.forInit]
  refine .peek ?_
  split
  · exact .pure ⟨Nat.le_refl _, by omega⟩
  · refine .look run_declFollows (.lookAhead ?_)
    split
    · refine .bind agrees_localVar fun decl m₁ c₁ h => .pure ?_
      obtain ⟨hd, hm⟩ := h
      exact ⟨hd, by omega⟩
    · exact .bind agrees_expression fun e m₁ c₁ h => .pure h

/-- What is read of a statement by index agrees with what is read with the bound `n`, if that is large enough. -/
structure StmtAgrees (tokens : TokenList) (n : Nat) : Prop where
  stmt : ∀ {m : Nat} {c : Cursor}, 4 * c.left + 1 ≤ n →
    Agrees tokens tokens.stmt (Parser.stmt n) m c (c.Within 7 20 m)
  elseClause : ∀ {m : Nat} {c : Cursor}, 4 * c.left + 1 ≤ n →
    Agrees tokens tokens.elseClause (Parser.elseClause n) m c (c.Within 0 40 m)
  nested : ∀ {m : Nat} {c : Cursor}, 4 * c.left + 2 ≤ n →
    Agrees tokens tokens.nested (Parser.nested n) m c (c.Within 8 19 m)
  stmts : ∀ {m : Nat} {c : Cursor}, 4 * c.left + 2 ≤ n →
    Agrees tokens tokens.stmts (Parser.stmts n) m c (c.Within 0 20 m)
  blockBody : ∀ {m : Nat} {c : Cursor}, 4 * c.left + 3 ≤ n →
    Agrees tokens tokens.blockBody (Parser.blockBody n) m c (c.Within 0 20 m)

namespace StmtAgrees

/-- A block that begins at its brace. -/
theorem agrees_block (ih : StmtAgrees tokens n) (hn : 4 * c.left ≤ n) (ht : c.token = .lbrace) :
    Agrees tokens (do
        let block ← tokens.block
        return Stmt.block block.span block.stmts)
      (do
        Parser.advance
        let stmts ← Parser.blockBody n
        return .block (c.here.merge (← Parser.behind)) stmts) (m + 1) c (c.Within 7 20 m) := by
  have hne : c.token ≠ .endOfFile := by simp [ht]
  rw [TokenList.block]
  simp only [bind_assoc, pure_bind]
  refine .called (.look Agrees.run_here (.among fun hc => ?_))
  refine .move (run_expect · ht (by simp)) rfl (·.advance hne) ?_
  have hleft := hc.ends.left_advance hne
  have hdepth := (hc.ends.ahead rfl hne).2.2.1
  refine .bind (ih.blockBody (by omega)) fun stmts m₁ c₁ h => .behind (.pure ?_)
  obtain ⟨hd, hm⟩ := h
  exact ⟨by omega, by omega⟩

theorem agrees_ifElse (ih : StmtAgrees tokens n) (hn : 4 * c.left ≤ n) (hne : c.token ≠ .endOfFile) :
    Agrees tokens tokens.ifElse
      (do
        Parser.advance
        let cond ← Parser.condition
        let thenBranch ← Parser.nested n
        let elseBranch ← Parser.elseClause n
        return .ifElse (c.here.merge (← Parser.behind)) cond thenBranch elseBranch) (m + 1) c (c.Within 7 20 m) := by
  rw [TokenList.ifElse]
  refine .called (.look Agrees.run_here (.advance hne fun hleft hdepth => ?_))
  refine .bind agrees_condition fun cond m₁ c₁ h₁ => ?_
  have hle₁ := h₁.left_le
  refine .bind (ih.nested (by omega)) fun thenBranch m₂ c₂ h₂ => ?_
  have hle₂ := h₂.left_le
  refine .bind (ih.elseClause (by omega)) fun elseBranch m₃ c₃ h₃ => .behind (.pure ?_)
  have hbranches : c₁.Within 8 19 m₁ m₃ c₃ := h₂.trans h₃ (by omega) (by omega)
  obtain ⟨hd, hm⟩ := h₁.trans hbranches (r := 12) (by omega) (by omega)
  exact ⟨by omega, by omega⟩

theorem agrees_whileLoop (ih : StmtAgrees tokens n) (hn : 4 * c.left ≤ n) (hne : c.token ≠ .endOfFile) :
    Agrees tokens tokens.whileLoop
      (do
        Parser.advance
        let cond ← Parser.condition
        let body ← Parser.nested n
        return .whileLoop (c.here.merge (← Parser.behind)) cond body) (m + 1) c (c.Within 7 20 m) := by
  rw [TokenList.whileLoop]
  refine .called (.look Agrees.run_here (.advance hne fun hleft hdepth => ?_))
  refine .bind agrees_condition fun cond m₁ c₁ h₁ => ?_
  have hle₁ := h₁.left_le
  refine .bind (ih.nested (by omega)) fun body m₂ c₂ h₂ => .behind (.pure ?_)
  obtain ⟨hd, hm⟩ := h₁.trans h₂ (r := 12) (by omega) (by omega)
  exact ⟨by omega, by omega⟩

theorem agrees_forLoop (ih : StmtAgrees tokens n) (hn : 4 * c.left ≤ n) (hne : c.token ≠ .endOfFile) :
    Agrees tokens tokens.forLoop
      (do
        Parser.advance
        Parser.expect .lparen
        let init ← Parser.forInit
        Parser.expect .semicolon
        let cond ← Parser.expressionUnless .semicolon
        Parser.expect .semicolon
        let update ← Parser.expressionUnless .rparen
        Parser.expect .rparen
        let body ← Parser.nested n
        return .forLoop (c.here.merge (← Parser.behind)) init cond update body) (m + 1) c (c.Within 7 20 m) := by
  rw [TokenList.forLoop]
  refine .called (.look Agrees.run_here (.advance hne fun hleft hdepth => ?_))
  refine .expect (by simp) fun c₁ hs₁ => .bind agrees_forInit fun init m₂ c₂ h₂ => ?_
  refine .expect (by simp) fun c₃ hs₃ => .bind (agrees_exprUnless _) fun cond m₄ c₄ h₄ => ?_
  refine .expect (by simp) fun c₅ hs₅ => .bind (agrees_exprUnless _) fun update m₆ c₆ h₆ => ?_
  refine .expect (by simp) fun c₇ hs₇ => ?_
  have hinit : c.advance.Within 6 25 (m + 1 + 1) m₂ c₂ := hs₁.within.trans h₂ (by omega) (by omega)
  have hcond : c₂.Within 6 25 m₂ m₄ c₄ := hs₃.within.trans h₄ (by omega) (by omega)
  have hupdate : c₄.Within 6 25 m₄ m₆ c₆ := hs₅.within.trans h₆ (by omega) (by omega)
  have hparts : c.advance.Within 12 19 (m + 1 + 1) m₄ c₄ := hinit.trans hcond (by omega) (by omega)
  have hheader : c.advance.Within 18 13 (m + 1 + 1) m₆ c₇ :=
    (hparts.trans hupdate (r := 13) (by omega) (by omega)).trans hs₇.within (by omega) (by omega)
  have hle := hheader.left_le
  refine .bind (ih.nested (by omega)) fun body m₈ c₈ h₈ => .behind (.pure ?_)
  obtain ⟨hd, hm⟩ := hheader.trans h₈ (r := 1) (by omega) (by omega)
  exact ⟨by omega, by omega⟩

/-- A declaration or an expression with a semicolon after it. -/
theorem agrees_simple (start : Span) : Agrees tokens
    (do
      if ← tokens.declFollows then
        let decl ← tokens.localVar
        tokens.expect .semicolon
        return Parser.withSpan (start.merge (← tokens.behind)) decl
      else
        let value ← tokens.expr
        tokens.expect .semicolon
        return .expr (start.merge (← tokens.behind)) value)
    (do
      if Parser.declFollows (← get).ahead then
        let decl ← Parser.localVar
        Parser.expect .semicolon
        return Parser.withSpan (start.merge (← Parser.behind)) decl
      else
        let value ← Parser.expression
        Parser.expect .semicolon
        return .expr (start.merge (← Parser.behind)) value) (m + 1) c (c.Within 7 20 m) := by
  refine .look run_declFollows (.lookAhead ?_)
  split
  · refine .bind agrees_localVar fun decl m₁ c₁ h => .expect (by simp) fun c₂ hs => .behind (.pure ?_)
    obtain ⟨hd, hm⟩ := h
    obtain ⟨hleft, hdepth⟩ := hs
    exact ⟨by omega, by omega⟩
  · refine .bind agrees_expression fun e m₁ c₁ h => .expect (by simp) fun c₂ hs => .behind (.pure ?_)
    obtain ⟨hd, hm⟩ := h
    obtain ⟨hleft, hdepth⟩ := hs
    exact ⟨by omega, by omega⟩

theorem stmt_succ (ih : StmtAgrees tokens n) (hn : 4 * c.left + 1 ≤ n + 1) :
    Agrees tokens tokens.stmt (Parser.stmt (n + 1)) m c (c.Within 7 20 m) := by
  rw [TokenList.stmt, Parser.stmt]
  refine .called (.here (.peek ?_))
  generalize ht : c.token = t
  have hword : ∀ s : Span → Stmt, t ≠ .endOfFile → Agrees tokens
      (do
        tokens.advance
        tokens.expect .semicolon
        return s (← tokens.behind))
      (do
        Parser.advance
        Parser.expect .semicolon
        return s (← Parser.behind)) (m + 1) c (c.Within 7 20 m) := by
    refine fun s hne => .advance (ht ▸ hne) fun hleft hdepth => .expect (by simp) fun c₁ hs => .behind (.pure ?_)
    obtain ⟨hleft₁, hdepth₁⟩ := hs
    exact ⟨by omega, by omega⟩
  cases t with
  | lbrace => exact ih.agrees_block (by omega) ht
  | keyword word =>
    cases word with
    | «if» => exact ih.agrees_ifElse (by omega) (by simp [ht])
    | «while» => exact ih.agrees_whileLoop (by omega) (by simp [ht])
    | «for» => exact ih.agrees_forLoop (by omega) (by simp [ht])
    | «return» =>
      refine .advance (by simp [ht]) fun hleft hdepth => .bind (agrees_exprUnless _) fun value m₁ c₁ h => ?_
      obtain ⟨hd, hm⟩ := h
      refine .expect (by simp) fun c₂ hs => .behind (.pure ?_)
      obtain ⟨hleft₂, hdepth₂⟩ := hs
      exact ⟨by omega, by omega⟩
    | «break» => exact hword (fun behind => .brk (c.here.merge behind)) (by simp)
    | «continue» => exact hword (fun behind => .cont (c.here.merge behind)) (by simp)
    | _ => exact agrees_simple _
  | semicolon => exact .advance (by simp [ht]) fun hleft hdepth => .pure ⟨by omega, by omega⟩
  | _ => exact agrees_simple _

theorem elseClause_succ (ih : StmtAgrees tokens n) (hn : 4 * c.left + 1 ≤ n + 1) :
    Agrees tokens tokens.elseClause (Parser.elseClause (n + 1)) m c (c.Within 0 40 m) := by
  rw [TokenList.elseClause, Parser.elseClause]
  refine .eat (by simp) (fun c₁ htoken hleft hdepth => ?_) fun hno => .pure ⟨Nat.le_refl _, by omega⟩
  refine .bind (ih.nested (by omega)) fun s m₂ c₂ h => .pure ?_
  obtain ⟨hd, hm⟩ := h
  exact ⟨by omega, by omega⟩

theorem nested_succ (ih : StmtAgrees tokens n) (hn : 4 * c.left + 2 ≤ n + 1) :
    Agrees tokens tokens.nested (Parser.nested (n + 1)) m c (c.Within 8 19 m) := by
  rw [TokenList.nested, Parser.nested]
  refine .called (.look run_declFollows (.lookAhead ?_))
  refine .noteIf (Agrees.run_report _) rfl fun c₁ hs => ?_
  have hsame := hs.left
  have hsdepth := hs.depth
  refine .enterNesting (fun c₂ hleft₂ hdepth₂ => ?_) fun c₂ hleft₂ hdepth₂ => ?_
  · rw [if_pos rfl, if_pos rfl]
    refine .bind (ih.stmt (by omega)) fun s m₃ c₃ h => ?_
    obtain ⟨hd, hm⟩ := h
    exact .leaveNesting (by omega) fun c₄ hleft₄ hdepth₄ => .pure ⟨by omega, by omega⟩
  · exact .here (.pure ⟨by omega, by omega⟩)

theorem stmts_succ (ih : StmtAgrees tokens n) (hn : 4 * c.left + 2 ≤ n + 1) :
    Agrees tokens tokens.stmts (Parser.stmts (n + 1)) m c (c.Within 0 20 m) := by
  rw [TokenList.stmts, Parser.stmts]
  refine .peek ?_
  generalize ht : c.token = t
  have hstop : Agrees tokens (pure [] : IndexedParser (List Stmt)) (pure [] : Parser _) m c (c.Within 0 20 m) :=
    .pure ⟨Nat.le_refl _, by omega⟩
  cases t with
  | rbrace | endOfFile => exact hstop
  | _ => exact .parts (by simp [ht]) (ih.stmt (by omega)) (by omega) fun _ _ hless => ih.stmts (by omega)

theorem blockBody_succ (ih : StmtAgrees tokens n) (hn : 4 * c.left + 3 ≤ n + 1) :
    Agrees tokens tokens.blockBody (Parser.blockBody (n + 1)) m c (c.Within 0 20 m) := by
  rw [TokenList.blockBody, Parser.blockBody]
  refine .enterNesting (fun c₁ hleft₁ hdepth₁ => ?_) fun c₁ hleft₁ hdepth₁ => ?_
  · rw [if_pos rfl, if_pos rfl]
    refine .bind (ih.stmts (by omega)) fun body m₂ c₂ h => ?_
    obtain ⟨hd, hm⟩ := h
    refine .leaveNesting (by omega) fun c₃ hleft₃ hdepth₃ => .expect (by simp) fun c₄ hs => .pure ?_
    obtain ⟨hleft₄, hdepth₄⟩ := hs
    exact ⟨by omega, by omega⟩
  · exact .pure ⟨by omega, by omega⟩

/-- With a bound that is large enough for the tokens ahead, reading by index agrees with reading with the bound. -/
theorem all (tokens : TokenList) : ∀ n, StmtAgrees tokens n
  | 0 => ⟨by omega, by omega, by omega, by omega, by omega⟩
  | n + 1 =>
    have ih := all tokens n
    ⟨ih.stmt_succ, ih.elseClause_succ, ih.nested_succ, ih.stmts_succ, ih.blockBody_succ⟩

end StmtAgrees

theorem agrees_block : Agrees tokens tokens.block Parser.block m c (c.Within 1 19 m) := by
  rw [TokenList.block, Parser.block]
  refine .called (.here (.expect (by simp) fun c₁ hs => .lookAhead ?_))
  obtain ⟨hleft₁, hdepth₁⟩ := hs
  refine .bind ((StmtAgrees.all tokens _).blockBody (by rw [Parser.stmtDepth]; omega)) fun stmts m₂ c₂ h => ?_
  obtain ⟨hd, hm⟩ := h
  exact .behind (.pure ⟨by omega, by omega⟩)

end JavaFold
