import JavaFold.Program.Indexed
import JavaFold.Proofs.Token.Indexed

/-!
# Expressions by index

Each function that reads a part of an expression by index agrees with the one that reads it from a cursor with a bound
on its recursion, if the bound is large enough for the tokens ahead (`ExprAgrees`). The induction is on the bound. A
function that calls another one before a token is taken has a larger share of the bound and of the calls.
-/

namespace JavaFold

variable {tokens : TokenList} {m n : Nat} {c : Cursor}

/-- Each step after an operand takes a token. -/
theorem agrees_postSteps : ∀ {limit : Nat} {operand : Expr} {c : Cursor}, c.left ≤ limit →
    Agrees tokens (tokens.postSteps operand) (Parser.postSteps limit operand) m c
      fun m' c' => m' = m ∧ c'.left ≤ c.left ∧ c'.depth = c.depth := by
  intro limit
  induction limit with
  | zero => exact fun hlimit => .among fun hc => absurd hc.ends.left_pos (by omega)
  | succ limit ih =>
    intro operand c hlimit
    rw [TokenList.postSteps, Parser.postSteps]
    refine .peek ?_
    generalize ht : c.token = t
    cases t with
    | step op =>
      refine .noteUnless (Agrees.run_report _) rfl fun c₁ hs => ?_
      refine .advance (by simp [hs.token, ht]) fun hleft hdepth => .behind ?_
      have := hs.left
      refine (ih (by omega)).imp fun m' c' h => ⟨h.1, by omega, ?_⟩
      rw [h.2.2, hdepth, hs.depth]
    | _ => exact .pure ⟨rfl, Nat.le_refl _, rfl⟩

theorem agrees_missingExpr {a s : Nat} {c₀ : Cursor} {m₀ : Nat} (h : c₀.Within a s m₀ m c) :
    Agrees tokens tokens.missingExpr Parser.missingExpr m c (c₀.Within a s m₀) := by
  rw [TokenList.missingExpr, Parser.missingExpr]
  exact .here (.pure h)

/-- What is read of an expression by index agrees with what is read with the bound `n`, if that is large enough. -/
structure ExprAgrees (tokens : TokenList) (n : Nat) : Prop where
  expr : ∀ {m : Nat} {c : Cursor}, 8 * c.left + 5 ≤ n →
    Agrees tokens tokens.expr (Parser.expr n) m c (c.Within 6 25 m)
  assignment : ∀ {m : Nat} {c : Cursor}, 8 * c.left + 4 ≤ n →
    Agrees tokens tokens.assignment (Parser.assignment n) m c (c.Within 5 26 m)
  binary : ∀ {m : Nat} {c : Cursor} (least : Nat), 8 * c.left + 3 ≤ n →
    Agrees tokens (tokens.binary least) (Parser.binary n least) m c (c.Within 4 27 m)
  binaryTail : ∀ {m : Nat} {c : Cursor} (least : Nat) (lhs : Expr), 8 * c.left + 2 ≤ n →
    Agrees tokens (tokens.binaryTail least lhs) (Parser.binaryTail n least lhs) m c (c.Within 0 40 m)
  unary : ∀ {m : Nat} {c : Cursor}, 8 * c.left + 2 ≤ n →
    Agrees tokens tokens.unary (Parser.unary n) m c (c.Within 3 28 m)
  primary : ∀ {m : Nat} {c : Cursor}, 8 * c.left + 1 ≤ n →
    Agrees tokens tokens.primary (Parser.primary n) m c (c.Within 1 30 m)
  arguments : ∀ {m : Nat} {c : Cursor}, 8 * c.left + 6 ≤ n →
    Agrees tokens tokens.arguments (Parser.arguments n) m c (c.Within 6 19 m)

namespace ExprAgrees

theorem expr_succ (ih : ExprAgrees tokens n) (hn : 8 * c.left + 5 ≤ n + 1) :
    Agrees tokens tokens.expr (Parser.expr (n + 1)) m c (c.Within 6 25 m) := by
  rw [TokenList.expr, Parser.expr]
  refine .called (.enterNesting (fun c₁ hleft hdepth => ?_) fun c₁ hleft hdepth => ?_)
  · rw [if_pos rfl, if_pos rfl]
    refine .bind (ih.assignment (by omega)) fun e m₂ c₂ h => ?_
    obtain ⟨hd, hm⟩ := h
    exact .leaveNesting (by omega) fun c₃ hleft' hdepth' => .pure ⟨by omega, by omega⟩
  · exact agrees_missingExpr ⟨by omega, by omega⟩

theorem assignment_succ (ih : ExprAgrees tokens n) (hn : 8 * c.left + 4 ≤ n + 1) :
    Agrees tokens tokens.assignment (Parser.assignment (n + 1)) m c (c.Within 5 26 m) := by
  rw [TokenList.assignment, Parser.assignment]
  refine .called (.bind (ih.binary 0 (by omega)) fun target m₁ c₁ h => .peek ?_)
  obtain ⟨hd, hm⟩ := h
  cases hop : Parser.assignOp? c₁.token with
  | none => exact .pure ⟨hd, by omega⟩
  | some op =>
    have hne : c₁.token ≠ .endOfFile := fun he => by simp [he, Parser.assignOp?] at hop
    refine .noteUnless (Agrees.run_report _) rfl fun c₂ hs => ?_
    refine .advance (hs.token ▸ hne) fun hleft hdepth => ?_
    have hsame := hs.left
    have hsdepth := hs.depth
    refine .bind (ih.assignment (by omega)) fun value m₃ c₃ h => ?_
    obtain ⟨hd', hm'⟩ := h
    exact .pure ⟨by omega, by omega⟩

theorem binary_succ (ih : ExprAgrees tokens n) (least : Nat) (hn : 8 * c.left + 3 ≤ n + 1) :
    Agrees tokens (tokens.binary least) (Parser.binary (n + 1) least) m c (c.Within 4 27 m) := by
  rw [TokenList.binary, Parser.binary]
  refine .called (.bind (ih.unary (by omega)) fun lhs m₁ c₁ h => ?_)
  obtain ⟨hd, hm⟩ := h
  refine (ih.binaryTail least lhs (by omega)).imp fun m₂ c₂ h => ?_
  obtain ⟨hd', hm'⟩ := h
  exact ⟨by omega, by omega⟩

theorem binaryTail_succ (ih : ExprAgrees tokens n) (least : Nat) (lhs : Expr) (hn : 8 * c.left + 2 ≤ n + 1) :
    Agrees tokens (tokens.binaryTail least lhs) (Parser.binaryTail (n + 1) least lhs) m c (c.Within 0 40 m) := by
  rw [TokenList.binaryTail, Parser.binaryTail]
  refine .peek ?_
  generalize ht : c.token = t
  cases t with
  | operator op =>
    dsimp only
    split
    · exact .pure ⟨Nat.le_refl _, by omega⟩
    · refine .advance (by simp [ht]) fun hleft hdepth => ?_
      refine .bind (ih.binary _ (by omega)) fun rhs m₁ c₁ h => ?_
      obtain ⟨hd, hm⟩ := h
      refine (ih.binaryTail least _ (by omega)).imp fun m₂ c₂ h => ?_
      obtain ⟨hd', hm'⟩ := h
      exact ⟨by omega, by omega⟩
  | _ => exact .pure ⟨Nat.le_refl _, by omega⟩

theorem unary_succ (ih : ExprAgrees tokens n) (hn : 8 * c.left + 2 ≤ n + 1) :
    Agrees tokens tokens.unary (Parser.unary (n + 1)) m c (c.Within 3 28 m) := by
  rw [TokenList.unary, Parser.unary]
  refine .called (.here (.peek ?_))
  cases hop : Parser.unaryOp? c.token with
  | none =>
    dsimp only
    rw [TokenList.postfixed]
    refine .called (.bind (ih.primary (by omega)) fun operand m₁ c₁ h => .lookAhead ?_)
    obtain ⟨hd, hm⟩ := h
    refine (agrees_postSteps (Nat.le_refl _)).imp fun m₂ c₂ h => ?_
    obtain ⟨rfl, hleft, hdepth⟩ := h
    exact ⟨by omega, by omega⟩
  | some op =>
    have hne : c.token ≠ .endOfFile := fun he => by simp [he, Parser.unaryOp?] at hop
    dsimp only
    refine .advance hne fun hleft hdepth => .peek ?_
    cases hneg : Parser.negative? op c.advance.token with
    | some value =>
      have hne' : c.advance.token ≠ .endOfFile := fun he => by simp [he, Parser.negative?] at hneg
      exact .advance hne' fun hleft' hdepth' => .behind (.pure ⟨by omega, by omega⟩)
    | none =>
      refine .enterNesting (fun c₁ hleft₁ hdepth₁ => ?_) fun c₁ hleft₁ hdepth₁ => ?_
      · rw [if_pos rfl, if_pos rfl]
        refine .bind (ih.unary (by omega)) fun operand m₂ c₂ h => ?_
        obtain ⟨hd, hm⟩ := h
        refine .leaveNesting (by omega) fun c₃ hleft₃ hdepth₃ => ?_
        cases op with
        | step s =>
          refine .noteUnless (fun _ => rfl) rfl fun c₄ hs => .pure ?_
          have hsame := hs.left
          have hsdepth := hs.depth
          exact ⟨by omega, by omega⟩
        | _ => exact .pure ⟨by omega, by omega⟩
      · exact agrees_missingExpr ⟨by omega, by omega⟩

theorem primary_succ (ih : ExprAgrees tokens n) (hn : 8 * c.left + 1 ≤ n + 1) :
    Agrees tokens tokens.primary (Parser.primary (n + 1)) m c (c.Within 1 30 m) := by
  have hmissing : ∀ found, Agrees tokens
      (do tokens.report (.expectedExpression found); tokens.missingExpr)
      (do Parser.report (.expectedExpression found); Parser.missingExpr) (m + 1) c (c.Within 1 30 m) := by
    refine fun found => .report fun c₁ hs => agrees_missingExpr ?_
    have hsame := hs.left
    have hsdepth := hs.depth
    exact ⟨by omega, by omega⟩
  rw [TokenList.primary, Parser.primary]
  refine .called (.here (.peek ?_))
  generalize ht : c.token = t
  have hliteral : ∀ e : Expr, t ≠ .endOfFile → Agrees tokens
      (do tokens.advance; return e) (do Parser.advance; return e) (m + 1) c (c.Within 1 30 m) :=
    fun e hne => .advance (ht ▸ hne) fun hleft hdepth => .pure ⟨by omega, by omega⟩
  cases t with
  | integer value =>
    refine .advance (by simp [ht]) fun hleft hdepth => ?_
    split
    · exact .pure ⟨by omega, by omega⟩
    · refine .reportAt fun c₁ hs => .pure ?_
      have hsame := hs.left
      have hsdepth := hs.depth
      exact ⟨by omega, by omega⟩
  | keyword word =>
    cases word with
    | «true» | «false» | «null» => exact hliteral _ (by simp)
    | _ => exact hmissing _
  | string text => exact hliteral _ (by simp)
  | lparen =>
    refine .advance (by simp [ht]) fun hleft hdepth => .bind (ih.expr (by omega)) fun inner m₁ c₁ h => ?_
    obtain ⟨hd, hm⟩ := h
    refine .expect (by simp) fun c₂ hs => .pure ?_
    have hstep := hs.left
    have hsdepth := hs.depth
    exact ⟨by omega, by omega⟩
  | identifier name =>
    refine .bind agrees_dottedName fun path m₁ c₁ h => ?_
    obtain ⟨rfl, hle, hdepth, hname⟩ := h
    have hless := hname ⟨name, ht⟩
    refine .eat (by simp) (fun c₂ htoken hleft₂ hdepth₂ => ?_) fun hno => ?_
    · rw [if_pos rfl, if_pos rfl]
      refine .called (.bind (ih.arguments (by omega)) fun args m₃ c₃ h => ?_)
      obtain ⟨hd, hm⟩ := h
      refine .expect (by simp) fun c₄ hs => .behind (.pure ?_)
      have hstep := hs.left
      have hsdepth := hs.depth
      exact ⟨by omega, by omega⟩
    · exact .pure ⟨by omega, by omega⟩
  | _ => exact hmissing _

theorem arguments_succ (ih : ExprAgrees tokens n) (hn : 8 * c.left + 6 ≤ n + 1) :
    Agrees tokens tokens.arguments (Parser.arguments (n + 1)) m c (c.Within 6 19 m) := by
  rw [TokenList.arguments, Parser.arguments]
  refine .peek ?_
  have hnone : Agrees tokens (pure [] : IndexedParser (List Expr)) (pure [] : Parser _) m c (c.Within 6 19 m) :=
    .pure ⟨Nat.le_refl _, by omega⟩
  have hsome : Agrees tokens
      (do
        let arg ← tokens.expr
        if ← tokens.eat .comma then
          return arg :: (← tokens.arguments)
        return [arg])
      (do
        let arg ← Parser.expr n
        if ← Parser.eat .comma then
          return arg :: (← Parser.arguments n)
        return [arg]) m c (c.Within 6 19 m) := by
    refine .bind (ih.expr (by omega)) fun arg m₁ c₁ h => ?_
    obtain ⟨hd, hm⟩ := h
    refine .eat (by simp) (fun c₂ htoken hleft₂ hdepth₂ => ?_) fun hno => ?_
    · refine .bind (ih.arguments (by omega)) fun args m₃ c₃ h => ?_
      obtain ⟨hd', hm'⟩ := h
      exact .pure ⟨by omega, by omega⟩
    · exact .pure ⟨by omega, by omega⟩
  cases c.token with
  | rparen | endOfFile => exact hnone
  | _ => exact hsome

/-- With a bound that is large enough for the tokens ahead, reading by index agrees with reading with the bound. -/
theorem all (tokens : TokenList) : ∀ n, ExprAgrees tokens n
  | 0 => ⟨by omega, by omega, fun _ => by omega, fun _ _ => by omega, by omega, by omega, by omega⟩
  | n + 1 =>
    have ih := all tokens n
    ⟨ih.expr_succ, ih.assignment_succ, ih.binary_succ, ih.binaryTail_succ, ih.unary_succ, ih.primary_succ,
      ih.arguments_succ⟩

end ExprAgrees

theorem agrees_expression : Agrees tokens tokens.expr Parser.expression m c (c.Within 6 25 m) := by
  rw [Parser.expression]
  exact .lookAhead ((ExprAgrees.all tokens _).expr (by rw [Parser.exprDepth]; omega))

end JavaFold
