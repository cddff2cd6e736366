import JavaFold.Proofs.Program.Grammar.Complete

/-!
# Expressions that are read derive from the grammar

Where reading gives something without a problem, the tokens it has passed derive this from the grammar, and
they nest no deeper than the limit. The proofs follow the functions of the parser, as those of `Parsed.lean`
do: what one function ensures says which tokens were passed (`Cursor.Passed`) and what they derive.
-/

namespace JavaFold

open Problem (nestingLimit)

namespace Cursor

/-- From one cursor to the other the tokens `ts` have been passed, which nest by `n` levels. -/
structure Passed (c : Cursor) (ts : List (Spanned Token)) (n : Nat) (c' : Cursor) : Prop where
  ahead : c.ahead = ts ++ c'.ahead
  passed : c'.passed = Parser.passedBy c.passed ts
  depth : c'.depth = c.depth
  need : c.depth + n ≤ max c.depth nestingLimit
  inside : ∀ t ∈ ts, t.value ≠ .endOfFile
  ends : c'.Ends

variable {c c' c'' : Cursor} {t : Token} {s : Span} {ts us : List (Spanned Token)} {n m : Nat}

namespace Passed

theorem refl (h : c.Ends) : c.Passed [] 0 c where
  ahead := rfl
  passed := rfl
  depth := rfl
  need := Nat.le_max_left _ _
  inside := by simp
  ends := h

theorem trans (h : c.Passed ts n c') (h' : c'.Passed us m c'') : c.Passed (ts ++ us) (max n m) c'' where
  ahead := by rw [h.ahead, h'.ahead, List.append_assoc]
  passed := by rw [h'.passed, h.passed, Parser.passedBy_append]
  depth := h'.depth.trans h.depth
  need := by
    have := h.need
    have := h'.need
    rw [h.depth] at this
    omega
  inside := fun t ht => (List.mem_append.mp ht).elim (h.inside t) (h'.inside t)
  ends := h'.ends

/-- A token, and what has been passed after it. -/
theorem cons {t : Spanned Token} (h : c.Passed [t] 0 c') (h' : c'.Passed us m c'') : c.Passed (t :: us) m c'' := by
  have := h.trans h'
  rwa [Nat.zero_max] at this

/-- What has been passed before a token. -/
theorem concat {t : Spanned Token} (h : c.Passed ts n c') (h' : c'.Passed [t] 0 c'') :
    c.Passed (ts ++ [t]) n c'' := by
  have := h.trans h'
  rwa [Nat.max_zero] at this

/-- One level deeper. -/
theorem nested (h : Passed { c with depth := c.depth + 1 } ts n c') (hdepth : c.depth < nestingLimit) :
    c.Passed ts (n + 1) { c' with depth := c'.depth - 1 } where
  ahead := h.ahead
  passed := h.passed
  depth := by
    have hc' := h.depth
    dsimp only at hc' ⊢
    omega
  need := by
    have := h.need
    dsimp only at this
    omega
  inside := h.inside
  ends := h.ends

theorem here_eq {t : Spanned Token} (h : c.Passed (t :: ts) n c') : c.here = t.span := by
  rw [Cursor.here, h.ahead]
  rfl

theorem behind_eq {t : Spanned Token} (h : c.Passed (t :: ts) n c') :
    c'.behind = Parser.lastSpan t.span ts := by
  have hpassed : c'.passed = some (Parser.lastSpan t.span ts) := h.passed.trans (Parser.passedBy_some _ _)
  rw [behind, hpassed]
  rfl

/-- The span from the first token that has been passed to the last one. -/
theorem span (h : c.Passed ts n c') (hne : ts ≠ []) : c.here.merge c'.behind = Parser.spanAll ts := by
  obtain ⟨t, ts, rfl⟩ := List.exists_cons_of_ne_nil hne
  rw [h.here_eq, h.behind_eq]
  rfl

end Passed

/-- The token ahead is passed, unless it is the end of the file. -/
theorem Ends.pass (h : c.Ends) (ht : c.token = t) (hne : t ≠ .endOfFile) : c.Passed [⟨t, c.here⟩] 0 c.advance := by
  obtain ⟨hahead, hpassed, hdepth, hends⟩ := h.ahead ht hne
  exact ⟨hahead, hpassed, hdepth, Nat.le_max_left _ _, by simpa using hne, hends⟩

/-- From one cursor to the other, tokens have been passed that satisfy `P`. -/
def Gives (P : List (Spanned Token) → Nat → Prop) (c c' : Cursor) : Prop :=
  c.Ends → ∃ ts n, c.Passed ts n c' ∧ P ts n

end Cursor

namespace Grammar

open JavaFold.Parser

variable {ts : List (Spanned Token)} {n m : Nat}

/-! ## Names -/

theorem ensures_nameParts_tokens {limit : Nat} : ∀ (name : Spanned String) (c : Cursor),
    Ensures (nameParts limit name) c fun path c' => ∀ ts, PathTokens name ts →
      c.Gives (fun us n => n = 0 ∧ PathTokens path (ts ++ us)) c' := by
  induction limit with
  | zero => exact fun name c => .pure fun ts h ends => ⟨[], 0, .refl ends, rfl, by rwa [List.append_nil]⟩
  | succ limit ih =>
    intro name c
    unfold nameParts
    refine .get ?_
    split
    · next s part span rest h =>
      refine .advance (.advance ((ih _ _).imp fun path c' hpath ts hts ends => ?_))
      have htoken : c.token = .dot := by rw [Cursor.token, h]
      have hdot := ends.pass htoken (by simp)
      have hahead : ⟨.identifier part, span⟩ :: rest = c.advance.ahead :=
        (List.cons.inj (h.symm.trans hdot.ahead)).2
      have hnext : c.advance.token = .identifier part ∧ c.advance.here = span := by
        rw [Cursor.token, Cursor.here, ← hahead]
        exact ⟨rfl, rfl⟩
      have hpart := hdot.ends.pass hnext.1 (by simp)
      rw [← hnext.2] at hpath
      obtain ⟨us, n, hpassed, rfl, hus⟩ := hpath _
        (@PathTokens.part _ _ ⟨.dot, c.here⟩ ⟨.identifier part, c.advance.here⟩ _ hts rfl rfl) hpart.ends
      exact ⟨_, 0, hdot.cons (hpart.cons hpassed), rfl, by rwa [List.append_assoc] at hus⟩
    · exact .pure fun ts h ends => ⟨[], 0, .refl ends, rfl, by rwa [List.append_nil]⟩

theorem ensures_dottedName_tokens (c : Cursor) : Ensures dottedName c fun path c' =>
    c.Gives (fun ts n => n = 0 ∧ PathTokens path ts) c' := by
  unfold dottedName
  refine .bind (ensures_identifier_token c) fun first c' _ => .get ?_
  refine (ensures_nameParts_tokens first c').imp fun path c'' hparts hfirst ends => ?_
  obtain ⟨name, span⟩ := first
  obtain ⟨rfl, htoken, rfl⟩ := hfirst
  have hpass := ends.pass htoken (by simp)
  obtain ⟨us, n, hpassed, rfl, hus⟩ := hparts _ (@PathTokens.word ⟨.identifier name, c.here⟩ name rfl) hpass.ends
  exact ⟨_, 0, hpass.cons hpassed, rfl, hus⟩

/-! ## Expressions -/

theorem ExprTokens.loosen_le {loose : Bool} {p q : Nat} {e : Expr} (h : ExprTokens loose (.expr q e) ts n)
    (hpq : p ≤ q) : ExprTokens loose (.expr p e) ts n := by
  induction q with
  | zero => rwa [Nat.le_zero.mp hpq]
  | succ q ih =>
    rcases Nat.le_succ_iff.mp hpq with hle | rfl
    · exact ih h.loosen hle
    · exact h

/-- A name binds as tightly as can be, whatever is asked for. -/
def ExprPart.Tight (ts : List (Spanned Token)) (n : Nat) : ExprPart → Prop
  | .expr _ e => e.isName = true → ExprTokens true (.expr 13 e) ts n
  | .args _ => True

theorem ExprTokens.tight {part : ExprPart} (h : ExprTokens true part ts n) : part.Tight ts n := by
  induction h with
  | name h => exact fun _ => .name h
  | parens hl h hr => exact fun _ => .parens hl h hr
  | loosen _ ih => exact ih
  | nil => trivial
  | last => trivial
  | more => trivial
  | _ => exact fun h => by cases h

theorem token_of_unaryOp? {t : Token} {op : UnaryOp} (h : unaryOp? t = some op) : t = op.token := by
  unfold unaryOp? at h
  split at h <;> cases h <;> rfl

theorem integer_of_negative? {op : UnaryOp} {t : Token} {value : Int32} (h : negative? op t = some value) :
    ∃ v : Nat, op = .neg ∧ t = .integer v ∧ v ≤ Literal.intLimit ∧ value = .ofInt (-v) := by
  unfold negative? at h
  split at h
  · next v =>
    split at h
    · next hv => exact ⟨v, rfl, rfl, hv, (Option.some.inj h).symm⟩
    · cases h
  · cases h

theorem token_of_assignOp? {t : Token} {op : AssignOp} (h : assignOp? t = some op) : t = op.token ∧ op.Legal := by
  unfold assignOp? at h
  split at h
  · cases h
    exact ⟨rfl, trivial⟩
  · split at h
    · next hcompound =>
      cases h
      exact ⟨(if_pos hcompound).symm, hcompound⟩
    · cases h
  · cases h

/-- What is ensured of a function that reads expressions: it passes the tokens of one, at a level. -/
def GivesExpr (level : Nat) (c : Cursor) (e : Expr) (c' : Cursor) : Prop :=
  c.Gives (ExprTokens true (.expr level e)) c'

/-- What is ensured of a function that reads on after an operand. -/
def GivesTail (level : Nat) (c : Cursor) (lhs e : Expr) (c' : Cursor) : Prop :=
  (∀ op, c'.token = .operator op → op.precedence < level) ∧
    ∀ p ts n, ExprTokens true (.expr p lhs) ts n → level ≤ p →
      (∀ op, c.token = .operator op → op.precedence ≤ p) →
        c.Gives (fun us m => ExprTokens true (.expr level e) (ts ++ us) (max n m)) c'

/-- After a step there is no further one. -/
theorem ensures_postSteps_none {limit : Nat} {operand : Expr} (hname : operand.isName = false) (c : Cursor) :
    Ensures (postSteps limit operand) c fun e c' => e = operand ∧ c' = c := by
  cases limit with
  | zero => exact .pure ⟨rfl, rfl⟩
  | succ limit =>
    unfold postSteps
    refine .peek ?_
    split
    · rw [if_neg (by simp [hname])]
      refine .report (.advance (.behind ?_))
      exact (ensures_postSteps).imp fun _ _ _ => trivial
    · exact .pure ⟨rfl, rfl⟩

theorem ensures_postSteps_tokens {limit : Nat} (operand : Expr) (c : Cursor) :
    Ensures (postSteps limit operand) c fun e c' => ∀ ts n, ExprTokens true (.expr 13 operand) ts n →
      c.Gives (fun us m => m = 0 ∧ ExprTokens true (.expr 11 e) (ts ++ us) n) c' := by
  have hstop : ∀ ts n, ExprTokens true (.expr 13 operand) ts n →
      c.Gives (fun us m => m = 0 ∧ ExprTokens true (.expr 11 operand) (ts ++ us) n) c := by
    intro ts n h ends
    exact ⟨[], 0, .refl ends, rfl, by rw [List.append_nil]; exact h.loosen.loosen⟩
  cases limit with
  | zero => exact .pure hstop
  | succ limit =>
    unfold postSteps
    refine .peek ?_
    split
    · next op htoken =>
      refine .check rfl fun c₁ _ _ same => .advance (.behind ?_)
      refine (ensures_postSteps_none rfl _).imp fun e c' he named ts n hts ends => ?_
      obtain ⟨rfl, rfl⟩ := he
      obtain rfl := same named
      have hpass := ends.pass htoken (by simp)
      refine ⟨_, 0, hpass, rfl, ?_⟩
      rw [hpass.behind_eq]
      exact (ExprTokens.postStep hts named rfl).loosen
    · exact .pure hstop

/-- What is ensured of the functions that read expressions, for one bound of their recursion. -/
structure GivesExprs (n : Nat) : Prop where
  expr : ∀ c : Cursor, Ensures (expr n) c fun e c' =>
    c.Gives (fun ts m => ∃ k, m = k + 1 ∧ ExprTokens true (.expr 0 e) ts k) c'
  assignment : ∀ c : Cursor, Ensures (assignment n) c (GivesExpr 0 c)
  binary : ∀ (least : Nat) (c : Cursor), least ≤ 11 → Ensures (binary n least) c fun e c' =>
    (∀ op, c'.token = .operator op → op.precedence < least) ∧ GivesExpr least c e c'
  binaryTail : ∀ (least : Nat) (lhs : Expr) (c : Cursor), Ensures (binaryTail n least lhs) c (GivesTail least c lhs)
  unary : ∀ c : Cursor, Ensures (unary n) c (GivesExpr 11 c)
  primary : ∀ c : Cursor, Ensures (primary n) c (GivesExpr 13 c)
  arguments : ∀ c : Cursor, Ensures (arguments n) c fun es c' => c.Gives (ExprTokens true (.args es)) c'

theorem givesExprs_zero : GivesExprs 0 where
  expr c := (ensures_exhausted c).imp fun _ _ h => h.elim
  assignment c := (ensures_exhausted c).imp fun _ _ h => h.elim
  binary _ c _ := (ensures_exhausted c).imp fun _ _ h => h.elim
  binaryTail _ _ c := (ensures_exhausted c).imp fun _ _ h => h.elim
  unary c := (ensures_exhausted c).imp fun _ _ h => h.elim
  primary c := (ensures_exhausted c).imp fun _ _ h => h.elim
  arguments c := .bind (ensures_exhausted c) fun _ _ _ => .pure fun h => h.elim

section

variable {n : Nat} (ih : GivesExprs n) (c : Cursor)

include ih

theorem gives_expr_succ : Ensures (expr (n + 1)) c fun e c' =>
    c.Gives (fun ts m => ∃ k, m = k + 1 ∧ ExprTokens true (.expr 0 e) ts k) c' := by
  unfold expr
  refine .bind (ensures_enterNesting c) fun b c₁ _ => ?_
  split
  · refine .bind (ih.assignment c₁) fun e c₂ _ => ?_
    refine .bind (ensures_leaveNesting c₂) fun _ c₃ _ => .pure ?_
    rintro rfl he ⟨-, rfl, hdepth⟩ ends
    obtain ⟨ts, m, hpassed, he⟩ := he ends
    exact ⟨ts, m + 1, hpassed.nested hdepth, m, rfl, he⟩
  · next hb => exact (ensures_missingExpr c₁).imp fun _ _ _ h => absurd h.1 hb

theorem gives_assignment_succ : Ensures (assignment (n + 1)) c (GivesExpr 0 c) := by
  unfold assignment
  refine .bind (ih.binary 0 c (by decide)) fun target c₁ _ => .peek ?_
  split
  · exact .pure fun h => h.2
  · next op hop =>
    obtain ⟨htoken, hlegal⟩ := token_of_assignOp? hop
    refine .check rfl fun c₂ _ _ same => .advance ?_
    refine .bind (ih.assignment c₂.advance) fun value c₃ _ => .pure ?_
    rintro hvalue named ⟨-, htarget⟩ ends
    obtain rfl := same named
    obtain ⟨ts, m, hpassed, htarget⟩ := htarget ends
    have hpass := hpassed.ends.pass htoken (by cases op <;> simp [AssignOp.token]; split <;> simp)
    obtain ⟨us, k, hpassed', hvalue⟩ := hvalue hpass.ends
    exact ⟨_, _, hpassed.trans (hpass.cons hpassed'),
      .assign ((htarget.tight named).loosen_le (by decide)) named hlegal rfl hvalue⟩

theorem gives_binary_succ (least : Nat) (hleast : least ≤ 11) : Ensures (binary (n + 1) least) c fun e c' =>
    (∀ op, c'.token = .operator op → op.precedence < least) ∧ GivesExpr least c e c' := by
  unfold binary
  refine .bind (ih.unary c) fun lhs c₁ _ => ?_
  refine (ih.binaryTail least lhs c₁).imp fun e c₂ htail hlhs => ⟨htail.1, fun ends => ?_⟩
  obtain ⟨ts, m, hpassed, hlhs⟩ := hlhs ends
  have hop : ∀ op, c₁.token = .operator op → op.precedence ≤ 11 := fun op _ => by cases op <;> decide
  obtain ⟨us, k, hpassed', he⟩ := htail.2 11 ts m hlhs hleast hop hpassed.ends
  exact ⟨_, _, hpassed.trans hpassed', he⟩

theorem gives_binaryTail_succ (least : Nat) (lhs : Expr) :
    Ensures (binaryTail (n + 1) least lhs) c (GivesTail least c lhs) := by
  have hstop : (∀ op, c.token = .operator op → op.precedence < least) → GivesTail least c lhs lhs c := by
    refine fun hop => ⟨hop, fun p ts m h hp _ ends => ⟨[], 0, .refl ends, ?_⟩⟩
    have hlhs := h.loosen_le hp
    simpa using hlhs
  unfold binaryTail
  refine .peek ?_
  split
  · next op htoken =>
    split
    · next hlt => exact .pure (hstop fun op' h => by cases htoken.symm.trans h; exact hlt)
    · next hge =>
      refine .advance (.bind (ih.binary _ c.advance (by cases op <;> decide)) fun rhs c₁ _ => ?_)
      refine (ih.binaryTail least _ c₁).imp fun e c₂ htail hrhs => ⟨htail.1, fun p ts m hlhs hp hop ends => ?_⟩
      have hpass := ends.pass htoken (by simp)
      obtain ⟨us, k, hpassed, hr⟩ := hrhs.2 hpass.ends
      -- what comes after the right operand binds no tighter than the operator in front of it
      have hbinary := ExprTokens.binary (t := ⟨.operator op, c.here⟩) (hlhs.loosen_le (hop op htoken)) rfl hr
      obtain ⟨vs, k', hpassed', he⟩ := htail.2 op.precedence _ _ hbinary (Nat.not_lt.mp hge)
        (fun op' h => Nat.le_of_lt_succ (hrhs.1 op' h)) hpassed.ends
      refine ⟨_, _, hpass.cons (hpassed.trans hpassed'), ?_⟩
      rw [List.append_assoc, List.cons_append, Nat.max_assoc] at he
      exact he
  · next hno => exact .pure (hstop fun op h => absurd h (hno op))

theorem gives_unary_succ : Ensures (unary (n + 1)) c (GivesExpr 11 c) := by
  unfold unary
  refine .here (.peek ?_)
  split
  · refine .bind (ih.primary c) fun operand c₁ _ => .get ?_
    refine (ensures_postSteps_tokens operand c₁).imp fun e c₂ hsteps hoperand ends => ?_
    obtain ⟨ts, m, hpassed, hoperand⟩ := hoperand ends
    obtain ⟨us, k, hpassed', rfl, he⟩ := hsteps ts m hoperand hpassed.ends
    have hall := hpassed.trans hpassed'
    rw [Nat.max_zero] at hall
    exact ⟨_, _, hall, he⟩
  · next op hop =>
    have htoken := token_of_unaryOp? hop
    refine .advance (.peek ?_)
    split
    · next value hnegative =>
      obtain ⟨v, rfl, hinteger, hv, rfl⟩ := integer_of_negative? hnegative
      refine .advance (.behind (.pure fun ends => ?_))
      have hpass := ends.pass htoken (by simp [UnaryOp.token])
      have hpass' := hpass.ends.pass hinteger (by simp)
      refine ⟨_, _, hpass.cons hpass', ?_⟩
      rw [(hpass.cons hpass').behind_eq]
      exact .negative (t := ⟨.operator .sub, c.here⟩) (v := ⟨.integer v, c.advance.here⟩) rfl rfl hv
    · next hnegative =>
      refine .bind (ensures_enterNesting _) fun b c₂ _ => ?_
      split
      · refine .bind (ih.unary c₂) fun operand c₃ _ => ?_
        refine .bind (ensures_leaveNesting c₃) fun _ c₄ _ => ?_
        have hgives : (∀ s, op = .step s → operand.isName = true) → c₄ = { c₃ with depth := c₃.depth - 1 } →
            GivesExpr 11 c₂ operand c₃ → b = true ∧ c₂ = { c.advance with depth := c.advance.depth + 1 } ∧
              c.advance.depth < nestingLimit → GivesExpr 11 c (.unary (c.here.merge operand.span) op operand) c₄ := by
          rintro named rfl hoperand ⟨-, rfl, hdepth⟩ ends
          have hpass := ends.pass htoken (by cases op <;> simp [UnaryOp.token])
          obtain ⟨ts, m, hpassed, hoperand⟩ := hoperand hpass.ends
          refine ⟨_, _, hpass.cons (hpassed.nested hdepth), .unary (t := ⟨op.token, c.here⟩) rfl hoperand ?_ named⟩
          -- a number right after the minus sign would have been read together with it
          rintro rfl u hu v hv
          obtain ⟨u', us, rfl, hstarts⟩ := hoperand.exists_cons
          cases hu
          have hahead : c.advance.ahead = _ := hpassed.ahead
          have hnext : c.advance.token = u.value := by
            rw [Cursor.token, hahead]
            rfl
          rw [hnext, hv] at hnegative
          rw [hv] at hstarts
          have hlimit : v < Literal.intLimit := of_decide_eq_true hstarts
          rw [negative?, if_pos hlimit.le] at hnegative
          cases hnegative
        cases op with
        | step op =>
          refine .check rfl fun c₅ _ _ same => .pure ?_
          intro named hleave
          obtain rfl := same named
          exact hgives (fun _ _ => named) hleave
        | _ => exact .pure (hgives fun _ h => by cases h)
      · next hb => exact (ensures_missingExpr c₂).imp fun _ _ _ h => absurd h.1 hb

theorem gives_primary_succ : Ensures (primary (n + 1)) c (GivesExpr 13 c) := by
  have hword : ∀ {word : Keyword} {value : Literal}, c.token = .keyword word →
      (word, value) ∈ [(.«true», .bool true), (.«false», .bool false), (.«null», .null)] →
        GivesExpr 13 c (.literal c.here value) c.advance := by
    intro word value htoken h ends
    exact ⟨_, 0, ends.pass htoken (by simp), .word (t := ⟨.keyword word, c.here⟩) rfl h⟩
  unfold primary
  refine .here (.peek ?_)
  split
  · next value htoken =>
    refine .advance ?_
    split
    · next hlimit =>
      refine .pure fun ends => ⟨_, 0, ends.pass htoken (by simp), ?_⟩
      exact .integer (t := ⟨.integer value, c.here⟩) rfl hlimit
    · exact .reportAt (.pure trivial)
  · next htoken => exact .advance (.pure (hword htoken (by simp)))
  · next htoken => exact .advance (.pure (hword htoken (by simp)))
  · next htoken => exact .advance (.pure (hword htoken (by simp)))
  · next text htoken =>
    refine .advance (.pure fun ends => ⟨_, 0, ends.pass htoken (by simp), ?_⟩)
    exact .string (t := ⟨.string text, c.here⟩) rfl
  · next htoken =>
    refine .advance (.bind (ih.expr c.advance) fun e c₂ _ => ?_)
    refine .bind (ensures_expect _ c₂) fun _ c₃ _ => .pure ?_
    rintro ⟨rfl, hclose⟩ he ends
    have hpass := ends.pass htoken (by simp)
    obtain ⟨ts, m, hpassed, k, rfl, he⟩ := he hpass.ends
    have hpass' := hpassed.ends.pass hclose (by simp)
    exact ⟨_, _, hpass.cons (hpassed.concat hpass'),
      .parens (l := ⟨.lparen, c.here⟩) (r := ⟨.rparen, c₂.here⟩) rfl he rfl⟩
  · refine .bind (ensures_dottedName_tokens c) fun path c₁ _ => ?_
    refine .bind (ensures_eat .lparen c₁) fun b c₂ _ => ?_
    split
    · next hb =>
      refine .bind (ih.arguments c₂) fun args c₃ _ => ?_
      refine .bind (ensures_expect _ c₃) fun _ c₄ _ => .behind (.pure ?_)
      rintro ⟨rfl, hclose⟩ hargs heat hpath ends
      obtain ⟨ts, _, hpassed, rfl, hpath⟩ := hpath ends
      obtain ⟨rfl, hopen⟩ := heat
      have hpass := hpassed.ends.pass (hopen.mp hb) (by simp)
      obtain ⟨us, m, hpassed', hargs⟩ := hargs hpass.ends
      have hpass' := hpassed'.ends.pass hclose (by simp)
      have hall := hpassed.trans (hpass.cons (hpassed'.concat hpass'))
      rw [Nat.zero_max] at hall
      refine ⟨_, _, hall, ?_⟩
      rw [hall.span (by simp)]
      exact .call (l := ⟨.lparen, c₁.here⟩) (r := ⟨.rparen, c₃.here⟩) hpath rfl hargs rfl
    · next hb =>
      refine .pure fun heat hpath ends => ?_
      obtain ⟨rfl, -⟩ := heat
      obtain ⟨ts, _, hpassed, rfl, hpath⟩ := hpath ends
      exact ⟨ts, 0, hpassed, .name hpath⟩
  · exact .report (ensures_missingExpr _)

theorem gives_arguments_succ :
    Ensures (arguments (n + 1)) c fun es c' => c.Gives (ExprTokens true (.args es)) c' := by
  have hnil : c.Gives (ExprTokens true (.args [])) c := fun ends => ⟨[], 0, .refl ends, .nil⟩
  unfold arguments
  refine .peek ?_
  split
  · exact .pure hnil
  · exact .pure hnil
  · refine .bind (ih.expr c) fun e c₁ _ => ?_
    refine .bind (ensures_eat _ c₁) fun b c₂ _ => ?_
    split
    · next hb =>
      refine .bind (ih.arguments c₂) fun es c₃ _ => .pure ?_
      rintro hes heat he ends
      obtain ⟨ts, _, hpassed, m, rfl, he⟩ := he ends
      obtain ⟨rfl, hcomma⟩ := heat
      have hpass := hpassed.ends.pass (hcomma.mp hb) (by simp)
      obtain ⟨us, k, hpassed', hes⟩ := hes hpass.ends
      exact ⟨_, _, hpassed.trans (hpass.cons hpassed'),
        .more (c := ⟨.comma, c₁.here⟩) he rfl hes fun _ => rfl⟩
    · next hb =>
      refine .pure fun heat he ends => ?_
      obtain ⟨rfl, -⟩ := heat
      obtain ⟨ts, _, hpassed, m, rfl, he⟩ := he ends
      exact ⟨ts, _, hpassed, .last he⟩

end

theorem givesExprs (n : Nat) : GivesExprs n := by
  induction n with
  | zero => exact givesExprs_zero
  | succ n ih =>
    exact {
      expr := gives_expr_succ ih
      assignment := gives_assignment_succ ih
      binary := fun least c hleast => gives_binary_succ ih c least hleast
      binaryTail := fun least lhs c => gives_binaryTail_succ ih c least lhs
      unary := gives_unary_succ ih
      primary := gives_primary_succ ih
      arguments := gives_arguments_succ ih }

theorem gives_expression (c : Cursor) : Ensures expression c fun e c' =>
    c.Gives (fun ts m => ∃ k, m = k + 1 ∧ ExprTokens true (.expr 0 e) ts k) c' := by
  unfold expression
  exact .get ((givesExprs _).expr c)

end Grammar

end JavaFold
