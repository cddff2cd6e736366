import JavaFold.Proofs.Program.Grammar.Rules
import JavaFold.Proofs.Program.Grammar.Unit

/-!
# What the grammar derives is read

Each rule of the grammar is one that reading follows: where the tokens write something, reading them gives it
without a problem, as long as they do not nest too deep.
-/

namespace JavaFold

namespace Token

/-- Whether an expression can start with the token. -/
def opensExpr : Token → Bool
  | integer value => value < Literal.intLimit
  | keyword .«true» | keyword .«false» | keyword .«null» | string _ | identifier _ | lparen
  | operator .sub | bang | tilde | step _ => true
  | _ => false

/-- The token is no part of a name. -/
def EndsName (t : Token) : Prop := t ≠ dot ∧ ∀ name, t ≠ identifier name

end Token

namespace Grammar

open JavaFold.Parser

variable {loose : Bool} {ts us : List (Spanned Token)} {n m level : Nat} {e : Expr} {part : ExprPart}

/-! ## Names and types -/

theorem PathTokens.starts {path : Spanned String} (h : PathTokens path ts) :
    ∃ t us name, ts = t :: us ∧ t.value = .identifier name := by
  induction h with
  | @word t name ht => exact ⟨t, [], name, rfl, ht⟩
  | part _ _ _ ih =>
    obtain ⟨t, us, name, rfl, ht⟩ := ih
    exact ⟨t, _, name, rfl, ht⟩

theorem pathSpan_append (d t : Spanned Token) : ∀ {words : List String} {ts : List (Spanned Token)} {s : Span},
    ts.map (·.value) = words.flatMap (fun w => [.dot, .identifier w]) →
      pathSpan s (ts ++ [d, t]) = (pathSpan s ts).merge t.span
  | [], ts, s, hts => by
    obtain rfl := List.map_eq_nil_iff.mp hts
    rfl
  | w :: words, ts, s, hts => by
    obtain ⟨d', ts, rfl, -, hts'⟩ := List.map_eq_cons_iff.mp hts
    obtain ⟨t', ts, rfl, -, hts''⟩ := List.map_eq_cons_iff.mp hts'
    exact @pathSpan_append d t words ts (s.merge t'.span) hts''

/-- A name is made of words with dots between them. -/
theorem PathTokens.words {path : Spanned String} (h : PathTokens path ts) : ∃ t us word words,
    ts = t :: us ∧ t.value = .identifier word ∧
      us.map (·.value) = words.flatMap (fun w => [.dot, .identifier w]) ∧
      path = ⟨dotted word words, pathSpan t.span us⟩ := by
  induction h with
  | @word t name ht => exact ⟨t, [], name, [], rfl, ht, rfl, rfl⟩
  | @part path ts d t name _ hd ht ih =>
    obtain ⟨first, us, word, words, rfl, hword, hwords, rfl⟩ := ih
    refine ⟨first, us ++ [d, t], word, words ++ [name], rfl, hword, ?_, ?_⟩
    · rw [List.map_append, hwords, List.flatMap_append]
      simp [hd, ht]
    · rw [pathSpan_append d t hwords]
      simp [dotted]

theorem PathTokens.reads {path : Spanned String} (h : PathTokens path ts) : ReadsPath ts path := by
  obtain ⟨t, us, word, words, rfl, ht, hwords, rfl⟩ := h.words
  intro passed u rest hu
  have hlength : us.length = words.length * 2 := by
    simpa [List.length_flatMap, List.map_const'] using congrArg List.length hwords
  have hlimit : words.length ≤ (us ++ u :: rest).length := by
    rw [List.length_append]
    omega
  exact .identifier ht (.get (g := nameParts (us ++ u :: rest).length ⟨word, t.span⟩) (fun _ _ => rfl)
    (leads_nameParts hwords hlimit hu))

theorem nameFollows_of_endsName {u : Spanned Token} (h : u.value.EndsName) (rest : List (Spanned Token)) :
    nameFollows (u :: rest) = false := by
  obtain ⟨token, span⟩ := u
  cases token <;> first | rfl | exact absurd rfl h.1 | exact absurd rfl (h.2 _)

theorem PathTokens.declFollows {path : Spanned String} (h : PathTokens path ts) (us : List (Spanned Token)) :
    Parser.declFollows (ts ++ us) = nameFollows us := by
  induction h generalizing us with
  | @word t name ht =>
    obtain ⟨token, span⟩ := t
    cases ht
    rfl
  | @part path ts d t name _ hd ht ih =>
    obtain ⟨between, span⟩ := d
    obtain ⟨token, span'⟩ := t
    cases hd
    cases ht
    rw [List.append_assoc]
    exact ih _

/-! ## Expressions -/

/-- An expression starts with a token that can start one, and what binds tighter than an operator in front of
an operand does not start with such an operator. -/
def ExprPart.Starts (ts : List (Spanned Token)) : ExprPart → Prop
  | .expr level _ => ∃ t us, ts = t :: us ∧ t.value.opensExpr = true ∧
      (12 ≤ level → unaryOp? t.value = none)
  | .args _ => True

theorem ExprTokens.starts (h : ExprTokens loose part ts n) : part.Starts ts := by
  induction h with
  | integer ht h => exact ⟨_, [], rfl, by simp [ht, Token.opensExpr, h], fun _ => by rw [ht]; rfl⟩
  | @word t word value ht h =>
    simp only [List.mem_cons, Prod.mk.injEq, List.not_mem_nil, or_false] at h
    refine ⟨t, [], rfl, ?_⟩
    rcases h with ⟨rfl, rfl⟩ | ⟨rfl, rfl⟩ | ⟨rfl, rfl⟩ <;> exact ⟨by rw [ht]; rfl, fun _ => by rw [ht]; rfl⟩
  | string ht => exact ⟨_, [], rfl, by rw [ht]; rfl, fun _ => by rw [ht]; rfl⟩
  | name h =>
    obtain ⟨t, us, name, rfl, ht⟩ := h.starts
    exact ⟨t, us, rfl, by rw [ht]; rfl, fun _ => by rw [ht]; rfl⟩
  | call h =>
    obtain ⟨t, us, name, rfl, ht⟩ := h.starts
    exact ⟨t, _, rfl, by rw [ht]; rfl, fun _ => by rw [ht]; rfl⟩
  | parens hl => exact ⟨_, _, rfl, by rw [hl]; rfl, fun _ => by rw [hl]; rfl⟩
  | postStep _ _ _ ih =>
    obtain ⟨t, us, rfl, ht, hop⟩ := ih
    exact ⟨t, _, rfl, ht, fun _ => hop (by decide)⟩
  | negative ht => exact ⟨_, _, rfl, by rw [ht]; rfl, fun h => absurd h (by decide)⟩
  | @unary _ _ _ t op ht => exact ⟨_, _, rfl, by rw [ht]; cases op <;> rfl, fun h => absurd h (by decide)⟩
  | @binary _ _ _ _ _ _ _ op _ _ _ ih =>
    obtain ⟨t, us, rfl, ht, hop⟩ := ih
    exact ⟨t, _, rfl, ht, hop⟩
  | assign _ _ _ _ _ ih =>
    obtain ⟨t, us, rfl, ht, -⟩ := ih
    exact ⟨t, _, rfl, ht, fun h => absurd h (by decide)⟩
  | loosen _ ih =>
    obtain ⟨t, us, rfl, ht, hop⟩ := ih
    exact ⟨t, us, rfl, ht, fun h => hop (Nat.le_succ_of_le h)⟩
  | nil => trivial
  | last => trivial
  | more => trivial

theorem ExprTokens.exists_cons (h : ExprTokens loose (.expr level e) ts n) :
    ∃ t us, ts = t :: us ∧ t.value.opensExpr = true := by
  obtain ⟨t, us, hts, ht, -⟩ := h.starts
  exact ⟨t, us, hts, ht⟩

theorem ExprTokens.ne_nil (h : ExprTokens loose (.expr level e) ts n) : ts ≠ [] := by
  obtain ⟨t, us, rfl, -⟩ := h.exists_cons
  exact List.cons_ne_nil _ _

/-- In front of what is no part of a name, an expression does not start like a declaration. -/
def ExprPart.StartsNoDecl (ts : List (Spanned Token)) : ExprPart → Prop
  | .expr _ _ => ∀ ⦃u : Spanned Token⦄ ⦃rest : List (Spanned Token)⦄, u.value.EndsName →
      declFollows (ts ++ u :: rest) = false
  | .args _ => True

theorem AssignOp.endsName_token (op : AssignOp) : op.token.EndsName := by
  cases op with
  | plain => exact ⟨by simp [AssignOp.token], by simp [AssignOp.token]⟩
  | compound op => cases op <;> exact ⟨by decide, by simp [AssignOp.token, BinaryOp.hasCompound]⟩

theorem ExprTokens.startsNoDecl (h : ExprTokens loose part ts n) : part.StartsNoDecl ts := by
  induction h with
  | @integer t value ht =>
    obtain ⟨token, span⟩ := t
    cases ht
    exact fun _ _ _ => rfl
  | @word t word value ht h =>
    obtain ⟨token, span⟩ := t
    cases ht
    simp only [List.mem_cons, Prod.mk.injEq, List.not_mem_nil, or_false] at h
    rcases h with ⟨rfl, rfl⟩ | ⟨rfl, rfl⟩ | ⟨rfl, rfl⟩ <;> exact fun _ _ _ => rfl
  | @string t text ht =>
    obtain ⟨token, span⟩ := t
    cases ht
    exact fun _ _ _ => rfl
  | name h =>
    intro u rest hu
    rw [h.declFollows, nameFollows_of_endsName hu]
  | call h hl =>
    intro u rest hu
    rw [List.append_assoc, h.declFollows]
    exact nameFollows_of_endsName (by rw [hl]; exact ⟨by decide, by simp⟩) _
  | @parens _ _ _ l _ hl =>
    obtain ⟨token, span⟩ := l
    cases hl
    exact fun _ _ _ => rfl
  | postStep _ _ ht ih =>
    intro u rest _
    rw [List.append_assoc]
    exact ih (by rw [ht]; exact ⟨by simp, by simp⟩)
  | @negative t _ _ ht =>
    obtain ⟨token, span⟩ := t
    cases ht
    exact fun _ _ _ => rfl
  | @unary _ _ _ t op ht =>
    obtain ⟨token, span⟩ := t
    cases ht
    cases op <;> exact fun _ _ _ => rfl
  | binary _ ht _ ih =>
    intro u rest _
    rw [List.append_assoc]
    exact ih (by rw [ht]; exact ⟨by simp, by simp⟩)
  | @assign _ _ _ _ _ _ _ op _ _ _ ht _ ih =>
    intro u rest _
    rw [List.append_assoc]
    exact ih (by rw [ht]; exact AssignOp.endsName_token op)
  | loosen _ ih => exact ih
  | nil => trivial
  | last => trivial
  | more => trivial

theorem ExprTokens.noDecl (h : ExprTokens loose (.expr level e) ts n) : NoDecl ts := by
  intro u rest hu
  refine h.startsNoDecl ?_
  generalize u.value = v at hu
  cases v <;> first | (cases hu; done) | exact ⟨by simp, by simp⟩

/-! ## Reading expressions -/

/-- What reading does with the tokens of a part of an expression. -/
def ExprPart.Reads (ts : List (Spanned Token)) (n : Nat) : ExprPart → Prop
  | .expr level e =>
    if 13 ≤ level then ReadsPrimary ts n e
    else if 11 ≤ level then ReadsUnary ts n e
    else if 1 ≤ level then ReadsBinary level ts n e
    else ReadsAssignment ts n e
  | .args es => ReadsArguments ts n es

theorem ExprPart.reads_binary {op : BinaryOp} :
    (ExprPart.expr op.precedence e).Reads ts n ↔ ReadsBinary op.precedence ts n e := by
  cases op <;> rfl

/-- What binds tighter binds tight enough. -/
theorem ExprPart.Reads.loosen (h : (ExprPart.expr (level + 1) e).Reads ts n)
    (hts : (ExprPart.expr (level + 1) e).Starts ts) : (ExprPart.expr level e).Reads ts n := by
  obtain ⟨t, us, hcons, -, hop⟩ := hts
  have hne : ts ≠ [] := hcons ▸ List.cons_ne_nil t us
  simp only [ExprPart.Reads] at h ⊢
  rcases Nat.lt_trichotomy level 12 with hlt | rfl | hgt
  · rw [if_neg (by omega)] at h ⊢
    rcases Nat.lt_trichotomy level 10 with hlt' | rfl | hgt'
    · rw [if_neg (by omega), if_pos (by omega)] at h
      rw [if_neg (by omega)]
      split
      · exact h.weaken (Nat.le_succ level)
      · exact (h.weaken (Nat.zero_le _)).assignment
    · exact ReadsUnary.binary h hne 10
    · rw [if_pos (by omega)] at h ⊢
      exact h
  · exact ReadsPrimary.unary h ⟨t, us, hcons, hop (by omega)⟩
  · rw [if_pos (by omega)] at h ⊢
    exact h

theorem opensExpr_ne {t : Spanned Token} (h : t.value.opensExpr = true) :
    t.value ≠ .rparen ∧ t.value ≠ .endOfFile ∧ t.value ≠ .semicolon ∧ t.value ≠ .rbrace ∧
      t.value ≠ .keyword .«else» := by
  refine ⟨?_, ?_, ?_, ?_, ?_⟩ <;> intro heq <;> rw [heq] at h <;> cases h

theorem ExprTokens.startsExpr (h : ExprTokens loose (.expr level e) ts n) : StartsExpr ts := by
  obtain ⟨t, us, rfl, ht⟩ := h.exists_cons
  exact ⟨t, us, rfl, (opensExpr_ne ht).1, (opensExpr_ne ht).2.1⟩

theorem ExprTokens.startsPrimary (h : ExprTokens loose (.expr 13 e) ts n) : StartsPrimary ts := by
  obtain ⟨t, us, hts, -, hop⟩ := h.starts
  exact ⟨t, us, hts, hop (by decide)⟩

theorem unaryOp?_token (op : UnaryOp) : unaryOp? op.token = some op := by
  cases op <;> rfl

theorem assignOp?_token {op : AssignOp} (h : op.Legal) : assignOp? op.token = some op := by
  cases op with
  | plain => rfl
  | compound op => cases op <;> first | rfl | cases h

/-- The operands of a binary operator are read as such. -/
theorem ExprPart.Reads.operand {op : BinaryOp} (h : (ExprPart.expr (op.precedence + 1) e).Reads ts n)
    (hne : ts ≠ []) : ReadsBinary (op.precedence + 1) ts n e := by
  cases op <;> first | exact h | exact ReadsUnary.binary h hne _

theorem ExprTokens.reads (h : ExprTokens true part ts n) : part.Reads ts n := by
  induction h with
  | integer ht h => exact readsPrimary_integer ht h
  | @word t word value ht h =>
    refine readsPrimary_literal (.inl ?_)
    simp only [List.mem_cons, Prod.mk.injEq, List.not_mem_nil, or_false] at h ⊢
    rcases h with ⟨rfl, rfl⟩ | ⟨rfl, rfl⟩ | ⟨rfl, rfl⟩ <;> simp [ht]
  | string ht => exact readsPrimary_literal (.inr ⟨_, ht, rfl⟩)
  | name h =>
    obtain ⟨t, us, name, rfl, ht⟩ := h.starts
    exact h.reads.primary rfl ht
  | @call path ts us n args l r h hl _ hr ih =>
    obtain ⟨t, tail, name, rfl, ht⟩ := h.starts
    have hspan : spanAll (t :: tail ++ l :: (us ++ [r])) = t.span.merge r.span := by simp [spanAll]
    rw [hspan]
    exact h.reads.call rfl ht hl ih hr
  | parens hl _ hr ih => exact (ReadsAssignment.expr ih).parens hl hr
  | postStep h hname ht ih => exact ReadsPrimary.postStep ih h.startsPrimary hname ht
  | negative ht hv h => exact readsUnary_negative ht hv h
  | @unary ts n e t op ht h hneg hstep ih =>
    refine ReadsUnary.unary ih (by rw [ht, unaryOp?_token]) (fun u hu => ?_) h.ne_nil hstep
    cases op with
    | neg =>
      generalize hv : u.value = v
      cases v with
      | integer value => exact absurd hv (hneg rfl u hu value)
      | _ => rfl
    | _ => rfl
  | binary _ ht hr ihl ihr =>
    exact ExprPart.reads_binary.mpr ((ExprPart.reads_binary.mp ihl).operator ht (ihr.operand hr.ne_nil))
  | assign _ hname hop ht _ ih ihvalue =>
    have htarget : ReadsBinary 1 _ _ _ := ih
    exact (htarget.weaken (Nat.zero_le 1)).assign hname (by rw [ht, assignOp?_token hop]) ihvalue
  | loosen h ih => exact ih.loosen h.starts
  | nil => exact readsArguments_nil
  | last h ih => exact (ReadsAssignment.expr ih).argument h.startsExpr
  | more h hc _ _ ih ihes => exact (ReadsAssignment.expr ih).arguments h.startsExpr hc ihes

/-- The tokens of a whole expression are read one level deeper. -/
theorem ExprTokens.readsExpr (h : ExprTokens true (.expr 0 e) ts n) : ReadsExpr ts (n + 1) e := by
  have hreads : ReadsAssignment ts n e := h.reads
  exact hreads.expr

theorem OptionalTokens.reads {stop : Token} {e : Option Expr} (h : OptionalTokens true e ts n)
    (hstop : stop = .semicolon ∨ stop = .rparen) : ReadsOptional stop ts n e := by
  cases h with
  | none => exact readsOptional_none stop
  | some h =>
    obtain ⟨t, us, hts, ht⟩ := h.exists_cons
    have hne := opensExpr_ne ht
    rcases hstop with rfl | rfl
    · exact h.readsExpr.optional rfl ⟨t, us, hts, hne.2.2.1⟩
    · exact h.readsExpr.optional rfl ⟨t, us, hts, hne.1⟩

/-! ## Declarations -/

theorem TyTokens.reads {ty : Spanned Ty} (h : TyTokens ty ts) : ReadsTy ts ty := by
  cases h with
  | word ht h => exact readsTy_keyword ht h
  | path h =>
    obtain ⟨t, us, name, rfl, ht⟩ := h.starts
    exact h.reads.ty rfl ht

theorem TyTokens.starts {ty : Spanned Ty} (h : TyTokens ty ts) : StartsTy ts := by
  cases h with
  | @word t word ty ht h =>
    refine ⟨t, [], rfl, .inl ?_⟩
    simp only [List.mem_cons, Prod.mk.injEq, List.not_mem_nil, or_false] at h
    rcases h with ⟨rfl, rfl⟩ | ⟨rfl, rfl⟩ | ⟨rfl, rfl⟩ <;> simp [ht]
  | path h =>
    obtain ⟨t, us, name, rfl, ht⟩ := h.starts
    exact ⟨t, us, rfl, .inr ⟨name, ht⟩⟩

theorem TyTokens.ne_nil {ty : Spanned Ty} (h : TyTokens ty ts) : ts ≠ [] := by
  obtain ⟨t, us, rfl, -⟩ := h.starts
  exact List.cons_ne_nil _ _

theorem InitTokens.reads {init : Option Expr} (h : InitTokens true init ts n) : ReadsInit ts n init := by
  cases h with
  | none => exact readsInit_none
  | some ht h => exact h.readsExpr.init ht

theorem DeclTokens.reads {ty : Spanned Ty} {name : Spanned String} {init : Option Expr}
    (h : DeclTokens true ty name init ts n) : ReadsLocalVar ts n (.localVar (spanAll ts) ty name init) := by
  cases h with
  | mk hty hvoid ht hinit => exact hty.reads.localVar hty.ne_nil hvoid ht hinit.reads

/-- A declaration starts like one. -/
theorem DeclTokens.isDecl {ty : Spanned Ty} {name : Spanned String} {init : Option Expr}
    (h : DeclTokens loose ty name init ts n) : IsDecl ts := by
  obtain ⟨hty, hvoid, ht, -⟩ := h
  rename_i us vs t name
  obtain ⟨token, span⟩ := t
  cases ht
  intro rest
  rw [List.append_assoc]
  cases hty with
  | @word t word ty ht h =>
    obtain ⟨token, span⟩ := t
    cases ht
    simp only [List.mem_cons, Prod.mk.injEq, List.not_mem_nil, or_false] at h
    rcases h with ⟨rfl, rfl⟩ | ⟨rfl, rfl⟩ | ⟨rfl, rfl⟩
    · rfl
    · rfl
    · exact absurd rfl hvoid
  | path h => exact h.declFollows _

theorem DeclTokens.startsSimple {ty : Spanned Ty} {name : Spanned String} {init : Option Expr}
    (h : DeclTokens loose ty name init ts n) : StartsSimple ts := by
  obtain ⟨hty, -, -, -⟩ := h
  obtain ⟨t, us, rfl, ht⟩ := hty.starts
  refine ⟨t, _, rfl, ?_⟩
  simp only [List.mem_cons, List.not_mem_nil, or_false] at ht
  rcases ht with (ht | ht | ht) | ⟨name, ht⟩ <;> rw [ht] <;> rfl

theorem ExprTokens.startsSimple (h : ExprTokens loose (.expr level e) ts n) : StartsSimple ts := by
  obtain ⟨t, us, rfl, ht⟩ := h.exists_cons
  refine ⟨t, us, rfl, ?_⟩
  generalize t.value = v at ht
  cases v with
  | keyword word => cases word <;> first | rfl | cases ht
  | _ => first | rfl | cases ht

/-- A statement of one word or expression starts with no semicolon. -/
theorem startsSimple_ne {ts : List (Spanned Token)} (h : StartsSimple ts) :
    ∃ t us, ts = t :: us ∧ t.value ≠ .semicolon := by
  obtain ⟨t, us, rfl, ht⟩ := h
  exact ⟨t, us, rfl, fun heq => by rw [heq] at ht; cases ht⟩

theorem ForInitTokens.reads {init : Option Stmt} (h : ForInitTokens true init ts n) : ReadsForInit ts n init := by
  cases h with
  | none => exact readsForInit_none
  | localVar h => exact h.reads.forInit h.isDecl (startsSimple_ne h.startsSimple)
  | expr h => exact h.readsExpr.forInit h.noDecl (startsSimple_ne h.startsSimple)

/-! ## Statements -/

/-- The tokens start with one that a statement can start with. -/
def StartsStmt (ts : List (Spanned Token)) : Prop :=
  ∃ t us, ts = t :: us ∧ t.value ≠ .rbrace ∧ t.value ≠ .endOfFile ∧ t.value ≠ .keyword .«else»

theorem startsStmt_cons {t : Spanned Token} {token : Token} (ht : t.value = token)
    (h : token ∉ [.rbrace, .endOfFile, .keyword .«else»]) : StartsStmt (t :: ts) := by
  rw [← ht] at h
  simp only [List.mem_cons, List.not_mem_nil, or_false, not_or] at h
  exact ⟨t, ts, rfl, h⟩

theorem StartsStmt.append (h : StartsStmt ts) (us : List (Spanned Token)) : StartsStmt (ts ++ us) := by
  obtain ⟨t, us, rfl, ht⟩ := h
  exact ⟨t, _, rfl, ht⟩

theorem ExprTokens.startsStmt (h : ExprTokens loose (.expr level e) ts n) : StartsStmt ts := by
  obtain ⟨t, us, rfl, ht⟩ := h.exists_cons
  obtain ⟨-, hend, -, hbrace, helse⟩ := opensExpr_ne ht
  exact ⟨t, us, rfl, hbrace, hend, helse⟩

theorem DeclTokens.startsStmt {ty : Spanned Ty} {name : Spanned String} {init : Option Expr}
    (h : DeclTokens loose ty name init ts n) : StartsStmt ts := by
  obtain ⟨hty, -, -, -⟩ := h
  obtain ⟨t, us, rfl, ht⟩ := hty.starts
  simp only [List.mem_cons, List.not_mem_nil, or_false] at ht
  rcases ht with (ht | ht | ht) | ⟨name, ht⟩ <;> exact startsStmt_cons ht (by simp)

def StmtPart.Starts (ts : List (Spanned Token)) : StmtPart → Prop
  | .stmt _ => StartsStmt ts
  | .stmts _ => ts = [] ∨ StartsStmt ts

theorem StmtTokens.starts {part : StmtPart} (h : StmtTokens loose part ts n) : part.Starts ts := by
  induction h with
  | block hl => exact startsStmt_cons hl (by simp)
  | expr h => exact h.startsStmt.append _
  | localVar h => exact h.startsStmt.append _
  | ifElse hk => exact startsStmt_cons hk (by simp)
  | ifElse_else hk => exact startsStmt_cons hk (by simp)
  | whileLoop hk => exact startsStmt_cons hk (by simp)
  | forLoop hk => exact startsStmt_cons hk (by simp)
  | ret hk => exact startsStmt_cons hk (by simp)
  | brk hk => exact startsStmt_cons hk (by simp)
  | cont hk => exact startsStmt_cons hk (by simp)
  | empty ht => exact startsStmt_cons ht (by simp)
  | nil => exact .inl rfl
  | cons _ _ ih => exact .inr (StartsStmt.append ih _)

theorem declFollows_cons {t : Spanned Token} {token : Token} (ht : t.value = token)
    (h : token ∉ [.keyword .int, .keyword .boolean]) (hname : ∀ name, token ≠ .identifier name) :
    declFollows (t :: ts) = false := by
  subst ht
  unfold declFollows
  split
  · next heq =>
    cases heq
    exact absurd List.mem_cons_self h
  · next heq =>
    cases heq
    exact absurd (List.mem_cons_of_mem _ List.mem_cons_self) h
  · next heq =>
    cases heq
    exact absurd rfl (hname _)
  · rfl

/-- A statement that is no declaration does not start like one. -/
theorem StmtTokens.noDecl {s : Stmt} (h : StmtTokens loose (.stmt s) ts n) (hs : s.isDeclaration = false)
    (rest : List (Spanned Token)) : declFollows (ts ++ rest) = false := by
  cases h with
  | block hl => exact declFollows_cons hl (by simp) (by simp)
  | expr h hr =>
    rw [List.append_assoc]
    exact h.startsNoDecl (by rw [hr]; exact ⟨by simp, by simp⟩)
  | localVar => cases hs
  | ifElse hk => exact declFollows_cons hk (by simp) (by simp)
  | ifElse_else hk => exact declFollows_cons hk (by simp) (by simp)
  | whileLoop hk => exact declFollows_cons hk (by simp) (by simp)
  | forLoop hk => exact declFollows_cons hk (by simp) (by simp)
  | ret hk => exact declFollows_cons hk (by simp) (by simp)
  | brk hk => exact declFollows_cons hk (by simp) (by simp)
  | cont hk => exact declFollows_cons hk (by simp) (by simp)
  | empty ht => exact declFollows_cons ht (by simp) (by simp)

/-- What reading does with the tokens of a part of a statement. -/
def StmtPart.Reads (ts : List (Spanned Token)) (n : Nat) : StmtPart → Prop
  | .stmt s => ReadsStatement ts n s
  | .stmts ss => ReadsStatements ts n ss

theorem StmtTokens.reads {part : StmtPart} (h : StmtTokens true part ts n) : part.Reads ts n := by
  induction h with
  | block hl _ hr ih => exact ReadsStatements.block ih hl hr
  | expr h hr => exact h.readsExpr.statement h.noDecl h.startsSimple hr
  | localVar h hr => exact h.reads.statement h.isDecl h.startsSimple hr
  | ifElse hk hl hcond hr h hdecl ih =>
    exact (ReadsStatement.nested ih (h.noDecl hdecl)).ifElse hcond.readsExpr hk hl hr
  | ifElse_else hk hl hcond hr h hdecl htakes hk' h' hdecl' ih ih' =>
    have hnested := ReadsStatement.nested ih (h.noDecl hdecl)
    exact hnested.ifElse_else hcond.readsExpr htakes (ReadsStatement.nested ih' (h'.noDecl hdecl')) hk hl hr hk'
  | whileLoop hk hl hcond hr h hdecl ih =>
    exact (ReadsStatement.nested ih (h.noDecl hdecl)).whileLoop hcond.readsExpr hk hl hr
  | forLoop hk hl hinit hm hcond hm' hupdate hr h hdecl ih =>
    have hnested := ReadsStatement.nested ih (h.noDecl hdecl)
    exact hnested.forLoop hinit.reads (hcond.reads (.inl rfl)) (hupdate.reads (.inr rfl)) hk hl hm hm' hr
  | ret hk h hr => exact (h.reads (.inl rfl)).ret hk hr
  | brk hk hr => exact readsStatement_jump hk hr (by simp)
  | cont hk hr => exact readsStatement_jump hk hr (by simp)
  | empty ht => exact readsStatement_empty ht
  | nil => exact readsStatements_nil
  | cons h hss ih ihss =>
    obtain ⟨t, us, rfl, hbrace, hend, -⟩ := h.starts
    refine ReadsStatement.cons ih ⟨t, us, rfl, hbrace, hend⟩ ihss fun u hu => ?_
    rcases hss.starts with rfl | ⟨v, vs, rfl, -, -, helse⟩
    · cases hu
    · cases hu
      exact helse

/-! ## Classes -/

theorem ModifierTokens.reads {ms : List Modifier} (h : ModifierTokens ms ts) : ReadsModifiers ts ms := by
  exact readsModifiers h.tokens h.nodup

theorem ParamTokens.reads {ps : List Param} (h : ParamTokens true ps ts) : ReadsParams ts ps := by
  induction h with
  | nil => exact readsParams_nil
  | last hty ht => exact hty.reads.param hty.starts ht
  | more hty ht hc _ _ ih => exact hty.reads.params hty.starts ht hc ih

theorem InitTokens.ne_lparen {init : Option Expr} (h : InitTokens loose init ts n) :
    ∀ t ∈ ts.head?, t.value ≠ .lparen := by
  cases h with
  | none => simp
  | some ht h =>
    rintro _ ⟨⟩
    simp [ht]

theorem MemberTokens.reads {m : Member} (h : MemberTokens true m ts n) : ReadsMember ts n m := by
  cases h with
  | field hms hty hvoid ht hinit hr =>
    exact hms.reads.field hty.reads hty.starts hvoid ht hinit.reads hr hinit.ne_lparen
  | method hms hty ht hlp hps hrp hl hss hr =>
    exact hms.reads.method hty.reads hty.starts ht hlp hps.reads hrp hl hss.reads hr

/-- Modifiers, and something that starts with another word or name. -/
theorem ModifierTokens.starts {ms : List Modifier} (h : ModifierTokens ms ts) {t : Spanned Token}
    (ht : t.value ≠ .rbrace ∧ t.value ≠ .endOfFile) :
    ∃ u vs, ts ++ t :: us = u :: vs ∧ u.value ≠ .rbrace ∧ u.value ≠ .endOfFile := by
  cases ts with
  | nil => exact ⟨t, us, rfl, ht⟩
  | cons u vs =>
    refine ⟨u, _, rfl, ?_⟩
    have htokens := h.tokens
    cases ms with
    | nil => cases htokens
    | cons m ms =>
      have hu : u.value = .keyword m.keyword := (List.cons.inj htokens).1
      simp [hu]

theorem MemberTokens.starts {m : Member} (h : MemberTokens loose m ts n) :
    ∃ u vs, ts = u :: vs ∧ u.value ≠ .rbrace ∧ u.value ≠ .endOfFile := by
  have htype : ∀ {ty : Spanned Ty} {us : List (Spanned Token)}, TyTokens ty us → ∀ (vs : List (Spanned Token)),
      ∃ t more, us ++ vs = t :: more ∧ t.value ≠ .rbrace ∧ t.value ≠ .endOfFile := by
    intro ty us hty vs
    obtain ⟨t, more, rfl, ht⟩ := hty.starts
    simp only [List.mem_cons, List.not_mem_nil, or_false] at ht
    refine ⟨t, _, rfl, ?_⟩
    rcases ht with (ht | ht | ht) | ⟨name, ht⟩ <;> simp [ht]
  cases h with
  | field hms hty =>
    obtain ⟨t, more, hcons, ht⟩ := htype hty _
    rw [hcons]
    exact hms.starts ht
  | method hms hty =>
    obtain ⟨t, more, hcons, ht⟩ := htype hty _
    rw [hcons]
    exact hms.starts ht

theorem reads_members {ms : List Member} (h : Sequence (MemberTokens true) ms ts n) : ReadsMembers ts n ms := by
  induction h with
  | nil => exact readsMembers_nil
  | cons h _ ih => exact h.reads.cons h.starts ih

theorem ClassTokens.reads {c : ClassDecl} (h : ClassTokens true c ts n) : ReadsClass ts n c := by
  cases h with
  | mk hms hk ht hl hmembers hr => exact hms.reads.classDecl hk ht hl (reads_members hmembers) hr

theorem ClassTokens.starts {c : ClassDecl} (h : ClassTokens loose c ts n) :
    ∃ u vs, ts = u :: vs ∧ u.value ≠ .endOfFile := by
  cases h with
  | @mk _ _ _ _ _ k _ _ _ _ hms hk =>
    have hword : k.value ≠ .rbrace ∧ k.value ≠ .endOfFile := by simp [hk]
    obtain ⟨u, vs, hcons, -, hend⟩ := hms.starts hword
    exact ⟨u, vs, hcons, hend⟩

theorem reads_classes {cs : List ClassDecl} (h : Sequence (ClassTokens true) cs ts n) : ReadsClasses ts n cs := by
  induction h with
  | nil => exact readsClasses_nil
  | cons h _ ih => exact h.reads.cons h.starts ih

end Grammar

/-- What the grammar derives is read, if it does not nest too deep. -/
theorem CompilationUnit.Derives.ofTokens? {unit : CompilationUnit} {ts : List (Spanned Token)} {need : Nat}
    (h : unit.Derives true ts need) (hneed : need ≤ Problem.nestingLimit) {u : Spanned Token}
    (hu : u.value = .endOfFile) (rest : List (Spanned Token)) :
    CompilationUnit.ofTokens? (ts ++ u :: rest) = .ok unit := by
  exact (ofTokens?_of_readsClasses (Grammar.reads_classes h) hu rest).1 hneed

end JavaFold
