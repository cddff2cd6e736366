import JavaFold.Proofs.Program.Grammar.Expr

/-!
# How statements are read

As for expressions: a statement for each function that reads statements, and a rule for each form of a
statement. An `else` after a statement must not belong to an `if` in it, and a statement that starts like a
declaration is one.
-/

namespace JavaFold

namespace Parser

variable {ts us cs : List (Spanned Token)} {need more : Nat} {e : Expr} {t k l r : Spanned Token}

/-! ## Functions that move on -/

namespace Moves

instance ty : Moves Parser.ty := of_ensures fun _ hc => ensures_ty hc

instance expression : Moves Parser.expression := of_ensures fun _ hc => ensures_expression hc

instance initializer : Moves Parser.initializer := of_ensures fun _ hc => ensures_initializer hc

instance localVar : Moves Parser.localVar := of_ensures fun _ hc => ensures_localVar hc

instance expressionUnless (token : Token) : Moves (Parser.expressionUnless token) :=
  of_ensures fun _ hc => ensures_expressionUnless hc

instance condition : Moves Parser.condition := of_ensures fun _ hc => ensures_condition hc

instance forInit : Moves Parser.forInit := of_ensures fun _ hc => ensures_forInit hc

instance stmt (n : Nat) : Moves (Parser.stmt n) := of_ensures (readsStmts n).stmt

instance elseClause (n : Nat) : Moves (Parser.elseClause n) := of_ensures (readsStmts n).elseClause

instance nested (n : Nat) : Moves (Parser.nested n) := of_ensures (readsStmts n).nested

instance stmts (n : Nat) : Moves (Parser.stmts n) := of_ensures (readsStmts n).stmts

instance blockBody (n : Nat) : Moves (Parser.blockBody n) := of_ensures (readsStmts n).blockBody

end Moves

/-! ## Spans of some tokens -/

/-- The span of the last one of some tokens. -/
def lastSpan (s : Span) (ts : List (Spanned Token)) : Span := ts.foldl (fun _ t => t.span) s

/-- The span of some tokens. -/
def spanAll : List (Spanned Token) → Span
  | [] => .dummy
  | t :: ts => t.span.merge (lastSpan t.span ts)

@[simp] theorem lastSpan_cons (s : Span) (t : Spanned Token) (ts : List (Spanned Token)) :
    lastSpan s (t :: ts) = lastSpan t.span ts := rfl

@[simp] theorem lastSpan_nil (s : Span) : lastSpan s [] = s := rfl

@[simp] theorem lastSpan_append (s : Span) (ts us : List (Spanned Token)) :
    lastSpan s (ts ++ us) = lastSpan (lastSpan s ts) us := List.foldl_append

@[simp] theorem passedBy_nil (passed : Option Span) : passedBy passed [] = passed := rfl

@[simp] theorem passedBy_some (s : Span) (ts : List (Spanned Token)) :
    passedBy (some s) ts = some (lastSpan s ts) := by
  induction ts generalizing s with
  | nil => rfl
  | cons t ts ih => exact ih t.span

/-! ## What tokens are read as -/

def ReadsTy (ts : List (Spanned Token)) (ty : Spanned Ty) : Prop :=
  ∀ ⦃passed : Option Span⦄ ⦃u : Spanned Token⦄ ⦃rest : List (Spanned Token)⦄, u.value ≠ .dot →
    Leads Parser.ty passed ts (u :: rest) 0 (pure ty)

/-- The tokens are read as the value of a variable, which may be missing. -/
def ReadsInit (ts : List (Spanned Token)) (need : Nat) (init : Option Expr) : Prop :=
  ∀ ⦃passed : Option Span⦄ ⦃u : Spanned Token⦄ ⦃rest : List (Spanned Token)⦄, u.value = .semicolon →
    Leads initializer passed ts (u :: rest) need (pure init)

def ReadsLocalVar (ts : List (Spanned Token)) (need : Nat) (s : Stmt) : Prop :=
  ∀ ⦃passed : Option Span⦄ ⦃u : Spanned Token⦄ ⦃rest : List (Spanned Token)⦄, u.value = .semicolon →
    Leads localVar passed ts (u :: rest) need (pure s)

/-- The tokens are read as an expression that may be missing, in front of the token `stop`. -/
def ReadsOptional (stop : Token) (ts : List (Spanned Token)) (need : Nat) (e : Option Expr) : Prop :=
  ∀ ⦃passed : Option Span⦄ ⦃u : Spanned Token⦄ ⦃rest : List (Spanned Token)⦄, u.value = stop →
    Leads (expressionUnless stop) passed ts (u :: rest) need (pure e)

def ReadsForInit (ts : List (Spanned Token)) (need : Nat) (init : Option Stmt) : Prop :=
  ∀ ⦃passed : Option Span⦄ ⦃u : Spanned Token⦄ ⦃rest : List (Spanned Token)⦄, u.value = .semicolon →
    Leads forInit passed ts (u :: rest) need (pure init)

/-- An `else` does not belong to an `if` in the statement. -/
def ElseAfter (s : Stmt) (t : Spanned Token) : Prop :=
  s.takesElse = true → t.value ≠ .keyword .«else»

def ReadsStatement (ts : List (Spanned Token)) (need : Nat) (s : Stmt) : Prop :=
  ∀ ⦃n : Nat⦄ ⦃passed : Option Span⦄ ⦃u : Spanned Token⦄ ⦃rest : List (Spanned Token)⦄,
    4 * ts.length + 1 ≤ n → ElseAfter s u → Leads (stmt n) passed ts (u :: rest) need (pure s)

def ReadsNested (ts : List (Spanned Token)) (need : Nat) (s : Stmt) : Prop :=
  ∀ ⦃n : Nat⦄ ⦃passed : Option Span⦄ ⦃u : Spanned Token⦄ ⦃rest : List (Spanned Token)⦄,
    4 * ts.length + 2 ≤ n → ElseAfter s u → Leads (nested n) passed ts (u :: rest) need (pure s)

def ReadsStatements (ts : List (Spanned Token)) (need : Nat) (ss : List Stmt) : Prop :=
  ∀ ⦃n : Nat⦄ ⦃passed : Option Span⦄ ⦃u : Spanned Token⦄ ⦃rest : List (Spanned Token)⦄,
    4 * ts.length + 2 ≤ n → u.value = .rbrace → Leads (stmts n) passed ts (u :: rest) need (pure ss)

/-- Whatever comes after an expression, the tokens do not start with a type and a name. -/
def NoDecl (ts : List (Spanned Token)) : Prop :=
  ∀ ⦃u : Spanned Token⦄ ⦃rest : List (Spanned Token)⦄, u.value.closesExpr = true →
    declFollows (ts ++ u :: rest) = false

/-! ## Expressions in statements -/

theorem ReadsExpr.expression (h : ReadsExpr ts need e) {passed : Option Span} {u : Spanned Token}
    {rest : List (Spanned Token)} (hu : u.value.closesExpr = true) :
    Leads expression passed ts (u :: rest) need (pure e) := by
  refine .get (g := expr (exprDepth (ts ++ u :: rest).length)) (fun _ _ => rfl) (h ?_ hu)
  rw [exprDepth, List.length_append]
  omega

theorem ReadsExpr.condition (h : ReadsExpr ts need e) (hl : l.value = .lparen) (hr : r.value = .rparen)
    {passed : Option Span} {rest : List (Spanned Token)} (hrest : rest ≠ []) :
    Leads condition passed (l :: (ts ++ [r])) rest need (pure e) := by
  obtain ⟨u, rest, rfl⟩ := List.exists_cons_of_ne_nil hrest
  rw [Parser.condition, ← Nat.max_zero need]
  exact .expect hl (.seq (h.expression (by rw [hr]; rfl)) (.expect hr (.done _ _ _)))

theorem readsOptional_none (stop : Token) : ReadsOptional stop [] 0 none := by
  intro passed u rest hu
  refine .peek rfl ?_
  rw [if_pos hu]
  exact .done _ _ _

theorem ReadsExpr.optional {stop : Token} (h : ReadsExpr ts need e) (hstop : stop.closesExpr = true)
    (hts : ∃ t us, ts = t :: us ∧ t.value ≠ stop) : ReadsOptional stop ts need (some e) := by
  intro passed u rest hu
  obtain ⟨t, us, rfl, ht⟩ := hts
  refine .peek rfl ?_
  rw [if_neg ht]
  exact .last (h.expression (by rw [hu]; exact hstop)) (.done _ _ _)

/-! ## Declarations -/

theorem readsTy_keyword {word : Keyword} {ty : Ty} (ht : t.value = .keyword word)
    (h : (word, ty) ∈ [(.int, .int), (.boolean, .boolean), (.void, .void)]) : ReadsTy [t] ⟨ty, t.span⟩ := by
  intro passed u rest _
  obtain ⟨token, span⟩ := t
  cases ht
  refine .here rfl (.peek rfl ?_)
  simp only [List.mem_cons, Prod.mk.injEq, List.not_mem_nil, or_false] at h
  rcases h with ⟨rfl, rfl⟩ | ⟨rfl, rfl⟩ | ⟨rfl, rfl⟩ <;> exact .advance (.done _ _ _)

theorem ReadsPath.ty {path : Spanned String} (h : ReadsPath ts path) {name : String} (hts : ts = t :: us)
    (ht : t.value = .identifier name) : ReadsTy ts ⟨.named path.value, path.span⟩ := by
  intro passed u rest hu
  subst hts
  obtain ⟨token, span⟩ := t
  cases ht
  refine .here rfl (.peek rfl ?_)
  exact .last (h hu) (.done _ _ _)

theorem readsInit_none : ReadsInit [] 0 none := by
  intro passed u rest hu
  exact .miss rfl (by rw [hu]; nofun) (.done _ _ _)

theorem ReadsExpr.init (h : ReadsExpr ts need e) (ht : t.value = .assign) :
    ReadsInit (t :: ts) need (some e) := by
  intro passed u rest hu
  exact .eat ht (.last (h.expression (by rw [hu]; rfl)) (.done _ _ _))

theorem ReadsTy.localVar {ty : Spanned Ty} {name : String} {init : Option Expr} (h : ReadsTy ts ty)
    (hts : ts ≠ []) (hvoid : ty.value ≠ .void) (ht : t.value = .identifier name) (hinit : ReadsInit us need init) :
    ReadsLocalVar (ts ++ t :: us) need (.localVar (spanAll (ts ++ t :: us)) ty ⟨name, t.span⟩ init) := by
  intro passed u rest hu
  obtain ⟨first, tail, rfl⟩ := List.exists_cons_of_ne_nil hts
  refine .here rfl (.next (h (by rw [ht]; nofun)) ?_)
  rw [if_neg hvoid]
  refine .identifier ht (.last (hinit hu) ?_)
  exact .behind (s := lastSpan t.span us) (passedBy_some _ _) (by
    have hspan : spanAll (first :: tail ++ t :: us) = first.span.merge (lastSpan t.span us) := by
      simp [spanAll]
    rw [hspan]
    exact .done _ _ _)

section

variable {α : Type} {x y z : Parser α} {passed : Option Span} {rest : List (Spanned Token)}

theorem Leads.isDecl (hdecl : declFollows (ts ++ rest) = true) (h : Leads x passed ts rest need z) :
    Leads (do if declFollows (← MonadState.get).ahead then x else y) passed ts rest need z :=
  .get (g := x) (fun _ _ => if_pos hdecl) h

theorem Leads.noDecl (hdecl : declFollows (ts ++ rest) = false) (h : Leads y passed ts rest need z) :
    Leads (do if declFollows (← MonadState.get).ahead then x else y) passed ts rest need z :=
  .get (g := y) (fun _ _ => if_neg (Bool.eq_false_iff.mp hdecl)) h

end

/-- Whatever comes after them, the tokens start with a type and a name. -/
def IsDecl (ts : List (Spanned Token)) : Prop :=
  ∀ rest : List (Spanned Token), declFollows (ts ++ rest) = true

theorem readsForInit_none : ReadsForInit [] 0 none := by
  intro passed u rest hu
  refine .peek rfl ?_
  rw [if_pos hu]
  exact .done _ _ _

theorem ReadsLocalVar.forInit {s : Stmt} (h : ReadsLocalVar ts need s) (hdecl : IsDecl ts)
    (hts : ∃ t us, ts = t :: us ∧ t.value ≠ .semicolon) : ReadsForInit ts need (some s) := by
  intro passed u rest hu
  obtain ⟨t, us, rfl, ht⟩ := hts
  refine .peek rfl ?_
  rw [if_neg ht]
  exact .isDecl (hdecl _) (.last (h hu) (.done _ _ _))

theorem ReadsExpr.forInit (h : ReadsExpr ts need e) (hdecl : NoDecl ts)
    (hts : ∃ t us, ts = t :: us ∧ t.value ≠ .semicolon) : ReadsForInit ts need (some (.expr e.span e)) := by
  intro passed u rest hu
  obtain ⟨t, us, rfl, ht⟩ := hts
  have hclose : u.value.closesExpr = true := by rw [hu]; rfl
  refine .peek rfl ?_
  rw [if_neg ht]
  exact .noDecl (hdecl hclose) (.last (h.expression hclose) (.done _ _ _))

/-! ## Statements -/

/-- The token starts no statement other than a declaration or an expression. -/
def Token.startsSimple : Token → Bool
  | .lbrace | .keyword .«if» | .keyword .«while» | .keyword .«for» | .keyword .«return»
  | .keyword .«break» | .keyword .«continue» | .semicolon => false
  | _ => true

/-- The tokens start as a declaration or an expression does. -/
def StartsSimple (ts : List (Spanned Token)) : Prop := ∃ t us, ts = t :: us ∧ Token.startsSimple t.value = true

/-- What is read where a declaration or an expression starts. -/
theorem leads_simple {n : Nat} {passed : Option Span} {rest : List (Spanned Token)} {s : Stmt}
    (hts : ts = t :: us) (ht : Token.startsSimple t.value = true) (h : Leads (do
      if declFollows (← get).ahead then
        let decl ← localVar
        expect .semicolon
        return withSpan (t.span.merge (← behind)) decl
      else
        let value ← expression
        expect .semicolon
        return .expr (t.span.merge (← behind)) value : Parser Stmt) passed ts rest need (pure s)) :
    Leads (stmt (n + 1)) passed ts rest need (pure s) := by
  subst hts
  rw [stmt]
  refine .here rfl (.peek rfl ?_)
  split
  all_goals first
    | next heq =>
      rw [heq] at ht
      cases ht
    | exact h

theorem ReadsLocalVar.statement {s : Stmt} (h : ReadsLocalVar ts need s) (hdecl : IsDecl ts)
    (hts : StartsSimple ts) (hr : r.value = .semicolon) :
    ReadsStatement (ts ++ [r]) need (withSpan (spanAll (ts ++ [r])) s) := by
  intro n passed u rest hn _
  obtain ⟨t, us, rfl, ht⟩ := hts
  cases n with
  | zero => exact absurd hn (by simp)
  | succ n =>
    refine leads_simple rfl ht (.isDecl (by rw [List.append_assoc]; exact hdecl _) ?_)
    rw [← Nat.max_zero need]
    refine .seq (h hr) (.expect hr (.behind rfl ?_))
    have hspan : spanAll (t :: us ++ [r]) = t.span.merge r.span := by simp [spanAll]
    rw [hspan]
    exact .done _ _ _

theorem ReadsExpr.statement (h : ReadsExpr ts need e) (hdecl : NoDecl ts) (hts : StartsSimple ts)
    (hr : r.value = .semicolon) : ReadsStatement (ts ++ [r]) need (.expr (spanAll (ts ++ [r])) e) := by
  intro n passed u rest hn _
  obtain ⟨t, us, rfl, ht⟩ := hts
  have hclose : r.value.closesExpr = true := by rw [hr]; rfl
  cases n with
  | zero => exact absurd hn (by simp)
  | succ n =>
    refine leads_simple rfl ht (.noDecl (by rw [List.append_assoc]; exact hdecl hclose) ?_)
    rw [← Nat.max_zero need]
    refine .seq (h.expression hclose) (.expect hr (.behind rfl ?_))
    have hspan : spanAll (t :: us ++ [r]) = t.span.merge r.span := by simp [spanAll]
    rw [hspan]
    exact .done _ _ _

theorem readsStatement_empty (ht : t.value = .semicolon) : ReadsStatement [t] 0 (.empty t.span) := by
  intro n passed u rest hn _
  cases n with
  | zero => exact absurd hn (by simp)
  | succ n =>
    rw [stmt]
    refine .here rfl (.peek rfl ?_)
    rw [ht]
    exact .advance (.done _ _ _)

/-- A statement of one word. -/
theorem readsStatement_jump {word : Keyword} {s : Stmt} (hk : k.value = .keyword word) (hr : r.value = .semicolon)
    (h : (word, s) ∈ [(.«break», .brk (spanAll [k, r])), (.«continue», .cont (spanAll [k, r]))]) :
    ReadsStatement [k, r] 0 s := by
  intro n passed u rest hn _
  simp only [List.mem_cons, Prod.mk.injEq, List.not_mem_nil, or_false] at h
  cases n with
  | zero => exact absurd hn (by simp)
  | succ n =>
    rw [stmt]
    refine .here rfl (.peek rfl ?_)
    rw [hk]
    rcases h with ⟨rfl, rfl⟩ | ⟨rfl, rfl⟩ <;>
      exact .advance (.expect hr (.behind rfl (.done _ _ _)))

theorem ReadsOptional.ret {value : Option Expr} (h : ReadsOptional .semicolon ts need value)
    (hk : k.value = .keyword .«return») (hr : r.value = .semicolon) :
    ReadsStatement (k :: (ts ++ [r])) need (.ret (spanAll (k :: (ts ++ [r]))) value) := by
  intro n passed u rest hn _
  cases n with
  | zero => exact absurd hn (by simp)
  | succ n =>
    rw [stmt]
    refine .here rfl (.peek rfl ?_)
    rw [hk, ← Nat.max_zero need]
    have hspan : spanAll (k :: (ts ++ [r])) = k.span.merge r.span := by simp [spanAll]
    rw [hspan]
    exact .advance (.seq (h hr) (.expect hr (.behind rfl (.done _ _ _))))

/-! ## Bodies -/

theorem ReadsStatement.nested {s : Stmt} (h : ReadsStatement ts need s)
    (hdecl : ∀ rest : List (Spanned Token), declFollows (ts ++ rest) = false) :
    ReadsNested ts (need + 1) s := by
  intro n passed u rest hn hu
  cases n with
  | zero => exact absurd hn (by simp)
  | succ n =>
    rw [Parser.nested]
    refine .noDecl (hdecl _) ?_
    rw [← Nat.max_zero (need + 1), ← List.append_nil ts]
    exact .nested (h (by omega) hu) (.done _ _ _)

theorem readsElse_none {n : Nat} {passed : Option Span} {u : Spanned Token} {rest : List (Spanned Token)}
    (hn : 0 < n) (hu : u.value ≠ .keyword .«else») :
    Leads (elseClause n) passed [] (u :: rest) 0 (pure none) := by
  cases n with
  | zero => cases hn
  | succ n =>
    rw [elseClause]
    exact .miss rfl hu (.done _ _ _)

theorem ReadsNested.elseClause {s : Stmt} (h : ReadsNested ts need s) (hk : k.value = .keyword .«else»)
    {n : Nat} {passed : Option Span} {u : Spanned Token} {rest : List (Spanned Token)}
    (hn : 4 * ts.length + 3 ≤ n) (hu : ElseAfter s u) :
    Leads (elseClause n) passed (k :: ts) (u :: rest) need (pure (some s)) := by
  cases n with
  | zero => cases hn
  | succ n =>
    rw [Parser.elseClause]
    exact .eat hk (.last (h (by omega) hu) (.done _ _ _))

/-! ## Statements with bodies -/

/-- The tokens of a condition, and what comes after them. -/
theorem condition_tokens (k l r : Spanned Token) (cs ts : List (Spanned Token)) :
    k :: l :: (cs ++ r :: ts) = k :: (l :: (cs ++ [r]) ++ ts) := by
  simp

theorem ReadsNested.ifElse {s : Stmt} (hcond : ReadsExpr cs need e) (h : ReadsNested ts more s)
    (hk : k.value = .keyword .«if») (hl : l.value = .lparen) (hr : r.value = .rparen) :
    ReadsStatement (k :: l :: (cs ++ r :: ts)) (max need more)
      (.ifElse (spanAll (k :: l :: (cs ++ r :: ts))) e s none) := by
  rw [condition_tokens]
  intro n passed u rest hn hu
  cases n with
  | zero => exact absurd hn (by simp)
  | succ n =>
    simp only [List.length_cons, List.length_append, List.length_nil] at hn
    rw [stmt]
    refine .here rfl (.peek rfl ?_)
    rw [hk]
    refine .advance (.seq (hcond.condition hl hr (by simp)) (.last (h (by omega) fun _ => hu rfl) ?_))
    refine .last (readsElse_none (by omega) (hu rfl)) ?_
    exact .behind (s := lastSpan k.span (l :: (cs ++ [r]) ++ ts)) (by simp) (.done _ _ _)

/-- An `else` belongs to the nearest `if`. -/
theorem ReadsNested.ifElse_else {s s' : Stmt} {m : Nat} (hcond : ReadsExpr cs need e) (h : ReadsNested ts more s)
    (htakes : s.takesElse = false) (h' : ReadsNested us m s') {k' : Spanned Token}
    (hk : k.value = .keyword .«if») (hl : l.value = .lparen) (hr : r.value = .rparen)
    (hk' : k'.value = .keyword .«else») :
    ReadsStatement (k :: l :: (cs ++ r :: (ts ++ k' :: us))) (max need (max more m))
      (.ifElse (spanAll (k :: l :: (cs ++ r :: (ts ++ k' :: us)))) e s (some s')) := by
  rw [condition_tokens]
  intro n passed u rest hn hu
  cases n with
  | zero => exact absurd hn (by simp)
  | succ n =>
    simp only [List.length_cons, List.length_append, List.length_nil] at hn
    rw [stmt]
    refine .here rfl (.peek rfl ?_)
    rw [hk]
    refine .advance (.seq (hcond.condition hl hr (by simp)) (.seq (h (by omega) fun ht => ?_) ?_))
    · rw [htakes] at ht
      cases ht
    · refine .last (h'.elseClause hk' (by omega) hu) ?_
      exact .behind (s := lastSpan k.span (l :: (cs ++ [r]) ++ (ts ++ k' :: us))) (by simp) (.done _ _ _)

theorem ReadsNested.whileLoop {s : Stmt} (hcond : ReadsExpr cs need e) (h : ReadsNested ts more s)
    (hk : k.value = .keyword .«while») (hl : l.value = .lparen) (hr : r.value = .rparen) :
    ReadsStatement (k :: l :: (cs ++ r :: ts)) (max need more)
      (.whileLoop (spanAll (k :: l :: (cs ++ r :: ts))) e s) := by
  rw [condition_tokens]
  intro n passed u rest hn hu
  cases n with
  | zero => exact absurd hn (by simp)
  | succ n =>
    simp only [List.length_cons, List.length_append, List.length_nil] at hn
    rw [stmt]
    refine .here rfl (.peek rfl ?_)
    rw [hk]
    refine .advance (.seq (hcond.condition hl hr (by simp)) (.last (h (by omega) hu) ?_))
    exact .behind (s := lastSpan k.span (l :: (cs ++ [r]) ++ ts)) (by simp) (.done _ _ _)

/-- The header of a `for` has three parts, each of which may be missing. -/
theorem ReadsNested.forLoop {s : Stmt} {init : Option Stmt} {cond update : Option Expr}
    {is vs : List (Spanned Token)} {a b c : Nat} (hinit : ReadsForInit is a init)
    (hcond : ReadsOptional .semicolon cs b cond) (hupdate : ReadsOptional .rparen vs c update)
    (h : ReadsNested ts more s) {m m' : Spanned Token} (hk : k.value = .keyword .«for») (hl : l.value = .lparen)
    (hm : m.value = .semicolon) (hm' : m'.value = .semicolon) (hr : r.value = .rparen) :
    ReadsStatement (k :: l :: (is ++ m :: (cs ++ m' :: (vs ++ r :: ts)))) (max a (max b (max c more)))
      (.forLoop (spanAll (k :: l :: (is ++ m :: (cs ++ m' :: (vs ++ r :: ts))))) init cond update s) := by
  intro n passed u rest hn hu
  cases n with
  | zero => exact absurd hn (by simp)
  | succ n =>
    simp only [List.length_cons, List.length_append] at hn
    rw [stmt]
    refine .here rfl (.peek rfl ?_)
    rw [hk]
    refine .advance (.expect hl (.seq (hinit hm) (.expect hm (.seq (hcond hm') (.expect hm' ?_)))))
    refine .seq (hupdate hr) (.expect hr (.last (h (by omega) hu) ?_))
    exact .behind (s := lastSpan k.span (l :: (is ++ m :: (cs ++ m' :: (vs ++ r :: ts))))) (by simp)
      (.done _ _ _)

/-! ## Blocks -/

theorem readsStatements_nil : ReadsStatements [] 0 [] := by
  intro n passed u rest hn hu
  cases n with
  | zero => exact absurd hn (by simp)
  | succ n =>
    rw [stmts]
    refine .peek rfl ?_
    rw [hu]
    exact .done _ _ _

theorem ReadsStatement.cons {s : Stmt} {ss : List Stmt} (h : ReadsStatement ts need s)
    (hts : ∃ t us, ts = t :: us ∧ t.value ≠ .rbrace ∧ t.value ≠ .endOfFile) (hss : ReadsStatements us more ss)
    (helse : ∀ u ∈ us.head?, u.value ≠ .keyword .«else») :
    ReadsStatements (ts ++ us) (max need more) (s :: ss) := by
  intro n passed u rest hn hu
  obtain ⟨t, tail, rfl, hbrace, hend⟩ := hts
  simp only [List.length_cons, List.length_append] at hn
  -- what comes after the statement is a further one or the closing brace
  have hnext : ∃ v vs, us ++ u :: rest = v :: vs ∧ v.value ≠ .keyword .«else» := by
    cases us with
    | nil => exact ⟨u, rest, rfl, by rw [hu]; nofun⟩
    | cons v vs => exact ⟨v, vs ++ u :: rest, rfl, helse v rfl⟩
  obtain ⟨v, vs, hvs, hv⟩ := hnext
  cases n with
  | zero => exact absurd hn (by omega)
  | succ n =>
    rw [stmts]
    refine .peek rfl ?_
    split
    · next heq => exact absurd heq hbrace
    · next heq => exact absurd heq hend
    · refine .get (g := do
        let s ← stmt n
        if (← MonadState.get).left = ((t :: tail ++ us) ++ u :: rest).length then
          advance
          return s :: (← stmts n)
        else return s :: (← stmts n)) (fun _ _ => rfl) ?_
      refine .seq (hvs ▸ h (by simp; omega) fun _ => hv) ?_
      refine .get (g := do return s :: (← stmts n)) (fun _ _ => if_neg ?_) (.last (hss (by omega) hu) (.done _ _ _))
      change (us ++ u :: rest).length ≠ (t :: tail ++ us ++ u :: rest).length
      simp only [List.length_cons, List.length_append]
      omega

/-- The statements of a block and its closing brace. -/
theorem ReadsStatements.blockBody {ss : List Stmt} (h : ReadsStatements ts need ss) (hr : r.value = .rbrace)
    {n : Nat} {passed : Option Span} {rest : List (Spanned Token)} (hn : 4 * ts.length + 3 ≤ n) :
    Leads (blockBody n) passed (ts ++ [r]) rest (need + 1) (pure ss) := by
  cases n with
  | zero => cases hn
  | succ n =>
    rw [Parser.blockBody, ← Nat.max_zero (need + 1)]
    exact .nested (h (by omega) hr) (.expect hr (.done _ _ _))

theorem ReadsStatements.block {ss : List Stmt} (h : ReadsStatements ts need ss) (hl : l.value = .lbrace)
    (hr : r.value = .rbrace) :
    ReadsStatement (l :: (ts ++ [r])) (need + 1) (.block (spanAll (l :: (ts ++ [r]))) ss) := by
  intro n passed u rest hn _
  cases n with
  | zero => exact absurd hn (by simp)
  | succ n =>
    simp only [List.length_cons, List.length_append] at hn
    rw [stmt]
    refine .here rfl (.peek rfl ?_)
    rw [hl]
    refine .advance (.last (h.blockBody hr (by omega)) ?_)
    exact .behind (s := lastSpan l.span (ts ++ [r])) (by simp) (.done _ _ _)

/-- The body of a method. -/
theorem ReadsStatements.method {ss : List Stmt} (h : ReadsStatements ts need ss) (hl : l.value = .lbrace)
    (hr : r.value = .rbrace) {passed : Option Span} {rest : List (Spanned Token)} :
    Leads Parser.block passed (l :: (ts ++ [r])) rest (need + 1) (pure ⟨spanAll (l :: (ts ++ [r])), ss⟩) := by
  refine .here rfl (.expect hl ?_)
  refine .get (g := do
    let ss ← Parser.blockBody (stmtDepth ((ts ++ [r]) ++ rest).length)
    return ⟨l.span.merge (← Parser.behind), ss⟩) (fun _ _ => rfl) (.last (h.blockBody hr ?_) ?_)
  · simp only [stmtDepth, List.length_append]
    omega
  · exact .behind (s := lastSpan l.span (ts ++ [r])) (by simp) (.done _ _ _)

end Parser

end JavaFold
