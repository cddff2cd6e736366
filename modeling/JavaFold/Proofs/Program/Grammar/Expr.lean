import JavaFold.Proofs.Program.Parsed
import JavaFold.Proofs.Token.Leads

/-!
# How expressions are read

What tokens have to be for the functions that read expressions to give an expression without a problem.
There is a statement for each of these functions, with the least bound on its recursion that is large enough,
and what may come after the tokens; and a rule for each form of an expression. `need` is by how many levels
the tokens nest.
-/

namespace JavaFold

/-- The token goes on with a name. -/
def Token.extendsName : Token → Bool
  | dot | lparen => true
  | _ => false

/-- The token goes on with an operand. -/
def Token.extendsOperand : Token → Bool
  | dot | lparen | step _ => true
  | _ => false

/-- The token comes after an expression. -/
def Token.closesExpr : Token → Bool
  | rparen | comma | semicolon => true
  | _ => false

theorem Token.extendsName_of_operand {t : Token} (h : t.extendsOperand = false) : t.extendsName = false := by
  cases t <;> first | rfl | exact h

namespace Parser

variable {ts us : List (Spanned Token)} {need more : Nat} {e : Expr}

/-! ## Functions that move on -/

namespace Moves

instance missingExpr : Moves Parser.missingExpr := of_ensures fun c _ => ensures_missingExpr c

instance dottedName : Moves Parser.dottedName := of_ensures fun _ hc => ensures_dottedName hc

instance postSteps (limit : Nat) (operand : Expr) : Moves (Parser.postSteps limit operand) :=
  of_ensures fun _ _ => ensures_postSteps

instance expr (n : Nat) : Moves (Parser.expr n) := of_ensures (readsExprs n).expr

instance assignment (n : Nat) : Moves (Parser.assignment n) := of_ensures (readsExprs n).assignment

instance binary (n least : Nat) : Moves (Parser.binary n least) := of_ensures ((readsExprs n).binary least)

instance binaryTail (n least : Nat) (lhs : Expr) : Moves (Parser.binaryTail n least lhs) :=
  of_ensures ((readsExprs n).binaryTail least lhs)

instance unary (n : Nat) : Moves (Parser.unary n) := of_ensures (readsExprs n).unary

instance primary (n : Nat) : Moves (Parser.primary n) := of_ensures (readsExprs n).primary

instance arguments (n : Nat) : Moves (Parser.arguments n) := of_ensures (readsExprs n).arguments

end Moves

/-! ## What tokens are read as -/

/-- The tokens are read as a name that may have several parts. -/
def ReadsPath (ts : List (Spanned Token)) (path : Spanned String) : Prop :=
  ∀ ⦃passed : Option Span⦄ ⦃u : Spanned Token⦄ ⦃rest : List (Spanned Token)⦄, u.value ≠ .dot →
    Leads dottedName passed ts (u :: rest) 0 (pure path)

def ReadsPrimary (ts : List (Spanned Token)) (need : Nat) (e : Expr) : Prop :=
  ∀ ⦃n : Nat⦄ ⦃passed : Option Span⦄ ⦃u : Spanned Token⦄ ⦃rest : List (Spanned Token)⦄,
    8 * ts.length + 2 ≤ n → u.value.extendsName = false → Leads (primary n) passed ts (u :: rest) need (pure e)

def ReadsUnary (ts : List (Spanned Token)) (need : Nat) (e : Expr) : Prop :=
  ∀ ⦃n : Nat⦄ ⦃passed : Option Span⦄ ⦃u : Spanned Token⦄ ⦃rest : List (Spanned Token)⦄,
    8 * ts.length + 3 ≤ n → u.value.extendsOperand = false → Leads (unary n) passed ts (u :: rest) need (pure e)

/-- The tokens are read as an expression whose operators bind at least as tightly as `p`, and reading goes on
with the operators after them. -/
def ReadsBinary (p : Nat) (ts : List (Spanned Token)) (need : Nat) (e : Expr) : Prop :=
  ∀ ⦃least n : Nat⦄ ⦃passed : Option Span⦄ ⦃u : Spanned Token⦄ ⦃rest : List (Spanned Token)⦄, least ≤ p →
    8 * ts.length + 4 ≤ n → u.value.extendsOperand = false →
    (∀ op, u.value = .operator op → op.precedence ≤ p) →
    ∃ n', n ≤ n' + 8 * ts.length ∧ Leads (binary n least) passed ts (u :: rest) need (binaryTail n' least e)

def ReadsAssignment (ts : List (Spanned Token)) (need : Nat) (e : Expr) : Prop :=
  ∀ ⦃n : Nat⦄ ⦃passed : Option Span⦄ ⦃u : Spanned Token⦄ ⦃rest : List (Spanned Token)⦄,
    8 * ts.length + 5 ≤ n → u.value.closesExpr = true → Leads (assignment n) passed ts (u :: rest) need (pure e)

def ReadsExpr (ts : List (Spanned Token)) (need : Nat) (e : Expr) : Prop :=
  ∀ ⦃n : Nat⦄ ⦃passed : Option Span⦄ ⦃u : Spanned Token⦄ ⦃rest : List (Spanned Token)⦄,
    8 * ts.length + 6 ≤ n → u.value.closesExpr = true → Leads (expr n) passed ts (u :: rest) need (pure e)

def ReadsArguments (ts : List (Spanned Token)) (need : Nat) (es : List Expr) : Prop :=
  ∀ ⦃n : Nat⦄ ⦃passed : Option Span⦄ ⦃u : Spanned Token⦄ ⦃rest : List (Spanned Token)⦄,
    8 * ts.length + 7 ≤ n → u.value = .rparen → Leads (arguments n) passed ts (u :: rest) need (pure es)

/-! ## Names -/

/-- The span of a name, given that of its first part and the tokens after it. -/
def pathSpan : Span → List (Spanned Token) → Span
  | s, _ :: t :: ts => pathSpan (s.merge t.span) ts
  | s, _ => s

theorem leads_nameParts : ∀ {words : List String} {ts : List (Spanned Token)} {limit : Nat}
    {name : Spanned String} {passed : Option Span} {u : Spanned Token} {rest : List (Spanned Token)},
    ts.map (·.value) = words.flatMap (fun w => [.dot, .identifier w]) → words.length ≤ limit →
    u.value ≠ .dot → Leads (nameParts limit name) passed ts (u :: rest) 0
      (pure ⟨dotted name.value words, pathSpan name.span ts⟩)
  | [], ts, limit, name, passed, u, rest, hts, _, hu => by
    obtain rfl := List.map_eq_nil_iff.mp hts
    cases limit with
    | zero => exact .done _ _ _
    | succ limit =>
      refine .get (g := pure name) (fun depth problems => ?_) (.done _ _ _)
      obtain ⟨value, span⟩ := u
      cases value <;> first | rfl | exact absurd rfl hu
  | w :: words, ts, limit, name, passed, u, rest, hts, hlimit, hu => by
    obtain ⟨⟨_, s⟩, ts, rfl, rfl, hts'⟩ := List.map_eq_cons_iff.mp hts
    obtain ⟨⟨_, s'⟩, ts, rfl, rfl, hts''⟩ := List.map_eq_cons_iff.mp hts'
    cases limit with
    | zero => exact absurd hlimit (Nat.not_succ_le_zero _)
    | succ limit =>
      have h := @leads_nameParts words ts limit ⟨name.value ++ "." ++ w, name.span.merge s'⟩
        (some s') u rest hts'' (Nat.le_of_succ_le_succ hlimit) hu
      exact .get (g := do advance; advance; nameParts limit ⟨name.value ++ "." ++ w, name.span.merge s'⟩)
        (fun _ _ => rfl) (.advance (.advance h))

theorem readsPath {word : String} {words : List String}
    (hts : ts.map (·.value) = .identifier word :: words.flatMap fun w => [.dot, .identifier w]) :
    ∃ span, ReadsPath ts ⟨dotted word words, span⟩ := by
  obtain ⟨t, ts, rfl, ht, hts⟩ := List.map_eq_cons_iff.mp hts
  refine ⟨pathSpan t.span ts, fun {passed u rest} hu => ?_⟩
  have hlength : ts.length = words.length * 2 := by
    simpa [List.length_flatMap, List.map_const'] using congrArg List.length hts
  have hlimit : words.length ≤ (ts ++ u :: rest).length := by
    rw [List.length_append]
    omega
  exact .identifier ht (.get (g := nameParts (ts ++ u :: rest).length ⟨word, t.span⟩) (fun _ _ => rfl)
    (leads_nameParts hts hlimit hu))

/-! ## Operands -/

section

variable {t : Spanned Token}

theorem readsPrimary_integer {value : Nat} (ht : t.value = .integer value) (h : value < Literal.intLimit) :
    ReadsPrimary [t] 0 (.literal t.span (.int (.ofInt value))) := by
  intro n passed u rest hn _
  obtain ⟨value', span⟩ := t
  cases ht
  cases n with
  | zero => exact absurd hn (by simp)
  | succ n =>
    rw [primary]
    refine .here rfl (.peek rfl (.advance ?_))
    rw [if_pos h]
    exact .done _ _ _

/-- The literals that are one token each. -/
theorem readsPrimary_literal {value : Literal}
    (ht : (t.value, value) ∈ [(.keyword .«true», .bool true), (.keyword .«false», .bool false),
      (.keyword .«null», .null)] ∨ ∃ text, t.value = .string text ∧ value = .str text) :
    ReadsPrimary [t] 0 (.literal t.span value) := by
  intro n passed u rest hn _
  obtain ⟨token, span⟩ := t
  cases n with
  | zero => exact absurd hn (by simp)
  | succ n =>
    rw [primary]
    refine .here rfl (.peek rfl ?_)
    simp only [List.mem_cons, Prod.mk.injEq, List.not_mem_nil, or_false] at ht
    rcases ht with (⟨rfl, rfl⟩ | ⟨rfl, rfl⟩ | ⟨rfl, rfl⟩) | ⟨text, rfl, rfl⟩ <;>
      exact .advance (.done _ _ _)

theorem ReadsExpr.parens (h : ReadsExpr ts need e) {l r : Spanned Token} (hl : l.value = .lparen)
    (hr : r.value = .rparen) : ReadsPrimary (l :: (ts ++ [r])) need e := by
  intro n passed u rest hn _
  obtain ⟨token, span⟩ := l
  cases hl
  rw [List.length_cons, List.length_append, List.length_singleton] at hn
  cases n with
  | zero => exact absurd hn (by omega)
  | succ n =>
    rw [primary]
    refine .here rfl (.peek rfl (.advance ?_))
    have hclose : r.value.closesExpr = true := by rw [hr]; rfl
    have h := @h n (some span) r (u :: rest) (by omega) hclose
    rw [← Nat.max_zero need]
    exact .seq h (.expect hr (.done _ _ _))

/-- The tokens of a name start with a word. -/
theorem ReadsPath.primary {path : Spanned String} (h : ReadsPath ts path) {name : String}
    {tail : List (Spanned Token)} (hts : ts = t :: tail) (ht : t.value = .identifier name) :
    ReadsPrimary ts 0 (.name path.span path.value) := by
  intro n passed u rest hn hu
  subst hts
  obtain ⟨token, span⟩ := t
  cases ht
  cases n with
  | zero => exact absurd hn (by simp)
  | succ n =>
    rw [Parser.primary]
    refine .here rfl (.peek rfl ?_)
    have hdot : u.value ≠ .dot := fun hdot => by rw [hdot] at hu; cases hu
    have hparen : u.value ≠ .lparen := fun hparen => by rw [hparen] at hu; cases hu
    rw [← List.append_nil (_ :: tail)]
    exact .next (h hdot) (.miss rfl hparen (.done _ _ _))

theorem ReadsPath.call {path : Spanned String} (h : ReadsPath ts path) {name : String}
    {tail : List (Spanned Token)} (hts : ts = t :: tail) (ht : t.value = .identifier name)
    {args : List Expr} {l r : Spanned Token} (hl : l.value = .lparen)
    (hargs : ReadsArguments us need args) (hr : r.value = .rparen) :
    ReadsPrimary (ts ++ l :: (us ++ [r])) need (.call (t.span.merge r.span) path args) := by
  intro n passed u rest hn _
  simp only [List.length_append, List.length_cons, List.length_nil] at hn
  subst hts
  obtain ⟨token, span⟩ := t
  cases ht
  cases n with
  | zero => exact absurd hn (by omega)
  | succ n =>
    rw [Parser.primary]
    refine .here rfl (.peek rfl ?_)
    have hdot : l.value ≠ .dot := fun hdot => by rw [hl] at hdot; cases hdot
    refine .next (h hdot) (.eat hl ?_)
    rw [← Nat.max_zero need]
    exact .seq (hargs (by simp at hn ⊢; omega) hr) (.expect hr (.behind rfl (.done _ _ _)))

end

/-! ## Operators in front of an operand and after it -/

/-- The first token is no operator that may stand in front of an operand. -/
def StartsPrimary (ts : List (Spanned Token)) : Prop := ∃ t us, ts = t :: us ∧ unaryOp? t.value = none

/-- An operand without a step after it. -/
theorem ReadsPrimary.unary (h : ReadsPrimary ts need e) (hts : StartsPrimary ts) : ReadsUnary ts need e := by
  intro n passed u rest hn hu
  obtain ⟨t, tail, rfl, ht⟩ := hts
  cases n with
  | zero => exact absurd hn (by simp)
  | succ n =>
    rw [Parser.unary]
    refine .here rfl (.peek rfl ?_)
    rw [ht]
    refine .last (h (by omega) (Token.extendsName_of_operand hu)) ?_
    refine .get (g := postSteps (rest.length + 1) e) (fun _ _ => rfl) (.peek rfl ?_)
    split
    · next op hop =>
      rw [hop] at hu
      cases hu
    · exact .done _ _ _

/-- A step after a variable. -/
theorem ReadsPrimary.postStep (h : ReadsPrimary ts need e) (hts : StartsPrimary ts) (hname : e.isName = true)
    {t : Spanned Token} {op : StepOp} (ht : t.value = .step op) :
    ReadsUnary (ts ++ [t]) need (.postStep (e.span.merge t.span) op e) := by
  intro n passed u rest hn hu
  obtain ⟨first, tail, rfl, hfirst⟩ := hts
  obtain ⟨token, span⟩ := t
  cases ht
  rw [List.length_append, List.length_singleton] at hn
  cases n with
  | zero => exact absurd hn (by omega)
  | succ n =>
    rw [Parser.unary]
    refine .here rfl (.peek rfl ?_)
    rw [hfirst, ← Nat.max_zero need]
    refine .seq (h (by omega) rfl) ?_
    refine .get (g := postSteps (rest.length + 2) e) (fun _ _ => rfl) (.peek rfl ?_)
    dsimp only
    rw [if_pos hname]
    refine .advance (.behind rfl (.peek rfl ?_))
    split
    · next op hop =>
      rw [hop] at hu
      cases hu
    · exact .done _ _ _

/-- A number with a minus sign in front of it. -/
theorem readsUnary_negative {t v : Spanned Token} {value : Nat} (ht : t.value = .operator .sub)
    (hv : v.value = .integer value) (h : value ≤ Literal.intLimit) :
    ReadsUnary [t, v] 0 (.literal (t.span.merge v.span) (.int (.ofInt (-value)))) := by
  intro n passed u rest hn _
  obtain ⟨token, span⟩ := t
  obtain ⟨token', span'⟩ := v
  cases ht
  cases hv
  cases n with
  | zero => exact absurd hn (by simp)
  | succ n =>
    rw [unary]
    refine .here rfl (.peek rfl (.advance (.peek rfl ?_)))
    rw [show negative? .neg (.integer value) = some (.ofInt (-value)) from if_pos h]
    exact .advance (.behind rfl (.done _ _ _))

/-- An operator in front of an operand, unless it is a minus sign and the operand a number. -/
theorem ReadsUnary.unary (h : ReadsUnary ts need e) {t : Spanned Token} {op : UnaryOp}
    (ht : unaryOp? t.value = some op) (hneg : ∀ u ∈ ts.head?, negative? op u.value = none) (hts : ts ≠ [])
    (hstep : ∀ s, op = .step s → e.isName = true) :
    ReadsUnary (t :: ts) (need + 1) (.unary (t.span.merge e.span) op e) := by
  intro n passed u rest hn hu
  obtain ⟨v, tail, rfl⟩ := List.exists_cons_of_ne_nil hts
  cases n with
  | zero => exact absurd hn (by simp)
  | succ n =>
    rw [Parser.unary]
    refine .here rfl (.peek rfl ?_)
    rw [ht]
    refine .advance (.peek rfl ?_)
    rw [hneg v rfl]
    rw [← Nat.max_zero (need + 1), ← List.append_nil (v :: tail)]
    have h := fun passed => @h n passed u rest (by simp at hn ⊢; omega) hu
    cases op with
    | step s =>
      refine .nested (h _) ?_
      dsimp only
      rw [if_pos (hstep s rfl)]
      exact .done _ _ _
    | _ => exact .nested (h _) (.done _ _ _)

/-! ## Operators between operands -/

theorem leads_binaryTail {n least : Nat} {lhs : Expr} {passed : Option Span} {u : Spanned Token}
    {rest : List (Spanned Token)} (h : ∀ op, u.value = .operator op → op.precedence < least) :
    Leads (binaryTail (n + 1) least lhs) passed [] (u :: rest) 0 (pure lhs) := by
  rw [binaryTail]
  refine .peek rfl ?_
  split
  · next op hop =>
    rw [if_pos (h op hop)]
    exact .done _ _ _
  · exact .done _ _ _

theorem ReadsUnary.binary (h : ReadsUnary ts need e) (hts : ts ≠ []) (p : Nat) :
    ReadsBinary p ts need e := by
  intro least n passed u rest _ hn hu _
  have hlength := List.length_pos_iff.mpr hts
  cases n with
  | zero => exact absurd hn (by omega)
  | succ n =>
    refine ⟨n, by omega, ?_⟩
    rw [Parser.binary]
    have h := (@h n passed u rest (by omega) hu).bind inferInstance
      (f := fun lhs => binaryTail n least lhs) fun _ => inferInstance
    rwa [pure_bind] at h

theorem ReadsBinary.weaken {p q : Nat} (h : ReadsBinary q ts need e) (hp : p ≤ q) :
    ReadsBinary p ts need e := by
  intro least n passed u rest hleast hn hu hop
  exact h (Nat.le_trans hleast hp) hn hu fun op heq => Nat.le_trans (hop op heq) hp

/-- An operator groups to the left: on its right, only tighter ones are read. -/
theorem ReadsBinary.operator {op : BinaryOp} {t : Spanned Token} {l r : Expr}
    (hl : ReadsBinary op.precedence ts need l) (ht : t.value = .operator op)
    (hr : ReadsBinary (op.precedence + 1) us more r) :
    ReadsBinary op.precedence (ts ++ t :: us) (max need more) (.binary (l.span.merge r.span) op l r) := by
  intro least n passed u rest hleast hn hu hop
  rw [List.length_append, List.length_cons] at hn
  obtain ⟨token, span⟩ := t
  cases ht
  obtain ⟨n₁, hn₁, hlead⟩ := @hl least n passed ⟨.operator op, span⟩ (us ++ u :: rest) hleast (by omega) rfl
    (by rintro _ ⟨⟩; exact Nat.le_refl _)
  cases n₁ with
  | zero => omega
  | succ n₁ =>
    obtain ⟨n₂, hn₂, hlead'⟩ := @hr (op.precedence + 1) n₁ (some span) u rest (Nat.le_refl _) (by omega) hu
      fun op' heq => Nat.le_succ_of_le (hop op' heq)
    refine ⟨n₁, by rw [List.length_append, List.length_cons]; omega, hlead.trans ?_⟩
    rw [binaryTail]
    refine .peek rfl ?_
    dsimp only
    rw [if_neg (Nat.not_lt.mpr hleast)]
    refine .advance ?_
    cases n₂ with
    | zero => omega
    | succ n₂ =>
      have hread := hlead'.stop (leads_binaryTail fun op' heq => Nat.lt_succ_of_le (hop op' heq))
      exact .last hread (.done _ _ _)

/-! ## Assignments and whole expressions -/

theorem Token.closes {u : Token} (h : u.closesExpr = true) :
    u.extendsOperand = false ∧ (∀ op, u ≠ .operator op) ∧ assignOp? u = none := by
  cases u <;> first | (cases h; done) | exact ⟨rfl, nofun, rfl⟩

instance moves_assigned (n : Nat) (target : Expr) : Moves (do
    match assignOp? (← peek) with
    | none => return target
    | some op =>
      unless target.isName do
        report .notAssignable
      advance
      let value ← assignment n
      return .assign (target.span.merge value.span) op target value : Parser Expr) := by
  refine @Moves.bind _ _ _ _ _ fun token => ?_
  split
  · infer_instance
  · infer_instance

theorem ReadsBinary.leads (h : ReadsBinary 0 ts need e) {n : Nat} {passed : Option Span} {u : Spanned Token}
    {rest : List (Spanned Token)} (hn : 8 * ts.length + 4 ≤ n) (hu : u.value.extendsOperand = false)
    (hop : ∀ op, u.value ≠ .operator op) : Leads (binary n 0) passed ts (u :: rest) need (pure e) := by
  obtain ⟨n', hn', hlead⟩ := @h 0 n passed u rest (Nat.le_refl 0) hn hu fun op heq => absurd heq (hop op)
  cases n' with
  | zero => omega
  | succ n' => exact hlead.stop (leads_binaryTail fun op heq => absurd heq (hop op))

theorem ReadsBinary.assignment (h : ReadsBinary 0 ts need e) : ReadsAssignment ts need e := by
  intro n passed u rest hn hu
  obtain ⟨hoperand, hop, hassign⟩ := Token.closes hu
  cases n with
  | zero => exact absurd hn (by omega)
  | succ n =>
    rw [Parser.assignment]
    refine .last (h.leads (by omega) hoperand hop) ?_
    refine .peek rfl ?_
    rw [hassign]
    exact .done _ _ _

/-- An assignment groups to the right. -/
theorem ReadsBinary.assign (h : ReadsBinary 0 ts need e) (hname : e.isName = true) {t : Spanned Token}
    {op : AssignOp} (ht : assignOp? t.value = some op) {value : Expr} (hvalue : ReadsAssignment us more value) :
    ReadsAssignment (ts ++ t :: us) (max need more) (.assign (e.span.merge value.span) op e value) := by
  intro n passed u rest hn hu
  rw [List.length_append, List.length_cons] at hn
  have ht' : t.value.extendsOperand = false ∧ ∀ op, t.value ≠ .operator op := by
    obtain ⟨token, span⟩ := t
    cases token <;> first | (cases ht; done) | exact ⟨rfl, nofun⟩
  cases n with
  | zero => exact absurd hn (by omega)
  | succ n =>
    rw [Parser.assignment]
    refine .seq (h.leads (by omega) ht'.1 ht'.2) ?_
    refine .peek rfl ?_
    rw [ht]
    dsimp only
    rw [if_pos hname]
    exact .advance (.last (hvalue (by omega) hu) (.done _ _ _))

theorem ReadsAssignment.expr (h : ReadsAssignment ts need e) : ReadsExpr ts (need + 1) e := by
  intro n passed u rest hn hu
  cases n with
  | zero => exact absurd hn (by omega)
  | succ n =>
    rw [Parser.expr, ← Nat.max_zero (need + 1), ← List.append_nil ts]
    exact .nested (h (by omega) hu) (.done _ _ _)

/-! ## Arguments -/

theorem readsArguments_nil : ReadsArguments [] 0 [] := by
  intro n passed u rest hn hu
  cases n with
  | zero => exact absurd hn (by simp)
  | succ n =>
    rw [arguments]
    refine .peek rfl ?_
    rw [hu]
    exact .done _ _ _

/-- The first token is one that an expression may start with. -/
def StartsExpr (ts : List (Spanned Token)) : Prop :=
  ∃ t us, ts = t :: us ∧ t.value ≠ .rparen ∧ t.value ≠ .endOfFile

theorem ReadsExpr.argument (h : ReadsExpr ts need e) (hts : StartsExpr ts) :
    ReadsArguments ts need [e] := by
  intro n passed u rest hn hu
  obtain ⟨t, tail, rfl, hparen, hend⟩ := hts
  cases n with
  | zero => exact absurd hn (by simp)
  | succ n =>
    rw [arguments]
    refine .peek rfl ?_
    split
    · next heq => exact absurd heq hparen
    · next heq => exact absurd heq hend
    · refine .last (h (by omega) (by rw [hu]; rfl)) ?_
      exact .miss rfl (by simp [hu]) (.done _ _ _)

theorem ReadsExpr.arguments (h : ReadsExpr ts need e) (hts : StartsExpr ts) {c : Spanned Token}
    (hc : c.value = .comma) {es : List Expr} (hes : ReadsArguments us more es) :
    ReadsArguments (ts ++ c :: us) (max need more) (e :: es) := by
  intro n passed u rest hn hu
  obtain ⟨t, tail, rfl, hparen, hend⟩ := hts
  rw [List.length_append, @List.length_cons _ _ us] at hn
  cases n with
  | zero => exact absurd hn (by omega)
  | succ n =>
    rw [Parser.arguments]
    refine .peek rfl ?_
    split
    · next heq => exact absurd heq hparen
    · next heq => exact absurd heq hend
    · refine .seq (h (by omega) (by rw [hc]; rfl)) ?_
      exact .eat hc (.last (hes (by omega) hu) (.done _ _ _))

end Parser

end JavaFold
