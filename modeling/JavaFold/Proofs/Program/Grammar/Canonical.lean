import JavaFold.Proofs.Program.Grammar.Accepted

/-!
# Reading loses nothing

How a program is written at the least: with parentheses only where the grammar asks for them, and with no comma
at the end of a list (`CompilationUnit.symbols`). The tokens a program was read from are this, but for
parentheses around expressions and commas at the end of lists that have been dropped (`Grammar.Sheds`), and for
the minus sign of a zero: `-0` is read as the number 0, which is not told from `0` afterwards.
-/

namespace JavaFold

namespace Grammar

open JavaFold.Parser

/-! ## How a program is written -/

/-- A part of how a program is written: a token, a name that may have several parts, or the number 0, which may
be the operand of a minus sign. -/
inductive Symbol
  | token (t : Token)
  | path (name : String)
  | zero (negated : Bool)
deriving DecidableEq

namespace Symbol

/-- The name that a symbol is. -/
def name? : Symbol → Option String
  | token (.identifier name) => some name
  | path name => some name
  | _ => none

def enclosed (ss : List Symbol) : List Symbol := token .lparen :: (ss ++ [token .rparen])

/-- Parentheses stand around what binds looser than its place asks for. -/
def within (least level : Nat) (ss : List Symbol) : List Symbol := if level < least then enclosed ss else ss

/-- Which tokens a symbol stands for. With `signed` the number 0 may have a minus sign that belongs to it. Behind
another minus sign it cannot stand alone, since that one would belong to it. -/
inductive Spelled (signed : Bool) : Symbol → List Token → Prop
  | token (t : Token) : Spelled signed (token t) [t]
  | path (word : String) (words : List String) :
    Spelled signed (path (dotted word words)) (.identifier word :: words.flatMap fun w => [.dot, .identifier w])
  | zero : Spelled signed (zero false) [.integer 0]
  | zero_negated : Spelled signed (zero true) [.lparen, .integer 0, .rparen]
  | zero_signed (h : signed = true) (negated : Bool) : Spelled signed (zero negated) [.operator .sub, .integer 0]

end Symbol

/-- The parts of a name stand among the tokens of its symbol. -/
theorem Symbol.Spelled.words {signed : Bool} {s : Symbol} {xs : List Token} {name : String} (h : s.Spelled signed xs)
    (hname : s.name? = some name) : ∃ word words, name = dotted word words ∧
      ∀ w ∈ word :: words, .identifier w ∈ xs := by
  cases h with
  | token t =>
    cases t with
    | identifier word =>
      obtain rfl : word = name := Option.some.inj hname
      exact ⟨word, [], rfl, by simp⟩
    | _ => cases hname
  | path word words =>
    obtain rfl := Option.some.inj hname
    refine ⟨word, words, rfl, List.forall_mem_cons.mpr ⟨List.mem_cons_self, fun w hw => ?_⟩⟩
    exact List.mem_cons_of_mem _ (List.mem_flatMap.mpr ⟨w, hw, by simp⟩)
  | zero => cases hname
  | zero_negated => cases hname
  | zero_signed => cases hname

/-- Which tokens symbols stand for, one after the other. -/
inductive Spells (signed : Bool) : List Symbol → List Token → Prop
  | nil : Spells signed [] []
  | cons {s : Symbol} {ss : List Symbol} {xs ys : List Token} (h : s.Spelled signed xs) (hss : Spells signed ss ys) :
    Spells signed (s :: ss) (xs ++ ys)

end Grammar

open Grammar Symbol

def Literal.symbols (value : Literal) : List Symbol :=
  if value = .int 0 then [.zero false] else value.tokens.map .token

def Ty.symbol : Ty → Symbol
  | int => .token (.keyword .int)
  | boolean => .token (.keyword .boolean)
  | void => .token (.keyword .void)
  | named name => .path name

namespace Expr

/-- A number that is written without a sign. -/
def number? : Expr → Option Int32
  | literal _ (.int n) => if n < 0 then none else some n
  | _ => none

/-- The operand of an operator in front of it. A number behind a minus sign stands in parentheses, since the two
would be read as one literal. -/
def operandSymbols (op : UnaryOp) (operand : Expr) (ss : List Symbol) : List Symbol :=
  match operand.number? with
  | none => within unaryLevel operand.level ss
  | some n => if op = .neg then if n = 0 then [.zero true] else enclosed ss else ss

mutual

def symbols : Expr → List Symbol
  | literal _ value => value.symbols
  | name _ n => [.path n]
  | binary _ op lhs rhs =>
    within op.precedence lhs.level (symbols lhs) ++
      .token (.operator op) :: within (op.precedence + 1) rhs.level (symbols rhs)
  | unary _ op operand => .token op.token :: operandSymbols op operand (symbols operand)
  | postStep _ op operand => symbols operand ++ [.token (.step op)]
  | assign _ op target value => symbols target ++ .token op.token :: symbols value
  | call _ callee args => .path callee.value :: enclosed (argSymbols args)

/-- Arguments, with commas between them. -/
def argSymbols : List Expr → List Symbol
  | [] => []
  | [e] => symbols e
  | e :: es => symbols e ++ .token .comma :: argSymbols es

end

def optionalSymbols : Option Expr → List Symbol
  | none => []
  | some e => e.symbols

/-- The value of a variable. -/
def initSymbols : Option Expr → List Symbol
  | none => []
  | some e => .token .assign :: e.symbols

end Expr

namespace Stmt

/-- A declaration or an expression, without the semicolon after it. -/
def simpleSymbols : Stmt → List Symbol
  | localVar _ ty name init => ty.value.symbol :: .token (.identifier name.value) :: Expr.initSymbols init
  | expr _ e => e.symbols
  | _ => []

mutual

def symbols : Stmt → List Symbol
  | block _ ss => .token .lbrace :: (allSymbols ss ++ [.token .rbrace])
  | expr _ e => e.symbols ++ [.token .semicolon]
  | localVar _ ty name init =>
    ty.value.symbol :: .token (.identifier name.value) :: (Expr.initSymbols init ++ [.token .semicolon])
  | ifElse _ c s none => .token (.keyword .«if») :: (enclosed c.symbols ++ symbols s)
  | ifElse _ c s (some s') =>
    .token (.keyword .«if») :: (enclosed c.symbols ++ (symbols s ++ .token (.keyword .«else») :: symbols s'))
  | whileLoop _ c s => .token (.keyword .«while») :: (enclosed c.symbols ++ symbols s)
  | forLoop _ init cond update s =>
    .token (.keyword .«for») :: .token .lparen :: ((init.map simpleSymbols).getD [] ++ .token .semicolon ::
      (Expr.optionalSymbols cond ++ .token .semicolon :: (Expr.optionalSymbols update ++ .token .rparen :: symbols s)))
  | ret _ e => .token (.keyword .«return») :: (Expr.optionalSymbols e ++ [.token .semicolon])
  | brk _ => [.token (.keyword .«break»), .token .semicolon]
  | cont _ => [.token (.keyword .«continue»), .token .semicolon]
  | empty _ => [.token .semicolon]

def allSymbols : List Stmt → List Symbol
  | [] => []
  | s :: ss => symbols s ++ allSymbols ss

end

end Stmt

def Modifier.symbols (ms : List Modifier) : List Symbol := ms.map fun m => .token (.keyword m.keyword)

/-- Parameters, with commas between them. -/
def Param.symbols : List Param → List Symbol
  | [] => []
  | [p] => [p.ty.symbol, .token (.identifier p.name)]
  | p :: ps => p.ty.symbol :: .token (.identifier p.name) :: .token .comma :: symbols ps

def Member.symbols : Member → List Symbol
  | field _ d =>
    Modifier.symbols d.modifiers ++ d.ty.value.symbol :: .token (.identifier d.name.value) ::
      (Expr.initSymbols d.init ++ [.token .semicolon])
  | method _ d =>
    Modifier.symbols d.modifiers ++ d.ret.value.symbol :: .token (.identifier d.name.value) ::
      (enclosed (Param.symbols d.params) ++
        .token .lbrace :: (Stmt.allSymbols d.body.stmts ++ [.token .rbrace]))

def ClassDecl.symbols (d : ClassDecl) : List Symbol :=
  Modifier.symbols d.modifiers ++ .token (.keyword .«class») :: .token (.identifier d.name.value) ::
    .token .lbrace :: (d.members.flatMap Member.symbols ++ [.token .rbrace])

def CompilationUnit.symbols (unit : CompilationUnit) : List Symbol := unit.classes.flatMap ClassDecl.symbols

namespace Grammar

/-! ## What is dropped -/

/-- Tokens without some parentheses around expressions, and without some commas in front of a closing
parenthesis. -/
inductive Sheds : List (Spanned Token) → List Token → Prop
  | nil : Sheds [] []
  | keep {t : Spanned Token} {ts : List (Spanned Token)} {cs : List Token} (h : Sheds ts cs) :
    Sheds (t :: ts) (t.value :: cs)
  | parens {l r : Spanned Token} {e : Expr} {ts us : List (Spanned Token)} {n : Nat} {cs ds : List Token}
    (hl : l.value = .lparen) (he : ExprTokens true (.expr 0 e) ts n) (hr : r.value = .rparen) (h : Sheds ts cs)
    (h' : Sheds us ds) : Sheds (l :: (ts ++ r :: us)) (cs ++ ds)
  | comma {c r : Spanned Token} {us : List (Spanned Token)} {cs : List Token} (hc : c.value = .comma)
    (hr : r.value = .rparen) (h : Sheds (r :: us) cs) : Sheds (c :: r :: us) cs

theorem Sheds.append {ts us : List (Spanned Token)} {cs ds : List Token} (h : Sheds ts cs) (h' : Sheds us ds) :
    Sheds (ts ++ us) (cs ++ ds) := by
  induction h with
  | nil => exact h'
  | keep _ ih => exact .keep ih
  | parens hl he hr h _ _ ih =>
    rw [List.cons_append, List.append_assoc, List.append_assoc]
    exact .parens hl he hr h ih
  | comma hc hr _ ih => exact .comma hc hr ih

/-- What is left stood there before. -/
theorem Sheds.mem {ts : List (Spanned Token)} {cs : List Token} (h : Sheds ts cs) :
    ∀ c ∈ cs, ∃ t ∈ ts, t.value = c := by
  induction h with
  | nil => simp
  | @keep t _ _ _ ih =>
    refine List.forall_mem_cons.mpr ⟨⟨t, List.mem_cons_self, rfl⟩, fun c hc => ?_⟩
    obtain ⟨u, hu, hvalue⟩ := ih c hc
    exact ⟨u, List.mem_cons_of_mem _ hu, hvalue⟩
  | parens _ _ _ _ _ ih ih' =>
    intro c hc
    rcases List.mem_append.mp hc with hc | hc
    · obtain ⟨u, hu, hvalue⟩ := ih c hc
      exact ⟨u, by simp [hu], hvalue⟩
    · obtain ⟨u, hu, hvalue⟩ := ih' c hc
      exact ⟨u, by simp [hu], hvalue⟩
  | comma _ _ _ ih =>
    intro c hc
    obtain ⟨u, hu, hvalue⟩ := ih c hc
    exact ⟨u, List.mem_cons_of_mem _ hu, hvalue⟩

/-- No minus sign is dropped. -/
theorem Sheds.minus {ts : List (Spanned Token)} {cs : List Token} (h : Sheds ts cs) :
    ∀ t ∈ ts, t.value = .operator .sub → .operator .sub ∈ cs := by
  induction h with
  | nil => simp
  | keep _ ih =>
    intro u hu hvalue
    rcases List.mem_cons.mp hu with rfl | hu
    · exact hvalue ▸ List.mem_cons_self
    · exact List.mem_cons_of_mem _ (ih u hu hvalue)
  | parens hl _ hr _ _ ih ih' =>
    intro u hu hvalue
    simp only [List.mem_cons, List.mem_append] at hu
    rcases hu with rfl | hu | rfl | hu
    · simp [hl] at hvalue
    · exact List.mem_append_left _ (ih u hu hvalue)
    · simp [hr] at hvalue
    · exact List.mem_append_right _ (ih' u hu hvalue)
  | comma hc _ _ ih =>
    intro u hu hvalue
    rcases List.mem_cons.mp hu with rfl | hu
    · simp [hc] at hvalue
    · exact ih u hu hvalue

theorem Spells.append {signed : Bool} {ss ss' : List Symbol} {cs cs' : List Token} (h : Spells signed ss cs)
    (h' : Spells signed ss' cs') : Spells signed (ss ++ ss') (cs ++ cs') := by
  induction h with
  | nil => exact h'
  | cons h _ ih =>
    rw [List.cons_append, List.append_assoc]
    exact .cons h ih

/-- Each symbol is spelled with tokens that are there. -/
theorem Spells.spelled {signed : Bool} {ss : List Symbol} {cs : List Token} (h : Spells signed ss cs) :
    ∀ s ∈ ss, ∃ xs, s.Spelled signed xs ∧ xs ⊆ cs := by
  induction h with
  | nil => simp
  | @cons s ss xs ys h _ ih =>
    refine List.forall_mem_cons.mpr ⟨⟨xs, h, List.subset_append_left _ _⟩, fun s' hs' => ?_⟩
    obtain ⟨zs, hzs, hsub⟩ := ih s' hs'
    exact ⟨zs, hzs, List.subset_append_of_subset_right _ hsub⟩

/-- Without a sign that belongs to a number, a minus sign is a symbol. -/
theorem Spells.minus {ss : List Symbol} {cs : List Token} (h : Spells false ss cs)
    (hminus : .operator .sub ∈ cs) : .token (.operator .sub) ∈ ss := by
  induction h with
  | nil => cases hminus
  | cons h _ ih =>
    rcases List.mem_append.mp hminus with hminus | hminus
    · cases h with
      | token t => simp_all
      | path word words => simp at hminus
      | zero => simp at hminus
      | zero_negated => simp at hminus
      | zero_signed h => cases h
    · exact List.mem_cons_of_mem _ (ih hminus)

/-! ## What reading leaves -/

/-- What is left of the tokens when reading has dropped what it drops is a spelling of the symbols. -/
def Leaves (ts : List (Spanned Token)) (ss : List Symbol) : Prop := ∃ cs, Sheds ts cs ∧ Spells true ss cs

namespace Leaves

variable {ts us : List (Spanned Token)} {ss ss' : List Symbol} {s : Symbol} {t : Spanned Token} {token : Token}

theorem nil : Leaves [] [] := ⟨[], .nil, .nil⟩

theorem append (h : Leaves ts ss) (h' : Leaves us ss') : Leaves (ts ++ us) (ss ++ ss') := by
  obtain ⟨cs, hts, hss⟩ := h
  obtain ⟨ds, hus, hss'⟩ := h'
  exact ⟨cs ++ ds, hts.append hus, hss.append hss'⟩

theorem cons (ht : t.value = token) (h : Leaves us ss) : Leaves (t :: us) (.token token :: ss) := by
  obtain ⟨cs, hus, hss⟩ := h
  exact ⟨t.value :: cs, .keep hus, ht ▸ .cons (.token t.value) hss⟩

theorem singleton (ht : t.value = token) : Leaves [t] [.token token] := nil.cons ht

/-- All tokens of a symbol are kept. -/
theorem of_spelled {xs : List Token} (hts : ts.map (·.value) = xs) (h : s.Spelled true xs) : Leaves ts [s] := by
  have hkeep : ∀ us : List (Spanned Token), Sheds us (us.map (·.value)) := fun us => by
    induction us with
    | nil => exact .nil
    | cons u us ih => exact .keep ih
  refine ⟨xs, hts ▸ hkeep ts, ?_⟩
  rw [← List.append_nil xs]
  exact .cons h .nil

theorem enclosed {l r : Spanned Token} (hl : l.value = .lparen) (h : Leaves ts ss) (hr : r.value = .rparen) :
    Leaves (l :: (ts ++ [r])) (Symbol.enclosed ss) :=
  (h.append (.singleton hr)).cons hl

/-- Parentheses around an expression can be dropped. -/
theorem parens {l r : Spanned Token} {e : Expr} {n : Nat} (hl : l.value = .lparen)
    (he : ExprTokens true (.expr 0 e) ts n) (hr : r.value = .rparen) (h : Leaves ts ss) :
    Leaves (l :: (ts ++ [r])) ss := by
  obtain ⟨cs, hts, hss⟩ := h
  refine ⟨cs, ?_, hss⟩
  rw [← List.append_nil cs]
  exact .parens hl he hr hts .nil

/-- A comma in front of a closing parenthesis can be dropped. -/
theorem comma {c r : Spanned Token} (hc : c.value = .comma) (hr : r.value = .rparen) (h : Leaves [r] ss) :
    Leaves [c, r] ss := by
  obtain ⟨cs, hts, hss⟩ := h
  exact ⟨cs, .comma hc hr hts, hss⟩

/-- In parentheses the number 0 does not belong to a minus sign in front of them. Where it has one of its own, it
does not need them. -/
theorem zero_negated {l r : Spanned Token} {e : Expr} {n : Nat} (hl : l.value = .lparen)
    (he : ExprTokens true (.expr 0 e) ts n) (hr : r.value = .rparen) (h : Leaves ts [.zero false]) :
    Leaves (l :: (ts ++ [r])) [.zero true] := by
  obtain ⟨cs, hts, hss⟩ := h
  cases hss with
  | cons hzero hnil =>
    cases hnil
    rw [List.append_nil] at hts
    cases hzero with
    | zero => exact ⟨_, .keep (hts.append (.keep .nil)), by rw [hl, hr]; exact .cons .zero_negated .nil⟩
    | zero_signed hsigned => exact parens hl he hr ⟨_, hts, .cons (.zero_signed hsigned true) .nil⟩

end Leaves

/-! ## Names, types and numbers -/

theorem PathTokens.leaves {path : Spanned String} {ts : List (Spanned Token)} (h : PathTokens path ts) :
    Leaves ts [.path path.value] := by
  obtain ⟨t, us, word, words, rfl, ht, hwords, rfl⟩ := h.words
  exact .of_spelled (by rw [List.map_cons, ht, hwords]) (.path word words)

theorem TyTokens.leaves {ty : Spanned Ty} {ts : List (Spanned Token)} (h : TyTokens ty ts) :
    Leaves ts [ty.value.symbol] := by
  cases h with
  | @word t word ty ht h =>
    simp only [List.mem_cons, Prod.mk.injEq, List.not_mem_nil, or_false] at h
    rcases h with ⟨rfl, rfl⟩ | ⟨rfl, rfl⟩ | ⟨rfl, rfl⟩ <;> exact .singleton ht
  | path h => exact h.leaves

/-- The symbols of a number are its digits, with the sign of a negative one. -/
theorem symbols_int {value : Int} (hlow : -(Literal.intLimit : Int) ≤ value) (hhigh : value < Literal.intLimit)
    (hne : value ≠ 0) : (Literal.int (.ofInt value)).symbols =
      if value < 0 then [.token (.operator .sub), .token (.integer value.natAbs)]
      else [.token (.integer value.natAbs)] := by
  have hlimit : (Literal.intLimit : Int) = 2147483648 := rfl
  have hvalue : (Int32.ofInt value).toInt = value := by
    exact Int32.toInt_ofInt_of_le (by omega) (by omega)
  have hzero : Literal.int (.ofInt value) ≠ .int 0 := fun h => by
    injection h with h
    rw [h] at hvalue
    exact hne hvalue.symm
  rw [Literal.symbols, if_neg hzero, Literal.tokens, hvalue]
  split <;> rfl

/-! ## Expressions -/

/-- The token in front is no number. -/
def StartsNumber (ts : List (Spanned Token)) : Prop := ∃ t ∈ ts.head?, ∃ value, t.value = .integer value

/-- What is left of an expression in a place that asks for any level up to that of the derivation, and behind a
minus sign, and what is left of arguments together with the parenthesis after them. -/
def ExprPart.Leaves (ts : List (Spanned Token)) : ExprPart → Prop
  | .expr level e => (∀ least ≤ level, Grammar.Leaves ts (within least e.level e.symbols)) ∧
      (∀ n, e.number? = some n → ¬StartsNumber ts → Grammar.Leaves ts (Expr.operandSymbols .neg e e.symbols))
  | .args es => ∀ r : Spanned Token, r.value = .rparen →
      Grammar.Leaves (ts ++ [r]) (Expr.argSymbols es ++ [.token .rparen])

theorem within_of_le {least level : Nat} (ss : List Symbol) (h : least ≤ level) : within least level ss = ss :=
  if_neg (Nat.not_lt.mpr h)

namespace ExprPart.Leaves

variable {ts : List (Spanned Token)} {level : Nat} {e : Expr}

/-- Most expressions bind as tightly as their derivation says, and are no numbers. -/
theorem of_level (hlevel : level ≤ e.level) (hnumber : e.number? = none) (h : Grammar.Leaves ts e.symbols) :
    (ExprPart.expr level e).Leaves ts := by
  refine ⟨fun least hleast => ?_, fun n hn => ?_⟩
  · rwa [within_of_le _ (Nat.le_trans hleast hlevel)]
  · rw [hnumber] at hn
    cases hn

/-- An expression in a place that asks for nothing. -/
theorem symbols (h : (ExprPart.expr level e).Leaves ts) : Grammar.Leaves ts e.symbols := by
  have hsymbols := h.1 0 (Nat.zero_le level)
  rwa [within_of_le _ (Nat.zero_le _)] at hsymbols

/-- The operand of an operator. -/
theorem operand {op : UnaryOp} (h : (ExprPart.expr 11 e).Leaves ts) (hneg : op = .neg → ¬StartsNumber ts) :
    Grammar.Leaves ts (Expr.operandSymbols op e e.symbols) := by
  cases hnumber : e.number? with
  | none =>
    rw [Expr.operandSymbols, hnumber]
    exact h.1 Expr.unaryLevel (Nat.le_refl _)
  | some n =>
    by_cases hop : op = .neg
    · subst hop
      exact h.2 n hnumber (hneg rfl)
    · rw [Expr.operandSymbols, hnumber]
      simp only [if_neg hop]
      exact h.symbols

end ExprPart.Leaves

/-- A number of which the parentheses are kept if a minus sign asks for them. -/
theorem Leaves.number {l r : Spanned Token} {e : Expr} {ts : List (Spanned Token)} {n : Nat} {value : Int32}
    (hl : l.value = .lparen) (he : ExprTokens true (.expr 0 e) ts n) (hr : r.value = .rparen)
    (hvalue : e.number? = some value) (h : Leaves ts e.symbols) :
    Leaves (l :: (ts ++ [r])) (Expr.operandSymbols .neg e e.symbols) := by
  rw [Expr.operandSymbols, hvalue]
  simp only [if_true]
  split
  · next hzero =>
    have hsymbols : e.symbols = [.zero false] := by
      unfold Expr.number? at hvalue
      split at hvalue
      · split at hvalue
        · cases hvalue
        · cases hvalue
          rw [Expr.symbols, Literal.symbols, hzero]
          rfl
      · cases hvalue
    exact .zero_negated hl he hr (hsymbols ▸ h)
  · exact .enclosed hl h hr

theorem ExprTokens.leaves {part : ExprPart} {ts : List (Spanned Token)} {n : Nat} (h : ExprTokens true part ts n) :
    part.Leaves ts := by
  have hlimit : (Literal.intLimit : Int) = 2147483648 := rfl
  induction h with
  | @integer t value ht h =>
    have hvalue : (Int32.ofInt value).toInt = value := Int32.toInt_ofInt_of_le (by omega) (by omega)
    have hpos : ¬Int32.ofInt value < 0 := fun hneg => by
      have hint := Int32.lt_iff_toInt_lt.mp hneg
      rw [hvalue, Int32.toInt_zero] at hint
      omega
    refine ⟨fun least hleast => ?_, fun n hn hstart => absurd ⟨t, rfl, value, ht⟩ hstart⟩
    rw [within_of_le _ (by simpa [Expr.level, hpos] using hleast)]
    show Leaves [t] (Literal.int (.ofInt value)).symbols
    by_cases hzero : value = 0
    · subst hzero
      exact .of_spelled (by rw [List.map_singleton, ht]) .zero
    · rw [symbols_int (by omega) (by omega) (by omega), if_neg (by omega)]
      exact .singleton ht
  | @word t word value ht h =>
    simp only [List.mem_cons, Prod.mk.injEq, List.not_mem_nil, or_false] at h
    rcases h with ⟨rfl, rfl⟩ | ⟨rfl, rfl⟩ | ⟨rfl, rfl⟩ <;> exact .of_level (Nat.le_refl _) rfl (.singleton ht)
  | string ht => exact .of_level (Nat.le_refl _) rfl (.singleton ht)
  | name h => exact .of_level (Nat.le_refl _) rfl h.leaves
  | call h hl _ hr ih => exact .of_level (Nat.le_refl _) rfl (h.leaves.append (.cons hl (ih _ hr)))
  | @parens ts n e l r hl h hr ih =>
    refine ⟨fun least _ => ?_, fun value hvalue _ => .number hl h hr hvalue ih.symbols⟩
    unfold within
    split
    · exact .enclosed hl ih.symbols hr
    · exact .parens hl h hr ih.symbols
  | postStep h hname ht ih => exact .of_level (Nat.le_refl _) rfl (ih.symbols.append (.singleton ht))
  | @negative t v value ht hv h =>
    have hvalue : (Int32.ofInt (-value)).toInt = -value := Int32.toInt_ofInt_of_le (by omega) (by omega)
    by_cases hzero : value = 0
    · subst hzero
      refine ⟨fun least hleast => ?_, fun _ _ _ => ?_⟩
      · have hlevel : (Expr.literal (t.span.merge v.span) (.int (.ofInt (-(0 : Nat))))).level = 13 := rfl
        rw [hlevel, within_of_le _ (by omega)]
        exact .of_spelled (by simp [ht, hv]) (.zero_signed rfl false)
      · exact .of_spelled (by simp [ht, hv]) (.zero_signed rfl true)
    · have hneg : Int32.ofInt (-value) < 0 := Int32.lt_iff_toInt_lt.mpr (by rw [hvalue, Int32.toInt_zero]; omega)
      refine .of_level (by rw [Expr.level, if_pos hneg]; exact Nat.le_refl _) (by rw [Expr.number?, if_pos hneg]) ?_
      show Leaves [t, v] (Literal.int (.ofInt (-value))).symbols
      rw [symbols_int (by omega) (by omega) (by omega), if_pos (by omega)]
      exact .cons ht (.singleton (by simpa using hv))
  | @unary ts n e t op ht h hneg hstep ih =>
    refine .of_level (Nat.le_refl _) rfl (.cons ht (ih.operand fun hop => ?_))
    rintro ⟨u, hu, value, hvalue⟩
    exact hneg hop u hu value hvalue
  | binary _ ht hr ihl ihr =>
    exact .of_level (Nat.le_refl _) rfl ((ihl.1 _ (Nat.le_refl _)).append (.cons ht (ihr.1 _ (Nat.le_refl _))))
  | assign _ hname hop ht _ ih ihvalue =>
    exact .of_level (Nat.le_refl _) rfl (ih.symbols.append (.cons ht ihvalue.symbols))
  | loosen h ih => exact ⟨fun least hleast => ih.1 least (Nat.le_succ_of_le hleast), ih.2⟩
  | nil => exact fun r hr => .singleton hr
  | last h ih => exact fun r hr => ih.symbols.append (.singleton hr)
  | @more ts us n m e es c h hc hes _ ih ihes =>
    intro r hr
    rw [List.append_assoc]
    cases es with
    | nil =>
      cases hes
      exact ih.symbols.append (.comma hc hr (.singleton hr))
    | cons e' es =>
      rw [show Expr.argSymbols (e :: e' :: es) = e.symbols ++ .token .comma :: Expr.argSymbols (e' :: es) by
        rw [Expr.argSymbols]; simp, List.append_assoc]
      exact ih.symbols.append (.cons hc (ihes r hr))

theorem OptionalTokens.leaves {e : Option Expr} {ts : List (Spanned Token)} {n : Nat}
    (h : OptionalTokens true e ts n) : Leaves ts (Expr.optionalSymbols e) := by
  cases h with
  | none => exact .nil
  | some h => exact h.leaves.symbols

theorem InitTokens.leaves {init : Option Expr} {ts : List (Spanned Token)} {n : Nat}
    (h : InitTokens true init ts n) : Leaves ts (Expr.initSymbols init) := by
  cases h with
  | none => exact .nil
  | some ht h => exact .cons ht h.leaves.symbols

/-! ## Statements -/

theorem DeclTokens.leaves {ty : Spanned Ty} {name : Spanned String} {init : Option Expr}
    {ts : List (Spanned Token)} {n : Nat} (h : DeclTokens true ty name init ts n) :
    Leaves ts (ty.value.symbol :: .token (.identifier name.value) :: Expr.initSymbols init) := by
  cases h with
  | mk hty _ ht hinit => exact hty.leaves.append (.cons ht hinit.leaves)

theorem ForInitTokens.leaves {init : Option Stmt} {ts : List (Spanned Token)} {n : Nat}
    (h : ForInitTokens true init ts n) : Leaves ts ((init.map Stmt.simpleSymbols).getD []) := by
  cases h with
  | none => exact .nil
  | localVar h => exact h.leaves
  | expr h => exact h.leaves.symbols

/-- A condition in parentheses. -/
theorem ExprTokens.leaves_enclosed {e : Expr} {ts : List (Spanned Token)} {n : Nat} {l r : Spanned Token}
    {us : List (Spanned Token)} {ss : List Symbol} (hl : l.value = .lparen) (h : ExprTokens true (.expr 0 e) ts n)
    (hr : r.value = .rparen) (hus : Leaves us ss) :
    Leaves (l :: (ts ++ r :: us)) (Symbol.enclosed e.symbols ++ ss) := by
  have htokens : l :: (ts ++ r :: us) = l :: (ts ++ [r]) ++ us := by simp
  exact htokens ▸ (Leaves.enclosed hl h.leaves.symbols hr).append hus

def StmtPart.symbols : StmtPart → List Symbol
  | .stmt s => s.symbols
  | .stmts ss => Stmt.allSymbols ss

theorem StmtTokens.leaves {part : StmtPart} {ts : List (Spanned Token)} {n : Nat} (h : StmtTokens true part ts n) :
    Leaves ts part.symbols := by
  induction h with
  | block hl _ hr ih => exact .cons hl (ih.append (.singleton hr))
  | expr h hr => exact h.leaves.symbols.append (.singleton hr)
  | localVar h hr => exact h.leaves.append (.singleton hr)
  | ifElse hk hl hcond hr _ _ ih => exact .cons hk (hcond.leaves_enclosed hl hr ih)
  | ifElse_else hk hl hcond hr _ _ _ hk' _ _ ih ih' =>
    exact .cons hk (hcond.leaves_enclosed hl hr (ih.append (.cons hk' ih')))
  | whileLoop hk hl hcond hr _ _ ih => exact .cons hk (hcond.leaves_enclosed hl hr ih)
  | forLoop hk hl hinit hm hcond hm' hupdate hr _ _ ih =>
    have hbody := hupdate.leaves.append (.cons hr ih)
    have hheader := hcond.leaves.append (.cons hm' hbody)
    exact .cons hk (.cons hl (hinit.leaves.append (.cons hm hheader)))
  | ret hk h hr => exact .cons hk (h.leaves.append (.singleton hr))
  | brk hk hr => exact .cons hk (.singleton hr)
  | cont hk hr => exact .cons hk (.singleton hr)
  | empty ht => exact .singleton ht
  | nil => exact .nil
  | cons _ _ ih ihss => exact ih.append ihss

/-! ## Classes -/

theorem ModifierTokens.leaves {ms : List Modifier} {ts : List (Spanned Token)} (h : ModifierTokens ms ts) :
    Leaves ts (Modifier.symbols ms) := by
  have htokens := h.tokens
  clear h
  induction ms generalizing ts with
  | nil =>
    obtain rfl := List.map_eq_nil_iff.mp htokens
    exact .nil
  | cons m ms ih =>
    obtain ⟨t, us, rfl, ht, hus⟩ := List.map_eq_cons_iff.mp htokens
    exact .cons ht (ih hus)

/-- Parameters are looked at together with the parenthesis after them. -/
theorem ParamTokens.leaves {ps : List Param} {ts : List (Spanned Token)} {r : Spanned Token}
    (h : ParamTokens true ps ts) (hr : r.value = .rparen) :
    Leaves (ts ++ [r]) (Param.symbols ps ++ [.token .rparen]) := by
  induction h with
  | nil => exact .singleton hr
  | last hty ht =>
    rw [List.append_assoc]
    exact hty.leaves.append (.cons ht (.singleton hr))
  | @more ty ps ts us t c name hty ht hc hps _ ih =>
    rw [List.append_assoc]
    cases ps with
    | nil =>
      cases hps
      exact hty.leaves.append (.cons ht (.comma hc hr (.singleton hr)))
    | cons p ps => exact hty.leaves.append (.cons ht (.cons hc ih))

theorem MemberTokens.leaves {m : Member} {ts : List (Spanned Token)} {n : Nat} (h : MemberTokens true m ts n) :
    Leaves ts m.symbols := by
  cases h with
  | field hms hty _ ht hinit hr =>
    have hvalue := hinit.leaves.append (.singleton hr)
    exact hms.leaves.append (hty.leaves.append (.cons ht hvalue))
  | @method ms ty ps ss ts us vs ws n t lp rp l r name hms hty ht hlp hps hrp hl hss hr =>
    have hbody := Leaves.cons hl (hss.leaves.append (.singleton hr))
    have hparams := Leaves.cons hlp (hps.leaves hrp)
    have hrest := hparams.append hbody
    have htokens : lp :: (vs ++ [rp]) ++ l :: (ws ++ [r]) = lp :: (vs ++ rp :: l :: (ws ++ [r])) := by simp
    rw [htokens] at hrest
    exact hms.leaves.append (hty.leaves.append (.cons ht hrest))

theorem Sequence.leaves {α : Type} {P : α → List (Spanned Token) → Nat → Prop} {symbols : α → List Symbol}
    {as : List α} {ts : List (Spanned Token)} {n : Nat} (hP : ∀ {a ts n}, P a ts n → Leaves ts (symbols a))
    (h : Sequence P as ts n) : Leaves ts (as.flatMap symbols) := by
  induction h with
  | nil => exact .nil
  | cons h _ ih => exact (hP h).append ih

theorem ClassTokens.leaves {d : ClassDecl} {ts : List (Spanned Token)} {n : Nat} (h : ClassTokens true d ts n) :
    Leaves ts d.symbols := by
  cases h with
  | mk hms hk ht hl hmembers hr =>
    have hbody := (hmembers.leaves fun h => h.leaves).append (.singleton hr)
    exact hms.leaves.append (.cons hk (.cons ht (.cons hl hbody)))

end Grammar

namespace CompilationUnit

variable {unit : CompilationUnit} {tokens : List (Spanned Token)}

/-- Every program that is read is left of the tokens in front of the end of the file when parentheses around
expressions and commas in front of closing parentheses are dropped, where the number 0 may be spelled with a minus
sign. Every part of a name in the program stands among the tokens. -/
theorem symbols_ofTokens? (hend : tokens.getLast?.map (·.value) = some .endOfFile)
    (h : ofTokens? tokens = .ok unit) :
    (∃ kept, Sheds (beforeEnd tokens) kept ∧ Spells true unit.symbols kept) ∧
      ∀ s ∈ unit.symbols, ∀ name, s.name? = some name → ∃ word words, name = dotted word words ∧
        ∀ w ∈ word :: words, ∃ t ∈ beforeEnd tokens, t.value = .identifier w := by
  obtain ⟨need, -, hunit⟩ := writtenBy_of_ofTokens? hend h
  obtain ⟨kept, hsheds, hspells⟩ := hunit.leaves fun h => h.leaves
  refine ⟨⟨kept, hsheds, hspells⟩, fun s hs name hname => ?_⟩
  obtain ⟨xs, hxs, hsub⟩ := hspells.spelled s hs
  obtain ⟨word, words, hdotted, hmem⟩ := hxs.words hname
  exact ⟨word, words, hdotted, fun w hw => hsheds.mem _ (hsub (hmem w hw))⟩

/-- Parentheses around an argument and a comma after it are dropped. -/
theorem symbols_ofTokens?_call : ∃ unit : CompilationUnit, ∃ kept,
    ofTokens? (Lexed.ofSource "class A \x7b void m() \x7b f((x),); \x7d \x7d").tokens = .ok unit ∧
      Sheds (beforeEnd (Lexed.ofSource "class A \x7b void m() \x7b f((x),); \x7d \x7d").tokens) kept ∧
      Spells true unit.symbols kept := by
  generalize htokens : (Lexed.ofSource "class A \x7b void m() \x7b f((x),); \x7d \x7d").tokens = tokens
  have hok : (ofTokens? tokens).toOption.isSome = true := by
    rw [← htokens]
    decide +kernel
  have hend : tokens.getLast?.map (·.value) = some .endOfFile := by
    rw [← htokens]
    decide +kernel
  obtain ⟨unit, hparsed⟩ := Option.isSome_iff_exists.mp hok
  have hparse := eq_ok_of_toOption hparsed
  obtain ⟨⟨kept, hsheds, hspells⟩, -⟩ := symbols_ofTokens? hend hparse
  exact ⟨unit, kept, hparse, hsheds, hspells⟩

/-- The minus sign of a zero is lost: the program that is read has none. -/
theorem symbols_ofTokens?_zero : ∃ unit : CompilationUnit,
    ofTokens? (Lexed.ofSource "class A \x7b int x = -0; \x7d").tokens = .ok unit ∧
      ¬∃ kept, Sheds (beforeEnd (Lexed.ofSource "class A \x7b int x = -0; \x7d").tokens) kept ∧
        Spells false unit.symbols kept := by
  generalize htokens : (Lexed.ofSource "class A \x7b int x = -0; \x7d").tokens = tokens
  have hok : (ofTokens? tokens).toOption.map (fun unit => unit.symbols.contains (.token (.operator .sub))) =
      some false := by
    rw [← htokens]
    decide +kernel
  have hminus : (beforeEnd tokens).any fun t => t.value == .operator .sub := by
    rw [← htokens]
    decide +kernel
  obtain ⟨unit, hparsed, hok⟩ := Option.map_eq_some_iff.mp hok
  refine ⟨unit, eq_ok_of_toOption hparsed, ?_⟩
  rintro ⟨kept, hsheds, hspells⟩
  obtain ⟨t, ht, hvalue⟩ := List.any_eq_true.mp hminus
  have hkept := hsheds.minus t ht (beq_iff_eq.mp hvalue)
  simp [hspells.minus hkept] at hok

end CompilationUnit

end JavaFold
