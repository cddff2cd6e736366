import JavaFold.Proofs.Program.Grammar.Stmt
import JavaFold.Proofs.Program.Layout

/-!
# The grammar

Which tokens write a program, said without the functions that read them. A derivation gives the program with
its spans, and counts by how many levels its constructs nest. Binary operators bind by their precedence and
group to the left, assignments to the right; parentheses leave no trace. Lists of arguments and parameters
may end with a comma only in the `loose` grammar.
-/

namespace JavaFold

namespace Grammar

open JavaFold.Parser (spanAll)

/-! ## Names and types -/

/-- A name that may have several parts. -/
inductive PathTokens : Spanned String → List (Spanned Token) → Prop
  | word {t : Spanned Token} {name : String} (ht : t.value = .identifier name) : PathTokens ⟨name, t.span⟩ [t]
  | part {path : Spanned String} {ts : List (Spanned Token)} {d t : Spanned Token} {name : String}
    (h : PathTokens path ts) (hd : d.value = .dot) (ht : t.value = .identifier name) :
    PathTokens ⟨path.value ++ "." ++ name, path.span.merge t.span⟩ (ts ++ [d, t])

/-- A type. -/
inductive TyTokens : Spanned Ty → List (Spanned Token) → Prop
  | word {t : Spanned Token} {word : Keyword} {ty : Ty} (ht : t.value = .keyword word)
    (h : (word, ty) ∈ [(.int, .int), (.boolean, .boolean), (.void, .void)]) : TyTokens ⟨ty, t.span⟩ [t]
  | path {path : Spanned String} {ts : List (Spanned Token)} (h : PathTokens path ts) :
    TyTokens ⟨.named path.value, path.span⟩ ts

/-! ## Expressions -/

/-- What expressions are made of: an expression that binds at least as tightly as a level, and arguments. -/
inductive ExprPart
  | expr (level : Nat) (e : Expr)
  | args (es : List Expr)

/-- The tokens of an expression or of arguments, and by how many levels they nest. -/
inductive ExprTokens (loose : Bool) : ExprPart → List (Spanned Token) → Nat → Prop
  | integer {t : Spanned Token} {value : Nat} (ht : t.value = .integer value) (h : value < Literal.intLimit) :
    ExprTokens loose (.expr 13 (.literal t.span (.int (.ofInt value)))) [t] 0
  | word {t : Spanned Token} {word : Keyword} {value : Literal} (ht : t.value = .keyword word)
    (h : (word, value) ∈ [(.«true», .bool true), (.«false», .bool false), (.«null», .null)]) :
    ExprTokens loose (.expr 13 (.literal t.span value)) [t] 0
  | string {t : Spanned Token} {text : String} (ht : t.value = .string text) :
    ExprTokens loose (.expr 13 (.literal t.span (.str text))) [t] 0
  | name {path : Spanned String} {ts : List (Spanned Token)} (h : PathTokens path ts) :
    ExprTokens loose (.expr 13 (.name path.span path.value)) ts 0
  | call {path : Spanned String} {ts us : List (Spanned Token)} {n : Nat} {args : List Expr}
    {l r : Spanned Token} (h : PathTokens path ts) (hl : l.value = .lparen) (hargs : ExprTokens loose (.args args) us n)
    (hr : r.value = .rparen) :
    ExprTokens loose (.expr 13 (.call (spanAll (ts ++ l :: (us ++ [r]))) path args)) (ts ++ l :: (us ++ [r])) n
  | parens {ts : List (Spanned Token)} {n : Nat} {e : Expr} {l r : Spanned Token} (hl : l.value = .lparen)
    (h : ExprTokens loose (.expr 0 e) ts n) (hr : r.value = .rparen) :
    ExprTokens loose (.expr 13 e) (l :: (ts ++ [r])) (n + 1)
  | postStep {ts : List (Spanned Token)} {n : Nat} {e : Expr} {t : Spanned Token} {op : StepOp}
    (h : ExprTokens loose (.expr 13 e) ts n) (hname : e.isName = true) (ht : t.value = .step op) :
    ExprTokens loose (.expr 12 (.postStep (e.span.merge t.span) op e)) (ts ++ [t]) n
  | negative {t v : Spanned Token} {value : Nat} (ht : t.value = .operator .sub) (hv : v.value = .integer value)
    (h : value ≤ Literal.intLimit) :
    ExprTokens loose (.expr 11 (.literal (t.span.merge v.span) (.int (.ofInt (-value))))) [t, v] 0
  | unary {ts : List (Spanned Token)} {n : Nat} {e : Expr} {t : Spanned Token} {op : UnaryOp}
    (ht : t.value = op.token) (h : ExprTokens loose (.expr 11 e) ts n)
    (hneg : op = .neg → ∀ u ∈ ts.head?, ∀ value, u.value ≠ .integer value)
    (hstep : ∀ s, op = .step s → e.isName = true) :
    ExprTokens loose (.expr 11 (.unary (t.span.merge e.span) op e)) (t :: ts) (n + 1)
  | binary {ts us : List (Spanned Token)} {n m : Nat} {lhs rhs : Expr} {t : Spanned Token} {op : BinaryOp}
    (hl : ExprTokens loose (.expr op.precedence lhs) ts n) (ht : t.value = .operator op)
    (hr : ExprTokens loose (.expr (op.precedence + 1) rhs) us m) :
    ExprTokens loose (.expr op.precedence (.binary (lhs.span.merge rhs.span) op lhs rhs)) (ts ++ t :: us) (max n m)
  | assign {ts us : List (Spanned Token)} {n m : Nat} {target value : Expr} {t : Spanned Token} {op : AssignOp}
    (h : ExprTokens loose (.expr 1 target) ts n) (hname : target.isName = true) (hop : op.Legal)
    (ht : t.value = op.token) (hvalue : ExprTokens loose (.expr 0 value) us m) :
    ExprTokens loose (.expr 0 (.assign (target.span.merge value.span) op target value)) (ts ++ t :: us) (max n m)
  | loosen {ts : List (Spanned Token)} {n level : Nat} {e : Expr} (h : ExprTokens loose (.expr (level + 1) e) ts n) :
    ExprTokens loose (.expr level e) ts n
  | nil : ExprTokens loose (.args []) [] 0
  | last {ts : List (Spanned Token)} {n : Nat} {e : Expr} (h : ExprTokens loose (.expr 0 e) ts n) :
    ExprTokens loose (.args [e]) ts (n + 1)
  | more {ts us : List (Spanned Token)} {n m : Nat} {e : Expr} {es : List Expr} {c : Spanned Token}
    (h : ExprTokens loose (.expr 0 e) ts n) (hc : c.value = .comma) (hes : ExprTokens loose (.args es) us m)
    (hlast : es = [] → loose = true) :
    ExprTokens loose (.args (e :: es)) (ts ++ c :: us) (max (n + 1) m)

/-- An expression that may be missing. -/
inductive OptionalTokens (loose : Bool) : Option Expr → List (Spanned Token) → Nat → Prop
  | none : OptionalTokens loose none [] 0
  | some {e : Expr} {ts : List (Spanned Token)} {n : Nat} (h : ExprTokens loose (.expr 0 e) ts n) :
    OptionalTokens loose (some e) ts (n + 1)

/-- The value of a variable, which may be missing. -/
inductive InitTokens (loose : Bool) : Option Expr → List (Spanned Token) → Nat → Prop
  | none : InitTokens loose none [] 0
  | some {e : Expr} {t : Spanned Token} {ts : List (Spanned Token)} {n : Nat} (ht : t.value = .assign)
    (h : ExprTokens loose (.expr 0 e) ts n) : InitTokens loose (some e) (t :: ts) (n + 1)

/-! ## Statements -/

/-- The declaration of a variable. -/
inductive DeclTokens (loose : Bool) : Spanned Ty → Spanned String → Option Expr → List (Spanned Token) → Nat → Prop
  | mk {ty : Spanned Ty} {init : Option Expr} {ts us : List (Spanned Token)} {n : Nat} {t : Spanned Token}
    {name : String} (hty : TyTokens ty ts) (hvoid : ty.value ≠ .void) (ht : t.value = .identifier name)
    (hinit : InitTokens loose init us n) : DeclTokens loose ty ⟨name, t.span⟩ init (ts ++ t :: us) n

/-- The first part of a `for`. -/
inductive ForInitTokens (loose : Bool) : Option Stmt → List (Spanned Token) → Nat → Prop
  | none : ForInitTokens loose none [] 0
  | localVar {ty : Spanned Ty} {name : Spanned String} {init : Option Expr} {ts : List (Spanned Token)} {n : Nat}
    (h : DeclTokens loose ty name init ts n) : ForInitTokens loose (some (.localVar (spanAll ts) ty name init)) ts n
  | expr {e : Expr} {ts : List (Spanned Token)} {n : Nat} (h : ExprTokens loose (.expr 0 e) ts n) :
    ForInitTokens loose (some (.expr e.span e)) ts (n + 1)

/-- What statements are made of: a statement, and statements one after the other. -/
inductive StmtPart
  | stmt (s : Stmt)
  | stmts (ss : List Stmt)

/-- The tokens of statements. A declaration stands in a block or a `for`, and an `else` belongs to the nearest
`if`. -/
inductive StmtTokens (loose : Bool) : StmtPart → List (Spanned Token) → Nat → Prop
  | block {ss : List Stmt} {ts : List (Spanned Token)} {n : Nat} {l r : Spanned Token} (hl : l.value = .lbrace)
    (h : StmtTokens loose (.stmts ss) ts n) (hr : r.value = .rbrace) :
    StmtTokens loose (.stmt (.block (spanAll (l :: (ts ++ [r]))) ss)) (l :: (ts ++ [r])) (n + 1)
  | expr {e : Expr} {ts : List (Spanned Token)} {n : Nat} {r : Spanned Token} (h : ExprTokens loose (.expr 0 e) ts n)
    (hr : r.value = .semicolon) : StmtTokens loose (.stmt (.expr (spanAll (ts ++ [r])) e)) (ts ++ [r]) (n + 1)
  | localVar {ty : Spanned Ty} {name : Spanned String} {init : Option Expr} {ts : List (Spanned Token)} {n : Nat}
    {r : Spanned Token} (h : DeclTokens loose ty name init ts n) (hr : r.value = .semicolon) :
    StmtTokens loose (.stmt (.localVar (spanAll (ts ++ [r])) ty name init)) (ts ++ [r]) n
  | ifElse {c : Expr} {s : Stmt} {cs ts : List (Spanned Token)} {n m : Nat} {k l r : Spanned Token}
    (hk : k.value = .keyword .«if») (hl : l.value = .lparen) (hcond : ExprTokens loose (.expr 0 c) cs n)
    (hr : r.value = .rparen) (h : StmtTokens loose (.stmt s) ts m) (hdecl : s.isDeclaration = false) :
    StmtTokens loose (.stmt (.ifElse (spanAll (k :: l :: (cs ++ r :: ts))) c s none)) (k :: l :: (cs ++ r :: ts))
      (max (n + 1) (m + 1))
  | ifElse_else {c : Expr} {s s' : Stmt} {cs ts us : List (Spanned Token)} {n m m' : Nat}
    {k l r k' : Spanned Token} (hk : k.value = .keyword .«if») (hl : l.value = .lparen)
    (hcond : ExprTokens loose (.expr 0 c) cs n) (hr : r.value = .rparen) (h : StmtTokens loose (.stmt s) ts m)
    (hdecl : s.isDeclaration = false) (htakes : s.takesElse = false) (hk' : k'.value = .keyword .«else»)
    (h' : StmtTokens loose (.stmt s') us m') (hdecl' : s'.isDeclaration = false) :
    StmtTokens loose (.stmt (.ifElse (spanAll (k :: l :: (cs ++ r :: (ts ++ k' :: us)))) c s (some s')))
      (k :: l :: (cs ++ r :: (ts ++ k' :: us))) (max (n + 1) (max (m + 1) (m' + 1)))
  | whileLoop {c : Expr} {s : Stmt} {cs ts : List (Spanned Token)} {n m : Nat} {k l r : Spanned Token}
    (hk : k.value = .keyword .«while») (hl : l.value = .lparen) (hcond : ExprTokens loose (.expr 0 c) cs n)
    (hr : r.value = .rparen) (h : StmtTokens loose (.stmt s) ts m) (hdecl : s.isDeclaration = false) :
    StmtTokens loose (.stmt (.whileLoop (spanAll (k :: l :: (cs ++ r :: ts))) c s)) (k :: l :: (cs ++ r :: ts))
      (max (n + 1) (m + 1))
  | forLoop {init : Option Stmt} {cond update : Option Expr} {s : Stmt} {is cs vs ts : List (Spanned Token)}
    {a b c n : Nat} {k l m m' r : Spanned Token} (hk : k.value = .keyword .«for») (hl : l.value = .lparen)
    (hinit : ForInitTokens loose init is a) (hm : m.value = .semicolon) (hcond : OptionalTokens loose cond cs b)
    (hm' : m'.value = .semicolon) (hupdate : OptionalTokens loose update vs c) (hr : r.value = .rparen)
    (h : StmtTokens loose (.stmt s) ts n) (hdecl : s.isDeclaration = false) :
    StmtTokens loose (.stmt (.forLoop (spanAll (k :: l :: (is ++ m :: (cs ++ m' :: (vs ++ r :: ts))))) init cond update s))
      (k :: l :: (is ++ m :: (cs ++ m' :: (vs ++ r :: ts)))) (max a (max b (max c (n + 1))))
  | ret {value : Option Expr} {ts : List (Spanned Token)} {n : Nat} {k r : Spanned Token}
    (hk : k.value = .keyword .«return») (h : OptionalTokens loose value ts n) (hr : r.value = .semicolon) :
    StmtTokens loose (.stmt (.ret (spanAll (k :: (ts ++ [r]))) value)) (k :: (ts ++ [r])) n
  | brk {k r : Spanned Token} (hk : k.value = .keyword .«break») (hr : r.value = .semicolon) :
    StmtTokens loose (.stmt (.brk (spanAll [k, r]))) [k, r] 0
  | cont {k r : Spanned Token} (hk : k.value = .keyword .«continue») (hr : r.value = .semicolon) :
    StmtTokens loose (.stmt (.cont (spanAll [k, r]))) [k, r] 0
  | empty {t : Spanned Token} (ht : t.value = .semicolon) : StmtTokens loose (.stmt (.empty t.span)) [t] 0
  | nil : StmtTokens loose (.stmts []) [] 0
  | cons {s : Stmt} {ss : List Stmt} {ts us : List (Spanned Token)} {n m : Nat} (h : StmtTokens loose (.stmt s) ts n)
    (hss : StmtTokens loose (.stmts ss) us m) : StmtTokens loose (.stmts (s :: ss)) (ts ++ us) (max n m)

/-! ## Classes -/

/-- Modifiers, none of them twice. -/
structure ModifierTokens (ms : List Modifier) (ts : List (Spanned Token)) : Prop where
  tokens : ts.map (·.value) = ms.map fun m => .keyword m.keyword
  nodup : ms.Nodup

/-- The parameters of a method. -/
inductive ParamTokens (loose : Bool) : List Param → List (Spanned Token) → Prop
  | nil : ParamTokens loose [] []
  | last {ty : Spanned Ty} {ts : List (Spanned Token)} {t : Spanned Token} {name : String} (hty : TyTokens ty ts)
    (ht : t.value = .identifier name) : ParamTokens loose [⟨ty.value, name⟩] (ts ++ [t])
  | more {ty : Spanned Ty} {ps : List Param} {ts us : List (Spanned Token)} {t c : Spanned Token} {name : String}
    (hty : TyTokens ty ts) (ht : t.value = .identifier name) (hc : c.value = .comma) (hps : ParamTokens loose ps us)
    (hlast : ps = [] → loose = true) : ParamTokens loose (⟨ty.value, name⟩ :: ps) (ts ++ t :: c :: us)

/-- A field or a method. -/
inductive MemberTokens (loose : Bool) : Member → List (Spanned Token) → Nat → Prop
  | field {ms : List Modifier} {ty : Spanned Ty} {init : Option Expr} {ts us vs : List (Spanned Token)} {n : Nat}
    {t r : Spanned Token} {name : String} (hms : ModifierTokens ms ts) (hty : TyTokens ty us) (hvoid : ty.value ≠ .void)
    (ht : t.value = .identifier name) (hinit : InitTokens loose init vs n) (hr : r.value = .semicolon) :
    MemberTokens loose (.field (spanAll (ts ++ (us ++ t :: (vs ++ [r])))) ⟨ms, ty, ⟨name, t.span⟩, init⟩)
      (ts ++ (us ++ t :: (vs ++ [r]))) n
  | method {ms : List Modifier} {ty : Spanned Ty} {ps : List Param} {ss : List Stmt}
    {ts us vs ws : List (Spanned Token)} {n : Nat} {t lp rp l r : Spanned Token} {name : String}
    (hms : ModifierTokens ms ts) (hty : TyTokens ty us) (ht : t.value = .identifier name) (hlp : lp.value = .lparen)
    (hps : ParamTokens loose ps vs) (hrp : rp.value = .rparen) (hl : l.value = .lbrace)
    (hss : StmtTokens loose (.stmts ss) ws n) (hr : r.value = .rbrace) :
    MemberTokens loose
      (.method (spanAll (ts ++ (us ++ t :: lp :: (vs ++ rp :: (l :: (ws ++ [r]))))))
        ⟨ms, ty, ⟨name, t.span⟩, ps, ⟨spanAll (l :: (ws ++ [r])), ss⟩⟩)
      (ts ++ (us ++ t :: lp :: (vs ++ rp :: (l :: (ws ++ [r]))))) (n + 1)

/-- Parts of a program, one after the other. -/
inductive Sequence {α : Type} (P : α → List (Spanned Token) → Nat → Prop) :
    List α → List (Spanned Token) → Nat → Prop
  | nil : Sequence P [] [] 0
  | cons {a : α} {as : List α} {ts us : List (Spanned Token)} {n m : Nat} (h : P a ts n)
    (has : Sequence P as us m) : Sequence P (a :: as) (ts ++ us) (max n m)

/-- A class. -/
inductive ClassTokens (loose : Bool) : ClassDecl → List (Spanned Token) → Nat → Prop
  | mk {ms : List Modifier} {members : List Member} {ts us : List (Spanned Token)} {n : Nat}
    {k t l r : Spanned Token} {name : String} (hms : ModifierTokens ms ts) (hk : k.value = .keyword .«class»)
    (ht : t.value = .identifier name) (hl : l.value = .lbrace) (hmembers : Sequence (MemberTokens loose) members us n)
    (hr : r.value = .rbrace) :
    ClassTokens loose ⟨spanAll (ts ++ k :: t :: l :: (us ++ [r])), ms, ⟨name, t.span⟩, members⟩
      (ts ++ k :: t :: l :: (us ++ [r])) n

end Grammar

/-- The tokens write the program, and nest by `need` levels. -/
def CompilationUnit.Derives (loose : Bool) (unit : CompilationUnit) (ts : List (Spanned Token)) (need : Nat) :
    Prop :=
  Grammar.Sequence (Grammar.ClassTokens loose) unit.classes ts need

end JavaFold
