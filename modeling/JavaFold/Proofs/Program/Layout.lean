import JavaFold.Program.Unit.Printer
import JavaFold.Proofs.Token.Spelling

/-!
# Layouts

What a printed program is made of, before its comments are put in: tokens, blanks between them, the
openings of statements, members and classes, where comments on lines of their own go, and the endings of
simple statements and fields, where a comment at the end of the line goes. The layout of a program is a list
of such segments; the printer writes them one after the other (`CompilationUnit.text_eq`).
-/

namespace JavaFold

open Writer (tab maxWidth lineWidth isBlock isMethod Position)

/-- A part of a printed program. -/
inductive Segment
  /-- Blanks. -/
  | gap (text : String)
  | token (t : Token)
  /-- The comments before something that starts at `start`, and its indentation. -/
  | opening (indent : String) (start : Nat)
  /-- A semicolon, the comment after something that ends at `stop`, and a line end. -/
  | ending (stop : Nat)
  /-- The comments that are left. -/
  | remaining
deriving DecidableEq, Repr

namespace Segment

/-- How the printer writes a segment. -/
def write : Segment → Writer String
  | gap text => return text
  | token t => return t.spelling
  | opening indent start => return (← Writer.leading indent start) ++ indent
  | ending stop => return ";" ++ (← Writer.trailing stop) ++ "\n"
  | remaining => Writer.remaining

/-- How the printer writes segments. -/
def writeAll : List Segment → Writer String
  | [] => return ""
  | s :: ss => do
    let first ← s.write
    return first ++ (← writeAll ss)

/-- The tokens of segments. -/
def tokens : List Segment → List Token
  | [] => []
  | token t :: ss => t :: tokens ss
  | ending _ :: ss => .semicolon :: tokens ss
  | _ :: ss => tokens ss

/-- Segments in parentheses if `needed`. -/
def parens (needed : Bool) (ss : List Segment) : List Segment :=
  if needed then token .lparen :: (ss ++ [token .rparen]) else ss

end Segment

open Segment

/-! ## Layouts of the parts of a program -/

namespace Token

/-- Words with dots between them. -/
def ofWords : List (List Char) → List Token
  | [] => []
  | [w] => [identifier (.ofList w)]
  | w :: ws => identifier (.ofList w) :: dot :: ofWords ws

theorem ofWords_cons_cons (w v : List Char) (ws : List (List Char)) :
    ofWords (w :: v :: ws) = identifier (.ofList w) :: dot :: ofWords (v :: ws) := rfl

/-- The tokens of a dotted name. -/
def ofPath (path : String) : List Token := ofWords (path.toList.splitOn '.')

end Token

/-- The tokens of a literal. A negative number has a sign in front of it. -/
def Literal.tokens : Literal → List Token
  | int n => if n.toInt < 0 then [.operator .sub, .integer n.toInt.natAbs] else [.integer n.toInt.natAbs]
  | bool b => [.keyword (if b then .«true» else .«false»)]
  | str s => [.string s]
  | null => [.keyword .«null»]

def Ty.tokens : Ty → List Token
  | int => [.keyword .int]
  | boolean => [.keyword .boolean]
  | void => [.keyword .void]
  | named name => Token.ofPath name

def UnaryOp.token : UnaryOp → Token
  | neg => .operator .sub
  | not => .bang
  | bitNot => .tilde
  | step op => .step op

/-- The token of an assignment. An operator without a compound form is written like a plain one. -/
def AssignOp.token : AssignOp → Token
  | plain => .assign
  | compound op => if op.hasCompound then .compound op else .assign

namespace Expr

mutual

/-- The layout of an expression on one line. -/
def layout : Expr → List Segment
  | literal _ value => value.tokens.map token
  | name _ n => (Token.ofPath n).map token
  | binary _ op lhs rhs =>
    parens (lhs.level < op.precedence) (layout lhs) ++
      gap " " :: token (.operator op) :: gap " " :: parens (rhs.level < op.precedence + 1) (layout rhs)
  | unary _ op operand =>
    token op.token ::
      parens (op.clashesWith (parenthesized (operand.level < unaryLevel) operand.text))
        (parens (operand.level < unaryLevel) (layout operand))
  | postStep _ op operand => parens (operand.level < postLevel) (layout operand) ++ [token (.step op)]
  | assign _ op target value =>
    parens (target.level < postLevel) (layout target) ++
      gap " " :: token op.token :: gap " " :: layout value
  | call _ path args =>
    (Token.ofPath path.value).map token ++ token .lparen :: (layouts args ++ [token .rparen])

/-- The layout of expressions on one line. -/
def layouts : List Expr → List Segment
  | [] => []
  | [e] => layout e
  | e :: es => layout e ++ token .comma :: gap " " :: layouts es

end

theorem layouts_cons_cons (e e₂ : Expr) (es : List Expr) :
    layouts (e :: e₂ :: es) = e.layout ++ token .comma :: gap " " :: layouts (e₂ :: es) := rfl

/-- The layout of the arguments of a call, one a line. -/
def lineLayouts (indent : String) : List Expr → List Segment
  | [] => []
  | [e] => gap indent :: (e.layout ++ [gap "\n"])
  | e :: es => gap indent :: (e.layout ++ token .comma :: gap "\n" :: lineLayouts indent es)

theorem lineLayouts_cons_cons (indent : String) (e e₂ : Expr) (es : List Expr) :
    lineLayouts indent (e :: e₂ :: es) =
      gap indent :: (e.layout ++ token .comma :: gap "\n" :: lineLayouts indent (e₂ :: es)) := rfl

/-- The layout of an expression after `line`. -/
def wrapped (indent line : String) (e : Expr) : List Segment :=
  if lineWidth line + e.text.utf8ByteSize ≤ maxWidth then e.layout
  else match e with
    | .call _ path args@(_ :: _) =>
      (Token.ofPath path.value).map token ++ token .lparen :: gap "\n" ::
        (lineLayouts (indent ++ tab) args ++ [gap indent, token .rparen])
    | _ => e.layout

/-- The layout of an optional expression in the header of a `for`. -/
def headerLayout : Option Expr → List Segment
  | none => []
  | some e => gap " " :: e.layout

end Expr

/-- The layout of a type and a name. -/
def declLayout (ty : Ty) (name : String) : List Segment :=
  ty.tokens.map token ++ [gap " ", token (.identifier name)]

/-- The layout of the value of a variable after `line`. -/
def initLayout (indent line : String) : Option Expr → List Segment
  | none => []
  | some e => gap " " :: token .assign :: gap " " :: e.wrapped indent (line ++ " = ")

namespace Stmt

/-- The indentation of a statement. -/
def indentAt : Position → String → String
  | .ownLine, indent => indent
  | .body, indent | .afterElse, indent => indent ++ tab

/-- What comes before a statement that starts at `start`. -/
def openingAt : Position → String → Nat → List Segment
  | .ownLine, indent, start => [opening indent start]
  | .body, indent, start | .afterElse, indent, start => [gap "\n", opening (indent ++ tab) start]

/-- The layout of a declaration or expression after `line`, without its semicolon. -/
def simpleLayout (indent line : String) : Stmt → List Segment
  | .localVar _ ty name init =>
    declLayout ty.value name.value ++
      initLayout indent (line ++ (ty.value.text ++ " " ++ name.value)) init
  | .expr _ e => e.wrapped indent line
  | _ => []

/-- The line end after a body. -/
def endLayout (body : Stmt) : List Segment := if isBlock body then [gap "\n"] else []

mutual

/-- The layout of a statement. -/
def layout (position : Position) (indent : String) : Stmt → List Segment
  | .block span body =>
    match position with
    | .ownLine =>
      opening indent span.start :: token .lbrace :: gap "\n" ::
        (layouts (indent ++ tab) body ++ [gap indent, token .rbrace, gap "\n"])
    | .body | .afterElse =>
      gap " " :: token .lbrace :: gap "\n" ::
        (layouts (indent ++ tab) body ++ [gap indent, token .rbrace])
  | .ifElse span cond thenBranch elseBranch =>
    let inner := if position = .afterElse then indent else indentAt position indent
    (if position = .afterElse then [gap " "] else openingAt position indent span.start) ++
      token (.keyword .«if») :: gap " " :: token .lparen :: (cond.layout ++ token .rparen ::
        (layout .body inner thenBranch ++
          match elseBranch with
          | none => endLayout thenBranch
          | some e =>
            gap (if isBlock thenBranch then " " else inner) :: token (.keyword .«else») ::
              (layout .afterElse inner e ++ endLayout e)))
  | .whileLoop span cond body =>
    openingAt position indent span.start ++
      token (.keyword .«while») :: gap " " :: token .lparen :: (cond.layout ++ token .rparen ::
        (layout .body (indentAt position indent) body ++ endLayout body))
  | .forLoop span init cond update body =>
    let inner := indentAt position indent
    openingAt position indent span.start ++
      token (.keyword .«for») :: gap " " :: token .lparen ::
        ((init.map (simpleLayout inner (inner ++ "for ("))).getD [] ++ token .semicolon ::
          (Expr.headerLayout cond ++ token .semicolon :: (Expr.headerLayout update ++ token .rparen ::
            (layout .body inner body ++ endLayout body))))
  | .ret span value =>
    let inner := indentAt position indent
    openingAt position indent span.start ++ token (.keyword .«return») ::
      ((match value with
        | none => []
        | some e => gap " " :: e.wrapped inner (inner ++ "return ")) ++ [ending span.stop])
  | .brk span => openingAt position indent span.start ++ [token (.keyword .«break»), ending span.stop]
  | .cont span =>
    openingAt position indent span.start ++ [token (.keyword .«continue»), ending span.stop]
  | .empty span => openingAt position indent span.start ++ [ending span.stop]
  | .expr span value =>
    let inner := indentAt position indent
    openingAt position indent span.start ++ (value.wrapped inner inner ++ [ending span.stop])
  | .localVar span ty name init =>
    let inner := indentAt position indent
    openingAt position indent span.start ++
      (simpleLayout inner inner (.localVar span ty name init) ++ [ending span.stop])

/-- The layout of statements, each on its own line. -/
def layouts (indent : String) : List Stmt → List Segment
  | [] => []
  | s :: ss => layout .ownLine indent s ++ layouts indent ss

end

end Stmt

/-- The layout of modifiers. -/
def Modifier.layouts (ms : List Modifier) : List Segment :=
  ms.flatMap fun m => [token (.keyword m.keyword), gap " "]

/-- The layout of parameters. -/
def Param.layouts : List Param → List Segment
  | [] => []
  | [p] => declLayout p.ty p.name
  | p :: ps => declLayout p.ty p.name ++ token .comma :: gap " " :: layouts ps

theorem Param.layouts_cons_cons (p p₂ : Param) (ps : List Param) : layouts (p :: p₂ :: ps) =
    declLayout p.ty p.name ++ token .comma :: gap " " :: layouts (p₂ :: ps) := rfl

namespace Member

/-- The layout of a field or method. -/
def layout (indent : String) : Member → List Segment
  | .field span d =>
    opening indent span.start :: (Modifier.layouts d.modifiers ++ declLayout d.ty.value d.name.value ++
      initLayout indent
        (indent ++ (Writer.modifiers d.modifiers ++ d.ty.value.text ++ " " ++ d.name.value)) d.init ++
      [ending span.stop])
  | .method span d =>
    opening indent span.start :: (Modifier.layouts d.modifiers ++ declLayout d.ret.value d.name.value ++
      token .lparen :: (Param.layouts d.params ++ token .rparen :: gap " " :: token .lbrace :: gap "\n" ::
        (Stmt.layouts (indent ++ tab) d.body.stmts ++ [gap indent, token .rbrace, gap "\n"])))

/-- The layout of the members after `previous`. -/
def layoutsAfter (indent : String) (previous : Member) : List Member → List Segment
  | [] => []
  | m :: ms =>
    (if isMethod previous || isMethod m then [gap "\n"] else []) ++
      (m.layout indent ++ layoutsAfter indent m ms)

/-- The layout of members. -/
def layouts (indent : String) : List Member → List Segment
  | [] => []
  | m :: ms => m.layout indent ++ layoutsAfter indent m ms

end Member

namespace ClassDecl

/-- The layout of a class. -/
def layout (c : ClassDecl) : List Segment :=
  opening "" c.span.start :: (Modifier.layouts c.modifiers ++
    token (.keyword .«class») :: gap " " :: token (.identifier c.name.value) :: gap " " ::
      token .lbrace :: gap "\n" :: (Member.layouts tab c.members ++ [token .rbrace, gap "\n"]))

/-- The layout of classes. -/
def layouts : List ClassDecl → List Segment
  | [] => []
  | [c] => c.layout
  | c :: cs => c.layout ++ gap "\n" :: layouts cs

theorem layouts_cons_cons (c d : ClassDecl) (cs : List ClassDecl) :
    layouts (c :: d :: cs) = c.layout ++ gap "\n" :: layouts (d :: cs) := rfl

end ClassDecl

/-- The layout of a program. -/
def CompilationUnit.layout (unit : CompilationUnit) : List Segment :=
  ClassDecl.layouts unit.classes ++ [remaining]

/-! ## The printer writes layouts -/

namespace Segment

theorem writeAll_cons (s : Segment) (ss : List Segment) :
    writeAll (s :: ss) = (do
      let first ← s.write
      return first ++ (← writeAll ss)) := rfl

theorem writeAll_append (as bs : List Segment) :
    writeAll (as ++ bs) = (do
      let first ← writeAll as
      return first ++ (← writeAll bs)) := by
  induction as with
  | nil => simp only [List.nil_append, writeAll, pure_bind, String.empty_append, bind_pure]
  | cons s ss ih =>
    simp only [List.cons_append, writeAll_cons, ih, bind_assoc, pure_bind, String.append_assoc]

/-- Tokens one after the other. -/
theorem writeAll_tokens (ts : List Token) :
    writeAll (ts.map token) = pure (String.join (ts.map Token.spelling)) := by
  induction ts with
  | nil => rfl
  | cons t ts ih => simp only [List.map_cons, writeAll_cons, write, ih, pure_bind, String.join_cons]

theorem writeAll_parens {ss : List Segment} {text : String} (h : writeAll ss = pure text)
    (needed : Bool) : writeAll (parens needed ss) = pure (parenthesized needed text) := by
  cases needed with
  | false => exact h
  | true =>
    simp only [parens, parenthesized, if_true, writeAll_cons, writeAll_append, write, h, writeAll,
      pure_bind, Token.spelling, String.append_empty, String.append_assoc]

end Segment

namespace Token

theorem join_ofWords : ∀ ws : List (List Char),
    String.join ((ofWords ws).map spelling) = String.ofList (['.'].intercalate ws)
  | [] => rfl
  | [w] => by
    rw [ofWords, List.map_cons, List.map_nil, String.join_cons, String.join_nil, String.append_empty,
      List.intercalate_singleton, spelling]
  | w :: v :: ws => by
    rw [ofWords_cons_cons, List.map_cons, List.map_cons, String.join_cons, String.join_cons, join_ofWords (v :: ws),
      List.intercalate_cons_cons, String.ofList_append, String.ofList_append, spelling, spelling,
      String.append_assoc]

/-- The tokens of a dotted name write it. -/
theorem join_ofPath (path : String) : String.join ((ofPath path).map spelling) = path := by
  rw [ofPath, join_ofWords, List.intercalate_splitOn, String.ofList_toList]

end Token

theorem Literal.join_tokens (v : Literal) : String.join (v.tokens.map Token.spelling) = v.text := by
  cases v with
  | int n =>
    rw [tokens, text, intText]
    cases n.toInt with
    | ofNat k =>
      rw [if_neg (show ¬Int.ofNat k < 0 from Int.not_lt.mpr (Int.natCast_nonneg k)), List.map_cons, List.map_nil,
        String.join_cons, String.join_nil, String.append_empty]
      rfl
    | negSucc k =>
      rw [if_pos (Int.negSucc_lt_zero k), List.map_cons, List.map_cons, List.map_nil, String.join_cons,
        String.join_cons, String.join_nil, String.append_empty]
      rfl
  | bool b => cases b <;> rfl
  | str s => rfl
  | null => rfl

theorem Ty.join_tokens (ty : Ty) : String.join (ty.tokens.map Token.spelling) = ty.text := by
  cases ty with
  | named name => exact Token.join_ofPath name
  | _ => rfl

theorem UnaryOp.spelling_token (op : UnaryOp) : op.token.spelling = op.symbol := by
  cases op <;> rfl

theorem AssignOp.spelling_token (op : AssignOp) : op.token.spelling = op.symbol := by
  cases op with
  | plain => rfl
  | compound op =>
    rw [token, symbol]
    split <;> rfl

namespace Expr

mutual

/-- An expression is written on one line as its layout. -/
theorem writeAll_layout : ∀ e : Expr, writeAll e.layout = pure e.text
  | literal _ v => by rw [layout, writeAll_tokens, v.join_tokens, text]
  | name _ n => by rw [layout, writeAll_tokens, Token.join_ofPath, text]
  | binary _ op l r => by
    simp only [layout, text, writeAll_append, writeAll_cons, write,
      writeAll_parens (writeAll_layout l), writeAll_parens (writeAll_layout r), pure_bind,
      Token.spelling, String.append_assoc]
  | unary _ op e => by
    simp only [layout, text, writeAll_cons, write, UnaryOp.spelling_token,
      writeAll_parens (writeAll_parens (writeAll_layout e) _), pure_bind]
  | postStep _ op e => by
    simp only [layout, text, writeAll_append, write, writeAll,
      writeAll_parens (writeAll_layout e), pure_bind, Token.spelling, String.append_empty]
  | assign _ op t v => by
    simp only [layout, text, writeAll_append, writeAll_cons, write, writeAll_parens (writeAll_layout t),
      writeAll_layout v, pure_bind, AssignOp.spelling_token, String.append_assoc]
  | call _ path args => by
    simp only [layout, text, writeAll_append, write, writeAll_tokens, Token.join_ofPath,
      writeAll_layouts args, writeAll, pure_bind, Token.spelling, String.append_empty,
      String.append_assoc]

theorem writeAll_layouts : ∀ es : List Expr, writeAll (layouts es) = pure (", ".intercalate (texts es))
  | [] => by simp only [layouts, writeAll, texts, String.intercalate_nil]
  | [e] => by simp only [layouts, writeAll_layout e, texts, String.intercalate_singleton]
  | e :: e' :: es => by
    simp only [layouts, texts, writeAll_append, writeAll_cons, write, writeAll_layout e,
      writeAll_layouts (e' :: es), String.intercalate_cons_cons, pure_bind, Token.spelling,
      String.append_assoc]
    rfl

end

theorem writeAll_lineLayouts (indent : String) : ∀ es : List Expr,
    writeAll (lineLayouts indent es) = pure (Writer.argLines indent es)
  | [] => rfl
  | [e] => by
    simp only [lineLayouts, Writer.argLines, writeAll_append, writeAll_cons, write, writeAll_layout, writeAll,
      pure_bind, String.append_empty, String.append_assoc]
  | e :: e' :: es => by
    simp only [lineLayouts, Writer.argLines, writeAll_append, writeAll_cons, write, writeAll_layout,
      writeAll_lineLayouts indent (e' :: es), pure_bind, Token.spelling, String.append_assoc]
    rfl

theorem writeAll_wrapped (indent line : String) (e : Expr) :
    writeAll (e.wrapped indent line) = pure (Writer.wrapped indent line e) := by
  unfold wrapped Writer.wrapped
  split
  · exact writeAll_layout e
  · cases e with
    | call span path args =>
      cases args with
      | nil => exact writeAll_layout _
      | cons arg args =>
        simp only [writeAll_append, write, writeAll_tokens, Token.join_ofPath, writeAll_lineLayouts,
          writeAll, pure_bind, Token.spelling, String.append_empty, String.append_assoc]
        rfl
    | _ => exact writeAll_layout _

theorem writeAll_headerLayout (e : Option Expr) :
    writeAll (headerLayout e) = pure (Writer.headerPart e) := by
  cases e with
  | none => rfl
  | some e => simp only [headerLayout, Writer.headerPart, writeAll_cons, write, writeAll_layout, pure_bind]

end Expr

theorem writeAll_declLayout (ty : Ty) (name : String) :
    writeAll (declLayout ty name) = pure (ty.text ++ " " ++ name) := by
  simp only [declLayout, writeAll_append, write, writeAll, writeAll_tokens, Ty.join_tokens, pure_bind,
    Token.spelling, String.append_empty, String.append_assoc]

theorem writeAll_initLayout (indent line : String) (e : Option Expr) :
    writeAll (initLayout indent line e) = pure (match e with
      | none => ""
      | some e => " = " ++ Writer.wrapped indent (line ++ " = ") e) := by
  cases e with
  | none => rfl
  | some e =>
    simp only [initLayout, writeAll_cons, write, Expr.writeAll_wrapped, pure_bind, Token.spelling,
      ← String.append_assoc]
    rfl

namespace Stmt

theorem writeAll_simpleLayout (indent line : String) (s : Stmt) :
    writeAll (s.simpleLayout indent line) = pure (Writer.simple indent line s) := by
  cases s with
  | localVar span ty name init =>
    cases init with
    | none =>
      simp only [simpleLayout, Writer.simple, writeAll_append, writeAll_declLayout, writeAll_initLayout,
        pure_bind, String.append_empty]
    | some e =>
      simp only [simpleLayout, Writer.simple, writeAll_append, writeAll_declLayout, writeAll_initLayout,
        pure_bind, String.append_assoc]
  | expr span e => exact Expr.writeAll_wrapped indent line e
  | _ => rfl

theorem writeAll_endLayout (body : Stmt) : writeAll (endLayout body) = pure (Writer.bodyEnd body) := by
  unfold endLayout Writer.bodyEnd
  split <;> rfl

theorem opening_eq (position : Position) (indent : String) (start : Nat) :
    Writer.opening position indent start = (do
      return (← writeAll (openingAt position indent start), indentAt position indent)) := by
  cases position <;>
    simp only [Writer.opening, openingAt, indentAt, writeAll, write, bind_assoc, pure_bind,
      String.append_empty, String.append_assoc]

mutual

/-- A statement is written as its layout. -/
theorem stmt_eq (position : Position) (indent : String) : ∀ s : Stmt,
    Writer.stmt position indent s = writeAll (s.layout position indent)
  | .block span body => by
    cases position <;>
    simp only [Writer.stmt, layout, stmts_eq _ body, writeAll_append, writeAll, write, bind_assoc,
      pure_bind, Token.spelling, String.append_empty, String.append_assoc] <;> rfl
  | .ifElse span cond thenBranch elseBranch => by
    cases elseBranch with
    | none =>
      cases position <;>
      simp only [Writer.stmt, layout, opening_eq, stmt_eq _ _ thenBranch, writeAll_append, writeAll,
        write, Expr.writeAll_layout, writeAll_endLayout, bind_assoc, pure_bind, Token.spelling,
        String.append_assoc, reduceCtorEq, if_false, if_true] <;> rfl
    | some e =>
      cases position <;>
      simp only [Writer.stmt, layout, opening_eq, stmt_eq _ _ thenBranch, stmt_eq _ _ e, writeAll_append,
        writeAll, write, Expr.writeAll_layout, writeAll_endLayout, bind_assoc, pure_bind,
        Token.spelling, String.append_assoc, reduceCtorEq, if_false, if_true] <;> rfl
  | .whileLoop span cond body => by
    simp only [Writer.stmt, layout, opening_eq, stmt_eq _ _ body, writeAll_append, writeAll_cons, write,
      Expr.writeAll_layout, writeAll_endLayout, bind_assoc, pure_bind, Token.spelling, String.append_assoc]
    rfl
  | .forLoop span init cond update body => by
    cases init <;>
    simp only [Writer.stmt, layout, opening_eq, stmt_eq _ _ body, writeAll_append, writeAll_cons, write,
      Expr.writeAll_headerLayout, writeAll_simpleLayout, writeAll_endLayout, bind_assoc, pure_bind,
      Token.spelling, String.append_assoc, Option.map_none, Option.map_some, Option.getD_none,
      Option.getD_some, String.empty_append, List.nil_append] <;> rfl
  | .ret span value => by
    cases value <;>
    simp only [Writer.stmt, layout, opening_eq, writeAll_append, writeAll, write, Expr.writeAll_wrapped,
      bind_assoc, pure_bind, Token.spelling, String.append_empty, String.append_assoc,
      List.nil_append] <;> rfl
  | .brk span => by
    simp only [Writer.stmt, layout, opening_eq, writeAll_append, writeAll, write, bind_assoc, pure_bind,
      Token.spelling, String.append_empty, String.append_assoc]
    rfl
  | .cont span => by
    simp only [Writer.stmt, layout, opening_eq, writeAll_append, writeAll, write, bind_assoc, pure_bind,
      Token.spelling, String.append_empty, String.append_assoc]
    rfl
  | .empty span => by
    simp only [Writer.stmt, layout, opening_eq, writeAll_append, writeAll, write, bind_assoc, pure_bind,
      String.append_empty, String.append_assoc]
  | .expr span value => by
    simp only [Writer.stmt, layout, opening_eq, writeAll_append, writeAll, write, Expr.writeAll_wrapped,
      bind_assoc, pure_bind, String.append_empty, String.append_assoc]
  | .localVar span ty name init => by
    simp only [Writer.stmt, layout, opening_eq, writeAll_append, writeAll, write, writeAll_simpleLayout,
      bind_assoc, pure_bind, String.append_empty, String.append_assoc]

theorem stmts_eq (indent : String) : ∀ ss : List Stmt,
    Writer.stmts indent ss = writeAll (layouts indent ss)
  | [] => rfl
  | s :: ss => by
    simp only [Writer.stmts, layouts, writeAll_append, stmt_eq _ _ s, stmts_eq _ ss]

end

end Stmt

theorem Modifier.writeAll_layouts (ms : List Modifier) :
    writeAll (layouts ms) = pure (Writer.modifiers ms) := by
  induction ms with
  | nil => rfl
  | cons m ms ih =>
    have hcons : layouts (m :: ms) = token (.keyword m.keyword) :: gap " " :: layouts ms := rfl
    have htext : Writer.modifiers (m :: ms) = m.text ++ " " ++ Writer.modifiers ms := String.join_cons
    simp only [hcons, htext, writeAll_cons, write, ih, pure_bind, String.append_assoc]
    rfl

theorem Param.writeAll_layouts : ∀ ps : List Param, writeAll (layouts ps) = pure (listText ps)
  | [] => rfl
  | [p] => by
    simp only [layouts, listText, writeAll_declLayout, List.map_cons, List.map_nil,
      String.intercalate_singleton, text]
  | p :: q :: ps => by
    have ih := writeAll_layouts (q :: ps)
    rw [listText, List.map_cons] at ih
    simp only [layouts, listText, List.map_cons, writeAll_append, writeAll_cons, write,
      writeAll_declLayout, ih, String.intercalate_cons_cons, pure_bind, Token.spelling, text,
      String.append_assoc]
    rfl

namespace Member

/-- A field or method is written as its layout. -/
theorem member_eq (indent : String) (m : Member) :
    Writer.member indent m = writeAll (m.layout indent) := by
  cases m with
  | field span d =>
    obtain ⟨modifiers, ty, name, init⟩ := d
    cases init <;>
      simp only [Writer.member, Writer.field, layout, writeAll_append, writeAll, write,
        Modifier.writeAll_layouts, writeAll_declLayout, writeAll_initLayout, bind_assoc, pure_bind,
        String.append_empty, String.append_assoc]
  | method span d =>
    simp only [Writer.member, Writer.method, layout, Stmt.stmts_eq, writeAll_append, writeAll, write,
      Modifier.writeAll_layouts, writeAll_declLayout, Param.writeAll_layouts, bind_assoc, pure_bind,
      Token.spelling, String.append_empty, String.append_assoc]
    rfl

theorem membersAfter_eq (indent : String) : ∀ (previous : Member) (ms : List Member),
    Writer.membersAfter indent previous ms = writeAll (layoutsAfter indent previous ms)
  | _, [] => rfl
  | previous, m :: ms => by
    have hgap : writeAll (if isMethod previous || isMethod m then [gap "\n"] else []) =
        pure (if isMethod previous || isMethod m then "\n" else "") := by
      split <;> rfl
    simp only [Writer.membersAfter, layoutsAfter, member_eq, membersAfter_eq indent m ms,
      writeAll_append, hgap, bind_assoc, pure_bind, String.append_assoc]

theorem members_eq (indent : String) (ms : List Member) :
    Writer.members indent ms = writeAll (layouts indent ms) := by
  cases ms with
  | nil => rfl
  | cons m ms => simp only [Writer.members, layouts, member_eq, membersAfter_eq, writeAll_append]

end Member

namespace ClassDecl

/-- A class is written as its layout. -/
theorem classDecl_eq (c : ClassDecl) : Writer.classDecl c = writeAll c.layout := by
  simp only [Writer.classDecl, layout, Member.members_eq, writeAll_append, writeAll, write,
    Modifier.writeAll_layouts, bind_assoc, pure_bind, Token.spelling, String.append_empty,
    String.append_assoc]
  rfl

theorem classes_eq : ∀ cs : List ClassDecl, Writer.classes cs = writeAll (layouts cs)
  | [] => rfl
  | [c] => by rw [Writer.classes, classDecl_eq, layouts]
  | c :: d :: cs => by
    simp only [Writer.classes, layouts, classDecl_eq, classes_eq (d :: cs), writeAll_append, writeAll_cons,
      write, bind_assoc, pure_bind, String.append_assoc]

end ClassDecl

/-- A program is written as its layout, with one line end at the end. -/
theorem CompilationUnit.text_eq (unit : CompilationUnit) (comments : List Comment) :
    unit.text comments = Writer.endLine ((writeAll unit.layout).run comments).1 := by
  simp only [text, layout, ClassDecl.classes_eq, writeAll_append, writeAll, write, bind_assoc, pure_bind,
    String.append_empty]

end JavaFold
