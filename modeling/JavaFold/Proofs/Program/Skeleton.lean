import JavaFold.Proofs.Folding.Comments
import JavaFold.Proofs.Program.Grammar.Accepted
import JavaFold.Proofs.Program.Reread.Unit
import JavaFold.Proofs.Program.Shape
import JavaFold.Proofs.Tree.Reachable

/-!
# Which `if` an `else` is read back to

The marks of a program are found in its tokens by leaving out everything in parentheses (`skeleton`). The
tokens that a program is written with have the marks of its shape, and so do the tokens that a program is read
from; in what is read each `else` belongs to the nearest `if`. So a printed tree is read back with each `else`
at its `if` just if it belonged to the nearest one in the tree (`Tree.owners_reread`): the printer puts no braces
around a branch in front of an `else`.
-/

namespace JavaFold

open Segment (tokens)
open Writer (Position tab)

/-- The mark of a token outside parentheses. -/
def Token.mark? : Token → Option Mark
  | semicolon => some .stop
  | lbrace => some .opens
  | rbrace => some .closes
  | keyword .«while» | keyword .«for» => some .loop
  | keyword .«if» => some .branch
  | keyword .«else» => some .otherwise
  | _ => none

/-- The marks of tokens, the first of which stands in parentheses `depth` deep. -/
def skeleton : Nat → List Token → List Mark
  | _, [] => []
  | depth, t :: ts =>
    if t = .lparen then skeleton (depth + 1) ts
    else if t = .rparen then skeleton (depth - 1) ts
    else if depth = 0 then t.mark?.toList ++ skeleton 0 ts
    else skeleton depth ts

/-! ## Tokens without marks -/

/-- A token that is no parenthesis and leaves no mark. -/
def Token.isQuiet : Token → Bool
  | lparen | rparen => false
  | t => t.mark?.isNone

/-- Tokens that leave no mark, wherever they stand. -/
def Quiet (ts : List Token) : Prop := ∀ depth rest, skeleton depth (ts ++ rest) = skeleton depth rest

/-- Tokens that leave no mark in parentheses. -/
def Hidden (ts : List Token) : Prop := ∀ depth rest, skeleton (depth + 1) (ts ++ rest) = skeleton (depth + 1) rest

section Quiet

variable {t : Token} {ts us : List Token}

theorem skeleton_cons (ht : t.isQuiet = true) (depth : Nat) (rest : List Token) :
    skeleton depth (t :: rest) = skeleton depth rest := by
  have hl : t ≠ .lparen := by
    rintro rfl
    cases ht
  have hr : t ≠ .rparen := by
    rintro rfl
    cases ht
  have hmark : t.mark? = none := by
    cases t <;> simp_all [Token.isQuiet]
  rw [skeleton, if_neg hl, if_neg hr, hmark]
  split
  · next hdepth => rw [hdepth]; rfl
  · rfl

theorem quiet_nil : Quiet [] := fun _ _ => rfl

theorem Quiet.append (h : Quiet ts) (h' : Quiet us) : Quiet (ts ++ us) := fun depth rest => by
  rw [List.append_assoc, h, h']

theorem Quiet.cons (ht : t.isQuiet = true) (h : Quiet ts) : Quiet (t :: ts) := fun depth rest => by
  rw [List.cons_append, skeleton_cons ht, h]

theorem quiet_of_forall (h : ∀ t ∈ ts, t.isQuiet = true) : Quiet ts := by
  induction ts with
  | nil => exact quiet_nil
  | cons t ts ih =>
    have ⟨ht, hts⟩ := List.forall_mem_cons.mp h
    exact (ih hts).cons ht

theorem Quiet.hidden (h : Quiet ts) : Hidden ts := fun depth => h (depth + 1)

theorem Hidden.append (h : Hidden ts) (h' : Hidden us) : Hidden (ts ++ us) := fun depth rest => by
  rw [List.append_assoc, h, h']

/-- In parentheses a semicolon ends no statement. -/
theorem Hidden.semicolon (h : Hidden ts) : Hidden (.semicolon :: ts) := fun depth rest => by
  rw [List.cons_append, skeleton, if_neg (by decide), if_neg (by decide), if_neg (Nat.succ_ne_zero depth), h]

theorem Hidden.parens (h : Hidden ts) : Quiet (.lparen :: (ts ++ [.rparen])) := fun depth rest => by
  rw [List.cons_append, List.append_assoc, skeleton, if_pos rfl, h, List.singleton_append, skeleton,
    if_neg (by decide), if_pos rfl, Nat.add_sub_cancel]

/-- Tokens that leave the marks, outside parentheses. -/
def Marked (ts : List Token) (ms : List Mark) : Prop := ∀ rest, skeleton 0 (ts ++ rest) = ms ++ skeleton 0 rest

variable {ms ns : List Mark} {m : Mark}

theorem Quiet.marked (h : Quiet ts) : Marked ts [] := h 0

theorem Marked.append (h : Marked ts ms) (h' : Marked us ns) : Marked (ts ++ us) (ms ++ ns) := fun rest => by
  rw [List.append_assoc, h, h', List.append_assoc]

theorem Quiet.before (h : Quiet ts) (h' : Marked us ms) : Marked (ts ++ us) ms := h.marked.append h'

theorem Marked.quiet (h : Marked us ms) (ht : t.isQuiet = true) : Marked (t :: us) ms := fun rest => by
  rw [List.cons_append, skeleton_cons ht, h]

theorem Marked.cons (h : Marked ts ms) (ht : t.mark? = some m) : Marked (t :: ts) (m :: ms) := fun rest => by
  have hl : t ≠ .lparen := by
    rintro rfl
    cases ht
  have hr : t ≠ .rparen := by
    rintro rfl
    cases ht
  rw [List.cons_append, skeleton, if_neg hl, if_neg hr, if_pos rfl, ht, h]
  rfl

theorem marked_stop : Marked [.semicolon] [.stop] := (quiet_nil.marked).cons rfl

/-- Something in parentheses comes first. -/
theorem Hidden.before (h : Hidden ts) (h' : Marked us ms) : Marked (.lparen :: (ts ++ .rparen :: us)) ms := by
  have hwhole := h.parens.before h'
  rwa [List.cons_append, List.append_assoc] at hwhole

/-- Braces around statements. -/
theorem Marked.braces (h : Marked ts ms) : Marked (.lbrace :: (ts ++ [.rbrace])) (.opens :: (ms ++ [.closes])) :=
  (h.append ((quiet_nil.marked).cons rfl)).cons rfl

end Quiet

/-! ## Layouts -/

theorem Token.quiet_ofWords : ∀ ws : List (List Char), Quiet (ofWords ws)
  | [] => quiet_nil
  | [_] => quiet_nil.cons rfl
  | _ :: v :: ws => ((quiet_ofWords (v :: ws)).cons rfl).cons rfl

theorem Literal.quiet_tokens (v : Literal) : Quiet v.tokens := by
  cases v with
  | int n =>
    rw [tokens]
    split
    · exact (quiet_nil.cons rfl).cons rfl
    · exact quiet_nil.cons rfl
  | bool b => cases b <;> exact quiet_nil.cons rfl
  | _ => exact quiet_nil.cons rfl

theorem Ty.quiet_tokens (ty : Ty) : Quiet ty.tokens := by
  cases ty with
  | named name => exact Token.quiet_ofWords _
  | _ => exact quiet_nil.cons rfl

namespace Segment

theorem quiet_parens {ss : List Segment} (h : Quiet (tokens ss)) (needed : Bool) :
    Quiet (tokens (parens needed ss)) := by
  rw [tokens_parens]
  split
  · exact h.hidden.parens
  · exact h

end Segment

namespace Expr

open Segment (tokens_append tokens_map quiet_parens)

mutual

/-- An expression leaves no mark. -/
theorem quiet_layout : ∀ e : Expr, Quiet (tokens e.layout)
  | literal _ v => by
    rw [layout, tokens_map]
    exact v.quiet_tokens
  | name _ n => by
    rw [layout, tokens_map]
    exact Token.quiet_ofWords _
  | binary _ op l r => by
    rw [layout, tokens_append]
    exact (quiet_parens (quiet_layout l) _).append ((quiet_parens (quiet_layout r) _).cons rfl)
  | unary _ op e => by
    rw [layout, tokens]
    exact (quiet_parens (quiet_parens (quiet_layout e) _) _).cons (by cases op <;> rfl)
  | postStep _ op e => by
    rw [layout, tokens_append]
    exact (quiet_parens (quiet_layout e) _).append (quiet_nil.cons rfl)
  | assign _ op t v => by
    have hop : op.token.isQuiet = true := by
      cases op with
      | plain => rfl
      | compound op => rw [AssignOp.token]; split <;> rfl
    rw [layout, tokens_append]
    exact (quiet_parens (quiet_layout t) _).append ((quiet_layout v).cons hop)
  | call _ path args => by
    rw [layout, tokens_append, tokens_map, tokens, tokens_append]
    exact (Token.quiet_ofWords _).append (quiet_layouts args).hidden.parens

theorem quiet_layouts : ∀ es : List Expr, Quiet (tokens (layouts es))
  | [] => quiet_nil
  | [e] => quiet_layout e
  | e :: e' :: es => by
    rw [layouts_cons_cons, tokens_append]
    exact (quiet_layout e).append ((quiet_layouts (e' :: es)).cons rfl)

end

theorem quiet_wrapped (indent line : String) (e : Expr) : Quiet (tokens (e.wrapped indent line)) := by
  rw [tokens_wrapped]
  exact e.quiet_layout

theorem quiet_headerLayout : ∀ e : Option Expr, Quiet (tokens (headerLayout e))
  | none => quiet_nil
  | some e => e.quiet_layout

end Expr

theorem quiet_declLayout (ty : Ty) (name : String) : Quiet (tokens (declLayout ty name)) := by
  rw [declLayout, Segment.tokens_append, Segment.tokens_map]
  exact ty.quiet_tokens.append (quiet_nil.cons rfl)

theorem quiet_initLayout (indent line : String) : ∀ e : Option Expr, Quiet (tokens (initLayout indent line e))
  | none => quiet_nil
  | some e => (e.quiet_wrapped _ _).cons rfl

namespace Stmt

open Segment (tokens_append)

theorem quiet_simpleLayout (indent line : String) (s : Stmt) : Quiet (tokens (s.simpleLayout indent line)) := by
  cases s with
  | localVar _ ty name init =>
    rw [simpleLayout, tokens_append]
    exact (quiet_declLayout _ _).append (quiet_initLayout _ _ _)
  | expr _ e => exact e.quiet_wrapped _ _
  | _ => exact quiet_nil

theorem takesElse_shape : ∀ s : Stmt, s.shape.takesElse = s.takesElse
  | ifElse _ _ _ none => rfl
  | ifElse _ _ _ (some e) => takesElse_shape e
  | whileLoop _ _ b => takesElse_shape b
  | forLoop _ _ _ _ b => takesElse_shape b
  | block _ _ | expr _ _ | localVar _ _ _ _ | ret _ _ | brk _ | cont _ | empty _ => rfl

mutual

/-- A statement is written with the marks of its shape. -/
theorem marked_layout (position : Position) (indent : String) : ∀ s : Stmt,
    Marked (tokens (s.layout position indent)) s.shape.marks
  | block span ss => by
    have hbraces := (marked_layouts (indent ++ tab) ss).braces
    rw [shape, Shape.marks]
    cases position <;> simpa only [layout, tokens, tokens_append] using hbraces
  | ifElse span cond t none => by
    rw [layout, tokens_ifOpening, shape, Shape.marks]
    simp only [tokens, tokens_append, tokens_endLayout, List.append_nil]
    exact (cond.quiet_layout.hidden.before (marked_layout .body _ t)).cons rfl
  | ifElse span cond t (some e) => by
    rw [layout, tokens_ifOpening, shape, Shape.marks]
    simp only [tokens, tokens_append, tokens_endLayout, List.append_nil]
    have helse := fun inner => (marked_layout .afterElse inner e).cons
      (show (Token.keyword .«else»).mark? = some .otherwise from rfl)
    exact (cond.quiet_layout.hidden.before ((marked_layout .body _ t).append (helse _))).cons rfl
  | whileLoop span cond b => by
    rw [layout, tokens_openingAt, shape, Shape.marks]
    simp only [tokens, tokens_append, tokens_endLayout, List.append_nil]
    exact (cond.quiet_layout.hidden.before (marked_layout .body _ b)).cons rfl
  | forLoop span init cond update b => by
    have hinit : ∀ indent line, Quiet (tokens ((init.map (simpleLayout indent line)).getD [])) := by
      intro indent line
      cases init with
      | none => exact quiet_nil
      | some i => exact quiet_simpleLayout _ _ i
    have hheader := fun indent line => (hinit indent line).hidden.append
      ((Expr.quiet_headerLayout cond).hidden.append (Expr.quiet_headerLayout update).hidden.semicolon).semicolon
    rw [layout, tokens_openingAt, shape, Shape.marks]
    simp only [tokens, tokens_append, tokens_endLayout, List.append_nil]
    have hwhole := fun indent line inner => (hheader indent line).before (marked_layout .body inner b)
    simp only [List.append_assoc, List.cons_append] at hwhole
    exact (hwhole _ _ _).cons rfl
  | ret span none => by
    rw [layout, tokens_openingAt]
    exact marked_stop.quiet rfl
  | ret span (some e) => by
    rw [layout, tokens_openingAt, tokens, tokens_append]
    exact ((e.quiet_wrapped _ _).before marked_stop).quiet rfl
  | brk span => by
    rw [layout, tokens_openingAt]
    exact marked_stop.quiet rfl
  | cont span => by
    rw [layout, tokens_openingAt]
    exact marked_stop.quiet rfl
  | empty span => by
    rw [layout, tokens_openingAt]
    exact marked_stop
  | expr span value => by
    rw [layout, tokens_openingAt, tokens_append]
    exact (value.quiet_wrapped _ _).before marked_stop
  | localVar span ty name init => by
    rw [layout, tokens_openingAt, tokens_append]
    exact (quiet_simpleLayout _ _ _).before marked_stop

theorem marked_layouts (indent : String) : ∀ ss : List Stmt,
    Marked (tokens (layouts indent ss)) (Shape.marksAll (shapeAll ss))
  | [] => quiet_nil.marked
  | s :: ss => by
    rw [layouts, tokens_append]
    exact (marked_layout .ownLine indent s).append (marked_layouts indent ss)

end

end Stmt

theorem Modifier.quiet_layouts (ms : List Modifier) : Quiet (tokens (layouts ms)) := by
  induction ms with
  | nil => exact quiet_nil
  | cons m ms ih => exact ih.cons (by cases m <;> rfl)

theorem Param.quiet_layouts : ∀ ps : List Param, Quiet (tokens (layouts ps))
  | [] => quiet_nil
  | [p] => quiet_declLayout p.ty p.name
  | p :: q :: ps => by
    rw [layouts_cons_cons, Segment.tokens_append]
    exact (quiet_declLayout _ _).append ((quiet_layouts (q :: ps)).cons rfl)

namespace Member

open Segment (tokens_append)

theorem marked_layout (indent : String) (m : Member) : Marked (tokens (m.layout indent)) m.shape.marks := by
  cases m with
  | field span d =>
    simp only [layout, tokens, tokens_append]
    exact (((Modifier.quiet_layouts _).append (quiet_declLayout _ _)).append (quiet_initLayout _ _ _)).before
      marked_stop
  | method span d =>
    simp only [layout, tokens, tokens_append]
    have hbody := (Param.quiet_layouts d.params).hidden.before (Stmt.marked_layouts (indent ++ tab) d.body.stmts).braces
    exact ((Modifier.quiet_layouts _).append (quiet_declLayout _ _)).before hbody

theorem marked_layouts (indent : String) : ∀ ms : List Member,
    Marked (tokens (layouts indent ms)) (Shape.marksAll (ms.map shape))
  | [] => quiet_nil.marked
  | m :: ms => by
    rw [layouts, tokens_append, tokens_layoutsAfter]
    exact (m.marked_layout indent).append (marked_layouts indent ms)

end Member

namespace ClassDecl

open Segment (tokens_append)

theorem marked_layout (c : ClassDecl) : Marked (tokens c.layout) c.shape.marks := by
  simp only [layout, tokens, tokens_append]
  have hbody := (Member.marked_layouts tab c.members).braces
  exact (Modifier.quiet_layouts _).before ((hbody.quiet rfl).quiet rfl)

theorem marked_layouts : ∀ cs : List ClassDecl,
    Marked (tokens (layouts cs)) (Shape.marksAll (cs.map shape))
  | [] => quiet_nil.marked
  | c :: cs => by
    rw [tokens_layouts_cons]
    exact c.marked_layout.append (marked_layouts cs)

end ClassDecl

/-- A program is written with the marks of its shapes. -/
theorem CompilationUnit.marked_layout (unit : CompilationUnit) :
    Marked (tokens unit.layout) (Shape.marksAll unit.shapes) := by
  rw [layout, Segment.tokens_append]
  exact (List.append_nil _).symm ▸ ClassDecl.marked_layouts unit.classes

/-! ## Derivations -/

namespace Grammar

variable {loose : Bool} {ts us : List (Spanned Token)} {t : Spanned Token} {n : Nat}

/-- Tokens at their places that leave no mark. -/
def QuietAt (ts : List (Spanned Token)) : Prop := Quiet (ts.map (·.value))

theorem quietAt_nil : QuietAt [] := quiet_nil

theorem QuietAt.append (h : QuietAt ts) (h' : QuietAt us) : QuietAt (ts ++ us) := by
  rw [QuietAt, List.map_append]
  exact Quiet.append h h'

theorem QuietAt.cons {value : Token} (h : QuietAt ts) (ht : t.value = value) (hvalue : value.isQuiet = true) :
    QuietAt (t :: ts) := Quiet.cons (t := t.value) (ht ▸ hvalue) h

theorem QuietAt.parens {l r : Spanned Token} (h : QuietAt ts) (hl : l.value = .lparen) (hr : r.value = .rparen) :
    QuietAt (l :: (ts ++ [r])) := by
  rw [QuietAt, List.map_cons, List.map_append, List.map_singleton, hl, hr]
  exact Hidden.parens (Quiet.hidden h)

theorem PathTokens.quiet {path : Spanned String} (h : PathTokens path ts) : QuietAt ts := by
  induction h with
  | word ht => exact quietAt_nil.cons ht rfl
  | part _ hd ht ih => exact ih.append ((quietAt_nil.cons ht rfl).cons hd rfl)

theorem TyTokens.quiet {ty : Spanned Ty} (h : TyTokens ty ts) : QuietAt ts := by
  cases h with
  | word ht h =>
    simp only [List.mem_cons, Prod.mk.injEq, List.not_mem_nil, or_false] at h
    rcases h with ⟨rfl, -⟩ | ⟨rfl, -⟩ | ⟨rfl, -⟩ <;> exact quietAt_nil.cons ht rfl
  | path h => exact h.quiet

/-- The tokens of an expression or of arguments leave no mark. -/
theorem ExprTokens.quiet {part : ExprPart} (h : ExprTokens loose part ts n) : QuietAt ts := by
  induction h with
  | integer ht _ => exact quietAt_nil.cons ht rfl
  | word ht h =>
    simp only [List.mem_cons, Prod.mk.injEq, List.not_mem_nil, or_false] at h
    rcases h with ⟨rfl, -⟩ | ⟨rfl, -⟩ | ⟨rfl, -⟩ <;> exact quietAt_nil.cons ht rfl
  | string ht => exact quietAt_nil.cons ht rfl
  | name h => exact h.quiet
  | call h hl _ hr ih => exact h.quiet.append (ih.parens hl hr)
  | parens hl _ hr ih => exact ih.parens hl hr
  | postStep _ _ ht ih => exact ih.append (quietAt_nil.cons ht rfl)
  | negative ht hv _ => exact (quietAt_nil.cons hv rfl).cons ht rfl
  | @unary _ _ _ _ op ht _ _ _ ih => exact ih.cons ht (by cases op <;> rfl)
  | binary _ ht _ ihl ihr => exact ihl.append (ihr.cons ht rfl)
  | @assign _ _ _ _ _ _ _ op _ _ _ ht _ ih ihv =>
    refine ih.append (ihv.cons ht ?_)
    cases op with
    | plain => rfl
    | compound op => rw [AssignOp.token]; split <;> rfl
  | loosen _ ih => exact ih
  | nil => exact quietAt_nil
  | last _ ih => exact ih
  | more _ hc _ _ ih ihs => exact ih.append (ihs.cons hc rfl)

theorem OptionalTokens.quiet {e : Option Expr} (h : OptionalTokens loose e ts n) : QuietAt ts := by
  cases h with
  | none => exact quietAt_nil
  | some h => exact h.quiet

theorem InitTokens.quiet {init : Option Expr} (h : InitTokens loose init ts n) : QuietAt ts := by
  cases h with
  | none => exact quietAt_nil
  | some ht h => exact h.quiet.cons ht rfl

theorem DeclTokens.quiet {ty : Spanned Ty} {name : Spanned String} {init : Option Expr}
    (h : DeclTokens loose ty name init ts n) : QuietAt ts := by
  cases h with
  | mk hty _ ht hinit => exact hty.quiet.append (hinit.quiet.cons ht rfl)

theorem ForInitTokens.quiet {init : Option Stmt} (h : ForInitTokens loose init ts n) : QuietAt ts := by
  cases h with
  | none => exact quietAt_nil
  | localVar h => exact h.quiet
  | expr h => exact h.quiet

theorem ModifierTokens.quiet {ms : List Modifier} (h : ModifierTokens ms ts) : QuietAt ts := by
  rw [QuietAt, h.tokens]
  refine quiet_of_forall fun t ht => ?_
  obtain ⟨m, -, rfl⟩ := List.mem_map.mp ht
  cases m <;> rfl

theorem ParamTokens.quiet {ps : List Param} (h : ParamTokens loose ps ts) : QuietAt ts := by
  induction h with
  | nil => exact quietAt_nil
  | last hty ht => exact hty.quiet.append (quietAt_nil.cons ht rfl)
  | more hty ht hc _ _ ih => exact hty.quiet.append ((ih.cons hc rfl).cons ht rfl)

/-- Tokens at their places that leave the marks. -/
def MarkedAt (ts : List (Spanned Token)) (ms : List Mark) : Prop := Marked (ts.map (·.value)) ms

variable {ms ns : List Mark}

theorem MarkedAt.append (h : MarkedAt ts ms) (h' : MarkedAt us ns) : MarkedAt (ts ++ us) (ms ++ ns) := by
  rw [MarkedAt, List.map_append]
  exact Marked.append h h'

theorem QuietAt.before (h : QuietAt ts) (h' : MarkedAt us ms) : MarkedAt (ts ++ us) ms := by
  rw [MarkedAt, List.map_append]
  exact Quiet.before h h'

theorem MarkedAt.quiet {value : Token} (h : MarkedAt ts ms) (ht : t.value = value) (hvalue : value.isQuiet = true) :
    MarkedAt (t :: ts) ms :=
  Marked.quiet (t := t.value) h (ht ▸ hvalue)

theorem MarkedAt.cons {value : Token} {m : Mark} (h : MarkedAt ts ms) (ht : t.value = value)
    (hvalue : value.mark? = some m) : MarkedAt (t :: ts) (m :: ms) := Marked.cons (t := t.value) h (ht ▸ hvalue)

theorem markedAt_stop {r : Spanned Token} (hr : r.value = .semicolon) : MarkedAt [r] [.stop] := by
  rw [MarkedAt, List.map_singleton, hr]
  exact marked_stop

theorem MarkedAt.braces {l r : Spanned Token} (h : MarkedAt ts ms) (hl : l.value = .lbrace) (hr : r.value = .rbrace) :
    MarkedAt (l :: (ts ++ [r])) (.opens :: (ms ++ [.closes])) := by
  rw [MarkedAt, List.map_cons, List.map_append, List.map_singleton, hl, hr]
  exact Marked.braces h

/-- Tokens at their places that leave no mark in parentheses. -/
def HiddenAt (ts : List (Spanned Token)) : Prop := Hidden (ts.map (·.value))

theorem QuietAt.hidden (h : QuietAt ts) : HiddenAt ts := Quiet.hidden h

/-- Parts of the header of a `for`. -/
theorem HiddenAt.part {m : Spanned Token} (h : HiddenAt ts) (hm : m.value = .semicolon) (h' : HiddenAt us) :
    HiddenAt (ts ++ m :: us) := by
  rw [HiddenAt, List.map_append, List.map_cons, hm]
  exact Hidden.append h (Hidden.semicolon h')

/-- What stands in parentheses comes first. -/
theorem HiddenAt.inParens {l r : Spanned Token} (h : HiddenAt ts) (hl : l.value = .lparen) (hr : r.value = .rparen)
    (h' : MarkedAt us ms) : MarkedAt (l :: (ts ++ r :: us)) ms := by
  rw [MarkedAt, List.map_cons, List.map_append, List.map_cons, hl, hr]
  exact Hidden.before h h'

/-- What a part of a statement leaves of its tokens: the marks of its shape, in which each `else` belongs to the
nearest `if`. -/
def StmtPart.Shaped (part : StmtPart) (ts : List (Spanned Token)) : Prop :=
  match part with
  | .stmt s => MarkedAt ts s.shape.marks ∧ s.shape.Nearest
  | .stmts ss => MarkedAt ts (Shape.marksAll (Stmt.shapeAll ss)) ∧ Shape.NearestAll (Stmt.shapeAll ss)

theorem StmtTokens.marked {part : StmtPart} (h : StmtTokens loose part ts n) : part.Shaped ts := by
  induction h with
  | block hl _ hr ih => exact ⟨ih.1.braces hl hr, ih.2⟩
  | expr h hr => exact ⟨h.quiet.before (markedAt_stop hr), trivial⟩
  | localVar h hr => exact ⟨h.quiet.before (markedAt_stop hr), trivial⟩
  | ifElse hk hl hcond hr _ _ ih => exact ⟨(hcond.quiet.hidden.inParens hl hr ih.1).cons hk rfl, ih.2⟩
  | ifElse_else hk hl hcond hr _ _ htakes hk' _ _ ih ih' =>
    refine ⟨?_, (Stmt.takesElse_shape _).trans htakes, ih.2, ih'.2⟩
    exact (hcond.quiet.hidden.inParens hl hr (ih.1.append (ih'.1.cons hk' rfl))).cons hk rfl
  | whileLoop hk hl hcond hr _ _ ih => exact ⟨(hcond.quiet.hidden.inParens hl hr ih.1).cons hk rfl, ih.2⟩
  | forLoop hk hl hinit hm hcond hm' hupdate hr _ _ ih =>
    have hheader := hinit.quiet.hidden.part hm (hcond.quiet.hidden.part hm' hupdate.quiet.hidden)
    have hwhole := hheader.inParens hl hr ih.1
    simp only [List.append_assoc, List.cons_append] at hwhole
    exact ⟨hwhole.cons hk rfl, ih.2⟩
  | ret hk h hr => exact ⟨(h.quiet.before (markedAt_stop hr)).quiet hk rfl, trivial⟩
  | brk hk hr => exact ⟨(markedAt_stop hr).quiet hk rfl, trivial⟩
  | cont hk hr => exact ⟨(markedAt_stop hr).quiet hk rfl, trivial⟩
  | empty ht => exact ⟨markedAt_stop ht, trivial⟩
  | nil => exact ⟨quiet_nil.marked, trivial⟩
  | cons _ _ ih ihs => exact ⟨ih.1.append ihs.1, ih.2, ihs.2⟩

theorem MemberTokens.marked {m : Member} (h : MemberTokens loose m ts n) :
    MarkedAt ts m.shape.marks ∧ m.shape.Nearest := by
  cases h with
  | field hms hty _ ht hinit hr =>
    exact ⟨hms.quiet.before (hty.quiet.before ((hinit.quiet.before (markedAt_stop hr)).quiet ht rfl)), trivial⟩
  | method hms hty ht hlp hps hrp hl hss hr =>
    obtain ⟨hmarked, hnearest⟩ := hss.marked
    have hbody := (hps.quiet.hidden.inParens hlp hrp (hmarked.braces hl hr)).quiet ht rfl
    exact ⟨hms.quiet.before (hty.quiet.before hbody), hnearest⟩

theorem Sequence.marked {α : Type} {P : α → List (Spanned Token) → Nat → Prop} {f : α → Shape} {as : List α}
    (hP : ∀ a ts n, P a ts n → MarkedAt ts (f a).marks ∧ (f a).Nearest) (h : Sequence P as ts n) :
    MarkedAt ts (Shape.marksAll (as.map f)) ∧ Shape.NearestAll (as.map f) := by
  induction h with
  | nil => exact ⟨quiet_nil.marked, trivial⟩
  | cons h _ ih =>
    obtain ⟨hmarked, hnearest⟩ := hP _ _ _ h
    exact ⟨hmarked.append ih.1, hnearest, ih.2⟩

theorem ClassTokens.marked {d : ClassDecl} (h : ClassTokens loose d ts n) :
    MarkedAt ts d.shape.marks ∧ d.shape.Nearest := by
  cases h with
  | mk hms hk ht hl hmembers hr =>
    obtain ⟨hmarked, hnearest⟩ := hmembers.marked fun _ _ _ h => h.marked
    exact ⟨hms.quiet.before (((hmarked.braces hl hr).quiet ht rfl).quiet hk rfl), hnearest⟩

end Grammar

/-- A program is read from the marks of its shapes, and each `else` belongs to the nearest `if`. -/
theorem CompilationUnit.Derives.marked {loose : Bool} {unit : CompilationUnit} {ts : List (Spanned Token)} {need : Nat}
    (h : unit.Derives loose ts need) :
    Marked (ts.map (·.value)) (Shape.marksAll unit.shapes) ∧ unit.ElsesNearest :=
  Grammar.Sequence.marked (fun _ _ _ h => h.marked) h

/-! ## Reading what was printed -/

/-- Every token of a layout can be written, so none is the end of the file. -/
theorem Segment.written_of_spaced : ∀ {ss : List Segment} {fresh : Bool}, Spaced fresh ss →
    ∀ t ∈ tokens ss, t.Written
  | [], _, _ => nofun
  | s :: ss, _, h => by
    cases s with
    | gap text => exact @written_of_spaced ss _ h.2
    | token t => exact List.forall_mem_cons.mpr ⟨h.1, @written_of_spaced ss _ h.2.2⟩
    | opening indent start => exact @written_of_spaced ss _ h.2.2.2
    | ending stop => exact List.forall_mem_cons.mpr ⟨trivial, @written_of_spaced ss _ h⟩
    | remaining => exact h.2 ▸ nofun

namespace Shape

mutual

theorem count_branch_marks : ∀ s : Shape, s.marks.count .branch = s.branches
  | simple => rfl
  | block ss => by
    rw [marks, List.count_cons_of_ne (by decide), List.count_append, count_branch_marksAll ss]
    rfl
  | loop b => by
    rw [marks, List.count_cons_of_ne (by decide), count_branch_marks b, branches]
  | branch t => by
    rw [marks, List.count_cons_self, count_branch_marks t, branches]
  | choice t e => by
    rw [marks, List.count_cons_self, List.count_append, List.count_cons_of_ne (by decide), count_branch_marks t,
      count_branch_marks e, branches]

theorem count_branch_marksAll : ∀ ss : List Shape, (marksAll ss).count .branch = branchesAll ss
  | [] => rfl
  | s :: ss => by
    rw [marksAll, List.count_append, count_branch_marks s, count_branch_marksAll ss, branchesAll]

end

end Shape

namespace CompilationUnit

variable {unit read : CompilationUnit} {comments : List Comment}

/-- What is read from a printed program is derived from the tokens it was printed with. -/
theorem exists_derives_text (h : unit.Spelled) (hread : ofSource? (unit.text []) = .ok (read, comments)) :
    ∃ ts need, ts.map (·.value) = tokens unit.layout ∧ read.Derives true ts need := by
  obtain ⟨-, htokens, -⟩ := @ofSource_text_spelled unit [] h nofun
  have hunit := ofTokens?_of_ofSource? hread
  have hend : (Lexed.ofSource (unit.text [])).tokens.getLast?.map (·.value) = some .endOfFile := by
    rw [← List.getLast?_map, htokens, List.getLast?_concat]
  obtain ⟨need, -, hderives⟩ := writtenBy_of_ofTokens? hend hunit
  refine ⟨_, need, ?_, hderives⟩
  have hne : ∀ t ∈ tokens unit.layout, (t != .endOfFile) = true := by
    intro t ht
    refine bne_iff_ne.mpr ?_
    rintro rfl
    exact Segment.written_of_spaced (spaced_layout h) _ ht
  rw [beforeEnd, ← Function.comp_def (fun t : Token => t != .endOfFile), ← List.takeWhile_map, htokens,
    List.takeWhile_append_of_pos hne]
  simp

/-- A printed program and what is read from it have the same marks. -/
theorem marksAll_reread (h : unit.Spelled) (hread : ofSource? (unit.text []) = .ok (read, comments)) :
    Shape.marksAll read.shapes = Shape.marksAll unit.shapes ∧ read.ElsesNearest := by
  obtain ⟨ts, need, hts, hderives⟩ := exists_derives_text h hread
  obtain ⟨hmarked, hnearest⟩ := hderives.marked
  have hread := hmarked []
  have hunit := unit.marked_layout []
  rw [hts, hunit] at hread
  exact ⟨(List.append_cancel_right hread).symm, hnearest⟩

end CompilationUnit

namespace Tree

variable {tree : Tree} {unit read : CompilationUnit} {comments : List Comment}

/-- The names of a tree are made of words, and the first part of a `for` is a declaration or an expression. -/
def Spelled (tree : Tree) : Prop := ∀ unit, tree.unit? = .ok unit → unit.Spelled

/-- The text of a tree, if it is read as a program, is read with as many `if` statements, and with each `else`
at the nearest one. This is the `if` to which it belongs in the tree for each `else` just if in the tree, too,
each `else` belongs to the nearest one. -/
theorem owners_reread (hunit : tree.unit? = .ok unit) (hspelled : tree.Spelled)
    (hread : CompilationUnit.ofSource? (unit.text []) = .ok (read, comments)) :
    read.branches = unit.branches ∧ read.ElsesNearest ∧ (read.owners = unit.owners ↔ unit.ElsesNearest) := by
  obtain ⟨hmarks, hnearest⟩ := CompilationUnit.marksAll_reread (hspelled unit hunit) hread
  have hends := congrArg (· ++ [Mark.closes]) hmarks
  refine ⟨?_, hnearest, fun howners => ?_, fun hunit => ?_⟩
  · have hcount := congrArg (List.count Mark.branch) hmarks
    rwa [Shape.count_branch_marksAll, Shape.count_branch_marksAll] at hcount
  · have howners := congrArg (· ++ ([] : List Nat)) howners
    obtain ⟨hshapes, -⟩ := Shape.eqAll_of_owners hends howners
    rw [CompilationUnit.ElsesNearest, ← hshapes]
    exact hnearest
  · obtain ⟨hshapes, -⟩ := Shape.eqAll_of_nearest hnearest hunit hends
    rw [CompilationUnit.owners, hshapes]
    rfl

/-! ### A branch in a branch -/

/-- The tree of a method whose only statement has a condition, an inner statement and an `else`: the operations
`front` make the inner statement, and all nodes with a smaller number than `n`. -/
def withBranch (front : List Operation) (inner : NodeId) (n : Nat) : Tree :=
  List.foldl Operation.after empty (front ++
    [.alloc (.expr (.name "a")) .dummy [], .alloc (.stmt .brk) .dummy [],
      .alloc (.stmt .ifElse) .dummy [⟨n, 0⟩, inner, ⟨n + 1, 0⟩], .alloc (.stmt .block) .dummy [⟨n + 2, 0⟩],
      .alloc (.method [] .void "m" []) .dummy [⟨n + 3, 0⟩], .alloc (.classDecl [] "A") .dummy [⟨n + 4, 0⟩],
      .pushChild ⟨0, 0⟩ ⟨n + 5, 0⟩])

theorem reachable_foldl (ops : List Operation) : ∀ {t : Tree}, t.Reachable → (ops.foldl Operation.after t).Reachable := by
  induction ops with
  | nil => exact fun h => h
  | cons op ops ih => exact fun h => ih (.step op h)

theorem reachable_withBranch (front : List Operation) (inner : NodeId) (n : Nat) :
    (withBranch front inner n).Reachable := by
  rw [withBranch]
  exact reachable_foldl _ .empty

/-- The operations that make an `if` without an `else`. -/
def makeBranch : List Operation :=
  [.alloc (.expr (.name "b")) .dummy [], .alloc (.stmt .empty) .dummy [],
    .alloc (.stmt .ifElse) .dummy [⟨1, 0⟩, ⟨2, 0⟩]]

/-- The program of such a tree. -/
def branchProgram (inner : Stmt) : CompilationUnit :=
  ⟨[⟨.dummy, [], .made "A", [.method .dummy ⟨[], .made .void, .made "m", [],
    ⟨.dummy, [.ifElse .dummy (.name .dummy "a") inner (some (.brk .dummy))]⟩⟩]⟩]⟩

/-- The inner `if` as a statement. -/
def innerBranch : Stmt := .ifElse .dummy (.name .dummy "b") (.empty .dummy) none

/-- A letter is a word. -/
theorem isWord_letter (b : UInt8) (hb : Ascii.startsWord b = true) (h : Keyword.ofText? (Ascii.text [b]) = none) :
    IsWord (Ascii.text [b]) := ⟨b, [], hb, nofun, rfl, h⟩

theorem spelled_branchProgram {inner : Stmt} (h : inner.Spelled) : (branchProgram inner).Spelled := by
  have hclass : IsWord "A" := isWord_letter 0x41 (by decide) (by decide)
  have hmethod : IsWord "m" := isWord_letter 0x6D (by decide) (by decide)
  have hname : IsWord "a" := isWord_letter 0x61 (by decide) (by decide)
  intro c hc
  obtain rfl := List.mem_singleton.mp hc
  refine ⟨hclass, fun m hm => ?_⟩
  obtain rfl := List.mem_singleton.mp hm
  exact ⟨trivial, hmethod, nofun, ⟨hname.isPath, h, trivial⟩, trivial⟩

theorem spelled_innerBranch : innerBranch.Spelled := by
  have hname : IsWord "b" := isWord_letter 0x62 (by decide) (by decide)
  exact ⟨hname.isPath, trivial⟩

theorem spelled_of_unit? (hunit : tree.unit? = .ok unit) (h : unit.Spelled) : tree.Spelled := by
  intro unit' hunit'
  obtain rfl := Except.ok.inj (hunit.symm.trans hunit')
  exact h

/-- With braces around the inner `if` the `else` stays at the outer one. -/
theorem owners_reread_braces :
    let tree := withBranch (makeBranch ++ [.alloc (.stmt .block) .dummy [⟨3, 0⟩]]) ⟨4, 0⟩ 5
    let unit := branchProgram (.block .dummy [innerBranch])
    tree.unit? = .ok unit ∧ tree.Spelled ∧ ∃ read comments,
      CompilationUnit.ofSource? (unit.text []) = .ok (read, comments) ∧ read.owners = unit.owners ∧
        unit.owners = [0] := by
  intro tree unit
  have hunit : tree.unit? = .ok unit := rfl
  have hspelled := spelled_of_unit? hunit (spelled_branchProgram ⟨spelled_innerBranch, trivial⟩)
  have hok : (CompilationUnit.ofSource? (unit.text [])).toOption.isSome = true := by decide +kernel
  obtain ⟨⟨read, comments⟩, hparsed⟩ := Option.isSome_iff_exists.mp hok
  have hread := eq_ok_of_toOption hparsed
  have hnearest : unit.ElsesNearest := by decide +kernel
  exact ⟨hunit, hspelled, read, comments, hread, (owners_reread hunit hspelled hread).2.2.mpr hnearest, rfl⟩

/-- Without them the `else` goes over to the inner one. -/
theorem else_changes_owner : ¬∀ (tree : Tree) (unit read : CompilationUnit) (comments : List Comment),
    tree.Reachable → tree.unit? = .ok unit → tree.Spelled →
      CompilationUnit.ofSource? (unit.text []) = .ok (read, comments) → read.owners = unit.owners := by
  intro h
  have hunit : (withBranch makeBranch ⟨3, 0⟩ 4).unit? = .ok (branchProgram innerBranch) := rfl
  have hspelled := spelled_of_unit? hunit (spelled_branchProgram spelled_innerBranch)
  have howners : (CompilationUnit.ofSource? ((branchProgram innerBranch).text [])).toOption.map (·.1.owners) =
      some [1] := by decide +kernel
  obtain ⟨⟨read, comments⟩, hparsed, hread⟩ := Option.map_eq_some_iff.mp howners
  have hsame := h _ _ read comments (reachable_withBranch makeBranch ⟨3, 0⟩ 4) hunit hspelled
    (eq_ok_of_toOption hparsed)
  have hunit : (branchProgram innerBranch).owners = [0] := rfl
  dsimp only at hread
  rw [hread, hunit] at hsame
  exact absurd hsame (by decide)

end Tree

end JavaFold
