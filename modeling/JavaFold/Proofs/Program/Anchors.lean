import JavaFold.Proofs.Program.Reread.Unit

/-!
# What comments are attached to

A comment on a line of its own belongs to the class, member or statement that starts after it, a comment at the
end of a line to the field or simple statement that has stopped before it. The anchors of a program are these
places, in the order in which they are printed, each with its offset in the source and with the number of tokens
that are printed before it. The printer opens a line for most of what starts, and these anchors are in its layout
(`CompilationUnit.anchors_layout`).
-/

namespace JavaFold

open Segment
open Writer (tab isBlock isMethod Position)

/-- A place of a program to which comments may be attached: its offset in the source, and the number of tokens
that are printed before it. -/
inductive Anchor
  /-- A class, member or statement starts, and the printer may open a line with it. -/
  | start (offset before : Nat) (opensLine : Bool)
  /-- A field or simple statement has stopped, with its semicolon. -/
  | stop (offset before : Nat)
deriving DecidableEq, Repr

/-- Whether the printer asks for the comments of the anchor. -/
def Anchor.asks : Anchor → Bool
  | start _ _ opensLine => opensLine
  | stop _ _ => true

/-- Where the anchor is: the start or the stop of something. -/
def Anchor.edge : Anchor → Nat ⊕ Nat
  | start offset _ _ => .inl offset
  | stop offset _ => .inr offset

/-- What starts there, with `all` also where no line is opened. -/
def Anchor.start? (all : Bool) : Anchor → Option (Nat × Nat)
  | start offset before opensLine => if all || opensLine then some (offset, before) else none
  | stop _ _ => none

/-- What has stopped there. -/
def Anchor.stop? : Anchor → Option (Nat × Nat)
  | start _ _ _ => none
  | stop offset before => some (offset, before)

namespace Stmt

/-- The tokens with which a statement is printed. -/
def printed (s : Stmt) : List Token := tokens (s.layout .ownLine "")

mutual

/-- The anchors of a statement before which `n` tokens are printed. No line is opened for the braces of a body, for
an `if` after `else`, to which nothing is attached, or for the first part of a `for`. -/
def anchors (position : Position) (n : Nat) : Stmt → List Anchor
  | .block span body => .start span.start n (position = .ownLine) :: anchorsAll (n + 1) body
  | .ifElse span cond thenBranch elseBranch =>
    let inner := n + (3 + (tokens cond.layout).length)
    (if position = .afterElse then [] else [.start span.start n true]) ++
      (anchors .body inner thenBranch ++
        match elseBranch with
        | none => []
        | some e => anchors .afterElse (inner + (thenBranch.printed.length + 1)) e)
  | .whileLoop span cond body =>
    .start span.start n true :: anchors .body (n + (3 + (tokens cond.layout).length)) body
  | .forLoop span init cond update body =>
    let header := tokens ((init.map (simpleLayout "" "")).getD [] ++ (Expr.headerLayout cond ++ Expr.headerLayout update))
    .start span.start n true :: ((init.map fun s => .start s.span.start (n + 2) false).toList ++
      anchors .body (n + (5 + header.length)) body)
  | s => [.start s.span.start n true, .stop s.span.stop (n + s.printed.length)]

/-- The anchors of statements. -/
def anchorsAll (n : Nat) : List Stmt → List Anchor
  | [] => []
  | s :: ss => anchors .ownLine n s ++ anchorsAll (n + s.printed.length) ss

end

end Stmt

namespace Member

/-- The tokens with which a field or method is printed. -/
def printed (m : Member) : List Token := tokens (m.layout "")

/-- The anchors of a field or method. -/
def anchors (n : Nat) : Member → List Anchor
  | .field span d => [.start span.start n true, .stop span.stop (n + (Member.field span d).printed.length)]
  | .method span d =>
    let header := tokens (Modifier.layouts d.modifiers ++ (declLayout d.ret.value d.name.value ++ Param.layouts d.params))
    .start span.start n true :: Stmt.anchorsAll (n + (header.length + 3)) d.body.stmts

/-- The anchors of fields and methods. -/
def anchorsAll (n : Nat) : List Member → List Anchor
  | [] => []
  | m :: ms => m.anchors n ++ anchorsAll (n + m.printed.length) ms

end Member

namespace ClassDecl

/-- The anchors of a class. -/
def anchors (n : Nat) (c : ClassDecl) : List Anchor :=
  .start c.span.start n true ::
    Member.anchorsAll (n + ((tokens (Modifier.layouts c.modifiers)).length + 3)) c.members

/-- The anchors of classes. -/
def anchorsAll (n : Nat) : List ClassDecl → List Anchor
  | [] => []
  | c :: cs => c.anchors n ++ anchorsAll (n + (tokens c.layout).length) cs

end ClassDecl

namespace CompilationUnit

/-- The anchors of a program. -/
def anchors (unit : CompilationUnit) : List Anchor := ClassDecl.anchorsAll 0 unit.classes

/-- Where the classes, members and statements of a program start: all of them, but for an `if` after `else`, or
those for which the printer opens a line. -/
def starts (unit : CompilationUnit) (all : Bool) : List (Nat × Nat) := unit.anchors.filterMap (Anchor.start? all)

/-- Where the fields and simple statements of a program stop. -/
def stops (unit : CompilationUnit) : List (Nat × Nat) := unit.anchors.filterMap Anchor.stop?

end CompilationUnit

/-! ## Tokens do not depend on where a statement stands -/

namespace Stmt

/-- A statement that ends with a semicolon of its own. -/
def endsLine : Stmt → Bool
  | block _ _ | ifElse _ _ _ _ | whileLoop _ _ _ | forLoop _ _ _ _ _ => false
  | _ => true

theorem anchors_of_endsLine {s : Stmt} (h : s.endsLine = true) (position : Position) (n : Nat) :
    s.anchors position n = [.start s.span.start n true, .stop s.span.stop (n + s.printed.length)] := by
  cases s <;> first | rfl | cases h

theorem tokens_initLayout (indent line : String) (init : Option Expr) :
    tokens (initLayout indent line init) = tokens (initLayout "" "" init) := by
  cases init with
  | none => rfl
  | some e => simp only [initLayout, tokens, Expr.tokens_wrapped]

theorem tokens_simpleLayout (indent line : String) (s : Stmt) :
    tokens (s.simpleLayout indent line) = tokens (s.simpleLayout "" "") := by
  cases s with
  | localVar span ty name init =>
    rw [simpleLayout, simpleLayout, Segment.tokens_append, Segment.tokens_append, tokens_initLayout,
      tokens_initLayout "" ("" ++ _)]
  | expr span e => simp only [simpleLayout, Expr.tokens_wrapped]
  | _ => rfl

/-- How a statement is printed that ends with a semicolon of its own. -/
theorem exists_layout_of_endsLine {s : Stmt} (h : s.endsLine = true) (position : Position) (indent : String) :
    ∃ ss, Plain ss ∧ s.layout position indent = openingAt position indent s.span.start ++ (ss ++ [ending s.span.stop]) := by
  cases s with
  | expr span e => exact ⟨_, Expr.plain_wrapped _ _ e, by rw [layout]; rfl⟩
  | localVar span ty name init => exact ⟨_, plain_simpleLayout _ _ _, by rw [layout]; rfl⟩
  | ret span value =>
    cases value with
    | none => exact ⟨[token (.keyword .«return»)], plain_cons rfl plain_nil, by rw [layout]; rfl⟩
    | some e =>
      refine ⟨token (.keyword .«return») :: gap " " :: e.wrapped (indentAt position indent) _,
        plain_cons rfl (plain_cons rfl (Expr.plain_wrapped _ _ e)), by rw [layout]; rfl⟩
  | brk span => exact ⟨[token (.keyword .«break»)], plain_cons rfl plain_nil, by rw [layout]; rfl⟩
  | cont span => exact ⟨[token (.keyword .«continue»)], plain_cons rfl plain_nil, by rw [layout]; rfl⟩
  | empty span => exact ⟨[], plain_nil, by rw [layout]; rfl⟩
  | _ => cases h

theorem tokens_opening (position : Position) (indent : String) (start : Nat) :
    tokens (openingAt position indent start) = [] := by cases position <;> rfl

theorem tokens_init (indent line : String) (init : Option Stmt) :
    tokens ((init.map (simpleLayout indent line)).getD []) = tokens ((init.map (simpleLayout "" "")).getD []) := by
  cases init with
  | none => rfl
  | some i => exact tokens_simpleLayout indent line i

mutual

/-- A statement is printed with the same tokens wherever it stands. -/
theorem tokens_layout (position : Position) (indent : String) : ∀ s : Stmt, tokens (s.layout position indent) = s.printed
  | .block span body => by
    rw [printed]
    cases position <;> simp only [layout, tokens, Segment.tokens_append, tokens_layouts]
  | .ifElse span cond t none => by
    rw [printed, layout, layout, tokens_ifOpening, tokens_ifOpening]
    simp only [tokens, Segment.tokens_append, tokens_layout .body _ t, tokens_endLayout]
  | .ifElse span cond t (some e) => by
    rw [printed, layout, layout, tokens_ifOpening, tokens_ifOpening]
    simp only [tokens, Segment.tokens_append, tokens_layout .body _ t, tokens_layout .afterElse _ e, tokens_endLayout]
  | .whileLoop span cond body => by
    rw [printed]
    simp only [layout, tokens_opening, tokens, Segment.tokens_append, tokens_layout .body _ body]
  | .forLoop span init cond update body => by
    rw [printed]
    simp only [layout, tokens_opening, tokens, Segment.tokens_append, tokens_layout .body _ body,
      tokens_init (indentAt position indent), tokens_init (indentAt .ownLine "")]
  | .expr span e | .ret span (some e) => by
    rw [printed]
    simp only [layout, tokens_opening, tokens, Segment.tokens_append, Expr.tokens_wrapped]
  | .localVar span ty name init => by
    rw [printed]
    simp only [layout, tokens_opening, Segment.tokens_append, tokens_simpleLayout (indentAt position indent),
      tokens_simpleLayout (indentAt .ownLine "")]
  | .ret span none | .brk span | .cont span | .empty span => by
    rw [printed]
    simp only [layout, tokens_opening, Segment.tokens_append]

theorem tokens_layouts (indent : String) : ∀ ss : List Stmt, tokens (layouts indent ss) = ss.flatMap printed
  | [] => rfl
  | s :: ss => by
    rw [layouts, Segment.tokens_append, tokens_layout .ownLine indent s, tokens_layouts indent ss, List.flatMap_cons]

end

end Stmt

/-! ## Anchors of layouts -/

namespace Segment

/-- The anchors of segments before which `n` tokens are printed. -/
def anchors (n : Nat) : List Segment → List Anchor
  | [] => []
  | opening _ start :: ss => .start start n true :: anchors n ss
  | ending stop :: ss => .stop stop (n + 1) :: anchors (n + 1) ss
  | token _ :: ss => anchors (n + 1) ss
  | gap _ :: ss | remaining :: ss => anchors n ss

variable {n : Nat} {ss : List Segment}

theorem anchors_append (as bs : List Segment) :
    anchors n (as ++ bs) = anchors n as ++ anchors (n + (tokens as).length) bs := by
  induction as generalizing n with
  | nil => rfl
  | cons s as ih =>
    cases s with
    | token t =>
      rw [List.cons_append, anchors, anchors, ih, tokens, List.length_cons, Nat.add_assoc, Nat.add_comm 1]
    | ending stop =>
      rw [List.cons_append, anchors, anchors, ih, tokens, List.length_cons, Nat.add_assoc, Nat.add_comm 1, List.cons_append]
    | opening indent start => exact congrArg (Anchor.start start n true :: ·) ih
    | _ => exact ih

theorem Plain.anchors (h : Plain ss) : anchors n ss = [] := by
  induction ss generalizing n with
  | nil => rfl
  | cons s ss ih =>
    have ⟨hs, hss⟩ := List.forall_mem_cons.mp h
    cases s with
    | token t => exact ih hss
    | gap text => exact ih hss
    | _ => cases hs

/-- Segments without anchors only move on. -/
theorem Plain.anchors_append (h : Plain ss) (more : List Segment) :
    Segment.anchors n (ss ++ more) = Segment.anchors (n + (tokens ss).length) more := by
  rw [Segment.anchors_append, h.anchors, List.nil_append]

theorem anchors_openingAt (position : Position) (indent : String) (start : Nat) (ss : List Segment) :
    anchors n (Stmt.openingAt position indent start ++ ss) = .start start n true :: anchors n ss := by
  cases position <;> rfl

theorem anchors_ifOpening (position : Position) (indent : String) (start : Nat) (ss : List Segment) :
    anchors n ((if position = .afterElse then [gap " "] else Stmt.openingAt position indent start) ++ ss) =
      (if position = .afterElse then [] else [.start start n true]) ++ anchors n ss := by
  cases position <;> rfl

/-- What comes after a condition. -/
theorem anchors_condition (word : Keyword) (c : Expr) (ss : List Segment) :
    anchors n (token (.keyword word) :: gap " " :: token .lparen :: (c.layout ++ token .rparen :: ss)) =
      anchors (n + (3 + (tokens c.layout).length)) ss := by
  have hcond := c.plain_layout.anchors_append (n := n + 1 + 1) (token .rparen :: ss)
  have hcount : n + 1 + 1 + (tokens c.layout).length + 1 = n + (3 + (tokens c.layout).length) := by omega
  rw [← hcount]
  exact hcond

/-- What comes after the header of a `for`. -/
theorem anchors_header {as : List Segment} (has : Plain as) (c u : Option Expr) (ss : List Segment) :
    anchors n (token (.keyword .«for») :: gap " " :: token .lparen :: (as ++ token .semicolon ::
        (Expr.headerLayout c ++ token .semicolon :: (Expr.headerLayout u ++ token .rparen :: ss)))) =
      anchors (n + (5 + (tokens (as ++ (Expr.headerLayout c ++ Expr.headerLayout u))).length)) ss := by
  have hinit := has.anchors_append (n := n + 1 + 1) (token .semicolon ::
    (Expr.headerLayout c ++ token .semicolon :: (Expr.headerLayout u ++ token .rparen :: ss)))
  refine hinit.trans ?_
  rw [anchors, (Expr.plain_headerLayout c).anchors_append, anchors, (Expr.plain_headerLayout u).anchors_append, anchors,
    tokens_append, tokens_append, List.length_append, List.length_append]
  congr 1
  omega

end Segment

namespace Stmt

theorem anchors_endLayout (body : Stmt) (n : Nat) : Segment.anchors n (endLayout body) = [] :=
  (plain_endLayout body).anchors

theorem filter_ifOpening (position : Position) (start n : Nat) :
    (if position = .afterElse then [] else [Anchor.start start n true]).filter Anchor.asks =
      if position = .afterElse then [] else [.start start n true] := by
  cases position <;> rfl

theorem anchors_layout_of_endsLine {s : Stmt} (h : s.endsLine = true) (position : Position) (indent : String) (n : Nat) :
    Segment.anchors n (s.layout position indent) = (s.anchors position n).filter Anchor.asks := by
  obtain ⟨ss, hss, hlayout⟩ := exists_layout_of_endsLine h position indent
  have htokens := tokens_layout position indent s
  rw [hlayout, tokens_openingAt, Segment.tokens_append] at htokens
  rw [hlayout, anchors_openingAt, hss.anchors_append, anchors_of_endsLine h, ← htokens, List.length_append]
  rfl

mutual

/-- The anchors of a statement at which the printer asks for comments are those of its layout. -/
theorem anchors_layout (position : Position) (indent : String) (n : Nat) : ∀ s : Stmt,
    Segment.anchors n (s.layout position indent) = (s.anchors position n).filter Anchor.asks
  | .block span body => by
    have hclose : ∀ n, Segment.anchors n [gap indent, token .rbrace] = [] := fun _ => rfl
    have hclose' : ∀ n, Segment.anchors n [gap indent, token .rbrace, gap "\n"] = [] := fun _ => rfl
    have hbody := anchors_layouts (indent ++ tab) (n + 1) body
    cases position with
    | ownLine =>
      rw [layout, anchors, Segment.anchors, Segment.anchors, Segment.anchors, Segment.anchors_append, hclose', hbody,
        List.append_nil]
      rfl
    | body | afterElse =>
      rw [layout, anchors, Segment.anchors, Segment.anchors, Segment.anchors, Segment.anchors_append, hclose, hbody,
        List.append_nil]
      rfl
  | .ifElse span cond t none => by
    rw [layout, anchors, anchors_ifOpening, anchors_condition, Segment.anchors_append, anchors_layout .body _ _ t,
      anchors_endLayout, List.filter_append, filter_ifOpening, List.filter_append]
    rfl
  | .ifElse span cond t (some e) => by
    rw [layout, anchors, anchors_ifOpening, anchors_condition, Segment.anchors_append, anchors_layout .body _ _ t,
      List.filter_append, filter_ifOpening, List.filter_append, tokens_layout, Segment.anchors, Segment.anchors,
      Segment.anchors_append, anchors_endLayout, List.append_nil, anchors_layout .afterElse _ _ e,
      Nat.add_assoc _ t.printed.length]
  | .whileLoop span cond body => by
    rw [layout, anchors, anchors_openingAt, anchors_condition, Segment.anchors_append, anchors_endLayout, List.append_nil,
      anchors_layout .body _ _ body]
    rfl
  | .forLoop span init cond update body => by
    have hinit : Plain ((init.map (simpleLayout (indentAt position indent) (indentAt position indent ++ "for ("))).getD []) := by
      cases init with
      | none => exact plain_nil
      | some i => exact plain_simpleLayout _ _ i
    have hfirst : ((init.map fun s => Anchor.start s.span.start (n + 2) false).toList).filter Anchor.asks = [] := by
      cases init <;> rfl
    rw [layout, anchors, anchors_openingAt, anchors_header hinit, Segment.anchors_append, anchors_endLayout, List.append_nil,
      anchors_layout .body _ _ body, Segment.tokens_append, tokens_init, ← Segment.tokens_append,
      List.filter_cons_of_pos rfl, List.filter_append, hfirst, List.nil_append]
  | .expr .. | .localVar .. | .ret .. | .brk .. | .cont .. | .empty .. =>
    anchors_layout_of_endsLine rfl position indent n

theorem anchors_layouts (indent : String) (n : Nat) : ∀ ss : List Stmt,
    Segment.anchors n (layouts indent ss) = (anchorsAll n ss).filter Anchor.asks
  | [] => rfl
  | s :: ss => by
    rw [layouts, anchorsAll, Segment.anchors_append, List.filter_append, anchors_layout .ownLine indent n s,
      tokens_layout, anchors_layouts indent _ ss]

end

end Stmt

namespace Member

variable {n : Nat}

/-- A field or method is printed with the same tokens at every indentation. -/
theorem tokens_layout (indent : String) (m : Member) : tokens (m.layout indent) = m.printed := by
  rw [printed]
  cases m with
  | field span d =>
    simp only [layout, tokens, Segment.tokens_append, Stmt.tokens_initLayout indent, Stmt.tokens_initLayout "" ("" ++ _)]
  | method span d =>
    simp only [layout, tokens, Segment.tokens_append, Stmt.tokens_layouts]

theorem anchors_layout (indent : String) (n : Nat) (m : Member) :
    Segment.anchors n (m.layout indent) = (m.anchors n).filter Anchor.asks := by
  cases m with
  | field span d =>
    have htokens := tokens_layout indent (.field span d)
    have hplain := plain_append (plain_append (Modifier.plain_layouts d.modifiers)
      (plain_declLayout d.ty.value d.name.value)) (plain_initLayout indent
        (indent ++ (Writer.modifiers d.modifiers ++ d.ty.value.text ++ " " ++ d.name.value)) d.init)
    change tokens (_ ++ [ending span.stop]) = _ at htokens
    rw [Segment.tokens_append] at htokens
    rw [layout, anchors, ← htokens, Segment.anchors, hplain.anchors_append, List.length_append]
    rfl
  | method span d =>
    have hdecl := plain_append (Modifier.plain_layouts d.modifiers) (plain_declLayout d.ret.value d.name.value)
    have hclose : ∀ n, Segment.anchors n [gap indent, token .rbrace, gap "\n"] = [] := fun _ => rfl
    have hcount : n + (tokens (Modifier.layouts d.modifiers ++ declLayout d.ret.value d.name.value)).length + 1 +
        (tokens (Param.layouts d.params)).length + 1 + 1 = n + ((tokens (Modifier.layouts d.modifiers ++
          (declLayout d.ret.value d.name.value ++ Param.layouts d.params))).length + 3) := by
      simp only [Segment.tokens_append, List.length_append]
      omega
    rw [layout, anchors, Segment.anchors, hdecl.anchors_append, Segment.anchors,
      (Param.plain_layouts d.params).anchors_append, Segment.anchors, Segment.anchors, Segment.anchors, Segment.anchors,
      Segment.anchors_append, hclose, List.append_nil, hcount, Stmt.anchors_layouts]
    rfl

theorem anchors_layoutsAfter (indent : String) (previous : Member) (ms : List Member) :
    Segment.anchors n (layoutsAfter indent previous ms) = Segment.anchors n (layouts indent ms) := by
  cases ms with
  | nil => rfl
  | cons m ms =>
    rw [layoutsAfter_eq]
    split <;> rfl

theorem anchors_layouts (indent : String) (n : Nat) : ∀ ms : List Member,
    Segment.anchors n (layouts indent ms) = (anchorsAll n ms).filter Anchor.asks
  | [] => rfl
  | m :: ms => by
    rw [layouts, anchorsAll, Segment.anchors_append, List.filter_append, anchors_layout, tokens_layout,
      anchors_layoutsAfter, anchors_layouts indent _ ms]

end Member

namespace ClassDecl

theorem anchors_layout (n : Nat) (c : ClassDecl) :
    Segment.anchors n c.layout = (c.anchors n).filter Anchor.asks := by
  have hclose : ∀ n, Segment.anchors n [token .rbrace, gap "\n"] = [] := fun _ => rfl
  rw [layout, anchors, Segment.anchors, (Modifier.plain_layouts c.modifiers).anchors_append, Segment.anchors,
    Segment.anchors, Segment.anchors, Segment.anchors, Segment.anchors, Segment.anchors, Segment.anchors_append, hclose,
    List.append_nil, Member.anchors_layouts]
  rfl

theorem anchors_layouts (n : Nat) : ∀ cs : List ClassDecl,
    Segment.anchors n (layouts cs) = (anchorsAll n cs).filter Anchor.asks
  | [] => rfl
  | [c] => by
    rw [layouts, anchorsAll, anchorsAll, List.append_nil, anchors_layout]
  | c :: d :: cs => by
    rw [layouts_cons_cons, anchorsAll, Segment.anchors_append, List.filter_append, anchors_layout, Segment.anchors,
      anchors_layouts _ (d :: cs)]

end ClassDecl

/-- The anchors of a program at which the printer asks for comments are those of its layout. -/
theorem CompilationUnit.anchors_layout (unit : CompilationUnit) :
    Segment.anchors 0 unit.layout = unit.anchors.filter Anchor.asks := by
  rw [layout, Segment.anchors_append, ClassDecl.anchors_layouts, anchors]
  exact List.append_nil _

end JavaFold
