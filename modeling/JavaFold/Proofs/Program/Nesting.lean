import JavaFold.Proofs.Folding.Attached
import JavaFold.Tree.Program

/-!
# The spans of a program

The span of a class, member, block or statement that was read goes from the start of its first token to the end of its
last one. The spans of all its parts, expressions included, are nested as the parts are, and those of the parts of one
thing lie one behind the other (`CompilationUnit.nested_ofSource?`). Both follow the derivation of the program: what is
derived from tokens one behind the other has spans one behind the other (`Grammar.Row`).
-/

namespace JavaFold

namespace Span

/-- A span lies within another one. -/
def Inside (a b : Span) : Prop := b.start ≤ a.start ∧ a.stop ≤ b.stop

/-- A span ends before another one starts. -/
def Before (a b : Span) : Prop := a.stop ≤ b.start

variable {a b : Span}

theorem Inside.refl (a : Span) : a.Inside a := ⟨Nat.le_refl _, Nat.le_refl _⟩

theorem inside_merge_left (ha : a.start < a.stop) (hb : b.start < b.stop) : a.Inside (a.merge b) := by
  rw [merge_of_lt ha hb]
  exact ⟨Nat.min_le_left _ _, Nat.le_max_left _ _⟩

theorem inside_merge_right (ha : a.start < a.stop) (hb : b.start < b.stop) : b.Inside (a.merge b) := by
  rw [merge_of_lt ha hb]
  exact ⟨Nat.min_le_right _ _, Nat.le_max_right _ _⟩

end Span

/-- No span of the tree is empty, and the spans below a node lie within its own, one behind the other. -/
inductive OrderedTree.Nested : OrderedTree Part → Prop
  | node {p : Part} {ts : List (OrderedTree Part)} (nonempty : p.span.start < p.span.stop)
    (inside : ∀ t ∈ ts, t.label.span.Inside p.span)
    (apart : ts.Pairwise fun t u => t.label.span.Before u.label.span) (below : ∀ t ∈ ts, t.Nested) :
    Nested (.node p ts)

theorem Expr.label_parts (e : Expr) : e.parts.label.span = e.span := by
  cases e <;> rfl

namespace Grammar

open JavaFold.Parser (spanAll)

variable {loose : Bool} {ts us : List (Spanned Token)} {t l r : Spanned Token} {n : Nat} {k : NodeKind} {s : Span}
  {a b : OrderedTree Part} {as bs : List (OrderedTree Part)}

/-! ## Spans of tokens one behind the other -/

theorem Spans.before {a b : Span} (ha : Spans ts a) (hb : Spans us b) (hordered : Ordered (ts ++ us)) : a.Before b := by
  obtain ⟨t, ht, hstop⟩ := ha.stop
  obtain ⟨u, hu, hstart⟩ := hb.start
  rw [Span.Before, hstop, hstart]
  exact (List.pairwise_append.mp hordered.order).2.2 t ht u hu

/-- The first of several tokens starts first. -/
theorem start_spanAll_le (hordered : Ordered ts) (ht : t ∈ ts) : (spanAll ts).start ≤ t.span.start := by
  obtain ⟨u, rest, rfl⟩ := List.exists_cons_of_ne_nil (List.ne_nil_of_mem ht)
  rw [Parser.start_spanAll hordered]
  rcases List.mem_cons.mp ht with rfl | ht
  · exact Nat.le_refl _
  · have hbefore := (List.pairwise_cons.mp hordered.order).1 t ht
    exact Nat.le_trans (Nat.le_of_lt (hordered.nonempty u List.mem_cons_self)) hbefore

/-- The last of several tokens stops last. -/
theorem stop_le_spanAll (hordered : Ordered ts) (ht : t ∈ ts) : t.span.stop ≤ (spanAll ts).stop := by
  obtain rfl | ⟨front, u, rfl⟩ := List.eq_nil_or_concat ts
  · cases ht
  rw [List.concat_eq_append] at hordered ht ⊢
  rw [Parser.stop_spanAll hordered]
  rcases List.mem_append.mp ht with ht | ht
  · have hbefore := (List.pairwise_append.mp hordered.order).2.2 t ht u List.mem_cons_self
    exact Nat.le_trans hbefore (Nat.le_of_lt (hordered.nonempty u (by simp)))
  · rw [List.mem_singleton.mp ht]

theorem Spans.inside (h : Spans ts s) (hordered : Ordered ts) : s.Inside (spanAll ts) := by
  obtain ⟨⟨t, ht, hstart⟩, ⟨u, hu, hstop⟩, -⟩ := h
  rw [Span.Inside, hstart, hstop]
  exact ⟨start_spanAll_le hordered ht, stop_le_spanAll hordered hu⟩

/-- Trees with nested spans, one behind the other along the tokens. -/
structure Row (ts : List (Spanned Token)) (trees : List (OrderedTree Part)) : Prop where
  nested : ∀ t ∈ trees, t.Nested
  spans : ∀ t ∈ trees, Spans ts t.label.span
  apart : trees.Pairwise fun t u => t.label.span.Before u.label.span

namespace Row

theorem nil : Row ts [] := ⟨List.forall_mem_nil _, List.forall_mem_nil _, List.Pairwise.nil⟩

theorem mono (h : Row ts as) (hts : ts ⊆ us) : Row us as := ⟨h.nested, fun a ha => (h.spans a ha).mono hts, h.apart⟩

theorem skip (h : Row us as) (ts : List (Spanned Token)) : Row (ts ++ us) as := h.mono (List.subset_append_right ts us)

theorem before (h : Row ts as) (us : List (Spanned Token)) : Row (ts ++ us) as := h.mono (List.subset_append_left ts us)

theorem cons (h : Row ts as) (t : Spanned Token) : Row (t :: ts) as := h.skip [t]

theorem append (h : Row ts as) (h' : Row us bs) (hordered : Ordered (ts ++ us)) : Row (ts ++ us) (as ++ bs) where
  nested := List.forall_mem_append.mpr ⟨h.nested, h'.nested⟩
  spans := List.forall_mem_append.mpr ⟨(h.before us).spans, (h'.skip ts).spans⟩
  apart := List.pairwise_append.mpr ⟨h.apart, h'.apart, fun a ha b hb => (h.spans a ha).before (h'.spans b hb) hordered⟩

/-- Two rows with a token between them. -/
theorem join (h : Row ts as) (h' : Row us bs) (hordered : Ordered (ts ++ t :: us)) : Row (ts ++ t :: us) (as ++ bs) :=
  h.append (h'.cons t) hordered

/-- A node above a row, whose span covers the row. -/
theorem node (h : Row ts as) (hs : Spans ts s) (inside : ∀ a ∈ as, a.label.span.Inside s) :
    Row ts [.node ⟨k, s⟩ as] where
  nested := List.forall_mem_singleton.mpr (.node hs.nonempty inside h.apart h.nested)
  spans := List.forall_mem_singleton.mpr hs
  apart := List.pairwise_singleton _ _

theorem leaf (hs : Spans ts s) : Row ts [.node ⟨k, s⟩ []] := nil.node hs (List.forall_mem_nil _)

/-- A node whose span is that of all tokens. -/
theorem whole (h : Row ts as) (hordered : Ordered ts) (hts : ts ≠ []) : Row ts [.node ⟨k, spanAll ts⟩ as] :=
  h.node (spans_spanAll hordered hts) fun a ha => (h.spans a ha).inside hordered

/-- A node with a row in parentheses and a row behind them. -/
theorem headed (h : Row ts as) (h' : Row us bs) (hordered : Ordered (l :: r :: (ts ++ t :: us))) :
    Row (l :: r :: (ts ++ t :: us)) [.node ⟨k, spanAll (l :: r :: (ts ++ t :: us))⟩ (as ++ bs)] :=
  (((h.join h' hordered.tail.tail).cons r).cons l).whole hordered (by simp)

theorem merged_left (h : Row ts [a]) (hs : Spans ts s) : Row ts [.node ⟨k, a.label.span.merge s⟩ [a]] := by
  have ha := h.spans a List.mem_cons_self
  refine h.node (ha.merge hs) (List.forall_mem_singleton.mpr ?_)
  exact Span.inside_merge_left ha.nonempty hs.nonempty

theorem merged_right (h : Row ts [a]) (hs : Spans ts s) : Row ts [.node ⟨k, s.merge a.label.span⟩ [a]] := by
  have ha := h.spans a List.mem_cons_self
  refine h.node (hs.merge ha) (List.forall_mem_singleton.mpr ?_)
  exact Span.inside_merge_right hs.nonempty ha.nonempty

/-- A node above two others, whose spans are merged. -/
theorem merged (h : Row ts [a, b]) : Row ts [.node ⟨k, a.label.span.merge b.label.span⟩ [a, b]] := by
  have ha := h.spans a List.mem_cons_self
  have hb := h.spans b (List.mem_cons_of_mem _ List.mem_cons_self)
  refine h.node (ha.merge hb) (List.forall_mem_cons.mpr ⟨?_, List.forall_mem_singleton.mpr ?_⟩)
  · exact Span.inside_merge_left ha.nonempty hb.nonempty
  · exact Span.inside_merge_right ha.nonempty hb.nonempty

end Row

/-! ## Expressions -/

/-- The trees of what expressions are made of. -/
def ExprPart.trees : ExprPart → List (OrderedTree Part)
  | .expr _ e => [e.parts]
  | .args es => Expr.partsAll es

theorem ExprTokens.row {part : ExprPart} (h : ExprTokens loose part ts n) (hordered : Ordered ts) :
    Row ts part.trees := by
  induction h with
  | integer | word | string => exact .leaf (spans_token hordered List.mem_cons_self)
  | name h => exact .leaf (h.spans hordered)
  | @call _ ts us _ _ l r _ _ _ _ ih =>
    have hargs := ih hordered.append.2.tail.append.1
    exact (((hargs.before [r]).cons l).skip ts).whole hordered (by simp)
  | parens _ _ _ ih => exact ((ih hordered.tail.append.1).before _).cons _
  | @postStep ts _ e t _ _ _ _ ih =>
    have he := (ih hordered.append.1).before [t]
    rw [← e.label_parts]
    exact he.merged_left (spans_token hordered (by simp))
  | @negative t v =>
    have ht : Spans [t, v] t.span := spans_token hordered List.mem_cons_self
    exact .leaf (ht.merge (spans_token hordered (by simp)))
  | @unary ts _ e t _ _ _ _ _ ih =>
    have he := (ih hordered.tail).cons t
    rw [← e.label_parts]
    exact he.merged_right (spans_token hordered List.mem_cons_self)
  | @binary ts us _ _ lhs rhs t _ _ _ _ ihl ihr =>
    have hboth := (ihl hordered.append.1).join (ihr hordered.append.2.tail) hordered
    rw [← lhs.label_parts, ← rhs.label_parts]
    exact hboth.merged
  | @assign ts us _ _ target value t _ _ _ _ _ _ ih ihv =>
    have hboth := (ih hordered.append.1).join (ihv hordered.append.2.tail) hordered
    rw [← target.label_parts, ← value.label_parts]
    exact hboth.merged
  | loosen _ ih => exact ih hordered
  | nil => exact .nil
  | last _ ih => exact ih hordered
  | more _ _ _ _ ih ihs => exact (ih hordered.append.1).join (ihs hordered.append.2.tail) hordered

theorem OptionalTokens.row {e : Option Expr} (h : OptionalTokens loose e ts n) (hordered : Ordered ts) :
    Row ts (Expr.optParts e) := by
  cases h with
  | none => exact .nil
  | some h => exact h.row hordered

theorem InitTokens.row {e : Option Expr} (h : InitTokens loose e ts n) (hordered : Ordered ts) :
    Row ts (Expr.optParts e) := by
  cases h with
  | none => exact .nil
  | some _ h => exact (h.row hordered.tail).cons _

/-! ## Statements -/

theorem DeclTokens.row {ty : Spanned Ty} {name : Spanned String} {init : Option Expr}
    (h : DeclTokens loose ty name init ts n) (hordered : Ordered ts) : Row ts (Expr.optParts init) := by
  cases h with
  | mk _ _ _ hinit => exact ((hinit.row hordered.append.2.tail).cons _).skip _

theorem ForInitTokens.row {init : Option Stmt} (h : ForInitTokens loose init ts n) (hordered : Ordered ts) :
    Row ts (init.map Stmt.parts).toList := by
  cases h with
  | none => exact .nil
  | localVar h => exact (h.row hordered).whole hordered h.ne_nil
  | @expr e _ _ h =>
    -- parentheses around the expression are outside of both spans
    have he := h.row hordered
    refine he.node (h.spans hordered) (List.forall_mem_singleton.mpr ?_)
    rw [e.label_parts]
    exact .refl _

/-- The trees of what statements are made of. -/
def StmtPart.trees : StmtPart → List (OrderedTree Part)
  | .stmt s => [s.parts]
  | .stmts ss => Stmt.partsAll ss

theorem StmtTokens.row {part : StmtPart} (h : StmtTokens loose part ts n) (hordered : Ordered ts) :
    Row ts part.trees := by
  induction h with
  | block _ _ _ ih => exact (((ih hordered.tail.append.1).before _).cons _).whole hordered (by simp)
  | expr h => exact ((h.row hordered.append.1).before _).whole hordered (by simp)
  | localVar h => exact ((h.row hordered.append.1).before _).whole hordered (by simp)
  | ifElse _ _ hcond _ _ _ ih | whileLoop _ _ hcond _ _ _ ih =>
    have hparts := hordered.tail.tail.append
    exact (hcond.row hparts.1).headed (ih hparts.2.tail) hordered
  | ifElse_else _ _ hcond _ _ _ _ _ _ _ ih ih' =>
    have hparts := hordered.tail.tail.append
    have hbranches := hparts.2.tail.append
    have hrow := (ih hbranches.1).join (ih' hbranches.2.tail) hparts.2.tail
    exact (hcond.row hparts.1).headed hrow hordered
  | @forLoop init _ _ _ _ _ _ _ _ _ _ _ _ _ _ _ _ _ _ hinit _ hcond _ hupdate _ _ _ ih =>
    have hheader := hordered.tail.tail.append
    have hafter := hheader.2.tail.append
    have hlast := hafter.2.tail.append
    have hbody := (hupdate.row hlast.1).join (ih hlast.2.tail) hafter.2.tail
    have hrest := (hcond.row hafter.1).join hbody hheader.2.tail
    rw [← List.append_assoc] at hrest
    cases init with
    | none => exact (hinit.row hheader.1).headed hrest hordered
    | some i => exact (hinit.row hheader.1).headed hrest hordered
  | ret _ h _ => exact (((h.row hordered.tail.append.1).before _).cons _).whole hordered (by simp)
  | brk | cont => exact Row.nil.whole hordered (by simp)
  | empty => exact .leaf (spans_token hordered List.mem_cons_self)
  | nil => exact .nil
  | cons _ _ ih ihs => exact (ih hordered.append.1).append (ihs hordered.append.2) hordered

/-! ## Classes -/

theorem MemberTokens.row {m : Member} (h : MemberTokens loose m ts n) (hordered : Ordered ts) : Row ts [m.parts] := by
  cases h with
  | field _ _ _ _ hinit _ =>
    have hinit := hinit.row hordered.append.2.append.2.tail.append.1
    exact ((((hinit.before _).cons _).skip _).skip _).whole hordered (by simp)
  | @method _ _ _ _ ts us vs ws _ t lp rp l r _ _ _ _ _ _ _ _ hss _ =>
    have hbody : Ordered (l :: (ws ++ [r])) := hordered.append.2.append.2.tail.tail.append.2.tail
    have hblock : Row (l :: (ws ++ [r])) [.node ⟨.stmt .block, spanAll (l :: (ws ++ [r]))⟩ (Stmt.partsAll _)] :=
      (((hss.row hbody.tail.append.1).before _).cons _).whole hbody (by simp)
    exact ((((((hblock.cons rp).skip vs).cons lp).cons t).skip us).skip ts).whole hordered (by simp)

/-- Parts that are trees with nested spans, one after the other. -/
theorem Sequence.row {α : Type} {P : α → List (Spanned Token) → Nat → Prop} {tree : α → OrderedTree Part} {xs : List α}
    (h : Sequence P xs ts n) (hordered : Ordered ts) (hrow : ∀ x ts n, P x ts n → Ordered ts → Row ts [tree x]) :
    Row ts (xs.map tree) := by
  induction h with
  | nil => exact .nil
  | cons h _ ih => exact (hrow _ _ _ h hordered.append.1).append (ih hordered.append.2) hordered

theorem ClassTokens.row {c : ClassDecl} (h : ClassTokens loose c ts n) (hordered : Ordered ts) : Row ts [c.parts] := by
  cases h with
  | mk _ _ _ _ hmembers _ =>
    have hrow := hmembers.row hordered.append.2.tail.tail.tail.append.1 fun _ _ _ => MemberTokens.row
    exact (((((hrow.before _).cons _).cons _).cons _).skip _).whole hordered (by simp)

end Grammar

/-! ## What starts and stops with its tokens -/

/-- A class, a member, the body of a method, a statement, or the first part of a `for`. -/
inductive Construct
  | classDecl (c : ClassDecl)
  | member (m : Member)
  | body (b : Block)
  | stmt (s : Stmt)
  | forInit (s : Stmt)

mutual

/-- A statement and the constructs in it. -/
def Stmt.constructs : Stmt → List Construct
  | .block span ss => .stmt (.block span ss) :: Stmt.constructsAll ss
  | .ifElse span c t none => .stmt (.ifElse span c t none) :: Stmt.constructs t
  | .ifElse span c t (some e) => .stmt (.ifElse span c t (some e)) :: (Stmt.constructs t ++ Stmt.constructs e)
  | .whileLoop span c b => .stmt (.whileLoop span c b) :: Stmt.constructs b
  | .forLoop span i c u b => .stmt (.forLoop span i c u b) :: ((i.map .forInit).toList ++ Stmt.constructs b)
  | s => [.stmt s]

def Stmt.constructsAll : List Stmt → List Construct
  | [] => []
  | s :: ss => Stmt.constructs s ++ Stmt.constructsAll ss

end

def Member.constructs : Member → List Construct
  | .field span d => [.member (.field span d)]
  | .method span d => .member (.method span d) :: .body d.body :: Stmt.constructsAll d.body.stmts

def ClassDecl.constructs (c : ClassDecl) : List Construct := .classDecl c :: c.members.flatMap Member.constructs

/-- All constructs of a program. -/
def CompilationUnit.constructs (unit : CompilationUnit) : List Construct := unit.classes.flatMap ClassDecl.constructs

/-- A span goes from the start of the first token to the end of the last one. -/
def Span.Edges (ts : List (Spanned Token)) (s : Span) : Prop :=
  ∃ t u, ts.head? = some t ∧ ts.getLast? = some u ∧ s = ⟨t.span.start, u.span.stop⟩

namespace Construct

open Grammar

/-- The construct is derived from the tokens. -/
def WrittenBy (ts : List (Spanned Token)) : Construct → Prop
  | classDecl c => ∃ n, ClassTokens true c ts n
  | member m => ∃ n, MemberTokens true m ts n
  | body b => ∃ n, StmtTokens true (.stmt (.block b.span b.stmts)) ts n
  | stmt s => ∃ n, StmtTokens true (.stmt s) ts n
  | forInit s => ∃ n, ForInitTokens true (some s) ts n

/-- The construct starts with the first of its tokens and stops with the last one. An expression as the first part of a
`for` has the span of the expression instead. -/
def AtEdges (ts : List (Spanned Token)) : Construct → Prop
  | classDecl c => c.span.Edges ts
  | member m => m.span.Edges ts
  | body b => b.span.Edges ts
  | stmt s => s.span.Edges ts
  | forInit (.expr span e) => span = e.span
  | forInit s => s.span.Edges ts

end Construct

namespace Grammar

open JavaFold.Parser (spanAll)

variable {loose : Bool} {ts us : List (Spanned Token)} {t : Spanned Token} {n : Nat} {xs ys : List Construct}

theorem edges_spanAll (hordered : Ordered ts) (hts : ts ≠ []) : (spanAll ts).Edges ts := by
  refine ⟨ts.head hts, ts.getLast hts, List.head?_eq_some_head hts, List.getLast?_eq_some_getLast hts, ?_⟩
  have hstart : (spanAll ts).start = (ts.head hts).span.start := by
    obtain ⟨t, rest, rfl⟩ := List.exists_cons_of_ne_nil hts
    exact Parser.start_spanAll hordered
  have hstop : (spanAll ts).stop = (ts.getLast hts).span.stop := by
    have hsplit := List.dropLast_concat_getLast hts
    rw [← hsplit] at hordered
    have hlast := Parser.stop_spanAll hordered
    rwa [hsplit] at hlast
  rw [← hstart, ← hstop]

theorem StmtTokens.edges {s : Stmt} (h : StmtTokens loose (.stmt s) ts n) (hordered : Ordered ts) :
    s.span.Edges ts := by
  cases h with
  | empty => exact ⟨_, _, rfl, rfl, rfl⟩
  | _ => exact edges_spanAll hordered (by simp)

/-- A construct starts with the first of the tokens that it is derived from, and stops with the last one. -/
theorem atEdges_of_writtenBy {x : Construct} (h : x.WrittenBy ts) (hordered : Ordered ts) : x.AtEdges ts := by
  cases x with
  | classDecl c =>
    obtain ⟨n, h⟩ := h
    cases h with
    | mk => exact edges_spanAll hordered (by simp)
  | member m =>
    obtain ⟨n, h⟩ := h
    cases h with
    | field => exact edges_spanAll hordered (by simp)
    | method => exact edges_spanAll hordered (by simp)
  | body b =>
    obtain ⟨n, h⟩ := h
    exact h.edges hordered
  | stmt s =>
    obtain ⟨n, h⟩ := h
    exact h.edges hordered
  | forInit s =>
    obtain ⟨n, h⟩ := h
    cases h with
    | localVar h => exact edges_spanAll hordered h.ne_nil
    | expr h => rfl

/-- Constructs that are derived from tokens which stand one after the other among the given ones. -/
def Found (ts : List (Spanned Token)) (xs : List Construct) : Prop := ∀ x ∈ xs, ∃ us, us <:+: ts ∧ x.WrittenBy us

namespace Found

theorem nil : Found ts [] := List.forall_mem_nil _

theorem mono (h : Found us xs) (hus : us <:+: ts) : Found ts xs := by
  intro x hx
  obtain ⟨vs, hvs, hwritten⟩ := h x hx
  exact ⟨vs, hvs.trans hus, hwritten⟩

theorem before (h : Found ts xs) (us : List (Spanned Token)) : Found (ts ++ us) xs :=
  h.mono (List.prefix_append ts us).isInfix

theorem skip (h : Found us xs) (ts : List (Spanned Token)) : Found (ts ++ us) xs :=
  h.mono (List.suffix_append ts us).isInfix

theorem cons (h : Found ts xs) (t : Spanned Token) : Found (t :: ts) xs := h.skip [t]

theorem append (h : Found ts xs) (h' : Found us ys) : Found (ts ++ us) (xs ++ ys) :=
  List.forall_mem_append.mpr ⟨h.before us, h'.skip ts⟩

/-- The construct that all the tokens are derived from. -/
theorem whole {x : Construct} (h : Found ts xs) (hx : x.WrittenBy ts) : Found ts (x :: xs) :=
  List.forall_mem_cons.mpr ⟨⟨ts, List.infix_refl ts, hx⟩, h⟩

end Found

/-- The constructs in what statements are made of. -/
def StmtPart.constructs : StmtPart → List Construct
  | .stmt s => s.constructs
  | .stmts ss => Stmt.constructsAll ss

theorem StmtTokens.found {part : StmtPart} (h : StmtTokens true part ts n) : Found ts part.constructs := by
  induction h with
  | block hl h hr ih => exact ((ih.before _).cons _).whole ⟨_, .block hl h hr⟩
  | expr h hr => exact Found.nil.whole ⟨_, .expr h hr⟩
  | localVar h hr => exact Found.nil.whole ⟨_, .localVar h hr⟩
  | ifElse hk hl hcond hr h hdecl ih =>
    exact ((((ih.cons _).skip _).cons _).cons _).whole ⟨_, .ifElse hk hl hcond hr h hdecl⟩
  | ifElse_else hk hl hcond hr h hdecl htakes hk' h' hdecl' ih ih' =>
    exact (((((ih.append (ih'.cons _)).cons _).skip _).cons _).cons _).whole
      ⟨_, .ifElse_else hk hl hcond hr h hdecl htakes hk' h' hdecl'⟩
  | whileLoop hk hl hcond hr h hdecl ih =>
    exact ((((ih.cons _).skip _).cons _).cons _).whole ⟨_, .whileLoop hk hl hcond hr h hdecl⟩
  | @forLoop init _ _ _ is _ _ _ a _ _ _ _ _ _ _ _ hk hl hinit hm hcond hm' hupdate hr h hdecl ih =>
    have hfirst : Found is (init.map Construct.forInit).toList := by
      cases init with
      | none => exact .nil
      | some i => exact Found.nil.whole ⟨a, hinit⟩
    exact (((hfirst.append (((((ih.cons _).skip _).cons _).skip _).cons _)).cons _).cons _).whole
      ⟨_, .forLoop hk hl hinit hm hcond hm' hupdate hr h hdecl⟩
  | ret hk h hr => exact Found.nil.whole ⟨_, .ret hk h hr⟩
  | brk hk hr => exact Found.nil.whole ⟨_, .brk hk hr⟩
  | cont hk hr => exact Found.nil.whole ⟨_, .cont hk hr⟩
  | empty ht => exact Found.nil.whole ⟨_, .empty ht⟩
  | nil => exact .nil
  | cons _ _ ih ihs => exact ih.append ihs

theorem MemberTokens.found {m : Member} (h : MemberTokens true m ts n) : Found ts m.constructs := by
  cases h with
  | field hms hty hvoid ht hinit hr => exact Found.nil.whole ⟨_, .field hms hty hvoid ht hinit hr⟩
  | @method _ _ _ _ ts us vs ws _ t lp rp l r _ hms hty ht hlp hps hrp hl hss hr =>
    have hbody : Found (l :: (ws ++ [r])) (.body ⟨spanAll (l :: (ws ++ [r])), _⟩ :: Stmt.constructsAll _) :=
      ((hss.found.before _).cons _).whole ⟨_, .block hl hss hr⟩
    exact ((((((hbody.cons rp).skip vs).cons lp).cons t).skip us).skip ts).whole
      ⟨_, .method hms hty ht hlp hps hrp hl hss hr⟩

/-- Constructs of parts of a program, one after the other. -/
theorem Sequence.found {α : Type} {P : α → List (Spanned Token) → Nat → Prop} {constructs : α → List Construct}
    {xs : List α} (h : Sequence P xs ts n) (hfound : ∀ x ts n, P x ts n → Found ts (constructs x)) :
    Found ts (xs.flatMap constructs) := by
  induction h with
  | nil => exact .nil
  | cons h _ ih => exact (hfound _ _ _ h).append ih

theorem ClassTokens.found {c : ClassDecl} (h : ClassTokens true c ts n) : Found ts c.constructs := by
  cases h with
  | mk hms hk ht hl hmembers hr =>
    have hfound := hmembers.found fun _ _ _ => MemberTokens.found
    exact (((((hfound.before _).cons _).cons _).cons _).skip _).whole ⟨_, .mk hms hk ht hl hmembers hr⟩

end Grammar

namespace CompilationUnit

/-- Every class, member, block and statement of a program that was read starts with its first token and stops with its
last one. The spans of all its parts are nested, none of them is empty, and those of the parts of one thing lie one
behind the other. -/
theorem nested_ofSource? {source : String} {unit : CompilationUnit} {comments : List Comment}
    (h : ofSource? source = .ok (unit, comments)) :
    (∀ x ∈ unit.constructs, ∃ ts, ts <:+: (Lexed.ofSource source).tokens ∧ x.WrittenBy ts ∧ x.AtEdges ts) ∧
      (∀ c ∈ unit.classes, c.parts.Nested) ∧ unit.classes.Pairwise fun c d => c.span.Before d.span := by
  obtain ⟨hordered, need, hderives⟩ := derives_beforeEnd h
  have hrow : Grammar.Row _ (unit.classes.map ClassDecl.parts) :=
    hderives.row hordered fun _ _ _ => Grammar.ClassTokens.row
  refine ⟨fun x hx => ?_, List.forall_mem_map.mp hrow.nested, (List.pairwise_map.mp hrow.apart).imp fun h => h⟩
  have hfound : Grammar.Found _ unit.constructs := hderives.found fun _ _ _ => Grammar.ClassTokens.found
  obtain ⟨ts, ⟨front, back, hsplit⟩, hwritten⟩ := hfound x hx
  have hinside : Ordered ts := by
    rw [← hsplit] at hordered
    exact hordered.append.1.append.2
  refine ⟨ts, ?_, hwritten, Grammar.atEdges_of_writtenBy hwritten hinside⟩
  exact List.IsInfix.trans ⟨front, back, hsplit⟩ (List.takeWhile_prefix _).isInfix

/-- A class, a field with operands and arguments, and a method whose body has a `for` with an expression in front. -/
theorem nested_ofSource?_for :
    let source := "class A \x7b int x = (1) + f(2, y++); void m() \x7b for (i = 0; i < 3; i++) ; \x7d \x7d"
    ∃ unit comments, ofSource? source = .ok (unit, comments) ∧ unit.constructs.length = 7 ∧
      (∀ x ∈ unit.constructs, ∃ ts, ts <:+: (Lexed.ofSource source).tokens ∧ x.WrittenBy ts ∧ x.AtEdges ts) ∧
      (∀ c ∈ unit.classes, c.parts.Nested) ∧ unit.classes.Pairwise fun c d => c.span.Before d.span := by
  intro source
  have hread : ((ofSource? source).toOption.map fun parsed => parsed.1.constructs.length) = some 7 := by decide +kernel
  obtain ⟨⟨unit, comments⟩, hparsed, hlength⟩ := Option.map_eq_some_iff.mp hread
  have h := eq_ok_of_toOption hparsed
  exact ⟨unit, comments, h, hlength, nested_ofSource? h⟩

end CompilationUnit

end JavaFold
