import JavaFold.Proofs.Program.Anchors
import JavaFold.Proofs.Program.Grammar.Accepted

/-!
# The order of anchors

The anchors of a program that was read are at the edges of its tokens, in their order
(`CompilationUnit.Derives.along`). So what is printed first has started first and stopped first, and no two
classes, members or statements to which comments are attached start at one place.
-/

namespace JavaFold

namespace Grammar

open JavaFold.Parser (spanAll)
open Writer (Position)

variable {loose : Bool} {ts us : List (Spanned Token)} {t r : Spanned Token} {n : Nat} {as bs : List Anchor}

/-! ## Spans of expressions -/

/-- A span that starts where one of the tokens does, and stops where one of them does. -/
structure Spans (ts : List (Spanned Token)) (s : Span) : Prop where
  start : ∃ t ∈ ts, s.start = t.span.start
  stop : ∃ t ∈ ts, s.stop = t.span.stop
  nonempty : s.start < s.stop

theorem Spans.mono {s : Span} (h : Spans ts s) (hts : ts ⊆ us) : Spans us s := by
  obtain ⟨⟨t, ht, hstart⟩, ⟨u, hu, hstop⟩, hlt⟩ := h
  exact ⟨⟨t, hts ht, hstart⟩, ⟨u, hts hu, hstop⟩, hlt⟩

theorem Spans.append_left {s : Span} (h : Spans ts s) (us : List (Spanned Token)) : Spans (ts ++ us) s :=
  h.mono (List.subset_append_left ts us)

theorem Spans.append_right {s : Span} (h : Spans us s) (ts : List (Spanned Token)) : Spans (ts ++ us) s :=
  h.mono (List.subset_append_right ts us)

theorem Spans.cons {s : Span} (h : Spans ts s) (t : Spanned Token) : Spans (t :: ts) s := h.append_right [t]

theorem Spans.merge {a b : Span} (ha : Spans ts a) (hb : Spans ts b) : Spans ts (a.merge b) := by
  rw [Span.merge_of_lt ha.nonempty hb.nonempty]
  refine ⟨?_, ?_, ?_⟩
  · rcases Nat.le_total a.start b.start with hle | hle
    · rw [Nat.min_eq_left hle]
      exact ha.start
    · rw [Nat.min_eq_right hle]
      exact hb.start
  · rcases Nat.le_total a.stop b.stop with hle | hle
    · rw [Nat.max_eq_right hle]
      exact hb.stop
    · rw [Nat.max_eq_left hle]
      exact ha.stop
  · have hlt := ha.nonempty
    show min a.start b.start < max a.stop b.stop
    omega

theorem spans_token (h : Ordered ts) (ht : t ∈ ts) : Spans ts t.span :=
  ⟨⟨t, ht, rfl⟩, ⟨t, ht, rfl⟩, h.nonempty t ht⟩

theorem spans_spanAll (h : Ordered ts) (hts : ts ≠ []) : Spans ts (spanAll ts) := by
  obtain ⟨t, ts, rfl⟩ := List.exists_cons_of_ne_nil hts
  have hfirst := spans_token h (List.mem_cons_self (a := t))
  rw [spanAll]
  rcases Parser.lastSpan_cases t.span ts with hlast | ⟨u, hu, hlast⟩
  · rw [hlast]
    exact hfirst.merge hfirst
  · rw [hlast]
    exact hfirst.merge (spans_token h (List.mem_cons_of_mem _ hu))

theorem PathTokens.spans {path : Spanned String} (h : PathTokens path ts) (hordered : Ordered ts) :
    Spans ts path.span := by
  induction h with
  | word ht => exact spans_token hordered List.mem_cons_self
  | part _ hd ht ih =>
    exact ((ih hordered.append.1).append_left _).merge (spans_token hordered (by simp))

/-- What an expression spans of its tokens. -/
def ExprPart.Spans (ts : List (Spanned Token)) : ExprPart → Prop
  | .expr _ e => Grammar.Spans ts e.span
  | .args _ => True

theorem ExprTokens.spans {part : ExprPart} (h : ExprTokens loose part ts n) (hordered : Ordered ts) :
    part.Spans ts := by
  induction h with
  | integer => exact spans_token hordered List.mem_cons_self
  | word => exact spans_token hordered List.mem_cons_self
  | string => exact spans_token hordered List.mem_cons_self
  | name h => exact h.spans hordered
  | call => exact spans_spanAll hordered (by simp)
  | parens _ _ _ ih => exact Spans.cons ((ih hordered.tail.append.1).append_left _) _
  | postStep _ _ _ ih => exact ((ih hordered.append.1).append_left _).merge (spans_token hordered (by simp))
  | negative =>
    exact (spans_token hordered List.mem_cons_self).merge (spans_token hordered (by simp))
  | unary _ _ _ _ ih =>
    exact (spans_token hordered List.mem_cons_self).merge ((ih hordered.tail).cons _)
  | binary _ _ _ ihl ihr =>
    exact ((ihl hordered.append.1).append_left _).merge (((ihr hordered.append.2.tail).cons _).append_right _)
  | assign _ _ _ _ _ ih ihv =>
    exact ((ih hordered.append.1).append_left _).merge (((ihv hordered.append.2.tail).cons _).append_right _)
  | loosen _ ih => exact ih hordered
  | nil => exact trivial
  | last => exact trivial
  | more => exact trivial

/-- Where tokens start and stop. -/
def edges (ts : List (Spanned Token)) : List (Nat ⊕ Nat) := ts.flatMap fun t => [.inl t.span.start, .inr t.span.stop]

/-- The anchors are at the edges of the tokens, in their order. -/
def Along (as : List Anchor) (ts : List (Spanned Token)) : Prop := (as.map Anchor.edge).Sublist (edges ts)

theorem along_nil : Along [] ts := List.nil_sublist _

theorem Along.append (h : Along as ts) (h' : Along bs us) : Along (as ++ bs) (ts ++ us) := by
  rw [Along, List.map_append, edges, List.flatMap_append]
  exact List.Sublist.append h h'

theorem Along.skip (h : Along as us) (ts : List (Spanned Token)) : Along as (ts ++ us) := along_nil.append h

theorem Along.before (h : Along as ts) (us : List (Spanned Token)) : Along as (ts ++ us) := by
  have happend : Along (as ++ []) (ts ++ us) := h.append along_nil
  rwa [List.append_nil] at happend

theorem Along.cons (h : Along as ts) (t : Spanned Token) : Along as (t :: ts) := h.skip [t]

/-- Something starts with its first token. -/
theorem Along.start (h : Along as ts) (hordered : Ordered (t :: ts)) (n : Nat) (opensLine : Bool) :
    Along (.start (spanAll (t :: ts)).start n opensLine :: as) (t :: ts) := by
  rw [Along, List.map_cons, Anchor.edge, Parser.start_spanAll hordered]
  exact (List.Sublist.cons _ h).cons_cons _

/-- Something starts with its first token and stops with its last one. -/
theorem along_line (ts : List (Spanned Token)) (hordered : Ordered (ts ++ [r])) (n m : Nat) :
    Along [.start (spanAll (ts ++ [r])).start n true, .stop (spanAll (ts ++ [r])).stop m] (ts ++ [r]) := by
  have hstop : Along [.stop (spanAll (ts ++ [r])).stop m] [r] := by
    rw [Parser.stop_spanAll hordered]
    exact List.sublist_cons_self _ _
  cases ts with
  | nil =>
    rw [Parser.stop_spanAll hordered]
    rw [List.nil_append] at hordered ⊢
    rw [Along, List.map_cons, Anchor.edge, Parser.start_spanAll hordered]
    exact List.Sublist.refl _
  | cons t ts => exact (hstop.skip ts).start hordered n true

/-- An `if` starts with its first token, but for one after `else`. -/
theorem along_branch (hordered : Ordered (t :: ts)) (position : Position) (n : Nat) (h : Along as ts) :
    Along ((if position = .afterElse then [] else [.start (spanAll (t :: ts)).start n true]) ++ as) (t :: ts) := by
  split
  · exact h.cons t
  · exact h.start hordered n true

theorem along_of_spans {s : Span} (h : Spans ts s) (n : Nat) : Along [.start s.start n false] ts := by
  obtain ⟨t, ht, hstart⟩ := h.start
  refine List.singleton_sublist.mpr (List.mem_flatMap.mpr ⟨t, ht, ?_⟩)
  rw [Anchor.edge, hstart]
  exact List.mem_cons_self

theorem DeclTokens.ne_nil {ty : Spanned Ty} {name : Spanned String} {init : Option Expr}
    (h : DeclTokens loose ty name init ts n) : ts ≠ [] := by
  cases h
  simp

theorem ForInitTokens.along {init : Option Stmt} (h : ForInitTokens loose init ts n) (hordered : Ordered ts) (m : Nat) :
    Along (init.map fun s => .start s.span.start m false).toList ts := by
  cases h with
  | none => exact along_nil
  | localVar h => exact along_of_spans (spans_spanAll hordered h.ne_nil) m
  | expr h => exact along_of_spans (h.spans hordered) m

/-- The anchors of a part of a statement are at the edges of its tokens. -/
def StmtPart.Along (ts : List (Spanned Token)) : StmtPart → Prop
  | .stmt s => ∀ position n, Grammar.Along (s.anchors position n) ts
  | .stmts ss => ∀ n, Grammar.Along (Stmt.anchorsAll n ss) ts

theorem StmtTokens.along {part : StmtPart} (h : StmtTokens loose part ts n) (hordered : Ordered ts) :
    part.Along ts := by
  induction h with
  | block _ _ _ ih => exact fun _ n => ((ih hordered.tail.append.1 (n + 1)).before _).start hordered n _
  | expr => exact fun _ _ => along_line _ hordered _ _
  | localVar => exact fun _ _ => along_line _ hordered _ _
  | ifElse _ _ _ _ _ _ ih =>
    have hbody := ih hordered.tail.tail.append.2.tail .body
    refine fun position n => along_branch hordered position n ?_
    rw [List.append_nil]
    exact (((hbody _).cons _).skip _).cons _
  | ifElse_else _ _ _ _ _ _ _ _ _ _ ih ih' =>
    have hbodies := hordered.tail.tail.append.2.tail.append
    have hthen := ih hbodies.1 .body
    have helse := ih' hbodies.2.tail .afterElse
    exact fun position n => along_branch hordered position n
      (((((hthen _).append ((helse _).cons _)).cons _).skip _).cons _)
  | whileLoop _ _ _ _ _ _ ih =>
    intro position n
    exact ((((ih hordered.tail.tail.append.2.tail .body _).cons _).skip _).cons _).start hordered n true
  | forLoop _ _ hinit _ _ _ _ _ _ _ ih =>
    have hheader := hordered.tail.tail.append
    have hbody := ih hheader.2.tail.append.2.tail.append.2.tail .body
    refine fun position n => Along.start ?_ hordered n true
    exact ((hinit.along hheader.1 _).append (((((((hbody _).cons _).skip _).cons _).skip _).cons _))).cons _
  | @ret _ ts _ k => exact fun _ _ => along_line (k :: ts) hordered _ _
  | @brk k => exact fun _ _ => along_line [k] hordered _ _
  | @cont k => exact fun _ _ => along_line [k] hordered _ _
  | empty => exact fun _ _ => List.Sublist.refl _
  | nil => exact fun _ => along_nil
  | cons _ _ ih ihs =>
    exact fun n => (ih hordered.append.1 .ownLine n).append (ihs hordered.append.2 _)

/-- Something starts with the first of its tokens. -/
theorem Along.start_append (h : Along as us) (hts : ts ≠ []) (hordered : Ordered (ts ++ us)) (n : Nat) (opensLine : Bool) :
    Along (.start (spanAll (ts ++ us)).start n opensLine :: as) (ts ++ us) := by
  obtain ⟨t, ts, rfl⟩ := List.exists_cons_of_ne_nil hts
  exact (h.skip ts).start hordered n opensLine

theorem MemberTokens.along {m : Member} (h : MemberTokens loose m ts n) (hordered : Ordered ts) (k : Nat) :
    Along (m.anchors k) ts := by
  cases h with
  | @field _ _ _ ts us vs _ t r =>
    have htokens : ts ++ (us ++ t :: (vs ++ [r])) = (ts ++ (us ++ t :: vs)) ++ [r] := by simp
    rw [htokens] at hordered ⊢
    exact along_line _ hordered _ _
  | @method _ _ _ _ ts us vs ws _ t lp rp l r _ _ _ _ _ _ _ _ hss =>
    have htokens : ts ++ (us ++ t :: lp :: (vs ++ rp :: (l :: (ws ++ [r])))) =
        (ts ++ (us ++ t :: lp :: (vs ++ [rp, l]))) ++ (ws ++ [r]) := by simp
    rw [htokens] at hordered ⊢
    exact ((hss.along hordered.append.2.append.1 _).before [r]).start_append (by simp) hordered k true

theorem along_members {ms : List Member} (h : Sequence (MemberTokens loose) ms ts n) (hordered : Ordered ts) (k : Nat) :
    Along (Member.anchorsAll k ms) ts := by
  induction h generalizing k with
  | nil => exact along_nil
  | cons h _ ih => exact (h.along hordered.append.1 k).append (ih hordered.append.2 _)

theorem ClassTokens.along {c : ClassDecl} (h : ClassTokens loose c ts n) (hordered : Ordered ts) (k : Nat) :
    Along (c.anchors k) ts := by
  cases h with
  | @mk _ _ ts us _ k' t l r _ _ _ _ _ hmembers =>
    have htokens : ts ++ k' :: t :: l :: (us ++ [r]) = (ts ++ [k', t, l]) ++ (us ++ [r]) := by simp
    rw [htokens] at hordered ⊢
    exact ((along_members hmembers hordered.append.2.append.1 _).before [r]).start_append (by simp) hordered k true

theorem along_classes {cs : List ClassDecl} (h : Sequence (ClassTokens loose) cs ts n) (hordered : Ordered ts) (k : Nat) :
    Along (ClassDecl.anchorsAll k cs) ts := by
  induction h generalizing k with
  | nil => exact along_nil
  | cons h _ ih => exact (h.along hordered.append.1 k).append (ih hordered.append.2 _)

end Grammar

/-- The anchors of a program are at the edges of its tokens, in their order. -/
theorem CompilationUnit.Derives.along {loose : Bool} {unit : CompilationUnit} {ts : List (Spanned Token)} {need : Nat}
    (h : unit.Derives loose ts need) (hordered : Ordered ts) : Grammar.Along unit.anchors ts :=
  Grammar.along_classes h hordered 0

/-! ## Starts and stops in order -/

namespace Anchor

theorem sublist_starts (all : Bool) (as : List Anchor) :
    ((as.filterMap (start? all)).map Prod.fst).Sublist ((as.map edge).filterMap Sum.getLeft?) := by
  induction as with
  | nil => exact List.Sublist.refl _
  | cons a as ih =>
    cases a with
    | start offset before opensLine =>
      rw [List.filterMap_cons, start?]
      cases all || opensLine
      · exact ih.cons _
      · exact ih.cons_cons _
    | stop offset before => exact ih

theorem map_stops (as : List Anchor) :
    (as.filterMap stop?).map Prod.fst = (as.map edge).filterMap Sum.getRight? := by
  induction as with
  | nil => rfl
  | cons a as ih =>
    cases a with
    | start offset before opensLine => exact ih
    | stop offset before => exact congrArg (offset :: ·) ih

end Anchor

namespace CompilationUnit

open Grammar (edges)

variable {loose : Bool} {unit : CompilationUnit} {ts : List (Spanned Token)} {need : Nat}

theorem filterMap_edges (ts : List (Spanned Token)) : (edges ts).filterMap Sum.getLeft? = ts.map (·.span.start) ∧
    (edges ts).filterMap Sum.getRight? = ts.map (·.span.stop) := by
  induction ts with
  | nil => exact ⟨rfl, rfl⟩
  | cons t ts ih => exact ⟨congrArg (t.span.start :: ·) ih.1, congrArg (t.span.stop :: ·) ih.2⟩

/-- The classes, members and statements of a program start one after the other. -/
theorem pairwise_starts (h : unit.Derives loose ts need) (hordered : Ordered ts) (all : Bool) :
    (unit.starts all).Pairwise fun a b => a.1 < b.1 := by
  have hstarts := (Anchor.sublist_starts all unit.anchors).trans ((h.along hordered).filterMap Sum.getLeft?)
  rw [(filterMap_edges ts).1] at hstarts
  refine List.pairwise_map.mp (List.Pairwise.sublist hstarts (List.pairwise_map.mpr ?_))
  refine hordered.order.imp_of_mem fun ha _ hab => ?_
  exact Nat.lt_of_lt_of_le (hordered.nonempty _ ha) hab

/-- The fields and simple statements of a program stop where tokens do. -/
theorem sublist_stops (h : unit.Derives loose ts need) (hordered : Ordered ts) :
    (unit.stops.map Prod.fst).Sublist (ts.map (·.span.stop)) := by
  have hstops := (h.along hordered).filterMap Sum.getRight?
  rwa [(filterMap_edges ts).2, ← Anchor.map_stops] at hstops

/-- The fields and simple statements of a program stop one after the other. -/
theorem pairwise_stops (h : unit.Derives loose ts need) (hordered : Ordered ts) :
    unit.stops.Pairwise fun a b => a.1 < b.1 := by
  refine List.pairwise_map.mp (List.Pairwise.sublist (sublist_stops h hordered) (List.pairwise_map.mpr ?_))
  refine hordered.order.imp_of_mem fun _ hb hab => ?_
  exact Nat.lt_of_le_of_lt hab (hordered.nonempty _ hb)

end CompilationUnit

end JavaFold
