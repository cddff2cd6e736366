import JavaFold.Proofs.Program.Grammar.Unit
import JavaFold.Proofs.Program.Relocated
import JavaFold.Proofs.Program.Reread.Expr

/-!
# Places of what was read

Tokens that were read from a text are in order. So a statement that was read starts where its first token
does and stops where its last one does, and its layout is that of the printed statement with the places of
the tokens (`Segment.Relocates`).
-/

namespace JavaFold

open Segment

/-- Tokens in order, none of them empty. -/
structure Ordered (ts : List (Spanned Token)) : Prop where
  order : ts.Pairwise fun a b => a.span.stop ≤ b.span.start
  nonempty : ∀ t ∈ ts, t.span.start < t.span.stop

namespace Ordered

variable {ts us : List (Spanned Token)} {t r : Spanned Token}

theorem append (h : Ordered (ts ++ us)) : Ordered ts ∧ Ordered us := by
  have horder := List.pairwise_append.mp h.order
  exact ⟨⟨horder.1, fun t ht => h.nonempty t (List.mem_append_left _ ht)⟩,
    horder.2.1, fun t ht => h.nonempty t (List.mem_append_right _ ht)⟩

theorem tail (h : Ordered (t :: ts)) : Ordered ts :=
  ⟨(List.pairwise_cons.mp h.order).2, fun u hu => h.nonempty u (List.mem_cons_of_mem _ hu)⟩

end Ordered

namespace Span

theorem merge_of_lt {a b : Span} (ha : a.start < a.stop) (hb : b.start < b.stop) :
    a.merge b = ⟨min a.start b.start, max a.stop b.stop⟩ := by
  have hdummy : ∀ {s : Span}, s.start < s.stop → ¬s.isDummy = true := by
    intro s hs h
    rw [isDummy_iff.mp h] at hs
    exact absurd hs (Nat.lt_irrefl 0)
  rw [merge, if_neg (hdummy ha), if_neg (hdummy hb)]

end Span

namespace Parser

variable {ts us : List (Spanned Token)} {t r : Spanned Token}

theorem lastSpan_cases : ∀ (s : Span) (ts : List (Spanned Token)),
    lastSpan s ts = s ∨ ∃ t ∈ ts, lastSpan s ts = t.span
  | _, [] => .inl rfl
  | s, t :: ts => by
    rcases lastSpan_cases t.span ts with h | ⟨u, hu, h⟩
    · exact .inr ⟨t, List.mem_cons_self, h⟩
    · exact .inr ⟨u, List.mem_cons_of_mem _ hu, h⟩

/-- What was read starts where its first token does. -/
theorem start_spanAll (h : Ordered (t :: ts)) : (spanAll (t :: ts)).start = t.span.start := by
  have ht := h.nonempty t List.mem_cons_self
  rw [spanAll]
  rcases lastSpan_cases t.span ts with hlast | ⟨u, hu, hlast⟩
  · rw [hlast, Span.merge_of_lt ht ht]
    exact Nat.min_self _
  · have horder := (List.pairwise_cons.mp h.order).1 u hu
    rw [hlast, Span.merge_of_lt ht (h.nonempty u (List.mem_cons_of_mem _ hu))]
    exact Nat.min_eq_left (by omega)

/-- What was read stops where its last token does. -/
theorem stop_spanAll (h : Ordered (ts ++ [r])) : (spanAll (ts ++ [r])).stop = r.span.stop := by
  have hr := h.nonempty r (by simp)
  cases ts with
  | nil =>
    change (r.span.merge r.span).stop = _
    rw [Span.merge_of_lt hr hr]
    exact Nat.max_self _
  | cons t ts =>
    have ht := h.nonempty t List.mem_cons_self
    have horder := (List.pairwise_cons.mp h.order).1 r (by simp)
    rw [List.cons_append, spanAll, lastSpan_append, lastSpan_cons, lastSpan_nil, Span.merge_of_lt ht hr]
    exact Nat.max_eq_right (by omega)

end Parser

namespace Segment

/-! ## Layouts without places -/

/-- The segment says nothing of a place. -/
def isPlain : Segment → Bool
  | gap _ | token _ => true
  | _ => false

/-- None of the segments says anything of a place. -/
def Plain (ss : List Segment) : Prop := ∀ s ∈ ss, s.isPlain = true

variable {as bs as' bs' ss ss' : List Segment} {ts us : List (Spanned Token)}

theorem plain_append (ha : Plain as) (hb : Plain bs) : Plain (as ++ bs) := List.forall_mem_append.mpr ⟨ha, hb⟩

theorem plain_nil : Plain [] := List.forall_mem_nil _

theorem plain_cons {s : Segment} (hs : s.isPlain = true) (h : Plain ss) : Plain (s :: ss) :=
  List.forall_mem_cons.mpr ⟨hs, h⟩

theorem plain_map (ts : List Token) : Plain (ts.map token) := List.forall_mem_map.mpr fun _ _ => rfl

theorem plain_parens (h : Plain ss) (needed : Bool) : Plain (parens needed ss) := by
  cases needed with
  | false => exact h
  | true => exact plain_cons rfl (plain_append h (plain_cons rfl plain_nil))

theorem relocate_plain : ∀ {ss : List Segment}, Plain ss → ∀ ts : List (Spanned Token), relocate ss ts = ss
  | [], _, _ => rfl
  | s :: ss, h, ts => by
    have ⟨hs, hss⟩ := List.forall_mem_cons.mp h
    cases s with
    | gap text => rw [relocate, relocate_plain hss]
    | token t => rw [relocate, relocate_plain hss]
    | opening _ _ => cases hs
    | ending _ => cases hs
    | remaining => cases hs

end Segment

namespace Expr

mutual

theorem plain_layout : ∀ e : Expr, Plain e.layout
  | literal _ _ | name _ _ => plain_map _
  | binary _ op l r => by
    rw [layout]
    exact plain_append (plain_parens (plain_layout l) _)
      (plain_cons rfl (plain_cons rfl (plain_cons rfl (plain_parens (plain_layout r) _))))
  | unary _ op e => by
    rw [layout]
    exact plain_cons rfl (plain_parens (plain_parens (plain_layout e) _) _)
  | postStep _ op e => by
    rw [layout]
    exact plain_append (plain_parens (plain_layout e) _) (plain_cons rfl plain_nil)
  | assign _ op t v => by
    rw [layout]
    exact plain_append (plain_parens (plain_layout t) _)
      (plain_cons rfl (plain_cons rfl (plain_cons rfl (plain_layout v))))
  | call _ path args => by
    rw [layout]
    exact plain_append (plain_map _) (plain_cons rfl (plain_append (plain_layouts args) (plain_cons rfl plain_nil)))

theorem plain_layouts : ∀ es : List Expr, Plain (layouts es)
  | [] => plain_nil
  | [e] => plain_layout e
  | e :: e₂ :: es => by
    simp only [layouts]
    exact plain_append (plain_layout e) (plain_cons rfl (plain_cons rfl (plain_layouts (e₂ :: es))))

end

theorem plain_lineLayouts (indent : String) : ∀ es : List Expr, Plain (lineLayouts indent es)
  | [] => plain_nil
  | [e] => plain_cons rfl (plain_append (plain_layout e) (plain_cons rfl plain_nil))
  | e :: e₂ :: es => by
    simp only [lineLayouts]
    exact plain_cons rfl (plain_append (plain_layout e)
      (plain_cons rfl (plain_cons rfl (plain_lineLayouts indent (e₂ :: es)))))

theorem plain_wrapped (indent line : String) (e : Expr) : Plain (e.wrapped indent line) := by
  unfold wrapped
  split
  · exact plain_layout e
  · split
    · exact plain_append (plain_map _) (plain_cons rfl (plain_cons rfl
        (plain_append (plain_lineLayouts _ _) (plain_cons rfl (plain_cons rfl plain_nil)))))
    · exact plain_layout e

theorem plain_headerLayout : ∀ e : Option Expr, Plain (headerLayout e)
  | none => plain_nil
  | some e => plain_cons rfl (plain_layout e)

end Expr

theorem plain_declLayout (ty : Ty) (name : String) : Plain (declLayout ty name) :=
  plain_append (plain_map _) (plain_cons rfl (plain_cons rfl plain_nil))

theorem plain_initLayout (indent line : String) : ∀ e : Option Expr, Plain (initLayout indent line e)
  | none => plain_nil
  | some e => plain_cons rfl (plain_cons rfl (plain_cons rfl (Expr.plain_wrapped _ _ e)))

theorem Stmt.plain_simpleLayout (indent line : String) (s : Stmt) : Plain (s.simpleLayout indent line) := by
  cases s with
  | localVar span ty name init => exact plain_append (plain_declLayout _ _) (plain_initLayout _ _ _)
  | expr span e => exact Expr.plain_wrapped _ _ _
  | _ => exact plain_nil

theorem Modifier.plain_layouts (ms : List Modifier) : Plain (layouts ms) := by
  induction ms with
  | nil => exact plain_nil
  | cons m ms ih => exact plain_cons rfl (plain_cons rfl ih)

theorem Param.plain_layouts : ∀ ps : List Param, Plain (layouts ps)
  | [] => plain_nil
  | [p] => plain_declLayout _ _
  | p :: p₂ :: ps => by
    simp only [layouts]
    exact plain_append (plain_declLayout _ _) (plain_cons rfl (plain_cons rfl (plain_layouts (p₂ :: ps))))

/-! ## Layouts at the places of tokens -/

namespace Segment

variable {as bs as' bs' ss ss' : List Segment} {ts us : List (Spanned Token)} {t : Spanned Token}

theorem relocate_append : ∀ (as bs : List Segment) (ts : List (Spanned Token)),
    relocate (as ++ bs) ts = relocate as ts ++ relocate bs (ts.drop (tokens as).length)
  | [], _, _ => rfl
  | s :: as, bs, ts => by
    cases s with
    | token t | ending stop =>
      simp only [List.cons_append, relocate, tokens, List.length_cons, relocate_append as bs, List.drop_tail]
    | _ => simp only [List.cons_append, relocate, tokens, relocate_append as bs]

/-- With the places of the tokens, the segments are those after them. -/
def Relocates (ss : List Segment) (ts : List (Spanned Token)) (ss' : List Segment) : Prop :=
  ∀ more : List (Spanned Token), relocate ss (ts ++ more) = ss'

theorem Plain.relocates (h : Plain ss) (ts : List (Spanned Token)) : Relocates ss ts ss :=
  fun _ => relocate_plain h _

theorem Relocates.append (h : Relocates as ts as') (hts : ts.map (·.value) = tokens as)
    (h' : Relocates bs us bs') : Relocates (as ++ bs) (ts ++ us) (as' ++ bs') := by
  intro more
  have hlength : (tokens as).length = ts.length := by rw [← hts, List.length_map]
  rw [List.append_assoc, relocate_append, h, hlength, List.drop_left, h']

theorem Relocates.gap (h : Relocates ss ts ss') (text : String) :
    Relocates (gap text :: ss) ts (gap text :: ss') := fun more => congrArg _ (h more)

theorem Relocates.token (h : Relocates ss ts ss') (token : Token) :
    Relocates (.token token :: ss) (t :: ts) (.token token :: ss') := fun more => congrArg _ (h more)

theorem Relocates.opening (h : Relocates ss (t :: ts) ss') (indent : String) (start : Nat) :
    Relocates (opening indent start :: ss) (t :: ts) (opening indent t.span.start :: ss') :=
  fun more => congrArg _ (h more)

/-- What was read is opened where its first token starts. -/
theorem Relocates.opening_spanAll (h : Relocates ss ts ss') (hts : ts ≠ []) (hordered : Ordered ts)
    (indent : String) (start : Nat) :
    Relocates (Segment.opening indent start :: ss) ts
      (Segment.opening indent (Parser.spanAll ts).start :: ss') := by
  obtain ⟨t, ts, rfl⟩ := List.exists_cons_of_ne_nil hts
  rw [Parser.start_spanAll hordered]
  exact h.opening indent start

end Segment

end JavaFold
