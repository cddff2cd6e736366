import JavaFold.Proofs.Program.Reread.Places

/-!
# Statements read again

The tokens that a statement is written with are read as this statement, as for expressions; and the layout of
the statement that was read is the same one, with the places of the tokens, unless there is a minus sign in
front of zero.
-/

namespace JavaFold

open Segment (token tokens gap opening ending Relocates Plain)
open JavaFold.Parser (spanAll ReadsExpr ReadsOptional ReadsInit ReadsLocalVar ReadsForInit ReadsStatement ReadsNested
  ReadsStatements NoDecl IsDecl)
open Writer (isBlock Position)

namespace Expr

/-- The nesting of an expression that may be missing. -/
def optNesting : Option Expr → Nat
  | none => 0
  | some e => e.nesting + 1

def optNegatesZero : Option Expr → Bool
  | none => false
  | some e => e.negatesZero

end Expr

namespace Stmt

mutual

/-- By how many levels the tokens of a statement nest. -/
def nesting : Stmt → Nat
  | block _ ss => nestingAll ss + 1
  | expr _ e => e.nesting + 1
  | localVar _ _ _ init => Expr.optNesting init
  | ifElse _ c t none => max (c.nesting + 1) (nesting t + 1)
  | ifElse _ c t (some e) => max (c.nesting + 1) (max (nesting t + 1) (nesting e + 1))
  | whileLoop _ c b => max (c.nesting + 1) (nesting b + 1)
  | forLoop _ none c u b =>
    max 0 (max (Expr.optNesting c) (max (Expr.optNesting u) (nesting b + 1)))
  | forLoop _ (some i) c u b =>
    max (nesting i) (max (Expr.optNesting c) (max (Expr.optNesting u) (nesting b + 1)))
  | ret _ e => Expr.optNesting e
  | brk _ | cont _ | empty _ => 0

def nestingAll : List Stmt → Nat
  | [] => 0
  | s :: ss => max (nesting s) (nestingAll ss)

end

mutual

/-- Whether there is a minus sign in front of zero. -/
def negatesZero : Stmt → Bool
  | block _ ss => negatesZeroAny ss
  | expr _ e => e.negatesZero
  | localVar _ _ _ init => Expr.optNegatesZero init
  | ifElse _ c t none => c.negatesZero || negatesZero t
  | ifElse _ c t (some e) => c.negatesZero || (negatesZero t || negatesZero e)
  | whileLoop _ c b => c.negatesZero || negatesZero b
  | forLoop _ none c u b => Expr.optNegatesZero c || (Expr.optNegatesZero u || negatesZero b)
  | forLoop _ (some i) c u b =>
    negatesZero i || (Expr.optNegatesZero c || (Expr.optNegatesZero u || negatesZero b))
  | ret _ e => Expr.optNegatesZero e
  | brk _ | cont _ | empty _ => false

def negatesZeroAny : List Stmt → Bool
  | [] => false
  | s :: ss => negatesZero s || negatesZeroAny ss

end

/-- What was read ends the way the statement that was written does. -/
theorem isBlock_reread {s s' : Stmt} (h : s'.bare = s.signed.bare) : isBlock s' = isBlock s := by
  rw [← isBlock_map Expr.bare (fun _ => .dummy) (fun _ => .dummy) s', ← bare, h, bare, isBlock_map, signed, isBlock_map]

theorem takesElse_reread {s s' : Stmt} (h : s'.bare = s.signed.bare) : s'.takesElse = s.takesElse := by
  rw [← takesElse_map Expr.bare (fun _ => .dummy) (fun _ => .dummy) s', ← bare, h, bare, takesElse_map, signed,
    takesElse_map]

end Stmt

/-! ## Expressions in statements -/

namespace Expr

theorem tokens_lineLayouts (indent : String) (es : List Expr) :
    tokens (lineLayouts indent es) = tokens (layouts es) := by
  induction es with
  | nil => rfl
  | cons e es ih =>
    cases es with
    | nil => simp only [lineLayouts, layouts, tokens, Segment.tokens_append, List.append_nil]
    | cons e₂ es => simp only [lineLayouts_cons_cons, layouts_cons_cons, tokens, Segment.tokens_append, ih]

/-- Arguments on lines of their own are the same tokens. -/
theorem tokens_wrapped (indent line : String) (e : Expr) : tokens (e.wrapped indent line) = tokens e.layout := by
  unfold wrapped
  split
  · rfl
  · split
    · simp only [layout, tokens, Segment.tokens_append, tokens_lineLayouts]
    · rfl

theorem lineLayouts_bare (indent : String) (es : List Expr) :
    lineLayouts indent (bareAll es) = lineLayouts indent es := by
  induction es with
  | nil => rfl
  | cons e es ih =>
    cases es with
    | nil => simp only [bareAll, lineLayouts, layout_bare]
    | cons e₂ es =>
      simp only [bareAll] at ih
      simp only [bareAll, lineLayouts_cons_cons, layout_bare, ih]

theorem lineLayouts_signed (indent : String) {es : List Expr} (h : negatesZeroAny es = false) :
    lineLayouts indent (signedAll es) = lineLayouts indent es := by
  induction es with
  | nil => rfl
  | cons e es ih =>
    rw [negatesZeroAny, Bool.or_eq_false_iff] at h
    cases es with
    | nil => simp only [signedAll, lineLayouts, layout_signed h.1]
    | cons e₂ es =>
      have hes := ih h.2
      simp only [signedAll] at hes
      simp only [signedAll, lineLayouts_cons_cons, layout_signed h.1, hes]

theorem wrapped_bare (indent line : String) (e : Expr) : e.bare.wrapped indent line = e.wrapped indent line := by
  have htext := text_eq_of_layout e.layout_bare
  unfold wrapped
  rw [htext, layout_bare]
  cases e with
  | call s path args =>
    cases args with
    | nil => rfl
    | cons e es =>
      have hargs := lineLayouts_bare (indent ++ Writer.tab) (e :: es)
      rw [bareAll] at hargs
      simp only [bare, bareAll, hargs, Spanned.made]
  | _ => rfl

theorem wrapped_signed (indent line : String) {e : Expr} (h : e.negatesZero = false) :
    e.signed.wrapped indent line = e.wrapped indent line := by
  have htext := text_eq_of_layout (layout_signed h)
  unfold wrapped
  rw [htext, layout_signed h]
  cases e with
  | call s path args =>
    cases args with
    | nil => rfl
    | cons e es =>
      have hargs := @lineLayouts_signed (indent ++ Writer.tab) (e :: es) h
      rw [signedAll] at hargs
      simp only [signed, signedAll, hargs]
  | unary s op e =>
    rw [signed]
    cases negated? op e <;> rfl
  | _ => rfl

theorem wrapped_reread {e e' : Expr} (h : e'.bare = e.signed.bare) (hzero : e.negatesZero = false)
    (indent line : String) : e'.wrapped indent line = e.wrapped indent line := by
  rw [← wrapped_bare, h, wrapped_bare, wrapped_signed _ _ hzero]

end Expr

/-! ## Declarations and expressions apart -/

namespace Parser

/-- The token is a part of a dotted name. -/
def isNamePart : Token → Bool
  | .dot | .identifier _ => true
  | _ => false

/-- The tokens do not go on with a name. -/
def EndsName (ts : List (Spanned Token)) : Prop := ∀ t ∈ ts.head?, isNamePart t.value = false

theorem nameFollows_of_endsName {ts : List (Spanned Token)} (h : EndsName ts) : nameFollows ts = false := by
  unfold nameFollows
  split
  · exact absurd (h _ rfl) (by simp [isNamePart])
  · exact absurd (h _ rfl) (by simp [isNamePart])
  · rfl

theorem nameFollows_append : ∀ {words : List String} {ts us : List (Spanned Token)},
    ts.map (·.value) = words.flatMap (fun w => [.dot, .identifier w]) →
    nameFollows (ts ++ us) = nameFollows us
  | [], ts, us, hts => by
    obtain rfl := List.map_eq_nil_iff.mp hts
    rfl
  | w :: words, ts, us, hts => by
    obtain ⟨⟨_, s⟩, ts, rfl, rfl, hts'⟩ := List.map_eq_cons_iff.mp hts
    obtain ⟨⟨_, s'⟩, ts, rfl, rfl, hts''⟩ := List.map_eq_cons_iff.mp hts'
    exact @nameFollows_append words ts us hts''

/-- After a name there is a declaration if a further name follows. -/
theorem declFollows_path {name : String} (h : IsPath name) {ts : List (Spanned Token)}
    (hts : ts.map (·.value) = Token.ofPath name) (us : List (Spanned Token)) :
    declFollows (ts ++ us) = nameFollows us := by
  obtain ⟨word, words, -, -, hpath⟩ := Token.exists_words h
  rw [hpath, Token.ofWords_map] at hts
  obtain ⟨⟨_, s⟩, ts, rfl, rfl, hts'⟩ := List.map_eq_cons_iff.mp hts
  exact nameFollows_append hts'

theorem declFollows_parens {ss : List Segment} {ts us : List (Spanned Token)} {b : Bool}
    (hts : ts.map (·.value) = tokens (Segment.parens b ss))
    (h : ts.map (·.value) = tokens ss → declFollows (ts ++ us) = false) : declFollows (ts ++ us) = false := by
  cases b with
  | false => exact h hts
  | true =>
    obtain ⟨⟨_, s⟩, ts, rfl, rfl, -⟩ := List.map_eq_cons_iff.mp hts
    rfl

/-- An expression is not mistaken for a declaration. -/
theorem declFollows_expr : ∀ {e : Expr}, e.Legal → ∀ {ts us : List (Spanned Token)},
    ts.map (·.value) = tokens e.layout → EndsName us → declFollows (ts ++ us) = false
  | .literal s v, _, ts, us, hts, _ => by
    rw [Expr.layout, Segment.tokens_map] at hts
    cases v with
    | int n =>
      rw [Literal.tokens] at hts
      split at hts <;>
      · obtain ⟨⟨_, s⟩, ts, rfl, rfl, -⟩ := List.map_eq_cons_iff.mp hts
        rfl
    | bool b =>
      obtain ⟨⟨_, s⟩, rfl, rfl⟩ := List.map_eq_singleton_iff.mp hts
      cases b <;> rfl
    | str s =>
      obtain ⟨⟨_, s⟩, rfl, rfl⟩ := List.map_eq_singleton_iff.mp hts
      rfl
    | null =>
      obtain ⟨⟨_, s⟩, rfl, rfl⟩ := List.map_eq_singleton_iff.mp hts
      rfl
  | .name s n, h, ts, us, hts, hus => by
    rw [Expr.layout, Segment.tokens_map] at hts
    rw [declFollows_path h hts, nameFollows_of_endsName hus]
  | .binary s op l r, h, ts, us, hts, _ => by
    rw [Expr.layout, Segment.tokens_append] at hts
    obtain ⟨ls, rs, rfl, hls, hrs⟩ := List.map_eq_append_iff.mp hts
    obtain ⟨⟨_, s⟩, rs, rfl, rfl, -⟩ := List.map_eq_cons_iff.mp hrs
    rw [List.append_assoc]
    exact declFollows_parens hls fun hls => declFollows_expr h.1 hls (by rintro _ ⟨⟩; rfl)
  | .unary s op e, h, ts, us, hts, _ => by
    rw [Expr.layout] at hts
    obtain ⟨⟨_, s⟩, ts, rfl, rfl, -⟩ := List.map_eq_cons_iff.mp hts
    cases op <;> rfl
  | .postStep s op e, h, ts, us, hts, _ => by
    rw [Expr.layout, Segment.tokens_append] at hts
    obtain ⟨ls, rs, rfl, hls, hrs⟩ := List.map_eq_append_iff.mp hts
    obtain ⟨⟨_, s⟩, rs, rfl, rfl, -⟩ := List.map_eq_cons_iff.mp hrs
    rw [List.append_assoc]
    exact declFollows_parens hls fun hls => declFollows_expr h.1 hls (by rintro _ ⟨⟩; rfl)
  | .assign s op t v, h, ts, us, hts, _ => by
    rw [Expr.layout, Segment.tokens_append] at hts
    obtain ⟨ls, rs, rfl, hls, hrs⟩ := List.map_eq_append_iff.mp hts
    obtain ⟨⟨_, s⟩, rs, rfl, hop, -⟩ := List.map_eq_cons_iff.mp hrs
    obtain rfl : _ = op.token := hop
    rw [List.append_assoc]
    refine declFollows_parens hls fun hls => declFollows_expr h.2.1 hls ?_
    rintro _ ⟨⟩
    cases op with
    | plain => rfl
    | compound op => cases op <;> rfl
  | .call s path args, h, ts, us, hts, _ => by
    rw [Expr.layout, Segment.tokens_append, Segment.tokens_map] at hts
    obtain ⟨ps, rs, rfl, hps, hrs⟩ := List.map_eq_append_iff.mp hts
    obtain ⟨⟨_, s⟩, rs, rfl, rfl, -⟩ := List.map_eq_cons_iff.mp hrs
    rw [List.append_assoc, declFollows_path h.1 hps]
    rfl

theorem noDecl_expr {e : Expr} (h : e.Legal) {ts : List (Spanned Token)}
    (hts : ts.map (·.value) = tokens e.layout) : NoDecl ts := by
  intro u rest hu
  refine declFollows_expr h hts ?_
  rintro _ ⟨⟩
  generalize u.value = v at hu
  cases v <;> first | rfl | cases hu

/-! ## The parts of statements -/

theorem rereads_ty {ty : Ty} (h : ty.Legal) {ts : List (Spanned Token)} (hts : ts.map (·.value) = ty.tokens) :
    ∃ span, ReadsTy ts ⟨ty, span⟩ ∧ StartsTy ts := by
  cases ty with
  | named name =>
    obtain ⟨span, hread, t, us, word, hcons, ht⟩ := exists_readsPath h hts
    exact ⟨span, hread.ty hcons ht, t, us, hcons, .inr ⟨word, ht⟩⟩
  | _ =>
    obtain ⟨t, rfl, ht⟩ := List.map_eq_singleton_iff.mp hts
    exact ⟨t.span, readsTy_keyword ht (by simp), t, [], rfl, .inl (by rw [ht]; simp)⟩

/-- A type other than `void` and a name are taken for a declaration. -/
theorem isDecl_ty {ty : Ty} (h : ty.Legal) (hvoid : ty ≠ .void) {ts us : List (Spanned Token)} {t : Spanned Token}
    {name : String} (hts : ts.map (·.value) = ty.tokens) (ht : t.value = .identifier name) :
    IsDecl (ts ++ t :: us) := by
  intro rest
  rw [List.append_assoc]
  obtain ⟨token, span⟩ := t
  cases ht
  cases ty with
  | named name => rw [declFollows_path h hts, List.cons_append, nameFollows]
  | void => exact absurd rfl hvoid
  | int =>
    obtain ⟨⟨_, s⟩, rfl, rfl⟩ := List.map_eq_singleton_iff.mp hts
    rfl
  | boolean =>
    obtain ⟨⟨_, s⟩, rfl, rfl⟩ := List.map_eq_singleton_iff.mp hts
    rfl

/-- A written expression is read again as a whole expression. -/
theorem rereads_whole {e : Expr} (h : e.Legal) {ts : List (Spanned Token)} (hts : ts.map (·.value) = tokens e.layout) :
    ∃ e', ReadsExpr ts (e.nesting + 1) e' ∧ e'.bare = e.signed.bare := by
  obtain ⟨e', he', hbare⟩ := rereads_expr h ts hts
  exact ⟨e', he'.expr (ne_nil_of_starts (Expr.starts_layout h.spelled) hts), hbare⟩

theorem rereads_init {init : Option Expr} (h : Expr.LegalOpt init) {indent line : String}
    {ts : List (Spanned Token)} (hts : ts.map (·.value) = tokens (initLayout indent line init)) :
    ∃ init', ReadsInit ts (Expr.optNesting init) init' ∧
      init'.map Expr.bare = (init.map Expr.signed).map Expr.bare ∧
      (Expr.optNegatesZero init = false →
        ∀ indent line, initLayout indent line init' = initLayout indent line init) := by
  cases init with
  | none =>
    obtain rfl := List.map_eq_nil_iff.mp hts
    exact ⟨none, readsInit_none, rfl, fun _ _ _ => rfl⟩
  | some e =>
    obtain ⟨t, ts, rfl, ht, hts⟩ := List.map_eq_cons_iff.mp hts
    have hts : ts.map (·.value) = tokens (e.wrapped indent (line ++ " = ")) := hts
    rw [Expr.tokens_wrapped] at hts
    obtain ⟨e', hread, hbare⟩ := rereads_whole (h e rfl) hts
    refine ⟨some e', hread.init ht, congrArg some hbare, fun hzero indent line => ?_⟩
    rw [initLayout, initLayout, Expr.wrapped_reread hbare hzero]

/-- An expression that may be missing is there. -/
theorem rereads_optional {e : Expr} (h : e.Legal) {stop : Token} (hstop : stop.closesExpr = true)
    {ts : List (Spanned Token)} (hts : ts.map (·.value) = tokens e.layout) :
    ∃ e', ReadsOptional stop ts (e.nesting + 1) (some e') ∧ e'.bare = e.signed.bare := by
  obtain ⟨e', hread, hbare⟩ := rereads_whole h hts
  obtain ⟨u, more, hlayout, hu, -⟩ := Expr.starts_layout h.spelled
  rw [hlayout] at hts
  obtain ⟨t, us, rfl, rfl, -⟩ := List.map_eq_cons_iff.mp hts
  refine ⟨e', hread.optional hstop ⟨t, us, rfl, ?_⟩, hbare⟩
  rintro rfl
  revert hu hstop
  generalize t.value = v
  cases v <;> simp [Token.startsExpr, Token.closesExpr]

/-- An expression that may be missing in the header of a `for`. -/
theorem rereads_header {e : Option Expr} (h : Expr.LegalOpt e) {stop : Token} (hstop : stop.closesExpr = true)
    {ts : List (Spanned Token)} (hts : ts.map (·.value) = tokens (Expr.headerLayout e)) :
    ∃ e', ReadsOptional stop ts (Expr.optNesting e) e' ∧
      e'.map Expr.bare = (e.map Expr.signed).map Expr.bare ∧
      (Expr.optNegatesZero e = false → Expr.headerLayout e' = Expr.headerLayout e) := by
  cases e with
  | none =>
    obtain rfl := List.map_eq_nil_iff.mp hts
    exact ⟨none, readsOptional_none stop, rfl, fun _ => rfl⟩
  | some e =>
    obtain ⟨e', hread, hbare⟩ := rereads_optional (h e rfl) hstop hts
    refine ⟨some e', hread, congrArg some hbare, fun hzero => ?_⟩
    rw [Expr.headerLayout, Expr.headerLayout, Expr.layout_reread hbare hzero]

theorem rereads_localVar {span : Span} {ty : Spanned Ty} {name : Spanned String} {init : Option Expr}
    (h : (Stmt.localVar span ty name init).Legal) {indent line : String} {ts : List (Spanned Token)}
    (hts : ts.map (·.value) = tokens (Stmt.simpleLayout indent line (.localVar span ty name init))) :
    ∃ s s' init', ReadsLocalVar ts (Expr.optNesting init)
        (.localVar (spanAll ts) ⟨ty.value, s⟩ ⟨name.value, s'⟩ init') ∧
      IsDecl ts ∧ StartsTy ts ∧ init'.map Expr.bare = (init.map Expr.signed).map Expr.bare ∧
      (Expr.optNegatesZero init = false →
        ∀ indent line, initLayout indent line init' = initLayout indent line init) := by
  obtain ⟨hty, hvoid, -, hinit⟩ := h
  rw [Stmt.simpleLayout, Segment.tokens_append, declLayout, Segment.tokens_append, Segment.tokens_map,
    List.append_assoc] at hts
  obtain ⟨us, rs, rfl, hus, hrs⟩ := List.map_eq_append_iff.mp hts
  obtain ⟨t, vs, rfl, ht, hvs⟩ := List.map_eq_cons_iff.mp hrs
  obtain ⟨s, hread, hstarts⟩ := rereads_ty hty hus
  obtain ⟨init', hreads, hbare, hlayout⟩ := rereads_init hinit hvs
  obtain ⟨u, tail, hcons, hu⟩ := hstarts
  refine ⟨s, t.span, init', hread.localVar ?_ hvoid ht hreads, isDecl_ty hty hvoid hus ht,
    ⟨u, _, by rw [hcons]; rfl, hu⟩, hbare, hlayout⟩
  rw [hcons]
  exact List.cons_ne_nil _ _

end Parser

/-! ## Layouts of statements -/

namespace Stmt

variable {ts us cs : List (Spanned Token)} {k l r : Spanned Token} {ss ss' : List Segment}

theorem tokens_openingAt (position : Position) (indent : String) (start : Nat) (ss : List Segment) :
    tokens (openingAt position indent start ++ ss) = tokens ss := by
  cases position <;> rfl

theorem tokens_endLayout (body : Stmt) : tokens (endLayout body) = [] := by
  unfold endLayout
  split <;> rfl

theorem plain_endLayout (body : Stmt) : Plain (endLayout body) := by
  unfold endLayout
  split
  · exact Segment.plain_cons rfl Segment.plain_nil
  · exact Segment.plain_nil

theorem endLayout_reread {s s' : Stmt} (h : s'.bare = s.signed.bare) : endLayout s' = endLayout s := by
  rw [endLayout, endLayout, isBlock_reread h]

theorem relocates_openingAt (h : Relocates ss (k :: ts) ss') (position : Position) (indent : String) (start : Nat) :
    Relocates (openingAt position indent start ++ ss) (k :: ts)
      (openingAt position indent k.span.start ++ ss') := by
  cases position with
  | ownLine => exact h.opening indent start
  | body => exact (h.opening _ start).gap _
  | afterElse => exact (h.opening _ start).gap _

/-- A statement on one line stops where its semicolon does. -/
theorem relocates_simple (hss : Plain ss) (hts : ts.map (·.value) = tokens ss) (h : Ordered (ts ++ [r]))
    (position : Position) (indent : String) (start stop : Nat) :
    Relocates (openingAt position indent start ++ (ss ++ [ending stop])) (ts ++ [r])
      (openingAt position indent (spanAll (ts ++ [r])).start ++
        (ss ++ [ending (spanAll (ts ++ [r])).stop])) := by
  rw [Parser.stop_spanAll h]
  have hend : Relocates [ending stop] [r] [ending r.span.stop] := fun _ => rfl
  have hline := (hss.relocates ts).append hts hend
  cases ts with
  | nil =>
    rw [List.nil_append] at h hline ⊢
    rw [Parser.start_spanAll h]
    exact relocates_openingAt hline position indent start
  | cons t ts =>
    rw [List.cons_append] at h hline ⊢
    rw [Parser.start_spanAll h]
    exact relocates_openingAt hline position indent start

/-- The tokens of a condition after its reserved word, and what comes after them. -/
theorem exists_condition {word : Keyword} {c : Expr} {ts : List (Spanned Token)}
    (hts : ts.map (·.value) = tokens (token (.keyword word) :: gap " " :: token .lparen ::
      (c.layout ++ token .rparen :: ss))) :
    ∃ k l cs r us, ts = k :: l :: (cs ++ r :: us) ∧ k.value = .keyword word ∧ l.value = .lparen ∧
      cs.map (·.value) = tokens c.layout ∧ r.value = .rparen ∧ us.map (·.value) = tokens ss := by
  obtain ⟨k, ts, rfl, hk, hts⟩ := List.map_eq_cons_iff.mp hts
  obtain ⟨l, ts, rfl, hl, hts⟩ := List.map_eq_cons_iff.mp hts
  have hts : ts.map (·.value) = tokens (c.layout ++ token .rparen :: ss) := hts
  rw [Segment.tokens_append] at hts
  obtain ⟨cs, rs, rfl, hcs, hrs⟩ := List.map_eq_append_iff.mp hts
  obtain ⟨r, us, rfl, hr, hus⟩ := List.map_eq_cons_iff.mp hrs
  exact ⟨k, l, cs, r, us, rfl, hk, hl, hcs, hr, hus⟩

theorem relocates_condition {c : Expr} (hcs : cs.map (·.value) = tokens c.layout) (h : Relocates ss us ss')
    (word : Keyword) :
    Relocates (token (.keyword word) :: gap " " :: token .lparen :: (c.layout ++ token .rparen :: ss))
      (k :: l :: (cs ++ r :: us))
      (token (.keyword word) :: gap " " :: token .lparen :: (c.layout ++ token .rparen :: ss')) :=
  ((((c.plain_layout.relocates cs).append hcs (h.token _)).token _).gap _).token _

/-- The tokens of the header of a `for`, and what comes after them. -/
theorem exists_header {as : List Segment} {c u : Option Expr} {ts : List (Spanned Token)}
    (hts : ts.map (·.value) = tokens (token (.keyword .«for») :: gap " " :: token .lparen ::
      (as ++ token .semicolon :: (Expr.headerLayout c ++ token .semicolon ::
        (Expr.headerLayout u ++ token .rparen :: ss))))) :
    ∃ k l is m cs m' us r bs, ts = k :: l :: (is ++ m :: (cs ++ m' :: (us ++ r :: bs))) ∧
      k.value = .keyword .«for» ∧ l.value = .lparen ∧ is.map (·.value) = tokens as ∧ m.value = .semicolon ∧
      cs.map (·.value) = tokens (Expr.headerLayout c) ∧ m'.value = .semicolon ∧
      us.map (·.value) = tokens (Expr.headerLayout u) ∧ r.value = .rparen ∧ bs.map (·.value) = tokens ss := by
  obtain ⟨k, ts, rfl, hk, hts⟩ := List.map_eq_cons_iff.mp hts
  obtain ⟨l, ts, rfl, hl, hts⟩ := List.map_eq_cons_iff.mp hts
  have hts : ts.map (·.value) = tokens (as ++ token .semicolon :: _) := hts
  rw [Segment.tokens_append] at hts
  obtain ⟨is, ms, rfl, his, hms⟩ := List.map_eq_append_iff.mp hts
  obtain ⟨m, ts, rfl, hm, hts⟩ := List.map_eq_cons_iff.mp hms
  have hts : ts.map (·.value) = tokens (Expr.headerLayout c ++ token .semicolon :: _) := hts
  rw [Segment.tokens_append] at hts
  obtain ⟨cs, ms, rfl, hcs, hms⟩ := List.map_eq_append_iff.mp hts
  obtain ⟨m', ts, rfl, hm', hts⟩ := List.map_eq_cons_iff.mp hms
  have hts : ts.map (·.value) = tokens (Expr.headerLayout u ++ token .rparen :: ss) := hts
  rw [Segment.tokens_append] at hts
  obtain ⟨us, rs, rfl, hus, hrs⟩ := List.map_eq_append_iff.mp hts
  obtain ⟨r, bs, rfl, hr, hbs⟩ := List.map_eq_cons_iff.mp hrs
  exact ⟨k, l, is, m, cs, m', us, r, bs, rfl, hk, hl, his, hm, hcs, hm', hus, hr, hbs⟩

theorem relocates_header {as : List Segment} {c u : Option Expr} {is bs : List (Spanned Token)} {m m' : Spanned Token}
    (has : Plain as) (his : is.map (·.value) = tokens as) (hcs : cs.map (·.value) = tokens (Expr.headerLayout c))
    (hus : us.map (·.value) = tokens (Expr.headerLayout u)) (h : Relocates ss bs ss') :
    Relocates (token (.keyword .«for») :: gap " " :: token .lparen ::
        (as ++ token .semicolon :: (Expr.headerLayout c ++ token .semicolon ::
          (Expr.headerLayout u ++ token .rparen :: ss))))
      (k :: l :: (is ++ m :: (cs ++ m' :: (us ++ r :: bs))))
      (token (.keyword .«for») :: gap " " :: token .lparen ::
        (as ++ token .semicolon :: (Expr.headerLayout c ++ token .semicolon ::
          (Expr.headerLayout u ++ token .rparen :: ss')))) := by
  have hupdate := ((Expr.plain_headerLayout u).relocates us).append hus (h.token (t := r) .rparen)
  have hcond := ((Expr.plain_headerLayout c).relocates cs).append hcs (hupdate.token (t := m') .semicolon)
  have hinit := (has.relocates is).append his (hcond.token (t := m) .semicolon)
  exact ((hinit.token _).gap _).token _

/-- After `else` an `if` stays on its line. -/
theorem tokens_ifOpening (position : Position) (indent : String) (start : Nat) (ss : List Segment) :
    tokens ((if position = .afterElse then [gap " "] else openingAt position indent start) ++ ss) = tokens ss := by
  cases position <;> rfl

theorem relocates_ifOpening (h : Relocates ss (k :: ts) ss') (position : Position) (indent : String) (start : Nat) :
    Relocates ((if position = .afterElse then [gap " "] else openingAt position indent start) ++ ss) (k :: ts)
      ((if position = .afterElse then [gap " "] else openingAt position indent k.span.start) ++ ss') := by
  split
  · exact h.gap _
  · exact relocates_openingAt h position indent start

/-- The reserved word or mark at the start of a statement other than a declaration or an expression. -/
def mark? : Stmt → Option Token
  | block _ _ => some .lbrace
  | ifElse _ _ _ _ => some (.keyword .«if»)
  | whileLoop _ _ _ => some (.keyword .«while»)
  | forLoop _ _ _ _ _ => some (.keyword .«for»)
  | ret _ _ => some (.keyword .«return»)
  | brk _ => some (.keyword .«break»)
  | cont _ => some (.keyword .«continue»)
  | empty _ => some .semicolon
  | expr _ _ | localVar _ _ _ _ => none

theorem exists_mark {s : Stmt} {t : Token} (h : s.mark? = some t) (position : Position) (indent : String) :
    ∃ more, tokens (s.layout position indent) = t :: more := by
  cases s with
  | expr => cases h
  | localVar => cases h
  | ifElse span c b e => cases h; cases e <;> cases position <;> (rw [layout]; exact ⟨_, rfl⟩)
  | ret span value => cases h; cases value <;> cases position <;> (rw [layout]; exact ⟨_, rfl⟩)
  | _ => cases h; cases position <;> (rw [layout]; exact ⟨_, rfl⟩)

/-- The token starts a statement that is not taken for the end of a block or a branch. -/
def startsWith : Token → Bool
  | .rbrace | .endOfFile | .keyword .«else» => false
  | _ => true

theorem startsWith_of_starts (h : Segment.Starts ss) (more : List Segment) :
    ∃ t ts, tokens (ss ++ more) = t :: ts ∧ startsWith t = true := by
  obtain ⟨u, rest, rfl, hu, -⟩ := h
  refine ⟨u, tokens (rest ++ more), rfl, ?_⟩
  revert hu
  cases u with
  | keyword word => cases word <;> simp [Token.startsExpr, startsWith]
  | _ => simp [Token.startsExpr, startsWith]

/-- What a statement starts with. -/
theorem startsWith_layout {position : Position} {indent : String} {s : Stmt} (h : s.Legal) :
    ∃ t more, tokens (s.layout position indent) = t :: more ∧ startsWith t = true := by
  cases hmark : s.mark? with
  | some t =>
    obtain ⟨more, hmore⟩ := exists_mark hmark position indent
    refine ⟨t, more, hmore, ?_⟩
    cases s <;> cases hmark <;> rfl
  | none =>
    cases s with
    | expr span e =>
      rw [layout, tokens_openingAt, Segment.tokens_append, Expr.tokens_wrapped, ← Segment.tokens_append]
      exact startsWith_of_starts (Expr.starts_layout h.spelled) _
    | localVar span ty name init =>
      rw [layout, tokens_openingAt, simpleLayout, List.append_assoc]
      exact startsWith_of_starts (starts_declLayout h.1 name.value) _
    | _ => cases hmark

/-- A statement that was read is the one that had been written, at the places of its tokens. -/
structure Reread (position : Position) (indent : String) (ts : List (Spanned Token)) (s s' : Stmt) : Prop where
  bare : s'.bare = s.signed.bare
  layout : s.negatesZero = false → Ordered ts →
    Relocates (s.layout position indent) ts (s'.layout position indent)

/-- As for one statement. -/
structure RereadAll (indent : String) (ts : List (Spanned Token)) (ss ss' : List Stmt) : Prop where
  bare : bareAll ss' = bareAll (signedAll ss)
  layout : negatesZeroAny ss = false → Ordered ts → Relocates (layouts indent ss) ts (layouts indent ss')

/-- A body and the line end after it. -/
theorem Reread.relocates_body {position : Position} {indent : String} {s s' : Stmt}
    (h : Reread position indent ts s s') (hzero : s.negatesZero = false) (hordered : Ordered ts)
    (hts : ts.map (·.value) = tokens (s.layout position indent)) :
    Relocates (s.layout position indent ++ endLayout s) ts (s'.layout position indent ++ endLayout s') := by
  rw [endLayout_reread h.bare, ← List.append_nil ts]
  exact (h.layout hzero hordered).append hts ((plain_endLayout s).relocates [])

theorem layout_simple {s : Stmt} (h : s.isSimple = true) (position : Position) (indent : String) :
    s.layout position indent = openingAt position indent s.span.start ++
      (s.simpleLayout (indentAt position indent) (indentAt position indent) ++ [ending s.span.stop]) := by
  cases s with
  | expr => rw [layout]; rfl
  | localVar => rw [layout]; rfl
  | _ => cases h

end Stmt

namespace Parser

open Stmt (openingAt Reread RereadAll)

variable {ts us cs : List (Spanned Token)} {k l r : Spanned Token}

/-- A statement other than a declaration is not mistaken for one. -/
theorem declFollows_stmt {position : Position} {indent : String} {s : Stmt} (h : s.Legal)
    (hdecl : s.isDeclaration = false) (hts : ts.map (·.value) = tokens (s.layout position indent))
    (us : List (Spanned Token)) : declFollows (ts ++ us) = false := by
  have hfirst : ∀ {t : Token} {more : List Token}, t ∉ [.keyword .int, .keyword .boolean] → isNamePart t = false →
      ts.map (·.value) = t :: more → declFollows (ts ++ us) = false := by
    intro t more hkeyword hname hts
    obtain ⟨⟨_, s⟩, ts, rfl, rfl, -⟩ := List.map_eq_cons_iff.mp hts
    rw [List.cons_append]
    unfold declFollows
    split
    · next heq => cases heq; exact absurd (by simp) hkeyword
    · next heq => cases heq; exact absurd (by simp) hkeyword
    · next heq => cases heq; cases hname
    · rfl
  cases hmark : s.mark? with
  | some t =>
    obtain ⟨more, hmore⟩ := Stmt.exists_mark hmark position indent
    rw [hmore] at hts
    cases s <;> cases hmark <;> exact hfirst (by simp) rfl hts
  | none =>
    cases s with
    | expr span e =>
      rw [Stmt.layout, Stmt.tokens_openingAt, Segment.tokens_append, Expr.tokens_wrapped] at hts
      obtain ⟨es, rs, rfl, hes, hrs⟩ := List.map_eq_append_iff.mp hts
      obtain ⟨⟨_, span⟩, rfl, rfl⟩ := List.map_eq_singleton_iff.mp hrs
      rw [List.append_assoc]
      exact declFollows_expr h hes (by rintro _ ⟨⟩; rfl)
    | localVar => cases hdecl
    | _ => cases hmark

/-! ## Statements -/

theorem startsSimple_of_starts {ss : List Segment} (hss : Segment.Starts ss)
    (hts : ts.map (·.value) = tokens ss) : StartsSimple ts := by
  obtain ⟨u, more, rfl, hu, -⟩ := hss
  obtain ⟨t, us, rfl, rfl, -⟩ := List.map_eq_cons_iff.mp hts
  refine ⟨t, us, rfl, ?_⟩
  revert hu
  generalize t.value = v
  cases v with
  | keyword word => cases word <;> simp [Token.startsExpr, Token.startsSimple]
  | _ => simp [Token.startsExpr, Token.startsSimple]

/-- A declaration or an expression is read as the first part of a `for`, and as a statement, but for its
span. -/
theorem rereads_simple {s : Stmt} (h : s.Legal) (hsimple : s.isSimple = true) {indent line : String}
    (hts : ts.map (·.value) = tokens (s.simpleLayout indent line)) :
    ∃ (again : Span → Stmt) (first : Span), ReadsForInit ts s.nesting (some (again first)) ∧
      (∀ r : Spanned Token, r.value = .semicolon →
        ReadsStatement (ts ++ [r]) s.nesting (again (spanAll (ts ++ [r])))) ∧
      ∀ span, (again span).isSimple = true ∧ (again span).span = span ∧ (again span).bare = s.signed.bare ∧
        (s.negatesZero = false →
          ∀ indent line, (again span).simpleLayout indent line = s.simpleLayout indent line) := by
  have hstarts := startsSimple_of_starts (Stmt.starts_simpleLayout h.spelled hsimple indent line) hts
  have hfirst : ∃ t us, ts = t :: us ∧ t.value ≠ .semicolon := by
    obtain ⟨t, us, heq, ht⟩ := hstarts
    exact ⟨t, us, heq, fun hsemi => by rw [hsemi] at ht; cases ht⟩
  cases s with
  | localVar span ty name init =>
    obtain ⟨s, s', init', hread, hdecl, -, hbare, hlayout⟩ := rereads_localVar h hts
    refine ⟨fun span => .localVar span ⟨ty.value, s⟩ ⟨name.value, s'⟩ init', spanAll ts,
      hread.forInit hdecl hfirst, fun r hr => hread.statement hdecl hstarts hr, fun span => ⟨rfl, rfl, ?_, ?_⟩⟩
    · exact congrArg (Stmt.localVar .dummy ⟨ty.value, .dummy⟩ ⟨name.value, .dummy⟩) hbare
    · exact fun hzero indent line => congrArg (_ ++ ·) (hlayout hzero _ _)
  | expr span e =>
    have hes : ts.map (·.value) = tokens (e.wrapped indent line) := hts
    rw [Expr.tokens_wrapped] at hes
    obtain ⟨e', hread, hbare⟩ := rereads_whole h hes
    have hdecl := noDecl_expr h hes
    refine ⟨fun span => .expr span e', e'.span, hread.forInit hdecl hfirst,
      fun r hr => hread.statement hdecl hstarts hr, fun span => ⟨rfl, rfl, ?_, ?_⟩⟩
    · exact congrArg (Stmt.expr .dummy) hbare
    · exact fun hzero indent line => Expr.wrapped_reread hbare hzero indent line
  | _ => cases hsimple

/-- A declaration or an expression with its semicolon. -/
theorem rereads_simple_stmt {s : Stmt} (h : s.Legal) (hsimple : s.isSimple = true) {position : Position}
    {indent : String} (hts : ts.map (·.value) = tokens (s.layout position indent)) :
    ∃ s', ReadsStatement ts s.nesting s' ∧ Reread position indent ts s s' := by
  rw [Stmt.layout_simple hsimple, Stmt.tokens_openingAt, Segment.tokens_append] at hts
  obtain ⟨us, rs, rfl, hus, hrs⟩ := List.map_eq_append_iff.mp hts
  obtain ⟨r, rfl, hr⟩ := List.map_eq_singleton_iff.mp hrs
  obtain ⟨again, -, -, hread, hagain⟩ := rereads_simple h hsimple hus
  obtain ⟨hsimple', hspan, hbare, hlayout⟩ := hagain (spanAll (us ++ [r]))
  refine ⟨_, hread r hr, hbare, fun hzero hordered => ?_⟩
  rw [Stmt.layout_simple hsimple, Stmt.layout_simple hsimple', hspan, hlayout hzero]
  exact Stmt.relocates_simple (Stmt.plain_simpleLayout _ _ _) hus hordered _ _ _ _

/-- A statement of one word. -/
theorem rereads_jump {word : Keyword} {s : Span → Stmt}
    (h : (word, s) = (.«break», .brk) ∨ (word, s) = (.«continue», .cont)) {span : Span} {position : Position}
    {indent : String}
    (hts : ts.map (·.value) = tokens ((s span).layout position indent)) :
    ∃ s', ReadsStatement ts 0 s' ∧ Reread position indent ts (s span) s' := by
  have hlayout : ∀ span, (s span).layout position indent =
      openingAt position indent span.start ++ ([token (.keyword word)] ++ [ending span.stop]) := by
    rcases h with h | h <;> (cases h; intro span; rw [Stmt.layout]; rfl)
  rw [hlayout, Stmt.tokens_openingAt] at hts
  obtain ⟨k, ts, rfl, hk, hts⟩ := List.map_eq_cons_iff.mp hts
  obtain ⟨r, rfl, hr⟩ := List.map_eq_singleton_iff.mp hts
  refine ⟨s (spanAll [k, r]), readsStatement_jump hk hr ?_, ?_, fun _ hordered => ?_⟩
  · rcases h with h | h <;> (cases h; simp)
  · rcases h with h | h <;> (cases h; rfl)
  · rw [hlayout, hlayout]
    have hplain : Plain [token (.keyword word)] := Segment.plain_map [.keyword word]
    exact @Stmt.relocates_simple [k] r _ hplain (congrArg (· :: []) hk) hordered _ _ _ _

theorem rereads_ret {value : Option Expr} (h : Expr.LegalOpt value) {span : Span} {position : Position}
    {indent : String} (hts : ts.map (·.value) = tokens ((Stmt.ret span value).layout position indent)) :
    ∃ s', ReadsStatement ts (Expr.optNesting value) s' ∧ Reread position indent ts (.ret span value) s' := by
  cases value with
  | none =>
    rw [Stmt.layout, Stmt.tokens_openingAt] at hts
    obtain ⟨k, ts, rfl, hk, hts⟩ := List.map_eq_cons_iff.mp hts
    obtain ⟨r, rfl, hr⟩ := List.map_eq_singleton_iff.mp hts
    refine ⟨_, (readsOptional_none .semicolon).ret hk hr, rfl, fun _ hordered => ?_⟩
    have hplain : Plain [token (.keyword .«return»)] := Segment.plain_map [.keyword .«return»]
    rw [Stmt.layout, Stmt.layout]
    exact @Stmt.relocates_simple [k] r _ hplain (congrArg (· :: []) hk) hordered _ _ _ _
  | some e =>
    rw [Stmt.layout, Stmt.tokens_openingAt] at hts
    obtain ⟨k, ts, rfl, hk, hts⟩ := List.map_eq_cons_iff.mp hts
    have hts : ts.map (·.value) = tokens (e.wrapped _ _ ++ [ending span.stop]) := hts
    rw [Segment.tokens_append] at hts
    obtain ⟨es, rs, rfl, hes, hrs⟩ := List.map_eq_append_iff.mp hts
    obtain ⟨r, rfl, hr⟩ := List.map_eq_singleton_iff.mp hrs
    rw [Expr.tokens_wrapped] at hes
    obtain ⟨e', hread, hbare⟩ := @rereads_optional e (h e rfl) .semicolon rfl es hes
    refine ⟨_, hread.ret hk hr, congrArg (fun e => Stmt.ret .dummy (some e)) hbare, fun hzero hordered => ?_⟩
    have hplain : ∀ indent line, Plain (token (.keyword .«return») :: gap " " :: e.wrapped indent line) :=
      fun indent line => Segment.plain_cons rfl (Segment.plain_cons rfl (Expr.plain_wrapped indent line e))
    have htokens : ∀ indent line, (k :: es).map (·.value) =
        tokens (token (.keyword .«return») :: gap " " :: e.wrapped indent line) := by
      intro indent line
      change _ = _ :: tokens (e.wrapped indent line)
      rw [Expr.tokens_wrapped, List.map_cons, hk, hes]
    rw [Stmt.layout, Stmt.layout]
    simp only [Expr.wrapped_reread hbare hzero]
    exact @Stmt.relocates_simple (k :: es) r _ (hplain _ _) (htokens _ _) hordered _ _ _ _

/-! ## Statements with bodies -/

theorem rereads_body {position : Position} {indent : String} {s : Stmt} (h : s.Legal)
    (hdecl : s.isDeclaration = false) (hts : ts.map (·.value) = tokens (s.layout position indent))
    (hread : ∃ s', ReadsStatement ts s.nesting s' ∧ Reread position indent ts s s') :
    ∃ s', ReadsNested ts (s.nesting + 1) s' ∧ Reread position indent ts s s' := by
  obtain ⟨s', hread, hs'⟩ := hread
  exact ⟨s', hread.nested (declFollows_stmt h hdecl hts), hs'⟩

mutual

/-- A written statement is read again. -/
theorem rereads_stmt {position : Position} {indent : String} : ∀ {s : Stmt}, s.Legal → ∀ {ts : List (Spanned Token)},
    ts.map (·.value) = tokens (s.layout position indent) →
    ∃ s', ReadsStatement ts s.nesting s' ∧ Reread position indent ts s s'
  | .expr _ _, h, _, hts => rereads_simple_stmt h rfl hts
  | .localVar _ _ _ _, h, _, hts => rereads_simple_stmt h rfl hts
  | .ret _ _, h, _, hts => rereads_ret h hts
  | .brk _, _, _, hts => rereads_jump (.inl rfl) hts
  | .cont _, _, _, hts => rereads_jump (.inr rfl) hts
  | .empty span, _, ts, hts => by
    rw [Stmt.layout, Stmt.tokens_openingAt] at hts
    obtain ⟨r, rfl, hr⟩ := List.map_eq_singleton_iff.mp hts
    refine ⟨_, readsStatement_empty hr, rfl, fun _ _ => ?_⟩
    rw [Stmt.layout, Stmt.layout]
    have hend : Relocates [ending span.stop] [r] [ending r.span.stop] := fun _ => rfl
    exact Stmt.relocates_openingAt hend position indent _
  | .block span body, h, ts, hts => by
    have hbody : ∃ l bs r, ts = l :: (bs ++ [r]) ∧ l.value = .lbrace ∧ r.value = .rbrace ∧
        bs.map (·.value) = tokens (Stmt.layouts (indent ++ Writer.tab) body) := by
      have htokens : tokens ((Stmt.block span body).layout position indent) =
          .lbrace :: (tokens (Stmt.layouts (indent ++ Writer.tab) body) ++ [.rbrace]) := by
        cases position <;>
          simp only [Stmt.layout, tokens, Segment.tokens_append]
      rw [htokens] at hts
      obtain ⟨l, ts, rfl, hl, hts⟩ := List.map_eq_cons_iff.mp hts
      obtain ⟨bs, rs, rfl, hbs, hrs⟩ := List.map_eq_append_iff.mp hts
      obtain ⟨r, rfl, hr⟩ := List.map_eq_singleton_iff.mp hrs
      exact ⟨l, bs, r, rfl, hl, hr, hbs⟩
    obtain ⟨l, bs, r, rfl, hl, hr, hbs⟩ := hbody
    obtain ⟨body', hread, hbody'⟩ := rereads_stmts h hbs
    refine ⟨_, hread.block hl hr, congrArg (Stmt.block .dummy) hbody'.bare, fun hzero hordered => ?_⟩
    have hinner := hbody'.layout hzero hordered.tail.append.1
    have hclose : ∀ as, Plain as → Relocates (Stmt.layouts (indent ++ Writer.tab) body ++ as) (bs ++ [r])
        (Stmt.layouts (indent ++ Writer.tab) body' ++ as) := fun as has => hinner.append hbs (has.relocates [r])
    cases position <;> rw [Stmt.layout, Stmt.layout]
    · rw [Parser.start_spanAll hordered]
      exact (((hclose _ (by simp [Plain, Segment.isPlain])).gap _).token _).opening indent _
    all_goals exact (((hclose _ (by simp [Plain, Segment.isPlain])).gap _).token _).gap _
  | .whileLoop span c b, h, ts, hts => by
    obtain ⟨hc, hb, hdecl⟩ := h
    rw [Stmt.layout, Stmt.tokens_openingAt] at hts
    obtain ⟨k, l, cs, r, bs, rfl, hk, hl, hcs, hr, hbs⟩ := Stmt.exists_condition hts
    rw [Segment.tokens_append, Stmt.tokens_endLayout, List.append_nil] at hbs
    obtain ⟨c', hc', hcbare⟩ := rereads_whole hc hcs
    obtain ⟨b', hb', hbagain⟩ := rereads_body hb hdecl hbs (rereads_stmt hb hbs)
    refine ⟨_, hb'.whileLoop hc' hk hl hr,
      congrArg₂ (Stmt.whileLoop .dummy) hcbare hbagain.bare, fun hzero hordered => ?_⟩
    obtain ⟨hczero, hbzero⟩ := Bool.or_eq_false_iff.mp hzero
    have hbody := hbagain.relocates_body hbzero (hordered.tail.tail.append.2.tail) hbs
    rw [Stmt.layout, Stmt.layout, Parser.start_spanAll hordered, Expr.layout_reread hcbare hczero]
    exact Stmt.relocates_openingAt (Stmt.relocates_condition hcs hbody _) position indent _
  | .ifElse span c b none, h, ts, hts => by
    obtain ⟨hc, hb, hdecl⟩ := h
    rw [Stmt.layout, Stmt.tokens_ifOpening] at hts
    obtain ⟨k, l, cs, r, bs, rfl, hk, hl, hcs, hr, hbs⟩ := Stmt.exists_condition hts
    rw [Segment.tokens_append, Stmt.tokens_endLayout, List.append_nil] at hbs
    obtain ⟨c', hc', hcbare⟩ := rereads_whole hc hcs
    obtain ⟨b', hb', hbagain⟩ := rereads_body hb hdecl hbs (rereads_stmt hb hbs)
    refine ⟨_, hb'.ifElse hc' hk hl hr,
      congrArg₂ (Stmt.ifElse .dummy · · none) hcbare hbagain.bare, fun hzero hordered => ?_⟩
    obtain ⟨hczero, hbzero⟩ := Bool.or_eq_false_iff.mp hzero
    have hbody := hbagain.relocates_body hbzero hordered.tail.tail.append.2.tail hbs
    rw [Stmt.layout, Stmt.layout, Parser.start_spanAll hordered, Expr.layout_reread hcbare hczero]
    exact Stmt.relocates_ifOpening (Stmt.relocates_condition hcs hbody _) position indent _
  | .ifElse span c b (some e), h, ts, hts => by
    obtain ⟨hc, hb, hdecl, htakes, he, hdecl'⟩ := h
    rw [Stmt.layout, Stmt.tokens_ifOpening] at hts
    obtain ⟨k, l, cs, r, us, rfl, hk, hl, hcs, hr, hus⟩ := Stmt.exists_condition hts
    rw [Segment.tokens_append] at hus
    obtain ⟨bs, rs, rfl, hbs, hrs⟩ := List.map_eq_append_iff.mp hus
    obtain ⟨k', es, rfl, hk', hes⟩ := List.map_eq_cons_iff.mp hrs
    have hes : es.map (·.value) = tokens (_ ++ Stmt.endLayout e) := hes
    rw [Segment.tokens_append, Stmt.tokens_endLayout, List.append_nil] at hes
    obtain ⟨c', hc', hcbare⟩ := rereads_whole hc hcs
    obtain ⟨b', hb', hbagain⟩ := rereads_body hb hdecl hbs (rereads_stmt hb hbs)
    obtain ⟨e', he', heagain⟩ := rereads_body he hdecl' hes (rereads_stmt he hes)
    have htakes' : b'.takesElse = false := (Stmt.takesElse_reread hbagain.bare).trans htakes
    refine ⟨_, hb'.ifElse_else hc' htakes' he' hk hl hr hk', ?_, fun hzero hordered => ?_⟩
    · change Stmt.ifElse .dummy c'.bare b'.bare (some e'.bare) = .ifElse .dummy _ _ (some _)
      rw [hcbare, hbagain.bare, heagain.bare]
      rfl
    obtain ⟨hczero, hzero⟩ := Bool.or_eq_false_iff.mp hzero
    obtain ⟨hbzero, hezero⟩ := Bool.or_eq_false_iff.mp hzero
    obtain ⟨hbordered, heordered⟩ := hordered.tail.tail.append.2.tail.append
    have hbody := hbagain.layout hbzero hbordered
    have helse := heagain.relocates_body hezero heordered.tail hes
    rw [Stmt.layout, Stmt.layout, Parser.start_spanAll hordered, Expr.layout_reread hcbare hczero,
      Stmt.isBlock_reread hbagain.bare]
    exact Stmt.relocates_ifOpening (Stmt.relocates_condition hcs
      (hbody.append hbs ((helse.token _).gap _)) _) position indent _
  | .forLoop span none c u b, h, ts, hts => by
    obtain ⟨hc, hu, hb, hdecl⟩ := h
    rw [Stmt.layout, Stmt.tokens_openingAt] at hts
    obtain ⟨k, l, is, m, cs, m', us, r, bs, rfl, hk, hl, his, hm, hcs, hm', hus, hr, hbs⟩ :=
      Stmt.exists_header hts
    obtain rfl := List.map_eq_nil_iff.mp his
    rw [Segment.tokens_append, Stmt.tokens_endLayout, List.append_nil] at hbs
    obtain ⟨c', hc', hcbare, hclayout⟩ := @rereads_header c hc .semicolon rfl cs hcs
    obtain ⟨u', hu', hubare, hulayout⟩ := @rereads_header u hu .rparen rfl us hus
    obtain ⟨b', hb', hbagain⟩ := rereads_body hb hdecl hbs (rereads_stmt hb hbs)
    refine ⟨_, hb'.forLoop readsForInit_none hc' hu' hk hl hm hm' hr, ?_, fun hzero hordered => ?_⟩
    · change Stmt.forLoop .dummy none _ _ b'.bare = .forLoop .dummy none _ _ _
      rw [hcbare, hubare, hbagain.bare]
      rfl
    obtain ⟨hczero, hzero⟩ := Bool.or_eq_false_iff.mp hzero
    obtain ⟨huzero, hbzero⟩ := Bool.or_eq_false_iff.mp hzero
    have hbody := hbagain.relocates_body hbzero
      hordered.tail.tail.append.2.tail.append.2.tail.append.2.tail hbs
    rw [Stmt.layout, Stmt.layout, Parser.start_spanAll hordered, hclayout hczero, hulayout huzero]
    have hnone : Plain [] := nofun
    exact Stmt.relocates_openingAt (Stmt.relocates_header hnone his hcs hus hbody) position indent _
  | .forLoop span (some i) c u b, h, ts, hts => by
    obtain ⟨hi, hsimple, hc, hu, hb, hdecl⟩ := h
    rw [Stmt.layout, Stmt.tokens_openingAt] at hts
    obtain ⟨k, l, is, m, cs, m', us, r, bs, rfl, hk, hl, his, hm, hcs, hm', hus, hr, hbs⟩ :=
      Stmt.exists_header hts
    rw [Segment.tokens_append, Stmt.tokens_endLayout, List.append_nil] at hbs
    obtain ⟨again, first, hi', -, hagain⟩ := rereads_simple hi hsimple his
    obtain ⟨-, -, hibare, hilayout⟩ := hagain first
    obtain ⟨c', hc', hcbare, hclayout⟩ := @rereads_header c hc .semicolon rfl cs hcs
    obtain ⟨u', hu', hubare, hulayout⟩ := @rereads_header u hu .rparen rfl us hus
    obtain ⟨b', hb', hbagain⟩ := rereads_body hb hdecl hbs (rereads_stmt hb hbs)
    refine ⟨_, hb'.forLoop hi' hc' hu' hk hl hm hm' hr, ?_, fun hzero hordered => ?_⟩
    · change Stmt.forLoop .dummy (some (again first).bare) _ _ b'.bare = .forLoop .dummy (some _) _ _ _
      rw [hibare, hcbare, hubare, hbagain.bare]
      rfl
    obtain ⟨hizero, hzero⟩ := Bool.or_eq_false_iff.mp hzero
    obtain ⟨hczero, hzero⟩ := Bool.or_eq_false_iff.mp hzero
    obtain ⟨huzero, hbzero⟩ := Bool.or_eq_false_iff.mp hzero
    have hbody := hbagain.relocates_body hbzero
      hordered.tail.tail.append.2.tail.append.2.tail.append.2.tail hbs
    rw [Stmt.layout, Stmt.layout, Parser.start_spanAll hordered, hclayout hczero, hulayout huzero]
    simp only [Option.map_some, Option.getD_some, hilayout hizero]
    exact Stmt.relocates_openingAt (Stmt.relocates_header (Stmt.plain_simpleLayout _ _ _) his hcs hus hbody)
      position indent _

/-- Written statements are read again. -/
theorem rereads_stmts {indent : String} : ∀ {ss : List Stmt}, Stmt.LegalAll ss → ∀ {ts : List (Spanned Token)},
    ts.map (·.value) = tokens (Stmt.layouts indent ss) →
    ∃ ss', ReadsStatements ts (Stmt.nestingAll ss) ss' ∧ RereadAll indent ts ss ss'
  | [], _, ts, hts => by
    obtain rfl := List.map_eq_nil_iff.mp hts
    exact ⟨[], readsStatements_nil, rfl, fun _ _ _ => rfl⟩
  | s :: ss, h, ts, hts => by
    rw [Stmt.layouts, Segment.tokens_append] at hts
    obtain ⟨us, vs, rfl, hus, hvs⟩ := List.map_eq_append_iff.mp hts
    obtain ⟨s', hs', hagain⟩ := rereads_stmt h.1 hus
    obtain ⟨ss', hss', hagains⟩ := rereads_stmts h.2 hvs
    refine ⟨_, hs'.cons ?_ hss' ?_, congrArg₂ List.cons hagain.bare hagains.bare, fun hzero hordered => ?_⟩
    · obtain ⟨t, more, htokens, ht⟩ := @Stmt.startsWith_layout .ownLine indent s h.1
      rw [htokens] at hus
      obtain ⟨u, us, rfl, rfl, -⟩ := List.map_eq_cons_iff.mp hus
      refine ⟨u, us, rfl, fun hu => ?_, fun hu => ?_⟩ <;>
      · rw [hu] at ht
        cases ht
    · cases ss with
      | nil =>
        obtain rfl := List.map_eq_nil_iff.mp hvs
        exact nofun
      | cons s₂ ss =>
        obtain ⟨t, more, htokens, ht⟩ := @Stmt.startsWith_layout .ownLine indent s₂ h.2.1
        rw [Stmt.layouts, Segment.tokens_append, htokens] at hvs
        obtain ⟨v, vs, rfl, rfl, -⟩ := List.map_eq_cons_iff.mp hvs
        rintro _ ⟨⟩ hv
        rw [hv] at ht
        cases ht
    · obtain ⟨hzero, hzeros⟩ := Bool.or_eq_false_iff.mp hzero
      rw [Stmt.layouts, Stmt.layouts]
      exact (hagain.layout hzero hordered.append.1).append hus (hagains.layout hzeros hordered.append.2)

end

end Parser

end JavaFold
