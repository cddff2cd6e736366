import JavaFold.Proofs.Program.Reread.Stmt

/-!
# Programs read again

The text of a program is read as this program again, but for its spans and for minus signs in front of numbers
(`CompilationUnit.ofSource?_text`), exactly if the tokens of the program nest no deeper than the limit. The
layout of the program that was read is that of the program that was written, at the places of the tokens.
-/

namespace JavaFold

open Segment (token tokens gap opening ending Relocates Plain)
open JavaFold.Parser (spanAll ReadsModifiers ReadsParams ReadsMember ReadsMembers ReadsClass ReadsClasses
  rereads_ty rereads_init rereads_stmts)
open Writer (isMethod)

namespace Member

/-- By how many levels the tokens of a member nest. -/
def nesting : Member → Nat
  | field _ d => Expr.optNesting d.init
  | method _ d => Stmt.nestingAll d.body.stmts + 1

/-- Whether there is a minus sign in front of zero. -/
def negatesZero : Member → Bool
  | field _ d => Expr.optNegatesZero d.init
  | method _ d => Stmt.negatesZeroAny d.body.stmts

theorem isMethod_reread {m m' : Member} (h : m'.bare = m.signed.bare) : isMethod m' = isMethod m := by
  rw [← isMethod_map Expr.bare (fun _ => .dummy) (fun _ => .dummy) m', ← bare, h, bare, isMethod_map, signed,
    isMethod_map]

end Member

namespace ClassDecl

def nesting (c : ClassDecl) : Nat := (c.members.map Member.nesting).foldr max 0

def negatesZero (c : ClassDecl) : Bool := c.members.any Member.negatesZero

end ClassDecl

namespace CompilationUnit

/-- By how many levels the tokens of a program nest. -/
def nesting (unit : CompilationUnit) : Nat := (unit.classes.map ClassDecl.nesting).foldr max 0

/-- Whether there is a minus sign in front of zero. -/
def negatesZero (unit : CompilationUnit) : Bool := unit.classes.any ClassDecl.negatesZero

end CompilationUnit

/-! ## Modifiers and parameters -/

theorem Modifier.tokens_layouts (ms : List Modifier) :
    tokens (layouts ms) = ms.map fun m => .keyword m.keyword := by
  induction ms with
  | nil => rfl
  | cons m ms ih => exact congrArg (.keyword m.keyword :: ·) ih

theorem Modifier.startsWith_layouts (ms : List Modifier) {ss : List Segment}
    (h : ∃ t more, tokens ss = t :: more ∧ Stmt.startsWith t = true) :
    ∃ t more, tokens (layouts ms ++ ss) = t :: more ∧ Stmt.startsWith t = true := by
  cases ms with
  | nil => exact h
  | cons m ms => exact ⟨.keyword m.keyword, _, rfl, by cases m <;> rfl⟩

namespace Parser

variable {ts us : List (Spanned Token)}

theorem rereads_modifiers {ms : List Modifier} (h : ms.Nodup)
    (hts : ts.map (·.value) = tokens (Modifier.layouts ms)) : ReadsModifiers ts ms :=
  readsModifiers (hts.trans (Modifier.tokens_layouts ms)) h

/-- The tokens of a type and a name. -/
theorem exists_decl {ty : Ty} (h : ty.Legal) {name : String}
    (hts : ts.map (·.value) = tokens (declLayout ty name)) :
    ∃ us t span, ts = us ++ [t] ∧ ReadsTy us ⟨ty, span⟩ ∧ StartsTy us ∧ t.value = .identifier name := by
  rw [declLayout, Segment.tokens_append, Segment.tokens_map] at hts
  obtain ⟨us, rs, rfl, hus, hrs⟩ := List.map_eq_append_iff.mp hts
  obtain ⟨t, rfl, ht⟩ := List.map_eq_singleton_iff.mp hrs
  obtain ⟨span, hread, hstarts⟩ := rereads_ty h hus
  exact ⟨us, t, span, rfl, hread, hstarts, ht⟩

theorem rereads_params : ∀ {ps : List Param}, (∀ p ∈ ps, p.Legal) → ∀ {ts : List (Spanned Token)},
    ts.map (·.value) = tokens (Param.layouts ps) → ReadsParams ts ps
  | [], _, ts, hts => by
    obtain rfl := List.map_eq_nil_iff.mp hts
    exact readsParams_nil
  | [p], h, ts, hts => by
    obtain ⟨us, t, span, rfl, hread, hstarts, ht⟩ := exists_decl (h p List.mem_cons_self).ty hts
    exact hread.param hstarts ht
  | p :: p₂ :: ps, h, ts, hts => by
    have ⟨hp, hps⟩ := List.forall_mem_cons.mp h
    rw [Param.layouts_cons_cons, Segment.tokens_append] at hts
    obtain ⟨vs, rs, rfl, hvs, hrs⟩ := List.map_eq_append_iff.mp hts
    obtain ⟨k, ws, rfl, hk, hws⟩ := List.map_eq_cons_iff.mp hrs
    obtain ⟨us, t, span, rfl, hread, hstarts, ht⟩ := exists_decl hp.ty hvs
    rw [List.append_assoc]
    exact hread.params hstarts ht hk (rereads_params hps hws)

end Parser

/-! ## Fields and methods -/

namespace Member

/-- A member that was read is the one that had been written, at the places of its tokens. -/
structure Reread (indent : String) (ts : List (Spanned Token)) (m m' : Member) : Prop where
  bare : m'.bare = m.signed.bare
  layout : m.negatesZero = false → Ordered ts → Relocates (m.layout indent) ts (m'.layout indent)

/-- What a member starts with. -/
theorem startsWith_layout {m : Member} (h : m.Legal) (indent : String) :
    ∃ t more, tokens (m.layout indent) = t :: more ∧ Stmt.startsWith t = true := by
  cases m with
  | field span d =>
    simp only [layout, tokens, List.append_assoc]
    exact Modifier.startsWith_layouts _ (Stmt.startsWith_of_starts (starts_declLayout h.ty _) _)
  | method span d =>
    simp only [layout, tokens, List.append_assoc]
    exact Modifier.startsWith_layouts _ (Stmt.startsWith_of_starts (starts_declLayout h.ret _) _)

theorem rereads_field {indent : String} {span : Span} {d : FieldDecl} (h : d.Legal) {ts : List (Spanned Token)}
    (hts : ts.map (·.value) = tokens ((field span d).layout indent)) :
    ∃ m', ReadsMember ts (field span d).nesting m' ∧ Reread indent ts (field span d) m' := by
  simp only [layout, tokens] at hts
  rw [Segment.tokens_append] at hts
  obtain ⟨line, rs, rfl, hline, hrs⟩ := List.map_eq_append_iff.mp hts
  obtain ⟨r, rfl, hr⟩ := List.map_eq_singleton_iff.mp hrs
  have hparts := hline
  rw [Segment.tokens_append, Segment.tokens_append] at hparts
  obtain ⟨ds, vs, rfl, hds, hvs⟩ := List.map_eq_append_iff.mp hparts
  obtain ⟨ms, ds, rfl, hms, hds⟩ := List.map_eq_append_iff.mp hds
  obtain ⟨us, t, s, rfl, hty, hstarts, ht⟩ := Parser.exists_decl h.ty hds
  obtain ⟨init', hinit, hbare, hlayout⟩ := rereads_init h.init hvs
  have hfirst : ∀ v ∈ vs.head?, v.value ≠ .lparen := by
    cases hd : d.init with
    | none =>
      rw [hd] at hvs
      obtain rfl := List.map_eq_nil_iff.mp hvs
      simp
    | some e =>
      rw [hd] at hvs
      obtain ⟨v, vs, rfl, hv, -⟩ := List.map_eq_cons_iff.mp hvs
      simp [hv]
  have hshape : ms ++ (us ++ [t]) ++ vs ++ [r] = ms ++ (us ++ t :: (vs ++ [r])) := by simp
  refine ⟨.field (spanAll (ms ++ (us ++ [t]) ++ vs ++ [r]))
    ⟨d.modifiers, ⟨d.ty.value, s⟩, ⟨d.name.value, t.span⟩, init'⟩, ?_, ?_, fun hzero hordered => ?_⟩
  · rw [hshape]
    exact (Parser.rereads_modifiers h.modifiers hms).field hty hstarts h.nonvoid ht hinit hr hfirst
  · change field .dummy ⟨d.modifiers, _, _, init'.map Expr.bare⟩ = _
    rw [hbare]
    rfl
  · have hplain := fun line => Segment.plain_append (Segment.plain_append (Modifier.plain_layouts d.modifiers)
      (plain_declLayout d.ty.value d.name.value)) (plain_initLayout indent line d.init)
    simp only [layout, hlayout hzero]
    exact Stmt.relocates_simple (hplain _) hline hordered .ownLine indent _ _

theorem rereads_method {indent : String} {span : Span} {d : MethodDecl} (h : d.Legal) {ts : List (Spanned Token)}
    (hts : ts.map (·.value) = tokens ((method span d).layout indent)) :
    ∃ m', ReadsMember ts (method span d).nesting m' ∧ Reread indent ts (method span d) m' := by
  simp only [layout, tokens] at hts
  rw [Segment.tokens_append] at hts
  obtain ⟨ds, rs, rfl, hds, hrs⟩ := List.map_eq_append_iff.mp hts
  have hparts := hds
  rw [Segment.tokens_append] at hparts
  obtain ⟨ms, vs, rfl, hms, hvs⟩ := List.map_eq_append_iff.mp hparts
  obtain ⟨us, t, s, rfl, hty, hstarts, ht⟩ := Parser.exists_decl h.ret hvs
  obtain ⟨lp, rs, rfl, hlp, hrs⟩ := List.map_eq_cons_iff.mp hrs
  rw [Segment.tokens_append] at hrs
  obtain ⟨ps, rs, rfl, hps, hrs⟩ := List.map_eq_append_iff.mp hrs
  obtain ⟨rp, rs, rfl, hrp, hrs⟩ := List.map_eq_cons_iff.mp hrs
  obtain ⟨l, rs, rfl, hl, hrs⟩ := List.map_eq_cons_iff.mp hrs
  have hrs : rs.map (·.value) = tokens (Stmt.layouts _ d.body.stmts ++ _) := hrs
  rw [Segment.tokens_append] at hrs
  obtain ⟨ws, rs, rfl, hws, hrs⟩ := List.map_eq_append_iff.mp hrs
  obtain ⟨r, rfl, hr⟩ := List.map_eq_singleton_iff.mp hrs
  obtain ⟨ss', hss', hbody⟩ := rereads_stmts h.body hws
  have hshape : ms ++ (us ++ [t]) ++ lp :: (ps ++ rp :: l :: (ws ++ [r])) =
      ms ++ (us ++ t :: lp :: (ps ++ rp :: (l :: (ws ++ [r])))) := by simp
  refine ⟨.method (spanAll (ms ++ (us ++ [t]) ++ lp :: (ps ++ rp :: l :: (ws ++ [r]))))
    ⟨d.modifiers, ⟨d.ret.value, s⟩, ⟨d.name.value, t.span⟩, d.params, ⟨spanAll (l :: (ws ++ [r])), ss'⟩⟩,
    ?_, ?_, fun hzero hordered => ?_⟩
  · rw [hshape]
    exact (Parser.rereads_modifiers h.modifiers hms).method hty hstarts ht hlp
      (Parser.rereads_params h.params hps) hrp hl hss' hr
  · exact congrArg (fun ss => method .dummy ⟨d.modifiers, ⟨d.ret.value, .dummy⟩, ⟨d.name.value, .dummy⟩,
      d.params, ⟨.dummy, ss⟩⟩) hbody.bare
  · have hplain := Segment.plain_append (Modifier.plain_layouts d.modifiers)
      (plain_declLayout d.ret.value d.name.value)
    have hclose : Plain [gap indent, token .rbrace, gap "\n"] := by simp [Plain, Segment.isPlain]
    have hstmts := hbody.layout hzero hordered.append.2.tail.append.2.tail.tail.append.1
    have hblock := (((hstmts.append hws (hclose.relocates [r])).gap "\n").token (t := l) .lbrace).gap " "
    have hparams := ((Param.plain_layouts d.params).relocates ps).append hps (hblock.token (t := rp) .rparen)
    have hall := (hplain.relocates (ms ++ (us ++ [t]))).append hds (hparams.token (t := lp) .lparen)
    simp only [layout]
    exact hall.opening_spanAll (by simp) hordered indent _

theorem rereads_member {indent : String} {m : Member} (h : m.Legal) {ts : List (Spanned Token)}
    (hts : ts.map (·.value) = tokens (m.layout indent)) :
    ∃ m', ReadsMember ts m.nesting m' ∧ Reread indent ts m m' := by
  cases m with
  | field span d => exact rereads_field h hts
  | method span d => exact rereads_method h hts

/-- The members after the first one are written like members, but for a blank line. -/
theorem layoutsAfter_eq (indent : String) (previous m : Member) (ms : List Member) :
    layoutsAfter indent previous (m :: ms) =
      (if isMethod previous || isMethod m then [gap "\n"] else []) ++ layouts indent (m :: ms) := rfl

theorem tokens_layoutsAfter (indent : String) (previous : Member) (ms : List Member) :
    tokens (layoutsAfter indent previous ms) = tokens (layouts indent ms) := by
  cases ms with
  | nil => rfl
  | cons m ms =>
    rw [layoutsAfter_eq, Segment.tokens_append]
    split <;> rfl

/-- As for one member. -/
structure RereadAll (indent : String) (ts : List (Spanned Token)) (ms ms' : List Member) : Prop where
  bare : ms'.map Member.bare = (ms.map Member.signed).map Member.bare
  layout : ms.any negatesZero = false → Ordered ts → Relocates (layouts indent ms) ts (layouts indent ms')

theorem RereadAll.relocates_after {indent : String} {ts : List (Spanned Token)} {ms ms' : List Member}
    (h : RereadAll indent ts ms ms') (hzero : ms.any negatesZero = false) (hordered : Ordered ts)
    {previous previous' : Member} (hprevious : isMethod previous' = isMethod previous) :
    Relocates (layoutsAfter indent previous ms) ts (layoutsAfter indent previous' ms') := by
  have hlayout := h.layout hzero hordered
  cases ms with
  | nil =>
    obtain rfl := List.map_eq_nil_iff.mp h.bare
    exact hlayout
  | cons m ms =>
    obtain ⟨m', ms', rfl, hm, -⟩ := List.map_eq_cons_iff.mp h.bare
    rw [layoutsAfter_eq, layoutsAfter_eq, hprevious, isMethod_reread hm]
    split
    · exact hlayout.gap "\n"
    · exact hlayout

theorem rereads_members {indent : String} : ∀ {ms : List Member}, (∀ m ∈ ms, m.Legal) →
    ∀ {ts : List (Spanned Token)}, ts.map (·.value) = tokens (layouts indent ms) →
    ∃ ms', ReadsMembers ts ((ms.map nesting).foldr max 0) ms' ∧ RereadAll indent ts ms ms'
  | [], _, ts, hts => by
    obtain rfl := List.map_eq_nil_iff.mp hts
    exact ⟨[], Parser.readsMembers_nil, rfl, fun _ _ _ => rfl⟩
  | m :: ms, h, ts, hts => by
    have ⟨hm, hms⟩ := List.forall_mem_cons.mp h
    rw [layouts, Segment.tokens_append] at hts
    obtain ⟨us, vs, rfl, hus, hvs⟩ := List.map_eq_append_iff.mp hts
    rw [tokens_layoutsAfter] at hvs
    obtain ⟨m', hm', hagain⟩ := rereads_member hm hus
    obtain ⟨ms', hms', hagains⟩ := rereads_members hms hvs
    refine ⟨m' :: ms', hm'.cons ?_ hms', congrArg₂ List.cons hagain.bare hagains.bare, fun hzero hordered => ?_⟩
    · obtain ⟨t, more, htokens, ht⟩ := startsWith_layout hm indent
      rw [htokens] at hus
      obtain ⟨u, us, rfl, rfl, -⟩ := List.map_eq_cons_iff.mp hus
      refine ⟨u, us, rfl, fun hu => ?_, fun hu => ?_⟩ <;>
      · rw [hu] at ht
        cases ht
    · obtain ⟨hzero, hzeros⟩ := Bool.or_eq_false_iff.mp hzero
      exact (hagain.layout hzero hordered.append.1).append hus
        (hagains.relocates_after hzeros hordered.append.2 (isMethod_reread hagain.bare))

end Member

/-! ## Classes -/

namespace ClassDecl

/-- A class that was read is the one that had been written, at the places of its tokens. -/
structure Reread (ts : List (Spanned Token)) (c c' : ClassDecl) : Prop where
  bare : c'.bare = c.signed.bare
  layout : c.negatesZero = false → Ordered ts → Relocates c.layout ts c'.layout

theorem rereads_class {c : ClassDecl} (h : c.Legal) {ts : List (Spanned Token)}
    (hts : ts.map (·.value) = tokens c.layout) : ∃ c', ReadsClass ts c.nesting c' ∧ Reread ts c c' := by
  simp only [layout, tokens] at hts
  rw [Segment.tokens_append] at hts
  obtain ⟨ms, rs, rfl, hms, hrs⟩ := List.map_eq_append_iff.mp hts
  obtain ⟨k, rs, rfl, hk, hrs⟩ := List.map_eq_cons_iff.mp hrs
  obtain ⟨t, rs, rfl, ht, hrs⟩ := List.map_eq_cons_iff.mp hrs
  obtain ⟨l, rs, rfl, hl, hrs⟩ := List.map_eq_cons_iff.mp hrs
  have hrs : rs.map (·.value) = tokens (Member.layouts Writer.tab c.members ++ _) := hrs
  rw [Segment.tokens_append] at hrs
  obtain ⟨us, rs, rfl, hus, hrs⟩ := List.map_eq_append_iff.mp hrs
  obtain ⟨r, rfl, hr⟩ := List.map_eq_singleton_iff.mp hrs
  obtain ⟨members', hmembers, hagain⟩ := Member.rereads_members h.members hus
  refine ⟨_, (Parser.rereads_modifiers h.modifiers hms).classDecl hk ht hl hmembers hr, ?_,
    fun hzero hordered => ?_⟩
  · exact congrArg (ClassDecl.mk .dummy c.modifiers ⟨c.name.value, .dummy⟩) hagain.bare
  · have hclose : Plain [token .rbrace, gap "\n"] := by simp [Plain, Segment.isPlain]
    have hmembers := hagain.layout hzero hordered.append.2.tail.tail.tail.append.1
    have hbody := ((hmembers.append hus (hclose.relocates [r])).gap "\n").token (t := l) .lbrace
    have hname := ((hbody.gap " ").token (t := t) (.identifier c.name.value)).gap " "
    have hall := ((Modifier.plain_layouts c.modifiers).relocates ms).append hms
      (hname.token (t := k) (.keyword .«class»))
    exact hall.opening_spanAll (by simp) hordered "" _

theorem startsWith_layout (c : ClassDecl) :
    ∃ t more, tokens c.layout = t :: more ∧ Stmt.startsWith t = true :=
  Modifier.startsWith_layouts c.modifiers ⟨.keyword .«class», _, rfl, rfl⟩

/-- As for one class. -/
structure RereadAll (ts : List (Spanned Token)) (cs cs' : List ClassDecl) : Prop where
  bare : cs'.map ClassDecl.bare = (cs.map ClassDecl.signed).map ClassDecl.bare
  layout : cs.any negatesZero = false → Ordered ts → Relocates (layouts cs) ts (layouts cs')

theorem tokens_layouts_cons (c : ClassDecl) (cs : List ClassDecl) :
    tokens (layouts (c :: cs)) = tokens c.layout ++ tokens (layouts cs) := by
  cases cs with
  | nil => exact (List.append_nil _).symm
  | cons c₂ cs => exact Segment.tokens_append _ _

theorem rereads_classes : ∀ {cs : List ClassDecl}, (∀ c ∈ cs, c.Legal) → ∀ {ts : List (Spanned Token)},
    ts.map (·.value) = tokens (layouts cs) →
    ∃ cs', ReadsClasses ts ((cs.map nesting).foldr max 0) cs' ∧ RereadAll ts cs cs'
  | [], _, ts, hts => by
    obtain rfl := List.map_eq_nil_iff.mp hts
    exact ⟨[], Parser.readsClasses_nil, rfl, fun _ _ _ => rfl⟩
  | c :: cs, h, ts, hts => by
    have ⟨hc, hcs⟩ := List.forall_mem_cons.mp h
    rw [tokens_layouts_cons] at hts
    obtain ⟨us, vs, rfl, hus, hvs⟩ := List.map_eq_append_iff.mp hts
    obtain ⟨c', hc', hagain⟩ := rereads_class hc hus
    obtain ⟨cs', hcs', hagains⟩ := rereads_classes hcs hvs
    refine ⟨c' :: cs', hc'.cons ?_ hcs', congrArg₂ List.cons hagain.bare hagains.bare, fun hzero hordered => ?_⟩
    · obtain ⟨t, more, htokens, ht⟩ := startsWith_layout c
      rw [htokens] at hus
      obtain ⟨u, us, rfl, rfl, -⟩ := List.map_eq_cons_iff.mp hus
      refine ⟨u, us, rfl, fun hu => ?_⟩
      rw [hu] at ht
      cases ht
    · obtain ⟨hzero, hzeros⟩ := Bool.or_eq_false_iff.mp hzero
      have hfirst := hagain.layout hzero hordered.append.1
      have hrest := hagains.layout hzeros hordered.append.2
      have hbare := hagains.bare
      cases cs with
      | nil =>
        obtain rfl := List.map_eq_nil_iff.mp hbare
        obtain rfl := List.map_eq_nil_iff.mp hvs
        rwa [List.append_nil]
      | cons c₂ cs =>
        obtain ⟨c₂', cs', rfl, -⟩ := List.map_eq_cons_iff.mp hbare
        exact hfirst.append hus (hrest.gap "\n")

end ClassDecl

/-! ## Tokens of a text in order -/

/-- The tokens of items are in order, up to the end of the file. -/
theorem Lexed.ordered_ofPieces : ∀ {xs : List Item}, (∀ x ∈ xs, x.Legal) → ∀ {place : Place}, place.Proper →
    ∃ ts u, (ofPieces place (xs.map Item.piece)).tokens = ts ++ [u] ∧ u.value = .endOfFile ∧ Ordered ts ∧
      ∀ t ∈ ts, place.offset ≤ t.span.start
  | [], _, place, _ => ⟨[], _, rfl, rfl, ⟨.nil, nofun⟩, nofun⟩
  | x :: xs, h, place, hplace => by
    have ⟨hx, hxs⟩ := List.forall_mem_cons.mp h
    have hlater : ∀ q : Place, place.Onward q → ∃ ts u, (ofPieces q (xs.map Item.piece)).tokens = ts ++ [u] ∧
        u.value = .endOfFile ∧ Ordered ts ∧ ∀ t ∈ ts, q.offset ≤ t.span.start :=
      fun q hq => ordered_ofPieces hxs hq.proper
    cases x with
    | blank text =>
      have hon := Place.onward_skipBlanks (Utf8.encode text) hplace
      obtain ⟨ts, u, htokens, hu, hordered, hstart⟩ := hlater _ hon
      exact ⟨ts, u, htokens, hu, hordered, fun t ht => hon.offset.trans (hstart t ht)⟩
    | comment text =>
      have hon := hplace.onward (Utf8.encode text).length place.tokenOnLine
      obtain ⟨ts, u, htokens, hu, hordered, hstart⟩ := hlater _ hon
      rw [List.map_cons, Item.piece, ofPieces_comment hx]
      exact ⟨ts, u, htokens, hu, hordered, fun t ht => hon.offset.trans (hstart t ht)⟩
    | token t =>
      have hon := hplace.onward t.piece.bytes.length true
      have hne : 0 < t.piece.bytes.length := by
        have hbytes : t.piece.bytes = Utf8.encode t.spelling := @Item.bytes_piece (.token t) hx
        rw [hbytes]
        exact List.length_pos_iff.mpr (Token.encode_spelling_ne_nil hx)
      obtain ⟨ts, u, htokens, hu, hordered, hstart⟩ := hlater _ hon
      rw [List.map_cons, Item.piece, ofPieces_token hx]
      refine ⟨⟨t, place.spanOf t.piece⟩ :: ts, u, congrArg (_ :: ·) htokens, hu, ⟨?_, ?_⟩, ?_⟩
      · exact List.pairwise_cons.mpr ⟨hstart, hordered.order⟩
      · exact List.forall_mem_cons.mpr ⟨Nat.lt_add_of_pos_right hne, hordered.nonempty⟩
      · exact List.forall_mem_cons.mpr ⟨Nat.le_refl _, fun t ht => hon.offset.trans (hstart t ht)⟩

/-! ## Programs -/

namespace CompilationUnit

/-- The tokens of a program are read as the program, at the places of these tokens. -/
theorem rereads {unit : CompilationUnit} (h : unit.Legal) {ts : List (Spanned Token)}
    (hts : ts.map (·.value) = tokens unit.layout) :
    ∃ cs, ReadsClasses ts unit.nesting cs ∧ CompilationUnit.bare ⟨cs⟩ = unit.signed.bare ∧
      (unit.negatesZero = false → Ordered ts → Relocates unit.layout ts (CompilationUnit.layout ⟨cs⟩)) := by
  rw [layout, Segment.tokens_append] at hts
  have hts : ts.map (·.value) = tokens (ClassDecl.layouts unit.classes) := hts.trans (List.append_nil _)
  obtain ⟨cs, hread, hagain⟩ := ClassDecl.rereads_classes h hts
  refine ⟨cs, hread, congrArg CompilationUnit.mk hagain.bare, fun hzero hordered => ?_⟩
  have hremaining : Relocates [Segment.remaining] [] [Segment.remaining] := fun _ => rfl
  have hall := (hagain.layout hzero hordered).append hts hremaining
  rwa [List.append_nil] at hall

/-- The text of a program, with comments, is cut without a problem. It is read as the program again, but for
its spans and for minus signs in front of numbers, if the program nests no deeper than the limit, and else this
is reported. What was read has the layout of the program, at the places of the tokens that were read, unless
there is a minus sign in front of zero. -/
theorem ofSource?_text {unit : CompilationUnit} (h : unit.Legal) {comments : List Comment}
    (hcs : ∀ c ∈ comments, IsComment c.text) :
    let lexed := Lexed.ofSource (unit.text comments)
    lexed.diagnostics = [] ∧
      ∃ unit' : CompilationUnit, unit'.bare = unit.signed.bare ∧
        (unit.negatesZero = false → unit'.layout = Segment.relocate unit.layout lexed.tokens) ∧
        (unit.nesting ≤ Problem.nestingLimit →
          ofSource? (unit.text comments) = .ok (unit', lexed.comments)) ∧
        (Problem.nestingLimit < unit.nesting →
          ∃ ds, ofSource? (unit.text comments) = .error ds ∧ ∃ d ∈ ds, d.problem = .nestingTooDeep) := by
  dsimp only
  have hitems := legal_items h.spelled hcs
  have hlegal := Lexed.legal_ofSource (unit.text comments)
  obtain ⟨htokens, -, hclean⟩ := Lexed.ofPieces_items hitems .origin
  obtain ⟨ts, u, hsplit, hu, hordered, -⟩ := @Lexed.ordered_ofPieces _ hitems .origin (Nat.le_refl 0)
  rw [← ofSource_text h.spelled hcs] at htokens hclean hsplit
  rw [hsplit] at hlegal
  have hts : ts.map (·.value) = tokens unit.layout := by
    rw [hsplit, List.map_append, tokens_items] at htokens
    exact (List.append_inj' htokens rfl).1
  obtain ⟨cs, hread, hbare, hlayout⟩ := rereads h hts
  obtain ⟨hfits, hdeep⟩ := ofTokens?_of_readsClasses hread hu []
  have hsource : ofSource? (unit.text comments) =
      (ofTokens? (ts ++ [u])).map fun file => (file, (Lexed.ofSource (unit.text comments)).comments) := by
    unfold ofSource?
    dsimp only
    rw [hclean, if_pos (List.isEmpty_nil), hsplit]
  refine ⟨hclean, ⟨cs⟩, hbare, fun hzero => ?_, fun hneed => ?_, fun hneed => ?_⟩
  · rw [hsplit, hlayout hzero hordered]
  · rw [hsource, hfits hneed]
    rfl
  · obtain ⟨ds, herror, hd⟩ := hdeep hneed hlegal
    refine ⟨ds, ?_, hd⟩
    rw [hsource, herror]
    rfl

end CompilationUnit

end JavaFold
