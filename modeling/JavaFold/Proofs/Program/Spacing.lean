import JavaFold.Proofs.Program.Layout

/-!
# Layouts keep tokens apart

In the layout of a program that can be spelled no token runs together with what comes after it, comments go
only in front of the first token of a line or after the semicolon that ends one, and everything between
tokens is blank (`Spaced`). Each lemma is about a part of a layout in front of an arbitrary `rest`.
-/

namespace JavaFold

open Writer (tab isBlock isMethod Position)

/-- The text is blank: it has only spaces and line ends. -/
def IsBlank (text : String) : Prop := ∀ c ∈ text.toList, c = ' ' ∨ c = '\n'

theorem IsBlank.append {s t : String} (hs : IsBlank s) (ht : IsBlank t) : IsBlank (s ++ t) := by
  intro c hc
  rw [String.toList_append, List.mem_append] at hc
  exact hc.elim (hs c) (ht c)

theorem isBlank_tab : IsBlank tab := by
  intro c hc
  have hall : tab.toList.all (fun c => c == ' ') = true := by decide
  exact .inl (beq_iff_eq.mp (List.all_eq_true.mp hall c hc))

namespace Token

/-- The second token may come right after the first one. -/
def Apart (t u : Token) : Prop := ∀ b ∈ (Utf8.encode u.spelling).head?, t.precedes b = true

/-- The token may come right before segments. -/
def Before (t : Token) : List Segment → Prop
  | .gap text :: _ => text ≠ ""
  | .token u :: _ => t.Apart u
  | .ending _ :: _ => t.Apart .semicolon
  | _ => False

end Token

namespace Segment

/-- A token comes first. -/
def StartsToken : List Segment → Prop
  | token _ :: _ | ending _ :: _ => True
  | _ => False

/-- Tokens do not run together, everything between them is blank, and comments on lines of their own come
before the first token of a line. The line is `fresh` as long as it has no token. -/
def Spaced : Bool → List Segment → Prop
  | _, [] => True
  | fresh, gap text :: ss => IsBlank text ∧ Spaced (fresh || text.toList.contains '\n') ss
  | _, token t :: ss => t.Written ∧ t.Before ss ∧ Spaced false ss
  | fresh, opening indent _ :: ss => fresh = true ∧ IsBlank indent ∧ StartsToken ss ∧ Spaced true ss
  | _, ending _ :: ss => Spaced true ss
  | fresh, remaining :: ss => fresh = true ∧ ss = []

end Segment

open Segment

/-! ## Which tokens may stand side by side -/

namespace Token

/-- The tokens an expression or a declaration can start with. -/
def startsExpr : Token → Bool
  | keyword .«true» | keyword .«false» | keyword .«null» | keyword .int | keyword .boolean | keyword .void
  | lparen | operator .sub | bang | tilde | step _ | integer _ | string _ | identifier _ => true
  | _ => false

/-- The tokens an expression can end with. -/
def endsExpr : Token → Bool
  | keyword _ | rparen | step _ | integer _ | string _ | identifier _ => true
  | _ => false

theorem head?_spelling_of_isSign {u : Token} (hu : u.Written) (hs : u.isSign = true) :
    (Utf8.encode u.spelling).head? = (Piece.spell u.spelling).head? := by
  rw [encode_of_isSign hu hs]

/-- The end of an expression may stand in front of these. -/
theorem apart_of_endsExpr {t u : Token} (ht : t.endsExpr = true)
    (hu : u ∈ [rparen, comma, semicolon, dot, lparen, step .inc, step .dec]) : t.Apart u := by
  intro b hb
  have hall : ∀ u ∈ [rparen, comma, semicolon, dot, lparen, step .inc, step .dec],
      u.isSign = true ∧ ∀ b ∈ (Piece.spell u.spelling).head?,
        Ascii.continuesWord b = false ∧ Ascii.isDigit b = false := by
    decide +kernel
  have hw : u.Written := by
    simp only [List.mem_cons, List.not_mem_nil, or_false] at hu
    rcases hu with rfl | rfl | rfl | rfl | rfl | rfl | rfl <;> trivial
  obtain ⟨hsign, hbytes⟩ := hall u hu
  rw [head?_spelling_of_isSign hw hsign] at hb
  have hword := hbytes b hb
  cases t with
  | keyword word => simp [precedes, hword]
  | identifier name => simp [precedes, hword]
  | integer value => simp [precedes, hword]
  | string text => rfl
  | rparen => rfl
  | step op => cases op <;> rfl
  | _ => cases ht

/-- The sign with which an expression goes on at once. -/
theorem extensions_unary (op : UnaryOp) : op.token.extensions =
    match op with
    | .neg => [0x2D, 0x3D]
    | .not => [0x3D]
    | _ => [] := by
  match op with
  | .neg | .not | .bitNot | .step .inc | .step .dec => decide

/-- The byte with which an expression starts is no equals sign, and it is a minus sign only where the
expression starts with one. -/
theorem head?_of_startsExpr {u : Token} (hu : u.Written) (h : u.startsExpr = true) :
    ∀ b ∈ (Utf8.encode u.spelling).head?, b ≠ 0x3D ∧
      (b = 0x2D → u = operator .sub ∨ u = step .dec) := by
  intro b hb
  by_cases hs : u.isSign = true
  · rw [head?_spelling_of_isSign hu hs] at hb
    have hall : ∀ u ∈ [lparen, operator .sub, bang, tilde, step .inc, step .dec],
        ∀ b ∈ (Piece.spell u.spelling).head?, b ≠ 0x3D ∧
          (b = 0x2D → u = operator .sub ∨ u = step .dec) := by
      decide +kernel
    refine hall u ?_ b hb
    cases u with
    | operator op => cases op <;> first | exact absurd h Bool.false_ne_true | decide
    | step op => cases op <;> decide
    | _ => first | exact absurd h Bool.false_ne_true | exact absurd hs Bool.false_ne_true | decide
  · have hother : Ascii.continuesWord b = true ∨ b = Ascii.quote := by
      cases u with
      | keyword word =>
        obtain ⟨c, run, henc, hc, -⟩ := Piece.exists_spell_keyword word
        rw [spelling, Piece.encode_eq_spell (Piece.ascii_keyword word), henc] at hb
        cases hb
        exact .inl (Bool.or_eq_true_iff.mpr (.inl hc))
      | identifier name =>
        obtain ⟨c, run, henc, hc, -⟩ := IsWord.exists_encode hu
        rw [spelling, henc] at hb
        cases hb
        exact .inl (Bool.or_eq_true_iff.mpr (.inl hc))
      | integer value =>
        have hmem := Ascii.isDigit_of_mem_encode b (List.mem_of_mem_head? hb)
        exact .inl (Bool.or_eq_true_iff.mpr (.inr hmem))
      | string text =>
        rw [← bytes_piece hu] at hb
        cases hb
        exact .inr rfl
      | endOfFile => cases h
      | _ => exact absurd rfl hs
    refine ⟨?_, fun hb => absurd (hb ▸ hother) (by decide)⟩
    rintro rfl
    exact absurd hother (by decide)

end Token

/-! ## Expressions -/

namespace Segment

/-- An expression may end in front of the segments. -/
def Closes (ss : List Segment) : Prop := ∀ t : Token, t.endsExpr = true → t.Before ss

variable {ss rest : List Segment} {fresh : Bool}

theorem closes_gap {text : String} (h : text ≠ "") : Closes (gap text :: ss) := fun _ _ => h

theorem closes_token {u : Token}
    (h : u ∈ [.rparen, .comma, .semicolon, .dot, .lparen, .step .inc, .step .dec]) :
    Closes (token u :: ss) := fun _ ht => Token.apart_of_endsExpr ht h

theorem closes_ending {stop : Nat} : Closes (ending stop :: ss) :=
  fun _ ht => Token.apart_of_endsExpr ht (by decide)

/-- A sign that goes on to no longer one may come before any token. -/
theorem before_of_extensions {t u : Token} (h : t.isSign = true) (hext : t.extensions = []) :
    t.Before (token u :: ss) := by
  intro b _
  rw [Token.precedes_of_isSign h, hext]
  rfl

/-- A space between tokens. -/
theorem spaced_space (h : Spaced false ss) : Spaced false (gap " " :: ss) := by
  exact ⟨fun c hc => .inl (List.mem_singleton.mp hc), h⟩

/-- A line end. -/
theorem spaced_newline (h : Spaced true ss) : Spaced fresh (gap "\n" :: ss) := by
  refine ⟨fun c hc => .inr (List.mem_singleton.mp hc), ?_⟩
  rw [show ("\n".toList.contains '\n') = true from rfl, Bool.or_true]
  exact h

/-- Blanks at the start of a line. -/
theorem spaced_indent {indent : String} (hblank : IsBlank indent) (h : Spaced true ss) :
    Spaced true (gap indent :: ss) := ⟨hblank, h⟩

/-- A space after a token. -/
theorem spaced_token_space {t : Token} (ht : t.Written) (h : Spaced false ss) :
    Spaced fresh (token t :: gap " " :: ss) := ⟨ht, by simp [Token.Before], spaced_space h⟩

/-- A line end after a token. -/
theorem spaced_token_newline {t : Token} (ht : t.Written) (h : Spaced true ss) :
    Spaced fresh (token t :: gap "\n" :: ss) := ⟨ht, by simp [Token.Before], spaced_newline h⟩

theorem before_lparen {t : Token} (ht : t.extensions ⊆ [0x2D, 0x3D]) (hs : t.isSign = true) :
    t.Before (token .lparen :: ss) := by
  intro b hb
  have hbyte : b = 0x28 := by
    rw [Token.head?_spelling_of_isSign (u := .lparen) trivial rfl] at hb
    exact (Option.some.inj hb).symm
  rw [Token.precedes_of_isSign hs, Bool.not_eq_true', List.contains_eq_mem, decide_eq_false_iff_not, hbyte]
  exact fun hmem => absurd (ht hmem) (by decide)

end Segment

namespace Token

theorem spaced_ofWords : ∀ {w : List Char} {ws : List (List Char)},
    (∀ x ∈ w :: ws, IsWord (.ofList x)) → ∀ {rest : List Segment} {fresh : Bool}, Closes rest →
      Spaced false rest → Spaced fresh ((ofWords (w :: ws)).map token ++ rest)
  | w, [], hw, rest, _, hc, h => ⟨hw w List.mem_cons_self, hc _ rfl, h⟩
  | w, v :: ws, hw, rest, _, hc, h => by
    have ⟨hw, hws⟩ := List.forall_mem_cons.mp hw
    have hdot : (dot : Token).extensions = [] := by decide
    refine ⟨hw, apart_of_endsExpr rfl (by decide), trivial, ?_, spaced_ofWords hws hc h⟩
    cases ws <;> exact before_of_extensions rfl hdot

theorem toList_dotted (word : String) (words : List String) :
    (dotted word words).toList = ['.'].intercalate (word.toList :: words.map String.toList) := by
  have hleft : (dotted word words).toList = word.toList ++ words.flatMap fun v => '.' :: v.toList := by
    induction words generalizing word with
    | nil => simp [dotted]
    | cons v words ih =>
      have hfold : dotted word (v :: words) = dotted (word ++ "." ++ v) words := rfl
      rw [hfold, ih, String.toList_append, String.toList_append, List.flatMap_cons]
      simp
  have hright : ∀ w : List Char, ['.'].intercalate (w :: words.map String.toList) =
      w ++ words.flatMap fun v => '.' :: v.toList := by
    clear hleft
    induction words with
    | nil => simp
    | cons v words ih =>
      intro w
      rw [List.map_cons, List.intercalate_cons_cons, ih, List.flatMap_cons]
      simp
  rw [hleft, hright]

theorem dot_not_mem {name : String} (h : IsWord name) : '.' ∉ name.toList := by
  obtain ⟨b, run, hb, hrun, rfl, -⟩ := h
  have hcontinues : ∀ c ∈ b :: run, Ascii.continuesWord c = true :=
    List.forall_mem_cons.mpr ⟨Bool.or_eq_true_iff.mpr (.inl hb), hrun⟩
  rw [Ascii.text, String.toList_ofList]
  intro hmem
  obtain ⟨c, hc, hdot⟩ := List.mem_map.mp hmem
  have hnat : c.toNat = 0x2E := by
    rw [← Ascii.toNat_ofNat, hdot]
    rfl
  have hcont := hcontinues c hc
  rw [UInt8.toNat_inj.mp (hnat.trans (by decide : 0x2E = (0x2E : UInt8).toNat))] at hcont
  exact absurd hcont (by decide)

/-- The tokens of a dotted name are its words and the dots between them. -/
theorem exists_words {name : String} (h : IsPath name) : ∃ word words, (∀ x ∈ word :: words, IsWord x) ∧
    name = dotted word words ∧ ofPath name = ofWords ((word :: words).map String.toList) := by
  obtain ⟨word, words, hword, hwords, rfl⟩ := h
  have hall := List.forall_mem_cons.mpr ⟨hword, hwords⟩
  refine ⟨word, words, hall, rfl, ?_⟩
  rw [ofPath, toList_dotted, ← List.map_cons, List.splitOn_intercalate]
  · intro l hl
    obtain ⟨x, hx, rfl⟩ := List.mem_map.mp hl
    exact dot_not_mem (hall x hx)
  · exact List.cons_ne_nil _ _

end Token

namespace Segment

variable {ss rest : List Segment} {fresh : Bool}

theorem spaced_path {name : String} (hname : IsPath name) (hc : Closes rest) (h : Spaced false rest) :
    Spaced fresh ((Token.ofPath name).map token ++ rest) := by
  obtain ⟨word, words, hwords, -, hpath⟩ := Token.exists_words hname
  rw [hpath, List.map_cons]
  refine Token.spaced_ofWords (fun x hx => ?_) hc h
  obtain ⟨w, hw, rfl⟩ := List.mem_map.mp (List.map_cons ▸ hx)
  rw [String.ofList_toList]
  exact hwords w hw

theorem spaced_literal (v : Literal) (hc : Closes rest) (h : Spaced false rest) :
    Spaced fresh (v.tokens.map token ++ rest) := by
  cases v with
  | int n =>
    have hbound : n.toInt.natAbs ≤ Lexed.maxInteger := by
      have hlow := Int32.le_toInt n
      have hhigh := Int32.toInt_lt n
      unfold Lexed.maxInteger
      omega
    rw [Literal.tokens]
    split
    · refine ⟨trivial, fun b hb => ?_, hbound, hc _ rfl, h⟩
      have hdigit := Ascii.toNat_of_isDigit (Ascii.isDigit_of_mem_encode b (List.mem_of_mem_head? hb))
      rw [Token.precedes_of_isSign rfl, Bool.not_eq_true', List.contains_eq_mem, decide_eq_false_iff_not,
        show (Token.operator .sub).extensions = [0x2D, 0x3D] from Token.extensions_unary .neg]
      simp only [List.mem_cons, List.not_mem_nil, or_false]
      rintro (rfl | rfl) <;> exact absurd hdigit (by decide)
    · exact ⟨hbound, hc _ rfl, h⟩
  | bool b => exact ⟨trivial, hc _ rfl, h⟩
  | str s => exact ⟨trivial, hc _ rfl, h⟩
  | null => exact ⟨trivial, hc _ rfl, h⟩

/-- The segments start as an expression does. -/
def Starts (ss : List Segment) : Prop :=
  ∃ u more, ss = token u :: more ∧ u.startsExpr = true ∧ u.Written

theorem Starts.append (h : Starts ss) (rest : List Segment) : Starts (ss ++ rest) := by
  obtain ⟨u, more, rfl, hu⟩ := h
  exact ⟨u, more ++ rest, rfl, hu⟩

theorem Starts.parens (h : Starts ss) (needed : Bool) : Starts (parens needed ss) := by
  cases needed with
  | false => exact h
  | true => exact ⟨.lparen, _, rfl, rfl, trivial⟩

theorem Starts.startsToken (h : Starts ss) : StartsToken ss := by
  obtain ⟨u, more, rfl, -⟩ := h
  trivial

theorem Starts.before_lparen (h : Starts ss) : (Token.lparen).Before ss := by
  obtain ⟨u, more, rfl, -⟩ := h
  exact before_of_extensions rfl (by decide)

theorem spaced_parens {needed : Bool} (hc : Closes rest) (h : Spaced false rest)
    (hss : ∀ {fresh : Bool} {rest : List Segment}, Closes rest → Spaced false rest →
      Spaced fresh (ss ++ rest))
    (hfirst : Starts ss) : Spaced fresh (parens needed ss ++ rest) := by
  cases needed with
  | false => exact hss hc h
  | true =>
    obtain ⟨u, more, hu, -, -⟩ := hfirst
    have hparen : Spaced false (token .rparen :: rest) := ⟨trivial, hc _ rfl, h⟩
    have hinner := @hss false _ (closes_token (by decide)) hparen
    have hext : (Token.lparen).extensions = [] := by decide
    refine ⟨trivial, ?_, ?_⟩
    · rw [hu]
      exact before_of_extensions rfl hext
    · exact (congrArg (Spaced false) (List.append_assoc ss [token .rparen] rest)).mpr hinner

end Segment

theorem Segment.starts_path {name : String} (h : IsPath name) :
    Starts ((Token.ofPath name).map token) := by
  obtain ⟨word, words, hwords, -, hpath⟩ := Token.exists_words h
  have hword : IsWord (.ofList word.toList) := by
    rw [String.ofList_toList]
    exact hwords word List.mem_cons_self
  rw [hpath]
  cases words <;> exact ⟨.identifier (.ofList word.toList), _, rfl, rfl, hword⟩

theorem Segment.starts_literal (v : Literal) : Starts (v.tokens.map token) := by
  cases v with
  | int n =>
    have hbound : n.toInt.natAbs ≤ Lexed.maxInteger := by
      have hlow := Int32.le_toInt n
      have hhigh := Int32.toInt_lt n
      unfold Lexed.maxInteger
      omega
    rw [Literal.tokens]
    split
    · exact ⟨_, _, rfl, rfl, trivial⟩
    · exact ⟨_, _, rfl, rfl, hbound⟩
  | bool b => cases b <;> exact ⟨_, _, rfl, rfl, trivial⟩
  | str s => exact ⟨_, _, rfl, rfl, trivial⟩
  | null => exact ⟨_, _, rfl, rfl, trivial⟩

namespace Expr

theorem starts_layout : ∀ {e : Expr}, e.Spelled → Starts e.layout
  | literal _ v, _ => starts_literal v
  | name _ n, h => starts_path h
  | binary _ op l r, h => by
    rw [layout]
    exact ((starts_layout h.1).parens _).append _
  | unary _ op e, _ => ⟨op.token, _, by rw [layout], by cases op <;> rfl, by cases op <;> trivial⟩
  | postStep _ op e, h => by
    have he : e.Spelled := h
    rw [layout]
    exact ((starts_layout he).parens _).append _
  | assign _ op t v, h => by
    rw [layout]
    exact ((starts_layout h.1).parens _).append _
  | call _ path args, h => by
    rw [layout]
    exact (starts_path h.1).append _

theorem starts_layouts {e : Expr} {es : List Expr} (h : SpelledAll (e :: es)) :
    Starts (layouts (e :: es)) := by
  cases es with
  | nil => exact starts_layout h.1
  | cons e' es => exact (starts_layout h.1).append _

/-- An opening parenthesis may stand in front of arguments. -/
theorem before_arguments {es : List Expr} (h : SpelledAll es) (rest : List Segment) :
    (Token.lparen).Before (layouts es ++ token .rparen :: rest) := by
  cases es with
  | nil => exact before_of_extensions rfl (by decide)
  | cons e es => exact ((starts_layouts h).append _).before_lparen

/-- The text of an expression starts with the spelling of its first token. -/
theorem text_of_layout {e : Expr} {u : Token} {more : List Segment} {needed : Bool}
    (h : parens needed e.layout = token u :: more) :
    ∃ text, parenthesized needed e.text = u.spelling ++ text := by
  have hwrite := congrArg (fun w : Writer String => (w.run []).1)
    (writeAll_parens (writeAll_layout e) needed)
  rw [h, writeAll_cons] at hwrite
  exact ⟨_, hwrite.symm⟩

/-- An operator may stand in front of its operand: in parentheses if they would run together. -/
theorem before_operand {e : Expr} (he : e.Spelled) (op : UnaryOp) (rest : List Segment) :
    op.token.Before
      (parens (op.clashesWith (parenthesized (e.level < unaryLevel) e.text))
        (parens (e.level < unaryLevel) e.layout) ++ rest) := by
  obtain ⟨u, more, hu, hstarts, hwritten⟩ := (starts_layout he).parens (decide (e.level < unaryLevel))
  obtain ⟨text, htext⟩ := text_of_layout hu
  rw [hu, htext]
  cases hclash : op.clashesWith (u.spelling ++ text) with
  | true =>
    refine before_lparen ?_ (by cases op <;> rfl)
    rw [Token.extensions_unary]
    cases op <;> simp
  | false =>
    intro b hb
    have ⟨hequals, hminus⟩ := Token.head?_of_startsExpr hwritten hstarts b hb
    rw [Token.precedes_of_isSign (by cases op <;> rfl), Bool.not_eq_true', List.contains_eq_mem,
      decide_eq_false_iff_not, Token.extensions_unary]
    cases op with
    | neg =>
      have hne : b ≠ 0x2D := by
        intro hb
        rcases hminus hb with rfl | rfl
        · exact absurd hclash (by simp [UnaryOp.clashesWith, UnaryOp.clash?, Token.spelling, BinaryOp.symbol])
        · exact absurd hclash (by simp [UnaryOp.clashesWith, UnaryOp.clash?, Token.spelling, StepOp.symbol])
      simp [hne, hequals]
    | not => simp [hequals]
    | bitNot => exact List.not_mem_nil
    | step op => exact List.not_mem_nil

mutual

/-- An expression may stand at any place of a line, in front of what closes it. -/
theorem spaced_layout : ∀ {e : Expr}, e.Spelled → ∀ {fresh : Bool} {rest : List Segment}, Closes rest →
    Spaced false rest → Spaced fresh (e.layout ++ rest)
  | literal _ v, _, _, _, hc, hr => spaced_literal v hc hr
  | name _ n, h, _, _, hc, hr => spaced_path h hc hr
  | binary _ op l r, h, _, rest, hc, hr => by
    obtain ⟨hl, hr'⟩ := h
    rw [layout, List.append_assoc]
    refine spaced_parens (closes_gap (by decide)) (spaced_space ?_) (spaced_layout hl) (starts_layout hl)
    exact spaced_token_space trivial (spaced_parens hc hr (spaced_layout hr') (starts_layout hr'))
  | unary _ op e, he, _, rest, hc, hr => by
    have he : e.Spelled := he
    rw [layout, List.cons_append]
    refine ⟨by cases op <;> trivial, before_operand he op rest, ?_⟩
    refine spaced_parens hc hr (fun hc hr => ?_) ((starts_layout he).parens _)
    exact spaced_parens hc hr (spaced_layout he) (starts_layout he)
  | postStep _ op e, h, _, rest, hc, hr => by
    have he : e.Spelled := h
    rw [layout, List.append_assoc]
    have hop : Closes (token (.step op) :: rest) := closes_token (by cases op <;> decide)
    exact spaced_parens hop ⟨trivial, hc _ rfl, hr⟩ (spaced_layout he) (starts_layout he)
  | assign _ op t v, h, _, rest, hc, hr => by
    obtain ⟨ht, hv⟩ := h
    have hwritten : op.token.Written := by
      cases op with
      | plain => trivial
      | compound op =>
        rw [AssignOp.token]
        split
        · next hop => exact hop
        · trivial
    rw [layout, List.append_assoc]
    refine spaced_parens (closes_gap (by decide)) (spaced_space ?_) (spaced_layout ht) (starts_layout ht)
    exact spaced_token_space hwritten (spaced_layout hv hc hr)
  | call _ path args, h, _, rest, hc, hr => by
    rw [layout, List.append_assoc, List.cons_append, List.append_assoc]
    refine spaced_path h.1 (closes_token (by decide)) ⟨trivial, before_arguments h.2 rest, ?_⟩
    exact spaced_layouts h.2 (closes_token (by decide)) ⟨trivial, hc _ rfl, hr⟩

theorem spaced_layouts : ∀ {es : List Expr}, SpelledAll es → ∀ {rest : List Segment},
    Closes rest → Spaced false rest → Spaced false (layouts es ++ rest)
  | [], _, _, _, hr => hr
  | [e], h, _, hc, hr => spaced_layout h.1 hc hr
  | e :: e' :: es, h, rest, hc, hr => by
    rw [layouts_cons_cons, List.append_assoc]
    refine spaced_layout h.1 (closes_token (by decide)) ?_
    exact spaced_token_space trivial (spaced_layouts h.2 hc hr)

end

theorem spaced_lineLayouts {indent : String} (hindent : IsBlank indent) : ∀ {es : List Expr}, SpelledAll es →
    ∀ {rest : List Segment}, Spaced true rest → Spaced true (lineLayouts indent es ++ rest)
  | [], _, _, hr => hr
  | [e], h, rest, hr => by
    rw [lineLayouts, List.cons_append, List.append_assoc]
    exact spaced_indent hindent (spaced_layout h.1 (closes_gap (by decide)) (spaced_newline hr))
  | e :: e' :: es, h, rest, hr => by
    rw [lineLayouts_cons_cons, List.cons_append, List.append_assoc]
    refine spaced_indent hindent (spaced_layout h.1 (closes_token (by decide)) ?_)
    exact spaced_token_newline trivial (spaced_lineLayouts hindent h.2 hr)

theorem starts_wrapped {e : Expr} (he : e.Spelled) (indent line : String) : Starts (e.wrapped indent line) := by
  unfold wrapped
  split
  · exact starts_layout he
  · split
    · exact (starts_path he.1).append _
    · exact starts_layout he

theorem spaced_wrapped {indent : String} (hindent : IsBlank indent) (line : String) {e : Expr} (he : e.Spelled)
    {fresh : Bool} {rest : List Segment} (hc : Closes rest) (hr : Spaced false rest) :
    Spaced fresh (e.wrapped indent line ++ rest) := by
  unfold wrapped
  split
  · exact spaced_layout he hc hr
  · split
    · rw [List.append_assoc, List.cons_append, List.cons_append, List.append_assoc]
      refine spaced_path he.1 (closes_token (by decide)) (spaced_token_newline trivial ?_)
      refine spaced_lineLayouts (hindent.append isBlank_tab) he.2 (spaced_indent hindent ?_)
      exact ⟨trivial, hc _ rfl, hr⟩
    · exact spaced_layout he hc hr

theorem spaced_headerLayout {e : Option Expr} (he : SpelledOpt e) {rest : List Segment} (hc : Closes rest)
    (hr : Spaced false rest) : Spaced false (headerLayout e ++ rest) := by
  cases e with
  | none => exact hr
  | some e => exact spaced_space (spaced_layout (he e rfl) hc hr)

theorem before_headerLayout (e : Option Expr) (u : Token) (rest : List Segment) :
    (Token.semicolon).Before (headerLayout e ++ token u :: rest) := by
  cases e with
  | none => exact before_of_extensions rfl (by decide)
  | some e => simp [headerLayout, Token.Before]

end Expr

/-! ## Declarations -/

theorem starts_declLayout {ty : Ty} (hty : ty.Legal) (name : String) : Starts (declLayout ty name) := by
  cases ty with
  | named path => exact (starts_path hty).append _
  | _ => exact ⟨_, _, rfl, rfl, trivial⟩

theorem spaced_declLayout {ty : Ty} (hty : ty.Legal) {name : String} (hname : IsWord name) {fresh : Bool}
    {rest : List Segment} (hc : Closes rest) (hr : Spaced false rest) :
    Spaced fresh (declLayout ty name ++ rest) := by
  have hrest : Spaced false (gap " " :: token (.identifier name) :: rest) :=
    spaced_space ⟨hname, hc _ rfl, hr⟩
  rw [declLayout, List.append_assoc]
  cases ty with
  | named path => exact spaced_path hty (closes_gap (by decide)) hrest
  | _ => exact ⟨trivial, by simp [Token.Before], hrest⟩

theorem spaced_initLayout {indent : String} (hindent : IsBlank indent) (line : String) {e : Option Expr}
    (he : Expr.SpelledOpt e) {rest : List Segment} (hc : Closes rest) (hr : Spaced false rest) :
    Spaced false (initLayout indent line e ++ rest) := by
  cases e with
  | none => exact hr
  | some e =>
    exact spaced_space (spaced_token_space trivial (Expr.spaced_wrapped hindent _ (he e rfl) hc hr))

theorem closes_initLayout (indent line : String) (e : Option Expr) {rest : List Segment} (hc : Closes rest) :
    Closes (initLayout indent line e ++ rest) := by
  cases e with
  | none => exact hc
  | some e => exact closes_gap (by decide)

namespace Stmt

theorem starts_simpleLayout {s : Stmt} (hs : s.Spelled) (hsimple : s.isSimple = true) (indent line : String) :
    Starts (s.simpleLayout indent line) := by
  cases s with
  | localVar span ty name init => exact (starts_declLayout hs.1 _).append _
  | expr span e => exact Expr.starts_wrapped hs indent line
  | _ => cases hsimple

theorem spaced_simpleLayout {indent : String} (hindent : IsBlank indent) (line : String) {s : Stmt}
    (hs : s.Spelled) (hsimple : s.isSimple = true) {fresh : Bool} {rest : List Segment} (hc : Closes rest)
    (hr : Spaced false rest) : Spaced fresh (s.simpleLayout indent line ++ rest) := by
  cases s with
  | localVar span ty name init =>
    obtain ⟨hty, hname, hinit⟩ := hs
    rw [simpleLayout, List.append_assoc]
    exact spaced_declLayout hty hname (closes_initLayout _ _ _ hc)
      (spaced_initLayout hindent _ hinit hc hr)
  | expr span e => exact Expr.spaced_wrapped hindent line hs hc hr
  | _ => cases hsimple

/-! ## Statements -/

theorem isBlank_indentAt {indent : String} (h : IsBlank indent) (position : Position) :
    IsBlank (indentAt position indent) := by
  cases position with
  | ownLine => exact h
  | _ => exact h.append isBlank_tab

/-- What comes before a statement. On its own line it needs one that is fresh. -/
theorem spaced_opening {position : Position} {indent : String} {start : Nat} {fresh : Bool}
    {ss : List Segment} (hindent : IsBlank indent) (hfresh : position = .ownLine → fresh = true)
    (hstarts : StartsToken ss) (h : Spaced true ss) :
    Spaced fresh (openingAt position indent start ++ ss) := by
  cases position with
  | ownLine => exact ⟨hfresh rfl, hindent, hstarts, h⟩
  | body => exact spaced_newline ⟨rfl, hindent.append isBlank_tab, hstarts, h⟩
  | afterElse => exact spaced_newline ⟨rfl, hindent.append isBlank_tab, hstarts, h⟩

/-- What may come after a statement. Only a block that is a body leaves its line open. -/
def Leaves (position : Position) (s : Stmt) (rest : List Segment) : Prop :=
  if position ≠ .ownLine ∧ isBlock s = true then (Token.rbrace).Before rest ∧ Spaced false rest
  else Spaced true rest

theorem leaves_ownLine {s : Stmt} {rest : List Segment} (h : Spaced true rest) :
    Leaves .ownLine s rest := by
  rw [Leaves, if_neg fun h => h.1 rfl]
  exact h

theorem leaves_endLayout {position : Position} {s : Stmt} {rest : List Segment} (h : Spaced true rest) :
    position ≠ .ownLine → Leaves position s (endLayout s ++ rest) := by
  intro hposition
  rw [Leaves, endLayout]
  split
  · next hblock =>
    rw [if_pos hblock.2]
    exact ⟨by simp [Token.Before], spaced_newline h⟩
  · next hblock =>
    rw [if_neg fun hs => hblock ⟨hposition, hs⟩]
    exact h

theorem leaves_else {s : Stmt} {indent : String} {rest : List Segment} (hindent : IsBlank indent)
    (h : ∀ fresh, Spaced fresh rest) :
    Leaves .body s (gap (if isBlock s then " " else indent) :: rest) := by
  rw [Leaves]
  split
  · next hblock =>
    rw [if_pos hblock.2]
    exact ⟨by simp [Token.Before], spaced_space (h false)⟩
  · next hblock =>
    rw [if_neg fun hs => hblock ⟨by decide, hs⟩]
    exact spaced_indent hindent (h true)

/-- Anything may stand in front of a body, which starts with a blank. -/
theorem before_body {position : Position} (hposition : position ≠ .ownLine) (t : Token) (indent : String)
    (s : Stmt) (rest : List Segment) : t.Before (s.layout position indent ++ rest) := by
  cases position with
  | ownLine => exact absurd rfl hposition
  | _ =>
    cases s with
    | ifElse span cond thenBranch elseBranch =>
      cases elseBranch <;> simp [layout, openingAt, Token.Before]
    | _ => simp [layout, openingAt, Token.Before]

/-- A condition after its reserved word. -/
theorem spaced_condition {word : Keyword} {cond : Expr} (hcond : cond.Spelled) {fresh : Bool}
    {rest : List Segment} (hbefore : (Token.rparen).Before rest) (hr : Spaced false rest) :
    Spaced fresh (token (.keyword word) :: gap " " :: token .lparen ::
      (cond.layout ++ token .rparen :: rest)) := by
  refine spaced_token_space trivial ⟨trivial, ((Expr.starts_layout hcond).append _).before_lparen, ?_⟩
  exact Expr.spaced_layout hcond (closes_token (by decide)) ⟨trivial, hbefore, hr⟩

theorem spaced_of_leaves {position : Position} {s : Stmt} {rest : List Segment} (h : Leaves position s rest)
    (hblock : isBlock s = false) : Spaced true rest := by
  rwa [Leaves, if_neg (by simp [hblock])] at h

mutual

/-- A statement may stand on a fresh line, or as the body of an `if` or a loop. -/
theorem spaced_layout {position : Position} {indent : String} (hindent : IsBlank indent) :
    ∀ {s : Stmt}, s.Spelled → ∀ {fresh : Bool} {rest : List Segment}, (position = .ownLine → fresh = true) →
      Leaves position s rest → Spaced fresh (s.layout position indent ++ rest)
  | .block span body, hs, fresh, rest, hfresh, hrest => by
    have hinner := hindent.append isBlank_tab
    cases position with
    | ownLine =>
      rw [layout, List.cons_append, List.cons_append, List.cons_append, List.append_assoc]
      refine ⟨hfresh rfl, hindent, trivial, spaced_token_newline trivial ?_⟩
      refine spaced_layouts hinner hs (spaced_indent hindent (spaced_token_newline trivial ?_))
      rwa [Leaves, if_neg fun h => h.1 rfl] at hrest
    | body | afterElse =>
      rw [Leaves, if_pos ⟨by decide, rfl⟩] at hrest
      have hbrace : Spaced true (gap indent :: token .rbrace :: rest) :=
        spaced_indent hindent ⟨trivial, hrest⟩
      have hopen : ∀ ss, Spaced true ss → Spaced fresh (gap " " :: token .lbrace :: gap "\n" :: ss) := by
        intro ss hss
        refine ⟨fun c hc => .inl (List.mem_singleton.mp hc), spaced_token_newline trivial hss⟩
      simp only [layout, List.cons_append, List.append_assoc, List.nil_append]
      exact hopen _ (spaced_layouts hinner hs hbrace)
  | .ifElse span cond thenBranch elseBranch, hs, fresh, rest, hfresh, hrest => by
    have hr := spaced_of_leaves hrest rfl
    -- after `else` the statement stays on its line
    have hline : ∀ ss, Spaced true ss → Spaced false ss → StartsToken ss →
        Spaced fresh ((if position = .afterElse then [gap " "] else openingAt position indent span.start) ++
          ss) := by
      intro ss htrue hfalse hstarts
      split
      · refine ⟨fun c hc => .inl (List.mem_singleton.mp hc), ?_⟩
        cases fresh <;> assumption
      · exact spaced_opening hindent hfresh hstarts htrue
    have hinner : IsBlank (if position = .afterElse then indent else indentAt position indent) := by
      split
      · exact hindent
      · exact isBlank_indentAt hindent position
    cases elseBranch with
    | none =>
      obtain ⟨hcond, hthen⟩ := hs
      have hbody : ∀ inner, IsBlank inner → Spaced false
          (layout .body inner thenBranch ++ (endLayout thenBranch ++ rest)) := fun inner hinner =>
        spaced_layout hinner hthen (fun h => nomatch h) (leaves_endLayout hr (by decide))
      simp only [layout, List.append_assoc, List.cons_append]
      refine hline _ ?_ ?_ trivial <;>
        exact spaced_condition hcond (before_body (by decide) _ _ _ _) (hbody _ hinner)
    | some e =>
      obtain ⟨hcond, hthen, helse⟩ := hs
      have hafter : ∀ inner, IsBlank inner → ∀ fresh, Spaced fresh
          (token (.keyword .«else») :: (layout .afterElse inner e ++ (endLayout e ++ rest))) := fun inner hinner _ =>
        ⟨trivial, before_body (by decide) _ _ _ _,
          spaced_layout hinner helse (fun h => nomatch h) (leaves_endLayout hr (by decide))⟩
      have hbody : ∀ inner, IsBlank inner → Spaced false (layout .body inner thenBranch ++
          gap (if isBlock thenBranch then " " else inner) :: token (.keyword .«else») ::
            (layout .afterElse inner e ++ (endLayout e ++ rest))) := fun inner hinner =>
        spaced_layout hinner hthen (fun h => nomatch h) (leaves_else hinner (hafter inner hinner))
      simp only [layout, List.append_assoc, List.cons_append]
      refine hline _ ?_ ?_ trivial <;>
        exact spaced_condition hcond (before_body (by decide) _ _ _ _) (hbody _ hinner)
  | .whileLoop span cond body, hs, fresh, rest, hfresh, hrest => by
    have hr := spaced_of_leaves hrest rfl
    obtain ⟨hcond, hbody⟩ := hs
    simp only [layout, List.append_assoc, List.cons_append]
    refine spaced_opening hindent hfresh trivial ?_
    refine spaced_condition hcond (before_body (by decide) _ _ _ _) ?_
    exact spaced_layout (isBlank_indentAt hindent position) hbody (fun h => nomatch h)
      (leaves_endLayout hr (by decide))
  | .forLoop span init cond update body, hs, fresh, rest, hfresh, hrest => by
    have hr := spaced_of_leaves hrest rfl
    have hinner := isBlank_indentAt hindent position
    have hparts : Expr.SpelledOpt cond ∧ Expr.SpelledOpt update ∧ body.Spelled := by
      cases init with
      | none => exact hs
      | some i => exact ⟨hs.2.2.1, hs.2.2.2.1, hs.2.2.2.2⟩
    obtain ⟨hcond, hupdate, hbody⟩ := hparts
    have htail : Spaced false (token .semicolon :: (Expr.headerLayout cond ++ token .semicolon ::
        (Expr.headerLayout update ++ token .rparen :: (layout .body (indentAt position indent) body ++
          (endLayout body ++ rest))))) := by
      refine ⟨trivial, Expr.before_headerLayout _ _ _, Expr.spaced_headerLayout hcond
        (closes_token (by decide)) ⟨trivial, Expr.before_headerLayout _ _ _, ?_⟩⟩
      refine Expr.spaced_headerLayout hupdate (closes_token (by decide))
        ⟨trivial, before_body (by decide) _ _ _ _, ?_⟩
      exact spaced_layout hinner hbody (fun h => nomatch h) (leaves_endLayout hr (by decide))
    simp only [layout, List.append_assoc, List.cons_append]
    refine spaced_opening hindent hfresh trivial (spaced_token_space trivial ?_)
    cases init with
    | none => exact ⟨trivial, before_of_extensions rfl (by decide), htail⟩
    | some i =>
      refine ⟨trivial, ((starts_simpleLayout hs.1 hs.2.1 _ _).append _).before_lparen, ?_⟩
      exact spaced_simpleLayout hinner _ hs.1 hs.2.1 (closes_token (by decide)) htail
  | .ret span value, hs, fresh, rest, hfresh, hrest => by
    have hr := spaced_of_leaves hrest rfl
    have hinner := isBlank_indentAt hindent position
    simp only [layout, List.append_assoc, List.cons_append, List.nil_append]
    refine spaced_opening hindent hfresh trivial ?_
    cases value with
    | none => exact ⟨trivial, Token.apart_of_endsExpr rfl (by decide), hr⟩
    | some e =>
      exact spaced_token_space trivial (Expr.spaced_wrapped hinner _ (hs e rfl) closes_ending hr)
  | .brk span, _, fresh, rest, hfresh, hrest => by
    have hr := spaced_of_leaves hrest rfl
    rw [layout, List.append_assoc]
    exact spaced_opening hindent hfresh trivial
      ⟨trivial, Token.apart_of_endsExpr rfl (by decide), hr⟩
  | .cont span, _, fresh, rest, hfresh, hrest => by
    have hr := spaced_of_leaves hrest rfl
    rw [layout, List.append_assoc]
    exact spaced_opening hindent hfresh trivial
      ⟨trivial, Token.apart_of_endsExpr rfl (by decide), hr⟩
  | .empty span, _, fresh, rest, hfresh, hrest => by
    have hr := spaced_of_leaves hrest rfl
    rw [layout, List.append_assoc]
    exact spaced_opening hindent hfresh trivial hr
  | .expr span value, hs, fresh, rest, hfresh, hrest => by
    have hr := spaced_of_leaves hrest rfl
    have hinner := isBlank_indentAt hindent position
    simp only [layout, List.append_assoc]
    refine spaced_opening hindent hfresh ((Expr.starts_wrapped hs _ _).append _).startsToken ?_
    exact Expr.spaced_wrapped hinner _ hs closes_ending hr
  | .localVar span ty name init, hs, fresh, rest, hfresh, hrest => by
    have hr := spaced_of_leaves hrest rfl
    have hinner := isBlank_indentAt hindent position
    simp only [layout, List.append_assoc]
    refine spaced_opening hindent hfresh ((starts_simpleLayout hs rfl _ _).append _).startsToken ?_
    exact spaced_simpleLayout hinner _ hs rfl closes_ending hr

theorem spaced_layouts {indent : String} (hindent : IsBlank indent) : ∀ {ss : List Stmt}, SpelledAll ss →
    ∀ {rest : List Segment}, Spaced true rest → Spaced true (layouts indent ss ++ rest)
  | [], _, _, hr => hr
  | s :: ss, h, rest, hr => by
    rw [layouts, List.append_assoc]
    exact spaced_layout hindent h.1 (fun _ => rfl) (leaves_ownLine (spaced_layouts hindent h.2 hr))

end

end Stmt

/-! ## Members and classes -/

namespace Modifier

theorem spaced_layouts : ∀ {ms : List Modifier} {ss : List Segment}, (∀ fresh, Spaced fresh ss) →
    ∀ fresh, Spaced fresh (layouts ms ++ ss)
  | [], _, h, fresh => h fresh
  | _ :: _, _, h, _ => spaced_token_space trivial (spaced_layouts h false)

theorem startsToken_layouts {ms : List Modifier} {ss : List Segment} (h : StartsToken ss) :
    StartsToken (layouts ms ++ ss) := by
  cases ms with
  | nil => exact h
  | cons m ms => trivial

end Modifier

namespace Param

theorem spaced_layouts : ∀ {ps : List Param}, (∀ p ∈ ps, p.Legal) → ∀ {rest : List Segment},
    Closes rest → Spaced false rest → Spaced false (layouts ps ++ rest)
  | [], _, _, _, hr => hr
  | [p], h, _, hc, hr =>
    have hp := h p List.mem_cons_self
    spaced_declLayout hp.ty hp.name hc hr
  | p :: q :: ps, h, rest, hc, hr => by
    have ⟨hp, hps⟩ := List.forall_mem_cons.mp h
    rw [layouts_cons_cons, List.append_assoc]
    exact spaced_declLayout hp.ty hp.name (closes_token (by decide))
      (spaced_token_space trivial (spaced_layouts hps hc hr))

theorem before_layouts {ps : List Param} (h : ∀ p ∈ ps, p.Legal) (rest : List Segment) :
    (Token.lparen).Before (layouts ps ++ token .rparen :: rest) := by
  cases ps with
  | nil => exact before_of_extensions rfl (by decide)
  | cons p ps =>
    have hp := starts_declLayout (h p List.mem_cons_self).ty p.name
    cases ps with
    | nil => exact (hp.append _).before_lparen
    | cons q ps => exact ((hp.append _).append _).before_lparen

end Param

namespace Member

theorem spaced_layout {indent : String} (hindent : IsBlank indent) {m : Member} (hm : m.Spelled)
    {rest : List Segment} (hr : Spaced true rest) : Spaced true (m.layout indent ++ rest) := by
  cases m with
  | field span d =>
    simp only [layout, List.cons_append, List.append_assoc]
    refine ⟨rfl, hindent, Modifier.startsToken_layouts
      ((starts_declLayout hm.ty _).append _).startsToken, ?_⟩
    refine Modifier.spaced_layouts (fun fresh => ?_) true
    exact spaced_declLayout hm.ty hm.name (closes_initLayout _ _ _ closes_ending)
      (spaced_initLayout hindent _ hm.init closes_ending hr)
  | method span d =>
    simp only [layout, List.cons_append, List.append_assoc]
    refine ⟨rfl, hindent, Modifier.startsToken_layouts
      ((starts_declLayout hm.ret _).append _).startsToken, ?_⟩
    refine Modifier.spaced_layouts (fun fresh => ?_) true
    refine spaced_declLayout hm.ret hm.name (closes_token (by decide))
      ⟨trivial, Param.before_layouts hm.params _, ?_⟩
    refine Param.spaced_layouts hm.params (closes_token (by decide)) (spaced_token_space trivial ?_)
    refine spaced_token_newline trivial (Stmt.spaced_layouts (hindent.append isBlank_tab) hm.body ?_)
    exact spaced_indent hindent (spaced_token_newline trivial hr)

theorem spaced_layoutsAfter {indent : String} (hindent : IsBlank indent) : ∀ {previous : Member}
    {ms : List Member}, (∀ m ∈ ms, m.Spelled) → ∀ {rest : List Segment}, Spaced true rest →
      Spaced true (layoutsAfter indent previous ms ++ rest)
  | _, [], _, _, hr => hr
  | previous, m :: ms, h, rest, hr => by
    have ⟨hm, hms⟩ := List.forall_mem_cons.mp h
    have hrest := spaced_layout hindent hm (@spaced_layoutsAfter indent hindent m ms hms rest hr)
    simp only [layoutsAfter, List.append_assoc]
    split
    · exact spaced_newline hrest
    · exact hrest

theorem spaced_layouts {indent : String} (hindent : IsBlank indent) {ms : List Member}
    (h : ∀ m ∈ ms, m.Spelled) {rest : List Segment} (hr : Spaced true rest) :
    Spaced true (layouts indent ms ++ rest) := by
  cases ms with
  | nil => exact hr
  | cons m ms =>
    have ⟨hm, hms⟩ := List.forall_mem_cons.mp h
    rw [layouts, List.append_assoc]
    exact spaced_layout hindent hm (spaced_layoutsAfter hindent hms hr)

end Member

namespace ClassDecl

theorem spaced_layout {c : ClassDecl} (hc : c.Spelled) {rest : List Segment} (hr : Spaced true rest) :
    Spaced true (c.layout ++ rest) := by
  have hblank : IsBlank "" := fun c hc => absurd hc (by simp)
  simp only [layout, List.cons_append, List.append_assoc]
  refine ⟨rfl, hblank, Modifier.startsToken_layouts trivial, Modifier.spaced_layouts (fun fresh => ?_) true⟩
  refine spaced_token_space trivial (spaced_token_space hc.name (spaced_token_newline trivial ?_))
  exact Member.spaced_layouts isBlank_tab hc.members (spaced_token_newline trivial hr)

theorem spaced_layouts : ∀ {cs : List ClassDecl}, (∀ c ∈ cs, c.Spelled) → ∀ {rest : List Segment},
    Spaced true rest → Spaced true (layouts cs ++ rest)
  | [], _, _, hr => hr
  | [c], h, _, hr => spaced_layout (h c List.mem_cons_self) hr
  | c :: d :: cs, h, rest, hr => by
    have ⟨hc, hcs⟩ := List.forall_mem_cons.mp h
    rw [layouts_cons_cons, List.append_assoc]
    exact spaced_layout hc (spaced_newline (spaced_layouts hcs hr))

end ClassDecl

/-- The layout of a program that can be spelled keeps its tokens apart. -/
theorem CompilationUnit.spaced_layout {unit : CompilationUnit} (h : unit.Spelled) :
    Spaced true unit.layout := by
  exact ClassDecl.spaced_layouts h ⟨rfl, rfl⟩

end JavaFold
