import JavaFold.Proofs.Program.Parsed
import JavaFold.Proofs.Token.Scan
import Mathlib.Data.List.Induction
import Mathlib.Data.List.Nodup
import Mathlib.Data.Nat.Digits.Defs

/-!
# Tokens and comments tile the text

The tokens and comments of an accepted text lie side by side in it, with nothing but blanks between them, and
each one is what its part of the text spells (`Lexed.tiling_ofSource`). What a part of a text spells is said
without the functions that read it (`Token.Reads`): a word and a number go as far as they can, a sign is the
longest one that stands there, and a string is what is between its quotes with the escapes replaced.
-/

namespace JavaFold

open Ascii

/-- The part of a text that a span covers. -/
def Span.slice (s : Span) (text : List UInt8) : List UInt8 := (text.drop s.start).take (s.stop - s.start)

/-- The characters that are written as a backslash and a letter. -/
def escapeLetters : List (Char × Char) :=
  [('n', '\n'), ('t', '\t'), ('r', '\r'), ('0', '\x00'), ('"', '"'), ('\x27', '\x27'), ('\\', '\\')]

/-- How characters are written between quotes. -/
inductive Escapes : List Char → List Char → Prop
  | nil : Escapes [] []
  | plain {c : Char} {body text : List Char} (h : c ∉ ['"', '\\', '\n']) (rest : Escapes body text) :
    Escapes (c :: body) (c :: text)
  | escaped {letter c : Char} {body text : List Char} (h : (letter, c) ∈ escapeLetters)
    (rest : Escapes body text) : Escapes ('\\' :: letter :: body) (c :: text)

/-- What a part of a text spells, in front of `rest`. -/
inductive Token.Reads (rest : List UInt8) : Token → List UInt8 → Prop
  | keyword (word : Keyword) (ends : ∀ b ∈ rest.head?, continuesWord b = false) :
    Reads rest (.keyword word) (Utf8.encode word.text)
  | identifier {name : String} (word : IsWord name) (ends : ∀ b ∈ rest.head?, continuesWord b = false) :
    Reads rest (.identifier name) (Utf8.encode name)
  | integer {digits : List UInt8} {value : Nat} (ne : digits ≠ []) (all : ∀ d ∈ digits, isDigit d = true)
    (ends : ∀ b ∈ rest.head?, isDigit b = false)
    (decimal : value = Nat.ofDigits 10 (digits.reverse.map fun d => d.toNat - 0x30))
    (bound : value ≤ Lexed.maxInteger) : Reads rest (.integer value) digits
  | string {text : String} {body : List Char} (escapes : Escapes body text.toList) :
    Reads rest (.string text) (Utf8.bytesOf ('"' :: body ++ ['"']))
  | sign {t : Token} (sign : t.isSign = true) (written : t.Written)
    (longest : ∀ u : Token, u.isSign = true → u.Written → Utf8.encode u.spelling <+: Utf8.encode t.spelling ++ rest →
      (Utf8.encode u.spelling).length ≤ (Utf8.encode t.spelling).length) :
    Reads rest t (Utf8.encode t.spelling)

/-- A token or a comment. -/
inductive Lexeme
  | token (t : Spanned Token)
  | comment (c : Comment)

namespace Lexeme

def span : Lexeme → Span
  | token t => t.span
  | comment c => c.span

def token? : Lexeme → Option (Spanned Token)
  | token t => some t
  | comment _ => none

def comment? : Lexeme → Option Comment
  | token _ => none
  | comment c => some c

/-- The end of a text of `n` bytes. -/
def endAt (n : Nat) : Lexeme := token ⟨.endOfFile, ⟨n, n⟩⟩

/-- A part of a text spells the token, or is the text of the comment. -/
def Reads (slice rest : List UInt8) : Lexeme → Prop
  | token t => t.value.Reads rest slice
  | comment c => Utf8.encode c.text = slice

end Lexeme

namespace Lexed

/-- The tokens and comments by where they start. -/
def lexemes (lexed : Lexed) : List Lexeme :=
  (lexed.tokens.map Lexeme.token ++ lexed.comments.map Lexeme.comment).mergeSort fun a b => a.span.start ≤ b.span.start

/-- Tokens and comments tile a text. -/
structure Tiling (text : List UInt8) (lexed : Lexed) : Prop where
  apart : lexed.lexemes.Pairwise fun a b => a.span.stop ≤ b.span.start
  within : ∀ x ∈ lexed.lexemes, x.span.start ≤ x.span.stop ∧ x.span.stop ≤ text.length
  blank : ∀ i (h : i < text.length), (∀ x ∈ lexed.lexemes, ¬(x.span.start ≤ i ∧ i < x.span.stop)) →
    isBlank text[i] = true
  last : ∃ ts, lexed.tokens = ts ++ [⟨.endOfFile, ⟨text.length, text.length⟩⟩] ∧
    ∀ t ∈ ts, t.value ≠ .endOfFile ∧ t.value.Reads (text.drop t.span.stop) (t.span.slice text)
  comment : ∀ c ∈ lexed.comments, Utf8.encode c.text = c.span.slice text

end Lexed

/-! ## Strings -/

namespace Literal

/-- The letter that writes a character after a backslash, and the character, are ASCII. -/
theorem mem_escapeLetters {e v : UInt8} (h : Lexed.escaped? e = some v) : e.toNat < 128 ∧
    ∃ letter c, (letter, c) ∈ escapeLetters ∧ Utf8.charBytes letter = [e] ∧ Utf8.charBytes c = [v] := by
  unfold Lexed.escaped? at h
  split at h
  · next he => exact ⟨by rw [he]; decide, 'n', '\n', by decide, by rw [he]; rfl, by cases h; rfl⟩
  split at h
  · next he => exact ⟨by rw [he]; decide, 't', '\t', by decide, by rw [he]; rfl, by cases h; rfl⟩
  split at h
  · next he => exact ⟨by rw [he]; decide, 'r', '\r', by decide, by rw [he]; rfl, by cases h; rfl⟩
  split at h
  · next he => exact ⟨by rw [he]; decide, '0', '\x00', by decide, by rw [he]; rfl, by cases h; rfl⟩
  split at h
  · next he => exact ⟨by rw [he]; decide, '"', '"', by decide, by rw [he]; rfl, by cases h; rfl⟩
  split at h
  · next he => exact ⟨by rw [he]; decide, '\x27', '\x27', by decide, by rw [he]; rfl, by cases h; rfl⟩
  split at h
  · next he => exact ⟨by rw [he]; decide, '\\', '\\', by decide, by rw [he]; rfl, by cases h; rfl⟩
  · cases h

theorem unescape_unknown {e : UInt8} (h : Lexed.escaped? e = none) (offset : Nat) (rest : List UInt8) :
    (Lexed.unescape offset (backslash :: e :: rest)).2 ≠ [] := by
  rw [Lexed.unescape.eq_def]
  dsimp only
  rw [if_pos rfl, h]
  exact List.cons_ne_nil _ _

theorem stringBody_line (rest : List UInt8) : (Piece.stringBody (newline :: rest)).closed = false := by
  rw [Piece.stringBody.eq_def]
  rfl

theorem closed_stringBody_push {e : Piece.Enclosed} {b : UInt8} {body rest : List UInt8}
    (h : e.push b = ⟨body, true, rest⟩) : ∃ body', e = ⟨body', true, rest⟩ ∧ body = b :: body' := by
  obtain ⟨body', closed, rest'⟩ := e
  cases h
  exact ⟨body', rfl, rfl⟩

/-- The body of a string without unknown escapes is made of characters, which write what is read. -/
theorem escapes_of_stringBody (n : Nat) : ∀ {es : List Char} {body rest : List UInt8} (offset : Nat),
    es.length ≤ n → Piece.stringBody (Utf8.bytesOf es) = ⟨body, true, rest⟩ →
      (Lexed.unescape offset body).2 = [] → ∃ ds text, body = Utf8.bytesOf ds ∧ Escapes ds text ∧
        (Lexed.unescape offset body).1 = Utf8.bytesOf text := by
  induction n with
  | zero =>
    intro es body rest offset hes h
    rw [List.length_eq_zero_iff.mp (Nat.le_zero.mp hes)] at h
    cases h
  | succ n ih =>
    intro es body rest offset hes h hknown
    cases es with
    | nil => cases h
    | cons c es =>
      rw [Utf8.bytesOf_cons] at h
      by_cases hquote : c = '"'
      · subst hquote
        have hclose := h.symm.trans (stringBody_close (Utf8.bytesOf es))
        cases hclose
        exact ⟨[], [], rfl, .nil, rfl⟩
      by_cases hline : c = '\n'
      · subst hline
        have hopen := stringBody_line (Utf8.bytesOf es)
        exact absurd (hopen.symm.trans (congrArg Piece.Enclosed.closed h)) Bool.false_ne_true
      by_cases hback : c = '\\'
      · subst hback
        cases es with
        | nil => cases h
        | cons d es =>
          obtain ⟨e, more, hd⟩ := List.exists_cons_of_ne_nil (Utf8.charBytes_ne_nil d)
          have hbytes : Utf8.charBytes '\\' ++ Utf8.bytesOf (d :: es) =
              backslash :: e :: (more ++ Utf8.bytesOf es) := by
            rw [Utf8.bytesOf_cons, hd]
            rfl
          rw [hbytes, stringBody_escape] at h
          obtain ⟨body₁, h₁, rfl⟩ := closed_stringBody_push h
          obtain ⟨body₂, h₂, rfl⟩ := closed_stringBody_push h₁
          cases hesc : Lexed.escaped? e with
          | none => exact absurd hknown (unescape_unknown hesc offset body₂)
          | some v =>
            obtain ⟨hascii, letter, w, hmem, hletter, hw⟩ := mem_escapeLetters hesc
            rw [unescape_escape hesc] at hknown ⊢
            have hdl := Utf8.eq_of_mem_charBytes (hd ▸ List.mem_cons_self) hletter hascii
            subst hdl
            obtain rfl : more = [] := (List.cons.inj (hd.symm.trans hletter)).2
            have hlen : es.length ≤ n := by
              simp only [List.length_cons] at hes
              omega
            obtain ⟨ds, text, hds, hescapes, htext⟩ := ih (offset + 2) hlen h₂ hknown
            refine ⟨'\\' :: d :: ds, w :: text, ?_, .escaped hmem hescapes, ?_⟩
            · rw [Utf8.bytesOf_cons, Utf8.bytesOf_cons, hletter, hds]
              rfl
            · rw [Utf8.bytesOf_cons, hw, htext]
              rfl
      · have hplain := charBytes_plain hquote hback hline
        rw [stringBody_plain hplain] at h
        cases hrest : Piece.stringBody (Utf8.bytesOf es) with
        | mk body' closed rest' =>
          rw [hrest] at h
          cases h
          rw [unescape_plain fun b hb => (hplain b hb).2.2] at hknown ⊢
          have hlen : es.length ≤ n := by
            simp only [List.length_cons] at hes
            omega
          obtain ⟨ds, text, hds, hescapes, htext⟩ := ih _ hlen hrest hknown
          refine ⟨c :: ds, c :: text, ?_, .plain (by simp [hquote, hback, hline]) hescapes, ?_⟩
          · rw [Utf8.bytesOf_cons, hds]
          · rw [Utf8.bytesOf_cons, htext]

end Literal

/-! ## Words, numbers and signs -/

theorem Keyword.text_of_ofText? {text : String} {k : Keyword} (h : ofText? text = some k) : k.text = text := by
  have := List.find?_some h
  simpa using this

namespace Ascii

theorem number_append (digits : List UInt8) (d : UInt8) :
    number (digits ++ [d]) = number digits * 10 + (d.toNat - 0x30) := by
  rw [number, List.foldl_append]
  rfl

/-- Decimal digits, the most significant one first. -/
theorem number_eq_ofDigits (digits : List UInt8) :
    number digits = Nat.ofDigits 10 (digits.reverse.map fun d => d.toNat - 0x30) := by
  induction digits using List.reverseRecOn with
  | nil => rfl
  | append_singleton digits d ih =>
    rw [number_append, ih, List.reverse_append, List.reverse_singleton, List.singleton_append,
      List.map_cons, Nat.ofDigits_cons]
    omega

end Ascii

namespace Token

theorem written_of_mem_signs {s : String × Token} (h : s ∈ Piece.signs) :
    s.2.isSign = true ∧ s.2.Written ∧ s.1 = s.2.spelling := by
  revert s
  simp [Piece.signs, isSign, Written, spelling, BinaryOp.hasCompound, BinaryOp.symbol, StepOp.symbol]

/-- A longer sign stands before a shorter one. -/
theorem signTable_longest : Piece.signTable.Pairwise fun a b => b.1.length ≤ a.1.length := by
  decide

/-- The sign that is read is the longest one that stands there. -/
theorem reads_of_signAt? {spelling rest : List UInt8} {t : Token}
    (h : Piece.signAt? (spelling ++ rest) = some (spelling, t)) : t.Reads rest spelling := by
  obtain ⟨-, shorter, longer, htable, hno⟩ := List.find?_eq_some_iff_append.mp h
  obtain ⟨s, hs, heq⟩ := List.mem_map.mp (List.mem_of_find?_eq_some h)
  obtain ⟨hsign, hwritten, hspelling⟩ := written_of_mem_signs hs
  obtain ⟨hspell, rfl⟩ := Prod.mk.inj heq
  have hencode : Utf8.encode s.2.spelling = spelling := by
    rw [encode_of_isSign hwritten hsign, ← hspelling, hspell]
  rw [← hencode] at htable ⊢
  refine .sign hsign hwritten fun u hu hw hprefix => ?_
  have hmem := mem_signTable hw hu
  rw [← encode_of_isSign hw hu, htable] at hmem
  have hpairs := htable ▸ signTable_longest
  rcases List.mem_append.mp hmem with hmem | hmem
  · have hnot := hno _ hmem
    rw [hencode] at hprefix
    simp [List.isPrefixOf_iff_prefix.mpr hprefix] at hnot
  · rcases List.mem_cons.mp hmem with heq | hmem
    · exact (congrArg (fun x => x.1.length) heq).le
    · exact (List.pairwise_cons.mp (List.pairwise_append.mp hpairs).2.1).1 _ hmem

/-- What is a token is no end of the file. -/
theorem Reads.ne_endOfFile {t : Token} {slice rest : List UInt8} (h : t.Reads rest slice) : t ≠ endOfFile := by
  rintro rfl
  cases h with
  | sign sign => exact absurd sign Bool.false_ne_true

/-- A word spells a reserved word or itself. -/
theorem reads_word {b : UInt8} {run rest : List UInt8} (hb : startsWord b = true)
    (hrun : ∀ c ∈ run, continuesWord c = true) (ends : ∀ c ∈ rest.head?, continuesWord c = false) :
    (Lexed.wordToken (Ascii.text (b :: run))).Reads rest (b :: run) := by
  have hascii : ∀ c ∈ b :: run, c.toNat < 128 := by
    refine List.forall_mem_cons.mpr ⟨?_, fun c hc => lt_of_continuesWord (hrun c hc)⟩
    exact lt_of_continuesWord (Bool.or_eq_true_iff.mpr (.inl hb))
  have hencode := Utf8.encode_text hascii
  unfold Lexed.wordToken
  split
  · next word hword =>
    rw [← Keyword.text_of_ofText? hword] at hencode
    have hreads : (keyword word).Reads rest (Utf8.encode word.text) := .keyword word ends
    rwa [hencode] at hreads
  · next hno =>
    have hword : IsWord (Ascii.text (b :: run)) := ⟨b, run, hb, hrun, rfl, hno⟩
    have hreads := Reads.identifier hword ends
    rwa [hencode] at hreads

theorem not_of_mem_head?_dropWhile {p : UInt8 → Bool} {rest : List UInt8} :
    ∀ c ∈ (rest.dropWhile p).head?, p c = false := by
  intro c hc
  have hstop := List.head?_dropWhile_not p rest
  rw [Option.mem_def.mp hc] at hstop
  exact hstop

/-- A string spells what is between its quotes. -/
theorem reads_string {cs : List Char} {front rest : List UInt8} {place : Place}
    (hcs : Utf8.bytesOf cs = front ++ quote :: rest)
    (hclean : Lexed.problems place (.quoted (Piece.stringBody rest).body (Piece.stringBody rest).closed) = []) :
    (string (Utf8.decodeLossy (Lexed.unescape (place.offset + 1) (Piece.stringBody rest).body).1)).Reads
      (Piece.stringBody rest).rest
      (Piece.quoted (Piece.stringBody rest).body (Piece.stringBody rest).closed).bytes := by
  obtain ⟨-, es, -, -, hes⟩ := Utf8.bytesOf_eq_append_cons hcs (by decide)
  obtain ⟨es, rfl⟩ := Utf8.bytesOf_eq_cons hes (by decide)
  cases he : Piece.stringBody (Utf8.bytesOf es) with
  | mk body closed after =>
    rw [he] at hclean
    obtain ⟨hknown, hclosed⟩ := List.append_eq_nil_iff.mp hclean
    cases closed with
    | false => cases hclosed
    | true =>
      obtain ⟨ds, text, rfl, hescapes, htext⟩ :=
        Literal.escapes_of_stringBody es.length (place.offset + 1) le_rfl he (List.map_eq_nil_iff.mp hknown)
      have hbytes : (Piece.quoted (Utf8.bytesOf ds) true).bytes = Utf8.bytesOf ('"' :: ds ++ ['"']) := by
        rw [Utf8.bytesOf_append, Utf8.bytesOf_cons]
        rfl
      rw [htext, Utf8.decodeLossy_bytesOf, hbytes]
      exact .string (String.toList_ofList ▸ hescapes)

/-- The token of a piece that was cut from a text without a problem is what the piece spells. -/
theorem reads_of_next {cs : List Char} {front rest : List UInt8} {b : UInt8} {t : Token} {place : Place}
    (hcs : Utf8.bytesOf cs = front ++ b :: rest) (hclean : Lexed.problems place (Piece.next b rest).1 = [])
    (ht : Lexed.token? place.offset (Piece.next b rest).1 = some t) :
    t.Reads (Piece.next b rest).2 (Piece.next b rest).1.bytes := by
  have hwhole := Piece.bytes_next b rest
  revert hclean ht hwhole
  unfold Piece.next
  split
  · simp [Lexed.token?]
  split
  · simp [Lexed.token?]
  split
  · simp [Lexed.token?]
  split
  · next hb =>
    intro _ ht _
    cases ht
    exact reads_word hb (List.all_eq_true.mp List.all_takeWhile) not_of_mem_head?_dropWhile
  split
  · next hb =>
    intro hclean ht _
    rw [Lexed.problems] at hclean
    split at hclean
    · next hmax =>
      rw [Lexed.token?, if_pos hmax] at ht
      cases ht
      have hall : ∀ d ∈ b :: rest.takeWhile isDigit, isDigit d = true :=
        List.forall_mem_cons.mpr ⟨hb, List.all_eq_true.mp List.all_takeWhile⟩
      exact .integer (List.cons_ne_nil _ _) hall not_of_mem_head?_dropWhile (number_eq_ofDigits _) hmax
    · cases hclean
  split
  · next hb =>
    subst hb
    intro hclean ht _
    cases ht
    exact reads_string hcs hclean
  split
  · next spelling token hsign =>
    intro _ ht hwhole
    cases ht
    rw [← hwhole] at hsign
    exact reads_of_signAt? hsign
  · simp [Lexed.token?]

end Token

/-! ## Tiles -/

/-- Tokens and comments lie side by side in a text that starts at `offset`, with blanks between them. -/
inductive Tiles : Nat → List UInt8 → List Lexeme → Prop
  | done (offset : Nat) : Tiles offset [] []
  | blank {offset : Nat} {b : UInt8} {text : List UInt8} {xs : List Lexeme} (h : isBlank b = true)
    (rest : Tiles (offset + 1) text xs) : Tiles offset (b :: text) xs
  | lexeme {offset : Nat} {slice text : List UInt8} {x : Lexeme} {xs : List Lexeme} (reads : x.Reads slice text)
    (span : x.span = ⟨offset, offset + slice.length⟩) (ne : slice ≠ [])
    (rest : Tiles (offset + slice.length) text xs) : Tiles offset (slice ++ text) (x :: xs)

namespace Tiles

variable {offset : Nat} {text : List UInt8} {xs : List Lexeme}

theorem blanks {run : List UInt8} (h : ∀ b ∈ run, isBlank b = true) (rest : Tiles (offset + run.length) text xs) :
    Tiles offset (run ++ text) xs := by
  induction run generalizing offset with
  | nil => exact rest
  | cons b run ih =>
    have ⟨hb, hrun⟩ := List.forall_mem_cons.mp h
    refine .blank hb (ih hrun ?_)
    rwa [Nat.add_assoc, Nat.add_comm 1]

theorem within (h : Tiles offset text xs) : ∀ x ∈ xs, offset ≤ x.span.start ∧ x.span.start < x.span.stop ∧
    x.span.stop ≤ offset + text.length := by
  induction h with
  | done => simp
  | blank _ _ ih =>
    intro x hx
    have := ih x hx
    simp only [List.length_cons]
    omega
  | @lexeme offset slice text _ _ _ span ne _ ih =>
    intro x hx
    have hpos := List.length_pos_iff.mpr ne
    rw [List.length_append]
    rcases List.mem_cons.mp hx with rfl | hx
    · simp only [span]
      omega
    · have := ih x hx
      omega

theorem apart (h : Tiles offset text xs) :
    xs.Pairwise fun a b => a.span.start < b.span.start ∧ a.span.stop ≤ b.span.start := by
  induction h with
  | done => exact .nil
  | blank _ _ ih => exact ih
  | @lexeme offset slice text _ _ _ span ne rest ih =>
    have hpos := List.length_pos_iff.mpr ne
    refine List.pairwise_cons.mpr ⟨fun y hy => ?_, ih⟩
    have := rest.within y hy
    rw [span]
    simp only
    omega

/-- A byte that no token and no comment covers is a blank. -/
theorem isBlank_of_not_covered (h : Tiles offset text xs) : ∀ i (hi : i < text.length),
    (∀ x ∈ xs, ¬(x.span.start ≤ offset + i ∧ offset + i < x.span.stop)) → isBlank text[i] = true := by
  induction h with
  | done => simp
  | blank hb rest ih =>
    intro i hi hno
    cases i with
    | zero => exact hb
    | succ i =>
      rw [List.getElem_cons_succ]
      refine ih i _ fun x hx => ?_
      rw [Nat.add_assoc, Nat.add_comm 1]
      exact hno x hx
  | @lexeme offset slice text x _ _ span ne rest ih =>
    intro i hi hno
    have ⟨hx, hrest⟩ := List.forall_mem_cons.mp hno
    rw [span] at hx
    have hge : slice.length ≤ i := by
      simp only at hx
      omega
    rw [List.getElem_append_right hge]
    refine ih (i - slice.length) _ fun y hy => ?_
    rw [Nat.add_assoc, Nat.add_sub_cancel' hge]
    exact hrest y hy

/-- Each token and each comment is read off its part of the text. -/
theorem reads {whole front : List UInt8} (h : Tiles offset text xs) (hwhole : whole = front ++ text)
    (hfront : front.length = offset) : ∀ x ∈ xs, x.Reads (x.span.slice whole) (whole.drop x.span.stop) := by
  induction h generalizing front with
  | done => simp
  | @blank _ b _ _ _ _ ih =>
    refine @ih (front ++ [b]) ?_ ?_
    · rw [hwhole, List.append_assoc, List.singleton_append]
    · rw [List.length_append, hfront, List.length_singleton]
  | @lexeme offset slice text x _ reads span _ _ ih =>
    rw [← List.append_assoc] at hwhole
    refine List.forall_mem_cons.mpr ⟨?_, @ih (front ++ slice) hwhole ?_⟩
    · have hslice : x.span.slice whole = slice := by
        rw [span, hwhole, Span.slice, ← hfront, List.append_assoc, List.drop_left, Nat.add_sub_cancel_left,
          List.take_left]
      have hdrop : whole.drop x.span.stop = text := by
        rw [span, hwhole, ← hfront, ← List.length_append, List.drop_left]
      rwa [hslice, hdrop]
    · rw [List.length_append, hfront]

end Tiles

namespace Lexed

theorem offset_skipBlanks (place : Place) (run : List UInt8) :
    (place.skipBlanks run).offset = place.offset + run.length := by
  induction run generalizing place with
  | nil => rfl
  | cons b run ih =>
    rw [Place.skipBlanks]
    split <;> rw [ih, List.length_cons, Nat.add_assoc, Nat.add_comm 1]

theorem offset_after (place : Place) (piece : Piece) :
    (place.after piece).offset = place.offset + piece.bytes.length := by
  cases piece with
  | blank run => exact offset_skipBlanks place run
  | _ => rfl

theorem isBlank_of_next {b : UInt8} {rest run : List UInt8} (h : (Piece.next b rest).1 = .blank run) :
    ∀ c ∈ run, isBlank c = true := by
  revert h
  unfold Piece.next
  split
  · next hb =>
    intro h
    cases h
    exact List.forall_mem_cons.mpr ⟨hb, List.all_eq_true.mp List.all_takeWhile⟩
  repeat' split
  all_goals exact fun h => by cases h

/-- A piece without a problem is a run of blanks, a token or a comment. -/
theorem piece_cases {place : Place} {piece : Piece} (h : problems place piece = []) :
    (∃ run, piece = .blank run) ∨
    (∃ t, token? place.offset piece = some t ∧ comment? place piece = none) ∨
    (piece.isComment = true ∧ token? place.offset piece = none ∧ comment? place piece =
      some ⟨Utf8.decodeLossy piece.bytes, place.spanOf piece, place.tokenOnLine, place.lineStart⟩) := by
  cases piece with
  | blank run => exact .inl ⟨run, rfl⟩
  | lineComment body => exact .inr (.inr ⟨rfl, rfl, rfl⟩)
  | blockComment body closed =>
    cases closed with
    | false => cases h
    | true => exact .inr (.inr ⟨rfl, rfl, rfl⟩)
  | stray byte => cases h
  | _ => exact .inr (.inl ⟨_, rfl, rfl⟩)

theorem tiles_cut {cs : List Char} (text : List UInt8) : ∀ {front : List UInt8} {place : Place},
    Utf8.bytesOf cs = front ++ text → (ofPieces place (Piece.cut text)).diagnostics = [] →
      ∃ xs, Tiles place.offset text xs ∧
        (ofPieces place (Piece.cut text)).tokens = xs.filterMap Lexeme.token? ++
          [⟨.endOfFile, ⟨place.offset + text.length, place.offset + text.length⟩⟩] ∧
        (ofPieces place (Piece.cut text)).comments = xs.filterMap Lexeme.comment? := by
  fun_induction Piece.cut text with
  | case1 => exact fun _ _ => ⟨[], .done _, rfl, rfl⟩
  | case2 b rest ih =>
    intro front place hcs hclean
    rw [ofPieces, List.append_eq_nil_iff] at hclean
    have hwhole := Piece.bytes_next b rest
    have hlen := congrArg List.length hwhole
    rw [List.length_append] at hlen
    have hafter : Utf8.bytesOf cs = (front ++ (Piece.next b rest).1.bytes) ++ (Piece.next b rest).2 := by
      rw [List.append_assoc, hwhole, hcs]
    obtain ⟨xs, htiles, htokens, hcomments⟩ := ih hafter hclean.2
    rw [offset_after] at htiles htokens
    rw [Nat.add_assoc, hlen] at htokens
    rw [ofPieces, htokens, hcomments]
    have hne := Piece.bytes_next_ne_nil b rest
    rcases piece_cases hclean.1 with ⟨run, hrun⟩ | ⟨t, ht, hc⟩ | ⟨hcomment, ht, hc⟩
    · rw [hrun] at hwhole htiles ⊢
      exact ⟨xs, hwhole ▸ htiles.blanks (isBlank_of_next hrun), rfl, rfl⟩
    · have hreads := Token.reads_of_next hcs hclean.1 ht
      rw [ht, hc]
      refine ⟨.token ⟨t, place.spanOf (Piece.next b rest).1⟩ :: xs, ?_, rfl, rfl⟩
      have hlexeme := Tiles.lexeme (x := .token ⟨t, place.spanOf (Piece.next b rest).1⟩) hreads rfl hne htiles
      rwa [hwhole] at hlexeme
    · have hreads := encode_of_next hcs hcomment
      rw [ht, hc]
      refine ⟨.comment _ :: xs, ?_, rfl, rfl⟩
      have hlexeme := Tiles.lexeme
        (x := .comment ⟨_, place.spanOf (Piece.next b rest).1, place.tokenOnLine, place.lineStart⟩) hreads rfl hne htiles
      rwa [hwhole] at hlexeme

/-- Tokens and comments that lie in order are those of the text by where they start. -/
theorem perm_filterMap (xs : List Lexeme) :
    ((xs.filterMap Lexeme.token?).map Lexeme.token ++ (xs.filterMap Lexeme.comment?).map Lexeme.comment).Perm xs := by
  induction xs with
  | nil => exact .nil
  | cons x xs ih =>
    cases x with
    | token t => exact ih.cons _
    | comment c => exact List.perm_middle.trans (ih.cons _)

theorem lexemes_eq {lexed : Lexed} {xs : List Lexeme}
    (hperm : (lexed.tokens.map Lexeme.token ++ lexed.comments.map Lexeme.comment).Perm xs)
    (horder : xs.Pairwise fun a b => a.span.start < b.span.start) : lexed.lexemes = xs := by
  have hsorted : lexed.lexemes.Pairwise fun a b => a.span.start ≤ b.span.start := by
    have hsort := @List.pairwise_mergeSort _ (fun a b : Lexeme => decide (a.span.start ≤ b.span.start))
      (by simp; omega) (by simp; omega) (lexed.tokens.map Lexeme.token ++ lexed.comments.map Lexeme.comment)
    exact hsort.imp of_decide_eq_true
  have hmerge : lexed.lexemes.Perm xs := (List.mergeSort_perm _ _).trans hperm
  refine List.Perm.eq_of_pairwise (fun a b ha hb hab hba => ?_) hsorted (horder.imp Nat.le_of_lt) hmerge
  -- no two of them start at one place
  have hstart : a.span.start = b.span.start := Nat.le_antisymm hab hba
  exact List.inj_on_of_nodup_map
    ((List.nodup_iff_pairwise_ne.mpr ((List.pairwise_map.mpr horder).imp Nat.ne_of_lt)))
    (hmerge.mem_iff.mp ha) hb hstart

/-- The tokens and comments of an accepted text tile it. -/
theorem tiling_ofSource {source : String} (h : (ofSource source).diagnostics = []) :
    (ofSource source).Tiling (Utf8.encode source) := by
  have hcs : Utf8.bytesOf source.toList = [] ++ Utf8.encode source := (Utf8.encode_eq source).symm
  obtain ⟨xs, htiles, htokens, hcomments⟩ := tiles_cut (Utf8.encode source) hcs h
  rw [show Place.origin.offset = 0 from rfl] at htiles htokens
  rw [Nat.zero_add] at htokens
  have hwithin := htiles.within
  have hapart := htiles.apart
  simp only [Nat.zero_add] at hwithin
  have hreads := htiles.reads (List.nil_append _).symm rfl
  have hlexemes : (ofSource source).lexemes = xs ++ [.endAt (Utf8.encode source).length] := by
    refine lexemes_eq ?_ (List.pairwise_append.mpr ⟨hapart.imp And.left, List.pairwise_singleton _ _, ?_⟩)
    · rw [ofSource, htokens, hcomments]
      have hperm := perm_filterMap (xs ++ [.endAt (Utf8.encode source).length])
      rw [List.filterMap_append, List.filterMap_append] at hperm
      simpa [Lexeme.token?, Lexeme.comment?, Lexeme.endAt, List.filterMap_cons] using hperm
    · intro x hx y hy
      obtain rfl := List.mem_singleton.mp hy
      have hx := hwithin x hx
      exact Nat.lt_of_lt_of_le hx.2.1 hx.2.2
  exact {
    apart := by
      rw [hlexemes]
      refine List.pairwise_append.mpr ⟨hapart.imp And.right, List.pairwise_singleton _ _, fun x hx y hy => ?_⟩
      obtain rfl := List.mem_singleton.mp hy
      exact (hwithin x hx).2.2
    within := by
      rw [hlexemes]
      intro x hx
      rcases List.mem_append.mp hx with hx | hx
      · have := hwithin x hx
        omega
      · obtain rfl := List.mem_singleton.mp hx
        exact ⟨Nat.le_refl _, Nat.le_refl _⟩
    blank := by
      intro i hi hno
      refine htiles.isBlank_of_not_covered i hi fun x hx => ?_
      rw [Nat.zero_add]
      exact hno x (hlexemes ▸ List.mem_append_left _ hx)
    last := by
      refine ⟨xs.filterMap Lexeme.token?, htokens, fun t ht => ?_⟩
      obtain ⟨x, hx, hxt⟩ := List.mem_filterMap.mp ht
      cases x with
      | comment c => cases hxt
      | token u =>
        cases hxt
        have htoken : t.value.Reads _ _ := hreads _ hx
        exact ⟨htoken.ne_endOfFile, htoken⟩
    comment := by
      intro c hc
      rw [ofSource, hcomments] at hc
      obtain ⟨x, hx, hxc⟩ := List.mem_filterMap.mp hc
      cases x with
      | token t => cases hxc
      | comment d =>
        cases hxc
        exact hreads _ hx }

/-- A string with an escape and a letter of two bytes, and comments of both kinds. -/
theorem tiling_ofSource_comments :
    let source := "class A \x7b /* é */ String s = \"é\\n\"; \x7d // end"
    (ofSource source).diagnostics = [] ∧ (ofSource source).Tiling (Utf8.encode source) := by
  intro source
  have hclean : (ofSource source).diagnostics = [] := by decide +kernel
  exact ⟨hclean, tiling_ofSource hclean⟩

end Lexed

end JavaFold
