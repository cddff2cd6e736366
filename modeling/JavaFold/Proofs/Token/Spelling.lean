import JavaFold.Program.Literal
import JavaFold.Proofs.Program.Legal
import JavaFold.Proofs.Source.Utf8
import JavaFold.Token.Lexer

/-!
# Tokens as they are spelled

Every token that can be written has a spelling, which is one piece of text and reads as the token again
(`token?_piece`). What may come right after it without being read as a part of it is decided by the next
byte alone (`precedes`, `stands_piece`): a blank always may.
-/

namespace JavaFold

open Ascii

/-! ## Bytes of ASCII texts -/

namespace Utf8

theorem bytesOf_ascii : ∀ {cs : List Char}, (∀ c ∈ cs, c.toNat < 128) →
    bytesOf cs = cs.map fun c => UInt8.ofNat c.toNat
  | [], _ => rfl
  | c :: cs, h => by
    have ⟨hc, hcs⟩ := List.forall_mem_cons.mp h
    rw [bytesOf_cons, charBytes_ascii hc, bytesOf_ascii hcs]
    rfl

/-- The text of ASCII bytes has these bytes. -/
theorem encode_text {run : List UInt8} (h : ∀ b ∈ run, b.toNat < 128) : encode (Ascii.text run) = run := by
  have hascii : ∀ c ∈ run.map fun b => Char.ofNat b.toNat, c.toNat < 128 := by
    intro c hc
    obtain ⟨b, hb, rfl⟩ := List.mem_map.mp hc
    rw [toNat_ofNat]
    exact h b hb
  rw [Ascii.text, encode_ofList, bytesOf_ascii hascii, List.map_map]
  refine (List.map_congr_left fun b _ => ?_).trans (List.map_id run)
  rw [Function.comp_apply, toNat_ofNat, UInt8.ofNat_toNat, id]

end Utf8

namespace Ascii

theorem toNat_of_isBlank {b : UInt8} (h : isBlank b = true) : b.toNat ≤ 0x20 := by
  simp only [isBlank, Bool.or_eq_true, beq_iff_eq] at h
  rcases h with (((rfl | rfl) | rfl) | rfl) | rfl <;> decide

theorem toNat_of_isDigit {b : UInt8} (h : isDigit b = true) : 0x30 ≤ b.toNat ∧ b.toNat ≤ 0x39 := by
  simpa [isDigit, UInt8.le_iff_toNat_le] using h

theorem toNat_of_startsWord {b : UInt8} (h : startsWord b = true) :
    (0x41 ≤ b.toNat ∧ b.toNat ≤ 0x5A) ∨ (0x61 ≤ b.toNat ∧ b.toNat ≤ 0x7A) ∨ b.toNat = 0x5F ∨
      b.toNat = 0x24 := by
  simpa [startsWord, isLetter, UInt8.le_iff_toNat_le, ← UInt8.toNat_inj, or_assoc, underscore, dollar]
    using h

theorem lt_of_continuesWord {b : UInt8} (h : continuesWord b = true) : b.toNat < 128 := by
  rcases Bool.or_eq_true_iff.mp h with h | h
  · have := toNat_of_startsWord h
    omega
  · have := toNat_of_isDigit h
    omega

/-- Words, numbers, strings and blanks start with different bytes, and none of them with a slash. -/
theorem apart_of_startsWord {b : UInt8} (h : startsWord b = true) :
    isBlank b = false ∧ b ≠ slash := by
  have hb := toNat_of_startsWord h
  refine ⟨Bool.eq_false_of_not_eq_true fun hblank => ?_, ?_⟩
  · have := toNat_of_isBlank hblank
    omega
  · rintro rfl
    exact absurd hb (by decide)

theorem apart_of_isDigit {b : UInt8} (h : isDigit b = true) :
    isBlank b = false ∧ b ≠ slash ∧ startsWord b = false := by
  have hb := toNat_of_isDigit h
  refine ⟨Bool.eq_false_of_not_eq_true fun hblank => ?_, ?_, Bool.eq_false_of_not_eq_true fun hword => ?_⟩
  · have := toNat_of_isBlank hblank
    omega
  · rintro rfl
    exact absurd hb (by decide)
  · have := toNat_of_startsWord hword
    omega

end Ascii

/-! ## Where a piece ends -/

namespace Piece

/-- The piece is cut off in front of `rest`. -/
def Stands (p : Piece) (rest : List UInt8) : Prop := cut (p.bytes ++ rest) = p :: cut rest

theorem stands_of_next {p : Piece} {b : UInt8} {bs rest : List UInt8} (hp : p.bytes = b :: bs)
    (h : next b (bs ++ rest) = (p, rest)) : p.Stands rest := by
  rw [Stands, hp, List.cons_append, cut, h]

theorem takeWhile_append_stop {α : Type} {p : α → Bool} {run rest : List α}
    (hrun : ∀ x ∈ run, p x = true) (hrest : ∀ x ∈ rest.head?, p x = false) :
    (run ++ rest).takeWhile p = run ∧ (run ++ rest).dropWhile p = rest := by
  have hstop : rest.takeWhile p = [] ∧ rest.dropWhile p = rest := by
    cases rest with
    | nil => exact ⟨rfl, rfl⟩
    | cons x rest =>
      have hx := hrest x rfl
      exact ⟨List.takeWhile_cons_of_neg (by simp [hx]), List.dropWhile_cons_of_neg (by simp [hx])⟩
  rw [List.takeWhile_append_of_pos hrun, List.dropWhile_append_of_pos hrun, hstop.1, hstop.2,
    List.append_nil]
  exact ⟨rfl, rfl⟩

theorem stands_word {b : UInt8} {run rest : List UInt8} (hb : startsWord b = true)
    (hrun : ∀ c ∈ run, continuesWord c = true) (hrest : ∀ c ∈ rest.head?, continuesWord c = false) :
    (word (b :: run)).Stands rest := by
  refine stands_of_next rfl ?_
  have ⟨hblank, hslash⟩ := apart_of_startsWord hb
  have ⟨htake, hdrop⟩ := takeWhile_append_stop hrun hrest
  rw [next, if_neg (by simp [hblank]), if_neg (by simp [hslash]), if_neg (by simp [hslash]), if_pos hb,
    htake, hdrop]

theorem stands_number {b : UInt8} {run rest : List UInt8} (hb : isDigit b = true)
    (hrun : ∀ c ∈ run, isDigit c = true) (hrest : ∀ c ∈ rest.head?, isDigit c = false) :
    (number (b :: run)).Stands rest := by
  refine stands_of_next rfl ?_
  have ⟨hblank, hslash, hword⟩ := apart_of_isDigit hb
  have ⟨htake, hdrop⟩ := takeWhile_append_stop hrun hrest
  rw [next, if_neg (by simp [hblank]), if_neg (by simp [hslash]), if_neg (by simp [hslash]),
    if_neg (by simp [hword]), if_pos hb, htake, hdrop]

/-- A string is cut off after its closing quote, whatever follows. -/
theorem stands_quoted {body rest : List UInt8}
    (h : stringBody (body ++ quote :: rest) = ⟨body, true, rest⟩) : (quoted body true).Stands rest := by
  have hbytes : (quoted body true).bytes = quote :: (body ++ [quote]) := rfl
  refine stands_of_next hbytes ?_
  have hslash : quote ≠ slash := by decide
  rw [List.append_assoc, List.singleton_append, next, if_neg (by decide), if_neg fun h => hslash h.1,
    if_neg fun h => hslash h.1, if_neg (by decide), if_neg (by decide), if_pos rfl, h]

/-- The bytes with which a sign goes on to a longer one. -/
def extensions (spelling : List UInt8) : List UInt8 :=
  signTable.filterMap fun s => if spelling.isPrefixOf s.1 then s.1[spelling.length]? else none

theorem mem_extensions {spelling : List UInt8} {b : UInt8} {s : List UInt8 × Token} (hs : s ∈ signTable)
    (h : spelling ++ [b] <+: s.1) : b ∈ extensions spelling := by
  refine List.mem_filterMap.mpr ⟨s, hs, ?_⟩
  rw [if_pos (List.isPrefixOf_iff_prefix.mpr ((List.prefix_append _ _).trans h))]
  obtain ⟨more, hmore⟩ := h
  simp [← hmore]

/-- In front of a text with which it does not go on, a sign is read as it is at the end of a text. -/
theorem signAt?_append {spelling rest : List UInt8} (h : ∀ b ∈ rest.head?, b ∉ extensions spelling) :
    signAt? (spelling ++ rest) = signAt? spelling := by
  rw [signAt?, signAt?, ← List.head?_filter, ← List.head?_filter]
  refine congrArg List.head? (List.filter_congr fun s hs => ?_)
  rw [Bool.eq_iff_iff, List.isPrefixOf_iff_prefix, List.isPrefixOf_iff_prefix]
  refine ⟨fun hpre => ?_, fun hpre => hpre.trans (List.prefix_append _ _)⟩
  rcases Nat.lt_or_ge spelling.length s.1.length with hlt | hge
  · cases rest with
    | nil =>
      rw [List.append_nil] at hpre
      exact absurd hpre.length_le (Nat.not_le.mpr hlt)
    | cons b rest =>
      rw [List.append_cons] at hpre
      have hb := h b rfl
      refine absurd (mem_extensions hs (List.prefix_of_prefix_length_le (List.prefix_append _ _) hpre ?_)) hb
      rw [List.length_append]
      exact hlt
  · exact List.prefix_of_prefix_length_le hpre (List.prefix_append _ _) hge

/-- A sign starts with none of the bytes with which something else starts, and with those of a comment
only if it is a slash by itself. -/
def isSign : List UInt8 → Bool
  | [] => false
  | b :: bs => !(isBlank b || startsWord b || isDigit b || b == quote) &&
      (b != slash || bs.head?.all fun c => c != slash && c != star)

theorem isSign_of_mem : ∀ s ∈ signTable, isSign s.1 = true ∧ signAt? s.1 = some s := by
  decide

theorem stands_sign {s : List UInt8 × Token} {rest : List UInt8} (hs : s ∈ signTable)
    (hrest : ∀ b ∈ rest.head?, b ∉ extensions s.1)
    (hslash : s.1 = [slash] → ∀ b ∈ rest.head?, b ≠ slash ∧ b ≠ star) : (sign s.1 s.2).Stands rest := by
  obtain ⟨hsign, hat⟩ := isSign_of_mem s hs
  have happ := signAt?_append hrest
  rw [hat] at happ
  obtain ⟨spelling, token⟩ := s
  cases spelling with
  | nil => cases hsign
  | cons c cs =>
    simp only [isSign, Bool.and_eq_true, Bool.not_eq_true', Bool.or_eq_false_iff, beq_eq_false_iff_ne,
      Bool.or_eq_true, bne_iff_ne, Option.all_eq_true] at hsign
    obtain ⟨⟨⟨⟨hblank, hword⟩, hdigit⟩, hquote⟩, hcs⟩ := hsign
    have hnext : c = slash → ∀ d ∈ (cs ++ rest).head?, d ≠ slash ∧ d ≠ star := by
      rintro rfl d hd
      cases cs with
      | nil => exact hslash rfl d hd
      | cons x cs => exact hcs.resolve_left (fun h => h rfl) d hd
    refine stands_of_next rfl ?_
    rw [next, if_neg (by simp [hblank]), if_neg fun h => (hnext h.1 _ h.2).1 rfl,
      if_neg fun h => (hnext h.1 _ h.2).2 rfl, if_neg (by simp [hword]), if_neg (by simp [hdigit]),
      if_neg hquote]
    rw [List.cons_append] at happ
    rw [happ]
    dsimp only
    rw [← List.cons_append, List.drop_left]

end Piece

/-! ## Digits and escapes -/

namespace Ascii

theorem toNat_digit {n : Nat} (h : n < 10) : (UInt8.ofNat n.digitChar.toNat).toNat = 0x30 + n := by
  rw [UInt8.toNat_ofNat', Nat.toNat_digitChar_of_lt_ten h]
  omega

theorem encode_toString (n : Nat) :
    Utf8.encode (toString n) = (Nat.toDigits 10 n).map fun c => UInt8.ofNat c.toNat := by
  rw [Utf8.encode_eq]
  refine (congrArg Utf8.bytesOf Nat.toList_repr).trans (Utf8.bytesOf_ascii fun c hc => ?_)
  have hdigit := Nat.isDigit_of_mem_toDigits (by decide) (by decide) hc
  simp only [Char.isDigit, Bool.and_eq_true, decide_eq_true_eq, UInt32.le_iff_toNat_le] at hdigit
  exact Nat.lt_of_le_of_lt hdigit.2 (by decide)

theorem isDigit_of_mem_encode {n : Nat} : ∀ b ∈ Utf8.encode (toString n), isDigit b = true := by
  intro b hb
  rw [encode_toString] at hb
  obtain ⟨c, hc, rfl⟩ := List.mem_map.mp hb
  have hdigit := Nat.isDigit_of_mem_toDigits (by decide) (by decide) hc
  simp only [Char.isDigit, Bool.and_eq_true, decide_eq_true_eq, ge_iff_le, UInt32.le_iff_toNat_le] at hdigit
  have hlow : 0x30 ≤ c.toNat := hdigit.1
  have hhigh : c.toNat ≤ 0x39 := hdigit.2
  have hbyte : (UInt8.ofNat c.toNat).toNat = c.toNat := by
    rw [UInt8.toNat_ofNat']
    omega
  rw [isDigit, Bool.and_eq_true, decide_eq_true_eq, decide_eq_true_eq, UInt8.le_iff_toNat_le,
    UInt8.le_iff_toNat_le, hbyte]
  exact ⟨hlow, hhigh⟩

/-- Decimal digits write their number. -/
theorem number_encode (n : Nat) : number (Utf8.encode (toString n)) = n := by
  rw [encode_toString]
  induction n using Nat.strongRecOn with
  | ind n ih =>
    rcases Nat.lt_or_ge n 10 with h | h
    · rw [Nat.toDigits_of_lt_base h]
      simp only [number, List.map_cons, List.map_nil, List.foldl_cons, List.foldl_nil, toNat_digit h]
      omega
    · have hdiv := ih (n / 10) (by omega)
      rw [Nat.toDigits_of_base_le (by decide) h, List.map_append, number, List.foldl_append]
      rw [number] at hdiv
      rw [hdiv]
      simp only [List.map_cons, List.map_nil, List.foldl_cons, List.foldl_nil,
        toNat_digit (Nat.mod_lt n (by decide))]
      omega

end Ascii

/-! ## Escapes -/

namespace Literal

/-- None of the bytes of another character ends a string or escapes one. -/
theorem charBytes_plain {c : Char} (hquote : c ≠ '"') (hback : c ≠ '\\') (hline : c ≠ '\n') :
    ∀ b ∈ Utf8.charBytes c, b ≠ Ascii.quote ∧ b ≠ newline ∧ b ≠ backslash := by
  intro b hb
  refine ⟨?_, ?_, ?_⟩ <;> rintro rfl
  · exact hquote (Utf8.eq_of_mem_charBytes hb rfl (by decide))
  · exact hline (Utf8.eq_of_mem_charBytes hb rfl (by decide))
  · exact hback (Utf8.eq_of_mem_charBytes hb rfl (by decide))

/-- A character of a string is written as it is, where that is none of the bytes that end a string or
escape one, or as a backslash and a letter that stands for it. -/
theorem escapeChar_cases (c : Char) :
    (escapeChar c = [c] ∧
      ∀ b ∈ Utf8.charBytes c, b ≠ Ascii.quote ∧ b ≠ newline ∧ b ≠ backslash) ∨
    ∃ b e : UInt8, Utf8.bytesOf (escapeChar c) = [backslash, e] ∧ Lexed.escaped? e = some b ∧
      Utf8.charBytes c = [b] := by
  by_cases hspecial : c ∈ ['"', '\\', '\n', '\t', '\r', '\x00']
  · right
    simp only [List.mem_cons, List.not_mem_nil, or_false] at hspecial
    rcases hspecial with rfl | rfl | rfl | rfl | rfl | rfl
    · exact ⟨Ascii.quote, Ascii.quote, by decide, rfl, rfl⟩
    · exact ⟨backslash, backslash, by decide, rfl, rfl⟩
    · exact ⟨newline, 0x6E, by decide, rfl, rfl⟩
    · exact ⟨tab, 0x74, by decide, rfl, rfl⟩
    · exact ⟨carriageReturn, 0x72, by decide, rfl, rfl⟩
    · exact ⟨0, 0x30, by decide, rfl, rfl⟩
  · left
    simp only [List.mem_cons, List.not_mem_nil, or_false, not_or] at hspecial
    obtain ⟨hquote, hback, hline, htab, hreturn, hzero⟩ := hspecial
    refine ⟨by rw [escapeChar, if_neg hquote, if_neg hback, if_neg hline, if_neg htab, if_neg hreturn,
      if_neg hzero], ?_⟩
    exact charBytes_plain hquote hback hline

/-- The bytes between the quotes of a string. -/
def quotedBytes (text : String) : List UInt8 := Utf8.bytesOf (text.toList.flatMap escapeChar)

theorem stringBody_close (rest : List UInt8) :
    Piece.stringBody (Ascii.quote :: rest) = ⟨[], true, rest⟩ := by
  rw [Piece.stringBody.eq_def]
  exact if_pos rfl

theorem stringBody_cons {b : UInt8} (h : b ≠ Ascii.quote ∧ b ≠ newline ∧ b ≠ backslash)
    (rest : List UInt8) : Piece.stringBody (b :: rest) = (Piece.stringBody rest).push b := by
  rw [Piece.stringBody.eq_def]
  exact (if_neg h.1).trans ((if_neg h.2.1).trans (if_neg h.2.2))

theorem stringBody_escape (e : UInt8) (rest : List UInt8) :
    Piece.stringBody (backslash :: e :: rest) = ((Piece.stringBody rest).push e).push backslash := by
  rw [Piece.stringBody.eq_def]
  rfl

theorem stringBody_plain {plain tail : List UInt8}
    (h : ∀ b ∈ plain, b ≠ Ascii.quote ∧ b ≠ newline ∧ b ≠ backslash) :
    Piece.stringBody (plain ++ tail) =
      { Piece.stringBody tail with body := plain ++ (Piece.stringBody tail).body } := by
  induction plain with
  | nil => rfl
  | cons b plain ih =>
    have ⟨hb, hplain⟩ := List.forall_mem_cons.mp h
    rw [List.cons_append, stringBody_cons hb, ih hplain]
    rfl

theorem stringBody_escaped (cs : List Char) (rest : List UInt8) :
    Piece.stringBody (Utf8.bytesOf (cs.flatMap escapeChar) ++ Ascii.quote :: rest) =
      ⟨Utf8.bytesOf (cs.flatMap escapeChar), true, rest⟩ := by
  induction cs with
  | nil => exact stringBody_close rest
  | cons c cs ih =>
    rw [List.flatMap_cons, Utf8.bytesOf_append, List.append_assoc]
    rcases escapeChar_cases c with ⟨hc, hplain⟩ | ⟨b, e, hc, -, -⟩
    · rw [hc, Utf8.bytesOf_cons, show Utf8.bytesOf [] = [] from rfl, List.append_nil,
        stringBody_plain hplain, ih]
    · rw [hc, List.cons_append, List.singleton_append, stringBody_escape, ih]
      rfl

theorem unescape_cons {b : UInt8} (h : b ≠ backslash) (offset : Nat) (rest : List UInt8) :
    Lexed.unescape offset (b :: rest) =
      (b :: (Lexed.unescape (offset + 1) rest).1, (Lexed.unescape (offset + 1) rest).2) := by
  rw [Lexed.unescape.eq_def]
  exact if_neg h

theorem unescape_escape {b e : UInt8} (h : Lexed.escaped? e = some b) (offset : Nat)
    (rest : List UInt8) : Lexed.unescape offset (backslash :: e :: rest) =
      (b :: (Lexed.unescape (offset + 2) rest).1, (Lexed.unescape (offset + 2) rest).2) := by
  rw [Lexed.unescape.eq_def]
  dsimp only
  rw [if_pos rfl, h]

theorem unescape_plain {plain tail : List UInt8} (h : ∀ b ∈ plain, b ≠ backslash) :
    ∀ offset, Lexed.unescape offset (plain ++ tail) =
      (plain ++ (Lexed.unescape (offset + plain.length) tail).1,
        (Lexed.unescape (offset + plain.length) tail).2) := by
  induction plain with
  | nil => exact fun _ => rfl
  | cons b plain ih =>
    intro offset
    have ⟨hb, hplain⟩ := List.forall_mem_cons.mp h
    rw [List.cons_append, unescape_cons hb, ih hplain, List.length_cons, Nat.add_right_comm,
      ← Nat.add_assoc]
    rfl

theorem unescape_escaped (cs : List Char) :
    ∀ offset, Lexed.unescape offset (Utf8.bytesOf (cs.flatMap escapeChar)) = (Utf8.bytesOf cs, []) := by
  induction cs with
  | nil => exact fun _ => rfl
  | cons c cs ih =>
    intro offset
    rw [List.flatMap_cons, Utf8.bytesOf_append]
    rcases escapeChar_cases c with ⟨hc, hplain⟩ | ⟨b, e, hc, he, hb⟩
    · rw [hc, Utf8.bytesOf_cons, show Utf8.bytesOf [] = [] from rfl, List.append_nil,
        unescape_plain (fun b hb => (hplain b hb).2.2), ih, Utf8.bytesOf_cons]
    · rw [hc, List.cons_append, List.singleton_append, unescape_escape he, ih, Utf8.bytesOf_cons, hb]
      rfl

end Literal

/-! ## Tokens -/

namespace Piece

theorem encode_eq_spell {text : String} (h : ∀ c ∈ text.toList, c.toNat < 128) :
    Utf8.encode text = spell text := by
  rw [Utf8.encode_eq, Utf8.bytesOf_ascii h]
  rfl

theorem text_spell {text : String} (h : ∀ c ∈ text.toList, c.toNat < 128) :
    Ascii.text (spell text) = text := by
  rw [Ascii.text, spell, List.map_map]
  refine (congrArg String.ofList ((List.map_congr_left fun c hc => ?_).trans (List.map_id _))).trans
    String.ofList_toList
  have hc := h c hc
  have hbyte : c.toNat.toUInt8.toNat = c.toNat := by
    rw [Nat.toUInt8, UInt8.toNat_ofNat']
    omega
  rw [Function.comp_apply, hbyte, id]
  exact Char.ofNat_toNat c

theorem ascii_keyword (k : Keyword) : ∀ c ∈ k.text.toList, c.toNat < 128 := by
  have hall : k.text.toList.all (fun c => decide (c.toNat < 128)) = true := by cases k <;> decide
  exact fun c hc => of_decide_eq_true (List.all_eq_true.mp hall c hc)

/-- A reserved word is spelled as a word. -/
theorem exists_spell_keyword (k : Keyword) : ∃ b run, spell k.text = b :: run ∧ startsWord b = true ∧
    ∀ c ∈ run, continuesWord c = true := by
  have hall : ∀ k ∈ Keyword.all, ((spell k.text).head?.any startsWord &&
      (spell k.text).tail.all continuesWord) = true := by
    decide
  have hk := hall k (by cases k <;> decide)
  cases hspell : spell k.text with
  | nil =>
    rw [hspell] at hk
    cases hk
  | cons b run =>
    rw [hspell, Bool.and_eq_true] at hk
    exact ⟨b, run, rfl, hk.1, List.all_eq_true.mp hk.2⟩

end Piece

theorem IsWord.exists_encode {name : String} (h : IsWord name) : ∃ b run, Utf8.encode name = b :: run ∧
    startsWord b = true ∧ ∀ c ∈ run, continuesWord c = true := by
  obtain ⟨b, run, hb, hrun, rfl, -⟩ := h
  refine ⟨b, run, Utf8.encode_text fun c hc => ?_, hb, hrun⟩
  rcases List.mem_cons.mp hc with rfl | hc
  · exact lt_of_continuesWord (Bool.or_eq_true_iff.mpr (.inl hb))
  · exact lt_of_continuesWord (hrun c hc)

namespace Token

/-- How the token is written. -/
def spelling : Token → String
  | keyword word => word.text
  | lparen => "("
  | rparen => ")"
  | lbrace => "\x7b"
  | rbrace => "\x7d"
  | comma => ","
  | semicolon => ";"
  | dot => "."
  | operator op => op.symbol
  | assign => "="
  | compound op => op.symbol ++ "="
  | bang => "!"
  | tilde => "~"
  | step op => op.symbol
  | integer value => toString value
  | string text => Literal.quote text
  | identifier name => name
  | endOfFile => ""

/-- The tokens that can be written. -/
def Written : Token → Prop
  | identifier name => IsWord name
  | integer value => value ≤ Lexed.maxInteger
  | compound op => op.hasCompound = true
  | endOfFile => False
  | _ => True

/-- The token as a piece of text. -/
def piece : Token → Piece
  | keyword word => .word (Utf8.encode word.text)
  | identifier name => .word (Utf8.encode name)
  | integer value => .number (Utf8.encode (toString value))
  | string text => .quoted (Literal.quotedBytes text) true
  | endOfFile => .blank []
  | t => .sign (Piece.spell t.spelling) t

/-- Whether the token is a sign. -/
def isSign : Token → Bool
  | keyword _ | identifier _ | integer _ | string _ | endOfFile => false
  | _ => true

variable {t : Token}

theorem mem_signs (h : t.Written) (hs : t.isSign = true) : (t.spelling, t) ∈ Piece.signs := by
  cases t with
  | operator op => cases op <;> decide
  | compound op => cases op <;> first | decide | cases h
  | step op => cases op <;> decide
  | _ => first | decide | cases hs

theorem mem_signTable (h : t.Written) (hs : t.isSign = true) :
    (Piece.spell t.spelling, t) ∈ Piece.signTable := by
  exact List.mem_map.mpr ⟨_, mem_signs h hs, rfl⟩

theorem piece_of_isSign (hs : t.isSign = true) : t.piece = .sign (Piece.spell t.spelling) t := by
  cases t <;> first | exact absurd hs Bool.false_ne_true | rfl

theorem encode_of_isSign (h : t.Written) (hs : t.isSign = true) :
    Utf8.encode t.spelling = Piece.spell t.spelling := by
  have hascii : ∀ s ∈ Piece.signs, s.1.toList.all (fun c => decide (c.toNat < 128)) = true := by decide
  have hall := List.all_eq_true.mp (hascii _ (mem_signs h hs))
  exact Piece.encode_eq_spell fun c hc => of_decide_eq_true (hall c hc)

/-- What is not a sign is a word, a number or a string. -/
theorem cases_of_written (h : t.Written) : (∃ word, t = keyword word) ∨
    (∃ name, IsWord name ∧ t = identifier name) ∨ (∃ value ≤ Lexed.maxInteger, t = integer value) ∨
    (∃ text, t = string text) ∨ t.isSign = true := by
  cases t with
  | keyword word => exact .inl ⟨word, rfl⟩
  | identifier name => exact .inr (.inl ⟨name, h, rfl⟩)
  | integer value => exact .inr (.inr (.inl ⟨value, h, rfl⟩))
  | string text => exact .inr (.inr (.inr (.inl ⟨text, rfl⟩)))
  | endOfFile => exact h.elim
  | _ => exact .inr (.inr (.inr (.inr rfl)))

theorem bytes_piece (h : t.Written) : t.piece.bytes = Utf8.encode t.spelling := by
  obtain ⟨word, rfl⟩ | ⟨name, -, rfl⟩ | ⟨value, -, rfl⟩ | ⟨text, rfl⟩ | hs := cases_of_written h
  · rfl
  · rfl
  · rfl
  · rw [spelling, Literal.quote, Utf8.encode_append, Utf8.encode_append, Utf8.encode_ofList,
      Utf8.encode_ofList]
    rfl
  · rw [piece_of_isSign hs, encode_of_isSign h hs]
    rfl

/-- The piece of a token reads as the token. -/
theorem token?_piece (h : t.Written) (offset : Nat) : Lexed.token? offset t.piece = some t := by
  obtain ⟨word, rfl⟩ | ⟨name, hname, rfl⟩ | ⟨value, hvalue, rfl⟩ | ⟨text, rfl⟩ | hs := cases_of_written h
  · have hascii := Piece.ascii_keyword word
    rw [piece, Lexed.token?, Piece.encode_eq_spell hascii, Piece.text_spell hascii, Lexed.wordToken,
      Keyword.ofText?_text]
  · obtain ⟨b, run, henc, -, -⟩ := hname.exists_encode
    obtain ⟨b', run', hb, hrun, hname, hno⟩ := hname
    have htext : Ascii.text (Utf8.encode name) = name := by
      rw [hname, Utf8.encode_text]
      intro c hc
      rcases List.mem_cons.mp hc with rfl | hc
      · exact lt_of_continuesWord (Bool.or_eq_true_iff.mpr (.inl hb))
      · exact lt_of_continuesWord (hrun c hc)
    rw [piece, Lexed.token?, htext, Lexed.wordToken, hno]
  · rw [piece, Lexed.token?, Ascii.number_encode]
    exact congrArg (some ∘ Token.integer) (if_pos hvalue)
  · rw [piece, Lexed.token?, Literal.quotedBytes, Literal.unescape_escaped, Utf8.decodeLossy_bytesOf,
      String.ofList_toList]
  · rw [piece_of_isSign hs]
    rfl

theorem piece_ne_blank (h : t.Written) (run : List UInt8) : t.piece ≠ .blank run := by
  intro hrun
  have htoken := token?_piece h 0
  rw [hrun] at htoken
  cases htoken

theorem problems_piece (h : t.Written) (place : Place) : Lexed.problems place t.piece = [] := by
  obtain ⟨word, rfl⟩ | ⟨name, -, rfl⟩ | ⟨value, hvalue, rfl⟩ | ⟨text, rfl⟩ | hs := cases_of_written h
  · rfl
  · rfl
  · rw [piece, Lexed.problems, Ascii.number_encode]
    exact if_pos hvalue
  · rw [piece, Lexed.problems, Literal.quotedBytes, Literal.unescape_escaped]
    rfl
  · rw [piece_of_isSign hs]
    rfl

/-! ## What may come after a token -/

/-- The bytes with which a sign would go on, or would start a comment. -/
def extensions (t : Token) : List UInt8 :=
  Piece.extensions (Piece.spell t.spelling) ++ if t = operator .div then [slash, star] else []

/-- Whether the byte may come right after the token. -/
def precedes : Token → UInt8 → Bool
  | keyword _, b | identifier _, b => !continuesWord b
  | integer _, b => !isDigit b
  | string _, _ | endOfFile, _ => true
  | t, b => !t.extensions.contains b

theorem precedes_of_isSign (hs : t.isSign = true) (b : UInt8) :
    t.precedes b = !t.extensions.contains b := by
  cases t <;> first | exact absurd hs Bool.false_ne_true | rfl

/-- A token is cut off in front of what may come after it, and at the end of a text. -/
theorem stands_piece (h : t.Written) {rest : List UInt8} (hrest : ∀ b ∈ rest.head?, t.precedes b = true) :
    t.piece.Stands rest := by
  obtain ⟨word, rfl⟩ | ⟨name, hname, rfl⟩ | ⟨value, -, rfl⟩ | ⟨text, rfl⟩ | hs := cases_of_written h
  · obtain ⟨c, run, henc, hc, hrun⟩ := Piece.exists_spell_keyword word
    rw [piece, Piece.encode_eq_spell (Piece.ascii_keyword word), henc]
    exact Piece.stands_word hc hrun fun b hb => (Bool.not_eq_true' _).mp (hrest b hb)
  · obtain ⟨c, run, henc, hc, hrun⟩ := hname.exists_encode
    rw [piece, henc]
    exact Piece.stands_word hc hrun fun b hb => (Bool.not_eq_true' _).mp (hrest b hb)
  · have hdigits := @isDigit_of_mem_encode value
    have hne : Utf8.encode (toString value) ≠ [] := by
      rw [encode_toString]
      exact fun hnil => Nat.toDigits_ne_nil (List.map_eq_nil_iff.mp hnil)
    obtain ⟨c, run, henc⟩ := List.exists_cons_of_ne_nil hne
    rw [henc] at hdigits
    have ⟨hc, hrun⟩ := List.forall_mem_cons.mp hdigits
    rw [piece, henc]
    exact Piece.stands_number hc hrun fun b hb => (Bool.not_eq_true' _).mp (hrest b hb)
  · exact Piece.stands_quoted (Literal.stringBody_escaped _ _)
  · have hno : ∀ b ∈ rest.head?, b ∉ Piece.extensions (Piece.spell t.spelling) ∧
        b ∉ if t = operator .div then [slash, star] else [] := by
      intro b hb
      have hb := hrest b hb
      rwa [precedes_of_isSign hs, Bool.not_eq_true', List.contains_eq_mem, decide_eq_false_iff_not,
        extensions, List.mem_append, not_or] at hb
    rw [piece_of_isSign hs]
    refine Piece.stands_sign (mem_signTable h hs) (fun b hb => (hno b hb).1) fun hslash b hb => ?_
    have hdiv : t = operator .div := by
      have hone : ∀ s ∈ Piece.signTable, s.1 = [slash] → s.2 = operator .div := by decide
      exact hone _ (mem_signTable h hs) hslash
    have hno := (hno b hb).2
    rw [if_pos hdiv, List.mem_cons, List.mem_singleton, not_or] at hno
    exact hno

/-- A blank may come after any token. -/
theorem precedes_blank {b : UInt8} (hb : isBlank b = true) (t : Token) : t.precedes b = true := by
  have hlow := toNat_of_isBlank hb
  have hword : continuesWord b = false := by
    refine Bool.eq_false_of_not_eq_true fun h => ?_
    rcases Bool.or_eq_true_iff.mp h with h | h
    · exact absurd hb (by simp [(apart_of_startsWord h).1])
    · exact absurd hb (by simp [(apart_of_isDigit h).1])
  by_cases hs : t.isSign = true
  · rw [precedes_of_isSign hs, Bool.not_eq_true', List.contains_eq_mem, decide_eq_false_iff_not,
      extensions, List.mem_append, not_or]
    constructor
    · intro hmem
      obtain ⟨s, hmem, hs⟩ := List.mem_filterMap.mp hmem
      have hblanks : ∀ s ∈ Piece.signTable, ∀ c ∈ s.1, isBlank c = false := by decide +kernel
      split at hs
      · exact absurd hb (by simp [hblanks s hmem b (List.mem_of_getElem? hs)])
      · cases hs
    · split
      · rintro hmem
        simp only [List.mem_cons, List.not_mem_nil, or_false] at hmem
        rcases hmem with rfl | rfl <;> exact absurd hb (by decide)
      · exact List.not_mem_nil
  · cases t with
    | integer value =>
      refine (Bool.not_eq_true' _).mpr (Bool.eq_false_of_not_eq_true fun h => ?_)
      exact absurd hb (by simp [(apart_of_isDigit h).1])
    | keyword word => exact (Bool.not_eq_true' _).mpr hword
    | identifier name => exact (Bool.not_eq_true' _).mpr hword
    | string text => rfl
    | endOfFile => rfl
    | _ => exact absurd rfl hs

end Token

end JavaFold
