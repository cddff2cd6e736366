import JavaFold.Proofs.Token.Scan

/-!
# Reading what was spelled

Tokens that are spelled one after the other, with single spaces between them, are cut into their pieces again. So
reading the text gives these tokens and the end of the file, with no comment and no problem
(`Lexed.ofSource_spellAll`). A space keeps any two tokens apart, and what is between the quotes of a string is read as
the characters that it was written for, whatever they are.
-/

namespace JavaFold

open Ascii

namespace Token

/-- Tokens as they are spelled, with single spaces between them. -/
def spellAll (ts : List Token) : String := " ".intercalate (ts.map spelling)

/-- The pieces of tokens with single spaces between them. -/
def pieces : List Token → List Piece
  | [] => []
  | [t] => [t.piece]
  | t :: u :: ts => t.piece :: .blank [space] :: pieces (u :: ts)

variable {t : Token} {ts : List Token}

theorem encode_spellAll (h : ∀ t ∈ ts, t.Written) :
    Utf8.encode (spellAll ts) = (pieces ts).flatMap Piece.bytes := by
  fun_induction pieces ts with
  | case1 => exact Utf8.encode_empty
  | case2 t =>
    rw [spellAll, List.map_singleton, String.intercalate_singleton, List.flatMap_singleton,
      bytes_piece (h t List.mem_cons_self)]
  | case3 t u ts ih =>
    have ⟨ht, hts⟩ := List.forall_mem_cons.mp h
    have hspace : Utf8.encode " " = [space] := rfl
    rw [spellAll, List.map_cons, List.map_cons, String.intercalate_cons_cons, Utf8.encode_append, Utf8.encode_append,
      ← List.map_cons, ← spellAll, ih hts, ← bytes_piece ht, hspace, List.append_assoc]
    rfl

theorem scans_pieces (h : ∀ t ∈ ts, t.Written) : Piece.Scans (pieces ts) := by
  fun_induction pieces ts with
  | case1 => exact trivial
  | case2 t =>
    have ht := h t List.mem_cons_self
    exact Piece.scans_cons (stands_piece ht nofun) trivial (piece_ne_blank ht)
  | case3 t u ts ih =>
    have ⟨ht, hts⟩ := List.forall_mem_cons.mp h
    have hspace : isBlank space = true := by decide
    refine Piece.scans_cons (stands_piece ht fun b hb => ?_) ⟨?_, ih hts⟩ (piece_ne_blank ht)
    · cases hb
      exact precedes_blank hspace t
    · exact List.forall_mem_singleton.mpr hspace

end Token

namespace Lexed

open Token (pieces spellAll)

theorem ofPieces_pieces {ts : List Token} (h : ∀ t ∈ ts, t.Written) (place : Place) :
    (ofPieces place (pieces ts)).tokens.map (·.value) = ts ++ [.endOfFile] ∧
      (ofPieces place (pieces ts)).comments = [] ∧ (ofPieces place (pieces ts)).diagnostics = [] := by
  fun_induction pieces ts generalizing place with
  | case1 => exact ⟨rfl, rfl, rfl⟩
  | case2 t =>
    rw [ofPieces_token (h t List.mem_cons_self)]
    exact ⟨rfl, rfl, rfl⟩
  | case3 t u ts ih =>
    have ⟨ht, hts⟩ := List.forall_mem_cons.mp h
    rw [ofPieces_token ht, ofPieces_blank]
    obtain ⟨htokens, hcomments, hdiagnostics⟩ := ih hts
      (Place.skipBlanks ⟨place.offset + t.piece.bytes.length, place.lineStart, true⟩ [space])
    exact ⟨congrArg (t :: ·) htokens, hcomments, hdiagnostics⟩

/-- Tokens that can be written are read again from their spellings with single spaces between them. -/
theorem ofSource_spellAll (ts : List Token) (h : ∀ t ∈ ts, t.Written) :
    (ofSource (spellAll ts)).tokens.map (·.value) = ts ++ [.endOfFile] ∧
      (ofSource (spellAll ts)).comments = [] ∧ (ofSource (spellAll ts)).diagnostics = [] := by
  rw [ofSource, Token.encode_spellAll h, ofPieces_cut (Token.scans_pieces h)]
  exact ofPieces_pieces h .origin

/-- Signs that would run together, the greatest integer, and a string with everything that is escaped, a comment sign
and characters of several bytes. -/
theorem ofSource_spellAll_signs :
    let ts : List Token := [.identifier "$x_1", .compound .ushr, .operator .div, .operator .div, .operator .mul,
      .integer maxInteger, .string "\"é\\\n\t\r\x00// 😀", .keyword .int]
    (∀ t ∈ ts, t.Written) ∧ (ofSource (spellAll ts)).tokens.map (·.value) = ts ++ [.endOfFile] ∧
      (ofSource (spellAll ts)).comments = [] ∧ (ofSource (spellAll ts)).diagnostics = [] := by
  intro ts
  have hword : IsWord "$x_1" :=
    ⟨dollar, [0x78, underscore, 0x31], by decide, List.all_eq_true.mp (by decide), by decide, by decide⟩
  have h : ∀ t ∈ ts, t.Written := by
    simp only [ts, List.forall_mem_cons]
    exact ⟨hword, rfl, trivial, trivial, trivial, le_rfl, trivial, trivial, nofun⟩
  exact ⟨h, ofSource_spellAll ts h⟩

end Lexed

end JavaFold
