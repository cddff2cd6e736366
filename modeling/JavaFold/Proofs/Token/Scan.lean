import JavaFold.Proofs.Token.Spelling

/-!
# Reading a text that was put together from pieces

A text that is put together from pieces is cut into them again if each piece ends where the text after it
begins; only runs of blanks may be cut differently, which does not change what the text reads as
(`ofPieces_cut`). The comments of an accepted text are such pieces (`isComment_ofSource`), in front of a
line end or anything else.
-/

namespace JavaFold

open Ascii

namespace Piece

/-- Each piece ends where the text of those after it begins. Runs of blanks may stand side by side. -/
def Scans : List Piece → Prop
  | [] => True
  | .blank run :: pieces => (∀ b ∈ run, isBlank b = true) ∧ Scans pieces
  | piece :: pieces => piece.Stands (pieces.flatMap bytes) ∧ Scans pieces

theorem scans_cons {piece : Piece} {pieces : List Piece} (h : piece.Stands (pieces.flatMap bytes))
    (hrest : Scans pieces) (hblank : ∀ run, piece ≠ blank run) : Scans (piece :: pieces) := by
  cases piece with
  | blank run => exact absurd rfl (hblank run)
  | _ => exact ⟨h, hrest⟩

end Piece

namespace Lexed

open Piece

theorem skipBlanks_append (place : Place) (xs ys : List UInt8) :
    place.skipBlanks (xs ++ ys) = (place.skipBlanks xs).skipBlanks ys := by
  induction xs generalizing place with
  | nil => rfl
  | cons b xs ih =>
    rw [List.cons_append, Place.skipBlanks, Place.skipBlanks]
    split <;> exact ih _

theorem ofPieces_blank (place : Place) (run : List UInt8) (pieces : List Piece) :
    ofPieces place (blank run :: pieces) = ofPieces (place.skipBlanks run) pieces := rfl

theorem next_blank {b : UInt8} (hb : isBlank b = true) (rest : List UInt8) :
    next b rest = (blank (b :: rest.takeWhile isBlank), rest.dropWhile isBlank) := by
  rw [next, if_pos hb]

/-- A blank in front of a text moves the place where the text starts. -/
theorem ofPieces_cut_cons {b : UInt8} (hb : isBlank b = true) (place : Place) (text : List UInt8) :
    ofPieces place (cut (b :: text)) = ofPieces (place.skipBlanks [b]) (cut text) := by
  rw [cut, next_blank hb, ofPieces_blank, ← List.singleton_append, skipBlanks_append]
  cases text with
  | nil => rfl
  | cons c text =>
    by_cases hc : isBlank c = true
    · rw [List.takeWhile_cons_of_pos hc, List.dropWhile_cons_of_pos hc, cut, next_blank hc, ofPieces_blank]
    · rw [List.takeWhile_cons_of_neg hc, List.dropWhile_cons_of_neg hc]
      rfl

theorem ofPieces_cut_append {run : List UInt8} (h : ∀ b ∈ run, isBlank b = true) (place : Place)
    (text : List UInt8) :
    ofPieces place (cut (run ++ text)) = ofPieces (place.skipBlanks run) (cut text) := by
  induction run generalizing place with
  | nil => rfl
  | cons b run ih =>
    have ⟨hb, hrun⟩ := List.forall_mem_cons.mp h
    rw [List.cons_append, ofPieces_cut_cons hb, ih hrun, ← skipBlanks_append, List.singleton_append]

/-- A text put together from pieces reads as they do. -/
theorem ofPieces_cut {pieces : List Piece} (h : Scans pieces) (place : Place) :
    ofPieces place (cut (pieces.flatMap bytes)) = ofPieces place pieces := by
  induction pieces generalizing place with
  | nil =>
    rw [List.flatMap_nil, cut]
  | cons piece pieces ih =>
    rw [List.flatMap_cons]
    cases piece with
    | blank run => rw [bytes, ofPieces_cut_append h.1, ofPieces_blank, ih h.2]
    | _ =>
      have hcut := h.1
      rw [Stands] at hcut
      rw [hcut, ofPieces, ofPieces, ih h.2]

/-- A token is read, and there is a token on its line then. -/
theorem ofPieces_token {t : Token} (ht : t.Written) (place : Place) (ps : List Piece) :
    ofPieces place (t.piece :: ps) =
      let rest := ofPieces ⟨place.offset + t.piece.bytes.length, place.lineStart, true⟩ ps
      ⟨⟨t, place.spanOf t.piece⟩ :: rest.tokens, rest.comments, rest.diagnostics⟩ := by
  have hcomment : comment? place t.piece = none ∧
      place.after t.piece = ⟨place.offset + t.piece.bytes.length, place.lineStart, true⟩ := by
    obtain ⟨word, rfl⟩ | ⟨name, -, rfl⟩ | ⟨value, -, rfl⟩ | ⟨text, rfl⟩ | hs := t.cases_of_written ht
    · exact ⟨rfl, rfl⟩
    · exact ⟨rfl, rfl⟩
    · exact ⟨rfl, rfl⟩
    · exact ⟨rfl, rfl⟩
    · rw [t.piece_of_isSign hs]
      exact ⟨rfl, rfl⟩
  rw [ofPieces, t.token?_piece ht, t.problems_piece ht, hcomment.1, hcomment.2]
  rfl

end Lexed

/-! ## Comments -/

namespace Piece

/-- Whether the piece is a comment with an end. -/
def isComment : Piece → Bool
  | lineComment _ | blockComment _ true => true
  | _ => false

/-- The body of a comment is found again in front of whatever follows the comment. -/
theorem commentBody_again {text body rest : List UInt8} (h : commentBody text = ⟨body, true, rest⟩)
    (tail : List UInt8) : commentBody (body ++ star :: slash :: tail) = ⟨body, true, tail⟩ := by
  fun_induction commentBody text generalizing body with
  | case1 => cases h
  | case2 => cases h
  | case3 b c rest' hbc =>
    cases h
    exact if_pos ⟨rfl, rfl⟩
  | case4 b c rest' hbc ih =>
    have htext := bytes_commentBody (c :: rest')
    cases he : commentBody (c :: rest') with
    | mk body' closed rest'' =>
      rw [he] at h htext ih
      cases h
      have ih := ih rfl
      cases body' with
      | nil =>
        rw [List.nil_append] at ih
        rw [List.singleton_append, commentBody, if_neg (fun h => absurd h.2 (by decide)), ih]
        rfl
      | cons d body' =>
        have hd : d = c := (List.cons.inj htext).1
        rw [List.cons_append] at ih
        rw [List.cons_append, List.cons_append, commentBody, if_neg (hd ▸ hbc), ih]
        rfl

/-- A block comment is cut off in front of whatever follows. -/
theorem stands_blockComment {text body rest : List UInt8} (h : commentBody text = ⟨body, true, rest⟩)
    (tail : List UInt8) : (blockComment body true).Stands tail := by
  have hbytes : (blockComment body true).bytes = slash :: star :: (body ++ [star, slash]) := rfl
  refine stands_of_next hbytes ?_
  have hslash : slash ≠ star := by decide
  have hagain := commentBody_again h tail
  rw [List.cons_append, List.append_assoc, next, if_neg (by decide),
    if_neg fun h => hslash (Option.some.inj h.2).symm, if_pos ⟨rfl, rfl⟩]
  simp only [List.drop_succ_cons, List.drop_zero, List.cons_append, List.nil_append, hagain]

/-- A line comment is cut off in front of a line end. -/
theorem stands_lineComment {body rest : List UInt8} (h : ∀ b ∈ body, (b != newline) = true)
    (hrest : ∀ b ∈ rest.head?, (b != newline) = false) : (lineComment body).Stands rest := by
  have hbytes : (lineComment body).bytes = slash :: slash :: body := rfl
  refine stands_of_next hbytes ?_
  have ⟨htake, hdrop⟩ := takeWhile_append_stop h hrest
  rw [List.cons_append, next, if_neg (by decide), if_pos ⟨rfl, rfl⟩]
  simp only [List.drop_succ_cons, List.drop_zero, htake, hdrop]

/-- A comment starts with a slash. It is cut off in front of the end of the text or a line end, and the
text after it starts so, unless the comment ends with a slash. It does not end with a line end. -/
theorem next_comment {b : UInt8} {rest : List UInt8} (h : (next b rest).1.isComment = true) :
    b = slash ∧ (∀ tail, (∀ c ∈ tail.head?, c = newline) → (next b rest).1.Stands tail) ∧
      ((∃ front, (next b rest).1.bytes = front ++ [slash]) ∨ ∀ c ∈ (next b rest).2.head?, c = newline) ∧
      ∀ c ∈ (next b rest).1.bytes.getLast?, c ≠ newline := by
  revert h
  unfold next
  split
  · exact fun h => by cases h
  split
  · next hslash =>
    refine fun _ => ⟨hslash.1, fun tail htail => ?_, .inr fun c hc => ?_, fun c hc => ?_⟩
    · refine stands_lineComment (fun b hb => ?_) fun c hc => ?_
      · exact List.all_eq_true.mp List.all_takeWhile b hb
      · simp [htail c hc]
    · have hstop := List.head?_dropWhile_not (· != newline) (rest.drop 1)
      rw [hc] at hstop
      simpa using hstop
    · have hmem := List.mem_of_getLast? hc
      rcases List.mem_cons.mp hmem with rfl | hmem
      · decide
      rcases List.mem_cons.mp hmem with rfl | hmem
      · decide
      · simpa using List.all_eq_true.mp List.all_takeWhile c hmem
  split
  · next hslash =>
    dsimp only
    cases he : commentBody (rest.drop 1) with
    | mk body closed after =>
      dsimp only
      intro h
      cases closed with
      | false => cases h
      | true =>
        refine ⟨hslash.1, fun tail _ => stands_blockComment he tail,
          .inl ⟨slash :: star :: (body ++ [star]), by simp [bytes]⟩, fun c hc => ?_⟩
        have hlast : (blockComment body true).bytes = (slash :: star :: (body ++ [star])) ++ [slash] := by
          simp [bytes]
        rw [hlast, List.getLast?_concat] at hc
        cases hc
        decide
  split
  · exact fun h => by cases h
  split
  · exact fun h => by cases h
  split
  · exact fun h => by cases h
  split
  · exact fun h => by cases h
  · exact fun h => by cases h

/-- The comment that a text consists of. -/
def ofComment (text : String) : Piece := (cut (Utf8.encode text)).headD (.blank [])

end Piece

/-- The text is one comment. -/
structure IsComment (text : String) : Prop where
  cut : Piece.cut (Utf8.encode text) = [.ofComment text]
  isComment : (Piece.ofComment text).isComment = true
  stands : ∀ tail, (∀ c ∈ tail.head?, c = newline) → (Piece.ofComment text).Stands tail
  last : ∀ c ∈ (Piece.ofComment text).bytes.getLast?, c ≠ newline

namespace IsComment

variable {text : String}

theorem bytes (h : IsComment text) : (Piece.ofComment text).bytes = Utf8.encode text := by
  have := Piece.flatMap_bytes_cut (Utf8.encode text)
  rwa [h.cut, List.flatMap_cons, List.flatMap_nil, List.append_nil] at this

end IsComment

namespace Lexed

open Piece

/-- The text of a comment that is cut from a text has the bytes of the comment. -/
theorem encode_of_next {cs : List Char} {front rest : List UInt8} {b : UInt8}
    (hcs : Utf8.bytesOf cs = front ++ b :: rest) (h : (next b rest).1.isComment = true) :
    Utf8.encode (Utf8.decodeLossy (next b rest).1.bytes) = (next b rest).1.bytes := by
  obtain ⟨rfl, -, hend, -⟩ := next_comment h
  have hbytes := bytes_next slash rest
  generalize next slash rest = cutoff at *
  obtain ⟨p, after⟩ := cutoff
  dsimp only at *
  -- the bytes of the comment are those of some characters
  have hchars : ∃ ds, Utf8.bytesOf ds = p.bytes := by
    obtain ⟨-, es, -, -, hes⟩ := Utf8.bytesOf_eq_append_cons hcs (by decide)
    rw [← hbytes] at hes
    rcases hend with ⟨init, hinit⟩ | hline
    · rw [hinit, List.append_assoc, List.singleton_append] at hes
      obtain ⟨ds, es', rfl, hds, hes'⟩ := Utf8.bytesOf_eq_append_cons hes (by decide)
      refine ⟨ds ++ ['/'], ?_⟩
      rw [Utf8.bytesOf_append, hds, hinit]
      rfl
    · cases after with
      | nil => exact ⟨es, by rw [hes, List.append_nil]⟩
      | cons c after =>
        obtain rfl := hline c rfl
        obtain ⟨ds, -, -, hds, -⟩ := Utf8.bytesOf_eq_append_cons hes (by decide)
        exact ⟨ds, hds⟩
  obtain ⟨ds, hds⟩ := hchars
  rw [← hds, Utf8.decodeLossy_bytesOf, Utf8.encode_ofList]

/-- A comment that is cut from a text is the comment of its text. -/
theorem isComment_of_next {cs : List Char} {front rest : List UInt8} {b : UInt8}
    (hcs : Utf8.bytesOf cs = front ++ b :: rest) (h : (next b rest).1.isComment = true) :
    IsComment (Utf8.decodeLossy (next b rest).1.bytes) := by
  have henc := encode_of_next hcs h
  obtain ⟨-, hstands, -, hlast⟩ := next_comment h
  have hcut : cut (next b rest).1.bytes = [(next b rest).1] := by
    have := hstands [] (fun c hc => by cases hc)
    rw [Stands, List.append_nil] at this
    rw [this, cut]
  have hof : Piece.ofComment (Utf8.decodeLossy (next b rest).1.bytes) = (next b rest).1 := by
    rw [ofComment, henc, hcut]
    rfl
  exact ⟨by rw [henc, hcut, hof], by rw [hof, h], by rwa [hof], by rwa [hof]⟩

theorem isComment_of_cut {cs : List Char} (text : List UInt8) : ∀ {front : List UInt8} {place : Place},
    Utf8.bytesOf cs = front ++ text → (ofPieces place (cut text)).diagnostics = [] →
      ∀ c ∈ (ofPieces place (cut text)).comments, IsComment c.text := by
  fun_induction cut text with
  | case1 => exact fun _ _ c hc => absurd hc List.not_mem_nil
  | case2 b rest ih =>
    intro front place hcs hclean c hc
    rw [ofPieces, List.append_eq_nil_iff] at hclean
    rcases List.mem_append.mp hc with hc | hc
    · cases hp : (next b rest).1 with
      | lineComment body =>
        have hcomment := isComment_of_next hcs (by rw [hp]; rfl)
        rw [hp] at hc hcomment
        obtain rfl := List.mem_singleton.mp hc
        exact hcomment
      | blockComment body closed =>
        cases closed with
        | false =>
          rw [hp] at hclean
          exact absurd hclean.1 (List.cons_ne_nil _ _)
        | true =>
          have hcomment := isComment_of_next hcs (by rw [hp]; rfl)
          rw [hp] at hc hcomment
          obtain rfl := List.mem_singleton.mp hc
          exact hcomment
      | _ =>
        rw [hp] at hc
        exact absurd hc List.not_mem_nil
    · refine @ih (front ++ (next b rest).1.bytes) _ ?_ hclean.2 c hc
      rw [List.append_assoc, bytes_next, hcs]

/-- The comments of an accepted text are comments. -/
theorem isComment_ofSource {source : String} (h : (ofSource source).diagnostics = []) :
    ∀ c ∈ (ofSource source).comments, IsComment c.text := by
  refine @isComment_of_cut source.toList (Utf8.encode source) [] .origin ?_ h
  rw [List.nil_append, Utf8.encode_eq]

end Lexed

end JavaFold
