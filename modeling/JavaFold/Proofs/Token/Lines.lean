import JavaFold.Proofs.Token.Tiling

/-!
# The lines of comments

A comment is kept with the start of its line and with whether a token stands before it there. Reading tells
a line from the line ends between tokens alone, so both are right for a comment whose line does not start
inside another comment, and for no other (`Lexed.placed_comments`): a block comment that goes on over a line
end leaves what follows it on the line where it started.
-/

namespace JavaFold

open Ascii

/-- One more than the last number below `n` that has a property, 0 if none has it. -/
def afterLast (p : Nat → Prop) [DecidablePred p] : Nat → Nat
  | 0 => 0
  | n + 1 => if p n then n + 1 else afterLast p n

section afterLast

variable {p q : Nat → Prop} [DecidablePred p] [DecidablePred q] {n : Nat}

theorem afterLast_le : afterLast p n ≤ n := by
  induction n with
  | zero => exact Nat.le_refl 0
  | succ n ih =>
    rw [afterLast]
    split
    · exact Nat.le_refl _
    · exact ih.trans (Nat.le_succ n)

theorem afterLast_succ_of (h : p n) : afterLast p (n + 1) = n + 1 := if_pos h

theorem afterLast_succ_of_not (h : ¬p n) : afterLast p (n + 1) = afterLast p n := if_neg h

/-- Where the property does not hold, nothing changes. -/
theorem afterLast_add {k : Nat} (h : ∀ i, n ≤ i → i < n + k → ¬p i) : afterLast p (n + k) = afterLast p n := by
  induction k with
  | zero => rfl
  | succ k ih =>
    rw [← Nat.add_assoc, afterLast_succ_of_not (h (n + k) (Nat.le_add_right n k) (Nat.lt_succ_self _))]
    exact ih fun i hi hik => h i hi (Nat.lt_succ_of_lt hik)

theorem of_afterLast_eq_succ {i : Nat} (h : afterLast p n = i + 1) : p i := by
  induction n with
  | zero => cases h
  | succ n ih =>
    by_cases hp : p n
    · rw [afterLast_succ_of hp] at h
      exact Nat.succ.inj h ▸ hp
    · rw [afterLast_succ_of_not hp] at h
      exact ih h

theorem not_of_afterLast_le {i : Nat} (h : afterLast p n ≤ i) (hi : i < n) : ¬p i := by
  induction n with
  | zero => omega
  | succ n ih =>
    by_cases hp : p n
    · rw [afterLast_succ_of hp] at h
      omega
    · rw [afterLast_succ_of_not hp] at h
      rcases Nat.lt_succ_iff_lt_or_eq.mp hi with hi | rfl
      · exact ih h hi
      · exact hp

/-- Behind the last number that has the property, nothing changes. -/
theorem afterLast_of_le {m : Nat} (h : afterLast p n ≤ m) (hm : m ≤ n) : afterLast p m = afterLast p n := by
  obtain ⟨k, rfl⟩ := Nat.exists_eq_add_of_le hm
  exact (afterLast_add fun i hi => not_of_afterLast_le (h.trans hi)).symm

theorem afterLast_congr (h : ∀ i < n, p i ↔ q i) : afterLast p n = afterLast q n := by
  induction n with
  | zero => rfl
  | succ n ih =>
    rw [afterLast, afterLast, ih fun i hi => h i (Nat.lt_succ_of_lt hi)]
    exact if_congr (h n (Nat.lt_succ_self n)) rfl rfl

/-- With fewer numbers the last one stays if it is one of those that are left. -/
theorem afterLast_and_eq_iff : afterLast (fun i => p i ∧ ¬q i) n = afterLast p n ↔
    ∀ i, afterLast p n = i + 1 → ¬q i := by
  induction n with
  | zero => exact ⟨fun _ i hi => absurd hi.symm (Nat.succ_ne_zero i), fun _ => rfl⟩
  | succ n ih =>
    by_cases hp : p n
    · rw [afterLast_succ_of hp]
      by_cases hq : q n
      · rw [afterLast_succ_of_not (p := fun i => p i ∧ ¬q i) fun h => h.2 hq]
        have hle : afterLast (fun i => p i ∧ ¬q i) n ≤ n := afterLast_le
        exact ⟨fun h => absurd h (Nat.ne_of_lt (Nat.lt_succ_of_le hle)), fun h => absurd hq (h n rfl)⟩
      · rw [afterLast_succ_of (p := fun i => p i ∧ ¬q i) ⟨hp, hq⟩]
        exact ⟨fun _ i hi => Nat.succ.inj hi ▸ hq, fun _ => rfl⟩
    · rw [afterLast_succ_of_not hp, afterLast_succ_of_not (p := fun i => p i ∧ ¬q i) fun h => hp h.1, ih]

end afterLast

/-- The start of the line of an offset. -/
def lineStart (text : List UInt8) (offset : Nat) : Nat :=
  afterLast (fun i => text[i]? = some newline) offset

/-- A comment covers the offset. -/
def Comment.Covers (c : Comment) (i : Nat) : Prop := c.span.start ≤ i ∧ i < c.span.stop

instance (c : Comment) (i : Nat) : Decidable (c.Covers i) := inferInstanceAs (Decidable (_ ∧ _))

/-- The start of the line of an offset, where no line ends inside one of the comments. -/
def outerLineStart (text : List UInt8) (comments : List Comment) (offset : Nat) : Nat :=
  afterLast (fun i => text[i]? = some newline ∧ ¬∃ c ∈ comments, c.Covers i) offset

/-- A token ends on the line that starts at `start`, in front of the offset. -/
def TokenBetween (tokens : List (Spanned Token)) (start offset : Nat) : Prop :=
  ∃ t ∈ tokens, start < t.span.stop ∧ t.span.stop ≤ offset

/-- A comment is kept with the start of its line, and as a trailing one if a token stands before it there. -/
structure Comment.Placed (text : List UInt8) (tokens : List (Spanned Token)) (c : Comment) : Prop where
  lineStart : c.lineStart = JavaFold.lineStart text c.span.start
  trailing : c.trailing = true ↔ TokenBetween tokens c.lineStart c.span.start

/-! ## Tokens end no line -/

namespace Literal

/-- A string with escapes that are all known goes over no line end. -/
theorem newline_not_mem_stringBody (text : List UInt8) : ∀ {offset : Nat},
    (Lexed.unescape offset (Piece.stringBody text).body).2 = [] → newline ∉ (Piece.stringBody text).body := by
  fun_induction Piece.stringBody text with
  | case1 => exact fun _ => List.not_mem_nil
  | case2 => exact fun _ => List.not_mem_nil
  | case3 => exact fun _ => List.not_mem_nil
  | case4 => exact fun _ => by decide
  | case5 c rest _ _ ih =>
    intro offset hknown
    change (Lexed.unescape offset (backslash :: c :: (Piece.stringBody rest).body)).2 = [] at hknown
    cases hesc : Lexed.escaped? c with
    | none => exact absurd hknown (unescape_unknown hesc offset _)
    | some v =>
      rw [unescape_escape hesc] at hknown
      have hc : newline ≠ c := by
        rintro rfl
        cases hesc
      exact List.not_mem_cons_of_ne_of_not_mem (by decide) (List.not_mem_cons_of_ne_of_not_mem hc (ih hknown))
  | case6 b rest _ hline hback ih =>
    intro offset hknown
    change (Lexed.unescape offset (b :: (Piece.stringBody rest).body)).2 = [] at hknown
    rw [Lexed.unescape.eq_def] at hknown
    simp only [if_neg hback] at hknown
    exact List.not_mem_cons_of_ne_of_not_mem (Ne.symm hline) (ih hknown)

end Literal

theorem Piece.newline_not_mem_signTable : ∀ s ∈ signTable, newline ∉ s.1 := by decide

/-- A token ends on the line where it starts. -/
theorem Token.newline_not_mem_of_next {b : UInt8} {rest : List UInt8} {t : Token} {place : Place}
    (hclean : Lexed.problems place (Piece.next b rest).1 = [])
    (ht : Lexed.token? place.offset (Piece.next b rest).1 = some t) : newline ∉ (Piece.next b rest).1.bytes := by
  revert hclean ht
  unfold Piece.next
  split
  · simp [Lexed.token?]
  split
  · simp [Lexed.token?]
  split
  · simp [Lexed.token?]
  split
  · next hb =>
    intro _ _ hmem
    rcases List.mem_cons.mp hmem with rfl | hmem
    · exact absurd hb (by decide)
    · exact absurd (List.all_eq_true.mp List.all_takeWhile _ hmem) (by decide)
  split
  · next hb =>
    intro _ _ hmem
    rcases List.mem_cons.mp hmem with rfl | hmem
    · exact absurd hb (by decide)
    · exact absurd (List.all_eq_true.mp List.all_takeWhile _ hmem) (by decide)
  split
  · intro hclean _
    obtain ⟨hknown, hclosed⟩ := List.append_eq_nil_iff.mp hclean
    have hbody := Literal.newline_not_mem_stringBody rest (List.map_eq_nil_iff.mp hknown)
    refine List.not_mem_cons_of_ne_of_not_mem (by decide) fun hmem => ?_
    rcases List.mem_append.mp hmem with hmem | hmem
    · exact hbody hmem
    · split at hmem
      · exact absurd (List.mem_singleton.mp hmem) (by decide)
      · cases hmem
  split
  · next spelling token hsign =>
    intro _ _
    exact Piece.newline_not_mem_signTable _ (List.mem_of_find?_eq_some hsign)
  · simp [Lexed.token?]

/-! ## What a place says of the text before it -/

/-- What a place says once these tokens and comments of the text have been read: where the line starts that
no comment hides, and whether a token stands on it. -/
structure Place.Follows (text : List UInt8) (tokens : List (Spanned Token)) (comments : List Comment)
    (p : Place) : Prop where
  lineStart : p.lineStart = outerLineStart text comments p.offset
  tokenOnLine : p.tokenOnLine = true ↔ ∃ t ∈ tokens, p.lineStart < t.span.stop
  tokens : ∀ t ∈ tokens, t.span.stop ≤ p.offset
  comments : ∀ c ∈ comments, c.span.stop ≤ p.offset

namespace Place.Follows

variable {text front rest : List UInt8} {tokens : List (Spanned Token)} {comments : List Comment} {p : Place}

theorem origin : Place.origin.Follows text [] [] where
  lineStart := rfl
  tokenOnLine := by simp [Place.origin]
  tokens := nofun
  comments := nofun

/-- A byte that stands at the place ends a line if it is a line end, since no comment that has been read
covers it. -/
theorem outerLineStart_succ {b : UInt8} (h : p.Follows text tokens comments) (hb : text[p.offset]? = some b) :
    outerLineStart text comments (p.offset + 1) = if b = newline then p.offset + 1 else p.lineStart := by
  have hout : ¬∃ c ∈ comments, c.Covers p.offset := by
    rintro ⟨c, hc, hcovers⟩
    exact absurd (h.comments c hc) (Nat.not_le_of_lt hcovers.2)
  rw [h.lineStart]
  split
  · next hline => exact afterLast_succ_of ⟨by rw [hb, hline], hout⟩
  · next hline => exact afterLast_succ_of_not fun hp => hline (Option.some.inj (hb.symm.trans hp.1))

theorem skipBlanks (run : List UInt8) : ∀ {front : List UInt8} {p : Place}, p.Follows text tokens comments →
    text = front ++ (run ++ rest) → front.length = p.offset → (p.skipBlanks run).Follows text tokens comments := by
  induction run with
  | nil => exact fun h _ _ => h
  | cons b run ih =>
    intro front p h htext hfront
    have hb : text[p.offset]? = some b := by
      rw [htext, ← hfront, List.getElem?_append_right (Nat.le_refl _), Nat.sub_self]
      rfl
    have hstart := h.outerLineStart_succ hb
    have htext' : text = (front ++ [b]) ++ (run ++ rest) := by
      rw [htext, List.append_assoc]
      rfl
    have hfront' : (front ++ [b]).length = p.offset + 1 := by
      rw [List.length_append, hfront]
      rfl
    have htokens : ∀ t ∈ tokens, t.span.stop ≤ p.offset + 1 := fun t ht => (h.tokens t ht).trans (Nat.le_succ _)
    have hcomments : ∀ c ∈ comments, c.span.stop ≤ p.offset + 1 := fun c hc =>
      (h.comments c hc).trans (Nat.le_succ _)
    rw [Place.skipBlanks]
    split
    · next hline =>
      rw [if_pos hline] at hstart
      refine ih ⟨hstart.symm, ?_, htokens, hcomments⟩ htext' hfront'
      -- what has been read ends before the new line
      refine ⟨fun hno => absurd hno Bool.false_ne_true, ?_⟩
      rintro ⟨t, ht, hafter⟩
      exact absurd (h.tokens t ht) (Nat.not_le_of_lt (Nat.lt_of_succ_lt hafter))
    · next hline =>
      rw [if_neg hline] at hstart
      exact ih ⟨hstart.symm, h.tokenOnLine, htokens, hcomments⟩ htext' hfront'

/-- A part of a text, byte by byte. -/
theorem getElem?_part {bytes : List UInt8} {i : Nat} (htext : text = front ++ (bytes ++ rest))
    (hi : front.length ≤ i) (hi' : i < front.length + bytes.length) : text[i]? = bytes[i - front.length]? := by
  rw [htext, List.getElem?_append_right hi, List.getElem?_append_left (by omega)]

/-- After a token, which goes over no line end. -/
theorem token {bytes : List UInt8} (h : p.Follows text tokens comments) (value : Token)
    (htext : text = front ++ (bytes ++ rest)) (hfront : front.length = p.offset) (hne : bytes ≠ [])
    (hline : newline ∉ bytes) :
    Follows text (tokens ++ [⟨value, ⟨p.offset, p.offset + bytes.length⟩⟩]) comments
      { p with offset := p.offset + bytes.length, tokenOnLine := true } where
  lineStart := by
    refine h.lineStart.trans (afterLast_add fun i hi hi' hp => hline ?_).symm
    have hbyte := getElem?_part htext (hfront ▸ hi) (hfront ▸ hi')
    exact List.mem_of_getElem? (hbyte.symm.trans hp.1)
  tokenOnLine := by
    refine iff_of_true rfl ⟨_, List.mem_append_right _ (List.mem_singleton.mpr rfl), ?_⟩
    have hle : p.lineStart ≤ p.offset := h.lineStart ▸ afterLast_le
    have hpos := List.length_pos_iff.mpr hne
    simp only
    omega
  tokens := by
    intro t ht
    rcases List.mem_append.mp ht with ht | ht
    · exact (h.tokens t ht).trans (Nat.le_add_right _ _)
    · rw [List.mem_singleton.mp ht]
  comments := fun c hc => (h.comments c hc).trans (Nat.le_add_right _ _)

/-- A comment that starts later hides nothing in front of it. -/
theorem outerLineStart_append {more : List Comment} {offset : Nat} (h : ∀ c ∈ more, offset ≤ c.span.start) :
    outerLineStart text (comments ++ more) offset = outerLineStart text comments offset := by
  refine afterLast_congr fun i hi => and_congr_right fun _ => not_congr ?_
  refine ⟨fun ⟨c, hc, hcovers⟩ => ?_, fun ⟨c, hc, hcovers⟩ => ⟨c, List.mem_append_left _ hc, hcovers⟩⟩
  rcases List.mem_append.mp hc with hc | hc
  · exact ⟨c, hc, hcovers⟩
  · exact absurd (hcovers.1.trans_lt hi) (Nat.not_lt_of_le (h c hc))

/-- After a comment, whose line ends are hidden. -/
theorem comment {c : Comment} (h : p.Follows text tokens comments) (hstart : c.span.start = p.offset)
    (hstop : p.offset ≤ c.span.stop) : Follows text tokens (comments ++ [c]) { p with offset := c.span.stop } where
  lineStart := by
    have hbefore : outerLineStart text (comments ++ [c]) p.offset = outerLineStart text comments p.offset :=
      outerLineStart_append fun d hd => by rw [List.mem_singleton.mp hd, hstart]
    obtain ⟨k, hk⟩ := Nat.exists_eq_add_of_le hstop
    refine h.lineStart.trans (hbefore.symm.trans ?_)
    rw [outerLineStart, outerLineStart, hk]
    refine (afterLast_add fun i hi hi' hp => hp.2 ?_).symm
    exact ⟨c, List.mem_append_right _ (List.mem_singleton.mpr rfl), hstart ▸ hi, hk ▸ hi'⟩
  tokenOnLine := h.tokenOnLine
  tokens := fun t ht => (h.tokens t ht).trans hstop
  comments := by
    intro d hd
    rcases List.mem_append.mp hd with hd | hd
    · exact (h.comments d hd).trans hstop
    · rw [List.mem_singleton.mp hd]

end Place.Follows

namespace Lexed

theorem after_of_token? {piece : Piece} {t : Token} {place : Place} (h : token? place.offset piece = some t) :
    place.after piece = { place with offset := place.offset + piece.bytes.length, tokenOnLine := true } := by
  cases piece with
  | blank => cases h
  | lineComment => cases h
  | blockComment => cases h
  | _ => rfl

theorem after_of_isComment {piece : Piece} (h : piece.isComment = true) (place : Place) :
    place.after piece = { place with offset := place.offset + piece.bytes.length } := by
  cases piece with
  | lineComment => rfl
  | blockComment => rfl
  | _ => cases h

theorem le_after (place : Place) (piece : Piece) : place.offset ≤ (place.after piece).offset := by
  rw [offset_after]
  exact Nat.le_add_right _ _

/-- What is read lies at or after the place where reading starts. -/
theorem le_ofPieces (pieces : List Piece) : ∀ place : Place,
    (∀ t ∈ (ofPieces place pieces).tokens, place.offset ≤ t.span.stop) ∧
    ∀ c ∈ (ofPieces place pieces).comments, place.offset ≤ c.span.start := by
  induction pieces with
  | nil => exact fun place => ⟨fun t ht => by rw [List.mem_singleton.mp ht], nofun⟩
  | cons piece pieces ih =>
    intro place
    obtain ⟨htokens, hcomments⟩ := ih (place.after piece)
    have hle := le_after place piece
    refine ⟨fun t ht => ?_, fun c hc => ?_⟩
    · rcases List.mem_append.mp ht with ht | ht
      · obtain ⟨value, -, rfl⟩ := Option.map_eq_some_iff.mp (Option.mem_toList.mp ht)
        exact Nat.le_add_right _ _
      · exact hle.trans (htokens t ht)
    · rcases List.mem_append.mp hc with hc | hc
      · cases piece with
        | lineComment body => exact Option.some.inj (Option.mem_toList.mp hc) ▸ Nat.le_refl _
        | blockComment body closed => exact Option.some.inj (Option.mem_toList.mp hc) ▸ Nat.le_refl _
        | _ => cases hc
      · exact hle.trans (hcomments c hc)

/-- Each comment that is read says what the place where it starts does, of all tokens and comments of the
text. -/
theorem lines_cut {text : List UInt8} (rest : List UInt8) :
    ∀ {front : List UInt8} {place : Place} {tokens : List (Spanned Token)} {comments : List Comment},
      text = front ++ rest → front.length = place.offset → place.Follows text tokens comments →
      (ofPieces place (Piece.cut rest)).diagnostics = [] →
      ∀ c ∈ (ofPieces place (Piece.cut rest)).comments,
        c.lineStart = outerLineStart text (comments ++ (ofPieces place (Piece.cut rest)).comments) c.span.start ∧
        (c.trailing = true ↔
          TokenBetween (tokens ++ (ofPieces place (Piece.cut rest)).tokens) c.lineStart c.span.start) := by
  fun_induction Piece.cut rest with
  | case1 => exact fun _ _ _ _ _ hc => (List.not_mem_nil hc).elim
  | case2 b rest ih =>
    intro front place tokens comments htext hfront hplace hclean
    rw [ofPieces, List.append_eq_nil_iff] at hclean
    have hwhole := Piece.bytes_next b rest
    have hne := Piece.bytes_next_ne_nil b rest
    rw [← hwhole] at htext
    have htext' : text = (front ++ (Piece.next b rest).1.bytes) ++ (Piece.next b rest).2 := by
      rw [htext, List.append_assoc]
    have hfront' : (front ++ (Piece.next b rest).1.bytes).length = (place.after (Piece.next b rest).1).offset := by
      rw [List.length_append, hfront, offset_after]
    rw [ofPieces]
    rcases piece_cases hclean.1 with ⟨run, hrun⟩ | ⟨t, ht, hc⟩ | ⟨hcomment, ht, hc⟩
    · rw [hrun] at htext htext' hfront' hclean ⊢
      exact ih htext' hfront' (hplace.skipBlanks run htext hfront) hclean.2
    · have hline := Token.newline_not_mem_of_next hclean.1 ht
      have hafter := hplace.token t htext hfront hne hline
      rw [← after_of_token? ht] at hafter
      have hrest := ih htext' hfront' hafter hclean.2
      simp only [ht, hc]
      rwa [List.append_assoc] at hrest
    · have hpos := List.length_pos_iff.mpr hne
      obtain ⟨htokens, hcomments⟩ := le_ofPieces (Piece.cut (Piece.next b rest).2) (place.after (Piece.next b rest).1)
      rw [offset_after] at htokens hcomments
      simp only [ht, hc]
      refine List.forall_mem_cons.mpr ⟨⟨?_, ?_⟩, ?_⟩
      · refine hplace.lineStart.trans (Place.Follows.outerLineStart_append fun c hc => ?_).symm
        rcases List.mem_cons.mp hc with rfl | hc
        · exact Nat.le_refl _
        · exact (Nat.le_add_right _ _).trans (hcomments c hc)
      · refine hplace.tokenOnLine.trans ⟨?_, ?_⟩
        · rintro ⟨t, ht, hline⟩
          exact ⟨t, List.mem_append_left _ ht, hline, hplace.tokens t ht⟩
        · rintro ⟨t, ht, hline, hbefore⟩
          refine ⟨t, (List.mem_append.mp ht).resolve_right fun ht => ?_, hline⟩
          have hlater : place.offset + (Piece.next b rest).1.bytes.length ≤ place.offset :=
            (htokens t ht).trans hbefore
          omega
      · have hafter := hplace.comment (c := ⟨Utf8.decodeLossy (Piece.next b rest).1.bytes,
          place.spanOf (Piece.next b rest).1, place.tokenOnLine, place.lineStart⟩) rfl (Nat.le_add_right _ _)
        have hrest := ih htext' hfront' (after_of_isComment hcomment place ▸ hafter) hclean.2
        rwa [List.append_assoc] at hrest

/-- The comments of an accepted text, by the line ends that no comment hides. -/
theorem lines_ofSource {source : String} (h : (ofSource source).diagnostics = []) :
    ∀ c ∈ (ofSource source).comments,
      c.lineStart = outerLineStart (Utf8.encode source) (ofSource source).comments c.span.start ∧
      (c.trailing = true ↔ TokenBetween (ofSource source).tokens c.lineStart c.span.start) :=
  @lines_cut _ (Utf8.encode source) [] _ _ _ rfl rfl .origin h

/-- With the line ends in comments left out, a line starts where it did, unless it starts inside a comment. -/
theorem outerLineStart_eq_iff {text : List UInt8} {comments : List Comment} {offset : Nat} :
    outerLineStart text comments offset = lineStart text offset ↔
      ∀ d ∈ comments, ¬(d.span.start < lineStart text offset ∧ lineStart text offset ≤ d.span.stop) := by
  refine afterLast_and_eq_iff.trans ⟨fun h d hd hin => ?_, fun h i hi ⟨d, hd, hcovers⟩ => ?_⟩
  · obtain ⟨i, hi⟩ := Nat.exists_eq_succ_of_ne_zero (Nat.ne_of_gt (Nat.zero_lt_of_lt hin.1))
    rw [hi] at hin
    exact h i hi ⟨d, hd, Nat.le_of_lt_succ hin.1, hin.2⟩
  · refine h d hd ?_
    rw [show lineStart text offset = i + 1 from hi]
    exact ⟨Nat.lt_succ_of_le hcovers.1, hcovers.2⟩

/-- A comment of an accepted text is kept with the start of its line, as line ends outside comments make it,
and with whether a token stands between that start and the comment. The line is the one that the text has
just if that one does not start inside another comment. -/
theorem placed_comments {source : String} (h : (ofSource source).diagnostics = []) :
    ∀ c ∈ (ofSource source).comments,
      c.lineStart = outerLineStart (Utf8.encode source) (ofSource source).comments c.span.start ∧
      (c.trailing = true ↔ TokenBetween (ofSource source).tokens c.lineStart c.span.start) ∧
      (c.Placed (Utf8.encode source) (ofSource source).tokens ↔ ∀ d ∈ (ofSource source).comments,
        ¬(d.span.start < lineStart (Utf8.encode source) c.span.start ∧
          lineStart (Utf8.encode source) c.span.start ≤ d.span.stop)) := by
  intro c hc
  obtain ⟨hline, htrailing⟩ := lines_ofSource h c hc
  refine ⟨hline, htrailing, Iff.trans ⟨fun hplaced => ?_, fun hstart => ?_⟩ outerLineStart_eq_iff⟩
  · exact hline.symm.trans hplaced.lineStart
  · exact ⟨hline.trans hstart, htrailing⟩

/-- A comment before the code, a trailing one, and one that goes over two lines. -/
theorem placed_comments_three :
    let source := "// lead\nint x; // trail\n/* over\ntwo */"
    let last : Comment := ⟨"/* over\ntwo */", ⟨24, 38⟩, false, 24⟩
    (ofSource source).diagnostics = [] ∧ last ∈ (ofSource source).comments ∧
    last.Placed (Utf8.encode source) (ofSource source).tokens := by
  intro source last
  have hclean : (ofSource source).diagnostics = [] := by decide +kernel
  have hmem : last ∈ (ofSource source).comments := by decide +kernel
  refine ⟨hclean, hmem, (placed_comments hclean last hmem).2.2.mpr ?_⟩
  decide +kernel

/-- Behind a comment that goes over a line end, a comment on a new line is kept as a trailing one of the line
before. -/
theorem not_placed_after_comment :
    ¬∀ source : String, (ofSource source).diagnostics = [] → ∀ c ∈ (ofSource source).comments,
      c.Placed (Utf8.encode source) (ofSource source).tokens := by
  intro h
  let source := "a; /*\n*/ // c"
  let c : Comment := ⟨"// c", ⟨9, 13⟩, true, 0⟩
  have hplaced : c.Placed (Utf8.encode source) (ofSource source).tokens :=
    h source (by decide +kernel) c (by decide +kernel)
  have hline : lineStart (Utf8.encode source) 9 = 6 := by decide +kernel
  exact absurd (hplaced.lineStart.trans hline) (by decide)

end Lexed

end JavaFold
