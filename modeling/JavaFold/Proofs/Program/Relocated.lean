import JavaFold.Proofs.Program.Filled

/-!
# Comments keep their places

Once a filled layout has been read from its text, the same layout, with the places of the tokens that were
read, is filled with the comments that were read to the same items (`fillAll_relocate`). A comment in front
of a line lies between its first token and all tokens before; a comment at the end of a line is the first
one that lies after its semicolon, and no later one is on that line.
-/

namespace JavaFold

open Writer (endsLineOf)

namespace Segment

/-- Segments at the places of tokens that were read: an opening starts where its first token does, and an
ending stops where its semicolon does. -/
def relocate : List Segment → List (Spanned Token) → List Segment
  | [], _ => []
  | gap text :: ss, ts => gap text :: relocate ss ts
  | token t :: ss, ts => token t :: relocate ss ts.tail
  | opening indent start :: ss, ts =>
    opening indent ((ts.head?.map (·.span.start)).getD start) :: relocate ss ts
  | ending stop :: ss, ts => ending ((ts.head?.map (·.span.stop)).getD stop) :: relocate ss ts.tail
  | remaining :: ss, ts => remaining :: relocate ss ts

end Segment

namespace Place

/-- The line of a place starts before it. -/
def Proper (p : Place) : Prop := p.lineStart ≤ p.offset

/-- A place at or after another one: no earlier, and on no earlier line. -/
structure Onward (p q : Place) : Prop where
  offset : p.offset ≤ q.offset
  lineStart : p.lineStart ≤ q.lineStart
  proper : q.Proper

variable {p q r : Place}

theorem Onward.trans (h : p.Onward q) (h' : q.Onward r) : p.Onward r := by
  exact ⟨h.offset.trans h'.offset, h.lineStart.trans h'.lineStart, h'.proper⟩

/-- A place further on, on the same line. -/
theorem Proper.onward (h : p.Proper) (n : Nat) (tokenOnLine : Bool) :
    p.Onward ⟨p.offset + n, p.lineStart, tokenOnLine⟩ := by
  exact ⟨Nat.le_add_right _ _, Nat.le_refl _, Nat.le_trans h (Nat.le_add_right _ _)⟩

theorem onward_skipBlanks (run : List UInt8) : ∀ {p : Place}, p.Proper → p.Onward (p.skipBlanks run) := by
  induction run with
  | nil => exact fun h => ⟨Nat.le_refl _, Nat.le_refl _, h⟩
  | cons b run ih =>
    intro p h
    rw [skipBlanks]
    split
    · have hnext : p.Onward ⟨p.offset + 1, p.offset + 1, false⟩ :=
        ⟨Nat.le_succ _, Nat.le_trans h (Nat.le_succ _), Nat.le_refl _⟩
      exact hnext.trans (ih hnext.proper)
    · exact (h.onward 1 _).trans (ih (h.onward 1 _).proper)

theorem tokenOnLine_skipBlanks (run : List UInt8) : ∀ p : Place,
    (p.skipBlanks run).tokenOnLine = (p.tokenOnLine && !run.contains Ascii.newline) := by
  induction run with
  | nil => exact fun p => (Bool.and_true _).symm
  | cons b run ih =>
    intro p
    rw [skipBlanks]
    split
    · next hb => simp [ih, hb]
    · next hb => simp [ih, Ne.symm hb]

/-- The place where a line starts. -/
theorem proper_lineStart (n : Nat) : (Place.mk n n false).Proper := Nat.le_refl n

/-- A line end starts a line. -/
theorem skipBlanks_newline (p : Place) :
    p.skipBlanks (Utf8.encode "\n") = ⟨p.offset + 1, p.offset + 1, false⟩ := by
  rw [Utf8.encode_eq]
  rfl

end Place

namespace Lexed

/-- Comments are read at or after the place where reading starts. -/
theorem onward_comments : ∀ {xs : List Item}, (∀ x ∈ xs, x.Legal) → ∀ {place : Place}, place.Proper →
    ∀ c ∈ (ofPieces place (xs.map Item.piece)).comments,
      place.offset ≤ c.span.start ∧ place.lineStart ≤ c.lineStart
  | [], _, _, _ => nofun
  | x :: xs, h, place, hplace => by
    have ⟨hx, hxs⟩ := List.forall_mem_cons.mp h
    have hlater : ∀ q : Place, place.Onward q → ∀ c ∈ (ofPieces q (xs.map Item.piece)).comments,
        place.offset ≤ c.span.start ∧ place.lineStart ≤ c.lineStart := by
      intro q hq c hc
      obtain ⟨hoffset, hline⟩ := onward_comments hxs hq.proper c hc
      exact ⟨hq.offset.trans hoffset, hq.lineStart.trans hline⟩
    cases x with
    | blank text => exact hlater _ (Place.onward_skipBlanks _ hplace)
    | token t =>
      rw [List.map_cons, Item.piece, ofPieces_token hx]
      exact hlater _ (hplace.onward _ _)
    | comment text =>
      rw [List.map_cons, Item.piece, ofPieces_comment hx]
      refine List.forall_mem_cons.mpr ⟨⟨Nat.le_refl _, Nat.le_refl _⟩, ?_⟩
      exact hlater _ (hplace.onward _ _)

/-- Comments on lines of their own are read as such, before the place where what follows is read. -/
theorem ofPieces_ownLines {indent : String} (hindent : IsBlank indent) (xs : List Item) :
    ∀ {cs : List Comment}, (∀ c ∈ cs, IsComment c.text) → ∀ {place : Place}, place.Proper →
      place.tokenOnLine = false → ∃ place' cs', place.Onward place' ∧ place'.tokenOnLine = false ∧
        cs'.map (·.text) = cs.map (·.text) ∧
        (∀ c ∈ cs', c.trailing = false ∧ c.span.start < place'.offset) ∧
        ofPieces place ((Item.ownLines indent cs ++ xs).map Item.piece) =
          let rest := ofPieces place' (xs.map Item.piece)
          ⟨rest.tokens, cs' ++ rest.comments, rest.diagnostics⟩
  | [], _, place, hplace, hfresh =>
    ⟨place, [], ⟨Nat.le_refl _, Nat.le_refl _, hplace⟩, hfresh, rfl, nofun, rfl⟩
  | c :: cs, hcs, place, hplace, hfresh => by
    have ⟨hc, hcs⟩ := List.forall_mem_cons.mp hcs
    -- the place of the comment, and the one after its line end
    have hcomment := Place.onward_skipBlanks (Utf8.encode indent) hplace
    have hfresh' : (place.skipBlanks (Utf8.encode indent)).tokenOnLine = false := by
      rw [Place.tokenOnLine_skipBlanks, hfresh, Bool.false_and]
    generalize hp : place.skipBlanks (Utf8.encode indent) = p at hcomment hfresh'
    let stop := p.offset + (Utf8.encode c.text).length
    have hline : p.Onward ⟨stop + 1, stop + 1, false⟩ :=
      ⟨Nat.le_succ_of_le (Nat.le_add_right _ _), Nat.le_trans hcomment.proper
        (Nat.le_succ_of_le (Nat.le_add_right _ _)), Nat.le_refl _⟩
    obtain ⟨place', cs', hon, hfresh'', htexts, hplaces, hread⟩ :=
      ofPieces_ownLines hindent xs hcs hline.proper rfl
    refine ⟨place', ⟨c.text, ⟨p.offset, stop⟩, p.tokenOnLine, p.lineStart⟩ :: cs',
      (hcomment.trans hline).trans hon, hfresh'', congrArg (c.text :: ·) htexts, ?_, ?_⟩
    · refine List.forall_mem_cons.mpr ⟨⟨hfresh', ?_⟩, hplaces⟩
      exact Nat.lt_of_lt_of_le (Nat.lt_succ_of_le (Nat.le_add_right _ _)) hon.offset
    · change ofPieces place (.blank (Utf8.encode indent) :: .ofComment c.text ::
        .blank (Utf8.encode "\n") :: (Item.ownLines indent cs ++ xs).map Item.piece) = _
      rw [ofPieces_blank, hp, ofPieces_comment hc]
      dsimp only
      rw [ofPieces_blank, Place.skipBlanks_newline, hread]
      rfl

/-- A semicolon at the end of a line is read, and then what is on the next line. -/
theorem ofPieces_ending (place : Place) (xs : List Item) :
    ofPieces place ((.token .semicolon :: .blank "\n" :: xs).map Item.piece) =
      let line := place.offset + (Token.semicolon).piece.bytes.length + 1
      let rest := ofPieces ⟨line, line, false⟩ (xs.map Item.piece)
      ⟨⟨.semicolon, place.spanOf (Token.semicolon).piece⟩ :: rest.tokens, rest.comments, rest.diagnostics⟩ := by
  change ofPieces place ((Token.semicolon).piece :: .blank (Utf8.encode "\n") :: xs.map Item.piece) = _
  rw [ofPieces_token (t := .semicolon) trivial, ofPieces_blank, Place.skipBlanks_newline]

/-- The same with a comment between the semicolon and the line end. -/
theorem ofPieces_ending_comment {text : String} (h : IsComment text) (place : Place) (xs : List Item) :
    ofPieces place ((.token .semicolon :: .blank " " :: .comment text :: .blank "\n" :: xs).map Item.piece) =
      let start := place.offset + (Token.semicolon).piece.bytes.length + 1
      let stop := start + (Utf8.encode text).length
      let rest := ofPieces ⟨stop + 1, stop + 1, false⟩ (xs.map Item.piece)
      ⟨⟨.semicolon, place.spanOf (Token.semicolon).piece⟩ :: rest.tokens,
        ⟨text, ⟨start, stop⟩, true, place.lineStart⟩ :: rest.comments, rest.diagnostics⟩ := by
  have hspace : ∀ stop lineStart : Nat, (Place.mk stop lineStart true).skipBlanks (Utf8.encode " ") =
      ⟨stop + 1, lineStart, true⟩ := by
    intro stop lineStart
    rw [Utf8.encode_eq]
    rfl
  change ofPieces place ((Token.semicolon).piece :: .blank (Utf8.encode " ") :: .ofComment text ::
    .blank (Utf8.encode "\n") :: xs.map Item.piece) = _
  rw [ofPieces_token (t := .semicolon) trivial, ofPieces_blank, hspace, ofPieces_comment h]
  dsimp only
  rw [ofPieces_blank, Place.skipBlanks_newline]

end Lexed

namespace Segment

/-- Where a token comes first, it is read first. -/
theorem head?_tokens {ss : List Segment} {fresh : Bool} (h : StartsToken ss) (hs : Spaced fresh ss)
    (cs : List Comment) (place : Place) :
    (Lexed.ofPieces place ((fillAll ss cs).1.map Item.piece)).tokens.head?.map (·.span.start) =
      some place.offset := by
  cases ss with
  | nil => exact h.elim
  | cons s ss =>
    cases s with
    | token t =>
      change ((Lexed.ofPieces place (t.piece :: _)).tokens.head?.map (·.span.start)) = _
      rw [Lexed.ofPieces_token hs.1]
      rfl
    | ending stop => rfl
    | _ => exact h.elim

theorem ownLines_congr {indent : String} : ∀ {cs cs' : List Comment},
    cs.map (·.text) = cs'.map (·.text) → Item.ownLines indent cs = Item.ownLines indent cs'
  | [], [], _ => rfl
  | [], _ :: _, h => nomatch h
  | _ :: _, [], h => nomatch h
  | c :: cs, c' :: cs', h => by
    obtain ⟨hc, hcs⟩ := List.cons.inj h
    have htext : c.text = c'.text := hc
    change [.blank indent, .comment c.text, .blank "\n"] ++ Item.ownLines indent cs = _
    rw [htext, ownLines_congr hcs]
    rfl

/-- No comment of a later line is at the end of this one. -/
theorem fillEnd_none {stop : Nat} {cs : List Comment} (h : ∀ c ∈ cs, stop + 1 ≤ c.lineStart) :
    fillEnd stop cs = ([], cs) := by
  rcases fillEnd_cases stop cs with hnone | ⟨c, hc, hfind, -⟩
  · exact hnone
  · have hends := List.find?_some hfind
    rw [endsLineOf, Bool.and_eq_true, decide_eq_true_eq] at hends
    exact absurd (h c hc) (by omega)

/-- A comment after a semicolon is at the end of its line. -/
theorem fillEnd_cons {stop start last lineStart : Nat} {text : String} {cs : List Comment} (hpos : stop ≠ 0)
    (hstart : stop ≤ start) (hline : lineStart ≤ stop) :
    fillEnd stop (⟨text, ⟨start, last⟩, true, lineStart⟩ :: cs) = ([.blank " ", .comment text], cs) := by
  have hends : endsLineOf stop ⟨text, ⟨start, last⟩, true, lineStart⟩ = true := by
    simp [endsLineOf, hstart, hline]
  rw [fillEnd, if_neg hpos, List.find?_cons_of_pos hends, List.eraseP_cons_of_pos hends]

theorem filter_append {α : Type} {p : α → Bool} {xs ys : List α} (hxs : ∀ x ∈ xs, p x = true)
    (hys : ∀ y ∈ ys, p y = false) :
    (xs ++ ys).filter p = xs ∧ (xs ++ ys).filter (not ∘ p) = ys := by
  rw [List.filter_append, List.filter_append, List.filter_eq_self.mpr hxs,
    List.filter_eq_nil_iff.mpr fun y hy => by simp [hys y hy],
    List.filter_eq_nil_iff.mpr fun x hx => by simp [hxs x hx],
    List.filter_eq_self.mpr fun y hy => by simp [hys y hy], List.append_nil]
  exact ⟨rfl, rfl⟩

theorem contains_encode {text : String} (h : text.toList.contains '\n' = true) :
    (Utf8.encode text).contains Ascii.newline = true := by
  rw [List.contains_iff_mem] at h ⊢
  rw [Utf8.encode_eq]
  exact List.mem_flatMap.mpr ⟨'\n', h, List.mem_cons_self⟩

/-! ## One segment at a time -/

/-- Filled again with what is read from its text, a layout gives the same items. -/
def Refills (ss : List Segment) : Prop :=
  ∀ {fresh : Bool} {cs : List Comment} {place : Place}, Spaced fresh ss → (∀ c ∈ cs, IsComment c.text) →
    place.Proper → (fresh = true → place.tokenOnLine = false) →
      let xs := (fillAll ss cs).1
      let lexed := Lexed.ofPieces place (xs.map Item.piece)
      fillAll (relocate ss lexed.tokens) lexed.comments = (xs, [])

variable {ss : List Segment}

theorem Refills.gap (h : Refills ss) (text : String) : Refills (gap text :: ss) := by
  intro fresh cs place hs hcs hplace hfresh
  have hon := Place.onward_skipBlanks (Utf8.encode text) hplace
  have hfresh' : (fresh || text.toList.contains '\n') = true →
      (place.skipBlanks (Utf8.encode text)).tokenOnLine = false := by
    intro hnew
    rw [Place.tokenOnLine_skipBlanks]
    rcases Bool.or_eq_true_iff.mp hnew with hnew | hline
    · rw [hfresh hnew, Bool.false_and]
    · rw [contains_encode hline, Bool.not_true, Bool.and_false]
  have hstep : ∀ X : Lexed, fillAll (relocate ss X.tokens) X.comments = ((fillAll ss cs).1, []) →
      fillAll (relocate (.gap text :: ss) X.tokens) X.comments = (.blank text :: (fillAll ss cs).1, []) := by
    intro X hX
    rw [relocate, fillAll, fill, hX, List.singleton_append]
  exact hstep _ (h hs.2 hcs hon.proper hfresh')

theorem Refills.token (h : Refills ss) (t : Token) : Refills (token t :: ss) := by
  intro fresh cs place hs hcs hplace _
  have hrest := h hs.2.2 hcs (hplace.onward t.piece.bytes.length true).proper (by simp)
  dsimp only at hrest ⊢
  change fillAll (relocate (.token t :: ss) (Lexed.ofPieces place (t.piece :: _)).tokens)
    (Lexed.ofPieces place (t.piece :: _)).comments = _
  rw [Lexed.ofPieces_token hs.1, relocate, fillAll, fill]
  exact congrArg (fun r => ((.token t : Item) :: r.1, r.2)) hrest

/-- The comments on lines of their own are those that are read in front of the next token. -/
theorem Refills.opening (h : Refills ss) (indent : String) (start : Nat) :
    Refills (opening indent start :: ss) := by
  intro fresh cs place ⟨hnew, hindent, hstarts, hs⟩ hcs hplace hfresh
  generalize hbefore : cs.filter (fun c => !c.trailing && c.span.start < start) = before
  generalize hlater : cs.filter (not ∘ fun c => !c.trailing && c.span.start < start) = later
  have hbeforecs : ∀ c ∈ before, IsComment c.text := fun c hc =>
    hcs c (List.mem_filter.mp (hbefore ▸ hc)).1
  have hlatercs : ∀ c ∈ later, IsComment c.text := fun c hc =>
    hcs c (List.mem_filter.mp (hlater ▸ hc)).1
  have hitems : (fillAll (.opening indent start :: ss) cs).1 =
      Item.ownLines indent before ++ .blank indent :: (fillAll ss later).1 := by
    rw [fillAll, fill, List.partition_eq_filter_filter, hbefore, hlater, List.append_assoc]
    rfl
  obtain ⟨place', cs', hon, hfresh', htexts, hplaces, hread⟩ := Lexed.ofPieces_ownLines hindent
    (.blank indent :: (fillAll ss later).1) hbeforecs hplace (hfresh hnew)
  have hon' := Place.onward_skipBlanks (Utf8.encode indent) hon.proper
  have hfresh'' : (place'.skipBlanks (Utf8.encode indent)).tokenOnLine = false := by
    rw [Place.tokenOnLine_skipBlanks, hfresh', Bool.false_and]
  have hrest := h hs hlatercs hon'.proper fun _ => hfresh''
  have hhead := head?_tokens hstarts hs later (place'.skipBlanks (Utf8.encode indent))
  have hafter := Lexed.onward_comments (legal_fillAll hs hlatercs) hon'.proper
  dsimp only at hrest ⊢
  rw [hitems, hread]
  change fillAll (relocate _ (Lexed.ofPieces (place'.skipBlanks (Utf8.encode indent)) _).tokens)
    (cs' ++ (Lexed.ofPieces (place'.skipBlanks (Utf8.encode indent)) _).comments) = _
  generalize Lexed.ofPieces (place'.skipBlanks (Utf8.encode indent)) _ = X at hrest hhead hafter ⊢
  rw [relocate, hhead, fillAll, fill, List.partition_eq_filter_filter, Option.getD_some]
  -- what was read before the first token lies in front of it, and what is read later does not
  obtain ⟨hall, hnone⟩ := filter_append (p := fun c : Comment => !c.trailing &&
      decide (c.span.start < (place'.skipBlanks (Utf8.encode indent)).offset))
    (fun c hc => by
      obtain ⟨htrailing, hlt⟩ := hplaces c hc
      simp [htrailing, Nat.lt_of_lt_of_le hlt hon'.offset])
    (fun c hc => by simp [Nat.not_lt.mpr (hafter c hc).1])
  rw [hall, hnone, hrest, ownLines_congr htexts, List.append_assoc]
  rfl

theorem relocate_ending (stop : Nat) (place : Place) (ts : List (Spanned Token)) :
    relocate (ending stop :: ss) (⟨.semicolon, place.spanOf (Token.semicolon).piece⟩ :: ts) =
      ending (place.offset + (Token.semicolon).piece.bytes.length) :: relocate ss ts := rfl

/-- The comment at the end of a line is the first one that is read after the semicolon, if it is on that line. -/
theorem Refills.ending (h : Refills ss) (stop : Nat) : Refills (ending stop :: ss) := by
  intro fresh cs place hs hcs hplace _
  have hs : Spaced true ss := hs
  rcases fillEnd_cases stop cs with hnone | ⟨c, hc, -, hsome⟩
  · have hitems : (fillAll (.ending stop :: ss) cs).1 =
        .token .semicolon :: .blank "\n" :: (fillAll ss cs).1 := by
      rw [fillAll, fill, hnone]
      rfl
    have hproper := Place.proper_lineStart (place.offset + (Token.semicolon).piece.bytes.length + 1)
    have hrest := h hs hcs hproper fun _ => rfl
    have hafter := Lexed.onward_comments (legal_fillAll hs hcs) hproper
    dsimp only at hrest hafter ⊢
    rw [hitems, Lexed.ofPieces_ending, relocate_ending, fillAll, fill, fillEnd_none fun c hc => (hafter c hc).2, hrest]
    rfl
  · have hitems : (fillAll (.ending stop :: ss) cs).1 = .token .semicolon :: .blank " " ::
        .comment c.text :: .blank "\n" :: (fillAll ss (cs.eraseP (endsLineOf stop))).1 := by
      rw [fillAll, fill, hsome]
      rfl
    have hlatercs : ∀ d ∈ cs.eraseP (endsLineOf stop), IsComment d.text := fun d hd =>
      hcs d (List.mem_of_mem_eraseP hd)
    have hproper := Place.proper_lineStart
      (place.offset + (Token.semicolon).piece.bytes.length + 1 + (Utf8.encode c.text).length + 1)
    have hrest := h hs hlatercs hproper fun _ => rfl
    have hpos : place.offset + (Token.semicolon).piece.bytes.length ≠ 0 := Nat.succ_ne_zero _
    have hline := (hplace.onward (Token.semicolon).piece.bytes.length true).proper
    dsimp only at hrest ⊢
    rw [hitems, Lexed.ofPieces_ending_comment (hcs c hc), relocate_ending]
    dsimp only
    rw [fillAll, fill, fillEnd_cons hpos (Nat.le_succ _) hline, hrest]
    rfl

theorem refills_remaining : Refills (remaining :: ss) := by
  intro fresh cs place ⟨hnew, hnil⟩ hcs hplace hfresh
  subst hnil
  have hblank : IsBlank "" := fun c hc => absurd hc (by simp)
  obtain ⟨place', cs', -, -, htexts, -, hread⟩ :=
    Lexed.ofPieces_ownLines hblank [] hcs hplace (hfresh hnew)
  change fillAll [remaining] (Lexed.ofPieces place ((Item.ownLines "" cs ++ []).map Item.piece)).comments =
    (Item.ownLines "" cs ++ [], [])
  rw [hread]
  change (Item.ownLines "" (cs' ++ []) ++ [], []) = _
  rw [List.append_nil, List.append_nil, List.append_nil, ownLines_congr htexts]

/-- Filled again with what was read from its text, a layout gives the same items. -/
theorem fillAll_relocate (ss : List Segment) : Refills ss := by
  induction ss with
  | nil => exact fun _ _ _ _ => rfl
  | cons s ss ih =>
    cases s with
    | gap text => exact ih.gap text
    | token t => exact ih.token t
    | opening indent start => exact ih.opening indent start
    | ending stop => exact ih.ending stop
    | remaining => exact refills_remaining

end Segment

end JavaFold
