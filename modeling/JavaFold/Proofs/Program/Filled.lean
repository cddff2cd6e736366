import JavaFold.Proofs.Program.Spacing
import JavaFold.Proofs.Token.Scan

/-!
# Layouts with their comments

Filling a layout with comments gives the items of a text: tokens, comments and blanks. The text reads as
these items (`CompilationUnit.ofSource_text`), whatever the comments are: its tokens are those of the
layout, and every comment stands in it once. Filling the layout of the text that was read with the comments
that were read gives the same items again (`fillAll_relocate`), since each comment stands in front of the
same token, or after the same semicolon, as before.
-/

namespace JavaFold

open Writer (tab endsLineOf)

/-- A part of a text. -/
inductive Item
  | blank (text : String)
  | token (t : Token)
  | comment (text : String)
deriving DecidableEq, Repr

namespace Item

def text : Item → String
  | blank text | comment text => text
  | token t => t.spelling

/-- The item as a piece of text. -/
def piece : Item → Piece
  | blank text => .blank (Utf8.encode text)
  | token t => t.piece
  | comment text => .ofComment text

/-- What can be read again. -/
def Legal : Item → Prop
  | blank text => IsBlank text
  | token t => t.Written
  | comment text => IsComment text

/-- The tokens among items. -/
def tokens (xs : List Item) : List Token := xs.filterMap fun
  | token t => some t
  | _ => none

/-- The comments among items. -/
def comments (xs : List Item) : List String := xs.filterMap fun
  | comment text => some text
  | _ => none

/-- The text of items. -/
def join (xs : List Item) : String := .join (xs.map text)

/-- Comments on lines of their own. -/
def ownLines (indent : String) (cs : List Comment) : List Item :=
  cs.flatMap fun c => [blank indent, comment c.text, blank "\n"]

theorem join_append (xs ys : List Item) : join (xs ++ ys) = join xs ++ join ys := by
  rw [join, List.map_append, String.join_append, join, join]

theorem join_ownLines (indent : String) (cs : List Comment) :
    join (ownLines indent cs) = String.join (cs.map (Writer.ownLine indent)) := by
  induction cs with
  | nil => rfl
  | cons c cs ih =>
    have hcons : ownLines indent (c :: cs) =
        [blank indent, comment c.text, blank "\n"] ++ ownLines indent cs := rfl
    have hone : join [blank indent, comment c.text, blank "\n"] = Writer.ownLine indent c := by
      simp [join, text, Writer.ownLine, String.append_assoc]
    rw [hcons, join_append, ih, hone, List.map_cons, String.join_cons]

end Item

namespace Segment

/-- The comment at the end of a line, and the comments that are left. -/
def fillEnd (stop : Nat) (cs : List Comment) : List Item × List Comment :=
  if stop = 0 then ([], cs)
  else match cs.find? (endsLineOf stop) with
    | none => ([], cs)
    | some c => ([.blank " ", .comment c.text], cs.eraseP (endsLineOf stop))

theorem fillEnd_cases (stop : Nat) (cs : List Comment) : fillEnd stop cs = ([], cs) ∨
    ∃ c ∈ cs, cs.find? (endsLineOf stop) = some c ∧
      fillEnd stop cs = ([.blank " ", .comment c.text], cs.eraseP (endsLineOf stop)) := by
  unfold fillEnd
  split
  · exact .inl rfl
  · cases hc : cs.find? (endsLineOf stop) with
    | none => exact .inl rfl
    | some c => exact .inr ⟨c, List.mem_of_find?_eq_some hc, rfl, rfl⟩

/-- A segment with its comments, and the comments that are left. -/
def fill (cs : List Comment) : Segment → List Item × List Comment
  | gap text => ([.blank text], cs)
  | token t => ([.token t], cs)
  | opening indent start =>
    let parts := cs.partition fun c => !c.trailing && c.span.start < start
    (Item.ownLines indent parts.1 ++ [.blank indent], parts.2)
  | ending stop =>
    (.token .semicolon :: ((fillEnd stop cs).1 ++ [.blank "\n"]), (fillEnd stop cs).2)
  | remaining => (Item.ownLines "" cs, [])

/-- Segments with their comments, and the comments that are left. -/
def fillAll : List Segment → List Comment → List Item × List Comment
  | [], cs => ([], cs)
  | s :: ss, cs => ((s.fill cs).1 ++ (fillAll ss (s.fill cs).2).1, (fillAll ss (s.fill cs).2).2)

theorem fillAll_append (as bs : List Segment) (cs : List Comment) :
    fillAll (as ++ bs) cs =
      ((fillAll as cs).1 ++ (fillAll bs (fillAll as cs).2).1, (fillAll bs (fillAll as cs).2).2) := by
  induction as generalizing cs with
  | nil => rfl
  | cons s ss ih => rw [List.cons_append, fillAll, fillAll, ih, List.append_assoc]

theorem join_fillEnd (stop : Nat) (cs : List Comment) :
    (Writer.trailing stop).run cs = (Item.join (fillEnd stop cs).1, (fillEnd stop cs).2) := by
  change Writer.trailing stop cs = _
  unfold Writer.trailing fillEnd
  split
  · rfl
  · cases cs.find? (endsLineOf stop) with
    | none => rfl
    | some c => simp [Item.join, Item.text]

/-- The printer writes what a segment is filled to. -/
theorem run_write (s : Segment) (cs : List Comment) :
    s.write.run cs = (Item.join (s.fill cs).1, (s.fill cs).2) := by
  cases s with
  | gap text =>
    simp only [write, fill, Item.join, Item.text, StateT.run_pure, List.map_cons, List.map_nil, String.join_cons,
      String.join_nil, String.append_empty]
    rfl
  | token t =>
    simp only [write, fill, Item.join, Item.text, StateT.run_pure, List.map_cons, List.map_nil, String.join_cons,
      String.join_nil, String.append_empty]
    rfl
  | opening indent start =>
    have hjoin : ∀ xs, Item.join (xs ++ [.blank indent]) = Item.join xs ++ indent := by
      intro xs
      rw [Item.join_append]
      simp [Item.join, Item.text]
    rw [fill, hjoin, Item.join_ownLines]
    rfl
  | ending stop =>
    have hjoin : ∀ xs, Item.join (.token .semicolon :: (xs ++ [.blank "\n"])) =
        ";" ++ Item.join xs ++ "\n" := by
      intro xs
      simp [Item.join, Item.text, Token.spelling, String.append_assoc]
    have hend := join_fillEnd stop cs
    rw [fill, hjoin, write, StateT.run_bind, hend]
    rfl
  | remaining =>
    rw [fill, Item.join_ownLines]
    rfl

theorem run_writeAll (ss : List Segment) (cs : List Comment) :
    (writeAll ss).run cs = (Item.join (fillAll ss cs).1, (fillAll ss cs).2) := by
  induction ss generalizing cs with
  | nil => rfl
  | cons s ss ih =>
    have ih := ih (s.fill cs).2
    rw [writeAll_cons, StateT.run_bind, run_write, fillAll, Item.join_append]
    change (Item.join (s.fill cs).1 ++ ((writeAll ss).run (s.fill cs).2).1,
      ((writeAll ss).run (s.fill cs).2).2) = _
    rw [ih]

/-! ## What layouts are filled with -/

theorem mem_fill {s : Segment} {cs : List Comment} : ∀ c ∈ (s.fill cs).2, c ∈ cs := by
  intro c hc
  cases s with
  | gap text => exact hc
  | token t => exact hc
  | opening indent start =>
    rw [fill, List.partition_eq_filter_filter] at hc
    exact (List.mem_filter.mp hc).1
  | ending stop =>
    rw [fill] at hc
    rcases fillEnd_cases stop cs with hend | ⟨d, -, -, hend⟩
    · rwa [hend] at hc
    · rw [hend] at hc
      exact List.mem_of_mem_eraseP hc
  | remaining => cases hc

theorem mem_fillAll {ss : List Segment} {cs : List Comment} : ∀ c ∈ (fillAll ss cs).2, c ∈ cs := by
  induction ss generalizing cs with
  | nil => exact fun c hc => hc
  | cons s ss ih => exact fun c hc => mem_fill c (ih c hc)

/-- The tokens of a filled layout are those of the layout. -/
theorem tokens_fillAll (ss : List Segment) (cs : List Comment) :
    Item.tokens (fillAll ss cs).1 = tokens ss := by
  have hown : ∀ indent cs, Item.tokens (Item.ownLines indent cs) = [] := by
    intro indent cs
    induction cs with
    | nil => rfl
    | cons c cs ih => exact ih
  have happ : ∀ xs ys, Item.tokens (xs ++ ys) = Item.tokens xs ++ Item.tokens ys := fun xs ys =>
    List.filterMap_append
  induction ss generalizing cs with
  | nil => rfl
  | cons s ss ih =>
    rw [fillAll, happ, ih]
    cases s with
    | gap text => rfl
    | token t => rfl
    | opening indent start =>
      rw [fill, happ, hown]
      rfl
    | ending stop =>
      have hend : Item.tokens (fillEnd stop cs).1 = [] := by
        rcases fillEnd_cases stop cs with hend | ⟨c, -, -, hend⟩ <;>
        · rw [hend]
          rfl
      rw [fill, ← List.singleton_append, happ, happ, hend]
      rfl
    | remaining =>
      rw [fill, hown]
      rfl

/-- Filling a layout uses every comment once or leaves it. -/
theorem comments_fillAll (ss : List Segment) (cs : List Comment) :
    (Item.comments (fillAll ss cs).1 ++ (fillAll ss cs).2.map (·.text)).Perm (cs.map (·.text)) := by
  have hown : ∀ indent cs, Item.comments (Item.ownLines indent cs) = cs.map (·.text) := by
    intro indent cs
    induction cs with
    | nil => rfl
    | cons c cs ih => exact congrArg (c.text :: ·) ih
  have happ : ∀ xs ys, Item.comments (xs ++ ys) = Item.comments xs ++ Item.comments ys := fun xs ys =>
    List.filterMap_append
  have hone : ∀ s : Segment, ∀ cs : List Comment,
      (Item.comments (s.fill cs).1 ++ (s.fill cs).2.map (·.text)).Perm (cs.map (·.text)) := by
    intro s cs
    cases s with
    | gap text => exact .refl _
    | token t => exact .refl _
    | opening indent start =>
      have hnone : Item.comments [.blank indent] = [] := rfl
      rw [fill, happ, hown, hnone, List.append_nil, List.partition_eq_filter_filter, ← List.map_append]
      exact (List.filter_append_perm _ cs).map _
    | ending stop =>
      have hend : (Item.comments (fillEnd stop cs).1 ++ (fillEnd stop cs).2.map (·.text)).Perm
          (cs.map (·.text)) := by
        rcases fillEnd_cases stop cs with hend | ⟨c, -, hc, hend⟩
        · rw [hend]
          exact .refl _
        · obtain ⟨hp, as, bs, rfl, has⟩ := List.find?_eq_some_iff_append.mp hc
          rw [hend, List.eraseP_append_right _ (by simpa using has), List.eraseP_cons_of_pos hp]
          exact List.perm_middle.symm.map _
      have hcons : ∀ xs, Item.comments (.token .semicolon :: (xs ++ [.blank "\n"])) = Item.comments xs := by
        intro xs
        rw [← List.singleton_append, happ, happ]
        exact List.append_nil _
      rw [fill, hcons]
      exact hend
    | remaining =>
      rw [fill, hown, List.map_nil, List.append_nil]
  induction ss generalizing cs with
  | nil => exact .refl _
  | cons s ss ih =>
    rw [fillAll, happ, List.append_assoc]
    exact ((ih (s.fill cs).2).append_left _).trans (hone s cs)

end Segment

/-! ## Reading items -/

theorem Utf8.encode_ne_nil {text : String} (h : text ≠ "") : encode text ≠ [] := by
  intro hnil
  rw [encode_eq] at hnil
  cases htext : text.toList with
  | nil => exact h (String.toList_eq_nil_iff.mp htext)
  | cons c cs =>
    rw [htext, bytesOf_cons] at hnil
    exact absurd (List.append_eq_nil_iff.mp hnil).1 (charBytes_ne_nil c)

namespace Token

theorem encode_spelling_ne_nil {t : Token} (h : t.Written) : Utf8.encode t.spelling ≠ [] := by
  obtain ⟨word, rfl⟩ | ⟨name, hname, rfl⟩ | ⟨value, -, rfl⟩ | ⟨text, rfl⟩ | hs := cases_of_written h
  · obtain ⟨c, run, henc, -, -⟩ := Piece.exists_spell_keyword word
    rw [spelling, Piece.encode_eq_spell (Piece.ascii_keyword word), henc]
    exact List.cons_ne_nil _ _
  · obtain ⟨c, run, henc, -, -⟩ := hname.exists_encode
    rw [spelling, henc]
    exact List.cons_ne_nil _ _
  · rw [spelling, Ascii.encode_toString]
    exact fun hnil => Nat.toDigits_ne_nil (List.map_eq_nil_iff.mp hnil)
  · rw [← bytes_piece h]
    exact List.cons_ne_nil _ _
  · have hall : ∀ s ∈ Piece.signTable, s.1 ≠ [] := by decide
    rw [encode_of_isSign h hs]
    exact hall _ (mem_signTable h hs)

end Token

theorem IsBlank.encode {text : String} (h : IsBlank text) :
    ∀ b ∈ Utf8.encode text, Ascii.isBlank b = true := by
  intro b hb
  rw [Utf8.encode_eq] at hb
  obtain ⟨c, hc, hb⟩ := List.mem_flatMap.mp hb
  rcases h c hc with rfl | rfl
  · rw [List.mem_singleton.mp hb]
    rfl
  · rw [List.mem_singleton.mp hb]
    rfl

namespace Item

theorem bytes_piece {x : Item} (h : x.Legal) : x.piece.bytes = Utf8.encode x.text := by
  cases x with
  | blank text => rfl
  | token t => exact t.bytes_piece h
  | comment text => exact IsComment.bytes h

theorem encode_join : ∀ {xs : List Item}, (∀ x ∈ xs, x.Legal) →
    Utf8.encode (join xs) = (xs.map piece).flatMap Piece.bytes
  | [], _ => Utf8.encode_empty
  | x :: xs, h => by
    have ⟨hx, hxs⟩ := List.forall_mem_cons.mp h
    rw [join, List.map_cons, String.join_cons, Utf8.encode_append, List.map_cons, List.flatMap_cons,
      bytes_piece hx, ← encode_join hxs, join]

end Item

namespace Segment

theorem legal_ownLines {indent : String} (hindent : IsBlank indent) {cs : List Comment}
    (hcs : ∀ c ∈ cs, IsComment c.text) : ∀ x ∈ Item.ownLines indent cs, x.Legal := by
  intro x hx
  obtain ⟨c, hc, hx⟩ := List.mem_flatMap.mp hx
  simp only [List.mem_cons, List.not_mem_nil, or_false] at hx
  rcases hx with rfl | rfl | rfl
  · exact hindent
  · exact hcs c hc
  · exact fun c hc => .inr (List.mem_singleton.mp hc)

theorem legal_fillEnd {stop : Nat} {cs : List Comment} (hcs : ∀ c ∈ cs, IsComment c.text) :
    ∀ x ∈ (fillEnd stop cs).1, x.Legal := by
  rcases fillEnd_cases stop cs with hend | ⟨c, hc, -, hend⟩
  · rw [hend]
    exact fun x hx => absurd hx List.not_mem_nil
  · rw [hend]
    refine List.forall_mem_cons.mpr ⟨fun c hc => .inl (List.mem_singleton.mp hc), ?_⟩
    exact List.forall_mem_cons.mpr ⟨hcs c hc, nofun⟩

/-- Everything a layout is filled to can be read again. -/
theorem legal_fillAll {ss : List Segment} : ∀ {fresh : Bool} {cs : List Comment}, Spaced fresh ss →
    (∀ c ∈ cs, IsComment c.text) → ∀ x ∈ (fillAll ss cs).1, x.Legal := by
  induction ss with
  | nil => exact fun _ _ x hx => absurd hx List.not_mem_nil
  | cons s ss ih =>
    intro fresh cs hs hcs x hx
    have hcs' : ∀ c ∈ (s.fill cs).2, IsComment c.text := fun c hc => hcs c (mem_fill c hc)
    rcases List.mem_append.mp hx with hx | hx
    · cases s with
      | gap text => exact List.mem_singleton.mp hx ▸ hs.1
      | token t => exact List.mem_singleton.mp hx ▸ hs.1
      | opening indent start =>
        rw [fill, List.partition_eq_filter_filter] at hx
        rcases List.mem_append.mp hx with hx | hx
        · exact legal_ownLines hs.2.1 (fun c hc => hcs c (List.mem_filter.mp hc).1) x hx
        · exact List.mem_singleton.mp hx ▸ hs.2.1
      | ending stop =>
        rcases List.mem_cons.mp hx with rfl | hx
        · trivial
        · rcases List.mem_append.mp hx with hx | hx
          · exact legal_fillEnd hcs x hx
          · exact List.mem_singleton.mp hx ▸ fun c hc => .inr (List.mem_singleton.mp hc)
      | remaining => exact legal_ownLines (fun c hc => absurd hc (by simp)) hcs x hx
    · have hspaced : ∃ fresh, Spaced fresh ss := by
        cases s with
        | gap text => exact ⟨_, hs.2⟩
        | token t => exact ⟨_, hs.2.2⟩
        | opening indent start => exact ⟨_, hs.2.2.2⟩
        | ending stop => exact ⟨_, hs⟩
        | remaining => exact ⟨false, hs.2 ▸ trivial⟩
      obtain ⟨fresh, hspaced⟩ := hspaced
      exact ih hspaced hcs' x hx

/-- What the text of items starts with. -/
def Item.bytes (xs : List Item) : List UInt8 := (xs.map Item.piece).flatMap Piece.bytes

theorem Item.bytes_cons (x : Item) (xs : List Item) :
    Item.bytes (x :: xs) = x.piece.bytes ++ Item.bytes xs := rfl

theorem exists_byte_token {t u : Token} (h : t.Apart u) (hu : u.Written) (xs : List Item) :
    ∃ b bs, Item.bytes (.token u :: xs) = b :: bs ∧ t.precedes b = true := by
  obtain ⟨b, bs, hb⟩ := List.exists_cons_of_ne_nil (u.encode_spelling_ne_nil hu)
  refine ⟨b, bs ++ Item.bytes xs, ?_, h b (by rw [hb]; rfl)⟩
  rw [Item.bytes_cons, Item.piece, u.bytes_piece hu, hb, List.cons_append]

theorem exists_byte_blank {text : String} (hblank : IsBlank text) (hne : text ≠ "") (t : Token)
    (xs : List Item) : ∃ b bs, Item.bytes (.blank text :: xs) = b :: bs ∧ t.precedes b = true := by
  obtain ⟨b, bs, hb⟩ := List.exists_cons_of_ne_nil (Utf8.encode_ne_nil hne)
  refine ⟨b, bs ++ Item.bytes xs, ?_, t.precedes_blank (hblank.encode b (hb ▸ List.mem_cons_self))⟩
  rw [← List.cons_append, ← hb]
  rfl

/-- The first byte after a token that may stand before segments may come after it. -/
theorem exists_byte {t : Token} {ss : List Segment} {fresh : Bool} (ht : t.Before ss) (hs : Spaced fresh ss)
    (cs : List Comment) : ∃ b bs, Item.bytes (fillAll ss cs).1 = b :: bs ∧ t.precedes b = true := by
  cases ss with
  | nil => exact ht.elim
  | cons s ss =>
    cases s with
    | gap text => exact exists_byte_blank hs.1 ht t _
    | token u => exact exists_byte_token ht hs.1 _
    | ending stop => exact exists_byte_token ht trivial _
    | opening indent start => exact ht.elim
    | remaining => exact ht.elim

theorem isBlank_newline : IsBlank "\n" := fun _ hc => .inr (List.mem_singleton.mp hc)

theorem scans_token {t : Token} (ht : t.Written) {xs : List Item}
    (h : ∃ b bs, Item.bytes xs = b :: bs ∧ t.precedes b = true) (hxs : Piece.Scans (xs.map Item.piece)) :
    Piece.Scans ((Item.token t :: xs).map Item.piece) := by
  obtain ⟨b, bs, hb, hprecedes⟩ := h
  refine Piece.scans_cons (t.stands_piece ht fun c hc => ?_) hxs (t.piece_ne_blank ht)
  rw [show (xs.map Item.piece).flatMap Piece.bytes = b :: bs from hb] at hc
  cases hc
  exact hprecedes

/-- A comment in front of a line end. -/
theorem scans_comment {text : String} (h : IsComment text) {xs : List Item}
    (hxs : Piece.Scans (xs.map Item.piece)) :
    Piece.Scans ((Item.comment text :: .blank "\n" :: xs).map Item.piece) := by
  have hnewline : Utf8.encode "\n" = [Ascii.newline] := by
    rw [Utf8.encode_eq]
    rfl
  refine Piece.scans_cons (h.stands _ fun b hb => ?_) ⟨isBlank_newline.encode, hxs⟩ fun run hrun => ?_
  · rw [List.map_cons, List.flatMap_cons, Item.piece, Piece.bytes, hnewline] at hb
    exact (Option.some.inj hb).symm
  · have hcomment := h.isComment
    rw [show Piece.ofComment text = .blank run from hrun] at hcomment
    cases hcomment

theorem scans_ownLines {indent : String} (hindent : IsBlank indent) {cs : List Comment}
    (hcs : ∀ c ∈ cs, IsComment c.text) {xs : List Item} (hxs : Piece.Scans (xs.map Item.piece)) :
    Piece.Scans ((Item.ownLines indent cs ++ xs).map Item.piece) := by
  induction cs with
  | nil => exact hxs
  | cons c cs ih =>
    have ⟨hc, hcs⟩ := List.forall_mem_cons.mp hcs
    exact ⟨hindent.encode, scans_comment hc (ih hcs)⟩

/-- The pieces of a filled layout end where the next ones begin. -/
theorem scans_fillAll {ss : List Segment} : ∀ {fresh : Bool} {cs : List Comment}, Spaced fresh ss →
    (∀ c ∈ cs, IsComment c.text) → Piece.Scans ((fillAll ss cs).1.map Item.piece) := by
  induction ss with
  | nil => exact fun _ _ => trivial
  | cons s ss ih =>
    intro fresh cs hs hcs
    have hcs' : ∀ c ∈ (s.fill cs).2, IsComment c.text := fun c hc => hcs c (mem_fill c hc)
    rw [fillAll]
    cases s with
    | gap text => exact ⟨hs.1.encode, ih hs.2 hcs'⟩
    | token t => exact scans_token hs.1 (exists_byte hs.2.1 hs.2.2 _) (ih hs.2.2 hcs')
    | opening indent start =>
      rw [fill, List.partition_eq_filter_filter, List.append_assoc]
      refine scans_ownLines hs.2.1 (fun c hc => hcs c (List.mem_filter.mp hc).1) ⟨hs.2.1.encode, ?_⟩
      have hrest := ih hs.2.2.2 hcs'
      rwa [fill, List.partition_eq_filter_filter] at hrest
    | ending stop =>
      have hrest := ih hs hcs'
      change Piece.Scans ((Item.token .semicolon ::
        ((fillEnd stop cs).1 ++ [.blank "\n"] ++ (fillAll ss (fillEnd stop cs).2).1)).map Item.piece)
      have hsemicolon : (Token.semicolon).Written := trivial
      have hline := And.intro isBlank_newline.encode (@ih _ (fillEnd stop cs).2 hs hcs')
      rw [List.append_assoc]
      rcases fillEnd_cases stop cs with hend | ⟨c, hc, -, hend⟩
      · rw [hend] at hline ⊢
        exact scans_token hsemicolon (exists_byte_blank isBlank_newline (by decide) _ _) hline
      · have hspace : IsBlank " " := fun c hc => .inl (List.mem_singleton.mp hc)
        rw [hend] at hline ⊢
        refine scans_token hsemicolon (exists_byte_blank hspace (by decide) _ _) ⟨hspace.encode, ?_⟩
        exact scans_comment (hcs c hc) hline.2
    | remaining =>
      obtain ⟨-, rfl⟩ := hs
      exact scans_ownLines (fun c hc => absurd hc (by simp)) hcs trivial

end Segment

namespace Lexed

/-- A comment is read with the place where it stands. -/
theorem ofPieces_comment {text : String} (h : IsComment text) (place : Place) (ps : List Piece) :
    ofPieces place (.ofComment text :: ps) =
      let stop := place.offset + (Utf8.encode text).length
      let rest := ofPieces { place with offset := stop } ps
      ⟨rest.tokens, ⟨text, ⟨place.offset, stop⟩, place.tokenOnLine, place.lineStart⟩ :: rest.comments,
        rest.diagnostics⟩ := by
  have htext : Utf8.decodeLossy (Utf8.encode text) = text := by
    rw [Utf8.encode_eq, Utf8.decodeLossy_bytesOf, String.ofList_toList]
  have hkind := h.isComment
  have hread : token? place.offset (.ofComment text) = none ∧ problems place (.ofComment text) = [] ∧
      comment? place (.ofComment text) = some ⟨Utf8.decodeLossy (Piece.ofComment text).bytes,
        place.spanOf (.ofComment text), place.tokenOnLine, place.lineStart⟩ ∧
      place.after (.ofComment text) =
        { place with offset := place.offset + (Piece.ofComment text).bytes.length } := by
    cases hp : Piece.ofComment text with
    | lineComment body => exact ⟨rfl, rfl, rfl, rfl⟩
    | blockComment body closed =>
      rw [hp] at hkind
      cases closed with
      | false => cases hkind
      | true => exact ⟨rfl, rfl, rfl, rfl⟩
    | _ =>
      rw [hp] at hkind
      cases hkind
  obtain ⟨htoken, hproblems, hcomment, hafter⟩ := hread
  rw [ofPieces, htoken, hproblems, hcomment, hafter, Place.spanOf, h.bytes, htext]
  rfl

/-- Items are read as they are: their tokens, their comments, and no problem. -/
theorem ofPieces_items : ∀ {xs : List Item}, (∀ x ∈ xs, x.Legal) → ∀ place : Place,
    let lexed := ofPieces place (xs.map Item.piece)
    lexed.tokens.map (·.value) = Item.tokens xs ++ [.endOfFile] ∧
      lexed.comments.map (·.text) = Item.comments xs ∧ lexed.diagnostics = []
  | [], _, _ => ⟨rfl, rfl, rfl⟩
  | x :: xs, h, place => by
    have ⟨hx, hxs⟩ := List.forall_mem_cons.mp h
    cases x with
    | blank text => exact ofPieces_items hxs _
    | token t =>
      obtain ⟨htokens, hcomments, hclean⟩ := ofPieces_items hxs
        ⟨place.offset + t.piece.bytes.length, place.lineStart, true⟩
      rw [List.map_cons, Item.piece, ofPieces_token hx]
      exact ⟨congrArg (t :: ·) htokens, hcomments, hclean⟩
    | comment text =>
      obtain ⟨htokens, hcomments, hclean⟩ := ofPieces_items hxs
        { place with offset := place.offset + (Utf8.encode text).length }
      rw [List.map_cons, Item.piece, ofPieces_comment hx]
      exact ⟨htokens, congrArg (text :: ·) hcomments, hclean⟩

end Lexed

/-! ## The text of a program -/

/-- A text does not end with a line end if its bytes do not. -/
theorem Utf8.exists_last {text : String} (hne : encode text ≠ [])
    (h : ∀ b ∈ (encode text).getLast?, b ≠ Ascii.newline) :
    ∃ front c, text.toList = front ++ [c] ∧ c ≠ '\n' := by
  rw [encode_eq] at hne h
  rcases List.eq_nil_or_concat text.toList with hnil | ⟨front, c, hlist⟩
  · rw [hnil] at hne
    exact absurd rfl hne
  · rw [List.concat_eq_append] at hlist
    refine ⟨front, c, hlist, ?_⟩
    rintro rfl
    rw [hlist, bytesOf_append] at h
    exact h Ascii.newline (List.getLast?_concat ..) rfl

/-- A text with one line end at its end stays as it is. -/
theorem Writer.endLine_append {text : String} (h : ∃ front c, text.toList = front ++ [c] ∧ c ≠ '\n') :
    endLine (text ++ "\n") = text ++ "\n" := by
  obtain ⟨front, c, htext, hc⟩ := h
  rw [endLine, String.toList_append, htext]
  have hdrop : (front ++ [c] ++ "\n".toList).reverse.dropWhile (· == '\n') = (front ++ [c]).reverse := by
    rw [List.reverse_append]
    refine (List.dropWhile_cons_of_pos rfl).trans ?_
    rw [List.reverse_append]
    exact List.dropWhile_cons_of_neg (by simpa using hc)
  rw [hdrop, List.reverse_reverse, ← htext, String.ofList_toList]

/-- The last class ends with a brace on a line of its own. -/
theorem ClassDecl.exists_end : ∀ (c : ClassDecl) (cs : List ClassDecl), ∃ front,
    layouts (c :: cs) = front ++ [.token .rbrace, .gap "\n"]
  | c, [] => by
    refine ⟨.opening "" c.span.start :: (Modifier.layouts c.modifiers ++
      [.token (.keyword .«class»), .gap " ", .token (.identifier c.name.value), .gap " ", .token .lbrace,
        .gap "\n"] ++ Member.layouts tab c.members), ?_⟩
    simp [layouts, layout]
  | c, d :: cs => by
    obtain ⟨front, hfront⟩ := exists_end d cs
    refine ⟨c.layout ++ .gap "\n" :: front, ?_⟩
    rw [layouts_cons_cons, hfront, List.append_assoc, List.cons_append]

namespace CompilationUnit

open Segment (fillAll fillAll_append mem_fillAll)

/-- The items of the text of a program with its comments. -/
def items (unit : CompilationUnit) (comments : List Comment) : List Item :=
  match (fillAll unit.layout comments).1 with
  | [] => [.blank "\n"]
  | x :: xs => x :: xs

theorem items_cases (unit : CompilationUnit) (comments : List Comment) :
    (fillAll unit.layout comments).1 = [] ∧ unit.items comments = [.blank "\n"] ∨
      unit.items comments = (fillAll unit.layout comments).1 := by
  unfold items
  split
  · next h => exact .inl ⟨h, rfl⟩
  · next h => exact .inr h.symm

/-- Unless nothing is written, the last thing written ends its line. -/
theorem exists_last_line {unit : CompilationUnit} {comments : List Comment}
    (hcs : ∀ c ∈ comments, IsComment c.text) :
    (fillAll unit.layout comments).1 = [] ∨
      ∃ front x, (fillAll unit.layout comments).1 = front ++ [x, .blank "\n"] ∧
        ∃ init c, x.text.toList = init ++ [c] ∧ c ≠ '\n' := by
  rw [layout, fillAll_append]
  have hleftcs : ∀ c ∈ (fillAll (ClassDecl.layouts unit.classes) comments).2, IsComment c.text :=
    fun c hc => hcs c (mem_fillAll c hc)
  change _ ++ (Item.ownLines "" _ ++ []) = [] ∨ ∃ front x, _ ++ (Item.ownLines "" _ ++ []) = _ ∧ _
  rw [List.append_nil]
  rcases List.eq_nil_or_concat (fillAll (ClassDecl.layouts unit.classes) comments).2 with
    hleft | ⟨init, c, hleft⟩
  · rw [hleft]
    cases hclasses : unit.classes with
    | nil => exact .inl rfl
    | cons c cs =>
      obtain ⟨front, hfront⟩ := ClassDecl.exists_end c cs
      refine .inr ⟨(fillAll front comments).1, .token .rbrace, ?_, [], '\x7d', by decide, by decide⟩
      rw [hfront, fillAll_append]
      exact List.append_nil _
  · rw [List.concat_eq_append] at hleft
    have hc : IsComment c.text := hleftcs c (hleft ▸ List.mem_append_right _ List.mem_cons_self)
    refine .inr ⟨(fillAll (ClassDecl.layouts unit.classes) comments).1 ++
      (Item.ownLines "" init ++ [.blank ""]), .comment c.text, ?_, ?_⟩
    · rw [hleft, Item.ownLines, List.flatMap_append]
      simp [Item.ownLines]
    · refine Utf8.exists_last (fun hnil => ?_) (hc.bytes ▸ hc.last)
      have hcut := hc.cut
      rw [show Utf8.encode c.text = [] from hnil, Piece.cut] at hcut
      cases hcut

/-- A text is that of its items. -/
theorem text_eq_join (unit : CompilationUnit) {comments : List Comment}
    (hcs : ∀ c ∈ comments, IsComment c.text) : unit.text comments = Item.join (unit.items comments) := by
  rw [text_eq, Segment.run_writeAll]
  rcases @exists_last_line unit comments hcs with hnil | ⟨front, x, hlast, hx⟩
  · rw [items, hnil]
    rfl
  · have hitems : unit.items comments = front ++ [x, .blank "\n"] := by
      rw [items, hlast]
      cases front <;> rfl
    have hend : ∃ init c, (Item.join (front ++ [x])).toList = init ++ [c] ∧ c ≠ '\n' := by
      obtain ⟨init, c, htext, hc⟩ := hx
      refine ⟨(Item.join front).toList ++ init, c, ?_, hc⟩
      rw [Item.join_append, String.toList_append, Item.join, Item.join, List.map_cons, List.map_nil,
        String.join_cons, String.join_nil, String.append_empty, htext, List.append_assoc]
    rw [hitems, hlast, List.append_cons, Item.join_append]
    exact Writer.endLine_append hend

variable {unit : CompilationUnit} {comments : List Comment}

theorem legal_items (h : unit.Spelled) (hcs : ∀ c ∈ comments, IsComment c.text) :
    ∀ x ∈ unit.items comments, x.Legal := by
  rcases unit.items_cases comments with ⟨-, heq⟩ | heq
  · rw [heq]
    exact List.forall_mem_cons.mpr ⟨Segment.isBlank_newline, nofun⟩
  · rw [heq]
    exact Segment.legal_fillAll (spaced_layout h) hcs

/-- The text of a program reads as the items it was put together from. -/
theorem ofSource_text (h : unit.Spelled) (hcs : ∀ c ∈ comments, IsComment c.text) :
    Lexed.ofSource (unit.text comments) = .ofPieces .origin ((unit.items comments).map Item.piece) := by
  have hscans : Piece.Scans ((unit.items comments).map Item.piece) := by
    rcases unit.items_cases comments with ⟨-, heq⟩ | heq
    · rw [heq]
      exact ⟨Segment.isBlank_newline.encode, trivial⟩
    · rw [heq]
      exact Segment.scans_fillAll (spaced_layout h) hcs
  rw [Lexed.ofSource, text_eq_join unit hcs, Item.encode_join (legal_items h hcs), Lexed.ofPieces_cut hscans]

theorem tokens_items (unit : CompilationUnit) (comments : List Comment) :
    Item.tokens (unit.items comments) = Segment.tokens unit.layout := by
  have htokens := Segment.tokens_fillAll unit.layout comments
  rcases unit.items_cases comments with ⟨hnil, heq⟩ | heq
  · rw [hnil] at htokens
    rw [heq, ← htokens]
    rfl
  · rw [heq, htokens]

/-- Every comment stands in the text of a program once. -/
theorem comments_items (unit : CompilationUnit) (comments : List Comment) :
    (Item.comments (unit.items comments)).Perm (comments.map (·.text)) := by
  have hperm := Segment.comments_fillAll unit.layout comments
  have hleft : (fillAll unit.layout comments).2 = [] := by
    rw [layout, fillAll_append]
    rfl
  rw [hleft, List.map_nil, List.append_nil] at hperm
  rcases unit.items_cases comments with ⟨hnil, heq⟩ | heq
  · rw [hnil] at hperm
    rw [heq]
    exact hperm
  · rwa [heq]

end CompilationUnit

end JavaFold
