import JavaFold.Proofs.Token.Tiling

/-!
# Where the problems of a text are

The problems that are found when a text is cut into tokens lie within the text. The one exception is a backslash in a
string that is the last byte of the text: the escape that is pointed at has two bytes, the second of which is behind
the text (`Lexed.within_of_mem_diagnostics`, `Lexed.escapeAtEnd_mem_diagnostics`).
-/

namespace JavaFold

open Ascii

namespace Piece

/-- The body of a string ends with a backslash that has nothing to escape. -/
def opensEscape : List UInt8 → Bool
  | [] => false
  | b :: rest =>
    if b = backslash then
      match rest with
      | [] => true
      | _ :: rest => opensEscape rest
    else opensEscape rest

/-- The piece is a string without an end whose last byte is a backslash that has nothing to escape. -/
def endsInEscape : Piece → Bool
  | quoted body false => opensEscape body
  | _ => false

/-- What ends with such a backslash is the end of the text. -/
theorem rest_of_opensEscape (text : List UInt8) (h : opensEscape (stringBody text).body = true) :
    (stringBody text).rest = [] := by
  fun_induction stringBody text with
  | case1 => cases h
  | case2 => cases h
  | case3 => cases h
  | case4 => rfl
  | case5 _ _ c rest ih => exact ih h
  | case6 b rest _ _ hb ih =>
    rw [Enclosed.push, opensEscape.eq_def] at h
    dsimp only at h
    rw [if_neg hb] at h
    exact ih h

theorem rest_of_endsInEscape {b : UInt8} {rest : List UInt8} (h : (next b rest).1.endsInEscape = true) :
    (next b rest).2 = [] := by
  revert h
  unfold next
  split
  · exact nofun
  split
  · exact nofun
  split
  · exact nofun
  split
  · exact nofun
  split
  · exact nofun
  split
  · intro h
    refine rest_of_opensEscape rest ?_
    dsimp only at h
    cases hclosed : (stringBody rest).closed with
    | false => rwa [hclosed] at h
    | true =>
      rw [hclosed] at h
      cases h
  split
  · exact nofun
  · exact nofun

end Piece

/-- A text ends in a string whose last byte is a backslash that has nothing to escape. -/
def EndsInEscape (text : List UInt8) : Prop := (Piece.cut text).getLast?.any Piece.endsInEscape = true

instance (text : List UInt8) : Decidable (EndsInEscape text) := inferInstanceAs (Decidable (_ = true))

/-- A span of a text of `n` bytes. -/
def Span.Within (n : Nat) (s : Span) : Prop := s.start ≤ s.stop ∧ s.stop ≤ n

/-- An escape whose backslash is the last byte of a text of `n` bytes. -/
def Diagnostic.escapeAtEnd (n : Nat) : Diagnostic := ⟨.unknownEscape, ⟨n - 1, n + 1⟩⟩

namespace Lexed

open Piece

theorem opensEscape_cons {b : UInt8} (hb : b ≠ backslash) (rest : List UInt8) :
    opensEscape (b :: rest) = opensEscape rest := by
  rw [opensEscape.eq_def]
  exact if_neg hb

/-- A backslash in a string that writes nothing has a byte after it, unless it is the last byte. -/
theorem unknown_of_unescape {offset stop : Nat} {body : List UInt8} (h : offset + body.length = stop) :
    ∀ o ∈ (unescape offset body).2, o + 2 ≤ stop ∨ opensEscape body = true ∧ o + 1 = stop := by
  fun_induction unescape offset body with
  | case1 => exact List.forall_mem_nil _
  | case2 offset => exact List.forall_mem_singleton.mpr (.inr ⟨rfl, h⟩)
  | case3 offset c rest bytes unknown hrest value _ ih =>
    rw [hrest] at ih
    rw [List.length_cons, List.length_cons] at h
    exact ih (by omega)
  | case4 offset c rest bytes unknown hrest _ ih =>
    rw [hrest] at ih
    rw [List.length_cons, List.length_cons] at h
    exact List.forall_mem_cons.mpr ⟨.inl (by omega), ih (by omega)⟩
  | case5 offset b rest hb bytes unknown hrest ih =>
    rw [hrest] at ih
    rw [List.length_cons] at h
    rw [opensEscape_cons hb]
    exact ih (by omega)

/-- A backslash that has nothing to escape writes nothing. -/
theorem mem_unescape_of_opensEscape {offset o : Nat} {body : List UInt8} (h : offset + body.length = o + 1)
    (hopen : opensEscape body = true) : o ∈ (unescape offset body).2 := by
  fun_induction unescape offset body with
  | case1 => cases hopen
  | case2 offset => exact List.mem_singleton.mpr (Nat.succ.inj h).symm
  | case3 offset c rest bytes unknown hrest value _ ih =>
    rw [hrest] at ih
    rw [List.length_cons, List.length_cons] at h
    exact ih (by omega) hopen
  | case4 offset c rest bytes unknown hrest _ ih =>
    rw [hrest] at ih
    rw [List.length_cons, List.length_cons] at h
    exact List.mem_cons_of_mem _ (ih (by omega) hopen)
  | case5 offset b rest hb bytes unknown hrest ih =>
    rw [hrest] at ih
    rw [List.length_cons] at h
    rw [opensEscape_cons hb] at hopen
    exact ih (by omega) hopen

variable {place : Place} {piece : Piece} {stop : Nat}

/-- The problems of a piece are within the text up to its end, but for an escape that is cut off there. -/
theorem within_of_mem_problems (h : place.offset + piece.bytes.length = stop) : ∀ d ∈ problems place piece,
    d.span.Within stop ∨ piece.endsInEscape = true ∧ d = .escapeAtEnd stop := by
  have hspan (p : Problem) : (⟨p, place.spanOf piece⟩ : Diagnostic).span.Within stop :=
    ⟨Nat.le_add_right _ _, Nat.le_of_eq h⟩
  cases piece with
  | blockComment body closed =>
    cases closed with
    | true => exact List.forall_mem_nil _
    | false => exact List.forall_mem_singleton.mpr (.inl (hspan _))
  | number digits =>
    rw [problems]
    split
    · exact List.forall_mem_nil _
    · exact List.forall_mem_singleton.mpr (.inl (hspan _))
  | quoted body closed =>
    cases closed with
    | true =>
      refine List.forall_mem_append.mpr ⟨List.forall_mem_map.mpr fun o ho => .inl ⟨Nat.le_add_right _ _, ?_⟩,
        List.forall_mem_nil _⟩
      have hunknown := unknown_of_unescape rfl o ho
      simp only [bytes, if_true, List.length_cons, List.length_append, List.length_nil] at h
      dsimp only
      omega
    | false =>
      have hlength : place.offset + 1 + body.length = stop := by
        simp only [bytes, Bool.false_eq_true, if_false, List.length_cons, List.append_nil] at h
        omega
      refine List.forall_mem_append.mpr ⟨List.forall_mem_map.mpr fun o ho => ?_,
        List.forall_mem_singleton.mpr (.inl (hspan _))⟩
      rcases unknown_of_unescape hlength o ho with hin | ⟨hopen, rfl⟩
      · exact .inl ⟨Nat.le_add_right _ _, hin⟩
      · exact .inr ⟨hopen, rfl⟩
  | stray byte => exact List.forall_mem_singleton.mpr (.inl (hspan _))
  | _ => exact List.forall_mem_nil _

/-- A piece that ends in an escape has it among its problems. -/
theorem escapeAtEnd_mem_problems (h : place.offset + piece.bytes.length = stop) (hescape : piece.endsInEscape = true) :
    .escapeAtEnd stop ∈ problems place piece := by
  unfold endsInEscape at hescape
  split at hescape
  · next body =>
    simp only [bytes, Bool.false_eq_true, if_false, List.length_cons, List.append_nil] at h
    have hunknown : stop - 1 ∈ (unescape (place.offset + 1) body).2 :=
      mem_unescape_of_opensEscape (by omega) hescape
    refine List.mem_append_left _ (List.mem_map.mpr ⟨stop - 1, hunknown, ?_⟩)
    rw [Diagnostic.escapeAtEnd, (by omega : stop - 1 + 2 = stop + 1)]
  · cases hescape

theorem endsInEscape_cons (b : UInt8) (rest : List UInt8) :
    EndsInEscape (b :: rest) ↔ (next b rest).1.endsInEscape = true ∨ EndsInEscape (next b rest).2 := by
  unfold EndsInEscape
  rw [cut, List.getLast?_cons]
  cases hlast : (cut (next b rest).2).getLast? with
  | none => simp
  | some last =>
    have hnot : ¬(next b rest).1.endsInEscape = true := by
      intro h
      rw [rest_of_endsInEscape h, cut] at hlast
      cases hlast
    simp [hnot]

/-- The problems of the pieces of a text, the first of which starts at `place`. -/
theorem within_of_mem_diagnostics (text : List UInt8) : ∀ {place : Place} {stop : Nat},
    place.offset + text.length = stop → ∀ d ∈ (ofPieces place (cut text)).diagnostics,
      d.span.Within stop ∨ EndsInEscape text ∧ d = .escapeAtEnd stop := by
  fun_induction cut text with
  | case1 => exact fun _ => List.forall_mem_nil _
  | case2 b rest ih =>
    intro place stop hstop
    have hlength := congrArg List.length (bytes_next b rest)
    rw [List.length_append] at hlength
    refine List.forall_mem_append.mpr ⟨fun d hd => ?_, fun d hd => ?_⟩
    · rcases within_of_mem_problems rfl d hd with hin | ⟨hescape, rfl⟩
      · exact .inl ⟨hin.1, Nat.le_trans hin.2 (by omega)⟩
      · -- nothing comes after a piece that ends in an escape, so its end is that of the text
        rw [rest_of_endsInEscape hescape, List.length_nil] at hlength
        exact .inr ⟨(endsInEscape_cons b rest).mpr (.inl hescape), by rw [← hstop, ← hlength, Nat.add_zero]⟩
    · have hafter : (place.after (next b rest).1).offset + (next b rest).2.length = stop := by
        rw [offset_after]
        omega
      rcases ih hafter d hd with hin | ⟨hescape, rfl⟩
      · exact .inl hin
      · exact .inr ⟨(endsInEscape_cons b rest).mpr (.inr hescape), rfl⟩

theorem escapeAtEnd_mem_diagnostics (text : List UInt8) : ∀ {place : Place} {stop : Nat},
    place.offset + text.length = stop → EndsInEscape text →
      .escapeAtEnd stop ∈ (ofPieces place (cut text)).diagnostics := by
  fun_induction cut text with
  | case1 =>
    intro place stop _ hescape
    rw [EndsInEscape, cut] at hescape
    cases hescape
  | case2 b rest ih =>
    intro place stop hstop hescape
    have hlength := congrArg List.length (bytes_next b rest)
    rw [List.length_append] at hlength
    rcases (endsInEscape_cons b rest).mp hescape with hescape | hescape
    · rw [rest_of_endsInEscape hescape, List.length_nil, Nat.add_zero] at hlength
      exact List.mem_append_left _ (escapeAtEnd_mem_problems (by rw [hlength, hstop]) hescape)
    · have hafter : (place.after (next b rest).1).offset + (next b rest).2.length = stop := by
        rw [offset_after]
        omega
      exact List.mem_append_right _ (ih hafter hescape)

end Lexed

end JavaFold
