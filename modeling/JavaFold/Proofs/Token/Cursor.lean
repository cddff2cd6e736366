import JavaFold.Proofs.Program.Legal
import JavaFold.Token.Cursor

/-!
# What reading ensures

Reading goes on after a problem, so what it says about its result holds only if no problem has been
noted at its end. Since problems are never taken back, it holds of each part of the reading then.
`Ensures x c Q` states this of reading `x` from the cursor `c`: the cursor moves onward, and `Q` is true
of the result and the cursor after it unless there is a problem. `Ensures.bind` puts two readings
together; what the first one ensures is a premise of what the second one has to.
-/

namespace JavaFold

/-- Every name among the tokens is a word. -/
def Token.Legal : Token → Prop
  | .identifier name => IsWord name
  | _ => True

namespace Cursor

/-- Every name ahead is a word. -/
def Legal (c : Cursor) : Prop := ∀ t ∈ c.ahead, t.value.Legal

/-- A cursor that has moved on: tokens have been passed, and problems may have been noted. -/
structure Onward (c c' : Cursor) : Prop where
  ahead : c'.ahead <:+ c.ahead
  problems : c.problems <:+ c'.problems

namespace Onward

variable {c c' c'' : Cursor}

theorem refl (c : Cursor) : c.Onward c := by
  exact ⟨List.suffix_refl _, List.suffix_refl _⟩

theorem trans (h : c.Onward c') (h' : c'.Onward c'') : c.Onward c'' := by
  exact ⟨h'.ahead.trans h.ahead, h.problems.trans h'.problems⟩

theorem legal (h : c.Onward c') (hc : c.Legal) : c'.Legal := by
  intro t ht
  exact hc t (h.ahead.subset ht)

/-- Without a problem at the end there was none before. -/
theorem clean (h : c.Onward c') (hc : c'.problems = []) : c.problems = [] := by
  exact List.suffix_nil.mp (hc ▸ h.problems)

end Onward

theorem onward_note (c : Cursor) (p : Problem) (s : Span) : c.Onward (c.note p s) := by
  exact ⟨List.suffix_refl _, List.suffix_cons _ _⟩

theorem onward_advance (c : Cursor) : c.Onward c.advance := by
  unfold advance
  split
  · next t u rest h => exact ⟨⟨[t], by simp [h]⟩, List.suffix_refl _⟩
  · exact .refl c

theorem onward_skipToEnd (c : Cursor) : c.Onward c.skipToEnd := by
  exact ⟨List.dropWhile_suffix _, List.suffix_refl _⟩

/-- The last token ahead is the end of the file. -/
def Ends (c : Cursor) : Prop := ∃ front u, c.ahead = front ++ [u] ∧ u.value = .endOfFile

/-- A token other than the end of the file is not the last one. -/
theorem Ends.ahead {c : Cursor} {t : Token} (h : c.Ends) (ht : c.token = t) (hne : t ≠ .endOfFile) :
    c.ahead = ⟨t, c.here⟩ :: c.advance.ahead ∧ c.advance.passed = some c.here ∧
      c.advance.depth = c.depth ∧ c.advance.Ends := by
  obtain ⟨front, u, hahead, hu⟩ := h
  cases front with
  | nil =>
    rw [List.nil_append] at hahead
    rw [token, hahead] at ht
    exact absurd (ht.symm.trans hu) hne
  | cons x front =>
    obtain ⟨v, vs, hvs⟩ := List.exists_cons_of_ne_nil (List.append_ne_nil_of_right_ne_nil front (List.cons_ne_nil u []))
    rw [List.cons_append, hvs] at hahead
    have hadvance : c.advance.ahead = v :: vs ∧ c.advance.passed = some x.span ∧ c.advance.depth = c.depth := by
      unfold advance
      split
      · next t u rest h =>
        rw [hahead] at h
        cases h
        exact ⟨rfl, rfl, rfl⟩
      · next hno => exact absurd hahead (hno x v vs)
    have hx : x = ⟨t, c.here⟩ := by
      rw [← ht, token, here, hahead]
    refine ⟨?_, ?_, hadvance.2.2, front, u, ?_, hu⟩
    · rw [hahead, hadvance.1, hx]
    · rw [hadvance.2.1, hx]
    · rw [hadvance.1, hvs]

theorem legal_token {c : Cursor} (hc : c.Legal) : c.token.Legal := by
  unfold token
  split
  · trivial
  · next t rest h => exact hc t (h ▸ List.mem_cons_self)

end Cursor

namespace Parser

variable {α β : Type} {x : Parser α} {f : α → Parser β} {c : Cursor}
  {Q : α → Cursor → Prop} {R : β → Cursor → Prop}

/-- What reading ensures of its result and the cursor after it. -/
structure Ensures (x : Parser α) (c : Cursor) (Q : α → Cursor → Prop) : Prop where
  onward : c.Onward (x.run c).2
  post : (x.run c).2.problems = [] → Q (x.run c).1 (x.run c).2

namespace Ensures

theorem pure {a : α} (h : Q a c) : Ensures (Pure.pure a) c Q := by
  exact ⟨.refl c, fun _ => h⟩

theorem bind (hx : Ensures x c Q)
    (hf : ∀ a c', c.Onward c' → Ensures (f a) c' fun b c'' => Q a c' → R b c'') :
    Ensures (x >>= f) c R := by
  have h := hf (x.run c).1 (x.run c).2 hx.onward
  refine ⟨hx.onward.trans h.onward, fun hc => ?_⟩
  exact h.post hc (hx.post (h.onward.clean hc))

theorem imp {Q' : α → Cursor → Prop} (hx : Ensures x c Q) (h : ∀ a c', Q a c' → Q' a c') :
    Ensures x c Q' := by
  exact ⟨hx.onward, fun hc => h _ _ (hx.post hc)⟩

/-! Looking at the cursor, moving it by one token, and noting a problem, with what follows. -/

theorem get {f : Cursor → Parser β} (h : Ensures (f c) c R) :
    Ensures (MonadState.get >>= f) c R := by
  exact ⟨h.onward, h.post⟩

theorem here {f : Span → Parser β} (h : Ensures (f c.here) c R) :
    Ensures (Parser.here >>= f) c R := by
  exact ⟨h.onward, h.post⟩

theorem behind {f : Span → Parser β} (h : Ensures (f c.behind) c R) :
    Ensures (Parser.behind >>= f) c R := by
  exact ⟨h.onward, h.post⟩

theorem peek {f : Token → Parser β} (h : Ensures (f c.token) c R) :
    Ensures (Parser.peek >>= f) c R := by
  exact ⟨h.onward, h.post⟩

theorem modify {g : Cursor → Cursor} {f : Unit → Parser β} (on : c.Onward (g c))
    (h : Ensures (f ()) (g c) R) : Ensures (MonadState.modifyGet (fun s => ((), g s)) >>= f) c R := by
  exact ⟨on.trans h.onward, h.post⟩

theorem advance {f : Unit → Parser β} (h : Ensures (f ()) c.advance R) :
    Ensures (Parser.advance >>= f) c R := by
  exact ⟨c.onward_advance.trans h.onward, h.post⟩

/-- A token is passed in a case, and reading goes on in any case. -/
theorem mayAdvance {b : Prop} [Decidable b] {f : Unit → Parser β}
    (h : ∀ c', c.Onward c' → Ensures (f ()) c' R) :
    Ensures (if b then Parser.advance >>= f else f ()) c R := by
  split
  · exact .advance (h _ c.onward_advance)
  · exact h c (.refl c)

section

variable {note : Parser Unit} {p : Problem} {s : Span}

/-- Nothing is ensured of the result once a problem has been noted. -/
theorem noted {f : Unit → Parser β} (hnote : note.run c = ((), c.note p s))
    (h : Ensures (f ()) (c.note p s) fun _ _ => True) : Ensures (note >>= f) c R := by
  have hrun : (note >>= f).run c = (f ()).run (c.note p s) := by
    rw [StateT.run_bind, hnote]
    rfl
  refine ⟨hrun ▸ (c.onward_note p s).trans h.onward, fun clean => ?_⟩
  rw [hrun] at clean
  exact absurd (h.onward.clean clean) (List.cons_ne_nil _ _)

theorem report {f : Unit → Parser β} (h : Ensures (f ()) (c.note p c.here) fun _ _ => True) :
    Ensures (Parser.report p >>= f) c R := noted rfl h

theorem reportAt {f : Unit → Parser β} (h : Ensures (f ()) (c.note p s) fun _ _ => True) :
    Ensures (Parser.reportAt p s >>= f) c R := noted rfl h

/-- A condition is checked, and reading goes on in any case. -/
theorem check {b : Prop} [Decidable b] {f : Unit → Parser β}
    (hnote : note.run c = ((), c.note p s))
    (h : ∀ c', c.Onward c' → c'.ahead = c.ahead → (b → c' = c) → Ensures (f ()) c' fun a c'' => b → R a c'') :
    Ensures (if b then f () else note >>= f) c R := by
  split
  · next hb => exact (h c (.refl c) rfl fun _ => rfl).imp fun _ _ h' => h' hb
  · next hb =>
    have on := c.onward_note p s
    exact .noted hnote ((h _ on rfl fun h => absurd h hb).imp fun _ _ _ => trivial)

/-- Something is refused, and reading goes on in any case. -/
theorem refuse {b : Prop} [Decidable b] {f : Unit → Parser β}
    (hnote : note.run c = ((), c.note p s))
    (h : ∀ c', c.Onward c' → c'.ahead = c.ahead → (¬b → c' = c) → Ensures (f ()) c' fun a c'' => ¬b → R a c'') :
    Ensures (if b then note >>= f else f ()) c R := by
  split
  · next hb =>
    have on := c.onward_note p s
    exact .noted hnote ((h _ on rfl fun h => absurd hb h).imp fun _ _ _ => trivial)
  · next hb => exact (h c (.refl c) rfl fun _ => rfl).imp fun _ _ h' => h' hb

end

end Ensures

theorem ensures_advance (c : Cursor) : Ensures Parser.advance c fun _ c' => c' = c.advance := by
  exact ⟨c.onward_advance, fun _ => rfl⟩

theorem ensures_report (p : Problem) (c : Cursor) : Ensures (report p) c fun _ _ => False := by
  refine ⟨c.onward_note p c.here, fun clean => ?_⟩
  exact absurd clean (List.cons_ne_nil _ _)

theorem ensures_reportAt (p : Problem) (s : Span) (c : Cursor) :
    Ensures (reportAt p s) c fun _ _ => False := by
  refine ⟨c.onward_note p s, fun clean => ?_⟩
  exact absurd clean (List.cons_ne_nil _ _)

/-! ## Reading a token -/

theorem ensures_eat (t : Token) (c : Cursor) :
    Ensures (eat t) c fun b c' => c' = (if b then c.advance else c) ∧ (b = true ↔ c.token = t) := by
  unfold eat
  refine .peek ?_
  split
  · next h => exact .advance (.pure ⟨rfl, by simp [h]⟩)
  · next h => exact .pure ⟨rfl, by simp [h]⟩

theorem ensures_expect (t : Token) (c : Cursor) :
    Ensures (expect t) c fun _ c' => c' = c.advance ∧ c.token = t := by
  unfold expect
  refine .bind (ensures_eat t c) fun b c' _ => ?_
  split
  · next hb => exact .pure fun h => by simpa [hb] using h
  · refine .peek ?_
    exact (ensures_report _ _).imp fun _ _ h => h.elim

theorem ensures_identifier_token (c : Cursor) : Ensures identifier c fun name c' =>
    c' = c.advance ∧ c.token = .identifier name.value ∧ name.span = c.here := by
  unfold identifier
  refine .peek ?_
  split
  · next name h => exact .here (.advance (.pure ⟨rfl, h, rfl⟩))
  · exact .report (.here (.pure trivial))

theorem ensures_identifier {c : Cursor} (hc : c.Legal) :
    Ensures identifier c fun name c' => c' = c.advance ∧ IsWord name.value := by
  refine (ensures_identifier_token c).imp fun name c' h => ⟨h.1, ?_⟩
  have legal := Cursor.legal_token hc
  rwa [h.2.1] at legal

theorem ensures_nameParts {limit : Nat} : ∀ {name : Spanned String} {c : Cursor}, c.Legal →
    Ensures (nameParts limit name) c fun path _ => IsPath name.value → IsPath path.value := by
  induction limit with
  | zero =>
    intro name c _
    exact .pure fun h => h
  | succ limit ih =>
    intro name c hc
    unfold nameParts
    refine .get ?_
    split
    · next s part span rest h =>
      have hpart : IsWord part := hc ⟨.identifier part, span⟩ (by simp [h])
      have hc' := (c.onward_advance.trans c.advance.onward_advance).legal hc
      exact .advance (.advance ((ih hc').imp fun _ _ h' hname => h' (hname.append hpart)))
    · exact .pure fun h => h

theorem ensures_dottedName {c : Cursor} (hc : c.Legal) :
    Ensures dottedName c fun name _ => IsPath name.value := by
  unfold dottedName
  refine .bind (ensures_identifier hc) fun first c' on => .get ?_
  exact (ensures_nameParts (on.legal hc)).imp fun _ _ h hfirst => h hfirst.2.isPath

/-! ## Nesting -/

theorem ensures_enterNesting (c : Cursor) : Ensures enterNesting c fun b c' =>
    b = true ∧ c' = { c with depth := c.depth + 1 } ∧ c.depth < Problem.nestingLimit := by
  unfold enterNesting
  refine .modify ⟨List.suffix_refl _, List.suffix_refl _⟩ (.get ?_)
  split
  · next hdepth => exact .pure ⟨rfl, rfl, hdepth⟩
  · exact .report (.modify (Cursor.onward_skipToEnd _) (.pure trivial))

theorem ensures_leaveNesting (c : Cursor) :
    Ensures leaveNesting c fun _ c' => c' = { c with depth := c.depth - 1 } := by
  exact ⟨⟨List.suffix_refl _, List.suffix_refl _⟩, fun _ => rfl⟩

end Parser

end JavaFold
