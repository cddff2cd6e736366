import JavaFold.Proofs.Program.Anchors
import JavaFold.Proofs.Program.Filled

/-!
# Where comments are printed

What is printed between two tokens is a gap. The gap in front of an opening ends with the comments on lines of their
own that have not been printed before, so with those that start after everything opened before
(`suffix_gap_opening`). The gap after an ending starts with a comment at the end of its line. An ending takes the first
such comment that is left; so the first comment after an ending is left for it if every ending before it on the line
finds a comment before that (`supplied_fillAll`, `prefix_gap_ending`).
-/

namespace JavaFold

open Writer (endsLineOf)

namespace Item

/-- What is written between the first `n` tokens and the next one. -/
def gap : Nat → List Item → List Item
  | _, [] => []
  | 0, .token _ :: _ => []
  | 0, .blank text :: xs => .blank text :: gap 0 xs
  | 0, .comment text :: xs => .comment text :: gap 0 xs
  | n + 1, .token _ :: xs => gap n xs
  | n + 1, .blank _ :: xs | n + 1, .comment _ :: xs => gap (n + 1) xs

/-- What has no tokens is in the gap. -/
theorem gap_zero_append {xs : List Item} (h : tokens xs = []) (ys : List Item) : gap 0 (xs ++ ys) = xs ++ gap 0 ys := by
  induction xs with
  | nil => rfl
  | cons x xs ih =>
    cases x with
    | token t => cases h
    | blank text => exact congrArg (blank text :: ·) (ih h)
    | comment text => exact congrArg (comment text :: ·) (ih h)

theorem suffix_gap_blank (n : Nat) (text : String) (xs : List Item) : gap n xs <:+ gap n (.blank text :: xs) := by
  cases n with
  | zero => exact List.suffix_cons _ _
  | succ n => exact List.suffix_rfl

theorem suffix_gap_comment (n : Nat) (text : String) (xs : List Item) : gap n xs <:+ gap n (.comment text :: xs) := by
  cases n with
  | zero => exact List.suffix_cons _ _
  | succ n => exact List.suffix_rfl

/-- The gap behind some tokens ends with what has no tokens. -/
theorem suffix_gap_append (xs ys : List Item) : gap 0 ys <:+ gap (tokens xs).length (xs ++ ys) := by
  induction xs with
  | nil => exact List.suffix_rfl
  | cons x xs ih =>
    cases x with
    | token t => exact ih
    | blank text => exact ih.trans (suffix_gap_blank _ text _)
    | comment text => exact ih.trans (suffix_gap_comment _ text _)

/-- The gap behind a token. -/
theorem gap_token (t : Token) (xs ys : List Item) : gap ((tokens xs).length + 1) (xs ++ token t :: ys) = gap 0 ys := by
  induction xs with
  | nil => rfl
  | cons x xs ih => cases x <;> exact ih

theorem tokens_append (xs ys : List Item) : tokens (xs ++ ys) = tokens xs ++ tokens ys := List.filterMap_append

theorem tokens_ownLines (indent : String) (cs : List Comment) : tokens (ownLines indent cs) = [] := by
  induction cs with
  | nil => rfl
  | cons c cs ih => exact ih

end Item

/-- A comment on a line of its own, when the first of the starts behind it is the one at `x`. -/
def Comment.leads (starts : List (Nat × Nat)) (x : Nat) (c : Comment) : Bool :=
  !c.trailing && c.span.start < x && starts.all fun p => p.1 ≤ c.span.start || x ≤ p.1

namespace Segment

variable {n : Nat} {ss : List Segment} {cs : List Comment}

/-- What comes after a part of a layout. -/
theorem spaced_of_append {pre : List Segment} {fresh : Bool} {s : Segment} {post : List Segment}
    (h : Spaced fresh (pre ++ s :: post)) : remaining ∉ pre ∧ ∃ fresh, Spaced fresh (s :: post) := by
  induction pre generalizing fresh with
  | nil => exact ⟨List.not_mem_nil, fresh, h⟩
  | cons p pre ih =>
    have hrest : p ≠ remaining ∧ ∃ fresh, Spaced fresh (pre ++ s :: post) := by
      cases p with
      | gap text => exact ⟨nofun, _, h.2⟩
      | token t => exact ⟨nofun, _, h.2.2⟩
      | opening indent start => exact ⟨nofun, _, h.2.2.2⟩
      | ending stop => exact ⟨nofun, true, h⟩
      | remaining => exact absurd h.2 (by simp)
    obtain ⟨hne, _, hrest⟩ := hrest
    obtain ⟨hpre, hlater⟩ := ih hrest
    exact ⟨fun hmem => (List.mem_cons.mp hmem).elim (fun heq => hne heq.symm) hpre, hlater⟩

/-- An anchor of a layout is that of one of its segments. -/
theorem exists_split_of_mem_anchors {a : Anchor} (h : a ∈ anchors n ss) :
    ∃ pre s post, ss = pre ++ s :: post ∧ a ∈ anchors (n + (tokens pre).length) [s] := by
  induction ss generalizing n with
  | nil => cases h
  | cons s ss ih =>
    rw [← List.singleton_append, anchors_append] at h
    rcases List.mem_append.mp h with ha | ha
    · exact ⟨[], s, ss, rfl, ha⟩
    · obtain ⟨pre, s', post, rfl, ha⟩ := ih ha
      refine ⟨s :: pre, s', post, rfl, ?_⟩
      rwa [← List.singleton_append, tokens_append, List.length_append, ← Nat.add_assoc]

/-- Where something starts, an opening stands. -/
theorem exists_opening {x m : Nat} {opensLine : Bool} (h : .start x m opensLine ∈ anchors n ss) :
    ∃ pre indent post, ss = pre ++ opening indent x :: post ∧ m = n + (tokens pre).length := by
  obtain ⟨pre, s, post, rfl, ha⟩ := exists_split_of_mem_anchors h
  cases s with
  | opening indent start =>
    obtain ⟨rfl, rfl, -⟩ := Anchor.start.inj (List.mem_singleton.mp ha)
    exact ⟨pre, indent, post, rfl, rfl⟩
  | ending stop => cases List.mem_singleton.mp ha
  | _ => cases ha

/-- Where something has stopped, an ending stands. -/
theorem exists_ending {y m : Nat} (h : .stop y m ∈ anchors n ss) :
    ∃ pre post, ss = pre ++ ending y :: post ∧ m = n + (tokens pre).length + 1 := by
  obtain ⟨pre, s, post, rfl, ha⟩ := exists_split_of_mem_anchors h
  cases s with
  | ending stop =>
    obtain ⟨rfl, rfl⟩ := Anchor.stop.inj (List.mem_singleton.mp ha)
    exact ⟨pre, post, rfl, rfl⟩
  | opening indent start => cases List.mem_singleton.mp ha
  | _ => cases ha

/-! ## Comments on lines of their own -/

theorem filter_eraseP {α : Type} {p q : α → Bool} (h : ∀ x, q x = true → p x = false) (xs : List α) :
    (xs.eraseP q).filter p = xs.filter p := by
  induction xs with
  | nil => rfl
  | cons x xs ih =>
    cases hx : q x with
    | true => rw [List.eraseP_cons_of_pos hx, List.filter_cons_of_neg (by simp [h x hx])]
    | false =>
      rw [List.eraseP_cons_of_neg (by simp [hx]), List.filter_cons, List.filter_cons, ih]

/-- The comments on lines of their own that are left start after everything that has been opened. -/
theorem filter_fillAll (hss : remaining ∉ ss) (cs : List Comment) (n : Nat) :
    (fillAll ss cs).2.filter (fun c => !c.trailing) =
      cs.filter fun c => !c.trailing && ((anchors n ss).filterMap (Anchor.start? false)).all (·.1 ≤ c.span.start) := by
  induction ss generalizing cs n with
  | nil => simp [fillAll, anchors]
  | cons s ss ih =>
    have hss' : remaining ∉ ss := fun hmem => hss (List.mem_cons_of_mem _ hmem)
    rw [fillAll]
    cases s with
    | gap text => exact ih hss' cs n
    | token t => exact ih hss' cs (n + 1)
    | opening indent start =>
      rw [ih hss' _ n, fill, List.partition_eq_filter_filter, List.filter_filter]
      refine List.filter_congr fun c _ => ?_
      have hall : ((anchors n (.opening indent start :: ss)).filterMap (Anchor.start? false)).all (·.1 ≤ c.span.start) =
          (decide (start ≤ c.span.start) &&
            ((anchors n ss).filterMap (Anchor.start? false)).all (·.1 ≤ c.span.start)) := rfl
      rw [hall, Function.comp_apply]
      generalize ((anchors n ss).filterMap (Anchor.start? false)).all (·.1 ≤ c.span.start) = later
      have hlate : (!decide (c.span.start < start)) = decide (start ≤ c.span.start) := by
        rw [← decide_not, decide_eq_decide, Nat.not_lt]
      cases htrailing : c.trailing with
      | true => rfl
      | false => rw [Bool.not_false, Bool.true_and, Bool.true_and, Bool.true_and, hlate, Bool.and_comm]
    | ending stop =>
      rw [ih hss' _ (n + 1)]
      change List.filter _ (fillEnd stop cs).2 = _
      rcases fillEnd_cases stop cs with hend | ⟨c, -, -, hend⟩
      · rw [hend]
        rfl
      · rw [hend]
        refine filter_eraseP (fun d hd => ?_) cs
        rw [endsLineOf, Bool.and_assoc, Bool.and_eq_true] at hd
        rw [hd.1]
        rfl
    | remaining => exact absurd List.mem_cons_self hss

theorem gap_zero_of_startsToken (h : StartsToken ss) (cs : List Comment) : Item.gap 0 (fillAll ss cs).1 = [] := by
  cases ss with
  | nil => exact h.elim
  | cons s ss =>
    cases s with
    | token t => rfl
    | ending stop => rfl
    | _ => exact h.elim

/-- The comments before an opening are those that have not been printed before it and start before it. -/
theorem filter_opening {pre post : List Segment} {indent : String} {x : Nat}
    (hstarts : ((anchors 0 (pre ++ opening indent x :: post)).filterMap (Anchor.start? false)).Pairwise fun a b => a.1 < b.1)
    (hpre : remaining ∉ pre) (cs : List Comment) :
    ((fillAll pre cs).2.filter fun c => !c.trailing && c.span.start < x) = cs.filter
      (Comment.leads ((anchors 0 (pre ++ opening indent x :: post)).filterMap (Anchor.start? false)) x) := by
  have hsplit : (anchors 0 (pre ++ opening indent x :: post)).filterMap (Anchor.start? false) =
      (anchors 0 pre).filterMap (Anchor.start? false) ++ (x, 0 + (tokens pre).length) ::
        (anchors (0 + (tokens pre).length) post).filterMap (Anchor.start? false) := by
    rw [anchors_append, List.filterMap_append]
    rfl
  rw [hsplit] at hstarts ⊢
  obtain ⟨-, hlater, hbefore⟩ := List.pairwise_append.mp hstarts
  have hand : (fun c : Comment => !c.trailing && decide (c.span.start < x)) =
      fun c => decide (c.span.start < x) && !c.trailing := funext fun c => Bool.and_comm _ _
  rw [hand, ← List.filter_filter, filter_fillAll hpre cs 0, List.filter_filter]
  refine List.filter_congr fun c _ => ?_
  rw [Comment.leads, List.all_append, List.all_cons, Bool.eq_iff_iff]
  simp only [Bool.and_eq_true, Bool.or_eq_true, Bool.not_eq_true', decide_eq_true_eq, List.all_eq_true]
  constructor
  · rintro ⟨hlt, hown, hopened⟩
    refine ⟨⟨hown, hlt⟩, fun p hp => .inl (hopened p hp), .inr (Nat.le_refl x), fun p hp => .inr ?_⟩
    exact Nat.le_of_lt ((List.pairwise_cons.mp hlater).1 p hp)
  · rintro ⟨⟨hown, hlt⟩, hnone, -⟩
    refine ⟨hlt, hown, fun p hp => (hnone p hp).resolve_right ?_⟩
    exact Nat.not_le_of_lt (hbefore p hp _ List.mem_cons_self)

/-- In front of an opening stand the comments on lines of their own for which it is the first one behind them. -/
theorem suffix_gap_opening {fresh : Bool} {p : Nat × Nat} (hs : Spaced fresh ss)
    (hstarts : ((anchors 0 ss).filterMap (Anchor.start? false)).Pairwise fun a b => a.1 < b.1)
    (hp : p ∈ (anchors 0 ss).filterMap (Anchor.start? false)) (cs : List Comment) :
    ∃ indent, Item.ownLines indent (cs.filter (Comment.leads ((anchors 0 ss).filterMap (Anchor.start? false)) p.1)) ++
      [.blank indent] <:+ Item.gap p.2 (fillAll ss cs).1 := by
  obtain ⟨a, ha, hap⟩ := List.mem_filterMap.mp hp
  cases a with
  | stop offset before => cases hap
  | start offset before opensLine =>
    rw [Anchor.start?, Option.ite_none_right_eq_some] at hap
    obtain rfl := Option.some.inj hap.2
    obtain ⟨pre, indent, post, rfl, hcount⟩ := exists_opening ha
    obtain ⟨hpre, _, -, -, htoken, -⟩ := spaced_of_append hs
    have hcount : before = (Item.tokens (fillAll pre cs).1).length := by
      rw [tokens_fillAll, hcount, Nat.zero_add]
    have hgap : Item.gap 0 (fillAll (opening indent offset :: post) (fillAll pre cs).2).1 = Item.ownLines indent
        (cs.filter (Comment.leads ((anchors 0 (pre ++ opening indent offset :: post)).filterMap (Anchor.start? false)) offset)) ++
          [.blank indent] := by
      rw [fillAll, fill, List.partition_eq_filter_filter, filter_opening hstarts hpre cs, Item.gap_zero_append,
        gap_zero_of_startsToken htoken, List.append_nil]
      rw [Item.tokens_append, Item.tokens_ownLines]
      rfl
    rw [fillAll_append, hcount]
    exact ⟨indent, hgap ▸ Item.suffix_gap_append _ _⟩

end Segment

/-! ## Comments at the end of a line -/

/-- The comments suffice for the endings at `stops`, so that `c` is left for one at `stop`: from each of them on its
line there are as many comments at the end of a line before `stop` as endings. -/
structure Supplied (c : Comment) (stop : Nat) (stops : List Nat) (cs : List Comment) : Prop where
  mem : c ∈ cs
  sorted : cs.Pairwise fun a b => a.span.start < b.span.start
  ordered : stops.Pairwise (· < ·)
  onLine : ∀ d ∈ cs, ∀ s ∈ stops, c.lineStart ≤ s → s ≤ d.span.start → d.span.start < stop → d.lineStart = c.lineStart
  enough : ∀ s ∈ stops, c.lineStart ≤ s →
    stops.countP (s ≤ ·) ≤ cs.countP fun d => d.trailing = true ∧ s ≤ d.span.start ∧ d.span.start < stop

namespace Supplied

variable {c d : Comment} {stop s : Nat} {stops : List Nat} {cs as bs : List Comment}

/-- The endings before the one at `stop`. -/
theorem of_append {before after : List Nat} (hmem : c ∈ cs) (hsorted : cs.Pairwise fun a b => a.span.start < b.span.start)
    (hordered : (before ++ stop :: after).Pairwise (· < ·))
    (honLine : ∀ d ∈ cs, ∀ s, c.lineStart ≤ s → s ≤ d.span.start → d.span.start < stop → d.lineStart = c.lineStart)
    (henough : ∀ s ∈ before ++ stop :: after, c.lineStart ≤ s → s < stop →
      (before ++ stop :: after).countP (fun t => s ≤ t ∧ t < stop) ≤
        cs.countP fun d => d.trailing = true ∧ s ≤ d.span.start ∧ d.span.start < stop) : Supplied c stop before cs := by
  obtain ⟨hbefore, -, hlt⟩ := List.pairwise_append.mp hordered
  have hlt := fun t ht => hlt t ht stop List.mem_cons_self
  refine ⟨hmem, hsorted, hbefore, fun d hd s _ => honLine d hd s, fun s hs hline => ?_⟩
  calc before.countP (s ≤ ·)
      ≤ before.countP (fun t => s ≤ t ∧ t < stop) := List.countP_mono_left fun t ht hle => by
        simpa using ⟨of_decide_eq_true hle, hlt t ht⟩
    _ ≤ (before ++ stop :: after).countP (fun t => s ≤ t ∧ t < stop) := (List.sublist_append_left _ _).countP_le
    _ ≤ _ := henough s (List.mem_append_left _ hs) hline (hlt s hs)

/-- An opening takes no comment at the end of a line. -/
theorem opening (h : Supplied c stop stops cs) (hc : c.trailing = true) (start : Nat) :
    Supplied c stop stops (cs.filter (not ∘ fun d => !d.trailing && d.span.start < start)) where
  mem := List.mem_filter.mpr ⟨h.mem, by simp [hc]⟩
  sorted := h.sorted.filter _
  ordered := h.ordered
  onLine d hd := h.onLine d (List.mem_filter.mp hd).1
  enough := by
    intro s hs hline
    refine (h.enough s hs hline).trans (Nat.le_of_eq ?_)
    rw [List.countP_filter]
    refine List.countP_congr fun d hd => ?_
    simp only [decide_eq_true_eq, Bool.and_eq_true]
    refine ⟨fun hbetween => ⟨hbetween, ?_⟩, And.left⟩
    simp [hbetween.1]

/-- An ending behind which no comment is at the end of its line. -/
theorem tail (h : Supplied c stop (s :: stops) cs) : Supplied c stop stops cs where
  mem := h.mem
  sorted := h.sorted
  ordered := (List.pairwise_cons.mp h.ordered).2
  onLine d hd s hs := h.onLine d hd s (List.mem_cons_of_mem _ hs)
  enough := by
    intro s' hs' hline
    have hlt := (List.pairwise_cons.mp h.ordered).1 s' hs'
    have henough := h.enough s' (List.mem_cons_of_mem _ hs') hline
    rwa [List.countP_cons_of_neg (by simpa using hlt)] at henough

/-- A comment between an ending on the line and `stop` is at the end of the line. -/
theorem endsLineOf (h : Supplied c stop (s :: stops) cs) (hline : c.lineStart ≤ s) (hd : d ∈ cs)
    (hbetween : d.trailing = true ∧ s ≤ d.span.start ∧ d.span.start < stop) : endsLineOf s d = true := by
  obtain ⟨htrailing, hafter, hbefore⟩ := hbetween
  have hstart := h.onLine d hd s List.mem_cons_self hline hafter hbefore
  simp [Writer.endsLineOf, htrailing, hafter, hstart, hline]

/-- The comment that an ending takes is not the one that is left for `stop`. -/
theorem ne_of_endsLineOf (h : Supplied c stop (s :: stops) (as ++ d :: bs)) (hc : stop ≤ c.span.start)
    (has : ∀ a ∈ as, Writer.endsLineOf s a = false) (hd : Writer.endsLineOf s d = true) : c ≠ d := by
  rintro rfl
  have hline : c.lineStart ≤ s := by
    simp only [Writer.endsLineOf, Bool.and_eq_true, decide_eq_true_eq] at hd
    exact hd.2
  have henough := h.enough s List.mem_cons_self hline
  rw [List.countP_cons_of_pos (by simp)] at henough
  obtain ⟨e, he, hbetween⟩ := List.countP_pos_iff.mp (Nat.lt_of_lt_of_le (Nat.succ_pos _) henough)
  rw [decide_eq_true_eq] at hbetween
  have hends := h.endsLineOf hline he hbetween
  rcases List.mem_append.mp he with ha | he
  · rw [has e ha] at hends
    cases hends
  · have hle : c.span.start ≤ e.span.start := by
      rcases List.mem_cons.mp he with rfl | he
      · exact Nat.le_refl _
      · exact Nat.le_of_lt ((List.pairwise_cons.mp (List.pairwise_append.mp h.sorted).2.1).1 e he)
    omega

/-- An ending takes one comment, and there was one more. -/
theorem ending (h : Supplied c stop (s :: stops) (as ++ d :: bs)) (hc : stop ≤ c.span.start)
    (has : ∀ a ∈ as, Writer.endsLineOf s a = false) (hd : Writer.endsLineOf s d = true) :
    Supplied c stop stops (as ++ bs) := by
  have hsub : (as ++ bs).Sublist (as ++ d :: bs) := List.Sublist.append_left (List.sublist_cons_self d bs) as
  have hne := h.ne_of_endsLineOf hc has hd
  refine ⟨?_, h.sorted.sublist hsub, (List.pairwise_cons.mp h.ordered).2, fun e he s' hs' =>
    h.onLine e (hsub.subset he) s' (List.mem_cons_of_mem _ hs'), fun s' hs' hline' => ?_⟩
  · have hmem := h.mem
    rw [List.mem_append, List.mem_cons] at hmem
    rw [List.mem_append]
    exact hmem.imp_right fun hmem => hmem.resolve_left hne
  · have hlt := (List.pairwise_cons.mp h.ordered).1 s' hs'
    by_cases hcounted : d.trailing = true ∧ s' ≤ d.span.start ∧ d.span.start < stop
    · -- the ending is on the line, and has taken the first of the comments from there on
      have hstart := h.onLine d (by simp) s' (List.mem_cons_of_mem _ hs') hline' hcounted.2.1 hcounted.2.2
      have hline : c.lineStart ≤ s := by
        simp only [Writer.endsLineOf, Bool.and_eq_true, decide_eq_true_eq] at hd
        omega
      have henough := h.enough s List.mem_cons_self hline
      have hnone : as.countP (fun e => e.trailing = true ∧ s ≤ e.span.start ∧ e.span.start < stop) = 0 := by
        refine List.countP_eq_zero.mpr fun e he hbetween => ?_
        have hends := h.endsLineOf hline (List.mem_append_left _ he) (of_decide_eq_true hbetween)
        rw [has e he] at hends
        cases hends
      have hlater : bs.countP (fun e => e.trailing = true ∧ s ≤ e.span.start ∧ e.span.start < stop) ≤
          bs.countP fun e => e.trailing = true ∧ s' ≤ e.span.start ∧ e.span.start < stop := by
        refine List.countP_mono_left fun e he hbetween => ?_
        have hafter := (List.pairwise_cons.mp (List.pairwise_append.mp h.sorted).2.1).1 e he
        simp only [decide_eq_true_eq] at hbetween ⊢
        exact ⟨hbetween.1, by omega, hbetween.2.2⟩
      have hstops : stops.countP (s' ≤ ·) ≤ stops.countP (s ≤ ·) := by
        refine List.countP_mono_left fun t _ hle => ?_
        simp only [decide_eq_true_eq] at hle ⊢
        omega
      have htaken : d.trailing = true ∧ s ≤ d.span.start ∧ d.span.start < stop := ⟨hcounted.1, by omega, hcounted.2.2⟩
      rw [List.countP_cons_of_pos (by simp), List.countP_append, hnone, List.countP_cons_of_pos (by simpa using htaken)]
        at henough
      rw [List.countP_append]
      omega
    · have henough := h.tail.enough s' hs' hline'
      rwa [List.countP_append, List.countP_cons_of_neg (by simpa using hcounted), ← List.countP_append] at henough

end Supplied

namespace Segment

variable {n : Nat} {ss : List Segment} {cs : List Comment}

/-- A comment for which the others leave room is left by all endings before it. -/
theorem supplied_fillAll {c : Comment} {stop : Nat} (hc : c.trailing = true) (hstop : stop ≤ c.span.start)
    (hss : remaining ∉ ss) (h : Supplied c stop (((anchors n ss).filterMap Anchor.stop?).map Prod.fst) cs) :
    Supplied c stop [] (fillAll ss cs).2 := by
  induction ss generalizing cs n with
  | nil => exact h
  | cons s ss ih =>
    have hss' : remaining ∉ ss := fun hmem => hss (List.mem_cons_of_mem _ hmem)
    rw [fillAll]
    cases s with
    | gap text => exact @ih n cs hss' h
    | token t => exact @ih (n + 1) cs hss' h
    | opening indent start =>
      refine @ih n _ hss' ?_
      rw [fill, List.partition_eq_filter_filter]
      exact h.opening hc start
    | ending s =>
      refine @ih (n + 1) _ hss' ?_
      have hcons : Supplied c stop (s :: (((anchors (n + 1) ss).filterMap Anchor.stop?).map Prod.fst)) cs := h
      change Supplied c stop _ (fillEnd s cs).2
      rcases fillEnd_cases s cs with hend | ⟨d, -, hfind, hend⟩
      · rw [hend]
        exact hcons.tail
      · obtain ⟨hd, as, bs, rfl, has⟩ := List.find?_eq_some_iff_append.mp hfind
        have has : ∀ a ∈ as, endsLineOf s a = false := by simpa using has
        rw [hend, List.eraseP_append_right _ (by simpa using has), List.eraseP_cons_of_pos hd]
        exact hcons.ending hstop has hd
    | remaining => exact absurd List.mem_cons_self hss

/-- An ending takes the first comment that is at the end of its line. -/
theorem fillEnd_of_first {c : Comment} {stop : Nat} (hpos : stop ≠ 0) (hmem : c ∈ cs)
    (hsorted : cs.Pairwise fun a b => a.span.start < b.span.start) (hc : endsLineOf stop c = true)
    (hfirst : ∀ d ∈ cs, stop ≤ d.span.start → c.span.start ≤ d.span.start) :
    (fillEnd stop cs).1 = [.blank " ", .comment c.text] := by
  obtain ⟨as, bs, rfl⟩ := List.append_of_mem hmem
  have has : ∀ a ∈ as, endsLineOf stop a = false := by
    intro a ha
    have hlt := (List.pairwise_append.mp hsorted).2.2 a ha c List.mem_cons_self
    have hbefore : ¬stop ≤ a.span.start := fun hle =>
      Nat.not_le_of_lt hlt (hfirst a (List.mem_append_left _ ha) hle)
    simp [endsLineOf, hbefore]
  have hfind : (as ++ c :: bs).find? (endsLineOf stop) = some c :=
    List.find?_eq_some_iff_append.mpr ⟨hc, as, bs, rfl, by simpa using has⟩
  rw [fillEnd, if_neg hpos, hfind]

/-- Behind an ending stands the first comment at the end of its line, if the comments suffice for the endings
before it. -/
theorem prefix_gap_ending {fresh : Bool} {p : Nat × Nat} {c : Comment} (hs : Spaced fresh ss)
    (hp : p ∈ (anchors 0 ss).filterMap Anchor.stop?) (hpos : p.1 ≠ 0) (hc : endsLineOf p.1 c = true)
    (hfirst : ∀ d ∈ cs, p.1 ≤ d.span.start → c.span.start ≤ d.span.start)
    (hsupplied : ∀ before after, ((anchors 0 ss).filterMap Anchor.stop?).map Prod.fst = before ++ p.1 :: after →
      Supplied c p.1 before cs) :
    [.blank " ", .comment c.text, .blank "\n"] <+: Item.gap p.2 (fillAll ss cs).1 := by
  obtain ⟨a, ha, hap⟩ := List.mem_filterMap.mp hp
  cases a with
  | start offset before opensLine => cases hap
  | stop stop count =>
    obtain rfl := Option.some.inj hap
    obtain ⟨pre, post, rfl, hcount⟩ := exists_ending ha
    obtain ⟨hpre, -⟩ := spaced_of_append hs
    have hstart : c.trailing = true ∧ stop ≤ c.span.start := by
      simp only [endsLineOf, Bool.and_eq_true, decide_eq_true_eq] at hc
      exact hc.1
    have hleft := supplied_fillAll hstart.1 hstart.2 hpre (hsupplied _
      (((anchors (0 + (tokens pre).length + 1) post).filterMap Anchor.stop?).map Prod.fst)
      (by rw [anchors_append, List.filterMap_append, List.map_append]; rfl))
    have hend := fillEnd_of_first hpos hleft.mem hleft.sorted hc fun d hd => hfirst d (mem_fillAll d hd)
    have hcount : count = (Item.tokens (fillAll pre cs).1).length + 1 := by
      rw [tokens_fillAll, hcount, Nat.zero_add]
    rw [fillAll_append, hcount]
    change _ <+: Item.gap _ ((fillAll pre cs).1 ++ .token .semicolon ::
      (((fillEnd stop (fillAll pre cs).2).1 ++ [.blank "\n"]) ++ (fillAll post (fillEnd stop (fillAll pre cs).2).2).1))
    rw [Item.gap_token, hend]
    exact ⟨Item.gap 0 (fillAll post (fillEnd stop (fillAll pre cs).2).2).1, rfl⟩

end Segment

end JavaFold
