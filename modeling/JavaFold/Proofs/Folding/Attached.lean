import JavaFold.Folding
import JavaFold.Proofs.Folding.Comments
import JavaFold.Proofs.Program.Attached
import JavaFold.Proofs.Program.Grammar.Anchors
import JavaFold.Proofs.Token.Lines

/-!
# Comments stay with what they annotate

In a formatted program the comments on lines of their own stand in front of the first class, member or statement
behind them that has a line of its own, and the first comment after a field or simple statement stays on its line
unless an earlier one on that line is short of comments (`attached_comments`). A brace that opens a body, and the
first part of a `for`, have no line of their own: a comment in front of them goes to what comes next
(`not_attached_brace`).
-/

namespace JavaFold

/-- The comment is at the end of the line on which something has stopped, and nothing comes between them. -/
structure Comment.Ends (text : List UInt8) (stops : List (Nat × Nat)) (comments : List Comment) (c : Comment)
    (stop : Nat) : Prop where
  trailing : c.trailing = true
  behind : stop ≤ c.span.start
  sameLine : JavaFold.lineStart text stop = JavaFold.lineStart text c.span.start
  first : ∀ d ∈ comments, stop ≤ d.span.start → c.span.start ≤ d.span.start
  last : ∀ p ∈ stops, p.1 ≤ c.span.start → p.1 ≤ stop

/-- Every field or simple statement that has stopped on the line before finds a comment of its own: from each of them
there are as many comments at the end of the line as there are such stops. -/
def Spares (text : List UInt8) (stops : List (Nat × Nat)) (comments : List Comment) (stop : Nat) : Prop :=
  ∀ p ∈ stops, lineStart text p.1 = lineStart text stop → p.1 < stop →
    stops.countP (fun q => p.1 ≤ q.1 ∧ q.1 < stop) ≤
      comments.countP fun d => d.trailing = true ∧ p.1 ≤ d.span.start ∧ d.span.start < stop

instance (text : List UInt8) (stops : List (Nat × Nat)) (comments : List Comment) (c : Comment) (stop : Nat) :
    Decidable (c.Ends text stops comments stop) :=
  decidable_of_iff (c.trailing = true ∧ stop ≤ c.span.start ∧ lineStart text stop = lineStart text c.span.start ∧
      (∀ d ∈ comments, stop ≤ d.span.start → c.span.start ≤ d.span.start) ∧
      ∀ p ∈ stops, p.1 ≤ c.span.start → p.1 ≤ stop)
    ⟨fun ⟨trailing, behind, sameLine, first, last⟩ => ⟨trailing, behind, sameLine, first, last⟩,
      fun ⟨trailing, behind, sameLine, first, last⟩ => ⟨trailing, behind, sameLine, first, last⟩⟩

instance (text : List UInt8) (stops : List (Nat × Nat)) (comments : List Comment) (stop : Nat) :
    Decidable (Spares text stops comments stop) :=
  inferInstanceAs (Decidable (∀ p ∈ stops, lineStart text p.1 = lineStart text stop → p.1 < stop →
    stops.countP (fun q => p.1 ≤ q.1 ∧ q.1 < stop) ≤
      comments.countP fun d => d.trailing = true ∧ p.1 ≤ d.span.start ∧ d.span.start < stop))

namespace CompilationUnit

/-- In front of each start stand the comments on lines of their own for which it is the next one. -/
def KeepsLeading (unit : CompilationUnit) (comments : List Comment) (all : Bool) : Prop :=
  ∀ p ∈ unit.starts all, ∃ indent,
    Item.ownLines indent (comments.filter (Comment.leads (unit.starts all) p.1)) ++ [.blank indent] <:+
      Item.gap p.2 (unit.items comments)

/-- Behind each stop that is said to be spared a comment stands the one at the end of its line. -/
def KeepsTrailing (unit : CompilationUnit) (comments : List Comment) (text : List UInt8) (spared : Nat → Prop) : Prop :=
  ∀ c ∈ comments, ∀ p ∈ unit.stops, c.Ends text unit.stops comments p.1 → spared p.1 →
    [.blank " ", .comment c.text, .blank "\n"] <+: Item.gap p.2 (unit.items comments)

end CompilationUnit

/-! ## Comments of a source -/

namespace Lexed

variable {source : String}

/-- The tokens and comments of an accepted text tile it, in front of the end of the file. -/
theorem exists_tiles (h : (ofSource source).diagnostics = []) : ∃ xs, Tiles 0 (Utf8.encode source) xs ∧
    (∃ last, (ofSource source).tokens = xs.filterMap Lexeme.token? ++ [⟨.endOfFile, last⟩]) ∧
    (ofSource source).comments = xs.filterMap Lexeme.comment? := by
  have hcs : Utf8.bytesOf source.toList = [] ++ Utf8.encode source := (Utf8.encode_eq source).symm
  obtain ⟨xs, htiles, htokens, hcomments⟩ := tiles_cut (Utf8.encode source) hcs h
  exact ⟨xs, htiles, ⟨_, htokens⟩, hcomments⟩

/-- The comments of an accepted text come one after the other. -/
theorem pairwise_comments (h : (ofSource source).diagnostics = []) :
    (ofSource source).comments.Pairwise fun a b => a.span.start < b.span.start := by
  obtain ⟨xs, htiles, -, hcomments⟩ := exists_tiles h
  rw [hcomments, List.pairwise_filterMap]
  refine htiles.apart.imp fun {x y} hxy c hc d hd => ?_
  cases x with
  | token t => cases hc
  | comment c' =>
    cases y with
    | token t => cases hd
    | comment d' =>
      cases hc
      cases hd
      exact hxy.1

/-- A comment has the bytes of its part of the text. -/
theorem slice_of_mem_comments (h : (ofSource source).diagnostics = []) :
    ∀ c ∈ (ofSource source).comments, Utf8.encode c.text = c.span.slice (Utf8.encode source) := by
  obtain ⟨xs, htiles, -, hcomments⟩ := exists_tiles h
  intro c hc
  rw [hcomments] at hc
  obtain ⟨x, hx, hxc⟩ := List.mem_filterMap.mp hc
  cases x with
  | token t => cases hxc
  | comment d =>
    cases hxc
    exact htiles.reads (List.nil_append _).symm rfl _ hx

/-- The tokens of an accepted text are in order up to the end of the file. -/
theorem ordered_beforeEnd (h : (ofSource source).diagnostics = []) :
    Ordered (CompilationUnit.beforeEnd (ofSource source).tokens) := by
  obtain ⟨xs, htiles, ⟨last, htokens⟩, -⟩ := exists_tiles h
  have hsub : (CompilationUnit.beforeEnd (ofSource source).tokens).Sublist (xs.filterMap Lexeme.token?) := by
    rw [CompilationUnit.beforeEnd, htokens, List.takeWhile_append]
    split
    · rw [List.takeWhile_cons_of_neg (by simp), List.append_nil]
    · exact (List.takeWhile_prefix _).sublist
  refine ⟨List.Pairwise.sublist hsub (List.pairwise_filterMap.mpr ?_), fun t ht => ?_⟩
  · refine htiles.apart.imp fun {x y} hxy t ht u hu => ?_
    cases x with
    | comment c => cases ht
    | token t' =>
      cases y with
      | comment c => cases hu
      | token u' =>
        cases ht
        cases hu
        exact hxy.2
  · obtain ⟨x, hx, hxt⟩ := List.mem_filterMap.mp (hsub.subset ht)
    cases x with
    | comment c => cases hxt
    | token u =>
      cases hxt
      exact (htiles.within _ hx).2.1

/-- Without comments that go over a line end, each comment has the line that the text has there. -/
theorem lineStart_of_lines (h : (ofSource source).diagnostics = [])
    (hlines : ∀ c ∈ (ofSource source).comments, '\n' ∉ c.text.toList) :
    ∀ c ∈ (ofSource source).comments, c.lineStart = lineStart (Utf8.encode source) c.span.start := by
  intro c hc
  refine (lines_ofSource h c hc).1.trans (outerLineStart_eq_iff.mpr fun d hd ⟨hstart, hstop⟩ => hlines d hd ?_)
  obtain ⟨i, hi⟩ := Nat.exists_eq_succ_of_ne_zero (Nat.ne_of_gt (Nat.zero_lt_of_lt hstart))
  rw [hi] at hstart hstop
  have hbyte : (Utf8.encode source)[i]? = some Ascii.newline := of_afterLast_eq_succ hi
  -- the line end is in the part of the text that the comment has
  have hmem : Ascii.newline ∈ Utf8.encode d.text := by
    rw [slice_of_mem_comments h d hd, Span.slice]
    refine List.mem_of_getElem? (i := i - d.span.start) ?_
    rw [List.getElem?_take_of_lt (by omega), List.getElem?_drop, Nat.add_sub_cancel' (by omega), hbyte]
  rw [Utf8.encode_eq] at hmem
  obtain ⟨e, he, hmem⟩ := List.mem_flatMap.mp hmem
  exact Utf8.eq_of_mem_charBytes (d := '\n') hmem rfl (by decide) ▸ he

end Lexed

namespace CompilationUnit

variable {source : String} {unit : CompilationUnit} {comments : List Comment}

/-- What opens a line is opened in the layout. -/
theorem starts_layout (unit : CompilationUnit) :
    (Segment.anchors 0 unit.layout).filterMap (Anchor.start? false) = unit.starts false := by
  rw [anchors_layout, starts, List.filterMap_filter]
  refine List.filterMap_congr fun a _ => ?_
  cases a with
  | start offset before opensLine => cases opensLine <;> rfl
  | stop offset before => rfl

theorem stops_layout (unit : CompilationUnit) :
    (Segment.anchors 0 unit.layout).filterMap Anchor.stop? = unit.stops := by
  rw [anchors_layout, stops, List.filterMap_filter]
  refine List.filterMap_congr fun a _ => ?_
  cases a with
  | start offset before opensLine => cases opensLine <;> rfl
  | stop offset before => rfl

/-- The tokens from which a program was read, in order. -/
theorem derives_beforeEnd (h : ofSource? source = .ok (unit, comments)) :
    Ordered (beforeEnd (Lexed.ofSource source).tokens) ∧
      ∃ need, unit.Derives true (beforeEnd (Lexed.ofSource source).tokens) need := by
  obtain ⟨hclean, -⟩ := diagnostics_of_ofSource? h
  obtain ⟨xs, -, ⟨last, htokens⟩, -⟩ := Lexed.exists_tiles hclean
  have hend : (Lexed.ofSource source).tokens.getLast?.map (·.value) = some .endOfFile := by
    rw [htokens, List.getLast?_concat]
    rfl
  obtain ⟨need, -, hderives⟩ := writtenBy_of_ofTokens? hend (ofTokens?_of_ofSource? h)
  exact ⟨Lexed.ordered_beforeEnd hclean, need, hderives⟩

/-- Where a gap of the filled layout is not empty, the program is printed as that. -/
theorem items_of_gap {n : Nat} (h : Item.gap n (Segment.fillAll unit.layout comments).1 ≠ []) :
    unit.items comments = (Segment.fillAll unit.layout comments).1 := by
  refine (unit.items_cases comments).resolve_left ?_
  rintro ⟨hnil, -⟩
  rw [hnil] at h
  cases n <;> exact h rfl

/-- In front of each start that opens a line stand the comments for which it is the next one. -/
theorem keepsLeading_of_ofSource? (h : ofSource? source = .ok (unit, comments)) : unit.KeepsLeading comments false := by
  obtain ⟨hordered, need, hderives⟩ := derives_beforeEnd h
  have hstarts := pairwise_starts hderives hordered false
  intro p hp
  rw [← starts_layout] at hp hstarts ⊢
  obtain ⟨indent, hsuffix⟩ :=
    Segment.suffix_gap_opening (spaced_layout (legal_of_ofSource? h).spelled) hstarts hp comments
  have hgap : Item.gap p.2 (Segment.fillAll unit.layout comments).1 ≠ [] := hsuffix.ne_nil (by simp)
  rw [items_of_gap hgap]
  exact ⟨indent, hsuffix⟩

/-- Behind each stop stands the comment at the end of its line, if the stops before it find comments. -/
theorem keepsTrailing_of_ofSource? (h : ofSource? source = .ok (unit, comments))
    (hlines : ∀ c ∈ comments, '\n' ∉ c.text.toList) :
    unit.KeepsTrailing comments (Utf8.encode source) (Spares (Utf8.encode source) unit.stops comments) := by
  obtain ⟨hordered, need, hderives⟩ := derives_beforeEnd h
  obtain ⟨hclean, rfl⟩ := diagnostics_of_ofSource? h
  have hstops := pairwise_stops hderives hordered
  have hlineStart := Lexed.lineStart_of_lines hclean hlines
  intro c hc p hp hends hspares
  have hpos : p.1 ≠ 0 := by
    obtain ⟨t, ht, hstop⟩ := List.mem_map.mp ((sublist_stops hderives hordered).subset (List.mem_map_of_mem hp))
    have hlt := hordered.nonempty t ht
    omega
  have hline : c.lineStart = lineStart (Utf8.encode source) p.1 := (hlineStart c hc).trans hends.sameLine.symm
  have hle : c.lineStart ≤ p.1 := hline ▸ afterLast_le
  have hgap : [.blank " ", .comment c.text, .blank "\n"] <+: Item.gap p.2
      (Segment.fillAll unit.layout (Lexed.ofSource source).comments).1 := by
    refine Segment.prefix_gap_ending (spaced_layout (legal_of_ofSource? h).spelled) (by rwa [stops_layout]) hpos
      (by simp [Writer.endsLineOf, hends.trailing, hends.behind, hle]) hends.first fun before after hsplit => ?_
    rw [stops_layout] at hsplit
    have hsorted := List.pairwise_map.mpr hstops
    rw [hsplit] at hsorted
    refine Supplied.of_append hc (Lexed.pairwise_comments hclean) hsorted (fun d hd s hs hs' hlt => ?_)
      fun s hs hle' hlt => ?_
    · -- between the start of the line and the stop all is on the line of the stop
      rw [hlineStart d hd, hline]
      exact afterLast_of_le (hline.ge.trans (hs.trans hs')) (Nat.le_of_lt hlt)
    · rw [← hsplit] at hs ⊢
      obtain ⟨q, hq, rfl⟩ := List.mem_map.mp hs
      have hsame : lineStart (Utf8.encode source) q.1 = lineStart (Utf8.encode source) p.1 :=
        afterLast_of_le (hline.ge.trans hle') (Nat.le_of_lt hlt)
      rw [List.countP_map]
      exact hspares q hq hsame hlt
  rwa [items_of_gap (hgap.ne_nil (by simp))]

end CompilationUnit

/-- In a formatted program each start that opens a line has the comments on lines of their own in front of it for
which it is the next one, and a comment at the end of a line stays behind the last field or simple statement before
it, if those before on that line find comments of their own. -/
theorem attached_comments {source : String} {unit : CompilationUnit} {comments : List Comment}
    (h : CompilationUnit.ofSource? source = .ok (unit, comments)) (hlines : ∀ c ∈ comments, '\n' ∉ c.text.toList) :
    formatSource source = .ok (Item.join (unit.items comments)) ∧
      unit.KeepsLeading comments false ∧
      unit.KeepsTrailing comments (Utf8.encode source) (Spares (Utf8.encode source) unit.stops comments) := by
  refine ⟨?_, CompilationUnit.keepsLeading_of_ofSource? h, CompilationUnit.keepsTrailing_of_ofSource? h hlines⟩
  rw [← CompilationUnit.text_eq_join unit (CompilationUnit.isComment_of_ofSource? h), formatSource, h]
  rfl

/-- Two fields on a line, each with its comment. -/
theorem attached_comments_line :
    let source := "class A \x7b\n  // a\n  int x; /* b */ int y; // c\n\x7d"
    ∃ unit comments, CompilationUnit.ofSource? source = .ok (unit, comments) ∧ (∀ c ∈ comments, '\n' ∉ c.text.toList) ∧
      (∃ c ∈ comments, ∃ p ∈ unit.stops, c.Ends (Utf8.encode source) unit.stops comments p.1 ∧
        Spares (Utf8.encode source) unit.stops comments p.1 ∧ c.text = "// c") ∧
      formatSource source = .ok (Item.join (unit.items comments)) ∧
      unit.KeepsLeading comments false ∧
      unit.KeepsTrailing comments (Utf8.encode source) (Spares (Utf8.encode source) unit.stops comments) := by
  intro source
  have hfacts : (CompilationUnit.ofSource? source).toOption.map (fun r => decide ((∀ c ∈ r.2, '\n' ∉ c.text.toList) ∧
      ∃ c ∈ r.2, ∃ p ∈ r.1.stops, c.Ends (Utf8.encode source) r.1.stops r.2 p.1 ∧
        Spares (Utf8.encode source) r.1.stops r.2 p.1 ∧ c.text = "// c")) = some true := by decide +kernel
  obtain ⟨⟨unit, comments⟩, hparsed, hfacts⟩ := Option.map_eq_some_iff.mp hfacts
  have hsource := eq_ok_of_toOption hparsed
  obtain ⟨hlines, hends⟩ := of_decide_eq_true hfacts
  exact ⟨unit, comments, hsource, hlines, hends, attached_comments hsource hlines⟩

/-- A comment in front of the brace of a body is not printed there, and of two statements on a line the first one
takes the comment. -/
theorem not_attached_brace :
    let source := "class A \x7b void m() \x7b a(); b(); // t\n while (x)\n // c\n \x7b a(); \x7d \x7d \x7d"
    ∃ unit comments, CompilationUnit.ofSource? source = .ok (unit, comments) ∧ (∀ c ∈ comments, '\n' ∉ c.text.toList) ∧
      ¬unit.KeepsLeading comments true ∧ ¬unit.KeepsTrailing comments (Utf8.encode source) fun _ => True := by
  intro source
  have hfacts : (CompilationUnit.ofSource? source).toOption.map (fun r => decide ((∀ c ∈ r.2, '\n' ∉ c.text.toList) ∧
      (∃ p ∈ r.1.starts true, (r.2.filter (Comment.leads (r.1.starts true) p.1)).map (·.text) = ["// c"] ∧
        Item.gap p.2 (r.1.items r.2) = [.blank " "]) ∧
      ∃ c ∈ r.2, ∃ p ∈ r.1.stops, c.Ends (Utf8.encode source) r.1.stops r.2 p.1 ∧
        Item.gap p.2 (r.1.items r.2) = [.blank "\n", .blank "        "])) = some true := by decide +kernel
  obtain ⟨⟨unit, comments⟩, hparsed, hfacts⟩ := Option.map_eq_some_iff.mp hfacts
  obtain ⟨hlines, ⟨p, hp, hleads, hgap⟩, c, hc, q, hq, hends, hgap'⟩ := of_decide_eq_true hfacts
  refine ⟨unit, comments, eq_ok_of_toOption hparsed, hlines, fun hkeeps => ?_, fun hkeeps => ?_⟩
  · obtain ⟨indent, hsuffix⟩ := hkeeps p hp
    obtain ⟨c, hfilter, -⟩ := List.map_eq_singleton_iff.mp hleads
    rw [hgap, hfilter] at hsuffix
    exact absurd hsuffix.length_le (by simp [Item.ownLines])
  · have hahead := hkeeps c hc q hq hends trivial
    rw [hgap'] at hahead
    exact absurd hahead.length_le (by simp)

end JavaFold
