import JavaFold.Proofs.Pass.Legal
import JavaFold.Proofs.Program.Filled

/-!
# Comments of a folded program

A program that was folded is written with the comments of its source. Wherever they go, the text has the
tokens of the program, and each comment once (`foldTree_keepsComments`): no comment can be read as a part of
the program, and nothing of the program as a part of a comment.
-/

namespace JavaFold

/-- A source text that gives a program has been cut without a problem. -/
theorem CompilationUnit.diagnostics_of_ofSource? {source : String} {unit : CompilationUnit}
    {comments : List Comment} (h : ofSource? source = .ok (unit, comments)) :
    (Lexed.ofSource source).diagnostics = [] ∧ (Lexed.ofSource source).comments = comments := by
  unfold ofSource? at h
  dsimp only at h
  split at h
  · next hclean =>
    cases hunit : ofTokens? (Lexed.ofSource source).tokens with
    | error e =>
      rw [hunit] at h
      cases h
    | ok u =>
      rw [hunit] at h
      cases h
      exact ⟨List.isEmpty_iff.mp hclean, rfl⟩
  · cases h

/-- The program is read from the tokens of the text. -/
theorem CompilationUnit.ofTokens?_of_ofSource? {source : String} {unit : CompilationUnit} {comments : List Comment}
    (h : ofSource? source = .ok (unit, comments)) : ofTokens? (Lexed.ofSource source).tokens = .ok unit := by
  obtain ⟨hclean, -⟩ := diagnostics_of_ofSource? h
  unfold ofSource? at h
  simp only [hclean, List.isEmpty_nil, if_true] at h
  cases hunit : ofTokens? (Lexed.ofSource source).tokens with
  | error e =>
    rw [hunit] at h
    cases h
  | ok u =>
    rw [hunit] at h
    cases h
    rfl

/-- The comments that are read with a program are comments. -/
theorem CompilationUnit.isComment_of_ofSource? {source : String} {unit : CompilationUnit}
    {comments : List Comment} (h : ofSource? source = .ok (unit, comments)) :
    ∀ c ∈ comments, IsComment c.text := by
  obtain ⟨hclean, rfl⟩ := diagnostics_of_ofSource? h
  exact Lexed.isComment_ofSource hclean

/-- What is read from the text of a program with comments: no problem, the tokens of the program, and the
comments. -/
theorem CompilationUnit.ofSource_text_spelled {unit : CompilationUnit} {comments : List Comment}
    (h : unit.Spelled) (hcs : ∀ c ∈ comments, IsComment c.text) :
    let lexed := Lexed.ofSource (unit.text comments)
    lexed.diagnostics = [] ∧
      lexed.tokens.map (·.value) = Segment.tokens unit.layout ++ [.endOfFile] ∧
      (lexed.comments.map (·.text)).Perm (comments.map (·.text)) := by
  dsimp only
  obtain ⟨htokens, hcomments, hclean⟩ := Lexed.ofPieces_items (legal_items h hcs) .origin
  rw [ofSource_text h hcs]
  exact ⟨hclean, htokens.trans (by rw [tokens_items]), hcomments ▸ unit.comments_items comments⟩

theorem CompilationUnit.ofSource_text_reads {unit : CompilationUnit} {comments : List Comment}
    (h : unit.Legal) (hcs : ∀ c ∈ comments, IsComment c.text) :
    let lexed := Lexed.ofSource (unit.text comments)
    lexed.diagnostics = [] ∧
      lexed.tokens.map (·.value) = Segment.tokens unit.layout ++ [.endOfFile] ∧
      (lexed.comments.map (·.text)).Perm (comments.map (·.text)) := ofSource_text_spelled h.spelled hcs

namespace FoldOptions

/-- A folded program, written with the comments of its source, is read with the tokens it has without them,
and with each of the comments once. -/
theorem foldTree_keepsComments {options : FoldOptions} {source : String} {unit g : CompilationUnit}
    {comments : List Comment} {report : Report} {t : Tree}
    (hsource : CompilationUnit.ofSource? source = .ok (unit, comments))
    (hrun : options.foldTree.run (.ofUnit unit) = .ok report t) (hread : t.unit? = .ok g) :
    (Lexed.ofSource (g.text comments)).diagnostics = [] ∧
      (Lexed.ofSource (g.text comments)).tokens.map (·.value) =
        (Lexed.ofSource (g.text [])).tokens.map (·.value) ∧
      ((Lexed.ofSource (g.text comments)).comments.map (·.text)).Perm (comments.map (·.text)) := by
  have legal : g.Legal := legal_of_run_foldTree (CompilationUnit.legal_of_ofSource? hsource) hrun hread
  have hcs := CompilationUnit.isComment_of_ofSource? hsource
  obtain ⟨hclean, htokens, hcomments⟩ := CompilationUnit.ofSource_text_reads legal hcs
  obtain ⟨-, htokens', -⟩ := @CompilationUnit.ofSource_text_reads g [] legal nofun
  exact ⟨hclean, htokens.trans htokens'.symm, hcomments⟩

/-- A comment in a block that is folded, one at the end of a line, and one at the end of the file. -/
theorem foldTree_keepsComments_folded :
    let options : FoldOptions := ⟨PassKind.all, 3, .source⟩
    let source := "class A \x7b void m() \x7b \x7b /* a */ f(1 + 2); // b\n \x7d \x7d \x7d // c"
    ∃ unit comments report t g, CompilationUnit.ofSource? source = .ok (unit, comments) ∧
      options.foldTree.run (.ofUnit unit) = .ok report t ∧ t.unit? = .ok g ∧
      (Lexed.ofSource (g.text comments)).diagnostics = [] ∧
        (Lexed.ofSource (g.text comments)).tokens.map (·.value) =
          (Lexed.ofSource (g.text [])).tokens.map (·.value) ∧
        ((Lexed.ofSource (g.text comments)).comments.map (·.text)).Perm (comments.map (·.text)) := by
  intro options source
  have hok : (CompilationUnit.ofSource? source).toOption.isSome = true := by decide +kernel
  obtain ⟨⟨unit, comments⟩, hparsed⟩ := Option.isSome_iff_exists.mp hok
  have hsource := eq_ok_of_toOption hparsed
  obtain ⟨report, t, m, hrun, -, h, -⟩ := @run_foldTree options unit 2 (Nat.lt_succ_self 2)
    (PassKind.idleAll_applyAll_twice options.passes unit)
  exact ⟨unit, comments, report, t, _, hsource, hrun, h.unit?_eq, foldTree_keepsComments hsource hrun h.unit?_eq⟩

end FoldOptions

end JavaFold
