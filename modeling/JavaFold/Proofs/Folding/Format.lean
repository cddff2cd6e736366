import JavaFold.Proofs.Folding.Comments
import JavaFold.Proofs.Program.Reread.Unit

/-!
# Formatting

A program that was read and written again is read as the same program (`read_text_again`), unless it
nests too deep by then: between two minus signs there are parentheses, which nest as those of a source text do.
So a formatted text is accepted again exactly if the program nests no deeper than the limit
(`formatSource_text`).
-/

namespace JavaFold

namespace CompilationUnit

/-- The text of a program that was read is cut without a problem. Either it nests too deep, and this is
reported, or it is read as the program again, but for its spans, and but for the minus signs in front of
numbers, which are read together with these. -/
theorem read_text_again {source : String} {unit : CompilationUnit} {comments : List Comment}
    (h : ofSource? source = .ok (unit, comments)) :
    (Lexed.ofSource (unit.text comments)).diagnostics = [] ∧
      ((Problem.nestingLimit < unit.nesting ∧
          ∃ ds, ofSource? (unit.text comments) = .error ds ∧ ∃ d ∈ ds, d.problem = .nestingTooDeep) ∨
        (unit.nesting ≤ Problem.nestingLimit ∧
          ∃ again comments', ofSource? (unit.text comments) = .ok (again, comments') ∧
            again.bare = unit.signed.bare)) := by
  obtain ⟨hclean, again, hbare, -, hfits, hdeep⟩ :=
    ofSource?_text (legal_of_ofSource? h) (isComment_of_ofSource? h)
  refine ⟨hclean, ?_⟩
  rcases Nat.lt_or_ge Problem.nestingLimit unit.nesting with hneed | hneed
  · exact .inl ⟨hneed, hdeep hneed⟩
  · exact .inr ⟨hneed, again, _, hfits hneed, hbare⟩

/-- Minus signs in front of a number, of a minus sign and of an operand that needs parentheses. -/
theorem read_text_again_minus :
    let source := "class A { int x = - -(2) - -(y + 1) * f(-3, - - -z); /* c */ }"
    ∃ unit comments, ofSource? source = .ok (unit, comments) ∧
      (Lexed.ofSource (unit.text comments)).diagnostics = [] ∧
        ((Problem.nestingLimit < unit.nesting ∧
            ∃ ds, ofSource? (unit.text comments) = .error ds ∧ ∃ d ∈ ds, d.problem = .nestingTooDeep) ∨
          (unit.nesting ≤ Problem.nestingLimit ∧
            ∃ again comments', ofSource? (unit.text comments) = .ok (again, comments') ∧
              again.bare = unit.signed.bare)) := by
  intro source
  have hok : (ofSource? source).toOption.isSome = true := by decide +kernel
  obtain ⟨⟨unit, comments⟩, hparsed⟩ := Option.isSome_iff_exists.mp hok
  have hsource := eq_ok_of_toOption hparsed
  exact ⟨unit, comments, hsource, read_text_again hsource⟩

end CompilationUnit

/-- A program that nests too deep once it is written is formatted to a text that is refused. -/
theorem formatSource_nestingTooDeep {source : String} {unit : CompilationUnit} {comments : List Comment}
    (h : CompilationUnit.ofSource? source = .ok (unit, comments)) (hneed : Problem.nestingLimit < unit.nesting) :
    ∃ ds, formatSource (unit.text comments) = .error ds ∧ ∃ d ∈ ds, d.problem = .nestingTooDeep := by
  obtain ⟨-, again, -, -, -, hdeep⟩ := CompilationUnit.ofSource?_text
    (CompilationUnit.legal_of_ofSource? h) (CompilationUnit.isComment_of_ofSource? h)
  obtain ⟨ds, herror, hd⟩ := hdeep hneed
  refine ⟨ds, ?_, hd⟩
  rw [formatSource, herror]
  rfl

/-- The text that a program is formatted to is accepted exactly if the program nests no deeper than the limit
with the parentheses that are written; else this is what is reported. -/
theorem formatSource_text {source : String} {unit : CompilationUnit} {comments : List Comment}
    (h : CompilationUnit.ofSource? source = .ok (unit, comments)) :
    formatSource source = .ok (unit.text comments) ∧
      ((∃ text, formatSource (unit.text comments) = .ok text) ↔ unit.nesting ≤ Problem.nestingLimit) ∧
      (Problem.nestingLimit < unit.nesting →
        ∃ ds, formatSource (unit.text comments) = .error ds ∧ ∃ d ∈ ds, d.problem = .nestingTooDeep) := by
  refine ⟨by rw [formatSource, h]; rfl, ⟨fun ⟨text, htext⟩ => ?_, fun hneed => ?_⟩,
    formatSource_nestingTooDeep h⟩
  · by_contra hneed
    obtain ⟨ds, herror, -⟩ := formatSource_nestingTooDeep h (Nat.not_le.mp hneed)
    rw [herror] at htext
    cases htext
  · obtain ⟨-, again, -, -, hfits, -⟩ := CompilationUnit.ofSource?_text
      (CompilationUnit.legal_of_ofSource? h) (CompilationUnit.isComment_of_ofSource? h)
    rw [formatSource, hfits hneed]
    exact ⟨_, rfl⟩

theorem formatSource_text_minus :
    let source := "class A { int x = - - -y; }"
    ∃ unit comments, CompilationUnit.ofSource? source = .ok (unit, comments) ∧
      formatSource source = .ok (unit.text comments) ∧
        ((∃ text, formatSource (unit.text comments) = .ok text) ↔ unit.nesting ≤ Problem.nestingLimit) ∧
        (Problem.nestingLimit < unit.nesting →
          ∃ ds, formatSource (unit.text comments) = .error ds ∧ ∃ d ∈ ds, d.problem = .nestingTooDeep) := by
  intro source
  have hok : (CompilationUnit.ofSource? source).toOption.isSome = true := by decide +kernel
  obtain ⟨⟨unit, comments⟩, hparsed⟩ := Option.isSome_iff_exists.mp hok
  have hsource := eq_ok_of_toOption hparsed
  exact ⟨unit, comments, hsource, formatSource_text hsource⟩

/-- A program that nests as deep as it may before there are parentheses between its two minus signs. -/
theorem formatSource_refused :
    let source := "class A \x7b int x = " ++ String.join (List.replicate 253 "~") ++ "- -y; \x7d"
    ∃ text, formatSource source = .ok text ∧ ∀ again, formatSource text ≠ .ok again := by
  intro source
  have hdeep : (CompilationUnit.ofSource? source).toOption.map
      (fun parsed => decide (Problem.nestingLimit < parsed.1.nesting)) = some true := by decide +kernel
  obtain ⟨⟨unit, comments⟩, hparsed, hdeep⟩ := Option.map_eq_some_iff.mp hdeep
  have hsource := eq_ok_of_toOption hparsed
  obtain ⟨ds, herror, -⟩ := formatSource_nestingTooDeep hsource (of_decide_eq_true hdeep)
  refine ⟨unit.text comments, by rw [formatSource, hsource]; rfl, fun again hagain => ?_⟩
  rw [herror] at hagain
  cases hagain

end JavaFold
