import JavaFold.Proofs.Pass.Constants.Fold
import JavaFold.Proofs.Program.Objects

/-!
# Propagating constants past comparisons of objects

Two strings with the same text need not be the same object, so `==` and `!=` on them are not worked out. But a variable
that holds a string made by a concatenation gives way to a literal like any other, and the literal is another object.
Propagating constants makes no difference to what the expressions of a field or method give where no such string gets
known (`fold_keepsReferences`), and may make one elsewhere (`fold_shares_string`).
-/

namespace JavaFold

open Constants (Scope)

/-- No change can be told that leaves all strings as they were and takes nothing away at a place that is watched. -/
theorem Objects.harmless {changes : List Constants.Change} {watched : Span → Bool} (hshares : .shares ∉ changes)
    (hplaces : ∀ s, .absorbs s ∈ changes → watched s = false) : ∀ c ∈ changes, c.Harmless (semantics watched)
  | .shares, hc => absurd hc hshares
  | .absorbs s, hc => fun v log => if_neg (by rw [hplaces s hc]; exact Bool.false_ne_true)

/-- Two classes whose members, one by one, do the same and are seen to give the same values at all watched places where
something is left, unless a string of theirs that was an object of its own is a shared one. -/
def ClassDecl.SeenAlike (c c' : ClassDecl) : Prop :=
  List.Forall₂ (fun m m' => .shares ∉ m.changes c.fields → ∀ watched : Span → Bool,
    (∀ s, .absorbs s ∈ m.changes c.fields → watched s = false) →
      m'.runIn (Objects.semantics watched) c.fields = m.runIn (Objects.semantics watched) c.fields)
    c.members c'.members

theorem ClassDecl.seenAlike_propagate {c : ClassDecl} (legal : c.Legal) : c.SeenAlike c.propagate.unplaced := by
  refine List.forall₂_map_right_iff.mpr (List.forall₂_map_right_iff.mpr (List.forall₂_same.mpr ?_))
  intro m hm hshares watched hplaces
  rw [Member.runIn_unplaced]
  exact Member.runIn_propagate (legal.members m hm) (Objects.harmless hshares hplaces) (m.unmixed_none c.fields)

namespace Constants

/-- Propagating constants in the tree of a program that has been read succeeds, and leaves the tree of a program whose
members do the same as before where strings are objects. Wherever an expression or a literal in its place is left, and
so at each comparison, it gives the same value each time it runs. This is so for all members of which no concatenation,
other than those of literals alone, gets known or gets to be one of literals alone. -/
theorem fold_keepsReferences {source : String} {unit : CompilationUnit} {comments : List Comment}
    (h : CompilationUnit.ofSource? source = .ok (unit, comments)) :
    ∃ c t' unit', (PassKind.constantPropagation.fold (Tree.ofUnit unit).root).run
        (Tree.ofUnit unit) = .ok c t' ∧
      t'.unit? = .ok unit' ∧ List.Forall₂ ClassDecl.SeenAlike unit.classes unit'.classes := by
  have legal := CompilationUnit.legal_of_ofSource? h
  obtain ⟨c, t', s', hrun, hs, hparts⟩ := run_fold_ofUnit legal
  refine ⟨c, t', unit.propagate.unplaced, hrun, Tree.unit?_of_parts hs hparts, ?_⟩
  refine List.forall₂_map_right_iff.mpr (List.forall₂_map_right_iff.mpr (List.forall₂_same.mpr fun c hc => ?_))
  exact ClassDecl.seenAlike_propagate (legal c hc)

/-- What changes in the members of the program of a source text, if the text is one of a program. -/
def changesSource? (source : String) : Option (List Change) :=
  (CompilationUnit.ofSource? source).toOption.map fun parsed =>
    parsed.1.classes.flatMap fun c => c.members.flatMap (Member.changes c.fields)

/-- A known string that is joined to an unknown one, and a comparison of the result with it. -/
theorem fold_keepsReferences_parameter : (changesSource?
      "class A \x7b String s; boolean m(String p) \x7b String a = \"x\"; s = a + 1 + p; return s == a; \x7d \x7d").map
        (·.contains .shares) = some false ∧
    ∃ unit comments, CompilationUnit.ofSource?
        "class A \x7b String s; boolean m(String p) \x7b String a = \"x\"; s = a + 1 + p; return s == a; \x7d \x7d" =
          .ok (unit, comments) ∧
      ∃ c t' unit', (PassKind.constantPropagation.fold (Tree.ofUnit unit).root).run
          (Tree.ofUnit unit) = .ok c t' ∧
        t'.unit? = .ok unit' ∧ List.Forall₂ ClassDecl.SeenAlike unit.classes unit'.classes := by
  have hchanges : (changesSource?
      "class A \x7b String s; boolean m(String p) \x7b String a = \"x\"; s = a + 1 + p; return s == a; \x7d \x7d").map
        (·.contains .shares) = some false := by decide +kernel
  obtain ⟨changes, hsource, -⟩ := Option.map_eq_some_iff.mp hchanges
  obtain ⟨⟨unit, comments⟩, hparsed, -⟩ := Option.map_eq_some_iff.mp hsource
  have h := eq_ok_of_toOption hparsed
  exact ⟨hchanges, unit, comments, h, fold_keepsReferences h⟩

/-- What is seen at a place when the first member of a program runs, in a world where no call gives a result. -/
def seenAt (place : Span) (unit : CompilationUnit) : List Objects.Value :=
  ((unit.classes.head?.bind fun c => c.members.head?.map fun m =>
    (m.runIn (Objects.semantics (· == place)) c.fields .silent [] (fun _ => .null) 0).log.seen.map (·.value))).getD []

/-- A string that a concatenation makes is not the one of a literal with its text, but once it is known, that literal
takes its place, and so the comparison of the two, which stands at these places of the text, gives another value. -/
theorem fold_shares_string : ∃ unit comments,
    CompilationUnit.ofSource?
        "class A \x7b void m() \x7b String a = \"x\"; String b = a + \"y\"; f(b == \"xy\"); \x7d \x7d" =
        .ok (unit, comments) ∧
      ∃ c t' unit', (PassKind.constantPropagation.fold (Tree.ofUnit unit).root).run
          (Tree.ofUnit unit) = .ok c t' ∧
        t'.unit? = .ok unit' ∧
          seenAt ⟨59, 68⟩ unit = [.bool false] ∧ seenAt ⟨59, 68⟩ unit' = [.bool true] := by
  have hseen : (CompilationUnit.ofSource?
      "class A \x7b void m() \x7b String a = \"x\"; String b = a + \"y\"; f(b == \"xy\"); \x7d \x7d").toOption.map
        (fun parsed => (seenAt ⟨59, 68⟩ parsed.1, seenAt ⟨59, 68⟩ parsed.1.propagate.unplaced)) =
      some ([.bool false], [.bool true]) := by decide +kernel
  obtain ⟨⟨unit, comments⟩, hparsed, hseen⟩ := Option.map_eq_some_iff.mp hseen
  have h := eq_ok_of_toOption hparsed
  obtain ⟨c, t', s', hrun, hs, hparts⟩ := run_fold_ofUnit (CompilationUnit.legal_of_ofSource? h)
  obtain ⟨hold, hnew⟩ := Prod.mk.inj hseen
  exact ⟨unit, comments, h, c, t', unit.propagate.unplaced, hrun, Tree.unit?_of_parts hs hparts, hold, hnew⟩

end Constants

end JavaFold
