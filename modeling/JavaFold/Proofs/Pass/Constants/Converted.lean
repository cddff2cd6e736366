import JavaFold.Proofs.Pass.Constants.Fold

/-!
# Propagating constants past conversions

A variable of a type other than `int`, `boolean` and that of strings takes values of its own, and so is never known to
hold a literal. But the value of an assignment to it counts as the value that is assigned, not as the one that the
variable takes. Propagating constants makes no difference, whatever conversions do, to a method in which no such value
is given to a variable that is known by the value it is given (`fold_keepsConverted`), and may make one to another
method (`fold_skips_conversion`).
-/

namespace JavaFold

open Constants (Scope)

/-- Two classes with the same fields, the members of which do the same under a conversion, as far as `P` holds of
them. -/
structure ClassDecl.Converts (cv : Conversion Literal) (P : Scope → Member → Prop) (c c' : ClassDecl) : Prop where
  fields : c'.fields = c.fields
  members : List.Forall₂
    (fun m m' => P c.fields m → m'.runIn (.converting cv) c.fields = m.runIn (.converting cv) c.fields)
    c.members c'.members

theorem ClassDecl.converts_propagate {c : ClassDecl} (legal : c.Legal) (cv : Conversion Literal) :
    c.Converts cv (fun fields m => m.unmixed cv fields = true) c.propagate.unplaced := by
  refine ⟨by rw [fields_unplaced, fields_propagate], ?_⟩
  refine List.forall₂_map_right_iff.mpr (List.forall₂_map_right_iff.mpr (List.forall₂_same.mpr fun m hm h => ?_))
  rw [Member.runIn_unplaced]
  exact Member.runIn_propagate (legal.members m hm) (fun c _ => c.harmless_converting cv) h

namespace Constants

/-- Propagating constants in the tree of a program that has been read succeeds, and leaves the tree of a program with
the same fields, whose members do the same as before, whatever the conversion of values that are given to variables of
types other than `int`, `boolean` and that of strings, unless a variable of one of these types is given a value
computed from one that is assigned to a variable of another type. -/
theorem fold_keepsConverted {source : String} {unit : CompilationUnit} {comments : List Comment}
    (h : CompilationUnit.ofSource? source = .ok (unit, comments)) :
    ∃ c t' unit', (PassKind.constantPropagation.fold (Tree.ofUnit unit).root).run
        (Tree.ofUnit unit) = .ok c t' ∧
      t'.unit? = .ok unit' ∧ unit.Alike unit' ∧ ∀ convert : Option Ty → Literal → Literal,
        let cv := Conversion.ofOthers convert
        List.Forall₂ (ClassDecl.Converts cv fun fields m => m.unmixed cv fields = true) unit.classes unit'.classes := by
  have legal := CompilationUnit.legal_of_ofSource? h
  obtain ⟨c, t', s', hrun, hs, hparts⟩ := run_fold_ofUnit legal
  refine ⟨c, t', unit.propagate.unplaced, hrun, Tree.unit?_of_parts hs hparts,
    CompilationUnit.alike_propagate legal, fun convert => ?_⟩
  refine List.forall₂_map_right_iff.mpr (List.forall₂_map_right_iff.mpr (List.forall₂_same.mpr fun c hc => ?_))
  exact ClassDecl.converts_propagate (legal c hc) _

/-- Whether no member of the program of a source text gives a value before its conversion to a variable that is known
by the value it is given, if the text is one of a program. -/
def unmixedSource? (convert : Option Ty → Literal → Literal) (source : String) : Option Bool :=
  (CompilationUnit.ofSource? source).toOption.map fun parsed =>
    parsed.1.classes.all fun c => c.members.all (Member.unmixed (.ofOthers convert) c.fields)

/-- A number that is assigned to a `long` and to an `int`. -/
theorem fold_keepsConverted_long : unmixedSource? (fun _ v => v)
      "class A { long l; int m(long a) { int x = 2; l = a = x; f(a += x * 3); return x; } }" = some true ∧
    ∃ unit comments, CompilationUnit.ofSource?
        "class A { long l; int m(long a) { int x = 2; l = a = x; f(a += x * 3); return x; } }" = .ok (unit, comments) ∧
      ∃ c t' unit', (PassKind.constantPropagation.fold (Tree.ofUnit unit).root).run
          (Tree.ofUnit unit) = .ok c t' ∧
        t'.unit? = .ok unit' ∧ unit.Alike unit' ∧ ∀ convert : Option Ty → Literal → Literal,
          let cv := Conversion.ofOthers convert
          List.Forall₂ (ClassDecl.Converts cv fun fields m => m.unmixed cv fields = true) unit.classes unit'.classes := by
  have hunmixed : unmixedSource? (fun _ v => v)
      "class A { long l; int m(long a) { int x = 2; l = a = x; f(a += x * 3); return x; } }" = some true := by
    decide +kernel
  obtain ⟨⟨unit, comments⟩, hparsed, -⟩ := Option.map_eq_some_iff.mp hunmixed
  have h := eq_ok_of_toOption hparsed
  exact ⟨hunmixed, unit, comments, h, fold_keepsConverted h⟩

/-- The calls of the first member of a program where all variables of other types take the text `1.0`, which is what a
string shows of the number one in a `double`. -/
def callsConverted? (unit : CompilationUnit) : Option (List (Execution.Called Literal)) := do
  let c ← unit.classes[0]?
  let m ← c.members[0]?
  return (m.runIn (.converting (.ofOthers fun _ _ => .str "1.0")) c.fields .silent [] (fun _ => .null) 0).calls

theorem callsConverted?_eq {unit unit' : CompilationUnit} (h : List.Forall₂
    (ClassDecl.Converts (.ofOthers fun _ _ => .str "1.0") fun _ _ => True) unit.classes unit'.classes) :
    callsConverted? unit' = callsConverted? unit := by
  unfold callsConverted?
  generalize unit.classes = cs, unit'.classes = cs' at h ⊢
  cases h with
  | nil => rfl
  | @cons c c' _ _ hclass _ =>
    obtain ⟨hfields, hmembers⟩ := hclass
    rw [List.getElem?_cons_zero, List.getElem?_cons_zero, Option.bind_eq_bind, Option.bind_some, Option.bind_some,
      hfields]
    generalize hms : c.members = ms, hms' : c'.members = ms' at hmembers ⊢
    cases hmembers with
    | nil => rfl
    | cons hmember _ =>
      exact congrArg (fun run => some (run .silent [] (fun _ => .null) 0).calls) (hmember trivial)

/-- A string to which a `double` is joined while it is assigned gets known as if the number that is assigned were
joined to it. -/
theorem fold_skips_conversion : ∃ unit comments,
    CompilationUnit.ofSource? "class A \x7b void m() \x7b double d; String s = \"\" + (d = 1); f(s); \x7d \x7d" =
        .ok (unit, comments) ∧
      ∃ c t' unit', (PassKind.constantPropagation.fold (Tree.ofUnit unit).root).run
          (Tree.ofUnit unit) = .ok c t' ∧
        t'.unit? = .ok unit' ∧ ∃ convert : Option Ty → Literal → Literal,
          ¬ List.Forall₂ (ClassDecl.Converts (.ofOthers convert) fun _ _ => True) unit.classes unit'.classes := by
  have hcalls : (CompilationUnit.ofSource?
      "class A \x7b void m() \x7b double d; String s = \"\" + (d = 1); f(s); \x7d \x7d").toOption.map
        (fun parsed => (callsConverted? parsed.1, callsConverted? parsed.1.propagate.unplaced)) =
      some (some [⟨"f", [.str "1.0"]⟩], some [⟨"f", [.str "1"]⟩]) := by decide +kernel
  obtain ⟨⟨unit, comments⟩, hparsed, hcalls⟩ := Option.map_eq_some_iff.mp hcalls
  have h := eq_ok_of_toOption hparsed
  obtain ⟨c, t', s', hrun, hs, hparts⟩ := run_fold_ofUnit (CompilationUnit.legal_of_ofSource? h)
  refine ⟨unit, comments, h, c, t', unit.propagate.unplaced, hrun, Tree.unit?_of_parts hs hparts,
    fun _ _ => .str "1.0", fun hsame => ?_⟩
  obtain ⟨hold, hnew⟩ := Prod.mk.inj hcalls
  have hcalls := hold.symm.trans ((callsConverted?_eq hsame).symm.trans hnew)
  exact absurd hcalls (by decide)

end Constants

end JavaFold
