import JavaFold.Proofs.Folding.Comments
import JavaFold.Proofs.Pass.Signed
import JavaFold.Proofs.Program.Reread.Signs

/-!
# Folding again

A folded text is read as a program on which all passes are idle, whose tokens are at the places where they were
written. So every comment goes where it was, and folding the text gives the text again (`foldSource_again`).
The one exception is a minus sign in front of zero: it is read together with the zero, and lost
(`foldSource_loses_minus`).
-/

namespace JavaFold

open Writer (isBlock Position)

/-! ## A tree keeps what is printed -/

namespace Expr

mutual

theorem bare_unplaced : ∀ e : Expr, e.unplaced.bare = e.bare
  | literal _ _ | name _ _ => rfl
  | binary _ op l r => congrArg₂ (binary .dummy op) (bare_unplaced l) (bare_unplaced r)
  | unary _ op e => congrArg (unary .dummy op) (bare_unplaced e)
  | postStep _ op e => congrArg (postStep .dummy op) (bare_unplaced e)
  | assign _ op t v => congrArg₂ (assign .dummy op) (bare_unplaced t) (bare_unplaced v)
  | call _ path args => congrArg (call .dummy (.made path.value)) (bareAll_unplacedAll args)

theorem bareAll_unplacedAll : ∀ es : List Expr, bareAll (unplacedAll es) = bareAll es
  | [] => rfl
  | e :: es => congrArg₂ List.cons (bare_unplaced e) (bareAll_unplacedAll es)

end

theorem layout_unplaced (e : Expr) : e.unplaced.layout = e.layout := by
  rw [← layout_bare, bare_unplaced, layout_bare]

theorem wrapped_unplaced (indent line : String) (e : Expr) : e.unplaced.wrapped indent line = e.wrapped indent line := by
  rw [← wrapped_bare, bare_unplaced, wrapped_bare]

theorem headerLayout_unplaced (e : Option Expr) : headerLayout (e.map unplaced) = headerLayout e := by
  cases e with
  | none => rfl
  | some e => simp only [Option.map_some, headerLayout, layout_unplaced]

end Expr

theorem initLayout_unplaced (indent line : String) (e : Option Expr) :
    initLayout indent line (e.map Expr.unplaced) = initLayout indent line e := by
  cases e with
  | none => rfl
  | some e => simp only [Option.map_some, initLayout, Expr.wrapped_unplaced]

namespace Stmt

open JavaFold.Expr (layout_unplaced wrapped_unplaced headerLayout_unplaced)

theorem isBlock_unplaced (s : Stmt) : isBlock s.unplaced = isBlock s := by
  rw [unplaced_eq_map, isBlock_map]

theorem simpleLayout_unplaced (indent line : String) (s : Stmt) :
    s.unplaced.simpleLayout indent line = s.simpleLayout indent line := by
  cases s with
  | localVar span ty name e => simp only [unplaced, simpleLayout, initLayout_unplaced, Spanned.made]
  | expr span e => exact wrapped_unplaced indent line e
  | ifElse span c t e => cases e <;> rfl
  | forLoop span i c u b => cases i <;> rfl
  | _ => rfl

theorem endLayout_unplaced (body : Stmt) : endLayout body.unplaced = endLayout body := by
  rw [endLayout, endLayout, isBlock_unplaced]

mutual

/-- What a tree keeps of a statement is printed as the statement. -/
theorem layout_unplaced_stmt (position : Position) (indent : String) : ∀ s : Stmt,
    s.unplaced.layout position indent = s.layout position indent
  | block span ss => by
    simp only [unplaced, layout, layouts_unplaced _ ss]
  | expr span e => by
    simp only [unplaced, layout, wrapped_unplaced]
  | localVar span ty name e => by
    have hs := fun inner => simpleLayout_unplaced inner inner (localVar span ty name e)
    simp only [unplaced] at hs
    simp only [unplaced, layout, hs]
  | ifElse span c t none => by
    simp only [unplaced, layout, Expr.layout_unplaced, layout_unplaced_stmt _ _ t, endLayout_unplaced]
  | ifElse span c t (some e) => by
    simp only [unplaced, layout, Expr.layout_unplaced, layout_unplaced_stmt _ _ t, layout_unplaced_stmt _ _ e,
      endLayout_unplaced, isBlock_unplaced]
  | whileLoop span c b => by
    simp only [unplaced, layout, Expr.layout_unplaced, layout_unplaced_stmt _ _ b, endLayout_unplaced]
  | forLoop span none c u b => by
    simp only [unplaced, layout, headerLayout_unplaced, layout_unplaced_stmt _ _ b, endLayout_unplaced, Option.map_none]
  | forLoop span (some i) c u b => by
    simp only [unplaced, layout, headerLayout_unplaced, layout_unplaced_stmt _ _ b, endLayout_unplaced,
      simpleLayout_unplaced, Option.map_some]
  | ret span none => rfl
  | ret span (some e) => by
    simp only [unplaced, layout, Option.map_some, wrapped_unplaced]
  | brk span | cont span | empty span => rfl

theorem layouts_unplaced (indent : String) : ∀ ss : List Stmt,
    layouts indent (unplacedAll ss) = layouts indent ss
  | [] => rfl
  | s :: ss => congrArg₂ (· ++ ·) (layout_unplaced_stmt .ownLine indent s) (layouts_unplaced indent ss)

end

end Stmt

namespace Member

theorem layout_unplaced_member (indent : String) (m : Member) : m.unplaced.layout indent = m.layout indent := by
  cases m with
  | field s d =>
    simp only [unplaced, FieldDecl.unplaced, layout, initLayout_unplaced, Spanned.made]
  | method s d =>
    simp only [unplaced, MethodDecl.unplaced, layout, Stmt.layouts_unplaced, Spanned.made]

theorem isMethod_unplaced (m : Member) : Writer.isMethod m.unplaced = Writer.isMethod m := by
  cases m <;> rfl

theorem layoutsAfter_unplaced (indent : String) : ∀ (ms : List Member) (previous : Member),
    layoutsAfter indent previous.unplaced (ms.map unplaced) = layoutsAfter indent previous ms
  | [], _ => rfl
  | m :: ms, previous => by
    simp only [List.map_cons, layoutsAfter, isMethod_unplaced, layout_unplaced_member, layoutsAfter_unplaced _ ms m]

theorem layouts_unplaced_members (indent : String) (ms : List Member) :
    layouts indent (ms.map unplaced) = layouts indent ms := by
  cases ms with
  | nil => rfl
  | cons m ms => simp only [List.map_cons, layouts, layout_unplaced_member, layoutsAfter_unplaced]

end Member

namespace ClassDecl

theorem layout_unplaced_class (c : ClassDecl) : c.unplaced.layout = c.layout := by
  simp only [unplaced, layout, Member.layouts_unplaced_members, Spanned.made]

theorem layouts_unplaced_classes : ∀ cs : List ClassDecl, layouts (cs.map unplaced) = layouts cs
  | [] => rfl
  | [c] => layout_unplaced_class c
  | c :: d :: cs => by
    have ih := layouts_unplaced_classes (d :: cs)
    simp only [List.map_cons] at ih ⊢
    simp only [layouts, layout_unplaced_class, ih]

end ClassDecl

namespace CompilationUnit

/-- What a tree keeps of a program is printed as the program. -/
theorem layout_unplaced_unit (unit : CompilationUnit) : unit.unplaced.layout = unit.layout := by
  rw [layout, layout, unplaced, ClassDecl.layouts_unplaced_classes]

/-! ## The text of what was read -/

variable {unit again : CompilationUnit} {comments : List Comment}

/-- A program of which nothing is written has no classes. -/
theorem classes_eq_nil (h : (Segment.fillAll unit.layout comments).1 = []) : unit.classes = [] := by
  have htokens := Segment.tokens_fillAll unit.layout comments
  rw [h, layout, Segment.tokens_append] at htokens
  cases hclasses : unit.classes with
  | nil => rfl
  | cons c cs =>
    obtain ⟨t, more, ht, -⟩ := ClassDecl.startsWith_layout c
    rw [hclasses, ClassDecl.tokens_layouts_cons, ht] at htokens
    cases htokens

/-- Where every token of a program was read at its place, what was read is written as the same text: each
comment goes where it was. -/
theorem text_relocate (h : unit.Legal) (hcs : ∀ c ∈ comments, IsComment c.text)
    (hlayout : again.layout = Segment.relocate unit.layout (Lexed.ofSource (unit.text comments)).tokens) :
    again.text (Lexed.ofSource (unit.text comments)).comments = unit.text comments := by
  have hfill : (Segment.fillAll again.layout (Lexed.ofSource (unit.text comments)).comments).1 =
      (Segment.fillAll unit.layout comments).1 := by
    rw [hlayout, ofSource_text h.spelled hcs]
    rcases unit.items_cases comments with ⟨hnil, heq⟩ | heq
    · -- a line end is written, and no comment is read from it
      rw [heq, hnil, layout, classes_eq_nil hnil]
      rfl
    · have hfill := @Segment.fillAll_relocate _ _ _ .origin (spaced_layout h.spelled) hcs (Nat.le_refl 0) fun _ => rfl
      dsimp only at hfill
      rw [heq, hfill]
  have hitems : again.items (Lexed.ofSource (unit.text comments)).comments = unit.items comments := by
    rw [items, items, hfill]
  have hcs' := Lexed.isComment_ofSource (ofSource_text_reads h hcs).1
  calc again.text (Lexed.ofSource (unit.text comments)).comments
    _ = Item.join (again.items (Lexed.ofSource (unit.text comments)).comments) := text_eq_join again hcs'
    _ = Item.join (unit.items comments) := by rw [hitems]
    _ = unit.text comments := (text_eq_join unit hcs).symm

/-- Where the text of what was read is the text that it was read from, no minus sign has been lost. -/
theorem minuses_of_text_eq {comments' : List Comment} (h : unit.Legal) (hcs : ∀ c ∈ comments, IsComment c.text)
    (hagain : again.Legal) (hcs' : ∀ c ∈ comments', IsComment c.text)
    (htext : again.text comments' = unit.text comments) :
    Segment.minuses again.layout = Segment.minuses unit.layout := by
  obtain ⟨-, htokens, -⟩ := ofSource_text_reads h hcs
  obtain ⟨-, htokens', -⟩ := ofSource_text_reads hagain hcs'
  rw [htext, htokens] at htokens'
  rw [Segment.minuses, Segment.minuses, List.append_inj_left' htokens' rfl]

/-- Where no minus sign is in front of a number, none is in front of zero. -/
theorem negatesZero_of_signed_eq (h : unit.Legal) (hsigned : unit.signed = unit) : unit.negatesZero = false := by
  have hfewer := minuses_reread h h (by rw [hsigned])
  cases hzero : unit.negatesZero with
  | false => rfl
  | true =>
    rw [hzero] at hfewer
    exact absurd hfewer (Nat.not_succ_le_self _)

end CompilationUnit

/-! ## Folding what was folded -/

/-- In a sweep that changes nothing, nothing is reported to have changed. -/
theorem Report.changed_add_start (names : List String) {changed : List Bool} (h : ∀ c ∈ changed, c = false) :
    ((Report.start names).add changed).changed = false := by
  refine Bool.eq_false_iff.mpr fun hany => ?_
  obtain ⟨entry, hmem, hentry⟩ := List.any_eq_true.mp hany
  obtain ⟨i, hi, rfl⟩ := List.getElem_of_mem hmem
  simp [Report.start, Report.add, h _ (List.getElem_mem _)] at hentry

namespace FoldOptions

open PassKind (IdleAll)

variable {options : FoldOptions} {unit again : CompilationUnit}

/-- Folding a program on which all passes are idle takes one sweep, and changes nothing. -/
theorem run_foldTree_idle (hsweeps : 0 < options.maxSweeps) (hidle : IdleAll options.passes unit) :
    ∃ report t, options.foldTree.run (.ofUnit unit) = .ok report t ∧ report.sweeps = 1 ∧
      report.changed = false ∧ t.Holds unit := by
  obtain ⟨t, ht, hrun⟩ := FixedPoint.run_sweep_idle options.passes (Tree.holds_ofUnit unit) hidle
  obtain ⟨left, hleft⟩ := Nat.exists_eq_succ_of_ne_zero (Nat.ne_of_gt hsweeps)
  have hgo : (FixedPoint.run (options.passes.map (PassKind.pass (σ := Unit))) options.maxSweeps).run
      (.ofUnit unit, ()) = .ok ((Report.start ((options.passes.map (PassKind.pass (σ := Unit))).map (·.name))).add
        (options.passes.map fun _ => false)) (t, ()) := by
    rw [FixedPoint.run, hleft]
    exact (FixedPoint.run_go_succ hrun).trans (if_neg (by simp))
  exact ⟨_, t, EditWith.run_alone hgo, rfl, Report.changed_add_start _ (by simp), ht⟩

/-- Of a source text that was folded, the program, and what was folded and read from its tree again. -/
theorem foldSource_eq_ok {source path : String} {folded : Folded} (hemit : options.emit = .source)
    (h : options.foldSource source path = .ok folded) :
    ∃ unit comments t g, CompilationUnit.ofSource? source = .ok (unit, comments) ∧
      options.foldTree.run (.ofUnit unit) = .ok folded.report t ∧ t.unit? = .ok g ∧ folded.text = g.text comments := by
  unfold foldSource at h
  split at h
  · cases h
  · next unit comments hsource =>
    split at h
    · cases h
    · next report t hrun =>
      rw [write, hemit] at h
      cases hread : t.unit? with
      | error e =>
        rw [hread] at h
        cases h
      | ok g =>
        rw [hread] at h
        cases h
        exact ⟨unit, comments, t, g, hsource, hrun, hread, rfl⟩

/-- Folding ends with a program on which all passes are idle. -/
theorem idle_of_run_foldTree {g : CompilationUnit} {report : Report} {t : Tree} (hsweeps : 3 ≤ options.maxSweeps)
    (hlegal : unit.Legal) (hrun : options.foldTree.run (.ofUnit unit) = .ok report t) (hread : t.unit? = .ok g) :
    ∃ u : CompilationUnit, u.Legal ∧ IdleAll options.passes u ∧ g = u.unplaced := by
  obtain ⟨report', t', m, hrun', -, ht, hidle⟩ :=
    @run_foldTree options unit 2 hsweeps (PassKind.idleAll_applyAll_twice options.passes unit)
  rw [hrun] at hrun'
  cases hrun'
  rw [ht.unit?_eq] at hread
  cases hread
  exact ⟨_, PassKind.legal_applyAll_iterate options.passes hlegal m, hidle, rfl⟩

/-- A folded text, folded again: no pass finds anything to do, and the text stays as it is, with its comments,
unless it has a minus sign in front of zero. Constant propagation leaves none. -/
theorem foldSource_again {source path path' : String} {first again : Folded} (hemit : options.emit = .source)
    (hsweeps : 3 ≤ options.maxSweeps) (hfirst : options.foldSource source path = .ok first)
    (hagain : options.foldSource first.text path' = .ok again) :
    again.report.sweeps = 1 ∧ again.report.changed = false ∧
      ∃ unit comments t g, CompilationUnit.ofSource? source = .ok (unit, comments) ∧
        options.foldTree.run (.ofUnit unit) = .ok first.report t ∧ t.unit? = .ok g ∧
        first.text = g.text comments ∧ (again.text = first.text ↔ g.negatesZero = false) ∧
        (.constantPropagation ∈ options.passes → g.negatesZero = false) := by
  obtain ⟨unit, comments, t, g, hsource, hrun, hread, htext⟩ := foldSource_eq_ok hemit hfirst
  rw [htext] at hagain
  obtain ⟨unit', comments', t', g', hsource', hrun', hread', htext'⟩ := foldSource_eq_ok hemit hagain
  have hunit := CompilationUnit.legal_of_ofSource? hsource
  have hcs := CompilationUnit.isComment_of_ofSource? hsource
  have hg : g.Legal := legal_of_run_foldTree hunit hrun hread
  obtain ⟨u, hu, hidle, hgu⟩ := idle_of_run_foldTree hsweeps hunit hrun hread
  -- what the text is read as
  obtain ⟨-, unit₂, hbare, hlayout, hfits, hdeep⟩ := CompilationUnit.ofSource?_text hg hcs
  have hneed : g.nesting ≤ Problem.nestingLimit := by
    by_contra hneed
    obtain ⟨ds, herror, -⟩ := hdeep (Nat.not_le.mp hneed)
    rw [hsource'] at herror
    cases herror
  rw [hfits hneed] at hsource'
  cases hsource'
  -- what folding it gives
  obtain ⟨report, t₂, hrun₂, hone, hsame, ht₂⟩ := run_foldTree_idle (by omega)
    (PassKind.idleAll_reread hu hidle (by rw [hbare, hgu]))
  rw [hrun₂] at hrun'
  cases hrun'
  rw [ht₂.unit?_eq] at hread'
  cases hread'
  have hlegal' : unit'.Legal := CompilationUnit.legal_of_ofSource? (hfits hneed)
  refine ⟨hone, hsame, unit, comments, t, g, hsource, hrun, hread, htext, ⟨fun heq => ?_, fun hzero => ?_⟩, ?_⟩
  · have hcs' := CompilationUnit.isComment_of_ofSource? (hfits hneed)
    have hminuses := CompilationUnit.minuses_of_text_eq hg hcs (CompilationUnit.legal_unplaced hlegal') hcs'
      (by rw [← htext', heq, htext])
    rw [CompilationUnit.layout_unplaced_unit] at hminuses
    have hfewer := CompilationUnit.minuses_reread hg hlegal' hbare
    cases hzero : g.negatesZero with
    | false => rfl
    | true =>
      rw [hzero, hminuses] at hfewer
      exact absurd hfewer (Nat.not_succ_le_self _)
  · rw [htext', htext]
    refine CompilationUnit.text_relocate hg hcs ?_
    rw [CompilationUnit.layout_unplaced_unit, hlayout hzero]
  · intro hconst
    have hsettled : u.Settled := hidle _ hconst
    exact CompilationUnit.negatesZero_of_signed_eq hg (by rw [hgu, CompilationUnit.signed_of_settled hu hsettled])

/-- A comment in a block that is folded, and one at the end of a line. -/
theorem foldSource_again_folded :
    let options : FoldOptions := ⟨PassKind.all, 3, .source⟩
    let source := "class A \x7b void m() \x7b \x7b /* a */ f(1 + 2); // b\n \x7d \x7d \x7d // c"
    ∃ first again, options.emit = .source ∧ 3 ≤ options.maxSweeps ∧ options.foldSource source "A.java" = .ok first ∧
      options.foldSource first.text "A.java" = .ok again ∧
      again.report.sweeps = 1 ∧ again.report.changed = false ∧
        ∃ unit comments t g, CompilationUnit.ofSource? source = .ok (unit, comments) ∧
          options.foldTree.run (.ofUnit unit) = .ok first.report t ∧ t.unit? = .ok g ∧
          first.text = g.text comments ∧ (again.text = first.text ↔ g.negatesZero = false) ∧
          (.constantPropagation ∈ options.passes → g.negatesZero = false) := by
  intro options source
  have hok : ((options.foldSource source "A.java").bind fun first =>
      options.foldSource first.text "A.java").toOption.isSome = true := by decide +kernel
  cases hfirst : options.foldSource source "A.java" with
  | error e =>
    rw [hfirst] at hok
    cases hok
  | ok first =>
    rw [hfirst] at hok
    cases hagain : options.foldSource first.text "A.java" with
    | error e =>
      rw [Except.bind, hagain] at hok
      cases hok
    | ok again =>
      exact ⟨first, again, rfl, Nat.le_refl 3, rfl, hagain, foldSource_again rfl (Nat.le_refl 3) hfirst hagain⟩

/-- A minus sign in front of a zero in parentheses is written in front of the zero, and then lost. -/
theorem foldSource_loses_minus :
    let options : FoldOptions := ⟨[], 3, .source⟩
    ∃ first again, options.foldSource "class A \x7b int x = -(0); \x7d" "A.java" = .ok first ∧
      options.foldSource first.text "A.java" = .ok again ∧ again.text ≠ first.text := by
  intro options
  have htext : (options.foldSource "class A \x7b int x = -(0); \x7d" "A.java").toOption.map (·.text) =
      some "class A \x7b\n    int x = -0;\n\x7d\n" := by decide +kernel
  have hagain : (options.foldSource "class A \x7b\n    int x = -0;\n\x7d\n" "A.java").toOption.map (·.text) =
      some "class A \x7b\n    int x = 0;\n\x7d\n" := by decide +kernel
  cases hfirst : options.foldSource "class A \x7b int x = -(0); \x7d" "A.java" with
  | error e =>
    rw [hfirst] at htext
    cases htext
  | ok first =>
    rw [hfirst] at htext
    rw [← Option.some.inj htext] at hagain
    cases hsecond : options.foldSource first.text "A.java" with
    | error e =>
      rw [hsecond] at hagain
      cases hagain
    | ok again =>
      refine ⟨first, again, rfl, hsecond, fun heq => ?_⟩
      rw [hsecond] at hagain
      have hzero : first.text = "class A \x7b\n    int x = 0;\n\x7d\n" := heq ▸ Option.some.inj hagain
      have hminus : first.text = "class A \x7b\n    int x = -0;\n\x7d\n" := Option.some.inj htext
      exact absurd (hzero.symm.trans hminus) (by decide)

end FoldOptions

end JavaFold
