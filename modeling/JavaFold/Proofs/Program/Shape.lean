import JavaFold.Program.Basic

/-!
# Shapes of statements

What is left of statements when only blocks, loops, branches and simple statements are told apart
(`CompilationUnit.shapes`), and the marks that a text has for them. Marks do not say which `if` an `else`
belongs to, so that shapes with the same marks may differ; but those in which each `else` belongs to the same
`if` are equal (`Shape.eqAll_of_owners`), and so are those in which each `else` belongs to the nearest `if`
(`Shape.eqAll_of_nearest`).
-/

namespace JavaFold

/-- What is left of a statement. -/
inductive Shape
  | simple
  | block (ss : List Shape)
  | loop (body : Shape)
  | branch (thenBranch : Shape)
  | choice (thenBranch elseBranch : Shape)

/-- What is left of a text with statements: the ends of simple statements, the braces, and the words that
loops and branches start with. -/
inductive Mark
  | stop
  | opens
  | closes
  | loop
  | branch
  | otherwise
deriving DecidableEq, Repr

namespace Shape

mutual

/-- The marks of a shape. -/
def marks : Shape → List Mark
  | simple => [.stop]
  | block ss => .opens :: (marksAll ss ++ [.closes])
  | loop b => .loop :: marks b
  | branch t => .branch :: marks t
  | choice t e => .branch :: (marks t ++ .otherwise :: marks e)

def marksAll : List Shape → List Mark
  | [] => []
  | s :: ss => marks s ++ marksAll ss

end

mutual

/-- How many branches there are. -/
def branches : Shape → Nat
  | simple => 0
  | block ss => branchesAll ss
  | loop b => branches b
  | branch t => branches t + 1
  | choice t e => branches t + branches e + 1

def branchesAll : List Shape → Nat
  | [] => 0
  | s :: ss => branches s + branchesAll ss

end

mutual

/-- For each `else`, in the order of the text, which `if` it belongs to: they are numbered in the order of the
text, from `n` on. -/
def owners (n : Nat) : Shape → List Nat
  | simple => []
  | block ss => ownersAll n ss
  | loop b => owners n b
  | branch t => owners (n + 1) t
  | choice t e => owners (n + 1) t ++ n :: owners (n + 1 + branches t) e

def ownersAll (n : Nat) : List Shape → List Nat
  | [] => []
  | s :: ss => owners n s ++ ownersAll (n + branches s) ss

end

/-- Whether an `else` after the shape would belong to an `if` in it. -/
def takesElse : Shape → Bool
  | branch _ => true
  | choice _ e => takesElse e
  | loop b => takesElse b
  | simple | block _ => false

mutual

/-- Each `else` belongs to the nearest `if`. -/
def Nearest : Shape → Prop
  | simple => True
  | block ss => NearestAll ss
  | loop b => Nearest b
  | branch t => Nearest t
  | choice t e => t.takesElse = false ∧ Nearest t ∧ Nearest e

def NearestAll : List Shape → Prop
  | [] => True
  | s :: ss => Nearest s ∧ NearestAll ss

end

mutual

def decideNearest : ∀ s : Shape, Decidable s.Nearest
  | simple => .isTrue trivial
  | block ss => decideNearestAll ss
  | loop b => decideNearest b
  | branch t => decideNearest t
  | choice t e =>
    have := decideNearest t
    have := decideNearest e
    inferInstanceAs (Decidable (_ ∧ _ ∧ _))

def decideNearestAll : ∀ ss : List Shape, Decidable (NearestAll ss)
  | [] => .isTrue trivial
  | s :: ss =>
    have := decideNearest s
    have := decideNearestAll ss
    inferInstanceAs (Decidable (_ ∧ _))

end

instance (ss : List Shape) : Decidable (NearestAll ss) := decideNearestAll ss

/-! ## Shapes with the same marks -/

/-- A shape starts with a mark that neither closes a block nor goes on with a branch. -/
theorem exists_mark (s : Shape) : ∃ m ms, s.marks = m :: ms ∧ m ≠ .closes ∧ m ≠ .otherwise := by
  cases s <;> exact ⟨_, _, by rw [marks], by decide, by decide⟩

/-- No `else` stands where the next shape or the end of a block does. -/
theorem head?_marksAll (ss : List Shape) (rest : List Mark) :
    (marksAll ss ++ Mark.closes :: rest).head? ≠ some .otherwise := by
  cases ss with
  | nil => simp [marksAll]
  | cons s ss =>
    obtain ⟨m, ms, hmarks, -, hm⟩ := s.exists_mark
    simp [marksAll, hmarks, hm]

/-- Shapes that start with the closing of a block are none. -/
theorem marksAll_ne_closes (s : Shape) (ss : List Shape) (u v : List Mark) :
    Mark.closes :: u ≠ marksAll (s :: ss) ++ v := by
  obtain ⟨m, ms, hmarks, hm, -⟩ := s.exists_mark
  simp [marksAll, hmarks, hm.symm]

/-- The text after a shape goes on with no `else` that an `if` in the shape would take. -/
def EndsBefore (s : Shape) (rest : List Mark) : Prop := s.takesElse = true → rest.head? ≠ some .otherwise

theorem endsBefore_of_not {s : Shape} (h : s.takesElse = false) (rest : List Mark) : s.EndsBefore rest :=
  fun htakes => absurd (h.symm.trans htakes) Bool.false_ne_true

mutual

/-- A shape in which each `else` belongs to the nearest `if` is known from its marks. -/
theorem eq_of_nearest : ∀ {s s' : Shape}, s.Nearest → s'.Nearest → ∀ {u u' : List Mark},
    s.EndsBefore u → s'.EndsBefore u' → s.marks ++ u = s'.marks ++ u' → s = s' ∧ u = u'
  | simple, s', _, _, u, u', _, _, h => by
    cases s' <;> simp [marks] at h
    exact ⟨rfl, h⟩
  | block ss, s', hn, hn', u, u', _, _, h => by
    cases s' with
    | block ss' =>
      have hss : NearestAll ss := hn
      have hss' : NearestAll ss' := hn'
      simp only [marks, List.cons_append, List.append_assoc, List.cons.injEq, true_and] at h
      obtain ⟨rfl, hrest⟩ := eqAll_of_nearest hss hss' h
      exact ⟨rfl, hrest⟩
    | _ => simp [marks] at h
  | loop b, s', hn, hn', u, u', hu, hu', h => by
    cases s' with
    | loop b' =>
      have hb : b.Nearest := hn
      have hb' : b'.Nearest := hn'
      obtain ⟨rfl, hrest⟩ := eq_of_nearest hb hb' hu hu' (List.cons.inj h).2
      exact ⟨rfl, hrest⟩
    | _ => simp [marks] at h
  | branch t, s', hn, hn', u, u', hu, hu', h => by
    have ht : t.Nearest := hn
    cases s' with
    | branch t' =>
      have ht' : t'.Nearest := hn'
      obtain ⟨rfl, hrest⟩ := eq_of_nearest ht ht' (fun _ => hu rfl) (fun _ => hu' rfl) (List.cons.inj h).2
      exact ⟨rfl, hrest⟩
    | choice t' e' =>
      simp only [marks, List.cons_append, List.append_assoc, List.cons.injEq, true_and] at h
      -- the first text would go on with the `else` of the second one
      obtain ⟨-, rfl⟩ := eq_of_nearest ht hn'.2.1 (fun _ => hu rfl) (endsBefore_of_not hn'.1 _) h
      exact absurd rfl (hu rfl)
    | _ => simp [marks] at h
  | choice t e, s', hn, hn', u, u', hu, hu', h => by
    cases s' with
    | branch t' =>
      have ht' : t'.Nearest := hn'
      simp only [marks, List.cons_append, List.append_assoc, List.cons.injEq, true_and] at h
      obtain ⟨-, rfl⟩ := eq_of_nearest hn.2.1 ht' (endsBefore_of_not hn.1 _) (fun _ => hu' rfl) h
      exact absurd rfl (hu' rfl)
    | choice t' e' =>
      simp only [marks, List.cons_append, List.append_assoc, List.cons.injEq, true_and] at h
      obtain ⟨rfl, helse⟩ := eq_of_nearest hn.2.1 hn'.2.1 (endsBefore_of_not hn.1 _) (endsBefore_of_not hn'.1 _) h
      obtain ⟨rfl, hrest⟩ := eq_of_nearest hn.2.2 hn'.2.2 hu hu' (List.cons.inj helse).2
      exact ⟨rfl, hrest⟩
    | _ => simp [marks] at h

theorem eqAll_of_nearest : ∀ {ss ss' : List Shape}, NearestAll ss → NearestAll ss' → ∀ {u u' : List Mark},
    marksAll ss ++ Mark.closes :: u = marksAll ss' ++ Mark.closes :: u' → ss = ss' ∧ u = u'
  | [], [], _, _, _, _, h => ⟨rfl, (List.cons.inj h).2⟩
  | [], s' :: ss', _, _, u, _, h => absurd h (marksAll_ne_closes s' ss' u _)
  | s :: ss, [], _, _, _, u', h => absurd h.symm (marksAll_ne_closes s ss u' _)
  | s :: ss, s' :: ss', hn, hn', u, u', h => by
    rw [marksAll, marksAll, List.append_assoc, List.append_assoc] at h
    obtain ⟨rfl, hrest⟩ := eq_of_nearest hn.1 hn'.1 (fun _ => head?_marksAll ss u)
      (fun _ => head?_marksAll ss' u') h
    obtain ⟨rfl, hu⟩ := eqAll_of_nearest hn.2 hn'.2 hrest
    exact ⟨rfl, hu⟩

end

/-- The text goes on with no `else` that belongs to an `if` from the one with number `n` on. -/
def OwnedBelow (n : Nat) (rest : List Mark) (later : List Nat) : Prop :=
  rest.head? = some .otherwise → ∃ m more, later = m :: more ∧ m < n

theorem OwnedBelow.mono {n k : Nat} {rest : List Mark} {later : List Nat} (h : OwnedBelow n rest later)
    (hk : n ≤ k) : OwnedBelow k rest later := by
  intro hrest
  obtain ⟨m, more, hlater, hm⟩ := h hrest
  exact ⟨m, more, hlater, Nat.lt_of_lt_of_le hm hk⟩

theorem ownedBelow_else (n : Nat) (rest : List Mark) (later : List Nat) :
    OwnedBelow (n + 1) (.otherwise :: rest) (n :: later) := fun _ => ⟨n, later, rfl, Nat.lt_succ_self n⟩

theorem ownedBelow_marksAll (n : Nat) (ss : List Shape) (rest : List Mark) (later : List Nat) :
    OwnedBelow n (marksAll ss ++ Mark.closes :: rest) later := fun h => absurd h (head?_marksAll ss rest)

/-- An `else` does not belong to an `if` that is complete. -/
theorem not_ownedBelow_self (n : Nat) (rest : List Mark) (later : List Nat) :
    ¬OwnedBelow n (.otherwise :: rest) (n :: later) := by
  intro h
  obtain ⟨m, more, hlater, hm⟩ := h rfl
  exact Nat.lt_irrefl m ((List.cons.inj hlater).1 ▸ hm)

mutual

/-- A shape is known from its marks and from which `if` each `else` belongs to. -/
theorem eq_of_owners : ∀ {s s' : Shape} {n : Nat} {u u' : List Mark} {v v' : List Nat}, OwnedBelow n u v →
    OwnedBelow n u' v' → s.marks ++ u = s'.marks ++ u' → s.owners n ++ v = s'.owners n ++ v' →
      s = s' ∧ u = u' ∧ v = v'
  | simple, s', n, u, u', v, v', _, _, h, ho => by
    cases s' <;> simp [marks] at h
    exact ⟨rfl, h, ho⟩
  | block ss, s', n, u, u', v, v', _, _, h, ho => by
    cases s' with
    | block ss' =>
      simp only [marks, List.cons_append, List.append_assoc, List.cons.injEq, true_and] at h
      obtain ⟨rfl, hrest, hlater⟩ := eqAll_of_owners h ho
      exact ⟨rfl, hrest, hlater⟩
    | _ => simp [marks] at h
  | loop b, s', n, u, u', v, v', hu, hu', h, ho => by
    cases s' with
    | loop b' =>
      simp only [marks, List.cons_append, List.cons.injEq, true_and] at h
      obtain ⟨rfl, hrest⟩ := eq_of_owners hu hu' h ho
      exact ⟨rfl, hrest⟩
    | _ => simp [marks] at h
  | branch t, s', n, u, u', v, v', hu, hu', h, ho => by
    cases s' with
    | branch t' =>
      simp only [marks, List.cons_append, List.cons.injEq, true_and] at h
      obtain ⟨rfl, hrest⟩ := eq_of_owners (hu.mono n.le_succ) (hu'.mono n.le_succ) h ho
      exact ⟨rfl, hrest⟩
    | choice t' e' =>
      simp only [marks, List.cons_append, List.append_assoc, List.cons.injEq, true_and] at h
      simp only [owners, List.append_assoc, List.cons_append] at ho
      obtain ⟨-, rfl, rfl⟩ := eq_of_owners (hu.mono n.le_succ) (ownedBelow_else n _ _) h ho
      exact absurd hu (not_ownedBelow_self n _ _)
    | _ => simp [marks] at h
  | choice t e, s', n, u, u', v, v', hu, hu', h, ho => by
    cases s' with
    | branch t' =>
      simp only [marks, List.cons_append, List.append_assoc, List.cons.injEq, true_and] at h
      simp only [owners, List.append_assoc, List.cons_append] at ho
      obtain ⟨-, rfl, rfl⟩ := eq_of_owners (ownedBelow_else n _ _) (hu'.mono n.le_succ) h ho
      exact absurd hu' (not_ownedBelow_self n _ _)
    | choice t' e' =>
      simp only [marks, List.cons_append, List.append_assoc, List.cons.injEq, true_and] at h
      simp only [owners, List.append_assoc, List.cons_append] at ho
      obtain ⟨rfl, helse, hlater⟩ := eq_of_owners (ownedBelow_else n _ _)
        (ownedBelow_else n _ _) h ho
      have hle : n ≤ n + 1 + branches t := by omega
      obtain ⟨rfl, hrest⟩ := eq_of_owners (hu.mono hle) (hu'.mono hle) (List.cons.inj helse).2
        (List.cons.inj hlater).2
      exact ⟨rfl, hrest⟩
    | _ => simp [marks] at h

theorem eqAll_of_owners : ∀ {ss ss' : List Shape} {n : Nat} {u u' : List Mark} {v v' : List Nat},
    marksAll ss ++ Mark.closes :: u = marksAll ss' ++ Mark.closes :: u' →
      ownersAll n ss ++ v = ownersAll n ss' ++ v' → ss = ss' ∧ u = u' ∧ v = v'
  | [], [], _, _, _, _, _, h, ho => ⟨rfl, (List.cons.inj h).2, ho⟩
  | [], s' :: ss', _, u, _, _, _, h, _ => absurd h (marksAll_ne_closes s' ss' u _)
  | s :: ss, [], _, _, u', _, _, h, _ => absurd h.symm (marksAll_ne_closes s ss u' _)
  | s :: ss, s' :: ss', n, u, u', v, v', h, ho => by
    rw [marksAll, marksAll, List.append_assoc, List.append_assoc] at h
    rw [ownersAll, ownersAll, List.append_assoc, List.append_assoc] at ho
    obtain ⟨rfl, hrest, hlater⟩ := eq_of_owners (ownedBelow_marksAll n ss u _) (ownedBelow_marksAll n ss' u' _) h ho
    obtain ⟨rfl, hu⟩ := eqAll_of_owners hrest hlater
    exact ⟨rfl, hu⟩

end

end Shape

/-! ## Shapes of programs -/

mutual

/-- What is left of a statement. The first part of a `for` has no shape. -/
def Stmt.shape : Stmt → Shape
  | block _ ss => .block (shapeAll ss)
  | ifElse _ _ t none => .branch (shape t)
  | ifElse _ _ t (some e) => .choice (shape t) (shape e)
  | whileLoop _ _ b | forLoop _ _ _ _ b => .loop (shape b)
  | expr _ _ | localVar _ _ _ _ | ret _ _ | brk _ | cont _ | empty _ => .simple

def Stmt.shapeAll : List Stmt → List Shape
  | [] => []
  | s :: ss => shape s :: shapeAll ss

end

/-- A field ends like a simple statement, and a method has braces around its statements. -/
def Member.shape : Member → Shape
  | field _ _ => .simple
  | method _ d => .block (Stmt.shapeAll d.body.stmts)

def ClassDecl.shape (c : ClassDecl) : Shape := .block (c.members.map Member.shape)

namespace CompilationUnit

def shapes (unit : CompilationUnit) : List Shape := unit.classes.map ClassDecl.shape

/-- How many `if` statements a program has. -/
def branches (unit : CompilationUnit) : Nat := Shape.branchesAll unit.shapes

/-- For each `else` of a program, in the order of the text, the number of the `if` it belongs to. -/
def owners (unit : CompilationUnit) : List Nat := Shape.ownersAll 0 unit.shapes

/-- Each `else` of a program belongs to the nearest `if` before it that no brace separates from it: what
stands between the two takes no `else`. -/
def ElsesNearest (unit : CompilationUnit) : Prop := Shape.NearestAll unit.shapes

instance (unit : CompilationUnit) : Decidable unit.ElsesNearest := inferInstanceAs (Decidable (Shape.NearestAll _))

end CompilationUnit

end JavaFold
