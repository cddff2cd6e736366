import JavaFold.Proofs.Program.Execution

/-!
# What running changes

`Expr.written` and `Stmt.written` list the names that may be written to anywhere in a part of a program; a missing name
stands for those that are not local, all of which a call may change, and so may a write to a name with several parts.
`Kept` says that nothing else has changed between two machines. A name of which nothing is written to then stands for
what it stood for before (`Kept.read?`). What depends on nothing else is `Stable`; if it does not depend on the
declarations of the innermost scope either, it is `Outer`.
-/

namespace JavaFold

open Constants (isDotted)

/-- A word has no dots. -/
theorem IsWord.isDotted {name : String} (h : IsWord name) : isDotted name = false := by
  obtain ⟨b, run, hb, hrun, rfl, -⟩ := h
  have hne : ∀ c : UInt8, Ascii.continuesWord c = true → Char.ofNat c.toNat ≠ '.' := by
    intro c hc hdot
    have hnat : c.toNat = (46 : UInt8).toNat := by
      rw [← Ascii.toNat_ofNat, hdot]
      rfl
    rw [UInt8.toNat_inj.mp hnat] at hc
    exact absurd hc (by decide)
  have hall : ∀ c ∈ b :: run, Ascii.continuesWord c = true := by
    exact List.forall_mem_cons.mpr ⟨by simp [Ascii.continuesWord, hb], hrun⟩
  rw [Bool.eq_false_iff, Constants.isDotted, Ascii.text, String.toList_ofList]
  intro hdot
  obtain ⟨c, hc, heq⟩ := List.mem_map.mp (List.contains_iff_mem.mp hdot)
  exact hne c (hall c hc) heq

/-- The name that is written to where an expression is a target. -/
def Expr.target (e : Expr) : Option String := e.name?.filter (!isDotted ·)

namespace Expr

mutual

/-- The names that an expression may write to. -/
def written : Expr → List (Option String)
  | literal _ _ | name _ _ => []
  | binary _ _ l r => written l ++ written r
  | unary _ (.step _) e => e.target :: written e
  | unary _ _ e => written e
  | postStep _ _ e => e.target :: written e
  | assign _ _ t v => t.target :: (written t ++ written v)
  | call _ _ args => none :: writtenAll args

def writtenAll : List Expr → List (Option String)
  | [] => []
  | e :: es => written e ++ writtenAll es

end

/-- The names that an expression may write to if it is there. -/
def writtenOpt (e : Option Expr) : List (Option String) := (e.map written).getD []

end Expr

namespace Stmt

mutual

/-- The names that a statement may write to. -/
def written : Stmt → List (Option String)
  | block _ ss => writtenAll ss
  | expr _ e => e.written
  | localVar _ _ _ init => Expr.writtenOpt init
  | ifElse _ c t none => c.written ++ written t
  | ifElse _ c t (some e) => c.written ++ (written t ++ written e)
  | whileLoop _ c b => c.written ++ written b
  | forLoop _ none c u b => Expr.writtenOpt c ++ (Expr.writtenOpt u ++ written b)
  | forLoop _ (some i) c u b =>
    written i ++ (Expr.writtenOpt c ++ (Expr.writtenOpt u ++ written b))
  | ret _ e => Expr.writtenOpt e
  | brk _ | cont _ | empty _ => []

def writtenAll : List Stmt → List (Option String)
  | [] => []
  | s :: ss => written s ++ writtenAll ss

end

end Stmt

namespace Execution

variable {V σ : Type}

/-! ## Changes of a machine -/

/-- The variables of a scope that have a name, the one declared last first. -/
def named (x : String) (frame : Frame V) : Frame V := frame.filter (·.1 == x)

/-- The names that a scope declares. -/
def names (frame : Frame V) : List String := frame.map Prod.fst

/-- Nothing but the names in `written` has changed, and no variable has been declared or dropped. -/
structure Kept (written : List (Option String)) (m m' : Machine V σ) : Prop where
  names : m'.scopes.map names = m.scopes.map names
  locals : ∀ x, some x ∉ written → isDotted x = false →
    m'.scopes.map (named x) = m.scopes.map (named x)
  fields : ∀ x, some x ∉ written → none ∉ written → isDotted x = false →
    m'.fields x = m.fields x

namespace Kept

variable {W W' : List (Option String)} {m m' : Machine V σ}

/-- Only what a machine says of names matters. -/
theorem of_eq (hscopes : m'.scopes = m.scopes) (hfields : m'.fields = m.fields) : Kept W m m' where
  names := by rw [hscopes]
  locals _ _ _ := by rw [hscopes]
  fields _ _ _ _ := by rw [hfields]

theorem mono (h : Kept W m m') (hW : W ⊆ W') : Kept W' m m' where
  names := h.names
  locals x hx hd := h.locals x (fun h' => hx (hW h')) hd
  fields x hx hn hd := h.fields x (fun h' => hx (hW h')) (fun h' => hn (hW h')) hd

/-- The same below the innermost scope. -/
theorem pop (h : Kept W m m') : Kept W m.pop m'.pop where
  names := by simpa [Machine.pop] using congrArg List.tail h.names
  locals x hx hd := by simpa [Machine.pop] using congrArg List.tail (h.locals x hx hd)
  fields := h.fields

end Kept

theorem names_setFrame (x : String) (v : V) (frame : Frame V) :
    names (setFrame x v frame) = names frame := by
  induction frame with
  | nil => rfl
  | cons e frame ih =>
    unfold setFrame
    split
    · next h => simp [names, h]
    · simpa [names] using ih

theorem named_setFrame {x y : String} (h : y ≠ x) (v : V) (frame : Frame V) :
    named y (setFrame x v frame) = named y frame := by
  induction frame with
  | nil => rfl
  | cons e frame ih =>
    unfold setFrame
    split
    · next he => simp [named, he, h.symm]
    · simp only [named, List.filter_cons] at ih ⊢
      rw [ih]

theorem names_setLocal (x : String) (v : V) (frames : List (Frame V)) :
    (setLocal x v frames).map names = frames.map names := by
  induction frames with
  | nil => rfl
  | cons frame frames ih =>
    unfold setLocal
    split
    · simp [names_setFrame]
    · simp [ih]

theorem named_setLocal {x y : String} (h : y ≠ x) (v : V) (frames : List (Frame V)) :
    (setLocal x v frames).map (named y) = frames.map (named y) := by
  induction frames with
  | nil => rfl
  | cons frame frames ih =>
    unfold setLocal
    split
    · simp [named_setFrame h]
    · simp [ih]

/-- What is written to by writing to `x`. -/
theorem kept_write (w : World V) (x : String) (v : V) (m : Machine V σ) :
    Kept [Option.filter (!isDotted ·) (some x)] m (m.write w x v) where
  names := names_setLocal x v m.scopes
  locals y hy hd := by
    refine named_setLocal (fun h => hy ?_) v m.scopes
    subst h
    simp [Option.filter, hd]
  fields y hy hn hd := by
    have hx : isDotted x = false := by
      cases h : isDotted x with
      | false => rfl
      | true => simp [Option.filter, h] at hn
    have hne : y ≠ x := by
      rintro rfl
      simp [Option.filter, hd] at hy
    simp [Machine.write, hne, hx, hd]

theorem kept_fields {m m' : Machine V σ} (hscopes : m'.scopes = m.scopes) : Kept [none] m m' where
  names := by rw [hscopes]
  locals _ _ _ := by rw [hscopes]
  fields _ _ hn _ := absurd List.mem_cons_self hn

/-! ## Reading after a change -/

section

variable {W : List (Option String)} {m m' : Machine V σ} {x y : String}

theorem lookup_named (x : String) (frame : Frame V) : (named x frame).lookup x = frame.lookup x := by
  induction frame with
  | nil => rfl
  | cons e frame ih =>
    obtain ⟨y, v⟩ := e
    by_cases h : y = x
    · simp [named, h]
    · have hx : (x == y) = false := beq_false_of_ne (Ne.symm h)
      have hy : (y == x) = false := beq_false_of_ne h
      rw [List.lookup_cons, hx, named, List.filter_cons_of_neg (by simp [hy])]
      exact ih

/-- What a name stands for depends on the variables of that name. -/
theorem findSome?_named (x : String) (frames : List (Frame V)) :
    frames.findSome? (·.lookup x) = (frames.map (named x)).findSome? (·.lookup x) := by
  rw [List.findSome?_map]
  congr 1
  funext frame
  exact (lookup_named x frame).symm

theorem isSome_lookup (x : String) (frame : Frame V) :
    (frame.lookup x).isSome = declaredIn x frame := by
  induction frame with
  | nil => rfl
  | cons e frame ih =>
    obtain ⟨y, v⟩ := e
    by_cases h : y = x
    · simp [declaredIn, h]
    · have hx : (x == y) = false := beq_false_of_ne (Ne.symm h)
      have hy : (y == x) = false := beq_false_of_ne h
      rw [List.lookup_cons, hx, ih, declaredIn, declaredIn, List.any_cons, hy, Bool.false_or]

/-- A name of which nothing is written to stands for what it stood for before. -/
theorem Kept.read? (h : Kept W m m') (hd : isDotted x = false) (hx : some x ∉ W)
    (hn : none ∉ W ∨ m.isLocal x = true) : m'.read? x = m.read? x := by
  unfold Machine.read?
  rw [findSome?_named, h.locals x hx hd, ← findSome?_named]
  cases hfind : m.scopes.findSome? (·.lookup x) with
  | some v => rfl
  | none =>
    rcases hn with hn | hlocal
    · simp [h.fields x hx hn hd]
    · obtain ⟨frame, hframe, hx⟩ := List.any_eq_true.mp hlocal
      have hnone := List.findSome?_eq_none_iff.mp hfind frame hframe
      rw [← isSome_lookup, hnone] at hx
      cases hx

theorem lookup_setFrame (x : String) (v : V) (frame : Frame V) :
    (setFrame x v frame).lookup x = if declaredIn x frame then some (some v) else none := by
  induction frame with
  | nil => rfl
  | cons e frame ih =>
    obtain ⟨y, u⟩ := e
    by_cases h : y = x
    · simp [setFrame, declaredIn, h]
    · have hx : (x == y) = false := beq_false_of_ne (Ne.symm h)
      have hy : (y == x) = false := beq_false_of_ne h
      rw [setFrame, if_neg h, List.lookup_cons, hx, ih, declaredIn, declaredIn, List.any_cons, hy,
        Bool.false_or]

theorem findSome?_setLocal (x : String) (v : V) (frames : List (Frame V)) :
    (setLocal x v frames).findSome? (·.lookup x) =
      if frames.any (declaredIn x) then some (some v) else none := by
  induction frames with
  | nil => rfl
  | cons frame frames ih =>
    cases h : declaredIn x frame with
    | true => simp [setLocal, h, lookup_setFrame]
    | false =>
      have hnone : frame.lookup x = none := by
        rw [← Option.not_isSome_iff_eq_none, isSome_lookup, h]
        exact Bool.false_ne_true
      rw [setLocal, if_neg (by simp [h]), List.findSome?_cons, hnone, List.any_cons, h,
        Bool.false_or]
      exact ih

/-- A name stands for the value that has been written to it. -/
theorem read?_write (w : World V) (x : String) (v : V) (m : Machine V σ) :
    (m.write w x v).read? x = some v := by
  have hfind := findSome?_setLocal x v m.scopes
  unfold Machine.read? Machine.write Machine.isLocal
  dsimp only
  rw [hfind]
  split
  · next h =>
    split at h
    · exact (Option.some.inj h).symm
    · cases h
  · next h =>
    split at h
    · cases h
    · next hlocal => simp [hlocal]

/-- A name that the innermost scope does not declare stands for the same after it. -/
theorem read?_pop {frame : Frame V} {frames : List (Frame V)} (h : m.scopes = frame :: frames)
    (hx : declaredIn x frame = false) : m.pop.read? x = m.read? x := by
  have hnone : frame.lookup x = none := by
    rw [← Option.not_isSome_iff_eq_none, isSome_lookup, hx]
    exact Bool.false_ne_true
  simp only [Machine.read?, Machine.pop, h, List.tail_cons, List.findSome?_cons, hnone]

theorem read?_declare_self {v : Option V} (h : m.scopes ≠ []) :
    (m.declare x v).read? x = v := by
  unfold Machine.declare
  split
  · next hnil => exact absurd hnil h
  · simp [Machine.read?]

theorem read?_declare_ne {v : Option V} (h : y ≠ x) :
    (m.declare x v).read? y = m.read? y := by
  unfold Machine.declare
  split
  · rfl
  · next hs => simp [Machine.read?, hs, List.findSome?_cons, List.lookup_cons, beq_false_of_ne h]

end

/-! ## What does not depend on a change -/

/-- What does not depend on the names in `W`. -/
def Stable (W : List (Option String)) (J : Machine V σ → Prop) : Prop := ∀ m m', Kept W m m' → J m → J m'

section

variable {W W' : List (Option String)} {J J' : Machine V σ → Prop}

theorem Stable.mono (h : Stable W' J) (hW : W ⊆ W') : Stable W J := fun m m' hk => h m m' (hk.mono hW)

/-- What does not depend on the names of two parts does not depend on those of one. -/
theorem Stable.left (h : Stable (W ++ W') J) : Stable W J := h.mono (List.subset_append_left W W')

theorem Stable.right (h : Stable (W ++ W') J) : Stable W' J := h.mono (List.subset_append_right W W')

theorem Stable.and (h : Stable W J) (h' : Stable W J') : Stable W fun m => J m ∧ J' m :=
  fun m m' hk hm => ⟨h m m' hk hm.1, h' m m' hk hm.2⟩

/-- What a write to a target changes is what the target may write to. -/
theorem Stable.write {w : World V} {m : Machine V σ} {t : Expr} {x : String} (h : Stable (t.target :: W) J)
    (hx : t.name? = some x) (v : V) (hm : J m) : J (m.write w x v) := by
  rw [Expr.target, hx] at h
  exact h.mono (List.cons_subset_cons _ (List.nil_subset W)) _ _ (kept_write w x v m) hm

/-- What does not depend on the names in `W`, and not on declarations in the innermost scope either. -/
structure Outer (W : List (Option String)) (J : Machine V σ → Prop) : Prop where
  stable : Stable W J
  declare : ∀ x v m, J m → J (m.declare x v)

theorem Outer.left (h : Outer (W ++ W') J) : Outer W J := ⟨h.stable.left, h.declare⟩

theorem Outer.right (h : Outer (W ++ W') J) : Outer W' J := ⟨h.stable.right, h.declare⟩

theorem pop_declare (x : String) (v : Option V) (m : Machine V σ) : (m.declare x v).pop = m.pop := by
  unfold Machine.declare
  split
  · rfl
  · next h => simp only [Machine.pop, h, List.tail_cons]

/-- What will be true after a scope is not disturbed by declarations in it. -/
theorem Stable.outer (h : Stable W J) : Outer W fun m => J m.pop where
  stable m m' hk := h m.pop m'.pop hk.pop
  declare x v m hm := by rwa [pop_declare]

end

end Execution

end JavaFold
