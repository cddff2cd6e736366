import JavaFold.Proofs.Program.Grammar.Sound.Unit
import Mathlib.Data.List.Chain
import Mathlib.Data.List.TakeWhile

/-!
# Which tokens are read

A program is read exactly if the loose grammar derives the tokens up to the end of the file, and if they nest no
deeper than the limit. The two grammars differ by a comma at the end of a list and by nothing else: the strict
one derives what the loose one does where no comma stands directly before a closing parenthesis.
-/

namespace JavaFold

namespace Grammar

/-- No comma stands directly before a closing parenthesis. -/
def NoCommaLast (ts : List (Spanned Token)) : Prop :=
  ts.IsChain fun t u => t.value = .comma → u.value ≠ .rparen

instance (ts : List (Spanned Token)) : Decidable (NoCommaLast ts) :=
  inferInstanceAs (Decidable (ts.IsChain fun t u => t.value = .comma → u.value ≠ .rparen))

/-- The commas among the tokens are what one of the grammars allows. -/
def Admits (loose : Bool) (ts : List (Spanned Token)) : Prop := loose = true ∨ NoCommaLast ts

namespace Admits

variable {loose : Bool} {t : Spanned Token} {ts us : List (Spanned Token)}

theorem left (h : Admits loose (ts ++ us)) : Admits loose ts := h.imp_right (·.left_of_append)

theorem right (h : Admits loose (ts ++ us)) : Admits loose us := h.imp_right (·.right_of_append)

theorem tail (h : Admits loose (t :: us)) : Admits loose us := h.imp_right (·.tail)

/-- A comma directly before a closing parenthesis is in the loose grammar only. -/
theorem loose_eq {c r : Spanned Token} (h : Admits loose [c, r]) (hc : c.value = .comma) (hr : r.value = .rparen) :
    loose = true := by
  rcases h with h | h
  · exact h
  · exact absurd hr ((List.isChain_cons_cons.mp h).1 hc)

end Admits

variable {loose loose' : Bool} {ts : List (Spanned Token)} {n : Nat}

/-- Arguments are looked at together with the parenthesis after them. -/
def ExprPart.Admits (loose : Bool) (ts : List (Spanned Token)) : ExprPart → Prop
  | .expr _ _ => Grammar.Admits loose ts
  | .args _ => ∃ r : Spanned Token, r.value = .rparen ∧ Grammar.Admits loose (ts ++ [r])

theorem ExprTokens.admits {part : ExprPart} (h : ExprTokens loose part ts n) (hts : part.Admits loose' ts) :
    ExprTokens loose' part ts n := by
  induction h with
  | integer ht h => exact .integer ht h
  | word ht h => exact .word ht h
  | string ht => exact .string ht
  | name h => exact .name h
  | call h hl _ hr ih => exact .call h hl (ih ⟨_, hr, hts.right.tail⟩) hr
  | parens hl _ hr ih => exact .parens hl (ih hts.tail.left) hr
  | postStep _ hname ht ih => exact .postStep (ih hts.left) hname ht
  | negative ht hv h => exact .negative ht hv h
  | unary ht _ hneg hstep ih => exact .unary ht (ih hts.tail) hneg hstep
  | binary _ ht _ ihl ihr => exact .binary (ihl hts.left) ht (ihr hts.right.tail)
  | assign _ hname hop ht _ ih ihvalue => exact .assign (ih hts.left) hname hop ht (ihvalue hts.right.tail)
  | loosen _ ih => exact .loosen (ih hts)
  | nil => exact .nil
  | last _ ih =>
    obtain ⟨r, _, hts⟩ := hts
    exact .last (ih hts.left)
  | @more ts us n m e es c _ hc hes hlast ih ihes =>
    obtain ⟨r, hr, hts⟩ := hts
    rw [List.append_assoc] at hts
    refine .more (ih hts.left) hc (ihes ⟨r, hr, hts.right.tail⟩) ?_
    rintro rfl
    cases hes
    exact hts.right.loose_eq hc hr

theorem OptionalTokens.admits {e : Option Expr} (h : OptionalTokens loose e ts n) (hts : Admits loose' ts) :
    OptionalTokens loose' e ts n := by
  cases h with
  | none => exact .none
  | some h => exact .some (h.admits hts)

theorem InitTokens.admits {init : Option Expr} (h : InitTokens loose init ts n) (hts : Admits loose' ts) :
    InitTokens loose' init ts n := by
  cases h with
  | none => exact .none
  | some ht h => exact .some ht (h.admits hts.tail)

theorem DeclTokens.admits {ty : Spanned Ty} {name : Spanned String} {init : Option Expr}
    (h : DeclTokens loose ty name init ts n) (hts : Admits loose' ts) : DeclTokens loose' ty name init ts n := by
  cases h with
  | mk hty hvoid ht hinit => exact .mk hty hvoid ht (hinit.admits hts.right.tail)

theorem ForInitTokens.admits {init : Option Stmt} (h : ForInitTokens loose init ts n) (hts : Admits loose' ts) :
    ForInitTokens loose' init ts n := by
  cases h with
  | none => exact .none
  | localVar h => exact .localVar (h.admits hts)
  | expr h => exact .expr (h.admits hts)

theorem StmtTokens.admits {part : StmtPart} (h : StmtTokens loose part ts n) (hts : Admits loose' ts) :
    StmtTokens loose' part ts n := by
  induction h with
  | block hl _ hr ih => exact .block hl (ih hts.tail.left) hr
  | expr h hr => exact .expr (h.admits hts.left) hr
  | localVar h hr => exact .localVar (h.admits hts.left) hr
  | ifElse hk hl hcond hr _ hdecl ih =>
    exact .ifElse hk hl (hcond.admits hts.tail.tail.left) hr (ih hts.tail.tail.right.tail) hdecl
  | ifElse_else hk hl hcond hr _ hdecl htakes hk' _ hdecl' ih ih' =>
    have hbranches := hts.tail.tail.right.tail
    exact .ifElse_else hk hl (hcond.admits hts.tail.tail.left) hr (ih hbranches.left) hdecl htakes hk'
      (ih' hbranches.right.tail) hdecl'
  | whileLoop hk hl hcond hr _ hdecl ih =>
    exact .whileLoop hk hl (hcond.admits hts.tail.tail.left) hr (ih hts.tail.tail.right.tail) hdecl
  | forLoop hk hl hinit hm hcond hm' hupdate hr _ hdecl ih =>
    have hinit' := hts.tail.tail
    have hcond' := hinit'.right.tail
    have hupdate' := hcond'.right.tail
    exact .forLoop hk hl (hinit.admits hinit'.left) hm (hcond.admits hcond'.left) hm'
      (hupdate.admits hupdate'.left) hr (ih hupdate'.right.tail) hdecl
  | ret hk h hr => exact .ret hk (h.admits hts.tail.left) hr
  | brk hk hr => exact .brk hk hr
  | cont hk hr => exact .cont hk hr
  | empty ht => exact .empty ht
  | nil => exact .nil
  | cons _ _ ih ihss => exact .cons (ih hts.left) (ihss hts.right)

theorem ParamTokens.admits {ps : List Param} {r : Spanned Token} (h : ParamTokens loose ps ts)
    (hr : r.value = .rparen) (hts : Admits loose' (ts ++ [r])) : ParamTokens loose' ps ts := by
  induction h with
  | nil => exact .nil
  | last hty ht => exact .last hty ht
  | more hty ht hc hps hlast ih =>
    rw [List.append_assoc] at hts
    refine .more hty ht hc (ih hts.right.tail.tail) ?_
    rintro rfl
    cases hps
    exact hts.right.tail.loose_eq hc hr

theorem MemberTokens.admits {m : Member} (h : MemberTokens loose m ts n) (hts : Admits loose' ts) :
    MemberTokens loose' m ts n := by
  cases h with
  | field hms hty hvoid ht hinit hr =>
    exact .field hms hty hvoid ht (hinit.admits hts.right.right.tail.left) hr
  | @method ms ty ps ss ts us vs ws n t lp rp l r name hms hty ht hlp hps hrp hl hss hr =>
    have hparams := hts.right.right.tail.tail
    have hbody := hparams.right.tail.tail.left
    rw [List.append_cons] at hparams
    exact .method hms hty ht hlp (hps.admits hrp hparams.left) hrp hl (hss.admits hbody) hr

theorem Sequence.admits {α : Type} {P : Bool → α → List (Spanned Token) → Nat → Prop} {as : List α}
    (hP : ∀ {a ts n}, P loose a ts n → Admits loose' ts → P loose' a ts n) (h : Sequence (P loose) as ts n)
    (hts : Admits loose' ts) : Sequence (P loose') as ts n := by
  induction h with
  | nil => exact .nil
  | cons h _ ih => exact .cons (hP h hts.left) (ih hts.right)

theorem ClassTokens.admits {d : ClassDecl} (h : ClassTokens loose d ts n) (hts : Admits loose' ts) :
    ClassTokens loose' d ts n := by
  cases h with
  | mk hms hk ht hl hmembers hr =>
    exact .mk hms hk ht hl (hmembers.admits (fun h => h.admits) hts.right.tail.tail.tail.left) hr

/-! ## Commas in the strict grammar -/

/-- No comma stands directly before a closing parenthesis, or at the end. -/
structure Sealed (ts : List (Spanned Token)) : Prop where
  noCommaLast : NoCommaLast ts
  last : ∀ t ∈ ts.getLast?, t.value ≠ .comma

namespace Sealed

variable {t : Spanned Token} {token : Token} {ts us : List (Spanned Token)}

theorem nil : Sealed [] where
  noCommaLast := .nil
  last := by simp

theorem append (h : Sealed ts) (h' : Sealed us) : Sealed (ts ++ us) where
  noCommaLast := h.noCommaLast.append h'.noCommaLast fun t ht _ _ hc => absurd hc (h.last t ht)
  last := by
    intro t ht
    rw [List.getLast?_append] at ht
    rcases Option.or_eq_some_iff.mp ht with ht | ⟨-, ht⟩
    · exact h'.last t ht
    · exact h.last t ht

theorem singleton (ht : t.value = token) (hne : token ≠ .comma) : Sealed [t] where
  noCommaLast := .singleton t
  last := by
    intro u hu
    have hvalue : u.value = token := by rw [← Option.some.inj hu, ← ht]; rfl
    rwa [hvalue]

theorem cons (ht : t.value = token) (hne : token ≠ .comma) (h : Sealed us) : Sealed (t :: us) :=
  (singleton ht hne).append h

/-- A comma with more after it. -/
theorem comma (h : Sealed us) (hne : us ≠ []) (hhead : ∀ u ∈ us.head?, u.value ≠ .rparen) : Sealed (t :: us) where
  noCommaLast := List.isChain_cons.mpr ⟨fun u hu _ => hhead u hu, h.noCommaLast⟩
  last := by
    intro u hu
    rw [List.getLast?_cons, List.getLast?_eq_some_getLast hne] at hu
    exact h.last u (by rwa [List.getLast?_eq_some_getLast hne])

/-- What holds no comma at all. -/
theorem of_noComma (h : ∀ t ∈ ts, t.value ≠ .comma) : Sealed ts := by
  induction ts with
  | nil => exact .nil
  | cons t ts ih => exact .cons rfl (h t List.mem_cons_self) (ih fun u hu => h u (List.mem_cons_of_mem t hu))

end Sealed

theorem PathTokens.noComma {path : Spanned String} (h : PathTokens path ts) : ∀ t ∈ ts, t.value ≠ .comma := by
  induction h with
  | word ht =>
    intro t hmem
    simp [List.mem_singleton.mp hmem, ht]
  | part _ hd ht ih =>
    intro t hmem
    simp only [List.mem_append, List.mem_cons, List.not_mem_nil, or_false] at hmem
    rcases hmem with hmem | rfl | rfl
    · exact ih t hmem
    · simp [hd]
    · simp [ht]

theorem TyTokens.sealed {ty : Spanned Ty} (h : TyTokens ty ts) : Sealed ts := by
  cases h with
  | word ht => exact .singleton ht (by simp)
  | path h => exact .of_noComma h.noComma

theorem ModifierTokens.sealed {ms : List Modifier} (h : ModifierTokens ms ts) : Sealed ts := by
  refine .of_noComma fun t ht => ?_
  have hvalue := List.mem_map_of_mem (f := (·.value)) ht
  rw [h.tokens] at hvalue
  obtain ⟨m, -, hm⟩ := List.mem_map.mp hvalue
  simp [← hm]

theorem ExprTokens.head_ne_rparen {e : Expr} {level : Nat} (h : ExprTokens loose (.expr level e) ts n) :
    ∀ t ∈ ts.head?, t.value ≠ .rparen := by
  obtain ⟨t, us, rfl, hstarts⟩ := h.exists_cons
  intro u hu
  exact Option.some.inj hu ▸ (opensExpr_ne hstarts).1

/-- Arguments, if there are any, start with an expression. -/
theorem ExprTokens.args_starts {es : List Expr} (h : ExprTokens loose (.args es) ts n) (hes : es ≠ []) :
    ts ≠ [] ∧ ∀ t ∈ ts.head?, t.value ≠ .rparen := by
  cases h with
  | nil => exact absurd rfl hes
  | last h => exact ⟨h.ne_nil, h.head_ne_rparen⟩
  | @more us _ _ _ _ _ _ h =>
    refine ⟨by simp, fun t ht => h.head_ne_rparen t ?_⟩
    rwa [List.head?_append_of_ne_nil us h.ne_nil] at ht

theorem ExprTokens.sealed {part : ExprPart} (h : ExprTokens false part ts n) : Sealed ts := by
  induction h with
  | integer ht => exact .singleton ht (by simp)
  | word ht => exact .singleton ht (by simp)
  | string ht => exact .singleton ht (by simp)
  | name h => exact .of_noComma h.noComma
  | call h hl _ hr ih =>
    exact .append (.of_noComma h.noComma) (.cons hl (by simp) (ih.append (.singleton hr (by simp))))
  | parens hl _ hr ih => exact .cons hl (by simp) (ih.append (.singleton hr (by simp)))
  | postStep _ _ ht ih => exact ih.append (.singleton ht (by simp))
  | negative ht hv => exact .cons ht (by simp) (.singleton hv (by simp))
  | @unary _ _ _ _ op ht _ _ _ ih => exact .cons ht (by cases op <;> simp [UnaryOp.token]) ih
  | binary _ ht _ ihl ihr => exact ihl.append (.cons ht (by simp) ihr)
  | @assign _ _ _ _ _ _ _ op _ _ _ ht _ ih ihvalue =>
    exact ih.append (.cons ht (by cases op <;> simp [AssignOp.token]; split <;> simp) ihvalue)
  | loosen _ ih => exact ih
  | nil => exact .nil
  | last _ ih => exact ih
  | more _ _ hes hlast ih ihes =>
    obtain ⟨hne, hhead⟩ := hes.args_starts fun h => Bool.false_ne_true (hlast h)
    exact ih.append (.comma ihes hne hhead)

theorem OptionalTokens.sealed {e : Option Expr} (h : OptionalTokens false e ts n) : Sealed ts := by
  cases h with
  | none => exact .nil
  | some h => exact h.sealed

theorem InitTokens.sealed {init : Option Expr} (h : InitTokens false init ts n) : Sealed ts := by
  cases h with
  | none => exact .nil
  | some ht h => exact .cons ht (by simp) h.sealed

theorem DeclTokens.sealed {ty : Spanned Ty} {name : Spanned String} {init : Option Expr}
    (h : DeclTokens false ty name init ts n) : Sealed ts := by
  cases h with
  | mk hty _ ht hinit => exact hty.sealed.append (.cons ht (by simp) hinit.sealed)

theorem ForInitTokens.sealed {init : Option Stmt} (h : ForInitTokens false init ts n) : Sealed ts := by
  cases h with
  | none => exact .nil
  | localVar h => exact h.sealed
  | expr h => exact h.sealed

theorem StmtTokens.sealed {part : StmtPart} (h : StmtTokens false part ts n) : Sealed ts := by
  induction h with
  | block hl _ hr ih => exact .cons hl (by simp) (ih.append (.singleton hr (by simp)))
  | expr h hr => exact h.sealed.append (.singleton hr (by simp))
  | localVar h hr => exact h.sealed.append (.singleton hr (by simp))
  | ifElse hk hl hcond hr _ _ ih =>
    exact .cons hk (by simp) (.cons hl (by simp) (hcond.sealed.append (.cons hr (by simp) ih)))
  | ifElse_else hk hl hcond hr _ _ _ hk' _ _ ih ih' =>
    have hbranches := Sealed.cons hr (by simp) (ih.append (.cons hk' (by simp) ih'))
    exact .cons hk (by simp) (.cons hl (by simp) (hcond.sealed.append hbranches))
  | whileLoop hk hl hcond hr _ _ ih =>
    exact .cons hk (by simp) (.cons hl (by simp) (hcond.sealed.append (.cons hr (by simp) ih)))
  | forLoop hk hl hinit hm hcond hm' hupdate hr _ _ ih =>
    have hbody := hupdate.sealed.append (.cons hr (by simp) ih)
    have hheader := hcond.sealed.append (.cons hm' (by simp) hbody)
    exact .cons hk (by simp) (.cons hl (by simp) (hinit.sealed.append (.cons hm (by simp) hheader)))
  | ret hk h hr => exact .cons hk (by simp) (h.sealed.append (.singleton hr (by simp)))
  | brk hk hr => exact .cons hk (by simp) (.singleton hr (by simp))
  | cont hk hr => exact .cons hk (by simp) (.singleton hr (by simp))
  | empty ht => exact .singleton ht (by simp)
  | nil => exact .nil
  | cons _ _ ih ihss => exact ih.append ihss

/-- Parameters, if there are any, start with a type. -/
theorem ParamTokens.starts {ps : List Param} (h : ParamTokens loose ps ts) (hps : ps ≠ []) :
    ts ≠ [] ∧ ∀ t ∈ ts.head?, t.value ≠ .rparen := by
  have htype : ∀ {ty : Spanned Ty} {us vs : List (Spanned Token)}, TyTokens ty us →
      us ++ vs ≠ [] ∧ ∀ t ∈ (us ++ vs).head?, t.value ≠ .rparen := by
    intro ty us vs hty
    obtain ⟨t, tail, rfl, ht⟩ := hty.starts
    refine ⟨by simp, fun u hu => ?_⟩
    obtain rfl := Option.some.inj hu
    simp only [List.mem_cons, List.not_mem_nil, or_false] at ht
    rcases ht with (ht | ht | ht) | ⟨name, ht⟩ <;> simp [ht]
  cases h with
  | nil => exact absurd rfl hps
  | last hty => exact htype hty
  | more hty => exact htype hty

theorem ParamTokens.sealed {ps : List Param} (h : ParamTokens false ps ts) : Sealed ts := by
  induction h with
  | nil => exact .nil
  | last hty ht => exact hty.sealed.append (.singleton ht (by simp))
  | more hty ht _ hps hlast ih =>
    obtain ⟨hne, hhead⟩ := hps.starts fun h => Bool.false_ne_true (hlast h)
    exact hty.sealed.append (.cons ht (by simp) (.comma ih hne hhead))

theorem MemberTokens.sealed {m : Member} (h : MemberTokens false m ts n) : Sealed ts := by
  cases h with
  | field hms hty _ ht hinit hr =>
    have hvalue := hinit.sealed.append (.singleton hr (by simp))
    exact hms.sealed.append (hty.sealed.append (.cons ht (by simp) hvalue))
  | method hms hty ht hlp hps hrp hl hss hr =>
    have hbody := Sealed.cons hl (by simp) (hss.sealed.append (.singleton hr (by simp)))
    have hrest := Sealed.cons hlp (by simp) (hps.sealed.append (.cons hrp (by simp) hbody))
    exact hms.sealed.append (hty.sealed.append (.cons ht (by simp) hrest))

theorem Sequence.sealed {α : Type} {P : α → List (Spanned Token) → Nat → Prop} {as : List α}
    (hP : ∀ {a ts n}, P a ts n → Sealed ts) (h : Sequence P as ts n) : Sealed ts := by
  induction h with
  | nil => exact .nil
  | cons h _ ih => exact (hP h).append ih

theorem ClassTokens.sealed {d : ClassDecl} (h : ClassTokens false d ts n) : Sealed ts := by
  cases h with
  | mk hms hk ht hl hmembers hr =>
    have hbody := (hmembers.sealed fun h => h.sealed).append (.singleton hr (by simp))
    exact hms.sealed.append (.cons hk (by simp) (.cons ht (by simp) (.cons hl (by simp) hbody)))

end Grammar

namespace CompilationUnit

open Problem (nestingLimit)

variable {unit : CompilationUnit} {loose : Bool} {ts tokens : List (Spanned Token)} {need : Nat}

theorem Derives.admits {loose' : Bool} (h : unit.Derives loose ts need) (hts : Grammar.Admits loose' ts) :
    unit.Derives loose' ts need :=
  Grammar.Sequence.admits (fun h => h.admits) h hts

/-- The strict grammar is the loose one without a comma at the end of a list. -/
theorem derives_false_iff : unit.Derives false ts need ↔ unit.Derives true ts need ∧ Grammar.NoCommaLast ts := by
  constructor
  · exact fun h => ⟨h.admits (.inl rfl), (Grammar.Sequence.sealed (fun h => h.sealed) h).noCommaLast⟩
  · exact fun h => h.1.admits (.inr h.2)

/-- The tokens in front of the end of the file. -/
def beforeEnd (tokens : List (Spanned Token)) : List (Spanned Token) := tokens.takeWhile (·.value != .endOfFile)

/-- The tokens in front of the end of the file write the program, and do not nest too deep. -/
def WrittenBy (loose : Bool) (unit : CompilationUnit) (tokens : List (Spanned Token)) : Prop :=
  ∃ need ≤ nestingLimit, unit.Derives loose (beforeEnd tokens) need

/-- Where tokens end with the end of the file, its first place is found. -/
theorem eq_beforeEnd_append (hend : tokens.getLast?.map (·.value) = some .endOfFile) :
    ∃ u rest, tokens = beforeEnd tokens ++ u :: rest ∧ u.value = .endOfFile := by
  obtain ⟨last, hlast, hvalue⟩ := Option.map_eq_some_iff.mp hend
  have hsplit : beforeEnd tokens ++ tokens.dropWhile (·.value != .endOfFile) = tokens :=
    List.takeWhile_append_dropWhile
  cases hrest : tokens.dropWhile (·.value != .endOfFile) with
  | nil =>
    have hnone := List.dropWhile_eq_nil_iff.mp hrest last (List.mem_of_getLast? hlast)
    simp [hvalue] at hnone
  | cons u rest =>
    refine ⟨u, rest, hrest ▸ hsplit.symm, ?_⟩
    have hu := List.head?_dropWhile_not (·.value != .endOfFile) tokens
    simpa [hrest] using hu

theorem WrittenBy.ofTokens? (hend : tokens.getLast?.map (·.value) = some .endOfFile)
    (h : unit.WrittenBy true tokens) : ofTokens? tokens = .ok unit := by
  obtain ⟨u, rest, hsplit, hu⟩ := eq_beforeEnd_append hend
  obtain ⟨need, hneed, hunit⟩ := h
  rw [hsplit]
  exact hunit.ofTokens? hneed hu rest

theorem writtenBy_of_ofTokens? (hend : tokens.getLast?.map (·.value) = some .endOfFile)
    (h : ofTokens? tokens = .ok unit) : unit.WrittenBy true tokens := by
  have hread := @Grammar.gives_classes tokens.length (.ofTokens tokens)
  unfold ofTokens? at h
  split at h
  next classes cursor hrun =>
  split at h
  · next hclean =>
    cases h
    obtain ⟨htoken, hgives⟩ := hrun ▸ hread.post (by rw [hrun]; exact List.isEmpty_iff.mp hclean)
    obtain ⟨last, hlast, hvalue⟩ := Option.map_eq_some_iff.mp hend
    obtain ⟨front, rfl⟩ := List.getLast?_eq_some_iff.mp hlast
    have ends : (Cursor.ofTokens (front ++ [last])).Ends := ⟨front, last, rfl, hvalue⟩
    obtain ⟨ts, need, hpassed, hunit⟩ := hgives ends
    have hu : cursor.token = .endOfFile := htoken (Nat.le_refl _) ends
    have hbefore : beforeEnd (front ++ [last]) = ts := by
      have hahead : front ++ [last] = ts ++ cursor.ahead := hpassed.ahead
      rw [beforeEnd, hahead, List.takeWhile_append_of_pos fun t ht => by simpa using hpassed.inside t ht]
      rw [Cursor.token] at hu
      split at hu
      · next hnil => simp [hnil]
      · next t rest hcons => simp [hcons, hu]
    refine ⟨need, ?_, hbefore ▸ hunit⟩
    have hneed : 0 + need ≤ max 0 nestingLimit := hpassed.need
    omega
  · cases h

/-- A program is read from tokens exactly if the loose grammar derives it from them and they do not nest too
deep. -/
theorem ofTokens?_iff_writtenBy (hend : tokens.getLast?.map (·.value) = some .endOfFile) :
    ofTokens? tokens = .ok unit ↔ unit.WrittenBy true tokens :=
  ⟨writtenBy_of_ofTokens? hend, WrittenBy.ofTokens? hend⟩

theorem writtenBy_false_iff :
    unit.WrittenBy false tokens ↔ unit.WrittenBy true tokens ∧ Grammar.NoCommaLast (beforeEnd tokens) := by
  constructor
  · rintro ⟨need, hneed, hunit⟩
    obtain ⟨hunit, hcomma⟩ := derives_false_iff.mp hunit
    exact ⟨⟨need, hneed, hunit⟩, hcomma⟩
  · rintro ⟨⟨need, hneed, hunit⟩, hcomma⟩
    exact ⟨need, hneed, derives_false_iff.mpr ⟨hunit, hcomma⟩⟩

/-- A program is read from tokens exactly if the loose grammar derives it from them and they do not nest too
deep. The strict grammar derives the same program, unless a comma stands directly before a closing
parenthesis. -/
theorem ofTokens?_eq_ok_iff (hend : tokens.getLast?.map (·.value) = some .endOfFile) (unit : CompilationUnit) :
    (CompilationUnit.ofTokens? tokens = .ok unit ↔ unit.WrittenBy true tokens) ∧
      (unit.WrittenBy false tokens ↔
        CompilationUnit.ofTokens? tokens = .ok unit ∧ Grammar.NoCommaLast (beforeEnd tokens)) := by
  refine ⟨ofTokens?_iff_writtenBy hend, ?_⟩
  rw [ofTokens?_iff_writtenBy hend]
  exact writtenBy_false_iff

/-- A call without a comma after its last argument is read, and the strict grammar derives it. -/
theorem ofTokens?_eq_ok_iff_call : ∃ unit : CompilationUnit,
    unit.WrittenBy false (Lexed.ofSource "class A \x7b void m() \x7b f(1); \x7d \x7d").tokens := by
  generalize htokens : (Lexed.ofSource "class A \x7b void m() \x7b f(1); \x7d \x7d").tokens = tokens
  have hok : (CompilationUnit.ofTokens? tokens).toOption.isSome = true := by
    rw [← htokens]
    decide +kernel
  have hend : tokens.getLast?.map (·.value) = some .endOfFile := by
    rw [← htokens]
    decide +kernel
  have hcomma : Grammar.NoCommaLast (beforeEnd tokens) := by
    rw [← htokens]
    decide +kernel
  obtain ⟨unit, hparsed⟩ := Option.isSome_iff_exists.mp hok
  exact ⟨unit, (ofTokens?_eq_ok_iff hend unit).2.mpr ⟨eq_ok_of_toOption hparsed, hcomma⟩⟩

/-- A call with a comma after its last argument is read, though the strict grammar derives nothing from it. -/
theorem ofTokens?_call_with_comma : ∃ unit : CompilationUnit,
    ofTokens? (Lexed.ofSource "class A \x7b void m() \x7b f(1,); \x7d \x7d").tokens = .ok unit ∧
      ∀ unit' : CompilationUnit,
        ¬unit'.WrittenBy false (Lexed.ofSource "class A \x7b void m() \x7b f(1,); \x7d \x7d").tokens := by
  generalize htokens : (Lexed.ofSource "class A \x7b void m() \x7b f(1,); \x7d \x7d").tokens = tokens
  have hok : (CompilationUnit.ofTokens? tokens).toOption.isSome = true := by
    rw [← htokens]
    decide +kernel
  have hcomma : ¬Grammar.NoCommaLast (beforeEnd tokens) := by
    rw [← htokens]
    decide +kernel
  obtain ⟨unit, hparsed⟩ := Option.isSome_iff_exists.mp hok
  exact ⟨unit, eq_ok_of_toOption hparsed, fun unit' h => hcomma (writtenBy_false_iff.mp h).2⟩

end CompilationUnit

end JavaFold
