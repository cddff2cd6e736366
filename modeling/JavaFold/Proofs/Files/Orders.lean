import Mathlib.Data.List.Forall2
import Mathlib.Logic.Function.Basic
import JavaFold.Files.Folding
import JavaFold.Proofs.Files.Store

/-!
# Folding a directory in any order

The files of a directory are folded in three steps each: the directories above the target are made, the source is
read and folded, and the result is written. The steps of different files can be taken in any order
(`Session.takeAll`); one file after another is one of them (`FileWork.foldDirectory`).

If no file is folded into the place of another one that is to be folded, all orders that end give the same reports
and leave the same files (`FileWork.orders_agree`): what is read is then what was there at the beginning. That is so
if the two directories are the same, or neither is below the other. If one is below the other, the order can matter
(`FileWork.orders_disagree`).
-/

namespace JavaFold

/-! ## The steps of one file -/

namespace FileWork

section

variable {m : Type → Type} [Monad m] [FileAccess m]

/-- Makes the directories above a target. -/
def prepare (target : Path) : FileWork m Unit := do
  if let some parent := target.parent? then
    unless ← (FileAccess.makeDirectories parent : m _) do
      throw (.file parent.text)

/-- Reads a source and folds it. -/
def readFolded (options : FoldOptions) (source : Path) : FileWork m Folded := do
  let some text ← (FileAccess.read? source : m _) | throw (.file source.text)
  match options.foldSource text source.text with
  | .error error => throw error
  | .ok folded => return folded

/-- Writes what a source has been folded to. -/
def writeFolded (target : Path) (folded : Folded) : FileWork m Report := do
  unless ← (FileAccess.write target folded.text : m _) do
    throw (.file target.text)
  return folded.report

end

/-- What comes of work on a file system. -/
def on {α : Type} (x : FileWork OnHost α) (host : Host) : Except FoldError α × Host := x.run.run host

section

variable {α β : Type} {host host' : Host} {options : FoldOptions} {source target : Path}

theorem on_bind_ok {x : FileWork OnHost α} {a : α} (h : x.on host = (.ok a, host')) (f : α → FileWork OnHost β) :
    (x >>= f).on host = (f a).on host' := by
  have hx : x host = (.ok a, host') := h
  show ExceptT.bindCont f (x host).1 (x host).2 = _
  rw [hx]
  rfl

theorem on_bind_error {x : FileWork OnHost α} {e : FoldError} (h : x.on host = (.error e, host'))
    (f : α → FileWork OnHost β) : (x >>= f).on host = (.error e, host') := by
  have hx : x host = (.error e, host') := h
  show ExceptT.bindCont f (x host).1 (x host).2 = _
  rw [hx]
  rfl

theorem foldFile_eq (options : FoldOptions) (source target : Path) :
    (foldFile options source target : FileWork OnHost _) =
      readFolded options source >>= writeFolded target := by
  unfold foldFile readFolded writeFolded
  rw [bind_assoc]
  refine congrArg _ (funext fun text? => ?_)
  cases text? with
  | none => simp
  | some text =>
    dsimp only
    cases options.foldSource text source.text <;> simp

/-- What comes first in work that succeeds has succeeded. -/
theorem on_bind_eq_ok {x : FileWork OnHost α} {f : α → FileWork OnHost β} {b : β}
    (h : (x >>= f).on host = (.ok b, host')) : ∃ a host₁, x.on host = (.ok a, host₁) ∧
      (f a).on host₁ = (.ok b, host') := by
  rcases hx : x.on host with ⟨_ | a, host₁⟩
  · rw [on_bind_error hx] at h
    cases h
  · rw [on_bind_ok hx] at h
    exact ⟨a, host₁, rfl, h⟩

/-- A file is folded by its three steps. -/
theorem foldBelow_eq (options : FoldOptions) (input output : Path) (names : List String) :
    (foldBelow options input output names : FileWork OnHost _) = do
      prepare (output.append names)
      let folded ← readFolded options (input.append names)
      let report ← writeFolded (output.append names) folded
      return (input.append names, report) := by
  rw [foldBelow, foldFile_eq]
  unfold prepare
  cases (output.append names).parent? with
  | none => simp
  | some parent =>
    simp
    refine congrArg _ (funext fun made => ?_)
    cases made <;> simp

/-! ### What each step does -/

/-- The directories above a target. -/
def above (cwd : Location) (target : Path) : List Location :=
  match target.parent? with
  | none => []
  | some parent => FileStore.along (if parent.absolute then [] else cwd) parent.parts

theorem on_lift (x : OnHost α) (host : Host) : (liftM x : FileWork OnHost α).on host = (.ok (x host).1, (x host).2) :=
  rfl

theorem on_prepare {u : Unit} (h : (prepare target : FileWork OnHost _).on host = (.ok u, host')) :
    host'.cwd = host.cwd ∧ ∀ l, host'.store.at? l =
      (host.store.at? l).or (if l ∈ above host.cwd target then some .directory else none) := by
  unfold prepare above at *
  cases hparent : target.parent? with
  | none =>
    rw [hparent] at h
    cases h
    simp
  | some parent =>
    rw [hparent] at h
    dsimp only at h ⊢
    rw [on_bind_ok (on_lift _ host)] at h
    have hmake : (FileAccess.makeDirectories parent : OnHost Bool) host =
        OnHost.change (fun s cwd => s.makeDirectories? cwd parent) host := rfl
    rw [hmake, OnHost.change] at h
    cases hstore : host.store.makeDirectories? host.cwd parent with
    | none =>
      rw [hstore] at h
      cases h
    | some store =>
      rw [hstore] at h
      cases h
      exact ⟨rfl, FileStore.at?_makeAlong? hstore⟩

/-- Reading a file changes nothing and gives its text. -/
theorem on_read (source : Path) (host : Host) : ((FileAccess.read? source : OnHost (Option String)) host).2 = host ∧
    ∀ text, ((FileAccess.read? source : OnHost (Option String)) host).1 = some text →
      host.store.at? (source.place host.cwd) = some (.file text) := by
  have hread : ((FileAccess.read? source : OnHost (Option String)) host).1 =
      FileEntry.textOf? (host.store.entry? host.cwd source) := by
    unfold FileEntry.textOf?
    rfl
  exact ⟨rfl, fun text h => FileStore.at?_of_entry? (FileEntry.eq_of_textOf? (hread.symm.trans h))⟩

theorem on_readFolded {folded : Folded}
    (h : (readFolded options source : FileWork OnHost _).on host = (.ok folded, host')) :
    host' = host ∧ ∃ text, host.store.at? (source.place host.cwd) = some (.file text) ∧
      options.foldSource text source.text = .ok folded := by
  obtain ⟨hhost, hat⟩ := on_read source host
  unfold readFolded at h
  rw [on_bind_ok (on_lift _ host), hhost] at h
  cases hread : ((FileAccess.read? source : OnHost (Option String)) host).1 with
  | none =>
    rw [hread] at h
    cases h
  | some text =>
    rw [hread] at h
    dsimp only at h
    cases hfold : options.foldSource text source.text with
    | error e =>
      rw [hfold] at h
      cases h
    | ok result =>
      rw [hfold] at h
      cases h
      exact ⟨rfl, text, hat text hread, hfold⟩

theorem on_writeFolded {folded : Folded} {report : Report}
    (h : (writeFolded target folded : FileWork OnHost _).on host = (.ok report, host')) :
    report = folded.report ∧ host'.cwd = host.cwd ∧ ∀ l, host'.store.at? l =
      if l = target.place host.cwd then some (.file folded.text) else host.store.at? l := by
  unfold writeFolded at h
  rw [on_bind_ok (on_lift _ host)] at h
  have hwrite : (FileAccess.write target folded.text : OnHost Bool) host =
      OnHost.change (fun s cwd => s.write? cwd target folded.text) host := rfl
  rw [hwrite, OnHost.change] at h
  cases hstore : host.store.write? host.cwd target folded.text with
  | none =>
    rw [hstore] at h
    cases h
  | some store =>
    rw [hstore] at h
    cases h
    exact ⟨rfl, rfl, FileStore.at?_write? hstore⟩

end

end FileWork

/-! ## Orders of steps -/

/-- How far the work on a file has come. -/
inductive Progress
  | waiting
  | prepared
  | folded (result : Folded)
  | done (report : Report)

namespace Progress

def hasBegun : Progress → Bool
  | waiting => false
  | _ => true

def isDone : Progress → Bool
  | done _ => true
  | _ => false

end Progress

/-- The next step of a file. -/
def FileWork.advance (options : FoldOptions) (source target : Path) : Progress → FileWork OnHost Progress
  | .waiting => do
    prepare target
    return .prepared
  | .prepared => do return .folded (← readFolded options source)
  | .folded result => do return .done (← writeFolded target result)
  | .done report => return .done report

/-- The work on the files of a directory, by the names on the way to them. -/
structure Session where
  host : Host
  progress : List String → Progress

namespace Session

variable (options : FoldOptions) (input output : Path)

/-- No file has been begun. -/
def start (host : Host) : Session := ⟨host, fun _ => .waiting⟩

/-- Takes the next step of a file. -/
def take (s : Session) (names : List String) : Except FoldError Session :=
  match (FileWork.advance options (input.append names) (output.append names) (s.progress names)).on s.host with
  | (.ok progress, host) => .ok ⟨host, Function.update s.progress names progress⟩
  | (.error e, _) => .error e

/-- Takes steps in an order, in which each file is named once for each of its steps. -/
def takeAll (order : List (List String)) (s : Session) : Except FoldError Session :=
  order.foldlM (take options input output) s

/-- The work on all files is done, with these reports. -/
def Ended (input : Path) (files : List (List String)) (s : Session) (reports : List (Path × Report)) : Prop :=
  List.Forall₂ (fun names out => out.1 = input.append names ∧ s.progress names = .done out.2) files reports

/-- The files are folded by steps in some order, of which none fails. -/
structure Folds (files : List (List String)) (host : Host) (order : List (List String)) (s : Session)
    (reports : List (Path × Report)) : Prop where
  files_only : ∀ names ∈ order, names ∈ files
  run : takeAll options input output order (start host) = .ok s
  ended : Ended input files s reports

end Session

namespace FileWork

section

variable (options : FoldOptions) (input output : Path) (host : Host) (names : List String)

/-- What a file is folded to, if nothing is written to it before. -/
def result? : Option Folded :=
  match host.store.at? ((input.append names).place host.cwd) with
  | some (.file text) => (options.foldSource text (input.append names).text).toOption
  | _ => none

/-- Where a file is folded to. -/
def target : Location := (output.append names).place host.cwd

/-- The directories above the place where a file is folded to. -/
def parents : List Location := above host.cwd (output.append names)

end

/-- Whether a location is above the target of a file that has been begun. -/
def isAbove (output : Path) (files : List (List String)) (host : Host) (progress : List String → Progress)
    (l : Location) : Bool :=
  files.any fun names => (progress names).hasBegun && decide (l ∈ parents output host names)

/-- What holds between the steps: what has been folded is what was there at the beginning, what has been written is
at its place, and elsewhere there is what was there at the beginning, or a directory above a target. -/
structure InOrder (options : FoldOptions) (input output : Path) (files : List (List String)) (host : Host)
    (s : Session) : Prop where
  cwd : s.host.cwd = host.cwd
  folded : ∀ names ∈ files, ∀ result, s.progress names = .folded result →
    result? options input host names = some result
  done : ∀ names ∈ files, ∀ report, s.progress names = .done report → ∃ result,
    result? options input host names = some result ∧ report = result.report ∧
      s.host.store.at? (target output host names) = some (.file result.text)
  elsewhere : ∀ l, (∀ names ∈ files, (s.progress names).isDone = true → target output host names ≠ l) →
    s.host.store.at? l = (host.store.at? l).or
      (if isAbove output files host s.progress l then some .directory else none)

variable {options : FoldOptions} {input output : Path} {files : List (List String)} {host : Host}
  {s s' : Session} {names : List String}

/-- What a step does. -/
theorem take_cases (h : s.take options input output names = .ok s') :
    (s.progress names = .waiting ∧ ∃ host', (prepare (output.append names)).on s.host = (.ok (), host') ∧
      s' = ⟨host', Function.update s.progress names .prepared⟩) ∨
    (s.progress names = .prepared ∧ ∃ result host',
      (readFolded options (input.append names)).on s.host = (.ok result, host') ∧
      s' = ⟨host', Function.update s.progress names (.folded result)⟩) ∨
    (∃ result, s.progress names = .folded result ∧ ∃ report host',
      (writeFolded (output.append names) result).on s.host = (.ok report, host') ∧
      s' = ⟨host', Function.update s.progress names (.done report)⟩) ∨
    s' = s := by
  unfold Session.take at h
  split at h
  · next progress host' hon =>
    cases h
    cases hp : s.progress names with
    | waiting =>
      rw [hp] at hon
      obtain ⟨_, _, hstep, hpure⟩ := on_bind_eq_ok hon
      cases hpure
      exact .inl ⟨rfl, host', hstep, rfl⟩
    | prepared =>
      rw [hp] at hon
      obtain ⟨result, _, hstep, hpure⟩ := on_bind_eq_ok hon
      cases hpure
      exact .inr (.inl ⟨rfl, result, host', hstep, rfl⟩)
    | folded result =>
      rw [hp] at hon
      obtain ⟨report, _, hstep, hpure⟩ := on_bind_eq_ok hon
      cases hpure
      exact .inr (.inr (.inl ⟨result, rfl, report, host', hstep, rfl⟩))
    | done report =>
      rw [hp] at hon
      cases hon
      refine .inr (.inr (.inr ?_))
      rw [← hp, Function.update_eq_self]
  · cases h

/-- No file is folded into the place of another one that is to be folded. -/
def Apart (input output : Path) (files : List (List String)) (host : Host) : Prop :=
  ∀ f ∈ files, ∀ g ∈ files, f ≠ g → target output host f ≠ (input.append g).place host.cwd

theorem InOrder.start (options : FoldOptions) (input output : Path) (files : List (List String)) (host : Host) :
    InOrder options input output files host (Session.start host) :=
  ⟨rfl, nofun, nofun, fun l _ => by simp [Session.start, isAbove, Progress.hasBegun]⟩

/-- The targets of different files are different. -/
def Distinct (output : Path) (files : List (List String)) (host : Host) : Prop :=
  ∀ f ∈ files, ∀ g ∈ files, target output host f = target output host g → f = g

theorem isAbove_update {progress : List String → Progress} {p : Progress} (hnames : names ∈ files)
    (hp : p.hasBegun = true) (l : Location) : isAbove output files host (Function.update progress names p) l =
      (isAbove output files host progress l || decide (l ∈ parents output host names)) := by
  rw [Bool.eq_iff_iff, Bool.or_eq_true, isAbove, isAbove, List.any_eq_true, List.any_eq_true]
  constructor
  · rintro ⟨f, hf, hl⟩
    rw [Bool.and_eq_true] at hl
    by_cases hfn : f = names
    · exact .inr (hfn ▸ hl.2)
    · rw [Function.update_of_ne hfn] at hl
      exact .inl ⟨f, hf, by rw [Bool.and_eq_true]; exact hl⟩
  · rintro (⟨f, hf, hl⟩ | hl)
    · refine ⟨f, hf, ?_⟩
      rw [Bool.and_eq_true] at hl ⊢
      by_cases hfn : f = names
      · exact ⟨by rw [hfn, Function.update_self, hp], hl.2⟩
      · rw [Function.update_of_ne hfn]
        exact hl
    · exact ⟨names, hnames, by rw [Function.update_self, hp, hl]; rfl⟩

/-- A file that has been begun already has nothing more above its target. -/
theorem isAbove_update_of_hasBegun {progress : List String → Progress} {p : Progress} (hnames : names ∈ files)
    (hp : p.hasBegun = true) (hbegun : (progress names).hasBegun = true) (l : Location) :
    isAbove output files host (Function.update progress names p) l = isAbove output files host progress l := by
  rw [isAbove_update hnames hp, Bool.or_eq_left_iff_imp]
  intro hl
  exact List.any_eq_true.mpr ⟨names, hnames, by rw [hbegun, hl]; rfl⟩

theorem not_isDone_of_update {progress : List String → Progress} {p : Progress} {l : Location}
    (hnot : (progress names).isDone = false)
    (hl : ∀ f ∈ files, (Function.update progress names p f).isDone = true → target output host f ≠ l) :
    ∀ f ∈ files, (progress f).isDone = true → target output host f ≠ l := by
  intro f hf hdone
  have hfn : f ≠ names := by
    rintro rfl
    rw [hnot] at hdone
    cases hdone
  exact hl f hf (by rwa [Function.update_of_ne hfn])

/-- What a file other than the one at work has been folded to stays as it was. -/
theorem InOrder.folded_update (hi : InOrder options input output files host s) {p : Progress} (hp : ∀ r, p ≠ .folded r)
    (f : List String) (hf : f ∈ files) (r : Folded) (hr : Function.update s.progress names p f = .folded r) :
    result? options input host f = some r := by
  by_cases hfn : f = names
  · rw [hfn, Function.update_self] at hr
    exact absurd hr (hp r)
  · rw [Function.update_of_ne hfn] at hr
    exact hi.folded f hf r hr

theorem InOrder.prepared (hi : InOrder options input output files host s) (hnames : names ∈ files)
    (hp : s.progress names = .waiting) {host' : Host}
    (hstep : (prepare (output.append names)).on s.host = (.ok (), host')) :
    InOrder options input output files host ⟨host', Function.update s.progress names .prepared⟩ := by
  obtain ⟨hcwd, hat⟩ := on_prepare hstep
  rw [hi.cwd] at hat
  refine ⟨hcwd.trans hi.cwd, hi.folded_update (by simp), fun f hf report hr => ?_, fun l hl => ?_⟩
  · dsimp only at hr
    by_cases hfn : f = names
    · rw [hfn, Function.update_self] at hr
      cases hr
    · rw [Function.update_of_ne hfn] at hr
      obtain ⟨result, hres, hrep, hplace⟩ := hi.done f hf report hr
      exact ⟨result, hres, hrep, by rw [hat, hplace, Option.some_or]⟩
  · rw [hat, hi.elsewhere l (not_isDone_of_update (by rw [hp]; rfl) hl), isAbove_update hnames rfl, Option.or_assoc]
    refine congrArg _ ?_
    by_cases hl : l ∈ above host.cwd (output.append names) <;>
      cases isAbove output files host s.progress l <;> simp [parents, hl]

/-- Nothing has been written to the source of a file that has not been written itself. -/
theorem InOrder.at?_source (hi : InOrder options input output files host s) (hapart : Apart input output files host)
    (hnames : names ∈ files) (hp : (s.progress names).isDone = false) {text : String}
    (hat : s.host.store.at? ((input.append names).place host.cwd) = some (.file text)) :
    host.store.at? ((input.append names).place host.cwd) = some (.file text) := by
  have hnot : ∀ f ∈ files, (s.progress f).isDone = true →
      target output host f ≠ (input.append names).place host.cwd := by
    intro f hf hdone
    refine hapart f hf names hnames ?_
    rintro rfl
    rw [hp] at hdone
    cases hdone
  rw [hi.elsewhere _ hnot] at hat
  cases hfirst : host.store.at? ((input.append names).place host.cwd) with
  | some entry =>
    rw [hfirst, Option.some_or] at hat
    exact hat
  | none =>
    rw [hfirst, Option.none_or] at hat
    split at hat <;> cases hat

theorem InOrder.read (hi : InOrder options input output files host s) (hapart : Apart input output files host)
    (hnames : names ∈ files) (hp : s.progress names = .prepared) {result : Folded} {host' : Host}
    (hstep : (readFolded options (input.append names)).on s.host = (.ok result, host')) :
    InOrder options input output files host ⟨host', Function.update s.progress names (.folded result)⟩ := by
  obtain ⟨rfl, text, hat, hfold⟩ := on_readFolded hstep
  rw [hi.cwd] at hat
  have hresult : result? options input host names = some result := by
    rw [result?, hi.at?_source hapart hnames (by rw [hp]; rfl) hat]
    dsimp only
    rw [hfold]
    rfl
  refine ⟨hi.cwd, fun f hf r hr => ?_, fun f hf report hr => ?_, fun l hl => ?_⟩
  · dsimp only at hr
    by_cases hfn : f = names
    · rw [hfn, Function.update_self] at hr
      cases hr
      rw [hfn, hresult]
    · rw [Function.update_of_ne hfn] at hr
      exact hi.folded f hf r hr
  · dsimp only at hr
    by_cases hfn : f = names
    · rw [hfn, Function.update_self] at hr
      cases hr
    · rw [Function.update_of_ne hfn] at hr
      exact hi.done f hf report hr
  · rw [isAbove_update_of_hasBegun hnames rfl (by rw [hp]; rfl)]
    exact hi.elsewhere l (not_isDone_of_update (by rw [hp]; rfl) hl)

theorem InOrder.written (hi : InOrder options input output files host s) (hdistinct : Distinct output files host)
    (hnames : names ∈ files) {result : Folded} (hp : s.progress names = .folded result) {report : Report} {host' : Host}
    (hstep : (writeFolded (output.append names) result).on s.host = (.ok report, host')) :
    InOrder options input output files host ⟨host', Function.update s.progress names (.done report)⟩ := by
  obtain ⟨rfl, hcwd, hwritten⟩ := on_writeFolded hstep
  rw [hi.cwd] at hwritten
  have hat : ∀ l, host'.store.at? l =
      if l = target output host names then some (.file result.text) else s.host.store.at? l := hwritten
  refine ⟨hcwd.trans hi.cwd, hi.folded_update (by simp), fun f hf report hr => ?_, fun l hl => ?_⟩
  · dsimp only at hr
    by_cases hfn : f = names
    · rw [hfn, Function.update_self] at hr
      cases hr
      exact ⟨result, hfn ▸ hi.folded names hnames result hp, rfl, by rw [hat, hfn, if_pos rfl]⟩
    · rw [Function.update_of_ne hfn] at hr
      obtain ⟨result', hres, hrep, hplace⟩ := hi.done f hf report hr
      refine ⟨result', hres, hrep, ?_⟩
      rw [hat, if_neg fun he => hfn (hdistinct f hf names hnames he), hplace]
  · dsimp only at hl
    have hne : target output host names ≠ l := hl names hnames (by rw [Function.update_self]; rfl)
    rw [hat, if_neg (Ne.symm hne), isAbove_update_of_hasBegun hnames rfl (by rw [hp]; rfl)]
    exact hi.elsewhere l (not_isDone_of_update (by rw [hp]; rfl) hl)

theorem InOrder.take (hi : InOrder options input output files host s) (hapart : Apart input output files host)
    (hdistinct : Distinct output files host) (hnames : names ∈ files)
    (h : s.take options input output names = .ok s') : InOrder options input output files host s' := by
  rcases take_cases h with ⟨hp, host', hstep, rfl⟩ | ⟨hp, result, host', hstep, rfl⟩ |
    ⟨result, hp, report, host', hstep, rfl⟩ | rfl
  · exact hi.prepared hnames hp hstep
  · exact hi.read hapart hnames hp hstep
  · exact hi.written hdistinct hnames hp hstep
  · exact hi

theorem InOrder.takeAll (hapart : Apart input output files host) (hdistinct : Distinct output files host) :
    ∀ {order : List (List String)} {s : Session}, InOrder options input output files host s →
      (∀ names ∈ order, names ∈ files) → s.takeAll options input output order = .ok s' →
        InOrder options input output files host s'
  | [], s, hi, _, h => by
    cases h
    exact hi
  | names :: order, s, hi, hmem, h => by
    rw [Session.takeAll, List.foldlM_cons] at h
    cases hstep : s.take options input output names with
    | error e =>
      rw [hstep] at h
      cases h
    | ok s₁ =>
      rw [hstep] at h
      exact InOrder.takeAll hapart hdistinct (hi.take hapart hdistinct (hmem names List.mem_cons_self) hstep)
        (fun f hf => hmem f (List.mem_cons_of_mem _ hf)) h

/-! ## The end does not depend on the order -/

theorem exists_report {reports : List (Path × Report)} (h : Session.Ended input files s reports) :
    ∀ names ∈ files, ∃ report, s.progress names = .done report := by
  induction h with
  | nil => nofun
  | cons hr _ ih =>
    intro names hnames
    rcases List.mem_cons.mp hnames with rfl | hnames
    · exact ⟨_, hr.2⟩
    · exact ih names hnames

/-- Reports of the same work on the same files are the same. -/
theorem reports_eq {a b : Session} {reports reports' : List (Path × Report)} (ha : Session.Ended input files a reports)
    (hb : Session.Ended input files b reports')
    (h : ∀ names ∈ files, ∀ r r', a.progress names = .done r → b.progress names = .done r' → r = r') :
    reports = reports' := by
  induction ha generalizing reports' with
  | nil =>
    cases hb
    rfl
  | cons hr _ ih =>
    cases hb with
    | cons hr' hrest =>
      have hhead := h _ List.mem_cons_self _ _ hr.2 hr'.2
      rw [Prod.ext (hr.1.trans hr'.1.symm) hhead, ih hrest fun f hf => h f (List.mem_cons_of_mem _ hf)]

/-- In the end all files have been begun. -/
theorem isAbove_of_ended {reports : List (Path × Report)} (h : Session.Ended input files s reports) {l : Location} :
    isAbove output files host s.progress l = true ↔ ∃ f ∈ files, l ∈ parents output host f := by
  rw [isAbove, List.any_eq_true]
  refine exists_congr fun f => and_congr_right fun hf => ?_
  obtain ⟨report, hr⟩ := exists_report h f hf
  rw [hr, show (Progress.done report).hasBegun = true from rfl, Bool.true_and, decide_eq_true_iff]

/-- Two sessions that have come to their ends have the same reports and files. -/
theorem InOrder.agree {a b : Session} (ha : InOrder options input output files host a)
    (hb : InOrder options input output files host b) {reports reports' : List (Path × Report)}
    (hra : Session.Ended input files a reports) (hrb : Session.Ended input files b reports') :
    reports = reports' ∧ ∀ l, a.host.store.at? l = b.host.store.at? l := by
  refine ⟨reports_eq hra hrb fun f hf r r' hr hr' => ?_, fun l => ?_⟩
  · obtain ⟨result, hres, hrep, -⟩ := ha.done f hf r hr
    obtain ⟨result', hres', hrep', -⟩ := hb.done f hf r' hr'
    rw [hres] at hres'
    cases hres'
    rw [hrep, hrep']
  by_cases hl : ∃ f ∈ files, target output host f = l
  · obtain ⟨f, hf, rfl⟩ := hl
    obtain ⟨r, hr⟩ := exists_report hra f hf
    obtain ⟨r', hr'⟩ := exists_report hrb f hf
    obtain ⟨result, hres, -, hat⟩ := ha.done f hf r hr
    obtain ⟨result', hres', -, hat'⟩ := hb.done f hf r' hr'
    rw [hres] at hres'
    cases hres'
    rw [hat, hat']
  · have hnot : ∀ f ∈ files, target output host f ≠ l := fun f hf he => hl ⟨f, hf, he⟩
    rw [ha.elsewhere l fun f hf _ => hnot f hf, hb.elsewhere l fun f hf _ => hnot f hf,
      Bool.eq_iff_iff.mpr ((isAbove_of_ended hra).trans (isAbove_of_ended hrb).symm)]

theorem apart_of_places (hnames : ∀ names ∈ files, ∀ name ∈ names, IsEntryName name)
    (h : input.place host.cwd = output.place host.cwd ∨
      ¬ input.place host.cwd <+: output.place host.cwd ∧ ¬ output.place host.cwd <+: input.place host.cwd) :
    Apart input output files host := by
  intro f hf g hg hne heq
  rw [target, Path.place_append _ _ (hnames f hf), Path.place_append _ _ (hnames g hg)] at heq
  rcases h with h | ⟨hio, hoi⟩
  · rw [h] at heq
    exact hne (List.append_cancel_left heq)
  · rcases List.append_eq_append_iff.mp heq with ⟨l, hl, -⟩ | ⟨l, hl, -⟩
    · exact hoi ⟨l, hl.symm⟩
    · exact hio ⟨l, hl.symm⟩

theorem distinct_of_names (hnames : ∀ names ∈ files, ∀ name ∈ names, IsEntryName name) :
    Distinct output files host := by
  intro f hf g hg heq
  rw [target, target, Path.place_append _ _ (hnames f hf), Path.place_append _ _ (hnames g hg)] at heq
  exact List.append_cancel_left heq

/-! ## One file after another -/

theorem takeAll_append {order order' : List (List String)} {s₁ : Session}
    (h : s.takeAll options input output order = .ok s₁) :
    s.takeAll options input output (order ++ order') = s₁.takeAll options input output order' := by
  rw [Session.takeAll, List.foldlM_append, show order.foldlM (Session.take options input output) s = .ok s₁ from h]
  rfl

theorem take_of_advance {p p' : Progress} {host' : Host} (hp : s.progress names = p)
    (h : (advance options (input.append names) (output.append names) p).on s.host = (.ok p', host')) :
    s.take options input output names = .ok ⟨host', Function.update s.progress names p'⟩ := by
  rw [Session.take, hp, h]

/-- Folding a file is taking its three steps. -/
theorem takeAll_foldBelow {out : Path × Report} {host' : Host} (hp : s.progress names = .waiting)
    (h : (foldBelow options input output names : FileWork OnHost _).on s.host = (.ok out, host')) :
    out.1 = input.append names ∧ s.takeAll options input output [names, names, names] =
      .ok ⟨host', Function.update s.progress names (.done out.2)⟩ := by
  rw [foldBelow_eq] at h
  obtain ⟨_, host₁, hprepare, h⟩ := on_bind_eq_ok h
  obtain ⟨result, host₂, hread, h⟩ := on_bind_eq_ok h
  obtain ⟨report, host₃, hwrite, h⟩ := on_bind_eq_ok h
  cases h
  refine ⟨rfl, ?_⟩
  have hfirst : s.take options input output names = .ok ⟨host₁, Function.update s.progress names .prepared⟩ :=
    take_of_advance hp (on_bind_ok hprepare _)
  have hsecond : Session.take options input output ⟨host₁, Function.update s.progress names .prepared⟩ names =
      .ok ⟨host₂, Function.update s.progress names (.folded result)⟩ := by
    refine (take_of_advance (Function.update_self ..) (on_bind_ok hread _)).trans ?_
    rw [Function.update_idem]
  have hthird : Session.take options input output ⟨host₂, Function.update s.progress names (.folded result)⟩ names =
      .ok ⟨host', Function.update s.progress names (.done report)⟩ := by
    refine (take_of_advance (Function.update_self ..) (on_bind_ok hwrite _)).trans ?_
    rw [Function.update_idem]
  simp only [Session.takeAll, List.foldlM_cons, List.foldlM_nil, hfirst, hsecond, hthird, bind, Except.bind]
  rfl

/-- The files found below a directory can be folded. -/
theorem takeAll_mapM : ∀ {files : List (List String)} {s : Session} {outs : List (Path × Report)} {host' : Host},
    files.Nodup → (∀ names ∈ files, s.progress names = .waiting) →
    (files.mapM (foldBelow options input output) : FileWork OnHost _).on s.host = (.ok outs, host') →
      ∃ order s', (∀ names ∈ order, names ∈ files) ∧ s.takeAll options input output order = .ok s' ∧ s'.host = host' ∧
        Session.Ended input files s' outs ∧ ∀ names, names ∉ files → s'.progress names = s.progress names
  | [], s, outs, host', _, _, h => by
    cases h
    exact ⟨[], s, nofun, rfl, rfl, .nil, fun _ _ => rfl⟩
  | names :: files, s, outs, host', hd, hw, h => by
    rw [List.mapM_cons] at h
    obtain ⟨out, host₁, hone, h⟩ := on_bind_eq_ok h
    obtain ⟨outs, host₂, hrest, h⟩ := on_bind_eq_ok h
    cases h
    rw [List.nodup_cons] at hd
    obtain ⟨hsource, htake⟩ := takeAll_foldBelow (hw names List.mem_cons_self) hone
    have hw₁ : ∀ f ∈ files, Function.update s.progress names (.done out.2) f = .waiting := fun f hf => by
      have hne : f ≠ names := by
        rintro rfl
        exact hd.1 hf
      rw [Function.update_of_ne hne]
      exact hw f (List.mem_cons_of_mem _ hf)
    obtain ⟨order, s', hmem, hrun, hhost, hended, hkept⟩ :=
      takeAll_mapM (s := ⟨host₁, Function.update s.progress names (.done out.2)⟩) hd.2 hw₁ hrest
    refine ⟨[names, names, names] ++ order, s', fun f hf => ?_, (takeAll_append htake).trans hrun, hhost, ?_, ?_⟩
    · rcases List.mem_append.mp hf with hf | hf
      · simp only [List.mem_cons, List.not_mem_nil, or_false, or_self] at hf
        exact hf ▸ List.mem_cons_self
      · exact List.mem_cons_of_mem _ (hmem f hf)
    · refine .cons ⟨hsource, ?_⟩ hended
      rw [hkept names hd.1]
      exact Function.update_self ..
    · intro f hf
      rw [List.mem_cons, not_or] at hf
      rw [hkept f hf.2]
      exact Function.update_of_ne hf.1 ..

/-- The files that are folded, in the order of their names. -/
def programsOf (found : List Location) : List Location :=
  (found.filter isProgram).mergeSort fun a b => !(b < a)

theorem on_programsBelow (input : Path) (host : Host) : (programsBelow input : FileWork OnHost _).on host =
    ((match host.store.filesBelow? host.cwd input with
      | none => .error (.file input.text)
      | some found => .ok (programsOf found)), host) := by
  unfold programsBelow
  rw [on_bind_ok (on_lift _ host)]
  have hbelow : (FileAccess.filesBelow? input : OnHost (Option (List Location))) host =
      (host.store.filesBelow? host.cwd input, host) := rfl
  rw [hbelow]
  cases host.store.filesBelow? host.cwd input <;> rfl

/-- The files that are folded are found once, by names of entries. -/
theorem programsBelow_of_isTree (htree : host.store.IsTree) {host' : Host}
    (h : (programsBelow input : FileWork OnHost _).on host = (.ok files, host')) :
    files.Nodup ∧ ∀ names ∈ files, ∀ name ∈ names, IsEntryName name := by
  rw [on_programsBelow] at h
  cases hfound : host.store.filesBelow? host.cwd input with
  | none =>
    rw [hfound] at h
    cases h
  | some found =>
    rw [hfound] at h
    cases h
    obtain ⟨hd, hnames⟩ := htree.filesBelow? hfound
    refine ⟨(List.mergeSort_perm ..).nodup_iff.mpr (hd.filter _), fun names hn => hnames names ?_⟩
    exact (List.mem_filter.mp (List.mem_mergeSort.mp hn)).1

/-! ## All orders -/

/-- An order that ends. -/
theorem exists_folds {order : List (List String)} {l : Location} {entry : Option FileEntry}
    (hmem : ∀ names ∈ order, names ∈ files)
    (h : ((Session.start host).takeAll options input output order).toOption.map (fun s =>
      (s.host.store.at? l, files.all fun f => (s.progress f).isDone)) = some (entry, true)) :
    ∃ s reports, Session.Folds options input output files host order s reports ∧ s.host.store.at? l = entry := by
  cases hrun : (Session.start host).takeAll options input output order with
  | error e =>
    rw [hrun] at h
    cases h
  | ok s =>
    rw [hrun] at h
    obtain ⟨hat, hdone⟩ := Prod.mk.inj (Option.some.inj h)
    have hended : ∀ {fs : List (List String)}, (fs.all fun f => (s.progress f).isDone) = true →
        ∃ reports, Session.Ended input fs s reports := by
      intro fs
      induction fs with
      | nil => exact fun _ => ⟨[], .nil⟩
      | cons f fs ih =>
        intro hall
        rw [List.all_cons, Bool.and_eq_true] at hall
        obtain ⟨reports, hreports⟩ := ih hall.2
        cases hp : s.progress f with
        | done report => exact ⟨(input.append f, report) :: reports, .cons ⟨rfl, hp⟩ hreports⟩
        | waiting | prepared | folded =>
          rw [hp] at hall
          cases hall.1
    obtain ⟨reports, hreports⟩ := hended hdone
    exact ⟨s, reports, ⟨hmem, hrun, hreports⟩, hat⟩

/-- A directory with a class in a file, and below it another directory with another class in a file of the same
name. -/
def nestedHost : Host :=
  ⟨⟨[(["s"], .directory), (["s", "A.java"], .file "class A \x7b\x7d"), (["s", "B"], .directory),
    (["s", "B", "A.java"], .file "class B \x7b\x7d")]⟩, []⟩

theorem nestedHost_isTree : nestedHost.store.IsTree := by
  constructor
  · decide
  · simp [nestedHost, IsEntryName, Path.isBlank]

theorem programsBelow_nestedHost : (programsBelow ⟨false, ["s"]⟩ : FileWork OnHost _).on nestedHost =
    (.ok [["A.java"], ["B", "A.java"]], nestedHost) := by
  have hfound : nestedHost.store.filesBelow? nestedHost.cwd ⟨false, ["s"]⟩ = some [["A.java"], ["B", "A.java"]] := by
    decide +kernel
  have hfilter : [["A.java"], ["B", "A.java"]].filter isProgram = [["A.java"], ["B", "A.java"]] := by decide +kernel
  have hsort : programsOf [["A.java"], ["B", "A.java"]] = [["A.java"], ["B", "A.java"]] := by
    rw [programsOf, hfilter]
    exact List.mergeSort_of_pairwise (by decide)
  rw [on_programsBelow, hfound]
  dsimp only
  rw [hsort]

/-- The files below a directory are folded to the same reports and the same files in all orders of their steps that
end, one file after another among them, if none is folded into the place of another one that is to be folded. None
is if the two directories are the same, or neither is below the other. -/
theorem orders_agree (options : FoldOptions) {input output : Path} {host : Host} {files : List (List String)}
    (htree : host.store.IsTree) (hfiles : (programsBelow input : FileWork OnHost _).on host = (.ok files, host)) :
    (input.place host.cwd = output.place host.cwd ∨
      ¬ input.place host.cwd <+: output.place host.cwd ∧ ¬ output.place host.cwd <+: input.place host.cwd →
        Apart input output files host) ∧
    (Apart input output files host → ∀ order order' a b reports reports',
      Session.Folds options input output files host order a reports →
      Session.Folds options input output files host order' b reports' →
        reports = reports' ∧ ∀ l, a.host.store.at? l = b.host.store.at? l) ∧
    ∀ reports host', (foldDirectory options input output : FileWork OnHost _).on host = (.ok reports, host') →
      ∃ order s, Session.Folds options input output files host order s reports ∧ s.host = host' := by
  obtain ⟨hd, hnames⟩ := programsBelow_of_isTree htree hfiles
  refine ⟨apart_of_places hnames, fun hapart order order' a b reports reports' ha hb => ?_, fun reports host' h => ?_⟩
  · have hdistinct : Distinct output files host := distinct_of_names hnames
    have hi := InOrder.start options input output files host
    exact (hi.takeAll hapart hdistinct ha.files_only ha.run).agree (hi.takeAll hapart hdistinct hb.files_only hb.run)
      ha.ended hb.ended
  · rw [foldDirectory, on_bind_ok hfiles] at h
    obtain ⟨order, s, hmem, hrun, hhost, hended, -⟩ := takeAll_mapM (s := Session.start host) hd (fun _ _ => rfl) h
    exact ⟨order, s, ⟨hmem, hrun, hended⟩, hhost⟩

/-- Folding a directory into itself, where the second file is read before the first one is written, or after. -/
theorem orders_agree_in_place :
    let dir : Path := ⟨false, ["s"]⟩
    let files := [["A.java"], ["B", "A.java"]]
    let options : FoldOptions := ⟨[], 1, .source⟩
    ∃ order order' a b reports reports', order ≠ order' ∧
      Session.Folds options dir dir files nestedHost order a reports ∧
      Session.Folds options dir dir files nestedHost order' b reports' ∧
      reports = reports' ∧ ∀ l, a.host.store.at? l = b.host.store.at? l := by
  intro dir files options
  have hfirst : ∃ s reports, Session.Folds options dir dir files nestedHost
      [["A.java"], ["A.java"], ["A.java"], ["B", "A.java"], ["B", "A.java"], ["B", "A.java"]] s reports ∧
      s.host.store.at? ["s", "A.java"] = some (.file "class A \x7b\n\x7d\n") :=
    exists_folds (by decide) (by decide +kernel)
  have hlast : ∃ s reports, Session.Folds options dir dir files nestedHost
      [["A.java"], ["B", "A.java"], ["B", "A.java"], ["A.java"], ["A.java"], ["B", "A.java"]] s reports ∧
      s.host.store.at? ["s", "A.java"] = some (.file "class A \x7b\n\x7d\n") :=
    exists_folds (by decide) (by decide +kernel)
  obtain ⟨a, reports, ha, -⟩ := hfirst
  obtain ⟨b, reports', hb, -⟩ := hlast
  obtain ⟨hapart, hsame, -⟩ := orders_agree options nestedHost_isTree programsBelow_nestedHost
  exact ⟨_, _, a, b, reports, reports', by decide, ha, hb, hsame (hapart (.inl rfl)) _ _ _ _ _ _ ha hb⟩

/-- If the output is the directory below the input, one of the two files is folded into the place of the other one,
and what that one is folded to depends on which of them is first. -/
theorem orders_disagree :
    let input : Path := ⟨false, ["s"]⟩
    let output : Path := ⟨false, ["s", "B"]⟩
    let files := [["A.java"], ["B", "A.java"]]
    let options : FoldOptions := ⟨[], 1, .source⟩
    nestedHost.store.IsTree ∧ (programsBelow input : FileWork OnHost _).on nestedHost = (.ok files, nestedHost) ∧
      ∃ order order' a b reports reports', Session.Folds options input output files nestedHost order a reports ∧
        Session.Folds options input output files nestedHost order' b reports' ∧
        a.host.store.at? ["s", "B", "B", "A.java"] ≠ b.host.store.at? ["s", "B", "B", "A.java"] := by
  intro input output files options
  refine ⟨nestedHost_isTree, programsBelow_nestedHost, ?_⟩
  have hfirst : ∃ s reports, Session.Folds options input output files nestedHost
      [["A.java"], ["A.java"], ["A.java"], ["B", "A.java"], ["B", "A.java"], ["B", "A.java"]] s reports ∧
      s.host.store.at? ["s", "B", "B", "A.java"] = some (.file "class A \x7b\n\x7d\n") :=
    exists_folds (by decide) (by decide +kernel)
  have hlast : ∃ s reports, Session.Folds options input output files nestedHost
      [["B", "A.java"], ["B", "A.java"], ["B", "A.java"], ["A.java"], ["A.java"], ["A.java"]] s reports ∧
      s.host.store.at? ["s", "B", "B", "A.java"] = some (.file "class B \x7b\n\x7d\n") :=
    exists_folds (by decide) (by decide +kernel)
  obtain ⟨a, reports, ha, hat⟩ := hfirst
  obtain ⟨b, reports', hb, hat'⟩ := hlast
  refine ⟨_, _, a, b, reports, reports', ha, hb, ?_⟩
  rw [hat, hat']
  decide

end FileWork

end JavaFold
