import JavaFold.Proofs.Files.Orders
import JavaFold.Proofs.Files.Search

/-!
# Folding a directory mirrors it

The programs below a directory are the files below it, at any depth, whose names end in `.java`
(`FileWork.mem_programs_iff`), and a search finds just these. If none of them is folded into the place of another one,
folding the directory leaves a mirror of it (`FileWork.Mirrors`), whatever the order of the steps
(`FileWork.foldDirectory_mirrors`): the target of each program holds what the text that was there at the beginning is
folded to, no other file is made or changed, and the reports name each program once, in the order of their paths.
-/

namespace JavaFold

namespace FileWork

/-- Whether a program is at the place to which some names lead from a directory. -/
def IsSource (input : Path) (host : Host) (names : List String) : Prop :=
  isProgram names = true ∧ ∃ text, host.store.at? (input.place host.cwd ++ names) = some (.file text)

/-- What is left of a directory that has been folded into another one: the fold of each program, made of the text
that was there at the beginning, and besides them what was there, with directories above the targets. -/
structure Mirrors (options : FoldOptions) (input output : Path) (host : Host) (store : FileStore)
    (reports : List (Path × Report)) : Prop where
  folded : ∀ names text, isProgram names = true →
    host.store.at? (input.place host.cwd ++ names) = some (.file text) →
      ∃ result, options.foldSource text (input.append names).text = .ok result ∧
        (input.append names, result.report) ∈ reports ∧
        store.at? (output.place host.cwd ++ names) = some (.file result.text)
  others : ∀ l, (∀ names, IsSource input host names → output.place host.cwd ++ names ≠ l) →
    store.at? l = host.store.at? l ∨ host.store.at? l = none ∧ store.at? l = some .directory ∧
      ∃ names, IsSource input host names ∧ l ∈ parents output host names
  listed : ∀ out ∈ reports, ∃ names, IsSource input host names ∧ out.1 = input.append names
  ordered : reports.Pairwise fun a b => a.1.parts < b.1.parts

variable {options : FoldOptions} {input output : Path} {files : List (List String)} {host : Host}
  {s : Session} {reports : List (Path × Report)} {names : List String}

/-! ## The programs below a directory -/

theorem programs_eq {host' : Host} (h : (programsBelow input : FileWork OnHost _).on host = (.ok files, host')) :
    ∃ found, host.store.filesBelow? host.cwd input = some found ∧ files = programsOf found := by
  rw [on_programsBelow] at h
  cases hfound : host.store.filesBelow? host.cwd input with
  | none =>
    rw [hfound] at h
    cases h
  | some found =>
    rw [hfound] at h
    cases h
    exact ⟨found, rfl, rfl⟩

/-- The programs below a directory are the files below it, at any depth, with the right names. -/
theorem mem_programs_iff (htree : host.store.IsFileTree) {host' : Host}
    (h : (programsBelow input : FileWork OnHost _).on host = (.ok files, host')) :
    names ∈ files ↔ IsSource input host names := by
  obtain ⟨found, hfound, rfl⟩ := programs_eq h
  have hdir : host.store.entry? host.cwd input = some .directory := by
    refine Classical.byContradiction fun hne => ?_
    rw [FileStore.filesBelow?_eq_none hne] at hfound
    cases hfound
  rw [FileStore.filesBelow?, hdir, (FileStore.leads_of_entry? hdir).1] at hfound
  cases hfound
  rw [programsOf, List.mem_mergeSort, List.mem_filter, and_comm, IsSource, List.mem_filterMap]
  refine and_congr_right fun _ => ?_
  constructor
  · rintro ⟨⟨place, entry⟩, he, hbelow⟩
    cases entry with
    | directory => cases hbelow
    | file text =>
      obtain rfl := FileStore.eq_append_of_below? hbelow
      exact ⟨text, (htree.at?_eq_some_iff (htree.ne_nil _ he)).mpr he⟩
  · rintro ⟨text, hat⟩
    have hne : input.place host.cwd ++ names ≠ [] := by
      intro hnil
      rw [hnil, FileStore.at?_nil] at hat
      cases hat
    refine ⟨_, (htree.at?_eq_some_iff hne).mp hat, ?_⟩
    rw [FileStore.below?, if_pos (List.isPrefixOf_iff_prefix.mpr (List.prefix_append _ _)), List.drop_left]

/-- The programs below a directory are in the order of their paths. -/
theorem ordered_programs (htree : host.store.IsFileTree) {host' : Host}
    (h : (programsBelow input : FileWork OnHost _).on host = (.ok files, host')) : files.Pairwise (· < ·) := by
  have hnodup := (programsBelow_of_isTree htree.toIsTree h).1
  obtain ⟨found, -, rfl⟩ := programs_eq h
  refine ((Listing.pairwise_sorted id _).and hnodup).imp fun {a b} hab => ?_
  exact Classical.byContradiction fun hlt => hab.2 (Listing.eq_of_not_lt hab.1 hlt)

/-! ## The end of the work -/

theorem map_fst_of_ended (h : Session.Ended input files s reports) :
    reports.map Prod.fst = files.map input.append := by
  induction h with
  | nil => rfl
  | cons hr _ ih => rw [List.map_cons, List.map_cons, hr.1, ih]

theorem exists_mem_of_ended (h : Session.Ended input files s reports) :
    ∀ names ∈ files, ∃ report, s.progress names = .done report ∧ (input.append names, report) ∈ reports := by
  induction h with
  | nil => nofun
  | @cons f out _ _ hr _ ih =>
    intro names hnames
    rcases List.mem_cons.mp hnames with rfl | hnames
    · refine ⟨out.2, hr.2, ?_⟩
      rw [← hr.1]
      exact List.mem_cons_self
    · obtain ⟨report, hdone, hmem⟩ := ih names hnames
      exact ⟨report, hdone, List.mem_cons_of_mem _ hmem⟩

/-- What holds between the steps makes a mirror of the directory when the work is done. -/
theorem InOrder.mirrors (hi : InOrder options input output files host s) (hended : Session.Ended input files s reports)
    (hnames : ∀ names ∈ files, ∀ name ∈ names, IsEntryName name)
    (hsource : ∀ names, names ∈ files ↔ IsSource input host names) (hsorted : files.Pairwise (· < ·)) :
    Mirrors options input output host s.host.store reports := by
  have htarget : ∀ names ∈ files, target output host names = output.place host.cwd ++ names :=
    fun names hf => Path.place_append _ _ (hnames names hf)
  refine ⟨fun names text hprogram hat => ?_, fun l hl => ?_, fun out hout => ?_, ?_⟩
  · have hf := (hsource names).mpr ⟨hprogram, text, hat⟩
    obtain ⟨report, hdone, hmem⟩ := exists_mem_of_ended hended names hf
    obtain ⟨result, hresult, rfl, hplace⟩ := hi.done names hf report hdone
    rw [htarget names hf] at hplace
    rw [result?, Path.place_append _ _ (hnames names hf), hat] at hresult
    refine ⟨result, ?_, hmem, hplace⟩
    revert hresult
    dsimp only
    cases options.foldSource text (input.append names).text with
    | error =>
      intro hresult
      cases hresult
    | ok folded =>
      intro hresult
      rw [Option.some.inj hresult]
  · have helse := hi.elsewhere l fun names hf _ => (htarget names hf).trans_ne (hl names ((hsource names).mp hf))
    cases hfirst : host.store.at? l with
    | some entry =>
      rw [hfirst, Option.some_or] at helse
      exact .inl helse
    | none =>
      rw [hfirst, Option.none_or] at helse
      by_cases habove : isAbove output files host s.progress l = true
      · rw [if_pos habove] at helse
        obtain ⟨names, hf, hparent⟩ := (isAbove_of_ended hended).mp habove
        exact .inr ⟨rfl, helse, names, (hsource names).mp hf, hparent⟩
      · rw [if_neg habove] at helse
        exact .inl helse
  · have hmem := List.mem_map_of_mem (f := Prod.fst) hout
    rw [map_fst_of_ended hended] at hmem
    obtain ⟨names, hf, heq⟩ := List.mem_map.mp hmem
    exact ⟨names, (hsource names).mp hf, heq.symm⟩
  · have hpaths : (reports.map Prod.fst).Pairwise fun a b => a.parts < b.parts := by
      rw [map_fst_of_ended hended, List.pairwise_map]
      exact hsorted.imp_of_mem fun ha hb hab =>
        (Listing.parts_append_lt_iff (hnames _ ha) (hnames _ hb)).mpr hab
    rwa [List.pairwise_map] at hpaths

/-- Folding a directory without failing leaves a mirror of it, if no program is folded into the place of another one:
in whatever order the steps are taken, and one program after another. The programs are those that a search through the
directory finds, whatever order the file system names the entries of a directory in, and their names are what is left
of their paths without that of the directory. -/
theorem foldDirectory_mirrors (options : FoldOptions) {input output : Path} {host : Host}
    (htree : host.store.IsFileTree)
    (hapart : ∀ f g, IsSource input host f → IsSource input host g → f ≠ g →
      target output host f ≠ (input.append g).place host.cwd) :
    (∀ read, host.store.IsListing host.cwd read → read.programsBelow? input =
      ((programsBelow input : FileWork OnHost _).on host).1.toOption.map (List.map input.append)) ∧
    (∀ files, (programsBelow input : FileWork OnHost _).on host = (.ok files, host) →
      (∀ names, names ∈ files ↔ IsSource input host names) ∧
      (∀ names ∈ files, (input.append names).relativeTo? input = some names) ∧
      ∀ order s reports, Session.Folds options input output files host order s reports →
        Mirrors options input output host s.host.store reports) ∧
    ∀ reports host', (foldDirectory options input output : FileWork OnHost _).on host = (.ok reports, host') →
      Mirrors options input output host host'.store reports := by
  have hlisted : ∀ files, (programsBelow input : FileWork OnHost _).on host = (.ok files, host) →
      ∀ order s reports, Session.Folds options input output files host order s reports →
        Mirrors options input output host s.host.store reports := by
    intro files hfiles order s reports hfolds
    have hsource : ∀ names, names ∈ files ↔ IsSource input host names := fun _ => mem_programs_iff htree hfiles
    obtain ⟨-, hnames⟩ := programsBelow_of_isTree htree.toIsTree hfiles
    have hfar : Apart input output files host :=
      fun f hf g hg => hapart f g ((hsource f).mp hf) ((hsource g).mp hg)
    have hi := (InOrder.start options input output files host).takeAll hfar (distinct_of_names hnames)
      hfolds.files_only hfolds.run
    exact hi.mirrors hfolds.ended hnames hsource (ordered_programs htree hfiles)
  refine ⟨fun read hread => ?_, fun files hfiles => ⟨fun names => mem_programs_iff htree hfiles, fun names hf => ?_,
    hlisted files hfiles⟩, fun reports host' h => ?_⟩
  · rw [Listing.programsBelow?_eq htree hread, on_programsBelow]
    cases host.store.filesBelow? host.cwd input <;> rfl
  · exact Listing.relativeTo?_append ((programsBelow_of_isTree htree.toIsTree hfiles).2 names hf) input
  · obtain ⟨files, host₁, hfiles, hfold⟩ := on_bind_eq_ok h
    obtain rfl : host = host₁ := by
      rw [on_programsBelow] at hfiles
      exact (Prod.mk.inj hfiles).2
    obtain ⟨order, s, hmem, hrun, rfl, hended, -⟩ :=
      takeAll_mapM (s := Session.start host) (programsBelow_of_isTree htree.toIsTree hfiles).1 (fun _ _ => rfl) hfold
    exact hlisted files hfiles order s reports ⟨hmem, hrun, hended⟩

/-- Work that ends well, by what is seen of its end. -/
theorem exists_on_eq_ok {α β : Type} {x : FileWork OnHost α} {view : α → Host → β} {b : β}
    (h : (x.on host).1.toOption.map (view · (x.on host).2) = some b) :
    ∃ a host', x.on host = (.ok a, host') ∧ view a host' = b := by
  rcases hx : x.on host with ⟨_ | a, host'⟩
  · rw [hx] at h
    cases h
  · rw [hx] at h
    exact ⟨a, host', rfl, Option.some.inj h⟩

theorem nestedHost_isFileTree : nestedHost.store.IsFileTree where
  toIsTree := nestedHost_isTree
  ne_nil := by decide
  within := by decide
  valid := by decide +kernel

/-- A directory with another one in it, folded into itself. -/
theorem foldDirectory_mirrors_in_place :
    let dir : Path := ⟨false, ["s"]⟩
    let options : FoldOptions := ⟨[], 1, .source⟩
    nestedHost.store.IsFileTree ∧
      (∀ f g, IsSource dir nestedHost f → IsSource dir nestedHost g → f ≠ g →
        target dir nestedHost f ≠ (dir.append g).place nestedHost.cwd) ∧
      (nestedHost.store.listing nestedHost.cwd).programsBelow? dir =
        some [dir.append ["A.java"], dir.append ["B", "A.java"]] ∧
      ∃ reports host', (foldDirectory options dir dir : FileWork OnHost _).on nestedHost = (.ok reports, host') ∧
        reports.map (fun out => out.1.parts) = [["s", "A.java"], ["s", "B", "A.java"]] ∧
        host'.store.at? ["s", "A.java"] = some (.file "class A \x7b\n\x7d\n") ∧
        host'.store.at? ["s", "B", "A.java"] = some (.file "class B \x7b\n\x7d\n") ∧
        Mirrors options dir dir nestedHost host'.store reports := by
  intro dir options
  have hsource : ∀ names, names ∈ [["A.java"], ["B", "A.java"]] ↔ IsSource dir nestedHost names :=
    fun names => mem_programs_iff nestedHost_isFileTree programsBelow_nestedHost
  have hnames := (programsBelow_of_isTree nestedHost_isTree programsBelow_nestedHost).2
  have hapart : ∀ f g, IsSource dir nestedHost f → IsSource dir nestedHost g → f ≠ g →
      target dir nestedHost f ≠ (dir.append g).place nestedHost.cwd :=
    fun f g hf hg => apart_of_places hnames (.inl rfl) f ((hsource f).mpr hf) g ((hsource g).mpr hg)
  obtain ⟨hfound, -, hmirrors⟩ := foldDirectory_mirrors options nestedHost_isFileTree hapart
  have hsearch : (nestedHost.store.listing nestedHost.cwd).programsBelow? dir =
      some [dir.append ["A.java"], dir.append ["B", "A.java"]] := by
    rw [hfound _ (FileStore.isListing_listing _ _), programsBelow_nestedHost]
    rfl
  obtain ⟨reports, host', hon, hview⟩ : ∃ reports host',
      (foldDirectory options dir dir : FileWork OnHost _).on nestedHost = (.ok reports, host') ∧
      (reports.map (fun out => out.1.parts), host'.store.at? ["s", "A.java"], host'.store.at? ["s", "B", "A.java"]) =
        ([["s", "A.java"], ["s", "B", "A.java"]], some (.file "class A \x7b\n\x7d\n"),
          some (.file "class B \x7b\n\x7d\n")) := by
    rw [foldDirectory, on_bind_ok programsBelow_nestedHost]
    exact exists_on_eq_ok (by decide +kernel)
  obtain ⟨hpaths, hfiles⟩ := Prod.mk.inj hview
  obtain ⟨hfirst, hsecond⟩ := Prod.mk.inj hfiles
  exact ⟨nestedHost_isFileTree, hapart, hsearch, reports, host', hon, hpaths, hfirst, hsecond,
    hmirrors reports host' hon⟩

end FileWork

end JavaFold
