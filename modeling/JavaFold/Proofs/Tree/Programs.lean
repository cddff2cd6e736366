import JavaFold.Tree.Program
import JavaFold.Proofs.Tree.Edits

/-!
# The tree of a program

`Tree.ofUnit` makes a well-formed tree whose nodes stand in the arrangement of the parts of the
program (`Tree.holds_ofUnit`). Nodes are made from the bottom up, so whatever is made
stands beside the nodes of before and changes none of them (`Tree.Beside`); only the top nodes are
floating, and those get their parent last.
-/

namespace JavaFold

namespace OrderedTree

mutual

/-- What the nodes of a tree stand for. -/
def parts : OrderedTree Placed → OrderedTree Part
  | .node q ss => .node q.part (partsAll ss)

def partsAll : List (OrderedTree Placed) → List (OrderedTree Part)
  | [] => []
  | s :: ss => parts s :: partsAll ss

end

theorem partsAll_eq_map (ss : List (OrderedTree Placed)) : partsAll ss = ss.map parts := by
  induction ss with
  | nil => rfl
  | cons s ss ih => rw [partsAll, ih, List.map_cons]

mutual

theorem labels_parts : ∀ s : OrderedTree Placed, s.parts.labels = s.labels.map Placed.part
  | .node p ss => by rw [parts, labels, labels, labelsAll_partsAll ss, List.map_cons]

theorem labelsAll_partsAll : ∀ ss : List (OrderedTree Placed),
    labelsAll (partsAll ss) = (labelsAll ss).map Placed.part
  | [] => rfl
  | s :: ss => by
    rw [partsAll, labelsAll, labelsAll, labels_parts s, labelsAll_partsAll ss, List.map_append]

end

/-! ## Trees of known parts -/

section

variable {s : OrderedTree Placed} {ss : List (OrderedTree Placed)} {qs us : List (OrderedTree Part)}

theorem parts_eq_node {kind : NodeKind} {span : Span} (h : s.parts = .node ⟨kind, span⟩ qs) :
    ∃ id ts, s = .node ⟨id, kind, span⟩ ts ∧ partsAll ts = qs := by
  obtain ⟨⟨id, kind', span'⟩, ts⟩ := s
  rw [parts, node.injEq] at h
  obtain ⟨hq, rfl⟩ := h
  cases hq
  exact ⟨id, ts, rfl, rfl⟩

theorem partsAll_eq_nil (h : partsAll ss = []) : ss = [] := by
  cases ss with
  | nil => rfl
  | cons s ss => cases h

theorem partsAll_eq_append (h : partsAll ss = qs ++ us) :
    ∃ ss₁ ss₂, ss = ss₁ ++ ss₂ ∧ partsAll ss₁ = qs ∧ partsAll ss₂ = us := by
  rw [partsAll_eq_map] at h
  obtain ⟨ss₁, ss₂, rfl, rfl, rfl⟩ := List.map_eq_append_iff.mp h
  exact ⟨ss₁, ss₂, rfl, partsAll_eq_map ss₁, partsAll_eq_map ss₂⟩

theorem partsAll_eq_cons {q : OrderedTree Part} (h : partsAll ss = q :: qs) :
    ∃ s ss', ss = s :: ss' ∧ s.parts = q ∧ partsAll ss' = qs := by
  cases ss with
  | nil => cases h
  | cons s ss =>
    rw [partsAll, List.cons.injEq] at h
    exact ⟨s, ss, rfl, h.1, h.2⟩

theorem partsAll_eq_singleton {q : OrderedTree Part} (h : partsAll ss = [q]) :
    ∃ s, ss = [s] ∧ s.parts = q := by
  obtain ⟨s, ss', rfl, hs, hss⟩ := partsAll_eq_cons h
  rw [partsAll_eq_nil hss]
  exact ⟨s, rfl, hs⟩

theorem partsAll_eq_pair {q q' : OrderedTree Part} (h : partsAll ss = [q, q']) :
    ∃ s s', ss = [s, s'] ∧ s.parts = q ∧ s'.parts = q' := by
  obtain ⟨s, ss', rfl, hs, hss⟩ := partsAll_eq_cons h
  obtain ⟨s', rfl, hs'⟩ := partsAll_eq_singleton hss
  exact ⟨s, s', rfl, hs, hs'⟩

/-- The trees of an expression that may be missing. -/
theorem partsAll_eq_optParts {e : Option Expr} (h : partsAll ss = Expr.optParts e) :
    (e = none ∧ ss = []) ∨ ∃ e' s, e = some e' ∧ ss = [s] ∧ s.parts = e'.parts := by
  cases e with
  | none => exact .inl ⟨rfl, partsAll_eq_nil h⟩
  | some e =>
    obtain ⟨s, rfl, hs⟩ := partsAll_eq_singleton h
    exact .inr ⟨e, s, rfl, rfl, hs⟩

/-- The trees of the parts of a loop. -/
theorem partsAll_eq_looped {c u : Option Expr} {q : OrderedTree Part}
    (h : partsAll ss = Expr.optParts c ++ Expr.optParts u ++ [q]) :
    ∃ sc su sb, ss = sc ++ su ++ [sb] ∧ partsAll sc = Expr.optParts c ∧
      partsAll su = Expr.optParts u ∧ sb.parts = q := by
  obtain ⟨ss₁, ss₂, rfl, h₁, h₂⟩ := partsAll_eq_append h
  obtain ⟨sc, su, rfl, hc, hu⟩ := partsAll_eq_append h₁
  obtain ⟨sb, rfl, hb⟩ := partsAll_eq_singleton h₂
  exact ⟨sc, su, sb, rfl, hc, hu, hb⟩

end

end OrderedTree

namespace Tree

open OrderedTree

variable {t t' : Tree} {id p c : NodeId} {n m : Node} {s : OrderedTree Placed}

mutual

/-- Only kinds, spans and children count for what is shown. -/
theorem Shows.congr : ∀ (s : OrderedTree Placed), t.Shows s →
    (∀ x ∈ s.ids, ∀ n, t.get? x = some n → ∃ q, t'.get? x = some { n with parent := q }) →
      t'.Shows s
  | .node q ss, ⟨⟨parent, hn⟩, hs⟩, h => by
    rw [ids_node] at h
    obtain ⟨parent', hn'⟩ := h q.id List.mem_cons_self _ hn
    exact ⟨⟨parent', hn'⟩, ShowsAll.congr ss hs fun x hx => h x (List.mem_cons_of_mem _ hx)⟩

theorem ShowsAll.congr : ∀ (ss : List (OrderedTree Placed)), ShowsAll t ss →
    (∀ x ∈ idsAll ss, ∀ n, t.get? x = some n → ∃ q, t'.get? x = some { n with parent := q }) →
      ShowsAll t' ss
  | [], _, _ => trivial
  | s :: ss, ⟨h, hs⟩, hk => by
    rw [idsAll_cons] at hk
    exact ⟨Shows.congr s h fun x hx => hk x (List.mem_append_left _ hx),
      ShowsAll.congr ss hs fun x hx => hk x (List.mem_append_right _ hx)⟩

end

/-- The trees `ss` stand in `t'` beside all nodes of `t`, with floating tops. -/
structure Beside (t t' : Tree) (ss : List (OrderedTree Placed)) : Prop where
  wellFormed : t'.WellFormed
  root : t'.root = t.root
  kept {j : NodeId} {n : Node} : t.get? j = some n → t'.get? j = some n ∧ j ∉ idsAll ss
  shows : t'.ShowsAll ss
  floating : ∀ s ∈ ss, t'.Floating s.label.id
  nodup : (ss.map (·.label.id)).Nodup

theorem Beside.nil (h : t.WellFormed) : Beside t t [] :=
  ⟨h, rfl, fun hn => ⟨hn, by simp⟩, trivial, by simp, .nil⟩

theorem Floating.of_kept (hf : t.Floating id) (hn : t.get? id = t'.get? id)
    (hr : t'.root = t.root) : t'.Floating id := by
  obtain ⟨n, hg, hp, hne⟩ := hf
  exact ⟨n, hn ▸ hg, hp, hr ▸ hne⟩

theorem Beside.cons {t₁ t₂ : Tree} {ss : List (OrderedTree Placed)} (h₁ : Beside t t₁ [s])
    (h₂ : Beside t₁ t₂ ss) : Beside t t₂ (s :: ss) := by
  have hlive : ∀ x ∈ s.ids, ∃ n, t₁.get? x = some n := fun x hx => h₁.shows.1.live hx
  have hfloat := h₁.floating s List.mem_cons_self
  refine ⟨h₂.wellFormed, h₂.root.trans h₁.root, fun {j n} hn => ?_, ⟨?_, h₂.shows⟩, ?_, ?_⟩
  · obtain ⟨hn₁, hj₁⟩ := h₁.kept hn
    obtain ⟨hn₂, hj₂⟩ := h₂.kept hn₁
    rw [idsAll_cons, idsAll_nil, List.append_nil] at hj₁
    refine ⟨hn₂, fun hm => ?_⟩
    rcases List.mem_append.mp (idsAll_cons s ss ▸ hm) with hm | hm
    · exact hj₁ hm
    · exact hj₂ hm
  · exact h₁.shows.1.congr s fun x _ n hn => ⟨n.parent, (h₂.kept hn).1⟩
  · intro u hu
    rcases List.mem_cons.mp hu with rfl | hu
    · obtain ⟨n, hn, -⟩ := id hfloat
      exact hfloat.of_kept (hn.trans (h₂.kept hn).1.symm) h₂.root
    · exact h₂.floating u hu
  · rw [List.map_cons, List.nodup_cons]
    refine ⟨fun hm => ?_, h₂.nodup⟩
    obtain ⟨u, hu, he⟩ := List.mem_map.mp hm
    obtain ⟨n, hn⟩ := hlive _ s.id_mem_ids
    exact (h₂.kept hn).2 (mem_idsAll.mpr ⟨u, hu, he ▸ u.id_mem_ids⟩)

/-- A node above floating trees is a floating tree. -/
theorem Beside.insert {ss : List (OrderedTree Placed)} (h : Beside t t' ss) (q : Part) :
    Beside t (t'.insert q.kind q.span (ss.map (·.label.id))).2
      [.node ⟨(t'.insert q.kind q.span (ss.map (·.label.id))).1, q.kind, q.span⟩ ss] := by
  have hwf := h.wellFormed
  have hfresh := get?_fresh hwf.toStored
  have hfloat : ∀ c ∈ ss.map (·.label.id), t'.Floating c := by
    intro c hc
    obtain ⟨s, hs, rfl⟩ := List.mem_map.mp hc
    exact h.floating s hs
  have hg := get?_insert hwf.toStored q.kind q.span (ss.map (·.label.id))
  have hne : ∀ {j n}, t'.get? j = some n → j ≠ t'.reserve.1 := by
    rintro j n hn rfl
    rw [hfresh] at hn
    cases hn
  refine ⟨hwf.insert q.kind q.span h.nodup hfloat, (root_insert ..).trans h.root,
    fun {j n} hn => ?_, ⟨⟨⟨none, ?_⟩, ?_⟩, trivial⟩, ?_, by simp⟩
  · obtain ⟨hn', hj⟩ := h.kept hn
    have hjc : j ∉ ss.map (·.label.id) := fun hm => by
      obtain ⟨s, hs, rfl⟩ := List.mem_map.mp hm
      exact hj (mem_idsAll.mpr ⟨s, hs, s.id_mem_ids⟩)
    refine ⟨by rw [hg, if_neg (hne hn'), if_neg hjc, hn'], ?_⟩
    rw [idsAll_cons, idsAll_nil, List.append_nil, ids_node, List.mem_cons, not_or]
    exact ⟨hne hn', hj⟩
  · rw [hg, insert_fst, if_pos rfl]
  · refine ShowsAll.congr ss h.shows fun x hx n hn => ?_
    rw [hg, if_neg (hne hn), hn]
    split
    · exact ⟨_, rfl⟩
    · exact ⟨n.parent, rfl⟩
  · intro s hs
    rw [List.mem_singleton.mp hs]
    exact hwf.floating_insert q.kind q.span _

mutual

theorem insertParts_beside : ∀ (p : OrderedTree Part) {t : Tree}, t.WellFormed →
    ∃ s, Beside t (insertParts p t).2 [s] ∧ s.label.id = (insertParts p t).1 ∧ s.parts = p
  | .node q ps, t, h => by
    obtain ⟨ss, hb, hids, hparts⟩ := insertAllParts_beside ps h
    have hnode : insertParts (.node q ps) t =
        (insertAllParts ps t).2.insert q.kind q.span (ss.map (·.label.id)) := by
      rw [insertParts, hids]
    rw [hnode]
    refine ⟨_, hb.insert q, rfl, ?_⟩
    rw [OrderedTree.parts, hparts]
    rfl

theorem insertAllParts_beside : ∀ (ps : List (OrderedTree Part)) {t : Tree}, t.WellFormed →
    ∃ ss, Beside t (insertAllParts ps t).2 ss ∧
      ss.map (·.label.id) = (insertAllParts ps t).1 ∧ partsAll ss = ps
  | [], t, h => ⟨[], .nil h, rfl, rfl⟩
  | p :: ps, t, h => by
    obtain ⟨s, hb, hid, hpart⟩ := insertParts_beside p h
    obtain ⟨ss, hbs, hids, hparts⟩ := insertAllParts_beside ps hb.wellFormed
    refine ⟨s :: ss, hb.cons hbs, ?_, ?_⟩
    · rw [List.map_cons, hid, hids]
      rfl
    · rw [partsAll, hpart, hparts]

end

/-! ## The root -/

theorem stored_nothing : Stored ⟨#[], [], ⟨0, 0⟩, 0⟩ := ⟨.nil, by simp, rfl⟩

theorem wellFormed_empty : empty.WellFormed := by
  have hs := stored_nothing.insert .unit .dummy []
  have hg : ∀ j, empty.get? j = if j = ⟨0, 0⟩ then some ⟨.unit, .dummy, none, []⟩ else none := by
    intro j
    refine (get?_insert stored_nothing .unit .dummy [] j).trans ?_
    simp [reserve, get?]
  have hparent : ∀ p c, ¬ empty.IsParent p c := by
    rintro p c ⟨n, hn, hp⟩
    rw [hg] at hn
    split at hn
    · cases hn
      cases hp
    · cases hn
  refine ⟨⟨hs.free_nodup, hs.mem_free, hs.live_eq⟩, fun hn hp => ?_, fun hn hc => ?_, fun id => ?_, ?_⟩
  · exact absurd ⟨_, hn, hp⟩ (hparent _ _)
  · rw [hg] at hn
    split at hn
    · cases hn
      cases hc
    · cases hn
  · exact ⟨id, fun p hp => absurd hp (hparent p id)⟩
  · exact ⟨_, by rw [hg]; rfl, rfl, rfl⟩

theorem shows_empty : empty.Shows (.node ⟨empty.root, .unit, .dummy⟩ []) :=
  ⟨⟨none, rfl⟩, trivial⟩

/-- Linking floating trees to the root, one after another, puts them below it in that order. -/
theorem linkAll {q : Placed} : ∀ (ss before : List (OrderedTree Placed)) {t : Tree}, t.WellFormed →
    t.root = q.id → t.Shows (.node q before) → t.ShowsAll ss →
    (∀ s ∈ ss, t.Floating s.label.id) → (ss.map (·.label.id)).Nodup →
      let t' := (ss.map (·.label.id)).foldl (fun t id => t.link t.root id) t
      t'.WellFormed ∧ t'.root = q.id ∧ t'.Shows (.node q (before ++ ss))
  | [], before, t, h, hr, hb, _, _, _ => by
    rw [List.append_nil]
    exact ⟨h, hr, hb⟩
  | s :: ss, before, t, h, hr, hb, hs, hf, hd => by
    have hfs := hf s List.mem_cons_self
    obtain ⟨n, hn, hnp, hne⟩ := id hfs
    obtain ⟨r, hrn, hrp, -⟩ := h.root
    have hna : ¬ t.Above s.label.id t.root := fun ha => by
      rcases Relation.ReflTransGen.cases_tail ha with e | ⟨p, -, hp⟩
      · exact hne e.symm
      · exact h.not_isParent_root hp
    have hg := get?_link (t := t) hne.symm
    have hkeep : ∀ x, x ≠ t.root → ∀ k, t.get? x = some k →
        ∃ q, (t.link t.root s.label.id).get? x = some { k with parent := q } := by
      intro x hx k hk
      rw [hg, if_neg hx, hk]
      split
      · exact ⟨_, rfl⟩
      · exact ⟨k.parent, rfl⟩
    -- The root is in no tree that is linked, nor below itself.
    have hnotin : ∀ u : OrderedTree Placed, t.Shows u → u.label.id ≠ t.root → t.root ∉ u.ids := by
      intro u hu hne' hm
      rcases Relation.ReflTransGen.cases_tail ((h.mem_ids_iff hu).mp hm) with e | ⟨p, -, hp⟩
      · exact hne' e.symm
      · exact h.not_isParent_root hp
    have hshow : ∀ u : OrderedTree Placed, t.Shows u → u.label.id ≠ t.root →
        (t.link t.root s.label.id).Shows u := fun u hu hne' =>
      hu.congr u fun x hx => hkeep x fun e => hnotin u hu hne' (e ▸ hx)
    obtain ⟨⟨parent, hq⟩, hbelow⟩ := hb
    have hbefore : (t.link t.root s.label.id).ShowsAll before := showsAll_iff.mpr fun u hu => by
      refine hshow u (showsAll_iff.mp hbelow u hu) fun e => ?_
      refine h.not_isParent_root (p := q.id) ?_
      rw [← e]
      exact h.isParent_of_mem hq (List.mem_map_of_mem hu)
    have hss : ∀ u ∈ ss, u.label.id ≠ t.root := fun u hu => by
      obtain ⟨_, _, _, hu⟩ := hf u (List.mem_cons_of_mem _ hu)
      exact hu
    have htop : (t.link t.root s.label.id).get? q.id =
        some ⟨q.kind, q.span, parent, (before ++ [s]).map (·.label.id)⟩ := by
      rw [hg, ← hr, if_neg hne.symm, if_pos rfl, hr, hq]
      simp
    rw [List.map_cons, List.nodup_cons] at hd
    have ih := linkAll (q := q) ss (before ++ [s]) (h.link hfs hrn hna) ((root_link ..).trans hr)
      ⟨⟨parent, htop⟩, showsAll_iff.mpr fun u hu => by
        rcases List.mem_append.mp hu with hu | hu
        · exact showsAll_iff.mp hbefore u hu
        · rw [List.mem_singleton.mp hu]
          exact hshow s hs.1 hne⟩
      (showsAll_iff.mpr fun u hu => hshow u (showsAll_iff.mp hs.2 u hu) (hss u hu))
      (fun u hu => by
        have hfu := hf u (List.mem_cons_of_mem _ hu)
        refine hfu.of_kept ?_ (root_link ..)
        have hus : u.label.id ≠ s.label.id := fun e => hd.1 (e ▸ List.mem_map_of_mem hu)
        rw [hg, if_neg hus, if_neg (hss u hu)])
      hd.2
    rw [List.append_assoc] at ih
    exact ih

/-- The nodes of the tree of a program stand for the parts of the program. -/
theorem ofUnit_spec (unit : CompilationUnit) : (ofUnit unit).WellFormed ∧
    ∃ ss, (ofUnit unit).Shows (.node ⟨(ofUnit unit).root, .unit, .dummy⟩ ss) ∧
      partsAll ss = unit.classes.map ClassDecl.parts := by
  obtain ⟨ss, hb, hids, hparts⟩ :=
    insertAllParts_beside (unit.classes.map ClassDecl.parts) wellFormed_empty
  have hroot : (insertAllParts (unit.classes.map ClassDecl.parts) empty).2.Shows
      (.node ⟨empty.root, .unit, .dummy⟩ []) := by
    refine shows_empty.congr _ fun x _ n hn => ⟨n.parent, (hb.kept hn).1⟩
  obtain ⟨hwf, hr, hshow⟩ := linkAll (q := ⟨empty.root, .unit, .dummy⟩) ss [] hb.wellFormed hb.root
    hroot hb.shows hb.floating hb.nodup
  rw [hids] at hwf hr hshow
  refine ⟨hwf, ss, ?_, hparts⟩
  rw [show (ofUnit unit).root = empty.root from hr]
  exact hshow

theorem wellFormed_ofUnit (unit : CompilationUnit) : (ofUnit unit).WellFormed :=
  (ofUnit_spec unit).1

/-- The label of the root of a program's tree. -/
abbrev top (t : Tree) : Placed := ⟨t.root, .unit, .dummy⟩

/-- The tree is well-formed, and its nodes stand in the arrangement of the parts of a program. -/
structure Holds (t : Tree) (unit : CompilationUnit) : Prop where
  wellFormed : t.WellFormed
  shows : ∃ ss, t.Shows (.node t.top ss) ∧ partsAll ss = unit.classes.map ClassDecl.parts

theorem holds_ofUnit (unit : CompilationUnit) : (ofUnit unit).Holds unit :=
  ⟨(ofUnit_spec unit).1, (ofUnit_spec unit).2⟩

end Tree

end JavaFold
