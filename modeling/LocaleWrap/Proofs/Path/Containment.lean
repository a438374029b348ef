import LocaleWrap.Batch
import LocaleWrap.Proofs.Path.Names

/-! # Paths spelled below a root

Whether a path counts as lying below a root is read off the spellings of the two: the path has to go
on, by names only, where the root ends.

* **`Path.SpelledBelow`** — a path that goes on along some names where the root ends.
* `Path.difference_eq_some_iff` — the ways down that the comparison of components finds.
* `Path.insideOf?_eq_some_iff` — what is found inside a root is what is spelled below it.
* **`Path.IsDirect`** — an absolute path without steps up; its components are its location.
* `Path.exists_belowRoot` — a path that ends in a name has a place below every directory. -/

namespace LocaleWrap

namespace Path

variable {cwd : Option Path} {root p q : Path} {names : List Text}

/-- **A path spelled below a root**: it goes on along names where the root ends, both in their
absolute forms. -/
def SpelledBelow (cwd : Option Path) (root p : Path) (names : List Text) : Prop :=
  ∃ base full, root.anchored? cwd = some base ∧ p.anchored? cwd = some full ∧
    full.components = base.components ++ names.map .normal

namespace SpelledBelow

/-- A path spelled below a root goes on along names. -/
theorem isName (h : SpelledBelow cwd root p names) : ∀ n ∈ names, IsName n := by
  obtain ⟨base, full, -, -, hfull⟩ := h
  intro n hn
  refine isName_of_mem_components (p := full) ?_
  rw [hfull]
  exact List.mem_append_right _ (List.mem_map_of_mem hn)

/-- There is only one way along which a path is spelled below a root. -/
theorem unique {names' : List Text} (h : SpelledBelow cwd root p names)
    (h' : SpelledBelow cwd root p names') : names = names' := by
  obtain ⟨base, full, hbase, hfull, hcomponents⟩ := h
  obtain ⟨base', full', hbase', hfull', hcomponents'⟩ := h'
  obtain rfl := Option.some.inj (hbase.symm.trans hbase')
  obtain rfl := Option.some.inj (hfull.symm.trans hfull')
  have hnames := List.append_cancel_left (hcomponents.symm.trans hcomponents')
  exact (List.map_inj_right fun _ _ => Component.normal.inj).mp hnames

end SpelledBelow

/-! ## The way from one path to another -/

/-- The way from components to the same ones with more behind is what stands behind. -/
theorem difference_append (base way : List Component) :
    difference base (base ++ way) = some way := by
  induction base with
  | nil => rw [List.nil_append, difference]
  | cons b base ih => rw [List.cons_append, difference, if_pos rfl, ih]

/-- **A way down** is found where the target goes on from the base, and only there: a step up is
never left out of a way. -/
theorem difference_eq_some_iff {base target way : List Component}
    (hway : way.all Component.isNormal = true) :
    difference base target = some way ↔ target = base ++ way := by
  constructor
  · intro h
    fun_induction difference base target with
    | case1 target => exact Option.some.inj h
    | case2 base hbase =>
        -- each component left of the base is a step up
        obtain rfl := Option.some.inj h
        obtain ⟨b, bs, rfl⟩ := List.exists_cons_of_ne_nil hbase
        cases hway
    | case3 base b target ih => rw [List.cons_append, ← ih h]
    | case4 => cases h
    | case5 =>
        obtain rfl := Option.some.inj h
        cases hway
  · rintro rfl
    exact difference_append base way

/-- Components that are all normal are names. -/
theorem exists_names_of_all_isNormal {way : List Component}
    (h : way.all Component.isNormal = true) : ∃ names : List Text, way = names.map .normal := by
  induction way with
  | nil => exact ⟨[], rfl⟩
  | cons c way ih =>
      rw [List.all_cons, Bool.and_eq_true] at h
      obtain ⟨names, rfl⟩ := ih h.2
      cases c with
      | normal name => exact ⟨name :: names, rfl⟩
      | root => cases h.1
      | current => cases h.1
      | parent => cases h.1

/-- **Without steps up** there are only names behind the beginning of a path. -/
theorem exists_names_of_no_parent (h : .parent ∉ p.components) :
    ∃ names : List Text, componentsOf (Text.pieces '/' p.text) = names.map .normal := by
  apply exists_names_of_all_isNormal
  rw [List.all_eq_true]
  intro c hc
  rcases eq_parent_or_name_of_mem (fun t ht => Text.not_mem_of_mem_pieces ht) hc with
    rfl | ⟨n, -, rfl⟩
  · rw [components_eq] at h
    exact absurd (List.mem_append_right _ hc) h
  · rfl

/-- **What is found inside a root** is what is spelled below it. -/
theorem insideOf?_eq_some_iff :
    insideOf? cwd root p = some q ↔
      ∃ names, names ≠ [] ∧ SpelledBelow cwd root p names ∧ q = ofNames names := by
  constructor
  · intro h
    obtain ⟨base, hbase, h⟩ := Option.bind_eq_some_iff.mp h
    obtain ⟨full, hfull, h⟩ := Option.bind_eq_some_iff.mp h
    obtain ⟨way, hway, h⟩ := Option.bind_eq_some_iff.mp h
    split_ifs at h with hdown
    obtain ⟨names, rfl⟩ := exists_names_of_all_isNormal hdown.2
    refine ⟨names, fun hnil => hdown.1 (by rw [hnil]; rfl), ⟨base, full, hbase, hfull, ?_⟩, ?_⟩
    · exact (difference_eq_some_iff hdown.2).mp hway
    · rw [← Option.some.inj h, ofComponents_map_normal]
  · rintro ⟨names, hne, ⟨base, full, hbase, hfull, hcomponents⟩, rfl⟩
    have hnormal : (names.map Component.normal).all Component.isNormal = true := by
      simp [List.all_map, Component.isNormal]
    have hway := (difference_eq_some_iff hnormal).mpr hcomponents
    simp [insideOf?, hbase, hfull, hway, hne, Component.isNormal, ofComponents_map_normal]

/-! ## Direct paths -/

/-- **A direct path**: absolute and without steps up. -/
def IsDirect (p : Path) : Prop := p.isAbsolute = true ∧ .parent ∉ p.components

instance (p : Path) : Decidable p.IsDirect := inferInstanceAs (Decidable (_ ∧ _))

/-- **A direct path spells out its location.** -/
theorem IsDirect.components_eq (h : p.IsDirect) (cwd : Location) :
    p.components = .root :: (p.resolve cwd).map .normal := by
  obtain ⟨names, hnames⟩ := exists_names_of_no_parent h.2
  have hcomponents := components_of_isAbsolute h.1
  rw [hnames] at hcomponents
  have hresolve : p.resolve cwd = names := by
    rw [resolve, hcomponents, List.foldl_cons, foldl_follow_names, Component.follow,
      List.nil_append]
  rw [hresolve, hcomponents]

/-! ## Where a file is shown, and where its result goes -/

/-- How an absolute path is shown at an absolute root does not depend on where relative paths
begin. -/
theorem shownFrom_of_isAbsolute (hroot : root.isAbsolute = true) (hp : p.isAbsolute = true)
    (cwd cwd' : Option Path) : shownFrom cwd root p = shownFrom cwd' root p := by
  simp only [shownFrom, insideOf?, anchored?, if_pos hroot, if_pos hp]

/-- A path spelled below the root is shown by the names that follow the root. -/
theorem insideOf?_of_spelledBelow (h : SpelledBelow cwd root p names) (hne : names ≠ []) :
    insideOf? cwd root p = some (ofNames names) :=
  insideOf?_eq_some_iff.mpr ⟨names, hne, h, rfl⟩

/-- A path that is not spelled below the root is not shown as inside of it. -/
theorem insideOf?_of_not_spelledBelow (h : ∀ names, names ≠ [] → ¬ SpelledBelow cwd root p names) :
    insideOf? cwd root p = none := by
  rw [Option.eq_none_iff_forall_ne_some]
  intro q hq
  obtain ⟨names, hne, hspelled, -⟩ := insideOf?_eq_some_iff.mp hq
  exact h names hne hspelled

/-- **A path spelled below the root** is shown by its names, and its result goes to where they
lead. -/
theorem shownFrom_of_spelledBelow (h : SpelledBelow cwd root p names) (hne : names ≠ []) :
    shownFrom cwd root p = ofNames names ∧ belowRoot cwd root p = ofNames names := by
  rw [shownFrom, belowRoot, insideOf?_of_spelledBelow h hne]
  exact ⟨rfl, rfl⟩

/-- **Any other path** is shown as it is written, and its result goes by the bare name. -/
theorem shownFrom_of_not_spelledBelow {n : Text}
    (h : ∀ names, names ≠ [] → ¬ SpelledBelow cwd root p names) (hname : p.fileName? = some n) :
    shownFrom cwd root p = p ∧ belowRoot cwd root p = ofNames [n] := by
  rw [shownFrom, belowRoot, insideOf?_of_not_spelledBelow h, hname]
  exact ⟨rfl, rfl⟩

/-- **A path that ends in a name has a place below every directory**: a path down. -/
theorem exists_belowRoot (cwd : Option Path) (root : Path) {n : Text}
    (hname : p.fileName? = some n) (hn : IsName n) :
    ∃ names, names ≠ [] ∧ (∀ m ∈ names, IsName m) ∧ belowRoot cwd root p = ofNames names := by
  by_cases h : ∃ names, names ≠ [] ∧ SpelledBelow cwd root p names
  · obtain ⟨names, hne, hspelled⟩ := h
    exact ⟨names, hne, hspelled.isName, (shownFrom_of_spelledBelow hspelled hne).2⟩
  · have hnot : ∀ names, names ≠ [] → ¬ SpelledBelow cwd root p names :=
      fun names hne hspelled => h ⟨names, hne, hspelled⟩
    refine ⟨[n], List.cons_ne_nil n [], ?_, (shownFrom_of_not_spelledBelow hnot hname).2⟩
    intro m hm
    exact List.mem_singleton.mp hm ▸ hn

end Path

end LocaleWrap
