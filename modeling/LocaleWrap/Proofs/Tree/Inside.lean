import LocaleWrap.Proofs.Tree.Following
import LocaleWrap.Proofs.Tree.Spelling

/-! # What is found inside a root

A path is found inside a root by comparing components, and nothing is followed for this. The way
that is found is exact all the same: taken from the root it is the path, component by component. And
paths with the same components lead to the same place.

* **`Path.GoesOn`** — a path that goes on where the root ends, by names only.
* **`Disk.EndsWell`** — pieces that need not lead to a directory.
* `Disk.follow_of_components`, `Disk.locate_of_components` — paths whose absolute forms have the
  same components lead to the same place.
* `Path.insideOf?_exact` — when a way is found, and what it is. -/

namespace LocaleWrap

namespace Path

open Text

variable {cwd : Option Path} {root p q full base : Path} {way : List Component} {ps : List Text}

/-! ## The texts of components -/

/-- A piece is the text of its component. -/
theorem text_componentOf (piece : Text) : (componentOf piece).text = piece := by
  unfold componentOf
  split
  · next h => exact h.symm
  · rfl

/-- **The pieces that count** are the texts of the components. -/
theorem map_text_componentsOf (ps : List Text) :
    (componentsOf ps).map Component.text = ps.filter fun p => !isIdle p := by
  have hself : Component.text ∘ componentOf = id := funext text_componentOf
  rw [componentsOf, List.map_map, hself, List.map_id]

/-- **A zero character in a path** stands in one of the components: no idle piece has it. -/
theorem nul_mem_iff :
    '\x00' ∈ p.text ↔ ∃ c ∈ componentsOf (pieces '/' p.text), '\x00' ∈ c.text := by
  have hslash : '\x00' ≠ '/' := by decide
  rw [mem_iff_exists_mem_pieces hslash]
  constructor
  · rintro ⟨piece, hpiece, hmem⟩
    refine ⟨componentOf piece, ?_, by rwa [text_componentOf]⟩
    refine List.mem_map_of_mem (List.mem_filter.mpr ⟨hpiece, ?_⟩)
    -- The piece is neither empty nor a dot, as the character would have to be in it.
    rw [Bool.not_eq_true', isIdle, Bool.or_eq_false_iff, beq_eq_false_iff_ne, beq_eq_false_iff_ne]
    constructor
    · rintro rfl
      cases hmem
    · rintro rfl
      exact absurd hmem (by decide)
  · rintro ⟨c, hc, hmem⟩
    obtain ⟨piece, hpiece, rfl⟩ := List.mem_map.mp hc
    rw [text_componentOf] at hmem
    exact ⟨piece, (List.mem_filter.mp hpiece).1, hmem⟩

/-! ## Going on where the root ends -/

/-- **A path that goes on where the root ends**: in absolute form its components are those of the
root and then some names, at least one. -/
structure GoesOn (cwd : Option Path) (root p : Path) (way : List Component) : Prop where
  proper : way ≠ []
  normal : way.all Component.isNormal = true
  components : ∃ base full, root.anchored? cwd = some base ∧ p.anchored? cwd = some full ∧
    full.components = base.components ++ way

/-- A path goes on where the root ends exactly when it is spelled below the root, along at least one
name. -/
theorem goesOn_iff :
    GoesOn cwd root p way ↔
      ∃ names, names ≠ [] ∧ SpelledBelow cwd root p names ∧ way = names.map .normal := by
  constructor
  · rintro ⟨hproper, hnormal, base, full, hbase, hfull, hcomponents⟩
    obtain ⟨names, rfl⟩ := exists_names_of_all_isNormal hnormal
    exact ⟨names, fun h => hproper (by rw [h]; rfl), ⟨base, full, hbase, hfull, hcomponents⟩, rfl⟩
  · rintro ⟨names, hne, ⟨base, full, hbase, hfull, hcomponents⟩, rfl⟩
    refine ⟨by simpa using hne, ?_, base, full, hbase, hfull, hcomponents⟩
    simp [List.all_map, Component.isNormal]

/-- **The absolute form of a path taken from a root** is taken from that of the root. -/
theorem anchored?_join (hq : q.isAbsolute = false) (h : root.anchored? cwd = some base) :
    (root.join q).anchored? cwd = some (base.join q) := by
  rw [anchored?] at h ⊢
  rw [isAbsolute_join_of_relative hq]
  by_cases habsolute : root.isAbsolute = true
  · rw [if_pos habsolute] at h ⊢
    obtain rfl := Option.some.inj h
    rfl
  · rw [if_neg habsolute] at h ⊢
    obtain ⟨c, rfl, rfl⟩ := Option.map_eq_some_iff.mp h
    rw [Option.map_some, join_assoc c hq]

/-- **Taken from the root, the way to a path** has the components of the path, in absolute form. -/
theorem SpelledBelow.join {names : List Text} (h : SpelledBelow cwd root p names)
    (hne : names ≠ []) :
    ∃ full full', p.anchored? cwd = some full ∧
      (root.join (ofNames names)).anchored? cwd = some full' ∧
      full'.components = full.components := by
  have hnames := h.isName
  obtain ⟨base, full, hbase, hfull, hcomponents⟩ := h
  refine ⟨full, base.join (ofNames names), hfull, ?_, ?_⟩
  · exact anchored?_join (isAbsolute_ofNames hnames) hbase
  · rw [components_join_ofNames base hnames hne, hcomponents]

/-- A path down is not empty, from wherever it is taken. -/
theorem join_ofNames_ne_nil {names : List Text} (root : Path) (hnames : ∀ n ∈ names, IsName n)
    (hne : names ≠ []) : (root.join (ofNames names)).text ≠ [] := by
  rw [join_eq_front (isAbsolute_ofNames hnames)]
  intro hempty
  have hpieces := pieces_ofNames hnames hne
  rw [(List.append_eq_nil_iff.mp hempty).2, pieces_nil] at hpieces
  exact (hnames [] (hpieces ▸ List.mem_singleton_self [])).ne_nil rfl

/-- The pieces of a path taken from another end with its own. -/
theorem exists_pieces_join (root : Path) (hq : q.isAbsolute = false) :
    ∃ init, pieces '/' (root.join q).text = init ++ pieces '/' q.text := by
  rw [join_eq_front hq]
  rcases root.front_closed with hempty | hslash
  · exact ⟨[], by rw [hempty]; rfl⟩
  · obtain ⟨s, hs⟩ := List.getLast?_eq_some_iff.mp hslash
    refine ⟨pieces '/' s, ?_⟩
    rw [hs, List.append_assoc, List.singleton_append, pieces_append]

end Path

namespace Disk

open LocaleWrap.Path Text

variable {t : Tree} {d : Disk} {p q full full' : Path} {l m : Location} {ps : List Text}

/-! ## Following components -/

/-- **Idle pieces** can be left out. -/
theorem walk_components (h : walk t l ps = .ok m) :
    walk t l ((componentsOf ps).map Component.text) = .ok m := by
  rw [map_text_componentsOf]
  induction ps generalizing l with
  | nil => exact h
  | cons piece ps ih =>
      rw [walk, bind_eq_ok_iff] at h
      obtain ⟨n, hstep, hrest⟩ := h
      by_cases hidle : isIdle piece = true
      · -- Such a step stays where it is.
        rw [List.filter_cons_of_neg (by simp [hidle])]
        obtain ⟨-, ⟨-, rfl⟩ | ⟨hnot, -⟩ | ⟨hnot, -⟩⟩ := step_eq_ok_iff.mp hstep
        · exact ih hrest
        · cases hidle.symm.trans hnot
        · cases hidle.symm.trans hnot
      · rw [List.filter_cons_of_pos (by simp [hidle]), walk, bind_eq_ok_iff]
        exact ⟨n, hstep, ih hrest⟩

/-- A walk to a directory begins in one. -/
theorem directory_of_walk_directory (h : walk t l ps = .ok m) (hm : t.get? m = some .directory) :
    t.get? l = some .directory := by
  by_cases hps : ps = []
  · rw [hps] at h
    exact Except.ok.inj h ▸ hm
  · exact directory_of_walk hps h

/-- **Idle pieces on the way to a directory** make no difference. -/
theorem walk_directory_of_components (hm : t.get? m = some .directory)
    (h : walk t l ((componentsOf ps).map Component.text) = .ok m) : walk t l ps = .ok m := by
  rw [map_text_componentsOf] at h
  induction ps generalizing l with
  | nil => exact h
  | cons piece ps ih =>
      rw [walk, bind_eq_ok_iff]
      by_cases hidle : isIdle piece = true
      · -- Such a step needs a directory to stay in.
        rw [List.filter_cons_of_neg (by simp [hidle])] at h
        have hl := directory_of_walk_directory h hm
        exact ⟨l, step_eq_ok_iff.mpr ⟨hl, Or.inl ⟨hidle, rfl⟩⟩, ih h⟩
      · rw [List.filter_cons_of_pos (by simp [hidle]), walk, bind_eq_ok_iff] at h
        obtain ⟨n, hstep, hrest⟩ := h
        exact ⟨n, hstep, ih hrest⟩

/-- **Pieces that can end anywhere**: the last one is a step, or they lead to a directory. An idle
piece behind a file leads nowhere. -/
def EndsWell (t : Tree) (ps : List Text) (m : Location) : Prop :=
  t.get? m = some .directory ∨ ∃ init piece, ps = init ++ [piece] ∧ isIdle piece = false

/-- Where the components lead, the pieces lead, if they can end there. -/
theorem walk_of_components (hend : EndsWell t ps m)
    (h : walk t l ((componentsOf ps).map Component.text) = .ok m) : walk t l ps = .ok m := by
  rcases hend with hm | ⟨init, piece, rfl, hidle⟩
  · exact walk_directory_of_components hm h
  · -- The last step starts from a directory.
    have hlast : (componentsOf [piece]).map Component.text = [piece] := by
      rw [map_text_componentsOf, List.filter_cons_of_pos (by simp [hidle]), List.filter_nil]
    rw [componentsOf_append, List.map_append, hlast, walk_concat, bind_eq_ok_iff] at h
    obtain ⟨n, hinit, hstep⟩ := h
    have hn := (step_eq_ok_iff.mp hstep).1
    rw [walk_concat, walk_directory_of_components hn hinit]
    exact hstep

/-! ## Where absolute forms lead -/

/-- **A directory is reached from the root** by the names in its location. -/
theorem walk_location (hl : t.get? l = some .directory) : walk t [] l = .ok l := by
  -- Each directory on the way stands in the one before it.
  induction l using List.reverseRecOn with
  | nil => rfl
  | append_singleton l n ih =>
      have hparent : t.get? l = some .directory := by
        have hdrop := Tree.get?_dropLast (Option.isSome_of_eq_some hl)
        rwa [List.dropLast_concat] at hdrop
      obtain ⟨hname, -, hshort⟩ :=
        Tree.isEntryName_of_mem (n := n) (Option.isSome_of_eq_some hl) (by simp)
      rw [walk_concat, ih hparent]
      exact (step_name_eq_ok_iff hname).mpr ⟨hparent, hshort, rfl, by rw [hl]; rfl⟩

/-- The place where a path begins is at a location made of names. -/
theorem isEntryName_of_mem_origin {n : Text} (h : p.anchored? d.cwdPath? = some full)
    (hn : n ∈ d.origin p) : IsEntryName n := by
  rw [anchored?] at h
  unfold origin at hn
  split_ifs at h hn
  · cases hn
  · obtain ⟨c, hc, -⟩ := Option.map_eq_some_iff.mp h
    exact isEntryName_of_mem_cwd hc hn

/-- The place where a path begins is reached from the root. -/
theorem walk_origin (h : p.anchored? d.cwdPath? = some full) :
    walk d.tree [] (d.origin p) = .ok (d.origin p) := by
  rw [anchored?] at h
  unfold origin
  by_cases habsolute : p.isAbsolute = true
  · rw [if_pos habsolute]
    rfl
  · rw [if_neg habsolute] at h ⊢
    obtain ⟨c, hc, -⟩ := Option.map_eq_some_iff.mp h
    rw [cwdPath?] at hc
    split_ifs at hc with hdir
    exact walk_location (by simpa [Tree.isDirectory] using hdir)

variable (hp : p.anchored? d.cwdPath? = some full) (hq : q.anchored? d.cwdPath? = some full')
  (hsame : full'.components = full.components)

include hp hq hsame in
/-- **Absolute forms with the same components** take the same steps from the root. -/
theorem steps_eq_of_components :
    d.origin q ++ (componentsOf (pieces '/' q.text)).map Component.text =
      d.origin p ++ (componentsOf (pieces '/' p.text)).map Component.text := by
  rw [components_of_anchored? hp, components_of_anchored? hq] at hsame
  have htext : Component.text ∘ Component.normal = id := rfl
  have hsteps := congrArg (List.map Component.text) (List.cons.inj hsame).2
  simpa only [List.map_append, List.map_map, htext, List.map_id] using hsteps

include hp hq hsame in
/-- **Paths with the same components lead to the same place**, once they are in absolute form. -/
theorem follow_of_components (hend : EndsWell d.tree (pieces '/' q.text) l)
    (hl : d.follow p = .ok l) : d.follow q = .ok l := by
  have hwalk : walk d.tree [] (d.origin p ++ (componentsOf (pieces '/' p.text)).map Component.text)
      = .ok l := by
    rw [walk_append, walk_origin hp]
    exact walk_components hl
  -- From the root the steps are the same; where the second path begins, the rest is its own.
  rw [← steps_eq_of_components hp hq hsame, walk_append, walk_origin hq] at hwalk
  exact walk_of_components hend hwalk

include hp hq hsame in
/-- A path leads to where another leads that has the same components, if it can end there. -/
theorem locate_of_components (hend : EndsWell d.tree (pieces '/' q.text) l) (hne : q.text ≠ [])
    (hroom : q.text.byteLength < pathLimit) (hl : d.locate p = .ok l) : d.locate q = .ok l := by
  obtain ⟨hpermit, hfollow⟩ := locate_eq_ok_iff.mp hl
  have hnul := (permit_eq_ok_iff.mp hpermit).1
  refine locate_eq_ok_iff.mpr ⟨permit_eq_ok_iff.mpr ⟨fun hmem => ?_, hne, hroom⟩, ?_⟩
  · obtain ⟨c, hc, hmem⟩ := nul_mem_iff.mp hmem
    have hstep : c.text ∈ d.origin p ++ (componentsOf (pieces '/' p.text)).map Component.text := by
      rw [← steps_eq_of_components hp hq hsame]
      exact List.mem_append_right _ (List.mem_map_of_mem hc)
    rcases List.mem_append.mp hstep with horigin | hbody
    · exact (isEntryName_of_mem_origin hp horigin).2.1 hmem
    · obtain ⟨c', hc', htext⟩ := List.mem_map.mp hbody
      exact hnul (nul_mem_iff.mpr ⟨c', hc', htext ▸ hmem⟩)
  · exact follow_of_components hp hq hsame hend hfollow

/-- A path down ends with a step. -/
theorem endsWell_join_ofNames {names : List Text} (t : Tree) (root : Path) (m : Location)
    (hnames : ∀ n ∈ names, IsName n) (hne : names ≠ []) :
    EndsWell t (pieces '/' (root.join (ofNames names)).text) m := by
  obtain ⟨init, hinit⟩ := exists_pieces_join root (isAbsolute_ofNames hnames)
  obtain ⟨front, name, hsplit⟩ := (List.eq_nil_or_concat names).resolve_left hne
  rw [List.concat_eq_append] at hsplit
  subst hsplit
  refine Or.inr ⟨init ++ front, name, ?_, (hnames name (by simp)).2.1⟩
  rw [hinit, pieces_ofNames hnames hne, List.append_assoc]

end Disk

namespace Path

open LocaleWrap.Disk

/-- **What is found inside a root** is found exactly. A way is found just when the path goes on
where the root ends, by names only, and then it is what comes behind the root; otherwise the path is
shown as it is. Taken from the root, a way that is found is the same path in absolute form, and
leads to where the path leads. -/
theorem insideOf?_exact (cwd : Option Path) (root p : Path) :
    (∀ rel : Path, (∃ q, insideOf? cwd root p = some q ∧ q.components = rel.components) ↔
      GoesOn cwd root p rel.components) ∧
    (insideOf? cwd root p = none ↔ ∀ way, ¬ GoesOn cwd root p way) ∧
    (insideOf? cwd root p = none → shownFrom cwd root p = p) ∧
    ∀ q, insideOf? cwd root p = some q →
      shownFrom cwd root p = q ∧
      (∃ full full', p.anchored? cwd = some full ∧ (root.join q).anchored? cwd = some full' ∧
        full'.components = full.components) ∧
      ∀ d : Disk, d.cwdPath? = cwd → ∀ l,
        (d.follow p = .ok l → d.follow (root.join q) = .ok l) ∧
        ((root.join q).text.byteLength < pathLimit →
          d.locate p = .ok l → d.locate (root.join q) = .ok l) := by
  refine ⟨fun rel => ?_, ?_, fun hnone => ?_, fun q hq => ?_⟩
  · rw [goesOn_iff]
    constructor
    · rintro ⟨q, hq, hrel⟩
      obtain ⟨names, hne, hspelled, rfl⟩ := insideOf?_eq_some_iff.mp hq
      exact ⟨names, hne, hspelled, hrel.symm.trans (components_ofNames hspelled.isName)⟩
    · rintro ⟨names, hne, hspelled, hrel⟩
      refine ⟨ofNames names, insideOf?_of_spelledBelow hspelled hne, ?_⟩
      rw [components_ofNames hspelled.isName, hrel]
  · constructor
    · intro hnone way hway
      obtain ⟨names, hne, hspelled, -⟩ := goesOn_iff.mp hway
      cases hnone.symm.trans (insideOf?_of_spelledBelow hspelled hne)
    · intro hnone
      apply insideOf?_of_not_spelledBelow
      intro names hne hspelled
      exact hnone _ (goesOn_iff.mpr ⟨names, hne, hspelled, rfl⟩)
  · rw [shownFrom, hnone]
    rfl
  · obtain ⟨names, hne, hspelled, rfl⟩ := insideOf?_eq_some_iff.mp hq
    obtain ⟨full, full', hfull, hfull', hsame⟩ := hspelled.join hne
    refine ⟨(shownFrom_of_spelledBelow hspelled hne).1, ⟨full, full', hfull, hfull', hsame⟩, ?_⟩
    rintro d rfl l
    have hend := endsWell_join_ofNames d.tree root l hspelled.isName hne
    refine ⟨follow_of_components hfull hfull' hsame hend, fun hroom hl => ?_⟩
    have hfilled := join_ofNames_ne_nil root hspelled.isName hne
    exact locate_of_components hfull hfull' hsame hend hfilled hroom hl

/-- A directory with a source file two levels below, seen from the directory above. -/
def homeDisk : Disk :=
  ⟨{ entries := [
      (["home".toList], .directory), (["home".toList, "web".toList], .directory),
      (["home".toList, "web".toList, "src".toList], .directory),
      (["home".toList, "web".toList, "src".toList, "a.ts".toList],
        .file (.text "  name: 'A',\n".toList))] }, ["home".toList]⟩

/-- A relative root and an absolute path that share a step up. -/
theorem insideOf?_exact_shared_step :
    let root := Path.ofString "../home/web"
    let p := Path.ofString "/home/..//home/web/./src/a.ts"
    let l := ["home".toList, "web".toList, "src".toList, "a.ts".toList]
    GoesOn homeDisk.cwdPath? root p [.normal "src".toList, .normal "a.ts".toList] ∧
    homeDisk.locate p = .ok l ∧
    ∃ q, insideOf? homeDisk.cwdPath? root p = some q ∧ homeDisk.locate (root.join q) = .ok l := by
  intro root p l
  have hinside : insideOf? homeDisk.cwdPath? root p = some (.ofString "src/a.ts") := by
    decide +kernel
  have hlocate : homeDisk.locate p = .ok l := by decide +kernel
  have hroom : (root.join (.ofString "src/a.ts")).text.byteLength < pathLimit := by decide +kernel
  obtain ⟨hgoes, -, -, hfound⟩ := insideOf?_exact homeDisk.cwdPath? root p
  obtain ⟨-, -, hplace⟩ := hfound _ hinside
  refine ⟨?_, hlocate, _, hinside, ?_⟩
  · exact (hgoes (.ofString "src/a.ts")).mp ⟨_, hinside, rfl⟩
  · exact (hplace homeDisk rfl l).2 hroom hlocate

end Path

end LocaleWrap
