import LocaleWrap.Proofs.Path.Containment
import LocaleWrap.Proofs.Tree.Growth

/-! # Where spelled paths lie

A path that is spelled below a root leads to a place below the place that the root leads to. The
converse fails, as steps up are never resolved; but it holds where there are none.

* `Disk.components_of_anchored?` — the components of a path's absolute form.
* `Disk.way_eq_of_spelledBelow` — the names that a path is spelled by are the way from the root's
  location to its own.
* `Disk.spelledBelow_of_no_parent` — without steps up, a path to a place below the root is spelled
  below it.
* `Disk.spelledBelow_mono` — spellings stay the same as a disk grows. -/

namespace LocaleWrap

namespace Disk

open LocaleWrap.Path Text

variable {d e : Disk} {root p full : Path} {l r way names : Location}

/-! ## Absolute forms -/

/-- **A working directory that is there** stands at a location made of names. -/
theorem isEntryName_of_mem_cwd {c : Path} {n : Text} (h : d.cwdPath? = some c) (hn : n ∈ d.cwd) :
    IsEntryName n := by
  rw [cwdPath?] at h
  split_ifs at h with hdir
  rw [Tree.isDirectory, beq_iff_eq] at hdir
  exact Tree.isEntryName_of_mem (by rw [hdir]; rfl) hn

/-- The components of the working directory are the names in its location. -/
theorem components_cwdPath? {c : Path} (h : d.cwdPath? = some c) :
    c.components = .root :: d.cwd.map .normal := by
  have hcwd : ∀ n ∈ d.cwd, IsName n := fun n hn => (isEntryName_of_mem_cwd h hn).1
  rw [cwdPath?] at h
  split_ifs at h
  obtain rfl := Option.some.inj h
  have hnames : componentsOf (pieces '/' (joinWith ['/'] d.cwd)) = d.cwd.map .normal := by
    by_cases hnil : d.cwd = []
    · rw [hnil]
      rfl
    · rw [pieces_joinWith (fun n hn => (hcwd n hn).1) hnil, componentsOf_names hcwd]
  exact congrArg (Component.root :: ·) hnames

/-- **The components of an absolute form**: the root, the names of the place where the path begins,
and then what the path says. -/
theorem components_of_anchored? (h : p.anchored? d.cwdPath? = some full) :
    full.components =
      .root :: ((d.origin p).map .normal ++ componentsOf (pieces '/' p.text)) := by
  rw [anchored?] at h
  by_cases habsolute : p.isAbsolute = true
  · rw [if_pos habsolute] at h
    obtain rfl := Option.some.inj h
    rw [origin, if_pos habsolute, components_of_isAbsolute habsolute]
    rfl
  · rw [if_neg habsolute] at h
    obtain ⟨c, hc, rfl⟩ := Option.map_eq_some_iff.mp h
    have hcomponents := components_cwdPath? hc
    have htext : c.text ≠ [] := by
      intro hempty
      have hc' : c = ⟨[]⟩ := by rw [← hempty]
      rw [hc', components_empty] at hcomponents
      cases hcomponents
    rw [components_join htext (by simpa using habsolute), hcomponents, origin, if_neg habsolute]
    rfl

/-- **The absolute form of a path that leads anywhere** stands for the location it leads to. -/
theorem resolve_anchored? (h : p.anchored? d.cwdPath? = some full) (hl : d.locate p = .ok l)
    (cwd : Location) : full.resolve cwd = l := by
  rw [locate, bind_eq_ok_iff] at hl
  obtain ⟨-, -, hwalk⟩ := hl
  rw [resolve, components_of_anchored? h, List.foldl_cons, List.foldl_append,
    foldl_follow_names, walk_eq_foldl hwalk]
  rfl

/-- A path that leads anywhere has an absolute form. -/
theorem exists_anchored?_of_locate (hl : d.locate p = .ok l) :
    ∃ full, p.anchored? d.cwdPath? = some full := by
  rw [anchored?]
  by_cases habsolute : p.isAbsolute = true
  · exact ⟨p, if_pos habsolute⟩
  · rw [locate, bind_eq_ok_iff, origin, if_neg habsolute] at hl
    obtain ⟨-, -, hwalk⟩ := hl
    obtain ⟨piece, rest, hpieces⟩ := List.exists_cons_of_ne_nil (pieces_ne_nil '/' p.text)
    rw [hpieces, walk, bind_eq_ok_iff] at hwalk
    obtain ⟨m, hstep, -⟩ := hwalk
    have hdir : d.tree.isDirectory d.cwd = true := by
      simp [Tree.isDirectory, (step_eq_ok_iff.mp hstep).1]
    rw [if_neg habsolute, cwdPath?, if_pos hdir]
    exact ⟨_, rfl⟩

/-! ## Ways down from the root -/

/-- **The names that a path is spelled by** are the way down from where the root leads. -/
theorem way_eq_of_spelledBelow (h : SpelledBelow d.cwdPath? root p names)
    (hroot : d.locate root = .ok r) (hl : d.locate p = .ok l) : l = r ++ names := by
  obtain ⟨base, full, hbase, hfull, hcomponents⟩ := h
  rw [← resolve_anchored? hfull hl [], ← resolve_anchored? hbase hroot [],
    resolve_of_components hcomponents]

/-- An absolute form without steps up spells out the location. -/
theorem components_of_no_parent (hdown : .parent ∉ p.components)
    (h : p.anchored? d.cwdPath? = some full) (hl : d.locate p = .ok l) :
    full.components = .root :: l.map .normal := by
  obtain ⟨names, hnames⟩ := exists_names_of_no_parent hdown
  have hcomponents := components_of_anchored? h
  rw [hnames, ← List.map_append] at hcomponents
  have hresolve := resolve_anchored? h hl []
  rw [resolve, hcomponents, List.foldl_cons, foldl_follow_names, Component.follow,
    List.nil_append] at hresolve
  rw [hcomponents, hresolve]

/-- **Without steps up, a path to a file below the root is spelled below it.** -/
theorem spelledBelow_of_no_parent (hroot : d.locate root = .ok r)
    (hp : d.locate p = .ok (r ++ way)) (hrootDown : .parent ∉ root.components)
    (hpDown : .parent ∉ p.components) :
    SpelledBelow d.cwdPath? root p way := by
  obtain ⟨base, hbase⟩ := exists_anchored?_of_locate hroot
  obtain ⟨full, hfull⟩ := exists_anchored?_of_locate hp
  refine ⟨base, full, hbase, hfull, ?_⟩
  rw [components_of_no_parent hrootDown hbase hroot,
    components_of_no_parent hpDown hfull hp, List.map_append]
  rfl

/-- Absolute forms stay the same as a disk grows. -/
theorem anchored?_mono (hgrows : d.tree.Grows e.tree) (hcwd : e.cwd = d.cwd)
    (h : p.anchored? d.cwdPath? = some full) : p.anchored? e.cwdPath? = some full := by
  rw [anchored?] at h ⊢
  by_cases habsolute : p.isAbsolute = true
  · rw [if_pos habsolute] at h ⊢
    exact h
  · rw [if_neg habsolute] at h ⊢
    obtain ⟨c, hc, rfl⟩ := Option.map_eq_some_iff.mp h
    rw [cwdPath?] at hc
    split_ifs at hc with hdir
    obtain rfl := Option.some.inj hc
    have hdir' : e.tree.isDirectory e.cwd = true := by
      have hentry : d.tree.get? d.cwd = some .directory := by simpa [Tree.isDirectory] using hdir
      simp [Tree.isDirectory, hcwd, hgrows.directory hentry]
    rw [cwdPath?, if_pos hdir', hcwd]
    rfl

/-- A path spelled below a root is so on a disk that has grown. -/
theorem spelledBelow_mono (hgrows : d.tree.Grows e.tree) (hcwd : e.cwd = d.cwd)
    (h : SpelledBelow d.cwdPath? root p names) : SpelledBelow e.cwdPath? root p names := by
  obtain ⟨base, full, hbase, hfull, hcomponents⟩ := h
  exact ⟨base, full, anchored?_mono hgrows hcwd hbase, anchored?_mono hgrows hcwd hfull,
    hcomponents⟩

end Disk

end LocaleWrap
