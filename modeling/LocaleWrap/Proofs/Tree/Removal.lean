import LocaleWrap.Proofs.Tree.Following

/-! # What a removal leaves

Removing an entry takes it from its place, with everything below it. Nothing lies below a file, so
where a file is removed all other entries stay, and paths to them lead where they have led.

* `Tree.erase_grows`, `Tree.get?_erase_file` — what a tree holds after a removal.
* `Disk.locate_of_remove` — a removal lets no path lead where it has not led;
  `Disk.not_contains_of_remove` — the path to what was removed leads nowhere.
* `Disk.entry_of_remove_file` — what paths to other entries lead to after the removal of a file. -/

namespace LocaleWrap

namespace Tree

variable {t : Tree} {l m : Location} {c : Contents}

/-- **What is left after a removal** stood there before. -/
theorem erase_grows (t : Tree) (l : Location) : (t.erase l).Grows t := by
  intro m kind hkind
  by_cases hl : l = []
  · -- With the root everything else is removed.
    by_cases hm : m = []
    · subst hm
      exact hkind
    · have hnone : (t.erase l).get? m = none := by
        rw [get?_of_ne_root hm, hl]
        simp [Tree.erase, entriesApart]
      rw [hnone] at hkind
      cases hkind
  · rw [get?_erase t hl] at hkind
    by_cases hunder : l.isPrefixOf m
    · rw [if_pos hunder] at hkind
      cases hkind
    · rwa [if_neg hunder] at hkind

/-- **Nothing lies below a file.** -/
theorem get?_below_file (hfile : t.get? l = some (.file c)) {s : Location} (hs : s ≠ []) :
    t.get? (l ++ s) = none := by
  -- What lies deepest stands in a directory, which would be the file or lie below it as well.
  induction s using List.reverseRecOn with
  | nil => exact absurd rfl hs
  | append_singleton s name ih =>
      by_contra hsome
      have hdir := get?_dropLast (Option.isSome_iff_ne_none.mpr hsome)
      rw [← List.append_assoc, List.dropLast_concat] at hdir
      by_cases hnil : s = []
      · rw [hnil, List.append_nil, hfile] at hdir
        cases hdir
      · rw [ih hnil] at hdir
        cases hdir

/-- **After the removal of a file** nothing but this file is missing. -/
theorem get?_erase_file (hfile : t.get? l = some (.file c)) (m : Location) :
    (t.erase l).get? m = if m = l then none else t.get? m := by
  rw [get?_erase t (ne_root_of_file hfile)]
  by_cases hm : m = l
  · rw [if_pos hm, hm, if_pos (by simp)]
  · rw [if_neg hm]
    by_cases hunder : l.isPrefixOf m
    · obtain ⟨s, rfl⟩ := List.isPrefixOf_iff_prefix.mp hunder
      have hs : s ≠ [] := by
        rintro rfl
        exact hm (List.append_nil l)
      rw [if_pos hunder, get?_below_file hfile hs]
    · rw [if_neg hunder]

end Tree

namespace Disk

variable {t : Tree} {d e : Disk} {p q : Path} {l m n : Location} {c : Contents}

/-- **Removing an entry** takes it from the place that its path leads to. -/
theorem exists_of_remove (h : d.remove p = .ok e) :
    ∃ l, d.locate p = .ok l ∧ e.tree = d.tree.erase l ∧ e.cwd = d.cwd := by
  unfold remove at h
  cases hl : d.locate p with
  | error fault =>
      rw [hl] at h
      cases h
  | ok l =>
      rw [hl] at h
      obtain rfl := Except.ok.inj h
      exact ⟨l, rfl, rfl, rfl⟩

/-- What a path leads to can be removed. -/
theorem exists_remove (h : d.contains p = true) : ∃ e, d.remove p = .ok e := by
  obtain ⟨l, hl, -⟩ := contains_iff.mp h
  exact ⟨{ d with tree := d.tree.erase l }, by rw [remove, hl]; rfl⟩

/-- **A removal lets no path lead** where it has not led. -/
theorem locate_of_remove (h : d.remove p = .ok e) (hq : e.locate q = .ok m) :
    d.locate q = .ok m := by
  obtain ⟨l, -, htree, hcwd⟩ := exists_of_remove h
  exact locate_mono (htree ▸ d.tree.erase_grows l) hcwd.symm hq

/-- What is there after a removal was there before. -/
theorem contains_of_remove (h : d.remove p = .ok e) (hq : e.contains q = true) :
    d.contains q = true := by
  obtain ⟨l, -, htree, -⟩ := exists_of_remove h
  obtain ⟨m, hm, hsome⟩ := contains_iff.mp hq
  have hgrows : e.tree.Grows d.tree := htree ▸ d.tree.erase_grows l
  exact contains_iff.mpr ⟨m, locate_of_remove h hm, hgrows.isSome hsome⟩

/-- **A path to what was removed** leads nowhere, unless it led to the root. -/
theorem not_contains_of_remove (h : d.remove p = .ok e) (hroot : d.locate p ≠ .ok []) :
    e.contains p = false := by
  obtain ⟨l, hl, htree, -⟩ := exists_of_remove h
  have hne : l ≠ [] := by
    rintro rfl
    exact hroot hl
  rw [Bool.eq_false_iff]
  intro hcontains
  obtain ⟨m, hm, hsome⟩ := contains_iff.mp hcontains
  -- Where the path leads now it led before, and there is nothing any more.
  obtain rfl : l = m := Except.ok.inj (hl.symm.trans (locate_of_remove h hm))
  rw [htree, Tree.get?_erase _ hne, if_pos (by simp)] at hsome
  cases hsome

/-! ## Removing a file -/

/-- Steps to another place than that of the file are the same without it. -/
theorem walk_erase_file (hfile : t.get? l = some (.file c)) {ps : List Text}
    (hwalk : walk t m ps = .ok n) (hn : n ≠ l) : walk (t.erase l) m ps = .ok n := by
  have hpassed : ∀ k, t.get? k = some .directory → k ≠ l := by
    rintro k hk rfl
    rw [hfile] at hk
    cases hk
  induction ps generalizing m with
  | nil => exact hwalk
  | cons p ps ih =>
      rw [walk, bind_eq_ok_iff] at hwalk ⊢
      obtain ⟨k, hstep, hrest⟩ := hwalk
      -- Where another step starts from there is no file.
      have hk : k ≠ l := by
        by_cases hps : ps = []
        · rw [hps] at hrest
          obtain rfl := Except.ok.inj hrest
          exact hn
        · exact hpassed k (directory_of_walk hps hrest)
      have hm : m ≠ l := hpassed m (step_eq_ok_iff.mp hstep).1
      refine ⟨k, ?_, ih hrest⟩
      rw [step_eq_ok_iff] at hstep ⊢
      rwa [Tree.get?_erase_file hfile, Tree.get?_erase_file hfile, if_neg hm, if_neg hk]

/-- **After the removal of a file** all paths to other entries lead where they have led, and these
entries are what they were. -/
theorem entry_of_remove_file (hl : d.locate p = .ok l)
    (hfile : d.tree.get? l = some (.file c)) (h : d.remove p = .ok e)
    (hq : d.locate q ≠ .ok l) (entry : Entry) : e.entry q = .ok entry ↔ d.entry q = .ok entry := by
  obtain ⟨l', hl', htree, hcwd⟩ := exists_of_remove h
  obtain rfl : l = l' := Except.ok.inj (hl.symm.trans hl')
  rw [entry_eq_ok_iff, entry_eq_ok_iff]
  constructor
  · rintro ⟨m, hm, hentry⟩
    have hm' := locate_of_remove h hm
    have hne : m ≠ l := fun heq => hq (heq ▸ hm')
    rw [htree, Tree.get?_erase_file hfile, if_neg hne] at hentry
    exact ⟨m, hm', hentry⟩
  · rintro ⟨m, hm, hentry⟩
    have hne : m ≠ l := fun heq => hq (heq ▸ hm)
    refine ⟨m, ?_, by rw [htree, Tree.get?_erase_file hfile, if_neg hne, hentry]⟩
    obtain ⟨hpermit, hfollow⟩ := locate_eq_ok_iff.mp hm
    refine locate_eq_ok_iff.mpr ⟨hpermit, ?_⟩
    rw [follow, origin_congr hcwd, htree]
    exact walk_erase_file hfile hfollow hne

end Disk

end LocaleWrap
