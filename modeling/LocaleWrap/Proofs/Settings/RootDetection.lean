import LocaleWrap.Proofs.Tree.Following
import LocaleWrap.Settings.Discovery

/-! # Where the search for the root ends

The search goes up along the path as it is written. From an absolute path it comes by all
directories above. From a relative one it comes no further than to where relative paths begin, and a
marked directory above that is missed.

* **`Discovery.Marked`**, **`Discovery.Nearest`** — the directories that the search is for.
* `Discovery.isRoot_eq` — a path is taken for a root when its directory is marked.
* `Discovery.root_spec` — which directory the search finds.
* `Discovery.root_nearest` — when this is the nearest of all marked directories;
  `Discovery.root_misses_mark` — when it is not. -/

namespace LocaleWrap

namespace Discovery

open LocaleWrap.Path LocaleWrap.Disk

variable {d : Disk} {p q start : Path} {l m n : Location}

/-! ## Marked directories -/

/-- **Whether a directory has an entry that makes it a root.** -/
def Marked (t : Tree) (l : Location) : Prop := ∃ name ∈ marks, (t.get? (l ++ [name])).isSome

instance (t : Tree) (l : Location) : Decidable (Marked t l) :=
  inferInstanceAs (Decidable (∃ name ∈ marks, _))

/-- **The nearest marked directory** among a directory and those above it. -/
structure Nearest (t : Tree) (l m : Location) : Prop where
  above : m <+: l
  marked : Marked t m
  nearest : ∀ n, n <+: l → Marked t n → n <+: m

/-- There is only one nearest marked directory. -/
theorem Nearest.unique {t : Tree} (h : Nearest t l m) (h' : Nearest t l n) : m = n :=
  (h'.nearest m h.above h.marked).eq_of_length_le (h.nearest n h'.above h'.marked).length_le

/-- **What the search is for**: the nearest marked directory, and the start where there is none. -/
def FindsNearest (d : Disk) (start : Path) (l : Location) : Prop :=
  (∃ m, d.Denotes (root d start) m ∧ Nearest d.tree l m) ∨
    ((∀ n, n <+: l → ¬ Marked d.tree n) ∧ root d start = start)

/-- The most bytes that a mark adds to the path of its directory. -/
def markLimit : Nat := 13

/-- **A path is taken for a root** when its directory is marked. -/
theorem isRoot_eq (h : d.Denotes p m) (hroom : p.text.byteLength + markLimit < pathLimit) :
    isRoot d p = true ↔ Marked d.tree m := by
  have hmarks : ∀ name ∈ marks,
      IsName name ∧ '\x00' ∉ name ∧ Text.byteLength name + 1 ≤ markLimit := by
    decide
  have hchild : ∀ name ∈ marks,
      d.contains (p.child name) = (d.tree.get? (m ++ [name])).isSome := by
    intro name hmem
    obtain ⟨hname, hnul, hlength⟩ := hmarks name hmem
    refine h.contains_child hname hnul ?_ ?_
    · exact (Nat.le_of_succ_le hlength).trans (by decide)
    · omega
  rw [isRoot, List.any_eq_true, Marked]
  exact exists_congr fun name => and_congr_right fun hmem => by rw [hchild name hmem]

/-! ## The search -/

/-- **The directories that the search comes by**: those from the start up to where its path
begins. -/
theorem denotes_of_mem_ancestors (h : d.Denotes start l) (hdown : .parent ∉ start.components)
    (hq : q ∈ start.ancestors) : d.Denotes q (d.origin start ++ q.names) := by
  have hdown' : .parent ∉ q.components := fun hmem =>
    hdown ((components_prefix_of_mem_ancestors hq).subset hmem)
  have horigin : d.origin q = d.origin start :=
    origin_eq_of_isAbsolute (isAbsolute_of_mem_ancestors hq)
  rw [← horigin, ← resolve_eq_names d hdown']
  exact h.of_mem_ancestors hq

/-- **What the search finds**: the nearest marked directory, if there is one before the search
comes to where the path of the start begins; the start itself if there is none. -/
theorem root_spec (h : d.Denotes start l) (hdown : .parent ∉ start.components)
    (hroom : start.text.byteLength + markLimit < pathLimit) :
    (∃ m, d.Denotes (root d start) m ∧ Nearest d.tree l m ∧ d.origin start <+: m) ∨
      (root d start = start ∧
        ∀ n, d.origin start <+: n → n <+: l → ¬ Marked d.tree n) := by
  have hl : l = d.origin start ++ start.names := by
    rw [h.eq_resolve, resolve_eq_names d hdown]
  have hroot : ∀ q ∈ start.ancestors,
      (isRoot d q = true ↔ Marked d.tree (d.origin start ++ q.names)) := by
    intro q hq
    obtain ⟨u, hu⟩ := text_prefix_of_mem_ancestors hq
    rw [← hu, Text.byteLength_append] at hroom
    exact isRoot_eq (denotes_of_mem_ancestors h hdown hq) (by omega)
  have hfound : ∀ n, d.origin start <+: n → n <+: l → ∃ q ∈ start.ancestors,
      n = d.origin start ++ q.names := by
    rintro _ ⟨ns, rfl⟩ hn
    rw [hl, List.prefix_append_right_inj] at hn
    obtain ⟨q, hq, rfl⟩ := exists_mem_ancestors_names hdown hn
    exact ⟨q, hq, rfl⟩
  cases hfind : start.ancestors.find? (isRoot d) with
  | none =>
      rw [List.find?_eq_none] at hfind
      refine Or.inr ⟨by rw [root, List.find?_eq_none.mpr hfind]; rfl, fun n hn hnl hmarked => ?_⟩
      obtain ⟨q, hq, rfl⟩ := hfound n hn hnl
      exact hfind q hq ((hroot q hq).mpr hmarked)
  | some q =>
      have hq : root d start = q := by rw [root, hfind]; rfl
      obtain ⟨hmarked, before, after, hsplit, hbefore⟩ := List.find?_eq_some_iff_append.mp hfind
      have hmem : q ∈ start.ancestors := by
        rw [hsplit]
        simp
      refine Or.inl ⟨d.origin start ++ q.names, ?_, ⟨?_, (hroot q hmem).mp hmarked, ?_⟩,
        List.prefix_append _ _⟩
      · rw [hq]
        exact denotes_of_mem_ancestors h hdown hmem
      · rw [hl, List.prefix_append_right_inj]
        exact names_prefix_of_components (components_prefix_of_mem_ancestors hmem)
      · intro n hn hmarked'
        have horigin : d.origin start <+: l := hl ▸ List.prefix_append _ _
        rcases List.prefix_or_prefix_of_prefix hn horigin with hbelow | habove
        · exact hbelow.trans (List.prefix_append _ _)
        · obtain ⟨a, ha, rfl⟩ := hfound n habove hn
          rw [List.prefix_append_right_inj]
          refine (mem_or_names_prefix_of_split hsplit ha).resolve_left fun hpassed => ?_
          -- What the search has passed by is not marked.
          have hunmarked := hbefore a hpassed
          rw [(hroot a ha).mpr hmarked'] at hunmarked
          cases hunmarked

/-- **When the search finds the nearest marked directory.** Let the start be without steps up, and
short enough for a mark to be looked for. The search finds what it is for just when the start is
absolute, or there is a marked directory before the search comes to the working directory, or there
is none at all. In any case it finds the nearest of the marked directories down from where the path
of the start begins, and the start itself only where none of these is marked. -/
theorem root_nearest (h : d.Denotes start l) (hdown : .parent ∉ start.components)
    (hroom : start.text.byteLength + markLimit < pathLimit) :
    (FindsNearest d start l ↔ start.isAbsolute = true ∨
      (∃ n, d.cwd <+: n ∧ n <+: l ∧ Marked d.tree n) ∨ ∀ n, n <+: l → ¬ Marked d.tree n) ∧
    ((∃ m, d.Denotes (root d start) m ∧ Nearest d.tree l m ∧ d.origin start <+: m) ∨
      (root d start = start ∧
        ∀ n, d.origin start <+: n → n <+: l → ¬ Marked d.tree n)) := by
  have hspec := root_spec h hdown hroom
  have horigin : d.origin start <+: l := by
    rw [h.eq_resolve, resolve_eq_names d hdown]
    exact List.prefix_append _ _
  refine ⟨⟨fun hfinds => ?_, fun hcase => ?_⟩, hspec⟩
  · rcases hspec with ⟨m, -, hnearest, hm⟩ | ⟨hstart, hnone⟩
    · by_cases habsolute : start.isAbsolute = true
      · exact Or.inl habsolute
      · rw [origin, if_neg habsolute] at hm
        exact Or.inr (Or.inl ⟨m, hm, hnearest.above, hnearest.marked⟩)
    · rcases hfinds with ⟨m, hm, hnearest⟩ | ⟨hnothing, -⟩
      · -- The start stands for one directory only.
        rw [hstart] at hm
        obtain rfl := hm.unique h
        exact absurd hnearest.marked (hnone m horigin hnearest.above)
      · exact Or.inr (Or.inr hnothing)
  · rcases hspec with ⟨m, hm, hnearest, -⟩ | ⟨hstart, hnone⟩
    · exact Or.inl ⟨m, hm, hnearest⟩
    · refine Or.inr ⟨fun n hn hmarked => ?_, hstart⟩
      by_cases habsolute : start.isAbsolute = true
      · rw [origin, if_pos habsolute] at hnone
        exact hnone n List.nil_prefix hn hmarked
      · rw [origin, if_neg habsolute] at hnone
        rcases hcase with habsolute' | ⟨m, hm, hml, hmarkedm⟩ | hnothing
        · exact habsolute habsolute'
        · exact hnone m hm hml hmarkedm
        · exact hnothing n hn hmarked

/-- A repository with a directory two steps below its mark. -/
def nestedDisk (cwd : Location) : Disk :=
  ⟨{ entries := [
      (["repo".toList], .directory), (["repo".toList, "src".toList], .directory),
      (["repo".toList, "src".toList, "data".toList], .directory),
      (["repo".toList, "locwrap.toml".toList], .file (.text "output = \"json\"\n".toList))] }, cwd⟩

/-- From the directory with the mark, the search for a directory two steps below ends at the empty
path, which stands for the directory with the mark. -/
theorem root_nearest_relative :
    (nestedDisk ["repo".toList]).Denotes (.ofString "src//data/")
      ["repo".toList, "src".toList, "data".toList] ∧
    .parent ∉ (Path.ofString "src//data/").components ∧
    (Path.ofString "src//data/").text.byteLength + markLimit < pathLimit ∧
    root (nestedDisk ["repo".toList]) (.ofString "src//data/") = ⟨[]⟩ ∧
    FindsNearest (nestedDisk ["repo".toList]) (.ofString "src//data/")
      ["repo".toList, "src".toList, "data".toList] := by
  have hstart : (nestedDisk ["repo".toList]).Denotes (.ofString "src//data/")
      ["repo".toList, "src".toList, "data".toList] := by decide +kernel
  have hdown : .parent ∉ (Path.ofString "src//data/").components := by decide +kernel
  have hroom : (Path.ofString "src//data/").text.byteLength + markLimit < pathLimit := by
    decide +kernel
  refine ⟨hstart, hdown, hroom, by decide +kernel, ?_⟩
  refine (root_nearest hstart hdown hroom).1.mpr (Or.inr (Or.inl ⟨["repo".toList], ?_⟩))
  exact ⟨List.prefix_rfl, List.prefix_append _ _, by decide +kernel⟩

/-- **A mark above the working directory is missed** when the start is relative: one step below it,
the search that starts from the working directory ends where it began. -/
theorem root_misses_mark :
    (nestedDisk ["repo".toList, "src".toList]).Denotes (.ofString ".")
      ["repo".toList, "src".toList] ∧
    .parent ∉ (Path.ofString ".").components ∧
    Nearest (nestedDisk ["repo".toList, "src".toList]).tree ["repo".toList, "src".toList]
      ["repo".toList] ∧
    root (nestedDisk ["repo".toList, "src".toList]) (.ofString ".") = .ofString "." ∧
    ¬ FindsNearest (nestedDisk ["repo".toList, "src".toList]) (.ofString ".")
      ["repo".toList, "src".toList] := by
  have hstart : (nestedDisk ["repo".toList, "src".toList]).Denotes (.ofString ".")
      ["repo".toList, "src".toList] := by decide +kernel
  have hroot : root (nestedDisk ["repo".toList, "src".toList]) (.ofString ".") = .ofString "." := by
    decide +kernel
  have habove : ∀ n ∈ (["repo".toList, "src".toList] : Location).inits,
      Marked (nestedDisk ["repo".toList, "src".toList]).tree n → n <+: ["repo".toList] := by
    decide +kernel
  have hnearest : Nearest (nestedDisk ["repo".toList, "src".toList]).tree
      ["repo".toList, "src".toList] ["repo".toList] :=
    ⟨List.prefix_append _ _, by decide +kernel, fun n hn => habove n ((List.mem_inits n _).mpr hn)⟩
  refine ⟨hstart, by decide +kernel, hnearest, hroot, ?_⟩
  rintro (⟨m, hm, hfound⟩ | ⟨hnone, -⟩)
  · rw [hroot] at hm
    obtain rfl := hm.unique hstart
    exact absurd (hfound.unique hnearest) (by decide)
  · exact hnone _ hnearest.above hnearest.marked

end Discovery

end LocaleWrap
