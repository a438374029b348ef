import LocaleWrap.Proofs.Tree.Removal
import LocaleWrap.Settings.Discovery

/-! # Broken configuration files

Of the configuration files at a root the first that is there decides. Where it is broken there are
no settings, also where a file that comes later would give some. So a broken file is the same as
none only as long as none of the later ones is in use.

* **`Discovery.FirstOf`** — the first of some files that is there.
* **`Discovery.Broken`** — a file that gives no settings; **`Discovery.NoSettings`** — files of
  which the first that is there is broken.
* `Discovery.config?_findAmong_eq_none_iff` — when there are no settings.
* `Discovery.load?_broken_iff` — when the settings are what they are without a broken file;
  `Discovery.load?_broken_hides` — a broken file in front of one that is not. -/

namespace LocaleWrap

namespace Discovery

open LocaleWrap.Path LocaleWrap.Disk

variable {d e : Disk} {root p : Path} {files before after : List (Text × Form)}
  {file : Text × Form} {form : Form}

/-! ## The file that decides -/

/-- **The first configuration file that is there**, and the ones after it in the order. -/
structure FirstOf (d : Disk) (root : Path) (files : List (Text × Form)) (file : Text × Form)
    (after : List (Text × Form)) : Prop where
  split : ∃ before, files = before ++ file :: after ∧
    ∀ f ∈ before, d.contains (root.child f.1) = false
  present : d.contains (root.child file.1) = true

/-- **A broken configuration file**: it has no text, or one that gives no settings. -/
def Broken (d : Disk) (file : Path) (form : Form) : Prop :=
  ∀ t, d.readText file = .ok t → form.read? t = none

/-- **Files that give no settings**: the first that is there, if any is, is broken. -/
def NoSettings (d : Disk) (root : Path) (files : List (Text × Form)) : Prop :=
  ∀ file after, FirstOf d root files file after → Broken d (root.child file.1) file.2

/-- Files that are not there make no difference. -/
theorem findAmong_append (h : ∀ f ∈ before, d.contains (root.child f.1) = false) :
    findAmong d root (before ++ files) = findAmong d root files := by
  induction before with
  | nil => rfl
  | cons f before ih =>
      rw [List.forall_mem_cons] at h
      rw [List.cons_append, findAmong, if_neg (by simp [h.1]), ih h.2]

/-- **The first file that is there decides.** -/
theorem FirstOf.findAmong_eq (h : FirstOf d root files file after) :
    findAmong d root files = examine d (root.child file.1) file.2 := by
  obtain ⟨before, rfl, hbefore⟩ := h.split
  rw [findAmong_append hbefore, findAmong, if_pos h.present]

/-- Either none of the files is there, or there is a first one. -/
theorem absent_or_exists_first (d : Disk) (root : Path) (files : List (Text × Form)) :
    (∀ f ∈ files, d.contains (root.child f.1) = false) ∨
      ∃ file after, FirstOf d root files file after := by
  cases hfind : files.find? fun f => d.contains (root.child f.1) with
  | none =>
      rw [List.find?_eq_none] at hfind
      exact Or.inl fun f hf => by simpa using hfind f hf
  | some file =>
      obtain ⟨hpresent, before, after, hsplit, hbefore⟩ := List.find?_eq_some_iff_append.mp hfind
      exact Or.inr
        ⟨file, after, ⟨before, hsplit, fun f hf => by simpa using hbefore f hf⟩, hpresent⟩

/-- **A file gives the settings** that its text gives. -/
theorem config?_examine_eq_some_iff {config : Config} :
    (examine d p form).config? = some config ↔
      ∃ t, d.readText p = .ok t ∧ form.read? t = some config := by
  unfold examine
  cases d.readText p with
  | error fault => simp [Found.config?]
  | ok t => cases hread : form.read? t <;> simp [Found.config?, hread]

/-- A file that was examined gives no settings exactly when it is broken. -/
theorem config?_examine_eq_none_iff : (examine d p form).config? = none ↔ Broken d p form := by
  simp only [Option.eq_none_iff_forall_ne_some, ne_eq, config?_examine_eq_some_iff, Broken,
    not_exists, not_and]
  exact forall_comm.trans (forall_congr' fun t => forall_comm)

/-- **There are no settings** where the first file that is there is broken, or none is there. -/
theorem config?_findAmong_eq_none_iff :
    (findAmong d root files).config? = none ↔ NoSettings d root files := by
  constructor
  · intro h file after hfirst
    rwa [hfirst.findAmong_eq, config?_examine_eq_none_iff] at h
  · intro h
    rcases absent_or_exists_first d root files with habsent | ⟨file, after, hfirst⟩
    · have hnone : findAmong d root (files ++ []) = .absent := findAmong_append habsent
      rw [List.append_nil] at hnone
      rw [hnone]
      rfl
    · rw [hfirst.findAmong_eq, config?_examine_eq_none_iff]
      exact h file after hfirst

/-! ## Without the file -/

/-- Configuration files have names. -/
theorem isName_of_mem_configFiles {f : Text × Form} (h : f ∈ configFiles) : IsName f.1 := by
  revert f
  decide

/-- The first file that is there is one of the files asked for. -/
theorem FirstOf.mem (h : FirstOf d root files file after) : file ∈ files := by
  obtain ⟨before, rfl, -⟩ := h.split
  simp

/-- The files after the first one have names of their own. -/
theorem FirstOf.name_ne (h : FirstOf d root configFiles file after) {f : Text × Form}
    (hf : f ∈ after) : f ∈ configFiles ∧ f.1 ≠ file.1 := by
  -- No name stands twice in the order.
  have hnodup : (configFiles.map (·.1)).Nodup := by decide
  obtain ⟨before, hsplit, -⟩ := h.split
  rw [hsplit, List.map_append, List.map_cons] at hnodup
  have hnotMem := (List.nodup_cons.mp (List.nodup_append.mp hnodup).2.1).1
  refine ⟨by rw [hsplit]; simp [hf], fun heq => hnotMem ?_⟩
  rw [← heq]
  exact List.mem_map_of_mem hf

/-- **Without the first file** the ones after it are looked at. -/
theorem FirstOf.findAmong_of_remove (h : FirstOf d root configFiles file after)
    (hremove : d.remove (root.child file.1) = .ok e) :
    findAmong e root configFiles = findAmong e root after := by
  have hname := isName_of_mem_configFiles h.mem
  have hroot : d.locate (root.child file.1) ≠ .ok [] := by
    intro hlocate
    obtain ⟨m, -, hm⟩ := exists_of_locate_child hname hlocate
    simp at hm
  obtain ⟨before, hsplit, hbefore⟩ := h.split
  -- The removed file is now one of those in front that are not there.
  rw [hsplit, ← List.singleton_append, ← List.append_assoc]
  apply findAmong_append
  intro f hf
  rcases List.mem_append.mp hf with hf | hf
  · rw [Bool.eq_false_iff]
    intro hcontains
    have hcontains' := contains_of_remove hremove hcontains
    rw [hbefore f hf] at hcontains'
    cases hcontains'
  · obtain rfl := List.mem_singleton.mp hf
    exact not_contains_of_remove hremove hroot

/-- **Entries that are the same** on two disks give the same settings. -/
theorem config?_findAmong_congr (h : ∀ f ∈ files, ∀ entry,
      e.entry (root.child f.1) = .ok entry ↔ d.entry (root.child f.1) = .ok entry) :
    (findAmong e root files).config? = (findAmong d root files).config? := by
  induction files with
  | nil => rfl
  | cons f files ih =>
      obtain ⟨hfirst, hrest⟩ := List.forall_mem_cons.mp h
      have hcontains : e.contains (root.child f.1) = d.contains (root.child f.1) := by
        rw [Bool.eq_iff_iff, contains_iff_entry, contains_iff_entry]
        exact exists_congr hfirst
      have hexamine : (examine e (root.child f.1) f.2).config?
          = (examine d (root.child f.1) f.2).config? := by
        ext config
        rw [config?_examine_eq_some_iff, config?_examine_eq_some_iff]
        refine exists_congr fun t => and_congr_left' ?_
        rw [readText, readText, bind_eq_ok_iff, bind_eq_ok_iff]
        exact exists_congr fun entry => and_congr_left' (hfirst entry)
      rw [findAmong, findAmong, hcontains]
      split
      · exact hexamine
      · exact ih hrest

/-- **When a broken configuration file counts as none.** Of the configuration files that are there
let the first be broken. Then there are no settings. These are the settings that there are without
this file just when the files after it give none; which, where the file is no directory, is so when
they give none as long as it is there. -/
theorem load?_broken_iff (hfirst : FirstOf d root configFiles file after)
    (hbroken : Broken d (root.child file.1) file.2) :
    load? d root = none ∧ ∃ e, d.remove (root.child file.1) = .ok e ∧
      (load? d root = load? e root ↔ NoSettings e root after) ∧
      (d.isFile (root.child file.1) = true →
        (NoSettings e root after ↔ NoSettings d root after)) := by
  have hnone : load? d root = none := by
    rw [load?, find, hfirst.findAmong_eq, config?_examine_eq_none_iff]
    exact hbroken
  obtain ⟨e, hremove⟩ := exists_remove hfirst.present
  refine ⟨hnone, e, hremove, ?_, fun hfile => ?_⟩
  · rw [hnone, load?, find, hfirst.findAmong_of_remove hremove, eq_comm,
      config?_findAmong_eq_none_iff]
  · -- Nothing lies below a file, so none of the later files goes with it.
    obtain ⟨l, hl, c, hc⟩ := isFile_iff.mp hfile
    rw [← config?_findAmong_eq_none_iff, ← config?_findAmong_eq_none_iff,
      config?_findAmong_congr fun f hf => entry_of_remove_file hl hc hremove ?_]
    obtain ⟨hmem, hne⟩ := hfirst.name_ne hf
    exact locate_child_ne (isName_of_mem_configFiles hfirst.mem) (isName_of_mem_configFiles hmem)
      hne hl

/-- A malformed configuration file, and other files besides. -/
def brokenFiles (others : List (Text × Contents)) : List (Location × Entry) :=
  (["locwrap.toml".toList], .file (.text "patterns = [unterminated".toList)) ::
    others.map fun f => ([f.1], .file f.2)

/-- Each of the files stands in a directory. -/
theorem housed_brokenFiles (others : List (Text × Contents)) :
    ∀ p ∈ brokenFiles others,
      Entry.at? (brokenFiles others) p.1.dropLast = some .directory := by
  intro p hp
  rcases List.mem_cons.mp hp with rfl | hp
  · rfl
  · obtain ⟨f, -, rfl⟩ := List.mem_map.mp hp
    rfl

/-- A directory with a malformed configuration file, and with others besides. -/
def brokenFirst (others : List (Text × Contents))
    (distinct : ((brokenFiles others).map Prod.fst).Nodup := by decide +kernel)
    (named : ∀ p ∈ brokenFiles others, ∀ n ∈ p.1, IsEntryName n := by decide +kernel) : Disk :=
  ⟨⟨brokenFiles others, distinct, housed_brokenFiles others, named⟩, []⟩

section

variable (others : List (Text × Contents)) (distinct : ((brokenFiles others).map Prod.fst).Nodup)
  (named : ∀ p ∈ brokenFiles others, ∀ n ∈ p.1, IsEntryName n)

/-- The malformed file is the first of the configuration files that is there. -/
theorem firstOf_brokenFirst :
    FirstOf (brokenFirst others distinct named) (.ofString ".") configFiles
      ("locwrap.toml".toList, .toml)
      [("locwrap.yaml".toList, .yaml), ("locwrap.yml".toList, .yaml)] :=
  ⟨⟨[], rfl, nofun⟩, rfl⟩

/-- The malformed file is broken. -/
theorem broken_brokenFirst :
    Broken (brokenFirst others distinct named) ((Path.ofString ".").child "locwrap.toml".toList)
      .toml := by
  have hread : (brokenFirst others distinct named).readText
      ((Path.ofString ".").child "locwrap.toml".toList) =
        .ok "patterns = [unterminated".toList := rfl
  intro t ht
  obtain rfl := Except.ok.inj (hread.symm.trans ht)
  decide +kernel

end

/-- Behind the malformed file there is one that is no text, and then one that is not looked at. -/
theorem load?_broken_iff_twice :
    let d := brokenFirst [("locwrap.yaml".toList, .noText),
      ("locwrap.yml".toList, .text "output: json\n".toList)]
    let p := (Path.ofString ".").child "locwrap.toml".toList
    let others := [("locwrap.yaml".toList, Form.yaml), ("locwrap.yml".toList, Form.yaml)]
    FirstOf d (.ofString ".") configFiles ("locwrap.toml".toList, .toml) others ∧
    Broken d p .toml ∧ d.isFile p = true ∧ NoSettings d (.ofString ".") others ∧
    ∃ e, d.remove p = .ok e ∧ load? d (.ofString ".") = load? e (.ofString ".") := by
  intro d p others
  have hfirst : FirstOf d (.ofString ".") configFiles ("locwrap.toml".toList, .toml) others :=
    firstOf_brokenFirst _ _ _
  have hbroken : Broken d p .toml := broken_brokenFirst _ _ _
  have hfile : d.isFile p = true := by decide +kernel
  have hnone : NoSettings d (.ofString ".") others :=
    config?_findAmong_eq_none_iff.mp (by decide +kernel)
  obtain ⟨-, e, hremove, hsame, hkept⟩ := load?_broken_iff hfirst hbroken
  exact ⟨hfirst, hbroken, hfile, hnone, e, hremove, hsame.mpr ((hkept hfile).mpr hnone)⟩

/-- **A broken file hides the settings** of a later one: without it they are in use. -/
theorem load?_broken_hides :
    let d := brokenFirst [("locwrap.yaml".toList, .text "output: json\n".toList)]
    let p := (Path.ofString ".").child "locwrap.toml".toList
    FirstOf d (.ofString ".") configFiles ("locwrap.toml".toList, .toml)
      [("locwrap.yaml".toList, .yaml), ("locwrap.yml".toList, .yaml)] ∧
    Broken d p .toml ∧ load? d (.ofString ".") = none ∧
    ∃ e, d.remove p = .ok e ∧
      load? e (.ofString ".") = some { Config.empty with output := some "json".toList } := by
  intro d p
  exact ⟨firstOf_brokenFirst _ _ _, broken_brokenFirst _ _ _, by decide +kernel, _, rfl,
    by decide +kernel⟩

end Discovery

end LocaleWrap
