import LocaleWrap.Proofs.Path.Ancestors
import LocaleWrap.Proofs.Tree.Growth
import Mathlib.Control.Monad.Basic

/-! # Following a path from a directory

A path taken from a directory leads where it leads from there. A path that is followed as a part of
another need not be one that can be followed by itself: it may be empty, which stays where it
begins.

* **`Disk.follow`** — where the pieces of a path lead; `follow_join` says what comes of a path taken
  from another.
* **`Disk.Denotes`** — the directory that a path stands for, be it empty.
* `Disk.Denotes.contains_child` — whether there is an entry in that directory. -/

namespace LocaleWrap

namespace Disk

open LocaleWrap.Path Text

variable {t : Tree} {d : Disk} {p q : Path} {l m : Location} {name : Text}

/-! ## Paths taken from paths -/

/-- **Where the pieces of a path lead**, whatever else may keep it from being opened. -/
def follow (d : Disk) (p : Path) : Except FileFault Location :=
  walk d.tree (d.origin p) (pieces '/' p.text)

/-- A path can be followed if it is not empty, short enough and without null characters. -/
theorem permit_eq_ok_iff :
    permit p = .ok () ↔ '\x00' ∉ p.text ∧ p.text ≠ [] ∧ p.text.byteLength < pathLimit := by
  unfold permit
  split_ifs with hnul hempty hlong
  · simp [hnul]
  · simp [hempty]
  · simp [Nat.not_lt.mpr hlong]
  · simp [hnul, hempty, Nat.lt_of_not_ge hlong]

/-- A path leads somewhere if it can be followed and each of its steps can. -/
theorem locate_eq_ok_iff : d.locate p = .ok l ↔ permit p = .ok () ∧ d.follow p = .ok l := by
  rw [locate, bind_eq_ok_iff]
  constructor
  · rintro ⟨_, hpermit, hwalk⟩
    exact ⟨hpermit, hwalk⟩
  · rintro ⟨hpermit, hwalk⟩
    exact ⟨(), hpermit, hwalk⟩

/-- **The entry that a path leads to** stands where the path leads. -/
theorem entry_eq_ok_iff {e : Entry} :
    d.entry p = .ok e ↔ ∃ l, d.locate p = .ok l ∧ d.tree.get? l = some e := by
  rw [entry, bind_eq_ok_iff]
  refine exists_congr fun l => and_congr_right fun _ => ?_
  cases d.tree.get? l <;> simp

/-- A disk contains what a path has an entry for. -/
theorem contains_iff_entry : d.contains p = true ↔ ∃ e, d.entry p = .ok e := by
  rw [contains]
  cases d.entry p <;> simp [Except.toBool]

/-- A disk contains what a path leads to, if something stands there. -/
theorem contains_iff : d.contains p = true ↔ ∃ l, d.locate p = .ok l ∧ (d.tree.get? l).isSome := by
  simp only [Option.isSome_iff_exists, ← exists_and_left]
  rw [exists_comm]
  simp only [← entry_eq_ok_iff]
  exact contains_iff_entry

/-- A path leads to a directory if one stands at its location. -/
theorem isDirectory_iff :
    d.isDirectory p = true ↔ ∃ l, d.locate p = .ok l ∧ d.tree.get? l = some .directory := by
  rw [← entry_eq_ok_iff, isDirectory]
  cases d.entry p with
  | error fault => simp
  | ok e => cases e <;> simp

/-- A path leads to a file if one stands at its location. -/
theorem isFile_iff :
    d.isFile p = true ↔ ∃ l, d.locate p = .ok l ∧ ∃ c, d.tree.get? l = some (.file c) := by
  simp only [← exists_and_left]
  rw [exists_comm]
  simp only [← entry_eq_ok_iff]
  rw [isFile]
  cases d.entry p with
  | error fault => simp
  | ok e => cases e <;> simp

/-- **An idle piece in front of others** makes no difference: the next step wants a directory as
well. -/
theorem walk_idle_cons {idle : Text} (h : isIdle idle = true) {ps : List Text} (hne : ps ≠ [])
    (t : Tree) (l : Location) : walk t l (idle :: ps) = walk t l ps := by
  obtain ⟨p, ps, rfl⟩ := List.exists_cons_of_ne_nil hne
  rw [walk, walk]
  cases hl : t.get? l with
  | none => simp [step, hl, Except.bind]
  | some entry =>
      cases entry with
      | file c => simp [step, hl, Except.bind]
      | directory =>
          have hstay : step t l idle = .ok l := step_eq_ok_iff.mpr ⟨hl, Or.inl ⟨h, rfl⟩⟩
          rw [hstay]
          rfl

/-- A path taken from another begins where that begins. -/
theorem origin_join (hq : q.isAbsolute = false) : d.origin (p.join q) = d.origin p :=
  origin_eq_of_isAbsolute (isAbsolute_join_of_relative hq)

/-- **A path taken from another** leads where it leads from there. -/
theorem follow_join (hq : q.isAbsolute = false) :
    d.follow (p.join q) = (d.follow p).bind fun m => walk d.tree m (pieces '/' q.text) := by
  have hsome := pieces_ne_nil '/' q.text
  rw [follow, follow, origin_join hq, ← walk_append, join_eq_front hq, front_eq]
  by_cases hempty : p.text = []
  · -- The empty path has an idle piece, and goes nowhere.
    rw [if_pos (Or.inl hempty), hempty, pieces_nil, List.nil_append, List.singleton_append,
      walk_idle_cons rfl hsome]
  by_cases hslash : p.text.getLast? = some '/'
  · -- The slash that ends the first path is the one between the two.
    obtain ⟨s, hs⟩ := List.getLast?_eq_some_iff.mp hslash
    have hfirst : pieces '/' (s ++ ['/']) = pieces '/' s ++ [[]] := pieces_append '/' s []
    rw [if_pos (Or.inr hslash), hs, hfirst, List.append_assoc, List.singleton_append,
      pieces_append, List.append_assoc, List.singleton_append, walk_append, walk_append]
    congr 1
    funext m
    rw [walk_idle_cons rfl hsome]
  · rw [if_neg (by simp [hempty, hslash]), List.append_assoc, List.singleton_append, pieces_append]

/-! ## Directories that paths stand for -/

/-- **The directory that a path stands for**: the one that it leads to, or for the empty path the
one where relative paths begin. -/
def Denotes (d : Disk) (p : Path) (l : Location) : Prop :=
  d.tree.get? l = some .directory ∧ (d.locate p = .ok l ∨ p.text = [] ∧ l = d.cwd)

instance (d : Disk) (p : Path) (l : Location) : Decidable (d.Denotes p l) :=
  inferInstanceAs (Decidable (_ ∧ (_ ∨ _)))

namespace Denotes

/-- The steps of a path lead to the directory that it stands for. -/
theorem follow (h : d.Denotes p l) : d.follow p = .ok l := by
  obtain ⟨hdir, hlocate | ⟨hempty, rfl⟩⟩ := h
  · exact (locate_eq_ok_iff.mp hlocate).2
  · have hp : p = ⟨[]⟩ := by rw [← hempty]
    rw [hp]
    exact walk_slashes (by simp) hdir

/-- **A path stands for one directory.** -/
theorem unique (h : d.Denotes p l) (h' : d.Denotes p m) : l = m :=
  Except.ok.inj (h.follow.symm.trans h'.follow)

/-- A path that stands for a directory has no null character. -/
theorem nul_not_mem (h : d.Denotes p l) : '\x00' ∉ p.text := by
  obtain ⟨-, hlocate | ⟨hempty, -⟩⟩ := h
  · exact (permit_eq_ok_iff.mp (locate_eq_ok_iff.mp hlocate).1).1
  · simp [hempty]

end Denotes

/-- **Where a path without steps up stands**: its names below the place where it begins. -/
theorem resolve_eq_names (d : Disk) (hdown : .parent ∉ p.components) :
    p.resolve d.cwd = d.origin p ++ p.names := by
  rw [resolve, components_eq_names hdown, List.foldl_append, foldl_follow_opening,
    foldl_follow_names]

/-- The directory that a path stands for is the one that it spells. -/
theorem Denotes.eq_resolve (h : d.Denotes p l) : l = p.resolve d.cwd := by
  obtain ⟨-, hlocate | ⟨hempty, rfl⟩⟩ := h
  · exact locate_eq_resolve hlocate
  · have hp : p = ⟨[]⟩ := by rw [← hempty]
    rw [hp]
    rfl

/-- Pieces are followed from a directory. -/
theorem directory_of_walk {ps : List Text} (hne : ps ≠ []) (h : walk t l ps = .ok m) :
    t.get? l = some .directory := by
  obtain ⟨piece, rest, rfl⟩ := List.exists_cons_of_ne_nil hne
  rw [walk, bind_eq_ok_iff] at h
  obtain ⟨n, hstep, -⟩ := h
  exact (step_eq_ok_iff.mp hstep).1

/-- **The paths above a path to a directory** stand for directories. -/
theorem Denotes.of_mem_ancestors (h : d.Denotes p l) (hq : q ∈ p.ancestors) :
    d.Denotes q (q.resolve d.cwd) := by
  have horigin : d.origin q = d.origin p :=
    origin_eq_of_isAbsolute (isAbsolute_of_mem_ancestors hq)
  have hfollow : walk d.tree (d.origin p) (pieces '/' p.text) = .ok l := h.follow
  rcases List.mem_cons.mp hq with rfl | hparent
  · exact h.eq_resolve ▸ h
  by_cases hempty : q.text = []
  · -- The empty path is above a relative one.
    have hq' : q = ⟨[]⟩ := by rw [← hempty]
    have hdir := directory_of_walk (pieces_ne_nil '/' p.text) hfollow
    rw [← horigin, hq'] at hdir
    rw [hq']
    exact ⟨hdir, Or.inr ⟨rfl, rfl⟩⟩
  · have hlocate : ∀ m, d.follow q = .ok m → d.tree.get? m = some .directory →
        d.Denotes q (q.resolve d.cwd) := by
      intro m hm hdir
      obtain ⟨u, hu⟩ := text_prefix_of_mem_ancestors hq
      have hpermit : permit q = .ok () := by
        rcases h.2 with hlocate | ⟨hnil, -⟩
        · have hpermit := (locate_eq_ok_iff.mp hlocate).1
          rw [permit_eq_ok_iff, ← hu, List.mem_append, byteLength_append] at hpermit
          exact permit_eq_ok_iff.mpr ⟨fun hnul => hpermit.1 (Or.inl hnul), hempty, by omega⟩
        · rw [← hu] at hnil
          exact absurd (List.append_eq_nil_iff.mp hnil).1 hempty
      have hm' : d.locate q = .ok m := locate_eq_ok_iff.mpr ⟨hpermit, hm⟩
      rw [← locate_eq_resolve hm']
      exact ⟨hdir, Or.inl hm'⟩
    rcases text_of_mem_parents hparent with hnil | ⟨hroot, -⟩ | ⟨u, hu⟩
    · exact absurd hnil hempty
    · have hq' : q = ⟨['/']⟩ := by rw [← hroot]
      refine hlocate [] ?_ (Tree.get?_root d.tree)
      rw [hq']
      exact walk_slashes (by simp [pieces_cons_self]) (Tree.get?_root d.tree)
    · rw [hu, pieces_append, walk_append, ← horigin, bind_eq_ok_iff] at hfollow
      obtain ⟨m, hm, hrest⟩ := hfollow
      exact hlocate m hm (directory_of_walk (pieces_ne_nil '/' u) hrest)

/-- A path taken from another has the characters of both, and a slash at most. -/
theorem join_text (hq : q.isAbsolute = false) :
    ∃ slash ∈ ([[], ['/']] : List Text), (p.join q).text = p.text ++ slash ++ q.text := by
  rw [join, if_neg (by simp [hq])]
  split
  · exact ⟨[], by simp, by simp⟩
  · exact ⟨['/'], by simp, by simp⟩

/-- **A path down from a directory can be opened** unless it is too long. -/
theorem Denotes.permit_join (h : d.Denotes p l) (hq : q.isAbsolute = false) (hne : q.text ≠ [])
    (hnul : '\x00' ∉ q.text)
    (hroom : p.text.byteLength + 1 + q.text.byteLength < pathLimit) :
    permit (p.join q) = .ok () := by
  obtain ⟨slash, hslash, htext⟩ := join_text (p := p) hq
  have hfree : '\x00' ∉ slash ∧ byteLength slash ≤ 1 := by
    simp only [List.mem_cons, List.not_mem_nil, or_false] at hslash
    rcases hslash with rfl | rfl <;> decide
  rw [permit_eq_ok_iff, htext]
  refine ⟨?_, by simp [hne], ?_⟩
  · simp [h.nul_not_mem, hfree.1, hnul]
  · rw [byteLength_append, byteLength_append]
    omega

/-- A name is no path from the root. -/
theorem isAbsolute_name (hname : IsName name) : (⟨name⟩ : Path).isAbsolute = false := by
  have hnames : ∀ n ∈ [name], IsName n := by simpa using hname
  exact isAbsolute_ofNames hnames

/-- **The path of an entry** takes one step from where the path of its directory leads. -/
theorem follow_child (hname : IsName name) :
    d.follow (p.child name) = (d.follow p).bind fun m => step d.tree m name := by
  have hnames : ∀ n ∈ [name], IsName n := by simpa using hname
  have hpieces : pieces '/' name = [name] := pieces_ofNames hnames (List.cons_ne_nil name [])
  rw [child, follow_join (isAbsolute_name hname), hpieces]
  congr 1
  funext m
  rw [walk]
  cases step d.tree m name <;> rfl

/-- **A step to a name** leads nowhere but to its entry. -/
theorem step_name_eq_ok_iff (hname : IsName name) :
    step t l name = .ok m ↔ t.get? l = some .directory ∧ name.byteLength ≤ nameLimit ∧
      m = l ++ [name] ∧ (t.get? m).isSome := by
  rw [step_eq_ok_iff]
  simp [hname.2.1, hname.2.2]

/-- **Whether a directory has an entry** is found out by the entry's path, unless that is too
long. -/
theorem Denotes.contains_child (h : d.Denotes p l) (hname : IsName name) (hnul : '\x00' ∉ name)
    (hshort : name.byteLength ≤ nameLimit)
    (hroom : p.text.byteLength + 1 + name.byteLength < pathLimit) :
    d.contains (p.child name) = (d.tree.get? (l ++ [name])).isSome := by
  have hpermit := h.permit_join (isAbsolute_name hname) hname.ne_nil hnul hroom
  have hfollow : d.follow (p.child name) = step d.tree l name := by
    rw [follow_child hname, h.follow]
    rfl
  rw [Bool.eq_iff_iff, contains_iff]
  constructor
  · rintro ⟨m, hm, hsome⟩
    rw [locate_eq_ok_iff, hfollow, step_name_eq_ok_iff hname] at hm
    obtain ⟨-, -, -, rfl, -⟩ := hm
    exact hsome
  · intro hsome
    refine ⟨l ++ [name], locate_eq_ok_iff.mpr ⟨hpermit, ?_⟩, hsome⟩
    rw [hfollow, step_name_eq_ok_iff hname]
    exact ⟨h.1, hshort, rfl, hsome⟩

/-- **The path of an entry** leads to the entry of that name where the path of its directory
leads. -/
theorem exists_of_locate_child (hname : IsName name) (h : d.locate (p.child name) = .ok l) :
    ∃ m, d.follow p = .ok m ∧ l = m ++ [name] := by
  have hfollow := (locate_eq_ok_iff.mp h).2
  rw [follow_child hname, bind_eq_ok_iff] at hfollow
  obtain ⟨m, hm, hstep⟩ := hfollow
  exact ⟨m, hm, ((step_name_eq_ok_iff hname).mp hstep).2.2.1⟩

/-- Entries with different names are different entries. -/
theorem locate_child_ne {other : Text} (hname : IsName name) (hother : IsName other)
    (hne : other ≠ name) (h : d.locate (p.child name) = .ok l) :
    d.locate (p.child other) ≠ .ok l := by
  intro h'
  obtain ⟨m, -, rfl⟩ := exists_of_locate_child hname h
  obtain ⟨n, -, heq⟩ := exists_of_locate_child hother h'
  exact hne (List.append_inj_right' heq rfl |> List.singleton_inj.mp).symm

end Disk

end LocaleWrap
