import LocaleWrap.Tree.Disk
import Mathlib.Tactic.SplitIfs

/-! # The shape of a file tree

Where a path leads depends on which locations hold directories and which hold files, but on nothing
that the files hold.

* **`Tree.SameShape`** — two trees that differ in what their files hold at most. A path leads to the
  same location in both (`Disk.locate_congr`).
* `Disk.readText_eq_ok_iff` — which paths lead to a text.
* `Disk.write_of_locate` — a path that leads to a file can be written to, and leads the new contents
  to that file. -/

namespace LocaleWrap

/-- Whether an entry is a file. -/
def Entry.isFile : Entry → Bool
  | directory => false
  | file _ => true

namespace Tree

variable {t u v : Tree} {l : Location}

/-- No file stands at the root. -/
theorem ne_root_of_file {c : Contents} (h : t.get? l = some (.file c)) : l ≠ [] := by
  rintro rfl
  cases h

/-! ## Trees of the same shape -/

/-- **Trees of the same shape**: at each location both have a directory, or a file, or nothing. -/
def SameShape (t u : Tree) : Prop := ∀ l, (t.get? l).map Entry.isFile = (u.get? l).map Entry.isFile

/-- In trees of the same shape something stands at the same locations. -/
theorem SameShape.isSome (h : t.SameShape u) (l : Location) :
    (t.get? l).isSome = (u.get? l).isSome := by
  simpa using congrArg Option.isSome (h l)

/-- In trees of the same shape directories stand at the same locations. -/
theorem SameShape.get?_eq_directory (h : t.SameShape u) (l : Location) :
    t.get? l = some .directory ↔ u.get? l = some .directory := by
  have hkind : ∀ e : Option Entry, e = some .directory ↔ e.map Entry.isFile = some false := by
    rintro (_ | _ | _) <;> simp [Entry.isFile]
  rw [hkind, hkind, h l]

/-- In trees of the same shape files stand at the same locations. -/
theorem SameShape.exists_file {c : Contents} (h : t.SameShape u) (ht : t.get? l = some (.file c)) :
    ∃ c', u.get? l = some (.file c') := by
  have hl := h l
  rw [ht] at hl
  cases hu : u.get? l with
  | none => simp [hu] at hl
  | some e =>
      cases e with
      | directory => simp [hu, Entry.isFile] at hl
      | file c' => exact ⟨c', rfl⟩

/-- **Where a file stands** there is room for another one. -/
theorem hasRoom_of_file {c : Contents} (h : t.get? l = some (.file c)) (new : Contents) :
    t.HasRoom l (.file new) where
  ne_root := ne_root_of_file h
  parent := get?_dropLast (by rw [h]; rfl)
  name n hn := isEntryName_of_mem (by rw [h]; rfl) (List.mem_of_getLast? hn)
  kind hdir := by
    rw [h] at hdir
    cases hdir

/-- **A file with other contents** leaves the shape as it is. -/
theorem sameShape_insert {c : Contents} (h : t.get? l = some (.file c)) (new : Contents) :
    t.SameShape (t.insert l (.file new)) := by
  intro m
  rw [get?_insert (hasRoom_of_file h new)]
  by_cases hm : m = l
  · rw [if_pos hm, hm, h]
    rfl
  · rw [if_neg hm]

end Tree

namespace Disk

variable {t u : Tree} {d e : Disk} {p : Path} {l m : Location}

/-! ## Where paths lead -/

/-- **A path begins** at the root, or in the working directory. -/
theorem origin_congr (h : e.cwd = d.cwd) (p : Path) : e.origin p = d.origin p := by
  rw [origin, origin, h]

/-- Two absolute paths, or two relative ones, begin at the same location. -/
theorem origin_eq_of_isAbsolute {q : Path} (h : q.isAbsolute = p.isAbsolute) :
    d.origin q = d.origin p := by
  rw [origin, origin, h]

/-- **One computation after another** succeeds where both do. -/
theorem bind_eq_ok_iff {ε α β : Type} {x : Except ε α} {next : α → Except ε β} {b : β} :
    x.bind next = .ok b ↔ ∃ a, x = .ok a ∧ next a = .ok b := by
  cases x with
  | error e => simp [Except.bind]
  | ok a => simp [Except.bind]

/-- It fails where the first of the two fails, or else the second. -/
theorem bind_eq_error_iff {ε α β : Type} {x : Except ε α} {next : α → Except ε β} {e : ε} :
    x.bind next = .error e ↔ x = .error e ∨ ∃ a, x = .ok a ∧ next a = .error e := by
  cases x with
  | error e => simp [Except.bind]
  | ok a => simp [Except.bind]

/-- **What one step does**: an idle piece stays, two dots lead to the directory above, and a name
leads to the entry of that name. -/
theorem step_eq_ok_iff {piece : Text} :
    step t l piece = .ok m ↔ t.get? l = some .directory ∧
      ((Path.isIdle piece = true ∧ m = l) ∨
        (Path.isIdle piece = false ∧ piece = ['.', '.'] ∧ m = l.dropLast) ∨
        (Path.isIdle piece = false ∧ piece ≠ ['.', '.'] ∧ piece.byteLength ≤ nameLimit ∧
          m = l ++ [piece] ∧ (t.get? m).isSome)) := by
  constructor
  · intro h
    unfold step at h
    split at h
    · cases h
    · cases h
    · next hdir =>
      refine ⟨hdir, ?_⟩
      split_ifs at h with hidle hdots hlength hentry
      · obtain rfl := Except.ok.inj h
        exact Or.inl ⟨hidle, rfl⟩
      · obtain rfl := Except.ok.inj h
        exact Or.inr (Or.inl ⟨by simpa using hidle, hdots, rfl⟩)
      · obtain rfl := Except.ok.inj h
        exact Or.inr (Or.inr ⟨by simpa using hidle, hdots, Nat.le_of_not_gt hlength, rfl, hentry⟩)
  · rintro ⟨hdir, ⟨hidle, rfl⟩ | ⟨hidle, rfl, rfl⟩ | ⟨hidle, hdots, hlength, rfl, hentry⟩⟩
    · simp [step, hdir, hidle]
    · simp [step, hdir, hidle]
    · simp [step, hdir, hidle, hdots, Nat.not_lt.mpr hlength, hentry]

/-- A step leads to the same location in trees of the same shape. -/
theorem step_congr (h : t.SameShape u) (l : Location) (piece : Text) :
    step t l piece = step u l piece := by
  rw [step, step, h.isSome (l ++ [piece])]
  cases ht : t.get? l with
  | none =>
      have hu : u.get? l = none := by simpa [ht] using h.isSome l
      rw [hu]
  | some entry =>
      cases entry with
      | directory => rw [(h.get?_eq_directory l).mp ht]
      | file c =>
          obtain ⟨c', hu⟩ := h.exists_file ht
          rw [hu]

/-- Steps lead to the same location in trees of the same shape. -/
theorem walk_congr (h : t.SameShape u) (l : Location) (pieces : List Text) :
    walk t l pieces = walk u l pieces := by
  induction pieces generalizing l with
  | nil => rfl
  | cons piece pieces ih =>
      rw [walk, walk, step_congr h]
      cases step u l piece with
      | error fault => rfl
      | ok m => exact ih m

/-- **A path leads to the same location** in trees of the same shape. -/
theorem locate_congr (htree : d.tree.SameShape e.tree) (hcwd : d.cwd = e.cwd) (p : Path) :
    d.locate p = e.locate p := by
  have horigin : d.origin p = e.origin p := origin_congr hcwd p
  have hwalk : walk d.tree = walk e.tree := by
    funext l pieces
    exact walk_congr htree l pieces
  rw [locate, locate, horigin, hwalk]

/-- The working directory is shown alike on disks of the same shape. -/
theorem cwdPath?_congr (htree : d.tree.SameShape e.tree) (hcwd : d.cwd = e.cwd) :
    d.cwdPath? = e.cwdPath? := by
  have hdir : d.tree.isDirectory e.cwd = e.tree.isDirectory e.cwd := by
    rw [Bool.eq_iff_iff, Tree.isDirectory, Tree.isDirectory, beq_iff_eq, beq_iff_eq,
      htree.get?_eq_directory]
  rw [cwdPath?, cwdPath?, hcwd, hdir]

/-- Walking one piece more is one more step. -/
theorem walk_concat (t : Tree) (l : Location) (pieces : List Text) (piece : Text) :
    walk t l (pieces ++ [piece]) = (walk t l pieces).bind fun m => step t m piece := by
  induction pieces generalizing l with
  | nil =>
      rw [List.nil_append, walk, walk, Except.bind]
      cases step t l piece <;> rfl
  | cons first pieces ih =>
      rw [List.cons_append, walk, walk]
      cases step t l first with
      | error fault => rfl
      | ok m => exact ih m

/-! ## Files -/

/-- **A text is read** where the path leads to a file that holds it. -/
theorem readText_eq_ok_iff {s : Text} :
    d.readText p = .ok s ↔ ∃ l, d.locate p = .ok l ∧ d.tree.get? l = some (.file (.text s)) := by
  rw [readText, entry]
  cases d.locate p with
  | error fault => simp [Except.bind]
  | ok l =>
      cases hentry : d.tree.get? l with
      | none => simp [Except.bind, hentry]
      | some entry =>
          cases entry with
          | directory => simp [Except.bind, hentry]
          | file c => cases c <;> simp [Except.bind, hentry, Contents.text?]

/-- **The last step to a file** is by its name, from the directory that it is in. -/
theorem exists_step_of_locate {c : Contents} (hl : d.locate p = .ok l)
    (hfile : d.tree.get? l = some (.file c)) :
    ∃ pieces m name, permit p = .ok () ∧ Text.pieces '/' p.text = pieces ++ [name] ∧
      walk d.tree (d.origin p) pieces = .ok m ∧ d.tree.get? m = some .directory ∧
      Path.isIdle name = false ∧ name ≠ ['.', '.'] ∧ name.byteLength ≤ nameLimit ∧
      l = m ++ [name] := by
  obtain ⟨pieces, name, hpieces⟩ :=
    (List.eq_nil_or_concat _).resolve_left (Text.pieces_ne_nil '/' p.text)
  rw [List.concat_eq_append] at hpieces
  rw [locate, bind_eq_ok_iff] at hl
  obtain ⟨_, hpermit, hwalk⟩ := hl
  rw [hpieces, walk_concat, bind_eq_ok_iff] at hwalk
  obtain ⟨m, hwalk, hstep⟩ := hwalk
  -- Any other last step leads to a directory.
  obtain ⟨hm, ⟨-, rfl⟩ | ⟨-, -, rfl⟩ | ⟨hidle, hdots, hlength, hname, -⟩⟩ := step_eq_ok_iff.mp hstep
  · rw [hm] at hfile
    cases hfile
  · rw [Tree.get?_dropLast (by rw [hm]; rfl)] at hfile
    cases hfile
  · exact ⟨pieces, m, name, hpermit, hpieces, hwalk, hm, hidle, hdots, hlength, hname⟩

/-- **A path that leads to a file can be written to.** The new contents take the place of the
old. -/
theorem write_of_locate {c : Contents} (hl : d.locate p = .ok l)
    (hfile : d.tree.get? l = some (.file c)) (new : Contents) :
    d.write p new = .ok { d with tree := d.tree.insert l (.file new) } := by
  obtain ⟨pieces, m, name, hpermit, hpieces, hwalk, hm, hidle, hdots, hlength, rfl⟩ :=
    exists_step_of_locate hl hfile
  have hname : name ≠ [] := by
    rintro rfl
    cases hidle
  have hsolid : solidPieces p = (pieces ++ [name], false) := by
    simp [solidPieces, hpieces, hname]
  have hplace : d.place p .isDirectory = .ok (m ++ [name]) := by
    simp [place, hpermit, hsolid, Except.bind, hwalk, hm, hidle, hdots, Nat.not_lt.mpr hlength]
  have hnotDir : d.tree.isDirectory (m ++ [name]) = false := by simp [Tree.isDirectory, hfile]
  simp [write, hplace, Except.bind, hsolid, hnotDir]

end Disk

end LocaleWrap
