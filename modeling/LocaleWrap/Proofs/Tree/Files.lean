import LocaleWrap.Proofs.Tree.Growth

/-! # The files of a tree

What a run does to files is told by the view of a tree that leaves its directories out.

* **`Tree.file?`** — what the file at a location holds.
* `Disk.Grown.file?` — adding directories leaves all files as they are.
* `Disk.file?_of_write` — writing a file changes this one file. -/

namespace LocaleWrap

namespace Tree

variable {t u : Tree} {l : Location} {c : Contents}

/-- **What the file at a location holds**, if a file stands there. -/
def file? (t : Tree) (l : Location) : Option Contents :=
  match t.get? l with
  | some (.file c) => some c
  | _ => none

/-- The file at a location is the entry there, if it is a file. -/
theorem file?_eq_some_iff : t.file? l = some c ↔ t.get? l = some (.file c) := by
  unfold file?
  split <;> simp_all

/-- Locations with the same entry have the same file. -/
theorem file?_congr (h : t.get? l = u.get? l) : t.file? l = u.file? l := by
  rw [file?, file?, h]

/-- No file stands where nothing or a directory stands. -/
theorem file?_eq_none (h : ∀ entry, t.get? l = some entry → entry = .directory) :
    t.file? l = none := by
  rw [Option.eq_none_iff_forall_ne_some]
  intro c hc
  cases h _ (file?_eq_some_iff.mp hc)

end Tree

namespace Disk

variable {d e : Disk} {p : Path} {l : Location} {c : Contents}

/-- **Directories that are added** leave all files as they are. -/
theorem Grown.file? {A : Path → Prop} (h : d.Grown A e) (l : Location) :
    e.tree.file? l = d.tree.file? l := by
  cases hl : d.tree.get? l with
  | some entry => exact Tree.file?_congr ((h.kept l entry hl).trans hl.symm)
  | none =>
      have hnone : d.tree.file? l = none := Tree.file?_eq_none (by simp [hl])
      rw [hnone]
      refine Tree.file?_eq_none fun entry hentry => ?_
      have hdir := (h.made l hl (by rw [hentry]; rfl)).1
      rw [hentry] at hdir
      exact Option.some.inj hdir

/-- **A file that is written** holds what was written, and all others hold what they held. -/
theorem file?_of_write (h : d.write p c = .ok e) :
    ∃ l, e.cwd = d.cwd ∧ d.tree.Grows e.tree ∧ e.locate p = .ok l ∧
      ∀ m, e.tree.file? m = if m = l then some c else d.tree.file? m := by
  obtain ⟨l, hcwd, hgrows, hlocate, -, hfile, hother⟩ := exists_of_write h
  refine ⟨l, hcwd, hgrows, hlocate, fun m => ?_⟩
  by_cases hm : m = l
  · rw [if_pos hm, hm]
    exact Tree.file?_eq_some_iff.mpr hfile
  · rw [if_neg hm]
    exact Tree.file?_congr (hother m hm)

/-- **A text is read** where the path leads to a file that holds it. -/
theorem readText_eq_ok_iff_file? {s : Text} :
    d.readText p = .ok s ↔ ∃ l, d.locate p = .ok l ∧ d.tree.file? l = some (.text s) := by
  simp only [readText_eq_ok_iff, Tree.file?_eq_some_iff]

end Disk

end LocaleWrap
