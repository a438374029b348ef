import LocaleWrap.Proofs.Path.Order
import LocaleWrap.Proofs.Targets.Configured

/-! # The files of a run, one block after the other

The files of a run are collected request by request. A path stands for itself, a pattern for the
files among its matches in the order of paths. Which of the two it is, is seen from the text that
was given, and not from what becomes of it behind the root.

* **`Target.entries`** — what was given, with the paths that come of it.
* **`Target.IsBlock`** — the files that an entry adds; **`Target.Readable`** — an entry with files.
* `Target.collect_blocks` — the files of a run, and the two ways to get none.
* `Target.collect_plain_below_brackets` — a path that has wildcards only from the root. -/

namespace LocaleWrap

namespace Target

open LocaleWrap.Path LocaleWrap.Disk LocaleWrap.Glob

variable {d : Disk} {gs : List (Text × Path)}

/-! ## Entries and their blocks -/

/-- **The entries of a run**: each text that was given, and the path or pattern that it is taken
for. Configured patterns are taken from the root, and only where no path is given. -/
def entries (root : Path) (paths patterns : List Text) : List (Text × Path) :=
  if paths = [] then patterns.map fun t => (t, root.join ⟨t⟩) else paths.map fun t => (t, ⟨t⟩)

/-- **The files that an entry adds.** Without wildcards in the given text, this is the path as it
is; otherwise all files among the matches of the pattern, in ascending order. -/
def IsBlock (d : Disk) (given : Text) (path : Path) (block : List Path) : Prop :=
  if isPattern given = true then
    ∃ pattern, Pattern.parse path.text = .ok pattern ∧
      block.Perm ((expand d pattern).filter d.isFile) ∧ Ascending block
  else block = [path]

/-- **An entry that can be read**: a pattern, if it is one, in which nothing is wrong. -/
def Readable (given : Text) (path : Path) : Prop :=
  isPattern given = true → ∃ pattern, Pattern.parse path.text = .ok pattern

instance (given : Text) (path : Path) : Decidable (Readable given path) :=
  decidable_of_iff (isPattern given = true → (Pattern.parse path.text).toBool = true) <|
    imp_congr_right fun _ => by cases Pattern.parse path.text <;> simp [Except.toBool]

/-- The request of an entry. -/
def request (given : Text) (path : Path) : Request := ⟨path, isPattern given⟩

/-- The requests are those of the entries, one by one. -/
theorem requests_eq_map (root : Path) (paths patterns : List Text) :
    requests root paths patterns = (entries root paths patterns).map fun g => request g.1 g.2 := by
  unfold requests entries
  cases paths <;> simp [request]

/-- **An entry that can be read** adds a block of files. -/
theorem exists_block {given : Text} {path : Path} (h : Readable given path) :
    ∃ block, (request given path).files d = .ok block ∧ IsBlock d given path block := by
  unfold Request.files IsBlock request
  by_cases hpattern : isPattern given = true
  · obtain ⟨pattern, hparse⟩ := h hpattern
    refine ⟨files d pattern, ?_, ?_⟩
    · rw [if_pos hpattern, hparse]
    · rw [if_pos hpattern]
      exact ⟨pattern, hparse, List.mergeSort_perm _ _, ascending_mergeSort _⟩
  · exact ⟨[path], by rw [if_neg hpattern], by rw [if_neg hpattern]⟩

/-- **An entry that cannot be read** is a pattern, which the error names as it was read. -/
theorem exists_fault {given : Text} {path : Path} (h : ¬ Readable given path) :
    ∃ fault, isPattern given = true ∧ Pattern.parse path.text = .error fault ∧
      (request given path).files d = .error (.glob path.text fault) := by
  obtain ⟨hpattern, hparse⟩ := Classical.not_imp.mp h
  cases hread : Pattern.parse path.text with
  | ok pattern => exact absurd ⟨pattern, hread⟩ hparse
  | error fault =>
      refine ⟨fault, hpattern, rfl, ?_⟩
      unfold Request.files request
      rw [if_pos hpattern, hread]

/-! ## Collecting -/

/-- **If all entries can be read**, their blocks are collected in their order. -/
theorem collectAll_of_readable (h : ∀ g ∈ gs, Readable g.1 g.2) :
    ∃ blocks, List.Forall₂ (fun g block => IsBlock d g.1 g.2 block) gs blocks ∧
      collectAll d (gs.map fun g => request g.1 g.2) = .ok blocks.flatten := by
  induction gs with
  | nil => exact ⟨[], .nil, rfl⟩
  | cons g gs ih =>
      obtain ⟨hfirst, hrest⟩ := List.forall_mem_cons.mp h
      obtain ⟨block, hfiles, hblock⟩ := exists_block (d := d) hfirst
      obtain ⟨blocks, hblocks, hall⟩ := ih hrest
      refine ⟨block :: blocks, .cons hblock hblocks, ?_⟩
      rw [List.map_cons, collectAll, hfiles, hall]
      rfl

/-- **Collecting stops** at the first entry that cannot be read. -/
theorem collectAll_of_unreadable
    {before after : List (Text × Path)} {g : Text × Path} {fault : Error}
    (hbefore : ∀ g ∈ before, Readable g.1 g.2)
    (hfault : (request g.1 g.2).files d = .error fault) :
    collectAll d ((before ++ g :: after).map fun g => request g.1 g.2) = .error fault := by
  induction before with
  | nil =>
      rw [List.nil_append, List.map_cons, collectAll, hfault]
      rfl
  | cons g before ih =>
      -- The block of an entry in front is found, and lost with the error behind it.
      obtain ⟨hfirst, hrest⟩ := List.forall_mem_cons.mp hbefore
      obtain ⟨block, hfiles, -⟩ := exists_block (d := d) hfirst
      rw [List.cons_append, List.map_cons, collectAll, hfiles, Except.bind, ih hrest]
      rfl

/-- If not all entries can be read, there is a first one that cannot. -/
theorem exists_first_unreadable (h : ¬ ∀ g ∈ gs, Readable g.1 g.2) :
    ∃ before g after, gs = before ++ g :: after ∧ (∀ g ∈ before, Readable g.1 g.2) ∧
      ¬ Readable g.1 g.2 := by
  induction gs with
  | nil => exact absurd nofun h
  | cons g gs ih =>
      by_cases hfirst : Readable g.1 g.2
      · have hrest : ¬ ∀ g ∈ gs, Readable g.1 g.2 := fun hrest =>
          h (List.forall_mem_cons.mpr ⟨hfirst, hrest⟩)
        obtain ⟨before, g', after, rfl, hbefore, hg'⟩ := ih hrest
        exact ⟨g :: before, g', after, rfl, List.forall_mem_cons.mpr ⟨hfirst, hbefore⟩, hg'⟩
      · exact ⟨[], g, gs, rfl, nofun, hfirst⟩

/-- **The files of a run**, for whatever was given. If every pattern among the entries can be read,
the files are those of one entry after the other, and there are none just when all blocks are empty.
If not, the error is that of the first pattern that cannot be read, with the pattern as it was
read. -/
theorem collect_blocks (d : Disk) (root : Path) (paths patterns : List Text) :
    ((∀ g ∈ entries root paths patterns, Readable g.1 g.2) →
      ∃ blocks, List.Forall₂ (fun g block => IsBlock d g.1 g.2 block) (entries root paths patterns)
          blocks ∧
        (collect d root paths patterns = .error .noInputs ↔ ∀ block ∈ blocks, block = []) ∧
        ((∃ block ∈ blocks, block ≠ []) → collect d root paths patterns = .ok blocks.flatten)) ∧
    ((¬ ∀ g ∈ entries root paths patterns, Readable g.1 g.2) →
      ∃ before given path after fault,
        entries root paths patterns = before ++ (given, path) :: after ∧
        (∀ g ∈ before, Readable g.1 g.2) ∧ isPattern given = true ∧
        Pattern.parse path.text = .error fault ∧
        collect d root paths patterns = .error (.glob path.text fault)) := by
  constructor
  · intro hreadable
    obtain ⟨blocks, hblocks, hall⟩ := collectAll_of_readable (d := d) hreadable
    have hcollect : collect d root paths patterns =
        if blocks.flatten.isEmpty then .error .noInputs else .ok blocks.flatten := by
      rw [collect, requests_eq_map, hall]
      rfl
    have hempty : blocks.flatten.isEmpty = true ↔ ∀ block ∈ blocks, block = [] := by
      rw [List.isEmpty_iff, List.flatten_eq_nil_iff]
    refine ⟨blocks, hblocks, ?_, fun hsome => ?_⟩
    · rw [hcollect, ← hempty]
      cases blocks.flatten.isEmpty <;> simp
    · obtain ⟨block, hmem, hne⟩ := hsome
      have hfull : ¬ blocks.flatten.isEmpty = true := fun h => hne (hempty.mp h block hmem)
      rw [hcollect, if_neg hfull]
  · intro hunreadable
    obtain ⟨before, ⟨given, path⟩, after, hsplit, hbefore, hg⟩ :=
      exists_first_unreadable hunreadable
    obtain ⟨fault, hpattern, hparse, hfault⟩ := exists_fault (d := d) hg
    refine ⟨before, given, path, after, fault, hsplit, hbefore, hpattern, hparse, ?_⟩
    rw [collect, requests_eq_map, hsplit, collectAll_of_unreadable hbefore hfault]
    rfl

/-- The blocks stand in the order of the entries. A pattern that cannot be read is met behind a path
that stands for no file. -/
theorem collect_blocks_mixed :
    let given := ["w*/*.ts".toList, "gone.ts".toList, "*.ts".toList, "x?".toList]
    let broken := ["gone.ts".toList, "[".toList, "***".toList]
    (∀ g ∈ entries (.ofString "web") given [], Readable g.1 g.2) ∧
    (∃ blocks, List.Forall₂ (fun g block => IsBlock webDisk g.1 g.2 block)
        (entries (.ofString "web") given []) blocks ∧
      blocks.flatten = [.ofString "web/b.ts", .ofString "gone.ts", .ofString "c.ts"]) ∧
    (¬ ∀ g ∈ entries (.ofString "web") [] broken, Readable g.1 g.2) ∧
    ∃ path : Path, ∃ fault, Pattern.parse path.text = .error fault ∧
      collect webDisk (.ofString "web") [] broken = .error (.glob path.text fault) := by
  intro given broken
  have hreadable : ∀ g ∈ entries (.ofString "web") given [], Readable g.1 g.2 := by
    decide +kernel
  have hcollect : collect webDisk (.ofString "web") given []
      = .ok [.ofString "web/b.ts", .ofString "gone.ts", .ofString "c.ts"] := by
    decide +kernel
  have hunreadable : ¬ ∀ g ∈ entries (.ofString "web") [] broken, Readable g.1 g.2 := by
    decide +kernel
  refine ⟨hreadable, ?_, hunreadable, ?_⟩
  · -- As there are files, not all of the blocks are empty.
    obtain ⟨blocks, hblocks, hnone, hall⟩ :=
      (collect_blocks webDisk (.ofString "web") given []).1 hreadable
    have hsome : ∃ block ∈ blocks, block ≠ [] := by
      by_contra hempty
      push Not at hempty
      rw [hnone.mpr hempty] at hcollect
      cases hcollect
    exact ⟨blocks, hblocks, Except.ok.inj ((hall hsome).symm.trans hcollect)⟩
  · obtain ⟨-, -, path, -, fault, -, -, -, hparse, hcollect⟩ :=
      (collect_blocks webDisk (.ofString "web") [] broken).2 hunreadable
    exact ⟨path, fault, hparse, hcollect⟩

/-- **A path below a root with wildcards** is no pattern, though it has the wildcards of the root:
it is collected as it is. Taken for a pattern it would stand for a file elsewhere. -/
theorem collect_plain_below_brackets :
    entries (.ofString "[ab]") [] ["x.ts".toList] = [("x.ts".toList, .ofString "[ab]/x.ts")] ∧
    collect bracketDisk (.ofString "[ab]") [] ["x.ts".toList] = .ok [.ofString "[ab]/x.ts"] ∧
    ¬ ∃ blocks, List.Forall₂ (fun g block => IsBlock bracketDisk g.2.text g.2 block)
        (entries (.ofString "[ab]") [] ["x.ts".toList]) blocks ∧
      collect bracketDisk (.ofString "[ab]") [] ["x.ts".toList] = .ok blocks.flatten := by
  have hentries : entries (.ofString "[ab]") [] ["x.ts".toList]
      = [("x.ts".toList, .ofString "[ab]/x.ts")] := by
    decide +kernel
  have hcollect : collect bracketDisk (.ofString "[ab]") [] ["x.ts".toList]
      = .ok [.ofString "[ab]/x.ts"] := by
    decide +kernel
  refine ⟨hentries, hcollect, ?_⟩
  rintro ⟨blocks, hblocks, hflatten⟩
  rw [hentries] at hblocks
  obtain ⟨block, -, hblock, ⟨⟩, rfl⟩ := List.forall₂_cons_left_iff.mp hblocks
  rw [hcollect, List.flatten_cons, List.flatten_nil, List.append_nil] at hflatten
  rw [← Except.ok.inj hflatten, IsBlock, if_pos (by decide)] at hblock
  obtain ⟨pattern, hparse, hperm, -⟩ := hblock
  -- The pattern stands for one file, which is another one.
  have hfiles : (Pattern.parse (Path.ofString "[ab]/x.ts").text).map
      (fun pattern => (expand bracketDisk pattern).filter bracketDisk.isFile)
        = .ok [.ofString "a/x.ts"] := by
    decide +kernel
  rw [hparse] at hfiles
  have hother : (expand bracketDisk pattern).filter bracketDisk.isFile = [.ofString "a/x.ts"] :=
    Except.ok.inj hfiles
  rw [hother, List.perm_singleton] at hperm
  revert hperm
  decide

end Target

end LocaleWrap
