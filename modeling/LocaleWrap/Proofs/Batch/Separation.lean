import LocaleWrap.Proofs.Batch.Below
import LocaleWrap.Proofs.Tree.Files
import Mathlib.Data.Set.List

/-! # Results apart from their files

A run below a directory reads files of the root and writes their results. Where no file that is read
lies below the directory for results, no result gets in the way of a file, nor of another result.

* **`Disk.Source`** — a file of the root with the way to it; two ways that are the same lead to the
  same text.
* **`Disk.Collected`** — a disk with the results of some sources, and every other file as before.
* `Rules.collected_localizeFiles` — what a run over sources leaves.
* `Rules.localizeFiles_below_apart` — a run keeps what it reads and loses none of its results. -/

namespace LocaleWrap

namespace Disk

open LocaleWrap.Path

variable {rules : Rules} {dir root : Path} {d e f : Disk}

/-! ## Writing below a directory, as the files see it -/

/-- **A text written down from a directory** is the only file that changes. -/
theorem file?_of_writeBelow {names : List Text} {t : Text} (hne : names ≠ [])
    (hnames : ∀ n ∈ names, IsName n)
    (h : d.writeBelow (dir.join (.ofNames names)) t = (e, .ok ())) :
    e.cwd = d.cwd ∧ d.tree.Grows e.tree ∧
      e.locate (dir.join (.ofNames names)) = .ok (dir.resolve d.cwd ++ names) ∧
      ∀ m, e.tree.file? m =
        if m = dir.resolve d.cwd ++ names then some (.text t) else d.tree.file? m := by
  obtain ⟨f, hgrown, ⟨g, hwrite, hresult⟩ | ⟨err, hresult⟩⟩ :=
    exists_of_writeBelow d (dir.join (.ofNames names)) t
  · obtain rfl : e = g := congrArg Prod.fst (h.symm.trans hresult)
    obtain ⟨l, hcwd, hgrows, hlocate, hfile⟩ := file?_of_write hwrite
    have hwhere : l = dir.resolve d.cwd ++ names := by
      rw [locate_eq_resolve hlocate, hcwd, hgrown.cwd, resolve_join_ofNames d.cwd dir hnames hne]
    rw [← hwhere]
    refine ⟨hcwd.trans hgrown.cwd, hgrown.grows.trans hgrows, hlocate, fun m => ?_⟩
    rw [hfile, hgrown.file?]
  · rw [hresult] at h
    cases (Prod.mk.inj h).2

/-! ## Sources -/

/-- **A file of the root**: an absolute path that leads to a text, and the way to it from the
root. -/
structure Source (d : Disk) (root : Path) where
  path : Path
  /-- What the file holds. -/
  text : Text
  /-- The names that lead from the root to the file. -/
  way : List Text
  isAbsolute : path.isAbsolute = true
  readText : d.readText path = .ok text
  way_ne_nil : way ≠ []
  components : path.components = root.components ++ way.map .normal

namespace Source

variable {x y : d.Source root}

/-- Where the result of a file goes. -/
def destination (x : d.Source root) (dir : Path) : Path := dir.join (.ofNames x.way)

/-- The location where the result of a file goes. -/
def place (x : d.Source root) (dir : Path) : Location := dir.resolve d.cwd ++ x.way

/-- The path of a source is spelled below an absolute root, along its way. -/
theorem spelledBelow (x : d.Source root) (hroot : root.isAbsolute = true) (cwd : Option Path) :
    SpelledBelow cwd root x.path x.way :=
  ⟨root, x.path, if_pos hroot, if_pos x.isAbsolute, x.components⟩

/-- The way to a source consists of names. -/
theorem isName (x : d.Source root) : ∀ n ∈ x.way, IsName n := by
  intro n hn
  refine isName_of_mem_components (p := x.path) ?_
  rw [x.components]
  exact List.mem_append_right _ (List.mem_map_of_mem hn)

/-- The path of a source leads to its text, at the location that the path spells. -/
theorem file?_resolve (x : d.Source root) :
    d.locate x.path = .ok (x.path.resolve d.cwd) ∧
      d.tree.file? (x.path.resolve d.cwd) = some (.text x.text) := by
  obtain ⟨l, hl, hfile⟩ := readText_eq_ok_iff_file?.mp x.readText
  obtain rfl := locate_eq_resolve hl
  exact ⟨hl, hfile⟩

/-- **The way to a file tells the file**, and so its text. -/
theorem text_eq_of_way (h : x.way = y.way) : x.text = y.text := by
  have hresolve : x.path.resolve d.cwd = y.path.resolve d.cwd := by
    rw [resolve, resolve, x.components, y.components, h]
  have hx := x.file?_resolve.2
  rw [hresolve, y.file?_resolve.2] at hx
  simpa using hx.symm

/-- Files that are asked for one by one are sources together. -/
theorem exists_map_path {ps : List Path} (h : ∀ p ∈ ps, ∃ x : d.Source root, x.path = p) :
    ∃ sources : List (d.Source root), sources.map path = ps := by
  have hrange : ps ∈ Set.range (List.map (path : d.Source root → Path)) := by
    rw [Set.range_list_map]
    exact h
  exact hrange

end Source

/-! ## Results -/

/-- **A disk with the results of some files**, each where the way to its file leads from the
directory for results. Every other file is as before. -/
structure Collected (rules : Rules) (dir : Path) (d : Disk) (done : List (d.Source root))
    (e : Disk) : Prop where
  cwd : e.cwd = d.cwd
  grows : d.tree.Grows e.tree
  locate : ∀ x ∈ done, e.locate (x.destination dir) = .ok (x.place dir)
  result : ∀ x ∈ done, e.tree.file? (x.place dir) = some (.text (rules.localize x.text).text)
  other : ∀ l, (∀ x ∈ done, l ≠ x.place dir) → e.tree.file? l = d.tree.file? l

namespace Collected

variable {done : List (d.Source root)}

/-- Before the first source the disk itself holds all results. -/
theorem nil (rules : Rules) (dir root : Path) (d : Disk) :
    Collected rules dir d ([] : List (d.Source root)) d :=
  ⟨rfl, .refl d.tree, by simp, by simp, fun _ _ => rfl⟩

/-- **A path that leads to no result** is read as before. -/
theorem readText (h : Collected rules dir d done e) {p : Path} {s : Text}
    (hread : d.readText p = .ok s)
    (hout : ∀ names, names ≠ [] → d.locate p ≠ .ok (dir.resolve d.cwd ++ names)) :
    e.readText p = .ok s := by
  obtain ⟨l, hl, hfile⟩ := readText_eq_ok_iff_file?.mp hread
  refine readText_eq_ok_iff_file?.mpr ⟨l, locate_mono h.grows h.cwd hl, ?_⟩
  rw [h.other l fun x _ heq => hout x.way x.way_ne_nil (hl.trans (congrArg Except.ok heq)), hfile]

/-- **One more result** leaves the others as they are: only the result of the same file goes to the
same place. -/
theorem concat (h : Collected rules dir d done e) (x : d.Source root)
    (hwrite : e.writeBelow (x.destination dir) (rules.localize x.text).text = (f, .ok ())) :
    Collected rules dir d (done ++ [x]) f := by
  obtain ⟨hcwd, hgrows, hlocate, hfile⟩ := file?_of_writeBelow x.way_ne_nil x.isName hwrite
  have hplace : x.place dir = dir.resolve d.cwd ++ x.way := rfl
  rw [h.cwd, ← hplace] at hlocate
  simp only [h.cwd, ← hplace] at hfile
  refine ⟨hcwd.trans h.cwd, h.grows.trans hgrows, fun y hy => ?_, fun y hy => ?_,
    fun l hl => ?_⟩
  · rcases List.mem_append.mp hy with hy | hy
    · exact locate_mono hgrows hcwd (h.locate y hy)
    · obtain rfl := List.mem_singleton.mp hy
      exact hlocate
  · rw [hfile]
    by_cases hsame : y.place dir = x.place dir
    · rw [if_pos hsame, Source.text_eq_of_way (List.append_cancel_left hsame)]
    · rw [if_neg hsame]
      refine h.result y ((List.mem_append.mp hy).resolve_right fun hx => hsame ?_)
      rw [List.mem_singleton.mp hx]
  · rw [hfile, if_neg (hl x (List.mem_append_right _ (List.mem_singleton_self x)))]
    exact h.other l fun y hy => hl y (List.mem_append_left _ hy)

end Collected

end Disk

namespace Rules

open Disk LocaleWrap.Path

variable {rules : Rules} {dir root : Path} {d e : Disk}

/-! ## Runs -/

/-- **A turn over a source** writes its result to its destination, and reports that it has. -/
theorem localizeFile_source (hroot : root.isAbsolute = true) (hdir : dir.isAbsolute = true)
    (x : d.Source root) (hread : e.readText x.path = .ok x.text) {report : FileReport}
    (h : (rules.localizeFile (.below dir) root x.path e).outcome = .ok report) :
    e.writeBelow (x.destination dir) (rules.localize x.text).text =
        ((rules.localizeFile (.below dir) root x.path e).disk, .ok ()) ∧
      report =
        (rules.localize x.text).report d.cwdPath? root x.path (some (x.destination dir)) := by
  have hbelow := (shownFrom_of_spelledBelow (x.spelledBelow hroot e.cwdPath?) x.way_ne_nil).2
  rw [localizeFile_below rules dir root hread, hbelow] at h ⊢
  rw [Source.destination]
  rcases hwrite : e.writeBelow (dir.join (.ofNames x.way)) (rules.localize x.text).text with
    ⟨f, err | ⟨⟩⟩
  · rw [hwrite] at h
    cases h
  · rw [hwrite] at h
    refine ⟨rfl, (Except.ok.inj h).symm.trans ?_⟩
    have hdest := isAbsolute_join hdir (.ofNames x.way)
    simp only [Localized.report, Option.map_some,
      shownFrom_of_isAbsolute hroot x.isAbsolute f.cwdPath? d.cwdPath?,
      shownFrom_of_isAbsolute hroot hdest f.cwdPath? d.cwdPath?]

/-- **A run over sources** that is not stopped leaves their results, and reports on each of them. -/
theorem collected_localizeFiles (hroot : root.isAbsolute = true) (hdir : dir.isAbsolute = true)
    {done sources : List (d.Source root)} (he : Collected rules dir d done e)
    (hout : ∀ x ∈ sources, ∀ names, names ≠ [] →
      d.locate x.path ≠ .ok (dir.resolve d.cwd ++ names))
    (h : (rules.localizeFiles (.below dir) root (sources.map Source.path) e).stopped = none) :
    Collected rules dir d (done ++ sources)
        (rules.localizeFiles (.below dir) root (sources.map Source.path) e).disk ∧
      (rules.localizeFiles (.below dir) root (sources.map Source.path) e).reports =
        sources.map fun x =>
          (rules.localize x.text).report d.cwdPath? root x.path (some (x.destination dir)) := by
  -- No result has gone where a source lies, so each turn reads what stood there at the start.
  induction sources generalizing done e with
  | nil => exact ⟨by simpa using he, rfl⟩
  | cons x sources ih =>
      have hread := he.readText x.readText (hout x List.mem_cons_self)
      rw [List.map_cons, localizeFiles] at h ⊢
      cases houtcome : (rules.localizeFile (.below dir) root x.path e).outcome with
      | error err => simp [houtcome] at h
      | ok report =>
          rw [houtcome] at h
          obtain ⟨hwrite, hreport⟩ := localizeFile_source hroot hdir x hread houtcome
          obtain ⟨hdisk, hreports⟩ := ih (he.concat x hwrite)
            (fun y hy => hout y (List.mem_cons_of_mem x hy)) h
          rw [List.append_assoc, List.singleton_append] at hdisk
          refine ⟨hdisk, ?_⟩
          rw [List.map_cons, ← hreport]
          exact congrArg (report :: ·) hreports

/-- A direct path that is not spelled below a direct directory does not lead below it. -/
theorem locate_ne_of_isDirect {p : Path} (hp : p.IsDirect) (hdir : dir.IsDirect)
    (hout : ∀ way : List Text, way ≠ [] → p.components ≠ dir.components ++ way.map .normal)
    (names : List Text) (hne : names ≠ []) : d.locate p ≠ .ok (dir.resolve d.cwd ++ names) := by
  intro hl
  refine hout names hne ?_
  rw [hp.components_eq d.cwd, ← locate_eq_resolve hl, List.map_append, ← List.cons_append,
    ← hdir.components_eq d.cwd]

/-- **A run below a directory keeps what it reads and loses none of its results.** Let the root be
absolute and the directory a direct path, and let each target be a direct path below the root to a
text, and not below the directory. If the run is not stopped, it has reported on each target in
turn, and the localized text of each is found at the end of its way from the directory. Each file
that is none of these results is as it was before; in particular the targets are. -/
theorem localizeFiles_below_apart (rules : Rules) (dir root : Path) (targets : List Path) (d : Disk)
    (hroot : root.isAbsolute = true) (hdir : dir.IsDirect)
    (htargets : ∀ p ∈ targets, p.IsDirect ∧ (∃ s, d.readText p = .ok s) ∧
      (∃ way : List Text, way ≠ [] ∧ p.components = root.components ++ way.map .normal) ∧
      ∀ way : List Text, way ≠ [] → p.components ≠ dir.components ++ way.map .normal)
    (h : (rules.localizeFiles (.below dir) root targets d).stopped = none) :
    ∃ run, rules.localizeFiles (.below dir) root targets d = run ∧
      run.reports.length = targets.length ∧
      (∀ (i : Nat) (p : Path) (s : Text) (way : List Text), targets[i]? = some p →
        d.readText p = .ok s → p.components = root.components ++ way.map .normal →
        (∃ report, run.reports[i]? = some report ∧
          report = (rules.localize s).report d.cwdPath? root p (some (dir.join (.ofNames way))) ∧
          report.file = .ofNames way ∧ report.wrote = true) ∧
        run.disk.readText (dir.join (.ofNames way)) = .ok (rules.localize s).text ∧
        run.disk.readText p = .ok s) ∧
      ∀ l, (∀ p ∈ targets, ∀ way : List Text, p.components = root.components ++ way.map .normal →
          run.disk.locate (dir.join (.ofNames way)) ≠ .ok l) →
        run.disk.tree.file? l = d.tree.file? l := by
  have hout : ∀ p ∈ targets, ∀ names, names ≠ [] →
      d.locate p ≠ .ok (dir.resolve d.cwd ++ names) := fun p hp =>
    locate_ne_of_isDirect (htargets p hp).1 hdir (htargets p hp).2.2.2
  obtain ⟨sources, rfl⟩ : ∃ sources : List (d.Source root), sources.map Source.path = targets := by
    refine Source.exists_map_path fun p hp => ?_
    obtain ⟨hp, ⟨s, hs⟩, ⟨way, hne, hway⟩, -⟩ := htargets p hp
    exact ⟨⟨p, s, way, hp.1, hs, hne, hway⟩, rfl⟩
  obtain ⟨hdisk, hreports⟩ := collected_localizeFiles hroot hdir.1 (.nil rules dir root d)
    (fun x hx => hout x.path (List.mem_map_of_mem hx)) h
  rw [List.nil_append] at hdisk
  generalize rules.localizeFiles (.below dir) root (sources.map Source.path) d = run at *
  refine ⟨run, rfl, by rw [hreports, List.length_map, List.length_map], ?_, ?_⟩
  · intro i p s way hp hs hway
    obtain ⟨x, hx, rfl⟩ : ∃ x, sources[i]? = some x ∧ x.path = p := by simpa using hp
    have hmem := List.mem_of_getElem? hx
    obtain rfl : x.text = s := Except.ok.inj (x.readText.symm.trans hs)
    obtain rfl : x.way = way :=
      (x.spelledBelow hroot none).unique
        ⟨root, x.path, if_pos hroot, if_pos x.isAbsolute, hway⟩
    refine ⟨⟨_, ?_, rfl, ?_, rfl⟩, ?_, ?_⟩
    · rw [hreports, List.getElem?_map, hx]
      rfl
    · exact (shownFrom_of_spelledBelow (x.spelledBelow hroot _) x.way_ne_nil).1
    · exact readText_eq_ok_iff_file?.mpr ⟨_, hdisk.locate x hmem, hdisk.result x hmem⟩
    · exact hdisk.readText hs (hout x.path (List.mem_map_of_mem hmem))
  · intro l hl
    refine hdisk.other l fun x hx heq => ?_
    refine hl x.path (List.mem_map_of_mem hx) x.way x.components ?_
    rw [heq]
    exact hdisk.locate x hx

/-- A repository with a directory for results in it. -/
def nestedDisk : Disk :=
  ⟨{ entries := [
      (["repo".toList], .directory), (["repo".toList, "d".toList], .directory),
      (["repo".toList, "out".toList], .directory),
      (["repo".toList, "a.ts".toList], .file (.text "  name: 'x',\r\n".toList)),
      (["repo".toList, "d".toList, "b.ts".toList], .file (.text "plain\n".toList)),
      (["repo".toList, "out".toList, "a.ts".toList], .file .noText)] },
    ["repo".toList]⟩

/-- The result of a file with nothing to localize is written too, twice if it is asked for under two
spellings, and both files are kept. -/
theorem localizeFiles_below_apart_nested :
    (standard.localizeFiles (.below (.ofString "/repo/out")) (.ofString "/repo/")
      (["/repo/a.ts", "/repo/d/b.ts", "//repo/./d/b.ts"].map Path.ofString)
      nestedDisk).stopped = none ∧
    ∃ run, standard.localizeFiles (.below (.ofString "/repo/out")) (.ofString "/repo/")
        (["/repo/a.ts", "/repo/d/b.ts", "//repo/./d/b.ts"].map Path.ofString) nestedDisk = run ∧
      run.reports.length = 3 ∧
      (∃ report, run.reports[2]? = some report ∧
        report.file = .ofNames ["d".toList, "b.ts".toList] ∧ report.wrote = true) ∧
      run.disk.readText ((Path.ofString "/repo/out").join (.ofNames ["a.ts".toList])) =
        .ok (standard.localize "  name: 'x',\r\n".toList).text ∧
      run.disk.readText ((Path.ofString "/repo/out").join (.ofNames ["d".toList, "b.ts".toList])) =
        .ok (standard.localize "plain\n".toList).text ∧
      run.disk.readText (.ofString "/repo/a.ts") = .ok "  name: 'x',\r\n".toList := by
  have hstopped : (standard.localizeFiles (.below (.ofString "/repo/out")) (.ofString "/repo/")
      (["/repo/a.ts", "/repo/d/b.ts", "//repo/./d/b.ts"].map Path.ofString)
      nestedDisk).stopped = none := by decide +kernel
  have ha : nestedDisk.readText (.ofString "/repo/a.ts") = .ok "  name: 'x',\r\n".toList := by
    decide
  have hb : nestedDisk.readText (.ofString "/repo/d/b.ts") = .ok "plain\n".toList := by decide
  have hb' : nestedDisk.readText (.ofString "//repo/./d/b.ts") = .ok "plain\n".toList := by decide
  have hapart : ∀ (p : Path) (c : Component) (cs : List Component), c ≠ .normal "out".toList →
      p.components = (Path.ofString "/repo").components ++ c :: cs → ∀ way : List Text, way ≠ [] →
      p.components ≠ (Path.ofString "/repo/out").components ++ way.map .normal := by
    intro p c cs hc hp way _ hway
    have hout : (Path.ofString "/repo/out").components =
        (Path.ofString "/repo").components ++ [.normal "out".toList] := by decide
    rw [hp, hout, List.append_assoc] at hway
    exact hc (List.cons.inj (List.append_cancel_left hway)).1
  obtain ⟨_, rfl, hlength, hresults, -⟩ := localizeFiles_below_apart standard
    (.ofString "/repo/out") (.ofString "/repo/")
    (["/repo/a.ts", "/repo/d/b.ts", "//repo/./d/b.ts"].map Path.ofString) nestedDisk
    (by decide) (by decide)
    (by
      simp only [List.map_cons, List.map_nil, List.forall_mem_cons, List.not_mem_nil]
      refine ⟨⟨by decide, ⟨_, ha⟩, ⟨["a.ts".toList], by decide, by decide⟩, ?_⟩,
        ⟨by decide, ⟨_, hb⟩, ⟨["d".toList, "b.ts".toList], by decide, by decide⟩, ?_⟩,
        ⟨by decide, ⟨_, hb'⟩, ⟨["d".toList, "b.ts".toList], by decide, by decide⟩, ?_⟩, by simp⟩
      · exact hapart _ (.normal "a.ts".toList) [] (by decide) (by decide)
      · exact hapart _ (.normal "d".toList) [.normal "b.ts".toList] (by decide) (by decide)
      · exact hapart _ (.normal "d".toList) [.normal "b.ts".toList] (by decide) (by decide))
    hstopped
  obtain ⟨-, hresultA, hkeptA⟩ := hresults 0 _ _ ["a.ts".toList] rfl ha (by decide)
  obtain ⟨⟨report, hreport, -, hfile, hwrote⟩, hresultB, -⟩ :=
    hresults 2 _ _ ["d".toList, "b.ts".toList] rfl hb' (by decide)
  exact ⟨hstopped, _, rfl, hlength, ⟨report, hreport, hfile, hwrote⟩, hresultA, hresultB, hkeptA⟩

end Rules

end LocaleWrap
