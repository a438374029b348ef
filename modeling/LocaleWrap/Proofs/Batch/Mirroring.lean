import LocaleWrap.Proofs.Batch.Below
import LocaleWrap.Proofs.Tree.Spelling

/-! # Results that mirror a repository

A result mirrors its file as long as the file's path is spelled below the root. A path that leads to
a file below the root need not be: steps up are never resolved, so a root or a path with such steps
can hide where the file lies.

* **`Disk.Mirrored`** — a disk that holds the results of some files where these lie below the root.
* `Rules.localizeFiles_below_mirrors` — a run over files spelled below the root mirrors each of
  them.
* `Rules.localizeFiles_below_twins_collide` — a run over other files of the root need not. -/

namespace LocaleWrap

namespace Disk

open LocaleWrap.Path Text

variable {d e : Disk} {root p : Path} {r way : Location}

/-! ## Several results -/

/-- **A disk with the results of some files** below the directory `dir`, each where its file lies
below the root; whatever stood elsewhere stands as it was. -/
structure Mirrored (rules : Rules) (dir root : Path) (d : Disk) (done : List Path) (e : Disk) :
    Prop where
  cwd : e.cwd = d.cwd
  grows : d.tree.Grows e.tree
  kept : ∀ l entry, d.tree.get? l = some entry →
    (∀ names, names ≠ [] → l ≠ dir.resolve d.cwd ++ names) → e.tree.get? l = some entry
  results : ∀ p ∈ done, ∃ s way, d.readText p = .ok s ∧ SpelledBelow d.cwdPath? root p way ∧
    way ≠ [] ∧ e.readText (dir.join (.ofNames way)) = .ok (rules.localize s).text

namespace Mirrored

variable {rules : Rules} {dir : Path} {done : List Path} {s : Text}

/-- Before the first file the disk itself holds all results. -/
theorem nil (rules : Rules) (dir root : Path) (d : Disk) : d.Mirrored rules dir root [] d :=
  ⟨rfl, .refl d.tree, fun _ _ h _ => h, by simp⟩

/-- **A file that lies elsewhere** is read as before. -/
theorem readText (h : d.Mirrored rules dir root done e) (hread : d.readText p = .ok s)
    (hout : ∀ names, names ≠ [] → d.locate p ≠ .ok (dir.resolve d.cwd ++ names)) :
    e.readText p = .ok s := by
  obtain ⟨l, hl, hfile⟩ := readText_eq_ok_iff.mp hread
  refine readText_eq_ok_iff.mpr ⟨l, locate_mono h.grows h.cwd hl, h.kept l _ hfile ?_⟩
  intro names hne heq
  exact hout names hne (heq ▸ hl)

/-- **One more result** leaves the others as they are, as no two files below the root lie in the
same place. -/
theorem concat {f : Disk} (h : d.Mirrored rules dir root done e)
    (hroot : d.locate root = .ok r) (hread : d.readText p = .ok s)
    (hspelled : SpelledBelow d.cwdPath? root p way) (hne : way ≠ [])
    (hwrite : e.writeBelow (dir.join (.ofNames way)) (rules.localize s).text = (f, .ok ())) :
    d.Mirrored rules dir root (done ++ [p]) f := by
  obtain ⟨hfcwd, hfgrows, hfread, hfkept⟩ := writeBelow_eq_ok hne hspelled.isName hwrite
  rw [h.cwd] at hfkept
  refine ⟨hfcwd.trans h.cwd, h.grows.trans hfgrows, fun l entry hl hout => ?_, fun q hq => ?_⟩
  · exact hfkept l entry (h.kept l entry hl hout) (hout way hne)
  · rcases List.mem_append.mp hq with hq | hq
    · obtain ⟨t, wayq, hreadq, hspelledq, hneq, hresult⟩ := h.results q hq
      refine ⟨t, wayq, hreadq, hspelledq, hneq, ?_⟩
      by_cases hsame : wayq = way
      · -- both paths lead to one file, so the text is the same again
        obtain ⟨l, hl, hfile⟩ := readText_eq_ok_iff.mp hread
        obtain ⟨m, hm, hfileq⟩ := readText_eq_ok_iff.mp hreadq
        obtain rfl : m = l := by
          rw [way_eq_of_spelledBelow hspelledq hroot hm,
            way_eq_of_spelledBelow hspelled hroot hl, hsame]
        obtain rfl : s = t := by simpa [hfile] using hfileq
        rw [hsame]
        exact hfread
      · obtain ⟨l, hl, hfile⟩ := readText_eq_ok_iff.mp hresult
        have hwhere := locate_eq_resolve hl
        rw [h.cwd, resolve_join_ofNames d.cwd dir hspelledq.isName hneq] at hwhere
        refine readText_eq_ok_iff.mpr ⟨l, locate_mono hfgrows hfcwd hl, hfkept l _ hfile ?_⟩
        rw [hwhere]
        exact fun heq => hsame (List.append_cancel_left heq)
    · obtain rfl := List.mem_singleton.mp hq
      exact ⟨s, way, hread, hspelled, hne, hfread⟩

/-- **Directories that are added** leave the results as they are. -/
theorem grown {f : Disk} {A : Path → Prop} (h : d.Mirrored rules dir root done e)
    (hgrown : e.Grown A f) : d.Mirrored rules dir root done f := by
  refine ⟨hgrown.cwd.trans h.cwd, h.grows.trans hgrown.grows, fun l entry hl hout => ?_,
    fun q hq => ?_⟩
  · exact hgrown.kept l entry (h.kept l entry hl hout)
  · obtain ⟨t, way, hread, hspelled, hne, hresult⟩ := h.results q hq
    obtain ⟨l, hl, hfile⟩ := readText_eq_ok_iff.mp hresult
    exact ⟨t, way, hread, hspelled, hne, readText_eq_ok_iff.mpr
      ⟨l, locate_mono hgrown.grows hgrown.cwd hl, hgrown.kept l _ hfile⟩⟩

end Mirrored

end Disk

namespace Rules

open Disk LocaleWrap.Path

variable {rules : Rules} {dir root p : Path} {d e : Disk} {s : Text} {r way : Location}

/-! ## Runs -/

/-- **A turn over a file spelled below the root** writes its result where the names lead from the
directory for results, and shows the file by these names. If it fails, it has made directories at
most. -/
theorem localizeFile_of_spelledBelow (rules : Rules) (dir : Path) (hread : d.readText p = .ok s)
    (hspelled : SpelledBelow d.cwdPath? root p way) (hne : way ≠ []) :
    (∃ e report log, rules.localizeFile (.below dir) root p d = ⟨e, .ok report, log⟩ ∧
        d.writeBelow (dir.join (.ofNames way)) (rules.localize s).text = (e, .ok ()) ∧
        report.file = .ofNames way) ∨
      ∃ e A err log, rules.localizeFile (.below dir) root p d = ⟨e, .error err, log⟩ ∧
        d.Grown A e := by
  rw [localizeFile_below rules dir root hread, (shownFrom_of_spelledBelow hspelled hne).2]
  obtain ⟨f, hgrown, ⟨e, -, hwrite⟩ | ⟨err, hwrite⟩⟩ :=
    exists_of_writeBelow d (dir.join (.ofNames way)) (rules.localize s).text
  · rw [hwrite]
    refine Or.inl ⟨e, _, _, rfl, rfl, ?_⟩
    obtain ⟨hcwd, hgrows, -⟩ := writeBelow_eq_ok hne hspelled.isName hwrite
    exact (shownFrom_of_spelledBelow (spelledBelow_mono hgrows hcwd hspelled) hne).1
  · rw [hwrite]
    exact Or.inr ⟨f, _, err, _, rfl, hgrown⟩

/-- **A run over files spelled below the root** leaves a result for each file that it reports on,
with those that were there before. -/
theorem mirrored_localizeFiles {done ps : List Path} (hroot : d.locate root = .ok r)
    (he : d.Mirrored rules dir root done e)
    (hps : ∀ p ∈ ps, ∃ s way, d.readText p = .ok s ∧ way ≠ [] ∧
      SpelledBelow d.cwdPath? root p way)
    (hout : ∀ p ∈ ps, ∀ names, names ≠ [] → d.locate p ≠ .ok (dir.resolve d.cwd ++ names)) :
    ∃ reached, reached <+: ps ∧
      d.Mirrored rules dir root (done ++ reached)
        (rules.localizeFiles (.below dir) root ps e).disk ∧
      List.Forall₂ (fun p report => ∃ way, SpelledBelow d.cwdPath? root p way ∧
        report.file = .ofNames way) reached
        (rules.localizeFiles (.below dir) root ps e).reports := by
  -- Each turn reads what stood at the start, as no file of the run lies below the directory for
  -- results.
  induction ps generalizing done e with
  | nil => exact ⟨[], List.prefix_rfl, by simpa using he, .nil⟩
  | cons p ps ih =>
      obtain ⟨s, way, hread, hne, hspelled⟩ := hps p List.mem_cons_self
      have hread' := he.readText hread (hout p List.mem_cons_self)
      have hspelled' := spelledBelow_mono he.grows he.cwd hspelled
      rw [localizeFiles]
      rcases localizeFile_of_spelledBelow rules dir hread' hspelled' hne with
        ⟨f, report, log, hturn, hwrite, hfile⟩ | ⟨f, A, err, log, hturn, hgrown⟩
      · have hstep := he.concat hroot hread hspelled hne hwrite
        obtain ⟨reached, hprefix, hdisk, hreports⟩ := ih hstep
          (fun q hq => hps q (List.mem_cons_of_mem p hq))
          (fun q hq => hout q (List.mem_cons_of_mem p hq))
        rw [List.append_assoc, List.singleton_append] at hdisk
        rw [hturn]
        refine ⟨p :: reached, (List.prefix_cons_inj p).mpr hprefix, hdisk, ?_⟩
        exact .cons ⟨way, hspelled, hfile⟩ hreports
      · rw [hturn]
        exact ⟨[], List.nil_prefix, by simpa using he.grown hgrown, .nil⟩

/-- **A run mirrors the files that are spelled below the root.** Let each target lead to a text
below the root and not below the directory for results, and be spelled below the root, as it is
where neither has a step up. Then each file that is reported on, and these are all unless a file
cannot be written, is shown by its way from the root, and its result is found at the end of that way
from the directory for results: no other result has taken its place. -/
theorem localizeFiles_below_mirrors (rules : Rules) (dir root : Path) (targets : List Path)
    (d : Disk) (r : Location) (hroot : d.locate root = .ok r)
    (htargets : ∀ p ∈ targets, ∃ s way, d.readText p = .ok s ∧ way ≠ [] ∧
      d.locate p = .ok (r ++ way) ∧
      ((.parent ∉ root.components ∧ .parent ∉ p.components) ∨
        ∃ names, SpelledBelow d.cwdPath? root p names))
    (hout : ∀ p ∈ targets, ∀ names, names ≠ [] →
      d.locate p ≠ .ok (dir.resolve d.cwd ++ names)) :
    ((rules.localizeFiles (.below dir) root targets d).stopped = none →
      (rules.localizeFiles (.below dir) root targets d).reports.length = targets.length) ∧
    ∀ (i : Nat) (report : FileReport),
      (rules.localizeFiles (.below dir) root targets d).reports[i]? = some report →
      ∃ p s way, targets[i]? = some p ∧ d.readText p = .ok s ∧ d.locate p = .ok (r ++ way) ∧
        report.file = .ofNames way ∧
        (rules.localizeFiles (.below dir) root targets d).disk.readText (dir.join (.ofNames way)) =
          .ok (rules.localize s).text := by
  have hspelled : ∀ p ∈ targets, ∃ s way, d.readText p = .ok s ∧ way ≠ [] ∧
      SpelledBelow d.cwdPath? root p way := by
    intro p hp
    obtain ⟨s, way, hread, hne, hl, ⟨hrootDown, hpDown⟩ | ⟨names, hnames⟩⟩ := htargets p hp
    · exact ⟨s, way, hread, hne, spelledBelow_of_no_parent hroot hl hrootDown hpDown⟩
    · have hway := List.append_cancel_left (way_eq_of_spelledBelow hnames hroot hl)
      exact ⟨s, way, hread, hne, hway ▸ hnames⟩
  obtain ⟨reached, ⟨rest, hrest⟩, hdisk, hreports⟩ := mirrored_localizeFiles hroot
    (.nil rules dir root d) hspelled hout
  rw [List.nil_append] at hdisk
  refine ⟨length_reports_localizeFiles rules (.below dir) root targets d, ?_⟩
  intro i report hreport
  obtain ⟨hi, -⟩ := List.getElem?_eq_some_iff.mp hreport
  have hi' : i < reached.length := hreports.length_eq ▸ hi
  have hp : reached[i]? = some reached[i] := List.getElem?_eq_getElem hi'
  obtain ⟨s, way, hread, hway, -, hresult⟩ := hdisk.results _ (List.mem_of_getElem? hp)
  obtain ⟨names, hnames, hfile⟩ := hreports.get hi' hi
  obtain rfl := hway.unique hnames
  obtain ⟨l, hl, -⟩ := readText_eq_ok_iff.mp hread
  refine ⟨_, s, way, ?_, hread, ?_, ?_, hresult⟩
  · rw [← hrest, List.getElem?_append_left hi', hp]
  · rw [← way_eq_of_spelledBelow hway hroot hl]
    exact hl
  · obtain rfl := Option.some.inj ((List.getElem?_eq_getElem hi).symm.trans hreport)
    exact hfile

/-- A repository with two files of the same name, on which relative paths begin in one of its
directories. -/
def twinDisk : Disk :=
  ⟨{ entries := [
      (["repo".toList], .directory), (["repo".toList, "pkg".toList], .directory),
      (["repo".toList, "pkg".toList, "a".toList], .directory),
      (["repo".toList, "pkg".toList, "b".toList], .directory),
      (["repo".toList, "pkg".toList, "a".toList, "x.ts".toList],
        .file (.text "  name: 'A',\n".toList)),
      (["repo".toList, "pkg".toList, "b".toList, "x.ts".toList],
        .file (.text "  name: 'B',\n".toList))] }, ["repo".toList, "pkg".toList]⟩

/-- With the directory above as the root, paths that go up first are spelled below it. -/
theorem localizeFiles_below_mirrors_twins :
    ∃ run, standard.localizeFiles (.below (.ofString "../../out")) (.ofString "..")
        (["../pkg/a/x.ts", "../pkg/b/x.ts"].map Path.ofString) twinDisk = run ∧
      run.reports.length = 2 ∧
      ∃ report, run.reports[0]? = some report ∧
        report.file = .ofNames ["pkg".toList, "a".toList, "x.ts".toList] ∧
        run.disk.readText ((Path.ofString "../../out").join
            (.ofNames ["pkg".toList, "a".toList, "x.ts".toList])) =
          .ok (standard.localize "  name: 'A',\n".toList).text := by
  have hstopped : (standard.localizeFiles (.below (.ofString "../../out")) (.ofString "..")
      (["../pkg/a/x.ts", "../pkg/b/x.ts"].map Path.ofString) twinDisk).stopped = none := by
    decide +kernel
  have ha : twinDisk.readText (.ofString "../pkg/a/x.ts") = .ok "  name: 'A',\n".toList := by decide
  have hb : twinDisk.readText (.ofString "../pkg/b/x.ts") = .ok "  name: 'B',\n".toList := by decide
  have hla : twinDisk.locate (.ofString "../pkg/a/x.ts") =
      .ok (["repo".toList] ++ ["pkg".toList, "a".toList, "x.ts".toList]) := by decide
  have hlb : twinDisk.locate (.ofString "../pkg/b/x.ts") =
      .ok (["repo".toList] ++ ["pkg".toList, "b".toList, "x.ts".toList]) := by decide
  have hdir : (Path.ofString "../../out").resolve twinDisk.cwd = ["out".toList] := by decide
  obtain ⟨hlength, hmirrors⟩ := localizeFiles_below_mirrors standard (.ofString "../../out")
    (.ofString "..") (["../pkg/a/x.ts", "../pkg/b/x.ts"].map Path.ofString) twinDisk
    ["repo".toList] (by decide)
    (by
      simp only [List.map_cons, List.map_nil, List.forall_mem_cons, List.not_mem_nil]
      refine ⟨⟨_, _, ha, by decide, hla, Or.inr ⟨["pkg".toList, "a".toList, "x.ts".toList], ?_⟩⟩,
        ⟨_, _, hb, by decide, hlb, Or.inr ⟨["pkg".toList, "b".toList, "x.ts".toList], ?_⟩⟩, by simp⟩
      · exact ⟨_, _, rfl, rfl, by decide⟩
      · exact ⟨_, _, rfl, rfl, by decide⟩)
    (by
      simp only [List.map_cons, List.map_nil, List.forall_mem_cons, hdir, hla, hlb]
      simp)
  generalize standard.localizeFiles (.below (.ofString "../../out")) _ _ twinDisk = run at *
  have htwo : run.reports.length = 2 := hlength hstopped
  have hreport : run.reports[0]? = some run.reports[0] := List.getElem?_eq_getElem (by omega)
  obtain ⟨p, s, way, hp, hs, hl, hfile, hresult⟩ := hmirrors 0 _ hreport
  obtain rfl : Path.ofString "../pkg/a/x.ts" = p := by simpa using hp
  obtain rfl : "  name: 'A',\n".toList = s := by simpa [ha] using hs
  obtain rfl : ["pkg".toList, "a".toList, "x.ts".toList] = way := by simpa [hla] using hl
  exact ⟨run, rfl, htwo, _, hreport, hfile, hresult⟩

/-- **Two files of one repository whose results share a destination**: their paths are not spelled
below the root, so both go by the bare name, and the first result is lost. -/
theorem localizeFiles_below_twins_collide :
    twinDisk.locate (.ofString "..") = .ok ["repo".toList] ∧
    twinDisk.locate (.ofString "a/x.ts") =
      .ok (["repo".toList] ++ ["pkg".toList, "a".toList, "x.ts".toList]) ∧
    twinDisk.readText (.ofString "a/x.ts") = .ok "  name: 'A',\n".toList ∧
    ∃ run, standard.localizeFiles (.below (.ofString "../../out")) (.ofString "..")
        (["a/x.ts", "b/x.ts"].map Path.ofString) twinDisk = run ∧
      run.stopped = none ∧
      run.reports.map (·.file.asString) = ["a/x.ts", "b/x.ts"] ∧
      run.reports.map (·.target.map Path.asString) =
        [some "../../out/x.ts", some "../../out/x.ts"] ∧
      run.disk.readText (.ofString "../../out/pkg/a/x.ts") = .error .notFound ∧
      run.disk.readText (.ofString "../../out/x.ts") =
        .ok ("  name: " ++ braced " en: 'B' " ++ ",\n").toList := by
  refine ⟨by decide, by decide, by decide, _, rfl, by decide +kernel, by decide +kernel,
    by decide +kernel, by decide +kernel, by decide +kernel⟩

end Rules

end LocaleWrap
