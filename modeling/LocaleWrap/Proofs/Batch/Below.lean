import LocaleWrap.Proofs.Batch.DryRun
import LocaleWrap.Proofs.Path.Containment
import LocaleWrap.Proofs.Tree.Growth

/-! # Results that go below a directory

A result goes to where its file lies below the root, as far as the spellings of the two show it, and
otherwise by its bare name. Either way it stays below the directory for results.

* `Disk.exists_of_writeBelow` — what writing below a directory does to a disk.
* `Rules.localizeFile_below_confined` — files are written strictly below the directory for results,
  directories are made on the way to these files, and nothing else changes. -/

namespace LocaleWrap

namespace Path

variable {dir q : Path} {names : List Text}

/-- **A path above a path down from a directory** is above the directory, or itself a path down from
it. -/
theorem above_or_below_of_components (hnames : ∀ n ∈ names, IsName n)
    (h : q.components <+: dir.components ++ names.map .normal) :
    q.components <+: dir.components ∨
      ∃ way, way ≠ [] ∧ (∀ n ∈ way, IsName n) ∧
        q.components = dir.components ++ way.map .normal := by
  rcases List.prefix_or_prefix_of_prefix h (List.prefix_append _ _) with habove | ⟨rest, hrest⟩
  · exact Or.inl habove
  · rw [← hrest, List.prefix_append_right_inj, List.prefix_iff_eq_take, ← List.map_take] at h
    by_cases hnil : names.take rest.length = []
    · rw [hnil, List.map_nil] at h
      rw [h, List.append_nil] at hrest
      exact Or.inl (hrest ▸ List.prefix_rfl)
    · refine Or.inr ⟨names.take rest.length, hnil, fun n hn => ?_, ?_⟩
      · exact hnames n (List.mem_of_mem_take hn)
      · rw [← hrest, ← h]

end Path

namespace Disk

open LocaleWrap.Path Text

variable {d e : Disk} {dir p : Path} {s : Text}

/-- **A directory made for results below `dir`**, where nothing stood: its path is `dir` or above
`dir`, or `dir` followed by names. -/
def MadeFor (dir : Path) (d e : Disk) (l : Location) : Prop :=
  d.tree.get? l = none ∧ e.tree.get? l = some .directory ∧
    ∃ q, e.locate q = .ok l ∧
      (q.components <+: dir.components ∨
        ∃ names, names ≠ [] ∧ (∀ n ∈ names, IsName n) ∧
          q.components = (dir.join (.ofNames names)).components ∧
          l = dir.resolve d.cwd ++ names)

/-- **A file written strictly below `dir`**, where no directory stood: its path is `dir` followed by
names. -/
def WroteBelow (dir : Path) (t : Text) (d e : Disk) (l : Location) : Prop :=
  ∃ names, names ≠ [] ∧ (∀ n ∈ names, IsName n) ∧
    e.locate (dir.join (.ofNames names)) = .ok l ∧ l = dir.resolve d.cwd ++ names ∧
    d.tree.get? l ≠ some .directory ∧ e.tree.get? l = some (.file (.text t))

/-- **What has grown on the way to a file below `dir`** is directories made for results. -/
theorem Grown.madeFor {f : Disk} {names : List Text} {l : Location}
    (hnames : ∀ n ∈ names, IsName n)
    (h : d.Grown (fun q => q.components <+: dir.components ++ names.map .normal) f)
    (hl : f.tree.get? l ≠ d.tree.get? l) : MadeFor dir d f l := by
  cases hold : d.tree.get? l with
  | some entry => exact absurd ((h.kept l entry hold).trans hold.symm) hl
  | none =>
      have hsome : (f.tree.get? l).isSome := by
        rw [Option.isSome_iff_ne_none, ← hold]
        exact hl
      obtain ⟨hdir, q, hprefix, hlocate⟩ := h.made l hold hsome
      refine ⟨hold, hdir, q, hlocate, ?_⟩
      refine (above_or_below_of_components hnames hprefix).imp_right ?_
      rintro ⟨way, hne, hway, hq⟩
      refine ⟨way, hne, hway, hq.trans (components_join_ofNames dir hway hne).symm, ?_⟩
      rw [locate_eq_resolve hlocate, h.cwd, resolve_of_components hq]

/-- **A file that is read has a name**, the last piece of its path. -/
theorem exists_name_of_readText (h : d.readText p = .ok s) :
    ∃ m name, d.locate p = .ok (m ++ [name]) ∧ IsName name ∧ p.fileName? = some name := by
  obtain ⟨l, hl, hfile⟩ := readText_eq_ok_iff.mp h
  obtain ⟨pieces, m, name, -, hpieces, -, -, hidle, hdots, -, rfl⟩ :=
    exists_step_of_locate hl hfile
  have hslash : '/' ∉ name := by
    refine not_mem_of_mem_pieces (t := p.text) ?_
    rw [hpieces]
    exact List.mem_append_right _ List.mem_cons_self
  have hname : IsName name := ⟨hslash, hidle, hdots⟩
  exact ⟨m, name, hl, hname, fileName?_of_pieces hpieces hname⟩

/-- **Writing below a directory** makes directories above the file, and then the file, unless a
fault comes before. -/
theorem exists_of_writeBelow (d : Disk) (dest : Path) (t : Text) :
    ∃ f, d.Grown (fun q => q.components <+: dest.components) f ∧
      ((∃ e, f.writeText dest t = .ok e ∧ d.writeBelow dest t = (e, .ok ())) ∨
        ∃ err, d.writeBelow dest t = (f, .error err)) := by
  rw [writeBelow]
  cases hparent : dest.parent? with
  | none =>
      refine ⟨d, .refl d _, ?_⟩
      cases hwrite : d.writeText dest t with
      | error fault => exact Or.inr ⟨_, rfl⟩
      | ok e => exact Or.inl ⟨e, rfl, rfl⟩
  | some parent =>
      have habove : ∀ q ∈ parent.ancestors, q.components <+: dest.components := fun q hq =>
        (components_prefix_of_mem_ancestors hq).trans
          (components_prefix_of_mem_parents (List.mem_of_mem_head? hparent))
      have hgrown := (grown_makeAll d parent.ancestors).mono habove
      dsimp only
      rw [makeDirectories]
      rcases hmade : d.makeAll parent.ancestors with ⟨f, _ | fault⟩
      · rw [hmade] at hgrown
        refine ⟨f, hgrown, ?_⟩
        cases hwrite : f.writeText dest t with
        | error fault => exact Or.inr ⟨.io dest fault, by simp [hwrite]⟩
        | ok e => exact Or.inl ⟨e, rfl, by simp [hwrite]⟩
      · rw [hmade] at hgrown
        exact ⟨f, hgrown, Or.inr ⟨_, rfl⟩⟩

/-- **Writing at a path down from a directory** puts the text where the names lead from there. -/
theorem exists_of_writeBelow_ofNames {names : List Text} (d : Disk) (dir : Path) (t : Text)
    (hne : names ≠ []) (hnames : ∀ n ∈ names, IsName n) :
    ∃ f, d.Grown (fun q => q.components <+: dir.components ++ names.map .normal) f ∧
      ((∃ e l, d.writeBelow (dir.join (.ofNames names)) t = (e, .ok ()) ∧
          l = dir.resolve d.cwd ++ names ∧ e.cwd = f.cwd ∧ f.tree.Grows e.tree ∧
          e.locate (dir.join (.ofNames names)) = .ok l ∧ f.tree.get? l ≠ some .directory ∧
          e.tree.get? l = some (.file (.text t)) ∧ ∀ m, m ≠ l → e.tree.get? m = f.tree.get? m) ∨
        ∃ err, d.writeBelow (dir.join (.ofNames names)) t = (f, .error err)) := by
  obtain ⟨f, hgrown, ⟨e, hwrite, hresult⟩ | hresult⟩ :=
    exists_of_writeBelow d (dir.join (.ofNames names)) t
  all_goals
    rw [components_join_ofNames dir hnames hne] at hgrown
    refine ⟨f, hgrown, ?_⟩
  · obtain ⟨l, hcwd, hgrows, hlocate, hfree, hfile, hother⟩ := exists_of_write hwrite
    have hwhere := locate_eq_resolve hlocate
    rw [hcwd, hgrown.cwd, resolve_join_ofNames d.cwd dir hnames hne] at hwhere
    exact Or.inl ⟨e, l, hresult, hwhere, hcwd, hgrows, hlocate, hfree, hfile, hother⟩
  · exact Or.inr hresult

/-- **Writing at a path down from a directory** changes nothing but that file and directories on the
way to it. -/
theorem changes_writeBelow {names : List Text} {t : Text} (d : Disk) (dir : Path)
    (hne : names ≠ []) (hnames : ∀ n ∈ names, IsName n)
    (he : (d.writeBelow (dir.join (.ofNames names)) t).1 = e) :
    e.cwd = d.cwd ∧
      ∀ l, e.tree.get? l ≠ d.tree.get? l → WroteBelow dir t d e l ∨ MadeFor dir d e l := by
  obtain ⟨f, hgrown, ⟨g, m, hresult, hwhere, hcwd, hgrows, hlocate, hfree, hfile, hother⟩ |
    ⟨err, hresult⟩⟩ := exists_of_writeBelow_ofNames d dir t hne hnames
  all_goals
    rw [hresult] at he
    obtain rfl := he
  · refine ⟨hcwd.trans hgrown.cwd, fun l hl => ?_⟩
    by_cases hlm : l = m
    · rw [hlm]
      exact Or.inl ⟨names, hne, hnames, hlocate, hwhere,
        fun hdir => hfree (hgrown.grows.directory hdir), hfile⟩
    · rw [hother l hlm] at hl
      obtain ⟨hnone, hdir, q, hq, hform⟩ := hgrown.madeFor hnames hl
      exact Or.inr ⟨hnone, (hother l hlm).trans hdir, q, locate_mono hgrows hcwd hq, hform⟩
  · exact ⟨hgrown.cwd, fun l hl => Or.inr (hgrown.madeFor hnames hl)⟩

/-- **What is left when a text was written down from a directory**: it can be read there, and
whatever stood elsewhere stands as it was. -/
theorem writeBelow_eq_ok {names : List Text} {t : Text} (hne : names ≠ [])
    (hnames : ∀ n ∈ names, IsName n)
    (h : d.writeBelow (dir.join (.ofNames names)) t = (e, .ok ())) :
    e.cwd = d.cwd ∧ d.tree.Grows e.tree ∧ e.readText (dir.join (.ofNames names)) = .ok t ∧
      ∀ l entry, d.tree.get? l = some entry → l ≠ dir.resolve d.cwd ++ names →
        e.tree.get? l = some entry := by
  obtain ⟨f, hgrown, ⟨g, l, hresult, hwhere, hcwd, hgrows, hlocate, -, hfile, hother⟩ |
    ⟨err, hresult⟩⟩ := exists_of_writeBelow_ofNames d dir t hne hnames
  · obtain rfl : e = g := congrArg Prod.fst (h.symm.trans hresult)
    refine ⟨hcwd.trans hgrown.cwd, hgrown.grows.trans hgrows,
      readText_eq_ok_iff.mpr ⟨l, hlocate, hfile⟩, fun m entry hm hml => ?_⟩
    rw [hother m (hwhere ▸ hml)]
    exact hgrown.kept m entry hm
  · rw [hresult] at h
    cases (Prod.mk.inj h).2

end Disk

namespace Rules

open Disk LocaleWrap.Path

variable {rules : Rules} {dir root p : Path} {d : Disk} {s : Text}

/-! ## One turn -/

/-- **A turn that delivers below a directory** does what writing its result there does. -/
theorem localizeFile_below (rules : Rules) (dir root : Path) (hread : d.readText p = .ok s) :
    rules.localizeFile (.below dir) root p d =
      match d.writeBelow (dir.join (belowRoot d.cwdPath? root p)) (rules.localize s).text with
      | (e, .ok _) =>
        ⟨e, .ok ((rules.localize s).report e.cwdPath? root p
            (some (dir.join (belowRoot d.cwdPath? root p)))),
          (rules.localize s).log (.below dir) p⟩
      | (e, .error err) => ⟨e, .error err, (rules.localize s).log (.below dir) p⟩ := by
  rw [localizeFile, hread]
  dsimp only [Delivery.deliver]
  rcases d.writeBelow (dir.join (belowRoot d.cwdPath? root p)) (rules.localize s).text with
    ⟨e, err | _⟩ <;> rfl

/-- **What a turn that delivers below a directory changes**: where it succeeds, its result can be
read at a path down from the directory, and whether it does or not, nothing else changes but for
directories that were made for the result. -/
theorem changes_localizeFile_below (rules : Rules) (dir root p : Path) (d : Disk) :
    ∃ e, (rules.localizeFile (.below dir) root p d).disk = e ∧ e.cwd = d.cwd ∧
      (∀ report, (rules.localizeFile (.below dir) root p d).outcome = .ok report →
        ∃ names s, names ≠ [] ∧ (∀ n ∈ names, IsName n) ∧ d.readText p = .ok s ∧
          e.readText (dir.join (.ofNames names)) = .ok (rules.localize s).text) ∧
      ∀ l, e.tree.get? l ≠ d.tree.get? l →
        (∃ s, d.readText p = .ok s ∧ WroteBelow dir (rules.localize s).text d e l) ∨
          MadeFor dir d e l := by
  cases hread : d.readText p with
  | error fault =>
      rw [localizeFile_of_error rules _ root hread]
      refine ⟨d, rfl, rfl, fun report hreport => ?_, fun l hl => absurd rfl hl⟩
      cases hreport
  | ok s =>
      -- A file that was read has a name, so its path is never taken as it is written.
      obtain ⟨m, name, -, hname, hlast⟩ := exists_name_of_readText hread
      obtain ⟨names, hne, hnames, hbelow⟩ := exists_belowRoot d.cwdPath? root hlast hname
      rw [localizeFile_below rules dir root hread, hbelow]
      rcases hwrite : d.writeBelow (dir.join (.ofNames names)) (rules.localize s).text with
        ⟨e, err | ⟨⟩⟩
      all_goals
        obtain ⟨hcwd, hchanges⟩ := changes_writeBelow d dir hne hnames (congrArg Prod.fst hwrite)
        refine ⟨e, rfl, hcwd, fun report hreport => ?_, fun l hl =>
          (hchanges l hl).imp_left fun hwrote => ⟨s, rfl, hwrote⟩⟩
      · cases hreport
      · exact ⟨names, s, hne, hnames, rfl, (writeBelow_eq_ok hne hnames hwrite).2.2.1⟩

/-- **Results stay below the directory for results.** All that a turn changes, whether it succeeds
or fails, is a file written strictly below that directory, with the localized text, and directories
made for it; where it succeeds, there is such a file. Hence whatever stood elsewhere stands as it
was. -/
theorem localizeFile_below_confined (rules : Rules) (dir root p : Path) (d : Disk) :
    ∃ e, (rules.localizeFile (.below dir) root p d).disk = e ∧ e.cwd = d.cwd ∧
      (∀ m, e.locate dir = .ok m → m = dir.resolve d.cwd) ∧
      (∀ report, (rules.localizeFile (.below dir) root p d).outcome = .ok report →
        ∃ names s, names ≠ [] ∧ (∀ n ∈ names, IsName n) ∧ d.readText p = .ok s ∧
          e.readText (dir.join (.ofNames names)) = .ok (rules.localize s).text) ∧
      (∀ l, e.tree.get? l ≠ d.tree.get? l →
        (∃ s, d.readText p = .ok s ∧ WroteBelow dir (rules.localize s).text d e l) ∨
          MadeFor dir d e l) ∧
      ∀ l entry, d.tree.get? l = some entry →
        (∀ names, names ≠ [] → l ≠ dir.resolve d.cwd ++ names) → e.tree.get? l = some entry := by
  obtain ⟨e, he, hcwd, hwritten, hchanges⟩ := changes_localizeFile_below rules dir root p d
  refine ⟨e, he, hcwd, fun m hm => hcwd ▸ locate_eq_resolve hm, hwritten, hchanges, ?_⟩
  intro l entry hentry hout
  by_contra hchanged
  rcases hchanges l (hentry ▸ hchanged) with ⟨s, -, names, hne, -, -, hbelow, -⟩ | ⟨hnone, -⟩
  · exact hout names hne hbelow
  · rw [hnone] at hentry
    cases hentry

/-- A file beside a directory in which relative paths begin. -/
def detourDisk : Disk :=
  ⟨{ entries := [
      (["a.ts".toList], .file (.text "  name: 'x',\r\n".toList)), (["w".toList], .directory)] },
    ["w".toList]⟩

/-- A directory for results that is named by a detour, and a file outside the root. -/
theorem localizeFile_below_confined_detour :
    ∃ e, (standard.localizeFile (.below (.ofString "new/../out")) (.ofString ".")
        (.ofString "../a.ts") detourDisk).disk = e ∧
      WroteBelow (.ofString "new/../out") (standard.localize "  name: 'x',\r\n".toList).text
        detourDisk e ["w".toList, "out".toList, "a.ts".toList] ∧
      MadeFor (.ofString "new/../out") detourDisk e ["w".toList, "new".toList] ∧
      e.tree.get? ["a.ts".toList] = some (.file (.text "  name: 'x',\r\n".toList)) := by
  obtain ⟨e, he, -, -, -, hchanges, hkept⟩ := localizeFile_below_confined standard
    (.ofString "new/../out") (.ofString ".") (.ofString "../a.ts") detourDisk
  have hfile : (e.tree.get? ["w".toList, "out".toList, "a.ts".toList]).map Entry.isFile =
      some true := by
    rw [← he]
    decide +kernel
  have hdir : (e.tree.get? ["w".toList, "new".toList]).map Entry.isFile = some false := by
    rw [← he]
    decide +kernel
  refine ⟨e, he, ?_, ?_, ?_⟩
  · rcases hchanges ["w".toList, "out".toList, "a.ts".toList]
        (fun h => by rw [h] at hfile; cases hfile) with ⟨s, hs, hwrote⟩ | ⟨-, hmade, -⟩
    · obtain rfl := Except.ok.inj hs
      exact hwrote
    · rw [hmade] at hfile
      cases hfile
  · rcases hchanges ["w".toList, "new".toList]
        (fun h => by rw [h] at hdir; cases hdir) with ⟨s, -, _, -, -, -, -, -, hwrote⟩ | hmade
    · rw [hwrote] at hdir
      cases hdir
    · exact hmade
  · refine hkept _ _ rfl fun names hne heq => ?_
    have hresolve : (Path.ofString "new/../out").resolve detourDisk.cwd =
        ["w".toList, "out".toList] := by decide
    rw [hresolve] at heq
    cases heq

end Rules

end LocaleWrap
