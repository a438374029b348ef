import LocaleWrap.Proofs.Localization.LedgerExact
import LocaleWrap.Proofs.Program.ExitStatus

/-! # Checks

A check localizes files without writing them, and ends with a status of one if there is something to
write. It is exact: a run in place over the same files would change one of them just then.

* `Disk.LocalizedAt.file?_eq_iff` — when a batch in place leaves all files as they are.
* `Rules.exists_changed_localizeFiles_reportOnly` — when a batch that only reports finds a change.
* `Program.run_check_exact` — what the status of a check says about the run in place. -/

namespace LocaleWrap

/-! ## Disks and batches -/

/-- **Localizing files leaves all files as they are** where their texts are localized already. -/
theorem Disk.LocalizedAt.file?_eq_iff {rules : Rules} {ps : List Path} {d e : Disk}
    (h : d.LocalizedAt rules ps e) (hps : d.Readable ps) :
    (∀ l, e.tree.file? l = d.tree.file? l) ↔
      ∀ p ∈ ps, ∀ s, d.readText p = .ok s → (rules.localize s).text = s := by
  constructor
  · intro hsame p hp s hs
    obtain ⟨l, hl, hfile⟩ := readText_eq_ok_iff_file?.mp hs
    have hread := h.readText hl hs
    rw [if_pos ⟨p, hp, hl⟩] at hread
    obtain ⟨m, hm, hafter⟩ := readText_eq_ok_iff_file?.mp hread
    obtain rfl : l = m := Except.ok.inj (hl.symm.trans ((h.locate p).symm.trans hm))
    rw [hsame, hfile] at hafter
    simpa using hafter.symm
  · intro hsame l
    refine Tree.file?_congr ?_
    rw [h.get? l]
    split
    · next htarget =>
      obtain ⟨p, hp, hl⟩ := htarget
      obtain ⟨s, hs⟩ := hps p hp
      obtain ⟨m, hm, hfile⟩ := readText_eq_ok_iff.mp hs
      obtain rfl : l = m := Except.ok.inj (hl.symm.trans hm)
      rw [hfile, Option.map_some, Entry.localized, hsame p hp s hs]
    · rfl

/-- **A batch that only reports** gets through files that can be read, and finds a change where the
text of one of them would change. -/
theorem Rules.exists_changed_localizeFiles_reportOnly (rules : Rules) (root : Path)
    {ps : List Path} {d : Disk} (h : d.Readable ps) :
    (rules.localizeFiles .reportOnly root ps d).stopped = none ∧
      ((∃ r ∈ (rules.localizeFiles .reportOnly root ps d).reports, r.changed = true) ↔
        ∃ p ∈ ps, ∃ s, d.readText p = .ok s ∧ (rules.localize s).text ≠ s) := by
  induction ps with
  | nil => simp
  | cons p ps ih =>
      obtain ⟨s, hs⟩ := h p List.mem_cons_self
      obtain ⟨hstopped, hchanged⟩ := ih fun q hq => h q (List.mem_cons_of_mem p hq)
      have hfirst : ((rules.localize s).report d.cwdPath? root p none).changed = true ↔
          (rules.localize s).text ≠ s := rules.changed_localize_iff s
      rw [localizeFiles, localizeFile_reportOnly rules root hs]
      refine ⟨hstopped, ?_⟩
      simp only [List.exists_mem_cons_iff, hfirst, hchanged]
      simp [hs]

namespace Program

open CommandLine

/-- **A check is exact.** Let the settings ask for a check, and let each of the collected files hold
a text. Then the run leaves the disk as it was. A run in place over the same files would not be
stopped, and the status of the check is zero just when it would leave all files as they are; in all
other cases the status is one. -/
theorem run_check_exact (s : Surroundings) (d : Disk) {arguments : List String}
    {paths : List Text} {o : Overrides} {settings : RunSettings} {targets : List Path}
    (hparse : Request.parse arguments = .ok (.wrap paths o))
    (hsettings : o.resolve d = .ok settings) (hcheck : settings.check = true)
    (htargets : Target.collect d settings.repoRoot paths settings.patterns = .ok targets)
    (hread : ∀ p ∈ targets, ∃ t, d.readText p = .ok t) :
    (run s d arguments).disk = d ∧
    ∃ inPlace, Rules.standard.localizeFiles .inPlace settings.repoRoot targets d = inPlace ∧
      inPlace.stopped = none ∧
      ((run s d arguments).exitCode = 0 ↔
        ∀ l, inPlace.disk.tree.file? l = d.tree.file? l) ∧
      ((run s d arguments).exitCode = 1 ↔
        ∃ l, inPlace.disk.tree.file? l ≠ d.tree.file? l) := by
  have hdelivery : settings.delivery = .reportOnly :=
    (Overrides.delivery_of_merge hsettings).2.2.1 (Or.inr (Or.inl hcheck))
  obtain ⟨batch, hbatch, hdisk, hcases, hone, -⟩ := wrap_of_collect s hsettings htargets
  rw [hdelivery] at hbatch
  obtain ⟨hstopped, hchanged⟩ :=
    Rules.exists_changed_localizeFiles_reportOnly .standard settings.repoRoot hread
  rw [hbatch] at hstopped hchanged
  obtain ⟨hthrough, hlocalized⟩ :=
    Rules.localized_localizeFiles .standard settings.repoRoot hread
  generalize Rules.standard.localizeFiles .inPlace settings.repoRoot targets d = inPlace at *
  -- The check finds something just where the run in place changes a file.
  have hdiffers : (wrap s d paths o).exitCode = 1 ↔
      ∃ l, inPlace.disk.tree.file? l ≠ d.tree.file? l := by
    rw [hone, hstopped, hchanged, ← not_forall, hlocalized.file?_eq_iff hread]
    simp [hcheck]
  rw [run_wrap hparse, Outcome.disk_after, Outcome.exitCode_after]
  refine ⟨?_, inPlace, rfl, hthrough, ?_, hdiffers⟩
  · rw [hdisk, ← hbatch, Rules.disk_localizeFiles_reportOnly]
  · rw [← not_iff_not, not_forall, ← hdiffers]
    omega

/-- A disk whose configuration asks for a check, with a file that is localized and one that is
not. -/
def checkedDisk : Disk :=
  ⟨{ entries := [
      (["locwrap.toml".toList], .file (.text "[wrap]\ncheck = true\n".toList)),
      (["a.ts".toList], .file (.text ("  name: " ++ braced " en: 'x' " ++ ",\r\n").toList)),
      (["b.ts".toList], .file (.text "  setup:\n 'y'".toList))] }, []⟩

/-- A check of the localized file ends with zero, and a run in place would leave all files as they
are; a check of both ends with one. -/
theorem run_check_exact_configured :
    Overrides.resolve ⟨none, none, none, none, none, none⟩ checkedDisk =
      .ok ⟨.ofString ".", true, .human, [], .reportOnly, false, true⟩ ∧
    (run ⟨true, ""⟩ checkedDisk ["wrap", "a.ts"]).exitCode = 0 ∧
    (∀ l, (Rules.standard.localizeFiles .inPlace (.ofString ".") [.ofString "a.ts"]
      checkedDisk).disk.tree.file? l = checkedDisk.tree.file? l) ∧
    (run ⟨true, ""⟩ checkedDisk ["wrap", "a.ts", "b.ts", "a.ts"]).exitCode = 1 ∧
    (run ⟨true, ""⟩ checkedDisk ["wrap", "a.ts", "b.ts", "a.ts"]).disk = checkedDisk := by
  have hsettings : Overrides.resolve ⟨none, none, none, none, none, none⟩ checkedDisk =
      .ok ⟨.ofString ".", true, .human, [], .reportOnly, false, true⟩ := by decide +kernel
  have ha : checkedDisk.readText (.ofString "a.ts") =
      .ok ("  name: " ++ braced " en: 'x' " ++ ",\r\n").toList := by decide
  have hb : checkedDisk.readText (.ofString "b.ts") = .ok "  setup:\n 'y'".toList := by decide
  have hone : (run ⟨true, ""⟩ checkedDisk ["wrap", "a.ts"]).exitCode = 0 := by decide +kernel
  have hb' : (Rules.standard.localizeFiles .inPlace (.ofString ".")
      (["a.ts", "b.ts", "a.ts"].map Path.ofString) checkedDisk).disk.tree.file? ["b.ts".toList] ≠
        checkedDisk.tree.file? ["b.ts".toList] := by decide +kernel
  have htarget : Target.collect checkedDisk (.ofString ".") ["a.ts".toList] [] =
      .ok [.ofString "a.ts"] := rfl
  have htargets : Target.collect checkedDisk (.ofString ".")
      ["a.ts".toList, "b.ts".toList, "a.ts".toList] [] =
        .ok (["a.ts", "b.ts", "a.ts"].map Path.ofString) := rfl
  have hparse : Request.parse ["wrap", "a.ts"] =
      .ok (.wrap ["a.ts".toList] ⟨none, none, none, none, none, none⟩) := by decide +kernel
  have hparse' : Request.parse ["wrap", "a.ts", "b.ts", "a.ts"] =
      .ok (.wrap ["a.ts".toList, "b.ts".toList, "a.ts".toList]
        ⟨none, none, none, none, none, none⟩) := by decide +kernel
  obtain ⟨-, _, rfl, -, hzero, -⟩ := run_check_exact ⟨true, ""⟩ checkedDisk hparse hsettings rfl
    htarget (by simp [ha])
  obtain ⟨hdisk, _, rfl, -, -, hdiffers⟩ := run_check_exact ⟨true, ""⟩ checkedDisk hparse' hsettings
    rfl htargets (by simp [ha, hb])
  exact ⟨hsettings, hone, hzero.mp hone, hdiffers.mpr ⟨_, hb'⟩, hdisk⟩

end Program

end LocaleWrap
