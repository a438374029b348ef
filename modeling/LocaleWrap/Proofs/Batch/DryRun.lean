import LocaleWrap.Proofs.Batch.InPlace
import LocaleWrap.Proofs.Localization.Patch
import Mathlib.Data.List.Forall2

/-! # A batch that only reports predicts the batch in place

A batch that only reports reads every file as it is. A batch in place changes files as it goes, but
where no two targets lead to the same file each of its turns reads what the other batch reads too.

* **`Disk.SameFile`** — two paths to one file.
* **`FileReport.SameFindings`** — two reports that say the same of a file, wherever its text went.
* `Rules.disk_localizeFiles_reportOnly` — a batch that only reports leaves the disk as it is.
* `Rules.exists_read_of_reportOnly_inPlace` — both batches get through the same files, with the same
  texts, and end the same way.
* `Rules.reportOnly_predicts_inPlace` — what the reports of the one say of the other. -/

namespace LocaleWrap

/-- **Two reports with the same findings** on the same file. -/
structure FileReport.SameFindings (r q : FileReport) : Prop where
  file : r.file = q.file
  changed : r.changed = q.changed
  lines : r.lines = q.lines
  wrapped : r.wrapped = q.wrapped
  changes : r.changes = q.changes

namespace Disk

variable {rules : Rules} {d e : Disk} {p q : Path} {ps : List Path}

/-- **Whether two paths lead to one file.** -/
def SameFile (d : Disk) (p q : Path) : Prop :=
  ∃ l c, d.locate p = .ok l ∧ d.locate q = .ok l ∧ d.tree.get? l = some (.file c)

instance (d : Disk) (p q : Path) : Decidable (d.SameFile p q) :=
  decidable_of_iff
    (∃ l ∈ (d.locate p).toOption,
      d.locate q = .ok l ∧ (d.tree.get? l).any Entry.isFile = true) <| by
      have hfile : ∀ e : Option Entry, e.any Entry.isFile = true ↔ ∃ c, e = some (.file c) := by
        rintro (_ | _ | c) <;> simp [Entry.isFile]
      cases hp : d.locate p <;> simp [SameFile, hp, hfile, Except.toOption]

/-- **What is read where no file was localized** is what was read before, a fault included. -/
theorem LocalizedAt.readText_of_not_targets (h : d.LocalizedAt rules ps e)
    (hp : ∀ l, d.locate p = .ok l → ¬ d.Targets ps l) : e.readText p = d.readText p := by
  rw [Disk.readText, Disk.readText, Disk.entry, Disk.entry, h.locate]
  cases hl : d.locate p with
  | error fault => rfl
  | ok l => simp only [Except.bind, h.get? l, if_neg (hp l hl)]

/-- A path that leads to no file of a batch is read after the batch as before. -/
theorem LocalizedAt.readText_of_not_sameFile (h : d.LocalizedAt rules ps e) (hps : d.Readable ps)
    (hp : ∀ q ∈ ps, ¬ d.SameFile q p) : e.readText p = d.readText p := by
  refine h.readText_of_not_targets fun l hl => ?_
  rintro ⟨q, hq, hql⟩
  obtain ⟨s, hs⟩ := hps q hq
  obtain ⟨m, hqm, hfile⟩ := readText_eq_ok_iff.mp hs
  obtain rfl : l = m := Except.ok.inj (hql.symm.trans hqm)
  exact hp q hq ⟨l, _, hql, hl, hfile⟩

end Disk

namespace Rules

open Disk

variable {rules : Rules} {root p : Path} {d e : Disk} {s : Text} {fault : FileFault}

/-! ## One turn -/

/-- **A turn that only reports** reads its file and leaves the disk as it is. -/
theorem localizeFile_reportOnly (rules : Rules) (root : Path) (h : d.readText p = .ok s) :
    rules.localizeFile .reportOnly root p d =
      ⟨d, .ok ((rules.localize s).report d.cwdPath? root p none),
        (rules.localize s).log .reportOnly p⟩ := by
  simp [localizeFile, h, Delivery.deliver]

/-- **A turn fails where its file cannot be read**, whatever was to become of the text. -/
theorem localizeFile_of_error (rules : Rules) (delivery : Delivery) (root : Path)
    (h : d.readText p = .error fault) :
    rules.localizeFile delivery root p d = ⟨d, .error (.io p fault), []⟩ := by
  simp [localizeFile, h]

/-- A turn that only reports leaves the disk as it is. -/
theorem disk_localizeFile_reportOnly (rules : Rules) (root p : Path) (d : Disk) :
    (rules.localizeFile .reportOnly root p d).disk = d := by
  cases h : d.readText p with
  | error fault => rw [localizeFile_of_error rules .reportOnly root h]
  | ok s => rw [localizeFile_reportOnly rules root h]

/-! ## Batches -/

/-- **A batch that only reports** leaves the disk as it is. -/
theorem disk_localizeFiles_reportOnly (rules : Rules) (root : Path) (ps : List Path) (d : Disk) :
    (rules.localizeFiles .reportOnly root ps d).disk = d := by
  induction ps with
  | nil => rfl
  | cons p ps ih =>
      have hturn := disk_localizeFile_reportOnly rules root p d
      rw [localizeFiles]
      cases (rules.localizeFile .reportOnly root p d).outcome with
      | error e => exact hturn
      | ok report =>
          rw [hturn]
          exact ih

/-- **Both batches get through the same files and read the same texts.** The batch in place may have
some other files behind it already. -/
theorem exists_read_of_reportOnly_inPlace (rules : Rules) (root : Path) {done ps : List Path}
    (hdone : d.Readable done) (he : d.LocalizedAt rules done e)
    (hdistinct : (done ++ ps).Pairwise fun p q => ¬ d.SameFile p q) :
    ∃ read : List (Path × Text),
      (∀ x ∈ read, d.readText x.1 = .ok x.2) ∧
      (rules.localizeFiles .reportOnly root ps d).reports =
        read.map (fun x => (rules.localize x.2).report d.cwdPath? root x.1 none) ∧
      (rules.localizeFiles .inPlace root ps e).reports =
        read.map (fun x => (rules.localize x.2).report d.cwdPath? root x.1 (some x.1)) ∧
      (rules.localizeFiles .inPlace root ps e).stopped =
        (rules.localizeFiles .reportOnly root ps d).stopped ∧
      d.LocalizedAt rules (done ++ read.map Prod.fst)
        (rules.localizeFiles .inPlace root ps e).disk ∧
      (((rules.localizeFiles .reportOnly root ps d).stopped = none ∧ ps = read.map Prod.fst) ∨
        ∃ p rest fault, ps = read.map Prod.fst ++ p :: rest ∧ d.readText p = .error fault ∧
          (rules.localizeFiles .reportOnly root ps d).stopped = some (.io p fault)) := by
  -- The turns that the batch in place has taken leave what is still to be read as it was.
  induction ps generalizing done e with
  | nil => exact ⟨[], by simp, rfl, rfl, rfl, by simpa using he, Or.inl ⟨rfl, rfl⟩⟩
  | cons p ps ih =>
      have hsame : e.readText p = d.readText p := by
        refine he.readText_of_not_sameFile hdone fun q hq => ?_
        exact (List.pairwise_append.mp hdistinct).2.2 q hq p List.mem_cons_self
      cases hread : d.readText p with
      | error fault =>
          have hdry := localizeFile_of_error rules .reportOnly root hread
          have hreal := localizeFile_of_error rules .inPlace root (hsame.trans hread)
          rw [localizeFiles, localizeFiles, hdry, hreal]
          exact ⟨[], by simp, rfl, rfl, rfl, by simpa using he,
            Or.inr ⟨p, ps, fault, rfl, hread, rfl⟩⟩
      | ok s =>
          have hdry := localizeFile_reportOnly rules root hread
          obtain ⟨l, -, -, hreal⟩ := localizeFile_inPlace rules root (hsame.trans hread)
          have hturn := he.append (localized_localizeFile rules root (hsame.trans hread))
          rw [hreal] at hturn
          have hdone' : d.Readable (done ++ [p]) := by
            intro q hq
            rcases List.mem_append.mp hq with hq | hq
            · exact hdone q hq
            · obtain rfl := List.mem_singleton.mp hq
              exact ⟨s, hread⟩
          obtain ⟨read, htexts, hdryReports, hrealReports, hstopped, hlocalized, hend⟩ :=
            ih hdone' hturn (by simpa using hdistinct)
          have hcwd := cwdPath?_congr he.sameShape he.cwd.symm
          rw [localizeFiles, localizeFiles, hdry, hreal, ← hcwd]
          refine ⟨(p, s) :: read, ?_, ?_, ?_, hstopped, ?_, ?_⟩
          · intro x hx
            rcases List.mem_cons.mp hx with rfl | hx
            · exact hread
            · exact htexts x hx
          · exact congrArg _ hdryReports
          · exact congrArg _ hrealReports
          · simpa using hlocalized
          · rcases hend with ⟨hnone, hps⟩ | ⟨q, rest, fault, hps, hq, hsome⟩
            · exact Or.inl ⟨hnone, congrArg _ hps⟩
            · exact Or.inr ⟨q, rest, fault, congrArg _ hps, hq, hsome⟩

/-- **A batch that only reports predicts the batch in place.** Let no two targets lead to the same
file. Then both batches get through all targets, or both end at the same one, whose text cannot be
read, with the same error. Their reports have the same findings, one by one. And each file that was
reported on holds afterwards its text as the reported changes patch it, while everything else is as
before. -/
theorem reportOnly_predicts_inPlace (rules : Rules) (root : Path) (d : Disk) (targets : List Path)
    (hdistinct : targets.Pairwise fun p q => ¬ d.SameFile p q) :
    (rules.localizeFiles .reportOnly root targets d).disk = d ∧
    (rules.localizeFiles .reportOnly root targets d).stopped =
      (rules.localizeFiles .inPlace root targets d).stopped ∧
    List.Forall₂ FileReport.SameFindings
      (rules.localizeFiles .reportOnly root targets d).reports
      (rules.localizeFiles .inPlace root targets d).reports ∧
    (((rules.localizeFiles .reportOnly root targets d).stopped = none ∧
        (rules.localizeFiles .reportOnly root targets d).reports.length = targets.length) ∨
      ∃ p fault,
        targets[(rules.localizeFiles .reportOnly root targets d).reports.length]? = some p ∧
        d.readText p = .error fault ∧
        (rules.localizeFiles .reportOnly root targets d).stopped = some (.io p fault)) ∧
    (∀ (i : Nat) (r : FileReport),
      (rules.localizeFiles .reportOnly root targets d).reports[i]? = some r →
      ∃ p s, targets[i]? = some p ∧ d.readText p = .ok s ∧
        (rules.localizeFiles .inPlace root targets d).disk.readText p =
          .ok (Ledger.patch r.changes s)) ∧
    (rules.localizeFiles .inPlace root targets d).disk.cwd = d.cwd ∧
    ∀ l, (∀ p ∈ targets.take (rules.localizeFiles .reportOnly root targets d).reports.length,
        d.locate p ≠ .ok l) →
      (rules.localizeFiles .inPlace root targets d).disk.tree.get? l = d.tree.get? l := by
  obtain ⟨read, htexts, hdryReports, hrealReports, hstopped, hlocalized, hend⟩ :=
    exists_read_of_reportOnly_inPlace rules root (by simp [Readable]) (.nil rules d) hdistinct
  rw [List.nil_append] at hlocalized
  have hlength : (rules.localizeFiles .reportOnly root targets d).reports.length =
      (read.map Prod.fst).length := by
    rw [hdryReports, List.length_map, List.length_map]
  have hprefix : read.map Prod.fst <+: targets := by
    rcases hend with ⟨-, hps⟩ | ⟨q, rest, fault, hps, -⟩
    · exact hps ▸ List.prefix_rfl
    · exact hps ▸ List.prefix_append _ _
  refine ⟨disk_localizeFiles_reportOnly rules root targets d, hstopped.symm, ?_, ?_, ?_,
    hlocalized.cwd, ?_⟩
  · rw [hdryReports, hrealReports, List.forall₂_map_left_iff, List.forall₂_map_right_iff,
      List.forall₂_same]
    intro x _
    exact ⟨rfl, rfl, rfl, rfl, rfl⟩
  · rcases hend with ⟨hnone, hps⟩ | ⟨q, rest, fault, hps, hq, hsome⟩
    · exact Or.inl ⟨hnone, by rw [hlength, ← hps]⟩
    · refine Or.inr ⟨q, fault, ?_, hq, hsome⟩
      rw [hlength, hps]
      simp
  · intro i r hr
    rw [hdryReports, List.getElem?_map, Option.map_eq_some_iff] at hr
    obtain ⟨⟨p, s⟩, hx, rfl⟩ := hr
    have hread : d.readText p = .ok s := htexts _ (List.mem_of_getElem? hx)
    obtain ⟨l, hl, -⟩ := readText_eq_ok_iff.mp hread
    have hmem : p ∈ read.map Prod.fst := List.mem_map.mpr ⟨_, List.mem_of_getElem? hx, rfl⟩
    refine ⟨p, s, ?_, hread, ?_⟩
    · obtain ⟨rest, hrest⟩ := hprefix
      have hi : i < (read.map Prod.fst).length := by
        simpa using (List.getElem?_eq_some_iff.mp hx).1
      rw [← hrest, List.getElem?_append_left hi, List.getElem?_map, hx]
      rfl
    · rw [hlocalized.readText hl hread, if_pos ⟨p, hmem, hl⟩]
      exact congrArg _ (patch_localize rules s).symm
  · intro l hl
    rw [hlength, ← List.prefix_iff_eq_take.mp hprefix] at hl
    have hnot : ¬ d.Targets (read.map Prod.fst) l := fun ⟨p, hp, hpl⟩ => hl p hp hpl
    rw [hlocalized.get? l, if_neg hnot]

/-- A disk with a file that holds no text, on which relative paths begin in a directory. -/
def unreadableDisk : Disk :=
  ⟨{ entries := [
      (["d".toList], .directory), (["a.ts".toList], .file (.text "  name: 'x',\r\n".toList)),
      (["d".toList, "b.ts".toList], .file (.text "  setup:\n 'y'".toList)),
      (["x.ts".toList], .file .noText)] }, ["d".toList]⟩

/-- The third of four targets ends both batches; the file before it holds what was reported. -/
theorem reportOnly_predicts_inPlace_unreadable :
    (["../a.ts", "./b.ts", "../x.ts", "c.ts"].map Path.ofString).Pairwise
      (fun p q => ¬ unreadableDisk.SameFile p q) ∧
    ∃ dry real,
      standard.localizeFiles .reportOnly ⟨".".toList⟩
        (["../a.ts", "./b.ts", "../x.ts", "c.ts"].map Path.ofString) unreadableDisk = dry ∧
      standard.localizeFiles .inPlace ⟨".".toList⟩
        (["../a.ts", "./b.ts", "../x.ts", "c.ts"].map Path.ofString) unreadableDisk = real ∧
      dry.reports.length = 2 ∧
      real.stopped = some (.io (.ofString "../x.ts") .notText) ∧
      ∃ r, dry.reports[1]? = some r ∧
        real.disk.readText (.ofString "./b.ts") =
          .ok (Ledger.patch r.changes "  setup:\n 'y'".toList) := by
  have hdistinct : (["../a.ts", "./b.ts", "../x.ts", "c.ts"].map Path.ofString).Pairwise
      (fun p q => ¬ unreadableDisk.SameFile p q) := by decide
  obtain ⟨-, hstopped, -, hend, hpatched, -, -⟩ := reportOnly_predicts_inPlace standard
    ⟨".".toList⟩ unreadableDisk _ hdistinct
  generalize standard.localizeFiles .reportOnly ⟨".".toList⟩ _ unreadableDisk = dry at *
  have ha : unreadableDisk.readText (.ofString "../a.ts") = .ok "  name: 'x',\r\n".toList := by
    decide
  have hb : unreadableDisk.readText (.ofString "./b.ts") = .ok "  setup:\n 'y'".toList := by decide
  have hx : unreadableDisk.readText (.ofString "../x.ts") = .error .notText := by decide
  -- There is no report on the third target, and only the last two cannot be read.
  have hlength : dry.reports.length ≤ 2 := by
    by_contra hlt
    obtain ⟨p, s, hp, hs, -⟩ := hpatched 2 _ (List.getElem?_eq_getElem (by omega))
    obtain rfl : Path.ofString "../x.ts" = p := by simpa using hp
    rw [hx] at hs
    cases hs
  rcases hend with ⟨-, hall⟩ | ⟨p, fault, hp, hread, hstop⟩
  · rw [hall] at hlength
    simp at hlength
  · obtain hn | hn | hn : dry.reports.length = 0 ∨ dry.reports.length = 1 ∨
        dry.reports.length = 2 := by omega
    · obtain rfl : Path.ofString "../a.ts" = p := by simpa [hn] using hp
      rw [ha] at hread
      cases hread
    · obtain rfl : Path.ofString "./b.ts" = p := by simpa [hn] using hp
      rw [hb] at hread
      cases hread
    · obtain rfl : Path.ofString "../x.ts" = p := by simpa [hn] using hp
      obtain rfl : FileFault.notText = fault := by simpa [hx] using hread
      have hr : dry.reports[1]? = some dry.reports[1] := List.getElem?_eq_getElem (by omega)
      obtain ⟨q, s, hq, hs, hpatch⟩ := hpatched 1 _ hr
      obtain rfl : Path.ofString "./b.ts" = q := by simpa using hq
      obtain rfl : "  setup:\n 'y'".toList = s := Except.ok.inj (hb.symm.trans hs)
      exact ⟨hdistinct, dry, _, rfl, rfl, hn, hstopped.symm.trans hstop, _, hr, hpatch⟩

end Rules

end LocaleWrap
