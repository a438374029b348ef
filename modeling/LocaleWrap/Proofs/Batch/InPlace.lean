import LocaleWrap.Batch
import LocaleWrap.Proofs.Localization.Idempotence
import LocaleWrap.Proofs.Tree.Shape

/-! # Files localized in place

A batch in place reads each file when its turn comes, which may be after an earlier turn has
written it. What it leaves depends on the set of the files alone.

* **`Entry.localized`** — what is left of an entry.
* **`Disk.LocalizedAt`** — a disk whose files at some paths are localized, and nothing else is
  changed; `append` puts two batches together, and `get?_again` says that a second one finds
  nothing to do.
* `Rules.localizeFile_inPlace` — one turn.
* `Rules.localizeFiles_append` — a batch in two parts.
* `Rules.localized_localizeFiles`, `Rules.getElem?_reports_localizeFiles` — the disk that a batch
  leaves, and its reports.
* `Rules.localizeFiles_inPlace` — order and repetition make no difference, and a second batch is
  idle. -/

namespace LocaleWrap

/-! ## Localized entries -/

/-- **An entry after its localization**: of a file with a text the text is localized. -/
def Entry.localized (rules : Rules) : Entry → Entry
  | file (.text s) => file (.text (rules.localize s).text)
  | e => e

/-- The second pass over a document finds nothing. -/
theorem Rules.localize_localize (rules : Rules) (s : Text) :
    rules.localize (rules.localize s).text = ⟨(rules.localize s).lines, []⟩ := by
  rw [localize_text_localize, localizeLines_localizeLines, localize]

/-- Localizing a localized text changes nothing. -/
theorem Rules.text_localize_localize (rules : Rules) (s : Text) :
    (rules.localize (rules.localize s).text).text = (rules.localize s).text := by
  rw [localize_localize, Localized.text, Localized.text]

@[simp] theorem Entry.localized_localized (rules : Rules) (e : Entry) :
    (e.localized rules).localized rules = e.localized rules := by
  cases e with
  | directory => rfl
  | file c =>
      cases c with
      | binary bytes => rfl
      | text s => simp [localized, Rules.text_localize_localize]

@[simp] theorem Entry.isFile_localized (rules : Rules) (e : Entry) :
    (e.localized rules).isFile = e.isFile := by
  cases e with
  | directory => rfl
  | file c => cases c <;> rfl

namespace Disk

variable {rules : Rules} {d e f : Disk} {ps qs : List Path} {p : Path} {l : Location} {s : Text}

/-! ## Disks with localized files -/

/-- **Whether one of the paths leads to a location.** -/
def Targets (d : Disk) (ps : List Path) (l : Location) : Prop := ∃ p ∈ ps, d.locate p = .ok l

instance (d : Disk) (ps : List Path) (l : Location) : Decidable (d.Targets ps l) :=
  inferInstanceAs (Decidable (∃ p ∈ ps, d.locate p = .ok l))

/-- **Whether each of the paths leads to a file that holds a text.** -/
def Readable (d : Disk) (ps : List Path) : Prop := ∀ p ∈ ps, ∃ s, d.readText p = .ok s

/-- A path of two lists together is a path of the first or of the second. -/
theorem targets_append : d.Targets (ps ++ qs) l ↔ d.Targets ps l ∨ d.Targets qs l := by
  simp [Targets, or_and_right, exists_or]

/-- **The second disk is the first with the files at the paths localized.** Everything else is as
before. -/
structure LocalizedAt (rules : Rules) (ps : List Path) (d e : Disk) : Prop where
  cwd : e.cwd = d.cwd
  get? : ∀ l, e.tree.get? l =
    if d.Targets ps l then (d.tree.get? l).map (Entry.localized rules) else d.tree.get? l

namespace LocalizedAt

/-- Without paths the disk itself is the result. -/
theorem nil (rules : Rules) (d : Disk) : d.LocalizedAt rules [] d :=
  ⟨rfl, fun l => by simp [Targets]⟩

/-- Localizing files leaves the shape of the tree. -/
theorem sameShape (h : d.LocalizedAt rules ps e) : d.tree.SameShape e.tree := by
  intro l
  rw [h.get? l]
  split
  · simp [Option.map_map, Function.comp_def]
  · rfl

/-- Localizing files moves nothing: each path leads to the same location. -/
theorem locate (h : d.LocalizedAt rules ps e) (p : Path) : e.locate p = d.locate p :=
  (locate_congr h.sameShape h.cwd.symm p).symm

/-- The targets of paths are the same before and after. -/
theorem targets (h : d.LocalizedAt rules ps e) (qs : List Path) (l : Location) :
    e.Targets qs l ↔ d.Targets qs l := by
  simp only [Targets, h.locate]

/-- **One batch after the other.** -/
theorem append (h : d.LocalizedAt rules ps e) (h' : e.LocalizedAt rules qs f) :
    d.LocalizedAt rules (ps ++ qs) f := by
  refine ⟨h'.cwd.trans h.cwd, fun l => ?_⟩
  rw [h'.get? l, h.get? l]
  simp only [h.targets, targets_append]
  by_cases hps : d.Targets ps l <;> by_cases hqs : d.Targets qs l <;>
    simp [hps, hqs, Option.map_map, Function.comp_def]

/-- **Order and repetition make no difference.** -/
theorem get?_congr (h : d.LocalizedAt rules ps e) (h' : d.LocalizedAt rules qs f)
    (hiff : ∀ l, d.Targets ps l ↔ d.Targets qs l) (l : Location) :
    e.tree.get? l = f.tree.get? l := by
  rw [h.get? l, h'.get? l]
  simp only [hiff]

/-- **The second batch finds nothing to do.** -/
theorem get?_again (h : d.LocalizedAt rules ps e) (h' : e.LocalizedAt rules ps f) (l : Location) :
    f.tree.get? l = e.tree.get? l :=
  (h.append h').get?_congr h (fun l => by simp [targets_append]) l

/-- **What is read afterwards**: the localized text of a file that one of the paths leads to, or
else the text as it was. -/
theorem readText (h : d.LocalizedAt rules ps e) (hl : d.locate p = .ok l)
    (hread : d.readText p = .ok s) :
    e.readText p = .ok (if d.Targets ps l then (rules.localize s).text else s) := by
  obtain ⟨m, hm, hfile⟩ := readText_eq_ok_iff.mp hread
  obtain rfl : l = m := Except.ok.inj (hl.symm.trans hm)
  refine readText_eq_ok_iff.mpr ⟨l, (h.locate p).trans hl, ?_⟩
  rw [h.get? l, hfile]
  split <;> rfl

/-- What could be read can be read after files were localized. -/
theorem readable (h : d.LocalizedAt rules ps e) (hqs : d.Readable qs) : e.Readable qs := by
  intro p hp
  obtain ⟨s, hs⟩ := hqs p hp
  obtain ⟨l, hl, -⟩ := readText_eq_ok_iff.mp hs
  exact ⟨_, h.readText hl hs⟩

end LocalizedAt

end Disk

namespace Rules

open Disk

variable {rules : Rules} {root p : Path} {d : Disk} {s : Text} {ps qs : List Path}

/-! ## One turn -/

/-- **One turn in place** puts the localized text where the text was read. -/
theorem localizeFile_inPlace (rules : Rules) (root : Path) (h : d.readText p = .ok s) :
    ∃ l, d.locate p = .ok l ∧ d.tree.get? l = some (.file (.text s)) ∧
      rules.localizeFile .inPlace root p d =
        ⟨{ d with tree := d.tree.insert l (.file (.text (rules.localize s).text)) },
          .ok ((rules.localize s).report d.cwdPath? root p (some p)),
          (rules.localize s).log .inPlace p⟩ := by
  obtain ⟨l, hl, hfile⟩ := readText_eq_ok_iff.mp h
  refine ⟨l, hl, hfile, ?_⟩
  have hwrite := write_of_locate hl hfile (.text (rules.localize s).text)
  have hcwd := cwdPath?_congr (d := d)
    (e := { d with tree := d.tree.insert l (.file (.text (rules.localize s).text)) })
    (Tree.sameShape_insert hfile _) rfl
  simp [localizeFile, h, Delivery.deliver, writeText, hwrite, hcwd]

/-- **One turn localizes its file** and changes nothing else. -/
theorem localized_localizeFile (rules : Rules) (root : Path) (h : d.readText p = .ok s) :
    d.LocalizedAt rules [p] (rules.localizeFile .inPlace root p d).disk := by
  obtain ⟨l, hl, hfile, hattempt⟩ := localizeFile_inPlace rules root h
  have htargets : ∀ m, d.Targets [p] m ↔ m = l := by
    intro m
    simp [Targets, hl, eq_comm]
  rw [hattempt]
  refine ⟨rfl, fun m => ?_⟩
  rw [Tree.get?_insert (Tree.hasRoom_of_file hfile _)]
  simp only [htargets]
  by_cases hm : m = l
  · rw [if_pos hm, if_pos hm, hm, hfile]
    rfl
  · rw [if_neg hm, if_neg hm]

/-! ## Batches -/

/-- **A batch in two parts**: the second part goes on where the first has ended. -/
theorem localizeFiles_append (rules : Rules) (delivery : Delivery) (root : Path)
    (ps qs : List Path) (d : Disk)
    (h : (rules.localizeFiles delivery root ps d).stopped = none) :
    (rules.localizeFiles delivery root (ps ++ qs) d).disk =
        (rules.localizeFiles delivery root qs
          (rules.localizeFiles delivery root ps d).disk).disk ∧
      (rules.localizeFiles delivery root (ps ++ qs) d).reports =
        (rules.localizeFiles delivery root ps d).reports ++
          (rules.localizeFiles delivery root qs
            (rules.localizeFiles delivery root ps d).disk).reports ∧
      (rules.localizeFiles delivery root (ps ++ qs) d).stopped =
        (rules.localizeFiles delivery root qs
          (rules.localizeFiles delivery root ps d).disk).stopped := by
  induction ps generalizing d with
  | nil => exact ⟨rfl, rfl, rfl⟩
  | cons p ps ih =>
      rw [List.cons_append, localizeFiles, localizeFiles]
      rw [localizeFiles] at h
      cases houtcome : (rules.localizeFile delivery root p d).outcome with
      | error e => simp [houtcome] at h
      | ok report =>
          rw [houtcome] at h
          obtain ⟨hdisk, hreports, hstopped⟩ := ih _ h
          exact ⟨hdisk, congrArg _ hreports, hstopped⟩

/-- A batch that was not stopped reports on each of its files. -/
theorem length_reports_localizeFiles (rules : Rules) (delivery : Delivery) (root : Path)
    (ps : List Path) (d : Disk) (h : (rules.localizeFiles delivery root ps d).stopped = none) :
    (rules.localizeFiles delivery root ps d).reports.length = ps.length := by
  induction ps generalizing d with
  | nil => rfl
  | cons p ps ih =>
      rw [localizeFiles] at h ⊢
      cases houtcome : (rules.localizeFile delivery root p d).outcome with
      | error e => simp [houtcome] at h
      | ok report =>
          rw [houtcome] at h
          exact congrArg Nat.succ (ih _ h)

/-- **A batch in place localizes its files**, and is not stopped. -/
theorem localized_localizeFiles (rules : Rules) (root : Path) (h : d.Readable ps) :
    (rules.localizeFiles .inPlace root ps d).stopped = none ∧
      d.LocalizedAt rules ps (rules.localizeFiles .inPlace root ps d).disk := by
  -- What the turns so far have left has the shape of the disk at the start, so the later turns
  -- find their files where these were.
  induction ps generalizing d with
  | nil => exact ⟨rfl, .nil rules d⟩
  | cons p ps ih =>
      obtain ⟨s, hs⟩ := h p List.mem_cons_self
      have hturn := localized_localizeFile rules root hs
      obtain ⟨l, -, -, hattempt⟩ := localizeFile_inPlace rules root hs
      have hps : d.Readable ps := fun q hq => h q (List.mem_cons_of_mem p hq)
      obtain ⟨hstopped, hrest⟩ := ih (hturn.readable hps)
      have hdisk := hturn.append hrest
      rw [hattempt] at hstopped hdisk
      rw [localizeFiles, hattempt]
      exact ⟨hstopped, hdisk⟩

/-- **The reports of a batch in place.** The first report on a file is on the text that the file
held at the start, every later one on the localized text. -/
theorem getElem?_reports_localizeFiles (rules : Rules) (root : Path) (h : d.Readable ps) {i : Nat}
    (hp : ps[i]? = some p) {l : Location} (hl : d.locate p = .ok l) (hs : d.readText p = .ok s) :
    (rules.localizeFiles .inPlace root ps d).reports[i]? =
      some ((rules.localize (if d.Targets (ps.take i) l then (rules.localize s).text else s)).report
        d.cwdPath? root p (some p)) := by
  obtain ⟨hi, rfl⟩ := List.getElem?_eq_some_iff.mp hp
  have hparts : ps.take i ++ ps[i] :: ps.drop (i + 1) = ps := by
    rw [← List.drop_eq_getElem_cons hi, List.take_append_drop]
  have hbefore : d.Readable (ps.take i) := fun q hq => h q (List.mem_of_mem_take hq)
  obtain ⟨hstopped, hlocalized⟩ := localized_localizeFiles rules root hbefore
  obtain ⟨-, hreports, -⟩ := localizeFiles_append rules .inPlace root (ps.take i)
    (ps[i] :: ps.drop (i + 1)) d hstopped
  have hlength := length_reports_localizeFiles rules .inPlace root (ps.take i) d hstopped
  rw [List.length_take_of_le (Nat.le_of_lt hi)] at hlength
  -- The report is the first one of the part that begins with this file.
  obtain ⟨m, -, -, hattempt⟩ := localizeFile_inPlace rules root (hlocalized.readText hl hs)
  have hcwd := cwdPath?_congr hlocalized.sameShape hlocalized.cwd.symm
  rw [hparts] at hreports
  rw [hreports, List.getElem?_append_right (Nat.le_of_eq hlength), hlength, Nat.sub_self,
    localizeFiles, hattempt, hcwd]
  rfl

/-- **A batch over localized files reports no change.** -/
theorem changed_eq_false_of_localized (rules : Rules) (root : Path) {e : Disk}
    (h : d.Readable ps) (he : d.LocalizedAt rules ps e) :
    ∀ r ∈ (rules.localizeFiles .inPlace root ps e).reports, r.changed = false := by
  intro r hr
  have hreadable := he.readable h
  have hlength := length_reports_localizeFiles rules .inPlace root ps e
    (localized_localizeFiles rules root hreadable).1
  obtain ⟨i, hi⟩ := List.mem_iff_getElem?.mp hr
  have hlt : i < ps.length := hlength ▸ (List.getElem?_eq_some_iff.mp hi).1
  obtain ⟨s, hs⟩ := h ps[i] (List.getElem_mem hlt)
  obtain ⟨l, hl, -⟩ := readText_eq_ok_iff.mp hs
  have hread := he.readText hl hs
  rw [if_pos ⟨ps[i], List.getElem_mem hlt, hl⟩] at hread
  rw [getElem?_reports_localizeFiles rules root hreadable
    (List.getElem?_eq_getElem hlt) ((he.locate ps[i]).trans hl) hread, Option.some_inj] at hi
  -- Whichever turn it was, the text that it read was localized already.
  rw [← hi, text_localize_localize, ite_self]
  simp [Localized.report, Localized.changed, localize_localize]

/-- **A batch in place depends on the set of its files only.** Let each target lead to a file with a
text. Then the batch is not stopped, each of these files holds its localized text, and everything
else is as before; a batch over any other list of paths to the same files leaves the same; and a
second batch over the targets reports no change and makes none. -/
theorem localizeFiles_inPlace (rules : Rules) (root : Path) (d : Disk) (targets : List Path)
    (h : ∀ p ∈ targets, ∃ s, d.readText p = .ok s) :
    (rules.localizeFiles .inPlace root targets d).stopped = none ∧
    (rules.localizeFiles .inPlace root targets d).reports.length = targets.length ∧
    (rules.localizeFiles .inPlace root targets d).disk.cwd = d.cwd ∧
    (∀ p ∈ targets, ∀ s, d.readText p = .ok s →
      (rules.localizeFiles .inPlace root targets d).disk.readText p =
        .ok (rules.localize s).text) ∧
    (∀ l, (∀ p ∈ targets, d.locate p ≠ .ok l) →
      (rules.localizeFiles .inPlace root targets d).disk.tree.get? l = d.tree.get? l) ∧
    (∀ (root' : Path) (others : List Path), (∀ q ∈ others, ∃ s, d.readText q = .ok s) →
      (∀ l, (∃ q ∈ others, d.locate q = .ok l) ↔ ∃ p ∈ targets, d.locate p = .ok l) →
      ∀ l, (rules.localizeFiles .inPlace root' others d).disk.tree.get? l =
        (rules.localizeFiles .inPlace root targets d).disk.tree.get? l) ∧
    ∀ root' : Path,
      (rules.localizeFiles .inPlace root' targets
        (rules.localizeFiles .inPlace root targets d).disk).stopped = none ∧
      (rules.localizeFiles .inPlace root' targets
        (rules.localizeFiles .inPlace root targets d).disk).reports.length = targets.length ∧
      (∀ r ∈ (rules.localizeFiles .inPlace root' targets
        (rules.localizeFiles .inPlace root targets d).disk).reports, r.changed = false) ∧
      (rules.localizeFiles .inPlace root' targets
        (rules.localizeFiles .inPlace root targets d).disk).disk.cwd = d.cwd ∧
      ∀ l, (rules.localizeFiles .inPlace root' targets
        (rules.localizeFiles .inPlace root targets d).disk).disk.tree.get? l =
          (rules.localizeFiles .inPlace root targets d).disk.tree.get? l := by
  obtain ⟨hstopped, hlocalized⟩ := localized_localizeFiles rules root h
  refine ⟨hstopped, length_reports_localizeFiles _ _ _ _ _ hstopped, hlocalized.cwd, ?_, ?_, ?_,
    ?_⟩
  · intro p hp s hs
    obtain ⟨l, hl, -⟩ := readText_eq_ok_iff.mp hs
    rw [hlocalized.readText hl hs, if_pos ⟨p, hp, hl⟩]
  · intro l hl
    have hnot : ¬ d.Targets targets l := fun ⟨p, hp, hpl⟩ => hl p hp hpl
    rw [hlocalized.get? l, if_neg hnot]
  · intro root' others hothers hiff
    obtain ⟨-, hlocalized'⟩ := localized_localizeFiles rules root' hothers
    exact hlocalized'.get?_congr hlocalized hiff
  · intro root'
    obtain ⟨hstopped', hlocalized'⟩ := localized_localizeFiles rules root'
      (hlocalized.readable h)
    exact ⟨hstopped', length_reports_localizeFiles _ _ _ _ _ hstopped',
      changed_eq_false_of_localized rules root' h hlocalized,
      hlocalized'.cwd.trans hlocalized.cwd, hlocalized.get?_again hlocalized'⟩

/-- A directory with a file in it, and a file of the same name beside it. -/
def sampleDisk : Disk :=
  ⟨{ entries := [
      (["d".toList], .directory), (["a.ts".toList], .file (.text "  name: 'x',\r\n".toList)),
      (["d".toList, "a.ts".toList], .file (.text "  name: 'y',\n".toList))] }, []⟩

/-- Three spellings of one file, one of them through a directory that is left again. -/
theorem localizeFiles_inPlace_spellings :
    ∃ run, standard.localizeFiles .inPlace ⟨".".toList⟩
        (["a.ts", "d/.././a.ts", "/a.ts"].map Path.ofString) sampleDisk = run ∧
      run.stopped = none ∧
      run.disk.readText (.ofString "d/.././a.ts") =
        .ok ("  name: " ++ braced " en: 'x' " ++ ",\r\n").toList ∧
      run.disk.tree.get? ["d".toList, "a.ts".toList] =
        some (.file (.text "  name: 'y',\n".toList)) := by
  have htext : ∀ p ∈ ["a.ts", "d/.././a.ts", "/a.ts"].map Path.ofString,
      sampleDisk.readText p = .ok "  name: 'x',\r\n".toList := by decide
  have hlocation : ∀ p ∈ ["a.ts", "d/.././a.ts", "/a.ts"].map Path.ofString,
      sampleDisk.locate p = .ok ["a.ts".toList] := by decide
  have hother : ∀ p ∈ ["a.ts", "d/.././a.ts", "/a.ts"].map Path.ofString,
      sampleDisk.locate p ≠ .ok ["d".toList, "a.ts".toList] := by
    intro p hp
    rw [hlocation p hp]
    decide
  obtain ⟨hstopped, -, -, hread, hkept, -, -⟩ := localizeFiles_inPlace standard ⟨".".toList⟩
    sampleDisk _ (fun p hp => ⟨_, htext p hp⟩)
  have hlocalized : (standard.localize "  name: 'x',\r\n".toList).text =
      ("  name: " ++ braced " en: 'x' " ++ ",\r\n").toList := by cbv
  refine ⟨_, rfl, hstopped, ?_, hkept _ hother⟩
  rw [hread _ (by simp) _ (htext _ (by simp)), hlocalized]

end Rules

end LocaleWrap
