import LocaleWrap.Proofs.Batch.DryRun
import LocaleWrap.Proofs.Localization.LedgerExact
import LocaleWrap.Summary
import Mathlib.Algebra.GroupWithZero.Nat

/-! # What the summary of a batch counts

The numbers of a summary go from the lines over the ledger of each file into a sum over the files.
At the end they are what can be counted on the texts themselves.

* **`Lines.differences`** — the number of lines in which two documents differ;
  `Rules.length_changes_localize` says that it is the length of the ledger.
* `Counts.ofChanges_eq` — the counts of a ledger, rule by rule.
* `Summary.ofReports_perm` — the order of the reports makes no difference.
* **`Rules.ReadInTurn`** — the texts that a batch reads; `Rules.exists_readInTurn` goes with the
  turns of a batch to its end.
* `Rules.localizeFiles_summary` — the summary of any batch, also of one that is stopped. -/

namespace LocaleWrap

/-! ## Lines that differ -/

/-- **The number of lines in which two documents differ.** A line that the other document lacks is
one of them. -/
def Lines.differences : List Text → List Text → Nat
  | [], ms => ms.length
  | ls, [] => ls.length
  | l :: ls, m :: ms => (if l = m then 0 else 1) + differences ls ms

@[simp] theorem Lines.differences_cons (l m : Text) (ls ms : List Text) :
    differences (l :: ls) (m :: ms) = (if l = m then 0 else 1) + differences ls ms := rfl

namespace Rules

/-- **The ledger of a pass has one entry for each line that differs.** -/
theorem length_changes_localizeEach (rules : Rules) (before : Option Text) (index : Nat)
    (lines : List Text) :
    (rules.localizeEach before index lines).changes.length =
      Lines.differences lines (rules.localizeEach before index lines).lines := by
  induction lines generalizing before index with
  | nil => rfl
  | cons raw rest ih =>
      rw [localizeEach, Localized.put, List.length_append, ih (some raw) (index + 1),
        Lines.differences_cons]
      cases he : rules.edit before raw with
      | none => simp
      | some e => rw [if_neg (diverge_applied_edit he).ne, Option.map_some, Option.toList_some,
          List.length_singleton]

/-- **The ledger of a document has one entry for each line that differs** between the text that
goes in and the text that comes out. -/
theorem length_changes_localize (rules : Rules) (s : Text) :
    (rules.localize s).changes.length =
      Lines.differences (Lines.split s) (Lines.split (rules.localize s).text) := by
  rw [split_text_localize, localize, localizeLines_eq_localizeEach, length_changes_localizeEach]

end Rules

/-! ## Counts and summaries -/

/-- **The counts of a ledger, rule by rule.** -/
theorem Counts.ofChanges_eq (cs : List Change) :
    ofChanges cs = ⟨cs.countP (·.rule = .fieldInline), cs.countP (·.rule = .fieldHeader),
      cs.countP (·.rule = .arrayItem)⟩ := by
  induction cs with
  | nil => rfl
  | cons c cs ih =>
      rw [ofChanges_cons, ih]
      ext <;> cases hrule : c.rule <;> simp [ofRule, hrule, Nat.add_comm]

namespace Summary

@[simp] theorem files_add (a b : Summary) : (a + b).files = a.files + b.files := rfl
@[simp] theorem changed_add (a b : Summary) : (a + b).changed = a.changed + b.changed := rfl
@[simp] theorem wrote_add (a b : Summary) : (a + b).wrote = a.wrote + b.wrote := rfl
@[simp] theorem wrapped_add (a b : Summary) : (a + b).wrapped = a.wrapped + b.wrapped := rfl

/-- The order in which summaries are added does not matter. -/
theorem add_comm (a b : Summary) : a + b = b + a := by
  show Summary.add a b = Summary.add b a
  have hwrapped : a.wrapped + b.wrapped = b.wrapped + a.wrapped := by
    ext <;> simp [Nat.add_comm]
  simp [add, hwrapped, Nat.add_comm]

/-- A summary counts each report as one file. -/
theorem files_ofReports (rs : List FileReport) : (ofReports rs).files = rs.length := by
  induction rs with
  | nil => rfl
  | cons r rs ih => rw [ofReports_cons, files_add, ih, List.length_cons, Nat.add_comm]; rfl

/-- **The order of the reports makes no difference.** -/
theorem ofReports_perm {rs qs : List FileReport} (h : rs.Perm qs) :
    ofReports rs = ofReports qs := by
  induction h with
  | nil => rfl
  | cons r _ ih => rw [ofReports_cons, ofReports_cons, ih]
  | swap r q rs =>
      simp only [ofReports_cons]
      rw [← add_assoc, ← add_assoc, add_comm (ofReport q)]
  | trans _ _ ih ih' => exact ih.trans ih'

end Summary

/-! ## Turns -/

/-- **A report on the localization of a text.** -/
structure FileReport.Tells (rules : Rules) (delivery : Delivery) (s : Text) (r : FileReport) :
    Prop where
  changed : r.changed = (rules.localize s).changed
  wrote : r.wrote = delivery.writes
  wrapped : r.wrapped = (rules.localize s).counts
  changes : r.changes = (rules.localize s).changes

namespace Rules

variable {rules : Rules} {delivery : Delivery} {root p : Path} {ps : List Path} {d : Disk}
  {report : FileReport}

/-- **Texts that a batch reads**, each of them when the turn of its target comes: on the disk that
is left by the turns before, none of which has failed. -/
def ReadInTurn (rules : Rules) (delivery : Delivery) (root : Path) (targets : List Path) (d : Disk)
    (texts : List Text) : Prop :=
  ∀ i s, texts[i]? = some s → ∃ p short, targets[i]? = some p ∧
    rules.localizeFiles delivery root (targets.take i) d = short ∧ short.stopped = none ∧
    short.disk.readText p = .ok s

/-- **Delivering a text** tells where it went just when it writes. -/
theorem isSome_of_deliver {t : Text} {e : Disk} {target : Option Path}
    (h : delivery.deliver root p t d = (e, .ok target)) : target.isSome = delivery.writes := by
  cases delivery with
  | reportOnly =>
      obtain rfl := Except.ok.inj (Prod.mk.inj h).2
      rfl
  | inPlace =>
      simp only [Delivery.deliver] at h
      split at h
      · obtain rfl := Except.ok.inj (Prod.mk.inj h).2
        rfl
      · cases (Prod.mk.inj h).2
  | below dir =>
      simp only [Delivery.deliver] at h
      split at h
      · obtain rfl := Except.ok.inj (Prod.mk.inj h).2
        rfl
      · cases (Prod.mk.inj h).2

/-- **A turn that succeeds** has read its target, and reports on the text that it has read. -/
theorem tells_of_outcome_eq_ok
    (h : (rules.localizeFile delivery root p d).outcome = .ok report) :
    ∃ s, d.readText p = .ok s ∧ report.Tells rules delivery s := by
  cases hread : d.readText p with
  | error fault =>
      rw [localizeFile_of_error rules delivery root hread] at h
      cases h
  | ok s =>
      rw [localizeFile, hread] at h
      dsimp only at h
      rcases hdeliver : delivery.deliver root p (rules.localize s).text d with ⟨e, err | target⟩
      · rw [hdeliver] at h
        cases h
      · rw [hdeliver] at h
        obtain rfl := Except.ok.inj h
        exact ⟨s, rfl, rfl, isSome_of_deliver hdeliver, rfl, rfl⟩

/-- A text that is read in the first turn goes before those that are read in the later ones. -/
theorem ReadInTurn.cons {s : Text} {texts : List Text} (hs : d.readText p = .ok s)
    (h : (rules.localizeFile delivery root p d).outcome = .ok report)
    (hrest : rules.ReadInTurn delivery root ps (rules.localizeFile delivery root p d).disk texts) :
    rules.ReadInTurn delivery root (p :: ps) d (s :: texts) := by
  intro i t ht
  cases i with
  | zero =>
      obtain rfl : s = t := Option.some.inj ht
      exact ⟨p, _, rfl, rfl, rfl, hs⟩
  | succ i =>
      obtain ⟨q, short, hq, rfl, hstopped, hread⟩ := hrest i t ht
      refine ⟨q, _, hq, rfl, ?_⟩
      rw [List.take_succ_cons, localizeFiles, h]
      exact ⟨hstopped, hread⟩

/-- **The reports of a batch tell of the texts that it has read**, one report a text. -/
theorem exists_readInTurn (rules : Rules) (delivery : Delivery) (root : Path) (ps : List Path)
    (d : Disk) :
    ∃ texts, rules.ReadInTurn delivery root ps d texts ∧
      List.Forall₂ (FileReport.Tells rules delivery) texts
        (rules.localizeFiles delivery root ps d).reports := by
  induction ps generalizing d with
  | nil => exact ⟨[], fun i s hs => by simp at hs, .nil⟩
  | cons p ps ih =>
      rw [localizeFiles]
      cases houtcome : (rules.localizeFile delivery root p d).outcome with
      | error e => exact ⟨[], fun i s hs => by simp at hs, .nil⟩
      | ok report =>
          obtain ⟨s, hs, htells⟩ := tells_of_outcome_eq_ok houtcome
          obtain ⟨texts, hread, hreports⟩ := ih (rules.localizeFile delivery root p d).disk
          exact ⟨s :: texts, hread.cons hs houtcome, .cons htells hreports⟩

/-! ## Sums over the reports -/

variable {texts : List Text} {reports : List FileReport}

/-- **The number of changed files** is the number of texts that do not stay what they are. -/
theorem changed_ofReports (h : List.Forall₂ (FileReport.Tells rules delivery) texts reports) :
    (Summary.ofReports reports).changed =
      texts.countP fun s => (rules.localize s).text ≠ s := by
  induction h with
  | nil => rfl
  | @cons s r texts reports htells _ ih =>
      rw [Summary.ofReports_cons, Summary.changed_add, ih, List.countP_cons, Nat.add_comm]
      have hiff := rules.changed_localize_iff s
      rw [← htells.changed] at hiff
      cases hchanged : r.changed <;> simp_all [Summary.ofReport]

/-- **The number of written files** is that of all files, or of none. -/
theorem wrote_ofReports (h : List.Forall₂ (FileReport.Tells rules delivery) texts reports) :
    (Summary.ofReports reports).wrote =
      if delivery = .reportOnly then 0 else reports.length := by
  have hwrites : delivery.writes.toNat = if delivery = .reportOnly then 0 else 1 := by
    cases delivery <;> rfl
  induction h with
  | nil => simp [Summary.zero]
  | cons htells _ ih =>
      rw [Summary.ofReports_cons, Summary.wrote_add, ih, Summary.ofReport, htells.wrote, hwrites]
      split <;> simp [Nat.add_comm]

/-- **Every line that differs is counted once**: the ledgers have no entry for an unmatched line. -/
theorem total_wrapped_ofReports
    (h : List.Forall₂ (FileReport.Tells rules delivery) texts reports) :
    (Summary.ofReports reports).wrapped.total = (texts.map fun s =>
      Lines.differences (Lines.split s) (Lines.split (rules.localize s).text)).sum := by
  induction h with
  | nil => rfl
  | @cons s r texts reports htells _ ih =>
      have htotal : (rules.localize s).counts.total = (rules.localize s).changes.length :=
        Counts.total_ofChanges fun c hc => by
          obtain ⟨-, -, -, -, -, hrule⟩ := wraps_of_mem_changes hc
          exact hrule
      rw [Summary.ofReports_cons, Summary.wrapped_add, Counts.total_add, ih, Summary.ofReport,
        htells.wrapped, htotal, length_changes_localize, List.map_cons, List.sum_cons]

/-- **The counts of the reports**, rule by rule, are the numbers of entries in their ledgers. -/
theorem wrapped_ofReports (h : List.Forall₂ (FileReport.Tells rules delivery) texts reports) :
    (Summary.ofReports reports).wrapped =
      ⟨(reports.map fun r => r.changes.countP (·.rule = .fieldInline)).sum,
        (reports.map fun r => r.changes.countP (·.rule = .fieldHeader)).sum,
        (reports.map fun r => r.changes.countP (·.rule = .arrayItem)).sum⟩ := by
  have hledgers : (Summary.ofReports reports).wrapped =
      Counts.ofChanges (reports.flatMap FileReport.changes) := by
    induction h with
    | nil => rfl
    | cons htells _ ih =>
        rw [Summary.ofReports_cons, Summary.wrapped_add, ih, Summary.ofReport, htells.wrapped,
          Localized.counts, ← htells.changes, List.flatMap_cons, Counts.ofChanges_append]
  rw [hledgers, Counts.ofChanges_eq]
  simp only [List.countP_flatMap, Function.comp_def]

/-- **The summary of a batch counts what was processed**, whether the batch was stopped or not.
There are texts, one for each report and each read in its turn, to which the ledgers of the reports
belong. Over these the summary counts the files, those whose text does not stay what it is, the
files that were written (all of them, or none where the batch only reports), the entries of the
ledgers rule by rule, and by the total the lines that differ between the text read and the text
produced. A summary depends on no order of the reports, and two lists of them have the counts of
both. -/
theorem localizeFiles_summary (rules : Rules) (delivery : Delivery) (root : Path)
    (targets : List Path) (d : Disk) :
    ∃ run texts summary, rules.localizeFiles delivery root targets d = run ∧
      Summary.ofReports run.reports = summary ∧
      texts.length = run.reports.length ∧
      rules.ReadInTurn delivery root targets d texts ∧
      run.reports.map FileReport.changes = texts.map (fun s => (rules.localize s).changes) ∧
      summary.files = run.reports.length ∧
      (summary.changed = texts.countP fun s => (rules.localize s).text ≠ s) ∧
      (summary.wrote = if delivery = .reportOnly then 0 else run.reports.length) ∧
      (summary.wrapped.inline =
        (run.reports.map fun r => r.changes.countP (·.rule = .fieldInline)).sum) ∧
      (summary.wrapped.deferred =
        (run.reports.map fun r => r.changes.countP (·.rule = .fieldHeader)).sum) ∧
      (summary.wrapped.items =
        (run.reports.map fun r => r.changes.countP (·.rule = .arrayItem)).sum) ∧
      (summary.wrapped.total = (texts.map fun s =>
        Lines.differences (Lines.split s) (Lines.split (rules.localize s).text)).sum) ∧
      (∀ rs qs : List FileReport, rs.Perm qs → Summary.ofReports rs = Summary.ofReports qs) ∧
      ∀ rs qs : List FileReport,
        Summary.ofReports (rs ++ qs) = Summary.ofReports rs + Summary.ofReports qs := by
  obtain ⟨texts, hread, htells⟩ := exists_readInTurn rules delivery root targets d
  have hledgers : (rules.localizeFiles delivery root targets d).reports.map FileReport.changes =
      texts.map fun s => (rules.localize s).changes := by
    rw [← List.forall₂_eq_eq_eq, List.forall₂_map_left_iff, List.forall₂_map_right_iff]
    exact htells.flip.imp fun r s h => h.changes
  have hwrapped := wrapped_ofReports htells
  refine ⟨_, texts, _, rfl, rfl, htells.length_eq, hread, hledgers, Summary.files_ofReports _,
    changed_ofReports htells, wrote_ofReports htells, ?_, ?_, ?_, total_wrapped_ofReports htells,
    fun rs qs => Summary.ofReports_perm, Summary.ofReports_append⟩
  · rw [hwrapped]
  · rw [hwrapped]
  · rw [hwrapped]

/-- A disk with one file. -/
def oneFileDisk : Disk :=
  ⟨{ entries := [
      (["a.ts".toList], .file (.text "  name: 'x',\r\n  setup:\n  'y'".toList))] }, []⟩

/-- The file is named twice, and then one that is not there: both turns are counted, of which the
second has read what the first has written, and in any order. -/
theorem localizeFiles_summary_stopped :
    (standard.localizeFiles .inPlace (.ofString ".") (["a.ts", "a.ts", "gone.ts"].map Path.ofString)
      oneFileDisk).stopped = some (.io (.ofString "gone.ts") .notFound) ∧
    Summary.ofReports (standard.localizeFiles .inPlace (.ofString ".")
      (["a.ts", "a.ts", "gone.ts"].map Path.ofString) oneFileDisk).reports.reverse =
        ⟨2, 1, 2, ⟨1, 1, 0⟩⟩ ∧
    ∃ texts : List Text, texts.length = 2 ∧
      texts[1]? = some (standard.localize "  name: 'x',\r\n  setup:\n  'y'".toList).text ∧
      texts.countP (fun s => (standard.localize s).text ≠ s) = 1 := by
  obtain ⟨run, texts, summary, rfl, rfl, hlength, hread, -, hfiles, hchanged, -, -, -, -, -, hperm,
    -⟩ := localizeFiles_summary standard .inPlace (.ofString ".")
      (["a.ts", "a.ts", "gone.ts"].map Path.ofString) oneFileDisk
  have hsummary : Summary.ofReports (standard.localizeFiles .inPlace (.ofString ".")
      (["a.ts", "a.ts", "gone.ts"].map Path.ofString) oneFileDisk).reports =
        ⟨2, 1, 2, ⟨1, 1, 0⟩⟩ := by decide +kernel
  rw [hsummary] at hfiles hchanged
  have htwo : texts.length = 2 := hlength.trans hfiles.symm
  refine ⟨by decide +kernel, (hperm _ _ (List.reverse_perm _)).trans hsummary, texts, htwo, ?_,
    hchanged.symm⟩
  -- The second turn follows on the first.
  obtain ⟨p, short, hp, rfl, -, hsecond⟩ := hread 1 _ (List.getElem?_eq_getElem (by omega))
  obtain rfl := Option.some.inj hp
  have hwritten : (standard.localizeFiles .inPlace (.ofString ".") [.ofString "a.ts"]
      oneFileDisk).disk.readText (.ofString "a.ts") =
        .ok (standard.localize "  name: 'x',\r\n  setup:\n  'y'".toList).text := by
    decide +kernel
  rw [List.getElem?_eq_getElem (by omega), ← Except.ok.inj (hsecond.symm.trans hwritten)]

end Rules

end LocaleWrap
