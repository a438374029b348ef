import LocaleWrap.Proofs.Batch.Below
import LocaleWrap.Proofs.Tree.Files

/-! # Batches that are stopped

The first file that fails ends a batch. What was done before it stays done, what it leaves behind
are directories at most, and the files after it might as well not have been asked for.

* `Rules.exists_io_of_outcome`, `Rules.grown_of_outcome_eq_error` — why a turn fails, and what it
  leaves.
* `Rules.exists_split_of_stopped` — the turns of a stopped batch up to the one that failed.
* `Rules.localizeFiles_append_of_stopped` — the turns after it.
* `Rules.localizeFiles_stopped` — a stopped batch is the batch over the targets before, and one
  turn. -/

namespace LocaleWrap

namespace Disk

variable {d e : Disk} {dest : Path} {t : Text} {err : Error}

/-- **Writing below a directory fails** on a file operation, after adding directories at most. -/
theorem writeBelow_eq_error (h : d.writeBelow dest t = (e, .error err)) :
    (∃ q fault, err = .io q fault) ∧ ∃ A, d.Grown A e := by
  constructor
  · unfold writeBelow at h
    split at h
    · split at h
      · cases (Prod.mk.inj h).2
      · exact ⟨_, _, (Except.error.inj (Prod.mk.inj h).2).symm⟩
    · split at h
      · exact ⟨_, _, (Except.error.inj (Prod.mk.inj h).2).symm⟩
      · split at h
        · cases (Prod.mk.inj h).2
        · exact ⟨_, _, (Except.error.inj (Prod.mk.inj h).2).symm⟩
  · obtain ⟨f, hgrown, ⟨g, -, hresult⟩ | ⟨err', hresult⟩⟩ := exists_of_writeBelow d dest t
    · rw [hresult] at h
      cases (Prod.mk.inj h).2
    · rw [hresult] at h
      obtain rfl := (Prod.mk.inj h).1
      exact ⟨_, hgrown⟩

end Disk

namespace Rules

open Disk

variable {rules : Rules} {delivery : Delivery} {root p : Path} {d e : Disk} {err : Error}
  {ps : List Path}

/-! ## A turn that fails -/

/-- **Delivering a text fails** on a file operation. It has added directories below another
directory at most; delivered in any other way, the text leaves the disk as it was. -/
theorem deliver_eq_error {t : Text} (h : delivery.deliver root p t d = (e, .error err)) :
    (∃ q fault, err = .io q fault) ∧ (∃ A, d.Grown A e) ∧
      ((∀ dir, delivery ≠ .below dir) → e = d) := by
  cases delivery with
  | reportOnly => cases (Prod.mk.inj h).2
  | inPlace =>
      simp only [Delivery.deliver] at h
      split at h
      · cases (Prod.mk.inj h).2
      · obtain ⟨rfl, herr⟩ := Prod.mk.inj h
        exact ⟨⟨_, _, (Except.error.inj herr).symm⟩, ⟨_, .refl d fun _ => False⟩, fun _ => rfl⟩
  | below dir =>
      simp only [Delivery.deliver] at h
      split at h
      · cases (Prod.mk.inj h).2
      · next hwrite =>
        obtain ⟨rfl, herr⟩ := Prod.mk.inj h
        obtain rfl := Except.error.inj herr
        obtain ⟨hio, hgrown⟩ := writeBelow_eq_error hwrite
        exact ⟨hio, hgrown, fun hnot => absurd rfl (hnot dir)⟩

/-- **A turn fails** where its file cannot be read, or where its text cannot be delivered. -/
theorem outcome_eq_error (h : (rules.localizeFile delivery root p d).outcome = .error err) :
    (∃ fault, d.readText p = .error fault ∧ err = .io p fault ∧
        (rules.localizeFile delivery root p d).disk = d) ∨
      ∃ s, d.readText p = .ok s ∧ delivery.deliver root p (rules.localize s).text d =
        ((rules.localizeFile delivery root p d).disk, .error err) := by
  cases hread : d.readText p with
  | error fault =>
      rw [localizeFile_of_error rules delivery root hread] at h ⊢
      exact Or.inl ⟨fault, rfl, (Except.error.inj h).symm, rfl⟩
  | ok s =>
      refine Or.inr ⟨s, rfl, ?_⟩
      rw [localizeFile, hread] at h ⊢
      dsimp only at h ⊢
      rcases hdeliver : delivery.deliver root p (rules.localize s).text d with ⟨e, err' | target⟩
      · rw [hdeliver] at h
        obtain rfl := Except.error.inj h
        rfl
      · rw [hdeliver] at h
        cases h

/-- A turn fails on a file operation. -/
theorem exists_io_of_outcome (h : (rules.localizeFile delivery root p d).outcome = .error err) :
    ∃ q fault, err = .io q fault := by
  rcases outcome_eq_error h with ⟨fault, -, herr, -⟩ | ⟨s, -, hdeliver⟩
  · exact ⟨p, fault, herr⟩
  · exact (deliver_eq_error hdeliver).1

/-- **A turn that fails** has added directories at most, and none unless its result was to go below
a directory. -/
theorem grown_of_outcome_eq_error
    (h : (rules.localizeFile delivery root p d).outcome = .error err) :
    (∃ A, d.Grown A (rules.localizeFile delivery root p d).disk) ∧
      ((∀ dir, delivery ≠ .below dir) → (rules.localizeFile delivery root p d).disk = d) := by
  rcases outcome_eq_error h with ⟨fault, -, -, hdisk⟩ | ⟨s, -, hdeliver⟩
  · exact ⟨⟨fun _ => False, hdisk.symm ▸ .refl d _⟩, fun _ => hdisk⟩
  · exact (deliver_eq_error hdeliver).2

/-! ## A batch that is stopped -/

/-- **The turns of a stopped batch**: those that succeed, and the one that fails. -/
theorem exists_split_of_stopped
    (h : (rules.localizeFiles delivery root ps d).stopped = some err) :
    ∃ done p rest, ps = done ++ p :: rest ∧
      (rules.localizeFiles delivery root done d).stopped = none ∧
      (rules.localizeFile delivery root p
        (rules.localizeFiles delivery root done d).disk).outcome = .error err ∧
      (rules.localizeFiles delivery root ps d).disk =
        (rules.localizeFile delivery root p
          (rules.localizeFiles delivery root done d).disk).disk ∧
      (rules.localizeFiles delivery root ps d).reports =
        (rules.localizeFiles delivery root done d).reports := by
  induction ps generalizing d with
  | nil => cases h
  | cons p ps ih =>
      rw [localizeFiles] at h ⊢
      cases houtcome : (rules.localizeFile delivery root p d).outcome with
      | error err' =>
          rw [houtcome] at h
          obtain rfl := Option.some.inj h
          exact ⟨[], p, ps, rfl, rfl, houtcome, rfl, rfl⟩
      | ok report =>
          rw [houtcome] at h
          obtain ⟨done, q, rest, rfl, hnone, hfailed, hdisk, hreports⟩ := ih h
          refine ⟨p :: done, q, rest, rfl, ?_⟩
          rw [localizeFiles, houtcome]
          exact ⟨hnone, hfailed, hdisk, congrArg (report :: ·) hreports⟩

/-- **Targets after the one that failed** have no effect. -/
theorem localizeFiles_append_of_stopped
    (h : (rules.localizeFiles delivery root ps d).stopped = some err) (qs : List Path) :
    rules.localizeFiles delivery root (ps ++ qs) d = rules.localizeFiles delivery root ps d := by
  induction ps generalizing d with
  | nil => cases h
  | cons p ps ih =>
      rw [List.cons_append, localizeFiles, localizeFiles]
      rw [localizeFiles] at h
      cases houtcome : (rules.localizeFile delivery root p d).outcome with
      | error err' => rfl
      | ok report =>
          rw [houtcome] at h
          simp only [ih h]

/-- **A stopped batch is cut cleanly.** There is a target that fails. The batch over the targets
before it gets through, and the stopped batch has the reports of that batch; its error is the one
that the turn of the target gives on the disk which that batch leaves. On this disk the turn changes
no file: it adds directories at most, and nothing where the results do not go below a directory.
Whatever targets come after have no effect. -/
theorem localizeFiles_stopped {targets : List Path}
    (h : (rules.localizeFiles delivery root targets d).stopped = some err) :
    ∃ run k p short, rules.localizeFiles delivery root targets d = run ∧
      targets[k]? = some p ∧
      rules.localizeFiles delivery root (targets.take k) d = short ∧
      short.stopped = none ∧
      short.reports.length = k ∧
      run.reports = short.reports ∧
      (rules.localizeFile delivery root p short.disk).outcome = .error err ∧
      (∀ l, run.disk.tree.file? l = short.disk.tree.file? l) ∧
      (∀ l, run.disk.tree.get? l ≠ short.disk.tree.get? l →
        short.disk.tree.get? l = none ∧ run.disk.tree.get? l = some .directory) ∧
      run.disk.cwd = short.disk.cwd ∧
      ((delivery = .inPlace ∨ delivery = .reportOnly) → run.disk = short.disk) ∧
      ∀ others, rules.localizeFiles delivery root (targets.take (k + 1) ++ others) d = run := by
  obtain ⟨done, p, rest, rfl, hnone, hfailed, hdisk, hreports⟩ := exists_split_of_stopped h
  obtain ⟨⟨A, hgrown⟩, hsame⟩ := grown_of_outcome_eq_error hfailed
  rw [← hdisk] at hgrown hsame
  have hnext : (rules.localizeFiles delivery root (done ++ [p]) d).stopped = some err := by
    obtain ⟨-, -, hstopped⟩ := localizeFiles_append rules delivery root done [p] d hnone
    rw [hstopped, localizeFiles, hfailed]
  have hall : done ++ p :: rest = done ++ [p] ++ rest := by
    rw [List.append_assoc, List.singleton_append]
  have hshort : (done ++ p :: rest).take done.length = done := List.take_left
  have hlong : (done ++ p :: rest).take (done.length + 1) = done ++ [p] := by
    rw [hall]
    exact List.take_left' (by simp)
  refine ⟨_, done.length, p, _, rfl, by simp, rfl, ?_⟩
  rw [hshort, hlong]
  refine ⟨hnone, length_reports_localizeFiles rules delivery root done d hnone, hreports, hfailed,
    hgrown.file?, fun l hl => ?_, hgrown.cwd, fun hplain => hsame fun dir hbelow => ?_,
    fun others => ?_⟩
  · cases hold : (rules.localizeFiles delivery root done d).disk.tree.get? l with
    | some entry => exact absurd ((hgrown.kept l entry hold).trans hold.symm) hl
    | none =>
        rw [hold, Option.ne_none_iff_isSome] at hl
        exact ⟨rfl, (hgrown.made l hold hl).1⟩
  · rcases hplain with rfl | rfl <;> cases hbelow
  · rw [hall, localizeFiles_append_of_stopped hnext, localizeFiles_append_of_stopped hnext]

/-- A disk with a file where a result wants a directory. -/
def blockedDisk : Disk :=
  ⟨{ entries := [
      (["d".toList], .directory), (["out".toList], .directory),
      (["out".toList, "d".toList], .file .noText),
      (["a.ts".toList], .file (.text "  name: 'x',\r\n".toList)),
      (["d".toList, "b.ts".toList], .file (.text "  setup:\n 'y'".toList))] }, []⟩

/-- The second of three targets is read, but its result has no place: what the run leaves is what
the run over the first target leaves. -/
theorem localizeFiles_stopped_blocked :
    ∃ run short,
      standard.localizeFiles (.below (.ofString "out")) (.ofString ".")
        (["a.ts", "d/b.ts", "a.ts"].map Path.ofString) blockedDisk = run ∧
      standard.localizeFiles (.below (.ofString "out")) (.ofString ".") [.ofString "a.ts"]
        blockedDisk = short ∧
      run.stopped = some (.io (.ofString "out/d") .alreadyExists) ∧
      run.reports = short.reports ∧
      ∀ l, run.disk.tree.file? l = short.disk.tree.file? l := by
  have hstopped : (standard.localizeFiles (.below (.ofString "out")) (.ofString ".")
      (["a.ts", "d/b.ts", "a.ts"].map Path.ofString) blockedDisk).stopped =
        some (.io (.ofString "out/d") .alreadyExists) := by decide +kernel
  have hlength : (standard.localizeFiles (.below (.ofString "out")) (.ofString ".")
      (["a.ts", "d/b.ts", "a.ts"].map Path.ofString) blockedDisk).reports.length = 1 := by
    decide +kernel
  obtain ⟨run, k, p, short, rfl, -, rfl, -, hk, hreports, -, hfiles, -⟩ :=
    localizeFiles_stopped hstopped
  obtain rfl : 1 = k := by rw [← hlength, hreports, hk]
  exact ⟨_, _, rfl, rfl, hstopped, hreports, hfiles⟩

end Rules

end LocaleWrap
