import LocaleWrap.Proofs.Batch.Stopping
import LocaleWrap.Proofs.Program.ReportOnly
import LocaleWrap.Proofs.Report.BatchReport
import LocaleWrap.Proofs.Settings.Precedence

/-! # The exit status of a run

A run that localizes files has three places to fail: its settings, the collection of its files, and
the files themselves. The first two come before anything is printed or written, and the exit status
tells them from the third.

* `Overrides.exitCode_of_resolve`, `Target.exitCode_of_collect`, `Rules.exitCode_of_stopped` — the
  status that each failure leads to.
* `Overrides.merge_output`, `Program.wrap_output` — the form of reports has no bearing on the other
  settings, nor on the status.
* `Program.run_exitStatus` — what the exit status says about a run. -/

namespace LocaleWrap

open Disk

/-! ## Failures and their status -/

/-- **Settings fail** on a setting. -/
theorem Overrides.exitCode_of_resolve {o : Overrides} {d : Disk} {e : Error}
    (h : o.resolve d = .error e) : e.exitCode = 2 := by
  rcases merge_eq_error_iff.mp h with ⟨-, rfl⟩ | ⟨-, hdelivery⟩
  · rfl
  · -- Only what the configuration names can be wrong with the delivery.
    obtain ⟨-, -, ⟨-, -, rfl⟩ | ⟨name, -, -, rfl⟩⟩ := delivery_eq_error_iff.mp hdelivery
    · rfl
    · rfl

/-- An entry whose files cannot be found ends the program with 2. -/
theorem Target.exitCode_of_files {d : Disk} {r : Request} {e : Error}
    (h : r.files d = .error e) : e.exitCode = 2 := by
  rw [Request.files] at h
  split at h
  · split at h
    · exact Except.error.inj h ▸ rfl
    · cases h
  · cases h

/-- Entries of which one has no files end the program with 2. -/
theorem Target.exitCode_of_collectAll {d : Disk} {rs : List Request} {e : Error}
    (h : collectAll d rs = .error e) : e.exitCode = 2 := by
  induction rs with
  | nil => cases h
  | cons r rs ih =>
      rcases bind_eq_error_iff.mp h with hfiles | ⟨block, -, h⟩
      · exact exitCode_of_files hfiles
      · cases hrest : collectAll d rs with
        | error e' =>
            rw [hrest] at h
            exact ih (hrest.trans h)
        | ok targets =>
            rw [hrest] at h
            cases h

/-- **Collecting files fails** on a pattern, or where there are none. -/
theorem Target.exitCode_of_collect {d : Disk} {root : Path} {paths patterns : List Text}
    {e : Error} (h : collect d root paths patterns = .error e) : e.exitCode = 2 := by
  rcases bind_eq_error_iff.mp h with hall | ⟨targets, -, h⟩
  · exact exitCode_of_collectAll hall
  · split at h
    · exact Except.error.inj h ▸ rfl
    · cases h

/-- **A batch is stopped** by a file. -/
theorem Rules.exitCode_of_stopped {rules : Rules} {delivery : Delivery} {root : Path}
    {ps : List Path} {d : Disk} {e : Error}
    (h : (rules.localizeFiles delivery root ps d).stopped = some e) : e.exitCode = 1 := by
  obtain ⟨done, p, rest, -, -, hfailed, -⟩ := exists_split_of_stopped h
  obtain ⟨q, fault, rfl⟩ := exists_io_of_outcome hfailed
  rfl

/-! ## The form of reports -/

/-- **The form of reports that the command line names** is the form of the settings, and has no
bearing on the others. -/
theorem Overrides.merge_output {o : Overrides} {form : OutputForm}
    (h : o.output = some form.label.toList) (form' : OutputForm) (root : Path)
    (found : Option Config) :
    ({ o with output := some form'.label.toList } : Overrides).merge root found =
      (o.merge root found).map fun settings => { settings with output := form' } := by
  have hname : o.outputName found = form.label.toList := by simp [outputName, h]
  have hname' : ({ o with output := some form'.label.toList } : Overrides).outputName found =
      form'.label.toList := by simp [outputName]
  have hdelivery : ({ o with output := some form'.label.toList } : Overrides).delivery root found =
      o.delivery root found := rfl
  rw [merge_eq, merge_eq, hname, hname', hdelivery, OutputForm.ofLabel_label,
    OutputForm.ofLabel_label]
  cases o.delivery root found <;> rfl

namespace Program

open CommandLine

variable {s : Surroundings} {d : Disk} {settings : RunSettings} {paths : List Text} {o : Overrides}
  {targets : List Path} {e : Error}

/-! ## How a run ends -/

/-- **The status of a batch** that a file may have stopped. -/
theorem batchExitCode_spec (settings : RunSettings) {batch : Batch}
    (h : ∀ e, batch.stopped = some e → e.exitCode = 1) :
    (batchExitCode settings batch = 0 ∨ batchExitCode settings batch = 1) ∧
      (batchExitCode settings batch = 1 ↔ (∃ e, batch.stopped = some e) ∨
        settings.check = true ∧ ∃ r ∈ batch.reports, r.changed = true) := by
  rw [batchExitCode]
  cases hstopped : batch.stopped with
  | some e => simp [h e hstopped]
  | none =>
      have hany : (settings.check && batch.reports.any FileReport.changed) = true ↔
          settings.check = true ∧ ∃ r ∈ batch.reports, r.changed = true := by simp
      rw [← hany]
      by_cases hcheck : (settings.check && batch.reports.any FileReport.changed) = true
      · simp [hcheck]
      · simp [hcheck]

/-- A run whose command line asks for localized files. -/
theorem run_wrap {arguments : List String}
    (h : Request.parse arguments = .ok (.wrap paths o)) :
    run s d arguments = (wrap s d paths o).after (Log.Filter.parse s.logFilter).2 := by
  rw [run, h]
  rfl

/-- A run whose settings fail. -/
theorem wrap_of_resolve_error (s : Surroundings) (paths : List Text)
    (h : o.resolve d = .error e) :
    (wrap s d paths o).exitCode = 2 ∧ (wrap s d paths o).disk = d ∧
      (wrap s d paths o).output = "" := by
  rw [wrap, h]
  exact ⟨Overrides.exitCode_of_resolve h, rfl, rfl⟩

/-- A run whose files cannot be collected. -/
theorem wrap_of_collect_error (s : Surroundings) (h : o.resolve d = .ok settings)
    (hcollect : Target.collect d settings.repoRoot paths settings.patterns = .error e) :
    (wrap s d paths o).exitCode = 2 ∧ (wrap s d paths o).disk = d ∧
      (wrap s d paths o).output = "" := by
  rw [wrap, h]
  dsimp only
  rw [wrapWith, hcollect]
  exact ⟨Target.exitCode_of_collect hcollect, rfl, rfl⟩

/-- **A run over collected files** ends as its batch does, and reports on it. -/
theorem wrap_of_collect (s : Surroundings) (h : o.resolve d = .ok settings)
    (hcollect : Target.collect d settings.repoRoot paths settings.patterns = .ok targets) :
    ∃ batch, Rules.standard.localizeFiles settings.delivery settings.repoRoot targets d = batch ∧
      (wrap s d paths o).disk = batch.disk ∧
      ((wrap s d paths o).exitCode = 0 ∨ (wrap s d paths o).exitCode = 1) ∧
      ((wrap s d paths o).exitCode = 1 ↔ (∃ e, batch.stopped = some e) ∨
        settings.check = true ∧ ∃ r ∈ batch.reports, r.changed = true) ∧
      batch.IsReport s.color settings.delivery settings.output (wrap s d paths o).output := by
  refine ⟨_, rfl, ?_⟩
  rw [wrap, h]
  dsimp only
  rw [wrapWith, hcollect]
  obtain ⟨hcases, hone⟩ := batchExitCode_spec settings fun e he => Rules.exitCode_of_stopped he
  exact ⟨rfl, hcases, hone, isReport_batchReport s settings _⟩

/-- **The status is two** where the settings fail or the collection of the files. -/
theorem exitCode_wrap_eq_two_iff :
    (wrap s d paths o).exitCode = 2 ↔ (∃ e, o.resolve d = .error e) ∨
      ∃ settings e, o.resolve d = .ok settings ∧
        Target.collect d settings.repoRoot paths settings.patterns = .error e := by
  constructor
  · intro hcode
    cases hsettings : o.resolve d with
    | error e => exact Or.inl ⟨e, rfl⟩
    | ok settings =>
        cases htargets : Target.collect d settings.repoRoot paths settings.patterns with
        | error e => exact Or.inr ⟨settings, e, rfl, htargets⟩
        | ok targets =>
            obtain ⟨-, -, -, hcases, -⟩ := wrap_of_collect s hsettings htargets
            omega
  · rintro (⟨e, h⟩ | ⟨settings, e, h, hcollect⟩)
    · exact (wrap_of_resolve_error s paths h).1
    · exact (wrap_of_collect_error s h hcollect).1

/-- **The form of reports** has no bearing on the status, nor on what is written. -/
theorem wrap_output {form : OutputForm} (h : o.output = some form.label.toList)
    (form' : OutputForm) :
    (wrap s d paths { o with output := some form'.label.toList }).exitCode =
        (wrap s d paths o).exitCode ∧
      (wrap s d paths { o with output := some form'.label.toList }).disk =
        (wrap s d paths o).disk := by
  have hresolve : ({ o with output := some form'.label.toList } : Overrides).resolve d =
      (o.resolve d).map fun settings => { settings with output := form' } :=
    Overrides.merge_output h form' _ _
  rw [wrap, wrap, hresolve]
  cases o.resolve d with
  | error e => exact ⟨rfl, rfl⟩
  | ok settings =>
      rw [Except.map]
      dsimp only
      rw [wrapWith, wrapWith]
      cases Target.collect d settings.repoRoot paths settings.patterns with
      | error e => exact ⟨rfl, rfl⟩
      | ok targets => exact ⟨rfl, rfl⟩

/-- **The exit status tells what happened** to a request for localized files. It is two just when
the settings or the collection of the files fail, and then nothing has been written or printed.
Otherwise the run leaves the disk of its batch and prints a report on it, and the status is one or
zero: one just when the batch was stopped, or when there was to be a check and a file has changes.
In which of the two forms the report is asked for makes no difference to the status, nor to the
disk. -/
theorem run_exitStatus (s : Surroundings) (d : Disk) {arguments : List String}
    (hparse : Request.parse arguments = .ok (.wrap paths o)) :
    ((run s d arguments).exitCode = 2 ↔ (∃ e, o.resolve d = .error e) ∨
      ∃ settings e, o.resolve d = .ok settings ∧
        Target.collect d settings.repoRoot paths settings.patterns = .error e) ∧
    ((run s d arguments).exitCode = 2 →
      (run s d arguments).disk = d ∧ (run s d arguments).output = "") ∧
    (∀ settings targets, o.resolve d = .ok settings →
      Target.collect d settings.repoRoot paths settings.patterns = .ok targets →
      ∃ batch, Rules.standard.localizeFiles settings.delivery settings.repoRoot targets d = batch ∧
        (run s d arguments).disk = batch.disk ∧
        ((run s d arguments).exitCode = 0 ∨ (run s d arguments).exitCode = 1) ∧
        ((run s d arguments).exitCode = 1 ↔ (∃ e, batch.stopped = some e) ∨
          settings.check = true ∧ ∃ r ∈ batch.reports, r.changed = true) ∧
        batch.IsReport s.color settings.delivery settings.output (run s d arguments).output) ∧
    ∀ (form form' : OutputForm) (arguments' : List String),
      o.output = some form.label.toList →
      Request.parse arguments' = .ok (.wrap paths { o with output := some form'.label.toList }) →
      (run s d arguments').exitCode = (run s d arguments).exitCode ∧
        (run s d arguments').disk = (run s d arguments).disk := by
  simp only [run_wrap hparse, Outcome.exitCode_after, Outcome.disk_after, Outcome.output_after]
  refine ⟨exitCode_wrap_eq_two_iff, fun hcode => ?_,
    fun settings targets => wrap_of_collect s, fun form form' arguments' ho hparse' => ?_⟩
  · rcases exitCode_wrap_eq_two_iff.mp hcode with ⟨e, h⟩ | ⟨settings, e, h, hcollect⟩
    · exact (wrap_of_resolve_error s paths h).2
    · exact (wrap_of_collect_error s h hcollect).2
  · rw [run_wrap hparse']
    exact wrap_output ho form'

/-- A disk with one file. -/
def singleDisk : Disk :=
  ⟨{ entries := [(["a.ts".toList], .file (.text "  name: 'x',\r\n".toList))] }, []⟩

/-- A run that its second file stops has reported on the first; so has the same run with the other
form of report, which ends with the same status and leaves the same disk. -/
theorem run_exitStatus_stopped :
    Request.parse ["wrap", "--output", "json", "a.ts", "gone.ts"] =
      .ok (.wrap ["a.ts".toList, "gone.ts".toList]
        ⟨none, some "json".toList, none, none, none, none⟩) ∧
    (run ⟨true, ""⟩ singleDisk ["wrap", "--output", "json", "a.ts", "gone.ts"]).exitCode = 1 ∧
    (∃ batch : Batch, batch.reports.length = 1 ∧
      batch.stopped = some (.io (.ofString "gone.ts") .notFound) ∧
      (run ⟨true, ""⟩ singleDisk ["wrap", "--output", "json", "a.ts", "gone.ts"]).disk =
        batch.disk ∧
      batch.IsReport true .inPlace .json
        (run ⟨true, ""⟩ singleDisk ["wrap", "--output", "json", "a.ts", "gone.ts"]).output) ∧
    (run ⟨true, ""⟩ singleDisk ["wrap", "--output", "human", "a.ts", "gone.ts"]).exitCode = 1 ∧
    (run ⟨true, ""⟩ singleDisk ["wrap", "--output", "human", "a.ts", "gone.ts"]).disk =
      (run ⟨true, ""⟩ singleDisk ["wrap", "--output", "json", "a.ts", "gone.ts"]).disk := by
  have hparse : Request.parse ["wrap", "--output", "json", "a.ts", "gone.ts"] =
      .ok (.wrap ["a.ts".toList, "gone.ts".toList]
        ⟨none, some "json".toList, none, none, none, none⟩) := by decide +kernel
  have hparse' : Request.parse ["wrap", "--output", "human", "a.ts", "gone.ts"] =
      .ok (.wrap ["a.ts".toList, "gone.ts".toList]
        ⟨none, some "human".toList, none, none, none, none⟩) := by decide +kernel
  have hsettings : Overrides.resolve ⟨none, some "json".toList, none, none, none, none⟩ singleDisk =
      .ok ⟨.ofString ".", false, .json, [], .inPlace, false, false⟩ := by decide +kernel
  have hstopped : (Rules.standard.localizeFiles .inPlace (.ofString ".")
      (["a.ts", "gone.ts"].map Path.ofString) singleDisk).stopped =
        some (.io (.ofString "gone.ts") .notFound) := by decide +kernel
  have hlength : (Rules.standard.localizeFiles .inPlace (.ofString ".")
      (["a.ts", "gone.ts"].map Path.ofString) singleDisk).reports.length = 1 := by decide +kernel
  obtain ⟨-, -, hbatch, hforms⟩ := run_exitStatus ⟨true, ""⟩ singleDisk hparse
  obtain ⟨batch, rfl, hdisk, -, hone, hreport⟩ := hbatch _ _ hsettings rfl
  have hcode := hone.mpr (Or.inl ⟨_, hstopped⟩)
  obtain ⟨hcode', hdisk'⟩ := hforms .json .human _ rfl hparse'
  exact ⟨hparse, hcode, ⟨_, hlength, hstopped, hdisk, hreport⟩, hcode'.trans hcode, hdisk'⟩

end Program

end LocaleWrap
