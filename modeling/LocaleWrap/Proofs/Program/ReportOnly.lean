import LocaleWrap.Program
import LocaleWrap.Proofs.Batch.DryRun
import LocaleWrap.Proofs.CommandLine.Flags
import LocaleWrap.Proofs.Settings.Precedence

/-! # Runs that promise not to write

A run leaves the disk as it was unless it localizes files, and then what becomes of the texts hangs
on flags, on the configuration and on their order of precedence.

* **`Request.ReportsOnly`** — the requests that promise not to write.
* `Program.disk_answer` — such a request leaves the disk as it was.
* `Program.run_keeps_disk` — so does a whole command line. -/

namespace LocaleWrap

/-! ## Requests -/

namespace CommandLine

/-- **The requests that promise not to write**: all but those to localize files, and of those the
ones with a dry run, a diff or a check, whether the command line or the configuration asks for it,
and the ones whose configuration names a dry run and that have no directory for their results. -/
def Request.ReportsOnly (d : Disk) : Request → Prop
  | .wrap _ o =>
    o.dryRun = some true ∨ o.diff = some true ∨ o.check = some true ∨
      ∃ config wrap, Discovery.load? d (Discovery.root d o.start) = some config ∧
        config.wrap = some wrap ∧
        (wrap.diff = some true ∨ wrap.check = some true ∨
          wrap.mode = some "dry-run".toList ∧ o.outDir = none)
  | _ => True

/-- **The settings of a request that promises not to write** deliver nothing, provided that no flag
takes back what the configuration asks for. -/
theorem Request.ReportsOnly.delivery {d : Disk} {paths : List Text} {o : Overrides}
    {settings : RunSettings} (h : (Request.wrap paths o).ReportsOnly d)
    (hdiff : o.diff ≠ some false) (hcheck : o.check ≠ some false)
    (hsettings : o.resolve d = .ok settings) : settings.delivery = .reportOnly := by
  obtain ⟨hd, hc, hquiet, hopen⟩ := Overrides.delivery_of_merge hsettings
  rcases h with hdry | hflag | hflag | ⟨config, wrap, hload, hwrap, hsection⟩
  · exact hquiet (Or.inr (Or.inr hdry))
  · exact hquiet (Or.inl (by simp [hd, Overrides.asksDiff, hflag]))
  · exact hquiet (Or.inr (Or.inl (by simp [hc, Overrides.asksCheck, hflag])))
  · have hsaid : ∀ {α : Type} (setting : WrapSection → Option α),
        Config.wrap? (some config) setting = setting wrap := by
      intro α setting
      rw [Config.wrap?, Option.bind_some, hwrap, Option.bind_some]
    rw [hload] at hd hc hopen
    rw [Overrides.asksDiff, hsaid] at hd
    rw [Overrides.asksCheck, hsaid] at hc
    rcases hsection with hsection | hsection | ⟨hname, hout⟩
    · refine hquiet (Or.inl ?_)
      rw [hd, hsection]
      rcases ho : o.diff with _ | _ | _
      · rfl
      · exact absurd ho hdiff
      · rfl
    · refine hquiet (Or.inr (Or.inl ?_))
      rw [hc, hsection]
      rcases ho : o.check with _ | _ | _
      · rfl
      · exact absurd ho hcheck
      · rfl
    · by_cases hasked : settings.diff = true ∨ settings.check = true ∨ o.dryRun = some true
      · exact hquiet hasked
      · simp only [not_or, Bool.not_eq_true] at hasked
        obtain ⟨hlabel, -⟩ := (hopen hasked.1 hasked.2.1 hasked.2.2).2 hout
        rw [hsaid, hname, Option.getD_some] at hlabel
        rcases Delivery.eq_of_label (b := .reportOnly) hlabel with hsame | ⟨_, _, _, hbelow⟩
        · exact hsame
        · cases hbelow

end CommandLine

/-! ## Runs -/

namespace Program

open CommandLine

variable {s : Surroundings} {d : Disk} {settings : RunSettings}

@[simp] theorem disk_success (d : Disk) (output : String) : (Outcome.success d output).disk = d :=
  rfl

/-- **Localizing with settings that deliver nothing** leaves the disk as it was. -/
theorem disk_wrapWith (h : settings.delivery = .reportOnly) (paths : List Text) :
    (wrapWith s d settings paths).disk = d := by
  rw [wrapWith, Outcome.disk_after]
  cases Target.collect d settings.repoRoot paths settings.patterns with
  | error e => rfl
  | ok targets =>
      have hbatch : (wrapTargets s d settings targets).disk =
          (Rules.standard.localizeFiles settings.delivery settings.repoRoot targets d).disk := rfl
      rw [h] at hbatch
      exact hbatch.trans
        (Rules.disk_localizeFiles_reportOnly .standard settings.repoRoot targets d)

/-- A run whose settings only ask for a report leaves the disk as it is. -/
theorem disk_wrap {paths : List Text} {o : Overrides}
    (h : ∀ settings, o.resolve d = .ok settings → settings.delivery = .reportOnly) :
    (wrap s d paths o).disk = d := by
  rw [wrap, Outcome.disk_after]
  cases hsettings : o.resolve d with
  | error e => rfl
  | ok settings => exact disk_wrapWith (h settings hsettings) paths

/-- Classifying leaves the disk as it is. -/
theorem disk_classify (s : Surroundings) (d : Disk) (path : Text) (o : Overrides) :
    (classify s d path o).disk = d := by
  rw [classify, Outcome.disk_after]
  split
  · rfl
  · split
    · rfl
    · rw [Outcome.disk_after, disk_success]

/-- Showing the rules leaves the disk as it is. -/
theorem disk_rules (s : Surroundings) (d : Disk) (output : Option Text) :
    (rules s d output).disk = d := by
  rw [rules]
  split <;> rfl

/-- Explaining a complaint leaves the disk as it is. -/
theorem disk_explain (d : Disk) (c : Complaint) : (explain d c).disk = d := by
  rw [explain]
  split <;> rfl

/-- **A request from the command line that promises not to write** leaves the disk as it was. -/
theorem disk_answer {arguments : List String} {request : Request}
    (hparse : Request.parse arguments = .ok request) (h : request.ReportsOnly d) :
    (answer s d request).disk = d := by
  cases request with
  | version => rfl
  | wrap paths o =>
      obtain ⟨p, -, hdiff, hcheck⟩ := exists_progress_of_parse hparse
      refine disk_wrap fun settings hsettings => h.delivery ?_ ?_ hsettings
      · rw [hdiff]
        exact p.set?_ne_some_false "diff"
      · rw [hcheck]
        exact p.set?_ne_some_false "check"
  | classify path o => exact disk_classify s d path o
  | rules output => exact disk_rules s d output

/-- **A run that promises not to write does not.** Whether a flag before two dashes promises it, or
the request that the command line amounts to, if it amounts to any: the disk is left as it was,
whatever else is asked for and whatever goes wrong. -/
theorem run_keeps_disk (s : Surroundings) (d : Disk) (arguments : List String)
    (h : (∃ rest flag, arguments = "wrap" :: rest ∧ flag ∈ ["--dry-run", "--diff", "--check"] ∧
        flag ∈ rest.takeWhile (· ≠ "--")) ∨
      ∀ request, Request.parse arguments = .ok request → request.ReportsOnly d) :
    (run s d arguments).disk = d := by
  have hrequest : ∀ request, Request.parse arguments = .ok request → request.ReportsOnly d := by
    rcases h with ⟨rest, flag, rfl, hflag, hmem⟩ | h
    · intro request hparse
      obtain ⟨paths, o, rfl, hset⟩ := exists_wrap_of_flag hflag hmem hparse
      rcases hset with hset | hset | hset
      · exact Or.inl hset
      · exact Or.inr (Or.inl hset)
      · exact Or.inr (Or.inr (Or.inl hset))
    · exact h
  rw [run, Outcome.disk_after]
  cases hparse : Request.parse arguments with
  | error c => exact disk_explain d c
  | ok request => exact disk_answer hparse (hrequest request hparse)

/-- A disk whose configuration names a dry run, beside a file with something to localize. -/
def quietDisk : Disk :=
  ⟨{ entries := [
      (["locwrap.toml".toList], .file (.text "[wrap]\nmode = \"dry-run\"\n".toList)),
      (["a.ts".toList], .file (.text "  name: 'x',\r\n".toList))] }, []⟩

/-- A check is not made to write by a directory for results, nor is a configured dry run by a path
on the command line. -/
theorem run_keeps_disk_check_and_mode :
    "--check" ∈ ["--out-dir", "/out", "a.ts", "--check"].takeWhile (· ≠ "--") ∧
    (run ⟨true, "trace"⟩ quietDisk ["wrap", "--out-dir", "/out", "a.ts", "--check"]).disk =
      quietDisk ∧
    Request.parse ["wrap", "a.ts"] =
      .ok (.wrap ["a.ts".toList] ⟨none, none, none, none, none, none⟩) ∧
    (Request.wrap ["a.ts".toList] ⟨none, none, none, none, none, none⟩).ReportsOnly quietDisk ∧
    (run ⟨true, "trace"⟩ quietDisk ["wrap", "a.ts"]).disk = quietDisk := by
  have hflag : "--check" ∈ ["--out-dir", "/out", "a.ts", "--check"].takeWhile (· ≠ "--") := by
    decide
  have hparse : Request.parse ["wrap", "a.ts"] =
      .ok (.wrap ["a.ts".toList] ⟨none, none, none, none, none, none⟩) := by decide +kernel
  have hload : Discovery.load? quietDisk (Discovery.root quietDisk ⟨['.']⟩) =
      some ⟨none, none, some ⟨some "dry-run".toList, none, none, none⟩⟩ := by decide +kernel
  have hquiet :
      (Request.wrap ["a.ts".toList] ⟨none, none, none, none, none, none⟩).ReportsOnly quietDisk :=
    Or.inr (Or.inr (Or.inr ⟨_, _, hload, rfl, Or.inr (Or.inr ⟨rfl, rfl⟩)⟩))
  refine ⟨hflag, ?_, hparse, hquiet, ?_⟩
  · exact run_keeps_disk _ quietDisk _ (Or.inl ⟨_, _, rfl, by decide, hflag⟩)
  · refine run_keeps_disk _ quietDisk _ (Or.inr fun request hrequest => ?_)
    obtain rfl := Except.ok.inj (hparse.symm.trans hrequest)
    exact hquiet

end Program

end LocaleWrap
