import LocaleWrap.Proofs.Tree.Shape
import LocaleWrap.Settings.Resolution

/-! # What goes before what

The settings of a run come from the command line, from the configuration and from the usual values,
in this order. What the command line settles is the same whatever the configuration says.

* `OutputForm.ofLabel_eq_ok_iff`, `WrapSection.delivery?_eq_ok_iff` — the names that settings have,
  and in `…_eq_error_iff` the names that they do not have.
* **`Overrides.Quiet`** — whether a run only reports; **`Overrides.delivery`** — what becomes of the
  texts.
* `Overrides.merge_eq_ok_iff`, `Overrides.merge_eq_error_iff` — the settings one by one, and all
  ways to get none.
* `Overrides.merge_precedence` — the order of precedence, for one configuration and for two. -/

namespace LocaleWrap

open Disk

/-! ## Names of settings -/

namespace OutputForm

variable {t : Text} {form : OutputForm} {e : Error}

/-- The two names, and any other. -/
theorem ofLabel_cases (t : Text) :
    (∃ form : OutputForm, t = form.label.toList ∧ ofLabel t = .ok form) ∨
      (t ∉ ["human".toList, "json".toList] ∧ ofLabel t = .error (.config (.unknownOutput t))) := by
  by_cases hhuman : t = "human".toList
  · exact Or.inl ⟨human, hhuman, hhuman ▸ rfl⟩
  · by_cases hjson : t = "json".toList
    · exact Or.inl ⟨json, hjson, hjson ▸ rfl⟩
    · refine Or.inr ⟨by simpa using ⟨hhuman, hjson⟩, ?_⟩
      rw [ofLabel, ofLabel?, if_neg hhuman, if_neg hjson]

/-- The form of a label is the form it was written for. -/
theorem ofLabel_label (form : OutputForm) : ofLabel form.label.toList = .ok form := by
  cases form <;> rfl

/-- **A form has just its own name.** -/
theorem ofLabel_eq_ok_iff : ofLabel t = .ok form ↔ form.label.toList = t := by
  constructor
  · intro h
    rcases ofLabel_cases t with ⟨form', rfl, hform⟩ | ⟨-, herror⟩
    · rw [Except.ok.inj (h.symm.trans hform)]
    · cases h.symm.trans herror
  · rintro rfl
    exact ofLabel_label form

/-- Two labels can be read, one for each form. -/
theorem exists_ofLabel_iff :
    (∃ form, ofLabel t = .ok form) ↔ t ∈ ["human".toList, "json".toList] := by
  constructor
  · rintro ⟨form, hform⟩
    rw [← ofLabel_eq_ok_iff.mp hform]
    cases form <;> simp [label]
  · intro h
    rcases ofLabel_cases t with ⟨form, -, hform⟩ | ⟨hother, -⟩
    · exact ⟨form, hform⟩
    · exact absurd h hother

/-- **A name of no form** is the error. -/
theorem ofLabel_eq_error_iff :
    ofLabel t = .error e ↔
      t ∉ ["human".toList, "json".toList] ∧ e = .config (.unknownOutput t) := by
  rcases ofLabel_cases t with ⟨form, rfl, hform⟩ | ⟨hother, herror⟩
  · rw [hform]
    exact ⟨nofun, fun h => absurd (exists_ofLabel_iff.mp ⟨form, hform⟩) h.1⟩
  · rw [herror]
    constructor
    · intro h
      exact ⟨hother, (Except.error.inj h).symm⟩
    · rintro ⟨-, rfl⟩
      rfl

end OutputForm

namespace Delivery

variable {a b : Delivery}

/-- A way of delivery has one of three labels. -/
theorem label_mem (a : Delivery) :
    a.label.toList ∈ ["overwrite".toList, "dry-run".toList, "new-path".toList] := by
  cases a <;> simp [label]

/-- **The name tells deliveries apart**, up to the directory that results go to. -/
theorem eq_of_label (h : a.label.toList = b.label.toList) :
    a = b ∨ ∃ dir dir', a = below dir ∧ b = below dir' := by
  cases a <;> cases b <;> simp_all [label]

/-- Only the delivery to a directory is labelled as such. -/
theorem eq_below_of_label (h : a.label.toList = "new-path".toList) : ∃ dir, a = below dir := by
  cases a <;> simp_all [label]

end Delivery

namespace WrapSection

variable {w : WrapSection} {root : Path} {delivery : Delivery} {e : Error}

/-- The three names, the last of which wants a directory, and any other. -/
theorem delivery?_cases (w : WrapSection) (root : Path) :
    (∃ delivery : Delivery, w.mode.getD "overwrite".toList = delivery.label.toList ∧
      (∀ dir, delivery = .below dir → ∃ name, w.outDir = some name ∧ dir = root.join ⟨name⟩) ∧
      w.delivery? root = .ok delivery) ∨
    (w.mode = some "new-path".toList ∧ w.outDir = none ∧
      w.delivery? root = .error (.config .missingOutDir)) ∨
    ∃ name, w.mode = some name ∧
      name ∉ ["overwrite".toList, "dry-run".toList, "new-path".toList] ∧
      w.delivery? root = .error (.config (.unknownMode name)) := by
  unfold delivery?
  cases hmode : w.mode with
  | none => exact Or.inl ⟨.inPlace, rfl, by simp, rfl⟩
  | some name =>
      by_cases hover : name = "overwrite".toList
      · exact Or.inl ⟨.inPlace, hover, by simp, if_pos hover⟩
      · by_cases hdry : name = "dry-run".toList
        · exact Or.inl ⟨.reportOnly, hdry, by simp, by simp [hdry]⟩
        · by_cases hnew : name = "new-path".toList
          · cases hout : w.outDir with
            | none => exact Or.inr (Or.inl ⟨by rw [hnew], rfl, by simp [hnew]⟩)
            | some dir =>
                refine Or.inl ⟨.below (root.join ⟨dir⟩), hnew, ?_, by simp [hnew]⟩
                intro _ hbelow
                exact ⟨dir, rfl, (Delivery.below.inj hbelow).symm⟩
          · refine Or.inr (Or.inr ⟨name, rfl, by simpa using ⟨hover, hdry, hnew⟩, ?_⟩)
            simp only [if_neg hover, if_neg hdry, if_neg hnew]

/-- **The delivery that a configuration names** has the name of its mode, which is "overwrite" where
it has none. Results that go below a directory go to the one that the configuration has. -/
theorem delivery?_eq_ok_iff :
    w.delivery? root = .ok delivery ↔
      delivery.label.toList = w.mode.getD "overwrite".toList ∧
        ∀ dir, delivery = .below dir → ∃ name, w.outDir = some name ∧ dir = root.join ⟨name⟩ := by
  rcases delivery?_cases w root with
    ⟨delivery', hlabel, hdir, hok⟩ | ⟨hmode, hout, herror⟩ | ⟨name, hmode, hother, herror⟩
  · rw [hok, hlabel]
    constructor
    · intro h
      obtain rfl := Except.ok.inj h
      exact ⟨rfl, hdir⟩
    · rintro ⟨hsame, hdir'⟩
      rcases Delivery.eq_of_label hsame with rfl | ⟨dir, dir', rfl, rfl⟩
      · rfl
      · -- The configuration has one directory at most.
        obtain ⟨name, hname, rfl⟩ := hdir dir' rfl
        obtain ⟨name', hname', rfl⟩ := hdir' dir rfl
        rw [Option.some.inj (hname.symm.trans hname')]
  · rw [herror, hmode, Option.getD_some]
    refine ⟨nofun, ?_⟩
    rintro ⟨hsame, hdir⟩
    obtain ⟨dir, rfl⟩ := Delivery.eq_below_of_label hsame
    obtain ⟨name, hname, -⟩ := hdir dir rfl
    cases hout.symm.trans hname
  · rw [herror, hmode, Option.getD_some]
    refine ⟨nofun, ?_⟩
    rintro ⟨rfl, -⟩
    exact absurd delivery.label_mem hother

/-- **No delivery** comes of another name, and of "new-path" without a directory. -/
theorem delivery?_eq_error_iff :
    w.delivery? root = .error e ↔
      (w.mode = some "new-path".toList ∧ w.outDir = none ∧ e = .config .missingOutDir) ∨
      ∃ name, w.mode = some name ∧
        name ∉ ["overwrite".toList, "dry-run".toList, "new-path".toList] ∧
        e = .config (.unknownMode name) := by
  rcases delivery?_cases w root with
    ⟨delivery, hlabel, hdir, hok⟩ | ⟨hmode, hout, herror⟩ | ⟨name, hmode, hother, herror⟩
  · rw [hok]
    refine ⟨nofun, ?_⟩
    rintro (⟨hmode, hout, -⟩ | ⟨name, hmode, hother, -⟩)
    · rw [hmode, Option.getD_some] at hlabel
      obtain ⟨dir, rfl⟩ := Delivery.eq_below_of_label hlabel.symm
      obtain ⟨name, hname, -⟩ := hdir dir rfl
      cases hout.symm.trans hname
    · rw [hmode, Option.getD_some] at hlabel
      rw [hlabel] at hother
      exact absurd delivery.label_mem hother
  · rw [herror]
    constructor
    · intro h
      exact Or.inl ⟨hmode, hout, (Except.error.inj h).symm⟩
    · rintro (⟨-, -, rfl⟩ | ⟨name, hname, hother, -⟩)
      · rfl
      · rw [← Option.some.inj (hmode.symm.trans hname)] at hother
        simp at hother
  · rw [herror]
    constructor
    · intro h
      exact Or.inr ⟨name, hmode, hother, (Except.error.inj h).symm⟩
    · rintro (⟨hnew, -, -⟩ | ⟨name', hname', -, rfl⟩)
      · rw [Option.some.inj (hmode.symm.trans hnew)] at hother
        simp at hother
      · rw [Option.some.inj (hmode.symm.trans hname')]

end WrapSection

/-! ## Settings one by one -/

/-- **What a configuration says about localizing**, if there is one and it says something. -/
def Config.wrap? {α : Type} (found : Option Config) (setting : WrapSection → Option α) :
    Option α :=
  (found.bind Config.wrap).bind setting

/-- A section that is missing says as much as one that says nothing. -/
theorem Config.wrap?_eq {α : Type} (found : Option Config) (setting : WrapSection → Option α)
    (hempty : setting .empty = none) :
    wrap? found setting = setting ((found.bind Config.wrap).getD .empty) := by
  unfold wrap?
  cases found.bind Config.wrap with
  | none => exact hempty.symm
  | some wrap => rfl

namespace Overrides

variable {o : Overrides} {root : Path} {found : Option Config} {settings : RunSettings} {e : Error}

/-- The name of the form of reports. -/
def outputName (o : Overrides) (found : Option Config) : Text :=
  (o.output.or (found.bind Config.output)).getD "human".toList

/-- Whether there is a diff. -/
def asksDiff (o : Overrides) (found : Option Config) : Bool :=
  (o.diff.or (Config.wrap? found WrapSection.diff)).getD false

/-- Whether there is a check. -/
def asksCheck (o : Overrides) (found : Option Config) : Bool :=
  (o.check.or (Config.wrap? found WrapSection.check)).getD false

/-- A form that was asked for stands whatever the configuration says. -/
theorem outputName_congr (h : o.output.isSome) (found found' : Option Config) :
    o.outputName found = o.outputName found' := by
  obtain ⟨t, ht⟩ := Option.isSome_iff_exists.mp h
  simp [outputName, ht]

/-- An override of the diff stands whatever the configuration says. -/
theorem asksDiff_congr (h : o.diff.isSome) (found found' : Option Config) :
    o.asksDiff found = o.asksDiff found' := by
  obtain ⟨b, hb⟩ := Option.isSome_iff_exists.mp h
  simp [asksDiff, hb]

/-- An override of the check stands whatever the configuration says. -/
theorem asksCheck_congr (h : o.check.isSome) (found found' : Option Config) :
    o.asksCheck found = o.asksCheck found' := by
  obtain ⟨b, hb⟩ := Option.isSome_iff_exists.mp h
  simp [asksCheck, hb]

/-- **Whether a run only reports**, whatever else is asked for. -/
def Quiet (o : Overrides) (found : Option Config) : Prop :=
  o.asksDiff found = true ∨ o.asksCheck found = true ∨ o.dryRun = some true

instance (o : Overrides) (found : Option Config) : Decidable (o.Quiet found) :=
  inferInstanceAs (Decidable (_ ∨ _ ∨ _))

/-- **What becomes of the texts.** -/
def delivery (o : Overrides) (root : Path) (found : Option Config) : Except Error Delivery :=
  if o.Quiet found then .ok .reportOnly
  else match o.outDir with
    | some dir => .ok (.below ⟨dir⟩)
    | none => ((found.bind Config.wrap).getD .empty).delivery? root

/-- **The settings are found one by one**: first the form of reports, then the delivery. -/
theorem merge_eq (o : Overrides) (root : Path) (found : Option Config) :
    o.merge root found = (do
      let output ← OutputForm.ofLabel (o.outputName found)
      let delivery ← o.delivery root found
      return ⟨root, found.isSome, output, (found.bind Config.patterns).getD [], delivery,
        o.asksDiff found, o.asksCheck found⟩) := by
  have hwrap : (found.getD .empty).wrap.getD .empty = (found.bind Config.wrap).getD .empty := by
    cases found <;> rfl
  have hconfig : (found.getD .empty).output = found.bind Config.output ∧
      (found.getD .empty).patterns = found.bind Config.patterns := by
    cases found <;> exact ⟨rfl, rfl⟩
  have hquiet : (o.asksDiff found || o.asksCheck found || o.dryRun == some true) = true ↔
      o.Quiet found := by
    simp [Quiet, or_assoc]
  rw [merge, hwrap, hconfig.1, hconfig.2, ← Config.wrap?_eq found WrapSection.diff rfl,
    ← Config.wrap?_eq found WrapSection.check rfl]
  change (OutputForm.ofLabel (o.outputName found) >>= fun output => _) = _
  refine bind_congr fun output => ?_
  unfold delivery
  by_cases h : o.Quiet found
  · rw [if_pos h]
    exact if_pos (hquiet.mpr h)
  · rw [if_neg h]
    refine (if_neg (mt hquiet.mp h)).trans ?_
    cases o.outDir <;> rfl

/-- **The settings of a run**, one by one. -/
theorem merge_eq_ok_iff :
    o.merge root found = .ok settings ↔
      settings.output.label.toList = o.outputName found ∧
      o.delivery root found = .ok settings.delivery ∧
      settings = ⟨root, found.isSome, settings.output, (found.bind Config.patterns).getD [],
        settings.delivery, o.asksDiff found, o.asksCheck found⟩ := by
  rw [merge_eq, ← OutputForm.ofLabel_eq_ok_iff]
  refine bind_eq_ok_iff.trans ⟨?_, ?_⟩
  · rintro ⟨output, houtput, h⟩
    obtain ⟨delivery, hdelivery, h⟩ := bind_eq_ok_iff.mp h
    obtain rfl := Except.ok.inj h
    exact ⟨houtput, hdelivery, rfl⟩
  · rintro ⟨houtput, hdelivery, hsettings⟩
    refine ⟨_, houtput, bind_eq_ok_iff.mpr ⟨_, hdelivery, ?_⟩⟩
    rw [hsettings]
    rfl

/-- **There are no settings** where the form of reports has no such name, or else the delivery that
the configuration names cannot be had. -/
theorem merge_eq_error_iff :
    o.merge root found = .error e ↔
      (o.outputName found ∉ ["human".toList, "json".toList] ∧
        e = .config (.unknownOutput (o.outputName found))) ∨
      (o.outputName found ∈ ["human".toList, "json".toList] ∧
        o.delivery root found = .error e) := by
  rw [merge_eq, ← OutputForm.ofLabel_eq_error_iff, ← OutputForm.exists_ofLabel_iff]
  refine bind_eq_error_iff.trans (or_congr_right ⟨?_, ?_⟩)
  · rintro ⟨form, hform, h⟩
    rcases bind_eq_error_iff.mp h with hdelivery | ⟨delivery, -, h⟩
    · exact ⟨⟨form, hform⟩, hdelivery⟩
    · cases h
  · rintro ⟨⟨form, hform⟩, hdelivery⟩
    exact ⟨form, hform, bind_eq_error_iff.mpr (Or.inl hdelivery)⟩

/-- A run that only reports delivers nothing. -/
theorem delivery_of_quiet (h : o.Quiet found) : o.delivery root found = .ok .reportOnly :=
  if_pos h

/-- A directory for results is used unless the run only reports. -/
theorem delivery_of_outDir {dir : Text} (h : ¬ o.Quiet found) (hdir : o.outDir = some dir) :
    o.delivery root found = .ok (.below ⟨dir⟩) := by
  rw [delivery, if_neg h, hdir]

/-- Where nothing was asked for, the configuration says how results are delivered. -/
theorem delivery_of_config (h : ¬ o.Quiet found) (hdir : o.outDir = none) :
    o.delivery root found = ((found.bind Config.wrap).getD .empty).delivery? root := by
  rw [delivery, if_neg h, hdir]

/-- **The delivery that the command line settles by itself**, given that it says whether there is a
diff and a check. -/
def ownDelivery? (o : Overrides) : Option Delivery :=
  if o.diff = some true ∨ o.check = some true ∨ o.dryRun = some true then some .reportOnly
  else o.outDir.map fun dir => .below ⟨dir⟩

/-- **What the command line settles by itself** does not hang on the configuration. -/
theorem delivery_of_ownDelivery? {delivery : Delivery} (hdiff : o.diff.isSome)
    (hcheck : o.check.isSome) (h : o.ownDelivery? = some delivery) (root : Path)
    (found : Option Config) : o.delivery root found = .ok delivery := by
  obtain ⟨diff, hdiff⟩ := Option.isSome_iff_exists.mp hdiff
  obtain ⟨check, hcheck⟩ := Option.isSome_iff_exists.mp hcheck
  have hquiet :
      o.Quiet found ↔ o.diff = some true ∨ o.check = some true ∨ o.dryRun = some true := by
    simp [Quiet, asksDiff, asksCheck, hdiff, hcheck]
  by_cases hasked : o.diff = some true ∨ o.check = some true ∨ o.dryRun = some true
  · rw [ownDelivery?, if_pos hasked] at h
    rw [delivery_of_quiet (hquiet.mpr hasked), Option.some.inj h]
  · rw [ownDelivery?, if_neg hasked] at h
    obtain ⟨dir, hdir, rfl⟩ := Option.map_eq_some_iff.mp h
    exact delivery_of_outDir (mt hquiet.mp hasked) hdir

/-- **What settings deliver.** Nothing where there is a diff, a check or a dry run; otherwise what
the command line says, and then what the configuration says. -/
theorem delivery_of_merge (h : o.merge root found = .ok settings) :
    settings.diff = o.asksDiff found ∧ settings.check = o.asksCheck found ∧
    (settings.diff = true ∨ settings.check = true ∨ o.dryRun = some true →
      settings.delivery = .reportOnly) ∧
    (settings.diff = false → settings.check = false → o.dryRun ≠ some true →
      (∀ dir, o.outDir = some dir → settings.delivery = .below ⟨dir⟩) ∧
      (o.outDir = none →
        settings.delivery.label.toList =
          (Config.wrap? found WrapSection.mode).getD "overwrite".toList ∧
        ∀ dir, settings.delivery = .below dir →
          ∃ name, Config.wrap? found WrapSection.outDir = some name ∧ dir = root.join ⟨name⟩)) := by
  obtain ⟨-, hdelivery, hsettings⟩ := merge_eq_ok_iff.mp h
  have hdiff : settings.diff = o.asksDiff found := by rw [hsettings]
  have hcheck : settings.check = o.asksCheck found := by rw [hsettings]
  rw [hdiff, hcheck]
  refine ⟨rfl, rfl, fun hquiet => ?_, fun hnodiff hnocheck hnodry => ?_⟩
  · rw [delivery_of_quiet hquiet] at hdelivery
    exact (Except.ok.inj hdelivery).symm
  · have hopen : ¬ o.Quiet found := by simp [Quiet, hnodiff, hnocheck, hnodry]
    refine ⟨fun dir hdir => ?_, fun hnone => ?_⟩
    · rw [delivery_of_outDir hopen hdir] at hdelivery
      exact (Except.ok.inj hdelivery).symm
    · rw [delivery_of_config hopen hnone, WrapSection.delivery?_eq_ok_iff] at hdelivery
      rwa [Config.wrap?_eq found _ rfl, Config.wrap?_eq found _ rfl]

/-- **All ways to get no delivery.** -/
theorem delivery_eq_error_iff :
    o.delivery root found = .error e ↔
      ¬ o.Quiet found ∧ o.outDir = none ∧
        ((Config.wrap? found WrapSection.mode = some "new-path".toList ∧
            Config.wrap? found WrapSection.outDir = none ∧ e = .config .missingOutDir) ∨
          ∃ name, Config.wrap? found WrapSection.mode = some name ∧
            name ∉ ["overwrite".toList, "dry-run".toList, "new-path".toList] ∧
            e = .config (.unknownMode name)) := by
  by_cases hquiet : o.Quiet found
  · rw [delivery_of_quiet hquiet]
    exact ⟨nofun, fun h => absurd hquiet h.1⟩
  · cases hdir : o.outDir with
    | some dir =>
        rw [delivery_of_outDir hquiet hdir]
        exact ⟨nofun, fun h => by cases h.2.1⟩
    | none =>
        rw [delivery_of_config hquiet hdir, WrapSection.delivery?_eq_error_iff,
          Config.wrap?_eq found _ rfl, Config.wrap?_eq found _ rfl]
        simp [hquiet]

/-- **What the command line settles is settled**, and otherwise the configuration goes before the
usual values.

Under any two configurations, the form of reports that the command line names is the same or is
rejected alike, and so are a diff and a check that it asks for or takes back. Where it does both,
then the delivery that it settles by itself is the delivery under any configuration, and with the
form of reports given there are settings under both or the same error.

Under any one configuration, a diff, a check or a dry run never delivers a text; what the command
line leaves open is what the configuration says, or else the usual value; and there are no settings
only for a form of reports without a meaning, or, where nothing settles the delivery before it, for
a mode without a meaning or without its directory. -/
theorem merge_precedence (o : Overrides) (root : Path) :
    (∀ d, Discovery.root d o.start = root → o.resolve d = o.merge root (Discovery.load? d root)) ∧
    (∀ found found' settings settings', o.merge root found = .ok settings →
      o.merge root found' = .ok settings' →
      (o.output.isSome → settings.output = settings'.output) ∧
      (o.diff.isSome → settings.diff = settings'.diff) ∧
      (o.check.isSome → settings.check = settings'.check) ∧
      (o.diff.isSome → o.check.isSome → ∀ delivery, o.ownDelivery? = some delivery →
        settings.delivery = delivery ∧ settings'.delivery = delivery)) ∧
    (∀ found found' name, o.output.isSome →
      o.merge root found = .error (.config (.unknownOutput name)) →
      o.merge root found' = .error (.config (.unknownOutput name))) ∧
    (∀ found found' e, o.output.isSome → o.diff.isSome → o.check.isSome → o.ownDelivery?.isSome →
      o.merge root found = .error e → o.merge root found' = .error e) ∧
    (∀ found settings, o.merge root found = .ok settings →
      settings.repoRoot = root ∧ settings.configFound = found.isSome ∧
      settings.output.label.toList =
        (o.output.or (found.bind Config.output)).getD "human".toList ∧
      settings.patterns = (found.bind Config.patterns).getD [] ∧
      settings.diff = (o.diff.or (Config.wrap? found WrapSection.diff)).getD false ∧
      settings.check = (o.check.or (Config.wrap? found WrapSection.check)).getD false ∧
      (settings.diff = true ∨ settings.check = true ∨ o.dryRun = some true →
        settings.delivery = .reportOnly) ∧
      (settings.diff = false → settings.check = false → o.dryRun ≠ some true →
        (∀ dir, o.outDir = some dir → settings.delivery = .below ⟨dir⟩) ∧
        (o.outDir = none →
          settings.delivery.label.toList =
            (Config.wrap? found WrapSection.mode).getD "overwrite".toList ∧
          ∀ dir, settings.delivery = .below dir →
            ∃ name, Config.wrap? found WrapSection.outDir = some name ∧
              dir = root.join ⟨name⟩))) ∧
    ∀ found e, o.merge root found = .error e ↔
      ((o.outputName found ∉ ["human".toList, "json".toList] ∧
          e = .config (.unknownOutput (o.outputName found))) ∨
        (o.outputName found ∈ ["human".toList, "json".toList] ∧ ¬ o.Quiet found ∧
          o.outDir = none ∧
          ((Config.wrap? found WrapSection.mode = some "new-path".toList ∧
              Config.wrap? found WrapSection.outDir = none ∧ e = .config .missingOutDir) ∨
            ∃ name, Config.wrap? found WrapSection.mode = some name ∧
              name ∉ ["overwrite".toList, "dry-run".toList, "new-path".toList] ∧
              e = .config (.unknownMode name)))) := by
  refine ⟨?_, ?_, ?_, ?_, ?_, ?_⟩
  · rintro d rfl
    rfl
  · intro found found' settings settings' h h'
    obtain ⟨houtput, hdelivery, hsettings⟩ := merge_eq_ok_iff.mp h
    obtain ⟨houtput', hdelivery', hsettings'⟩ := merge_eq_ok_iff.mp h'
    refine ⟨fun hset => ?_, fun hset => ?_, fun hset => ?_, fun hdiff hcheck delivery hown => ?_⟩
    · rw [outputName_congr hset found found', ← houtput'] at houtput
      exact Except.ok.inj ((OutputForm.ofLabel_eq_ok_iff.mpr houtput).symm.trans
        (OutputForm.ofLabel_label _))
    · rw [hsettings, hsettings']
      exact asksDiff_congr hset found found'
    · rw [hsettings, hsettings']
      exact asksCheck_congr hset found found'
    · have hall := delivery_of_ownDelivery? hdiff hcheck hown root
      exact ⟨Except.ok.inj (hdelivery.symm.trans (hall found)),
        Except.ok.inj (hdelivery'.symm.trans (hall found'))⟩
  · intro found found' name hset h
    rcases merge_eq_error_iff.mp h with hform | ⟨-, hdelivery⟩
    · rw [outputName_congr hset found found'] at hform
      exact merge_eq_error_iff.mpr (Or.inl hform)
    · -- The delivery fails in other ways.
      obtain ⟨-, -, ⟨-, -, he⟩ | ⟨mode, -, -, he⟩⟩ := delivery_eq_error_iff.mp hdelivery
      · cases he
      · cases he
  · intro found found' e hset hdiff hcheck hown h
    obtain ⟨delivery, hown⟩ := Option.isSome_iff_exists.mp hown
    rcases merge_eq_error_iff.mp h with hform | ⟨-, hdelivery⟩
    · rw [outputName_congr hset found found'] at hform
      exact merge_eq_error_iff.mpr (Or.inl hform)
    · cases hdelivery.symm.trans (delivery_of_ownDelivery? hdiff hcheck hown root found)
  · intro found settings h
    obtain ⟨houtput, -, hsettings⟩ := merge_eq_ok_iff.mp h
    obtain ⟨hdiff, hcheck, hdelivery⟩ := delivery_of_merge h
    exact ⟨by rw [hsettings], by rw [hsettings], houtput, by rw [hsettings], hdiff, hcheck,
      hdelivery⟩
  · intro found e
    rw [merge_eq_error_iff, delivery_eq_error_iff]

/-- A configuration with a diff, and with a form of reports and a mode that do not exist. -/
def oddConfig : Config :=
  ⟨some "xml".toList, none, some ⟨some "move".toList, none, some true, none⟩⟩

/-- A command line that takes diffs and checks back. -/
def firmOverrides (output : String) : Overrides :=
  ⟨none, some output.toList, none, some "/out".toList, some false, some false⟩

/-- With the form and the directory given, an odd configuration makes no difference from none; and
an odd form is rejected under both. -/
theorem merge_precedence_odd :
    (∃ settings settings',
      (firmOverrides "json").merge (.ofString ".") (some oddConfig) = .ok settings ∧
      (firmOverrides "json").merge (.ofString ".") none = .ok settings' ∧
      settings.output = settings'.output ∧ settings.diff = settings'.diff ∧
      settings.check = settings'.check ∧ settings.delivery = .below (.ofString "/out") ∧
      settings'.delivery = .below (.ofString "/out")) ∧
    (firmOverrides "yaml").merge (.ofString ".") (some oddConfig) =
      .error (.config (.unknownOutput "yaml".toList)) ∧
    (firmOverrides "yaml").merge (.ofString ".") none =
      .error (.config (.unknownOutput "yaml".toList)) := by
  obtain ⟨-, htwo, -⟩ := merge_precedence (firmOverrides "json") (.ofString ".")
  obtain ⟨-, -, hrejected, -⟩ := merge_precedence (firmOverrides "yaml") (.ofString ".")
  have hodd : (firmOverrides "json").merge (.ofString ".") (some oddConfig) =
      .ok ⟨.ofString ".", true, .json, [], .below (.ofString "/out"), false, false⟩ := rfl
  have hnone : (firmOverrides "json").merge (.ofString ".") none =
      .ok ⟨.ofString ".", false, .json, [], .below (.ofString "/out"), false, false⟩ := rfl
  have hyaml : (firmOverrides "yaml").merge (.ofString ".") (some oddConfig) =
      .error (.config (.unknownOutput "yaml".toList)) := rfl
  obtain ⟨houtput, hdiff, hcheck, hdelivery⟩ := htwo _ _ _ _ hodd hnone
  obtain ⟨hbelow, hbelow'⟩ := hdelivery rfl rfl _ rfl
  exact ⟨⟨_, _, hodd, hnone, houtput rfl, hdiff rfl, hcheck rfl, hbelow, hbelow'⟩, hyaml,
    hrejected _ _ _ rfl hyaml⟩

end Overrides

end LocaleWrap
