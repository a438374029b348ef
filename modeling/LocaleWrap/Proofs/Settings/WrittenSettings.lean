import LocaleWrap.Proofs.Settings.BrokenConfig
import LocaleWrap.Proofs.Toml.Documents
import Mathlib.Data.List.Forall2

/-! # Written settings

Whatever settings are wanted, there is a configuration file that gives just these, with any texts
for the output form, the patterns, the mode and the directory for results.

* **`Config.toToml`** — settings as a TOML document.
* `Config.ofToml?_toToml` — the document gives the settings that it was written for.
* `Discovery.load?_of_written` — so does a repository root with this document in its configuration
  file. -/

namespace LocaleWrap

namespace Toml

/-! ## Written values -/

/-- A text as it is written. -/
def Written.string (t : Text) : Written := ⟨quoted t, .string t, writes_quoted t⟩

/-- A truth value as it is written. -/
def Written.boolean (b : Bool) : Written := ⟨writtenBoolean b, .boolean b, writes_boolean b⟩

/-- An array of written items. -/
def Written.array (ws : List Written) : Written where
  text := writtenArray (ws.map Written.text)
  value := .array (ws.map Written.value) false
  writes := writes_array (by
    rw [List.forall₂_map_left_iff, List.forall₂_map_right_iff]
    exact List.forall₂_same.mpr fun w _ => w.writes)

/-- The texts of an array of strings are the texts it was written for. -/
theorem texts?_strings (ts : List Text) :
    (Written.array (ts.map .string)).value.texts? = some ts := by
  show ((ts.map Written.string).map Written.value).mapM Value.text? = some ts
  induction ts with
  | nil => rfl
  | cons t ts ih =>
      rw [List.map_cons, List.map_cons, List.mapM_cons, ih]
      rfl

/-! ## Fields -/

/-- **A field of a record**: a bare key, and what is written for its value, if it has one. -/
structure Field where
  name : Text
  bare : IsBare name
  written : Option Written

/-- The setting for a field that has a value. -/
def Field.setting? (f : Field) : Option Setting := f.written.map fun w => ⟨f.name, f.bare, w⟩

/-- **The settings for the fields** that have values. -/
def settings (fs : List Field) : List Setting := fs.filterMap Field.setting?

variable {fs : List Field} {key : Text}

/-- The keys that are written are keys of fields, in their order. -/
theorem name_settings_sublist (fs : List Field) :
    ((settings fs).map Setting.name).Sublist (fs.map Field.name) := by
  induction fs with
  | nil => exact .slnil
  | cons f fs ih =>
      obtain ⟨name, bare, written⟩ := f
      cases written with
      | none => exact ih.cons name
      | some w => exact ih.cons_cons name

/-- A key that is no field's has no member. -/
theorem lookup_settings_of_not_mem (h : key ∉ fs.map Field.name) :
    ((settings fs).map Setting.member).lookup key = none := by
  refine List.lookup_eq_none_iff.mpr fun p hp => ?_
  obtain ⟨e, he, rfl⟩ := List.mem_map.mp hp
  have hmem : e.name ∈ fs.map Field.name :=
    (name_settings_sublist fs).subset (List.mem_map_of_mem he)
  have hne : key ≠ e.name := fun hsame => h (hsame ▸ hmem)
  simpa [Setting.member] using hne

/-- **The member for a field** has its value, and is missing where the field has none. -/
theorem lookup_settings (hdistinct : (fs.map Field.name).Nodup) :
    ∀ f ∈ fs, ((settings fs).map Setting.member).lookup f.name = f.written.map Written.value := by
  induction fs with
  | nil => simp
  | cons f fs ih =>
      obtain ⟨hfirst, hrest⟩ := List.nodup_cons.mp hdistinct
      obtain ⟨name, bare, written⟩ := f
      intro g hg
      cases written with
      | none =>
          rcases List.mem_cons.mp hg with rfl | hg
          · have hnone : ((settings fs).map Setting.member).lookup name = none :=
              lookup_settings_of_not_mem hfirst
            exact hnone
          · exact ih hrest g hg
      | some w =>
          rcases List.mem_cons.mp hg with rfl | hg
          · exact List.lookup_cons_self
          · have hne : g.name ≠ name := ne_of_mem_of_not_mem (List.mem_map_of_mem hg) hfirst
            have hskip : ((name, w.value) :: (settings fs).map Setting.member).lookup g.name
                = ((settings fs).map Setting.member).lookup g.name := by
              rw [List.lookup_cons, beq_false_of_ne hne]
            exact hskip.trans (ih hrest g hg)

/-- **An optional member is read back** where it is of the kind that was written. -/
theorem optional?_of_lookup {α : Type} {kind : Value → Option α} {ms : Members} {name : String}
    {o : Option α} {write : α → Written}
    (h : ms.lookup name.toList = (o.map write).map Written.value)
    (hkind : ∀ a, kind (write a).value = some a) : optional? kind name ms = some o := by
  rw [optional?, h]
  cases o with
  | none => rfl
  | some a => exact congrArg (Option.map some) (hkind a)

end Toml

open Toml

/-! ## The section on localizing -/

namespace WrapSection

/-- The fields of the section. -/
def fields (s : WrapSection) : List Field :=
  [⟨"mode".toList, by decide, s.mode.map .string⟩,
    ⟨"out_dir".toList, by decide, s.outDir.map .string⟩,
    ⟨"diff".toList, by decide, s.diff.map .boolean⟩,
    ⟨"check".toList, by decide, s.check.map .boolean⟩]

/-- The section has different keys. -/
theorem distinct_fields (s : WrapSection) : (s.fields.map Field.name).Nodup := by
  show ["mode".toList, "out_dir".toList, "diff".toList, "check".toList].Nodup
  decide

/-- The table that is written for a section. -/
def table (s : WrapSection) : Value := .table .header ((settings s.fields).map Setting.member)

/-- **The section is read back** from the table that is written for it. -/
theorem section?_table (s : WrapSection) : s.table.section? = some s := by
  have hlookup := lookup_settings s.distinct_fields
  rw [table]
  generalize (settings s.fields).map Setting.member = ms at hlookup
  obtain ⟨hmode, hlookup⟩ := List.forall_mem_cons.mp hlookup
  obtain ⟨houtDir, hlookup⟩ := List.forall_mem_cons.mp hlookup
  obtain ⟨hdiff, hlookup⟩ := List.forall_mem_cons.mp hlookup
  have hcheck := List.forall_mem_singleton.mp hlookup
  simp only [Value.section?]
  rw [optional?_of_lookup hmode fun _ => rfl, optional?_of_lookup houtDir fun _ => rfl,
    optional?_of_lookup hdiff fun _ => rfl, optional?_of_lookup hcheck fun _ => rfl]
  rfl

end WrapSection

/-! ## Settings -/

namespace Config

/-- The fields of the settings, without the section. -/
def fields (c : Config) : List Field :=
  [⟨"output".toList, by decide, c.output.map .string⟩,
    ⟨"patterns".toList, by decide, c.patterns.map fun ts => .array (ts.map .string)⟩]

/-- **Settings as a TOML document**: a line for each that is given, and at the end the section. -/
def toToml (c : Config) : Text :=
  (settings c.fields).flatMap Setting.line ++
    c.wrap.elim [] fun s => sectionText "wrap".toList (settings s.fields)

/-- The members of the document. -/
def members (c : Config) : Members :=
  (settings c.fields).map Setting.member ++ (c.wrap.map fun s => ("wrap".toList, s.table)).toList

/-- The fields have different keys. -/
theorem distinct_fields (c : Config) : (c.fields.map Field.name).Nodup := by
  show ["output".toList, "patterns".toList].Nodup
  decide

/-- The key of the section is none of them. -/
theorem wrap_not_mem_fields (c : Config) : "wrap".toList ∉ c.fields.map Field.name := by
  show "wrap".toList ∉ ["output".toList, "patterns".toList]
  decide

/-- **The document is read** as its members. -/
theorem parse_toToml (c : Config) : parse c.toToml = some c.members := by
  have hdistinct := c.distinct_fields.sublist (name_settings_sublist c.fields)
  rw [toToml, members]
  cases c.wrap with
  | none =>
      rw [Option.elim_none, parse_settings hdistinct (by simp), lines?_nil]
      simp
  | some s =>
      have hbelow := s.distinct_fields.sublist (name_settings_sublist s.fields)
      rw [Option.elim_some, parse_settings hdistinct (by simp [sectionText]),
        lines?_section (by decide) hbelow (lookup_settings_of_not_mem c.wrap_not_mem_fields)]
      rfl

/-- Other keys than that of the section are looked up among the fields. -/
theorem lookup_members_of_ne (c : Config) {key : Text} (h : key ≠ "wrap".toList) :
    c.members.lookup key = ((settings c.fields).map Setting.member).lookup key := by
  rw [members, List.lookup_append]
  cases c.wrap with
  | none => simp
  | some s =>
      rw [Option.map_some, Option.toList_some, List.lookup_cons, beq_false_of_ne h]
      simp

/-- The section is found under its key. -/
theorem lookup_wrap_members (c : Config) :
    c.members.lookup "wrap".toList = c.wrap.map WrapSection.table := by
  rw [members, List.lookup_append, lookup_settings_of_not_mem c.wrap_not_mem_fields]
  cases c.wrap with
  | none => rfl
  | some s =>
      rw [Option.map_some, Option.toList_some, List.lookup_cons, beq_self_eq_true]
      rfl

/-- **Written settings are read back.** The document for any settings gives these settings. -/
theorem ofToml?_toToml (c : Config) : Config.ofToml? c.toToml = some c := by
  have hlookup := List.forall_mem_cons.mp (lookup_settings c.distinct_fields)
  have hsecond := List.forall_mem_singleton.mp hlookup.2
  have houtput : c.members.lookup "output".toList = (c.output.map .string).map Written.value :=
    (c.lookup_members_of_ne (by decide)).trans hlookup.1
  have hpatterns : c.members.lookup "patterns".toList
      = (c.patterns.map fun ts => .array (ts.map .string)).map Written.value :=
    (c.lookup_members_of_ne (by decide)).trans hsecond
  have hwrap : optional? Value.section? "wrap" c.members = some c.wrap := by
    rw [optional?, c.lookup_wrap_members]
    cases c.wrap with
    | none => rfl
    | some s => exact congrArg (Option.map some) s.section?_table
  rw [Config.ofToml?, c.parse_toToml]
  simp only [Option.bind_eq_bind, Option.bind_some]
  rw [optional?_of_lookup houtput fun _ => rfl, optional?_of_lookup hpatterns texts?_strings,
    hwrap]
  rfl

example :
    (toToml ⟨some "json".toList, some ["a\"b".toList], some ⟨none, none, some true, none⟩⟩).asString
      = "output = \"json\"\npatterns = [\"a\\\"b\",]\n[wrap]\ndiff = true\n" := by
  decide

end Config

/-- **A root gives the settings** that are written in its configuration file. -/
theorem Discovery.load?_of_written {d : Disk} {root : Path} {c : Config}
    (h : d.readText (root.child "locwrap.toml".toList) = .ok c.toToml) :
    load? d root = some c := by
  obtain ⟨l, hlocate, hfile⟩ := Disk.readText_eq_ok_iff.mp h
  have hthere : d.contains (root.child "locwrap.toml".toList) = true :=
    Disk.contains_iff.mpr ⟨l, hlocate, by rw [hfile]; rfl⟩
  rw [load?, find, configFiles, findAmong, if_pos hthere, examine, h]
  simp only [Form.read?, c.ofToml?_toToml]
  rfl

end LocaleWrap
