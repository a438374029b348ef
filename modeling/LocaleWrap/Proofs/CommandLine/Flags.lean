import LocaleWrap.CommandLine.Request
import LocaleWrap.Proofs.Tree.Shape
import Mathlib.Data.List.TakeWhile

/-! # Flags on the command line

What has been entered stays entered while the rest of a command line is read, so a flag counts
wherever it stands, as long as it stands before two dashes.

* **`Progress.Extends`** — one state of reading goes on from another. Each argument does this
  (`Progress.extends_argument`), and so does a whole command line (`Progress.extends_foldlM`).
* `CommandLine.set?_of_mem` — a flag that is given to a command is set in the end.
* `CommandLine.exists_wrap_of_flag` — the flags that promise not to write are in the request. -/

namespace LocaleWrap

namespace CommandLine

open Disk (bind_eq_ok_iff)

namespace Progress

variable {p q r : Progress} {o : OptionSpec} {t : Text} {name : String}

/-- **The reading goes on**: the same command, with at least as much entered. -/
structure Extends (p q : Progress) : Prop where
  grammar : q.grammar = p.grammar
  entered : p.entered <+: q.entered

namespace Extends

/-- Reading may stand still. -/
theorem refl (p : Progress) : p.Extends p := ⟨rfl, List.prefix_rfl⟩

/-- Going on and going on again is going on. -/
theorem trans (h : p.Extends q) (h' : q.Extends r) : p.Extends r :=
  ⟨h'.grammar.trans h.grammar, h.entered.trans h'.entered⟩

/-- What has been used stays used. -/
theorem used (h : p.Extends q) (hname : name ∈ p.used) : name ∈ q.used := by
  rw [Progress.used, List.mem_eraseDups, List.mem_map] at hname ⊢
  obtain ⟨e, he, rfl⟩ := hname
  exact ⟨e, h.entered.subset he, rfl⟩

end Extends

/-! ## One argument -/

/-- **An option that is entered** is used from then on. -/
theorem extends_enter {values : List Text} (h : p.enter o values = .ok q) :
    p.Extends q ∧ q.dashes = p.dashes ∧ o.name ∈ q.used := by
  rw [enter] at h
  split at h
  · cases h
  · obtain rfl := Except.ok.inj h
    refine ⟨⟨rfl, List.prefix_append _ _⟩, rfl, ?_⟩
    simp [used, List.mem_eraseDups]

/-- Entering the pending option goes on, on the same side of the dashes. -/
theorem extends_settle (h : p.settle = .ok q) : p.Extends q ∧ q.dashes = p.dashes := by
  rw [settle] at h
  split at h
  · obtain rfl := Except.ok.inj h
    exact ⟨.refl p, rfl⟩
  · cases h
  · obtain ⟨⟨hgrammar, hentered⟩, hdashes, -⟩ := extends_enter h
    exact ⟨⟨hgrammar, hentered⟩, hdashes⟩

/-- Entering an operand goes on, on the same side of the dashes. -/
theorem extends_operand (h : p.operand t = .ok q) : p.Extends q ∧ q.dashes = p.dashes := by
  rw [operand] at h
  split at h
  · split at h
    · cases hsettle : p.settle with
      | error c => simp [hsettle, Except.map] at h
      | ok p' =>
          obtain ⟨hextends, hdashes⟩ := extends_settle hsettle
          rw [hsettle] at h
          obtain rfl := Except.ok.inj h
          exact ⟨⟨hextends.grammar, hextends.entered.trans (List.prefix_append _ _)⟩, hdashes⟩
    · cases h
  · cases h

/-- **An option by its name** goes on with the reading, and a flag is entered by it. -/
theorem extends_option {attached : Option Text} {name : Text}
    (h : p.option name attached = .ok q) :
    p.Extends q ∧ q.dashes = p.dashes ∧
      ∀ o, p.grammar.options.find? (fun o => o.name.toList == name) = some o →
        o.valueName = none → o.name ∈ q.used := by
  unfold option at h
  split at h
  · next o ho =>
    split at h
    · next v w hv =>
      -- an option with its value attached
      obtain ⟨p', hsettle, henter⟩ := bind_eq_ok_iff.mp h
      obtain ⟨hextends, hdashes⟩ := extends_settle hsettle
      obtain ⟨hextends', hdashes', -⟩ := extends_enter henter
      refine ⟨hextends.trans hextends', hdashes'.trans hdashes, fun o' ho' hnone => ?_⟩
      obtain rfl := Option.some.inj (ho.symm.trans ho')
      simp [hnone] at hv
    · next v hv =>
      -- an option whose value is still to come
      cases hsettle : p.settle with
      | error c => simp [hsettle, Except.map] at h
      | ok p' =>
          obtain ⟨hextends, hdashes⟩ := extends_settle hsettle
          rw [hsettle] at h
          obtain rfl := Except.ok.inj h
          refine ⟨⟨hextends.grammar, hextends.entered⟩, hdashes, fun o' ho' hnone => ?_⟩
          obtain rfl := Option.some.inj (ho.symm.trans ho')
          simp [hnone] at hv
    · cases h
    · -- a flag
      obtain ⟨p', hsettle, henter⟩ := bind_eq_ok_iff.mp h
      obtain ⟨hextends, hdashes⟩ := extends_settle hsettle
      obtain ⟨hextends', hdashes', hused⟩ := extends_enter henter
      refine ⟨hextends.trans hextends', hdashes'.trans hdashes, fun o' ho' _ => ?_⟩
      obtain rfl := Option.some.inj (ho.symm.trans ho')
      exact hused
  · -- no option of the command: help, the version, or a complaint
    split at h
    · dsimp only at h
      split at h <;> cases h
    · dsimp only at h
      split at h
      · obtain ⟨p', -, hcomplain⟩ := bind_eq_ok_iff.mp h
        cases hcomplain
      · cases h

/-- An option by its letter asks for help or for the version, or is complained about. -/
theorem letter_ne_ok (p : Progress) (c : Char) : p.letter c ≠ .ok q := by
  intro h
  rw [letter] at h
  split at h
  · obtain ⟨p', -, hcomplain⟩ := bind_eq_ok_iff.mp h
    cases hcomplain
  · split at h
    · obtain ⟨p', -, hcomplain⟩ := bind_eq_ok_iff.mp h
      cases hcomplain
    · cases h

/-- **One argument** goes on with the reading. Only two dashes begin the operands. -/
theorem extends_argument (h : p.argument t = .ok q) :
    p.Extends q ∧ (t ≠ ['-', '-'] → q.dashes = p.dashes) := by
  unfold argument at h
  split at h
  · obtain ⟨hextends, hdashes⟩ := extends_operand h
    exact ⟨hextends, fun _ => hdashes⟩
  · split at h
    · obtain rfl := Except.ok.inj h
      exact ⟨⟨rfl, List.prefix_rfl⟩, fun hne => absurd rfl hne⟩
    · obtain ⟨hextends, hdashes, -⟩ := extends_option h
      exact ⟨hextends, fun _ => hdashes⟩
    · exact absurd h (letter_ne_ok p _)
    · split at h
      · obtain rfl := Except.ok.inj h
        exact ⟨⟨rfl, List.prefix_rfl⟩, fun _ => rfl⟩
      · obtain ⟨hextends, hdashes⟩ := extends_operand h
        exact ⟨hextends, fun _ => hdashes⟩

/-- **An argument that is a flag** is entered, before two dashes. -/
theorem used_argument {name : Text} (hdashes : p.dashes = false) (hname : name ≠ [])
    (hequals : '=' ∉ name) (ho : p.grammar.options.find? (fun o => o.name.toList == name) = some o)
    (hflag : o.valueName = none) (h : p.argument ('-' :: '-' :: name) = .ok q) :
    o.name ∈ q.used := by
  have htake : name.takeWhile (· != '=') = name := by
    rw [List.takeWhile_eq_self_iff]
    intro c hc
    rw [bne_iff_ne]
    rintro rfl
    exact hequals hc
  have hoption : p.argument ('-' :: '-' :: name) = p.option name none := by
    cases name with
    | nil => exact absurd rfl hname
    | cons c cs => simp only [argument, hdashes, htake, Nat.lt_irrefl, if_false, Bool.false_eq_true]
  rw [hoption] at h
  exact (extends_option h).2.2 o ho hflag

/-! ## A whole command -/

/-- **Several arguments** go on with the reading. -/
theorem extends_foldlM {arguments : List Text} (h : arguments.foldlM argument p = .ok q) :
    p.Extends q := by
  induction arguments generalizing p with
  | nil =>
      obtain rfl := Except.ok.inj h
      exact .refl p
  | cons t ts ih =>
      rw [List.foldlM_cons] at h
      obtain ⟨p', hargument, hrest⟩ := bind_eq_ok_iff.mp h
      exact (extends_argument hargument).1.trans (ih hrest)

/-- **A flag among several arguments** is entered, if it stands before two dashes. -/
theorem used_foldlM {arguments : List Text} {name : Text} (hdashes : p.dashes = false)
    (hname : name ≠ []) (hequals : '=' ∉ name)
    (ho : p.grammar.options.find? (fun o => o.name.toList == name) = some o)
    (hflag : o.valueName = none)
    (hmem : '-' :: '-' :: name ∈ arguments.takeWhile (· ≠ ['-', '-']))
    (h : arguments.foldlM argument p = .ok q) : o.name ∈ q.used := by
  induction arguments generalizing p with
  | nil => cases hmem
  | cons t ts ih =>
      rw [List.foldlM_cons] at h
      obtain ⟨p', hargument, hrest⟩ := bind_eq_ok_iff.mp h
      have ht : t ≠ ['-', '-'] := by
        rintro rfl
        simp at hmem
      rw [List.takeWhile_cons_of_pos (by simpa using ht)] at hmem
      obtain ⟨hextends, hdashes'⟩ := extends_argument hargument
      rcases List.mem_cons.mp hmem with rfl | hmem
      · exact (extends_foldlM hrest).used
          (used_argument hdashes hname hequals ho hflag hargument)
      · exact ih ((hdashes' ht).trans hdashes) (by rwa [hextends.grammar]) hmem hrest

/-- The end of the arguments goes on from what was entered. -/
theorem extends_finish (h : p.finish = .ok q) : p.Extends q := by
  obtain ⟨p', hsettle, h⟩ := bind_eq_ok_iff.mp h
  have hextends := (extends_settle hsettle).1
  split at h
  · split at h
    · cases h
    · obtain rfl := Except.ok.inj h
      exact hextends
  · obtain rfl := Except.ok.inj h
    exact hextends

/-- A flag is set or says nothing: no flag takes back what the configuration asks for. -/
theorem set?_ne_some_false (p : Progress) (name : String) : p.set? name ≠ some false := by
  rw [set?]
  split <;> simp

/-- A flag that was used counts as set. -/
theorem set?_of_mem_used (h : name ∈ p.used) : p.set? name = some true := by
  rw [set?, flag, if_pos (by simpa using h)]

end Progress

/-! ## Requests -/

variable {g : Grammar} {p : Progress}

/-- What was read belongs to the command it was read for. -/
theorem grammar_readCommand {arguments : List Text} (h : readCommand g arguments = .ok p) :
    p.grammar = g := by
  obtain ⟨q, hfold, hfinish⟩ := bind_eq_ok_iff.mp h
  exact ((Progress.extends_foldlM hfold).trans (Progress.extends_finish hfinish)).grammar

/-- **A flag that is given to a command is set**, wherever it stands before two dashes. -/
theorem set?_of_mem {arguments : List Text} {o : OptionSpec} {name : Text} (hname : name ≠ [])
    (hequals : '=' ∉ name) (ho : g.options.find? (fun o => o.name.toList == name) = some o)
    (hflag : o.valueName = none)
    (hmem : '-' :: '-' :: name ∈ arguments.takeWhile (· ≠ ['-', '-']))
    (h : readCommand g arguments = .ok p) : p.set? o.name = some true := by
  obtain ⟨q, hfold, hfinish⟩ := bind_eq_ok_iff.mp h
  apply Progress.set?_of_mem_used
  exact (Progress.extends_finish hfinish).used
    (Progress.used_foldlM rfl hname hequals ho hflag hmem hfold)

/-- A request to wrap takes its paths and overrides from the arguments that were entered. -/
theorem requestOf_wrap (h : p.grammar = .wrap) :
    requestOf p = .wrap (p.values "PATHS") ⟨p.value? "repo-root", p.value? "output",
      p.set? "dry-run", p.value? "out-dir", p.set? "diff", p.set? "check"⟩ := by
  rw [requestOf, h]
  rfl

/-- **A request to localize files** has its flags from what was entered. -/
theorem exists_progress_of_parse {arguments : List String} {paths : List Text} {o : Overrides}
    (h : Request.parse arguments = .ok (.wrap paths o)) :
    ∃ p : Progress, o.dryRun = p.set? "dry-run" ∧ o.diff = p.set? "diff" ∧
      o.check = p.set? "check" := by
  rw [Request.parse] at h
  unfold readRoot at h
  split at h
  · cases h
  · next t ts _ =>
    split at h
    · next g hg =>
      split at h
      · cases h
      · -- Of the commands only this one gives such a request.
        cases hread : readCommand g ts with
        | error c => simp [hread, Except.map] at h
        | ok p =>
            rw [hread] at h
            replace h := Except.ok.inj h
            unfold requestOf at h
            split at h
            · obtain ⟨-, rfl⟩ := Request.wrap.inj h
              exact ⟨p, rfl, rfl, rfl⟩
            · cases h
            · cases h
            · cases h
    · split at h
      · split at h
        · cases h
        · split at h <;> cases h
      · split at h <;> cases h
      · cases h

/-- **A flag that promises not to write is in the request**, wherever it stands before two
dashes. -/
theorem exists_wrap_of_flag {rest : List String} {flag : String} {request : Request}
    (hflag : flag ∈ ["--dry-run", "--diff", "--check"]) (hmem : flag ∈ rest.takeWhile (· ≠ "--"))
    (h : Request.parse ("wrap" :: rest) = .ok request) :
    ∃ paths o, request = .wrap paths o ∧
      (o.dryRun = some true ∨ o.diff = some true ∨ o.check = some true) := by
  have hparse : Request.parse ("wrap" :: rest) =
      (readCommand .wrap (rest.map Text.ofString)).map requestOf := rfl
  have hmem' : Text.ofString flag ∈ (rest.map Text.ofString).takeWhile (· ≠ ['-', '-']) := by
    have hdashes : ∀ s : String, Text.ofString s = ['-', '-'] ↔ s = "--" := by
      intro s
      rw [← String.toList_inj]
      rfl
    rw [List.takeWhile_map]
    simpa [Function.comp_def, hdashes] using List.mem_map_of_mem hmem
  cases hread : readCommand .wrap (rest.map Text.ofString) with
  | error c => simp [hparse, hread, Except.map] at h
  | ok p =>
      rw [hparse, hread] at h
      obtain rfl := Except.ok.inj h
      refine ⟨_, _, requestOf_wrap (grammar_readCommand hread), ?_⟩
      simp only [List.mem_cons, List.not_mem_nil, or_false] at hflag
      rcases hflag with rfl | rfl | rfl
      · exact Or.inl (set?_of_mem (by decide) (by decide) rfl rfl hmem' hread)
      · exact Or.inr (Or.inl (set?_of_mem (by decide) (by decide) rfl rfl hmem' hread))
      · exact Or.inr (Or.inr (set?_of_mem (by decide) (by decide) rfl rfl hmem' hread))

end CommandLine

end LocaleWrap
