import LocaleWrap.Proofs.Glob.Rebasing
import LocaleWrap.Proofs.Tree.Spelling
import LocaleWrap.Targets

/-! # The files that configured patterns stand for

A configured pattern is written behind the path of the root before it is read. As long as that path
has no wildcards of its own, the pattern stands for the files that it stands for in the root, and
none of them lies outside.

* **`Glob.Inward`** — a pattern that leads down from wherever it is expanded.
* **`Target.LiesBelow`**, **`Target.Contributes`** — where a file lies, and what a pattern adds to
  the files.
* `Target.collect_configured` — the configured patterns of a root without wildcards;
  `Target.collect_bracketed_root` — a root whose name is read as a class. -/

namespace LocaleWrap

open LocaleWrap.Path Text

namespace Glob

variable {t : Text} {Q : Pattern} {piece : Text}

/-! ## Patterns that lead down -/

/-- Whether a piece of a pattern takes in the directory above. -/
def takesAbove (piece : Text) : Bool :=
  match tokens piece with
  | .ok ts => ts.head? == some (.char '.') && matchName ts ['.', '.']
  | .error _ => false

/-- **A pattern that leads down** from wherever it is expanded: it is relative, none of its pieces
takes in the directory above, and where it begins with dots, a name comes after them. -/
structure Inward (t : Text) : Prop where
  relative : (⟨t⟩ : Path).isAbsolute = false
  down : ∀ piece ∈ pieces '/' t, takesAbove piece = false
  steady : isPattern t = true → Steady ['.'] [] (steps ⟨t⟩)

instance (t : Text) : Decidable (Inward t) :=
  decidable_of_iff
    ((⟨t⟩ : Path).isAbsolute = false ∧ (∀ piece ∈ pieces '/' t, takesAbove piece = false) ∧
      (isPattern t = true → Steady ['.'] [] (steps ⟨t⟩)))
    ⟨fun h => ⟨h.1, h.2.1, h.2.2⟩, fun h => ⟨h.relative, h.down, h.steady⟩⟩

/-- The pieces of a pattern that leads down are steps down. -/
theorem Inward.isDown (h : Inward t) (hpiece : piece ∈ pieces '/' t) : IsDown piece := by
  refine ⟨not_mem_of_mem_pieces hpiece, ?_⟩
  rintro rfl
  have hdots : takesAbove ['.', '.'] = true := by
    rw [takesAbove, tokens, tokensFrom_plain (by decide)]
    decide
  cases hdots.symm.trans (h.down _ hpiece)

/-- **The parts that are read from a piece** of such a pattern lead down. -/
theorem Inward.part {part : Part} (h : Inward t) (hpiece : piece ∈ pieces '/' t)
    (hpart : Part.parse piece = .ok part) : part.Inward := by
  cases part with
  | anyDepth => trivial
  | name ts =>
      refine ⟨fun name hname => ?_, fun hhead => ?_⟩
      · rw [eq_chars_of_literal? hname] at hpart
        exact eq_of_parse_eq_plainPart hpart ▸ h.isDown hpiece
      · have hdown := h.down piece hpiece
        simpa only [takesAbove, tokens_of_parse hpart, hhead, beq_self_eq_true, Bool.true_and]
          using hdown

/-- Dots and empty pieces are read as what they are. -/
theorem steadyParts_of_steady {ps : List Text} {parts : List Part}
    (hparts : List.Forall₂ (fun piece part => Part.parse piece = .ok part) ps parts)
    (h : Steady ['.'] [] ps) : SteadyParts parts := by
  induction hparts with
  | nil => simp [SteadyParts, Steady]
  | @cons x part ps parts hpart _ ih =>
      rw [steady_cons] at h
      rw [steadyParts_cons]
      by_cases hdot : x = ['.']
      · rw [if_pos hdot] at h
        have hplain : part = plainPart ['.'] := by
          rw [hdot, Part.parse_plain (by decide)] at hpart
          exact (Except.ok.inj hpart).symm
        rw [if_pos hplain]
        exact ih h
      · rw [if_neg hdot] at h
        have hplain : part ≠ plainPart ['.'] := fun heq =>
          hdot (eq_of_parse_eq_plainPart (heq ▸ hpart))
        rw [if_neg hplain]
        exact fun heq => h (eq_of_parse_eq_plainPart (heq ▸ hpart))

/-- Collapsing leaves parts that can be followed one by one. -/
theorem steadyParts_collapse {parts : List Part} (h : SteadyParts parts) :
    SteadyParts (collapse parts) := by
  fun_induction collapse parts with
  | case1 ps ih =>
      refine ih ?_
      rw [steadyParts_cons, if_neg (by decide)]
      decide
  | case2 p ps _ ih =>
      rw [steadyParts_cons] at h ⊢
      split_ifs at h ⊢
      · exact ih h
      · exact h
  | case3 => exact h

/-- **What is read from a pattern that leads down** leads down. -/
theorem Inward.parse (h : Inward t) (ht : isPattern t = true) (hparse : Pattern.parse t = .ok Q) :
    Q.Inward (2 * (t.byteLength + 1)) := by
  obtain ⟨-, parts, hparts, rfl⟩ := Pattern.parse_eq_ok_iff.mp hparse
  have hlength : parts.length = (cutParts t).length := by
    rw [← hparts.length_eq, steps_of_relative h.relative]
  have hne : t ≠ [] := by
    rintro rfl
    cases ht
  have hinward : ∀ part ∈ parts, part.Inward := by
    have hpieces : ∀ piece ∈ steps ⟨t⟩, piece ∈ pieces '/' t := by
      intro piece hpiece
      rw [steps_of_relative h.relative] at hpiece
      exact mem_pieces_of_mem_cutParts hpiece
    exact forall_mem_right ((List.forall₂_and_left _ _).mpr ⟨hpieces, hparts⟩)
      fun piece part hpart => h.part hpart.1 hpart.2
  -- The parts are those of the pieces, without some that repeat the one before.
  refine ⟨h.relative, collapse_ne_nil ?_, ?_, ?_, ?_⟩
  · rw [← List.length_pos_iff, hlength, List.length_pos_iff]
    exact cutParts_ne_nil hne
  · exact fun part hpart => hinward part ((collapse_sublist parts).subset hpart)
  · exact steadyParts_collapse (steadyParts_of_steady hparts (h.steady ht))
  · have hcollapse := (collapse_sublist parts).length_le
    have hcut := length_cutParts_le t
    have hweight := length_le_weight (pieces '/' t)
    rw [weight_pieces] at hweight
    dsimp only
    omega

end Glob

namespace Target

open LocaleWrap.Disk Glob

variable {d : Disk} {root p : Path} {r : Location} {t : Text} {ps : List Text}
  {patterns : List Text} {block targets : List Path}

/-! ## Where the files lie -/

/-- **A path at or below a root**: it is spelled by names from the root on, and leads nowhere else
than they do. -/
def LiesBelow (d : Disk) (root : Path) (r : Location) (p : Path) : Prop :=
  ∃ names, SpelledBelow d.cwdPath? root p names ∧ ∀ l, d.locate p = .ok l → l = r ++ names

/-- A path that begins where the root begins has an absolute form, as the root has one. -/
theorem exists_anchored?_of_denotes (hroot : d.Denotes root r)
    (habsolute : p.isAbsolute = root.isAbsolute) : ∃ full, p.anchored? d.cwdPath? = some full := by
  rw [anchored?, habsolute]
  split_ifs with hrelative
  · exact ⟨p, rfl⟩
  · -- A relative root begins in a directory.
    have hdir := directory_of_walk (pieces_ne_nil '/' root.text) hroot.follow
    rw [origin, if_neg hrelative] at hdir
    rw [cwdPath?, if_pos (by simp [Tree.isDirectory, hdir])]
    exact ⟨_, rfl⟩

/-- **Steps down from the root** lead to what lies below it. -/
theorem liesBelow_of_steps (hroot : d.Denotes root r) (hps : ∀ x ∈ ps, IsDown x)
    (habsolute : p.isAbsolute = root.isAbsolute)
    (hbody : p.body = root.body ++ componentsOf ps) (hfollow : d.follow p = walk d.tree r ps) :
    LiesBelow d root r p := by
  have horigin : d.origin p = d.origin root := origin_eq_of_isAbsolute habsolute
  obtain ⟨base, hbase⟩ := exists_anchored?_of_denotes hroot rfl
  obtain ⟨full, hfull⟩ := exists_anchored?_of_denotes hroot habsolute
  refine ⟨downNames ps, ⟨base, full, hbase, hfull, ?_⟩, fun l hl => ?_⟩
  · rw [components_of_anchored? hbase, components_of_anchored? hfull, horigin,
      List.cons_append, List.append_assoc, ← componentsOf_down hps]
    exact congrArg (fun cs => Component.root :: ((d.origin root).map Component.normal ++ cs)) hbody
  · have hwalk : walk d.tree r ps = .ok l := hfollow ▸ (Disk.locate_eq_ok_iff.mp hl).2
    exact eq_append_of_walk hps hwalk

/-! ## What a pattern adds -/

/-- **What a configured pattern adds to the files**: those that it stands for in the directory of
the root; without wildcards, the path that it is. -/
def Contributes (d : Disk) (root : Path) (r : Location) (t : Text) (block : List Path) : Prop :=
  if isPattern t = true then
    ∃ pattern, Pattern.parse t = .ok pattern ∧
      (block.map d.locate).Perm ((files (d.workingAt r) pattern).map (d.workingAt r).locate)
  else block = [root.join ⟨t⟩]

/-- **The files of several requests** are those of one after the other. -/
theorem collectAll_eq_ok {rs : List Request} (h : collectAll d rs = .ok targets) :
    ∃ blocks, List.Forall₂ (fun r block => r.files d = .ok block) rs blocks ∧
      targets = blocks.flatten := by
  induction rs generalizing targets with
  | nil =>
      obtain rfl := Except.ok.inj h
      exact ⟨[], .nil, rfl⟩
  | cons r rs ih =>
      rw [collectAll, bind_eq_ok_iff] at h
      obtain ⟨block, hblock, hrest⟩ := h
      cases hall : collectAll d rs with
      | error e => rw [hall] at hrest; cases hrest
      | ok targets' =>
          rw [hall] at hrest
          obtain ⟨blocks, hblocks, rfl⟩ := ih hall
          exact ⟨block :: blocks, .cons hblock hblocks, (Except.ok.inj hrest).symm⟩

variable (hroot : d.Denotes root r) (hplain : isPattern root.text = false)
  (hsteady : SteadyRoot root)

include hroot in
/-- **A path without wildcards** is a path down from the root. -/
theorem liesBelow_join (ht : Inward t) : LiesBelow d root r (root.join ⟨t⟩) := by
  have hfollow := follow_join (d := d) (p := root) ht.relative
  rw [hroot.follow] at hfollow
  exact liesBelow_of_steps hroot (fun x hx => ht.isDown hx)
    (isAbsolute_join_of_relative ht.relative) (body_join ht.relative) hfollow

include hroot hplain hsteady in
/-- **A pattern with wildcards** stands for what it stands for in the directory of the root. -/
theorem files_of_isPattern (ht : Inward t) (hpattern : isPattern t = true)
    (hroom : Roomy d.tree r (root.text.byteLength + 2 * t.byteLength + 4)) {P : Pattern}
    (hparse : Pattern.parse (root.join ⟨t⟩).text = .ok P) :
    (∃ pattern, Pattern.parse t = .ok pattern ∧ ((Glob.files d P).map d.locate).Perm
        ((files (d.workingAt r) pattern).map (d.workingAt r).locate)) ∧
      ∀ p ∈ Glob.files d P, LiesBelow d root r p := by
  have hfront : isPattern root.front = false := by
    rw [front_eq]
    split_ifs
    · exact hplain
    · rw [isPattern_append, hplain]
      rfl
  have hne : t ≠ [] := by
    rintro rfl
    cases hpattern
  have habsolute : (⟨root.front⟩ : Path).isAbsolute = root.isAbsolute :=
    isAbsolute_join_of_relative (q := ⟨[]⟩) rfl
  have hroom' : Roomy d.tree r (root.text.byteLength + 2 + 2 * (t.byteLength + 1)) := by
    intro names hnames
    have hshort := hroom names hnames
    omega
  -- What is read behind the root is what is read by itself, with the names of the root in front.
  rw [join_eq_front ht.relative,
    Pattern.parse_front_append hfront root.isFront_front ht.relative hne] at hparse
  obtain ⟨Q, hQ, rfl⟩ := hparse
  rw [habsolute]
  obtain ⟨hperm, hbelow⟩ := files_behind hroot hsteady hroom' (ht.parse hpattern hQ)
  refine ⟨⟨Q, hQ, hperm⟩, fun p hp => ?_⟩
  obtain ⟨ps, hp', hps⟩ := hbelow p hp
  exact liesBelow_of_steps hroot hps hp'.absolute hp'.body hp'.follow

include hroot hplain hsteady in
/-- **One configured pattern**: what it adds, and where that lies. -/
theorem files_configured (ht : Inward t)
    (hroom : isPattern t = true → Roomy d.tree r (root.text.byteLength + 2 * t.byteLength + 4))
    (h : Request.files d ⟨root.join ⟨t⟩, isPattern t⟩ = .ok block) :
    Contributes d root r t block ∧ ∀ p ∈ block, LiesBelow d root r p := by
  rw [Request.files] at h
  rw [Contributes]
  cases hpattern : isPattern t with
  | false =>
      rw [hpattern] at h
      obtain rfl := Except.ok.inj h
      refine ⟨rfl, fun p hp => ?_⟩
      rw [List.mem_singleton.mp hp]
      exact liesBelow_join hroot ht
  | true =>
      rw [hpattern, if_pos rfl] at h
      cases hparse : Pattern.parse (root.join ⟨t⟩).text with
      | error fault => rw [hparse] at h; cases h
      | ok P =>
          rw [hparse] at h
          obtain rfl : Glob.files d P = block := Except.ok.inj h
          rw [if_pos rfl]
          exact files_of_isPattern hroot hplain hsteady ht hpattern (hroom hpattern) hparse

/-- **Configured patterns stay in the root**, as long as its path has no wildcards. All files that
are collected lie at or below the root, and each pattern adds those that it stands for when it is
expanded with the root as the working directory. The patterns lead down, and what lies below the
root has paths that are short enough. -/
theorem collect_configured (hroot : d.Denotes root r) (hplain : isPattern root.text = false)
    (hsteady : SteadyRoot root) (hdown : ∀ t ∈ patterns, Inward t)
    (hroom : ∀ t ∈ patterns, isPattern t = true →
      Roomy d.tree r (root.text.byteLength + 2 * t.byteLength + 4))
    (h : collect d root [] patterns = .ok targets) :
    (∀ p ∈ targets, LiesBelow d root r p) ∧
      ∃ blocks, targets = blocks.flatten ∧
        List.Forall₂ (Contributes d root r) patterns blocks := by
  rw [collect, bind_eq_ok_iff] at h
  obtain ⟨all, hall, h⟩ := h
  obtain rfl : all = targets := by
    split_ifs at h
    exact Except.ok.inj h
  obtain ⟨blocks, hblocks, rfl⟩ := collectAll_eq_ok hall
  have hrequests : requests root [] patterns =
      patterns.map fun t => ⟨root.join ⟨t⟩, isPattern t⟩ := rfl
  rw [hrequests, List.forall₂_map_left_iff] at hblocks
  have hspec : List.Forall₂ (fun t block => Contributes d root r t block ∧
      ∀ p ∈ block, LiesBelow d root r p) patterns blocks := by
    have hboth := (List.forall₂_and_left _ _).mpr
      ⟨fun t ht => And.intro (hdown t ht) (hroom t ht), hblocks⟩
    exact hboth.imp fun t block ⟨⟨ht, hroom⟩, hfiles⟩ =>
      files_configured hroot hplain hsteady ht hroom hfiles
  refine ⟨fun p hp => ?_, blocks, rfl, hspec.imp fun t block hblock => hblock.1⟩
  obtain ⟨block, hblock, hmem⟩ := List.mem_flatten.mp hp
  have hbelow : ∀ block ∈ blocks, ∀ p ∈ block, LiesBelow d root r p :=
    forall_mem_right hspec fun t block hblock => hblock.2
  exact hbelow block hblock p hmem

/-- A repository below the working directory, beside a file that is not its own. -/
def webDisk : Disk :=
  ⟨{ entries := [
      (["home".toList], .directory), (["home".toList, "web".toList], .directory),
      (["home".toList, "web".toList, "src".toList], .directory),
      (["home".toList, "web".toList, "src".toList, "a.ts".toList],
        .file (.text "  name: 'A',\n".toList)),
      (["home".toList, "web".toList, "b.ts".toList], .file (.text "  name: 'B',\n".toList)),
      (["home".toList, "c.ts".toList], .file (.text "  name: 'C',\n".toList))] },
    ["home".toList]⟩

/-- With a relative root, a pattern for any depth and a path that is listed once more, the file
beside the root is left alone. -/
theorem collect_configured_relative :
    webDisk.Denotes (.ofString "./web") ["home".toList, "web".toList] ∧
    collect webDisk (.ofString "./web") [] ["./**/a*".toList, "src//a.ts".toList] =
      .ok [.ofString "web/./src/a.ts", .ofString "./web/src//a.ts"] ∧
    (∀ p ∈ [Path.ofString "web/./src/a.ts", .ofString "./web/src//a.ts"],
      LiesBelow webDisk (.ofString "./web") ["home".toList, "web".toList] p) ∧
    ∃ blocks, [Path.ofString "web/./src/a.ts", .ofString "./web/src//a.ts"] =
        blocks.flatten ∧
      List.Forall₂ (Contributes webDisk (.ofString "./web") ["home".toList, "web".toList])
        ["./**/a*".toList, "src//a.ts".toList] blocks := by
  have hroot : webDisk.Denotes (.ofString "./web") ["home".toList, "web".toList] := by
    decide +kernel
  have hcollect : collect webDisk (.ofString "./web") [] ["./**/a*".toList, "src//a.ts".toList] =
      .ok [.ofString "web/./src/a.ts", .ofString "./web/src//a.ts"] := by
    decide +kernel
  have hroom : ∀ t ∈ ["./**/a*".toList, "src//a.ts".toList], isPattern t = true →
      Roomy webDisk.tree ["home".toList, "web".toList]
        ((Path.ofString "./web").text.byteLength + 2 * Text.byteLength t + 4) := by
    intro t ht _
    refine roomy_of_entries ?_ ?_
    · revert t
      decide +kernel
    · revert t
      decide +kernel
  exact ⟨hroot, hcollect, collect_configured hroot (by decide +kernel) (by decide +kernel)
    (by decide +kernel) hroom hcollect⟩

/-- A repository whose name is a class as well, beside a directory whose name is in that class. -/
def bracketDisk : Disk :=
  ⟨{ entries := [
      (["[ab]".toList], .directory),
      (["[ab]".toList, "x.ts".toList], .file (.text "  name: 'A',\n".toList)),
      (["a".toList], .directory),
      (["a".toList, "x.ts".toList], .file (.text "  name: 'B',\n".toList))] }, []⟩

/-- **A root whose name is read as a class** is not the directory that is searched: the file that is
collected lies in another one, and that of the root is missing. -/
theorem collect_bracketed_root :
    bracketDisk.Denotes (.ofString "[ab]") ["[ab]".toList] ∧ Inward "*.ts".toList ∧
    collect bracketDisk (.ofString "[ab]") [] ["*.ts".toList] = .ok [.ofString "a/x.ts"] ∧
    (¬ ∀ p ∈ [Path.ofString "a/x.ts"], LiesBelow bracketDisk (.ofString "[ab]") ["[ab]".toList] p) ∧
    ¬ ∃ blocks, [Path.ofString "a/x.ts"] = blocks.flatten ∧
      List.Forall₂ (Contributes bracketDisk (.ofString "[ab]") ["[ab]".toList]) ["*.ts".toList]
        blocks := by
  refine ⟨by decide +kernel, by decide +kernel, by decide +kernel, fun hbelow => ?_, ?_⟩
  · have hlocate : bracketDisk.locate (.ofString "a/x.ts") = .ok ["a".toList, "x.ts".toList] := by
      decide +kernel
    obtain ⟨names, -, hplace⟩ := hbelow _ List.mem_cons_self
    exact absurd (List.cons.inj (hplace _ hlocate)).1 (by decide)
  · rintro ⟨blocks, hflatten, hblocks⟩
    obtain ⟨block, -, hblock, ⟨⟩, rfl⟩ := List.forall₂_cons_left_iff.mp hblocks
    rw [List.flatten_cons, List.flatten_nil, List.append_nil] at hflatten
    rw [← hflatten, Contributes, if_pos (by decide)] at hblock
    obtain ⟨pattern, hparse, hperm⟩ := hblock
    have hpattern : Pattern.parse "*.ts".toList =
        .ok ⟨false, [.name [.anyRun, .char '.', .char 't', .char 's']], false⟩ := by
      decide +kernel
    obtain rfl := Except.ok.inj (hparse.symm.trans hpattern)
    revert hperm
    decide +kernel

end Target

end LocaleWrap
