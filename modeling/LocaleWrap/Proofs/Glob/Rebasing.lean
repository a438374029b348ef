import LocaleWrap.Proofs.Glob.Steps

/-! # A pattern behind the path of a directory

A pattern can be expanded in a directory, where paths begin anew, or behind the path of the
directory. The two expansions go side by side: each path that one comes by takes the same steps as
a path that the other comes by, and so leads to the same place.

* **`Glob.Rebased`** — two paths that take the same steps down; `Rebased.locate_iff` says that they
  lead to the same place.
* `Glob.forall₂_expandParts` — the expansions side by side.
* **`Glob.Pattern.behind`** — a pattern behind a root; `Glob.files_behind` says that it stands for
  the files that the pattern stands for in the root. -/

namespace LocaleWrap

open LocaleWrap.Path

/-- **The disk with another working directory.** -/
def Disk.workingAt (d : Disk) (r : Location) : Disk := { d with cwd := r }

@[simp] theorem Disk.tree_workingAt (d : Disk) (r : Location) : (d.workingAt r).tree = d.tree := rfl

namespace Glob

open LocaleWrap.Disk Text

variable {d : Disk} {root p q : Path} {l m r : Location} {room n : Nat}
  {ps names : List Text} {x : Text} {ts : List Token} {parts : List Part}

/-! ## Steps down -/

/-- **A step down**: a piece that is no step up. -/
def IsDown (x : Text) : Prop := '/' ∉ x ∧ x ≠ ['.', '.']

instance (x : Text) : Decidable (IsDown x) := inferInstanceAs (Decidable (_ ∧ _))

/-- The names among steps down. -/
def downNames (ps : List Text) : List Text := ps.filter fun x => !isIdle x

/-- What is not idle among steps down is a name. -/
theorem isName_of_mem_downNames (h : ∀ x ∈ ps, IsDown x) : ∀ x ∈ downNames ps, IsName x := by
  intro x hx
  obtain ⟨hmem, hidle⟩ := List.mem_filter.mp hx
  exact ⟨(h x hmem).1, by simpa using hidle, (h x hmem).2⟩

/-- The components of steps down are their names. -/
theorem componentsOf_down (h : ∀ x ∈ ps, IsDown x) :
    componentsOf ps = (downNames ps).map .normal :=
  List.map_congr_left fun x hx => if_neg (isName_of_mem_downNames h x hx).2.2

/-- **Idle pieces are short**, and names account for the others. -/
theorem weight_down (ps : List Text) :
    weight ps ≤ weight (downNames ps) + 2 * ps.countP isIdle := by
  induction ps with
  | nil => exact Nat.le_refl 0
  | cons x ps ih =>
      rw [downNames, List.filter_cons, ← downNames, weight_cons]
      by_cases hidle : isIdle x = true
      · have hlength : byteLength x ≤ 1 := by
          have hx : x = [] ∨ x = ['.'] := by simpa [isIdle] using hidle
          rcases hx with rfl | rfl <;> decide
        rw [if_neg (by simp [hidle]), List.countP_cons_of_pos hidle]
        omega
      · rw [if_pos (by simp [hidle]), List.countP_cons_of_neg hidle, weight_cons]
        omega

/-- Walking steps down ends below the beginning, at the names walked. -/
theorem eq_append_of_walk {t : Tree} (h : ∀ x ∈ ps, IsDown x) (hwalk : walk t l ps = .ok m) :
    m = l ++ downNames ps := by
  rw [walk_eq_foldl hwalk, componentsOf_down h, foldl_follow_names]

/-! ## Questions about a path -/

/-- The directory of a path is where the path leads, if a directory stands there. -/
theorem directoryAt?_eq_some_iff :
    directoryAt? d p = some l ↔ d.locate p = .ok l ∧ d.tree.get? l = some .directory := by
  rw [directoryAt?]
  split_ifs with hdir
  · obtain ⟨m, hm, hmdir⟩ := isDirectory_iff.mp hdir
    simp only [hm, Except.toOption, Option.some.injEq, Except.ok.injEq]
    exact ⟨fun h => ⟨h, h ▸ hmdir⟩, And.left⟩
  · rw [isDirectory_iff] at hdir
    simpa using fun hl hldir => hdir ⟨l, hl, hldir⟩

/-! ## Paths that take the same steps -/

/-- **Parts that can be followed one by one** from the working directory. -/
def SteadyParts (parts : List Part) : Prop := Steady (plainPart ['.']) (plainPart []) parts

/-- Behind a dot the parts must be steady again; any other first part only must not be empty. -/
theorem steadyParts_cons {part : Part} : SteadyParts (part :: parts) ↔
    if part = plainPart ['.'] then SteadyParts parts else part ≠ plainPart [] := steady_cons

/-- **Two paths that take the same steps down**, one from the path of a directory and the other in
that directory, with some parts of a pattern to come. There are `n` bytes for idle steps, and each
of the parts may still use two. -/
def Rebased (d : Disk) (root : Path) (r : Location) (room n : Nat) (parts : List Part)
    (p q : Path) : Prop :=
  ∃ ps, d.Along root r room ps p ∧ (d.workingAt r).Along ⟨['.']⟩ r room ps q ∧
    (∀ x ∈ ps, IsDown x) ∧ 2 * (ps.countP isIdle + parts.length) ≤ n ∧
    (componentsOf ps = [] → SteadyParts parts)

/-- **Paths to what is there are short enough** to be followed. -/
def Roomy (t : Tree) (r : Location) (room : Nat) : Prop :=
  ∀ names, (t.get? (r ++ names)).isSome → room + weight names < pathLimit

/-- It is enough to look at the entries that are listed. -/
theorem roomy_of_entries {t : Tree} (hempty : room < pathLimit)
    (h : ∀ e ∈ t.entries, room + weight (e.1.drop r.length) < pathLimit) : Roomy t r room := by
  intro names hsome
  by_cases hnil : names = []
  · rw [hnil]
    exact hempty
  · obtain ⟨e, he, heq⟩ := Tree.exists_mem_entries hsome (by simp [hnil])
    have hshort := h e he
    rwa [heq, List.drop_left] at hshort

namespace Rebased

/-- **They lead to the same place.** -/
theorem locate_iff (h : Rebased d root r room n parts p q) (hroom : Roomy d.tree r (room + n))
    (hl : (d.tree.get? l).isSome) :
    d.locate p = .ok l ↔ (d.workingAt r).locate q = .ok l := by
  obtain ⟨ps, hp, hq, hps, hidle, -⟩ := h
  -- The steps lead to something that is there, so there is room for both paths.
  have hshort : walk d.tree r ps = .ok l → room + weight ps < pathLimit := by
    intro hwalk
    obtain rfl := eq_append_of_walk hps hwalk
    have hnames := hroom _ hl
    have hweight := weight_down ps
    omega
  constructor
  · intro hlocate
    have hwalk : walk d.tree r ps = .ok l := hp.follow ▸ (Disk.locate_eq_ok_iff.mp hlocate).2
    exact (hq.locate_eq_ok_iff (hshort hwalk)).mpr ((hp.locate_eq_ok_iff (hshort hwalk)).mp hlocate)
  · intro hlocate
    have hwalk : walk d.tree r ps = .ok l := hq.follow ▸ (Disk.locate_eq_ok_iff.mp hlocate).2
    exact (hp.locate_eq_ok_iff (hshort hwalk)).mpr ((hq.locate_eq_ok_iff (hshort hwalk)).mp hlocate)

/-- **The same questions get the same answers.** -/
theorem contains (h : Rebased d root r room n parts p q) (hroom : Roomy d.tree r (room + n)) :
    d.contains p = (d.workingAt r).contains q := by
  rw [Bool.eq_iff_iff, contains_iff, contains_iff]
  exact exists_congr fun l => and_congr_left fun hl => h.locate_iff hroom hl

/-- Paths that take the same steps lead to a directory both or neither. -/
theorem isDirectory (h : Rebased d root r room n parts p q) (hroom : Roomy d.tree r (room + n)) :
    d.isDirectory p = (d.workingAt r).isDirectory q := by
  rw [Bool.eq_iff_iff, isDirectory_iff, isDirectory_iff]
  exact exists_congr fun l => and_congr_left fun hl =>
    h.locate_iff hroom (Option.isSome_of_eq_some hl)

/-- Paths that take the same steps lead to a file both or neither. -/
theorem isFile (h : Rebased d root r room n parts p q) (hroom : Roomy d.tree r (room + n)) :
    d.isFile p = (d.workingAt r).isFile q := by
  rw [Bool.eq_iff_iff, isFile_iff, isFile_iff]
  exact exists_congr fun l => and_congr_left fun ⟨c, hl⟩ =>
    h.locate_iff hroom (Option.isSome_of_eq_some hl)

/-- Paths that take the same steps have the same directory. -/
theorem directoryAt? (h : Rebased d root r room n parts p q) (hroom : Roomy d.tree r (room + n)) :
    directoryAt? d p = directoryAt? (d.workingAt r) q := by
  ext l
  rw [directoryAt?_eq_some_iff, directoryAt?_eq_some_iff]
  exact and_congr_left fun hl => h.locate_iff hroom (Option.isSome_of_eq_some hl)

/-- Neither path stands for the working directory where a part without a name is to come. -/
theorem ne_nil_of_isHere (h : Rebased d root r room n (plainPart x :: parts) p q) :
    (isHere p = true → x ≠ []) ∧ (isHere q = true → x ≠ []) := by
  -- Either of them would mean that there are only dots so far.
  obtain ⟨ps, hp, hq, -, -, hsteady⟩ := h
  have hne : componentsOf ps = [] → x ≠ [] := by
    rintro hidle rfl
    have hparts := hsteady hidle
    rw [steadyParts_cons, if_neg (by decide)] at hparts
    exact hparts rfl
  exact ⟨fun hhere => hne (hp.componentsOf_of_isHere hhere),
    fun hhere => hne (hq.componentsOf_of_isHere hhere)⟩

/-- **A plain part** is a step down on both sides. -/
theorem plain (h : Rebased d root r room n (plainPart x :: parts) p q) (hx : IsDown x) :
    Rebased d root r room n parts (entryPath p x) (entryPath q x) := by
  obtain ⟨hp0, hq0⟩ := h.ne_nil_of_isHere
  obtain ⟨ps, hp, hq, hps, hidle, hsteady⟩ := h
  have hrelative := isAbsolute_of_not_mem hx.1
  have hp' := hp.entryPath hrelative hp0
  have hq' := hq.entryPath hrelative hq0
  rw [pieces_of_not_mem hx.1] at hp' hq'
  refine ⟨ps ++ [x], hp', hq', ?_, ?_, ?_⟩
  · intro y hy
    rcases List.mem_append.mp hy with hy | hy
    · exact hps y hy
    · exact List.mem_singleton.mp hy ▸ hx
  · have hone : [x].countP isIdle ≤ 1 := List.countP_le_length
    rw [List.countP_append]
    rw [List.length_cons] at hidle
    omega
  · intro hnone
    rw [componentsOf_append, List.append_eq_nil_iff] at hnone
    have hparts := hsteady hnone.1
    have hx' : x = [] ∨ x = ['.'] := by
      simpa [isIdle] using isIdle_of_componentsOf hnone.2 x List.mem_cons_self
    rcases hx' with rfl | rfl
    · rw [steadyParts_cons, if_neg (by decide)] at hparts
      exact absurd rfl hparts
    · rwa [steadyParts_cons, if_pos rfl] at hparts

/-- **Names found below** are steps down on both sides. -/
theorem found {parts' : List Part} (h : Rebased d root r room n parts p q)
    (hnames : ∀ y ∈ names, IsName y) (hne : names ≠ []) (hlength : parts'.length ≤ parts.length) :
    Rebased d root r room n parts' (entryPath p (joinWith ['/'] names))
      (entryPath q (joinWith ['/'] names)) := by
  obtain ⟨ps, hp, hq, hps, hidle, -⟩ := h
  have hrelative : (⟨joinWith ['/'] names⟩ : Path).isAbsolute = false := isAbsolute_ofNames hnames
  have hpieces : pieces '/' (joinWith ['/'] names) = names := pieces_ofNames hnames hne
  have htext : joinWith ['/'] names ≠ [] := by
    intro hempty
    rw [hempty, pieces_nil] at hpieces
    exact (hnames [] (hpieces ▸ List.mem_cons_self)).ne_nil rfl
  have hp' := hp.entryPath hrelative fun _ => htext
  have hq' := hq.entryPath hrelative fun _ => htext
  rw [hpieces] at hp' hq'
  refine ⟨ps ++ names, hp', hq', ?_, ?_, ?_⟩
  · intro y hy
    rcases List.mem_append.mp hy with hy | hy
    · exact hps y hy
    · exact ⟨(hnames y hy).1, (hnames y hy).2.2⟩
  · have hzero : names.countP isIdle = 0 :=
      List.countP_eq_zero.mpr fun y hy => by simp [(hnames y hy).2.1]
    rw [List.countP_append, hzero]
    omega
  · intro hnone
    rw [componentsOf_append, componentsOf_names hnames, List.append_eq_nil_iff,
      List.map_eq_nil_iff] at hnone
    exact absurd hnone.2 hne

/-- Two parts for any depth are as one. -/
theorem collapsed (h : Rebased d root r room n (.anyDepth :: .anyDepth :: parts) p q) :
    Rebased d root r room n (.anyDepth :: parts) p q := by
  obtain ⟨ps, hp, hq, hps, hidle, -⟩ := h
  refine ⟨ps, hp, hq, hps, ?_, fun _ => ?_⟩
  · simp only [List.length_cons] at hidle ⊢
    omega
  · rw [steadyParts_cons, if_neg (by decide)]
    decide

end Rebased

/-! ## Entries side by side -/

/-- **What is listed below a location** is below it in the tree. -/
theorem mem_below {t : Tree} {e : Entry} :
    (names, e) ∈ t.below l ↔ names ≠ [] ∧ (l ++ names, e) ∈ t.entries := by
  rw [Tree.below, List.mem_filterMap]
  constructor
  · rintro ⟨⟨m, e'⟩, hmem, hprefix⟩
    split at hprefix
    · next name names' hsome =>
      obtain ⟨rfl, rfl⟩ := Prod.mk.inj (Option.some.inj hprefix)
      obtain rfl := List.isPrefixOf?_eq_some_iff_append_eq.mp hsome
      exact ⟨List.cons_ne_nil name names', hmem⟩
    · cases hprefix
  · rintro ⟨hne, hmem⟩
    obtain ⟨name, names', rfl⟩ := List.exists_cons_of_ne_nil hne
    have hsome := List.isPrefixOf?_eq_some_iff_append_eq.mpr (Eq.refl (l ++ name :: names'))
    exact ⟨_, hmem, by rw [hsome]⟩

/-- **What lies below a directory** is reached by names. -/
theorem isName_of_mem_below {t : Tree} {e : Entry} (h : (names, e) ∈ t.below l) :
    ∀ n ∈ names, IsName n := fun n hn =>
  (t.named _ (mem_below.mp h).2 n (List.mem_append_right l hn)).1

/-- The children of a directory have names. -/
theorem isName_of_mem_childNames {t : Tree} (h : x ∈ t.childNames l) : IsName x := by
  rw [Tree.childNames, List.mem_filterMap] at h
  obtain ⟨⟨names, e⟩, hmem, hname⟩ := h
  split at hname
  · next name hsingle =>
    obtain rfl := Option.some.inj hname
    obtain rfl : names = [name] := hsingle
    exact isName_of_mem_below hmem name List.mem_cons_self
  · cases hname

/-- **A part of a pattern that leads down**: a name by itself is no step up, and wildcards behind a
dot do not take in the directory above. -/
def Part.Inward : Part → Prop
  | .anyDepth => True
  | .name ts => (∀ name, literal? ts = some name → IsDown name) ∧
      (ts.head? = some (.char '.') → matchName ts ['.', '.'] = false)

/-- Tokens that let in nothing are runs. -/
theorem matchName_of_matchName_nil (h : matchName ts [] = true) (hne : ts ≠ []) (c : Char) :
    matchName ts [c] = true := by
  cases ts with
  | nil => exact absurd rfl hne
  | cons token ts =>
      cases hrun : token.isRun with
      | false => simp [matchName, hrun] at h
      | true =>
          simp only [matchName, hrun, if_true, anyEnd] at h ⊢
          rw [h, Bool.or_true]

/-- **Wildcards that do not take in the directory above** do not take in the directory itself. -/
theorem matchName_dot (hliteral : literal? ts = none) (hhead : ts.head? = some (.char '.'))
    (h : matchName ts ['.', '.'] = false) : matchName ts ['.'] = false := by
  obtain ⟨ts, rfl⟩ := List.head?_eq_some_iff.mp hhead
  have hne : ts ≠ [] := by
    rintro rfl
    cases hliteral
  have hdot : ∀ name, matchName (.char '.' :: ts) ('.' :: name) = matchName ts name := by
    intro name
    simp [matchName, Token.isRun, Token.accepts]
  rw [hdot] at h ⊢
  -- What is left of the tokens is not empty: if it lets in nothing, it lets in a dot.
  by_contra hnil
  rw [matchName_of_matchName_nil (by simpa using hnil) hne] at h
  cases h

variable (hroom : Roomy d.tree r (room + n))

include hroom in
/-- A name without wildcards finds entries whose paths again take the same steps. -/
theorem forall₂_entryNamed (h : Rebased d root r room n (plainPart x :: parts) p q)
    (hx : IsDown x) :
    List.Forall₂ (Rebased d root r room n parts) (entryNamed d p x)
      (entryNamed (d.workingAt r) q x) := by
  have hnext := h.plain hx
  simp only [entryNamed, h.isDirectory hroom, hnext.contains hroom]
  split_ifs
  · exact .cons hnext .nil
  · exact .nil
  · exact .cons hnext .nil
  · exact .nil

include hroom in
/-- A name with wildcards finds entries whose paths again take the same steps, one by one. -/
theorem forall₂_entriesMatching (h : Rebased d root r room n (.name ts :: parts) p q)
    (hliteral : literal? ts = none)
    (hdots : ts.head? = some (.char '.') → matchName ts ['.', '.'] = false) :
    List.Forall₂ (Rebased d root r room n parts) (entriesMatching d p ts)
      (entriesMatching (d.workingAt r) q ts) := by
  -- Neither of the two kinds of dots is let in.
  have hnone : (if ts.head? = some (.char '.') then [['.'], ['.', '.']] else []).filter
      (matchName ts) = [] := by
    split_ifs with hhead
    · simp [hdots hhead, matchName_dot hliteral hhead (hdots hhead)]
    · rfl
  rw [entriesMatching, entriesMatching, h.directoryAt? hroom]
  cases directoryAt? (d.workingAt r) q with
  | none => exact .nil
  | some l =>
      simp only [hnone, List.map_nil, List.nil_append, tree_workingAt]
      rw [List.forall₂_map_left_iff, List.forall₂_map_right_iff, List.forall₂_same]
      intro x hx
      have hname := isName_of_mem_childNames (List.mem_filter.mp hx).1
      exact h.found (fun y hy => List.mem_singleton.mp hy ▸ hname) (List.cons_ne_nil x [])
        (by simp)

include hroom in
/-- What lies at any depth is found in the same order, by paths that take the same steps. -/
theorem forall₂_entriesBelow {parts' : List Part} (h : Rebased d root r room n parts p q)
    (hlength : parts'.length ≤ parts.length) :
    List.Forall₂ (fun a b => Rebased d root r room n parts' a.1 b.1 ∧ a.2 = b.2) (entriesBelow d p)
      (entriesBelow (d.workingAt r) q) := by
  rw [entriesBelow, entriesBelow, h.directoryAt? hroom]
  cases directoryAt? (d.workingAt r) q with
  | none => exact .nil
  | some l =>
      dsimp only
      rw [tree_workingAt, List.forall₂_map_left_iff, List.forall₂_map_right_iff, List.forall₂_same]
      rintro ⟨names, e⟩ hmem
      exact ⟨h.found (isName_of_mem_below hmem) (mem_below.mp hmem).1 hlength, rfl⟩

include hroom in
/-- **The expansions side by side**, along the parts of the pattern. -/
theorem forall₂_expandParts : ∀ {parts : List Part} {p q : Path},
    (∀ part ∈ parts, part.Inward) → Rebased d root r room n parts p q →
    List.Forall₂ (Rebased d root r room n []) (expandParts d parts p)
      (expandParts (d.workingAt r) parts q)
  | [], p, q, hparts, h => .cons h .nil
  | .name ts :: parts, p, q, hparts, h => by
      obtain ⟨⟨hdown, hdots⟩, hparts'⟩ := List.forall_mem_cons.mp hparts
      have hrest : ∀ p q, Rebased d root r room n parts p q →
          List.Forall₂ (Rebased d root r room n []) (expandParts d parts p)
            (expandParts (d.workingAt r) parts q) :=
        fun p q hpq => forall₂_expandParts hparts' hpq
      rw [expandParts, expandParts]
      refine List.rel_flatMap ?_ hrest
      -- A part without wildcards is looked up, any other is compared with what is there.
      cases hname : literal? ts with
      | some name =>
          rw [eq_chars_of_literal? hname] at h
          exact forall₂_entryNamed hroom h (hdown name hname)
      | none => exact forall₂_entriesMatching hroom h hname hdots
  | [.anyDepth], p, q, hparts, h => by
      have hlength : ([] : List Part).length ≤ [Part.anyDepth].length := Nat.zero_le 1
      rw [expandParts, expandParts]
      refine List.rel_filterMap ?_ (forall₂_entriesBelow hroom h hlength)
      rintro ⟨p', name, isDir⟩ ⟨q', name', isDir'⟩ ⟨hpq, heq⟩
      obtain ⟨rfl, rfl⟩ := Prod.mk.inj heq
      cases isDir with
      | false => exact .none
      | true => exact .some hpq
  | .anyDepth :: .name ts :: parts, p, q, hparts, h => by
      have hparts' : ∀ part ∈ parts, part.Inward := fun part hpart =>
        hparts part (List.mem_cons_of_mem _ (List.mem_cons_of_mem _ hpart))
      have hlength : parts.length ≤ (Part.anyDepth :: .name ts :: parts).length := by
        simp only [List.length_cons]
        omega
      rw [expandParts, expandParts]
      refine List.rel_flatMap (List.rel_filter ?_ (forall₂_entriesBelow hroom h hlength)) ?_
      · rintro ⟨p', name, isDir⟩ ⟨q', name', isDir'⟩ ⟨-, heq⟩
        obtain ⟨rfl, rfl⟩ := Prod.mk.inj heq
        exact Iff.rfl
      · rintro ⟨p', name, isDir⟩ ⟨q', name', isDir'⟩ ⟨hpq, -⟩
        exact forall₂_expandParts hparts' hpq
  | .anyDepth :: .anyDepth :: parts, p, q, hparts, h => by
      rw [expandParts, expandParts]
      exact forall₂_expandParts (List.forall_mem_cons.mp hparts).2 h.collapsed

/-! ## Patterns behind a root -/

/-- The pattern that is read from a pattern behind the front of a root. -/
def Pattern.behind (root : Path) (Q : Pattern) : Pattern :=
  ⟨root.isAbsolute, (steps ⟨root.front⟩).map plainPart ++ Q.parts, Q.wantsDirectory⟩

/-- **A pattern that leads down**, with room for its idle steps. -/
structure Pattern.Inward (Q : Pattern) (n : Nat) : Prop where
  relative : Q.absolute = false
  ne_nil : Q.parts ≠ []
  parts : ∀ part ∈ Q.parts, part.Inward
  steady : SteadyParts Q.parts
  room : 2 * Q.parts.length ≤ n

variable {Q : Pattern}

/-- **Where the two expansions begin**: behind the names of the root, and in its directory. -/
theorem rebased_beginning {b : Path} (h : d.Denotes root r)
    (hb : d.Along root r (root.text.byteLength + 2) [] b) (hQ : Q.Inward n) :
    Rebased d root r (root.text.byteLength + 2) n Q.parts b (beginning false) := by
  have hhere : (d.workingAt r).Along ⟨['.']⟩ r (root.text.byteLength + 2) [] (beginning false) :=
    along_beginning (d := d.workingAt r) rfl (by omega) h.1
  exact ⟨[], hb, hhere, by simp, by simpa using hQ.room, fun _ => hQ.steady⟩

/-- **The two expansions of a pattern side by side.** -/
theorem forall₂_expand (h : d.Denotes root r) (hsteady : SteadyRoot root)
    (hroom : Roomy d.tree r (root.text.byteLength + 2 + n)) (hQ : Q.Inward n) :
    List.Forall₂ (Rebased d root r (root.text.byteLength + 2) n []) (expand d (Q.behind root))
      (expand (d.workingAt r) Q) := by
  have hlength : root.text.byteLength + 2 < pathLimit := by
    have hempty := hroom [] (by rw [List.append_nil, h.1]; rfl)
    omega
  obtain ⟨b, hb, hparts⟩ := exists_along_root h hsteady hlength
  have hexpand := forall₂_expandParts hroom hQ.parts (rebased_beginning h hb hQ)
  rw [← hparts] at hexpand
  have hbehind : (Q.behind root).parts ≠ [] := by simp [Pattern.behind, hQ.ne_nil]
  rw [expand, expand, if_neg hbehind, if_neg hQ.ne_nil, hQ.relative]
  refine List.rel_filter ?_ hexpand
  intro p q hpq
  simp only [hpq.isDirectory hroom]
  exact Iff.rfl

/-- **A pattern behind the path of a directory** stands for the files that it stands for in that
directory, by paths that take steps down from there. -/
theorem files_behind (h : d.Denotes root r) (hsteady : SteadyRoot root)
    (hroom : Roomy d.tree r (root.text.byteLength + 2 + n)) (hQ : Q.Inward n) :
    ((files d (Q.behind root)).map d.locate).Perm
        ((files (d.workingAt r) Q).map (d.workingAt r).locate) ∧
      ∀ p ∈ files d (Q.behind root), ∃ ps, d.Along root r (root.text.byteLength + 2) ps p ∧
        ∀ x ∈ ps, IsDown x := by
  have hexpand := forall₂_expand h hsteady hroom hQ
  constructor
  · have hfiles : ((expand d (Q.behind root)).filter d.isFile).map d.locate =
        ((expand (d.workingAt r) Q).filter (d.workingAt r).isFile).map (d.workingAt r).locate := by
      have hfilter := List.rel_filter (p := d.isFile) (q := (d.workingAt r).isFile)
        (fun p q hpq => Bool.eq_iff_iff.mp (hpq.isFile hroom)) hexpand
      have hboth := (List.forall₂_and_left _ _).mpr
        ⟨fun p hp => (List.mem_filter.mp hp).2, hfilter⟩
      rw [← List.forall₂_eq_eq_eq, List.forall₂_map_left_iff, List.forall₂_map_right_iff]
      refine hboth.imp fun p q ⟨hfile, hpq⟩ => ?_
      obtain ⟨l, hl, c, hc⟩ := isFile_iff.mp hfile
      rw [hl, (hpq.locate_iff hroom (Option.isSome_of_eq_some hc)).mp hl]
    have hsorted := (List.mergeSort_perm ((expand d (Q.behind root)).filter d.isFile) Path.le).map
      d.locate
    rw [hfiles] at hsorted
    exact hsorted.trans ((List.mergeSort_perm _ Path.le).map _).symm
  · intro p hp
    have hmem : p ∈ expand d (Q.behind root) := (List.mem_filter.mp (List.mem_mergeSort.mp hp)).1
    have hrebased : ∀ p ∈ expand d (Q.behind root),
        ∃ q, Rebased d root r (root.text.byteLength + 2) n [] p q :=
      forall_mem_left hexpand fun p q hpq => ⟨q, hpq⟩
    obtain ⟨q, ps, hp', -, hps, -, -⟩ := hrebased p hmem
    exact ⟨ps, hp', hps⟩

end Glob

end LocaleWrap
