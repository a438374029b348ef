import LocaleWrap.Proofs.Path.Names
import LocaleWrap.Proofs.Tree.Shape

/-! # What grows on a disk

Writing a file and making directories add to a disk. What stood there before stays, so a path that
has led somewhere still leads there.

* **`Tree.Grows`** — a tree in which everything still stands, with other contents at most.
* `Disk.locate_mono` — paths lead where they have led; `Disk.locate_eq_resolve` says where that is.
* **`Disk.Grown`** — a disk to which directories were added at some paths; it can be composed.
* `Disk.grown_makeAll` — what making directories does.
* `Disk.exists_of_write` — what writing a file does. -/

namespace LocaleWrap

namespace Tree

variable {t u v : Tree} {l : Location}

/-- **A tree that has grown**: where a directory or a file stood, there is one still. -/
def Grows (t u : Tree) : Prop :=
  ∀ l kind, (t.get? l).map Entry.isFile = some kind → (u.get? l).map Entry.isFile = some kind

/-- A tree that stays as it is has grown. -/
theorem Grows.refl (t : Tree) : t.Grows t := fun _ _ h => h

/-- A tree may grow in two turns. -/
theorem Grows.trans (h : t.Grows u) (h' : u.Grows v) : t.Grows v :=
  fun l kind hkind => h' l kind (h l kind hkind)

/-- Trees of the same shape have grown from each other. -/
theorem SameShape.grows (h : t.SameShape u) : t.Grows u := by
  intro l kind hkind
  rw [← h l, hkind]

/-- A directory is one still in a tree that has grown. -/
theorem Grows.directory (h : t.Grows u) (hl : t.get? l = some .directory) :
    u.get? l = some .directory := by
  have hkind := h l false (by rw [hl]; rfl)
  rw [Option.map_eq_some_iff] at hkind
  obtain ⟨entry, hentry, hfile⟩ := hkind
  cases entry with
  | directory => exact hentry
  | file c => cases hfile

/-- What was there is there in a tree that has grown. -/
theorem Grows.isSome (h : t.Grows u) (hl : (t.get? l).isSome) : (u.get? l).isSome := by
  obtain ⟨entry, hentry⟩ := Option.isSome_iff_exists.mp hl
  have hkind := h l entry.isFile (by rw [hentry]; rfl)
  rw [Option.map_eq_some_iff] at hkind
  obtain ⟨entry', hentry', -⟩ := hkind
  rw [hentry']
  rfl

/-- **A new entry** lets a tree grow. -/
theorem grows_insert {e : Entry} (hroom : t.HasRoom l e) (h : t.get? l = none) :
    t.Grows (t.insert l e) := by
  intro m kind hm
  rw [get?_insert hroom]
  by_cases hml : m = l
  · rw [hml, h] at hm
    cases hm
  · rw [if_neg hml]
    exact hm

end Tree

namespace Disk

open LocaleWrap.Path Text

variable {t u : Tree} {d e f : Disk} {p : Path} {l m : Location}

/-! ## Paths lead where they have led -/

/-- A step that could be taken can be taken in a tree that has grown. -/
theorem step_mono (h : t.Grows u) {piece : Text} (hstep : step t l piece = .ok m) :
    step u l piece = .ok m := by
  rw [step_eq_ok_iff] at hstep ⊢
  obtain ⟨hdir, hidle | hparent | ⟨hidle, hdots, hlength, hm, hentry⟩⟩ := hstep
  · exact ⟨h.directory hdir, Or.inl hidle⟩
  · exact ⟨h.directory hdir, Or.inr (Or.inl hparent)⟩
  · exact ⟨h.directory hdir, Or.inr (Or.inr ⟨hidle, hdots, hlength, hm, h.isSome hentry⟩)⟩

/-- Steps that could be taken can be taken in a tree that has grown. -/
theorem walk_mono (h : t.Grows u) {pieces : List Text} (hwalk : walk t l pieces = .ok m) :
    walk u l pieces = .ok m := by
  induction pieces generalizing l with
  | nil => exact hwalk
  | cons piece pieces ih =>
      rw [walk, bind_eq_ok_iff] at hwalk ⊢
      obtain ⟨n, hstep, hrest⟩ := hwalk
      exact ⟨n, step_mono h hstep, ih hrest⟩

/-- A path that led somewhere leads there on a disk that has grown. -/
theorem locate_mono (h : d.tree.Grows e.tree) (hcwd : e.cwd = d.cwd) (hl : d.locate p = .ok l) :
    e.locate p = .ok l := by
  rw [locate, bind_eq_ok_iff] at hl ⊢
  obtain ⟨u, hpermit, hwalk⟩ := hl
  have horigin : e.origin p = d.origin p := origin_congr hcwd p
  exact ⟨u, hpermit, horigin ▸ walk_mono h hwalk⟩

/-! ## Where that is -/

/-- Steps follow the components that their pieces stand for. -/
theorem walk_eq_foldl {pieces : List Text} (h : walk t l pieces = .ok m) :
    m = (componentsOf pieces).foldl Component.follow l := by
  induction pieces generalizing l with
  | nil => exact (Except.ok.inj h).symm
  | cons piece pieces ih =>
      rw [walk, bind_eq_ok_iff] at h
      obtain ⟨n, hstep, hrest⟩ := h
      rw [← List.singleton_append, componentsOf_append, List.foldl_append, ih hrest]
      congr 1
      obtain ⟨-, ⟨hidle, rfl⟩ | ⟨hidle, rfl, rfl⟩ | ⟨hidle, hdots, -, rfl, -⟩⟩ :=
        step_eq_ok_iff.mp hstep
      · simp [componentsOf, hidle]
      · rfl
      · simp [componentsOf, hidle, componentOf, hdots, Component.follow]

/-- **How a path begins** takes the working directory to where the path is followed from. -/
theorem foldl_follow_opening (d : Disk) (p : Path) :
    (opening p.text).1.foldl Component.follow d.cwd = d.origin p := by
  rw [origin]
  by_cases habsolute : p.isAbsolute = true
  · rw [if_pos habsolute, isAbsolute_iff_opening.mp habsolute]
    rfl
  · rw [if_neg habsolute]
    rcases opening_cases p.text with ⟨rest, -, hopening⟩ | ⟨-, hopening⟩ | ⟨-, hopening⟩
    · exact absurd (isAbsolute_iff_opening.mpr (by rw [hopening])) habsolute
    · rw [hopening]
      rfl
    · rw [hopening]
      rfl

/-- **A path that leads anywhere leads to the location that it stands for.** -/
theorem locate_eq_resolve (h : d.locate p = .ok l) : l = p.resolve d.cwd := by
  rw [locate, bind_eq_ok_iff] at h
  obtain ⟨-, -, hwalk⟩ := h
  rw [walk_eq_foldl hwalk, resolve, components_eq, List.foldl_append, foldl_follow_opening]

/-! ## Where something is made -/

/-- The pieces of a path are its solid ones, and empty ones for the slashes at its end. -/
theorem pieces_eq_solidPieces (p : Path) :
    ∃ slashes : List Text, pieces '/' p.text = (solidPieces p).1 ++ slashes ∧
      (∀ t ∈ slashes, t = []) ∧ ((solidPieces p).2 = false → slashes = []) := by
  refine ⟨((pieces '/' p.text).reverse.takeWhile (· == [])).reverse, ?_, ?_, ?_⟩
  · rw [solidPieces, ← List.reverse_append, List.takeWhile_append_dropWhile, List.reverse_reverse]
  · intro t ht
    simpa using List.all_eq_true.mp List.all_takeWhile t (List.mem_reverse.mp ht)
  · intro hlast
    rw [solidPieces, beq_eq_false_iff_ne, List.getLast?_eq_head?_reverse] at hlast
    rw [List.reverse_eq_nil_iff]
    cases hpieces : (pieces '/' p.text).reverse with
    | nil => rfl
    | cons piece rest =>
        refine List.takeWhile_cons_of_neg ?_
        simpa [hpieces] using hlast

/-- **Where a path wants something made**: its last solid piece is a name for an entry of the
directory that the pieces before lead to. -/
theorem exists_of_place {dots : FileFault} (h : d.place p dots = .ok l) :
    ∃ init m name, permit p = .ok () ∧ (solidPieces p).1 = init ++ [name] ∧
      walk d.tree (d.origin p) init = .ok m ∧ d.tree.get? m = some .directory ∧
      isIdle name = false ∧ name ≠ ['.', '.'] ∧ name.byteLength ≤ nameLimit ∧
      l = m ++ [name] := by
  rw [place, bind_eq_ok_iff] at h
  obtain ⟨_, hpermit, h⟩ := h
  obtain ⟨m, hwalk, h⟩ := bind_eq_ok_iff.mp h
  split at h
  · cases h
  · cases h
  · next hm =>
    split at h
    · cases h
    · next name hname =>
      split_ifs at h with hdots hlength
      rw [not_or, Bool.not_eq_true] at hdots
      obtain ⟨init, hinit⟩ := List.getLast?_eq_some_iff.mp hname
      rw [hinit, List.dropLast_concat] at hwalk
      exact ⟨init, m, name, hpermit, hinit, hwalk, hm, hdots.1, hdots.2,
        Nat.le_of_not_gt hlength, (Except.ok.inj h).symm⟩

/-- **There is room** for what a path wants made, if a directory is not to become a file. -/
theorem hasRoom_of_place {dots : FileFault} {entry : Entry} (h : d.place p dots = .ok l)
    (hkind : d.tree.get? l = some .directory → entry = .directory) : d.tree.HasRoom l entry := by
  obtain ⟨init, m, name, hpermit, hsolid, -, hm, hidle, hdots, hlength, rfl⟩ := exists_of_place h
  obtain ⟨slashes, hpieces, -, -⟩ := pieces_eq_solidPieces p
  have hmem : name ∈ pieces '/' p.text := by simp [hpieces, hsolid]
  have hnul : '\x00' ∉ name := by
    intro hname
    have htext := (mem_iff_exists_mem_pieces (by decide)).mpr ⟨name, hmem, hname⟩
    rw [permit, if_pos htext] at hpermit
    cases hpermit
  refine ⟨by simp, by rwa [List.dropLast_concat], fun n hn => ?_, hkind⟩
  rw [List.getLast?_concat, Option.mem_some] at hn
  subst hn
  exact ⟨⟨not_mem_of_mem_pieces hmem, hidle, hdots⟩, hnul, hlength⟩

/-- Walking pieces in a row is walking one part and then the other. -/
theorem walk_append (t : Tree) (l : Location) (ps qs : List Text) :
    walk t l (ps ++ qs) = (walk t l ps).bind fun m => walk t m qs := by
  induction ps generalizing l with
  | nil => rfl
  | cons p ps ih =>
      rw [List.cons_append, walk, walk]
      cases step t l p with
      | error fault => rfl
      | ok m => exact ih m

/-- Slashes at the end stay in a directory. -/
theorem walk_slashes {slashes : List Text} (h : ∀ t ∈ slashes, t = [])
    (hl : t.get? l = some .directory) : walk t l slashes = .ok l := by
  induction slashes with
  | nil => rfl
  | cons slash slashes ih =>
      have hstep : step t l slash = .ok l := by
        rw [h slash List.mem_cons_self]
        exact step_eq_ok_iff.mpr ⟨hl, Or.inl ⟨rfl, rfl⟩⟩
      rw [walk, hstep]
      exact ih fun t ht => h t (List.mem_cons_of_mem slash ht)

/-- **A path leads to what was made for it**, wherever the tree has grown besides. -/
theorem locate_of_place {dots : FileFault} (h : d.place p dots = .ok l)
    (hgrows : d.tree.Grows e.tree) (hcwd : e.cwd = d.cwd) (hentry : (e.tree.get? l).isSome)
    (hend : (solidPieces p).2 = false ∨ e.tree.get? l = some .directory) :
    e.locate p = .ok l := by
  obtain ⟨init, m, name, hpermit, hsolid, hwalk, hm, hidle, hdots, hlength, rfl⟩ :=
    exists_of_place h
  obtain ⟨slashes, hpieces, hempty, hnone⟩ := pieces_eq_solidPieces p
  have horigin : e.origin p = d.origin p := origin_congr hcwd p
  have hstep : step e.tree m name = .ok (m ++ [name]) :=
    step_eq_ok_iff.mpr ⟨hgrows.directory hm, Or.inr (Or.inr ⟨hidle, hdots, hlength, rfl, hentry⟩)⟩
  have hslashes : walk e.tree (m ++ [name]) slashes = .ok (m ++ [name]) := by
    rcases hend with hsolid' | hdir
    · rw [hnone hsolid', walk]
    · exact walk_slashes hempty hdir
  -- The pieces before the name lead to the directory as they did when the place was found.
  rw [locate, bind_eq_ok_iff]
  refine ⟨(), hpermit, ?_⟩
  rw [horigin, hpieces, hsolid, walk_append, walk_concat, walk_mono hgrows hwalk]
  simp only [Except.bind, hstep, hslashes]

/-! ## Directories -/

/-- **A disk to which directories were added**, each at one of some paths. -/
structure Grown (d : Disk) (at? : Path → Prop) (e : Disk) : Prop where
  cwd : e.cwd = d.cwd
  kept : ∀ l entry, d.tree.get? l = some entry → e.tree.get? l = some entry
  made : ∀ l, d.tree.get? l = none → (e.tree.get? l).isSome →
    e.tree.get? l = some .directory ∧ ∃ q, at? q ∧ e.locate q = .ok l

namespace Grown

variable {A B : Path → Prop}

/-- A disk that stays as it is has grown. -/
theorem refl (d : Disk) (A : Path → Prop) : d.Grown A d := by
  refine ⟨rfl, fun _ _ h => h, fun l hnone hsome => ?_⟩
  rw [hnone] at hsome
  cases hsome

/-- The tree of a disk that has grown has grown. -/
theorem grows (h : d.Grown A e) : d.tree.Grows e.tree := by
  intro l kind hkind
  rw [Option.map_eq_some_iff] at hkind ⊢
  obtain ⟨entry, hentry, hfile⟩ := hkind
  exact ⟨entry, h.kept l entry hentry, hfile⟩

/-- A disk may grow in two turns. -/
theorem trans (h : d.Grown A e) (h' : e.Grown A f) : d.Grown A f := by
  refine ⟨h'.cwd.trans h.cwd, fun l entry hl => h'.kept l entry (h.kept l entry hl), ?_⟩
  intro l hnone hsome
  cases hl : e.tree.get? l with
  | none => exact h'.made l hl hsome
  | some entry =>
      obtain ⟨hdir, q, hq, hlocate⟩ := h.made l hnone (by rw [hl]; rfl)
      exact ⟨h'.kept l .directory hdir, q, hq, locate_mono h'.grows h'.cwd hlocate⟩

/-- A disk grown at some paths has grown at any paths that take them in. -/
theorem mono (h : d.Grown A e) (hAB : ∀ q, A q → B q) : d.Grown B e := by
  refine ⟨h.cwd, h.kept, fun l hnone hsome => ?_⟩
  obtain ⟨hdir, q, hq, hlocate⟩ := h.made l hnone hsome
  exact ⟨hdir, q, hAB q hq, hlocate⟩

end Grown

/-- **Making a directory** adds a directory at its path. -/
theorem grown_makeDirectory (h : d.makeDirectory p = .ok e) : d.Grown (· = p) e := by
  obtain ⟨l, hplace, h⟩ := bind_eq_ok_iff.mp h
  have hroom : d.tree.HasRoom l .directory := hasRoom_of_place hplace fun _ => rfl
  split_ifs at h with hsome
  obtain rfl := Except.ok.inj h
  have hnone : d.tree.get? l = none := by simpa using hsome
  have hgrows := Tree.grows_insert hroom hnone
  have hself : (d.tree.insert l .directory).get? l = some .directory := by
    rw [Tree.get?_insert hroom, if_pos rfl]
  refine ⟨rfl, fun m entry hm => ?_, fun m hm hmade => ?_⟩
  · have hml : m ≠ l := by
      rintro rfl
      rw [hnone] at hm
      cases hm
    rw [Tree.get?_insert hroom, if_neg hml, hm]
  · by_cases hml : m = l
    · rw [hml]
      exact ⟨hself, p, rfl, locate_of_place hplace hgrows rfl (by rw [hself]; rfl) (Or.inr hself)⟩
    · rw [Tree.get?_insert hroom, if_neg hml, hm] at hmade
      cases hmade

/-- **Making directories** adds directories at the paths that are tried, also where a fault ends it
half way. -/
theorem grown_makeAll (d : Disk) (ps : List Path) : d.Grown (· ∈ ps) (d.makeAll ps).1 := by
  have hhead : ∀ {d e : Disk} {p : Path} {above : List Path}, d.makeDirectory p = .ok e →
      d.Grown (· ∈ p :: above) e := by
    intro d e p above hmade
    refine (grown_makeDirectory hmade).mono ?_
    rintro q rfl
    exact List.mem_cons_self
  have htail : ∀ {d e : Disk} {p : Path} {above : List Path}, d.Grown (· ∈ above) e →
      d.Grown (· ∈ p :: above) e := fun h => h.mono fun q hq => List.mem_cons_of_mem _ hq
  -- Where the first path cannot be made, the paths above it are made first; what these have left is
  -- kept in each of the ways in which the second try can end.
  fun_induction makeAll d ps with
  | case1 => exact .refl d _
  | case2 => exact .refl d _
  | case3 p above hp d' hmade => exact hhead hmade
  | case4 p above hp hmissing d' fault hall ih =>
      rw [hall] at ih
      exact htail ih
  | case5 p above hp hmissing d' hall d'' hmade ih =>
      rw [hall] at ih
      exact (htail ih).trans (hhead hmade)
  | case6 p above hp hmissing d' hall fault hmade ih =>
      rw [hall] at ih
      exact htail ih
  | case7 => exact .refl d _

/-! ## Files -/

/-- **Writing a file** puts it where its path leads afterwards, in place of a file at most, and
changes nothing else. -/
theorem exists_of_write {c : Contents} (h : d.write p c = .ok e) :
    ∃ l, e.cwd = d.cwd ∧ d.tree.Grows e.tree ∧ e.locate p = .ok l ∧
      d.tree.get? l ≠ some .directory ∧ e.tree.get? l = some (.file c) ∧
      ∀ m, m ≠ l → e.tree.get? m = d.tree.get? m := by
  obtain ⟨l, hplace, h⟩ := bind_eq_ok_iff.mp h
  split_ifs at h with hdir
  rw [not_or, Bool.not_eq_true] at hdir
  obtain rfl := Except.ok.inj h
  have hnotDir : d.tree.get? l ≠ some .directory := by simpa [Tree.isDirectory] using hdir.2
  have hroom : d.tree.HasRoom l (.file c) :=
    hasRoom_of_place hplace fun hkind => absurd hkind hnotDir
  have hself : (d.tree.insert l (.file c)).get? l = some (.file c) := by
    rw [Tree.get?_insert hroom, if_pos rfl]
  -- The file is new, or it takes the place of another one.
  have hgrows : d.tree.Grows (d.tree.insert l (.file c)) := by
    cases hold : d.tree.get? l with
    | none => exact Tree.grows_insert hroom hold
    | some entry =>
        cases entry with
        | directory => exact absurd hold hnotDir
        | file old => exact (Tree.sameShape_insert hold c).grows
  refine ⟨l, rfl, hgrows, ?_, hnotDir, hself, fun m hm => ?_⟩
  · exact locate_of_place hplace hgrows rfl (by rw [hself]; rfl) (Or.inl (by simpa using hdir.1))
  · rw [Tree.get?_insert hroom, if_neg hm]

end Disk

end LocaleWrap
