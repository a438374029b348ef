import LocaleWrap.Glob.Expansion
import LocaleWrap.Proofs.Glob.Reading
import LocaleWrap.Proofs.Tree.Following
import Mathlib.Algebra.GroupWithZero.Nat

/-! # Paths that take steps from a directory

The paths that a pattern stands for are put together step by step, from the path of a directory.
What matters of such a path are the steps: where they lead, and how long they are.

* **`Path.body`** — what a path says after its beginning.
* **`Disk.Along`** — a path that takes some steps from a directory; `Along.locate_eq_ok_iff` says
  where it leads.
* `Along.join`, `Along.entryPath` — the path of an entry takes more steps.
* `Glob.exists_along_steps` — plain names at the front of a pattern are steps;
  `Glob.exists_along_root` — and those of a root lead to its directory. -/

namespace LocaleWrap

namespace Text

/-- **The bytes of pieces** with a separator for each. -/
def weight (ps : List Text) : Nat := (ps.map fun p => p.byteLength + 1).sum

@[simp] theorem weight_nil : weight [] = 0 := rfl

@[simp] theorem weight_append (ps qs : List Text) : weight (ps ++ qs) = weight ps + weight qs := by
  rw [weight, List.map_append, List.sum_append]
  rfl

/-- One piece more weighs its bytes and one separator. -/
theorem weight_cons (p : Text) (ps : List Text) :
    weight (p :: ps) = p.byteLength + 1 + weight ps := by
  rw [weight, List.map_cons, List.sum_cons]
  rfl

/-- Pieces weigh at least one byte each. -/
theorem length_le_weight (ps : List Text) : ps.length ≤ weight ps := by
  induction ps with
  | nil => exact Nat.le_refl 0
  | cons p ps ih =>
      rw [List.length_cons, weight_cons]
      omega

/-- The pieces of a text weigh its bytes and one more. -/
theorem weight_pieces (t : Text) : weight (pieces '/' t) = t.byteLength + 1 := by
  induction t with
  | nil => rfl
  | cons c t ih =>
      rw [byteLength_cons]
      by_cases hc : c = '/'
      · have hslash : Char.utf8Size '/' = 1 := rfl
        rw [hc, pieces_cons_self, weight_cons, ih, byteLength_nil, hslash]
        omega
      · obtain ⟨p, ps, htail, hwhole⟩ := pieces_cons_of_ne hc t
        rw [htail, weight_cons] at ih
        rw [hwhole, weight_cons, byteLength_cons]
        omega

end Text

namespace Path

open Text

variable {p q : Path}

/-! ## What paths say -/

/-- **What a path says after its beginning**: steps up and names. -/
def body (p : Path) : List Component := componentsOf (pieces '/' p.text)

/-- The front of a path ends in a slash, or is empty. -/
theorem isFront_front (p : Path) : Glob.IsFront p.front := p.front_closed

/-- The steps of a joined path are those of both. -/
theorem body_join (hq : q.isAbsolute = false) : (p.join q).body = p.body ++ q.body := by
  have hfront : (⟨p.front⟩ : Path).body = p.body := by
    rw [front_eq]
    split_ifs
    · rfl
    · rw [body, pieces_append, componentsOf_append]
      exact List.append_nil _
  -- The piece that is left out of the cut is the empty one behind the last slash.
  have hcut : (⟨p.front⟩ : Path).body = componentsOf (Glob.cutParts p.front) := by
    have hpieces := Glob.pieces_front_append p.isFront_front []
    rw [List.append_nil] at hpieces
    rw [body, hpieces, componentsOf_append]
    exact List.append_nil _
  rw [join_eq_front hq, body, Glob.pieces_front_append p.isFront_front, componentsOf_append,
    ← hcut, hfront]
  rfl

end Path

namespace Disk

open LocaleWrap.Path Text

variable {d : Disk} {start p : Path} {l m : Location} {room : Nat} {ps : List Text} {x : Text}

/-! ## Steps from a directory -/

/-- **A path that takes steps from a directory**: it goes on where a path to the directory ends,
and is no longer than the steps account for. -/
structure Along (d : Disk) (start : Path) (l : Location) (room : Nat) (ps : List Text)
    (p : Path) : Prop where
  follow : d.follow p = walk d.tree l ps
  body : p.body = start.body ++ componentsOf ps
  absolute : p.isAbsolute = start.isAbsolute
  ne_nil : p.text ≠ []
  nul : '\x00' ∈ p.text ↔ ∃ y ∈ ps, '\x00' ∈ y
  length : p.text.byteLength ≤ room + weight ps

namespace Along

/-- **Where the path leads** is where the steps lead, unless it is too long. -/
theorem locate_eq_ok_iff (h : d.Along start l room ps p) (hroom : room + weight ps < pathLimit) :
    d.locate p = .ok m ↔ (∀ y ∈ ps, '\x00' ∉ y) ∧ walk d.tree l ps = .ok m := by
  have hlength := h.length
  rw [Disk.locate_eq_ok_iff, permit_eq_ok_iff, h.follow, h.nul]
  constructor
  · rintro ⟨⟨hnul, -, -⟩, hwalk⟩
    exact ⟨fun y hy hy0 => hnul ⟨y, hy, hy0⟩, hwalk⟩
  · rintro ⟨hnul, hwalk⟩
    exact ⟨⟨fun ⟨y, hy, hy0⟩ => hnul y hy hy0, h.ne_nil, by omega⟩, hwalk⟩

/-- **On the way to a directory** there are directories. -/
theorem isDirectory {qs : List Text} (h : d.Along start l room ps p)
    (hwalk : walk d.tree l (ps ++ qs) = .ok m) (hdir : d.tree.get? m = some .directory)
    (hnul : ∀ y ∈ ps ++ qs, '\x00' ∉ y) (hroom : room + weight (ps ++ qs) < pathLimit) :
    d.isDirectory p = true := by
  rw [walk_append, bind_eq_ok_iff] at hwalk
  obtain ⟨n, hn, hrest⟩ := hwalk
  have hndir : d.tree.get? n = some .directory := by
    cases qs with
    | nil => exact Except.ok.inj hrest ▸ hdir
    | cons q qs => exact directory_of_walk (List.cons_ne_nil q qs) hrest
  rw [weight_append] at hroom
  have hlocate := (h.locate_eq_ok_iff (by omega)).mpr
    ⟨fun y hy => hnul y (List.mem_append_left _ hy), hn⟩
  exact isDirectory_iff.mpr ⟨n, hlocate, hndir⟩

/-- **A path taken from it** takes more steps. -/
theorem join (h : d.Along start l room ps p) (hx : (⟨x⟩ : Path).isAbsolute = false) :
    d.Along start l room (ps ++ pieces '/' x) (p.join ⟨x⟩) := by
  obtain ⟨slash, hslash, htext⟩ : ∃ slash ∈ ([[], ['/']] : List Text),
      (p.join ⟨x⟩).text = p.text ++ slash ++ x := join_text hx
  have hfree : '\x00' ∉ slash ∧ byteLength slash ≤ 1 := by
    rcases List.mem_pair.mp hslash with rfl | rfl <;> decide
  have hlength := h.length
  refine ⟨?_, ?_, ?_, ?_, ?_, ?_⟩
  · rw [follow_join hx, h.follow, walk_append]
  · rw [body_join hx, h.body, componentsOf_append, List.append_assoc]
    rfl
  · rw [isAbsolute_join_of_relative hx, h.absolute]
  · rw [htext]
    simp [h.ne_nil]
  · rw [htext, List.mem_append, List.mem_append, h.nul,
      mem_iff_exists_mem_pieces (t := x) (c := '/') (by decide)]
    simp only [List.mem_append, or_and_right, exists_or, hfree.1, or_false]
  · rw [htext, byteLength_append, byteLength_append, weight_append, weight_pieces]
    omega

end Along

/-! ## The working directory -/

/-- Pieces without components are idle. -/
theorem isIdle_of_componentsOf {ps : List Text} (h : componentsOf ps = []) :
    ∀ y ∈ ps, isIdle y = true := by
  rw [componentsOf, List.map_eq_nil_iff, List.filter_eq_nil_iff] at h
  simpa using h

/-- Idle pieces in front of others change nothing about where they lead. -/
theorem walk_idle_append {idles ps : List Text} (h : ∀ y ∈ idles, isIdle y = true) (hne : ps ≠ [])
    (t : Tree) (l : Location) : walk t l (idles ++ ps) = walk t l ps := by
  induction idles with
  | nil => rfl
  | cons y idles ih =>
      obtain ⟨hy, hidles⟩ := List.forall_mem_cons.mp h
      rw [List.cons_append, walk_idle_cons hy (by simp [hne]), ih hidles]

/-- **A path that stands for the working directory** says nothing but that. -/
theorem of_isHere (h : Glob.isHere p = true) : p.isAbsolute = false ∧ p.body = [] := by
  rw [Glob.isHere, beq_iff_eq, components_eq] at h
  rcases opening_cases p.text with ⟨rest, -, hopening⟩ | ⟨-, hopening⟩ | ⟨-, hopening⟩
  · rw [hopening] at h
    cases h
  · rw [hopening] at h
    refine ⟨?_, (List.cons.inj h).2⟩
    rw [Bool.eq_false_iff, Ne, isAbsolute_iff_opening, hopening]
    decide
  · -- A dot of its own is no component of pieces.
    rw [hopening, List.nil_append] at h
    have hmem : Component.current ∈ componentsOf (pieces '/' p.text) := by simp [h]
    rcases eq_parent_or_name_of_mem (fun t ht => not_mem_of_mem_pieces ht) hmem with h | ⟨n, -, h⟩
    · cases h
    · cases h

/-- Steps to the working directory say nothing, if it is where they begin. -/
theorem Along.componentsOf_of_isHere (h : d.Along start l room ps p)
    (hhere : Glob.isHere p = true) : componentsOf ps = [] := by
  have hbody := (of_isHere hhere).2
  rw [h.body] at hbody
  exact (List.append_eq_nil_iff.mp hbody).2

/-- **The path of an entry** takes more steps, also where it does without the path of its
directory. -/
theorem Along.entryPath (h : d.Along start l room ps p) (hx : (⟨x⟩ : Path).isAbsolute = false)
    (hne : Glob.isHere p = true → x ≠ []) :
    d.Along start l room (ps ++ pieces '/' x) (Glob.entryPath p x) := by
  rw [Glob.entryPath]
  split_ifs with hhere
  · -- The entry goes by its name alone; the idle pieces that are left out lead nowhere.
    obtain ⟨hrelative, hbody⟩ := of_isHere hhere
    have hidle := isIdle_of_componentsOf hbody
    have hjoin := h.join hx
    refine ⟨?_, ?_, ?_, hne hhere, ?_, ?_⟩
    · rw [← hjoin.follow, follow_join hx, Disk.follow, Disk.follow, ← walk_append,
        walk_idle_append hidle (pieces_ne_nil '/' x)]
      rw [origin, hx, origin, hrelative]
    · rw [← hjoin.body, body_join hx, hbody, List.nil_append]
    · rw [← h.absolute, hrelative, hx]
    · have hnul : '\x00' ∉ p.text := by
        rw [mem_iff_exists_mem_pieces (c := '/') (by decide)]
        rintro ⟨y, hy, hy0⟩
        have hy' : y = [] ∨ y = ['.'] := by simpa [isIdle] using hidle y hy
        rcases hy' with rfl | rfl <;> revert hy0 <;> decide
      rw [h.nul] at hnul
      rw [mem_iff_exists_mem_pieces (t := x) (c := '/') (by decide)]
      simp only [List.mem_append, or_and_right, exists_or, hnul, false_or]
    · rw [weight_append, weight_pieces]
      dsimp only
      omega
  · exact h.join hx

end Disk

namespace Glob

open LocaleWrap.Path LocaleWrap.Disk Text

variable {d : Disk} {start root p : Path} {l m o r : Location} {room : Nat}
  {ps done names : List Text} {x : Text}

/-! ## Names at the front of a pattern -/

/-- **What can be followed one by one from the working directory**: nothing empty comes after the
dots that stand for it. -/
def Steady {α : Type} [DecidableEq α] (dot empty : α) (l : List α) : Prop :=
  (l.dropWhile (· = dot)).head? ≠ some empty

instance {α : Type} [DecidableEq α] (dot empty : α) (l : List α) : Decidable (Steady dot empty l) :=
  inferInstanceAs (Decidable (_ ≠ _))

/-- What begins with a dot is steady if the rest is; what begins otherwise, if it does not begin
empty. -/
theorem steady_cons {α : Type} [DecidableEq α] {dot empty a : α} {l : List α} :
    Steady dot empty (a :: l) ↔ if a = dot then Steady dot empty l else a ≠ empty := by
  by_cases ha : a = dot <;> simp [Steady, ha]

/-- The first of steady names is not empty. -/
theorem Steady.ne_nil (h : Steady ['.'] [] (x :: names)) : x ≠ [] := by
  rintro rfl
  exact h rfl

/-- A text without slashes is one piece. -/
theorem pieces_of_not_mem (h : '/' ∉ x) : pieces '/' x = [x] :=
  pieces_joinWith (by simpa using h) (List.cons_ne_nil x [])

/-- A text without slashes is a relative path. -/
theorem isAbsolute_of_not_mem (h : '/' ∉ x) : (⟨x⟩ : Path).isAbsolute = false := by
  cases x with
  | nil => rfl
  | cons c x =>
      have hc : c ≠ '/' := by
        rintro rfl
        exact h List.mem_cons_self
      simpa [isAbsolute] using hc

/-- A directory is something that is there. -/
theorem contains_of_isDirectory (h : d.isDirectory p = true) : d.contains p = true := by
  obtain ⟨l, hl, hdir⟩ := isDirectory_iff.mp h
  exact contains_iff.mpr ⟨l, hl, Option.isSome_of_eq_some hdir⟩

/-- An entry that is there is found by its name. -/
theorem entryNamed_eq (hcheck : d.isDirectory p = true)
    (hnext : d.contains (entryPath p x) = true) : entryNamed d p x = [entryPath p x] := by
  rw [entryNamed]
  split_ifs <;> simp_all

/-- **Plain names at the front of a pattern** lead from path to path, as long as the directories are
there. -/
theorem exists_along_steps (h : d.Along start o room done p)
    (hfree : ∀ n ∈ names, '/' ∉ n) (hnul : ∀ n ∈ done ++ names, '\x00' ∉ n)
    (hwalk : walk d.tree o (done ++ names) = .ok r) (hdir : d.tree.get? r = some .directory)
    (hroom : room + weight (done ++ names) < pathLimit)
    (hsteady : start.isAbsolute = false → componentsOf done = [] → Steady ['.'] [] names) :
    ∃ q, d.Along start o room (done ++ names) q ∧
      ∀ parts, expandParts d (names.map plainPart ++ parts) p = expandParts d parts q := by
  -- The names that are done move from one list to the other; where they end stays the same.
  induction names generalizing done p with
  | nil => exact ⟨p, by rwa [List.append_nil], fun parts => rfl⟩
  | cons x names ih =>
      obtain ⟨hslash, hfree'⟩ := List.forall_mem_cons.mp hfree
      have hassoc : done ++ x :: names = (done ++ [x]) ++ names := by simp
      have hne : isHere p = true → x ≠ [] := by
        intro hhere
        have habsolute := (of_isHere hhere).1
        exact (hsteady (h.absolute ▸ habsolute) (h.componentsOf_of_isHere hhere)).ne_nil
      have hnext := h.entryPath (isAbsolute_of_not_mem hslash) hne
      rw [pieces_of_not_mem hslash] at hnext
      have hcheck : d.isDirectory p = true := h.isDirectory hwalk hdir hnul hroom
      rw [hassoc] at hnul hwalk hroom ⊢
      have hfound : d.contains (entryPath p x) = true :=
        contains_of_isDirectory (hnext.isDirectory hwalk hdir hnul hroom)
      -- As long as only dots are done, the names to come are still steady.
      have hsteady' : start.isAbsolute = false → componentsOf (done ++ [x]) = [] →
          Steady ['.'] [] names := by
        intro habsolute hidle
        rw [componentsOf_append, List.append_eq_nil_iff] at hidle
        have hx := isIdle_of_componentsOf hidle.2 x List.mem_cons_self
        have hwhole := hsteady habsolute hidle.1
        have hdot : x = ['.'] := by simpa [isIdle, hwhole.ne_nil] using hx
        rwa [steady_cons, if_pos hdot] at hwhole
      obtain ⟨q, hq, hparts⟩ := ih hnext hfree' hnul hwalk hroom hsteady'
      refine ⟨q, hq, fun parts => ?_⟩
      rw [← hparts, List.map_cons, List.cons_append, plainPart, expandParts, literal?_chars]
      simp only [entryNamed_eq hcheck hfound, List.flatMap_cons, List.flatMap_nil, List.append_nil]

/-! ## From the root -/

/-- **The steps of a root**: its pieces, as long as they say something or stand in between. -/
theorem pieces_front (root : Path) :
    pieces '/' root.front =
      (if root.isAbsolute then [[]] else []) ++ steps ⟨root.front⟩ ++ [[]] := by
  have habsolute : (⟨root.front⟩ : Path).isAbsolute = root.isAbsolute :=
    isAbsolute_join_of_relative (q := ⟨[]⟩) rfl
  rw [← habsolute]
  exact pieces_eq_steps (p := ⟨root.front⟩) root.isFront_front

/-- The steps of the front of a root have the components of the root. -/
theorem componentsOf_steps_front (root : Path) :
    componentsOf (steps ⟨root.front⟩) = root.body := by
  have hbody : componentsOf (pieces '/' root.front) = root.body ++ [] :=
    body_join (q := ⟨[]⟩) rfl
  rw [pieces_front, componentsOf_append, componentsOf_append, List.append_nil] at hbody
  rw [← hbody]
  cases root.isAbsolute <;> simp [componentsOf, isIdle]

/-- The steps of the front of a root weigh at most one byte more than the root. -/
theorem weight_steps_front (root : Path) :
    weight (steps ⟨root.front⟩) ≤ root.text.byteLength + 1 := by
  have hfront : byteLength root.front ≤ root.text.byteLength + 1 := by
    have hslash : byteLength ['/'] = 1 := rfl
    rw [front_eq]
    split_ifs
    · omega
    · rw [byteLength_append, hslash]
  have hweight := weight_pieces root.front
  rw [pieces_front, weight_append, weight_append] at hweight
  have hlast : weight [[]] = 1 := rfl
  omega

/-- **The steps of a root lead to its directory.** -/
theorem walk_steps_front (h : d.Denotes root r) :
    walk d.tree (d.origin root) (steps ⟨root.front⟩) = .ok r := by
  have hidle : ∀ {m : Location}, walk d.tree m [[]] = .ok r → m = r := fun hm => by
    simpa [componentsOf, isIdle] using (walk_eq_foldl hm).symm
  have horigin : d.origin ⟨root.front⟩ = d.origin root := origin_join (q := ⟨[]⟩) rfl
  have hfollow : walk d.tree (d.origin root) (pieces '/' root.front) = .ok r := by
    have hjoin := follow_join (d := d) (p := root) (q := ⟨[]⟩) rfl
    rw [h.follow] at hjoin
    rw [← horigin]
    exact hjoin.trans (walk_slashes (by simp) h.1)
  have hfront : walk d.tree (d.origin root) (steps ⟨root.front⟩ ++ [[]]) = .ok r := by
    rw [pieces_front, List.append_assoc] at hfollow
    cases habsolute : root.isAbsolute with
    | false => simpa [habsolute] using hfollow
    | true =>
        rw [habsolute, if_pos rfl, List.singleton_append, walk_idle_cons rfl (by simp)] at hfollow
        exact hfollow
  rw [walk_append, bind_eq_ok_iff] at hfront
  obtain ⟨m, hm, hrest⟩ := hfront
  rwa [hidle hrest] at hm

/-- Each step of the front of a root is a piece of it. -/
theorem mem_pieces_of_mem_steps_front (hx : x ∈ steps ⟨root.front⟩) :
    x ∈ pieces '/' root.front := by
  rw [pieces_front]
  exact List.mem_append_left _ (List.mem_append_right _ hx)

/-- The steps of the front of a root that can be followed hold no null character. -/
theorem nul_not_mem_steps_front (h : d.Denotes root r) (hx : x ∈ steps ⟨root.front⟩) :
    '\x00' ∉ x := by
  intro hx0
  have hfront : '\x00' ∈ root.front :=
    (mem_iff_exists_mem_pieces (by decide)).mpr ⟨x, mem_pieces_of_mem_steps_front hx, hx0⟩
  have hroot := h.nul_not_mem
  rw [front_eq] at hfront
  split_ifs at hfront
  · exact hroot hfront
  · simp [hroot] at hfront

/-- **A root to start from**: where names can be followed one by one from the place where its path
begins. -/
def SteadyRoot (root : Path) : Prop :=
  root.isAbsolute = true ∨ Steady ['.'] [] (steps ⟨root.front⟩)

instance (root : Path) : Decidable (SteadyRoot root) := inferInstanceAs (Decidable (_ ∨ _))

/-- **The path that an expansion starts from**: the root, or the working directory. -/
def beginning (absolute : Bool) : Path := ⟨if absolute then ['/'] else ['.']⟩

/-- An expansion starts from an absolute path exactly for an absolute pattern. -/
theorem isAbsolute_beginning (absolute : Bool) : (beginning absolute).isAbsolute = absolute := by
  cases absolute <;> rfl

/-- An expansion starts without a step taken. -/
theorem body_beginning (absolute : Bool) : (beginning absolute).body = [] := by
  cases absolute <;> rfl

/-- Where the path begins, there is a directory. -/
theorem along_beginning {start : Path} {room : Nat} (hstart : start.body = [])
    (hroom : 1 ≤ room) (hdir : d.tree.get? (d.origin start) = some .directory) :
    d.Along start (d.origin start) room [] (beginning start.isAbsolute) := by
  refine ⟨?_, ?_, isAbsolute_beginning _, ?_, ?_, ?_⟩
  · have hstay : walk d.tree (d.origin start) [['.']] = .ok (d.origin start) := by
      have hstep : step d.tree (d.origin start) ['.'] = .ok (d.origin start) :=
        step_eq_ok_iff.mpr ⟨hdir, Or.inl ⟨rfl, rfl⟩⟩
      simp [walk, hstep, Except.bind]
    cases habsolute : start.isAbsolute with
    | true =>
        rw [origin, habsolute, if_pos rfl] at hdir ⊢
        exact walk_slashes (by simp [beginning, pieces_cons_self]) hdir
    | false =>
        have horigin : d.origin start = d.cwd := by rw [origin, habsolute]; rfl
        rw [horigin] at hstay ⊢
        exact hstay
  · rw [body_beginning, hstart]
    rfl
  · cases start.isAbsolute <;> exact List.cons_ne_nil _ _
  · cases start.isAbsolute <;> decide
  · have hlength : (beginning start.isAbsolute).text.byteLength = 1 := by
      cases start.isAbsolute <;> rfl
    rw [hlength]
    exact hroom

/-- **The plain names of a root** lead to a path to its directory. -/
theorem exists_along_root (h : d.Denotes root r) (hsteady : SteadyRoot root)
    (hlength : root.text.byteLength + 2 < pathLimit) :
    ∃ b, d.Along root r (root.text.byteLength + 2) [] b ∧ ∀ parts,
      expandParts d ((steps ⟨root.front⟩).map plainPart ++ parts) (beginning root.isAbsolute) =
        expandParts d parts b := by
  have habsolute := isAbsolute_beginning root.isAbsolute
  have hbegin : d.Along (beginning root.isAbsolute) (d.origin root) 1 []
      (beginning root.isAbsolute) := by
    have horigin : d.origin (beginning root.isAbsolute) = d.origin root :=
      origin_eq_of_isAbsolute habsolute
    have hdir := directory_of_walk (pieces_ne_nil '/' root.text) h.follow
    have hstart := along_beginning (body_beginning root.isAbsolute) (Nat.le_refl 1) (horigin ▸ hdir)
    rwa [horigin, habsolute] at hstart
  have hweight := weight_steps_front root
  have hroom : 1 + weight ([] ++ steps ⟨root.front⟩) < pathLimit := by
    rw [List.nil_append]
    omega
  obtain ⟨b, hb, hparts⟩ := exists_along_steps hbegin
    (fun s hs => not_mem_of_mem_pieces (mem_pieces_of_mem_steps_front hs))
    (fun s hs => nul_not_mem_steps_front h hs) (walk_steps_front h) h.1 hroom
    (fun hrelative _ => hsteady.resolve_left (by rw [← habsolute, hrelative]; decide))
  rw [List.nil_append] at hb
  -- The steps of the root are over, and what comes counts from its directory.
  refine ⟨b, ⟨?_, ?_, ?_, hb.ne_nil, ?_, ?_⟩, hparts⟩
  · rw [hb.follow, walk_steps_front h]
    rfl
  · rw [hb.body, body_beginning, componentsOf_steps_front]
    exact (List.append_nil _).symm
  · rw [hb.absolute, habsolute]
  · rw [hb.nul]
    simpa using fun s hs => nul_not_mem_steps_front h hs
  · have hblength := hb.length
    rw [weight_nil]
    omega

end Glob

end LocaleWrap
