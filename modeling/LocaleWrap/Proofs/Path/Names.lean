import LocaleWrap.Path.Basic
import LocaleWrap.Proofs.Text.Pieces
import LocaleWrap.Tree.Basic
import Mathlib.Tactic.SplitIfs

/-! # Paths made of names

A path that is made of names alone leads down. Taken from a directory, it adds its names to the
components of the directory.

* **`Path.ofNames`** — the path down along names.
* **`Path.front`** — a path as it stands in front of the paths taken from it.
* **`Path.resolve`** — the location that a path stands for if each step up leaves the directory that
  was entered last; `resolve_join_ofNames` says where a path down leads.
* `Path.components_join_ofNames` — the components of a path down from a directory.
* `Path.components_prefix_of_mem_ancestors` — the paths above a path by their components. -/

namespace LocaleWrap

/-- **What a component does to a location.** -/
def Component.follow (l : Location) : Component → Location
  | root => []
  | current => l
  | parent => l.dropLast
  | normal name => l ++ [name]

namespace Path

open Text

variable {p q dir : Path} {names : List Text} {cwd : Location}

/-- **The path down along names.** -/
def ofNames (names : List Text) : Path := ⟨joinWith ['/'] names⟩

/-- **The location that a path stands for**, from a working directory. -/
def resolve (cwd : Location) (p : Path) : Location := p.components.foldl Component.follow cwd

/-- A name is not empty. -/
theorem IsName.ne_nil {t : Text} (h : IsName t) : t ≠ [] := by
  rintro rfl
  cases h.2.1

/-- Writing normal components gives the path along their names. -/
theorem ofComponents_map_normal (names : List Text) :
    ofComponents (names.map .normal) = ofNames names := by
  have htext : (names.map Component.normal).map Component.text = names := by
    rw [List.map_map]
    exact List.map_id names
  cases names with
  | nil => rfl
  | cons name names => rw [List.map_cons, ofComponents, ← List.map_cons, htext, ofNames]; simp

/-! ## Components of pieces -/

/-- The components of pieces in a row are those of each part. -/
theorem componentsOf_append (ps qs : List Text) :
    componentsOf (ps ++ qs) = componentsOf ps ++ componentsOf qs := by
  rw [componentsOf, List.filter_append, List.map_append]
  rfl

/-- **Names are their own components.** -/
theorem componentsOf_names (h : ∀ n ∈ names, IsName n) :
    componentsOf names = names.map .normal := by
  have hkept : names.filter (fun n => !isIdle n) = names := by
    rw [List.filter_eq_self]
    intro n hn
    rw [(h n hn).2.1]
    rfl
  rw [componentsOf, hkept]
  exact List.map_congr_left fun n hn => if_neg (h n hn).2.2

/-- **A component of pieces** is a step up or a name. -/
theorem eq_parent_or_name_of_mem {c : Component} {ps : List Text} (hps : ∀ t ∈ ps, '/' ∉ t)
    (h : c ∈ componentsOf ps) : c = .parent ∨ ∃ n, IsName n ∧ c = .normal n := by
  obtain ⟨t, ht, rfl⟩ := List.mem_map.mp h
  obtain ⟨hmem, hidle⟩ := List.mem_filter.mp ht
  by_cases hdots : t = ['.', '.']
  · exact Or.inl (if_pos hdots)
  · exact Or.inr ⟨t, ⟨hps t hmem, by simpa using hidle, hdots⟩, if_neg hdots⟩

/-- The pieces of a path along names are the names. -/
theorem pieces_ofNames (h : ∀ n ∈ names, IsName n) (hne : names ≠ []) :
    pieces '/' (ofNames names).text = names :=
  pieces_joinWith (fun n hn => (h n hn).1) hne

/-! ## How a path begins -/

/-- The three ways in which a path can begin. -/
theorem opening_cases (t : Text) :
    (∃ rest, t = '/' :: rest ∧ opening t = ([.root], rest)) ∨
    ((t = ['.'] ∨ ∃ rest, t = '.' :: '/' :: rest) ∧ (opening t).1 = [.current]) ∨
    ((∀ rest, t ≠ '/' :: rest) ∧ opening t = ([], t)) := by
  unfold opening
  split
  · exact Or.inl ⟨_, rfl, rfl⟩
  · exact Or.inr (Or.inl ⟨Or.inl rfl, rfl⟩)
  · exact Or.inr (Or.inl ⟨Or.inr ⟨_, rfl⟩, rfl⟩)
  · next hroot _ _ => exact Or.inr (Or.inr ⟨fun rest h => hroot rest h, rfl⟩)

/-- **An absolute path** begins at the root. -/
theorem isAbsolute_iff_opening : p.isAbsolute = true ↔ (opening p.text).1 = [.root] := by
  rcases opening_cases p.text with ⟨rest, htext, -⟩ | ⟨htext | ⟨rest, htext⟩, -⟩ | ⟨hne, hopening⟩
  · simp [isAbsolute, htext, opening]
  · simp [isAbsolute, htext, opening]
  · simp [isAbsolute, htext, opening]
  · have hhead : p.text.head? ≠ some '/' := by
      intro hhead
      obtain ⟨rest, hrest⟩ := List.head?_eq_some_iff.mp hhead
      exact hne rest hrest
    simp [isAbsolute, hopening, hhead]

/-- **The components of a path** are the way in which it begins and what its pieces stand for. -/
theorem components_eq (p : Path) :
    p.components = (opening p.text).1 ++ componentsOf (pieces '/' p.text) := by
  rw [components]
  unfold opening
  split
  · next rest h => rw [h, pieces_cons_self]; rfl
  · next h => rw [h]; rfl
  · next rest h =>
    have hdot : pieces '/' ('.' :: '/' :: rest) = ['.'] :: pieces '/' rest :=
      pieces_append '/' ['.'] rest
    rw [h, pieces_cons_self, hdot]
    rfl
  · rfl

/-- **Going on does not change how a path begins**, unless it is empty or a single dot so far. -/
theorem opening_append {s : Text} (hs : s ≠ []) (hdot : s ≠ ['.']) (t : Text) :
    (opening (s ++ t)).1 = (opening s).1 := by
  -- Two characters decide how a path begins, and one does unless it is a dot.
  rcases s with _ | ⟨c, _ | ⟨d, s⟩⟩
  · exact absurd rfl hs
  · by_cases hc : c = '/'
    · rw [hc]
      rfl
    · have hne : c ≠ '.' := fun h => hdot (by rw [h])
      simp only [List.cons_append, List.nil_append]
      unfold opening
      split <;> simp_all
  · unfold opening
    simp only [List.cons_append]
    split <;> simp_all

/-- An absolute path begins with the root; the rest are its pieces. -/
theorem components_of_isAbsolute (h : p.isAbsolute = true) :
    p.components = .root :: componentsOf (pieces '/' p.text) := by
  rw [components_eq, isAbsolute_iff_opening.mp h]
  rfl

/-- **The names in a path** are names. -/
theorem isName_of_mem_components {n : Text} (h : .normal n ∈ p.components) : IsName n := by
  rw [components_eq, List.mem_append] at h
  rcases h with h | h
  · rcases opening_cases p.text with ⟨rest, -, hopening⟩ | ⟨-, hopening⟩ | ⟨-, hopening⟩ <;>
      simp [hopening] at h
  · rcases eq_parent_or_name_of_mem (fun t ht => not_mem_of_mem_pieces ht) h with h | ⟨m, hm, h⟩
    · cases h
    · obtain rfl := Component.normal.inj h
      exact hm

/-- **The last piece of a path**, if it is a name, is the name that the path ends in. -/
theorem fileName?_of_pieces {ps : List Text} {n : Text} (h : pieces '/' p.text = ps ++ [n])
    (hn : IsName n) : p.fileName? = some n := by
  have hlast : componentsOf [n] = [.normal n] :=
    componentsOf_names fun m hm => List.mem_singleton.mp hm ▸ hn
  rw [fileName?, components_eq, h, componentsOf_append, hlast, ← List.append_assoc,
    List.getLast?_concat]

/-! ## Joining -/

/-- The empty path has no components. -/
theorem components_empty : (⟨[]⟩ : Path).components = [] := rfl

/-- **Going on with another piece** adds to the components. -/
theorem components_append_slash {s : Text} (hs : s ≠ []) (t : Text) :
    (⟨s ++ '/' :: t⟩ : Path).components =
      (⟨s⟩ : Path).components ++ componentsOf (pieces '/' t) := by
  have hopening : (opening (s ++ '/' :: t)).1 = (opening s).1 := by
    by_cases hdot : s = ['.']
    · rw [hdot]
      rfl
    · exact opening_append hs hdot _
  rw [components_eq, components_eq, hopening, pieces_append, componentsOf_append,
    List.append_assoc]

/-- **The components of a path taken from a directory.** -/
theorem components_join (hdir : dir.text ≠ []) (hq : q.isAbsolute = false) :
    (dir.join q).components = dir.components ++ componentsOf (pieces '/' q.text) := by
  rw [join, if_neg (by simp [hq])]
  by_cases hslash : dir.text.getLast? = some '/'
  · rw [if_pos (Or.inr hslash)]
    -- The slash that ends the directory is the one between the two.
    obtain ⟨s, hs⟩ := List.getLast?_eq_some_iff.mp hslash
    have hwhole : dir.text ++ q.text = s ++ '/' :: q.text := by
      rw [hs, List.append_assoc, List.singleton_append]
    have hdir' : dir = ⟨s ++ '/' :: []⟩ := by rw [← hs]
    rw [hwhole, hdir']
    by_cases hempty : s = []
    · rw [hempty, List.nil_append, components_eq, components_eq, List.nil_append, pieces_cons_self]
      rfl
    · rw [components_append_slash hempty, components_append_slash hempty, pieces_nil,
        List.append_assoc]
      rfl
  · rw [if_neg (by simp [hdir, hslash])]
    exact components_append_slash hdir q.text

/-- **A path as it stands in front** of the paths taken from it. -/
def front (p : Path) : Text := (p.join ⟨[]⟩).text

/-- The front of a path is its text, with a slash behind it where one is missing. -/
theorem front_eq (p : Path) :
    p.front = if p.text = [] ∨ p.text.getLast? = some '/' then p.text else p.text ++ ['/'] := by
  have hempty : (⟨[]⟩ : Path).isAbsolute = false := rfl
  rw [front, join, if_neg (by simp [hempty])]
  split <;> simp

/-- The front of a path is empty or ends in a slash. -/
theorem front_closed (p : Path) : p.front = [] ∨ p.front.getLast? = some '/' := by
  rw [front_eq]
  split_ifs with h
  · exact h
  · exact Or.inr List.getLast?_concat

/-- **A path taken from another** is written behind its front. -/
theorem join_eq_front (hq : q.isAbsolute = false) : p.join q = ⟨p.front ++ q.text⟩ := by
  rw [front_eq, join, if_neg (by simp [hq])]
  split_ifs <;> simp

/-- A path with a relative one behind it is absolute when it was so itself. -/
theorem isAbsolute_join_of_relative (hq : q.isAbsolute = false) :
    (p.join q).isAbsolute = p.isAbsolute := by
  rw [join_eq_front hq, front_eq, isAbsolute, isAbsolute]
  cases hp : p.text with
  | nil => simpa [isAbsolute] using hq
  | cons c t => split_ifs <;> simp

/-- **A path taken from a path** that is itself taken from another. -/
theorem join_assoc (c : Path) (hq : q.isAbsolute = false) :
    (c.join p).join q = c.join (p.join q) := by
  by_cases hp : p.isAbsolute = true
  · have hpq : (p.join q).isAbsolute = true := by rw [isAbsolute_join_of_relative hq, hp]
    rw [join_of_isAbsolute hp, join_of_isAbsolute hpq]
  · have hp' : p.isAbsolute = false := by simpa using hp
    have hpq : (p.join q).isAbsolute = false := by rw [isAbsolute_join_of_relative hq, hp']
    -- What stands behind the front of the first path ends as the second one does, if that is there.
    have hfront : (c.join p).front = c.front ++ p.front := by
      rw [join_eq_front hp', front_eq, front_eq p]
      by_cases hempty : p.text = []
      · rw [hempty, List.append_nil, if_pos c.front_closed, if_pos (Or.inl rfl), List.append_nil]
      · have hlast : (c.front ++ p.text).getLast? = p.text.getLast? := by
          rw [List.getLast?_append, List.getLast?_eq_some_getLast hempty, Option.some_or]
        simp only [hlast, List.append_eq_nil_iff, hempty, and_false, false_or]
        split <;> simp
    rw [join_eq_front hq, hfront, join_eq_front hpq, join_eq_front hq, List.append_assoc]

/-- A path taken from an absolute one is absolute. -/
theorem isAbsolute_join (h : dir.isAbsolute = true) (q : Path) :
    (dir.join q).isAbsolute = true := by
  rw [isAbsolute, beq_iff_eq] at h
  obtain ⟨rest, hrest⟩ := List.head?_eq_some_iff.mp h
  unfold join
  split_ifs with hq hslash
  · exact hq
  · simp [isAbsolute, hrest]
  · simp [isAbsolute, hrest]

/-- A path along names is relative. -/
theorem isAbsolute_ofNames (h : ∀ n ∈ names, IsName n) : (ofNames names).isAbsolute = false := by
  cases names with
  | nil => rfl
  | cons n names =>
      obtain ⟨c, cs, hn⟩ := List.exists_cons_of_ne_nil (h n List.mem_cons_self).ne_nil
      have hslash : c ≠ '/' := by
        rintro rfl
        exact (h n List.mem_cons_self).1 (hn ▸ List.mem_cons_self)
      rw [hn]
      cases names <;> simp [isAbsolute, ofNames, hslash]

/-- A path down has its names as components. -/
theorem components_ofNames (h : ∀ n ∈ names, IsName n) :
    (ofNames names).components = names.map .normal := by
  cases names with
  | nil => rfl
  | cons n names =>
      have hpieces := pieces_ofNames h (List.cons_ne_nil n names)
      -- Any other beginning would make the first name empty or a dot.
      have hopening : (opening (ofNames (n :: names)).text).1 = [] := by
        rcases opening_cases (ofNames (n :: names)).text with
          ⟨rest, htext, -⟩ | ⟨htext | ⟨rest, htext⟩, -⟩ | ⟨-, hopening⟩
        · rw [htext, pieces_cons_self] at hpieces
          exact absurd (List.cons.inj hpieces).1.symm (h n List.mem_cons_self).ne_nil
        · rw [htext] at hpieces
          cases (List.cons.inj hpieces).1 ▸ (h n List.mem_cons_self).2.1
        · have hdot : pieces '/' ('.' :: '/' :: rest) = ['.'] :: pieces '/' rest :=
            pieces_append '/' ['.'] rest
          rw [htext, hdot] at hpieces
          cases (List.cons.inj hpieces).1 ▸ (h n List.mem_cons_self).2.1
        · rw [hopening]
      rw [components_eq, hopening, hpieces, componentsOf_names h, List.nil_append]

/-- **The components of a path down from a directory.** -/
theorem components_join_ofNames (dir : Path) (h : ∀ n ∈ names, IsName n) (hne : names ≠ []) :
    (dir.join (ofNames names)).components = dir.components ++ names.map .normal := by
  have hrelative := isAbsolute_ofNames h
  by_cases hdir : dir.text = []
  · have hdir' : dir = ⟨[]⟩ := by rw [← hdir]
    rw [join, if_neg (by simp [hrelative]), if_pos (Or.inl hdir), hdir, List.nil_append, hdir',
      components_empty, List.nil_append]
    exact components_ofNames h
  · rw [components_join hdir hrelative, pieces_ofNames h hne, componentsOf_names h]

/-! ## Locations -/

/-- Following names leads down along them. -/
theorem foldl_follow_names (l : Location) (names : List Text) :
    (names.map Component.normal).foldl Component.follow l = l ++ names := by
  induction names generalizing l with
  | nil => rw [List.map_nil, List.foldl_nil, List.append_nil]
  | cons n names ih =>
      rw [List.map_cons, List.foldl_cons, ih, Component.follow, List.append_assoc,
        List.singleton_append]

/-- **Names added to the components** are added to the location. -/
theorem resolve_of_components (h : q.components = p.components ++ names.map .normal) :
    q.resolve cwd = p.resolve cwd ++ names := by
  rw [resolve, h, List.foldl_append, foldl_follow_names]
  rfl

/-- **Where a path down from a directory leads.** -/
theorem resolve_join_ofNames (cwd : Location) (dir : Path) (h : ∀ n ∈ names, IsName n)
    (hne : names ≠ []) : (dir.join (ofNames names)).resolve cwd = dir.resolve cwd ++ names :=
  resolve_of_components (components_join_ofNames dir h hne)

/-! ## The paths above -/

/-- What is left of pieces ends where some of them were taken off. -/
theorem exists_append_of_mem_stems {ls ps : List Text} (h : ps ∈ stems ls) :
    ∃ taken, taken ≠ [] ∧ ls = taken ++ ps := by
  induction ls with
  | nil => cases h
  | cons l ls ih =>
      have hrec : ps ∈ stems ls → ∃ taken, taken ≠ [] ∧ l :: ls = taken ++ ps := by
        intro hmem
        obtain ⟨taken, -, rfl⟩ := ih hmem
        exact ⟨l :: taken, List.cons_ne_nil l taken, rfl⟩
      rw [stems] at h
      split_ifs at h with hidle
      · exact hrec h
      · rcases List.mem_cons.mp h with rfl | h
        · refine ⟨l :: ls.takeWhile isIdle, List.cons_ne_nil _ _, ?_⟩
          rw [List.cons_append, dropIdle, List.takeWhile_append_dropWhile]
        · exact hrec h

/-- The way in which a path begins and the rest of its text are the whole text. -/
theorem opening_text (t : Text) :
    ((opening t).1.map Component.text).flatten ++ (opening t).2 = t := by
  unfold opening
  split <;> rfl

/-- **A path above a path** is empty, or the root, or the path up to one of its slashes. -/
theorem text_of_mem_parents (h : q ∈ p.parents) :
    q.text = [] ∨ (q.text = ['/'] ∧ ∃ rest, p.text = '/' :: rest) ∨
      ∃ t, p.text = q.text ++ '/' :: t := by
  have hmem : q.text = [] ∨ ∃ ps ∈ stems (pieces '/' (opening p.text).2).reverse,
      q.text = ((opening p.text).1.map Component.text).flatten ++ joinWith ['/'] ps.reverse := by
    rw [parents] at h
    split_ifs at h
    · rcases List.mem_append.mp h with h | h
      · obtain ⟨ps, hps, rfl⟩ := List.mem_map.mp h
        exact Or.inr ⟨ps, hps, rfl⟩
      · rw [List.mem_singleton.mp h]
        exact Or.inl rfl
    · obtain ⟨ps, hps, rfl⟩ := List.mem_map.mp h
      exact Or.inr ⟨ps, hps, rfl⟩
  rcases hmem with hempty | ⟨ps, hps, hq⟩
  · exact Or.inl hempty
  · obtain ⟨taken, hne, hsplit⟩ := exists_append_of_mem_stems hps
    by_cases hempty : ps = []
    · -- Nothing is left but the way in which the path begins.
      rw [hempty, List.reverse_nil, joinWith_nil, List.append_nil] at hq
      rcases opening_cases p.text with ⟨rest, htext, hopening⟩ | ⟨htext, hopening⟩ | ⟨-, hopening⟩
      · rw [hopening] at hq
        exact Or.inr (Or.inl ⟨hq, rest, htext⟩)
      · rcases htext with htext | ⟨rest, htext⟩
        · rw [htext] at hps
          cases hps
        · rw [hopening] at hq
          exact Or.inr (Or.inr ⟨rest, by rw [hq, htext]; rfl⟩)
      · rw [hopening] at hq
        exact Or.inl hq
    · have hpieces : pieces '/' (opening p.text).2 = ps.reverse ++ taken.reverse := by
        rw [← List.reverse_append, ← hsplit, List.reverse_reverse]
      have hrest := joinWith_pieces '/' (opening p.text).2
      rw [hpieces, joinWith_append ['/'] (by simpa using hempty) (by simpa using hne)] at hrest
      refine Or.inr (Or.inr ⟨joinWith ['/'] taken.reverse, ?_⟩)
      refine (opening_text p.text).symm.trans ?_
      rw [hq, ← hrest]
      simp only [List.append_assoc, List.singleton_append]

/-- **The components of a path above a path** are the first of its components. -/
theorem components_prefix_of_mem_parents (h : q ∈ p.parents) : q.components <+: p.components := by
  rcases text_of_mem_parents h with hempty | ⟨hroot, rest, hrest⟩ | ⟨t, ht⟩
  · have hq : q = ⟨[]⟩ := by rw [← hempty]
    rw [hq, components_empty]
    exact List.nil_prefix
  · have hq : q = ⟨['/']⟩ := by rw [← hroot]
    rw [hq, components_eq p, hrest]
    exact List.prefix_append [Component.root] _
  · by_cases hempty : q.text = []
    · have hq : q = ⟨[]⟩ := by rw [← hempty]
      rw [hq, components_empty]
      exact List.nil_prefix
    · have hp : p = ⟨q.text ++ '/' :: t⟩ := by rw [← ht]
      rw [hp, components_append_slash hempty]
      exact List.prefix_append _ _

/-- The components of a path above are the first ones of the path. -/
theorem components_prefix_of_mem_ancestors (h : q ∈ p.ancestors) :
    q.components <+: p.components := by
  rcases List.mem_cons.mp h with rfl | h
  · exact List.prefix_rfl
  · exact components_prefix_of_mem_parents h

end Path

end LocaleWrap
