import LocaleWrap.Proofs.Path.Containment
import Mathlib.Data.List.Infix

/-! # The paths above a path, one by one

Going up from a path takes off its components one after the other. A relative path ends with the
empty path, which stands for the place where it begins, and an absolute one with the root.

* `Path.components_ancestors` — a path and the paths above it by their components.
* `Path.pairwise_ancestors`, `Path.exists_mem_ancestors` — the later an ancestor comes, the fewer
  components it has; and none is left out.
* `Path.text_prefix_of_mem_ancestors`, `Path.isAbsolute_of_mem_ancestors` — how they are written.
* **`Path.names`** — the names among the components; `Path.exists_mem_ancestors_names` finds the
  ancestor with the first of them. -/

namespace LocaleWrap

/-- The name that a component is, if it is one. -/
def Component.name? : Component → Option Text
  | normal n => some n
  | _ => none

namespace Path

open Text

variable {p q : Path}

/-! ## Pieces taken off -/

/-- The components of reversed pieces are the reversed components. -/
theorem componentsOf_reverse (ps : List Text) :
    componentsOf ps.reverse = (componentsOf ps).reverse := by
  rw [componentsOf, componentsOf, List.filter_reverse, List.map_reverse]

/-- Idle pieces in front have no components. -/
theorem componentsOf_dropIdle (ps : List Text) : componentsOf (dropIdle ps) = componentsOf ps := by
  induction ps with
  | nil => rfl
  | cons p ps ih =>
      by_cases hidle : isIdle p = true
      · rw [dropIdle, List.dropWhile_cons_of_pos hidle, ← dropIdle, ih]
        simp [componentsOf, hidle]
      · rw [dropIdle, List.dropWhile_cons_of_neg hidle]

/-- **What is left of pieces** as their components are taken off. -/
theorem map_componentsOf_stems (ps : List Text) :
    (stems ps).map componentsOf = (componentsOf ps).tails.tail := by
  induction ps with
  | nil => rfl
  | cons p ps ih =>
      rw [stems]
      by_cases hidle : isIdle p = true
      · rw [if_pos hidle, ih]
        simp [componentsOf, hidle]
      · have hcons : componentsOf (p :: ps) = componentOf p :: componentsOf ps := by
          simp [componentsOf, hidle]
        rw [if_neg hidle, List.map_cons, componentsOf_dropIdle, ih, hcons, List.tails_cons,
          List.tail_cons]
        cases componentsOf ps <;> rfl

/-- **The components of what is left**, written behind the beginning of the path. -/
theorem components_stem {ps : List Text} {t : Text}
    (hps : ps ∈ stems (pieces '/' (opening t).2).reverse) :
    (⟨((opening t).1.map Component.text).flatten ++ joinWith ['/'] ps.reverse⟩ : Path).components =
      (opening t).1 ++ (componentsOf ps).reverse := by
  obtain ⟨taken, htaken, hsplit⟩ := exists_append_of_mem_stems hps
  by_cases hempty : ps = []
  · rw [hempty, List.reverse_nil, joinWith_nil, List.append_nil]
    rcases opening_cases t with ⟨rest, -, hopening⟩ | ⟨-, hopening⟩ | ⟨-, hopening⟩ <;>
      rw [hopening] <;> rfl
  · have hpieces : pieces '/' (opening t).2 = ps.reverse ++ taken.reverse := by
      rw [← List.reverse_append, ← hsplit, List.reverse_reverse]
    have hrest := joinWith_pieces '/' (opening t).2
    rw [hpieces, joinWith_append ['/'] (by simpa using hempty) (by simpa using htaken)] at hrest
    have hwhole := opening_text t
    rw [← hrest, ← List.append_assoc, ← List.append_assoc, List.append_assoc _ ['/'],
      List.singleton_append] at hwhole
    -- Nothing in front of a slash would make the path absolute, and then there is the root.
    have hne : ((opening t).1.map Component.text).flatten ++ joinWith ['/'] ps.reverse ≠ [] := by
      intro hnil
      rw [hnil] at hwhole
      obtain ⟨hhead, -⟩ := List.append_eq_nil_iff.mp hnil
      rw [← hwhole] at hhead
      cases hhead
    have hfree : ∀ u ∈ taken.reverse, '/' ∉ u := fun u hu =>
      not_mem_of_mem_pieces (t := (opening t).2)
        (by rw [hpieces]; exact List.mem_append_right _ hu)
    have hcomponents := components_append_slash hne (joinWith ['/'] taken.reverse)
    rw [hwhole, pieces_joinWith hfree (by simpa using htaken), components, hpieces,
      componentsOf_append, ← List.append_assoc] at hcomponents
    rw [← componentsOf_reverse]
    exact (List.append_cancel_right hcomponents).symm

/-! ## Ancestors -/

/-- **A path and the paths above it, by their components**: all beginnings of its components, the
longest first. Above an absolute path there is no empty one. -/
theorem components_ancestors (p : Path) :
    p.ancestors.map components =
      (p.components.reverse.tails.map List.reverse).filter fun cs =>
        !(p.isAbsolute && cs.isEmpty) := by
  have hparents : ((stems (pieces '/' (opening p.text).2).reverse).map fun ps =>
      (⟨((opening p.text).1.map Component.text).flatten ++ joinWith ['/'] ps.reverse⟩ :
        Path)).map components =
      (componentsOf (pieces '/' (opening p.text).2)).reverse.tails.tail.map fun cs =>
        (opening p.text).1 ++ cs.reverse := by
    rw [← componentsOf_reverse, ← map_componentsOf_stems, List.map_map, List.map_map]
    exact List.map_congr_left fun ps hps => components_stem hps
  have hcons : ∀ cs : List Component, cs.tails = cs :: cs.tails.tail := by
    intro cs
    cases cs <;> rfl
  have habove : p.components ::
      ((componentsOf (pieces '/' (opening p.text).2)).reverse.tails.tail.map fun cs =>
        (opening p.text).1 ++ cs.reverse) =
      (componentsOf (pieces '/' (opening p.text).2)).reverse.tails.map fun cs =>
        (opening p.text).1 ++ cs.reverse := by
    rw [hcons (componentsOf (pieces '/' (opening p.text).2)).reverse, List.map_cons, List.tail_cons,
      List.reverse_reverse, components]
  have hmap : p.ancestors.map components =
      ((componentsOf (pieces '/' (opening p.text).2)).reverse.tails.map fun cs =>
        (opening p.text).1 ++ cs.reverse) ++
          if (opening p.text).1 = [.current] then [[]] else [] := by
    rw [ancestors, parents, List.map_cons]
    split
    · rw [List.map_append, hparents, ← List.cons_append, habove]
      rfl
    · rw [hparents, habove, List.append_nil]
  rw [hmap, components, List.reverse_append, List.tails_append, List.map_append, List.map_map]
  rcases opening_cases p.text with ⟨rest, htext, hopening⟩ | ⟨htext, hopening⟩ | ⟨htext, hopening⟩
  · have habsolute : p.isAbsolute = true := isAbsolute_iff_opening.mpr (by rw [hopening])
    have hkept : ∀ css : List (List Component),
        (css.map fun cs => Component.root :: cs.reverse).filter (fun cs => !cs.isEmpty) =
          css.map fun cs => Component.root :: cs.reverse := by
      intro css
      rw [List.filter_eq_self]
      simp
    rw [hopening, habsolute]
    simp [Function.comp_def, hkept]
  · have hrelative : p.isAbsolute = false :=
      Bool.eq_false_iff.mpr (mt isAbsolute_iff_opening.mp (by simp [hopening]))
    rw [hopening, hrelative]
    simp [Function.comp_def]
  · have hrelative : p.isAbsolute = false :=
      Bool.eq_false_iff.mpr (mt isAbsolute_iff_opening.mp (by simp [hopening]))
    rw [hopening, hrelative]
    simp [Function.comp_def]

/-- **The later an ancestor comes, the fewer components it has.** -/
theorem pairwise_ancestors (p : Path) :
    p.ancestors.Pairwise fun q q' => q'.components <+: q.components := by
  have htails : ∀ cs : List Component, cs.tails.Pairwise fun a b => b <:+ a := by
    intro cs
    induction cs with
    | nil => simp
    | cons c cs ih =>
        rw [List.tails_cons, List.pairwise_cons]
        refine ⟨fun b hb => ?_, ih⟩
        exact ((List.mem_tails b cs).mp hb).trans (List.suffix_cons c cs)
  rw [← List.pairwise_map (f := components) (R := fun a b => b <+: a), components_ancestors]
  refine List.Pairwise.filter _ (List.pairwise_map.mpr ((htails _).imp fun {a b} hab => ?_))
  rwa [List.reverse_prefix]

/-- **No ancestor is left out**: each beginning of the components, but for the empty one above an
absolute path. -/
theorem exists_mem_ancestors {cs : List Component} (h : cs <+: p.components)
    (hne : p.isAbsolute = true → cs ≠ []) : ∃ q ∈ p.ancestors, q.components = cs := by
  have hmem : cs ∈ p.ancestors.map components := by
    rw [components_ancestors, List.mem_filter, List.mem_map]
    refine ⟨⟨cs.reverse, ?_, List.reverse_reverse cs⟩, ?_⟩
    · rwa [List.mem_tails, List.reverse_suffix]
    · by_cases habsolute : p.isAbsolute = true
      · simp [hne habsolute]
      · simp [habsolute]
  exact List.mem_map.mp hmem

/-- **A path above a path is a beginning of its text.** -/
theorem text_prefix_of_mem_ancestors (h : q ∈ p.ancestors) : q.text <+: p.text := by
  rcases List.mem_cons.mp h with rfl | h
  · exact List.prefix_rfl
  · rcases text_of_mem_parents h with hempty | ⟨hroot, rest, hrest⟩ | ⟨t, ht⟩
    · rw [hempty]
      exact List.nil_prefix
    · rw [hroot, hrest]
      exact ⟨rest, rfl⟩
    · rw [ht]
      exact List.prefix_append _ _

/-- **Paths above an absolute path are absolute**, and paths above a relative one are relative. -/
theorem isAbsolute_of_mem_ancestors (h : q ∈ p.ancestors) : q.isAbsolute = p.isAbsolute := by
  obtain ⟨t, ht⟩ := text_prefix_of_mem_ancestors h
  cases hq : q.text with
  | cons c cs => rw [isAbsolute, isAbsolute, ← ht, hq, List.cons_append, List.head?_cons,
      List.head?_cons]
  | nil =>
      -- Only above a relative path is there an empty one.
      have hmem : q.components ∈ p.ancestors.map components := List.mem_map_of_mem h
      have hq' : q = ⟨[]⟩ := by rw [← hq]
      rw [components_ancestors, List.mem_filter, hq', components_empty] at hmem
      have hrelative : p.isAbsolute = false := by simpa using hmem.2
      rw [hq', hrelative]
      rfl

/-! ## Names -/

/-- **The names in a path**, from the first to the last. -/
def names (p : Path) : List Text := p.components.filterMap Component.name?

/-- The beginning of a path holds no name. -/
theorem filterMap_name?_opening (t : Text) : (opening t).1.filterMap Component.name? = [] := by
  rcases opening_cases t with ⟨rest, -, hopening⟩ | ⟨-, hopening⟩ | ⟨-, hopening⟩ <;>
    rw [hopening] <;> rfl

/-- The names of normal components are what they were made from. -/
theorem filterMap_name?_map (ns : List Text) :
    (ns.map Component.normal).filterMap Component.name? = ns := by
  rw [List.filterMap_map]
  exact List.filterMap_some

/-- **Without steps up** a path is its beginning and its names. -/
theorem components_eq_names (h : .parent ∉ p.components) :
    p.components = (opening p.text).1 ++ p.names.map .normal := by
  obtain ⟨ns, hns⟩ := exists_names_of_no_parent h
  have hcomponents := components_eq p
  rw [hns] at hcomponents
  rw [names, hcomponents, List.filterMap_append, filterMap_name?_opening, filterMap_name?_map,
    List.nil_append]

/-- **The names of an ancestor** are the first of the path's. -/
theorem names_prefix_of_components (h : q.components <+: p.components) : q.names <+: p.names :=
  h.filterMap _

/-- **An ancestor is passed by on the way to another one**, or is further up. -/
theorem mem_or_names_prefix_of_split {a : Path} {before after : List Path}
    (hsplit : p.ancestors = before ++ q :: after) (ha : a ∈ p.ancestors) :
    a ∈ before ∨ a.names <+: q.names := by
  have hpairwise := pairwise_ancestors p
  rw [hsplit] at ha hpairwise
  rcases List.mem_append.mp ha with ha | ha
  · exact Or.inl ha
  · rcases List.mem_cons.mp ha with rfl | ha
    · exact Or.inr List.prefix_rfl
    · have hlater := (List.pairwise_cons.mp (List.pairwise_append.mp hpairwise).2.1).1
      exact Or.inr (names_prefix_of_components (hlater a ha))

/-- **Each number of first names** is what some ancestor has. -/
theorem exists_mem_ancestors_names {ns : List Text} (hdown : .parent ∉ p.components)
    (h : ns <+: p.names) : ∃ q ∈ p.ancestors, q.names = ns := by
  have hprefix : (opening p.text).1 ++ ns.map .normal <+: p.components := by
    rw [components_eq_names hdown, List.prefix_append_right_inj]
    exact h.map _
  obtain ⟨q, hq, hcomponents⟩ := exists_mem_ancestors hprefix fun habsolute => by
    simp [isAbsolute_iff_opening.mp habsolute]
  refine ⟨q, hq, ?_⟩
  rw [names, hcomponents, List.filterMap_append, filterMap_name?_opening, filterMap_name?_map,
    List.nil_append]

end Path

end LocaleWrap
