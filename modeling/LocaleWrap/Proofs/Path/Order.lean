import LocaleWrap.Path.Basic
import Mathlib.Data.List.Lex
import Mathlib.Data.Char

/-! # The order of paths

Paths are ordered by their components, so that what lies in a directory comes before a sibling with
a longer name. Two paths that are spelled differently, but with the same components, take the same
place.

* `Path.componentsLe_iff` — the order is the lexicographic one.
* **`Path.Ascending`** — paths in their order; `Path.ascending_mergeSort` says that sorting brings
  them into it. -/

namespace LocaleWrap

namespace Component

variable {a b c : Component}

/-- The order of texts is transitive. -/
theorem less_trans (h : a.less b = true) (h' : b.less c = true) : a.less c = true := by
  cases a <;> cases b <;> cases c <;> simp_all [less, rank]
  exact h.trans h'

/-- **Of two components** one comes before the other, unless they are the same. -/
theorem less_trichotomy (a b : Component) : a.less b = true ∨ a = b ∨ b.less a = true := by
  cases a <;> cases b <;> simp [less, rank]
  exact lt_trichotomy _ _

end Component

namespace Path

variable {as bs cs : List Component}

/-! ## Lists of components -/

/-- **The order of lists of components** is the lexicographic one. -/
theorem componentsLe_iff :
    componentsLe as bs = true ↔ as = bs ∨ List.Lex (fun a b => a.less b = true) as bs := by
  induction as generalizing bs with
  | nil => cases bs <;> simp [componentsLe]
  | cons a as ih =>
      cases bs with
      | nil => simp [componentsLe]
      | cons b bs =>
          rw [componentsLe, Bool.or_eq_true, Bool.and_eq_true, beq_iff_eq, ih,
            List.cons_lex_cons_iff]
          constructor
          · rintro (hless | ⟨rfl, rfl | hlex⟩)
            · exact Or.inr (Or.inl hless)
            · exact Or.inl rfl
            · exact Or.inr (Or.inr ⟨rfl, hlex⟩)
          · rintro (heq | hless | ⟨rfl, hlex⟩)
            · obtain ⟨rfl, rfl⟩ := List.cons.inj heq
              exact Or.inr ⟨rfl, Or.inl rfl⟩
            · exact Or.inl hless
            · exact Or.inr ⟨rfl, Or.inr hlex⟩

/-- What lies in a directory comes before a directory whose name goes on with a dash,
though not as a text. -/
example : (ofString "a-b/x").le (ofString "a/x") = false ∧ "a-b/x" < "a/x" := by decide

/-- The order of component lists is transitive. -/
theorem componentsLe_trans (h : componentsLe as bs = true) (h' : componentsLe bs cs = true) :
    componentsLe as cs = true := by
  induction as generalizing bs cs with
  | nil => rfl
  | cons a as ih =>
      obtain _ | ⟨b, bs⟩ := bs
      · cases h
      obtain _ | ⟨c, cs⟩ := cs
      · cases h'
      rw [componentsLe, Bool.or_eq_true, Bool.and_eq_true, beq_iff_eq] at h h' ⊢
      -- The first component that is not the same decides, in whichever of the two it comes first.
      rcases h with hless | ⟨rfl, hrest⟩
      · rcases h' with hless' | ⟨rfl, -⟩
        · exact Or.inl (Component.less_trans hless hless')
        · exact Or.inl hless
      · rcases h' with hless' | ⟨rfl, hrest'⟩
        · exact Or.inl hless'
        · exact Or.inr ⟨rfl, ih hrest hrest'⟩

/-- Of two component lists one comes first. -/
theorem componentsLe_total (as bs : List Component) :
    componentsLe as bs = true ∨ componentsLe bs as = true := by
  induction as generalizing bs with
  | nil => exact Or.inl rfl
  | cons a as ih =>
      cases bs with
      | nil => exact Or.inr rfl
      | cons b bs =>
          simp only [componentsLe, Bool.or_eq_true, Bool.and_eq_true, beq_iff_eq]
          rcases Component.less_trichotomy a b with hless | rfl | hless
          · exact Or.inl (Or.inl hless)
          · exact (ih bs).imp (fun h => Or.inr ⟨rfl, h⟩) fun h => Or.inr ⟨rfl, h⟩
          · exact Or.inr (Or.inl hless)

/-! ## Paths -/

/-- **Paths in ascending order**: of any two of them, the components are the same, or those of the
earlier one come first in the lexicographic order. -/
def Ascending (ps : List Path) : Prop :=
  ps.Pairwise fun p q => p.components = q.components ∨
    List.Lex (fun a b => a.less b = true) p.components q.components

/-- **Sorting brings paths into their order.** -/
theorem ascending_mergeSort (ps : List Path) : Ascending (ps.mergeSort le) := by
  have htrans : ∀ p q r : Path, p.le q = true → q.le r = true → p.le r = true :=
    fun p q r => componentsLe_trans
  have htotal : ∀ p q : Path, (p.le q || q.le p) = true := by
    intro p q
    rw [Bool.or_eq_true]
    exact componentsLe_total p.components q.components
  exact (List.pairwise_mergeSort htrans htotal ps).imp componentsLe_iff.mp

end Path

end LocaleWrap
