import LocaleWrap.Yaml.Node
import Mathlib.Tactic.Common

/-! # Aliases stand for nodes

An alias can only name an anchor that stands in front of it, and the node behind that anchor is
complete when the document is. So no alias of a document is left without a node, and none stands for
another alias.

* **`Yaml.Node.AliasesAll`** — all aliases in a node are of some kind.
* **`Yaml.Anchors.Grown`** — what composing a node does to what is known of anchors: all numbers
  that it gives are complete in the end.
* `Yaml.Written.grown_compose` — composing a node does nothing else, and the aliases in the node
  have numbers.
* `Yaml.Document.closed_of_parse?`, `Yaml.Document.Closed.resolve?` — following an alias of a
  document succeeds, and leads to a node for which the same holds. -/

namespace LocaleWrap

namespace Yaml

/-- What is looked up stands in the list. -/
theorem mem_of_lookup {α β : Type} [BEq α] [LawfulBEq α] {l : List (α × β)} {a : α} {b : β}
    (h : l.lookup a = some b) : (a, b) ∈ l := by
  obtain ⟨front, back, rfl, -⟩ := List.lookup_eq_some_iff.mp h
  simp

/-! ## Aliases in a node -/

namespace Node

/-- Whether a node is an alias itself. -/
def isAlias : Node → Bool
  | .alias _ => true
  | _ => false

/-- **All aliases in a node** have numbers of some kind. -/
inductive AliasesAll (P : Nat → Prop) : Node → Prop
  | scalar (tag : Option Text) (style : ScalarStyle) (text : Text) :
      AliasesAll P (.scalar tag style text)
  | sequence {items : List Node} (h : ∀ n ∈ items, AliasesAll P n) : AliasesAll P (.sequence items)
  | mapping {pairs : List (Node × Node)} (hkeys : ∀ p ∈ pairs, AliasesAll P p.1)
      (hvalues : ∀ p ∈ pairs, AliasesAll P p.2) : AliasesAll P (.mapping pairs)
  | number {k : Nat} (h : P k) : AliasesAll P (.alias k)

/-- Numbers of one kind are numbers of a wider one. -/
theorem AliasesAll.mono {P Q : Nat → Prop} (hPQ : ∀ k, P k → Q k) {n : Node}
    (h : n.AliasesAll P) : n.AliasesAll Q := by
  induction h with
  | scalar tag style text => exact .scalar tag style text
  | sequence _ ih => exact .sequence ih
  | mapping _ _ ihkeys ihvalues => exact .mapping ihkeys ihvalues
  | number h => exact .number (hPQ _ h)

/-- With more numbers, all aliases in a node still have one. -/
theorem AliasesAll.of_le {n : Node} {i j : Nat} (h : n.AliasesAll (· < i)) (hij : i ≤ j) :
    n.AliasesAll (· < j) :=
  h.mono fun _ hk => Nat.lt_of_lt_of_le hk hij

end Node

/-! ## Numbers for anchors -/

namespace Anchors

variable {s s' s'' : Anchors}

/-- **Names have numbers that were given.** -/
def WellNumbered (s : Anchors) : Prop := ∀ e ∈ s.numbers, e.2 < s.count

/-- **What composing does to anchors.** There may be more numbers, and those are complete: each has
a node that is no alias, and all aliases in that node have numbers. -/
structure Grown (s s' : Anchors) : Prop where
  wellNumbered : s'.WellNumbered
  count_le : s.count ≤ s'.count
  complete : ∃ new, s'.complete = new ++ s.complete ∧
    (∀ p ∈ new, p.2.isAlias = false ∧ p.2.AliasesAll (· < s'.count)) ∧
    ∀ k, s.count ≤ k → k < s'.count → k ∈ new.map Prod.fst

/-- Nothing may be done. -/
theorem Grown.refl (h : s.WellNumbered) : Grown s s where
  wellNumbered := h
  count_le := Nat.le_refl _
  complete := ⟨[], rfl, by simp, fun k hle hlt => absurd hlt (Nat.not_lt.mpr hle)⟩

/-- One part may be composed after another. -/
theorem Grown.trans (h : Grown s s') (h' : Grown s' s'') : Grown s s'' := by
  obtain ⟨new, hsplit, hgood, hcovered⟩ := h.complete
  obtain ⟨new', hsplit', hgood', hcovered'⟩ := h'.complete
  refine ⟨h'.wellNumbered, Nat.le_trans h.count_le h'.count_le, new' ++ new, ?_, ?_, ?_⟩
  · rw [hsplit', hsplit, List.append_assoc]
  · intro p hp
    rcases List.mem_append.mp hp with hp | hp
    · exact hgood' p hp
    · exact ⟨(hgood p hp).1, (hgood p hp).2.of_le h'.count_le⟩
  · intro k hle hlt
    rw [List.map_append]
    by_cases hk : k < s'.count
    · exact List.mem_append_right _ (hcovered k hle hk)
    · exact List.mem_append_left _ (hcovered' k (Nat.not_lt.mp hk) hlt)

end Anchors

/-! ## Steps -/

namespace Anchoring

open Anchors

variable {α β : Type} {s s' s₁ s₂ : Anchors} {n m : Node} {anchor : Option Text}
  {number : Option Nat}

/-- A step and what follows come out when both do. -/
theorem bind_eq_some_iff {x : Anchoring α} {f : α → Anchoring β} {b : β} :
    (x >>= f) s = some (b, s') ↔ ∃ a s₁, x s = some (a, s₁) ∧ f a s₁ = some (b, s') := by
  show (x s).bind (fun p => f p.1 p.2) = some (b, s') ↔ _
  rw [Option.bind_eq_some_iff]
  exact ⟨fun ⟨p, hx, hf⟩ => ⟨p.1, p.2, hx, hf⟩, fun ⟨a, s₁, hx, hf⟩ => ⟨(a, s₁), hx, hf⟩⟩

/-- A value comes out as it is, and nothing is done. -/
theorem pure_eq_some_iff {a b : α} :
    (pure a : Anchoring α) s = some (b, s') ↔ a = b ∧ s = s' := by
  show some (a, s) = some (b, s') ↔ _
  rw [Option.some.injEq, Prod.mk.injEq]

/-- An alias has the number that its name has. -/
theorem aliasesAll_alias? {name : Text} (hs : s.WellNumbered)
    (h : alias? name s = some (m, s')) : s' = s ∧ m.AliasesAll (· < s.count) := by
  obtain ⟨k, hk, heq⟩ := Option.map_eq_some_iff.mp h
  obtain ⟨rfl, rfl⟩ := Prod.mk.inj heq
  exact ⟨rfl, .number (hs (name, k) (mem_of_lookup hk))⟩

/-- A new number is given to a new name. -/
theorem wellNumbered_number? (hs : s.WellNumbered) (h : number? anchor s = some (number, s₁)) :
    s₁.WellNumbered := by
  cases anchor with
  | none =>
      obtain ⟨-, rfl⟩ := pure_eq_some_iff.mp h
      exact hs
  | some name =>
      obtain ⟨-, rfl⟩ := Prod.mk.inj (Option.some.inj h)
      intro e he
      rcases List.mem_cons.mp he with rfl | he
      · exact Nat.lt_succ_self s.count
      · exact Nat.lt_succ_of_lt (hs e he)

/-- **A node is kept under the number of its anchor**, which was given before its parts were
composed. -/
theorem grown_keep (hnumber : number? anchor s = some (number, s₁))
    (hparts : Grown s₁ s₂) (hn : n.isAlias = false) (hall : n.AliasesAll (· < s₂.count))
    (hkeep : keep number n s₂ = some (m, s')) : Grown s s' ∧ m.AliasesAll (· < s'.count) := by
  cases anchor with
  | none =>
      obtain ⟨rfl, rfl⟩ := pure_eq_some_iff.mp hnumber
      obtain ⟨rfl, rfl⟩ := pure_eq_some_iff.mp hkeep
      exact ⟨hparts, hall⟩
  | some name =>
      obtain ⟨rfl, rfl⟩ := Prod.mk.inj (Option.some.inj hnumber)
      obtain ⟨rfl, rfl⟩ := Prod.mk.inj (Option.some.inj hkeep)
      obtain ⟨new, hsplit, hgood, hcovered⟩ := hparts.complete
      have hle : s.count ≤ s₂.count := Nat.le_of_succ_le hparts.count_le
      refine ⟨⟨hparts.wellNumbered, hle, (s.count, n) :: new, ?_, ?_, ?_⟩, hall⟩
      · exact congrArg ((s.count, n) :: ·) hsplit
      · intro p hp
        rcases List.mem_cons.mp hp with rfl | hp
        · exact ⟨hn, hall⟩
        · exact hgood p hp
      · intro k hk hlt
        -- The number of the node itself is the first; its parts have the others.
        rcases Nat.eq_or_lt_of_le hk with rfl | hk
        · exact List.mem_cons_self
        · exact List.mem_cons_of_mem _ (hcovered k hk hlt)

end Anchoring

/-! ## Composing -/

namespace Written

open Anchors Anchoring

mutual

/-- **Composing a node** completes the numbers that it gives, and all aliases in the node have
numbers. -/
theorem grown_compose (w : Written) {s s' : Anchors} {m : Node} (hs : s.WellNumbered)
    (h : w.compose s = some (m, s')) : Grown s s' ∧ m.AliasesAll (· < s'.count) := by
  match w with
  | .alias name =>
      rw [compose] at h
      obtain ⟨rfl, hall⟩ := aliasesAll_alias? hs h
      exact ⟨.refl hs, hall⟩
  | .scalar anchor tag style text =>
      rw [compose] at h
      obtain ⟨number, s₁, hnumber, hkeep⟩ := bind_eq_some_iff.mp h
      have hs₁ := wellNumbered_number? hs hnumber
      exact grown_keep hnumber (.refl hs₁) rfl (.scalar tag style text) hkeep
  | .sequence anchor items =>
      rw [compose] at h
      obtain ⟨number, s₁, hnumber, h⟩ := bind_eq_some_iff.mp h
      obtain ⟨ms, s₂, hitems, hkeep⟩ := bind_eq_some_iff.mp h
      obtain ⟨hgrown, hall⟩ := grown_composeItems items (wellNumbered_number? hs hnumber) hitems
      exact grown_keep hnumber hgrown rfl (.sequence hall) hkeep
  | .mapping anchor pairs =>
      rw [compose] at h
      obtain ⟨number, s₁, hnumber, h⟩ := bind_eq_some_iff.mp h
      obtain ⟨ms, s₂, hpairs, hkeep⟩ := bind_eq_some_iff.mp h
      obtain ⟨hgrown, hkeys, hvalues⟩ :=
        grown_composePairs pairs (wellNumbered_number? hs hnumber) hpairs
      exact grown_keep hnumber hgrown rfl (.mapping hkeys hvalues) hkeep

/-- Composing the items of a sequence does the same. -/
theorem grown_composeItems (ws : List Written) {s s' : Anchors} {ms : List Node}
    (hs : s.WellNumbered) (h : composeItems ws s = some (ms, s')) :
    Grown s s' ∧ ∀ m ∈ ms, m.AliasesAll (· < s'.count) := by
  cases ws with
  | nil =>
      rw [composeItems] at h
      obtain ⟨rfl, rfl⟩ := pure_eq_some_iff.mp h
      exact ⟨.refl hs, by simp⟩
  | cons w ws =>
      rw [composeItems] at h
      obtain ⟨m, s₁, hfirst, h⟩ := bind_eq_some_iff.mp h
      obtain ⟨ms, s₂, hrest, h⟩ := bind_eq_some_iff.mp h
      obtain ⟨rfl, rfl⟩ := pure_eq_some_iff.mp h
      obtain ⟨hgrown, hall⟩ := grown_compose w hs hfirst
      obtain ⟨hgrown', hall'⟩ := grown_composeItems ws hgrown.wellNumbered hrest
      exact ⟨hgrown.trans hgrown', List.forall_mem_cons.mpr ⟨hall.of_le hgrown'.count_le, hall'⟩⟩

/-- Composing the pairs of a mapping does the same. -/
theorem grown_composePairs (ps : List (Written × Written)) {s s' : Anchors}
    {qs : List (Node × Node)} (hs : s.WellNumbered) (h : composePairs ps s = some (qs, s')) :
    Grown s s' ∧ (∀ q ∈ qs, q.1.AliasesAll (· < s'.count)) ∧
      ∀ q ∈ qs, q.2.AliasesAll (· < s'.count) := by
  cases ps with
  | nil =>
      rw [composePairs] at h
      obtain ⟨rfl, rfl⟩ := pure_eq_some_iff.mp h
      exact ⟨.refl hs, by simp, by simp⟩
  | cons p ps =>
      obtain ⟨key, value⟩ := p
      rw [composePairs] at h
      obtain ⟨k, s₁, hkey, h⟩ := bind_eq_some_iff.mp h
      obtain ⟨v, s₂, hvalue, h⟩ := bind_eq_some_iff.mp h
      obtain ⟨qs, s₃, hrest, h⟩ := bind_eq_some_iff.mp h
      obtain ⟨rfl, rfl⟩ := pure_eq_some_iff.mp h
      obtain ⟨hgrown, hk⟩ := grown_compose key hs hkey
      obtain ⟨hgrown', hv⟩ := grown_compose value hgrown.wellNumbered hvalue
      obtain ⟨hgrown'', hkeys, hvalues⟩ := grown_composePairs ps hgrown'.wellNumbered hrest
      have hk' := (hk.of_le hgrown'.count_le).of_le hgrown''.count_le
      exact ⟨(hgrown.trans hgrown').trans hgrown'', List.forall_mem_cons.mpr ⟨hk', hkeys⟩,
        List.forall_mem_cons.mpr ⟨hv.of_le hgrown''.count_le, hvalues⟩⟩

end

end Written

/-! ## Documents -/

namespace Document

variable {d : Document} {n : Node} {t : Text}

/-- **A number that stands for a node** of the document, and not for an alias. -/
def Anchored (d : Document) (k : Nat) : Prop :=
  ∃ n, d.anchored.lookup k = some n ∧ n.isAlias = false

/-- **A document without loose aliases**, neither in its node nor in those that aliases stand
for. -/
structure Closed (d : Document) : Prop where
  node : ∀ n ∈ d.node, n.AliasesAll d.Anchored
  anchored : ∀ p ∈ d.anchored, p.2.AliasesAll d.Anchored

/-- The numbers that were given stand for nodes, once all of them are complete. -/
theorem anchored_of_lt {s : Anchors} {node : Option Node} {k : Nat}
    (h : Anchors.Grown ⟨[], 0, []⟩ s) (hk : k < s.count) : Anchored ⟨node, s.complete⟩ k := by
  obtain ⟨new, hsplit, hgood, hcovered⟩ := h.complete
  rw [List.append_nil] at hsplit
  obtain ⟨p, hp, rfl⟩ := List.mem_map.mp (hcovered k (Nat.zero_le k) hk)
  cases hlookup : new.lookup p.1 with
  | none => exact absurd (List.lookup_eq_none_iff.mp hlookup p hp) (by simp)
  | some n => exact ⟨n, by rw [hsplit, hlookup], (hgood _ (mem_of_lookup hlookup)).1⟩

/-- **No alias of a document is loose.** -/
theorem closed_of_parse? (h : parse? t = some d) : d.Closed := by
  obtain ⟨tokens, -, h⟩ := Option.bind_eq_some_iff.mp h
  obtain ⟨written, -, h⟩ := Option.bind_eq_some_iff.mp h
  cases written with
  | none =>
      obtain rfl := Option.some.inj h
      exact ⟨by simp, by simp⟩
  | some w =>
      obtain ⟨⟨root, s⟩, hcompose, h⟩ := Option.bind_eq_some_iff.mp h
      obtain rfl := Option.some.inj h
      obtain ⟨hgrown, hroot⟩ := w.grown_compose (by simp [Anchors.WellNumbered]) hcompose
      have hanchored : ∀ k, k < s.count → Anchored ⟨some root, s.complete⟩ k :=
        fun _ hk => anchored_of_lt hgrown hk
      obtain ⟨new, hsplit, hgood, -⟩ := hgrown.complete
      rw [List.append_nil] at hsplit
      refine ⟨fun n hn => ?_, fun p hp => ?_⟩
      · obtain rfl := Option.some.inj hn
        exact hroot.mono hanchored
      · exact ((hgood p (hsplit ▸ hp)).2).mono hanchored

/-- **Following an alias succeeds**, and leads to a node that is none, without loose aliases. -/
theorem Closed.resolve? (hd : d.Closed) (hn : n.AliasesAll d.Anchored) :
    ∃ m, d.resolve? n = some m ∧ m.isAlias = false ∧ m.AliasesAll d.Anchored := by
  cases hn with
  | number h =>
      obtain ⟨m, hlookup, hnot⟩ := h
      exact ⟨m, hlookup, hnot, hd.anchored _ (mem_of_lookup hlookup)⟩
  | scalar tag style text => exact ⟨_, rfl, rfl, .scalar tag style text⟩
  | sequence h => exact ⟨_, rfl, rfl, .sequence h⟩
  | mapping hkeys hvalues => exact ⟨_, rfl, rfl, .mapping hkeys hvalues⟩

end Document

end Yaml

end LocaleWrap
