import LocaleWrap.Rules.Role
import LocaleWrap.Text.Basic

/-! # The ledger of changes

* **`Change`** — one line that was changed.
* **`Counts`** — how many literals each rule wrapped; **`Counts.ofChanges`** counts a ledger, and
  `ofChanges_append` says that the counts of two ledgers add up. -/

namespace LocaleWrap

/-- **One changed line**: its number, counted from one, the rule that applied, and the line's text
before and after, both without the terminator. -/
structure Change where
  line : Nat
  rule : LineRole
  before : Text
  after : Text
  deriving DecidableEq, Repr, Inhabited

/-- **The number of wrapped literals**, rule by rule. -/
structure Counts where
  /-- Fields with their text on one line. -/
  inline : Nat
  /-- Lines after a field header. -/
  deferred : Nat
  /-- Items of lists. -/
  items : Nat
  deriving DecidableEq, Repr, Inhabited

namespace Counts

/-- Nothing wrapped. -/
def zero : Counts := ⟨0, 0, 0⟩

/-- The literals of both. -/
def add (a b : Counts) : Counts := ⟨a.inline + b.inline, a.deferred + b.deferred, a.items + b.items⟩

instance : Add Counts := ⟨add⟩

/-- All literals that are counted. -/
def total (t : Counts) : Nat := t.inline + t.deferred + t.items

/-- The count of one change by a rule. Lines that match nothing are not counted. -/
def ofRule : LineRole → Counts
  | .fieldInline => ⟨1, 0, 0⟩
  | .fieldHeader => ⟨0, 1, 0⟩
  | .arrayItem => ⟨0, 0, 1⟩
  | .unmatched => ⟨0, 0, 0⟩

/-- **The counts of a ledger.** -/
def ofChanges (changes : List Change) : Counts :=
  changes.foldr (fun c t => ofRule c.rule + t) zero

/-- Tallies with the same three numbers are equal. -/
@[ext] theorem ext {a b : Counts} (h₁ : a.inline = b.inline) (h₂ : a.deferred = b.deferred)
    (h₃ : a.items = b.items) : a = b := by
  cases a; cases b; simp_all

@[simp] theorem inline_add (a b : Counts) : (a + b).inline = a.inline + b.inline := rfl
@[simp] theorem deferred_add (a b : Counts) : (a + b).deferred = a.deferred + b.deferred := rfl
@[simp] theorem items_add (a b : Counts) : (a + b).items = a.items + b.items := rfl

@[simp] theorem ofChanges_nil : ofChanges [] = zero := rfl

@[simp] theorem ofChanges_cons (c : Change) (cs : List Change) :
    ofChanges (c :: cs) = ofRule c.rule + ofChanges cs := rfl

/-- Adding tallies is associative. -/
theorem add_assoc (a b c : Counts) : a + b + c = a + (b + c) := by
  ext <;> simp [Nat.add_assoc]

@[simp] theorem zero_add (a : Counts) : zero + a = a := by
  ext <;> simp [zero]

/-- **Two ledgers, one after the other,** have the counts of both. -/
theorem ofChanges_append (cs ds : List Change) :
    ofChanges (cs ++ ds) = ofChanges cs + ofChanges ds := by
  induction cs with
  | nil => simp
  | cons c cs ih => simp [ih, add_assoc]

/-- The total of a sum is the sum of the totals. -/
@[simp] theorem total_add (a b : Counts) : (a + b).total = a.total + b.total := by
  simp only [total, inline_add, deferred_add, items_add]
  omega

end Counts

end LocaleWrap
