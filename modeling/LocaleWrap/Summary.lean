import LocaleWrap.Batch

/-! # Summaries

* **`Summary`** — how many files were processed, changed and written, and what was wrapped in them.
* **`Summary.ofReports`** — counts reports; `ofReports_append` says that two lists of reports have
  the counts of both. -/

namespace LocaleWrap

/-- **The counts of a run.** -/
structure Summary where
  files : Nat
  changed : Nat
  wrote : Nat
  wrapped : Counts
  deriving DecidableEq, Repr, Inhabited

namespace Summary

/-- The counts of no file. -/
def zero : Summary := ⟨0, 0, 0, .zero⟩

/-- The counts of both. -/
def add (a b : Summary) : Summary :=
  ⟨a.files + b.files, a.changed + b.changed, a.wrote + b.wrote, a.wrapped + b.wrapped⟩

instance : Add Summary := ⟨add⟩

/-- The counts of one file. -/
def ofReport (r : FileReport) : Summary := ⟨1, r.changed.toNat, r.wrote.toNat, r.wrapped⟩

/-- **The counts of several files.** -/
def ofReports (rs : List FileReport) : Summary := rs.foldr (fun r s => ofReport r + s) zero

@[simp] theorem ofReports_nil : ofReports [] = zero := rfl

@[simp] theorem ofReports_cons (r : FileReport) (rs : List FileReport) :
    ofReports (r :: rs) = ofReport r + ofReports rs := rfl

@[simp] theorem zero_add (s : Summary) : zero + s = s := by
  show Summary.add zero s = s
  simp [add, zero]

/-- Adding summaries is associative. -/
theorem add_assoc (a b c : Summary) : a + b + c = a + (b + c) := by
  show Summary.add (Summary.add a b) c = Summary.add a (Summary.add b c)
  simp [add, Nat.add_assoc, Counts.add_assoc]

/-- **Two lists of reports** have the counts of both. -/
theorem ofReports_append (rs qs : List FileReport) :
    ofReports (rs ++ qs) = ofReports rs + ofReports qs := by
  induction rs with
  | nil => simp
  | cons r rs ih => simp [ih, add_assoc]

end Summary

end LocaleWrap
