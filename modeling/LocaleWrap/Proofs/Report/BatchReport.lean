import LocaleWrap.Program
import Mathlib.Data.List.Forall2

/-! # Reports on batches

A batch is reported on in one of two forms. In both, each file that was processed has a part of its
own, in the order of the files.

* **`Report.Tells`** — an entry of the JSON document that tells of a file.
* **`Listing.Tells`** — a part of the listing that tells of a file.
* **`Batch.IsReport`** — a text that reports on a batch.
* `Program.isReport_batchReport` — what a run prints is a report on its batch. -/

namespace LocaleWrap

/-! ## Documents -/

/-- **An entry of a document tells of a file**: how it is shown, where its text went, and what was
done to it. -/
structure Report.Tells (r : FileReport) (entry : Json) : Prop where
  file : entry.member? "file" = some (.string r.file.asString)
  target : entry.member? "target" = some (.ofOption (r.target.map Path.asString))
  changed : entry.member? "changed" = some (.bool r.changed)
  wrote : entry.member? "wrote" = some (.bool r.wrote)
  lines : entry.member? "lines" = some (.count r.lines)
  wrapped : entry.member? "wrapped" = some (counts r.wrapped)

/-- The entry written for a report tells about it. -/
theorem Report.tells_file (diff : Bool) (r : FileReport) : Report.Tells r (file diff r) :=
  ⟨rfl, rfl, rfl, rfl, rfl, rfl⟩

/-! ## Listings -/

namespace Listing

open Style

/-- **A part of a listing tells of a file**: its line names the file, tells where its text went if
not there, and counts what was wrapped. -/
def Tells (color : Bool) (delivery : Delivery) (r : FileReport) (part : String) : Prop :=
  ∃ label diff, part = label ++ " " ++ paint color bold r.file.asString ++
    destination delivery r.target ++ " (" ++ counts r.wrapped ++ ")" ++ "\n" ++ diff

/-- The text of lines in a row is that of each part. -/
theorem unlines_append (ls ms : List String) : unlines (ls ++ ms) = unlines ls ++ unlines ms := by
  simp [unlines, String.join_append]

/-- The text of lines begins with the first of them and a line feed. -/
theorem unlines_cons (l : String) (ls : List String) :
    unlines (l :: ls) = l ++ "\n" ++ unlines ls := by
  simp [unlines]

/-- The lines of several files are their parts, one after the other. -/
theorem unlines_flatMap {α : Type} (lines : α → List String) (xs : List α) :
    unlines (xs.flatMap lines) = String.join (xs.map fun x => unlines (lines x)) := by
  induction xs with
  | nil => rfl
  | cons x xs ih => simp [unlines_append, ih]

/-- The lines written for a report tell about it. -/
theorem tells_file (color : Bool) (delivery : Delivery) (diff : Bool) (r : FileReport) :
    Tells color delivery r (unlines (file color delivery diff r)) := by
  rw [file, unlines_cons, notice]
  exact ⟨_, _, rfl⟩

end Listing

/-! ## Both forms -/

/-- **A text that reports on a batch** in a form: a document with an entry for each file, the counts
of all and the error that ended the batch, or a listing with a part for each file and the counts of
all. Errors that end a batch are not listed; they are noted apart. -/
inductive Batch.IsReport (b : Batch) (color : Bool) (delivery : Delivery) :
    OutputForm → String → Prop
  | document {document : Json} {entries : List Json}
      (results : document.member? "results" = some (.array entries))
      (tells : List.Forall₂ Report.Tells b.reports entries)
      (summary : document.member? "summary" =
        some (Report.summary (Summary.ofReports b.reports)))
      (error : document.member? "error" = some (.ofOption (b.stopped.map Error.message))) :
      b.IsReport color delivery .json (document.pretty ++ "\n")
  | listing {parts : List String}
      (tells : List.Forall₂ (Listing.Tells color delivery) b.reports parts) :
      b.IsReport color delivery .human (String.join parts ++
        (Listing.summary color (Summary.ofReports b.reports) ++ "\n"))

/-- **What a run prints is a report on its batch.** -/
theorem Program.isReport_batchReport (s : Surroundings) (settings : RunSettings) (batch : Batch) :
    batch.IsReport s.color settings.delivery settings.output (batchReport s settings batch) := by
  rw [batchReport]
  cases settings.output with
  | json =>
      refine .document rfl ?_ rfl rfl
      rw [List.forall₂_map_right_iff, List.forall₂_same]
      exact fun r _ => Report.tells_file settings.diff r
  | human =>
      have hlast : ∀ l, Listing.unlines [l] = l ++ "\n" := fun l => by simp [Listing.unlines]
      dsimp only
      rw [Listing.run, Listing.unlines_append, Listing.unlines_flatMap, hlast]
      refine .listing ?_
      rw [List.forall₂_map_right_iff, List.forall₂_same]
      exact fun r _ => Listing.tells_file s.color settings.delivery settings.diff r

end LocaleWrap
