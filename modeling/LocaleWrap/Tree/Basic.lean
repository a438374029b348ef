import LocaleWrap.Path.Basic

/-! # File trees

A file tree is what a disk holds: directories and files at locations. Links and permissions are not
modelled. A tree comes with the proof that a file system can hold it: each entry has its place to
itself, stands in a directory, and has a name that an entry can have.

* **`Contents`** — what a file holds; **`Contents.text?`** its text, if it is one.
* **`IsEntryName`** — what an entry of a directory can be called.
* **`Tree`** — entries by location, with the view **`Tree.get?`**. What the proofs in a tree say of
  the view: `Tree.get?_dropLast`, `Tree.isEntryName_of_mem`.
* **`Tree.insert`**, **`Tree.erase`** — writing an entry where there is room for it
  (**`Tree.HasRoom`**), removing one with everything below; the lemmas `get?_insert`, `get?_erase`
  say what the view is afterwards.
* **`Tree.childNames`**, **`Tree.below`** — the entries in a directory and at any depth below. -/

namespace LocaleWrap

/-- **What a file holds**: a text, or bytes that are no text in UTF-8. -/
inductive Contents
  | text (t : Text)
  | binary (bytes : {bytes : List UInt8 // String.fromUTF8? ⟨bytes.toArray⟩ = none})
  deriving DecidableEq, Repr, Inhabited

/-- The text that a file holds, if it holds one. -/
def Contents.text? : Contents → Option Text
  | text t => some t
  | binary _ => none

/-- The contents that bytes are. -/
def Contents.ofBytes (bytes : List UInt8) : Contents :=
  match h : String.fromUTF8? ⟨bytes.toArray⟩ with
  | some s => text s.toList
  | none => binary ⟨bytes, h⟩

/-- A file that holds one byte, and with it no text: no character begins with that byte. -/
def Contents.noText : Contents := binary ⟨[255], rfl⟩

/-- **A place in the tree**: the names from the root down to it. -/
abbrev Location := List Text

/-- **What stands at a location.** -/
inductive Entry
  | directory
  | file (contents : Contents)
  deriving DecidableEq, Repr, Inhabited

/-- The most bytes that a name may have. -/
def nameLimit : Nat := 255

/-- **What an entry of a directory can be called.** -/
def IsEntryName (n : Text) : Prop := Path.IsName n ∧ '\x00' ∉ n ∧ n.byteLength ≤ nameLimit

instance (n : Text) : Decidable (IsEntryName n) := inferInstanceAs (Decidable (_ ∧ _ ∧ _))

/-- The entry that a list of entries has at a location. The root directory is always there. -/
def Entry.at? (entries : List (Location × Entry)) (l : Location) : Option Entry :=
  if l = [] then some .directory else entries.lookup l

/-- **A file tree**: entries with their locations. -/
structure Tree where
  entries : List (Location × Entry)
  /-- No two entries stand at one location. -/
  distinct : (entries.map Prod.fst).Nodup := by decide +kernel
  /-- Every entry stands in a directory. -/
  housed : ∀ p ∈ entries, Entry.at? entries p.1.dropLast = some .directory := by decide +kernel
  /-- Every entry has a name that an entry can have. -/
  named : ∀ p ∈ entries, ∀ n ∈ p.1, IsEntryName n := by decide +kernel
  deriving DecidableEq, Repr

namespace Tree

variable {t : Tree} {l m : Location} {e : Entry}

/-- The tree that holds nothing but its root. -/
def empty : Tree := { entries := [] }

instance : Inhabited Tree := ⟨empty⟩

/-- **The entry at a location.** -/
def get? (t : Tree) (l : Location) : Option Entry := Entry.at? t.entries l

/-- Whether a directory stands at a location. -/
def isDirectory (t : Tree) (l : Location) : Bool := t.get? l == some .directory

@[simp] theorem get?_root (t : Tree) : t.get? [] = some .directory := rfl

/-- Below the root a tree is looked up in its entries. -/
theorem get?_of_ne_root (h : l ≠ []) : t.get? l = t.entries.lookup l := if_neg h

/-- **What stands below the root is listed.** -/
theorem exists_mem_entries (h : (t.get? l).isSome) (hl : l ≠ []) : ∃ p ∈ t.entries, p.1 = l := by
  rw [get?_of_ne_root hl, List.lookup_isSome_iff] at h
  obtain ⟨p, hp, heq⟩ := h
  exact ⟨p, hp, (beq_iff_eq.mp heq).symm⟩

/-- **Every entry stands in a directory.** -/
theorem get?_dropLast (h : (t.get? l).isSome) : t.get? l.dropLast = some .directory := by
  by_cases hl : l = []
  · rw [hl]
    rfl
  · obtain ⟨p, hp, rfl⟩ := exists_mem_entries h hl
    exact t.housed p hp

/-- **Locations are made of names.** -/
theorem isEntryName_of_mem {n : Text} (h : (t.get? l).isSome) (hn : n ∈ l) : IsEntryName n := by
  obtain ⟨p, hp, rfl⟩ := exists_mem_entries h (List.ne_nil_of_mem hn)
  exact t.named p hp n hn

/-! ## Writing an entry -/

/-- **Where there is room for an entry**: below the root, under a name that an entry can have, in a
directory; and no directory becomes a file. -/
structure HasRoom (t : Tree) (l : Location) (e : Entry) : Prop where
  ne_root : l ≠ []
  parent : t.get? l.dropLast = some .directory
  name : ∀ n ∈ l.getLast?, IsEntryName n
  kind : t.get? l = some .directory → e = .directory

instance (t : Tree) (l : Location) (e : Entry) : Decidable (t.HasRoom l e) :=
  decidable_of_iff (l ≠ [] ∧ t.get? l.dropLast = some .directory ∧
      (∀ n ∈ l.getLast?, IsEntryName n) ∧ (t.get? l = some .directory → e = .directory))
    ⟨fun ⟨h₁, h₂, h₃, h₄⟩ => ⟨h₁, h₂, h₃, h₄⟩, fun ⟨h₁, h₂, h₃, h₄⟩ => ⟨h₁, h₂, h₃, h₄⟩⟩

/-- Looking up in the entries whose location passes a test. -/
theorem lookup_filter (entries : List (Location × Entry)) (keep : Location → Bool) (m : Location) :
    (entries.filter fun p => keep p.1).lookup m = if keep m then entries.lookup m else none := by
  induction entries with
  | nil => simp
  | cons p ps ih => by_cases hp : keep p.1 <;> by_cases hm : m = p.1 <;> grind

/-- Some of the entries stand at different locations, as all of them do. -/
theorem distinct_filter (t : Tree) (keep : Location → Bool) :
    ((t.entries.filter fun p => keep p.1).map Prod.fst).Nodup :=
  t.distinct.sublist (List.filter_sublist.map Prod.fst)

/-- The entries with one put at a location, in place of what stood there. -/
def entriesWith (t : Tree) (l : Location) (e : Entry) : List (Location × Entry) :=
  (l, e) :: t.entries.filter fun p => p.1 != l

/-- An entry that was put is found at its location, and nothing else has changed. -/
theorem at?_entriesWith (hl : l ≠ []) :
    Entry.at? (t.entriesWith l e) m = if m = l then some e else t.get? m := by
  unfold get? Entry.at? entriesWith
  by_cases hm : m = []
  · grind
  · by_cases hml : m = l
    · simp [hml, hl]
    · have : (m == l) = false := by simpa using hml
      simp [hm, hml, List.lookup_cons, this, lookup_filter t.entries (· != l)]

/-- With an entry put in, locations still differ. -/
theorem distinct_entriesWith (t : Tree) (l : Location) (e : Entry) :
    ((t.entriesWith l e).map Prod.fst).Nodup := by
  rw [entriesWith, List.map_cons, List.nodup_cons]
  exact ⟨by simp, t.distinct_filter (· != l)⟩

/-- **With room for it** a new entry stands in a directory, and so does all that stood there. -/
theorem HasRoom.housed (h : t.HasRoom l e) :
    ∀ p ∈ t.entriesWith l e, Entry.at? (t.entriesWith l e) p.1.dropLast = some .directory := by
  have hbelow : l.dropLast ≠ l := by
    intro hdrop
    have hlength := congrArg List.length hdrop
    rw [List.length_dropLast] at hlength
    have hpos := List.length_pos_iff.mpr h.ne_root
    omega
  intro p hp
  rw [at?_entriesWith h.ne_root]
  rcases List.mem_cons.mp hp with rfl | hp
  · rw [if_neg hbelow]
    exact h.parent
  · -- What stands below the new entry stood there before, in a directory.
    have hparent : t.get? p.1.dropLast = some .directory := t.housed p ((List.mem_filter.mp hp).1)
    by_cases hdrop : p.1.dropLast = l
    · rw [if_pos hdrop, h.kind (hdrop ▸ hparent)]
    · rw [if_neg hdrop]
      exact hparent

/-- Where there is room for an entry, all locations consist of names that entries can have. -/
theorem HasRoom.named (h : t.HasRoom l e) :
    ∀ p ∈ t.entriesWith l e, ∀ n ∈ p.1, IsEntryName n := by
  intro p hp n hn
  rcases List.mem_cons.mp hp with rfl | hp
  · rw [← List.dropLast_concat_getLast h.ne_root, List.mem_append, List.mem_singleton] at hn
    rcases hn with hn | rfl
    · exact isEntryName_of_mem (by rw [h.parent]; rfl) hn
    · exact h.name _ (List.getLast?_eq_some_getLast h.ne_root)
  · exact t.named p ((List.mem_filter.mp hp).1) n hn

/-- **The tree with an entry put at a location**, in place of what stood there. Where there is no
room for the entry the tree stays as it is. -/
def insert (t : Tree) (l : Location) (e : Entry) : Tree :=
  if h : t.HasRoom l e then ⟨t.entriesWith l e, t.distinct_entriesWith l e, h.housed, h.named⟩
  else t

/-- **After an insertion** the view is the new entry at its location, and elsewhere as before. -/
theorem get?_insert (h : t.HasRoom l e) (m : Location) :
    (t.insert l e).get? m = if m = l then some e else t.get? m := by
  rw [insert, dif_pos h]
  exact at?_entriesWith h.ne_root

/-! ## Removing an entry -/

/-- The entries that do not stand at a location or below it. -/
def entriesApart (t : Tree) (l : Location) : List (Location × Entry) :=
  t.entries.filter fun p => !l.isPrefixOf p.1

/-- What neither stands at a location nor below it stays when that location is left out. -/
theorem at?_entriesApart (hm : ¬ l.isPrefixOf m) : Entry.at? (t.entriesApart l) m = t.get? m := by
  unfold get? Entry.at? entriesApart
  rw [lookup_filter t.entries (!l.isPrefixOf ·)]
  simp [hm]

/-- What stays stands in a directory that stays. -/
theorem housed_entriesApart (t : Tree) (l : Location) :
    ∀ p ∈ t.entriesApart l, Entry.at? (t.entriesApart l) p.1.dropLast = some .directory := by
  intro p hp
  obtain ⟨hp, hapart⟩ := List.mem_filter.mp hp
  -- What a directory is removed with lies below it.
  have hdrop : ¬ l.isPrefixOf p.1.dropLast := by
    intro hdrop
    rw [List.isPrefixOf_iff_prefix] at hdrop
    have hfront := List.isPrefixOf_iff_prefix.mpr (hdrop.trans (List.dropLast_prefix p.1))
    rw [hfront] at hapart
    cases hapart
  rw [at?_entriesApart hdrop]
  exact t.housed p hp

/-- **The tree without a location** and everything below it. -/
def erase (t : Tree) (l : Location) : Tree where
  entries := t.entriesApart l
  distinct := t.distinct_filter (!l.isPrefixOf ·)
  housed := t.housed_entriesApart l
  named p hp := t.named p ((List.mem_filter.mp hp).1)

/-- **After a removal** nothing is at the location or below it, and elsewhere all is as before. -/
theorem get?_erase (t : Tree) (h : l ≠ []) (m : Location) :
    (t.erase l).get? m = if l.isPrefixOf m then none else t.get? m := by
  by_cases hm : l.isPrefixOf m
  · have hroot : m ≠ [] := by
      rintro rfl
      exact h (List.prefix_nil.mp (List.isPrefixOf_iff_prefix.mp hm))
    have hlookup := lookup_filter t.entries (!l.isPrefixOf ·) m
    rw [if_neg (by simpa using hm)] at hlookup
    rw [if_pos hm, get?_of_ne_root hroot]
    exact hlookup
  · rw [if_neg hm]
    exact at?_entriesApart hm

/-! ## What lies below -/

/-- The ways from a location down to the entries below it, with these entries. -/
def below (t : Tree) (l : Location) : List (Location × Entry) :=
  t.entries.filterMap fun p =>
    match l.isPrefixOf? p.1 with
    | some (name :: names) => some (name :: names, p.2)
    | _ => none

/-- The names of the entries of a directory. -/
def childNames (t : Tree) (l : Location) : List Text :=
  (t.below l).filterMap fun p =>
    match p.1 with
    | [name] => some name
    | _ => none

end Tree

end LocaleWrap
