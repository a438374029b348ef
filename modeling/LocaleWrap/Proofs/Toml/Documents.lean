import LocaleWrap.Proofs.Toml.Values
import Mathlib.Tactic.Common

/-! # Documents written in TOML

A document with a line for each member, and perhaps a section at its end, is read back member by
member.

* **`Toml.Setting`** — a bare key and a written value; **`Toml.Setting.line`** — the line for it.
* **`Toml.Holds`** — a place in a document, where a line puts its member.
* `Toml.lines?_settings` — lines put their members at their place, one after the other.
* `Toml.parse_settings`, `Toml.lines?_section` — the lines at the beginning of a document, and the
  section at its end. -/

namespace LocaleWrap

namespace Toml

variable {c d : Char} {s t u r w name : Text} {v : Value} {path : List Text} {ms : Members}

/-! ## Bare keys -/

/-- **A bare key.** -/
def IsBare (name : Text) : Prop := name ≠ [] ∧ name.all isKeyChar = true

instance : DecidablePred IsBare := fun _ => inferInstanceAs (Decidable (_ ∧ _))

/-- The characters of a bare key. -/
theorem IsBare.isKeyChar (h : IsBare name) : ∀ c ∈ name, isKeyChar c = true :=
  List.all_eq_true.mp h.2

/-- Space between lines is not part of a key. -/
theorem stays_of_isKeyChar (h : isKeyChar c = true) : Stays c := by
  rw [Stays]
  simp only [List.mem_cons, List.not_mem_nil, or_false]
  rintro (rfl | rfl | rfl | rfl | rfl) <;> exact absurd h (by decide)

/-- A blank is not part of a key. -/
theorem isKeyChar_eq_false_of_isGap (h : isGap c = true) : isKeyChar c = false := by
  refine Bool.eq_false_iff.mpr fun hkey => ?_
  rw [(stays_of_isKeyChar hkey).isGap_eq_false] at h
  cases h

/-- A bare key begins with a character that stays and opens no header. -/
theorem IsBare.exists_head (h : IsBare name) :
    ∃ c rest, name = c :: rest ∧ Stays c ∧ c ≠ '[' := by
  obtain ⟨c, rest, rfl⟩ := List.exists_cons_of_ne_nil h.1
  have hc := h.isKeyChar c List.mem_cons_self
  refine ⟨c, rest, rfl, stays_of_isKeyChar hc, ?_⟩
  rintro rfl
  exact absurd hc (by decide)

/-- A bare key is read up to the first character that is not part of it. -/
theorem keyPart?_bare (h : IsBare name) (hr : ∀ c ∈ r.head?, isKeyChar c = false) :
    Reads (keyPart? (name ++ r)) name r := by
  obtain ⟨c, name, rfl⟩ := List.exists_cons_of_ne_nil h.1
  have hc := h.isKeyChar c List.mem_cons_self
  have hrest : ∀ d ∈ name, isKeyChar d = true :=
    fun d hd => h.isKeyChar d (List.mem_cons_of_mem c hd)
  have htake := Text.takeWhile_of_stop hrest hr
  have hdrop := Text.dropWhile_of_stop hrest hr
  have hquotes : ¬ c = '"' ∧ ¬ c = '\'' := by
    refine ⟨?_, ?_⟩ <;> rintro rfl <;> exact absurd hc (by decide)
  unfold keyPart?
  simp only [List.cons_append, next?, Option.bind_eq_bind, Option.bind_some]
  rw [if_neg hquotes.1, if_neg hquotes.2, if_pos hc]
  refine ⟨by simp only [List.length_cons, List.length_append]; omega, ?_⟩
  simp only [skipWhile, htake, hdrop, Option.pure_def]

/-- Blanks are skipped up to the first character that stays. -/
theorem skipGap_append {blanks : Text} (hblanks : blanks.all isGap = true) (hc : Stays c) (t : Text) : (skipGap (blanks ++ c :: t)).1 = c :: t :=
  Text.dropWhile_of_stop (List.all_eq_true.mp hblanks) (by simpa using hc.isGap_eq_false)

/-- **A bare key is read** with the blanks behind it. -/
theorem key?_bare (blanks : Text) (h : IsBare name) (hblanks : blanks.all isGap = true)
    (hc : Stays c ∧ c ≠ '.' ∧ isKeyChar c = false) (t : Text) :
    Reads (key? (name ++ (blanks ++ c :: t))) [name] (c :: t) := by
  obtain ⟨hstays, hdot, hkey⟩ := hc
  have hblank := List.all_eq_true.mp hblanks
  have hstop : ∀ d ∈ (blanks ++ c :: t).head?, isKeyChar d = false := by
    cases blanks with
    | nil => simpa using hkey
    | cons b blanks => simpa using isKeyChar_eq_false_of_isGap (hblank b List.mem_cons_self)
  have hpart := keyPart?_bare h hstop
  have hgap := skipGap_append hblanks hstays t
  obtain ⟨d, name, rfl⟩ := List.exists_cons_of_ne_nil h.1
  have hd := stays_of_isKeyChar (h.isKeyChar d List.mem_cons_self)
  rw [List.cons_append] at hpart ⊢
  obtain ⟨hlt, hpart⟩ := hpart
  rw [key?, hd.skipGap]
  simp only [hpart, Option.bind_eq_bind, Option.bind_some]
  generalize skipGap (blanks ++ c :: t) = left at hgap
  obtain ⟨u, hu⟩ := left
  obtain rfl : u = c :: t := hgap
  refine ⟨by simp only [List.length_cons, List.length_append]; omega, ?_⟩
  simp only [next?]
  split
  · rename_i heq
    cases heq
    exact absurd rfl hdot
  · rfl

/-! ## Lines -/

/-- A key, the mark behind it and a written value are read as a member. -/
theorem member?_written (hname : IsBare name) (hw : Writes w v) (t : Text) :
    Reads (member? (name ++ ' ' :: '=' :: ' ' :: (w ++ '\n' :: t))) ([name], v) ('\n' :: t) := by
  have hread := hw.reads ('\n' :: t) (Or.inl rfl)
  obtain ⟨c, w, rfl, -, hstays⟩ := hw.opens
  have hkey : Reads (key? (name ++ ' ' :: '=' :: ' ' :: (c :: w ++ '\n' :: t))) [name]
      ('=' :: ' ' :: (c :: w ++ '\n' :: t)) :=
    key?_bare [' '] hname (by decide) (by decide) _
  have hgap : (skipGap (' ' :: (c :: w ++ '\n' :: t))).1 = c :: w ++ '\n' :: t :=
    skipGap_append (by decide : [' '].all isGap = true) hstays _
  obtain ⟨hltKey, hkey⟩ := hkey
  obtain ⟨hlt, hread⟩ := hread
  rw [member?, hkey]
  simp only [next?, Option.bind_eq_bind, Option.bind_some]
  generalize skipGap (' ' :: (c :: w ++ '\n' :: t)) = left at hgap
  obtain ⟨u, hu⟩ := left
  obtain rfl : u = c :: w ++ '\n' :: t := hgap
  refine ⟨by simp only [List.length_cons, List.length_append]; omega, ?_⟩
  simp only [hread]
  rfl

/-- A key and a bracket are read as a header. -/
theorem header?_bare (hname : IsBare name) (t : Text) :
    Reads (header? (name ++ ']' :: t)) [name] t := by
  have hkey : Reads (key? (name ++ ']' :: t)) [name] (']' :: t) :=
    key?_bare [] hname rfl (by decide) t
  obtain ⟨hlt, hkey⟩ := hkey
  unfold header?
  refine ⟨by simp only [List.length_cons, List.length_append]; omega, ?_⟩
  simp [hkey, next?]

/-- An empty document adds nothing. -/
theorem lines?_nil (path : List Text) (ms : Members) : lines? path ms [] = some ms := by
  rw [lines?]
  rfl

/-- **Behind a line and its break** the document goes on with what the line has left. -/
theorem lines?_of_line? {path' : List Text} {ms' : Members}
    (h : Reads (line? path ms t) (path', ms') ('\n' :: u)) :
    lines? path ms t = lines? path' ms' u := by
  obtain ⟨hlt, h⟩ := h
  have hgap : skipGap ('\n' :: u) = ⟨'\n' :: u, Nat.le_refl _⟩ :=
    skipGap_of_head? (by simp [isGap])
  have hcomment : skipComment ('\n' :: u) = ⟨'\n' :: u, Nat.le_refl _⟩ := by
    rw [skipComment, hgap]
    rfl
  rw [lines?, h]
  simp only [Option.bind_eq_bind, Option.bind_some]
  rw [hcomment]
  rfl

/-- A line for a member gives the key its value. -/
theorem lines?_member {ms' : Members} (hname : IsBare name) (hw : Writes w v)
    (hms : changeAt false (assign [name] v) path .header ms = some ms') (t : Text) :
    lines? path ms (name ++ ' ' :: '=' :: ' ' :: (w ++ '\n' :: t)) = lines? path ms' t := by
  refine lines?_of_line? ?_
  have hmember := member?_written hname hw t
  obtain ⟨c, name, rfl, hc, hbracket⟩ := hname.exists_head
  have hmark : ¬ (c = '#' ∨ c = '\n' ∨ c = '\r') := by
    rintro (rfl | rfl | rfl) <;> exact absurd hc (by decide)
  rw [List.cons_append] at hmember ⊢
  obtain ⟨hlt, hmember⟩ := hmember
  rw [line?, hc.skipGap]
  simp only [next?, Option.bind_eq_bind]
  rw [if_neg hmark, if_pos hbracket, hmember]
  refine ⟨by simp only [List.length_cons, List.length_append]; omega, ?_⟩
  simp [hms]

/-- A header opens its table, and later lines are for it. -/
theorem lines?_header {ms' : Members} (hname : IsBare name)
    (hms : openTable [name] ms = some ms') (t : Text) :
    lines? path ms ('[' :: (name ++ ']' :: '\n' :: t)) = lines? [name] ms' t := by
  refine lines?_of_line? ?_
  have hheader := header?_bare hname ('\n' :: t)
  obtain ⟨c, name, rfl, -, hbracket⟩ := hname.exists_head
  rw [List.cons_append] at hheader ⊢
  obtain ⟨hlt, hheader⟩ := hheader
  rw [line?, Stays.skipGap (by decide)]
  simp only [next?, Option.bind_eq_bind]
  rw [if_neg (by decide), if_neg (by decide), if_neg (by simpa using hbracket), hheader]
  refine ⟨by simp only [List.length_cons, List.length_append]; omega, ?_⟩
  simp [hms]

/-! ## Places for members -/

/-- **A place in a document**: `put` makes the document of the members there, and a line adds its
member to them. -/
def Holds (path : List Text) (put : Members → Members) : Prop :=
  ∀ inner name v, inner.lookup name = none →
    changeAt false (assign [name] v) path .header (put inner) = some (put (inner ++ [(name, v)]))

/-- A key that has no value yet is given one. -/
theorem assign_eq_some (h : ms.lookup name = none) (v : Value) (o : Origin) :
    assign [name] v o ms = some (ms ++ [(name, v)]) := by
  simp [assign, changeAt, h]

/-- Before the first header lines are for the document itself. -/
theorem holds_top : Holds [] id := by
  intro inner name v h
  rw [changeAt]
  exact assign_eq_some h v .header

/-- The last member is replaced where no other has its key. -/
theorem replaceMember_concat (h : ms.lookup name = none) (v w : Value) :
    replaceMember name v (ms ++ [(name, w)]) = ms ++ [(name, v)] := by
  induction ms with
  | nil => simp [replaceMember]
  | cons m ms ih =>
      obtain ⟨key, u⟩ := m
      rw [List.lookup_eq_none_iff] at h
      have hne : ¬ key = name := by
        rintro rfl
        simpa using h (key, u) List.mem_cons_self
      have hrest : ms.lookup name = none :=
        List.lookup_eq_none_iff.mpr fun p hp => h p (List.mem_cons_of_mem _ hp)
      rw [List.cons_append, replaceMember, if_neg hne, ih hrest, List.cons_append]

/-- Behind a header lines are for its table. -/
theorem holds_section (h : ms.lookup name = none) :
    Holds [name] fun inner => ms ++ [(name, .table .header inner)] := by
  intro inner key v hkey
  have hlookup : (ms ++ [(name, Value.table .header inner)]).lookup name
      = some (.table .header inner) := by
    rw [List.lookup_append, h]
    simp
  simp only [changeAt, hlookup]
  rw [if_neg (by simp), assign_eq_some hkey, Option.map_some, replaceMember_concat h]

/-! ## Documents -/

/-- **A value and what stands for it.** -/
structure Written where
  text : Text
  value : Value
  writes : Writes text value

/-- **A bare key and what is written for its value.** -/
structure Setting where
  name : Text
  bare : IsBare name
  written : Written

namespace Setting

/-- The line for a setting. -/
def line (e : Setting) : Text := e.name ++ ' ' :: '=' :: ' ' :: (e.written.text ++ ['\n'])

/-- The member that a setting stands for. -/
def member (e : Setting) : Text × Value := (e.name, e.written.value)

end Setting

/-- **Lines for settings put their members at their place**, one after the other. -/
theorem lines?_settings {put : Members → Members} (hput : Holds path put) (es : List Setting)
    (inner : Members) (hnew : ∀ e ∈ es, inner.lookup e.name = none)
    (hdistinct : (es.map Setting.name).Nodup) (t : Text) :
    lines? path (put inner) (es.flatMap Setting.line ++ t)
      = lines? path (put (inner ++ es.map Setting.member)) t := by
  induction es generalizing inner with
  | nil => simp
  | cons e es ih =>
      obtain ⟨hfirst, hrest⟩ := List.nodup_cons.mp hdistinct
      have hassigned := hput inner e.name e.written.value (hnew e List.mem_cons_self)
      have hline := lines?_member e.bare e.written.writes hassigned (es.flatMap Setting.line ++ t)
      have hstill : ∀ e' ∈ es, (inner ++ [e.member]).lookup e'.name = none := by
        intro e' he'
        have hne : e'.name ≠ e.name := ne_of_mem_of_not_mem (List.mem_map_of_mem he') hfirst
        rw [List.lookup_append, hnew e' (List.mem_cons_of_mem e he'), Option.none_or,
          List.lookup_eq_none_iff]
        simpa [Setting.member] using hne
      have htext : (e :: es).flatMap Setting.line ++ t
          = e.name ++ ' ' :: '=' :: ' ' ::
              (e.written.text ++ '\n' :: (es.flatMap Setting.line ++ t)) := by
        simp [Setting.line]
      rw [htext, hline, ← Setting.member, ih _ hstill hrest, List.append_assoc]
      rfl

/-- Without a byte order mark the lines begin at once. -/
theorem parse_of_head? (h : t.head? ≠ some '\uFEFF') : parse t = lines? [] [] t := by
  unfold parse
  split
  · exact absurd rfl h
  · rfl

/-- **The lines at the beginning of a document** give its first members. -/
theorem parse_settings {es : List Setting} (hdistinct : (es.map Setting.name).Nodup)
    (h : t.head? ≠ some '\uFEFF') :
    parse (es.flatMap Setting.line ++ t) = lines? [] (es.map Setting.member) t := by
  have hhead : (es.flatMap Setting.line ++ t).head? ≠ some '\uFEFF' := by
    cases es with
    | nil => exact h
    | cons e es =>
        obtain ⟨c, name, hname, -⟩ := e.bare.exists_head
        have hmark : c ≠ '\uFEFF' := by
          rintro rfl
          have hkey := e.bare.isKeyChar '\uFEFF' (hname ▸ List.mem_cons_self)
          exact absurd hkey (by decide)
        rw [List.flatMap_cons, Setting.line, hname]
        simpa using hmark
  rw [parse_of_head? hhead]
  exact lines?_settings holds_top es [] (fun _ _ => rfl) hdistinct t

/-- **A section as it is written**: a header, and a line for each setting. -/
def sectionText (name : Text) (es : List Setting) : Text :=
  '[' :: (name ++ ']' :: '\n' :: es.flatMap Setting.line)

/-- **A section at the end of a document** gives one more member, the table of its settings. -/
theorem lines?_section {es : List Setting} (hname : IsBare name)
    (hdistinct : (es.map Setting.name).Nodup) (hnew : ms.lookup name = none) :
    lines? path ms (sectionText name es)
      = some (ms ++ [(name, .table .header (es.map Setting.member))]) := by
  have hopen : openTable [name] ms = some (ms ++ [(name, .table .header [])]) := by
    simp [openTable, changeAt, hnew]
  have hlines := lines?_settings (holds_section hnew) es [] (fun _ _ => rfl) hdistinct []
  rw [List.append_nil, lines?_nil, List.nil_append] at hlines
  rw [sectionText, lines?_header hname hopen, hlines]

end Toml

end LocaleWrap
