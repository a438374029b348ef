import LocaleWrap.Rules.Pattern
import LocaleWrap.Proofs.Rules.Matching
import LocaleWrap.Proofs.Rules.Reading

/-! # The readers are their patterns

A reader of lines finds on a line what the groups of its pattern hold there, and it fails where the
pattern does not match. So the patterns that a listing of the rules shows say how lines are
classified.

* `Expression.splits_literal`, `Expression.splits_names`, `Expression.mem_splits_tail` — the
  expressions for the parts of a line against the readers for these parts.
* `LinePattern.first_indent`, `LinePattern.first_names` — the readers that search take the way that
  the pattern prefers.
* `LineReader.read_eq_first`, `Rules.deferredValue_eq_first`, `Rules.classify_eq_first` — the
  readers of lines. -/

namespace LocaleWrap

open Matcher Text

namespace Expression

/-! ## Literals -/

/-- At its end a literal cannot go on. -/
theorem splits_unit_nil (q : Char) : (unit q).splits [] = [] := rfl

/-- No unit begins at the quote. -/
theorem splits_unit_self {q : Char} (hq : q ≠ '\\') (t : Text) :
    (unit q).splits (q :: t) = [] := by
  simp [unit, splits, andThen, one, hq]

/-- A character other than the quote and the backslash is a unit. -/
theorem splits_unit_plain {q c : Char} (hq : c ≠ q) (hb : c ≠ '\\') (t : Text) :
    (unit q).splits (c :: t) = [([c], t)] := by
  simp [unit, splits, andThen, one, hq, hb]

/-- A backslash and a character that is no line feed are a unit together. -/
theorem splits_unit_escaped {q d : Char} (hd : d ≠ '\n') (t : Text) :
    (unit q).splits ('\\' :: d :: t) = [(['\\', d], t)] := by
  simp [unit, splits, andThen, one, prepend, hd]

/-- A backslash with nothing but a line feed behind it is no unit. -/
theorem splits_unit_backslash {q : Char} {t : Text} (ht : ∀ c ∈ t.head?, c = '\n') :
    (unit q).splits ('\\' :: t) = [] := by
  cases t with
  | nil => simp [unit, splits, andThen, one]
  | cons c t =>
    obtain rfl : c = '\n' := ht c rfl
    simp [unit, splits, andThen, one]

/-- **The units and the quote behind them** match as a literal is closed, if it is. -/
theorem splits_units_quote {q : Char} (hq : q ≠ '\\') (t : Text) :
    (seq (star (unit q)) (char q)).splits t = (Literal.closing q t).toList := by
  have hother : ∀ {c : Char} (u : Text), c ≠ q → one (· == q) (c :: u) = [] :=
    fun u hc => one_cons_of_neg (by simpa using hc)
  show andThen (many (unit q).splits) (one (· == q)) t = _
  fun_induction Literal.closing q t with
  | case1 => exact many_andThen_of_nil (splits_unit_nil q)
  | case2 cs =>
    -- the closing quote
    rw [many_andThen_of_nil (splits_unit_self hq cs), one_cons_of_pos (by simp)]
    rfl
  | case3 hc =>
    -- a backslash at the end
    rw [many_andThen_of_nil (splits_unit_backslash (by simp)), hother [] hc]
    rfl
  | case4 ds hc =>
    -- a backslash in front of a line feed
    rw [many_andThen_of_nil (splits_unit_backslash (by simp)), hother _ hc]
    rfl
  | case5 d ds hd hc ih =>
    have hshorter : ds.length < ('\\' :: d :: ds).length := by
      simp only [List.length_cons]
      omega
    rw [many_andThen_of_singleton (splits_unit_escaped hd ds) hshorter (hother _ hc), ih,
      ← Option.toList_map]
    rfl
  | case6 c cs hc hb ih =>
    rw [many_andThen_of_singleton (splits_unit_plain hc hb cs) (by simp) (hother _ hc), ih,
      ← Option.toList_map]
    rfl

/-- Behind an opening quote the literal ends where its closing quote is found, and nowhere else. -/
theorem splits_quotedBy_self {q : Char} (hq : q ≠ '\\') (t : Text) :
    (quotedBy q).splits (q :: t) =
      ((Literal.closing q t).map fun p => (q :: p.1, p.2)).toList := by
  have hunits := splits_units_quote hq t
  show andThen (one (· == q)) (seq (star (unit q)) (char q)).splits (q :: t) = _
  rw [andThen, one_cons_of_pos (by simp), Option.toList_map, ← hunits]
  simp [prepend]

/-- No literal begins at another character than its quote. -/
theorem splits_quotedBy_of_ne {q c : Char} (hc : c ≠ q) (t : Text) :
    (quotedBy q).splits (c :: t) = [] := by
  have hfirst : one (· == q) (c :: t) = [] := one_cons_of_neg (by simpa using hc)
  show andThen (one (· == q)) (seq (star (unit q)) (char q)).splits (c :: t) = []
  rw [andThen, hfirst]
  rfl

/-- **The expression for a literal matches what is read as a literal**, and nothing else. -/
theorem splits_literal (t : Text) : literal.splits t = (Literal.read t).toList := by
  cases t with
  | nil => rfl
  | cons c t =>
    show (quotedBy '\'').splits (c :: t) ++ (quotedBy '"').splits (c :: t) = _
    by_cases hsingle : c = '\''
    · subst hsingle
      rw [splits_quotedBy_self (by decide), splits_quotedBy_of_ne (by decide), List.append_nil]
      simp [Literal.read]
    · rw [splits_quotedBy_of_ne hsingle]
      by_cases hdouble : c = '"'
      · subst hdouble
        rw [splits_quotedBy_self (by decide)]
        simp [Literal.read]
      · rw [splits_quotedBy_of_ne hdouble]
        simp [Literal.read, hsingle, hdouble]

/-! ## Names -/

/-- **The expression for a text matches this text only.** -/
theorem splits_word (n t : Text) :
    (word n).splits t = ((n.isPrefixOf? t).map fun r => (n, r)).toList := by
  induction n generalizing t with
  | nil => rfl
  | cons c n ih =>
    show andThen (one (· == c)) (word n).splits t = _
    cases t with
    | nil => rfl
    | cons d t =>
      by_cases hd : d = c
      · subst hd
        rw [andThen, one_cons_of_pos (by simp)]
        cases h : n.isPrefixOf? t <;> simp [ih, h, prepend, List.isPrefixOf?]
      · rw [andThen, one_cons_of_neg (by simpa using hd)]
        simp [List.isPrefixOf?, Ne.symm hd]

/-- **The expression for the names matches each name that the text begins with**, in the order of
the names. -/
theorem splits_names (rules : Rules) (t : Text) :
    rules.namesExpression.splits t =
      rules.names.filterMap fun n => (n.isPrefixOf? t).map fun r => (n, r) := by
  have hsome : ∀ n ns, (oneOf ((n :: ns).map word)).splits t =
      (n :: ns).filterMap fun n => (n.isPrefixOf? t).map fun r => (n, r) := by
    intro n ns
    induction ns generalizing n with
    | nil =>
      show (word n).splits t = _
      rw [splits_word, List.filterMap_cons]
      split <;> simp [*]
    | cons m ns ih =>
      show (word n).splits t ++ (oneOf ((m :: ns).map word)).splits t = _
      rw [ih m, splits_word, List.filterMap_cons (a := n)]
      split <;> simp [*]
  rw [Rules.namesExpression, Rules.names]
  split
  · next h => simp [h, oneOf, splits, nothing, List.isPrefixOf?]
  · next h =>
    obtain ⟨n, ns, hns⟩ := List.exists_cons_of_ne_nil h
    rw [hns]
    exact hsome n ns

/-! ## Tails -/

/-- The comma of a tail matches a comma, or nothing where none is required. -/
theorem mem_splits_comma {required : Bool} {m r t : Text} :
    (m, r) ∈ (if required then char ',' else optional (char ',')).splits t ↔
      (required = false ∧ m = [] ∧ t = r) ∨ (m = [','] ∧ t = ',' :: r) := by
  have hcomma : (m, r) ∈ one (· == ',') t ↔ m = [','] ∧ t = ',' :: r := by
    cases t with
    | nil => simp
    | cons c t =>
      by_cases hc : c = ','
      · subst hc
        rw [one_cons_of_pos (by simp)]
        simp [eq_comm]
      · rw [one_cons_of_neg (by simpa using hc)]
        simp [hc]
  cases required with
  | false =>
    show (m, r) ∈ one (· == ',') t ++ [([], t)] ↔ _
    rw [List.mem_append, hcomma, or_comm]
    simp [eq_comm]
  | true =>
    show (m, r) ∈ one (· == ',') t ↔ _
    rw [hcomma]
    simp

/-- **The expression for a tail matches all of a text when the text is a tail.** -/
theorem mem_splits_tail {required : Bool} {t : Text} :
    (t, []) ∈ (tail required).splits t ↔ ValueTail required t := by
  constructor
  · intro h
    obtain ⟨a, b, s, ha, hb, rfl⟩ := mem_andThen.mp h
    obtain ⟨c, d, u, hc, hd, rfl⟩ := mem_andThen.mp hb
    obtain ⟨hblank, -⟩ := mem_many_one.mp ha
    obtain ⟨hblank', -⟩ := mem_many_one.mp hd
    rcases mem_splits_comma.mp hc with ⟨hreq, rfl, -⟩ | ⟨rfl, -⟩
    · exact Or.inl ⟨hreq, blank_append.mpr ⟨hblank, hblank'⟩⟩
    · exact Or.inr ⟨a, d, hblank, hblank', rfl⟩
  · rintro (⟨hreq, ht⟩ | ⟨a, b, ha, hb, rfl⟩)
    · -- All blanks stand in front of the comma that is left out.
      exact mem_andThen.mpr ⟨t, [], [], mem_many_one.mpr ⟨ht, by simp⟩,
        mem_andThen.mpr ⟨[], [], [], mem_splits_comma.mpr (Or.inl ⟨hreq, rfl, rfl⟩),
          mem_many_one.mpr (by simp), rfl⟩, by simp⟩
    · exact mem_andThen.mpr ⟨a, ',' :: b, ',' :: b, mem_many_one.mpr ⟨ha, rfl⟩,
        mem_andThen.mpr ⟨[','], b, b, mem_splits_comma.mpr (Or.inr ⟨rfl, rfl⟩),
          mem_many_one.mpr ⟨hb, by simp⟩, rfl⟩, rfl⟩

end Expression

/-! ## Parts of a pattern -/

namespace LinePattern

variable {α : Type} {next : Text → Option α} {groups : α → List Text} {ps : LinePattern}

/-- **A literal and its tail at the end of a pattern.** -/
theorem first_literalAndTail (required : Bool) (t : Text) :
    first [.group .literal, .group (.tail required)] t =
      (literalAndTail required t).map fun p => [p.1, p.2] := by
  rw [first, Expression.splits_literal, literalAndTail]
  cases h : Literal.read t with
  | none => rfl
  | some p =>
    rw [Option.toList_some, List.findSome?_singleton, first_group_last]
    simp only [Option.bind_some, Expression.mem_splits_tail, ← isTail_iff]
    split <;> rfl

/-- **A literal behind an indent** that takes so many blanks or more. -/
theorem first_bareLiteral {indent : Expression} {least : Nat}
    (hindent : indent.splits = (one isBlank).atLeast least) (required : Bool) (t : Text) :
    first (bareLiteral indent required) t =
      (LocaleWrap.bareLiteral least required t).map fun v => [v.indent, v.literal, v.tail] := by
  -- No literal begins with a blank, so the indent takes all blanks.
  have hblank : ∀ (m : Text) c r, isBlank c = true →
      (first [.group .literal, .group (.tail required)] (c :: r)).map (m :: ·) = none := by
    intro m c r hc
    have hquote : ¬ (c = '\'' ∨ c = '"') := by
      rintro (rfl | rfl) <;> exact absurd hc (by decide)
    rw [first_literalAndTail, literalAndTail, Literal.read, if_neg hquote]
    rfl
  rw [bareLiteral, first, hindent, findSome?_atLeast_one hblank, ← leadingBlanks, ← trimStart,
    LocaleWrap.bareLiteral]
  by_cases hleast : least ≤ t.leadingBlanks.length
  · rw [if_pos hleast, if_pos hleast, first_literalAndTail, Option.map_map, Option.map_map]
    rfl
  · rw [if_neg hleast, if_neg hleast]
    rfl

/-- The value of an inline field is a literal whose indent is dropped. -/
theorem first_inlineValue (t : Text) :
    first [.plain (.plus .blank), .group .literal, .group (.tail false)] t =
      (inlineValue t).map fun p => [p.1, p.2] := by
  have hbare : first (bareLiteral (.plus .blank) false) t = _ :=
    first_bareLiteral rfl false t
  rw [first_plain, ← bareLiteral, hbare, LocaleWrap.bareLiteral, inlineValue]
  by_cases hgap : t.leadingBlanks = []
  · simp [hgap]
  · have hlength : 1 ≤ t.leadingBlanks.length := List.length_pos_iff.mpr hgap
    rw [if_neg hgap, if_pos hlength, Option.map_map, Option.map_map]
    rfl

/-- The end of a field header is matched by blanks only. -/
theorem first_headerEnd (t : Text) :
    first [.plain (.star .blank)] t = (headerEnd t).map fun _ => [] := by
  have hmem : (t, []) ∈ (Expression.star .blank).splits t ↔ t.all isBlank = true := by
    rw [all_isBlank_iff]
    show (t, []) ∈ many (one isBlank) t ↔ _
    rw [mem_many_one]
    simp [Blank]
  rw [first_plain, first_group_last, headerEnd]
  simp only [hmem]
  split <;> rfl

/-- **Behind an indent** the longest way wins. -/
theorem first_indent (hps : ∀ t, first ps t = (next t).map groups) (t : Text) :
    first (.group (.plus .blank) :: ps) t =
      (behindIndent next t).map fun p => p.1 :: groups p.2 := by
  show ((one isBlank).atLeast 1 t).findSome? (fun p => (first ps p.2).map (p.1 :: ·)) = _
  induction t with
  | nil => rfl
  | cons c t ih =>
    cases hc : isBlank c with
    | false =>
      rw [behindIndent, if_neg (by simp [hc]), atLeast_succ_one_cons_of_neg hc]
      rfl
    | true =>
      -- A way with this blank in front holds it in its first group.
      have hfront : ∀ p : Text × Text, (first ps (prepend [c] p).2).map ((prepend [c] p).1 :: ·) =
          ((first ps p.2).map (p.1 :: ·)).map (List.modifyHead (c :: ·)) := by
        intro p
        rw [Option.map_map]
        rfl
      rw [atLeast_succ_one_cons_of_pos hc, atLeast, many_one, List.findSome?_map,
        List.findSome?_append]
      simp only [Function.comp_def, hfront]
      rw [← Function.comp_def, ← List.map_findSome?, ih, behindIndent, if_pos hc]
      cases behindIndent next t with
      | some p => rfl
      | none => simp [hps, Function.comp_def]

/-- A text with one more character is taken off by taking off the text and then the character. -/
theorem isPrefixOf?_concat (n : Text) (c : Char) (t : Text) :
    (n ++ [c]).isPrefixOf? t = (n.isPrefixOf? t).bind [c].isPrefixOf? := by
  induction n generalizing t with
  | nil => rfl
  | cons d n ih =>
    cases t with
    | nil => rfl
    | cons e t =>
      rw [List.cons_append, List.isPrefixOf?, List.isPrefixOf?]
      split
      · exact ih t
      · rfl

/-- A character that is no group is taken off. -/
theorem first_char (c : Char) (hps : ∀ t, first ps t = (next t).map groups) (t : Text) :
    first (.plain (.char c) :: ps) t = ([c].isPrefixOf? t).bind fun r => (next r).map groups := by
  show (one (· == c) t).findSome? (fun p => first ps p.2) = _
  cases t with
  | nil => rfl
  | cons d t =>
    by_cases hd : d = c
    · subst hd
      rw [one_cons_of_pos (by simp)]
      simp [hps, List.isPrefixOf?]
    · rw [one_cons_of_neg (by simpa using hd)]
      simp [List.isPrefixOf?, Ne.symm hd]

/-- **Behind a name** the first name wins that a colon and the rest of the pattern follow. -/
theorem first_names (rules : Rules) (hps : ∀ t, first ps t = (next t).map groups) (t : Text) :
    first (.group rules.namesExpression :: .plain (.char ':') :: ps) t =
      (behindName rules.names next t).map fun p => p.1 :: groups p.2 := by
  rw [first, Expression.splits_names, behindName, ← List.head?_filterMap, List.filterMap_filterMap,
    List.head?_filterMap, List.map_findSome?]
  congr
  funext n
  simp only [Function.comp_def, isPrefixOf?_concat, first_char ':' hps]
  cases n.isPrefixOf? t with
  | none => rfl
  | some r =>
    simp only [Option.map_some, Option.bind_some]
    cases [':'].isPrefixOf? r with
    | none => rfl
    | some r => simp [Function.comp_def]

end LinePattern

/-! ## Readers of lines -/

/-- What a reader of lines makes of the groups of its pattern. -/
def LineReader.ofGroups? : LineReader → List Text → Option LineReading
  | fieldInline, [indent, field, literal, tail] => some (.fieldInline field ⟨indent, literal, tail⟩)
  | fieldHeader, [_, field] => some (.fieldHeader field)
  | arrayItem, [indent, literal, tail] => some (.arrayItem ⟨indent, literal, tail⟩)
  | _, _ => none

/-- The literal on the line after a field header, by the groups of its pattern. -/
def Quoted.ofGroups? : List Text → Option Quoted
  | [indent, literal, tail] => some ⟨indent, literal, tail⟩
  | _ => none

/-- **A reader finds on a line what the groups of its pattern hold there.** -/
theorem LineReader.read_eq_first (rules : Rules) (line : Text) (m : LineReader) :
    m.read rules line = ((m.linePattern rules).first line).bind m.ofGroups? := by
  cases m with
  | fieldInline =>
    rw [linePattern, LinePattern.first_indent (LinePattern.first_names rules
      LinePattern.first_inlineValue), read]
    cases behindIndent (behindName rules.names inlineValue) line <;> rfl
  | fieldHeader =>
    rw [linePattern, LinePattern.first_indent (LinePattern.first_names rules
      LinePattern.first_headerEnd), read]
    cases behindIndent (behindName rules.names headerEnd) line <;> rfl
  | arrayItem =>
    rw [linePattern, LinePattern.arrayItem, LinePattern.first_bareLiteral rfl, read]
    cases bareLiteral rules.minIndent true line <;> rfl

/-- **The literal on the line after a field header** is what the groups of its pattern hold. -/
theorem Rules.deferredValue_eq_first (rules : Rules) (line : Text) :
    rules.deferredValue line = (rules.deferredLinePattern.first line).bind Quoted.ofGroups? := by
  have hindent : (Expression.plus .blank).splits = (one isBlank).atLeast 1 := rfl
  rw [deferredLinePattern, LinePattern.first_bareLiteral hindent, deferredValue]
  cases bareLiteral 1 false line <;> rfl

/-- **Lines are classified by the first pattern that matches.** -/
theorem Rules.classify_eq_first (rules : Rules) (line : Text) :
    rules.classify line = (LineReader.inOrder.findSome? fun m =>
      ((m.linePattern rules).first line).bind m.ofGroups?).getD .unmatched := by
  have hread : LineReader.read rules line = fun m =>
      ((m.linePattern rules).first line).bind m.ofGroups? :=
    funext (LineReader.read_eq_first rules line)
  rw [classify, classifyWith, hread]

end LocaleWrap
