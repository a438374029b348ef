import LocaleWrap.Toml.Value

/-! # TOML scalars

Numbers, truth values and moments in time, written without quotes.

* **`Toml.scalar?`** — the value of a bare word.
* **`Toml.isMoment`** — dates, times and both together, checked against the calendar. -/

namespace LocaleWrap

namespace Toml

/-! ## Numbers -/

/-- Whether a character is a digit of a base up to sixteen. -/
def isDigitOf (base : Nat) (c : Char) : Bool :=
  let n := c.toNat
  if base ≤ 10 then 48 ≤ n && n < 48 + base
  else c.isDigit || (97 ≤ n && n < 87 + base) || (65 ≤ n && n < 55 + base)

/-- The value of a digit. -/
def digitValue (c : Char) : Nat :=
  if c.isDigit then c.toNat - 48 else if c.toNat ≥ 97 then c.toNat - 87 else c.toNat - 55

/-- The number that digits write. -/
def number (base : Nat) (digits : Text) : Nat :=
  digits.foldl (fun n c => n * base + digitValue c) 0

/-- **Digits with single underscores between them**, without the underscores. -/
def digits? (base : Nat) : Text → Option Text
  | [] => none
  | [c] => if isDigitOf base c then some [c] else none
  | c :: '_' :: cs => if isDigitOf base c then (digits? base cs).map (c :: ·) else none
  | c :: cs => if isDigitOf base c then (digits? base cs).map (c :: ·) else none

/-- A sign at the front of a number, and what it stands before. -/
def splitSign : Text → Bool × Text
  | '-' :: cs => (true, cs)
  | '+' :: cs => (false, cs)
  | cs => (false, cs)

/-- Decimal digits without a needless zero in front. -/
def wholeDigits? (t : Text) : Option Text :=
  match digits? 10 t with
  | some ('0' :: _ :: _) => none
  | ds => ds

/-- The integers that a document may hold. -/
def integerLimits : Int × Int := (-(Int.pow 2 127), Int.pow 2 128 - 1)

/-- **An integer**: decimal with a sign, or in another base without. -/
def integer? (t : Text) : Option Int :=
  let n : Option Int := match t with
    | '0' :: 'x' :: cs => (digits? 16 cs).map fun ds => (number 16 ds : Int)
    | '0' :: 'o' :: cs => (digits? 8 cs).map fun ds => (number 8 ds : Int)
    | '0' :: 'b' :: cs => (digits? 2 cs).map fun ds => (number 2 ds : Int)
    | t =>
      let (negative, cs) := splitSign t
      (wholeDigits? cs).map fun ds =>
        if negative then -(number 10 ds : Int) else (number 10 ds : Int)
  n.filter fun n => integerLimits.1 ≤ n && n ≤ integerLimits.2

/-- Whether a decimal number, `mantissa` times a power of ten, is too large for a double. -/
def overflows (mantissa : Nat) (exponent : Int) : Bool :=
  let width : Int := (toString mantissa).length
  let bound := Nat.pow 2 1024 - Nat.pow 2 970
  if mantissa = 0 ∨ width + exponent < 300 then false
  else if width + exponent > 320 then true
  else if 0 ≤ exponent then bound ≤ mantissa * Nat.pow 10 exponent.toNat
  else bound * Nat.pow 10 (-exponent).toNat ≤ mantissa

/-- **Whether a text is a float**: a decimal number with a fraction, an exponent or both that a
double can hold, or one of the names of infinity and of what is no number. -/
def isFloat (t : Text) : Bool :=
  let (_, cs) := splitSign t
  if cs = "inf".toList ∨ cs = "nan".toList then true
  else
    let isE := fun c : Char => c == 'e' || c == 'E'
    let body : Text := cs.takeWhile fun c => !isE c
    let power : Text := (cs.drop body.length).drop 1
    let hasPower := cs.length > body.length
    let whole : Text := body.takeWhile (· != '.')
    let fraction : Text := (body.drop whole.length).drop 1
    let hasFraction := body.length > whole.length
    if !hasPower && !hasFraction then false
    else
      match wholeDigits? whole, if hasFraction then digits? 10 fraction else some [],
          if hasPower then digits? 10 (splitSign power).2 else some ['0'] with
      | some ws, some fs, some ps =>
        let e : Int := if (splitSign power).1 then -(number 10 ps : Int) else number 10 ps
        !overflows (number 10 (ws ++ fs)) (e - fs.length)
      | _, _, _ => false

/-! ## Moments in time -/

/-- A number of exactly so many decimal digits, and the rest. -/
def fixedNumber? (width : Nat) (t : Text) : Option (Nat × Text) :=
  let ds : Text := t.take width
  if ds.length = width ∧ ds.all Char.isDigit then some (number 10 ds, t.drop width) else none

/-- The number of days of a month. -/
def daysIn (year month : Nat) : Nat :=
  if month = 2 then
    if year % 4 = 0 ∧ (year % 100 ≠ 0 ∨ year % 400 = 0) then 29 else 28
  else if month ∈ [4, 6, 9, 11] then 30 else 31

/-- The rest of a text after a character. -/
def expect? (c : Char) : Text → Option Text
  | d :: ds => if d = c then some ds else none
  | [] => none

/-- A date: year, month and day. -/
def date? (t : Text) : Option Text := do
  let (year, t) ← fixedNumber? 4 t
  let t ← expect? '-' t
  let (month, t) ← fixedNumber? 2 t
  let t ← expect? '-' t
  let (day, t) ← fixedNumber? 2 t
  if 1 ≤ month ∧ month ≤ 12 ∧ 1 ≤ day ∧ day ≤ daysIn year month then some t else none

/-- A time of day: hours, minutes, and seconds that may be missing or have a fraction. -/
def time? (t : Text) : Option Text := do
  let (hour, t) ← fixedNumber? 2 t
  let t ← expect? ':' t
  let (minute, t) ← fixedNumber? 2 t
  if hour > 23 ∨ minute > 59 then none
  else match t with
    | ':' :: t => do
      let (second, t) ← fixedNumber? 2 t
      if second > 60 then none
      else match t with
        | '.' :: c :: t => if c.isDigit then some (t.dropWhile Char.isDigit) else none
        | ['.'] => none
        | t => some t
    | t => some t

/-- The distance from universal time. -/
def offset? : Text → Option Text
  | [] => some []
  | [c] => if c = 'Z' ∨ c = 'z' then some [] else none
  | c :: t => do
    if c = '+' ∨ c = '-' then
      let (hour, t) ← fixedNumber? 2 t
      let t ← expect? ':' t
      let (minute, t) ← fixedNumber? 2 t
      if hour * 60 + minute ≤ 24 * 60 ∧ minute ≤ 59 then some t else none
    else none

/-- **Whether a text is a moment**: a date, a time, or both with a mark between them and perhaps a
distance from universal time. -/
def isMoment (t : Text) : Bool :=
  match date? t with
  | some [] => true
  | some (c :: rest) =>
    (c == 'T' || c == 't' || c == ' ') && ((time? rest).bind offset? == some [])
  | none => time? t == some []

/-! ## Bare words -/

/-- **The value of a bare word.** -/
def scalar? (t : Text) : Option Value :=
  if t = "true".toList then some (.boolean true)
  else if t = "false".toList then some (.boolean false)
  else match integer? t with
    | some n => some (.integer n)
    | none =>
      if isFloat t then some (.float t)
      else if isMoment t then some (.moment t)
      else none

end Toml

end LocaleWrap
