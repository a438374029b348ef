/-! # Styled text

* **`Style`** — how a text stands out in a terminal; **`Style.paint`** puts a text between the marks
  that switch the style on and off, unless styles are off altogether. -/

namespace LocaleWrap

/-- **How a text stands out.** -/
inductive Style
  | bold
  | red
  | green
  | yellow
  | blue
  | cyan
  | faint
  deriving DecidableEq, Repr, Inhabited

namespace Style

/-- The number that switches a style on. -/
def onCode : Style → String
  | bold => "1"
  | red => "31"
  | green => "32"
  | yellow => "33"
  | blue => "34"
  | cyan => "36"
  | faint => "90"

/-- The number that switches a style off: back to the usual colour, or all styles off. -/
def offCode : Style → String
  | bold => "0"
  | _ => "39"

/-- **A text in a style**, if styles are `on`. -/
def paint (on : Bool) (style : Style) (s : String) : String :=
  if on then "\x1b[" ++ style.onCode ++ "m" ++ s ++ "\x1b[" ++ style.offCode ++ "m" else s

/-- A bold text in a colour. -/
def paintBold (on : Bool) (style : Style) (s : String) : String :=
  paint on bold (paint on style s)

@[simp] theorem paint_off (style : Style) (s : String) : paint false style s = s := rfl

end Style

end LocaleWrap
