import LocaleWrap.Text.Basic

/-! # Why a file operation fails

* **`FileFault`** — the causes, with **`FileFault.message`** the wording of each. -/

namespace LocaleWrap

/-- **Why a file operation fails.** -/
inductive FileFault
  /-- Nothing stands at the path. -/
  | notFound
  /-- Something on the way is no directory. -/
  | notDirectory
  /-- A directory stands where a file is wanted. -/
  | isDirectory
  /-- Something stands where a directory is to be made. -/
  | alreadyExists
  /-- A name, or the path, is longer than the system allows. -/
  | nameTooLong
  /-- The file holds bytes that are no text. -/
  | notText
  /-- The path holds a character that no name can hold. -/
  | nulInPath
  /-- Another cause, given in words. -/
  | other (text : Text)
  deriving DecidableEq, Repr, Inhabited

/-- **The cause in words**, with the number that the system gives it. -/
def FileFault.message : FileFault → String
  | notFound => "No such file or directory (os error 2)"
  | notDirectory => "Not a directory (os error 20)"
  | isDirectory => "Is a directory (os error 21)"
  | alreadyExists => "File exists (os error 17)"
  | nameTooLong => "File name too long (os error 36)"
  | notText => "stream did not contain valid UTF-8"
  | nulInPath => "file name contained an unexpected NUL byte"
  | other text => text.asString

end LocaleWrap
