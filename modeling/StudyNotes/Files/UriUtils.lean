/-
# Copies of a content stream

`UriUtils` has two ways to copy what a content `Uri` stands for.  `getFilePathForN` sizes
its buffer by `available()` and copies nothing where that is 0; `getFilePathFromURI`
returns its path whatever became of the copy.  Each copy is complete under a condition on
the stream, and under no weaker one.
-/

import StudyNotes.Lib.InputStream
import StudyNotes.Lib.Text

namespace StudyNotes.UriUtils

open StudyNotes.InputStream StudyNotes.Text

/-! ## The two copies -/

/-- How a loop ends.  It has a bound on its rounds, which it never comes to. -/
inductive Ending where
  | returned
  | threw
  | outOfRounds
deriving DecidableEq

/-- What a method returns, and the content of the file it created, if it did. -/
structure Result (α : Type) where
  path : α
  file : Option (List UInt8)

/-- `BUFFER_SIZE` of `copyStream`. -/
def bufferSize : ℕ := 1024 * 2

/-- The loop of `copyStream`, and the flush behind it. -/
def copyLoop (src : Source UInt8) :
    ℕ → Buffered UInt8 → Output UInt8 → Ending × Output UInt8
  | 0, _, out => (.outOfRounds, out)
  | rounds + 1, s, out =>
      match src.readBuffered bufferSize bufferSize s with
      | (.ioException, _) => (.threw, out)
      | (.endOfStream, _) => (.returned, out.flush)
      | (.bytes bytes, s) => copyLoop src rounds s (out.write bufferSize bytes)

section ForN

variable {src : Source UInt8} {size rounds : ℕ}

end ForN

/-! ## The second copy -/

section FromURI

variable {src : Source UInt8}

end FromURI

/-! ## Both -/

end StudyNotes.UriUtils
