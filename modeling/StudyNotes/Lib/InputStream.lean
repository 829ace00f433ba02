/-
# Streams that deliver in chunks and may fail

A stream hands out its content in chunks of its own choice, answers `available()` as it
likes, and may fail at any read.  `BufferedInputStream` reads from it until it has what it
was asked for, the stream ends, or nothing more is available; the bytes it holds in hand
when a read fails are lost.  All its reads ask for the size of the buffer, so the reads
depend on the stream only, and a sequence over the reads says when nothing is lost.
-/

import Mathlib.Algebra.Group.Int.Defs
import Mathlib.Data.List.Basic
import Mathlib.Order.Basic

namespace StudyNotes.InputStream

variable {α : Type}

/-- The content, and what happens at the read with a number: how much it would hand out,
what `available()` answers before it, and whether it throws. -/
structure Source (α : Type) where
  content : List α
  chunk : ℕ → ℕ
  available : ℕ → ℤ
  fails : ℕ → Bool

/-- What is left of a stream, and the number of reads so far. -/
structure Position (α : Type) where
  left : List α
  reads : ℕ

/-- How a read ends; -1 is the end of the stream. -/
inductive Answer (α : Type) where
  | bytes (bytes : List α)
  | endOfStream
  | ioException

/-- The bytes a `BufferedInputStream` has read ahead, and its stream. -/
structure Buffered (α : Type) where
  buffer : List α
  position : Position α

namespace Source

variable (src : Source α)

def start : Position α := ⟨src.content, 0⟩

/-- How much a read hands out that asks for `len`, if there is as much. -/
def amount (len i : ℕ) : ℕ := min len (max 1 (src.chunk i))

/-- `read(b, off, len)`. -/
def read (len : ℕ) (position : Position α) : Answer α × Position α :=
  if src.fails position.reads then (.ioException, ⟨position.left, position.reads + 1⟩)
  else if position.left.isEmpty then (.endOfStream, ⟨[], position.reads + 1⟩)
  else
    (.bytes (position.left.take (src.amount len position.reads)),
      ⟨position.left.drop (src.amount len position.reads), position.reads + 1⟩)

/-! ## `BufferedInputStream` -/

/-- `read1`: from the buffer, or past it where the request is as large as the buffer, or
after filling it. -/
def read1 (size len : ℕ) (s : Buffered α) : Answer α × Buffered α :=
  if s.buffer.isEmpty then
    if size ≤ len then
      match src.read len s.position with
      | (answer, position) => (answer, ⟨[], position⟩)
    else
      match src.read size s.position with
      | (.bytes bytes, position) => (.bytes (bytes.take len), ⟨bytes.drop len, position⟩)
      | (answer, position) => (answer, ⟨[], position⟩)
  else (.bytes (s.buffer.take len), ⟨s.buffer.drop len, s.position⟩)

/-- The loop of `read`, with the bytes it has got.  Every round gets one at least, so `len`
rounds are enough. -/
def readLoop (size len : ℕ) : ℕ → List α → Buffered α → Answer α × Buffered α
  | 0, got, s => (.bytes got, s)
  | rounds + 1, got, s =>
      match src.read1 size (len - got.length) s with
      | (.ioException, s) => (.ioException, s)
      | (.endOfStream, s) => (if got.isEmpty then .endOfStream else .bytes got, s)
      | (.bytes bytes, s) =>
          if len ≤ (got ++ bytes).length then (.bytes (got ++ bytes), s)
          else if src.available s.position.reads ≤ 0 then (.bytes (got ++ bytes), s)
          else readLoop size len rounds (got ++ bytes) s

/-- `read(b, 0, len)` of a `BufferedInputStream` with a buffer of `size`. -/
def readBuffered (size len : ℕ) (s : Buffered α) : Answer α × Buffered α :=
  src.readLoop size len len [] s

/-! ## The sequence of the reads -/

/-- What is left before a read, if none before it has failed. -/
def leftBefore (size : ℕ) : ℕ → List α
  | 0 => src.content
  | i + 1 => (leftBefore size i).drop (src.amount size i)

/-- The bytes a buffered read holds in hand before a read: those received since
`available()` last answered 0 or the stream ended, less the full buffers. -/
def inHand (size : ℕ) : ℕ → ℕ
  | 0 => 0
  | i + 1 =>
      if (src.leftBefore size i).isEmpty ∨ src.available (i + 1) ≤ 0 then 0
      else (inHand size i + min (src.amount size i) (src.leftBefore size i).length) % size

/-- The first read that fails, from the read `i` on, finds nothing left and nothing in
hand. -/
def LosesNothing (size i : ℕ) : Prop :=
  ∀ k, i ≤ k → src.fails k = true → (∀ j, i ≤ j → j < k → src.fails j = false) →
    src.leftBefore size k = [] ∧ src.inHand size k = 0

variable {src} {size i : ℕ}

section Buffered

variable {s : Buffered α} {got : List α}

/-- Before a buffered read: what is in the buffer comes to hand first. -/
structure AtHead (src : Source α) (size : ℕ) (s : Buffered α) : Prop where
  left : s.position.left = src.leftBefore size s.position.reads
  lt : s.buffer.length < size
  hand : src.inHand size s.position.reads =
    if src.available s.position.reads ≤ 0 then 0 else s.buffer.length

/-- What a buffered read does with the bytes in hand: it loses them and what is left, it
finds that there is nothing, or it returns some and keeps the rest. -/
def Outcome (src : Source α) (size : ℕ) (got : List α) (s : Buffered α) :
    Answer α × Buffered α → Prop
  | (.ioException, _) =>
      src.LosesNothing size s.position.reads ↔ got ++ s.buffer ++ s.position.left = []
  | (.endOfStream, _) =>
      got ++ s.buffer ++ s.position.left = [] ∧ src.LosesNothing size s.position.reads
  | (.bytes bytes, s') =>
      bytes ≠ [] ∧ bytes ++ s'.buffer ++ s'.position.left = got ++ s.buffer ++ s.position.left ∧
        AtHead src size s' ∧
        (src.LosesNothing size s.position.reads ↔ src.LosesNothing size s'.position.reads)

section Brings

variable {bytes left : List α}

end Brings

end Buffered

end Source

/-! ## `BufferedOutputStream` -/

/-- The bytes that wait in the buffer, and those passed on. -/
structure Output (α : Type) where
  buffer : List α
  passed : List α

namespace Output

variable (out : Output α)

def flush : Output α := ⟨[], out.passed ++ out.buffer⟩

/-- `write(b, 0, n)`, past the buffer where the bytes are as many as it holds. -/
def write (size : ℕ) (bytes : List α) : Output α :=
  if size ≤ bytes.length then ⟨[], out.flush.passed ++ bytes⟩
  else if size - out.buffer.length < bytes.length then ⟨bytes, out.flush.passed⟩
  else ⟨out.buffer ++ bytes, out.passed⟩

end Output

end StudyNotes.InputStream
