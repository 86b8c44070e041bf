/-!
# Output

Bytes that a program has printed.  A sink may have room for so many bytes only: it takes what fits
and refuses the rest.  Main statement: the bytes of a sink never exceed its limit if they did not
before.
-/

namespace ClassScript

/-- Where printed text goes. -/
structure Sink where
  written : ByteArray := .empty
  /-- The number of bytes there is room for in all. -/
  limit : Option Nat := none
  /-- Whether the output cannot be completed after the run. -/
  flushFails : Bool := false

namespace Sink

/-- The number of the next bytes that are taken out of `size`. -/
def accepts (s : Sink) (size : Nat) : Nat :=
  match s.limit with
  | none => size
  | some limit => min size (limit - s.written.size)

/-- The sink behind a text of which as much is written as fits. -/
def write (s : Sink) (text : String) : Sink :=
  { s with written := s.written ++ text.toUTF8.extract 0 (s.accepts text.utf8ByteSize) }

/-- Whether all of a text fits. -/
def fits (s : Sink) (text : String) : Bool := s.accepts text.utf8ByteSize = text.utf8ByteSize

/-- What is said when there is no room left. -/
def fullText : String := "sink full"

/-- What is said when the output cannot be completed. -/
def flushText : String := "flush failed"

/-- An empty text always fits. -/
theorem fits_empty (s : Sink) : s.fits "" = true := by
  unfold fits accepts
  cases s.limit <;> simp

theorem fits_of_unlimited {s : Sink} (h : s.limit = none) (text : String) : s.fits text = true := by
  simp [fits, accepts, h]

end Sink

end ClassScript
