/-!
# Input and output streams

A stream of input is the sequence of answers that its read calls get: a byte,
the end of the input, an interruption after which the call is made again, or
a fault. Behind the last listed answer the input has ended for good. A stream
of output accepts bytes up to a capacity and may refuse the final flush.
-/

namespace TapeReach

/-- What one read call on a stream answers. -/
inductive ReadAnswer where
  /-- One byte of input. -/
  | byte (value : UInt8)
  /-- The end of the input, for this call. -/
  | endOfInput
  /-- Nothing yet: the call has to be made again. -/
  | interrupted
  /-- The stream is broken. -/
  | fault
  deriving DecidableEq

/-- The part of an input stream that has not been read. -/
structure InputStream where
  /-- Answers of the coming read calls; behind them the input has ended. -/
  answers : List ReadAnswer
  /-- Number of read calls made so far. -/
  calls : Nat := 0
  /-- Number of bytes taken so far. -/
  consumed : Nat := 0
  deriving DecidableEq

/-- Which stream operation failed. -/
inductive StreamFault where
  /-- A read call. -/
  | read
  /-- The writing of a byte. -/
  | write
  /-- The final flush. -/
  | flush
  deriving DecidableEq

namespace StreamFault

/-- The fault in words. -/
def message : StreamFault → String
  | read => "read fault"
  | write => "write fault"
  | flush => "flush fault"

end StreamFault

namespace InputStream

/-- A stream of bytes without interruptions or faults. -/
def ofBytes (bytes : List UInt8) : InputStream := ⟨bytes.map .byte, 0, 0⟩

/-- Make read calls until one is not interrupted. The answer is the byte read,
or nothing at the end of the input, with the stream behind the last call. -/
def next (stream : InputStream) : Except StreamFault (Option UInt8) × InputStream :=
  go stream.answers stream.calls
where
  go : List ReadAnswer → Nat → Except StreamFault (Option UInt8) × InputStream
    | [], calls => (.ok none, ⟨[], calls + 1, stream.consumed⟩)
    | .byte b :: rest, calls => (.ok (some b), ⟨rest, calls + 1, stream.consumed + 1⟩)
    | .endOfInput :: rest, calls => (.ok none, ⟨rest, calls + 1, stream.consumed⟩)
    | .interrupted :: rest, calls => go rest (calls + 1)
    | .fault :: rest, calls => (.error .read, ⟨rest, calls + 1, stream.consumed⟩)

/-- Answers of the calls numbered from `call` on, when `bytes` are left and the
calls in `interrupts` and the call `failing` do not go through. `count` bounds the
number of calls described. -/
def scheduleFrom (interrupts : List Nat) (failing : Option Nat) :
    (count call : Nat) → (bytes : List UInt8) → List ReadAnswer
  | 0, _, bytes => bytes.map .byte
  | count + 1, call, bytes =>
    if interrupts.contains call then
      .interrupted :: scheduleFrom interrupts failing count (call + 1) bytes
    else if failing = some call then
      [.fault]
    else
      match bytes with
      | [] => .endOfInput :: scheduleFrom interrupts failing count (call + 1) []
      | b :: rest => .byte b :: scheduleFrom interrupts failing count (call + 1) rest

/-- A stream of bytes in which the calls numbered in `interrupts` are interrupted
and the call numbered `failing` breaks the stream. Only the first `horizon` calls
are disturbed. -/
def ofSchedule (bytes : List UInt8) (interrupts : List Nat) (failing : Option Nat)
    (horizon : Nat) : InputStream :=
  let last := (failing.toList ++ interrupts).foldl max 0
  ⟨scheduleFrom interrupts failing (min (last + 1) horizon) 0 bytes, 0, 0⟩

end InputStream

/-- A stream of output with what has been written. -/
structure OutputStream where
  /-- The bytes written so far, in order. -/
  written : Array UInt8 := #[]
  /-- Number of bytes after which writing fails. -/
  capacity : Option Nat := none
  /-- Whether the final flush fails. -/
  failsOnFlush : Bool := false
  deriving DecidableEq

namespace OutputStream

/-- Whether the stream refuses a further byte. -/
def isFull (stream : OutputStream) : Bool := stream.capacity == some stream.written.size

/-- Append one byte. -/
def push (stream : OutputStream) (byte : UInt8) : OutputStream :=
  { stream with written := stream.written.push byte }

/-- Flush the stream. -/
def flush (stream : OutputStream) : Except StreamFault Unit :=
  if stream.failsOnFlush then .error .flush else .ok ()

end OutputStream

end TapeReach
