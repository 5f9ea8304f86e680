/-
# bufio2's buffered writer

`Writer` is `bufio2.Writer`: a byte buffer `buf` whose first `wpos` bytes are
pending, the underlying writer `wr`, and a sticky error `err`. Each method is
a function of the writer's state returning what Go returns.

The underlying `io.Writer` is a `Sink`: the bytes it has taken, and its
answers to the coming `Write` calls in order; once they run out it takes
everything. An answer takes all of `p`, or takes at most `n` bytes and fails,
or takes at most `n` bytes and reports no error (which the `io.Writer`
contract allows only when `n ≥ len(p)`; with it, `flush`'s `ErrShortWrite`
branch is reachable).

`Write`'s loop and `WriteString`'s loop run on fuel. `Write` calls the sink
once per round, and once the answers run out its rounds end within two;
`WriteString` copies a whole buffer per round after the first. Neither runs
out of its fuel (`Writer.write_ends`).

Key definitions: `Sink.write`, `Writer.flush`, `Writer.write`,
`Writer.writeByte`, `Writer.writeString`, `Writer.run`.
-/
import Codis.Bufio2.Reader

namespace Codis
namespace Bufio2

/-- One answer of the underlying writer to a `Write(p)`. -/
inductive Answer
  /-- takes all of `p` -/
  | all
  /-- takes at most `n` bytes and returns `e` -/
  | fail (n : Nat) (e : Err)
  /-- takes at most `n` bytes and returns no error -/
  | short (n : Nat)
  deriving DecidableEq, Repr

/-- An underlying `io.Writer`: what it has taken and its coming answers. -/
structure Sink where
  got : List UInt8
  answers : List Answer
  deriving DecidableEq, Repr

namespace Sink

/-- One `Write(p)`: the count and the error it returns, and the sink after. -/
def write (s : Sink) (p : List UInt8) : (Nat × Option Err) × Sink :=
  match s.answers with
  | [] => ((p.length, none), { s with got := s.got ++ p })
  | .all :: as => ((p.length, none), ⟨s.got ++ p, as⟩)
  | .fail n e :: as => ((min n p.length, some e), ⟨s.got ++ p.take n, as⟩)
  | .short n :: as => ((min n p.length, none), ⟨s.got ++ p.take n, as⟩)

end Sink

/-- `bufio2.Writer`. -/
structure Writer where
  err : Option Err
  buf : List UInt8
  wr : Sink
  wpos : Nat
  deriving DecidableEq, Repr

namespace Writer

/-- `NewWriterSize`: a size that is not positive gets the default. -/
def newWriterSize (wr : Sink) (size : Int) : Writer :=
  { err := none, buf := List.replicate (if size ≤ 0 then defaultBufferSize else size.toNat) 0,
    wr, wpos := 0 }

/-- `NewWriter`. -/
def newWriter (wr : Sink) : Writer := newWriterSize wr defaultBufferSize

/-- `NewWriterBuffer`: a writer over a buffer the caller hands in, whatever it
holds; an empty one is replaced by a fresh buffer of the default size. -/
def newWriterBuffer (wr : Sink) (buf : List UInt8) : Writer :=
  { err := none, buf := if buf.length = 0 then List.replicate defaultBufferSize 0 else buf,
    wr, wpos := 0 }

/-- `available`. -/
def available (b : Writer) : Nat := b.buf.length - b.wpos

/-- `n := copy(b.buf[b.wpos:], p); b.wpos += n`: the count and the writer. -/
def put (b : Writer) (p : List UInt8) : Nat × Writer :=
  let n := min b.available p.length
  (n, { b with buf := b.buf.take b.wpos ++ p.take n ++ b.buf.drop (b.wpos + n), wpos := b.wpos + n })

/-- `flush`: write `buf[:wpos]`; an error, or a short count, becomes the
sticky error. `flush` returns the `err` of the writer it leaves. -/
def flush (b : Writer) : Writer :=
  match b.err with
  | some _ => b
  | none =>
    if b.wpos = 0 then b
    else
      let r := b.wr.write (b.buf.take b.wpos)
      match r.1.2 with
      | some e => { b with wr := r.2, err := some e }
      | none =>
        if r.1.1 < b.wpos then { b with wr := r.2, err := some .shortWrite }
        else { b with wr := r.2, wpos := 0 }

/-- The loop of `Write`: while there is no error and `p` does not fit, an
empty buffer sends `p` straight to the sink, and otherwise the buffer is
filled from `p` and flushed. Returns the count, the rest of `p` and the
writer. -/
def writeLoop : Nat → Nat → List UInt8 → Writer → Nat × List UInt8 × Writer
  | 0, nn, p, b => (nn, p, { b with err := some .exhausted })
  | fuel + 1, nn, p, b =>
    if b.err = none ∧ b.available < p.length then
      if b.wpos = 0 then
        let r := b.wr.write p
        writeLoop fuel (nn + r.1.1) (p.drop r.1.1) { b with wr := r.2, err := r.1.2 }
      else
        let c := b.put p
        writeLoop fuel (nn + c.1) (p.drop c.1) c.2.flush
    else (nn, p, b)

/-- The loop of `WriteString`: while there is no error and `s` does not fit,
fill the buffer from `s` and flush. -/
def writeStringLoop : Nat → Nat → List UInt8 → Writer → Nat × List UInt8 × Writer
  | 0, nn, s, b => (nn, s, { b with err := some .exhausted })
  | fuel + 1, nn, s, b =>
    if b.err = none ∧ b.available < s.length then
      let c := b.put s
      writeStringLoop fuel (nn + c.1) (s.drop c.1) c.2.flush
    else (nn, s, b)

/-- The end of `Write` and `WriteString`: after an error, or with nothing
left, return; otherwise the rest fits and is copied. -/
def finish (nn : Nat) (p : List UInt8) (b : Writer) : (Nat × Option Err) × Writer :=
  if b.err ≠ none ∨ p.length = 0 then ((nn, b.err), b)
  else ((nn + (b.put p).1, none), (b.put p).2)

/-- `Write`. -/
def write (p : List UInt8) (b : Writer) : (Nat × Option Err) × Writer :=
  let r := writeLoop (b.wr.answers.length + 3) 0 p b
  finish r.1 r.2.1 r.2.2

/-- `WriteString`. -/
def writeString (s : List UInt8) (b : Writer) : (Nat × Option Err) × Writer :=
  let r := writeStringLoop (s.length + 2) 0 s b
  finish r.1 r.2.1 r.2.2

/-- `WriteByte`: flush a full buffer first. -/
def writeByte (c : UInt8) (b : Writer) : Option Err × Writer :=
  match b.err with
  | some e => (some e, b)
  | none =>
    let f := if b.available = 0 then b.flush else b
    match f.err with
    | some e => (some e, f)
    | none => (none, { f with buf := f.buf.set f.wpos c, wpos := f.wpos + 1 })

/-- A call of the writer's API. -/
inductive Call
  | write (p : List UInt8)
  | writeByte (c : UInt8)
  | writeString (s : List UInt8)
  | flush
  deriving DecidableEq, Repr

/-- The bytes a call hands to the writer. -/
def Call.bytes : Call → List UInt8
  | .write p | .writeString p => p
  | .writeByte c => [c]
  | .flush => []

/-- One call: the error it returns and the writer after it. -/
def call (b : Writer) : Call → Option Err × Writer
  | .write p => ((b.write p).1.2, (b.write p).2)
  | .writeString s => ((b.writeString s).1.2, (b.writeString s).2)
  | .writeByte c => b.writeByte c
  | .flush => (b.flush.err, b.flush)

/-- A sequence of calls. -/
def run (b : Writer) : List Call → Writer
  | [] => b
  | c :: cs => (b.call c).2.run cs

end Writer

end Bufio2
end Codis
