/-
# bufio2's buffered reader

`Reader` is `bufio2.Reader`: a byte buffer `buf` with a read cursor `rpos`
and a write cursor `wpos`, the underlying reader `rd` it fills from, and a
sticky error `err`. Each method is a function of the reader's state. The
ones that return a zero value with their error run in `ReaderM`, the state
monad whose errors keep the state they leave behind; `Read` and `ReadSlice`,
which can return bytes together with an error, return the pair as Go does.

The underlying `io.Reader` is a `Source`: the chunks it delivers, in order,
and the error it ends with. A `Read` gets as much of the current chunk as
fits the caller's buffer, so every way of splitting a stream into `Read`
results is the chunk list of some source.

The three loops (`ReadSlice`'s fill loop, `ReadBytes`'s fragment loop and
`io.ReadFull`'s read loop) run on fuel. Each entry point gives a bound the
loop cannot reach: `ReadSlice` fills at most once per free byte of the
buffer, `ReadBytes` consumes a whole buffer per `ErrBufferFull`, and each
`Read` of `io.ReadFull` returns a byte or uses up a chunk.

The slice allocator (`sliceAlloc`) only decides where a returned region
lives; the model returns the bytes as lists.

Key definitions: `Source.read`, `Reader.fill`, `Reader.read`,
`Reader.readByte`, `Reader.peekByte`, `Reader.readSlice`,
`Reader.readBytes`, `Reader.readFull`.
-/
import Codis.Errors

namespace Codis
namespace Bufio2

/-- `DefaultBufferSize`. -/
def defaultBufferSize : Nat := 1024

/-- An underlying `io.Reader`: the chunks it has still to deliver and the
error it ends with. With `tail` set, its last chunk comes back together with
`eof`; otherwise a separate zero-byte `Read` returns `eof`. -/
structure Source where
  chunks : List (List UInt8)
  tail : Bool
  eof : Err
  deriving DecidableEq, Repr

namespace Source

/-- One `Read(p)` with `len(p) = m`: the bytes written to `p`, the error,
and the source after it. -/
def read (s : Source) (m : Nat) : (List UInt8 × Option Err) × Source :=
  match s.chunks with
  | [] => (([], some s.eof), s)
  | c :: cs =>
    if m < c.length then ((c.take m, none), { s with chunks := c.drop m :: cs })
    else ((c, if cs = [] ∧ s.tail = true then some s.eof else none), { s with chunks := cs })

/-- The bytes the source has still to deliver. -/
def bytes (s : Source) : List UInt8 := s.chunks.flatten

end Source

/-- `bufio2.Reader`. -/
structure Reader where
  err : Option Err
  buf : List UInt8
  rd : Source
  rpos : Nat
  wpos : Nat
  deriving DecidableEq, Repr

/-- Computations on a reader that may fail, keeping the state they fail in. -/
abbrev ReaderM := EStateM Err Reader

namespace Reader

/-- `NewReaderSize`: a size that is not positive gets the default. -/
def newReaderSize (rd : Source) (size : Int) : Reader :=
  { err := none, buf := List.replicate (if size ≤ 0 then defaultBufferSize else size.toNat) 0,
    rd, rpos := 0, wpos := 0 }

/-- `NewReader`. -/
def newReader (rd : Source) : Reader := newReaderSize rd defaultBufferSize

/-- `NewReaderBuffer`: a reader over a buffer the caller hands in, whatever it
holds; an empty one is replaced by a fresh buffer of the default size. -/
def newReaderBuffer (rd : Source) (buf : List UInt8) : Reader :=
  { err := none, buf := if buf.length = 0 then List.replicate defaultBufferSize 0 else buf,
    rd, rpos := 0, wpos := 0 }

/-- `buffered`. -/
def buffered (b : Reader) : Nat := b.wpos - b.rpos

/-- The unread bytes of the buffer, `buf[rpos:wpos]`. -/
def window (b : Reader) : List UInt8 := (b.buf.drop b.rpos).take b.buffered

/-- The compaction at the top of `fill`: `copy(b.buf, b.buf[b.rpos:b.wpos])`,
then `rpos = 0` and `wpos = n`. -/
def compact (b : Reader) : Reader :=
  if 0 < b.rpos then
    { b with buf := b.window ++ b.buf.drop b.buffered, rpos := 0, wpos := b.buffered }
  else b

/-- The buffer after `d` is written at `wpos`, as `Read(b.buf[b.wpos:])` does. -/
def land (b : Reader) (d : List UInt8) : List UInt8 :=
  b.buf.take b.wpos ++ d ++ b.buf.drop (b.wpos + d.length)

/-- `fill`: compact, then one `Read` into `buf[wpos:]`. An error, or a read of
no bytes, becomes the sticky error, and the bytes of that read are not
counted. -/
def fill (b : Reader) : Reader :=
  match b.err with
  | some _ => b
  | none =>
    let c := b.compact
    let r := c.rd.read (c.buf.length - c.wpos)
    match r.1.2 with
    | some e => { c with buf := c.land r.1.1, rd := r.2, err := some e }
    | none =>
      if r.1.1.length = 0 then { c with buf := c.land r.1.1, rd := r.2, err := some .noProgress }
      else { c with buf := c.land r.1.1, rd := r.2, wpos := c.wpos + r.1.1.length }

/-- `if b.buffered() == 0 { b.fill() }`, at the top of `Read`, `ReadByte`
and `PeekByte`. -/
def fillIfEmpty (b : Reader) : Reader := if b.buffered = 0 then b.fill else b

/-- `Read(p)` with `len(p) = m`: an empty buffer and a `p` at least as long
as it read straight into `p`; otherwise fill if empty and copy. -/
def read (m : Nat) (b : Reader) : (List UInt8 × Option Err) × Reader :=
  match b.err with
  | some e => (([], some e), b)
  | none =>
    if m = 0 then (([], none), b)
    else if b.buffered = 0 ∧ b.buf.length ≤ m then
      let r := b.rd.read m
      (r.1, { b with rd := r.2, err := r.1.2 })
    else
      let c := b.fillIfEmpty
      match c.err with
      | some e => (([], some e), c)
      | none => ((c.window.take m, none), { c with rpos := c.rpos + min m c.buffered })

/-- `ReadByte`. -/
def readByte : ReaderM UInt8 := fun b =>
  match b.err with
  | some e => .error e b
  | none =>
    let c := b.fillIfEmpty
    match c.err with
    | some e => .error e c
    | none => .ok (c.buf.getD c.rpos 0) { c with rpos := c.rpos + 1 }

/-- `PeekByte`. -/
def peekByte : ReaderM UInt8 := fun b =>
  match b.err with
  | some e => .error e b
  | none =>
    let c := b.fillIfEmpty
    match c.err with
    | some e => .error e c
    | none => .ok (c.buf.getD c.rpos 0) c

/-- The loop of `ReadSlice`: look for `delim` in `buf[rpos:wpos]`; a full
buffer without it is returned whole with `ErrBufferFull` and skipped;
otherwise fill and look again. -/
def readSliceLoop (delim : UInt8) : Nat → Reader → (List UInt8 × Option Err) × Reader
  | 0, b => (([], some .exhausted), b)
  | fuel + 1, b =>
    if delim ∈ b.window then
      let i := b.window.indexOf delim
      ((b.window.take (i + 1), none), { b with rpos := b.rpos + i + 1 })
    else if b.buffered = b.buf.length then
      ((b.buf, some .bufferFull), { b with rpos := b.wpos })
    else
      let c := b.fill
      match c.err with
      | some e => (([], some e), c)
      | none => readSliceLoop delim fuel c

/-- `ReadSlice`. -/
def readSlice (delim : UInt8) (b : Reader) : (List UInt8 × Option Err) × Reader :=
  match b.err with
  | some e => (([], some e), b)
  | none => readSliceLoop delim (b.buf.length + 1) b

/-- The bytes a plain cursor would still deliver: the window, then the source. -/
def unread (b : Reader) : List UInt8 := b.window ++ b.rd.bytes

/-- The loop of `ReadBytes`: collect `ReadSlice` fragments while it reports
`ErrBufferFull`. Any other error returns the reader's sticky error. -/
def readBytesLoop (delim : UInt8) : Nat → List UInt8 → ReaderM (List UInt8)
  | 0, _ => fun b => .error .exhausted b
  | fuel + 1, full => fun b =>
    let r := b.readSlice delim
    match r.1.2 with
    | none => .ok (full ++ r.1.1) r.2
    | some .bufferFull => readBytesLoop delim fuel (full ++ r.1.1) r.2
    | some e => .error (r.2.err.getD e) r.2

/-- `ReadBytes`. -/
def readBytes (delim : UInt8) : ReaderM (List UInt8) := fun b =>
  readBytesLoop delim (b.unread.length + 1) [] b

/-- The loop of `io.ReadAtLeast(b, buf, min)`: `Read` into the rest of `buf`
while fewer than `min` bytes arrived and no error did. -/
def readAtLeastLoop (min : Nat) : Nat → List UInt8 → Reader → (List UInt8 × Option Err) × Reader
  | 0, acc, b => ((acc, some .exhausted), b)
  | fuel + 1, acc, b =>
    if min ≤ acc.length then ((acc, none), b)
    else
      let r := b.read (min - acc.length)
      match r.1.2 with
      | none => readAtLeastLoop min fuel (acc ++ r.1.1) r.2
      | some e => ((acc ++ r.1.1, some e), r.2)

/-- `io.ReadFull(b, buf)` with `len(buf) = n`: enough bytes clear the error,
and `io.EOF` after some bytes becomes `io.ErrUnexpectedEOF`. -/
def ioReadFull (n : Nat) (b : Reader) : (List UInt8 × Option Err) × Reader :=
  let r := readAtLeastLoop n (n + b.rd.chunks.length + 1) [] b
  if n ≤ r.1.1.length then ((r.1.1, none), r.2)
  else if 0 < r.1.1.length ∧ r.1.2 = some .eof then ((r.1.1, some .unexpectedEOF), r.2)
  else (r.1, r.2)

/-- `ReadFull`. -/
def readFull (n : Nat) : ReaderM (List UInt8) := fun b =>
  match b.err with
  | some e => .error e b
  | none =>
    if n = 0 then .ok [] b
    else
      let r := ioReadFull n b
      match r.1.2 with
      | some e => .error e r.2
      | none => .ok r.1.1 r.2

end Reader

end Bufio2
end Codis
