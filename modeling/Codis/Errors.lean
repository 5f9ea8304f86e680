/-
# The error values of the proxy's backend path

Go compares these errors by identity (`err != bufio.ErrBufferFull`), so the
model gives each one its own constructor. The ones the source declares keep
their names (`ErrBadCRLFEnd` is `badCRLFEnd`, `ErrBackendConnReset` is
`backendConnReset`); the ones it takes from the standard library (`io.EOF`,
`bufio.ErrBufferFull`, `strconv.ErrRange`) are named after them. `text` is
the message each one prints, which the backend copies into
`backend conn failure, %s`.

`exhausted` is not a Go value: it is what a fuel-driven loop of the model
returns when its fuel runs out, and the entry points give enough fuel that
it is never returned.
-/
import Mathlib.Data.List.Basic

namespace Codis

/-- An `error` value of the modelled code. -/
inductive Err where
  /-- `io.EOF`. -/
  | eof
  | unexpectedEOF
  | noProgress
  | shortWrite
  | bufferFull
  /-- Any other error of an underlying reader, writer or socket, by a number. -/
  | io (code : Nat)
  | badCRLFEnd
  | badArrayLen
  | badArrayLenTooLong
  | badBulkBytesLen
  | badBulkBytesLenTooLong
  | badMultiBulkLen
  | badMultiBulkContent
  | failedDecoder
  /-- `errors.Errorf("bad resp type %s", r.Type)`. -/
  | badRespType (t : UInt8)
  /-- `strconv.ErrSyntax`, wrapped by `strconv.ParseInt`. -/
  | invalidNumber
  /-- `strconv.ErrRange`, wrapped by `strconv.ParseInt`. -/
  | outOfRange
  | backendConnReset
  | requestIsBroken
  /-- `fmt.Errorf("backend conn failure, %s", err)`. -/
  | backendConnFailure (cause : Err)
  | exhausted
  deriving DecidableEq, Repr

namespace Err

/-- The message of each error, as the source (or the standard library) spells it. -/
def text : Err → String
  | eof => "EOF"
  | unexpectedEOF => "unexpected EOF"
  | noProgress => "multiple Read calls return no data or error"
  | shortWrite => "short write"
  | bufferFull => "bufio: buffer full"
  | io _ => "i/o error"
  | badCRLFEnd => "bad CRLF end"
  | badArrayLen => "bad array len"
  | badArrayLenTooLong => "bad array len, too long"
  | badBulkBytesLen => "bad bulk bytes len"
  | badBulkBytesLenTooLong => "bad bulk bytes len, too long"
  | badMultiBulkLen => "bad multi-bulk len"
  | badMultiBulkContent => "bad multi-bulk content, should be bulkbytes"
  | failedDecoder => "use of failed decoder"
  | badRespType _ => "bad resp type"
  | invalidNumber => "invalid syntax"
  | outOfRange => "value out of range"
  | backendConnReset => "backend conn reset"
  | requestIsBroken => "request is broken"
  | backendConnFailure cause => "backend conn failure, " ++ cause.text
  | exhausted => "fuel exhausted"

end Err

end Codis
