/-
# RESP values and `Btoi64`

`Resp` is the decoder's `*Resp` as a sum of its five shapes. A bulk's
`Value` and an array's `Array` can each be `nil`, which Go keeps apart from
an empty slice, so they are `Option`s here. The text shapes keep their raw
bytes; an integer is parsed only by whoever reads it.

`btoi64` is `Btoi64`: a fast path for up to nine bytes of optional sign and
digits, then `strconv.ParseInt(string(b), 10, 64)`, modelled after the
standard library (`parseInt`). Nine digits stay below `10^9`, so the fast
path's `int64` accumulator never wraps and is an `Int` here.

Key definitions: `Resp`, `btoi64`, `parseInt`.
-/
import Codis.Errors
import Mathlib.Algebra.Ring.Int.Defs

namespace Codis
namespace Redis

/-- A decoded RESP frame. -/
inductive Resp where
  | string (value : List UInt8)
  | error (value : List UInt8)
  | int (value : List UInt8)
  | bulkBytes (value : Option (List UInt8))
  | array (array : Option (List Resp))
  deriving Repr

namespace Resp

/-- `IsString`. -/
def isString : Resp → Bool
  | string _ => true
  | _ => false

/-- `IsError`. -/
def isError : Resp → Bool
  | error _ => true
  | _ => false

/-- `IsBulkBytes`. -/
def isBulkBytes : Resp → Bool
  | bulkBytes _ => true
  | _ => false

/-- `Value`: the payload of a text or bulk frame, `nil` for the others. -/
def value : Resp → Option (List UInt8)
  | string v | error v | int v => some v
  | bulkBytes v => v
  | array _ => none

end Resp

/-- `MaxBulkBytesLen`. -/
def maxBulkBytesLen : Int := 1024 * 1024 * 512

/-- `MaxArrayLen`. -/
def maxArrayLen : Int := 1024 * 1024

/-- `'0' <= c && c <= '9'`. -/
def isDigit (c : UInt8) : Bool := 48 ≤ c && c ≤ 57

/-- The loop of `strconv.ParseUint(s, 10, 64)`: a byte that is not a digit
is a syntax error, a digit that takes the value past `2^64 - 1` a range
error. -/
def parseUintLoop : List UInt8 → Nat → Except Err Nat
  | [], n => .ok n
  | c :: cs, n =>
    if isDigit c then
      if 2 ^ 64 ≤ n * 10 + (c - 48).toNat then .error .outOfRange
      else parseUintLoop cs (n * 10 + (c - 48).toNat)
    else .error .invalidNumber

/-- `strconv.ParseInt(s, 10, 64)`: an optional sign, then `ParseUint`, then
the `int64` range. -/
def parseInt (s : List UInt8) : Except Err Int :=
  match s with
  | [] => .error .invalidNumber
  | c :: cs =>
    let neg := c = 45
    let digits := if c = 43 ∨ c = 45 then cs else c :: cs
    match digits with
    | [] => .error .invalidNumber
    | _ :: _ =>
      match parseUintLoop digits 0 with
      | .error e => .error e
      | .ok un =>
        if !neg ∧ 2 ^ 63 ≤ un then .error .outOfRange
        else if neg ∧ 2 ^ 63 < un then .error .outOfRange
        else .ok (if neg then -(un : Int) else un)

/-- The fast path's digit loop: `n = int64(b[i]-'0') + n*10` while `b[i]` is
a digit; the bytes it stops at. -/
def digitLoop : List UInt8 → Int → Int × List UInt8
  | [], n => (n, [])
  | c :: cs, n => if isDigit c then digitLoop cs ((c - 48).toNat + n * 10) else (n, c :: cs)

/-- The fast path of `Btoi64`, for `0 < len(b) < 10`: the sign switch with
its `fallthrough`, then the digit loop, which must reach the end. -/
def btoi64Fast (b : List UInt8) : Option Int :=
  if b.length ≠ 0 ∧ b.length < 10 then
    let neg := b.headD 0 = 45
    let rest := if b.headD 0 = 45 ∨ b.headD 0 = 43 then b.tail else b
    if rest.length ≠ 0 then
      let r := digitLoop rest 0
      if r.2 = [] then some (if neg then -r.1 else r.1) else none
    else none
  else none

/-- `Btoi64`. -/
def btoi64 (b : List UInt8) : Except Err Int :=
  match btoi64Fast b with
  | some n => .ok n
  | none => parseInt b

end Redis
end Codis
