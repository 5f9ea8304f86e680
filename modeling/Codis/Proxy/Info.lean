/-
# The INFO reply of a keepalive callback

A worker in DataStale gets an `INFO` from `KeepAlive`, and the callback
parses the bulk reply: `strings.Split` at LF, each line split at its first
colon (`strings.SplitN(line, ":", 2)`, a line without one is skipped), key
and value trimmed by `strings.TrimSpace`, and stored in a map where a later
line overwrites an earlier one (`infoMap`). The worker recovers unless
`master_link_status` is `down` or `loading` is `1` (`infoRecovers`); a key
that no line sets reads as the empty string.

`strings.TrimSpace` strips Unicode white space, decoded as UTF-8, from both
ends: the six ASCII spaces and the runes U+0085, U+00A0, U+1680,
U+2000..U+200A, U+2028, U+2029, U+202F, U+205F and U+3000. A space rune at an
end of the string is one of these encodings there, so trimming strips them
(`spaceRunes`).

The map is what the code builds; `infoGet_eq_last` says it reads, for each
key, the value of the last line that sets it.

Key definitions: `trimSpace`, `infoPairs`, `infoGet`, `infoRecovers`.
Key theorems: `infoGet_eq_last`.
-/
import Mathlib.Data.List.Basic

namespace Codis
namespace Proxy

/-- The UTF-8 encodings of the runes `unicode.IsSpace` accepts. -/
def spaceRunes : List (List UInt8) :=
  [[9], [10], [11], [12], [13], [32], [0xC2, 0x85], [0xC2, 0xA0], [0xE1, 0x9A, 0x80]] ++
  (List.range 11).map (fun k => [0xE2, 0x80, (0x80 + k).toUInt8]) ++
  [[0xE2, 0x80, 0xA8], [0xE2, 0x80, 0xA9], [0xE2, 0x80, 0xAF], [0xE2, 0x81, 0x9F],
    [0xE3, 0x80, 0x80]]

/-- `strings.TrimLeftFunc(s, unicode.IsSpace)`, one rune per unit of fuel. -/
def trimLeft : Nat → List UInt8 → List UInt8
  | 0, s => s
  | fuel + 1, s =>
    match spaceRunes.find? (fun r => r.isPrefixOf s) with
    | some r => trimLeft fuel (s.drop r.length)
    | none => s

/-- `strings.TrimRightFunc(s, unicode.IsSpace)`, one rune per unit of fuel. -/
def trimRight : Nat → List UInt8 → List UInt8
  | 0, s => s
  | fuel + 1, s =>
    match spaceRunes.find? (fun r => r.isSuffixOf s) with
    | some r => trimRight fuel (s.take (s.length - r.length))
    | none => s

/-- `strings.TrimSpace`. -/
def trimSpace (s : List UInt8) : List UInt8 :=
  let l := trimLeft s.length s
  trimRight l.length l

/-- The `(key, value)` pairs of an INFO reply, in order: each line with a
colon and a key that is not empty after trimming. -/
def infoPairs (v : List UInt8) : List (List UInt8 × List UInt8) :=
  (v.splitOn 10).filterMap fun line =>
    match line.span (· ≠ 58) with
    | (_, []) => none
    | (k, _ :: rest) => if trimSpace k = [] then none else some (trimSpace k, trimSpace rest)

/-- The callback's `info` map: each pair stored in turn, a later one
overwriting an earlier one; an absent key reads as `""`. -/
def infoMap (v : List UInt8) : List UInt8 → List UInt8 :=
  (infoPairs v).foldl (fun m kv => fun k => if k = kv.1 then kv.2 else m k) fun _ => []

/-- `info[key]`. -/
def infoGet (v : List UInt8) (key : List UInt8) : List UInt8 := infoMap v key

/-- `master_link_status`. -/
def masterLinkStatus : List UInt8 :=
  [109, 97, 115, 116, 101, 114, 95, 108, 105, 110, 107, 95, 115, 116, 97, 116, 117, 115]

/-- `loading`. -/
def loadingKey : List UInt8 := [108, 111, 97, 100, 105, 110, 103]

/-- Whether the callback moves the worker from DataStale back to Connected:
`master_link_status` is not `down` and `loading` is not `1`. -/
def infoRecovers (v : List UInt8) : Bool :=
  infoGet v masterLinkStatus != [100, 111, 119, 110] && infoGet v loadingKey != [49]

/-- The map built over `ps` from `m`. -/
theorem foldl_store (ps : List (List UInt8 × List UInt8)) (m : List UInt8 → List UInt8)
    (key : List UInt8) :
    (ps.foldl (fun m kv => fun k => if k = kv.1 then kv.2 else m k) m) key =
      ((ps.reverse.find? (·.1 = key)).map Prod.snd).getD (m key) := by
  induction ps generalizing m with
  | nil => simp
  | cons kv ps ih =>
    rw [List.foldl_cons, ih, List.reverse_cons, List.find?_append]
    by_cases h : kv.1 = key
    · cases hf : ps.reverse.find? (·.1 = key) <;> simp [h]
    · cases hf : ps.reverse.find? (·.1 = key) <;> simp [h, Ne.symm h]

/-- **The map reads the last line that sets a key.** -/
theorem infoGet_eq_last (v key : List UInt8) :
    infoGet v key = (((infoPairs v).reverse.find? (·.1 = key)).map Prod.snd).getD [] :=
  foldl_store _ _ key

end Proxy
end Codis
