/-
# The decoder terminates

`Decode` and `DecodeMultiBulk` run `decodeResp` on fuel, one unit per level
of nesting, `unread + 1` units in all; the reader's three loops run on fuel
too. None of them runs out (`decode_terminates`). Every level of
`decodeResp` reads its type byte before it recurses, so the unread bytes
bound the depth, whatever `MaxArrayLen` allows (`decodeResp_ends`).
`ReadSlice`'s loop fills at least one byte of free buffer space per round
(`readSliceLoop_ends`), `ReadBytes`' loop consumes a whole buffer per
`ErrBufferFull` (`readBytesLoop_ends`), and each `Read` of `io.ReadFull`
returns a byte, or uses up a chunk, or fails (`read_progress`). A
successful `Decode` consumes at least one byte per value it returns, nested
ones included (`Frame.nodes_le`).

This needs the underlying reader's error to be a real one. `ReadSlice`
returns the sticky error, and `ReadBytes` takes `ErrBufferFull` for a full
buffer: after a reader that fails with `bufio.ErrBufferFull`, `ReadBytes`
loops for ever (`readBytesLoop_spins`), and so does `Decode` of `+`.

`.exhausted` is the model's mark for running out of fuel; no Go error is it,
so a source never returns it.

Key definitions: `Source.Plain`, `Reader.Sane`, `Ends`, `Resp.nodes`.
Key theorems: `readSliceLoop_ends`, `readBytesLoop_ends`,
`readAtLeastLoop_ends`, `decodeResp_ends`, `decode_terminates`.
-/
import Codis.Bufio2.Invariant
import Codis.Redis.Soundness

namespace Codis
namespace Bufio2

namespace Source

/-- A source whose error is a real I/O error: neither `bufio.ErrBufferFull`
nor the model's mark for running out of fuel. -/
def Plain (s : Source) : Prop := s.eof ≠ .bufferFull ∧ s.eof ≠ .exhausted

theorem read_eof (s : Source) (m : Nat) : (s.read m).2.eof = s.eof := by
  unfold read
  split
  · rfl
  · split <;> rfl

/-- A `Read` fails only with the source's error. -/
theorem read_err (s : Source) (m : Nat) : (s.read m).1.2 = none ∨ (s.read m).1.2 = some s.eof := by
  unfold read
  split
  · exact .inr rfl
  · split
    · exact .inl rfl
    · dsimp only
      split
      · exact .inr rfl
      · exact .inl rfl

theorem read_chunks_le (s : Source) (m : Nat) : (s.read m).2.chunks.length ≤ s.chunks.length := by
  unfold read
  split
  · exact Nat.le_refl _
  · rename_i c cs heq
    split <;> simp [heq]

/-- A `Read` of a non-empty slice that does not fail returns a byte, or uses
up a chunk. -/
theorem read_progress (s : Source) {m : Nat} (hm : 0 < m) (he : (s.read m).1.2 = none) :
    (s.read m).1.1 ≠ [] ∨ (s.read m).2.chunks.length < s.chunks.length := by
  revert he
  unfold read
  split
  · intro he; cases he
  · rename_i c cs heq
    split
    · intro _
      left
      intro ht
      have := congrArg List.length ht
      simp only [List.length_take, List.length_nil] at this
      omega
    · intro _
      right
      simp [heq]

end Source

namespace Reader

variable {b b' : Reader}

/-- A reader the methods can leave behind: the invariant, a plain source,
and a sticky error that is none, the source's, or `io.ErrNoProgress`. -/
structure Sane (b : Reader) : Prop where
  wf : b.WF
  plain : b.rd.Plain
  err : b.err = none ∨ b.err = some b.rd.eof ∨ b.err = some .noProgress

theorem Sane.err_ne (h : b.Sane) {e : Err} (he : b.err = some e) :
    e ≠ .exhausted ∧ e ≠ .bufferFull := by
  rcases h.err with h' | h' | h' <;> rw [he] at h'
  · cases h'
  · cases h'; exact ⟨h.plain.2, h.plain.1⟩
  · cases h'; exact ⟨by decide, by decide⟩

/-- What `fill` does to the source and the sticky error: the source keeps
its error and loses chunks, and the error stays, or becomes the source's or
`io.ErrNoProgress`. -/
theorem fill_rd_err (h : b.WF) :
    b.fill.rd.eof = b.rd.eof ∧ b.fill.rd.chunks.length ≤ b.rd.chunks.length ∧
      (b.fill.err = b.err ∨ b.fill.err = some b.rd.eof ∨ b.fill.err = some .noProgress) := by
  obtain ⟨-, -, -, -, hrd, herr⟩ := compact_eq h
  have heof : (b.compact.rd.read (b.compact.buf.length - b.compact.wpos)).2.eof = b.rd.eof := by
    rw [Source.read_eof, hrd]
  have hch : (b.compact.rd.read (b.compact.buf.length - b.compact.wpos)).2.chunks.length ≤
      b.rd.chunks.length := by
    rw [← hrd]; exact Source.read_chunks_le _ _
  have hre : (b.compact.rd.read (b.compact.buf.length - b.compact.wpos)).1.2 = none ∨
      (b.compact.rd.read (b.compact.buf.length - b.compact.wpos)).1.2 = some b.rd.eof := by
    rw [← hrd]; exact Source.read_err _ _
  unfold fill
  split
  · exact ⟨rfl, Nat.le_refl _, .inl rfl⟩
  · dsimp only
    split
    · rename_i e he
      rw [he] at hre
      exact ⟨heof, hch, .inr (.inl (hre.resolve_left nofun))⟩
    · split
      · exact ⟨heof, hch, .inr (.inr rfl)⟩
      · exact ⟨heof, hch, .inl herr⟩

/-- A move keeps a reader sane and loses chunks of its source. -/
theorem Move.sane (hm : Move b b') (h : b.Sane) :
    b'.Sane ∧ b'.rd.chunks.length ≤ b.rd.chunks.length := by
  cases hm with
  | fill =>
    obtain ⟨heof, hch, herr⟩ := fill_rd_err h.wf
    refine ⟨⟨(fill_wf h.wf).1, by unfold Source.Plain; rw [heof]; exact h.plain, ?_⟩, hch⟩
    rw [heof]
    rcases herr with e | e | e
    · rw [e]; exact h.err
    · exact .inr (.inl e)
    · exact .inr (.inr e)
  | advance hk => exact ⟨⟨(unread_advance h.wf hk).2, h.plain, h.err⟩, Nat.le_refl _⟩
  | direct m =>
    refine ⟨⟨⟨h.wf.rpos_le, h.wf.wpos_le, h.wf.buf_pos⟩,
      by unfold Source.Plain; rw [Source.read_eof]; exact h.plain, ?_⟩, Source.read_chunks_le _ _⟩
    dsimp only
    rw [Source.read_eof]
    rcases Source.read_err b.rd m with e | e
    · exact .inl e
    · exact .inr (.inl e)

theorem Moves.sane (hm : Moves b b') (h : b.Sane) :
    b'.Sane ∧ b'.rd.chunks.length ≤ b.rd.chunks.length := by
  induction hm with
  | refl => exact ⟨h, Nat.le_refl _⟩
  | tail _ step ih =>
    obtain ⟨h1, h2⟩ := step.sane ih.1
    exact ⟨h1, h2.trans ih.2⟩

end Reader

/-- A `ReaderM` call that ran to its end: it did not run out of fuel, and
it left a sane reader. -/
def Ends {α : Type} : EStateM.Result Err Reader α → Prop
  | .ok _ b => b.Sane
  | .error e b => e ≠ .exhausted ∧ b.Sane

theorem Ends.bind {α β : Type} {x : ReaderM α} {f : α → ReaderM β} {b : Reader}
    (hx : Ends (x b)) (hf : ∀ a b₁, b₁.Sane → x b = .ok a b₁ → Ends (f a b₁)) :
    Ends ((x >>= f) b) := by
  show Ends (EStateM.bind x f b)
  unfold EStateM.bind
  split
  · rename_i a b₁ heq
    rw [heq] at hx
    exact hf a b₁ hx heq
  · rename_i e b₁ heq
    rw [heq] at hx
    exact hx

theorem Ends.sticky {α : Type} {e : Err} {b : Reader} (h : b.Sane) (he : b.err = some e) :
    Ends (EStateM.Result.error e b : EStateM.Result Err Reader α) :=
  ⟨(h.err_ne he).1, h⟩

theorem Ends.ite {α : Type} {c : Prop} [Decidable c] {x y : ReaderM α}
    {b : Reader} (hx : c → Ends (x b)) (hy : ¬c → Ends (y b)) : Ends ((if c then x else y) b) := by
  by_cases hc : c
  · rw [if_pos hc]; exact hx hc
  · rw [if_neg hc]; exact hy hc

theorem Ends.throw {α β : Type} {e : Err} {f : α → ReaderM β} {b : Reader} (h : b.Sane)
    (he : e ≠ .exhausted) :
    Ends ((throw e >>= f) b) :=
  ⟨he, h⟩

namespace Reader

variable {b : Reader}

/-- **`ReadSlice`'s loop does not run out.** Each round that does not
return fills at least one more byte of the buffer, so `len(buf) -
buffered() + 1` rounds are enough; and it returns `ErrBufferFull` only from
its full-buffer branch, which leaves no sticky error. -/
theorem readSliceLoop_ends {delim : UInt8} :
    ∀ (fuel : Nat) {b : Reader}, b.Sane → b.err = none → b.buf.length - b.buffered < fuel →
      (readSliceLoop delim fuel b).1.2 ≠ some .exhausted ∧
        ((readSliceLoop delim fuel b).1.2 = some .bufferFull →
          (readSliceLoop delim fuel b).2.err = none)
  | 0, _, _, _, hf => absurd hf (Nat.not_lt_zero _)
  | fuel + 1, b, h, he, hf => by
    rcases @readSliceLoop_cases _ delim fuel h.wf with
      ⟨-, hr⟩ | ⟨-, -, -, -, hr⟩ | ⟨-, hroom, -, herr, hok⟩
    · rw [hr]; exact ⟨nofun, nofun⟩
    · rw [hr]; exact ⟨nofun, fun _ => he⟩
    · have hs := ((Move.fill b).sane h).1
      by_cases hc : b.fill.err = none
      · obtain ⟨-, -, hlt, hlen⟩ := fill_ok h.wf he hc
        obtain ⟨-, hw, hl, -⟩ := compact_eq h.wf
        rw [hok hc]
        exact readSliceLoop_ends fuel hs hc (by rw [hw, hl] at hroom; omega)
      · obtain ⟨e, he'⟩ := Option.ne_none_iff_exists'.mp hc
        rw [herr e he']
        have := hs.err_ne he'
        exact ⟨fun h => this.1 (Option.some.inj h), fun h => absurd (Option.some.inj h) this.2⟩

theorem readSlice_ends (h : b.Sane) (delim : UInt8) :
    (b.readSlice delim).1.2 ≠ some .exhausted ∧
      ((b.readSlice delim).1.2 = some .bufferFull → (b.readSlice delim).2.err = none) := by
  unfold readSlice
  split
  · rename_i e he
    have := h.err_ne he
    exact ⟨fun h => this.1 (Option.some.inj h), fun h => absurd (Option.some.inj h) this.2⟩
  · exact readSliceLoop_ends _ h ‹_› (by omega)

/-- **`ReadBytes`' loop does not run out**: each `ErrBufferFull` hands out a
whole buffer, so `unread + 1` rounds are enough. -/
theorem readBytesLoop_ends {delim : UInt8} :
    ∀ (fuel : Nat) (acc : List UInt8) {b : Reader}, b.Sane → b.unread.length < fuel →
      Ends (readBytesLoop delim fuel acc b)
  | 0, _, _, _, hf => absurd hf (Nat.not_lt_zero _)
  | fuel + 1, acc, b, h, hf => by
    have hs := ((readSlice_moves h.wf delim).sane h).1
    have hend := readSlice_ends h delim
    unfold readBytesLoop
    dsimp only
    generalize hq : b.readSlice delim = q at hs hend ⊢
    obtain ⟨⟨f, e⟩, b₁⟩ := q
    dsimp only at hs hend ⊢
    split
    · exact hs
    · obtain ⟨hd, -, hlen⟩ := (readSlice_ok h.wf hq).2 rfl (hend.2 rfl)
      have hu := congrArg List.length hd.unread
      rw [List.length_append] at hu
      exact readBytesLoop_ends fuel _ hs (by have := h.wf.buf_pos; omega)
    · rename_i _ e' _
      refine ⟨?_, hs⟩
      cases hb : b₁.err with
      | none => exact fun hx => hend.1 (congrArg some hx)
      | some x => exact (hs.err_ne hb).1

/-- A `Read` fails only with the error it leaves behind. -/
theorem read_err (b : Reader) (m : Nat) :
    (b.read m).1.2 = none ∨ (b.read m).1.2 = (b.read m).2.err := by
  unfold read
  split
  · rename_i e he; exact .inr he.symm
  · split
    · exact .inl rfl
    · dsimp only
      split
      · exact .inr rfl
      · split
        · rename_i e he; exact .inr he.symm
        · exact .inl rfl

/-- A `Read` of `m > 0` bytes that does not fail returns a byte, or uses up
a chunk of the source. -/
theorem read_progress (h : b.WF) {m : Nat} (hm : 0 < m) (he : (b.read m).1.2 = none) :
    (b.read m).1.1 ≠ [] ∨ (b.read m).2.rd.chunks.length < b.rd.chunks.length := by
  revert he
  unfold read
  split
  · intro he; cases he
  · rename_i he0
    split
    · omega
    · dsimp only
      split
      · exact b.rd.read_progress hm
      · split
        · intro he; cases he
        · rename_i hc
          intro _
          left
          have hp := (fillIfEmpty_ok h he0 hc).2.2.1
          rw [Ne, List.take_eq_nil_iff, not_or, ← List.length_eq_zero,
            window_length ((fillIfEmpty_moves b).wf h)]
          omega

/-- **`io.ReadFull`'s loop does not run out**: each `Read` returns at least
one byte, or uses up a chunk, or fails. -/
theorem readAtLeastLoop_ends (min : Nat) :
    ∀ (fuel : Nat) (acc : List UInt8) {b : Reader}, b.Sane →
      min - acc.length + b.rd.chunks.length < fuel →
      (readAtLeastLoop min fuel acc b).1.2 ≠ some .exhausted
  | 0, _, _, _, hf => absurd hf (Nat.not_lt_zero _)
  | fuel + 1, acc, b, h, hf => by
    unfold readAtLeastLoop
    split
    · exact nofun
    · rename_i hlt
      obtain ⟨hs, hch⟩ := (read_moves b (min - acc.length)).sane h
      have herr := read_err b (min - acc.length)
      have hp := read_progress h.wf (m := min - acc.length) (by omega)
      dsimp only
      generalize hq : b.read (min - acc.length) = q at hs hch herr hp ⊢
      obtain ⟨⟨d, e⟩, b₁⟩ := q
      dsimp only at hs hch herr hp ⊢
      split
      · have hlen := (read_ok h.wf hq (.inl rfl)).2
        apply readAtLeastLoop_ends min fuel _ hs
        rw [List.length_append]
        rcases hp rfl with hd | hd
        · have := List.length_pos.2 hd; omega
        · omega
      · rename_i _ e'
        rcases herr with h1 | h1
        · cases h1
        · exact fun hx => (hs.err_ne h1.symm).1 (Option.some.inj hx)

theorem readFull_ends (h : b.Sane) (n : Nat) : Ends (readFull n b) := by
  have hs := ((readFull_moves h.wf n).sane h).1
  have hloop := readAtLeastLoop_ends n (n + b.rd.chunks.length + 1) [] h (by simp)
  revert hs
  unfold readFull
  split
  · rename_i e he; intro _; exact .sticky h he
  · split
    · exact id
    · unfold ioReadFull
      dsimp only
      generalize readAtLeastLoop n (n + b.rd.chunks.length + 1) [] b = q at hloop ⊢
      obtain ⟨⟨f, e⟩, b₁⟩ := q
      dsimp only at hloop ⊢
      by_cases h1 : n ≤ f.length
      · simp only [h1, ↓reduceIte]; exact id
      · by_cases h2 : 0 < f.length ∧ e = some .eof
        · simp only [h1, h2, ↓reduceIte]; exact fun hs => ⟨by decide, hs⟩
        · simp only [h1, h2, ↓reduceIte]
          cases e with
          | none => exact id
          | some e => exact fun hs => ⟨fun hx => hloop (by rw [hx]), hs⟩

theorem readByte_ends (h : b.Sane) : Ends (readByte b) := by
  have hs := ((readByte_moves h.wf).sane h).1
  revert hs
  unfold readByte
  split
  · rename_i e he; intro _; exact .sticky h he
  · dsimp only
    split
    · rename_i e he; exact fun hs => .sticky hs he
    · exact id

theorem peekByte_ends (h : b.Sane) : Ends (peekByte b) := by
  have hs := ((peekByte_moves (b := b)).sane h).1
  revert hs
  unfold peekByte
  split
  · rename_i e he; intro _; exact .sticky h he
  · dsimp only
    split
    · rename_i e he; exact fun hs => .sticky hs he
    · exact id

/-- `ReadBytes` after the underlying reader failed with `ErrBufferFull`:
`ReadSlice` returns that error at once, every time, and the loop takes it
for a full buffer. At any fuel it is still looping when the fuel runs out:
the Go loop never ends. -/
theorem readBytesLoop_spins {delim : UInt8} (he : b.err = some .bufferFull) :
    ∀ (fuel : Nat) (acc : List UInt8), readBytesLoop delim fuel acc b = .error .exhausted b
  | 0, _ => rfl
  | fuel + 1, acc => by
    have hs : b.readSlice delim = (([], some .bufferFull), b) := by simp [readSlice, he]
    simp only [readBytesLoop, hs]
    exact readBytesLoop_spins he fuel _

end Reader

end Bufio2

namespace Redis

open Bufio2 Reader

/-! ### Each decoding step ends -/

mutual
/-- The values in a RESP value: one per call of `decodeResp` that returns
it. -/
def Resp.nodes : Resp → Nat
  | .string _ | .error _ | .int _ | .bulkBytes _ | .array none => 1
  | .array (some rs) => 1 + Resp.nodesList rs

/-- The values in the elements of an array. -/
def Resp.nodesList : List Resp → Nat
  | [] => 0
  | r :: rs => r.nodes + Resp.nodesList rs
end

variable {b : Reader}

/-- A number is parsed or rejected by `ParseInt`'s own errors. -/
theorem parseUintLoop_error : ∀ {l : List UInt8} {n : Nat} {e : Err},
    parseUintLoop l n = .error e → e = .invalidNumber ∨ e = .outOfRange
  | [], _, _, h => by cases h
  | c :: cs, n, e, h => by
    unfold parseUintLoop at h
    split at h
    · split at h
      · cases h; exact .inr rfl
      · exact parseUintLoop_error h
    · cases h; exact .inl rfl

theorem btoi64_error {s : List UInt8} {e : Err} (h : btoi64 s = .error e) :
    e = .invalidNumber ∨ e = .outOfRange := by
  unfold btoi64 at h
  split at h
  · cases h
  · unfold parseInt at h
    split at h
    · cases h; exact .inl rfl
    · dsimp only at h
      split at h
      · cases h; exact .inl rfl
      · split at h
        · rename_i e' hp; cases h; exact parseUintLoop_error hp
        · split at h
          · cases h; exact .inr rfl
          · split at h
            · cases h; exact .inr rfl
            · cases h

theorem checked_ends {f : Reader → (List UInt8 × Option Err) × Reader}
    (hne : (f b).1.2 ≠ some .exhausted) (hs : (f b).2.Sane) : Ends (checked f b) := by
  unfold checked
  split
  · rename_i e he; exact ⟨fun hx => hne (by rw [he, hx]), hs⟩
  · exact hs

theorem decodeTextBytes_ends (h : b.Sane) : Ends (decodeTextBytes b) :=
  Ends.bind (readBytesLoop_ends _ [] h (Nat.lt_succ_self _)) fun _ _ h₁ _ =>
    Ends.ite (fun _ => .throw h₁ nofun) (fun _ => h₁)

theorem decodeInt_ends (h : b.Sane) : Ends (decodeInt b) := by
  have hs := readSlice_ends h 10
  refine Ends.bind (checked_ends hs.1 ((readSlice_moves h.wf 10).sane h).1) fun _ _ h₁ _ =>
    Ends.ite (fun _ => .throw h₁ nofun) (fun _ => ?_)
  simp only [pure_bind]
  cases hb : btoi64 _ with
  | ok n => exact h₁
  | error e => rcases btoi64_error hb with rfl | rfl <;> exact ⟨nofun, h₁⟩

theorem decodeBulkBytes_ends (h : b.Sane) : Ends (decodeBulkBytes b) := by
  refine Ends.bind (decodeInt_ends h) fun n _ h₁ _ => ?_
  simp only [pure_bind]
  refine Ends.ite (fun _ => .throw h₁ nofun) fun _ => Ends.ite (fun _ => .throw h₁ nofun)
    fun _ => Ends.ite (fun _ => h₁) fun _ =>
      Ends.bind (readFull_ends h₁ _) fun _ _ h₂ _ => ?_
  exact Ends.ite (fun _ => .throw h₂ nofun) (fun _ => h₂)

theorem unread_le_of_sound {α : Type} {G : List UInt8 → α → Prop} {p : ReaderM α} {b₁ : Reader}
    {x : α} (hs : Sound G p) (h : b.WF) (hr : p b = .ok x b₁) :
    b₁.unread.length ≤ b.unread.length := by
  obtain ⟨f, -, hd⟩ := hs b x b₁ h hr
  rw [hd.unread, List.length_append]
  omega

section Items

variable {elem : ReaderM Resp} {N : Nat}
  (he : ∀ b : Reader, b.Sane → b.unread.length ≤ N → Ends (elem b)) (hs : Sound Frame elem)
include he hs

theorem decodeArrayItems_ends :
    ∀ (k : Nat) {b : Reader}, b.Sane → b.unread.length ≤ N → Ends (decodeArrayItems elem k b)
  | 0, _, h, _ => h
  | k + 1, b, h, hN => Ends.bind (he b h hN) fun _ _ h₁ hr =>
    Ends.bind (decodeArrayItems_ends k h₁ ((unread_le_of_sound hs h.wf hr).trans hN))
      fun _ _ h₂ _ => h₂

theorem decodeMultiBulkItems_ends :
    ∀ (k : Nat) {b : Reader}, b.Sane → b.unread.length ≤ N →
      Ends (decodeMultiBulkItems elem k b)
  | 0, _, h, _ => h
  | k + 1, b, h, hN => Ends.bind (he b h hN) fun _ _ h₁ hr => by
    simp only [pure_bind]
    exact Ends.ite (fun _ => .throw h₁ nofun) fun _ =>
      Ends.bind (decodeMultiBulkItems_ends k h₁ ((unread_le_of_sound hs h.wf hr).trans hN))
        fun _ _ h₂ _ => h₂

end Items

theorem decodeArray_ends {elem : ReaderM Resp} (h : b.Sane)
    (he : ∀ b' : Reader, b'.Sane → b'.unread.length ≤ b.unread.length → Ends (elem b'))
    (hs : Sound Frame elem) : Ends (decodeArray elem b) := by
  refine Ends.bind (decodeInt_ends h) fun n b₁ h₁ hr => ?_
  have hN := unread_le_of_sound decodeInt_sound h.wf hr
  simp only [pure_bind]
  exact Ends.ite (fun _ => .throw h₁ nofun) fun _ => Ends.ite (fun _ => .throw h₁ nofun)
    fun _ => Ends.ite (fun _ => h₁) fun _ =>
      Ends.bind (decodeArrayItems_ends he hs _ h₁ hN) fun _ _ h₂ _ => h₂

/-- **`decodeResp` does not run out of fuel** on a sane reader when it has
more fuel than unread bytes: each level reads its type byte before it
recurses. -/
theorem decodeResp_ends :
    ∀ (fuel : Nat) {b : Reader}, b.Sane → b.unread.length < fuel → Ends (decodeResp fuel b)
  | 0, _, _, hf => absurd hf (Nat.not_lt_zero _)
  | fuel + 1, b, h, hf => Ends.bind (readByte_ends h) fun t b₁ h₁ hr => by
    obtain ⟨-, hd⟩ := readByte_ok h.wf hr
    have hlt : b₁.unread.length < fuel := by
      have := congrArg List.length hd.unread
      simp only [List.length_append, List.length_singleton] at this
      omega
    have hpure {α : Type} (x : ReaderM α) (k : α → Resp) (hx : Ends (x b₁)) :
        Ends ((x >>= fun a => pure (k a)) b₁) := Ends.bind hx fun _ _ h₂ _ => h₂
    split
    · exact hpure _ _ (decodeTextBytes_ends h₁)
    · exact hpure _ _ (decodeTextBytes_ends h₁)
    · exact hpure _ _ (decodeTextBytes_ends h₁)
    · exact hpure _ _ (decodeBulkBytes_ends h₁)
    · exact hpure _ _ (decodeArray_ends h₁
        (fun _ h' hN => decodeResp_ends fuel h' (by omega)) (decodeResp_sound fuel))
    · exact ⟨nofun, h₁⟩

theorem decodeMultiBulk_ends (fuel : Nat) (h : b.Sane) (hf : b.unread.length < fuel) :
    Ends (decodeMultiBulk fuel b) := by
  refine Ends.bind (peekByte_ends h) fun t b₁ h₁ hr => ?_
  have hu : b₁.unread = b.unread := (peekByte_ok h.wf hr).2.1.unread.symm
  refine Ends.ite (fun _ => ?_) (fun _ => ?_)
  · refine Ends.bind (decodeTextBytes_ends h₁) fun _ _ h₂ _ => ?_
    exact Ends.ite (fun _ => .throw h₂ nofun) (fun _ => h₂)
  · refine Ends.bind (readByte_ends h₁) fun _ b₂ h₂ hr₂ => ?_
    have hN₂ : b₂.unread.length ≤ b.unread.length := by
      obtain ⟨-, hd₂⟩ := readByte_ok h₁.wf hr₂
      rw [← hu, hd₂.unread, List.length_append]; omega
    refine Ends.bind (decodeInt_ends h₂) fun n b₃ h₃ hr₃ => ?_
    have hN₃ := (unread_le_of_sound decodeInt_sound h₂.wf hr₃).trans hN₂
    simp only [pure_bind]
    exact Ends.ite (fun _ => .throw h₃ nofun) fun _ => Ends.ite (fun _ => .throw h₃ nofun)
      fun _ => decodeMultiBulkItems_ends (fun _ h' hN => decodeResp_ends fuel h' (by omega))
        (decodeResp_sound fuel) _ h₃ hN₃

/-! ### `Decode` and `DecodeMultiBulk` -/

theorem Decoder.decode_ends {d : Decoder} (h : d.br.Sane) :
    d.decode.1 ≠ .error .exhausted ∧ d.decode.2.br.Sane := by
  unfold Decoder.decode
  split
  · exact ⟨nofun, h⟩
  · have hr := decodeResp_ends d.fuel h (Nat.lt_succ_self _)
    split
    · rename_i r br heq
      rw [heq] at hr
      exact ⟨nofun, hr⟩
    · rename_i e br heq
      rw [heq] at hr
      exact ⟨fun hx => hr.1 (Except.error.inj hx), hr.2⟩

theorem Decoder.decodeMultiBulk_ends {d : Decoder} (h : d.br.Sane) :
    d.decodeMultiBulk.1 ≠ .error .exhausted ∧ d.decodeMultiBulk.2.br.Sane := by
  unfold Decoder.decodeMultiBulk
  split
  · exact ⟨nofun, h⟩
  · have hr := Redis.decodeMultiBulk_ends d.fuel h (Nat.lt_succ_self _)
    split
    · rename_i r br heq
      rw [heq] at hr
      exact ⟨nofun, hr⟩
    · rename_i e br heq
      rw [heq] at hr
      exact ⟨fun hx => hr.1 (Except.error.inj hx), hr.2⟩

theorem Reach.sane {d d' : Decoder} (h : d.br.Sane) (hr : Reach d d') : d'.br.Sane := by
  induction hr with
  | refl => exact h
  | decode _ ih => exact (Decoder.decode_ends ih).2
  | decodeMultiBulk _ ih => exact (Decoder.decodeMultiBulk_ends ih).2

/-! ### Values and the bytes they take -/

mutual
/-- A frame takes at least one byte per value in it. -/
theorem Frame.nodes_le : ∀ {f : List UInt8} {r : Resp}, Frame f r → r.nodes ≤ f.length
  | _, _, .string _ _ | _, _, .error _ _ | _, _, .int _ _ | _, _, .nullBulk _ _
  | _, _, .bulk _ _ _ _ | _, _, .nullArray _ _ => by simp [Resp.nodes]
  | _, _, .array _ _ _ _ _ hf => by
    have := Frames.nodes_le hf
    simp only [Resp.nodes, List.length_append, List.length_cons]
    omega

theorem Frames.nodes_le : ∀ {f : List UInt8} {rs : List Resp}, Frames f rs →
    Resp.nodesList rs ≤ f.length
  | _, _, .nil => Nat.le_refl 0
  | _, _, .cons ha hb => by
    have := Frame.nodes_le ha
    have := Frames.nodes_le hb
    simp only [Resp.nodesList, List.length_append]
    omega
end

/-- **`Decode` and `DecodeMultiBulk` terminate.** On a decoder made by
`NewDecoderSize` over any source whose error is not `bufio.ErrBufferFull`,
with any buffer size, after any earlier calls, neither runs out of fuel:
`decodeResp` gets one unit per unread byte and one more, the reader's loops
theirs from the unread bytes, the buffer's size and the source's chunks,
never from `MaxArrayLen`. On every sane reader, `ReadSlice`, `ReadBytes`
and `ReadFull` end. A successful `Decode` consumes at least one byte per
value it returns, nested ones included. -/
theorem decode_terminates (src : Source) (size : Int) (hsrc : src.Plain) {d : Decoder}
    (hd : Reach (newDecoderSize src size) d) :
    d.decode.1 ≠ .error .exhausted ∧ d.decodeMultiBulk.1 ≠ .error .exhausted ∧
    (∀ (b : Reader) (delim : UInt8) (n : Nat), b.Sane →
      (b.readSlice delim).1.2 ≠ some .exhausted ∧ Ends (readBytes delim b) ∧
        Ends (readFull n b)) ∧
    (∀ r d', d.decode = (.ok r, d') → ∃ f, d.br.unread = f ++ d'.br.unread ∧ r.nodes ≤ f.length) := by
  have hs : d.br.Sane := hd.sane ⟨newReaderSize_wf src size, hsrc, .inl rfl⟩
  refine ⟨(Decoder.decode_ends hs).1, (Decoder.decodeMultiBulk_ends hs).1,
    fun b delim n h => ⟨(readSlice_ends h delim).1, readBytesLoop_ends _ [] h (Nat.lt_succ_self _),
      readFull_ends h n⟩, fun r d' hr => ?_⟩
  obtain ⟨f, hf, hu⟩ := (decode_sound src size hd).1 r d' hr
  exact ⟨f, hu, hf.nodes_le⟩

/-- A reply `+OK` from a source that then reports `io.EOF`. -/
def okReply : Source := ⟨[[43, 79, 75, 13, 10]], false, .eof⟩

theorem decode_terminates_okReply :
    okReply.Plain ∧
    ((newDecoderSize okReply 16).decode.1 ≠ .error .exhausted ∧
      (newDecoderSize okReply 16).decodeMultiBulk.1 ≠ .error .exhausted ∧
      (∀ (b : Reader) (delim : UInt8) (n : Nat), b.Sane →
        (b.readSlice delim).1.2 ≠ some .exhausted ∧ Ends (readBytes delim b) ∧
          Ends (readFull n b)) ∧
      (∀ r d', (newDecoderSize okReply 16).decode = (.ok r, d') →
        ∃ f, (newDecoderSize okReply 16).br.unread = f ++ d'.br.unread ∧ r.nodes ≤ f.length)) :=
  have hp : okReply.Plain := ⟨by decide, by decide⟩
  ⟨hp, decode_terminates okReply 16 hp .refl⟩

/-- One `+` from a reader that then fails with `bufio.ErrBufferFull`. -/
def plusThenBufferFull : Decoder := newDecoderSize ⟨[[43]], false, .bufferFull⟩ 16

/-- `Decode` of `+` from a reader that then fails with `ErrBufferFull`
never returns: the model runs out of fuel, and `ReadBytes`' loop, once the
sticky error is `ErrBufferFull`, is still looping at any fuel. -/
theorem decode_spins_on_bufferFull :
    plusThenBufferFull.decode.1 = .error .exhausted ∧
    ∀ (b : Reader), b.err = some .bufferFull →
      ∀ fuel acc, readBytesLoop 10 fuel acc b = .error .exhausted b :=
  ⟨rfl, fun _ he => readBytesLoop_spins he⟩

end Redis
end Codis
