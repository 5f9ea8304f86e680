/-
# What the reader hands out over a run

A call hands its caller bytes: `Read` its `p[:n]` (also when an error comes
with them), `ReadSlice` its slice (also a full buffer with `ErrBufferFull`),
`ReadByte`, `ReadBytes` and `ReadFull` what they return without an error;
`PeekByte` leaves its byte unread and hands out nothing (`given`). Over any
sequence of calls the reader hands out a prefix of the stream, in order:
no byte is made up, repeated or skipped; and while no error is set it has
handed out exactly the stream minus what is still unread (`output_spec`).

Bytes are lost only together with a failure: `fill` drops the bytes of a
read that came with an error (`fill_error_drops`), `ReadBytes` drops the
full buffers it had collected when the next `ReadSlice` fails, and
`ReadFull` what `io.ReadFull` had read. Each of these sets the sticky error,
and a failed reader hands out nothing more (`output_of_err`).

This needs a source whose error is a real one (`Source.Plain`): after
`bufio.ErrBufferFull` from the source, `ReadBytes` never returns.

Key definitions: `Reader.given`, `Reader.output`.
Key theorems: `Reader.call_delivers`, `Reader.output_spec`, `Reader.hands_out_in_order`.
-/
import Codis.Redis.Termination

namespace Codis
namespace Bufio2
namespace Reader

variable {b b' : Reader}

/-- What a `ReaderM` call hands its caller: `f a` for a result `a`, nothing
with an error. -/
def handed {α : Type} (f : α → List UInt8) : EStateM.Result Err Reader α → List UInt8
  | .ok a _ => f a
  | .error _ _ => []

/-- The bytes one call hands its caller. -/
def given (b : Reader) : Call → List UInt8
  | .read m => (b.read m).1.1
  | .readByte => handed (fun x => [x]) (readByte b)
  | .peekByte => []
  | .readSlice delim => (b.readSlice delim).1.1
  | .readBytes delim => handed id (readBytes delim b)
  | .readFull n => handed id (readFull n b)

/-- The bytes a sequence of calls hands out, in order. -/
def output (b : Reader) : List Call → List UInt8
  | [] => []
  | c :: cs => b.given c ++ (b.call c).output cs

theorem Delivers.front {f : List UInt8} (h : Delivers b f b') : f <+: b.unread :=
  ⟨b'.unread, h.unread.symm⟩

/-! ### A failed call sets the sticky error -/

theorem readByte_error {e : Err} (h : readByte b = .error e b') : b'.err = some e := by
  unfold readByte at h
  split at h
  · cases h; assumption
  · dsimp only at h
    split at h
    · cases h; assumption
    · cases h

theorem peekByte_error {e : Err} (h : peekByte b = .error e b') : b'.err = some e := by
  unfold peekByte at h
  split at h
  · cases h; assumption
  · dsimp only at h
    split at h
    · cases h; assumption
    · cases h

/-- `ReadSlice`'s loop fails with nothing and the sticky error set, or runs
out of fuel; or it hands out a full buffer with `ErrBufferFull`. -/
theorem readSliceLoop_error {delim : UInt8} {f : List UInt8} {e : Err} :
    ∀ {fuel : Nat} {b : Reader}, b.err = none →
      readSliceLoop delim fuel b = ((f, some e), b') →
      f = [] ∧ (e = .exhausted ∨ b'.err = some e) ∨ e = .bufferFull ∧ b'.err = none
  | 0, _, _, h => by cases h; exact .inl ⟨rfl, .inl rfl⟩
  | fuel + 1, b, he, h => by
    unfold readSliceLoop at h
    split at h
    · cases h
    · split at h
      · cases h; exact .inr ⟨rfl, he⟩
      · dsimp only at h
        split at h
        · cases h; exact .inl ⟨rfl, .inr ‹_›⟩
        · exact readSliceLoop_error ‹_› h

theorem readSlice_error {delim : UInt8} {f : List UInt8} {e : Err}
    (h : b.readSlice delim = ((f, some e), b')) :
    f = [] ∧ (e = .exhausted ∨ b'.err = some e) ∨ e = .bufferFull ∧ b'.err = none := by
  unfold readSlice at h
  split at h
  · cases h; exact .inl ⟨rfl, .inr ‹_›⟩
  · exact readSliceLoop_error ‹_› h

/-- `ReadBytes` fails only with the sticky error set, or out of fuel. -/
theorem readBytesLoop_error {delim : UInt8} {e : Err} :
    ∀ {fuel : Nat} {acc : List UInt8} {b : Reader},
      readBytesLoop delim fuel acc b = .error e b' → e = .exhausted ∨ b'.err ≠ none
  | 0, _, _, h => by cases h; exact .inl rfl
  | fuel + 1, acc, b, h => by
    unfold readBytesLoop at h
    dsimp only at h
    generalize hq : b.readSlice delim = q at h
    obtain ⟨⟨g, e'⟩, b₁⟩ := q
    dsimp only at h
    split at h
    · cases h
    · exact readBytesLoop_error h
    · simp only [EStateM.Result.error.injEq] at h
      obtain ⟨rfl, rfl⟩ := h
      cases hb : b₁.err with
      | some x => exact .inr nofun
      | none =>
        rcases readSlice_error hq with ⟨-, hx | hx⟩ | ⟨hx, -⟩
        · exact .inl (by simp [hx])
        · rw [hb] at hx; cases hx
        · subst hx; contradiction

/-- `io.ReadFull`'s loop fails with the error its last `Read` left, or out
of fuel. -/
theorem readAtLeastLoop_error {min : Nat} {f : List UInt8} {e : Err} :
    ∀ {fuel : Nat} {acc : List UInt8} {b : Reader},
      readAtLeastLoop min fuel acc b = ((f, some e), b') → e = .exhausted ∨ b'.err = some e
  | 0, _, _, h => by cases h; exact .inl rfl
  | fuel + 1, acc, b, h => by
    unfold readAtLeastLoop at h
    split at h
    · cases h
    · dsimp only at h
      have herr := read_err b (min - acc.length)
      generalize b.read (min - acc.length) = q at h herr
      obtain ⟨⟨d, e'⟩, b₁⟩ := q
      dsimp only at h herr
      split at h
      · exact readAtLeastLoop_error h
      · cases h
        exact .inr (herr.resolve_left nofun).symm

theorem readFull_error {n : Nat} {e : Err} (h : readFull n b = .error e b') :
    e = .exhausted ∨ b'.err ≠ none := by
  unfold readFull at h
  split at h
  · cases h; exact .inr (by simp [*])
  · split at h
    · cases h
    · unfold ioReadFull at h
      generalize hq : readAtLeastLoop n (n + b.rd.chunks.length + 1) [] b = q at h
      obtain ⟨⟨f, e'⟩, b₁⟩ := q
      dsimp only at h
      by_cases h1 : n ≤ f.length
      · simp [h1] at h
      · by_cases h2 : 0 < f.length ∧ e' = some .eof
        · rw [if_neg h1, if_pos h2] at h
          cases h
          rw [h2.2] at hq
          rcases readAtLeastLoop_error hq with hx | hx
          · cases hx
          · exact .inr (by simp [hx])
        · rw [if_neg h1, if_neg h2] at h
          cases e' with
          | none => cases h
          | some e' =>
            cases h
            rcases readAtLeastLoop_error hq with hx | hx
            · exact .inl hx
            · exact .inr (by simp [hx])

/-! ### One call -/

/-- A call on a failed reader hands out nothing. -/
theorem given_of_err {e : Err} (he : b.err = some e) : ∀ c : Call, b.given c = []
  | .read m => by simp [given, read, he]
  | .readByte => by simp [given, readByte, he, handed]
  | .peekByte => rfl
  | .readSlice delim => by simp [given, readSlice, he]
  | .readBytes delim => by
    simp only [given]
    cases h : readBytes delim b with
    | ok f b₁ => exact absurd h (readBytesLoop_fail he)
    | error => rfl
  | .readFull n => by simp [given, readFull, he, handed]

/-- **Whatever a call hands out is the front of the unread bytes**, on every
source: nothing is made up or taken out of order, even when an error comes
with it. -/
theorem given_front (h : b.WF) : ∀ c : Call, b.given c <+: b.unread
  | .read m => by
    by_cases hd : (b.read m).1.1 = []
    · rw [given, hd]; exact List.nil_prefix
    · exact (read_ok h rfl (.inr hd)).1.front
  | .readByte => by
    simp only [given]
    cases hr : readByte b with
    | ok x b₁ => exact (readByte_ok h hr).2.front
    | error => exact List.nil_prefix
  | .peekByte => List.nil_prefix
  | .readSlice delim => by
    simp only [given]
    generalize hq : b.readSlice delim = q
    obtain ⟨⟨f, e⟩, b₁⟩ := q
    cases e with
    | none => exact ((readSlice_ok h hq).1 rfl).2.1.front
    | some e =>
      rcases readSlice_error hq with ⟨rfl, -⟩ | ⟨rfl, hb⟩
      · exact List.nil_prefix
      · exact ((readSlice_ok h hq).2 rfl hb).1.front
  | .readBytes delim => by
    simp only [given]
    cases hr : readBytes delim b with
    | ok f b₁ => obtain ⟨-, -, -, -, hd⟩ := readBytes_ok h hr; exact hd.front
    | error => exact List.nil_prefix
  | .readFull n => by
    simp only [given]
    cases hr : readFull n b with
    | ok xs b₁ => exact (readFull_ok h hr).2.front
    | error => exact List.nil_prefix

theorem call_sane (h : b.Sane) (c : Call) : (b.call c).Sane := ((call_moves h.wf c).sane h).1

/-- **A call that leaves no error hands out exactly what it consumed**: the
reader's unread bytes are what it handed out followed by what is left. -/
theorem call_delivers (h : b.Sane) :
    ∀ c : Call, (b.call c).err = none → Delivers b (b.given c) (b.call c)
  | .read m, hc => by
    have hn : (b.read m).1.2 = none := (read_err b m).elim id (·.trans hc)
    exact (read_ok h.wf rfl (.inl hn)).1
  | .readByte, hc => by
    simp only [call, given] at hc ⊢
    cases hr : readByte b with
    | ok x b₁ => exact (readByte_ok h.wf hr).2
    | error e b₁ => rw [hr] at hc; simp [after, readByte_error hr] at hc
  | .peekByte, hc => by
    simp only [call, given] at hc ⊢
    cases hr : peekByte b with
    | ok x b₁ => exact (peekByte_ok h.wf hr).2.1
    | error e b₁ => rw [hr] at hc; simp [after, peekByte_error hr] at hc
  | .readSlice delim, hc => by
    simp only [call, given] at hc ⊢
    have hend := readSlice_ends h delim
    generalize hq : b.readSlice delim = q at hc hend ⊢
    obtain ⟨⟨f, e⟩, b₁⟩ := q
    cases e with
    | none => exact ((readSlice_ok h.wf hq).1 rfl).2.1
    | some e =>
      rcases readSlice_error hq with ⟨-, hx | hx⟩ | ⟨rfl, hb⟩
      · exact absurd (congrArg some hx) hend.1
      · rw [hx] at hc; cases hc
      · exact ((readSlice_ok h.wf hq).2 rfl hb).1
  | .readBytes delim, hc => by
    simp only [call, given] at hc ⊢
    have hend : Ends (readBytes delim b) := readBytesLoop_ends _ _ h (Nat.lt_succ_self _)
    cases hr : readBytes delim b with
    | ok f b₁ =>
      obtain ⟨-, -, -, -, hd⟩ := readBytes_ok h.wf hr
      exact hd
    | error e b₁ =>
      rw [hr] at hc hend
      rcases readBytesLoop_error hr with hx | hx
      · exact absurd hx hend.1
      · exact absurd hc hx
  | .readFull n, hc => by
    simp only [call, given] at hc ⊢
    have hend := readFull_ends h n
    cases hr : readFull n b with
    | ok xs b₁ => exact (readFull_ok h.wf hr).2
    | error e b₁ =>
      rw [hr] at hc hend
      rcases readFull_error hr with hx | hx
      · exact absurd hx hend.1
      · exact absurd hc hx

/-! ### A run of calls -/

theorem output_of_err {e : Err} (he : b.err = some e) : ∀ cs : List Call, b.output cs = []
  | [] => rfl
  | c :: cs => by rw [output, given_of_err he, call_of_err he, output_of_err he cs]; rfl

/-- **The reader hands out a prefix of its unread bytes, in order**, over
any sequence of calls; and while it has not failed, what it handed out
followed by what is still unread is all of them. -/
theorem output_spec : ∀ (cs : List Call) {b : Reader}, b.Sane →
    b.output cs <+: b.unread ∧ ((b.run cs).err = none → b.unread = b.output cs ++ (b.run cs).unread)
  | [], _, _ => ⟨⟨_, rfl⟩, fun _ => rfl⟩
  | c :: cs, b, h => by
    obtain ⟨ih1, ih2⟩ := output_spec cs (call_sane h c)
    simp only [output, run]
    cases hc : (b.call c).err with
    | none =>
      rw [(call_delivers h c hc).unread, List.append_assoc]
      exact ⟨by simpa using ih1, fun hr => by rw [ih2 hr]⟩
    | some e =>
      rw [output_of_err hc, run_of_err hc, List.append_nil, hc]
      exact ⟨given_front h.wf c, nofun⟩

/-- **A reader made by `NewReaderSize` hands out a prefix of the stream**,
over every source whose error is a real one (its last chunk may come with
the error), every buffer size and every sequence of calls; while it has not
failed, it has handed out all of the stream but what it still holds or has
not read. -/
theorem hands_out_in_order (rd : Source) (hrd : rd.Plain) (size : Int) (cs : List Call) :
    (newReaderSize rd size).output cs <+: rd.bytes ∧
      (((newReaderSize rd size).run cs).err = none →
        rd.bytes = (newReaderSize rd size).output cs ++ ((newReaderSize rd size).run cs).unread) := by
  rw [← newReaderSize_unread rd size]
  exact output_spec cs ⟨newReaderSize_wf rd size, hrd, .inl rfl⟩

/-- The byte that comes with `io.EOF` is lost, and nothing else is handed out. -/
theorem hands_out_in_order_tailChunk :
    Source.Plain ⟨[[97]], true, .eof⟩ ∧
      ((newReaderSize ⟨[[97]], true, .eof⟩ 16).output [.readByte, .read 4] <+: [97] ∧
        (((newReaderSize ⟨[[97]], true, .eof⟩ 16).run [.readByte, .read 4]).err = none →
          [97] = (newReaderSize ⟨[[97]], true, .eof⟩ 16).output [.readByte, .read 4] ++
            ((newReaderSize ⟨[[97]], true, .eof⟩ 16).run [.readByte, .read 4]).unread)) :=
  ⟨⟨nofun, nofun⟩, hands_out_in_order ⟨[[97]], true, .eof⟩ ⟨nofun, nofun⟩ 16 [.readByte, .read 4]⟩

end Reader
end Bufio2
end Codis
