/-
# The decoder sees the stream, not its reads

What `Decode` and `DecodeMultiBulk` return, call after call, is a function of
the bytes of the stream, the error it ends with and the size of the reader's
buffer. It does not depend on how the underlying reader splits the stream
into reads (a connection's stream comes in whatever pieces the network
delivers), nor on what a buffer handed to `NewReaderBuffer` held before
(`decode_ignores_reads`).

The decoder calls its reader only through `ReadByte`, `PeekByte`,
`ReadSlice`, `ReadBytes` and `ReadFull`, and a tracked reader answers each
with the plain cursor's reply (`Tracks.replies`). A reader computation whose
outcome, seen on the cursor, is a function of the cursor (`Plain`) is closed
under the decoder's way of putting calls together (`plain_closed`), so every
method of the decoder is `Plain`. Two decoders whose readers stand for the
same cursor (`Twin`) then return the same values and errors, call after call
(`Twin.calls`).

Key definitions: `Plain`, `Twin`.
Key theorems: `plain_closed`, `Twin.run`, `Twin.calls`, `decode_ignores_reads`.
-/
import Codis.Redis.Compose
import Codis.Redis.Stream
import Codis.Bufio2.Refinement

namespace Codis
namespace Redis

open Bufio2 Reader

variable {size : Nat} {last : Err}

/-! ### Computations that see only the cursor -/

/-- A reader computation that keeps a reader tracked and whose outcome, seen
on the cursor, is a function of the cursor. -/
structure Plain (size : Nat) (last : Err) {α : Type} (p : ReaderM α) : Prop where
  tracks : ∀ b, b.Tracks size last → (after (p b)).Tracks size last
  same : ∀ b₁ b₂, b₁.Tracks size last → b₂.Tracks size last → b₁.cursor = b₂.cursor →
    onCursor (p b₁) = onCursor (p b₂)

section Plain

variable {α β : Type}

theorem Plain.of_reply {p : ReaderM α} (R : Cursor → EStateM.Result Err Cursor α)
    (hR : ∀ b, b.Tracks size last → onCursor (p b) = R b.cursor)
    (ht : ∀ b, b.Tracks size last → (after (p b)).Tracks size last) : Plain size last p :=
  ⟨ht, fun b₁ b₂ h₁ h₂ hc => by rw [hR b₁ h₁, hR b₂ h₂, hc]⟩

theorem Plain.bind {x : ReaderM α} {f : α → ReaderM β} (hx : Plain size last x)
    (hf : ∀ a, Plain size last (f a)) : Plain size last (x >>= f) := by
  constructor
  · intro b h
    show Tracks size last (after (EStateM.bind x f b))
    have ht := hx.tracks b h
    unfold EStateM.bind
    split <;> rename_i heq <;> rw [heq] at ht
    · exact (hf _).tracks _ ht
    · exact ht
  · intro b₁ b₂ h₁ h₂ hc
    show onCursor (EStateM.bind x f b₁) = onCursor (EStateM.bind x f b₂)
    have hs := hx.same b₁ b₂ h₁ h₂ hc
    have ht₁ := hx.tracks b₁ h₁
    have ht₂ := hx.tracks b₂ h₂
    unfold EStateM.bind
    rcases hx₁ : x b₁ with ⟨a₁, c₁⟩ | ⟨e₁, c₁⟩ <;> rcases hx₂ : x b₂ with ⟨a₂, c₂⟩ | ⟨e₂, c₂⟩ <;>
      rw [hx₁, hx₂] at hs <;> rw [hx₁] at ht₁ <;> rw [hx₂] at ht₂ <;>
      simp only [onCursor, EStateM.Result.ok.injEq, EStateM.Result.error.injEq] at hs
    case ok.ok =>
      rw [hs.1]
      exact (hf a₂).same c₁ c₂ ht₁ ht₂ hs.2
    case error.error => simp only [onCursor, hs]
    all_goals cases hs

end Plain

/-- `checked` on a reply of `ReadSlice`. -/
def checkedReply (r : (List UInt8 × Option Err) × Cursor) : EStateM.Result Err Cursor (List UInt8) :=
  match r.1.2 with
  | some e => .error e r.2
  | none => .ok r.1.1 r.2

theorem onCursor_checked (f : Reader → (List UInt8 × Option Err) × Reader) (b : Reader) :
    onCursor (checked f b) = checkedReply ((f b).1, (f b).2.cursor) := by
  unfold checked checkedReply
  split <;> rename_i heq <;> simp only [heq] <;> rfl

theorem after_checked (f : Reader → (List UInt8 × Option Err) × Reader) (b : Reader) :
    after (checked f b) = (f b).2 := by
  unfold checked
  split <;> rfl

/-- **Every method of the decoder sees only the cursor**: the reader calls
it makes do, by the plain cursor's replies, and putting calls together keeps
it. -/
theorem plain_closed (hp : last ≠ .bufferFull) : Closed (Plain size last) where
  pure a := .of_reply (fun s => .ok a s) (fun _ _ => rfl) (fun _ h => h)
  throw e := .of_reply (fun s => .error e s) (fun _ _ => rfl) (fun _ h => h)
  bind := Plain.bind
  readByte := .of_reply (Cursor.readByte last) (fun _ h => (h.replies hp).1)
    (fun _ h => (h.step hp .readByte).2)
  peekByte := .of_reply (Cursor.peekByte last) (fun _ h => (h.replies hp).2.1)
    (fun _ h => (h.step hp .peekByte).2)
  readSlice := .of_reply (fun s => checkedReply (Cursor.readSlice size last 10 s))
    (fun _ h => by rw [onCursor_checked, (h.replies hp).2.2.1 10])
    (fun _ h => by rw [after_checked]; exact (h.step hp (.readSlice 10)).2)
  readBytes := .of_reply (Cursor.readBytes last 10) (fun _ h => (h.replies hp).2.2.2.1 10)
    (fun _ h => (h.step hp (.readBytes 10)).2)
  readFull n := .of_reply (Cursor.readFull last n) (fun _ h => (h.replies hp).2.2.2.2 n)
    (fun _ h => (h.step hp (.readFull n)).2)

/-! ### Decoders no call tells apart -/

theorem err_of_cursor {b₁ b₂ : Reader} (h : b₁.cursor = b₂.cursor) : b₁.err = b₂.err := by
  unfold cursor at h
  split at h <;> split at h <;> simp_all

theorem decodeResp_of_err (fuel : Nat) {b : Reader} {e : Err} (he : b.err = some e) :
    decodeResp (fuel + 1) b = .error e b := by
  simp [decodeResp, bind, EStateM.bind, readByte, he]

theorem decodeMultiBulk_of_err (fuel : Nat) {b : Reader} {e : Err} (he : b.err = some e) :
    Redis.decodeMultiBulk fuel b = .error e b := by
  simp [Redis.decodeMultiBulk, bind, EStateM.bind, peekByte, he]

/-- Two decoders with the same sticky error whose readers are tracked and
stand for the same cursor. -/
structure Twin (size : Nat) (last : Err) (d₁ d₂ : Decoder) : Prop where
  err : d₁.err = d₂.err
  tracks₁ : d₁.br.Tracks size last
  tracks₂ : d₂.br.Tracks size last
  cursor : d₁.br.cursor = d₂.br.cursor

variable {d₁ d₂ : Decoder}

/-- The runs of a `Plain` method at each decoder's own fuel have one outcome:
live readers have the same unread bytes and so the same fuel, and on failed
ones the method fails at once. -/
theorem Twin.fuel_same {α : Type} {p : Nat → ReaderM α} (hP : ∀ fuel, Plain size last (p fuel))
    (hf : ∀ fuel {b : Reader} {e : Err}, b.err = some e → p (fuel + 1) b = .error e b)
    (h : Twin size last d₁ d₂) : onCursor (p d₁.fuel d₁.br) = onCursor (p d₂.fuel d₂.br) := by
  have he := err_of_cursor h.cursor
  cases he₁ : d₁.br.err with
  | none =>
    have hc := h.cursor
    rw [cursor_of_none he₁, cursor_of_none (he ▸ he₁)] at hc
    have hfuel : d₁.fuel = d₂.fuel := by rw [Decoder.fuel, Decoder.fuel, Cursor.live.inj hc]
    rw [hfuel]
    exact (hP _).same _ _ h.tracks₁ h.tracks₂ h.cursor
  | some e =>
    rw [Decoder.fuel, Decoder.fuel, hf _ he₁, hf _ (he ▸ he₁)]
    simp only [onCursor, h.cursor]

/-- **One call of a method shaped as `Decode` and `DecodeMultiBulk` are**
(its decoding at the decoder's fuel, with the error kept sticky) returns the
same on twins and leaves twins. -/
theorem Twin.run {α : Type} {m : Decoder → Except Err α × Decoder} {p : Nat → ReaderM α}
    (hm : ∀ d, m d = match d.err with
      | some _ => (.error .failedDecoder, d)
      | none =>
        match p d.fuel d.br with
        | .ok r br => (.ok r, { d with br })
        | .error e br => (.error e, { br, err := some e }))
    (hP : ∀ fuel, Plain size last (p fuel))
    (hf : ∀ fuel {b : Reader} {e : Err}, b.err = some e → p (fuel + 1) b = .error e b)
    (h : Twin size last d₁ d₂) : (m d₁).1 = (m d₂).1 ∧ Twin size last (m d₁).2 (m d₂).2 := by
  have hs := h.fuel_same hP hf
  have ht₁ := (hP d₁.fuel).tracks _ h.tracks₁
  have ht₂ := (hP d₂.fuel).tracks _ h.tracks₂
  rw [hm, hm, ← h.err]
  cases hd : d₁.err with
  | some _ => simp only [hd, true_and]; exact h
  | none =>
    dsimp only
    rcases hx₁ : p d₁.fuel d₁.br with ⟨a₁, c₁⟩ | ⟨e₁, c₁⟩ <;>
      rcases hx₂ : p d₂.fuel d₂.br with ⟨a₂, c₂⟩ | ⟨e₂, c₂⟩ <;>
      rw [hx₁, hx₂] at hs <;> rw [hx₁] at ht₁ <;> rw [hx₂] at ht₂ <;>
      simp only [onCursor, EStateM.Result.ok.injEq, EStateM.Result.error.injEq] at hs
    case ok.ok => exact ⟨by rw [hs.1], ⟨by simp only [h.err], ht₁, ht₂, hs.2⟩⟩
    case error.error => exact ⟨by rw [hs.1], ⟨by rw [hs.1], ht₁, ht₂, hs.2⟩⟩
    all_goals cases hs

theorem Twin.decode (hp : last ≠ .bufferFull) (h : Twin size last d₁ d₂) :
    d₁.decode.1 = d₂.decode.1 ∧ Twin size last d₁.decode.2 d₂.decode.2 :=
  h.run (p := decodeResp)
    (fun d => by
      unfold Decoder.decode
      cases d.err <;> dsimp only
      cases decodeResp d.fuel d.br <;> rfl)
    (plain_closed hp).decodeResp decodeResp_of_err

theorem Twin.decodeMultiBulk (hp : last ≠ .bufferFull) (h : Twin size last d₁ d₂) :
    d₁.decodeMultiBulk.1 = d₂.decodeMultiBulk.1 ∧
      Twin size last d₁.decodeMultiBulk.2 d₂.decodeMultiBulk.2 :=
  h.run (p := Redis.decodeMultiBulk)
    (fun d => by
      unfold Decoder.decodeMultiBulk
      cases d.err <;> dsimp only
      cases Redis.decodeMultiBulk d.fuel d.br <;> rfl)
    (plain_closed hp).decodeMultiBulk fun fuel => decodeMultiBulk_of_err (fuel + 1)

/-- **Twins return the same, call after call.** -/
theorem Twin.calls {α : Type} {m : Decoder → Except Err α × Decoder}
    (hm : ∀ {d₁ d₂ : Decoder}, Twin size last d₁ d₂ → (m d₁).1 = (m d₂).1 ∧ Twin size last (m d₁).2 (m d₂).2) :
    ∀ (n : Nat) {d₁ d₂ : Decoder}, Twin size last d₁ d₂ → (d₁.calls m n).1 = (d₂.calls m n).1
  | 0, _, _, _ => rfl
  | n + 1, _, _, h => by
    simp only [Decoder.calls, (hm h).1, Twin.calls hm n (hm h).2]

/-! ### `NewReaderBuffer` -/

theorem newReaderBuffer_length (rd : Source) (buf : List UInt8) :
    (newReaderBuffer rd buf).buf.length = (newReaderSize rd buf.length).buf.length := by
  by_cases h0 : buf.length = 0 <;> simp [newReaderBuffer, newReaderSize, h0]

theorem newReaderBuffer_tracks {rd : Source} (hrd : rd.Live) (buf : List UInt8) :
    (newReaderBuffer rd buf).Tracks (newReaderBuffer rd buf).buf.length rd.eof := by
  have hpos : 0 < (newReaderBuffer rd buf).buf.length := by
    unfold newReaderBuffer
    split_ifs with h0
    · rw [List.length_replicate]; decide
    · exact Nat.pos_of_ne_zero h0
  exact fun _ => ⟨⟨⟨Nat.le_refl 0, Nat.zero_le _, hpos⟩, rfl, hrd⟩, rfl, rfl⟩

theorem newReaderBuffer_cursor (rd : Source) (buf : List UInt8) :
    (newReaderBuffer rd buf).cursor = .live rd.bytes := by
  simp [cursor_of_none, newReaderBuffer, unread, window, buffered]

/-- **What the decoder returns does not depend on how the stream is read.**
Over two live sources with the same bytes and the same final error (not
`ErrBufferFull`), a decoder made by `NewDecoderBuffer` over `NewReaderBuffer`
with any buffer, whatever it holds, and one made by `NewDecoderSize` with a
buffer of the same length return the same values and errors from `Decode`,
call after call, and from `DecodeMultiBulk`. -/
theorem decode_ignores_reads (src₁ src₂ : Source) (h₁ : src₁.Live) (h₂ : src₂.Live)
    (hb : src₁.bytes = src₂.bytes) (he : src₁.eof = src₂.eof) (hp : src₁.eof ≠ .bufferFull)
    (buf : List UInt8) (n : Nat) :
    ((newDecoderBuffer (newReaderBuffer src₁ buf)).calls Decoder.decode n).1 =
        ((newDecoderSize src₂ buf.length).calls Decoder.decode n).1 ∧
      ((newDecoderBuffer (newReaderBuffer src₁ buf)).calls Decoder.decodeMultiBulk n).1 =
        ((newDecoderSize src₂ buf.length).calls Decoder.decodeMultiBulk n).1 := by
  have h : Twin (newReaderBuffer src₁ buf).buf.length src₁.eof
      (newDecoderBuffer (newReaderBuffer src₁ buf)) (newDecoderSize src₂ buf.length) :=
    ⟨rfl, newReaderBuffer_tracks h₁ buf,
      by rw [newReaderBuffer_length, he]; exact newReaderSize_tracks h₂ _,
      by rw [newDecoderBuffer, newDecoderSize, newReaderBuffer_cursor, newReaderSize_cursor, hb]⟩
  exact ⟨Twin.calls (fun h => h.decode hp) n h, Twin.calls (fun h => h.decodeMultiBulk hp) n h⟩

/-- `+OK` in three reads, and in one read over an 8-byte buffer that held
other bytes. -/
def okInThree : Source := ⟨[[43], [79, 75, 13], [10]], false, .eof⟩

/-- `+OK` in one read. -/
def okInOne : Source := ⟨[[43, 79, 75, 13, 10]], false, .eof⟩

theorem decode_ignores_reads_okInThree :
    okInThree.Live ∧ okInOne.Live ∧ okInThree.bytes = okInOne.bytes ∧ okInThree.eof = okInOne.eof ∧
      okInThree.eof ≠ .bufferFull ∧
      ((newDecoderBuffer (newReaderBuffer okInThree [1, 2, 3, 4, 5, 6, 7, 8])).calls Decoder.decode 2).1 =
        ((newDecoderSize okInOne 8).calls Decoder.decode 2).1 ∧
      ((newDecoderBuffer (newReaderBuffer okInThree [1, 2, 3, 4, 5, 6, 7, 8])).calls
          Decoder.decodeMultiBulk 2).1 =
        ((newDecoderSize okInOne 8).calls Decoder.decodeMultiBulk 2).1 :=
  have h₁ : okInThree.Live := ⟨rfl, by simp [okInThree]⟩
  have h₂ : okInOne.Live := ⟨rfl, by simp [okInOne]⟩
  ⟨h₁, h₂, rfl, rfl, nofun,
    decode_ignores_reads okInThree okInOne h₁ h₂ rfl rfl nofun [1, 2, 3, 4, 5, 6, 7, 8] 2⟩

end Redis
end Codis
