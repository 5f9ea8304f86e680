/-
# The decoder returns only what the bytes denote

Whatever `Decode` returns, the bytes it took from the reader are one frame of
the RESP grammar `Frame`, and the value is that frame's (`decode_sound`).
This holds over every source, every chunking and every buffer size: the
reader lemmas it rests on (`readBytes_ok`, `readSlice_ok`, `readFull_ok`,
`readByte_ok`) assume nothing of the source.

Each method of the decoder is `Sound` for its piece of the grammar: run on a
well-formed reader, its result is derived by the bytes it delivered. The
pieces compose along the `do` blocks, one `ok_of_bind` per bind.

A failed call sets the decoder's sticky error; from then on both entry points
return `ErrFailedDecoder` and change nothing (`decode_failed`,
`decodeMultiBulk_failed`).

Key definitions: `Sound`, `Reach`.
Key theorems: `decodeResp_sound`, `decode_sound`.
-/
import Codis.Bufio2.Cursor
import Codis.Redis.Decoder
import Codis.Redis.Frame

namespace Codis
namespace Redis

open Bufio2 Reader

/-- `p` is sound for the grammar `G`: run on a well-formed reader, whatever it
returns is derived by the bytes it delivered. -/
def Sound {α : Type} (G : List UInt8 → α → Prop) (p : ReaderM α) : Prop :=
  ∀ b x b', b.WF → p b = .ok x b' → ∃ f, G f x ∧ Delivers b f b'

theorem crlf_line {pre : List UInt8}
    (hc : ¬((pre ++ [10]).length < 2 ∨ (pre ++ [10]).getD ((pre ++ [10]).length - 2) 0 ≠ 13)) :
    ∃ q, pre = q ++ [13] ∧ (pre ++ [10]).take ((pre ++ [10]).length - 2) = q := by
  obtain rfl | ⟨q, x, rfl⟩ := List.eq_nil_or_concat pre
  · simp at hc
  · refine ⟨q, ?_, by simp⟩
    simp [List.getD_eq_getElem?_getD, List.getElem?_append_right, List.getElem_append_right] at hc
    simp [hc]

theorem decodeTextBytes_sound : Sound (fun f p => 10 ∉ p ∧ f = p ++ crlf) decodeTextBytes := by
  intro b p b' h hr
  obtain ⟨f, b1, h1, h2⟩ := ok_of_bind hr
  obtain ⟨-, pre, rfl, hp, hd⟩ := readBytes_ok h h1
  split at h2
  · cases h2
  · obtain ⟨q, rfl, hq⟩ := crlf_line ‹_›
    cases h2
    exact ⟨_, ⟨fun hm => hp (by rw [hq] at hm; simp [hm]), by simp [hq, crlf]⟩, hd⟩

/-- The line `decodeInt` reads: bytes `s` that `Btoi64` parses, then CRLF. -/
def IntLine (f : List UInt8) (n : Int) : Prop := ∃ s, btoi64 s = .ok n ∧ f = s ++ crlf

theorem decodeInt_sound : Sound IntLine decodeInt := by
  intro b n b' h hr
  obtain ⟨f, b1, h1, h2⟩ := ok_of_bind hr
  obtain ⟨-, hd, pre, rfl, -⟩ := (readSlice_ok h (checked_ok h1)).1 rfl
  dsimp only at h2
  split at h2
  · cases h2
  · obtain ⟨q, rfl, hq⟩ := crlf_line ‹_›
    rw [hq] at h2
    split at h2
    · cases h2
      exact ⟨_, ⟨q, ‹_›, by simp [crlf]⟩, hd⟩
    · cases h2

/-- A payload read with its CRLF that passes the CRLF check. -/
theorem take_append_crlf {xs : List UInt8} {k : Nat} (hl : xs.length = k + 2)
    (hc : ¬(xs.getD k 0 ≠ 13 ∨ xs.getD (k + 1) 0 ≠ 10)) : xs = xs.take k ++ crlf := by
  obtain ⟨a, c, hac⟩ := List.length_eq_two.1 (show (xs.drop k).length = 2 by simp [hl])
  have ha : xs[k]? = some a := by rw [← Nat.add_zero k, ← List.getElem?_drop, hac]; rfl
  have hc' : xs[k + 1]? = some c := by rw [← List.getElem?_drop, hac]; rfl
  simp only [List.getD_eq_getElem?_getD, ha, hc', Option.getD_some, not_or, not_not] at hc
  conv_lhs => rw [← List.take_append_drop k xs]
  rw [hac, hc.1, hc.2]
  rfl

theorem decodeBulkBytes_sound :
    Sound (fun f p => Frame (36 :: f) (.bulkBytes p)) decodeBulkBytes := by
  intro b p b' h hr
  obtain ⟨n, b1, h1, h2⟩ := ok_of_bind hr
  obtain ⟨f1, ⟨s, hs, rfl⟩, hd1⟩ := decodeInt_sound b n b1 h h1
  dsimp only at h2
  split at h2
  · cases h2
  split at h2
  · cases h2
  split at h2
  · cases h2
    subst n
    exact ⟨_, .nullBulk s hs, hd1⟩
  rename_i hneg hmax hm1
  simp only [pure_bind] at h2
  obtain ⟨xs, b2, h3, h4⟩ := ok_of_bind h2
  obtain ⟨hl, hd2⟩ := readFull_ok hd1.wf h3
  split at h4
  · cases h4
  cases h4
  have hxs := take_append_crlf hl ‹_›
  have hp : ((xs.take n.toNat).length : Int) = n := by simp [hl]; omega
  refine ⟨s ++ crlf ++ xs.take n.toNat ++ crlf, .bulk s _ (by rw [hp]; exact hs) (by rw [hp]; omega), ?_⟩
  simpa [← hxs] using hd1.trans hd2

/-- The elements of an array, each sound for `Frame`. -/
theorem decodeArrayItems_sound {elem : ReaderM Resp} (he : Sound Frame elem) :
    ∀ k, Sound (fun f rs => Frames f rs ∧ rs.length = k) (decodeArrayItems elem k)
  | 0 => fun b rs b' h hr => by cases hr; exact ⟨[], ⟨.nil, rfl⟩, .refl h⟩
  | k + 1 => fun b rs b' h hr => by
    obtain ⟨r, b1, h1, h2⟩ := ok_of_bind hr
    obtain ⟨rs', b2, h3, h4⟩ := ok_of_bind h2
    cases h4
    obtain ⟨f1, hf1, hd1⟩ := he b r b1 h h1
    obtain ⟨f2, ⟨hf2, hl⟩, hd2⟩ := decodeArrayItems_sound he k b1 rs' _ hd1.wf h3
    exact ⟨f1 ++ f2, ⟨.cons hf1 hf2, by simp [hl]⟩, hd1.trans hd2⟩

theorem decodeArray_sound {elem : ReaderM Resp} (he : Sound Frame elem) :
    Sound (fun f rs => Frame (42 :: f) (.array rs)) (decodeArray elem) := by
  intro b rs b' h hr
  obtain ⟨n, b1, h1, h2⟩ := ok_of_bind hr
  obtain ⟨f1, ⟨s, hs, rfl⟩, hd1⟩ := decodeInt_sound b n b1 h h1
  dsimp only at h2
  split at h2
  · cases h2
  split at h2
  · cases h2
  split at h2
  · cases h2
    subst n
    exact ⟨_, .nullArray s hs, hd1⟩
  rename_i hneg hmax hm1
  simp only [pure_bind] at h2
  obtain ⟨rs', b2, h3, h4⟩ := ok_of_bind h2
  cases h4
  obtain ⟨f2, ⟨hf2, hl⟩, hd2⟩ := decodeArrayItems_sound he n.toNat b1 rs' _ hd1.wf h3
  have hn : (rs'.length : Int) = n := by omega
  exact ⟨s ++ crlf ++ f2, .array s f2 rs' (by rw [hn]; exact hs) (by rw [hn]; omega) hf2,
    by simpa using hd1.trans hd2⟩

/-- **`decodeResp` is sound for the RESP grammar**, at every fuel. -/
theorem decodeResp_sound : ∀ fuel, Sound Frame (decodeResp fuel)
  | 0 => fun _ _ _ _ hr => by cases hr
  | fuel + 1 => fun b r b' h hr => by
    obtain ⟨t, b1, h1, h2⟩ := ok_of_bind hr
    obtain ⟨-, hd1⟩ := readByte_ok h h1
    split at h2
    all_goals first
      | cases h2
      | obtain ⟨x, b2, h3, h4⟩ := ok_of_bind h2; cases h4
    · obtain ⟨f, ⟨hp, rfl⟩, hd2⟩ := decodeTextBytes_sound b1 x _ hd1.wf h3
      exact ⟨_, .string x hp, hd1.trans hd2⟩
    · obtain ⟨f, ⟨hp, rfl⟩, hd2⟩ := decodeTextBytes_sound b1 x _ hd1.wf h3
      exact ⟨_, .error x hp, hd1.trans hd2⟩
    · obtain ⟨f, ⟨hp, rfl⟩, hd2⟩ := decodeTextBytes_sound b1 x _ hd1.wf h3
      exact ⟨_, .int x hp, hd1.trans hd2⟩
    · obtain ⟨f, hf, hd2⟩ := decodeBulkBytes_sound b1 x _ hd1.wf h3
      exact ⟨_, hf, hd1.trans hd2⟩
    · obtain ⟨f, hf, hd2⟩ := decodeArray_sound (decodeResp_sound fuel) b1 x _ hd1.wf h3
      exact ⟨_, hf, hd1.trans hd2⟩

/-! ### `DecodeMultiBulk` -/

/-- What `DecodeMultiBulk` takes from the stream: `*`, a positive length and
that many frames, all bulks; or, after any other first byte, one line through
CRLF that splits into at least one word. -/
inductive MultiBulk : List UInt8 → List Resp → Prop
  | array (s bs : List UInt8) (rs : List Resp) : btoi64 s = .ok rs.length → 0 < rs.length →
      (rs.length : Int) ≤ maxArrayLen → Frames bs rs → (∀ r ∈ rs, r.isBulkBytes) →
      MultiBulk (42 :: s ++ crlf ++ bs) rs
  | inline (p : List UInt8) : 10 ∉ p → (p ++ crlf).headD 0 ≠ 42 →
      singleLineLoop p (p.length + 1) 0 0 [] ≠ [] →
      MultiBulk (p ++ crlf) (singleLineLoop p (p.length + 1) 0 0 [])

theorem decodeMultiBulkItems_sound {elem : ReaderM Resp} (he : Sound Frame elem) :
    ∀ k, Sound (fun f rs => Frames f rs ∧ rs.length = k ∧ ∀ r ∈ rs, r.isBulkBytes)
      (decodeMultiBulkItems elem k)
  | 0 => fun b rs b' h hr => by cases hr; exact ⟨[], ⟨.nil, rfl, by simp⟩, .refl h⟩
  | k + 1 => fun b rs b' h hr => by
    obtain ⟨r, b1, h1, h2⟩ := ok_of_bind hr
    obtain ⟨f1, hf1, hd1⟩ := he b r b1 h h1
    dsimp only at h2
    split at h2
    · cases h2
    rename_i hbulk
    simp only [pure_bind] at h2
    obtain ⟨rs', b2, h3, h4⟩ := ok_of_bind h2
    cases h4
    obtain ⟨f2, ⟨hf2, hl, hb⟩, hd2⟩ := decodeMultiBulkItems_sound he k b1 rs' _ hd1.wf h3
    refine ⟨f1 ++ f2, ⟨.cons hf1 hf2, by simp [hl], ?_⟩, hd1.trans hd2⟩
    simp only [List.mem_cons, forall_eq_or_imp]
    exact ⟨by simpa using hbulk, hb⟩

theorem decodeSingleLineMultiBulk_sound {t : UInt8} (ht : t ≠ 42) :
    ∀ b m b', b.WF → (∃ rest, b.unread = t :: rest) → decodeSingleLineMultiBulk b = .ok m b' →
      ∃ f, MultiBulk f m ∧ Delivers b f b' := by
  intro b m b' h ⟨rest, hu⟩ hr
  obtain ⟨p, b1, h1, h2⟩ := ok_of_bind hr
  obtain ⟨f, ⟨hp, rfl⟩, hd⟩ := decodeTextBytes_sound b p b1 h h1
  dsimp only at h2
  split at h2
  · cases h2
  rename_i hne
  cases h2
  have hhead : (p ++ crlf).headD 0 = t := by
    have := hd.unread
    rw [hu] at this
    cases p <;> simp_all [crlf]
  exact ⟨_, .inline p hp (hhead ▸ ht) (by simpa using hne), hd⟩

theorem decodeMultiBulk_sound (fuel : Nat) : Sound MultiBulk (decodeMultiBulk fuel) := by
  intro b m b' h hr
  obtain ⟨t, b1, h1, h2⟩ := ok_of_bind hr
  obtain ⟨-, hd1, rest, hu⟩ := peekByte_ok h h1
  split at h2
  · rename_i ht
    obtain ⟨f, hf, hd2⟩ := decodeSingleLineMultiBulk_sound ht b1 m b' hd1.wf
      ⟨rest, by simpa [hu] using hd1.unread.symm⟩ h2
    exact ⟨f, hf, by simpa using hd1.trans hd2⟩
  rename_i ht
  obtain ⟨t', b2, h3, h4⟩ := ok_of_bind h2
  obtain ⟨-, hd2⟩ := readByte_ok hd1.wf h3
  obtain ⟨n, b3, h5, h6⟩ := ok_of_bind h4
  obtain ⟨f1, ⟨s, hs, rfl⟩, hd3⟩ := decodeInt_sound b2 n b3 hd2.wf h5
  dsimp only at h6
  split at h6
  · cases h6
  split at h6
  · cases h6
  rename_i hpos hmax
  simp only [pure_bind] at h6
  obtain ⟨f2, ⟨hf2, hl, hb⟩, hd4⟩ := decodeMultiBulkItems_sound (decodeResp_sound fuel) n.toNat
    b3 m b' hd3.wf h6
  have hn : (m.length : Int) = n := by omega
  have ht' : t' = 42 := by
    have h' := (hd1.trans hd2).unread
    rw [hu] at h'
    simp only [List.nil_append, List.singleton_append, List.cons.injEq] at h'
    rw [← h'.1]; simpa using ht
  subst ht'
  exact ⟨42 :: s ++ crlf ++ f2, .array s f2 m (by rw [hn]; exact hs) (by omega) (by rw [hn]; omega)
    hf2 hb, by simpa using (hd1.trans hd2).trans (hd3.trans hd4)⟩

/-! ### Failed decoders -/

theorem decode_failed {d : Decoder} {e : Err} (h : d.err = some e) :
    d.decode = (.error .failedDecoder, d) := by
  simp [Decoder.decode, h]

theorem decodeMultiBulk_failed {d : Decoder} {e : Err} (h : d.err = some e) :
    d.decodeMultiBulk = (.error .failedDecoder, d) := by
  simp [Decoder.decodeMultiBulk, h]

theorem decode_error_err {d d' : Decoder} {e : Err} (h : d.decode = (.error e, d')) :
    d'.err ≠ none := by
  unfold Decoder.decode at h
  split at h
  · cases h; simp_all
  · split at h <;> cases h; simp

/-- The decoders a decoder reaches through `Decode` and `DecodeMultiBulk` calls. -/
inductive Reach (d : Decoder) : Decoder → Prop
  | refl : Reach d d
  | decode {d' : Decoder} : Reach d d' → Reach d d'.decode.2
  | decodeMultiBulk {d' : Decoder} : Reach d d' → Reach d d'.decodeMultiBulk.2

/-- A failed decoder stays as it is. -/
theorem Reach.eq_of_failed {d d' : Decoder} (h : d.err ≠ none) (hr : Reach d d') : d' = d := by
  induction hr with
  | refl => rfl
  | decode _ ih =>
    subst ih
    obtain ⟨e, he⟩ := Option.ne_none_iff_exists'.mp h
    rw [decode_failed he]
  | decodeMultiBulk _ ih =>
    subst ih
    obtain ⟨e, he⟩ := Option.ne_none_iff_exists'.mp h
    rw [decodeMultiBulk_failed he]

/-- The decoder invariant: a decoder that has not failed has a well-formed
reader. -/
def Decoder.Ok (d : Decoder) : Prop := d.err = none → d.br.WF

theorem decode_ok {d : Decoder} (h : d.Ok) : d.decode.2.Ok := by
  unfold Decoder.decode
  split
  · exact h
  · rename_i he
    split
    · rename_i r br hr
      obtain ⟨_, -, hd⟩ := decodeResp_sound _ _ _ _ (h he) hr
      exact fun _ => hd.wf
    · simp [Decoder.Ok]

theorem decodeMultiBulk_ok {d : Decoder} (h : d.Ok) : d.decodeMultiBulk.2.Ok := by
  unfold Decoder.decodeMultiBulk
  split
  · exact h
  · rename_i he
    split
    · rename_i r br hr
      obtain ⟨_, -, hd⟩ := decodeMultiBulk_sound _ _ _ _ (h he) hr
      exact fun _ => hd.wf
    · simp [Decoder.Ok]

theorem Reach.ok {d d' : Decoder} (h : d.Ok) (hr : Reach d d') : d'.Ok := by
  induction hr with
  | refl => exact h
  | decode _ ih => exact decode_ok ih
  | decodeMultiBulk _ ih => exact decodeMultiBulk_ok ih

theorem newDecoderSize_ok (src : Source) (size : Int) : (newDecoderSize src size).Ok :=
  fun _ => newReaderSize_wf src size

/-- **Soundness of `Decode`.** On a decoder made by `NewDecoderSize` over any
source, after any earlier calls: a value returned without error is the value
of the one frame made of the bytes the call consumed; after an error, every
later `Decode` and `DecodeMultiBulk` returns `ErrFailedDecoder`. -/
theorem decode_sound (src : Source) (size : Int) {d : Decoder}
    (hd : Reach (newDecoderSize src size) d) :
    (∀ r d', d.decode = (.ok r, d') → ∃ f, Frame f r ∧ d.br.unread = f ++ d'.br.unread) ∧
    (∀ e d', d.decode = (.error e, d') → ∀ d'', Reach d' d'' →
      d''.decode = (.error .failedDecoder, d'') ∧
      d''.decodeMultiBulk = (.error .failedDecoder, d'')) := by
  have hok := hd.ok (newDecoderSize_ok src size)
  refine ⟨fun r d' hr => ?_, fun e d' hr d'' h'' => ?_⟩
  · unfold Decoder.decode at hr
    split at hr
    · cases hr
    · rename_i he
      split at hr
      · rename_i r' br hr'
        cases hr
        obtain ⟨f, hf, hd'⟩ := decodeResp_sound _ _ _ _ (hok he) hr'
        exact ⟨f, hf, hd'.unread⟩
      · cases hr
  · have hf := decode_error_err hr
    rw [Reach.eq_of_failed hf h'']
    obtain ⟨e', he'⟩ := Option.ne_none_iff_exists'.mp hf
    exact ⟨decode_failed he', decodeMultiBulk_failed he'⟩

/-- A fresh decoder over `+OK\r\n`. -/
theorem decode_sound_fresh :
    (∀ r d', (newDecoderSize ⟨[[43, 79, 75, 13, 10]], false, .eof⟩ 16).decode = (.ok r, d') →
      ∃ f, Frame f r ∧
        (newDecoderSize ⟨[[43, 79, 75, 13, 10]], false, .eof⟩ 16).br.unread = f ++ d'.br.unread) ∧
    (∀ e d', (newDecoderSize ⟨[[43, 79, 75, 13, 10]], false, .eof⟩ 16).decode = (.error e, d') →
      ∀ d'', Reach d' d'' →
        d''.decode = (.error .failedDecoder, d'') ∧
        d''.decodeMultiBulk = (.error .failedDecoder, d'')) :=
  decode_sound _ 16 .refl

end Redis
end Codis
