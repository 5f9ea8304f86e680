/-
# The two forms `DecodeMultiBulk` accepts

A request is an array of bulks after a `*`, or, after any other first byte,
an inline command: one line through CRLF, split on spaces.

The inline splitter runs two cursors over the line: `r` walks every byte and
`l` marks where the current word began, so that a space or the end of the
line closes the word `b[l:r]` when it is not empty. It returns the line's
words (`singleLineLoop_eq_words`): the maximal runs of bytes other than a
space, in order, which is `splitOn` without its empty pieces (`words`); it
has none exactly when the line is all spaces (`words_eq_nil_iff`).

On a live source, `DecodeMultiBulk` then accepts exactly the two forms
(`decodeMultiBulk_forms`): what it returns is one of them (`MultiBulk`, from
`decodeMultiBulk_sound`), and it returns every array of bulks whose length
lines fit the buffer, and every inline command, with `ErrBadArrayLen`,
`ErrBadMultiBulkContent` and `ErrBadMultiBulkLen` where the form is broken.
A length line the buffer cannot hold fails with `ErrBufferFull`, however
well formed the request (`multiBulk_bufferFull`).

After a `*`, `DecodeMultiBulk` is `Decode` narrowed to requests
(`decodeMultiBulk_iff_decode`): on every reader it returns an array exactly
when `Decode` would return that array and the array is not empty and holds
only bulks. The two read the count with the same `decodeInt`; they differ in
the check on it (`n <= 0` against `n < -1`, then `n == -1`) and in the check
each element must pass, and a bulk reads the same bytes at every fuel
(`decodeResp_bulk`), so the fuel each gives its elements does not matter.

Key definitions: `words`.
Key theorems: `singleLineLoop_eq_words`, `words_eq_nil_iff`,
`decodeMultiBulk_forms`, `decodeMultiBulk_iff_decode`.
-/
import Codis.Redis.Complete
import Codis.Redis.Soundness
import Mathlib.Data.List.Basic

namespace Codis
namespace Redis

open Bufio2 Reader

/-! ### The words of a line -/

/-- The words of an inline command: the maximal runs of bytes other than a
space, in order. -/
def words (p : List UInt8) : List (List UInt8) := (p.splitOn 32).filter fun w => w ≠ []

theorem words_no_space {u : List UInt8} (hu : 32 ∉ u) : words u = if u = [] then [] else [u] := by
  have hs : u.splitOn 32 = [u] :=
    List.splitOnP_eq_single _ _ fun x hx h32 => hu (beq_iff_eq.1 h32 ▸ hx)
  unfold words
  rw [hs]
  split <;> simp_all

theorem words_space {u : List UInt8} (hu : 32 ∉ u) (v : List UInt8) :
    words (u ++ 32 :: v) = (if u = [] then [] else [u]) ++ words v := by
  have hs : (u ++ 32 :: v).splitOn 32 = u :: v.splitOn 32 :=
    List.splitOnP_first (fun x : UInt8 => x == 32) u (fun x hx h32 => hu (beq_iff_eq.1 h32 ▸ hx)) 32
      (beq_self_eq_true _) v
  unfold words
  rw [hs, List.filter_cons]
  split <;> simp_all

theorem words_cons_ne {c : UInt8} (hc : c ≠ 32) (p : List UInt8) : words (c :: p) ≠ [] := by
  obtain ⟨w, ws, hw⟩ := List.exists_cons_of_ne_nil (List.splitOnP_ne_nil (fun x : UInt8 => x == 32) p)
  simp [words, List.splitOn, hc, hw]

/-- **A line has no word exactly when it is all spaces.** -/
theorem words_eq_nil_iff (p : List UInt8) : words p = [] ↔ ∀ c ∈ p, c = 32 := by
  induction p with
  | nil => simp [words]
  | cons c p ih =>
    by_cases hc : c = 32
    · subst hc
      rw [show words (32 :: p) = words p by simpa using words_space (List.not_mem_nil 32) p, ih]
      simp
    · simp only [List.mem_cons, forall_eq_or_imp, hc, false_and, iff_false]
      exact words_cons_ne hc p

/-- The splitter's loop, from cursors `l ≤ r` with no space in `b[l:r]`:
what it adds is the words of `b[l:]`. -/
theorem singleLineLoop_words (b : List UInt8) : ∀ (k l r : Nat) (multi : List Resp),
    r + k = b.length + 1 → l ≤ r → r ≤ b.length → 32 ∉ (b.drop l).take (r - l) →
    singleLineLoop b k l r multi = multi ++ (words (b.drop l)).map fun w => .bulkBytes (some w)
  | 0, _, _, _, hk, _, hr, _ => by omega
  | k + 1, l, r, multi, hk, hlr, hr, hsp => by
    have hdrop : b.drop l = (b.drop l).take (r - l) ++ b.drop r := by
      conv_lhs => rw [← List.take_append_drop (r - l) (b.drop l)]
      rw [List.drop_drop, Nat.add_sub_cancel' hlr]
    have hempty : (b.drop l).take (r - l) = [] ↔ ¬ l < r := by
      rw [← List.length_eq_zero, List.length_take, List.length_drop]; omega
    have hnext : (b.drop l).take (r + 1 - l) = (b.drop l).take (r - l) ++ b[r]?.toList := by
      rw [show r + 1 - l = r - l + 1 by omega, List.take_succ, List.getElem?_drop,
        Nat.add_sub_cancel' hlr]
    unfold singleLineLoop
    generalize (b.drop l).take (r - l) = u at hdrop hempty hsp hnext ⊢
    have hword : (if l < r then multi ++ [Resp.bulkBytes (some u)] else multi) =
        multi ++ (if u = [] then [] else [u]).map fun w => .bulkBytes (some w) := by
      by_cases hlr' : l < r
      · rw [if_pos hlr', if_neg (by rw [hempty]; omega)]; rfl
      · rw [if_neg hlr', if_pos (by rw [hempty]; omega)]; simp
    by_cases hend : r = b.length
    · -- the end of the line closes the last word, and the loop stops
      obtain rfl : k = 0 := by omega
      rw [if_pos (Or.inl hend), hdrop, hend, List.drop_length, List.append_nil,
        words_no_space hsp, ← hend, ← hword]
      rfl
    have hr' : r < b.length := by omega
    by_cases hsp' : b[r] = 32
    · -- a space closes the word before it; the next one starts after it
      rw [if_pos (Or.inr (by simp [hr', hsp'])),
        singleLineLoop_words b k (r + 1) (r + 1) _ (by omega) le_rfl (by omega) (by simp), hword,
        hdrop, List.drop_eq_getElem_cons hr', hsp', words_space hsp]
      simp
    · -- another byte of the current word
      rw [if_neg (by simp [hend, hr', hsp']),
        singleLineLoop_words b k l (r + 1) multi (by omega) (by omega) hr' ?_]
      rw [hnext, List.getElem?_eq_getElem hr']
      simpa [Ne.symm hsp'] using hsp

/-- **The inline splitter returns the line's words**, one bulk each, in
order. -/
theorem singleLineLoop_eq_words (b : List UInt8) :
    singleLineLoop b (b.length + 1) 0 0 [] = (words b).map fun w => .bulkBytes (some w) := by
  simpa using singleLineLoop_words b (b.length + 1) 0 0 [] (by omega) le_rfl (Nat.zero_le _) (by simp)

/-- `␠GET␠␠k␠`: spaces around and between the words are dropped. -/
example : singleLineLoop [32, 71, 69, 84, 32, 32, 107, 32] 9 0 0 [] =
    [.bulkBytes (some [71, 69, 84]), .bulkBytes (some [107])] := rfl

/-! ### Reading a request -/

variable {size : Nat} {b : Reader}

/-- The inline command: the line's words, or `ErrBadMultiBulkLen` when it
has none. -/
theorem decodeSingleLineMultiBulk_words {p rest : List UInt8} (h : Within size b (p ++ crlf ++ rest))
    (hp : 10 ∉ p) :
    ∃ b', Within size b' rest ∧ decodeSingleLineMultiBulk b =
      if words p = [] then .error .badMultiBulkLen b'
      else .ok ((words p).map fun w => .bulkBytes (some w)) b' := by
  obtain ⟨b', hr, h'⟩ := decodeTextBytes_within h hp
  refine ⟨b', h', ?_⟩
  simp only [decodeSingleLineMultiBulk, bind, EStateM.bind, hr, singleLineLoop_eq_words,
    List.length_map, List.length_eq_zero]
  split <;> rfl

/-- After a first byte other than `*`: the inline command. -/
theorem decodeMultiBulk_inline (fuel : Nat) {p rest : List UInt8}
    (h : Within size b (p ++ crlf ++ rest)) (hp : 10 ∉ p) (ht : (p ++ crlf).headD 0 ≠ 42) :
    ∃ b', Within size b' rest ∧ decodeMultiBulk fuel b =
      if words p = [] then .error .badMultiBulkLen b'
      else .ok ((words p).map fun w => .bulkBytes (some w)) b' := by
  have hu : b.unread = (p ++ crlf).headD 0 :: ((p ++ crlf).tail ++ rest) := by
    rw [h.unread]; cases p <;> rfl
  obtain ⟨b1, hr1, hl1, hu1, hs1⟩ := peekByte_live h.live hu
  obtain ⟨b', h', hr⟩ := decodeSingleLineMultiBulk_words
    (show Within size b1 (p ++ crlf ++ rest) from ⟨hl1, hs1.trans h.len, by rw [hu1, ← hu, h.unread]⟩) hp
  refine ⟨b', h', ?_⟩
  simp only [decodeMultiBulk, bind, EStateM.bind, hr1]
  rw [if_pos ht, hr]

/-- After `*` and a length line the buffer holds: the count's checks, then
that many elements. -/
theorem decodeMultiBulk_star (fuel : Nat) {s rest : List UInt8} {n : Int}
    (h : Within size b (42 :: s ++ crlf ++ rest)) (hn : btoi64 s = .ok n) (hl : s.length + 2 ≤ size) :
    ∃ b', Within size b' rest ∧ decodeMultiBulk fuel b =
      if n ≤ 0 then .error .badArrayLen b'
      else if maxArrayLen < n then .error .badArrayLenTooLong b'
      else decodeMultiBulkItems (decodeResp fuel) n.toNat b' := by
  have hu : b.unread = 42 :: (s ++ crlf ++ rest) := by rw [h.unread]; rfl
  obtain ⟨b1, hr1, hl1, hu1, hs1⟩ := peekByte_live h.live hu
  obtain ⟨b2, hr2, h2⟩ := readByte_within
    (show Within size b1 (42 :: (s ++ crlf ++ rest)) from ⟨hl1, hs1.trans h.len, hu1⟩)
  obtain ⟨b', hr3, h'⟩ := decodeInt_within h2 hn hl
  refine ⟨b', h', ?_⟩
  simp only [decodeMultiBulk, bind, EStateM.bind, hr1, hr2, hr3, ne_eq, not_true_eq_false,
    ↓reduceIte]
  split_ifs <;> rfl

/-- The elements of a request, all bulks, each read by `elem`. -/
theorem decodeMultiBulkItems_bulks {elem : ReaderM Resp} :
    ∀ {rs : List Resp} {bs : List UInt8} {b : Reader} {rest : List UInt8}, FramesIn size bs rs →
      (∀ r ∈ rs, r.isBulkBytes) →
      (∀ {g : List UInt8} {v : Resp} {b' : Reader} {rest' : List UInt8}, FrameIn size g v →
        g.length ≤ bs.length → Within size b' (g ++ rest') →
        ∃ b'', elem b' = .ok v b'' ∧ Within size b'' rest') →
      Within size b (bs ++ rest) →
      ∃ b', decodeMultiBulkItems elem rs.length b = .ok rs b' ∧ Within size b' rest
  | [], _, b, _, .nil, _, _, h => ⟨b, rfl, h⟩
  | r :: _, _, _, rest, .cons ha hbs, hb, hel, h => by
    obtain ⟨b1, hr1, h1⟩ := hel ha (by simp) (by simpa using h)
    obtain ⟨b', hr', h'⟩ := decodeMultiBulkItems_bulks hbs (fun r' hr' => hb r' (by simp [hr']))
      (fun hg hl hw => hel hg (by simp; omega) hw) h1
    have hbulk : r.isBulkBytes = true := hb r (by simp)
    exact ⟨b', by simp [decodeMultiBulkItems, bind, EStateM.bind, hr1, hr', hbulk, pure,
      EStateM.pure], h'⟩

/-- Bulks, then a frame that is not a bulk, among more elements than the
bulks: `ErrBadMultiBulkContent`. -/
theorem decodeMultiBulkItems_content {elem : ReaderM Resp} {f : List UInt8} {v : Resp}
    (hf : FrameIn size f v) (hv : v.isBulkBytes = false) :
    ∀ {rs : List Resp} {bs : List UInt8} {b : Reader} {rest : List UInt8} (n : Nat),
      FramesIn size bs rs → (∀ r ∈ rs, r.isBulkBytes) → rs.length < n →
      (∀ {g : List UInt8} {w : Resp} {b' : Reader} {rest' : List UInt8}, FrameIn size g w →
        g.length ≤ (bs ++ f).length → Within size b' (g ++ rest') →
        ∃ b'', elem b' = .ok w b'' ∧ Within size b'' rest') →
      Within size b (bs ++ f ++ rest) →
      ∃ b', decodeMultiBulkItems elem n b = .error .badMultiBulkContent b'
  | [], _, b, rest, n + 1, .nil, _, _, hel, h => by
    obtain ⟨b1, hr1, -⟩ := hel hf (by simp) (by simpa using h)
    exact ⟨b1, by simp [decodeMultiBulkItems, bind, EStateM.bind, hr1, hv, throw, throwThe,
      MonadExceptOf.throw, EStateM.throw]⟩
  | r :: _, _, _, rest, n + 1, .cons ha hbs, hb, hn, hel, h => by
    obtain ⟨b1, hr1, h1⟩ := hel ha (by simp) (show Within size _ (_ ++ (_ ++ f ++ rest)) by simpa using h)
    obtain ⟨b', hr'⟩ := decodeMultiBulkItems_content hf hv n hbs (fun r' hr' => hb r' (by simp [hr']))
      (by simp at hn; omega) (fun hg hl hw => hel hg (by simp at hl ⊢; omega) hw) h1
    have hbulk : r.isBulkBytes = true := hb r (by simp)
    exact ⟨b', by simp [decodeMultiBulkItems, bind, EStateM.bind, hr1, hr', hbulk, pure,
      EStateM.pure]⟩

/-! ### `DecodeMultiBulk` -/

theorem Decoder.decodeMultiBulk_eq_ok {d : Decoder} (he : d.err = none) {m : List Resp} {br : Reader}
    (h : Redis.decodeMultiBulk d.fuel d.br = .ok m br) :
    d.decodeMultiBulk = (.ok m, { d with br }) := by
  simp [Decoder.decodeMultiBulk, he, h]

theorem Decoder.decodeMultiBulk_eq_error {d : Decoder} (he : d.err = none) {e : Err} {br : Reader}
    (h : Redis.decodeMultiBulk d.fuel d.br = .error e br) :
    d.decodeMultiBulk = (.error e, ⟨br, some e⟩) := by
  simp [Decoder.decodeMultiBulk, he, h]

/-- **`DecodeMultiBulk` accepts exactly its two forms.** On a fresh decoder
over any source, what it returns is an array of bulks or an inline command,
and the bytes it took are that request. Over a live source, conversely, an
array of `N` bulks, `1 ≤ N ≤ MaxArrayLen`, whose length lines fit the buffer,
is returned whole, leaving the rest of the stream; a count of at most 0 is
`ErrBadArrayLen`, and a well-formed element that is not a bulk is
`ErrBadMultiBulkContent`. After any other first byte, a line without LF
returns its words, one bulk each, or `ErrBadMultiBulkLen` when it is all
spaces. -/
theorem decodeMultiBulk_forms (src : Source) (size : Int) :
    (∀ m d', (newDecoderSize src size).decodeMultiBulk = (.ok m, d') →
      ∃ f, MultiBulk f m ∧ src.bytes = f ++ d'.br.unread) ∧
    (src.Live →
    (∀ (s bs t : List UInt8) (rs : List Resp), src.bytes = 42 :: s ++ crlf ++ bs ++ t →
      btoi64 s = .ok rs.length → 0 < rs.length → (rs.length : Int) ≤ maxArrayLen →
      s.length + 2 ≤ (newDecoderSize src size).br.buf.length →
      FramesIn (newDecoderSize src size).br.buf.length bs rs → (∀ r ∈ rs, r.isBulkBytes) →
      ∃ d', (newDecoderSize src size).decodeMultiBulk = (.ok rs, d') ∧ d'.br.unread = t) ∧
    (∀ (s rest : List UInt8) (n : Int), src.bytes = 42 :: s ++ crlf ++ rest →
      btoi64 s = .ok n → n ≤ 0 → s.length + 2 ≤ (newDecoderSize src size).br.buf.length →
      (newDecoderSize src size).decodeMultiBulk.1 = .error .badArrayLen) ∧
    (∀ (s bs f rest : List UInt8) (rs : List Resp) (v : Resp) (n : Int),
      src.bytes = 42 :: s ++ crlf ++ bs ++ f ++ rest → btoi64 s = .ok n → (rs.length : Int) < n →
      n ≤ maxArrayLen → s.length + 2 ≤ (newDecoderSize src size).br.buf.length →
      FramesIn (newDecoderSize src size).br.buf.length bs rs → (∀ r ∈ rs, r.isBulkBytes) →
      FrameIn (newDecoderSize src size).br.buf.length f v → v.isBulkBytes = false →
      (newDecoderSize src size).decodeMultiBulk.1 = .error .badMultiBulkContent) ∧
    (∀ p t : List UInt8, src.bytes = p ++ crlf ++ t → (p ++ crlf).headD 0 ≠ 42 → 10 ∉ p →
      (newDecoderSize src size).decodeMultiBulk.1 =
        (if words p = [] then .error .badMultiBulkLen
          else .ok ((words p).map fun w => .bulkBytes (some w))) ∧
      (words p = [] ↔ ∀ c ∈ p, c = 32))) := by
  generalize hd : newDecoderSize src size = d
  have he : d.err = none := by rw [← hd]; rfl
  have hwf : d.br.WF := by rw [← hd]; exact newReaderSize_wf src size
  have hu : d.br.unread = src.bytes := by rw [← hd]; exact newReaderSize_unread src size
  refine ⟨fun m d' h => ?_, fun hsrc => ?_⟩
  · -- what it returns is a request, over any source
    cases hr : Redis.decodeMultiBulk d.fuel d.br with
    | ok m' br =>
      rw [Decoder.decodeMultiBulk_eq_ok he hr] at h
      obtain ⟨rfl, rfl⟩ : m' = m ∧ { d with br } = d' := by simpa using h
      obtain ⟨f, hf, hdl⟩ := decodeMultiBulk_sound _ _ _ _ hwf hr
      exact ⟨f, hf, by rw [← hu, hdl.unread]⟩
    | error e br => rw [Decoder.decodeMultiBulk_eq_error he hr] at h; cases h
  have hw : ∀ {rest}, src.bytes = rest → Within d.br.buf.length d.br rest := fun hs =>
    ⟨by rw [← hd]; exact newReaderSize_live hsrc size, rfl, hu.trans hs⟩
  have hfuel : d.fuel = src.bytes.length + 1 := by rw [Decoder.fuel, hu]
  -- every element is shorter than the stream, so the fuel reads it
  have hel : ∀ {bs : List UInt8}, bs.length ≤ src.bytes.length →
      ∀ {g : List UInt8} {v : Resp} {b' : Reader} {rest' : List UInt8},
        FrameIn d.br.buf.length g v → g.length ≤ bs.length → Within d.br.buf.length b' (g ++ rest') →
        ∃ b'', decodeResp d.fuel b' = .ok v b'' ∧ Within d.br.buf.length b'' rest' :=
    fun hbs _ _ _ _ hg hl hw' => decodeResp_frameIn d.fuel hg (by omega) hw'
  refine ⟨fun s bs t rs hs hn hpos hmax hl hbs hb => ?_,
    fun s rest n hs hn hneg hl => ?_, fun s bs f rest rs v n hs hn hlt hmax hl hbs hb hf hv => ?_,
    fun p t hs ht hp => ⟨?_, words_eq_nil_iff p⟩⟩
  · -- an array of bulks
    obtain ⟨b2, h2, hr⟩ := decodeMultiBulk_star d.fuel
      (hw (show src.bytes = 42 :: s ++ crlf ++ (bs ++ t) by simp [hs])) hn hl
    rw [if_neg (by omega), if_neg (by omega), Int.toNat_natCast] at hr
    obtain ⟨b', hr', h'⟩ := decodeMultiBulkItems_bulks hbs hb
      (hel (by rw [hs]; simp only [List.length_append, List.length_cons]; omega)) h2
    exact ⟨{ d with br := b' }, Decoder.decodeMultiBulk_eq_ok he (hr.trans hr'), h'.unread⟩
  · -- a count of at most 0
    obtain ⟨b2, -, hr⟩ := decodeMultiBulk_star d.fuel
      (hw (show src.bytes = 42 :: s ++ crlf ++ rest by simp [hs])) hn hl
    rw [if_pos hneg] at hr
    rw [Decoder.decodeMultiBulk_eq_error he hr]
  · -- a well-formed element that is not a bulk
    obtain ⟨b2, h2, hr⟩ := decodeMultiBulk_star d.fuel
      (hw (show src.bytes = 42 :: s ++ crlf ++ (bs ++ f ++ rest) by simp [hs])) hn hl
    rw [if_neg (by omega), if_neg (by omega)] at hr
    obtain ⟨b', hr'⟩ := decodeMultiBulkItems_content hf hv n.toNat hbs hb (by omega)
      (hel (by rw [hs]; simp only [List.length_append, List.length_cons]; omega)) h2
    rw [Decoder.decodeMultiBulk_eq_error he (hr.trans hr')]
  · -- an inline command
    obtain ⟨b', -, hr⟩ := decodeMultiBulk_inline d.fuel
      (hw (show src.bytes = p ++ crlf ++ t from hs)) hp ht
    split at hr
    · rw [Decoder.decodeMultiBulk_eq_error he hr, if_pos ‹_›]
    · rw [Decoder.decodeMultiBulk_eq_ok he hr, if_neg ‹_›]

/-- `*1\r\n$1\r\na\r\n`, in three reads. -/
def oneBulk : Source := ⟨[[42, 49], [13, 10, 36], [49, 13, 10, 97, 13, 10]], false, .eof⟩

theorem decodeMultiBulk_forms_oneBulk :
    oneBulk.Live ∧
    ((∀ m d', (newDecoderSize oneBulk 16).decodeMultiBulk = (.ok m, d') →
      ∃ f, MultiBulk f m ∧ oneBulk.bytes = f ++ d'.br.unread) ∧
    (oneBulk.Live →
    (∀ (s bs t : List UInt8) (rs : List Resp), oneBulk.bytes = 42 :: s ++ crlf ++ bs ++ t →
      btoi64 s = .ok rs.length → 0 < rs.length → (rs.length : Int) ≤ maxArrayLen →
      s.length + 2 ≤ (newDecoderSize oneBulk 16).br.buf.length →
      FramesIn (newDecoderSize oneBulk 16).br.buf.length bs rs → (∀ r ∈ rs, r.isBulkBytes) →
      ∃ d', (newDecoderSize oneBulk 16).decodeMultiBulk = (.ok rs, d') ∧ d'.br.unread = t) ∧
    (∀ (s rest : List UInt8) (n : Int), oneBulk.bytes = 42 :: s ++ crlf ++ rest →
      btoi64 s = .ok n → n ≤ 0 → s.length + 2 ≤ (newDecoderSize oneBulk 16).br.buf.length →
      (newDecoderSize oneBulk 16).decodeMultiBulk.1 = .error .badArrayLen) ∧
    (∀ (s bs f rest : List UInt8) (rs : List Resp) (v : Resp) (n : Int),
      oneBulk.bytes = 42 :: s ++ crlf ++ bs ++ f ++ rest → btoi64 s = .ok n →
      (rs.length : Int) < n → n ≤ maxArrayLen →
      s.length + 2 ≤ (newDecoderSize oneBulk 16).br.buf.length →
      FramesIn (newDecoderSize oneBulk 16).br.buf.length bs rs → (∀ r ∈ rs, r.isBulkBytes) →
      FrameIn (newDecoderSize oneBulk 16).br.buf.length f v → v.isBulkBytes = false →
      (newDecoderSize oneBulk 16).decodeMultiBulk.1 = .error .badMultiBulkContent) ∧
    (∀ p t : List UInt8, oneBulk.bytes = p ++ crlf ++ t → (p ++ crlf).headD 0 ≠ 42 → 10 ∉ p →
      (newDecoderSize oneBulk 16).decodeMultiBulk.1 =
        (if words p = [] then .error .badMultiBulkLen
          else .ok ((words p).map fun w => .bulkBytes (some w))) ∧
      (words p = [] ↔ ∀ c ∈ p, c = 32)))) :=
  ⟨⟨rfl, by simp [oneBulk]⟩, decodeMultiBulk_forms oneBulk 16⟩

/-- A buffer of two bytes cannot hold the length line `1\r\n`, so
`DecodeMultiBulk` fails with `ErrBufferFull` on the well-formed request
`oneBulk`. -/
theorem multiBulk_bufferFull :
    MultiBulk oneBulk.bytes [.bulkBytes (some [97])] ∧
      (newDecoderSize oneBulk 2).decodeMultiBulk.1 = .error .bufferFull :=
  ⟨.array [49] [36, 49, 13, 10, 97, 13, 10] _ rfl (by decide) (by decide)
    (.cons (.bulk [49] [97] rfl (by decide)) .nil) (by simp [Resp.isBulkBytes]), rfl⟩

/-! ### `DecodeMultiBulk` and `Decode` after a `*` -/

/-- A bulk reads the same bytes at every fuel: its payload is read by
`decodeBulkBytes`, which calls no `decodeResp`. -/
theorem decodeResp_bulk {f : Nat} {b b' : Reader} {r : Resp}
    (h : decodeResp (f + 1) b = .ok r b') (hr : r.isBulkBytes = true) (g : Nat) :
    decodeResp (g + 1) b = .ok r b' := by
  obtain ⟨t, b₁, hb, h⟩ := ok_of_bind h
  split at h
  · obtain ⟨_, _, -, h⟩ := ok_of_bind h; cases h; cases hr
  · obtain ⟨_, _, -, h⟩ := ok_of_bind h; cases h; cases hr
  · obtain ⟨_, _, -, h⟩ := ok_of_bind h; cases h; cases hr
  · simp only [decodeResp, bind, EStateM.bind, hb]
    exact h
  · obtain ⟨_, _, -, h⟩ := ok_of_bind h; cases h; cases hr
  · cases h

theorem decodeResp_bulk_iff {f g : Nat} {b b' : Reader} {r : Resp} (hr : r.isBulkBytes = true) :
    decodeResp (f + 1) b = .ok r b' ↔ decodeResp (g + 1) b = .ok r b' :=
  ⟨fun h => decodeResp_bulk h hr g, fun h => decodeResp_bulk h hr f⟩

/-- The element loop of `decodeMultiBulk` succeeds exactly when the element
loop of `decodeArray` does with bulks only, for two element readers that
agree on bulks. -/
theorem decodeMultiBulkItems_iff {elem elem' : ReaderM Resp}
    (hbulk : ∀ {b b' : Reader} {r : Resp}, r.isBulkBytes = true →
      (elem b = .ok r b' ↔ elem' b = .ok r b')) :
    ∀ (n : Nat) {b b' : Reader} {xs : List Resp},
      decodeMultiBulkItems elem n b = .ok xs b' ↔
        decodeArrayItems elem' n b = .ok xs b' ∧ ∀ x ∈ xs, x.isBulkBytes = true
  | 0, b, b', xs => by
    simp only [decodeMultiBulkItems, decodeArrayItems, pure, EStateM.pure, EStateM.Result.ok.injEq]
    constructor
    · rintro ⟨rfl, rfl⟩; simp
    · exact fun h => h.1
  | n + 1, b, b', xs => by
    constructor
    · intro h
      obtain ⟨r, b₁, hr, h⟩ := ok_of_bind h
      by_cases hb : r.isBulkBytes = true
      · rw [if_neg (by simp [hb])] at h
        obtain ⟨_, _, h₀, h⟩ := ok_of_bind h
        cases h₀
        obtain ⟨rs, b₂, hrs, h⟩ := ok_of_bind h
        cases h
        obtain ⟨hrs, hall⟩ := (decodeMultiBulkItems_iff hbulk n).1 hrs
        refine ⟨?_, List.forall_mem_cons.2 ⟨hb, hall⟩⟩
        simp only [decodeArrayItems, bind, EStateM.bind, (hbulk hb).1 hr, hrs]
        rfl
      · rw [if_pos (by simpa using hb)] at h
        obtain ⟨_, _, h₀, -⟩ := ok_of_bind h
        cases h₀
    · rintro ⟨h, hall⟩
      obtain ⟨r, b₁, hr, h⟩ := ok_of_bind h
      obtain ⟨rs, b₂, hrs, h⟩ := ok_of_bind h
      cases h
      obtain ⟨hb, hall⟩ := List.forall_mem_cons.1 hall
      have hrs := (decodeMultiBulkItems_iff hbulk n).2 ⟨hrs, hall⟩
      simp only [decodeMultiBulkItems, bind, EStateM.bind, (hbulk hb).2 hr, hb, hrs,
        Bool.not_true, Bool.false_eq_true, ↓reduceIte, pure, EStateM.pure]

/-- After a `*`, the run of `decodeMultiBulk` returns an array exactly when
`decodeResp`'s returns it, not empty and of bulks only: a count `n <= 0`
fails one and, at `-1` or `0`, gives the other a nil or empty array. -/
theorem decodeMultiBulk_star_iff {b c b' : Reader} {xs : List Resp} (h : b.WF)
    (hp : b.peekByte = .ok 42 c) {fm fa : Nat}
    (hbulk : ∀ {b b' : Reader} {r : Resp}, r.isBulkBytes = true →
      (decodeResp fm b = .ok r b' ↔ decodeResp fa b = .ok r b')) :
    decodeMultiBulk fm b = .ok xs b' ↔
      decodeResp (fa + 1) b = .ok (.array (some xs)) b' ∧ xs ≠ [] ∧ ∀ x ∈ xs, x.isBulkBytes = true := by
  obtain ⟨hrc, hrb⟩ := peekByte_readByte h hp
  cases hi : decodeInt { c with rpos := c.rpos + 1 } with
  | error e s => simp [decodeMultiBulk, decodeResp, decodeArray, bind, EStateM.bind, hp, hrc, hrb, hi]
  | ok n b₂ =>
    simp only [decodeMultiBulk, decodeResp, decodeArray, bind, EStateM.bind, hp, hrc, hrb, hi, ne_eq,
      not_true_eq_false, ↓reduceIte]
    by_cases h0 : n ≤ 0
    · have hn : n < -1 ∨ n = -1 ∨ n = 0 := by omega
      rcases hn with hn | rfl | rfl
      · simp [h0, hn, throw, throwThe, MonadExceptOf.throw, EStateM.throw, EStateM.bind]
      · simp [maxArrayLen, throw, throwThe, MonadExceptOf.throw, EStateM.throw, pure, EStateM.pure,
          EStateM.bind]
      · simp +contextual [maxArrayLen, throw, throwThe, MonadExceptOf.throw, EStateM.throw, pure,
          EStateM.pure, EStateM.bind, decodeArrayItems]
    · by_cases hm : maxArrayLen < n
      · simp [h0, hm, throw, throwThe, MonadExceptOf.throw, EStateM.throw, EStateM.bind, pure,
          EStateM.pure, show ¬ n < -1 by omega]
      · have hn1 : ¬ n < -1 := by omega
        have hn2 : ¬ n = -1 := by omega
        simp only [h0, hm, hn1, hn2, ↓reduceIte, pure, EStateM.pure, EStateM.bind]
        rw [decodeMultiBulkItems_iff hbulk]
        cases ha : decodeArrayItems (decodeResp fa) n.toNat b₂ with
        | error e s => simp
        | ok ys s =>
          obtain ⟨k, hk⟩ : ∃ k, n.toNat = k + 1 := ⟨n.toNat - 1, by omega⟩
          rw [hk] at ha
          obtain ⟨r, _, -, ha'⟩ := ok_of_bind ha
          obtain ⟨rs, _, -, ha'⟩ := ok_of_bind ha'
          cases ha'
          simp only [EStateM.Result.ok.injEq, Resp.array.injEq, Option.some.injEq]
          constructor
          · rintro ⟨⟨rfl, rfl⟩, hall⟩; exact ⟨⟨rfl, rfl⟩, List.cons_ne_nil _ _, hall⟩
          · exact fun h => ⟨h.1, h.2.2⟩

/-- **After a `*`, `DecodeMultiBulk` is `Decode` narrowed to requests.** On
a decoder whose next byte is `*`, `DecodeMultiBulk` returns an array, and
leaves the decoder in a state, exactly when `Decode` returns that array and
leaves it in that state, and the array is not empty and holds only bulks. -/
theorem decodeMultiBulk_iff_decode {d d' : Decoder} {c : Reader} {xs : List Resp} (h : d.br.WF)
    (hp : d.br.peekByte = .ok 42 c) :
    d.decodeMultiBulk = (.ok xs, d') ↔
      d.decode = (.ok (.array (some xs)), d') ∧ xs ≠ [] ∧ ∀ x ∈ xs, x.isBulkBytes = true := by
  obtain ⟨-, -, rest, hu⟩ := peekByte_ok h hp
  have key : ∀ {ys : List Resp} {b' : Reader}, Redis.decodeMultiBulk d.fuel d.br = .ok ys b' ↔
      decodeResp d.fuel d.br = .ok (.array (some ys)) b' ∧ ys ≠ [] ∧
        ∀ x ∈ ys, x.isBulkBytes = true := by
    rw [show d.fuel = rest.length + 1 + 1 by simp [Decoder.fuel, hu]]
    exact decodeMultiBulk_star_iff h hp decodeResp_bulk_iff
  cases he : d.err with
  | some e => simp [Decoder.decodeMultiBulk, Decoder.decode, he]
  | none =>
    simp only [Decoder.decodeMultiBulk, Decoder.decode, he]
    constructor
    · intro hm
      split at hm
      · cases hm
        obtain ⟨hr, hne, hall⟩ := key.1 ‹_›
        exact ⟨by rw [hr], hne, hall⟩
      · cases hm
    · rintro ⟨hd, hne, hall⟩
      split at hd
      · cases hd
        rw [key.2 ⟨‹_›, hne, hall⟩]
      · cases hd

theorem decodeMultiBulk_iff_decode_oneBulk :
    (newDecoderSize oneBulk 16).br.WF ∧
      (newDecoderSize oneBulk 16).br.peekByte = .ok 42 (newDecoderSize oneBulk 16).br.fillIfEmpty ∧
      ((newDecoderSize oneBulk 16).decodeMultiBulk =
          (.ok [.bulkBytes (some [97])], (newDecoderSize oneBulk 16).decodeMultiBulk.2) ↔
        (newDecoderSize oneBulk 16).decode =
            (.ok (.array (some [.bulkBytes (some [97])])), (newDecoderSize oneBulk 16).decodeMultiBulk.2) ∧
          [Resp.bulkBytes (some [97])] ≠ [] ∧ ∀ x ∈ [Resp.bulkBytes (some [97])], x.isBulkBytes = true) :=
  ⟨newReaderSize_wf oneBulk 16, rfl, decodeMultiBulk_iff_decode (newReaderSize_wf oneBulk 16) rfl⟩

end Redis
end Codis
