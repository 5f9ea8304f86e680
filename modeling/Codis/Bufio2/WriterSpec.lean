/-
# The buffered writer loses and duplicates nothing

What a `Writer` has been given is read off `passed`: the bytes the sink has
taken followed by the pending `buf[0:wpos]`. `Passes b q b'` says that `b'`
keeps the invariant (`0 < len(buf)`, `wpos ≤ len(buf)`, the size unchanged)
and, unless it has failed, has been given exactly `q` more than `b`.

Each method passes on exactly its argument (`write_passes`,
`writeString_passes`, `writeByte_passes`, `flush_passes`), and returns the
error it leaves in `err`; a failed writer answers every call with its error
and changes nothing (`call_failed`). By induction over any sequence of calls
from `NewWriterSize` (`run_passes`), the sink's bytes followed by the
pending ones are everything handed over, in order, for as long as no call
has failed (`writer_passes`). None of this needs the `io.Writer` contract:
a short count without an error is carried like any other.

The fuel of `Write`'s loop, the sink's answers plus 3, and of
`WriteString`'s, the length plus 2, never runs out (`write_ends`,
`run_ends`): each round of `Write` takes an answer, and once they run out
an empty buffer takes all of `p`; after its first round `WriteString`
copies at least a byte per round into an empty buffer. This needs the
sink's errors to be real ones (`Sink.Plain`), as `.exhausted` is the
model's mark for running out of fuel.

Key definitions: `Writer.passed`, `Writer.Passes`, `Writer.writeRounds`,
`Writer.writeStringRounds`.
Key theorems: `run_passes`, `writer_passes`, `writeLoop_ends`,
`writeStringLoop_ends`, `run_ends`.
-/
import Codis.Bufio2.Writer

namespace Codis
namespace Bufio2

theorem take_min_length (p : List UInt8) (n : Nat) : p.take (min n p.length) = p.take n := by
  rcases le_total n p.length with h | h
  · rw [Nat.min_eq_left h]
  · rw [Nat.min_eq_right h, List.take_length, List.take_of_length_le h]

namespace Sink

theorem write_got (s : Sink) (p : List UInt8) :
    (s.write p).2.got = s.got ++ p.take (s.write p).1.1 := by
  unfold write
  split <;> simp [take_min_length]

theorem write_le (s : Sink) (p : List UInt8) : (s.write p).1.1 ≤ p.length := by
  unfold write
  split <;> simp [Nat.min_le_right]

/-- A sink whose errors are real ones: none is the model's mark for running
out of fuel. -/
def Plain (s : Sink) : Prop := ∀ n, Answer.fail n .exhausted ∉ s.answers

theorem write_answers (s : Sink) (p : List UInt8) : (s.write p).2.answers = s.answers.tail := by
  unfold write; split <;> simp_all

theorem write_of_nil {s : Sink} (h : s.answers = []) (p : List UInt8) :
    (s.write p).1 = (p.length, none) := by
  simp [write, h]

theorem Plain.write {s : Sink} (hs : s.Plain) (p : List UInt8) :
    (s.write p).2.Plain ∧ (s.write p).1.2 ≠ some .exhausted := by
  refine ⟨fun n hn => hs n (List.mem_of_mem_tail (by rwa [← write_answers])), ?_⟩
  unfold Sink.write
  split
  · simp
  · simp
  · next e as h => rintro ⟨⟩; exact hs _ (h ▸ List.mem_cons_self _ _)
  · simp

end Sink

namespace Writer

variable {b b' b'' : Writer} {p q q' : List UInt8}

/-- The invariant: the buffer is not empty and `wpos` is inside it. -/
structure WF (b : Writer) : Prop where
  wpos_le : b.wpos ≤ b.buf.length
  buf_pos : 0 < b.buf.length

/-- Everything the writer has been given: what the sink took, then
`buf[0:wpos]`. -/
def passed (b : Writer) : List UInt8 := b.wr.got ++ b.buf.take b.wpos

/-- `b'` keeps the invariant and the buffer size of `b`, and, unless it has
failed, has been given `q` more than `b`. -/
structure Passes (b : Writer) (q : List UInt8) (b' : Writer) : Prop where
  wf : b'.WF
  size : b'.buf.length = b.buf.length
  passed : b'.err = none → b.err = none ∧ b'.passed = b.passed ++ q

theorem Passes.refl (h : b.WF) : Passes b [] b := ⟨h, rfl, fun he => ⟨he, by simp⟩⟩

theorem Passes.trans (h1 : Passes b q b') (h2 : Passes b' q' b'') : Passes b (q ++ q') b'' :=
  ⟨h2.wf, h2.size.trans h1.size, fun he => by
    obtain ⟨he', h2'⟩ := h2.passed he
    obtain ⟨he'', h1'⟩ := h1.passed he'
    exact ⟨he'', by rw [h2', h1', List.append_assoc]⟩⟩

theorem Passes.of_failed (h : b'.WF) (hs : b'.buf.length = b.buf.length) (he : b'.err ≠ none) :
    Passes b q b' := ⟨h, hs, fun h' => absurd h' he⟩

theorem newWriterSize_wf (wr : Sink) (size : Int) : (newWriterSize wr size).WF := by
  refine ⟨Nat.zero_le _, ?_⟩
  simp only [newWriterSize, List.length_replicate]
  split
  · decide
  · omega

theorem newWriterSize_passed (wr : Sink) (size : Int) : (newWriterSize wr size).passed = wr.got := by
  simp [passed, newWriterSize]

/-! ### `copy` into the buffer, and `flush` -/

@[simp] theorem put_fst : (b.put p).1 = min b.available p.length := rfl
@[simp] theorem put_err : (b.put p).2.err = b.err := rfl
@[simp] theorem put_wr : (b.put p).2.wr = b.wr := rfl
@[simp] theorem put_wpos : (b.put p).2.wpos = b.wpos + min b.available p.length := rfl

theorem put_passes (h : b.WF) : Passes b (p.take (b.put p).1) (b.put p).2 := by
  have hw := h.wpos_le
  have hl : (b.put p).2.buf.length = b.buf.length := by simp [put, available]; omega
  refine ⟨⟨by simp [hl, available]; omega, hl ▸ h.buf_pos⟩, hl, fun he => ⟨he, ?_⟩⟩
  have hpre : (b.buf.take b.wpos ++ p.take (min b.available p.length)).length =
      b.wpos + min b.available p.length := by simp; omega
  simp only [passed, put, List.append_assoc]
  rw [← List.append_assoc (List.take b.wpos b.buf), List.take_left' hpre]

theorem flush_of_failed {e : Err} (he : b.err = some e) : b.flush = b := by
  simp [flush, he]

/-- `flush` gives the writer nothing new; when it succeeds, nothing is
pending. -/
theorem flush_passes (h : b.WF) : Passes b [] b.flush ∧ (b.flush.err = none → b.flush.wpos = 0) := by
  unfold flush
  split
  · exact ⟨.refl h, by simp_all⟩
  rename_i he
  split
  · exact ⟨.refl h, fun _ => by assumption⟩
  rename_i hw0
  have hgot := b.wr.write_got (b.buf.take b.wpos)
  generalize b.wr.write (b.buf.take b.wpos) = r at hgot ⊢
  obtain ⟨⟨n, e⟩, s⟩ := r
  cases e with
  | some e => exact ⟨.of_failed ⟨h.wpos_le, h.buf_pos⟩ rfl (by simp), by simp⟩
  | none =>
    dsimp only
    split
    · exact ⟨.of_failed ⟨h.wpos_le, h.buf_pos⟩ rfl (by simp), by simp⟩
    · rename_i hn
      refine ⟨⟨⟨Nat.zero_le _, h.buf_pos⟩, rfl, fun _ => ⟨he, ?_⟩⟩, fun _ => rfl⟩
      simp only [passed, List.take_zero, List.append_nil] at hgot ⊢
      rw [hgot, List.take_of_length_le (by simp; omega)]

/-! ### The loops of `Write` and `WriteString` -/

/-- What the loops of `Write` and `WriteString` leave, started at count `nn`
on `p`: for some `k`, the count went up by `k`, the first `k` bytes of `p`
were passed on, the rest comes back, and it fits unless the writer failed. -/
def LoopPost (b : Writer) (nn : Nat) (p : List UInt8) (r : Nat × List UInt8 × Writer) : Prop :=
  ∃ k ≤ p.length, Passes b (p.take k) r.2.2 ∧ r.1 = nn + k ∧ r.2.1 = p.drop k ∧
    (r.2.2.err = none → r.2.1.length ≤ r.2.2.available)

theorem LoopPost.exhausted {nn : Nat} (h : b.WF) :
    LoopPost b nn p (nn, p, { b with err := some .exhausted }) :=
  ⟨0, Nat.zero_le _, .of_failed ⟨h.wpos_le, h.buf_pos⟩ rfl (by simp), rfl, rfl, by simp⟩

theorem LoopPost.exit {nn : Nat} (h : b.WF) (hc : ¬(b.err = none ∧ b.available < p.length)) :
    LoopPost b nn p (nn, p, b) :=
  ⟨0, Nat.zero_le _, .refl h, rfl, rfl, fun he => Nat.le_of_not_lt fun hlt => hc ⟨he, hlt⟩⟩

theorem LoopPost.round {nn n : Nat} {r : Nat × List UInt8 × Writer} (hn : n ≤ p.length)
    (h1 : Passes b (p.take n) b') (h2 : LoopPost b' (nn + n) (p.drop n) r) : LoopPost b nn p r := by
  obtain ⟨k, hk, h3, h4, h5, h6⟩ := h2
  refine ⟨n + k, by simp at hk; omega, ?_, by omega, by rw [h5, List.drop_drop, Nat.add_comm], h6⟩
  rw [List.take_add]
  exact h1.trans h3

theorem writeLoop_post : ∀ (fuel nn : Nat) (p : List UInt8) (b : Writer), b.WF →
    LoopPost b nn p (writeLoop fuel nn p b)
  | 0, _, _, _, h => .exhausted h
  | fuel + 1, nn, p, b, h => by
    unfold writeLoop
    split
    · rename_i hc
      split
      · rename_i hw0
        have hle := b.wr.write_le p
        have hgot := b.wr.write_got p
        have h1 : Passes b (p.take (b.wr.write p).1.1)
            { b with wr := (b.wr.write p).2, err := (b.wr.write p).1.2 } :=
          ⟨⟨h.wpos_le, h.buf_pos⟩, rfl, fun _ => ⟨hc.1, by simp [passed, hw0, hgot]⟩⟩
        exact .round hle h1 (writeLoop_post fuel _ _ _ h1.wf)
      · have h1 := (put_passes (p := p) h).trans (flush_passes (put_passes h).wf).1
        rw [List.append_nil] at h1
        exact .round (Nat.min_le_right _ _) h1 (writeLoop_post fuel _ _ _ h1.wf)
    · exact .exit h ‹_›

theorem writeStringLoop_post : ∀ (fuel nn : Nat) (s : List UInt8) (b : Writer), b.WF →
    LoopPost b nn s (writeStringLoop fuel nn s b)
  | 0, _, _, _, h => .exhausted h
  | fuel + 1, nn, s, b, h => by
    unfold writeStringLoop
    split
    · have h1 := (put_passes (p := s) h).trans (flush_passes (put_passes h).wf).1
      rw [List.append_nil] at h1
      exact .round (Nat.min_le_right _ _) h1 (writeStringLoop_post fuel _ _ _ h1.wf)
    · exact .exit h ‹_›

/-- The end of `Write` and `WriteString` after their loop: all of `p` is
passed on, the error returned is the one left in `err`, and without one the
count is `len(p)`. -/
theorem finish_passes {r : Nat × List UInt8 × Writer} (hr : LoopPost b 0 p r) :
    Passes b p (finish r.1 r.2.1 r.2.2).2 ∧
      (finish r.1 r.2.1 r.2.2).1.2 = (finish r.1 r.2.1 r.2.2).2.err ∧
      ((finish r.1 r.2.1 r.2.2).2.err = none → (finish r.1 r.2.1 r.2.2).1.1 = p.length) := by
  obtain ⟨n0, p', b'⟩ := r
  obtain ⟨k, hk, hp, h1, h2, h3⟩ := hr
  dsimp only at h1 h2 h3 hp ⊢
  subst h1 h2
  unfold finish
  split
  · rename_i hc
    have hdone : b'.err = none → p.length ≤ k := fun he => by simp [he] at hc; omega
    refine ⟨?_, rfl, fun he => by have := hdone he; simp only; omega⟩
    by_cases he : b'.err = none
    · rw [← List.take_append_drop k p, List.drop_eq_nil_of_le (hdone he), List.append_nil]
      exact hp
    · exact .of_failed hp.wf hp.size he
  · rename_i hc
    have he : b'.err = none := by simpa using (not_or.mp hc).1
    have hn : min b'.available (p.drop k).length = (p.drop k).length := Nat.min_eq_right (h3 he)
    have h4 := hp.trans (put_passes (p := p.drop k) hp.wf)
    rw [put_fst, hn, List.take_length, List.take_append_drop] at h4
    refine ⟨h4, by simp [he], fun _ => ?_⟩
    show 0 + k + (b'.put (p.drop k)).1 = p.length
    rw [put_fst, hn, List.length_drop]
    omega

/-! ### The methods -/

theorem write_passes (h : b.WF) :
    Passes b p (b.write p).2 ∧ (b.write p).1.2 = (b.write p).2.err ∧
      ((b.write p).2.err = none → (b.write p).1.1 = p.length) :=
  finish_passes (writeLoop_post _ _ _ _ h)

theorem writeString_passes (h : b.WF) :
    Passes b p (b.writeString p).2 ∧ (b.writeString p).1.2 = (b.writeString p).2.err ∧
      ((b.writeString p).2.err = none → (b.writeString p).1.1 = p.length) :=
  finish_passes (writeStringLoop_post _ _ _ _ h)

theorem take_succ_set {l : List UInt8} {i : Nat} {x : UInt8} (hi : i < l.length) :
    (l.set i x).take (i + 1) = l.take i ++ [x] := by
  rw [List.set_eq_take_append_cons_drop, if_pos hi, List.take_append_eq_append_take]
  simp [Nat.min_eq_left hi.le, Nat.succ_sub (Nat.le_of_lt hi)]

theorem writeByte_passes {c : UInt8} (h : b.WF) :
    Passes b [c] (b.writeByte c).2 ∧ (b.writeByte c).1 = (b.writeByte c).2.err := by
  unfold writeByte
  split
  · rename_i e he
    exact ⟨.of_failed h rfl (by simp [he]), by simp [he]⟩
  rename_i he
  have hf : Passes b [] (if b.available = 0 then b.flush else b) ∧
      ((if b.available = 0 then b.flush else b).err = none →
        0 < (if b.available = 0 then b.flush else b).available) := by
    split
    · obtain ⟨h1, h2⟩ := flush_passes h
      exact ⟨h1, fun he => by simp [available, h2 he, h1.size, h.buf_pos]⟩
    · exact ⟨.refl h, fun _ => by omega⟩
  generalize (if b.available = 0 then b.flush else b) = f at hf ⊢
  obtain ⟨hp, hav⟩ := hf
  dsimp only
  split
  · rename_i e he'
    exact ⟨.of_failed hp.wf hp.size (by simp [he']), by simp [he']⟩
  · rename_i he'
    have hlt : f.wpos < f.buf.length := by have := hav he'; simp [available] at this; omega
    refine ⟨?_, by simp [he']⟩
    have h1 : Passes f [c] { f with buf := f.buf.set f.wpos c, wpos := f.wpos + 1 } :=
      ⟨⟨by simp; omega, by simpa using hp.wf.buf_pos⟩, by simp,
        fun _ => ⟨he', by simp [passed, take_succ_set hlt]⟩⟩
    simpa using hp.trans h1

/-- **Every call passes on exactly its argument** and returns the error it
leaves in `err`. -/
theorem call_passes (h : b.WF) (c : Call) :
    Passes b c.bytes (b.call c).2 ∧ (b.call c).1 = (b.call c).2.err := by
  cases c with
  | write p => exact ⟨(write_passes h).1, (write_passes h).2.1⟩
  | writeString s => exact ⟨(writeString_passes h).1, (writeString_passes h).2.1⟩
  | writeByte c => exact writeByte_passes h
  | flush => exact ⟨(flush_passes h).1, rfl⟩

/-- A failed writer answers every call with its error and changes nothing:
in particular it hands nothing to the sink. -/
theorem call_failed {e : Err} (he : b.err = some e) (c : Call) : b.call c = (some e, b) := by
  have hw : ∀ fuel nn p, writeLoop (fuel + 1) nn p b = (nn, p, b) := by
    intro fuel nn p; simp [writeLoop, he]
  have hs : ∀ fuel nn p, writeStringLoop (fuel + 1) nn p b = (nn, p, b) := by
    intro fuel nn p; simp [writeStringLoop, he]
  cases c with
  | write p => simp [call, write, hw, finish, he]
  | writeString s => simp [call, writeString, hs, finish, he]
  | writeByte c => simp [call, writeByte, he]
  | flush => simp [call, flush_of_failed he, he]

/-- **A whole run** passes on the calls' bytes in order. -/
theorem run_passes : ∀ (calls : List Call) {b : Writer}, b.WF →
    Passes b (calls.map Call.bytes).flatten (b.run calls)
  | [], _, h => .refl h
  | c :: cs, b, h => by
    have h1 := (call_passes h c).1
    simpa using h1.trans (run_passes cs h1.wf)

/-- `flush` keeps the sink plain, sets no fuel mark, and uses at most one
answer. -/
theorem flush_plain (hs : b.wr.Plain) (he : b.err ≠ some .exhausted) :
    b.flush.wr.Plain ∧ b.flush.err ≠ some .exhausted ∧
      b.flush.wr.answers.length ≤ b.wr.answers.length := by
  unfold flush
  split
  · exact ⟨hs, he, le_rfl⟩
  split
  · exact ⟨hs, he, le_rfl⟩
  obtain ⟨hp, hne⟩ := hs.write (b.buf.take b.wpos)
  have hl : (b.wr.write (b.buf.take b.wpos)).2.answers.length ≤ b.wr.answers.length := by
    rw [Sink.write_answers, List.length_tail]; omega
  generalize b.wr.write (b.buf.take b.wpos) = r at hp hne hl ⊢
  obtain ⟨⟨n, e⟩, s⟩ := r
  cases e with
  | some e => exact ⟨hp, hne, hl⟩
  | none =>
    dsimp only
    split
    · exact ⟨hp, nofun, hl⟩
    · exact ⟨hp, he, hl⟩

/-- The fuel `Write`'s loop needs, its last test included: a round takes an
answer of the sink, and once they run out, an empty buffer takes all of
`p`. -/
def writeRounds (b : Writer) (p : List UInt8) : Nat :=
  if b.err = none ∧ b.available < p.length then b.wr.answers.length + if b.wpos = 0 then 2 else 3 else 1

theorem writeLoop_ends : ∀ (fuel nn : Nat) (p : List UInt8) (b : Writer), b.WF → b.wr.Plain →
    b.err ≠ some .exhausted → writeRounds b p ≤ fuel →
      (writeLoop fuel nn p b).2.2.wr.Plain ∧ (writeLoop fuel nn p b).2.2.err ≠ some .exhausted
  | 0, _, _, b, _, _, _, hf => by simp only [writeRounds] at hf; split_ifs at hf <;> omega
  | fuel + 1, nn, p, b, h, hs, he, hf => by
    unfold writeLoop
    split
    · next hc =>
      rw [writeRounds, if_pos hc] at hf
      split
      · next hw0 =>
        rw [if_pos hw0] at hf
        obtain ⟨hp, hne⟩ := hs.write p
        refine writeLoop_ends fuel _ _ _ ⟨h.wpos_le, h.buf_pos⟩ hp hne ?_
        unfold writeRounds
        split
        · next hc' =>
          cases ha : b.wr.answers with
          | nil => simp [Sink.write_of_nil ha] at hc'
          | cons a as => simp_all [Sink.write_answers]
        · omega
      · next hw0 =>
        rw [if_neg hw0] at hf
        have hput := put_passes (p := p) h
        obtain ⟨hp, hne, hl⟩ := flush_plain (b := (b.put p).2) hs (by simpa using he)
        refine writeLoop_ends fuel _ _ _ (flush_passes hput.wf).1.wf hp hne ?_
        unfold writeRounds
        split
        · next hc' => rw [(flush_passes hput.wf).2 hc'.1, if_pos rfl]; simp at hl; omega
        · omega
    · exact ⟨hs, he⟩

/-- The fuel `WriteString`'s loop needs, its last test included: after the
first round the buffer is empty, and each round copies at least a byte. -/
def writeStringRounds (b : Writer) (s : List UInt8) : Nat :=
  if b.err = none ∧ b.available < s.length then s.length + if b.wpos = 0 then 1 else 2 else 1

theorem writeStringLoop_ends : ∀ (fuel nn : Nat) (s : List UInt8) (b : Writer), b.WF → b.wr.Plain →
    b.err ≠ some .exhausted → writeStringRounds b s ≤ fuel →
      (writeStringLoop fuel nn s b).2.2.wr.Plain ∧ (writeStringLoop fuel nn s b).2.2.err ≠ some .exhausted
  | 0, _, _, b, _, _, _, hf => by simp only [writeStringRounds] at hf; split_ifs at hf <;> omega
  | fuel + 1, nn, s, b, h, hs, he, hf => by
    unfold writeStringLoop
    split
    · next hc =>
      rw [writeStringRounds, if_pos hc] at hf
      have hput := put_passes (p := s) h
      obtain ⟨hp, hne, -⟩ := flush_plain (b := (b.put s).2) hs (by simpa using he)
      refine writeStringLoop_ends fuel _ _ _ (flush_passes hput.wf).1.wf hp hne ?_
      have hpos := h.buf_pos
      unfold writeStringRounds
      split
      · next hc' =>
        rw [(flush_passes hput.wf).2 hc'.1, if_pos rfl]
        simp only [put_fst, List.length_drop, available] at hc hf ⊢
        split at hf <;> omega
      · split at hf <;> omega
    · exact ⟨hs, he⟩

theorem finish_ends {nn : Nat} (hs : b.wr.Plain) (he : b.err ≠ some .exhausted) :
    (finish nn p b).2.wr.Plain ∧ (finish nn p b).2.err ≠ some .exhausted := by
  unfold finish
  split <;> exact ⟨hs, he⟩

/-- **`Write` and `WriteString` never run out of fuel**: over a plain sink,
a writer without the fuel mark does not get it from them. -/
theorem write_ends (h : b.WF) (hs : b.wr.Plain) (he : b.err ≠ some .exhausted) :
    ((b.write p).2.wr.Plain ∧ (b.write p).2.err ≠ some .exhausted) ∧
      (b.writeString p).2.wr.Plain ∧ (b.writeString p).2.err ≠ some .exhausted := by
  have hw := writeLoop_ends (b.wr.answers.length + 3) 0 p b h hs he (by
    unfold writeRounds; split_ifs <;> omega)
  have hws := writeStringLoop_ends (p.length + 2) 0 p b h hs he (by
    unfold writeStringRounds; split_ifs <;> omega)
  exact ⟨finish_ends hw.1 hw.2, finish_ends hws.1 hws.2⟩

theorem writeByte_ends {c : UInt8} (hs : b.wr.Plain) (he : b.err ≠ some .exhausted) :
    (b.writeByte c).2.wr.Plain ∧ (b.writeByte c).2.err ≠ some .exhausted := by
  have hf : (if b.available = 0 then b.flush else b).wr.Plain ∧
      (if b.available = 0 then b.flush else b).err ≠ some .exhausted := by
    split
    · exact ⟨(flush_plain hs he).1, (flush_plain hs he).2.1⟩
    · exact ⟨hs, he⟩
  unfold writeByte
  split
  · exact ⟨hs, he⟩
  generalize (if b.available = 0 then b.flush else b) = f at hf ⊢
  dsimp only
  split <;> exact hf

/-- **No call runs out of fuel.** Over a plain sink, from a writer without
the fuel mark (one from `NewWriterSize`), a whole run of calls never sets
it; as the error is sticky and each call returns the one it leaves, no call
of the run returns it either. -/
theorem run_ends : ∀ (calls : List Call) {b : Writer}, b.WF → b.wr.Plain → b.err ≠ some .exhausted →
    (b.run calls).err ≠ some .exhausted
  | [], _, _, _, he => he
  | c :: cs, b, h, hs, he => by
    have hc : (b.call c).2.wr.Plain ∧ (b.call c).2.err ≠ some .exhausted := by
      cases c with
      | write p => exact (write_ends h hs he).1
      | writeString p => exact (write_ends h hs he).2
      | writeByte c => exact writeByte_ends hs he
      | flush => exact ⟨(flush_plain hs he).1, (flush_plain hs he).2.1⟩
    exact run_ends cs (call_passes h c).1.wf hc.1 hc.2

end Writer

end Bufio2
end Codis
