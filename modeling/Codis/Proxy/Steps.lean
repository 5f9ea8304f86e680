/-
# What each step of the worker can do

One inductive per goroutine lists every way its step can go, with the guard
of each branch and the state it leaves (`RunMove`, `ReaderMove`,
`CallbackMove`), and one lemma says every step is one of them; the invariants
are proved from these lists, never by unfolding a step again. Small `simp`
lemmas say what `complete`, `take` and `modRound` change.

Key theorems: `runStep_move`, `readerStep_move`, `callbackStep_move`, `next_move`.
-/
import Codis.Proxy.Backend

namespace Codis
namespace Proxy

namespace RunPc

/-- The places of `run` inside a round, between `Set(stateConnected)` and
the deferred `Set(0)`. -/
def inRound : RunPc → Bool
  | .recv | .encode _ | .flush _ | .send _ | .set0 _ => true
  | _ => false

/-- The places of `run` that work on the current round: inside it, and the
deferred `close(tasks)`. -/
def onRound : RunPc → Bool
  | .closeTasks _ => true
  | pc => pc.inRound

/-- The request `run` holds between receiving it and handing it on. -/
def held : RunPc → List ReqId
  | .encode r | .flush r | .send r => [r]
  | _ => []

end RunPc

/-- The request a reader holds between receiving it and completing it. -/
def ReaderPc.held : ReaderPc → List ReqId
  | .decoding r | .responding r _ => [r]
  | _ => []

namespace Sys

variable {s s' : Sys} {r : ReqId} {o : Outcome} {w : Who} {i : Nat} {f : Round → Round}

@[simp] theorem complete_log : (s.complete r o w).log = s.log ++ [⟨r, o, w⟩] := rfl
@[simp] theorem complete_rounds : (s.complete r o w).rounds = s.rounds := rfl
@[simp] theorem complete_run : (s.complete r o w).run = s.run := rfl
@[simp] theorem complete_state : (s.complete r o w).state = s.state := rfl
@[simp] theorem complete_inTaken : (s.complete r o w).inTaken = s.inTaken := rfl
@[simp] theorem complete_reqs : (s.complete r o w).reqs = s.reqs := rfl
@[simp] theorem complete_callbacks : (s.complete r o w).callbacks = s.callbacks := rfl
@[simp] theorem take_log : s.take.log = s.log := rfl
@[simp] theorem take_rounds : s.take.rounds = s.rounds := rfl
@[simp] theorem take_run : s.take.run = s.run := rfl
@[simp] theorem take_state : s.take.state = s.state := rfl
@[simp] theorem take_inTaken : s.take.inTaken = s.inTaken + 1 := rfl
@[simp] theorem take_reqs : s.take.reqs = s.reqs := rfl
@[simp] theorem take_callbacks : s.take.callbacks = s.callbacks := rfl
@[simp] theorem modRound_rounds : (s.modRound i f).rounds = s.rounds.modify f i := rfl
@[simp] theorem modRound_log : (s.modRound i f).log = s.log := rfl
@[simp] theorem modRound_run : (s.modRound i f).run = s.run := rfl
@[simp] theorem modRound_state : (s.modRound i f).state = s.state := rfl
@[simp] theorem modRound_inTaken : (s.modRound i f).inTaken = s.inTaken := rfl
@[simp] theorem modRound_reqs : (s.modRound i f).reqs = s.reqs := rfl
@[simp] theorem modRound_callbacks : (s.modRound i f).callbacks = s.callbacks := rfl

end Sys

/-- The ways a step of `run` can go under the scheduler's choice, one per
branch of `runStep`, each with its guard and the state it leaves. -/
inductive RunMove (s : Sys) : Choice → Sys → Prop
  | check {c : Choice} : s.run = .check →
      RunMove s c { s with run := if s.closed then .exited else .dial }
  | dialOk : s.run = .dial →
      RunMove s .ok { s with
        rounds := s.rounds ++ [Round.init], state := stateConnected, fails := 0, run := .recv }
  | dialFail {c : Choice} : s.run = .dial → c ≠ .ok → RunMove s c { s with run := .drain s.inputLen true }
  | recv {c : Choice} : s.run = .recv → s.inTaken < s.reqs.length →
      RunMove s c { (s.take) with run := .encode s.inTaken }
  | recvClosed {c : Choice} : s.run = .recv → ¬s.inTaken < s.reqs.length → s.inClosed →
      RunMove s c { s with run := .set0 false }
  | broken {r : ReqId} : s.run = .encode r → (s.reqs.getD r ⟨false, none, false⟩).readOnly →
      RunMove s .alt { (s.complete r (.fail .requestIsBroken) .writer) with run := .recv }
  | encodeFail {r : ReqId} (e : Err) : s.run = .encode r →
      RunMove s (.fail e) { ((s.modRound s.cur fun rd => { rd with encoded := rd.encoded ++ [r] }).complete r
        (.fail (.backendConnFailure e)) .writer) with run := .set0 true }
  | encodeOk {r : ReqId} : s.run = .encode r →
      RunMove s .ok { (s.modRound s.cur fun rd => { rd with encoded := rd.encoded ++ [r] }) with
        run := .flush r }
  | flushOk {r : ReqId} : s.run = .flush r →
      RunMove s .ok { (s.modRound s.cur fun rd => { rd with flushed := rd.encoded.length }) with
        run := .send r }
  | flushSkip {r : ReqId} : s.run = .flush r → s.inputLen ≠ 0 → RunMove s .alt { s with run := .send r }
  | flushFail {r : ReqId} (e : Err) : s.run = .flush r →
      RunMove s (.fail e) { (s.complete r (.fail (.backendConnFailure e)) .writer) with run := .set0 true }
  | send {c : Choice} {r : ReqId} : s.run = .send r →
      RunMove s c { (s.modRound s.cur fun rd => { rd with sent := rd.sent ++ [r] }) with run := .recv }
  | set0 {c : Choice} {b : Bool} : s.run = .set0 b → RunMove s c { s with state := 0, run := .closeTasks b }
  | closeTasks {c : Choice} {b : Bool} : s.run = .closeTasks b →
      RunMove s c { (s.modRound s.cur fun rd => { rd with closed := true }) with
        run := .drain s.inputLen b }
  | drainDone {c : Choice} {b : Bool} : s.run = .drain 0 b →
      RunMove s c { s with run := if b then .delay else .check }
  | drain {c : Choice} {n : Nat} {b : Bool} : s.run = .drain (n + 1) b → s.inTaken < s.reqs.length →
      RunMove s c { (s.take.complete s.inTaken (.fail .backendConnReset) .drain) with
        run := .drain n b }
  | delay {c : Choice} : s.run = .delay →
      RunMove s c { s with
        fails := s.fails + 1, run := if s.fails + 1 ≤ 10 then .check else .delayLoop }
  | delayExit {c : Choice} : s.run = .delayLoop →
      s.closed ∨ c ≠ .alt ∨ (¬s.inTaken < s.reqs.length ∧ s.inClosed) →
      RunMove s c { s with run := .check }
  | delayTake : s.run = .delayLoop → ¬s.closed → s.inTaken < s.reqs.length →
      RunMove s .alt (s.take.complete s.inTaken (.fail .backendConnReset) .delay)

namespace Sys

/-- **Every step of `run` is one of the `RunMove`s.** -/
theorem runStep_move {c : Choice} (h : s.runStep c = some s') : RunMove s c s' := by
  unfold runStep at h
  split at h
  · cases h; exact .check ‹_›
  · split at h
    · cases h; exact .dialOk ‹_›
    · cases h; exact .dialFail ‹_› (by rintro rfl; simp_all)
  · split at h
    · cases h; exact .recv ‹_› ‹_›
    · split at h
      · cases h; exact .recvClosed ‹_› ‹_› ‹_›
      · cases h
  · split at h
    · split at h
      · cases h; exact .broken ‹_› ‹_›
      · cases h
    · cases h; exact .encodeFail _ ‹_›
    · cases h; exact .encodeOk ‹_›
  · split at h
    · cases h; exact .flushOk ‹_›
    · cases h; exact .flushFail _ ‹_›
    · split at h
      · cases h
      · cases h; exact .flushSkip ‹_› ‹_›
  · cases h; exact .send ‹_›
  · cases h; exact .set0 ‹_›
  · cases h; exact .closeTasks ‹_›
  · cases h; exact .drainDone ‹_›
  · split at h
    · cases h; exact .drain ‹_› ‹_›
    · cases h
  · cases h; exact .delay ‹_›
  · split at h
    · cases h; exact .delayExit ‹_› (.inl ‹_›)
    · split at h
      · split at h
        · cases h; exact .delayTake ‹_› ‹_› ‹_›
        · split at h
          · cases h; exact .delayExit ‹_› (.inr (.inr ⟨‹_›, ‹_›⟩))
          · cases h
      · cases h; exact .delayExit ‹_› (.inr (.inl ‹_›))
  · cases h

end Sys

/-- The ways a step of round `i`'s `loopReader` can go, given what its
`Decode` returns. -/
inductive ReaderMove (s : Sys) (i : Nat) : Except Err Payload → Sys → Prop
  | recv {o : Except Err Payload} {rd : Round} : s.rounds[i]? = some rd → rd.reader = .recv → rd.taken < rd.sent.length →
      ReaderMove s i o (s.modRound i fun rd =>
        { rd with taken := rd.taken + 1, reader := .decoding (rd.sent.getD rd.taken 0) })
  | recvClosed {o : Except Err Payload} {rd : Round} : s.rounds[i]? = some rd → rd.reader = .recv →
      ¬rd.taken < rd.sent.length → rd.closed →
      ReaderMove s i o (s.modRound i fun rd => { rd with reader := .drain })
  | decodeFail {rd : Round} {r : ReqId} (e : Err) : s.rounds[i]? = some rd → rd.reader = .decoding r →
      ReaderMove s i (.error e)
        (s.modRound i fun rd => { rd with reader := .responding r (.fail (.backendConnFailure e)) })
  | decodeOk {rd : Round} {r : ReqId} (p : Payload) : s.rounds[i]? = some rd →
      rd.reader = .decoding r → rd.frames < rd.encoded.length →
      ReaderMove s i (.ok p) { (s.modRound i fun rd =>
          { rd with
            frames := rd.frames + 1,
            reader := .responding r (.reply (rd.encoded.getD rd.frames 0) p) }) with
        state := if Sys.staleReply p && s.state = stateConnected then stateDataStale else s.state }
  | respond {o : Except Err Payload} {rd : Round} {r : ReqId} {out : Outcome} :
      s.rounds[i]? = some rd → rd.reader = .responding r out →
      ReaderMove s i o ((s.complete r out (.reader i)).modRound i fun rd =>
        { rd with reader := match out with | .fail _ => .drain | .reply _ _ => .recv })
  | drain {o : Except Err Payload} {rd : Round} :
      s.rounds[i]? = some rd → rd.reader = .drain → rd.taken < rd.sent.length →
      ReaderMove s i o ((s.complete (rd.sent.getD rd.taken 0) (.fail .backendConnReset) (.reader i)).modRound i
        fun rd => { rd with taken := rd.taken + 1 })
  | drainDone {o : Except Err Payload} {rd : Round} : s.rounds[i]? = some rd → rd.reader = .drain →
      ¬rd.taken < rd.sent.length → rd.closed →
      ReaderMove s i o (s.modRound i fun rd => { rd with reader := .exited })

/-- The keepalive callback goroutine runs the callback of `r`, whose request
is done with `d`. -/
inductive CallbackMove (s : Sys) : Sys → Prop
  | run {r : ReqId} {rest : List ReqId} {d : Done} : s.callbacks = r :: rest →
      s.log.find? (·.req = r) = some d →
      CallbackMove s { s with
        callbacks := rest,
        state := if Sys.recovers d.out && s.state = stateDataStale then stateConnected else s.state }

namespace Sys

/-- **Every step of a `loopReader` is one of the `ReaderMove`s.** -/
theorem readerStep_move {o : Except Err Payload} (h : s.readerStep i o = some s') :
    ReaderMove s i o s' := by
  unfold readerStep at h
  split at h
  · cases h
  rename_i rd hrd
  split at h
  · split at h
    · cases h; exact .recv hrd ‹_› ‹_›
    · split at h
      · cases h; exact .recvClosed hrd ‹_› ‹_› ‹_›
      · cases h
  · split at h
    · cases h; exact .decodeFail _ hrd ‹_›
    · split at h
      · cases h; exact .decodeOk _ hrd ‹_› ‹_›
      · cases h
  · cases h; exact .respond hrd ‹_›
  · split at h
    · cases h; exact .drain hrd ‹_› ‹_›
    · split at h
      · cases h; exact .drainDone hrd ‹_› ‹_› ‹_›
      · cases h
  · cases h

theorem callbackStep_move (h : s.callbackStep = some s') : CallbackMove s s' := by
  unfold callbackStep at h
  split at h
  · cases h
  · split at h
    · cases h
    · cases h; exact .run ‹_› ‹_›

end Sys

/-- A step of any goroutine, or of a caller of the worker's API. -/
inductive Move (s : Sys) : Sys → Prop
  /-- `PushBack`, `KeepAlive` and `Close` touch only the input queue, the
  closing flags and the callback queue. -/
  | caller {s' : Sys} : s'.run = s.run → s'.rounds = s.rounds → s'.state = s.state →
      s'.log = s.log → s'.inTaken = s.inTaken → s.reqs.length ≤ s'.reqs.length → Move s s'
  | run {c : Choice} {s' : Sys} : RunMove s c s' → Move s s'
  | reader {o : Except Err Payload} {s' : Sys} (i : Nat) : ReaderMove s i o s' → Move s s'
  | callback {s' : Sys} : CallbackMove s s' → Move s s'

/-- **Every action is one of the `Move`s.** -/
theorem next_move {s s' : Sys} {a : Act} (h : next s a = some s') : Move s s' := by
  cases a with
  | pushBack r =>
    simp only [next, Sys.pushBack] at h
    split at h <;> cases h
    exact .caller rfl rfl rfl rfl rfl (by simp)
  | keepAlive =>
    simp only [next, Sys.keepAlive] at h
    split at h
    · cases h; exact .caller rfl rfl rfl rfl rfl le_rfl
    split at h
    · cases h
    split at h <;> cases h <;> exact .caller rfl rfl rfl rfl rfl (by simp)
  | closeInput =>
    simp only [next] at h
    split at h <;> cases h
    exact .caller rfl rfl rfl rfl rfl le_rfl
  | closeSet =>
    simp only [next] at h
    split at h <;> cases h
    exact .caller rfl rfl rfl rfl rfl le_rfl
  | run c => exact .run (Sys.runStep_move h)
  | reader i o => exact .reader i (Sys.readerStep_move h)
  | callback => exact .callback (Sys.callbackStep_move h)

end Proxy
end Codis
