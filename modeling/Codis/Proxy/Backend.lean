/-
# BackendConn: the worker of one backend connection

A `BackendConn` is a queue `bc.input` fed by `PushBack`, and goroutines
that serve it: `run` (its rounds of `loopWriter`, the deferred drains, and
`delayBeforeRetry`), one `loopReader` per round that dialled, and the
keepalive callback goroutine. `Sys` is the state of all of them; `next`
performs one atomic action of one of them (`Act`), and `Reachable` is every
state a run from `init` can get to.

A channel is its history and how much of it has been received: `bc.input`
is `reqs` with `inTaken`, a round's `tasks` is `sent` with `taken`. A
request is named by its place in `reqs`, one per `PushBack`. Every call of
`setResponse` is recorded in `log`, with who made it.

The network is abstracted to what the worker relies on: a round's
connection carries the commands `loopWriter` encoded, in order (`encoded`;
the AUTH and SELECT exchanges of `newBackendReader` come before them and
are consumed there), and the backend answers them in order, so the `k`-th
frame `loopReader` decodes is the reply to the `k`-th command. Which frames
arrive, and which dial, encode, flush and decode fail, is the scheduler's
choice (`Choice`, and the reader's `Except Err Payload`).

`p.EncodeMultiBulk` puts a command in the FlushEncoder's buffer, and
`p.Flush(len(bc.input) == 0)` writes the buffer out when forced or when
`NeedFlush` says so (the time since the last write, and `MaxBuffered`,
which the scheduler stands for: `Choice.ok` writes, `Choice.alt` does not).
The buffer's writer may also send a full buffer on its own, so a reply can
come for any encoded command; `flushed` counts the commands a `Flush` has
surely written out.

`bc.input` and `tasks` are unbounded here: a full channel only blocks its
sender. `r.IsBroken()` can turn true at any time, so the writer's check may
see a read-only request broken whenever it looks.

Key definitions: `Sys`, `Act`, `next`, `Reachable`.
-/
import Codis.Errors
import Codis.Proxy.Info

namespace Codis
namespace Proxy

/-- `stateConnected`. -/
def stateConnected : Nat := 1

/-- `stateDataStale`. -/
def stateDataStale : Nat := 2

/-- `errRespMasterDown`: `MASTERDOWN`. -/
def errRespMasterDown : List UInt8 := [77, 65, 83, 84, 69, 82, 68, 79, 87, 78]

/-- `errRespLoading`: `LOADING`. -/
def errRespLoading : List UInt8 := [76, 79, 65, 68, 73, 78, 71]

/-- A request, named by its `PushBack`. -/
abbrev ReqId := Nat

/-- What the worker sees of a `Request`. -/
structure Req where
  /-- `r.IsReadOnly()` -/
  readOnly : Bool
  /-- the `Batch` it was added to, if any -/
  batch : Option Nat
  /-- `KeepAlive`'s `INFO`, whose callback waits for it -/
  info : Bool
  deriving DecidableEq, Repr

/-- A reply frame, as the worker looks at it. -/
inductive Payload
  | error (text : List UInt8)
  | bulk (text : List UInt8)
  | other
  deriving DecidableEq, Repr

/-- How `setResponse` completed a request: with the backend's reply to the
command of request `cmd`, or with an error. -/
inductive Outcome
  | reply (cmd : ReqId) (p : Payload)
  | fail (e : Err)
  deriving DecidableEq, Repr

/-- Who called `setResponse`. -/
inductive Who
  /-- `loopWriter`'s range loop -/
  | writer
  /-- `loopWriter`'s deferred drain of `bc.input` -/
  | drain
  /-- `delayBeforeRetry` -/
  | delay
  /-- round `i`'s `loopReader`, in its loop or its deferred drain -/
  | reader (i : Nat)
  deriving DecidableEq, Repr

/-- One call of `setResponse`. -/
structure Done where
  req : ReqId
  out : Outcome
  who : Who
  deriving DecidableEq, Repr

/-- Where a round's `loopReader` is. -/
inductive ReaderPc
  /-- `for r := range tasks` -/
  | recv
  /-- `c.Decode()` for `r` -/
  | decoding (r : ReqId)
  /-- `bc.setResponse(r, ...)` with `o` -/
  | responding (r : ReqId) (o : Outcome)
  /-- the deferred `for r := range tasks` -/
  | drain
  | exited
  deriving DecidableEq, Repr

/-- A round that dialled: its connection and its `tasks` channel. -/
structure Round where
  /-- the requests whose command `loopWriter` wrote on the connection -/
  encoded : List ReqId
  /-- everything sent into `tasks` -/
  sent : List ReqId
  /-- how much of `sent` `loopReader` has received -/
  taken : Nat
  /-- `close(tasks)` -/
  closed : Bool
  /-- how many frames `loopReader` has decoded -/
  frames : Nat
  /-- how many of `encoded` a `Flush` has written out; the FlushEncoder's
  `nbuffered` commands after them may still sit in its buffer -/
  flushed : Nat
  reader : ReaderPc
  deriving DecidableEq, Repr

/-- A round that just dialled. -/
def Round.init : Round :=
  { encoded := [], sent := [], taken := 0, closed := false, frames := 0, flushed := 0, reader := .recv }

/-- Where the `run` goroutine is. -/
inductive RunPc
  /-- `bc.closed.IsFalse()`, at the top of each round -/
  | check
  /-- `bc.newBackendReader`: dial, AUTH, SELECT -/
  | dial
  /-- `for r := range bc.input` -/
  | recv
  /-- the broken check and `p.EncodeMultiBulk(r.Multi)` -/
  | encode (r : ReqId)
  /-- `p.Flush(len(bc.input) == 0)` -/
  | flush (r : ReqId)
  /-- `tasks <- r` -/
  | send (r : ReqId)
  /-- the deferred `bc.state.Set(0)`; `failed` is whether `loopWriter` returns an error -/
  | set0 (failed : Bool)
  /-- the deferred `close(tasks)` -/
  | closeTasks (failed : Bool)
  /-- the deferred drain, with `n` requests of `bc.input` still to take -/
  | drain (n : Nat) (failed : Bool)
  /-- `delayBeforeRetry`: `bc.retry.fails += 1` -/
  | delay
  /-- `delayBeforeRetry`'s `for bc.closed.IsFalse() { select ... }` -/
  | delayLoop
  | exited
  deriving DecidableEq, Repr

/-- The worker and everything around it. -/
structure Sys where
  /-- every `PushBack`, in order -/
  reqs : List Req
  /-- how many of them `run` has received from `bc.input` -/
  inTaken : Nat
  /-- `close(bc.input)` -/
  inClosed : Bool
  /-- `bc.closed` -/
  closed : Bool
  /-- `Close`: 0 not called, 1 input closed, 2 returned -/
  closing : Nat
  /-- `bc.state` -/
  state : Nat
  /-- `bc.retry.fails` -/
  fails : Nat
  run : RunPc
  rounds : List Round
  /-- every `setResponse`, in order -/
  log : List Done
  /-- `keepAliveCallback`'s queue: the `INFO` requests whose callbacks wait -/
  callbacks : List ReqId
  deriving DecidableEq, Repr

/-- `NewBackendConn`: nothing queued, `run` about to start. -/
def init : Sys :=
  { reqs := [], inTaken := 0, inClosed := false, closed := false, closing := 0, state := 0,
    fails := 0, run := .check, rounds := [], log := [], callbacks := [] }

/-- The scheduler's choice for a step of `run`: the call succeeds, fails
with `e`, or takes its other branch (a broken request; the input case of
`delayBeforeRetry`'s `select`). -/
inductive Choice
  | ok
  | fail (e : Err)
  | alt
  deriving DecidableEq, Repr

/-- One atomic action of one goroutine. -/
inductive Act
  /-- `PushBack(r)` -/
  | pushBack (r : Req)
  /-- `KeepAlive()` -/
  | keepAlive
  /-- `Close`: `bc.stop.Do(func() { close(bc.input) })` -/
  | closeInput
  /-- `Close`: `bc.closed.Set(true)` -/
  | closeSet
  /-- a step of `run` -/
  | run (c : Choice)
  /-- a step of round `i`'s `loopReader`; `o` is what its `Decode` returns -/
  | reader (i : Nat) (o : Except Err Payload)
  /-- the keepalive callback goroutine runs the first callback -/
  | callback

namespace Sys

/-- `len(bc.input)`. -/
def inputLen (s : Sys) : Nat := s.reqs.length - s.inTaken

/-- Record `setResponse(r, o)` by `w`. -/
def complete (s : Sys) (r : ReqId) (o : Outcome) (w : Who) : Sys :=
  { s with log := s.log ++ [⟨r, o, w⟩] }

/-- The round `run` is in. -/
def cur (s : Sys) : Nat := s.rounds.length - 1

/-- Change round `i`. -/
def modRound (s : Sys) (i : Nat) (f : Round → Round) : Sys :=
  { s with rounds := s.rounds.modify f i }

/-- `PushBack(r)`: a push after `close(bc.input)` would panic. -/
def pushBack (s : Sys) (r : Req) : Option Sys :=
  if s.inClosed then none else some { s with reqs := s.reqs ++ [r] }

/-- `KeepAlive`: nothing while `bc.input` is not empty; an `INFO` with a
callback in DataStale; a `PING` otherwise. -/
def keepAlive (s : Sys) : Option Sys :=
  if s.inputLen ≠ 0 then some s
  else if s.inClosed then none
  else if s.state = stateDataStale then
    some { s with reqs := s.reqs ++ [⟨false, none, true⟩], callbacks := s.callbacks ++ [s.reqs.length] }
  else some { s with reqs := s.reqs ++ [⟨false, none, false⟩] }

/-- The next request of `bc.input`, taken by `run`. -/
def take (s : Sys) : Sys := { s with inTaken := s.inTaken + 1 }

/-- One step of `run`. -/
def runStep (s : Sys) (c : Choice) : Option Sys :=
  match s.run with
  | .check => some { s with run := if s.closed then .exited else .dial }
  | .dial =>
    match c with
    | .ok =>
      some { s with
        rounds := s.rounds ++ [Round.init], state := stateConnected, fails := 0, run := .recv }
    | _ => some { s with run := .drain s.inputLen true }
  | .recv =>
    if s.inTaken < s.reqs.length then some { s.take with run := .encode s.inTaken }
    else if s.inClosed then some { s with run := .set0 false }
    else none
  | .encode r =>
    match c with
    | .alt =>
      if (s.reqs.getD r ⟨false, none, false⟩).readOnly then
        some { (s.complete r (.fail .requestIsBroken) .writer) with run := .recv }
      else none
    | .fail e =>
      some { ((s.modRound s.cur fun rd => { rd with encoded := rd.encoded ++ [r] }).complete r
        (.fail (.backendConnFailure e)) .writer) with run := .set0 true }
    | .ok =>
      some { (s.modRound s.cur fun rd => { rd with encoded := rd.encoded ++ [r] }) with run := .flush r }
  | .flush r =>
    match c with
    | .ok =>
      some { (s.modRound s.cur fun rd => { rd with flushed := rd.encoded.length }) with run := .send r }
    | .fail e => some { (s.complete r (.fail (.backendConnFailure e)) .writer) with run := .set0 true }
    | .alt => if s.inputLen = 0 then none else some { s with run := .send r }
  | .send r => some { (s.modRound s.cur fun rd => { rd with sent := rd.sent ++ [r] }) with run := .recv }
  | .set0 failed => some { s with state := 0, run := .closeTasks failed }
  | .closeTasks failed =>
    some { (s.modRound s.cur fun rd => { rd with closed := true }) with run := .drain s.inputLen failed }
  | .drain 0 failed => some { s with run := if failed then .delay else .check }
  | .drain (n + 1) failed =>
    if s.inTaken < s.reqs.length then
      some { (s.take.complete s.inTaken (.fail .backendConnReset) .drain) with run := .drain n failed }
    else none
  | .delay => some { s with fails := s.fails + 1, run := if s.fails + 1 ≤ 10 then .check else .delayLoop }
  | .delayLoop =>
    if s.closed then some { s with run := .check }
    else
      match c with
      | .alt =>
        if s.inTaken < s.reqs.length then
          some (s.take.complete s.inTaken (.fail .backendConnReset) .delay)
        else if s.inClosed then some { s with run := .check }
        else none
      | _ => some { s with run := .check }
  | .exited => none

/-- Whether an error reply makes `loopReader` try `CompareAndSwap(stateConnected,
stateDataStale)`: it begins with `MASTERDOWN` or `LOADING`. -/
def staleReply : Payload → Bool
  | .error text => errRespMasterDown.isPrefixOf text || errRespLoading.isPrefixOf text
  | _ => false

/-- One step of round `i`'s `loopReader`. -/
def readerStep (s : Sys) (i : Nat) (o : Except Err Payload) : Option Sys :=
  match s.rounds[i]? with
  | none => none
  | some rd =>
    match rd.reader with
    | .recv =>
      if rd.taken < rd.sent.length then
        some (s.modRound i fun rd =>
          { rd with taken := rd.taken + 1, reader := .decoding (rd.sent.getD rd.taken 0) })
      else if rd.closed then some (s.modRound i fun rd => { rd with reader := .drain })
      else none
    | .decoding r =>
      match o with
      | .error e =>
        some (s.modRound i fun rd => { rd with reader := .responding r (.fail (.backendConnFailure e)) })
      | .ok p =>
        if rd.frames < rd.encoded.length then
          some { (s.modRound i fun rd =>
              { rd with
                frames := rd.frames + 1,
                reader := .responding r (.reply (rd.encoded.getD rd.frames 0) p) }) with
            state := if staleReply p && s.state = stateConnected then stateDataStale else s.state }
        else none
    | .responding r out =>
      some ((s.complete r out (.reader i)).modRound i fun rd =>
        { rd with reader := match out with | .fail _ => .drain | .reply _ _ => .recv })
    | .drain =>
      if rd.taken < rd.sent.length then
        some ((s.complete (rd.sent.getD rd.taken 0) (.fail .backendConnReset) (.reader i)).modRound i
          fun rd => { rd with taken := rd.taken + 1 })
      else if rd.closed then some (s.modRound i fun rd => { rd with reader := .exited })
      else none
    | .exited => none

/-- Whether a completed `INFO` moves the worker back to Connected: its bulk
reply recovers. -/
def recovers : Outcome → Bool
  | .reply _ (.bulk text) => infoRecovers text
  | _ => false

/-- The keepalive callback goroutine runs the first callback, once its
request is done (`m.Batch.Wait()`). -/
def callbackStep (s : Sys) : Option Sys :=
  match s.callbacks with
  | [] => none
  | r :: rest =>
    match s.log.find? (·.req = r) with
    | none => none
    | some d =>
      some { s with
        callbacks := rest,
        state := if recovers d.out && s.state = stateDataStale then stateConnected else s.state }

end Sys

/-- One atomic action; `none` when it cannot happen now. -/
def next (s : Sys) : Act → Option Sys
  | .pushBack r => s.pushBack r
  | .keepAlive => s.keepAlive
  | .closeInput => if s.closing = 0 then some { s with inClosed := true, closing := 1 } else none
  | .closeSet => if s.closing = 1 then some { s with closed := true, closing := 2 } else none
  | .run c => s.runStep c
  | .reader i o => s.readerStep i o
  | .callback => s.callbackStep

/-- The states a run from `init` reaches. -/
inductive Reachable : Sys → Prop
  | init : Reachable init
  | step {s s' : Sys} (a : Act) : Reachable s → next s a = some s' → Reachable s'

/-- Run actions in order. -/
def runActs : Sys → List Act → Option Sys
  | s, [] => some s
  | s, a :: as => (next s a).bind (runActs · as)

theorem runActs_reachable : ∀ {s s' : Sys} {as : List Act}, Reachable s →
    runActs s as = some s' → Reachable s'
  | _, _, [], hs, h => by simp only [runActs, Option.some.injEq] at h; exact h ▸ hs
  | s, _, a :: as, hs, h => by
    simp only [runActs] at h
    cases hn : next s a with
    | none => simp [hn] at h
    | some s1 => simp only [hn, Option.bind_some] at h; exact runActs_reachable (.step a hs hn) h

/-- A run that serves one request and shuts down: `PushBack`, a round that
dials, encodes, flushes and sends it, its reader decoding and answering it,
then `Close`, with `run` and the reader returning. -/
def servedTrace : List Act :=
  [.pushBack ⟨false, none, false⟩, .run .ok, .run .ok, .run .ok, .run .ok, .run .ok, .run .ok,
    .reader 0 (.ok .other), .reader 0 (.ok .other), .reader 0 (.ok .other), .closeInput,
    .run .ok, .run .ok, .run .ok, .run .ok, .closeSet, .run .ok, .reader 0 (.ok .other),
    .reader 0 (.ok .other)]

/-- The state `servedTrace` leaves. -/
def served : Sys := (runActs init servedTrace).getD init

theorem served_reachable : Reachable served := @runActs_reachable init served servedTrace .init rfl

end Proxy
end Codis
