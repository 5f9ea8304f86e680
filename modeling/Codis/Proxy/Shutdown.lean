/-
# After `Close` the worker winds down, and what it leaves at rest

`Close` closes `bc.input` and sets `bc.closed`; from then on nothing can be
pushed. The goroutines that serve the worker, `run`, each round's
`loopReader` and the keepalive callback, then wind down on every schedule
(`close_winds_down`):

* every sequence of their steps is finite: each step lowers `Sys.rank`, what
  they have left to do, weighted so that `tasks <- r`, which hands a reader
  one more task, still lowers it (`rank_lt_of_worker`, `steps_le_rank`);
* where they come to rest, `run` has returned and so has every reader that
  does not wait in `Decode` (`rest_exited`): `run`'s deferred drain never
  waits for a request that is not in `bc.input`, and a round's `tasks` is
  closed once `run` has left the round, so no reader waits on it
  (`Unblocked`).

A reader in `c.Decode()` can always be failed by the network, but only two
things are sure to end its wait: the reply to a command a `Flush` wrote out,
and the read deadline `Decode` sets when `BackendRecvTimeout` is not 0.
`Flush(false)` need not write, and a broken read-only request that follows
is failed with no `Flush`, so a command can stay in the FlushEncoder's
buffer while its reader waits; `loopWriter` returns without writing it.
With no deadline that reader waits for good (`Round.waitsForever`), after
`Close` too (`hungClosed`). At rest (`Sys.AtRest`), closed or not, every
request `run` received has been completed, or is a task of such a reader
(`rest_answered`); with a deadline, every one has been completed.

Key definitions: `Act.ofWorker`, `Sys.rank`, `Unblocked`, `Round.waitsForever`,
`Sys.AtRest`.
Key theorems: `steps_le_rank`, `Reachable.unblocked`, `run_stuck`, `reader_rests`,
`close_winds_down`, `rest_answered`.
-/
import Mathlib.Algebra.BigOperators.Group.List
import Mathlib.Algebra.Order.Ring.Nat
import Codis.Proxy.Pipeline

namespace Codis
namespace Proxy

/-- The actions of the worker's own goroutines: `run`, the readers, and the
keepalive callback. -/
def Act.ofWorker : Act → Bool
  | .run _ | .reader _ _ | .callback => true
  | _ => false

/-- What `run` has left to do from `pc` once `bc.closed` is set, with `m`
requests in `bc.input`: a round takes each through `encode`, `flush` and
`send`, or fails and drains them, and the next check of `bc.closed` returns. -/
def RunPc.rank (m : Nat) : RunPc → Nat
  | .exited => 0
  | .check => 1
  | .delayLoop => 2
  | .delay => 3
  | .drain n _ => 4 + n
  | .closeTasks _ => 5 + m
  | .set0 _ => 6 + m
  | .recv => 7 + 4 * m
  | .send _ => 8 + 4 * m
  | .dial => 8 + 4 * m
  | .flush _ => 9 + 4 * m
  | .encode _ => 10 + 4 * m

/-- What a round's `loopReader` has left to do, with `k` tasks it has not
received: each is received, decoded and answered, or drained. -/
def Round.rank (rd : Round) : Nat :=
  match rd.reader with
  | .recv => 3 + 4 * (rd.sent.length - rd.taken)
  | .decoding _ => 5 + 4 * (rd.sent.length - rd.taken)
  | .responding _ (.reply _ _) => 4 + 4 * (rd.sent.length - rd.taken)
  | .responding _ (.fail _) => 2 + (rd.sent.length - rd.taken)
  | .drain => 1 + (rd.sent.length - rd.taken)
  | .exited => 0

/-- What the worker's goroutines have left to do once `bc.closed` is set.
`run`'s part weighs five times a reader's, so that `tasks <- r`, which gives
a reader one more task, still lowers it. -/
def Sys.rank (s : Sys) : Nat :=
  5 * s.run.rank s.inputLen + (s.rounds.map Round.rank).sum + s.callbacks.length

/-! ### Sums over lists changed at one place -/

section Modify

variable {α : Type} {l : List α} {i : Nat} {f : α → α} {g : α → Nat} {y : α}

theorem sum_map_modify (hy : l[i]? = some y) :
    ((l.modify f i).map g).sum + g y = (l.map g).sum + g (f y) := by
  induction l generalizing i with
  | nil => simp at hy
  | cons a l ih =>
    cases i with
    | zero =>
      simp only [List.getElem?_cons_zero, Option.some.injEq] at hy
      subst hy
      simp only [List.modify_zero_cons, List.map_cons, List.sum_cons]
      omega
    | succ i =>
      have := ih (by simpa using hy)
      simp only [List.modify_succ_cons, List.map_cons, List.sum_cons]
      omega

theorem sum_map_modify_le {d : Nat} (h : ∀ y, g (f y) ≤ g y + d) :
    ((l.modify f i).map g).sum ≤ (l.map g).sum + d := by
  cases hy : l[i]? with
  | none => rw [List.modify_eq_self (by simpa using hy)]; omega
  | some y => have := sum_map_modify (f := f) (g := g) hy; have := h y; omega

theorem sum_map_modify_lt (hy : l[i]? = some y) (h : g (f y) < g y) :
    ((l.modify f i).map g).sum < (l.map g).sum := by
  have := sum_map_modify (f := f) (g := g) hy; omega

end Modify

/-! ### Every step lowers the rank -/

section Rank

variable {s s' : Sys}

theorem RunMove.keeps {c : Choice} (hm : RunMove s c s') :
    s'.closed = s.closed ∧ s'.inClosed = s.inClosed ∧ s'.closing = s.closing ∧ s'.reqs = s.reqs ∧
      s'.callbacks = s.callbacks := by
  cases hm <;> exact ⟨rfl, rfl, rfl, rfl, rfl⟩

theorem ReaderMove.keeps {i : Nat} {o : Except Err Payload} (hm : ReaderMove s i o s') :
    s'.closed = s.closed ∧ s'.inClosed = s.inClosed ∧ s'.closing = s.closing ∧ s'.reqs = s.reqs ∧
      s'.callbacks = s.callbacks ∧ s'.run = s.run ∧ s'.inTaken = s.inTaken := by
  cases hm <;> exact ⟨rfl, rfl, rfl, rfl, rfl, rfl, rfl⟩

@[simp] theorem Round.rank_encoded (rd : Round) (e : List ReqId) : Round.rank { rd with encoded := e } = rd.rank := rfl

@[simp] theorem Round.rank_closed (rd : Round) (b : Bool) : Round.rank { rd with closed := b } = rd.rank := rfl

@[simp] theorem Round.rank_flushed (rd : Round) (n : Nat) : Round.rank { rd with flushed := n } = rd.rank := rfl

theorem sum_rank_modify {f : Round → Round} (hf : ∀ rd, (f rd).rank = rd.rank) {l : List Round} {i : Nat} :
    ((l.modify f i).map Round.rank).sum = (l.map Round.rank).sum := by
  rw [map_modify_eq hf]

theorem Round.rank_send (rd : Round) (r : ReqId) : Round.rank { rd with sent := rd.sent ++ [r] } ≤ rd.rank + 4 := by
  simp only [Round.rank, List.length_append, List.length_singleton]
  split <;> omega

/-- A step of `run` after `bc.closed` is set lowers the rank. -/
theorem RunMove.rank_lt {c : Choice} (hm : RunMove s c s') (hc : s.closed = true) : s'.rank < s.rank := by
  cases hm with
  | dialOk hr => simp [Sys.rank, hr, RunPc.rank, Sys.inputLen, Round.rank, Round.init, List.sum_append]; omega
  | @send _ r hr =>
    have := sum_map_modify_le (l := s.rounds) (i := s.cur) fun rd => Round.rank_send rd r
    simp [Sys.rank, hr, RunPc.rank, Sys.inputLen]; omega
  | drainDone hr | delay hr => split_ifs <;> simp [Sys.rank, hr, RunPc.rank]
  | delayTake _ hcl => simp [hc] at hcl
  | check hr | dialFail hr _ | recv hr _ | recvClosed hr _ _ | broken hr _ | encodeFail _ hr | encodeOk hr
    | flushOk hr | flushSkip hr _ | flushFail _ hr | set0 hr | closeTasks hr | drain hr _ | delayExit hr _ =>
    simp [Sys.rank, hr, hc, RunPc.rank, Sys.inputLen, sum_rank_modify] <;> omega

/-- A step of a reader lowers its round's rank and keeps the rest. -/
theorem ReaderMove.rank_lt {i : Nat} {o : Except Err Payload} (hm : ReaderMove s i o s') : s'.rank < s.rank := by
  obtain ⟨-, -, -, hreqs, hcb, hrun, hin⟩ := hm.keeps
  have key : (s'.rounds.map Round.rank).sum < (s.rounds.map Round.rank).sum := by
    cases hm with
    | @respond _ rd r out hrd hr =>
      exact sum_map_modify_lt hrd (by cases out <;> simp only [Round.rank, hr] <;> omega)
    | recv hrd hr _ | recvClosed hrd hr _ _ | decodeFail _ hrd hr | decodeOk _ hrd hr _ | drain hrd hr _
      | drainDone hrd hr _ _ => exact sum_map_modify_lt hrd (by simp only [Round.rank, hr]; omega)
  simp only [Sys.rank, Sys.inputLen, hreqs, hcb, hrun, hin]
  omega

theorem CallbackMove.rank_lt (hm : CallbackMove s s') : s'.rank < s.rank := by
  cases hm with
  | run hc => simp [Sys.rank, Sys.inputLen, hc]

/-- **Every step of the worker's goroutines after `bc.closed` is set lowers
the rank**, and leaves `bc.closed` and `bc.input`'s closing as they were. -/
theorem rank_lt_of_worker {a : Act} (ha : a.ofWorker) (hc : s.closed = true) (hn : next s a = some s') :
    s'.rank < s.rank ∧ s'.closed = s.closed ∧ s'.inClosed = s.inClosed := by
  cases a with
  | run c =>
    have hm := Sys.runStep_move hn
    exact ⟨hm.rank_lt hc, hm.keeps.1, hm.keeps.2.1⟩
  | reader i o =>
    have hm := Sys.readerStep_move hn
    exact ⟨hm.rank_lt, hm.keeps.1, hm.keeps.2.1⟩
  | callback =>
    have hm := Sys.callbackStep_move hn
    exact ⟨hm.rank_lt, by cases hm; rfl, by cases hm; rfl⟩
  | _ => cases ha

/-- A run of the worker's goroutines after `bc.closed` is set takes at most
`rank` steps, and leaves the closing flags as they were. -/
theorem steps_le_rank : ∀ {s s' : Sys} {as : List Act}, s.closed = true → (∀ a ∈ as, a.ofWorker) →
    runActs s as = some s' → as.length ≤ s.rank ∧ s'.closed = s.closed ∧ s'.inClosed = s.inClosed
  | _, _, [], _, _, h => by cases h; exact ⟨Nat.zero_le _, rfl, rfl⟩
  | s, _, a :: as, hc, ha, h => by
    obtain ⟨s₁, hn, h⟩ := Option.bind_eq_some.1 h
    obtain ⟨hlt, hc₁, hi₁⟩ := rank_lt_of_worker (ha a (.head _)) hc hn
    obtain ⟨hle, hc', hi'⟩ := steps_le_rank (hc₁.trans hc) (fun b hb => ha b (.tail _ hb)) h
    exact ⟨by simp only [List.length_cons]; omega, hc'.trans hc₁, hi'.trans hi₁⟩

end Rank

/-! ### Nothing waits forever -/

/-- What keeps `run` and the readers from waiting forever once `bc.input` is
closed: the deferred drain takes no more than `bc.input` holds, and a
round's `tasks` is closed once `run` is out of that round. -/
structure Unblocked (s : Sys) : Prop where
  drain : ∀ {n : Nat} {b : Bool}, s.run = .drain n b → n ≤ s.inputLen
  closed : ∀ {i : Nat} {rd : Round}, s.rounds[i]? = some rd → rd.closed = true ∨ s.run.onRound ∧ i = s.cur

namespace Unblocked

variable {s s' : Sys}

theorem init : Unblocked init := ⟨nofun, fun h => nomatch h⟩

theorem closed_keep (h : Unblocked s) {i : Nat} {rd : Round} (hrd : s'.rounds[i]? = some rd)
    (hsame : ∀ {j : Nat} {rd' : Round}, s'.rounds[j]? = some rd' → ∃ rd, s.rounds[j]? = some rd ∧ rd'.closed = rd.closed)
    (hlen : s'.rounds.length = s.rounds.length) (hon : s.run.onRound → s'.run.onRound) :
    rd.closed = true ∨ s'.run.onRound ∧ i = s'.cur := by
  obtain ⟨rd₀, hrd₀, hcl⟩ := hsame hrd
  rcases h.closed hrd₀ with hc | ⟨hr, hi⟩
  · exact .inl (hcl ▸ hc)
  · exact .inr ⟨hon hr, by simp only [Sys.cur, hlen, hi]⟩

theorem same_rounds {f : Round → Round} {j : Nat} {rd' : Round} (h : (s.rounds.modify f s.cur)[j]? = some rd')
    (hf : ∀ rd, (f rd).closed = rd.closed) : ∃ rd, s.rounds[j]? = some rd ∧ rd'.closed = rd.closed := by
  obtain ⟨y, hy, rfl⟩ := getElem?_modify_some h
  exact ⟨y, hy, by split <;> simp [hf]⟩

theorem runMove {c : Choice} (h : Unblocked s) (hm : RunMove s c s') : Unblocked s' := by
  have same : ∀ {j : Nat} {rd' : Round}, s.rounds[j]? = some rd' → ∃ rd, s.rounds[j]? = some rd ∧ rd'.closed = rd.closed :=
    fun hj => ⟨_, hj, rfl⟩
  have out : ∀ {pc : RunPc}, s.run = pc → pc.onRound = false → s.run.onRound → s'.run.onRound :=
    fun hr hpc hon => by simp [hr, hpc] at hon
  cases hm with
  | dialOk hr =>
    refine ⟨nofun, fun {i rd} hrd => ?_⟩
    by_cases hi : i < s.rounds.length
    · rw [List.getElem?_append_left hi] at hrd
      exact .inl ((h.closed hrd).resolve_right (by simp [hr, RunPc.onRound, RunPc.inRound]))
    · rw [List.getElem?_append_right (by omega)] at hrd
      have hi' : i = s.rounds.length := by
        by_contra hne
        rw [List.getElem?_eq_none (by simp only [List.length_singleton]; omega)] at hrd
        cases hrd
      exact .inr ⟨rfl, by simp [Sys.cur, hi']⟩
  | closeTasks hr =>
    refine ⟨fun hr' => by cases hr'; exact le_rfl, fun {i rd} hrd => .inl ?_⟩
    obtain ⟨y, hy, rfl⟩ := getElem?_modify_some hrd
    split
    · rfl
    · rename_i hne
      exact (h.closed hy).resolve_right fun ⟨_, hi⟩ => hne hi.symm
  | drain hr _ =>
    refine ⟨fun hr' => ?_, fun hrd => h.closed_keep hrd same rfl (out hr rfl)⟩
    cases hr'
    have := h.drain hr
    simp only [Sys.inputLen, Sys.complete_reqs, Sys.complete_inTaken, Sys.take_reqs, Sys.take_inTaken] at this ⊢
    omega
  | recv _ _ | recvClosed _ _ _ | broken _ _ | flushSkip _ _ | flushFail _ _ | set0 _ =>
    exact ⟨nofun, fun hrd => h.closed_keep hrd same rfl fun _ => rfl⟩
  | encodeFail _ _ | encodeOk _ | flushOk _ | send _ =>
    exact ⟨nofun, fun hrd =>
      h.closed_keep hrd (fun hj => same_rounds hj fun _ => rfl) (List.length_modify _ _ _) fun _ => rfl⟩
  | check hr | drainDone hr | delay hr =>
    exact ⟨(fun hr' => by split at hr' <;> cases hr'), fun hrd => h.closed_keep hrd same rfl (out hr rfl)⟩
  | dialFail hr _ =>
    exact ⟨(fun hr' => by cases hr'; exact le_rfl), fun hrd => h.closed_keep hrd same rfl (out hr rfl)⟩
  | delayExit hr _ | delayTake hr _ _ =>
    exact ⟨(fun hr' => by simp [hr] at hr'), fun hrd => h.closed_keep hrd same rfl (out hr rfl)⟩

theorem move (h : Unblocked s) (hm : Move s s') : Unblocked s' := by
  cases hm with
  | caller hrun hrounds _ _ hin hlen =>
    refine ⟨fun hr => ?_, fun hrd => h.closed_keep hrd (fun hj => ⟨_, hrounds ▸ hj, rfl⟩) (by rw [hrounds]) (hrun ▸ id)⟩
    have := h.drain (hrun ▸ hr)
    simp only [Sys.inputLen, hin] at this ⊢
    omega
  | run hm => exact h.runMove hm
  | reader i hm =>
    obtain ⟨hrun, hlen, hsame, -⟩ := hm.frame
    obtain ⟨-, -, -, hreqs, -, -, hin⟩ := hm.keeps
    refine ⟨fun hr => ?_, fun hrd => h.closed_keep hrd (fun hj => ?_) hlen (hrun ▸ id)⟩
    · simpa [Sys.inputLen, hreqs, hin] using h.drain (hrun ▸ hr)
    · obtain ⟨rd, hrd, -, -, hcl⟩ := hsame hj
      exact ⟨rd, hrd, hcl⟩
  | callback hm =>
    cases hm
    exact ⟨h.drain, h.closed⟩

end Unblocked

theorem Reachable.unblocked {s : Sys} (hs : Reachable s) : Unblocked s := by
  induction hs with
  | init => exact Unblocked.init
  | step _ _ hn ih => exact ih.move (next_move hn)

/-- `Close` closes `bc.input` before it sets `bc.closed`, and nothing opens
them again. -/
theorem Reachable.closing {s : Sys} (hs : Reachable s) :
    (s.closing ≠ 0 → s.inClosed = true) ∧ (s.closing = 2 → s.closed = true) := by
  induction hs with
  | init => exact ⟨fun h => absurd rfl h, nofun⟩
  | @step s s' a _ hn ih =>
    cases a with
    | pushBack r =>
      simp only [next, Sys.pushBack] at hn
      split at hn <;> cases hn
      exact ih
    | keepAlive =>
      simp only [next, Sys.keepAlive] at hn
      split_ifs at hn <;> cases hn <;> exact ih
    | closeInput =>
      simp only [next] at hn
      split at hn <;> cases hn
      exact ⟨fun _ => rfl, nofun⟩
    | closeSet =>
      simp only [next] at hn
      split at hn <;> cases hn
      exact ⟨fun _ => ih.1 (by omega), fun _ => rfl⟩
    | run c =>
      obtain ⟨h1, h2, h3, -⟩ := (Sys.runStep_move hn).keeps
      rw [h1, h2, h3]; exact ih
    | reader i o =>
      obtain ⟨h1, h2, h3, -⟩ := (Sys.readerStep_move hn).keeps
      rw [h1, h2, h3]; exact ih
    | callback =>
      cases Sys.callbackStep_move hn
      exact ih

/-- A `run` that cannot step has returned, or waits in `loopWriter`'s range
loop on an empty `bc.input` that is still open. -/
theorem run_stuck {s : Sys} (hu : Unblocked s) (hrun : ∀ c, s.runStep c = none) :
    s.run = .exited ∨ s.run = .recv ∧ ¬s.inTaken < s.reqs.length ∧ s.inClosed = false := by
  have h := hrun .ok
  cases hr : s.run with
  | exited => exact .inl rfl
  | recv =>
    simp only [Sys.runStep, hr] at h
    split_ifs at h with h1 h2
    exact .inr ⟨rfl, h1, Bool.eq_false_iff.2 h2⟩
  | encode r => have h := hrun (.fail (.io 0)); simp [Sys.runStep, hr] at h
  | drain n b =>
    cases n with
    | zero => simp [Sys.runStep, hr] at h
    | succ n => have := hu.drain hr; simp only [Sys.inputLen] at this; simp [Sys.runStep, hr] at h; omega
  | delayLoop => simp only [Sys.runStep, hr] at h; split_ifs at h
  | _ => simp [Sys.runStep, hr] at h

/-- A reader that cannot step has returned, or has received every task and
waits on its round's `tasks`, still open. -/
theorem reader_stuck {s : Sys} {i : Nat} {rd : Round} (hi : s.rounds[i]? = some rd)
    (hrd : ∀ o, s.readerStep i o = none) :
    rd.reader = .exited ∨ (rd.reader = .recv ∨ rd.reader = .drain) ∧ ¬rd.taken < rd.sent.length ∧
      rd.closed = false := by
  have h := hrd (.error (.io 0))
  cases hr : rd.reader with
  | exited => exact .inl rfl
  | recv =>
    simp only [Sys.readerStep, hi, hr] at h
    split_ifs at h with h1 h2
    exact .inr ⟨.inl rfl, h1, Bool.eq_false_iff.2 h2⟩
  | drain =>
    simp only [Sys.readerStep, hi, hr] at h
    split_ifs at h with h1 h2
    exact .inr ⟨.inr rfl, h1, Bool.eq_false_iff.2 h2⟩
  | _ => simp [Sys.readerStep, hi, hr] at h

/-! ### At rest

A reader in `c.Decode()` has always a step in `readerStep`: the network can
fail the read at any time. What is sure to end the wait is a reply to a
command a `Flush` wrote out, or the read deadline `Decode` sets when
`BackendRecvTimeout` is not 0. At rest, then, a reader in `Decode` is one
for which neither holds. -/

/-- Whether a round's `loopReader` may wait in `c.Decode()` for good: the
command whose reply it waits for is past what a `Flush` wrote out, so no
reply is sure to come, and there is no read deadline (`deadline` false,
`BackendRecvTimeout` 0) to end the wait. -/
def Round.waitsForever (deadline : Bool) (rd : Round) : Bool :=
  match rd.reader with
  | .decoding _ => !deadline && decide (rd.flushed ≤ rd.frames)
  | _ => false

@[simp] theorem Round.waitsForever_deadline (rd : Round) : rd.waitsForever true = false := by
  unfold Round.waitsForever; split <;> rfl

/-- The worker is at rest: `run` cannot step, and each reader cannot step or
waits in `Decode` for good. -/
def Sys.AtRest (deadline : Bool) (s : Sys) : Prop :=
  (∀ c, s.runStep c = none) ∧
    ∀ i, (∀ o, s.readerStep i o = none) ∨ ∃ rd, s.rounds[i]? = some rd ∧ rd.waitsForever deadline

/-- A reader of a worker at rest has returned, waits on its round's `tasks`
with every task received, or waits in `Decode` for good. -/
theorem reader_rests {s : Sys} {deadline : Bool} (hrest : s.AtRest deadline) {i : Nat} {rd : Round}
    (hi : s.rounds[i]? = some rd) :
    rd.reader = .exited ∨ (rd.reader = .recv ∨ rd.reader = .drain) ∧ ¬rd.taken < rd.sent.length ∧
      rd.closed = false ∨ rd.waitsForever deadline := by
  rcases hrest.2 i with h | ⟨rd', hi', hw⟩
  · exact (reader_stuck hi h).imp_right .inl
  · cases hi.symm.trans hi'; exact .inr (.inr hw)

/-- Once `bc.input` is closed, a worker at rest has nothing left but readers
waiting in `Decode` for good: `run` and every other reader have returned. -/
theorem rest_exited {s : Sys} (hs : Reachable s) (hic : s.inClosed = true) {deadline : Bool}
    (hrest : s.AtRest deadline) :
    s.run = .exited ∧ ∀ rd ∈ s.rounds, rd.reader = .exited ∨ rd.waitsForever deadline := by
  have hu := hs.unblocked
  have hx : s.run = .exited := (run_stuck hu hrest.1).resolve_right fun ⟨_, _, h⟩ => by simp [hic] at h
  refine ⟨hx, fun rd hmem => ?_⟩
  obtain ⟨i, hi⟩ := List.mem_iff_getElem?.1 hmem
  have hcl : rd.closed = true :=
    (hu.closed hi).resolve_right (by simp [hx, RunPc.onRound, RunPc.inRound])
  rcases reader_rests hrest hi with h | ⟨-, -, h⟩ | h
  · exact .inl h
  · simp [hcl] at h
  · exact .inr h

/-! ### After `Close` -/

/-- **After `Close`, the worker winds down.** From every state a run reaches
once `Close` has returned, every schedule of the worker's goroutines (`run`,
the readers, the keepalive callback) is finite, at most `rank` steps long;
and where it comes to rest, `run` has returned and every reader has returned
or waits in `Decode` for good, for the reply to a command no `Flush` wrote
out with no read deadline set. With a deadline (`Round.waitsForever_deadline`)
every reader has returned. -/
theorem close_winds_down {s : Sys} (hs : Reachable s) (hc : s.closing = 2) (deadline : Bool) :
    ∀ (as : List Act) (s' : Sys), (∀ a ∈ as, a.ofWorker) → runActs s as = some s' →
      as.length ≤ s.rank ∧
        (s'.AtRest deadline →
          s'.run = .exited ∧ ∀ rd ∈ s'.rounds, rd.reader = .exited ∨ rd.waitsForever deadline) := by
  intro as s' ha h
  obtain ⟨hic, hcl⟩ := hs.closing
  obtain ⟨hle, -, hic'⟩ := steps_le_rank (hcl hc) ha h
  exact ⟨hle, rest_exited (runActs_reachable hs h) (hic'.trans (hic (by omega)))⟩

/-- A request pushed, a round dialled, then `Close`: `run` waits in
`loopWriter`'s range loop with the request still in `bc.input`. -/
def closeBusyTrace : List Act :=
  [.pushBack ⟨false, none, false⟩, .run .ok, .run .ok, .closeInput, .closeSet]

/-- The state `closeBusyTrace` leaves. -/
def closedBusy : Sys := (runActs init closeBusyTrace).getD init

/-- The worker winding down from `closedBusy`: `run` takes the request and
fails to encode it, closes the round's `tasks`, and returns at the next
check; the reader finds `tasks` closed and returns. -/
def windDown : List Act :=
  [.run .ok, .run (.fail (.io 0)), .run .ok, .run .ok, .run .ok, .run .ok, .run .ok,
    .reader 0 (.ok .other), .reader 0 (.ok .other)]

theorem close_winds_down_closedBusy :
    Reachable closedBusy ∧ closedBusy.closing = 2 ∧ windDown.length ≤ closedBusy.rank ∧
      (((runActs closedBusy windDown).getD init).AtRest false →
        ((runActs closedBusy windDown).getD init).run = .exited ∧
          ∀ rd ∈ ((runActs closedBusy windDown).getD init).rounds,
            rd.reader = .exited ∨ rd.waitsForever false) :=
  have hs : Reachable closedBusy := @runActs_reachable init closedBusy closeBusyTrace .init rfl
  ⟨hs, rfl, close_winds_down hs rfl false windDown _ (by decide) rfl⟩

/-- Two requests pushed: `run` encodes the first and, with the second still
in `bc.input`, its `Flush(false)` does not write; it sends the first into
`tasks`, and fails the second, a broken read-only request, without a
`Flush`. The reader takes the first and waits in `Decode` for a reply to a
command that is still in the FlushEncoder's buffer. -/
def hangTrace : List Act :=
  [.pushBack ⟨false, none, false⟩, .pushBack ⟨true, none, false⟩, .run .ok, .run .ok, .run .ok,
    .run .ok, .run .alt, .run .ok, .run .ok, .run .alt, .reader 0 (.ok .other)]

/-- The state `hangTrace` leaves. -/
def hung : Sys := (runActs init hangTrace).getD init

/-- `hung`, then `Close`: `run` leaves its range loop, closes `tasks` and
returns, never writing the buffer out. -/
def hungClosed : Sys :=
  (runActs hung [.closeInput, .closeSet, .run .ok, .run .ok, .run .ok, .run .ok, .run .ok]).getD init

/-- With no read deadline, `hungClosed` is at rest after `Close` with its
reader in `Decode` for good and the first request never completed. -/
example : hungClosed.closing = 2 ∧ hungClosed.run = .exited ∧ hungClosed.AtRest false ∧
    hungClosed.rounds.map (Round.waitsForever false) = [true] ∧ ¬∃ d ∈ hungClosed.log, d.req = 0 :=
  ⟨rfl, rfl, ⟨fun _ => rfl, fun i => by cases i <;> first | exact .inr ⟨_, rfl, rfl⟩ | exact .inl fun _ => rfl⟩,
    rfl, by decide⟩

/-! ### At rest, answered -/

/-- **A worker at rest has answered everything it received, bar what a
reader waits for in `Decode` for good.** In every reachable state at rest,
closed or not, `run` has returned or waits on an empty `bc.input`; every
round's reader has received every task of its round and holds none, or
waits in `Decode` for good; and every request `run` received from
`bc.input` has been completed, or belongs to such a reader, held by it or
still in its `tasks`. With a read deadline no reader waits for good
(`Round.waitsForever_deadline`), so every received request has been
completed. -/
theorem rest_answered {s : Sys} (hs : Reachable s) {deadline : Bool} (hrest : s.AtRest deadline) :
    (s.run = .exited ∨ s.run = .recv ∧ s.inputLen = 0) ∧
      (∀ rd ∈ s.rounds, rd.taken = rd.sent.length ∧ rd.reader.held = [] ∨ rd.waitsForever deadline) ∧
      ∀ r < s.inTaken, (∃ d ∈ s.log, d.req = r) ∨
        ∃ rd ∈ s.rounds, rd.waitsForever deadline ∧ r ∈ rd.owned := by
  have hg := hs.shape.good
  have hidle : ∀ rd ∈ s.rounds, rd.taken = rd.sent.length ∧ rd.reader.held = [] ∨
      rd.waitsForever deadline := by
    intro rd hmem
    obtain ⟨i, hi⟩ := List.mem_iff_getElem?.1 hmem
    have hle := (hg rd hmem).taken_le
    rcases reader_rests hrest hi with hx | ⟨hr, hlt, -⟩ | hw
    · exact .inl ⟨((hg rd hmem).exited hx).2, by simp [hx, ReaderPc.held]⟩
    · exact .inl ⟨by omega, by rcases hr with hr | hr <;> simp [hr, ReaderPc.held]⟩
    · exact .inr hw
  have hrun' := run_stuck hs.unblocked hrest.1
  refine ⟨hrun'.imp id fun ⟨h1, h2, _⟩ => ⟨h1, by simp only [Sys.inputLen]; omega⟩, hidle, fun r hr => ?_⟩
  have hmem := hs.owner.owned.symm.subset (List.mem_range.2 hr)
  have hheld : s.run.held = [] := by rcases hrun' with h | ⟨h, -⟩ <;> simp [h, RunPc.held]
  simp only [Sys.owned, hheld, List.nil_append, List.mem_append, List.mem_flatten, List.mem_map] at hmem
  rcases hmem with ⟨_, ⟨rd, hrd', rfl⟩, hx⟩ | ⟨d, hd, rfl⟩
  · rcases hidle rd hrd' with ⟨ht, hh⟩ | hw
    · simp [Round.owned, ht, hh] at hx
    · exact .inr ⟨rd, hrd', hw, hx⟩
  · exact .inl ⟨d, hd, rfl⟩

theorem rest_answered_hung :
    Reachable hung ∧ hung.AtRest false ∧
      (hung.run = .exited ∨ hung.run = .recv ∧ hung.inputLen = 0) ∧
      (∀ rd ∈ hung.rounds, rd.taken = rd.sent.length ∧ rd.reader.held = [] ∨ rd.waitsForever false) ∧
      ∀ r < hung.inTaken, (∃ d ∈ hung.log, d.req = r) ∨
        ∃ rd ∈ hung.rounds, rd.waitsForever false ∧ r ∈ rd.owned :=
  have hs : Reachable hung := @runActs_reachable init hung hangTrace .init rfl
  have hrest : hung.AtRest false :=
    ⟨fun _ => rfl, fun i => by cases i <;> first | exact .inr ⟨_, rfl, rfl⟩ | exact .inl fun _ => rfl⟩
  ⟨hs, hrest, rest_answered hs hrest⟩

/-- At rest in `hung`, the first request is the reader's and not completed;
the second, broken, was failed by the writer. -/
example : (¬∃ d ∈ hung.log, d.req = 0) ∧ ∃ d ∈ hung.log, d.req = 1 := by decide

end Proxy
end Codis
