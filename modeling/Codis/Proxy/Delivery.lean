/-
# What reaches the backend, and in what order the replies come back

A round's connection carries the commands `loopWriter` wrote on it
(`Round.encoded`), and `written` is all of them, round after round. `run`
writes only the request it has just received from `bc.input`, and a round
that fails fails its requests instead of writing them again on the next
connection. So in every reachable state no command has been written twice,
on one connection or across reconnects, and only received requests were
written (`written_at_most_once`).

Who completed a request says whether its command reached a connection. A
reader completes only tasks of its own round, which that round's connection
carries: with the reply, with a decode failure, or with
`ErrBackendConnReset` in its deferred drain. The writer fails a request as
broken before writing it, or with a connection failure after writing it.
`run`'s drain of `bc.input` and `delayBeforeRetry` fail with
`ErrBackendConnReset` only requests that were never written. The same error
thus means "never sent" from `run` and "sent, reply lost" from a reader.

A reader takes its tasks in the order `loopWriter` sent them and completes
each before it takes the next, so what it has completed, in the order of its
`setResponse` calls, followed by the task it holds, is the front of what was
written on its connection (`completed_in_order`).

Key definitions: `written`, `Entry`, `Wire`, `completedBy`, `Fifo`.
Key theorems: `Wire.move`, `Reachable.wire`, `written_at_most_once`,
`Fifo.move`, `completed_in_order`.
-/
import Codis.Proxy.Pipeline

namespace Codis
namespace Proxy

/-- Every command written on a connection, round after round. -/
def written (rounds : List Round) : List ReqId := (rounds.map Round.encoded).flatten

section Written

variable {rounds rounds' : List Round}

theorem mem_written {r : ReqId} : r ∈ written rounds ↔ ∃ rd ∈ rounds, r ∈ rd.encoded := by
  simp [written]

theorem written_modify_eq {f : Round → Round} {i : Nat} (hf : ∀ y, (f y).encoded = y.encoded) :
    written (rounds.modify f i) = written rounds := by
  rw [written, map_modify_eq hf]; rfl

theorem count_written_encode {i : Nat} {y : Round} (hy : rounds[i]? = some y) (r b : ReqId) :
    (written (rounds.modify (fun rd => { rd with encoded := rd.encoded ++ [r] }) i)).count b =
      (written rounds).count b + [r].count b := by
  have := count_flatten_map_modify (g := Round.encoded)
    (f := fun rd => { rd with encoded := rd.encoded ++ [r] }) hy b
  rw [List.count_append] at this
  unfold written; omega

theorem sent_modify {f : Round → Round} {i j : Nat} {rd : Round} (hf : ∀ y, ∀ r ∈ y.sent, r ∈ (f y).sent)
    (h : rounds[j]? = some rd) : ∃ rd', (rounds.modify f i)[j]? = some rd' ∧ ∀ r ∈ rd.sent, r ∈ rd'.sent := by
  rw [List.getElem?_modify, h]
  refine ⟨_, rfl, ?_⟩
  split
  · exact hf rd
  · exact fun _ => id

end Written

/-- What a completion says of its request's command. -/
structure Entry (rounds : List Round) (d : Done) : Prop where
  /-- a reader completes only a task of its own round -/
  reader : ∀ {i}, d.who = .reader i → ∃ rd, rounds[i]? = some rd ∧ d.req ∈ rd.sent
  /-- the writer fails a request as broken, or after writing it -/
  writer : d.who = .writer →
    d.out = .fail .requestIsBroken ∨ (∃ e, d.out = .fail (.backendConnFailure e)) ∧ d.req ∈ written rounds
  /-- `run`'s drains fail only requests never written -/
  drain : d.who = .drain ∨ d.who = .delay → d.req ∉ written rounds

/-- An entry stays true while the connections and the tasks only grow, with
nothing new written of its request. -/
theorem Entry.mono {rounds rounds' : List Round} {d : Done} (h : Entry rounds d)
    (hsub : ∀ r ∈ written rounds, r ∈ written rounds') (hnew : d.req ∈ written rounds' → d.req ∈ written rounds)
    (hsent : ∀ {i : Nat} {rd : Round}, rounds[i]? = some rd →
      ∃ rd', rounds'[i]? = some rd' ∧ ∀ r ∈ rd.sent, r ∈ rd'.sent) :
    Entry rounds' d where
  reader hi :=
    let ⟨_, hrd, hr⟩ := h.reader hi
    let ⟨rd', hrd', hs⟩ := hsent hrd
    ⟨rd', hrd', hs _ hr⟩
  writer hw := (h.writer hw).imp_right fun ⟨he, hr⟩ => ⟨he, hsub _ hr⟩
  drain hd hr := h.drain hd (hnew hr)

/-- What was written on the connections, and what each completion says of
it. -/
structure Wire (rounds : List Round) (log : List Done) (inTaken : Nat) : Prop where
  nodup : (written rounds).Nodup
  received : ∀ r ∈ written rounds, r < inTaken
  /-- a reader holds a task of its own round -/
  held : ∀ rd ∈ rounds, ∀ r ∈ rd.reader.held, r ∈ rd.sent
  entries : ∀ d ∈ log, Entry rounds d

namespace Wire

variable {rounds : List Round} {log : List Done} {n : Nat}

theorem init : Wire [] [] 0 := ⟨List.nodup_nil, nofun, nofun, nofun⟩

theorem complete (h : Wire rounds log n) {d : Done} (hd : Entry rounds d) : Wire rounds (log ++ [d]) n where
  nodup := h.nodup
  received := h.received
  held := h.held
  entries d' hd' := by
    rcases List.mem_append.1 hd' with hd' | hd'
    · exact h.entries d' hd'
    · rw [List.mem_singleton.1 hd']; exact hd

theorem take (h : Wire rounds log n) : Wire rounds log (n + 1) :=
  ⟨h.nodup, fun r hr => Nat.lt_succ_of_lt (h.received r hr), h.held, h.entries⟩

/-- A change of one round that keeps its connection, only adds to its
tasks, and leaves its reader holding one of them. -/
theorem modify (h : Wire rounds log n) {f : Round → Round} {i : Nat}
    (henc : ∀ y, (f y).encoded = y.encoded) (hsent : ∀ y, ∀ r ∈ y.sent, r ∈ (f y).sent)
    (hheld : ∀ y, rounds[i]? = some y → (∀ r ∈ y.reader.held, r ∈ y.sent) →
      ∀ r ∈ (f y).reader.held, r ∈ (f y).sent) :
    Wire (rounds.modify f i) log n := by
  have hw : written (rounds.modify f i) = written rounds := written_modify_eq henc
  refine ⟨hw ▸ h.nodup, hw ▸ h.received, ?_, fun d hd => (h.entries d hd).mono ?_ ?_ (sent_modify hsent)⟩
  · exact forall_mem_modify h.held fun y hy => hheld y hy (h.held y (List.getElem?_mem hy))
  · rw [hw]; exact fun _ => id
  · rw [hw]; exact id

/-- A round that just dialled: nothing on its connection, nothing held. -/
theorem newRound (h : Wire rounds log n) : Wire (rounds ++ [Round.init]) log n := by
  have hw : written (rounds ++ [Round.init]) = written rounds := by simp [written, Round.init]
  refine ⟨hw ▸ h.nodup, hw ▸ h.received, fun rd hrd => ?_, fun d hd => (h.entries d hd).mono ?_ ?_ ?_⟩
  · rcases List.mem_append.1 hrd with hrd | hrd
    · exact h.held rd hrd
    · rw [List.mem_singleton.1 hrd]; nofun
  · rw [hw]; exact fun _ => id
  · rw [hw]; exact id
  · exact fun hrd => ⟨_, List.getElem?_append_left (List.getElem?_eq_some_iff.1 hrd).1 ▸ hrd, fun _ => id⟩

/-- Writing on round `i`'s connection a request that was received, is on
no connection yet and is not completed. -/
theorem encode (h : Wire rounds log n) {i : Nat} {y : Round} {r : ReqId} (hy : rounds[i]? = some y)
    (hfresh : r ∉ written rounds) (hr : r < n) (hlog : ∀ d ∈ log, d.req ≠ r) :
    Wire (rounds.modify (fun rd => { rd with encoded := rd.encoded ++ [r] }) i) log n := by
  have hc := count_written_encode hy r
  have hmem : ∀ b, b ∈ written (rounds.modify (fun rd => { rd with encoded := rd.encoded ++ [r] }) i) →
      b ∈ written rounds ∨ b = r := fun b hb => by
    rw [← List.count_pos_iff, hc, List.count_singleton'] at hb
    by_cases hbr : r = b
    · exact .inr hbr.symm
    · rw [if_neg hbr, Nat.add_zero] at hb; exact .inl (List.count_pos_iff.1 hb)
  refine ⟨List.nodup_iff_count_le_one.2 fun b => ?_, fun b hb => ?_, ?_, fun d hd => ?_⟩
  · rw [hc, List.count_singleton']
    split
    · subst_vars; rw [List.count_eq_zero.2 hfresh]
    · exact List.nodup_iff_count_le_one.1 h.nodup b
  · rcases hmem b hb with hb | rfl
    · exact h.received b hb
    · exact hr
  · exact forall_mem_modify h.held fun y hy => h.held y (List.getElem?_mem hy)
  · refine (h.entries d hd).mono (fun b hb => ?_) (fun hd' => ?_) (sent_modify fun _ _ => id)
    · rw [← List.count_pos_iff, hc]; exact Nat.lt_add_right _ (List.count_pos_iff.2 hb)
    · exact (hmem _ hd').resolve_right (hlog d hd)

variable {s s' : Sys}

/-- Each step of `run` keeps `Wire`: it writes only the fresh request it
holds, and its drains take requests not yet received. -/
theorem runMove {c : Choice} (hs : Shape s) (ho : Owner s) (h : Wire s.rounds s.log s.inTaken)
    (hm : RunMove s c s') : Wire s'.rounds s'.log s'.inTaken := by
  have fresh : ∀ {r}, s.run = .encode r → Wire
      (s.rounds.modify (fun rd => { rd with encoded := rd.encoded ++ [r] }) s.cur) s.log s.inTaken := by
    intro r hr
    have hheld : r ∈ s.run.held := by simp [hr, RunPc.held]
    obtain ⟨y, hy⟩ := hs.cur_some (by simp [hr, RunPc.onRound, RunPc.inRound])
    refine h.encode hy (fun hw => ?_) (List.mem_range.1 (ho.owned.subset (by simp [Sys.owned, hheld])))
      (ho.held_fresh hheld).2
    obtain ⟨rd, hrd, hr'⟩ := mem_written.1 hw
    exact ho.encode_fresh hs hr rd hrd hr'
  have unwritten : s.inTaken ∉ written s.rounds := fun hw => Nat.lt_irrefl _ (h.received _ hw)
  cases hm with
  | check _ | dialFail _ _ | recvClosed _ _ _ | flushSkip _ _ | set0 _ | drainDone _ | delay _
    | delayExit _ _ => exact h
  | dialOk _ => exact h.newRound
  | recv _ _ => exact h.take
  | broken _ _ => exact h.complete ⟨nofun, fun _ => .inl rfl, by simp⟩
  | encodeOk hr => exact fresh hr
  | encodeFail e hr =>
    refine (fresh hr).complete ⟨nofun, fun _ => .inr ⟨⟨e, rfl⟩, ?_⟩, by simp⟩
    obtain ⟨y, hy⟩ := hs.cur_some (by simp [hr, RunPc.onRound, RunPc.inRound])
    rw [← List.count_pos_iff, count_written_encode hy, List.count_singleton_self]
    exact Nat.succ_pos _
  | @flushFail r e hr =>
    refine h.complete ⟨nofun, fun _ => .inr ⟨⟨e, rfl⟩, ?_⟩, by simp⟩
    obtain ⟨y, hy⟩ := hs.cur_some (by simp [hr, RunPc.onRound, RunPc.inRound])
    have he := hs.writer hy (show s.run.pending = some [r] by simp [hr, RunPc.pending])
    exact mem_written.2 ⟨y, List.getElem?_mem hy, by simp [he]⟩
  | send _ =>
    exact h.modify (fun _ => rfl) (fun _ _ hr => List.mem_append_left _ hr)
      fun _ _ hh r hr => List.mem_append_left _ (hh r hr)
  | closeTasks _ | flushOk _ => exact h.modify (fun _ => rfl) (fun _ _ => id) fun _ _ => id
  | drain _ _ => exact Wire.take (h.complete ⟨nofun, nofun, fun _ => unwritten⟩)
  | delayTake _ _ _ => exact Wire.take (h.complete ⟨nofun, nofun, fun _ => unwritten⟩)

/-- Each step of a reader keeps `Wire`: it completes only a task of its own
round, which it holds or has not yet received. -/
theorem readerMove {i : Nat} {o : Except Err Payload} (h : Wire s.rounds s.log s.inTaken)
    (hm : ReaderMove s i o s') : Wire s'.rounds s'.log s'.inTaken := by
  have keep : ∀ {f : Round → Round}, (∀ y, (f y).encoded = y.encoded) → (∀ y, (f y).sent = y.sent) →
      (∀ y, s.rounds[i]? = some y → (∀ r ∈ y.reader.held, r ∈ y.sent) → ∀ r ∈ (f y).reader.held, r ∈ y.sent) →
      Wire (s.rounds.modify f i) s.log s.inTaken := fun henc hsent hheld =>
    h.modify henc (fun y r hr => (hsent y).symm ▸ hr) fun y hy hh r hr => (hsent y).symm ▸ hheld y hy hh r hr
  cases hm with
  | recv hrd _ ht =>
    refine keep (fun _ => rfl) (fun _ => rfl) fun y hy _ r hr => ?_
    cases hy.symm.trans hrd
    obtain rfl : r = _ := List.mem_singleton.1 hr
    rw [List.getD_eq_getElem _ _ ht]
    exact List.getElem_mem _
  | recvClosed _ _ _ _ | drainDone _ _ _ _ => exact keep (fun _ => rfl) (fun _ => rfl) fun _ _ _ _ => nofun
  | decodeFail _ hrd hr | decodeOk _ hrd hr _ =>
    refine keep (fun _ => rfl) (fun _ => rfl) fun y hy hh r hr' => ?_
    cases hy.symm.trans hrd
    exact hh r (by simpa [ReaderPc.held, hr] using hr')
  | @respond _ rd r _ hrd hr =>
    have hsent : r ∈ rd.sent := h.held _ (List.getElem?_mem hrd) _ (by simp [hr, ReaderPc.held])
    refine Wire.modify (h.complete ⟨fun hw => ?_, by simp, by simp⟩) (fun _ => rfl) (fun _ _ => id)
      fun _ _ _ r hr' => ?_
    · cases hw; exact ⟨_, hrd, hsent⟩
    · split at hr' <;> simp [ReaderPc.held] at hr'
  | @drain _ rd hrd _ ht =>
    have hsent : rd.sent.getD rd.taken 0 ∈ rd.sent := by
      rw [List.getD_eq_getElem _ _ ht]; exact List.getElem_mem _
    exact Wire.modify (h.complete ⟨fun hw => by cases hw; exact ⟨_, hrd, hsent⟩, by simp, by simp⟩)
      (fun _ => rfl) (fun _ _ => id) fun _ _ hh => hh

theorem move (hs : Shape s) (ho : Owner s) (h : Wire s.rounds s.log s.inTaken) (hm : Move s s') :
    Wire s'.rounds s'.log s'.inTaken := by
  cases hm with
  | caller _ hrounds _ hlog hin => rw [hrounds, hlog, hin]; exact h
  | run hm => exact h.runMove hs ho hm
  | reader i hm => exact h.readerMove hm
  | callback hm => cases hm; exact h

end Wire

/-- **Every reachable state's connections are as `Wire` says.** -/
theorem Reachable.wire {s : Sys} (hs : Reachable s) : Wire s.rounds s.log s.inTaken := by
  induction hs with
  | init => exact Wire.init
  | step _ hr hn ih => exact ih.move hr.shape hr.owner (next_move hn)

/-- **Every command reaches the backend at most once.** In every reachable
state no request's command has been written twice, on one connection or on
two rounds' connections, and only requests `run` received were written.
Every request a round's reader completed was written on that round's
connection; one the writer failed was written exactly when it failed with a
connection failure (and not as broken); and one that `run`'s drain or
`delayBeforeRetry` failed was never written. -/
theorem written_at_most_once {s : Sys} (hs : Reachable s) :
    (written s.rounds).Nodup ∧ (∀ r ∈ written s.rounds, r < s.inTaken) ∧
    (∀ d ∈ s.log, ∀ i, d.who = .reader i → ∃ rd, s.rounds[i]? = some rd ∧ d.req ∈ rd.encoded) ∧
    (∀ d ∈ s.log, d.who = .writer → (d.req ∈ written s.rounds ↔ ∃ e, d.out = .fail (.backendConnFailure e))) ∧
    (∀ d ∈ s.log, d.who = .drain ∨ d.who = .delay → d.req ∉ written s.rounds) := by
  have h := hs.wire
  refine ⟨h.nodup, h.received, fun d hd i hi => ?_, fun d hd hw => ?_, fun d hd => (h.entries d hd).drain⟩
  · obtain ⟨rd, hrd, hr⟩ := (h.entries d hd).reader hi
    exact ⟨rd, hrd, (hs.shape.good rd (List.getElem?_mem hrd)).encodes_sent.subset hr⟩
  · rcases (h.entries d hd).writer hw with hb | ⟨he, hr⟩
    · refine iff_of_false (fun hm => ?_) fun ⟨e, he⟩ => by rw [hb] at he; cases he
      obtain ⟨rd, hrd, hr⟩ := mem_written.1 hm
      exact hs.owner.broken d hd hb rd hrd hr
    · exact iff_of_true hr he

theorem written_at_most_once_served :
    (written served.rounds).Nodup ∧ (∀ r ∈ written served.rounds, r < served.inTaken) ∧
    (∀ d ∈ served.log, ∀ i, d.who = .reader i → ∃ rd, served.rounds[i]? = some rd ∧ d.req ∈ rd.encoded) ∧
    (∀ d ∈ served.log, d.who = .writer →
      (d.req ∈ written served.rounds ↔ ∃ e, d.out = .fail (.backendConnFailure e))) ∧
    (∀ d ∈ served.log, d.who = .drain ∨ d.who = .delay → d.req ∉ written served.rounds) :=
  written_at_most_once served_reachable

/-! ### Replies come back in order -/

/-- The requests round `i`'s reader completed, in the order it called
`setResponse`. -/
def completedBy (log : List Done) (i : Nat) : List ReqId :=
  (log.filter fun d => d.who == .reader i).map Done.req

theorem completedBy_append (log : List Done) (d : Done) (j : Nat) :
    completedBy (log ++ [d]) j = completedBy log j ++ if d.who = .reader j then [d.req] else [] := by
  simp only [completedBy, List.filter_append, List.map_append, List.filter_cons, List.filter_nil, beq_iff_eq]
  split <;> rfl

/-- Each round's reader has completed the first of the tasks it received,
in order, and holds the next. -/
structure Fifo (rounds : List Round) (log : List Done) : Prop where
  order : ∀ {i : Nat} {rd : Round}, rounds[i]? = some rd →
    completedBy log i ++ rd.reader.held = rd.sent.take rd.taken
  /-- only readers of existing rounds have completed requests -/
  fresh : ∀ d ∈ log, ∀ {i : Nat}, d.who = .reader i → i < rounds.length

namespace Fifo

variable {rounds : List Round} {log : List Done}

theorem init : Fifo [] [] := ⟨(fun h => nomatch h), nofun⟩

theorem complete (h : Fifo rounds log) {d : Done} (hd : ∀ i, d.who ≠ .reader i) : Fifo rounds (log ++ [d]) where
  order hrd := by rw [completedBy_append, if_neg (hd _), List.append_nil]; exact h.order hrd
  fresh d' hd' := by
    rcases List.mem_append.1 hd' with hd' | hd'
    · exact h.fresh d' hd'
    · rw [List.mem_singleton.1 hd']; exact fun hw => absurd hw (hd _)

/-- A change of round `i`, with what the log says of its reader and of the
others. -/
theorem modify (h : Fifo rounds log) {f : Round → Round} {i : Nat} {log' : List Done}
    (hlog : ∀ j, j ≠ i → completedBy log' j = completedBy log j)
    (hi : ∀ y, rounds[i]? = some y → completedBy log' i ++ (f y).reader.held = (f y).sent.take (f y).taken)
    (hfresh : ∀ d ∈ log', ∀ {j : Nat}, d.who = .reader j → j < rounds.length) :
    Fifo (rounds.modify f i) log' where
  order {j _} hj := by
    obtain ⟨y, hy, rfl⟩ := getElem?_modify_some hj
    split
    · subst_vars; exact hi y hy
    · rw [hlog j (Ne.symm ‹_›)]; exact h.order hy
  fresh d hd j hw := by rw [List.length_modify]; exact hfresh d hd hw

theorem keep (h : Fifo rounds log) {f : Round → Round} {i : Nat}
    (hf : ∀ y, rounds[i]? = some y → (f y).reader.held = y.reader.held ∧ (f y).sent.take (f y).taken = y.sent.take y.taken) :
    Fifo (rounds.modify f i) log :=
  h.modify (fun _ _ => rfl) (fun y hy => by rw [(hf y hy).1, (hf y hy).2]; exact h.order hy) h.fresh

theorem newRound (h : Fifo rounds log) : Fifo (rounds ++ [Round.init]) log where
  order {i rd} hrd := by
    rcases Nat.lt_or_ge i rounds.length with hi | hi
    · rw [List.getElem?_append_left hi] at hrd; exact h.order hrd
    · obtain rfl : rd = Round.init := by
        rcases getElem?_concat_some hrd with hrd | hrd
        · rw [List.getElem?_eq_none hi] at hrd; cases hrd
        · exact hrd
      have : completedBy log i = [] := by
        simp only [completedBy, List.map_eq_nil_iff, List.filter_eq_nil_iff, beq_iff_eq]
        exact fun d hd hw => absurd (h.fresh d hd hw) (by omega)
      rw [this]; rfl
  fresh d hd i hw := by rw [List.length_append]; exact Nat.lt_succ_of_lt (h.fresh d hd hw)

/-- Round `i`'s reader completes `d`, and its round changes with it. -/
theorem readerDone (h : Fifo rounds log) {f : Round → Round} {i : Nat} {rd : Round} (hrd : rounds[i]? = some rd)
    {d : Done} (hw : d.who = .reader i)
    (hi : completedBy log i ++ d.req :: (f rd).reader.held = (f rd).sent.take (f rd).taken) :
    Fifo (rounds.modify f i) (log ++ [d]) := by
  refine h.modify (fun j hj => ?_) (fun y hy => ?_) (fun d' hd' j hw' => ?_)
  · rw [completedBy_append, if_neg (by rw [hw]; simpa using Ne.symm hj), List.append_nil]
  · cases hy.symm.trans hrd
    rw [completedBy_append, if_pos hw, List.append_assoc]; exact hi
  · rcases List.mem_append.1 hd' with hd' | hd'
    · exact h.fresh d' hd' hw'
    · rw [List.mem_singleton.1 hd', hw] at hw'; cases hw'
      exact (List.getElem?_eq_some_iff.1 hrd).1

variable {s s' : Sys}

theorem runMove {c : Choice} (hs : Shape s) (h : Fifo s.rounds s.log) (hm : RunMove s c s') :
    Fifo s'.rounds s'.log := by
  cases hm with
  | check _ | dialFail _ _ | recv _ _ | recvClosed _ _ _ | flushSkip _ _ | set0 _ | drainDone _ | delay _
    | delayExit _ _ => exact h
  | dialOk _ => exact h.newRound
  | broken _ _ | flushFail _ _ | drain _ _ | delayTake _ _ _ => exact h.complete (by simp)
  | encodeOk _ => exact h.keep fun _ _ => ⟨rfl, rfl⟩
  | encodeFail _ _ =>
    refine Fifo.complete ?_ (by simp)
    exact h.keep fun _ _ => ⟨rfl, rfl⟩
  | send _ =>
    refine h.keep fun y hy => ⟨rfl, ?_⟩
    exact List.take_append_of_le_length (hs.good y (List.getElem?_mem hy)).taken_le
  | closeTasks _ | flushOk _ => exact h.keep fun _ _ => ⟨rfl, rfl⟩

theorem readerMove {i : Nat} {o : Except Err Payload} (h : Fifo s.rounds s.log) (hm : ReaderMove s i o s') :
    Fifo s'.rounds s'.log := by
  cases hm with
  | recv hrd hr ht =>
    refine h.modify (fun _ _ => rfl) (fun y hy => ?_) h.fresh
    cases hy.symm.trans hrd
    have := h.order hrd
    simp only [hr, ReaderPc.held, List.append_nil] at this
    rw [List.take_succ, List.getElem?_eq_getElem ht, ← this, List.getD_eq_getElem _ _ ht]; rfl
  | recvClosed hrd hr _ _ | decodeFail _ hrd hr | decodeOk _ hrd hr _ | drainDone hrd hr _ _ =>
    exact h.keep fun y hy => by cases hy.symm.trans hrd; simp [hr, ReaderPc.held]
  | @respond _ rd r out hrd hr =>
    refine h.readerDone hrd rfl ?_
    have := h.order hrd
    simp only [hr, ReaderPc.held] at this
    rw [← this]
    cases out <;> simp [ReaderPc.held]
  | @drain _ rd hrd hr ht =>
    refine h.readerDone hrd rfl ?_
    have := h.order hrd
    simp only [hr, ReaderPc.held, List.append_nil] at this
    rw [this, List.take_succ, List.getElem?_eq_getElem ht, List.getD_eq_getElem _ _ ht]
    simp [hr, ReaderPc.held]

theorem move (hs : Shape s) (h : Fifo s.rounds s.log) (hm : Move s s') : Fifo s'.rounds s'.log := by
  cases hm with
  | caller _ hrounds _ hlog => rw [hrounds, hlog]; exact h
  | run hm => exact h.runMove hs hm
  | reader i hm => exact h.readerMove hm
  | callback hm => cases hm; exact h

end Fifo

theorem Reachable.fifo {s : Sys} (hs : Reachable s) : Fifo s.rounds s.log := by
  induction hs with
  | init => exact Fifo.init
  | step _ hr hn ih => exact ih.move hr.shape (next_move hn)

/-- **Each connection's replies come back in order.** In every reachable
state, the requests round `i`'s reader has completed, in the order of its
calls of `setResponse`, followed by the one it holds, are the first commands
`loopWriter` wrote on that round's connection, in order. -/
theorem completed_in_order {s : Sys} (hs : Reachable s) :
    ∀ (i : Nat) (rd : Round), s.rounds[i]? = some rd →
      completedBy s.log i ++ rd.reader.held = rd.encoded.take rd.taken := by
  intro i rd hrd
  have g := hs.shape.good rd (List.getElem?_mem hrd)
  obtain ⟨t, ht⟩ := g.encodes_sent
  rw [hs.fifo.order hrd, ← ht, List.take_append_of_le_length g.taken_le]

theorem completed_in_order_served :
    ∃ rd, served.rounds[0]? = some rd ∧
      completedBy served.log 0 ++ rd.reader.held = rd.encoded.take rd.taken :=
  ⟨_, rfl, completed_in_order served_reachable 0 _ rfl⟩

end Proxy
end Codis
