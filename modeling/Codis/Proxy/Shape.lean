/-
# The shape of a worker's state

What holds of every reachable state of a `BackendConn` apart from where its
requests are (`Shape`): `bc.state` is 0, `stateConnected` or
`stateDataStale`, and it is not 0 only while `run` is inside a round; the
round `run` works on exists; in `loopWriter`'s range loop the current
round's connection carries what was sent into `tasks`, and the request in
flight after it (`RunPc.pending`); and in every round `loopReader` decodes
the `k`-th frame for the `k`-th task it received (`Round.Good`).

From it, the health state machine: `state` changes only along the edges of
`StateEdge`, and only inside a round.

Key definitions: `RunPc.pending`, `Round.Good`, `Shape`, `StateEdge`.
Key theorems: `Shape.move`, `Reachable.shape`, `state_machine`.
-/
import Mathlib.Data.List.GetD
import Codis.Proxy.Steps

namespace Codis
namespace Proxy

/-! ### Lists changed at one place -/

section Modify

variable {α : Type} {f : α → α} {l : List α} {i j : Nat} {x : α}

theorem getElem?_modify_some (h : (l.modify f i)[j]? = some x) :
    ∃ y, l[j]? = some y ∧ x = if i = j then f y else y := by
  rw [List.getElem?_modify] at h
  cases hy : l[j]? with
  | none => simp [hy] at h
  | some y => simp only [hy, Option.map_eq_map, Option.map_some', Option.some.injEq] at h; exact ⟨y, rfl, h.symm⟩

theorem forall_mem_modify {p : α → Prop} (h : ∀ x ∈ l, p x) (hf : ∀ y, l[i]? = some y → p (f y)) :
    ∀ x ∈ l.modify f i, p x := by
  intro x hx
  obtain ⟨j, hj⟩ := List.mem_iff_getElem?.1 hx
  obtain ⟨y, hy, rfl⟩ := getElem?_modify_some hj
  split
  · subst_vars; exact hf y hy
  · exact h y (List.getElem?_mem hy)

end Modify

namespace RunPc

/-- What `loopWriter` has encoded on the current round's connection beyond
what it has sent into `tasks`, while it is in its range loop. -/
def pending : RunPc → Option (List ReqId)
  | .recv | .encode _ => some []
  | .flush r | .send r => some [r]
  | _ => none

end RunPc

/-! ### A round's own facts -/

/-- What holds of every round: `loopReader` has received at most what was
sent into `tasks`, the connection carries what was sent first, and the reader
decodes the `k`-th frame for the `k`-th task it received, so a reply it
completes a request with is the reply to that request's command. A request
it fails, it fails with a connection failure. -/
structure Round.Good (rd : Round) : Prop where
  taken_le : rd.taken ≤ rd.sent.length
  encodes_sent : rd.sent <+: rd.encoded
  recv : rd.reader = .recv → rd.frames = rd.taken
  decoding : ∀ {r}, rd.reader = .decoding r → rd.frames + 1 = rd.taken ∧ r = rd.sent.getD rd.frames 0
  reply : ∀ {r c p}, rd.reader = .responding r (.reply c p) → rd.frames = rd.taken ∧ c = r
  fail : ∀ {r e}, rd.reader = .responding r (.fail e) → ∃ e', e = .backendConnFailure e'
  exited : rd.reader = .exited → rd.closed ∧ rd.taken = rd.sent.length

namespace Round.Good

variable {rd : Round} {r : ReqId}

theorem init : Round.init.Good :=
  ⟨le_rfl, List.prefix_rfl, fun _ => rfl, nofun, nofun, nofun, nofun⟩

theorem encode (h : rd.Good) : { rd with encoded := rd.encoded ++ [r] }.Good :=
  ⟨h.1, h.2.trans (List.prefix_append _ _), h.3, h.4, h.5, h.6, h.7⟩

theorem close (h : rd.Good) : { rd with closed := true }.Good :=
  ⟨h.1, h.2, h.3, h.4, h.5, h.6, fun he => ⟨rfl, (h.7 he).2⟩⟩

theorem flush (h : rd.Good) (n : Nat) : { rd with flushed := n }.Good :=
  ⟨h.1, h.2, h.3, h.4, h.5, h.6, h.7⟩

/-- `tasks <- r` after `r` was encoded, into `tasks` not yet closed. -/
theorem send (h : rd.Good) (he : rd.encoded = rd.sent ++ [r]) (hc : rd.closed = false) :
    { rd with sent := rd.sent ++ [r] }.Good where
  taken_le := by simp only [List.length_append]; have := h.taken_le; omega
  encodes_sent := he ▸ List.prefix_rfl
  recv := h.recv
  decoding hd := by
    obtain ⟨h1, h2⟩ := h.decoding hd
    exact ⟨h1, by dsimp only; rw [List.getD_append _ _ _ _ (by have := h.taken_le; omega)]; exact h2⟩
  reply := h.reply
  fail := h.fail
  exited he := absurd (h.exited he).1 (by simp [hc])

end Round.Good

/-- Every step of a `loopReader` keeps each round good. -/
theorem ReaderMove.good {s s' : Sys} {i : Nat} {o : Except Err Payload} (hm : ReaderMove s i o s')
    (h : ∀ rd ∈ s.rounds, rd.Good) : ∀ rd ∈ s'.rounds, rd.Good := by
  cases hm with
  | recv hrd hr ht =>
    refine forall_mem_modify h fun y hy => ?_
    cases hy.symm.trans hrd
    have g := h _ (List.getElem?_mem hrd)
    refine ⟨ht, g.encodes_sent, nofun, fun hd => ?_, nofun, nofun, nofun⟩
    cases hd
    have := g.recv hr
    exact ⟨by dsimp only; omega, by dsimp only; rw [this]⟩
  | recvClosed hrd =>
    refine forall_mem_modify h fun y hy => ?_
    have g := h y (List.getElem?_mem hy)
    exact ⟨g.1, g.2, nofun, nofun, nofun, nofun, nofun⟩
  | decodeFail e hrd hr =>
    refine forall_mem_modify h fun y hy => ?_
    cases hy.symm.trans hrd
    have g := h _ (List.getElem?_mem hrd)
    exact ⟨g.1, g.2, nofun, nofun, nofun, fun hf => by cases hf; exact ⟨e, rfl⟩, nofun⟩
  | decodeOk p hrd hr hf =>
    refine forall_mem_modify h fun y hy => ?_
    cases hy.symm.trans hrd
    have g := h _ (List.getElem?_mem hrd)
    obtain ⟨h1, h2⟩ := g.decoding hr
    refine ⟨g.1, g.2, nofun, nofun, fun hc => ?_, nofun, nofun⟩
    cases hc
    refine ⟨h1, ?_⟩
    obtain ⟨t, ht⟩ := g.encodes_sent
    rw [h2, ← ht, List.getD_append _ _ _ _ (by have := g.taken_le; omega)]
  | respond hrd hr =>
    refine forall_mem_modify h fun y hy => ?_
    cases hy.symm.trans hrd
    have g := h _ (List.getElem?_mem hrd)
    split
    · exact ⟨g.1, g.2, nofun, nofun, nofun, nofun, nofun⟩
    · exact ⟨g.1, g.2, fun _ => (g.reply hr).1, nofun, nofun, nofun, nofun⟩
  | drain hrd hr ht =>
    refine forall_mem_modify h fun y hy => ?_
    cases hy.symm.trans hrd
    have g := h _ (List.getElem?_mem hrd)
    refine ⟨ht, g.2, ?_, ?_, ?_, ?_, ?_⟩ <;> simp [hr]
  | drainDone hrd _ ht hc =>
    refine forall_mem_modify h fun y hy => ?_
    cases hy.symm.trans hrd
    have g := h _ (List.getElem?_mem hrd)
    exact ⟨g.1, g.2, nofun, nofun, nofun, nofun, fun _ => ⟨hc, by have := g.1; dsimp only; omega⟩⟩

/-- A step of a reader keeps `run`, the rounds' connections and tasks, and
moves the state only from Connected to DataStale. -/
theorem ReaderMove.frame {s s' : Sys} {i : Nat} {o : Except Err Payload} (hm : ReaderMove s i o s') :
    s'.run = s.run ∧ s'.rounds.length = s.rounds.length ∧
    (∀ {j : Nat} {rd' : Round}, s'.rounds[j]? = some rd' → ∃ rd, s.rounds[j]? = some rd ∧
      rd'.encoded = rd.encoded ∧ rd'.sent = rd.sent ∧ rd'.closed = rd.closed) ∧
    (s'.state = s.state ∨ s.state = stateConnected ∧ s'.state = stateDataStale) := by
  have keep : ∀ {f : Round → Round} {j : Nat} {rd' : Round}, (s.rounds.modify f i)[j]? = some rd' →
      (∀ rd, (f rd).encoded = rd.encoded ∧ (f rd).sent = rd.sent ∧ (f rd).closed = rd.closed) →
        ∃ rd, s.rounds[j]? = some rd ∧
          rd'.encoded = rd.encoded ∧ rd'.sent = rd.sent ∧ rd'.closed = rd.closed := by
    intro f j rd' h hf
    obtain ⟨y, hy, rfl⟩ := getElem?_modify_some h
    exact ⟨y, hy, by split <;> simp [hf]⟩
  cases hm with
  | decodeOk p =>
    refine ⟨rfl, by simp, fun h => keep h fun _ => ⟨rfl, rfl, rfl⟩, ?_⟩
    split
    · simp_all
    · exact .inl rfl
  | respond => exact ⟨rfl, by simp, fun h => keep h fun _ => by split <;> simp, .inl rfl⟩
  | _ => exact ⟨rfl, by simp, fun h => keep h fun _ => ⟨rfl, rfl, rfl⟩, .inl rfl⟩

/-! ### The invariant -/

/-- The shape of every reachable state. -/
structure Shape (s : Sys) : Prop where
  state : s.state = 0 ∨ s.state = stateConnected ∨ s.state = stateDataStale
  inRound : s.state ≠ 0 → s.run.inRound
  rounds : s.run.onRound → s.rounds ≠ []
  writer : ∀ {rd q}, s.rounds[s.cur]? = some rd → s.run.pending = some q → rd.encoded = rd.sent ++ q
  closed : ∀ {rd}, s.rounds[s.cur]? = some rd → rd.closed → s.run.pending = none
  good : ∀ rd ∈ s.rounds, rd.Good

namespace Shape

variable {s s' : Sys}

theorem init : Shape init :=
  ⟨.inl rfl, fun h => absurd rfl h, nofun, (fun _ h => nomatch h), (fun h => nomatch h), nofun⟩

/-- A step that moves only `run`, to a place that is inside a round only if
the state may be non-zero and works on a round only if there is one, and
that keeps the request in flight. -/
theorem setRun (h : Shape s) (hst : s'.state = s.state) (hrounds : s'.rounds = s.rounds)
    (hin : s.state ≠ 0 → s'.run.inRound) (hon : s'.run.onRound → s.rounds ≠ [])
    (hw : ∀ {q}, s'.run.pending = some q → s.run.pending = some q) : Shape s' where
  state := hst ▸ h.state
  inRound := hst ▸ hin
  rounds := hrounds ▸ hon
  writer hrd hq := h.writer (by simpa [Sys.cur, hrounds] using hrd) (hw hq)
  closed hrd hc := by
    cases hq : s'.run.pending with
    | none => rfl
    | some q => simp [h.closed (by simpa [Sys.cur, hrounds] using hrd) hc] at hw; exact absurd (hw hq) nofun
  good := hrounds ▸ h.good

theorem state_eq_zero (h : Shape s) (hr : s.run.inRound = false) : s.state = 0 := by
  by_contra h0
  simpa [hr] using h.inRound h0

theorem cur_some (h : Shape s) (hr : s.run.onRound) : ∃ rd, s.rounds[s.cur]? = some rd := by
  have := List.length_pos.2 (h.rounds hr)
  exact ⟨_, List.getElem?_eq_getElem (by simp only [Sys.cur]; omega)⟩

theorem modCur (h : Shape s) {f : Round → Round} (hg : ∀ rd, rd.Good → s.rounds[s.cur]? = some rd → (f rd).Good) :
    ∀ rd ∈ (s.modRound s.cur f).rounds, rd.Good :=
  forall_mem_modify h.good fun y hy => hg y (h.good y (List.getElem?_mem hy)) hy

theorem runMove {c : Choice} (h : Shape s) (hm : RunMove s c s') : Shape s' := by
  cases hm with
  | check hr =>
    exact h.setRun rfl rfl (by simp [h.state_eq_zero (by simp [hr, RunPc.inRound])])
      (by split <;> simp [RunPc.onRound, RunPc.inRound]) (by split <;> simp [RunPc.pending])
  | dialOk hr =>
    have hnew : ∀ {rd : Round},
        (s.rounds ++ [Round.init])[(s.rounds ++ [Round.init]).length - 1]? = some rd → rd = Round.init := by
      simp
    refine ⟨.inr (.inl rfl), fun _ => rfl, fun _ => by simp, fun hrd hq => ?_,
      (fun hrd hc => by cases hnew hrd; cases hc), ?_⟩
    · cases hnew hrd; cases hq; rfl
    · intro rd hrd
      rcases List.mem_append.1 hrd with hrd | hrd
      · exact h.good rd hrd
      · rw [List.mem_singleton.1 hrd]; exact Round.Good.init
  | dialFail hr =>
    exact h.setRun rfl rfl (by simp [h.state_eq_zero (by simp [hr, RunPc.inRound])]) nofun nofun
  | recv hr =>
    exact h.setRun rfl rfl (fun _ => rfl)
      (fun _ => h.rounds (by simp [hr, RunPc.onRound, RunPc.inRound])) (by simp [hr, RunPc.pending])
  | recvClosed hr =>
    exact h.setRun rfl rfl (fun _ => rfl)
      (fun _ => h.rounds (by simp [hr, RunPc.onRound, RunPc.inRound])) nofun
  | broken hr =>
    exact h.setRun rfl rfl (fun _ => rfl)
      (fun _ => h.rounds (by simp [hr, RunPc.onRound, RunPc.inRound])) (by simp [hr, RunPc.pending])
  | encodeFail e hr =>
    have hne := h.rounds (by simp [hr, RunPc.onRound, RunPc.inRound])
    exact ⟨h.state, fun _ => rfl, fun _ => by simpa using hne, nofun, fun _ _ => rfl,
      h.modCur fun _ g _ => g.encode⟩
  | encodeOk hr =>
    have hne := h.rounds (by simp [hr, RunPc.onRound, RunPc.inRound])
    refine ⟨h.state, fun _ => rfl, fun _ => by simpa using hne, fun hrd hq => ?_, fun hrd hc => ?_,
      h.modCur fun _ g _ => g.encode⟩
    all_goals
      simp only [Sys.cur, Sys.modRound_rounds, List.length_modify] at hrd
      obtain ⟨y, hy, rfl⟩ := getElem?_modify_some hrd
    · cases hq
      simp [h.writer hy (show s.run.pending = some [] by simp [hr, RunPc.pending])]
    · have := h.closed hy (by simpa using hc)
      simp [hr, RunPc.pending] at this
  | @flushOk r hr =>
    have hne := h.rounds (by simp [hr, RunPc.onRound, RunPc.inRound])
    refine ⟨h.state, fun _ => rfl, fun _ => by simpa using hne, fun hrd hq => ?_, fun hrd hc => ?_,
      h.modCur fun _ g _ => g.flush _⟩
    all_goals
      simp only [Sys.cur, Sys.modRound_rounds, List.length_modify] at hrd
      obtain ⟨y, hy, rfl⟩ := getElem?_modify_some hrd
    · cases hq
      have := h.writer hy (show s.run.pending = some [r] by simp [hr, RunPc.pending])
      split <;> exact this
    · have := h.closed hy (by split at hc <;> exact hc)
      simp [hr, RunPc.pending] at this
  | flushSkip hr _ =>
    exact h.setRun rfl rfl (fun _ => rfl)
      (fun _ => h.rounds (by simp [hr, RunPc.onRound, RunPc.inRound])) (by simp [hr, RunPc.pending])
  | flushFail e hr =>
    exact h.setRun rfl rfl (fun _ => rfl)
      (fun _ => h.rounds (by simp [hr, RunPc.onRound, RunPc.inRound])) nofun
  | @send _ r hr =>
    have hne := h.rounds (by simp [hr, RunPc.onRound, RunPc.inRound])
    have hw : ∀ {rd}, s.rounds[s.cur]? = some rd → rd.encoded = rd.sent ++ [r] :=
      fun hy => h.writer hy (by simp [hr, RunPc.pending])
    have hc : ∀ {rd}, s.rounds[s.cur]? = some rd → rd.closed = false := fun hy =>
      Bool.eq_false_iff.2 fun hc => by simpa [hr, RunPc.pending] using h.closed hy hc
    refine ⟨h.state, fun _ => rfl, fun _ => by simpa using hne, fun hrd hq => ?_, fun hrd hc' => ?_,
      h.modCur fun _ g hy => g.send (hw hy) (hc hy)⟩
    all_goals
      simp only [Sys.cur, Sys.modRound_rounds, List.length_modify] at hrd
      obtain ⟨y, hy, rfl⟩ := getElem?_modify_some hrd
    · cases hq
      simp [hw hy]
    · simp [hc hy] at hc'
  | set0 hr =>
    have hne := h.rounds (by simp [hr, RunPc.onRound, RunPc.inRound])
    exact ⟨.inl rfl, fun h0 => absurd rfl h0, fun _ => hne, nofun, fun _ _ => rfl, h.good⟩
  | closeTasks hr =>
    have h0 := h.state_eq_zero (by simp [hr, RunPc.inRound])
    exact ⟨.inl h0, fun h1 => absurd h0 h1, nofun, nofun, fun _ _ => rfl, h.modCur fun _ g _ => g.close⟩
  | drainDone hr =>
    exact h.setRun rfl rfl (by simp [h.state_eq_zero (by simp [hr, RunPc.inRound])])
      (by split <;> simp [RunPc.onRound, RunPc.inRound]) (by split <;> simp [RunPc.pending])
  | drain hr =>
    exact h.setRun rfl rfl (by simp [h.state_eq_zero (by simp [hr, RunPc.inRound])]) nofun nofun
  | delay hr =>
    exact h.setRun rfl rfl (by simp [h.state_eq_zero (by simp [hr, RunPc.inRound])])
      (by split <;> simp [RunPc.onRound, RunPc.inRound]) (by split <;> simp [RunPc.pending])
  | delayExit hr =>
    exact h.setRun rfl rfl (by simp [h.state_eq_zero (by simp [hr, RunPc.inRound])]) nofun nofun
  | delayTake hr =>
    exact h.setRun rfl rfl (by simp [h.state_eq_zero (by simp [hr, RunPc.inRound])])
      (by simp [hr, RunPc.onRound, RunPc.inRound]) (by simp [hr, RunPc.pending])

/-- A step of a reader changes only its round, never its connection or its
tasks, and moves the state only from Connected to DataStale. -/
theorem readerMove {i : Nat} {o : Except Err Payload} (h : Shape s) (hm : ReaderMove s i o s') :
    Shape s' := by
  obtain ⟨hrun, hlen, hsame, hst⟩ := hm.frame
  refine ⟨?_, fun h0 => hrun ▸ h.inRound ?_, fun hr => ?_, fun hrd hq => ?_, fun hrd hc => ?_,
    hm.good h.good⟩
  · rcases hst with hst | ⟨-, hst⟩
    · exact hst ▸ h.state
    · exact .inr (.inr hst)
  · rcases hst with hst | ⟨hst, -⟩ <;> simp_all [stateConnected]
  · rw [← List.length_pos, hlen, List.length_pos]; exact h.rounds (hrun ▸ hr)
  · obtain ⟨rd, hrd', he, hs, -⟩ := hsame (by simpa [Sys.cur, hlen] using hrd)
    rw [he, hs]; exact h.writer hrd' (hrun ▸ hq)
  · obtain ⟨rd, hrd', -, -, hcl⟩ := hsame (by simpa [Sys.cur, hlen] using hrd)
    exact hrun ▸ h.closed hrd' (hcl ▸ hc)

theorem callbackMove (h : Shape s) (hm : CallbackMove s s') : Shape s' := by
  cases hm with
  | run =>
    refine ⟨?_, fun h0 => h.inRound ?_, h.rounds, h.writer, h.closed, h.good⟩
    · split
      · exact .inr (.inl rfl)
      · exact h.state
    · split at h0 <;> simp_all [stateDataStale]

theorem move (h : Shape s) (hm : Move s s') : Shape s' := by
  cases hm with
  | caller hrun hrounds hst => exact h.setRun hst hrounds (hrun ▸ h.inRound) (hrun ▸ h.rounds) (hrun ▸ id)
  | run hm => exact h.runMove hm
  | reader i hm => exact h.readerMove hm
  | callback hm => exact h.callbackMove hm

end Shape

/-- **Every reachable state has the shape.** -/
theorem Reachable.shape {s : Sys} (hs : Reachable s) : Shape s := by
  induction hs with
  | init => exact Shape.init
  | step _ _ hn ih => exact ih.move (next_move hn)

/-! ### The health state machine -/

/-- The edges `bc.state` moves along, each with the action that takes it. -/
inductive StateEdge (s : Sys) : Act → Sys → Prop
  /-- `bc.state.Set(stateConnected)` in a round that has dialled,
  authenticated and selected its database -/
  | connect {s' : Sys} : s.run = .dial → s'.run = .recv → s.state = 0 →
      s'.state = stateConnected → StateEdge s (.run .ok) s'
  /-- a reader's `CompareAndSwap(stateConnected, stateDataStale)` on a decoded
  error reply that begins with `MASTERDOWN` or `LOADING` -/
  | stale {s' : Sys} {i : Nat} {text : List UInt8} :
      errRespMasterDown.isPrefixOf text ∨ errRespLoading.isPrefixOf text →
      s.state = stateConnected → s'.state = stateDataStale →
      StateEdge s (.reader i (.ok (.error text))) s'
  /-- the keepalive callback's `CompareAndSwap(stateDataStale, stateConnected)`
  on an `INFO` whose bulk reply says the backend has recovered -/
  | recover {s' : Sys} {r : ReqId} {rest : List ReqId} {d : Done} {c : ReqId} {text : List UInt8} :
      s.callbacks = r :: rest → s.log.find? (·.req = r) = some d → d.out = .reply c (.bulk text) →
      infoGet text masterLinkStatus ≠ [100, 111, 119, 110] → infoGet text loadingKey ≠ [49] →
      s.state = stateDataStale → s'.state = stateConnected → StateEdge s .callback s'
  /-- the deferred `bc.state.Set(0)` at the end of a round -/
  | disconnect {s' : Sys} {c : Choice} {b : Bool} : s.run = .set0 b →
      (s.state = stateConnected ∨ s.state = stateDataStale) → s'.state = 0 → StateEdge s (.run c) s'

/-- **The health state machine.** In every reachable state `bc.state` is 0,
Connected or DataStale, and it is non-zero only while `run` is inside a
round; an action that changes it takes one of the four edges. -/
theorem state_machine {s : Sys} (hs : Reachable s) :
    (s.state = 0 ∨ s.state = stateConnected ∨ s.state = stateDataStale) ∧
    (s.state ≠ 0 → s.run.inRound) ∧
    ∀ a s', next s a = some s' → s'.state ≠ s.state → StateEdge s a s' := by
  have h := hs.shape
  refine ⟨h.state, h.inRound, fun a s' hn hne => ?_⟩
  cases a
  case run c =>
    cases Sys.runStep_move hn with
    | dialOk hr => exact .connect hr rfl (h.state_eq_zero (by simp [hr, RunPc.inRound])) rfl
    | set0 hr => exact .disconnect hr (h.state.resolve_left (Ne.symm hne)) rfl
    | _ => exact absurd rfl hne
  case reader i o =>
    cases Sys.readerStep_move hn with
    | decodeOk p =>
      split at hne
      · rename_i hc
        have ⟨hp, h1⟩ : Sys.staleReply p ∧ s.state = stateConnected := by simpa using hc
        cases p with
        | error text => exact .stale (by simpa [Sys.staleReply] using hp) h1 (if_pos hc)
        | _ => simp [Sys.staleReply] at hp
      · exact absurd rfl hne
    | _ => exact absurd rfl hne
  case callback =>
    cases Sys.callbackStep_move hn with
    | @run r rest d hc hd =>
      split at hne
      · rename_i hc'
        have ⟨hr, h2⟩ : Sys.recovers d.out ∧ s.state = stateDataStale := by simpa using hc'
        cases ho : d.out with
        | reply c p =>
          cases p with
          | bulk text =>
            simp only [Sys.recovers, ho, infoRecovers, Bool.and_eq_true, bne_iff_ne, ne_eq] at hr
            exact .recover hc hd ho hr.1 hr.2 h2 (by rw [← ho]; exact if_pos hc')
          | _ => simp [Sys.recovers, ho] at hr
        | fail e => simp [Sys.recovers, ho] at hr
      · exact absurd rfl hne
  all_goals
    simp only [next, Sys.pushBack, Sys.keepAlive] at hn
    split_ifs at hn <;> cases hn <;> exact absurd rfl hne

theorem state_machine_served :
    (served.state = 0 ∨ served.state = stateConnected ∨ served.state = stateDataStale) ∧
    (served.state ≠ 0 → served.run.inRound) ∧
    ∀ a s', next served a = some s' → s'.state ≠ served.state → StateEdge served a s' :=
  state_machine served_reachable

end Proxy
end Codis
