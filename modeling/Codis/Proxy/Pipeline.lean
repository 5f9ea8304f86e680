/-
# Where every request is: pairing and single completion

Every request `run` has received from `bc.input` is in exactly one place
(`Sys.owned` is a permutation of the received ids): held by `run` between
receiving it and handing it on, in a round's `tasks` not yet received by
its reader, held by that reader, or completed in `log`. With it (`Owner`):
round `i`'s received tasks are held or were completed by round `i`'s reader;
a round's connection carries exactly what was sent into its `tasks`, and at
most one last request more, which the writer failed; a reply completes the
request whose command it answers; and a request failed as broken was never
encoded.

From these, pipelining pairs every reply with its own request
(`pipelining_pairing`), and no request is completed twice
(`completed_once`).

Key definitions: `Round.owned`, `Sys.owned`, `Owner`.
Key theorems: `Owner.move`, `Reachable.owner`, `pipelining_pairing`, `completed_once`.
-/
import Mathlib.Data.List.Nodup
import Mathlib.Data.List.Perm.Subperm
import Codis.Proxy.Shape

namespace Codis
namespace Proxy

/-! ### Lists changed at one place -/

section Modify

variable {α β : Type} {l : List α} {i : Nat} {f : α → α} {x y : α}

theorem count_flatten_map_modify [DecidableEq β] {g : α → List β} (hy : l[i]? = some y) (b : β) :
    ((l.modify f i).map g).flatten.count b + (g y).count b =
      (l.map g).flatten.count b + (g (f y)).count b := by
  induction l generalizing i with
  | nil => simp at hy
  | cons a l ih =>
    cases i with
    | zero =>
      simp only [List.getElem?_cons_zero, Option.some.injEq] at hy
      subst hy
      simp only [List.modify_zero_cons, List.map_cons, List.flatten_cons, List.count_append]
      omega
    | succ i =>
      have := ih (by simpa using hy)
      simp only [List.modify_succ_cons, List.map_cons, List.flatten_cons, List.count_append]
      omega

theorem map_modify_eq {g : α → β} (hg : ∀ y, g (f y) = g y) : (l.modify f i).map g = l.map g := by
  induction l generalizing i with
  | nil => simp
  | cons a l ih => cases i <;> simp [hg, ih]

theorem mem_modify_cases (h : x ∈ l.modify f i) : x ∈ l ∨ ∃ y, l[i]? = some y ∧ x = f y := by
  obtain ⟨j, hj⟩ := List.mem_iff_getElem?.1 h
  obtain ⟨y, hy, rfl⟩ := getElem?_modify_some hj
  split
  · subst_vars; exact .inr ⟨y, hy, rfl⟩
  · exact .inl (List.getElem?_mem hy)

theorem getElem?_concat_some {a : α} (h : (l ++ [a])[i]? = some x) : l[i]? = some x ∨ x = a := by
  rcases Nat.lt_or_ge i l.length with hi | hi
  · rw [List.getElem?_append_left hi] at h; exact .inl h
  · rw [List.getElem?_append_right hi] at h
    cases hk : i - l.length with
    | zero => simp [hk] at h; exact .inr h.symm
    | succ k => simp [hk] at h

end Modify

theorem drop_eq_getD_cons {l : List ReqId} {t : Nat} (h : t < l.length) :
    l.drop t = [l.getD t 0] ++ l.drop (t + 1) := by
  rw [List.drop_eq_getElem_cons h, List.getD_eq_getElem _ _ h]; rfl

theorem countP_range_getD {α : Type} (l : List α) (a : α) (q : α → Bool) :
    (List.range l.length).countP (fun k => q (l.getD k a)) = l.countP q := by
  induction l with
  | nil => rfl
  | cons b l ih =>
    rw [List.length_cons, List.range_succ_eq_map, List.countP_cons, List.countP_map, List.countP_cons]
    simpa [Function.comp_def] using ih

/-! ### Where a request is -/

/-- The requests of a round that its reader has not completed: those still
in `tasks`, and the one it holds. -/
def Round.owned (rd : Round) : List ReqId := rd.sent.drop rd.taken ++ rd.reader.held

/-- Every request `run` has received, where it is now: held by `run`, owned
by a round, or completed. -/
def Sys.owned (s : Sys) : List ReqId :=
  s.run.held ++ (s.rounds.map Round.owned).flatten ++ s.log.map Done.req

/-- Round `i`'s received tasks: each is held by its reader, or was completed
by it. -/
def Round.TakenDone (log : List Done) (i : Nat) (rd : Round) : Prop :=
  ∀ k < rd.taken, rd.sent.getD k 0 ∈ rd.reader.held ∨
    ∃ d ∈ log, d.req = rd.sent.getD k 0 ∧ d.who = .reader i

/-- A round's connection carries what was sent into its `tasks`, and at most
one request more, which the writer failed with a connection failure. -/
def Round.Encoded (log : List Done) (rd : Round) : Prop :=
  rd.encoded = rd.sent ∨
    ∃ r e, rd.encoded = rd.sent ++ [r] ∧ (⟨r, .fail (.backendConnFailure e), .writer⟩ : Done) ∈ log

theorem Round.TakenDone.mono {log log' : List Done} {i : Nat} {rd : Round} (h : rd.TakenDone log i)
    (hl : ∀ d ∈ log, d ∈ log') : rd.TakenDone log' i := fun k hk =>
  (h k hk).imp_right fun ⟨d, hd, h1⟩ => ⟨d, hl d hd, h1⟩

theorem Round.Encoded.mono {log log' : List Done} {rd : Round} (h : rd.Encoded log)
    (hl : ∀ d ∈ log, d ∈ log') : rd.Encoded log' :=
  h.imp_right fun ⟨r, e, h1, h2⟩ => ⟨r, e, h1, hl _ h2⟩

theorem Round.getD_mem_owned {rd : Round} {k : Nat} (hk : rd.taken ≤ k) (hl : k < rd.sent.length) :
    rd.sent.getD k 0 ∈ rd.owned := by
  rw [List.getD_eq_getElem _ _ hl]
  exact List.mem_append_left _
    (List.mem_drop_iff_getElem.2 ⟨k - rd.taken, by omega, by simp only [Nat.add_sub_cancel' hk]⟩)

/-- Where every received request is, and what that says of each round. -/
structure Owner (s : Sys) : Prop where
  owned : s.owned.Perm (List.range s.inTaken)
  inTaken_le : s.inTaken ≤ s.reqs.length
  taken : ∀ {i : Nat} {rd : Round}, s.rounds[i]? = some rd → rd.TakenDone s.log i
  encoded : ∀ {i : Nat} {rd : Round}, s.rounds[i]? = some rd → (i = s.cur → s.run.pending = none) →
    rd.Encoded s.log
  reply : ∀ d ∈ s.log, ∀ {c p}, d.out = .reply c p → c = d.req
  broken : ∀ d ∈ s.log, d.out = .fail .requestIsBroken → ∀ rd ∈ s.rounds, d.req ∉ rd.encoded

namespace Owner

variable {s s' : Sys}

theorem init : Owner init :=
  ⟨.nil, le_rfl, (fun h => nomatch h), (fun h => nomatch h), nofun, nofun⟩

/-! ### What the invariant says of one state -/

theorem count_le (h : Owner s) (x : ReqId) : s.owned.count x ≤ 1 := by
  rw [h.owned.count_eq]; exact List.nodup_iff_count_le_one.1 (List.nodup_range _) x

theorem held_fresh (h : Owner s) {r : ReqId} (hr : r ∈ s.run.held) :
    (∀ rd ∈ s.rounds, r ∉ rd.owned) ∧ ∀ d ∈ s.log, d.req ≠ r := by
  have hc := h.count_le r
  have h1 := List.count_pos_iff.2 hr
  simp only [Sys.owned, List.count_append] at hc
  refine ⟨fun rd hrd hmem => ?_, fun d hd hdr => ?_⟩
  · have := List.count_pos_iff.2 (List.mem_flatten.2 ⟨_, List.mem_map_of_mem _ hrd, hmem⟩); omega
  · have := List.count_pos_iff.2 (List.mem_map.2 ⟨d, hd, hdr⟩); omega

theorem owned_fresh (h : Owner s) {r : ReqId} {rd : Round} (hrd : rd ∈ s.rounds) (hr : r ∈ rd.owned) :
    ∀ d ∈ s.log, d.req ≠ r := by
  intro d hd hdr
  have hc := h.count_le r
  simp only [Sys.owned, List.count_append] at hc
  have := List.count_pos_iff.2 (List.mem_flatten.2 ⟨_, List.mem_map_of_mem _ hrd, hr⟩)
  have := List.count_pos_iff.2 (List.mem_map.2 ⟨d, hd, hdr⟩)
  omega

theorem log_nodup (h : Owner s) : (s.log.map Done.req).Nodup :=
  (List.nodup_append.1 (h.owned.nodup_iff.2 (List.nodup_range _))).2.1

theorem log_lt (h : Owner s) {d : Done} (hd : d ∈ s.log) : d.req < s.inTaken :=
  List.mem_range.1 (h.owned.subset (List.mem_append_right _ (List.mem_map_of_mem _ hd)))

/-- A task of round `i` is completed only by round `i`'s reader. -/
theorem sent_done_by_reader (h : Owner s) {i : Nat} {rd : Round} (hrd : s.rounds[i]? = some rd)
    {k : Nat} (hk : k < rd.sent.length) {d : Done} (hd : d ∈ s.log) (hdr : d.req = rd.sent.getD k 0) :
    d.who = .reader i ∧ k < rd.taken := by
  have hmem := List.getElem?_mem hrd
  by_cases ht : k < rd.taken
  · rcases h.taken hrd k ht with hh | ⟨d', hd', hreq, hwho⟩
    · exact absurd hdr (h.owned_fresh hmem (List.mem_append_right _ hh) d hd)
    · have := List.inj_on_of_nodup_map h.log_nodup hd hd' (hdr.trans hreq.symm)
      exact ⟨this ▸ hwho, ht⟩
  · exact absurd hdr (h.owned_fresh hmem (Round.getD_mem_owned (by omega) hk) d hd)

/-- A request `run` holds was not sent into any round's `tasks`. -/
theorem held_not_sent (h : Owner s) {r : ReqId} (hr : r ∈ s.run.held) {i : Nat} {rd : Round}
    (hrd : s.rounds[i]? = some rd) : r ∉ rd.sent := by
  intro hmem
  obtain ⟨k, hk, hkr⟩ := List.getElem_of_mem hmem
  have hmem' := List.getElem?_mem hrd
  have hkr' : rd.sent.getD k 0 = r := by rw [List.getD_eq_getElem _ _ hk, hkr]
  by_cases ht : k < rd.taken
  · rcases h.taken hrd k ht with hh | ⟨d, hd, hreq, -⟩
    · exact (h.held_fresh hr).1 rd hmem' (List.mem_append_right _ (hkr' ▸ hh))
    · exact (h.held_fresh hr).2 d hd (hreq.trans hkr')
  · exact (h.held_fresh hr).1 rd hmem' (hkr' ▸ Round.getD_mem_owned (by omega) hk)

/-- The request `loopWriter` is about to encode is on no round's connection. -/
theorem encode_fresh (h : Owner s) (hs : Shape s) {r : ReqId} (hr : s.run = .encode r) :
    ∀ rd ∈ s.rounds, r ∉ rd.encoded := by
  intro rd hmem
  obtain ⟨i, hrd⟩ := List.mem_iff_getElem?.1 hmem
  have hheld : r ∈ s.run.held := by simp [hr, RunPc.held]
  have hsent := h.held_not_sent hheld hrd
  by_cases hi : i = s.cur
  · subst hi
    rw [hs.writer hrd (show s.run.pending = some [] by simp [hr, RunPc.pending]), List.append_nil]
    exact hsent
  · rcases h.encoded hrd fun h' => absurd h' hi with he | ⟨r', e, he, hl⟩
    · rw [he]; exact hsent
    · rw [he, List.mem_append, List.mem_singleton, not_or]
      exact ⟨hsent, fun h' => (h.held_fresh hheld).2 _ hl h'.symm⟩

/-! ### Steps -/

theorem perm_of_count (h : s.owned.Perm (List.range s.inTaken)) (hin : s'.inTaken = s.inTaken)
    (hc : ∀ x, s'.owned.count x = s.owned.count x) : s'.owned.Perm (List.range s'.inTaken) :=
  hin ▸ (List.perm_iff_count.2 hc).trans h

theorem perm_of_count_succ (h : s.owned.Perm (List.range s.inTaken)) (hin : s'.inTaken = s.inTaken + 1)
    (hc : ∀ x, s'.owned.count x = s.owned.count x + [s.inTaken].count x) :
    s'.owned.Perm (List.range s'.inTaken) := by
  rw [hin, List.range_succ]
  exact (List.perm_iff_count.2 fun x => by rw [hc, List.count_append]).trans (h.append_right _)

/-- Steps that keep each round's received tasks, or add a fresh round. -/
theorem taken_of_rounds (h : Owner s) {i : Nat} {rd' : Round} (hrd' : s'.rounds[i]? = some rd')
    (hlog : ∀ d ∈ s.log, d ∈ s'.log)
    (hr : ∀ {i : Nat} {rd' : Round}, s'.rounds[i]? = some rd' → rd'.taken = 0 ∨ ∃ rd, s.rounds[i]? = some rd ∧
      rd'.taken = rd.taken ∧ rd'.reader = rd.reader ∧ ∀ k < rd.taken, rd'.sent.getD k 0 = rd.sent.getD k 0) :
    rd'.TakenDone s'.log i := by
  intro k hk
  rcases hr hrd' with h0 | ⟨rd, hrd, ht, hrr, hs⟩
  · omega
  · rw [ht] at hk
    rw [hrr, hs k hk]
    exact (h.taken hrd).mono hlog k hk

/-- Steps that complete no request as broken, and put on a connection only
what was on one or what `run` holds. -/
theorem broken_of_rounds (h : Owner s) {d : Done} (hd : d ∈ s'.log) (hb : d.out = .fail .requestIsBroken)
    {rd' : Round} (hrd' : rd' ∈ s'.rounds)
    (hlog : ∀ d ∈ s'.log, d ∈ s.log ∨ d.out ≠ .fail .requestIsBroken)
    (hr : ∀ rd' ∈ s'.rounds, ∀ x ∈ rd'.encoded, x ∈ s.run.held ∨ ∃ rd ∈ s.rounds, x ∈ rd.encoded) :
    d.req ∉ rd'.encoded := by
  intro hx
  rcases hlog d hd with hd | hd
  · rcases hr rd' hrd' _ hx with hx | ⟨rd, hrd, hx⟩
    · exact (h.held_fresh hx).2 d hd rfl
    · exact h.broken d hd hb rd hrd hx
  · exact hd hb

/-- A step that keeps every round and completes requests only with errors,
none of them a broken request that is on a connection. -/
theorem frame' {X : List Done} (h : Owner s) (howned : s'.owned.Perm (List.range s'.inTaken))
    (hle : s'.inTaken ≤ s'.reqs.length) (hrounds : s'.rounds = s.rounds) (hlog : s'.log = s.log ++ X)
    (hX : ∀ d ∈ X, (∃ e, d.out = .fail e) ∧
      (d.out = .fail .requestIsBroken → ∀ rd ∈ s.rounds, d.req ∉ rd.encoded))
    (henc : ∀ {i : Nat} {rd : Round}, s'.rounds[i]? = some rd → (i = s'.cur → s'.run.pending = none) →
      rd.Encoded s'.log) : Owner s' where
  owned := howned
  inTaken_le := hle
  taken hrd := (h.taken (hrounds ▸ hrd)).mono fun _ hd => hlog ▸ List.mem_append_left _ hd
  encoded := henc
  reply d hd c p ho := by
    rw [hlog] at hd
    rcases List.mem_append.1 hd with hd | hd
    · exact h.reply d hd ho
    · obtain ⟨⟨e, he⟩, -⟩ := hX d hd; rw [he] at ho; cases ho
  broken d hd hb := by
    rw [hlog] at hd; rw [hrounds]
    rcases List.mem_append.1 hd with hd | hd
    · exact h.broken d hd hb
    · exact (hX d hd).2 hb

theorem frame {X : List Done} (h : Owner s) (howned : s'.owned.Perm (List.range s'.inTaken))
    (hle : s'.inTaken ≤ s'.reqs.length) (hrounds : s'.rounds = s.rounds) (hlog : s'.log = s.log ++ X)
    (hX : ∀ d ∈ X, (∃ e, d.out = .fail e) ∧
      (d.out = .fail .requestIsBroken → ∀ rd ∈ s.rounds, d.req ∉ rd.encoded))
    (hpend : s'.run.pending = none → s.run.pending = none) : Owner s' :=
  h.frame' howned hle hrounds hlog hX fun hrd hp =>
    (h.encoded (hrounds ▸ hrd) fun hi => hpend (hp (by simp [hi, Sys.cur, hrounds]))).mono
      fun _ hd => hlog ▸ List.mem_append_left _ hd

theorem setRun (h : Owner s) (hheld : s'.run.held = s.run.held)
    (hpend : s'.run.pending = none → s.run.pending = none) (hin : s'.inTaken = s.inTaken)
    (hreqs : s.reqs.length ≤ s'.reqs.length) (hrounds : s'.rounds = s.rounds) (hlog : s'.log = s.log) :
    Owner s' :=
  h.frame (X := []) (perm_of_count h.owned hin fun x => by simp only [Sys.owned, hheld, hrounds, hlog])
    (by have := h.inTaken_le; omega) hrounds (by rw [hlog, List.append_nil]) nofun hpend

/-- A change of the current round that keeps its reader and its received
tasks. -/
theorem taken_modCur (h : Owner s) {i : Nat} {rd : Round} (hrd : s'.rounds[i]? = some rd)
    {f : Round → Round} (hrounds : s'.rounds = s.rounds.modify f s.cur) (hlog : ∀ d ∈ s.log, d ∈ s'.log)
    (hf : ∀ rd, s.rounds[s.cur]? = some rd → (f rd).taken = rd.taken ∧ (f rd).reader = rd.reader ∧
      ∀ k < rd.taken, (f rd).sent.getD k 0 = rd.sent.getD k 0) : rd.TakenDone s'.log i := by
  refine h.taken_of_rounds hrd hlog fun hrd => ?_
  rw [hrounds] at hrd
  obtain ⟨y, hy, rfl⟩ := getElem?_modify_some hrd
  split
  · subst_vars; exact .inr ⟨y, hy, hf y hy⟩
  · exact .inr ⟨y, hy, rfl, rfl, fun _ _ => rfl⟩

/-- A change of the current round that puts on its connection at most the
request `run` holds. -/
theorem broken_modCur (h : Owner s) {d : Done} (hd : d ∈ s'.log) (hb : d.out = .fail .requestIsBroken)
    {rd : Round} (hrd : rd ∈ s'.rounds) {f : Round → Round} (hrounds : s'.rounds = s.rounds.modify f s.cur)
    (hlog : ∀ d ∈ s'.log, d ∈ s.log ∨ d.out ≠ .fail .requestIsBroken)
    (hf : ∀ rd, ∀ x ∈ (f rd).encoded, x ∈ rd.encoded ∨ x ∈ s.run.held) : d.req ∉ rd.encoded := by
  refine h.broken_of_rounds hd hb hrd hlog fun rd' hrd' x hx => ?_
  rw [hrounds] at hrd'
  rcases mem_modify_cases hrd' with hrd' | ⟨y, hy, rfl⟩
  · exact .inr ⟨rd', hrd', hx⟩
  · exact (hf y x hx).elim (fun hx => .inr ⟨y, List.getElem?_mem hy, hx⟩) .inl

theorem encode_onto {r : ReqId} (hheld : r ∈ s.run.held) (rd : Round) :
    ∀ x ∈ ({ rd with encoded := rd.encoded ++ [r] } : Round).encoded, x ∈ rd.encoded ∨ x ∈ s.run.held :=
  fun x hx => (List.mem_append.1 hx).imp_right fun hx => by rw [List.mem_singleton.1 hx]; exact hheld

theorem runMove {c : Choice} (hs : Shape s) (h : Owner s) (hm : RunMove s c s') : Owner s' := by
  cases hm with
  | check hr => exact h.setRun (by rw [hr]; split <;> rfl) (fun _ => by rw [hr]; rfl) rfl le_rfl rfl rfl
  | dialOk hr =>
    refine ⟨perm_of_count h.owned rfl fun x => by
        simp [Sys.owned, hr, RunPc.held, Round.owned, Round.init, ReaderPc.held], h.inTaken_le,
      fun hrd => h.taken_of_rounds hrd (fun _ hd => hd) fun hrd => ?_, fun hrd _ => ?_, h.reply,
      fun d hd hb rd hrd => ?_⟩
    · rcases getElem?_concat_some hrd with hrd | rfl
      · exact .inr ⟨_, hrd, rfl, rfl, fun _ _ => rfl⟩
      · exact .inl rfl
    · rcases getElem?_concat_some hrd with hrd | rfl
      · exact h.encoded hrd fun _ => by rw [hr]; rfl
      · exact .inl rfl
    · rcases List.mem_append.1 hrd with hrd | hrd
      · exact h.broken d hd hb rd hrd
      · rw [List.mem_singleton.1 hrd]; exact List.not_mem_nil _
  | dialFail hr => exact h.setRun (by rw [hr]; rfl) (fun _ => by rw [hr]; rfl) rfl le_rfl rfl rfl
  | recv hr ht =>
    exact h.frame (perm_of_count_succ h.owned rfl fun x => by
        simp only [Sys.owned, hr, RunPc.held, List.count_append, Sys.take_rounds, Sys.take_log,
          List.count_nil]; omega)
      ht rfl (List.append_nil _).symm nofun nofun
  | recvClosed hr =>
    refine h.frame' (perm_of_count h.owned rfl fun x => by simp [Sys.owned, hr, RunPc.held])
      h.inTaken_le rfl (List.append_nil _).symm nofun fun {i rd} hrd _ => ?_
    by_cases hi : i = s.cur
    · subst hi
      exact .inl (by simpa using hs.writer hrd (show s.run.pending = some [] by simp [hr, RunPc.pending]))
    · exact h.encoded hrd fun h' => absurd h' hi
  | @broken r hr _ =>
    exact h.frame (perm_of_count h.owned rfl fun x => by
        simp only [Sys.owned, hr, RunPc.held, List.count_append, List.count_nil, Sys.complete_log,
          Sys.complete_rounds, List.map_append, List.map_cons, List.map_nil]; omega)
      h.inTaken_le rfl rfl (by simpa using h.encode_fresh hs hr) nofun
  | @encodeFail r e hr =>
    have hheld : r ∈ s.run.held := by simp [hr, RunPc.held]
    have hlog : ∀ d ∈ s.log ++ [⟨r, .fail (.backendConnFailure e), .writer⟩],
        d ∈ s.log ∨ d.out ≠ .fail .requestIsBroken :=
      fun d hd => (List.mem_append.1 hd).imp_right fun hd => by rw [List.mem_singleton.1 hd]; simp
    refine ⟨perm_of_count h.owned rfl fun x => ?_, h.inTaken_le,
      fun hrd => h.taken_modCur hrd rfl (fun _ hd => List.mem_append_left _ hd)
        fun _ _ => ⟨rfl, rfl, fun _ _ => rfl⟩,
      fun {i rd} hrd _ => ?_, fun d hd {_ _} ho => ?_,
      fun d hd hb rd hrd => h.broken_modCur hd hb hrd rfl hlog (encode_onto hheld)⟩
    · simp [Sys.owned, hr, RunPc.held, map_modify_eq, Round.owned, List.count_cons]
      omega
    · obtain ⟨y, hy, rfl⟩ := getElem?_modify_some hrd
      split
      · subst_vars
        have := hs.writer hy (show s.run.pending = some [] by simp [hr, RunPc.pending])
        exact .inr ⟨r, e, by simp [this], by simp⟩
      · exact (h.encoded hy fun h' => absurd h'.symm ‹_›).mono fun _ hd => List.mem_append_left _ hd
    · rcases List.mem_append.1 hd with hd | hd
      · exact h.reply _ hd ho
      · rw [List.mem_singleton.1 hd] at ho; cases ho
  | @encodeOk r hr =>
    have hheld : r ∈ s.run.held := by simp [hr, RunPc.held]
    refine ⟨perm_of_count h.owned rfl fun x => ?_, h.inTaken_le,
      fun hrd => h.taken_modCur hrd rfl (fun _ hd => hd) fun _ _ => ⟨rfl, rfl, fun _ _ => rfl⟩,
      fun {i rd} hrd hp => ?_, h.reply,
      fun d hd hb rd hrd => h.broken_modCur hd hb hrd rfl (fun d hd => .inl hd) (encode_onto hheld)⟩
    · simp [Sys.owned, hr, RunPc.held, map_modify_eq, Round.owned]
    · obtain ⟨y, hy, rfl⟩ := getElem?_modify_some hrd
      split
      · subst_vars; exact absurd (hp (by simp [Sys.cur])) nofun
      · exact h.encoded hy fun h' => absurd h'.symm ‹_›
  | flushOk hr =>
    refine ⟨perm_of_count h.owned rfl fun x => ?_, h.inTaken_le,
      fun hrd => h.taken_modCur hrd rfl (fun _ hd => hd) fun _ _ => ⟨rfl, rfl, fun _ _ => rfl⟩,
      fun {i rd} hrd hp => ?_, h.reply,
      fun d hd hb rd hrd => h.broken_modCur hd hb hrd rfl (fun d hd => .inl hd) fun rd x hx => .inl hx⟩
    · simp [Sys.owned, hr, RunPc.held, map_modify_eq, Round.owned]
    · obtain ⟨y, hy, rfl⟩ := getElem?_modify_some hrd
      split
      · subst_vars; exact absurd (hp (by simp [Sys.cur])) nofun
      · exact h.encoded hy fun h' => absurd h'.symm ‹_›
  | flushSkip hr _ => exact h.setRun (by rw [hr]; rfl) nofun rfl le_rfl rfl rfl
  | @flushFail r e hr =>
    refine h.frame' (perm_of_count h.owned rfl fun x => by
        simp only [Sys.owned, hr, RunPc.held, List.count_append, List.count_nil, Sys.complete_log,
          Sys.complete_rounds, List.map_append, List.map_cons, List.map_nil]; omega)
      h.inTaken_le rfl rfl (by simp) fun {i rd} hrd _ => ?_
    by_cases hi : i = s.cur
    · subst hi
      have := hs.writer hrd (show s.run.pending = some [r] by simp [hr, RunPc.pending])
      exact .inr ⟨r, e, this, by simp⟩
    · exact (h.encoded hrd fun h' => absurd h' hi).mono fun _ hd => List.mem_append_left _ hd
  | @send _ r hr =>
    obtain ⟨y, hy⟩ := hs.cur_some (by simp [hr, RunPc.onRound, RunPc.inRound])
    have hty := (hs.good y (List.getElem?_mem hy)).taken_le
    refine ⟨perm_of_count h.owned rfl fun x => ?_, h.inTaken_le,
      fun hrd => h.taken_modCur hrd rfl (fun _ hd => hd) fun rd hrd => ⟨rfl, rfl, fun k hk => ?_⟩,
      fun {i rd} hrd hp => ?_, h.reply,
      fun d hd hb rd hrd => h.broken_modCur hd hb hrd rfl (fun d hd => .inl hd) fun rd x hx => .inl hx⟩
    · have := count_flatten_map_modify (f := fun rd => { rd with sent := rd.sent ++ [r] })
        (g := Round.owned) hy x
      simp only [Round.owned, List.drop_append_of_le_length hty, List.count_append] at this
      simp only [Sys.owned, hr, RunPc.held, List.count_append, List.count_nil, Sys.modRound_rounds,
        Sys.modRound_log, Round.owned] at this ⊢
      omega
    · cases hrd.symm.trans hy
      exact List.getD_append _ _ _ _ (by omega)
    · obtain ⟨z, hz, rfl⟩ := getElem?_modify_some hrd
      split
      · subst_vars; exact absurd (hp (by simp [Sys.cur])) nofun
      · exact h.encoded hz fun h' => absurd h'.symm ‹_›
  | set0 hr => exact h.setRun (by rw [hr]; rfl) (fun _ => by rw [hr]; rfl) rfl le_rfl rfl rfl
  | closeTasks hr =>
    refine ⟨perm_of_count h.owned rfl fun x => ?_, h.inTaken_le,
      fun hrd => h.taken_modCur hrd rfl (fun _ hd => hd) fun _ _ => ⟨rfl, rfl, fun _ _ => rfl⟩,
      fun {i rd} hrd _ => ?_, h.reply,
      fun d hd hb rd hrd => h.broken_modCur hd hb hrd rfl (fun d hd => .inl hd) fun rd x hx => .inl hx⟩
    · simp [Sys.owned, hr, RunPc.held, map_modify_eq, Round.owned]
    · obtain ⟨y, hy, rfl⟩ := getElem?_modify_some hrd
      have := h.encoded hy fun _ => by rw [hr]; rfl
      split <;> exact this
  | drainDone hr => exact h.setRun (by rw [hr]; split <;> rfl) (fun _ => by rw [hr]; rfl) rfl le_rfl rfl rfl
  | drain hr ht =>
    exact h.frame (perm_of_count_succ h.owned rfl fun x => by simp [Sys.owned, hr, RunPc.held]; omega)
      ht rfl rfl (by simp) fun _ => by rw [hr]; rfl
  | delay hr => exact h.setRun (by rw [hr]; split <;> rfl) (fun _ => by rw [hr]; rfl) rfl le_rfl rfl rfl
  | delayExit hr => exact h.setRun (by rw [hr]; rfl) (fun _ => by rw [hr]; rfl) rfl le_rfl rfl rfl
  | delayTake hr _ ht =>
    exact h.frame (perm_of_count_succ h.owned rfl fun x => by simp [Sys.owned, hr, RunPc.held]; omega)
      ht rfl rfl (by simp) fun _ => by rw [hr]; rfl

/-- `owned` after a change of round `i` and `run`'s request, compared by
counting. -/
theorem perm_modRound (h : Owner s) {i : Nat} {y : Round} (hy : s.rounds[i]? = some y)
    {f : Round → Round} (hrounds : s'.rounds = s.rounds.modify f i) {X : List ReqId}
    (hlog : s'.log.map Done.req = s.log.map Done.req ++ X) (hin : s'.inTaken = s.inTaken)
    (hc : ∀ x, s'.run.held.count x + (f y).owned.count x + X.count x =
      s.run.held.count x + y.owned.count x) :
    s'.owned.Perm (List.range s'.inTaken) :=
  perm_of_count h.owned hin fun x => by
    have := count_flatten_map_modify (f := f) (g := Round.owned) hy x
    have := hc x
    simp only [Sys.owned, hrounds, hlog, List.count_append] at *
    omega

theorem taken_modRound (h : Owner s) {j : Nat} {rd' : Round} (hrd' : s'.rounds[j]? = some rd') {i : Nat}
    {f : Round → Round} (hrounds : s'.rounds = s.rounds.modify f i) (hlog : ∀ d ∈ s.log, d ∈ s'.log)
    (hf : ∀ y, s.rounds[i]? = some y → (f y).TakenDone s'.log i) : rd'.TakenDone s'.log j := by
  rw [hrounds] at hrd'
  obtain ⟨y, hy, rfl⟩ := getElem?_modify_some hrd'
  split
  · subst_vars; exact hf y hy
  · exact (h.taken hy).mono hlog

/-- A reader's step: it changes only its own round, keeping every round's
connection and tasks, and completes requests only with the reply to their
own command or with an error other than a broken request. -/
theorem readerFrame {X : List Done} (h : Owner s) (howned : s'.owned.Perm (List.range s'.inTaken))
    (hin : s'.inTaken = s.inTaken) (hreqs : s'.reqs = s.reqs) (hrun : s'.run = s.run)
    (hlen : s'.rounds.length = s.rounds.length)
    (hsame : ∀ {j : Nat} {rd' : Round}, s'.rounds[j]? = some rd' → ∃ rd, s.rounds[j]? = some rd ∧
      rd'.encoded = rd.encoded ∧ rd'.sent = rd.sent ∧ rd'.closed = rd.closed)
    (hlog : s'.log = s.log ++ X)
    (hX : ∀ d ∈ X, (∀ {c p}, d.out = .reply c p → c = d.req) ∧ d.out ≠ .fail .requestIsBroken)
    (htaken : ∀ {j : Nat} {rd : Round}, s'.rounds[j]? = some rd → rd.TakenDone s'.log j) : Owner s' where
  owned := howned
  inTaken_le := hin ▸ hreqs ▸ h.inTaken_le
  taken := htaken
  encoded hrd hp := by
    obtain ⟨rd, hrd, he, hs, -⟩ := hsame hrd
    have := (h.encoded hrd fun hi => hrun ▸ hp (by simp [hi, Sys.cur, hlen])).mono
      fun _ hd => hlog ▸ List.mem_append_left _ hd
    unfold Round.Encoded; rw [he, hs]; exact this
  reply d hd c p ho := by
    rw [hlog] at hd
    rcases List.mem_append.1 hd with hd | hd
    · exact h.reply d hd ho
    · exact (hX d hd).1 ho
  broken d hd hb rd' hrd' hx := by
    rw [hlog] at hd
    obtain ⟨j, hj⟩ := List.mem_iff_getElem?.1 hrd'
    obtain ⟨rd, hrd, he, -⟩ := hsame hj
    rcases List.mem_append.1 hd with hd | hd
    · exact h.broken d hd hb rd (List.getElem?_mem hrd) (he ▸ hx)
    · exact (hX d hd).2 hb

theorem readerMove {i : Nat} {o : Except Err Payload} (hs : Shape s) (h : Owner s)
    (hm : ReaderMove s i o s') : Owner s' := by
  have hframe := hm.frame
  cases hm with
  | @recv _ rd hrd hr ht =>
    refine h.readerFrame (X := []) (h.perm_modRound hrd rfl (List.append_nil _).symm rfl fun x => ?_) rfl rfl rfl
      (by simp) hframe.2.2.1 (by simp) nofun fun hrd' => h.taken_modRound hrd' rfl (fun _ hd => hd)
        fun y hy => ?_
    · simp only [Round.owned, hr, ReaderPc.held, drop_eq_getD_cons ht, List.count_append,
        Sys.modRound_run]; omega
    · cases hy.symm.trans hrd
      intro k hk
      rcases Nat.lt_succ_iff_lt_or_eq.1 hk with hk | rfl
      · exact .inr (((h.taken hrd) k hk).resolve_left (by simp [hr, ReaderPc.held]))
      · exact .inl (by simp [ReaderPc.held])
  | @recvClosed _ rd hrd hr =>
    refine h.readerFrame (X := []) (h.perm_modRound hrd rfl (List.append_nil _).symm rfl fun x => ?_) rfl rfl rfl
      (by simp) hframe.2.2.1 (by simp) nofun fun hrd' => h.taken_modRound hrd' rfl (fun _ hd => hd)
        fun y hy => ?_
    · simp [Round.owned, hr, ReaderPc.held]
    · cases hy.symm.trans hrd
      intro k hk
      exact .inr (((h.taken hrd) k hk).resolve_left (by simp [hr, ReaderPc.held]))
  | @decodeFail rd r e hrd hr =>
    refine h.readerFrame (X := []) (h.perm_modRound hrd rfl (List.append_nil _).symm rfl fun x => ?_) rfl rfl rfl
      (by simp) hframe.2.2.1 (by simp) nofun fun hrd' => h.taken_modRound hrd' rfl (fun _ hd => hd)
        fun y hy => ?_
    · simp [Round.owned, hr, ReaderPc.held]
    · cases hy.symm.trans hrd
      intro k hk
      simpa [hr, ReaderPc.held] using h.taken hrd k hk
  | @decodeOk rd r p hrd hr _ =>
    refine h.readerFrame (X := []) (h.perm_modRound hrd rfl (List.append_nil _).symm rfl fun x => ?_) rfl rfl rfl
      (by simp) hframe.2.2.1 (by simp) nofun fun hrd' => h.taken_modRound hrd' rfl (fun _ hd => hd)
        fun y hy => ?_
    · simp [Round.owned, hr, ReaderPc.held]
    · cases hy.symm.trans hrd
      intro k hk
      simpa [hr, ReaderPc.held] using h.taken hrd k hk
  | @respond _ rd r out hrd hr =>
    have g := hs.good rd (List.getElem?_mem hrd)
    refine h.readerFrame (X := [⟨r, out, .reader i⟩])
      (h.perm_modRound (X := [r]) hrd rfl (by simp) rfl fun x => ?_) rfl rfl rfl (by simp) hframe.2.2.1 rfl
      (by simp only [List.mem_singleton, forall_eq]; exact ⟨fun ho => (g.reply (ho ▸ hr)).2, fun hb =>
        by obtain ⟨e', he'⟩ := g.fail (hb ▸ hr); cases he'⟩)
      fun hrd' => h.taken_modRound hrd' rfl (fun _ hd => List.mem_append_left _ hd) fun y hy => ?_
    · cases out <;> simp [Round.owned, hr, ReaderPc.held] <;> omega
    · cases hy.symm.trans hrd
      intro k hk
      rcases h.taken hrd k hk with hk | ⟨d, hd, h1, h2⟩
      · simp only [hr, ReaderPc.held, List.mem_singleton] at hk
        exact .inr ⟨⟨r, out, .reader i⟩, by simp, hk.symm, rfl⟩
      · exact .inr ⟨d, List.mem_append_left _ hd, h1, h2⟩
  | @drain _ rd hrd hr ht =>
    refine h.readerFrame (X := [⟨rd.sent.getD rd.taken 0, .fail .backendConnReset, .reader i⟩])
      (h.perm_modRound (X := [rd.sent.getD rd.taken 0]) hrd rfl (by simp) rfl fun x => ?_) rfl rfl rfl
      (by simp) hframe.2.2.1 rfl (by simp) fun hrd' => h.taken_modRound hrd' rfl (fun _ hd => List.mem_append_left _ hd)
        fun y hy => ?_
    · simp only [Round.owned, hr, ReaderPc.held, drop_eq_getD_cons ht, List.count_append,
        List.count_nil, Sys.modRound_run, Sys.complete_run]; omega
    · cases hy.symm.trans hrd
      intro k hk
      rcases Nat.lt_succ_iff_lt_or_eq.1 hk with hk | rfl
      · obtain ⟨d, hd, h1, h2⟩ := ((h.taken hrd) k hk).resolve_left (by simp [hr, ReaderPc.held])
        exact .inr ⟨d, List.mem_append_left _ hd, h1, h2⟩
      · exact .inr ⟨⟨rd.sent.getD rd.taken 0, .fail .backendConnReset, .reader i⟩, by simp, rfl, rfl⟩
  | @drainDone _ rd hrd hr =>
    refine h.readerFrame (X := []) (h.perm_modRound hrd rfl (List.append_nil _).symm rfl fun x => ?_) rfl rfl rfl
      (by simp) hframe.2.2.1 (by simp) nofun fun hrd' => h.taken_modRound hrd' rfl (fun _ hd => hd)
        fun y hy => ?_
    · simp [Round.owned, hr, ReaderPc.held]
    · cases hy.symm.trans hrd
      intro k hk
      exact .inr (((h.taken hrd) k hk).resolve_left (by simp [hr, ReaderPc.held]))

theorem move (hs : Shape s) (h : Owner s) (hm : Move s s') : Owner s' := by
  cases hm with
  | caller hrun hrounds _ hlog hin hreqs =>
    exact h.setRun (by rw [hrun]) (by rw [hrun]; exact id) hin hreqs hrounds hlog
  | run hm => exact h.runMove hs hm
  | reader i hm => exact h.readerMove hs hm
  | callback hm => cases hm; exact h.setRun rfl id rfl le_rfl rfl rfl

end Owner

/-- **Every reachable state has its requests where `Owner` says.** -/
theorem Reachable.owner {s : Sys} (hs : Reachable s) : Owner s := by
  induction hs with
  | init => exact Owner.init
  | step _ hr hn ih => exact ih.move hr.shape (next_move hn)

/-! ### Pairing and single completion -/

/-- **Pipelining pairs every reply with its own request.** In every
reachable state, each round's connection carries what `loopWriter` sent into
its `tasks`, in order, and at most one last request more: the one it is
flushing or sending, or one it completed with a connection failure. A
request completed as broken is on no connection and in no `tasks`. While
its reader decodes for a task, the frame it decodes is the `k`-th of the
connection and the task the `k`-th it received, and the `k`-th command on
the connection is that task's. So every request completed with a decoded
reply got the reply to its own command. -/
theorem pipelining_pairing {s : Sys} (hs : Reachable s) :
    (∀ (i : Nat) (rd : Round), s.rounds[i]? = some rd →
      rd.encoded = rd.sent ∨ ∃ r, rd.encoded = rd.sent ++ [r] ∧
        ((i = s.cur ∧ (s.run = .flush r ∨ s.run = .send r)) ∨
          ∃ e, (⟨r, .fail (.backendConnFailure e), .writer⟩ : Done) ∈ s.log)) ∧
    (∀ d ∈ s.log, d.out = .fail .requestIsBroken → ∀ rd ∈ s.rounds, d.req ∉ rd.encoded ∧ d.req ∉ rd.sent) ∧
    (∀ (i : Nat) (rd : Round) (r : ReqId), s.rounds[i]? = some rd → rd.reader = .decoding r →
      rd.frames + 1 = rd.taken ∧ rd.sent.getD rd.frames 0 = r ∧ rd.encoded.getD rd.frames 0 = r) ∧
    (∀ d ∈ s.log, ∀ c p, d.out = .reply c p → c = d.req) := by
  have hsh := hs.shape
  have h := hs.owner
  refine ⟨fun i rd hrd => ?_, fun d hd hb rd hrd => ?_, fun i rd r hrd hr => ?_, fun d hd _ _ => h.reply d hd⟩
  · by_cases hi : i = s.cur ∧ s.run.pending ≠ none
    · obtain ⟨rfl, hp⟩ := hi
      obtain ⟨q, hq⟩ := Option.ne_none_iff_exists'.1 hp
      have he := hsh.writer hrd hq
      cases hr : s.run <;> simp only [hr, RunPc.pending, Option.some.injEq, reduceCtorEq] at hq <;>
        subst hq <;> simp [he]
    · rcases h.encoded hrd (fun h' => by simpa using not_and.1 hi h') with he | ⟨r, e, he, hl⟩
      · exact .inl he
      · exact .inr ⟨r, he, .inr ⟨e, hl⟩⟩
  · have hx := h.broken d hd hb rd hrd
    exact ⟨hx, fun hs => hx ((hsh.good rd hrd).encodes_sent.subset hs)⟩
  · have g := hsh.good rd (List.getElem?_mem hrd)
    obtain ⟨h1, h2⟩ := g.decoding hr
    obtain ⟨t, ht⟩ := g.encodes_sent
    refine ⟨h1, h2.symm, ?_⟩
    rw [← ht, List.getD_append _ _ _ _ (by have := g.taken_le; omega), h2]

theorem pipelining_pairing_served :
    (∀ (i : Nat) (rd : Round), served.rounds[i]? = some rd →
      rd.encoded = rd.sent ∨ ∃ r, rd.encoded = rd.sent ++ [r] ∧
        ((i = served.cur ∧ (served.run = .flush r ∨ served.run = .send r)) ∨
          ∃ e, (⟨r, .fail (.backendConnFailure e), .writer⟩ : Done) ∈ served.log)) ∧
    (∀ d ∈ served.log, d.out = .fail .requestIsBroken →
      ∀ rd ∈ served.rounds, d.req ∉ rd.encoded ∧ d.req ∉ rd.sent) ∧
    (∀ (i : Nat) (rd : Round) (r : ReqId), served.rounds[i]? = some rd → rd.reader = .decoding r →
      rd.frames + 1 = rd.taken ∧ rd.sent.getD rd.frames 0 = r ∧ rd.encoded.getD rd.frames 0 = r) ∧
    (∀ d ∈ served.log, ∀ c p, d.out = .reply c p → c = d.req) :=
  pipelining_pairing served_reachable

/-- **No request is completed twice.** In every reachable state each request
`run` has received from `bc.input` is in exactly one place: held by `run`, in
a round's `tasks`, held by that round's reader, or completed. So
`setResponse` has been called at most once per request, and only for a
request `PushBack` put on `bc.input`; a request sent into round `i`'s
`tasks` is completed only by round `i`'s reader; and for every batch, its
requests' completions never outnumber its pushes, so its counter never goes
negative. -/
theorem completed_once {s : Sys} (hs : Reachable s) :
    s.owned.Perm (List.range s.inTaken) ∧ (s.log.map Done.req).Nodup ∧
    (∀ d ∈ s.log, d.req < s.inTaken) ∧ s.inTaken ≤ s.reqs.length ∧
    (∀ (i : Nat) (rd : Round), s.rounds[i]? = some rd →
      ∀ r ∈ rd.sent, ∀ d ∈ s.log, d.req = r → d.who = .reader i) ∧
    ∀ b, s.log.countP (fun d => (s.reqs.getD d.req ⟨false, none, false⟩).batch = some b) ≤
      s.reqs.countP (·.batch = some b) := by
  have h := hs.owner
  refine ⟨h.owned, h.log_nodup, fun d => h.log_lt, h.inTaken_le, fun i rd hrd r hr d hd hdr => ?_, fun b => ?_⟩
  · obtain ⟨k, hk, rfl⟩ := List.getElem_of_mem hr
    exact (h.sent_done_by_reader hrd hk hd (by rw [hdr, List.getD_eq_getElem _ _ hk])).1
  · have hsub : s.log.map Done.req ⊆ List.range s.reqs.length := fun x hx => by
      obtain ⟨d, hd, rfl⟩ := List.mem_map.1 hx
      exact List.mem_range.2 (lt_of_lt_of_le (h.log_lt hd) h.inTaken_le)
    have := (List.subperm_of_subset h.log_nodup hsub).countP_le
      (fun k => (s.reqs.getD k ⟨false, none, false⟩).batch = some b)
    rw [countP_range_getD s.reqs _ fun x => x.batch = some b, List.countP_map] at this
    exact this

theorem completed_once_served :
    served.owned.Perm (List.range served.inTaken) ∧ (served.log.map Done.req).Nodup ∧
    (∀ d ∈ served.log, d.req < served.inTaken) ∧ served.inTaken ≤ served.reqs.length ∧
    (∀ (i : Nat) (rd : Round), served.rounds[i]? = some rd →
      ∀ r ∈ rd.sent, ∀ d ∈ served.log, d.req = r → d.who = .reader i) ∧
    ∀ b, served.log.countP (fun d => (served.reqs.getD d.req ⟨false, none, false⟩).batch = some b) ≤
      served.reqs.countP (·.batch = some b) :=
  completed_once served_reachable

/-! ### Shutdown

Once `run` and every reader have returned, every request `run` received from
`bc.input` has been completed (`received_done_at_shutdown`): only a request
still in `bc.input` can be lost. One can be: after a failed dial,
`loopWriter`'s deferred drain takes the `len(bc.input)` requests queued at
that moment and `delayBeforeRetry` returns; a `PushBack` and a `Close` that
land before `run` re-checks `bc.closed` leave a request in `bc.input` that
nothing receives (`pushBack_before_close_lost`).
-/

/-- **At shutdown every received request is completed.** -/
theorem received_done_at_shutdown {s : Sys} (hs : Reachable s) (hrun : s.run = .exited)
    (hreaders : ∀ rd ∈ s.rounds, rd.reader = .exited) : ∀ r < s.inTaken, ∃ d ∈ s.log, d.req = r := by
  intro r hr
  have hmem := hs.owner.owned.symm.subset (List.mem_range.2 hr)
  simp only [Sys.owned, hrun, RunPc.held, List.nil_append, List.mem_append, List.mem_flatten,
    List.mem_map] at hmem
  rcases hmem with ⟨_, ⟨rd, hrd, rfl⟩, hx⟩ | ⟨d, hd, rfl⟩
  · have ht := ((hs.shape.good rd hrd).exited (hreaders rd hrd)).2
    simp [Round.owned, ht, hreaders rd hrd, ReaderPc.held] at hx
  · exact ⟨d, hd, rfl⟩

theorem received_done_served :
    served.run = .exited ∧ (∀ rd ∈ served.rounds, rd.reader = .exited) ∧
      ∀ r < served.inTaken, ∃ d ∈ served.log, d.req = r :=
  ⟨by decide, by decide, received_done_at_shutdown served_reachable (by decide) (by decide)⟩

/-- A failed dial, then `PushBack` and `Close` before `run` re-checks
`bc.closed`. -/
def lostTrace : List Act :=
  [.run .ok, .run (.fail (.io 0)), .run .ok, .run .ok, .pushBack ⟨false, some 0, false⟩, .closeInput,
    .closeSet, .run .ok]

/-- **A request pushed before `Close` is never completed.** `Close` has
returned, `run` has returned and there is no reader, yet the request of the
`PushBack` is not completed: its batch counter stays at one. -/
theorem pushBack_before_close_lost :
    ∃ s, Reachable s ∧ s.closing = 2 ∧ s.run = .exited ∧ (∀ rd ∈ s.rounds, rd.reader = .exited) ∧
      ∃ r < s.reqs.length, ∀ d ∈ s.log, d.req ≠ r :=
  ⟨_, @runActs_reachable init _ lostTrace .init rfl, by decide, by decide, by decide, 0, by decide, by decide⟩

end Proxy
end Codis
