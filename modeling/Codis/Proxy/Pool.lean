/-
# The shared backend connection pool

`sharedBackendConnPool.pool` maps an address to the `sharedBackendConn`
serving it. `Retain(addr)` takes a reference on the conn in `pool[addr]`,
and creates one with `refcnt = 1` and stores it there when the entry is nil;
a conn's `Release` drops a reference and, when `refcnt` reaches 0, closes
its `BackendConn`s and deletes `pool[s.addr]`. The pool's callers serialize
these calls, so each call is one step.

A conn is named by its place in `conns`, the conns in the order they were
created; the handles `Retain` returns are these names, and a `Release` of a
name that is no conn is the release of a nil conn. Each conn also counts how
often it was retained and released (ghost counts, not in the code; its
creation is its first retain). `log.Panicf` stops the program: a call that
reaches it returns its message. The `BackendConn`s of a conn are abstracted
to whether `Close` was called on them.

`Inv` is what holds after every run: an entry is exactly a conn with
references left, its `refcnt` is its retains minus its releases, its
workers are closed exactly when it has none, and a conn that is not the
last one created for its address has none (`Inv.retain`, `Inv.release`,
`run_inv`). The ghost counts are those of the calls (`run_counts`): the
conns of an address have been retained, in all, once per `Retain` of it,
and a conn gains one release per `Release` of its handle.

Key definitions: `SharedBackendConn`, `SharedBackendConnPool`,
`SharedBackendConnPool.retain`, `SharedBackendConnPool.release`,
`SharedBackendConnPool.run`.
Key theorems: `SharedBackendConnPool.Inv.retain`,
`SharedBackendConnPool.Inv.release`, `SharedBackendConnPool.run_counts`,
`SharedBackendConnPool.release_live`, `pool_refcount`.
-/
import Mathlib.Logic.Function.Basic
import Mathlib.Data.List.Basic
import Mathlib.Algebra.BigOperators.Group.List
import Mathlib.Algebra.Order.Ring.Nat

namespace Codis
namespace Proxy

/-- A `sharedBackendConn`. -/
structure SharedBackendConn where
  addr : String
  refcnt : Int
  /-- `bc.Close()` was called on each of its `BackendConn`s -/
  closed : Bool
  /-- how often it was retained, its creation included (ghost) -/
  retains : Nat
  /-- how often it was released (ghost) -/
  releases : Nat
  deriving DecidableEq, Repr

/-- `newSharedBackendConn(addr, pool)`: one reference, its workers open. -/
def newSharedBackendConn (addr : String) : SharedBackendConn :=
  { addr, refcnt := 1, closed := false, retains := 1, releases := 0 }

/-- `s.Retain()`. -/
def SharedBackendConn.retain (s : SharedBackendConn) : Except String SharedBackendConn :=
  if s.refcnt ≤ 0 then .error "shared backend conn has been closed"
  else .ok { s with refcnt := s.refcnt + 1, retains := s.retains + 1 }

/-- A `sharedBackendConnPool`: the conns it created and its map. -/
structure SharedBackendConnPool where
  conns : List SharedBackendConn
  pool : String → Option Nat

namespace SharedBackendConnPool

/-- `newSharedBackendConnPool`: an empty map. -/
def empty : SharedBackendConnPool := ⟨[], fun _ => none⟩

/-- `p.Get(addr)`. -/
def get (p : SharedBackendConnPool) (addr : String) : Option Nat := p.pool addr

/-- The new conn of `Retain`'s else branch, stored in `pool[addr]`. -/
def create (p : SharedBackendConnPool) (addr : String) : Nat × SharedBackendConnPool :=
  (p.conns.length,
    ⟨p.conns ++ [newSharedBackendConn addr], Function.update p.pool addr (some p.conns.length)⟩)

/-- `p.Retain(addr)`: the conn it returns and the pool after. -/
def retain (p : SharedBackendConnPool) (addr : String) :
    Except String (Nat × SharedBackendConnPool) :=
  match p.pool addr with
  | some k =>
    match p.conns[k]? with
    | some s =>
      match s.retain with
      | .ok s' => .ok (k, { p with conns := p.conns.set k s' })
      | .error e => .error e
    | none => .ok (p.create addr)
  | none => .ok (p.create addr)

/-- `s.Release()` on the conn named `k`. -/
def release (p : SharedBackendConnPool) (k : Nat) : Except String SharedBackendConnPool :=
  match p.conns[k]? with
  | none => .ok p
  | some s =>
    if s.refcnt ≤ 0 then .error "shared backend conn has been closed, close too many times"
    else
      let s' := { s with refcnt := s.refcnt - 1, releases := s.releases + 1 }
      if s'.refcnt ≠ 0 then .ok { p with conns := p.conns.set k s' }
      else .ok ⟨p.conns.set k { s' with closed := true }, Function.update p.pool s.addr none⟩

/-- A call on the pool: `Retain(addr)`, or `Release` of a conn. -/
inductive Op
  | retain (addr : String)
  | release (k : Nat)
  deriving DecidableEq, Repr

/-- One call. -/
def step (p : SharedBackendConnPool) : Op → Except String SharedBackendConnPool
  | .retain addr => (p.retain addr).map Prod.snd
  | .release k => p.release k

/-- A sequence of calls, stopped by the first panic. -/
def run (p : SharedBackendConnPool) : List Op → Except String SharedBackendConnPool
  | [] => .ok p
  | op :: ops =>
    match p.step op with
    | .ok p' => p'.run ops
    | .error e => .error e

/-- The retains of the conns of `a`, in all. -/
def retainsOf (p : SharedBackendConnPool) (a : String) : Nat :=
  (p.conns.map fun s => if s.addr = a then s.retains else 0).sum

/-! ### The invariant -/

/-- What holds of the pool between calls. -/
structure Inv (p : SharedBackendConnPool) : Prop where
  count : ∀ s ∈ p.conns, s.refcnt = s.retains - s.releases ∧ 0 ≤ s.refcnt
  closed : ∀ s ∈ p.conns, s.closed = true ↔ s.refcnt = 0
  /-- an entry is exactly a conn of its address with references left -/
  entry : ∀ a k, p.pool a = some k ↔ ∃ s, p.conns[k]? = some s ∧ s.addr = a ∧ 0 < s.refcnt
  /-- a conn created before another of its address has no references left -/
  latest : ∀ {j k : Nat} {s s' : SharedBackendConn}, p.conns[j]? = some s →
    p.conns[k]? = some s' → j < k → s'.addr = s.addr → s.refcnt = 0

theorem inv_empty : empty.Inv :=
  ⟨nofun, nofun, fun _ _ => by simp [empty], fun h => by simp [empty] at h⟩

section
variable {p : SharedBackendConnPool}

theorem getElem?_set_of {l : List SharedBackendConn} {k j : Nat} {s s' : SharedBackendConn}
    (hs : l[k]? = some s) : (l.set k s')[j]? = if k = j then some s' else l[j]? := by
  rw [List.getElem?_set, if_pos (List.getElem?_eq_some_iff.1 hs).1]

theorem getElem?_concat {l : List SharedBackendConn} {x : SharedBackendConn} {j : Nat} :
    (l ++ [x])[j]? = if l.length = j then some x else l[j]? := by
  rcases lt_trichotomy j l.length with h | rfl | h
  · simp [List.getElem?_append_left h, h.ne']
  · simp
  · simp [List.getElem?_eq_none (show (l ++ [x]).length ≤ j by simp; omega), h.ne,
      List.getElem?_eq_none h.le]

theorem sum_map_set {α : Type} {l : List α} {k : Nat} {x y : α} (h : l[k]? = some x) (g : α → Nat) :
    ((l.set k y).map g).sum + g x = (l.map g).sum + g y := by
  induction l generalizing k with
  | nil => simp at h
  | cons z l ih =>
    cases k with
    | zero => simp at h; subst h; simp; omega
    | succ k =>
      have := ih (by simpa using h)
      simp only [List.set_cons_succ, List.map_cons, List.sum_cons]; omega

@[simp] theorem create_conns {a : String} :
    (p.create a).2.conns = p.conns ++ [newSharedBackendConn a] := rfl

@[simp] theorem create_pool {a : String} :
    (p.create a).2.pool = Function.update p.pool a (some p.conns.length) := rfl

theorem retain_of_pos {s : SharedBackendConn} (h : 0 < s.refcnt) :
    s.retain = .ok { s with refcnt := s.refcnt + 1, retains := s.retains + 1 } :=
  if_neg (by omega)

theorem retain_of_nonpos {s : SharedBackendConn} (h : s.refcnt ≤ 0) :
    s.retain = .error "shared backend conn has been closed" :=
  if_pos h

theorem release_dead {k : Nat} {s : SharedBackendConn} (hs : p.conns[k]? = some s)
    (h0 : s.refcnt ≤ 0) :
    p.release k = .error "shared backend conn has been closed, close too many times" := by
  simp [SharedBackendConnPool.release, hs, h0]

theorem release_of_gt_one {k : Nat} {s : SharedBackendConn} (hs : p.conns[k]? = some s)
    (h1 : 1 < s.refcnt) : p.release k =
      .ok { p with
        conns := p.conns.set k { s with refcnt := s.refcnt - 1, releases := s.releases + 1 } } := by
  simp [SharedBackendConnPool.release, hs, show ¬s.refcnt ≤ 0 by omega,
    show s.refcnt - 1 ≠ 0 by omega]

theorem release_of_one {k : Nat} {s : SharedBackendConn} (hs : p.conns[k]? = some s)
    (h1 : s.refcnt = 1) : p.release k =
      .ok ⟨p.conns.set k { s with refcnt := s.refcnt - 1, releases := s.releases + 1, closed := true },
        Function.update p.pool s.addr none⟩ := by
  simp [SharedBackendConnPool.release, hs, h1]

/-- What a `Retain` that returns does: it takes a reference on the map's
entry, or creates a conn when the entry names none. -/
theorem retain_ok {a : String} {k : Nat} {p' : SharedBackendConnPool}
    (hr : p.retain a = .ok (k, p')) :
    (∃ s, p.pool a = some k ∧ p.conns[k]? = some s ∧ 0 < s.refcnt ∧
      p' = { p with conns := p.conns.set k { s with refcnt := s.refcnt + 1, retains := s.retains + 1 } }) ∨
    (∀ j, p.pool a = some j → p.conns[j]? = none) ∧ (k, p') = p.create a := by
  unfold SharedBackendConnPool.retain at hr
  split at hr
  · next j hj =>
    split at hr
    · next s hs =>
      by_cases h0 : s.refcnt ≤ 0
      · simp [retain_of_nonpos h0] at hr
      · simp only [retain_of_pos (Int.not_le.1 h0), Except.ok.injEq, Prod.mk.injEq] at hr
        obtain ⟨rfl, rfl⟩ := hr
        exact .inl ⟨s, hj, hs, by omega, rfl⟩
    · next hs => exact .inr ⟨fun _ h => by cases hj.symm.trans h; exact hs, (Except.ok.inj hr).symm⟩
  · next hj => exact .inr ⟨fun _ h => by simp [hj] at h, (Except.ok.inj hr).symm⟩

/-- What a `Release` that returns does: nothing on a nil conn; otherwise
one reference less and one release more on the conn, whose workers may
close. -/
theorem release_ok {k : Nat} {p' : SharedBackendConnPool} (hr : p.release k = .ok p') :
    p.conns[k]? = none ∧ p' = p ∨ ∃ s c, p.conns[k]? = some s ∧
      p'.conns = p.conns.set k { s with refcnt := s.refcnt - 1, releases := s.releases + 1, closed := c } := by
  cases hs : p.conns[k]? with
  | none => simp only [SharedBackendConnPool.release, hs, Except.ok.injEq] at hr; exact .inl ⟨rfl, hr.symm⟩
  | some s =>
    rcases Int.lt_trichotomy s.refcnt 1 with h0 | h1 | h1
    · simp [release_dead hs (by omega)] at hr
    · rw [release_of_one hs h1, Except.ok.injEq] at hr; exact .inr ⟨s, true, rfl, by rw [← hr]⟩
    · rw [release_of_gt_one hs h1, Except.ok.injEq] at hr; exact .inr ⟨s, s.closed, rfl, by rw [← hr]⟩

/-- Replacing conn `k` by one of the same address, with references before
and after, keeps the invariant. -/
theorem Inv.set_live {k : Nat} {s s' : SharedBackendConn} (h : p.Inv)
    (hs : p.conns[k]? = some s) (haddr : s'.addr = s.addr) (hpos : 0 < s.refcnt)
    (hpos' : 0 < s'.refcnt) (hcount : s'.refcnt = s'.retains - s'.releases)
    (hclosed : s'.closed = false) : Inv { p with conns := p.conns.set k s' } where
  count x hx := (List.mem_or_eq_of_mem_set hx).elim (h.count x) fun e => e ▸ ⟨hcount, by omega⟩
  closed x hx := (List.mem_or_eq_of_mem_set hx).elim (h.closed x) fun e => by
    subst e; simp [hclosed]; omega
  entry a j := by
    rw [h.entry, getElem?_set_of hs]
    split_ifs with hj
    · subst hj; simp [hs, haddr, hpos, hpos']
    · rfl
  latest {j j' x x'} hx hx' hlt ha := by
    rw [getElem?_set_of hs] at hx hx'
    split_ifs at hx hx' with h1 h2 h2
    · omega
    · subst h1; cases hx
      have := h.latest hs hx' hlt (ha.trans haddr); omega
    · subst h2; cases hx'
      exact h.latest hx hs hlt (haddr ▸ ha)
    · exact h.latest hx hx' hlt ha

/-- A live conn that gains or loses a reference, keeping one, keeps the
invariant. -/
theorem Inv.bump {k : Nat} {s : SharedBackendConn} (h : p.Inv) (hs : p.conns[k]? = some s)
    (hpos : 0 < s.refcnt) (d : Int) (r r' : Nat) (hd : 0 < s.refcnt + d)
    (hr : (r : Int) - r' = d) :
    Inv { p with
      conns := p.conns.set k
        { s with refcnt := s.refcnt + d, retains := s.retains + r, releases := s.releases + r' } } := by
  have hc := h.count s (List.getElem?_mem hs)
  have hcl := (h.closed s (List.getElem?_mem hs)).not
  exact h.set_live hs rfl hpos hd (by simp only; push_cast; omega)
    (by simpa [show s.refcnt ≠ 0 by omega] using hcl)

/-- Creating a conn for an address whose conns have no references left
keeps the invariant. -/
theorem Inv.create {a : String} (h : p.Inv)
    (hdead : ∀ {j : Nat} {s : SharedBackendConn}, p.conns[j]? = some s → s.addr = a →
      s.refcnt = 0) : (p.create a).2.Inv where
  count x hx := by
    rcases List.mem_append.1 (create_conns ▸ hx) with hx | hx
    · exact h.count x hx
    · simp_all [newSharedBackendConn]
  closed x hx := by
    rcases List.mem_append.1 (create_conns ▸ hx) with hx | hx
    · exact h.closed x hx
    · simp_all [newSharedBackendConn]
  entry a' j := by
    rw [create_pool, create_conns, getElem?_concat]
    by_cases ha : a' = a
    · subst ha
      rw [Function.update_same]
      split_ifs with hj
      · simp [hj, newSharedBackendConn]
      · simp only [Option.some.injEq, hj, false_iff]
        rintro ⟨x, hx, hxa, hpos⟩
        have := hdead hx hxa; omega
    · rw [Function.update_noteq ha, h.entry]
      split_ifs with hj
      · subst hj; simp [newSharedBackendConn, Ne.symm ha]
      · rfl
  latest {j k x x'} hx hx' hlt ha := by
    rw [create_conns, getElem?_concat] at hx hx'
    split_ifs at hx hx' with h1 h2 h2
    · omega
    · rw [List.getElem?_eq_none (by omega)] at hx'; cases hx'
    · cases hx'; exact hdead hx ha.symm
    · exact h.latest hx hx' hlt ha

/-- A conn's last release: its workers close and its address leaves the map. -/
theorem Inv.release_last {k : Nat} {s : SharedBackendConn} (h : p.Inv)
    (hs : p.conns[k]? = some s) (h1 : s.refcnt = 1) :
    Inv ⟨p.conns.set k { s with refcnt := s.refcnt - 1, releases := s.releases + 1, closed := true },
      Function.update p.pool s.addr none⟩ where
  count x hx := (List.mem_or_eq_of_mem_set hx).elim (h.count x) fun e => by
    have := h.count s (List.getElem?_mem hs)
    subst e; simp only; push_cast; omega
  closed x hx := (List.mem_or_eq_of_mem_set hx).elim (h.closed x) fun e => by subst e; simp [h1]
  entry a j := by
    simp only [getElem?_set_of hs, Function.update_apply]
    split_ifs with ha hj hj
    · simp [h1]
    · subst ha
      refine ⟨nofun, fun ⟨x, hx, hxa, hpos⟩ => hj ?_⟩
      have := (h.entry _ _).2 ⟨x, hx, hxa, hpos⟩
      have hk := (h.entry _ _).2 ⟨s, hs, rfl, by omega⟩
      exact Option.some_injective _ (hk.symm.trans this)
    · subst hj; simp [h.entry, hs, Ne.symm ha]
    · exact h.entry a j
  latest {j j' x x'} hx hx' hlt ha := by
    rw [getElem?_set_of hs] at hx hx'
    split_ifs at hx hx' with h1' h2 h2
    · omega
    · cases hx; simp [h1]
    · subst h2; cases hx'; exact h.latest hx hs hlt ha
    · exact h.latest hx hx' hlt ha

/-- **Retain keeps the invariant.** -/
theorem Inv.retain {a : String} {k : Nat} {p' : SharedBackendConnPool} (h : p.Inv)
    (hr : p.retain a = .ok (k, p')) : p'.Inv := by
  rcases retain_ok hr with ⟨s, -, hs, hpos, rfl⟩ | ⟨hnone, hp⟩
  · simpa using h.bump hs hpos 1 1 0 (by omega) (by simp)
  · rw [show p' = (p.create a).2 from congrArg Prod.snd hp]
    -- the else branch runs only when no conn of the address has references
    refine h.create fun {j s} hj ha => ?_
    have := (h.count s (List.getElem?_mem hj)).2
    by_contra hne
    have := hnone _ ((h.entry a j).2 ⟨s, hj, ha, by omega⟩)
    simp [hj] at this

/-- **Release keeps the invariant.** -/
theorem Inv.release {k : Nat} {p' : SharedBackendConnPool} (h : p.Inv)
    (hr : p.release k = .ok p') : p'.Inv := by
  cases hs : p.conns[k]? with
  | none => simp only [SharedBackendConnPool.release, hs, Except.ok.injEq] at hr; exact hr ▸ h
  | some s =>
    rcases Int.lt_trichotomy s.refcnt 1 with h0 | h1 | h1
    · simp [release_dead hs (by omega)] at hr
    · rw [release_of_one hs h1, Except.ok.injEq] at hr
      exact hr ▸ h.release_last hs h1
    · rw [release_of_gt_one hs h1, Except.ok.injEq] at hr
      have := h.bump hs (by omega) (-1) 0 1 (by omega) (by simp)
      simpa [← hr, Int.sub_eq_add_neg] using this

theorem step_retain {a : String} {p' : SharedBackendConnPool} (hs : p.step (.retain a) = .ok p') :
    ∃ k, p.retain a = .ok (k, p') := by
  simp only [step] at hs
  cases hr : p.retain a with
  | error e => simp [hr, Except.map] at hs
  | ok r => simp only [hr, Except.map, Except.ok.injEq] at hs; exact ⟨r.1, by rw [← hs]⟩

theorem Inv.step {op : Op} {p' : SharedBackendConnPool} (h : p.Inv)
    (hs : p.step op = .ok p') : p'.Inv := by
  cases op with
  | retain a => obtain ⟨k, hr⟩ := step_retain hs; exact h.retain hr
  | release k => exact h.release hs

/-- **Every run keeps the invariant.** -/
theorem run_inv {ops : List Op} {p' : SharedBackendConnPool} (h : p.Inv)
    (hr : p.run ops = .ok p') : p'.Inv := by
  induction ops generalizing p with
  | nil => cases hr; exact h
  | cons op ops ih =>
    unfold SharedBackendConnPool.run at hr
    split at hr
    · exact ih (h.step (by assumption)) hr
    · cases hr

/-- The counts after conn `k` is replaced by one of its address with `r`
more retains and `l` more releases. -/
theorem counts_set {q : SharedBackendConnPool} {k r l : Nat} {s t : SharedBackendConn}
    (hs : p.conns[k]? = some s) (hp : q.conns = p.conns.set k t) (ha : t.addr = s.addr)
    (hr : t.retains = s.retains + r) (hl : t.releases = s.releases + l) :
    (∀ a, q.retainsOf a = p.retainsOf a + if s.addr = a then r else 0) ∧
    ∀ j x, p.conns[j]? = some x → ∃ x', q.conns[j]? = some x' ∧
      x'.releases = x.releases + if j = k then l else 0 := by
  refine ⟨fun a => ?_, fun j x hx => ?_⟩
  · have := sum_map_set (y := t) hs fun s => if s.addr = a then s.retains else 0
    simp only [retainsOf, hp]
    by_cases hsa : s.addr = a <;> simp [hsa, ha, hr] at this ⊢ <;> omega
  · rw [hp, getElem?_set_of hs]
    by_cases hj : k = j
    · subst hj; cases hs.symm.trans hx; simp [hl]
    · simp [hj, hx, Ne.symm hj]

theorem step_counts {op : Op} {p' : SharedBackendConnPool} (h : p.Inv) (hs : p.step op = .ok p') :
    (∀ a, p'.retainsOf a = p.retainsOf a + [op].count (.retain a)) ∧
    ∀ k s, p.conns[k]? = some s → ∃ s', p'.conns[k]? = some s' ∧
      s'.releases = s.releases + [op].count (.release k) := by
  cases op with
  | retain b =>
    obtain ⟨k, hr⟩ := step_retain hs
    rcases retain_ok hr with ⟨s, hk, hsk, -, hp⟩ | ⟨-, hp⟩
    · obtain ⟨_, hs', hb, -⟩ := (h.entry _ _).1 hk
      cases hsk.symm.trans hs'
      obtain ⟨h1, h2⟩ := counts_set (q := p') (t := { s with refcnt := s.refcnt + 1, retains := s.retains + 1 })
        (l := 0) hsk (by rw [hp]) rfl rfl rfl
      exact ⟨fun a => by rw [h1]; simp [List.count_singleton, hb], fun j x hx => by simpa using h2 j x hx⟩
    · rw [show p' = (p.create b).2 from congrArg Prod.snd hp]
      refine ⟨fun a => ?_, fun j x hx =>
        ⟨x, by simp [List.getElem?_append_left (List.getElem?_eq_some_iff.1 hx).1, hx], by simp⟩⟩
      by_cases ha : b = a <;> simp [retainsOf, newSharedBackendConn, List.count_singleton, ha]
  | release k' =>
    rcases release_ok hs with ⟨hk, rfl⟩ | ⟨s, c, hs', hp⟩
    · refine ⟨fun a => by simp, fun j x hx => ⟨x, hx, ?_⟩⟩
      have : j ≠ k' := by rintro rfl; simp [hk] at hx
      simp [this]
    · obtain ⟨h1, h2⟩ := counts_set (r := 0) hs' hp rfl rfl rfl
      refine ⟨fun a => by simp [h1], fun j x hx => ?_⟩
      obtain ⟨x', h3, h4⟩ := h2 j x hx
      exact ⟨x', h3, by rw [h4]; by_cases hj : j = k' <;> simp [List.count_singleton, hj, Ne.symm]⟩

/-- **The ghost counts follow the calls.** Over a run from a pool that keeps
the invariant, the conns of an address gain, in all, one retain per `Retain`
of it, and a conn gains one release per `Release` of its handle. From the
empty pool, where `retainsOf` is 0, the retains are exactly the `Retain`s. -/
theorem run_counts {ops : List Op} {p' : SharedBackendConnPool} (h : p.Inv)
    (hr : p.run ops = .ok p') :
    (∀ a, p'.retainsOf a = p.retainsOf a + ops.count (.retain a)) ∧
    ∀ k s, p.conns[k]? = some s → ∃ s', p'.conns[k]? = some s' ∧
      s'.releases = s.releases + ops.count (.release k) := by
  induction ops generalizing p with
  | nil => cases hr; exact ⟨fun _ => rfl, fun _ s hs => ⟨s, hs, rfl⟩⟩
  | cons op ops ih =>
    unfold SharedBackendConnPool.run at hr
    split at hr
    · next p₁ h₁ =>
      have hcount : ∀ x : Op, (op :: ops).count x = [op].count x + ops.count x := fun x => by
        simp [List.count_cons, List.count_singleton]; omega
      obtain ⟨hr₁, hl₁⟩ := step_counts h h₁
      obtain ⟨hr', hl'⟩ := ih (h.step h₁) hr
      refine ⟨fun a => by rw [hr', hr₁, hcount]; omega, fun k s hs => ?_⟩
      obtain ⟨s₁, hs₁, e₁⟩ := hl₁ k s hs
      obtain ⟨s', hs', e'⟩ := hl' k s₁ hs₁
      exact ⟨s', hs', by rw [e', e₁, hcount]; omega⟩
    · cases hr

/-- **What a release of a conn with references does**: the conn is the
map's entry for its address; it loses one reference, its workers close when
that was the last one, and then its entry, and only that, is deleted. -/
theorem release_live {k : Nat} {s : SharedBackendConn} (h : p.Inv)
    (hs : p.conns[k]? = some s) (hpos : 0 < s.refcnt) :
    p.get s.addr = some k ∧ ∃ p', p.release k = .ok p' ∧
      p'.conns = p.conns.set k
        { s with refcnt := s.refcnt - 1, releases := s.releases + 1, closed := decide (s.refcnt = 1) } ∧
      p'.pool = if s.refcnt = 1 then Function.update p.pool s.addr none else p.pool := by
  refine ⟨(h.entry _ _).2 ⟨s, hs, rfl, hpos⟩, ?_⟩
  by_cases h1 : s.refcnt = 1
  · simp [release_of_one hs h1, h1]
  · have hcl := (h.closed s (List.getElem?_mem hs)).not
    have hcl : s.closed = false := by simpa [show s.refcnt ≠ 0 by omega] using hcl
    simp [release_of_gt_one hs (by omega), hcl, h1]

end

end SharedBackendConnPool

/-- Two addresses retained, one of them twice; its conn released to 0 and
the address retained again, which creates a second conn for it; the other
address released to 0. -/
def poolTrace : List SharedBackendConnPool.Op :=
  [.retain "a", .retain "b", .retain "a", .release 0, .release 0, .retain "a", .release 1]

/-- The pool after it. -/
def pooled : SharedBackendConnPool :=
  match SharedBackendConnPool.empty.run poolTrace with
  | .ok p => p
  | .error _ => SharedBackendConnPool.empty

/-- The address's second conn is its entry, and the stale handle to its
first panics. -/
example : pooled.get "a" = some 2 ∧
    pooled.release 0 = .error "shared backend conn has been closed, close too many times" :=
  ⟨by decide, rfl⟩

end Proxy
end Codis
