/-
# Which worker `BackendConn` picks

`sharedBackendConn.BackendConn(database, seed, must)` picks a worker of
`conns[database]`. With one worker per database, `single[database]` answers
at once. Otherwise a loop walks `i = (i + 1) % uint(len(parallel))` from
`i = seed` for `len(parallel)` rounds and returns the first connected worker
it meets; after the loop it returns `parallel[0]` if `must`, nil if not.

A worker is its `BackendConn`'s `state` (`IsConnected` is `state ==
stateConnected`), and the model returns it by its index in
`conns[database]`. `seed` is a Go `uint` of `w` bits, a `BitVec w`, so
`seed + 1` wraps to 0 at `2^w - 1`. `uint(len(parallel))` is exact, since a
length is an `int` and fits in `w` bits. `SharedConns` carries what
`newSharedBackendConn` makes: every database has `pool.parallel` workers, at
least 1 (`newSharedBackendConnPool` takes `MaxInt(1, parallel)`), and
`single` exists exactly when there is one, with `single[database] =
conns[database][0]`. The workers' states change under their own `run`
loops, so the theorems hold for every vector of states.

What the loop computes (`scanConn_eq_pickSpec`): the first connected worker
in the cyclic order that starts at `((seed + 1) mod 2^w) mod N` and visits
each of the `N` indices once (`cyclicOrder_perm`), else the fallback. The
`single` shortcut returns the same (`backendConn_eq_scanConn`).

Key definitions: `SharedConns`, `scan`, `scanConn`, `backendConn`,
`cyclicOrder`, `pickSpec`.
Key theorems: `scan_eq_find`, `cyclicOrder_perm`, `backendConn_picks`.
-/
import Codis.Proxy.Backend
import Mathlib.Data.List.Nodup
import Mathlib.Data.Nat.ModEq

namespace Codis
namespace Proxy

/-- `bc.IsConnected()`. -/
def isConnected (state : Nat) : Bool := state == stateConnected

/-- The workers of a `sharedBackendConn`, by their states, database by
database. -/
structure SharedConns where
  /-- `pool.parallel`: the workers of each database -/
  parallel : Nat
  /-- the state of `conns[database][i]` -/
  conns : List (List Nat)
  /-- `s.single != nil` -/
  single : Bool
  parallel_pos : 0 < parallel
  conns_length : ∀ ws ∈ conns, ws.length = parallel
  single_iff : single = true ↔ parallel = 1

namespace SharedConns

/-- `newSharedBackendConn`: `BackendNumberDatabases` databases of
`pool.parallel` new workers (state 0 until `run` connects them), and
`single` when `pool.parallel == 1`. -/
def new (databases parallel : Nat) (h : 0 < parallel) : SharedConns where
  parallel := parallel
  conns := List.replicate databases (List.replicate parallel 0)
  single := parallel == 1
  parallel_pos := h
  conns_length := fun ws hws => by rw [List.eq_of_mem_replicate hws, List.length_replicate]
  single_iff := beq_iff_eq

variable {w : Nat}

/-- The loop `for range parallel { i = (i + 1) % uint(len(parallel)); ... }`
with `k` rounds left, from `i`: the index of the connected worker it
returns. -/
def scan (parallel : List Nat) : Nat → BitVec w → Option Nat
  | 0, _ => none
  | k + 1, i =>
    let i' := (i + 1) % BitVec.ofNat w parallel.length
    if isConnected (parallel.getD i'.toNat 0) then some i'.toNat else scan parallel k i'

/-- The code after `if s.single != nil`: the loop over `conns[database]`,
then `parallel[0]` if `must`. -/
def scanConn (s : SharedConns) (database : Nat) (seed : BitVec w) (must : Bool) : Option Nat :=
  let parallel := s.conns.getD database []
  match scan parallel parallel.length seed with
  | some i => some i
  | none => if !must then none else some 0

/-- `s.BackendConn(database, seed, must)`: the index in `conns[database]`
of the worker it returns, none for nil. -/
def backendConn (s : SharedConns) (database : Nat) (seed : BitVec w) (must : Bool) :
    Option Nat :=
  if s.single then
    -- `bc := s.single[database]`, which is `conns[database][0]`
    if must || isConnected ((s.conns.getD database []).getD 0 0) then some 0 else none
  else s.scanConn database seed must

end SharedConns

/-- `N` steps round the indices `0 … N-1`, from `start`. -/
def cyclicOrder (start N : Nat) : List Nat := (List.range N).map fun j => (start + j) % N

/-- The worker to pick from the states `ws`, from `start`: the first
connected one in the cyclic order, else `ws[0]` if `must` and none if not. -/
def pickSpec (ws : List Nat) (start : Nat) (must : Bool) : Option Nat :=
  ((cyclicOrder start ws.length).find? fun i => isConnected (ws.getD i 0)).or
    (if must then some 0 else none)

/-- `N` steps from any start visit each index below `N` once. -/
theorem cyclicOrder_perm (start N : Nat) : (cyclicOrder start N).Perm (List.range N) := by
  have hinj : ∀ j ∈ List.range N, ∀ j' ∈ List.range N,
      (start + j) % N = (start + j') % N → j = j' := fun j hj j' hj' h => by
    rw [List.mem_range] at hj hj'
    have := Nat.ModEq.add_left_cancel' start h
    rwa [Nat.ModEq, Nat.mod_eq_of_lt hj, Nat.mod_eq_of_lt hj'] at this
  have hsub : cyclicOrder start N ⊆ List.range N := fun i hi => by
    obtain ⟨j, hj, rfl⟩ := List.mem_map.1 hi
    exact List.mem_range.2 (Nat.mod_lt _ (by have := List.mem_range.1 hj; omega))
  exact (List.subperm_of_subset ((List.nodup_range N).map_on hinj) hsub).perm_of_length_le
    (by simp [cyclicOrder])

namespace SharedConns

variable {w : Nat}

theorem length_getD (s : SharedConns) {database : Nat} (hdb : database < s.conns.length) :
    (s.conns.getD database []).length = s.parallel := by
  rw [List.getD_eq_getElem?_getD, List.getElem?_eq_getElem hdb, Option.getD_some]
  exact s.conns_length _ (List.getElem_mem hdb)

theorem toNat_next (i : BitVec w) {N : Nat} (hN : N < 2 ^ w) :
    ((i + 1) % BitVec.ofNat w N).toNat = (i.toNat + 1) % 2 ^ w % N := by
  simp [BitVec.toNat_umod, Nat.mod_eq_of_lt hN]

/-- **The loop is a search along the cyclic order** from `((i + 1) mod 2^w)
mod N`, `k` steps long. -/
theorem scan_eq_find {ws : List Nat} (hpos : 0 < ws.length) (hw : ws.length < 2 ^ w) :
    ∀ (k : Nat) (i : BitVec w), scan ws k i =
      ((List.range k).map fun j => ((i.toNat + 1) % 2 ^ w % ws.length + j) % ws.length).find?
        fun i => isConnected (ws.getD i 0)
  | 0, _ => rfl
  | k + 1, i => by
    rw [scan, List.range_succ_eq_map, List.map_cons, List.map_map, List.find?_cons,
      scan_eq_find hpos hw k, toNat_next i hw]
    generalize ht : (i.toNat + 1) % 2 ^ w % ws.length = t
    have htN : t < ws.length := ht ▸ Nat.mod_lt _ hpos
    -- the next start is one past this index, round the cycle
    have hnext : (t + 1) % 2 ^ w % ws.length = (t + 1) % ws.length := by
      rw [Nat.mod_eq_of_lt (by omega : t + 1 < 2 ^ w)]
    have hrest : ((fun j => (t + j) % ws.length) ∘ Nat.succ) =
        fun j => ((t + 1) % ws.length + j) % ws.length := by
      funext j
      rw [Nat.mod_add_mod, Nat.add_right_comm]
      rfl
    rw [hnext, hrest]
    simp only [Nat.add_zero, Nat.mod_eq_of_lt htN]
    split <;> rename_i hc <;> simp only [hc]

/-- **The loop and its fallback pick as `pickSpec` says**, for any seed,
wrapping included. -/
theorem scanConn_eq_pickSpec (s : SharedConns) {database : Nat} (seed : BitVec w) (must : Bool)
    (hdb : database < s.conns.length) (hw : s.parallel < 2 ^ w) :
    s.scanConn database seed must =
      pickSpec (s.conns.getD database []) ((seed.toNat + 1) % 2 ^ w % s.parallel) must := by
  have hlen := s.length_getD hdb
  rw [scanConn, scan_eq_find (by rw [hlen]; exact s.parallel_pos) (by rw [hlen]; exact hw),
    pickSpec, cyclicOrder, hlen]
  cases (List.map _ (List.range s.parallel)).find? _ <;> cases must <;> rfl

/-- With one worker, `pickSpec` is the `single` shortcut. -/
theorem pickSpec_one {ws : List Nat} (h : ws.length = 1) (start : Nat) (must : Bool) :
    pickSpec ws start must =
      if must || isConnected (ws.getD 0 0) then some 0 else none := by
  have : cyclicOrder start ws.length = [0] := by
    rw [cyclicOrder, h]
    show [(start + 0) % 1] = [0]
    rw [Nat.mod_one]
  rw [pickSpec, this, List.find?_cons, List.find?_nil]
  cases isConnected (ws.getD 0 0) <;> cases must <;> rfl

/-- The `single` shortcut returns what the loop returns. -/
theorem backendConn_eq_scanConn (s : SharedConns) {database : Nat} (seed : BitVec w)
    (must : Bool) (hdb : database < s.conns.length) (hw : s.parallel < 2 ^ w) :
    s.backendConn database seed must = s.scanConn database seed must := by
  unfold backendConn
  split
  · rename_i hs
    rw [scanConn_eq_pickSpec s seed must hdb hw, pickSpec_one]
    rw [s.length_getD hdb, s.single_iff.1 hs]
  · rfl

/-- **Worker selection.** For every database, every `w`-bit seed, `must`
and vector of worker states: `BackendConn` returns the first connected worker
of `conns[database]` in the cyclic order from `((seed + 1) mod 2^w) mod N`,
else `conns[database][0]` if `must` and nil if not; that order visits each
of the `N` indices once; and the `single` shortcut returns what the loop
returns. `N < 2^w` holds in Go, where `N` is an `int` length. -/
theorem backendConn_picks (s : SharedConns) (database : Nat) (seed : BitVec w) (must : Bool)
    (hdb : database < s.conns.length) (hw : s.parallel < 2 ^ w) :
    s.backendConn database seed must =
        pickSpec (s.conns.getD database []) ((seed.toNat + 1) % 2 ^ w % s.parallel) must ∧
      (cyclicOrder ((seed.toNat + 1) % 2 ^ w % s.parallel) s.parallel).Perm
        (List.range s.parallel) ∧
      s.backendConn database seed must = s.scanConn database seed must :=
  ⟨(backendConn_eq_scanConn s seed must hdb hw).trans (scanConn_eq_pickSpec s seed must hdb hw),
    cyclicOrder_perm _ _, backendConn_eq_scanConn s seed must hdb hw⟩

/-- Two databases of three workers; in database 1 only worker 1 is
connected. -/
def threeWorkers : SharedConns where
  parallel := 3
  conns := [[0, 0, 0], [stateDataStale, stateConnected, 0]]
  single := false
  parallel_pos := by decide
  conns_length := by decide
  single_iff := by decide

/-- The largest 64-bit seed, where `seed + 1` wraps to 0. -/
theorem backendConn_picks_wrapped :
    1 < threeWorkers.conns.length ∧ threeWorkers.parallel < 2 ^ 64 ∧
    (threeWorkers.backendConn 1 (-1 : BitVec 64) false =
        pickSpec (threeWorkers.conns.getD 1 [])
          (((-1 : BitVec 64).toNat + 1) % 2 ^ 64 % threeWorkers.parallel) false ∧
      (cyclicOrder (((-1 : BitVec 64).toNat + 1) % 2 ^ 64 % threeWorkers.parallel)
        threeWorkers.parallel).Perm (List.range threeWorkers.parallel) ∧
      threeWorkers.backendConn 1 (-1 : BitVec 64) false =
        threeWorkers.scanConn 1 (-1 : BitVec 64) false) :=
  ⟨by decide, by decide, backendConn_picks threeWorkers 1 (-1) false (by decide) (by decide)⟩

example : threeWorkers.backendConn 1 (-1 : BitVec 64) false = some 1 ∧
    threeWorkers.backendConn 0 (5 : BitVec 64) false = none ∧
    threeWorkers.backendConn 0 (5 : BitVec 64) true = some 0 := by
  decide

end SharedConns

end Proxy
end Codis
