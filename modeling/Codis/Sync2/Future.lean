/-
# sync2.Future: values gathered behind a wait group

A `Future` is a `sync.WaitGroup` and a map from keys to values, guarded by
the future's mutex. `Add` counts one more value to wait for; `Done(key,
val)` stores the value and counts one done, both under the lock; `Wait`
blocks until the counter is 0, then returns the map. The lock makes each
`Done` one step, and `Wait` takes its step once the counter is 0
(`Future.wait` is `none` while it blocks).

`sync.WaitGroup` is the standard library's: its counter going negative
panics with `sync: negative WaitGroup counter`, which a `Done` with no `Add`
outstanding does after storing its value. The map starts nil and `lazyInit`
makes it on first use, so `Wait` never returns nil. Values are of any type
`V` (the code's `interface{}`).

A sequence of `Add` and `Done` calls panics exactly when one of its
prefixes has more `Done`s than `Add`s: its first `Done` with no `Add`
outstanding (`Future.run_error`). One that does not panic leaves the
counter at the `Add`s minus the `Done`s, and the map `Wait` returns holds,
for each key, the value of the last `Done` of it (`Future.run_ok`,
`wait_returns_last`).

Key definitions: `Future`, `Future.add`, `Future.done`, `Future.wait`,
`Future.run`, `lastDone`.
Key theorems: `Future.run_error`, `Future.run_ok`, `wait_returns_last`.
-/
import Mathlib.Logic.Function.Basic
import Mathlib.Algebra.Ring.Int.Defs

namespace Codis
namespace Sync2

/-- A `sync2.Future`. -/
structure Future (V : Type) where
  /-- the counter of `wait` -/
  count : Int
  /-- `vmap`, none while it is nil -/
  vmap : Option (String → Option V)

namespace Future

variable {V : Type}

/-- The zero value. -/
def empty : Future V := ⟨0, none⟩

/-- The map `lazyInit` leaves in `vmap`. -/
def lazyInit (f : Future V) : String → Option V := f.vmap.getD fun _ => none

/-- `f.Add()`. -/
def add (f : Future V) : Future V := { f with count := f.count + 1 }

/-- `f.Done(key, val)`. -/
def done (f : Future V) (key : String) (val : V) : Except String (Future V) :=
  let m := Function.update f.lazyInit key (some val)
  if f.count - 1 < 0 then .error "sync: negative WaitGroup counter"
  else .ok ⟨f.count - 1, some m⟩

/-- `f.Wait()`: the map it returns and the future after, or none while it
blocks. -/
def wait (f : Future V) : Option ((String → Option V) × Future V) :=
  if f.count = 0 then some (f.lazyInit, { f with vmap := some f.lazyInit }) else none

/-- A call that `Wait` waits for. -/
inductive Op (V : Type)
  | add
  | done (key : String) (val : V)
  deriving DecidableEq, Repr

/-- What a call adds to the counter. -/
def Op.delta : Op V → Int
  | .add => 1
  | .done _ _ => -1

/-- One call. -/
def step (f : Future V) : Op V → Except String (Future V)
  | .add => .ok f.add
  | .done key val => f.done key val

/-- A sequence of calls, stopped by the first panic. -/
def run (f : Future V) : List (Op V) → Except String (Future V)
  | [] => .ok f
  | op :: ops =>
    match f.step op with
    | .ok f' => f'.run ops
    | .error e => .error e

/-- The value the last `Done` of `key` in `ops` stored. -/
def lastDone (ops : List (Op V)) (key : String) : Option V :=
  ops.reverse.findSome? fun
    | .done k v => if k = key then some v else none
    | .add => none

theorem lastDone_cons (op : Op V) (ops : List (Op V)) (key : String) :
    lastDone (op :: ops) key = (lastDone ops key).or (lastDone [op] key) := by
  simp [lastDone, List.findSome?_append]

theorem done_panics {f : Future V} (h : f.count ≤ 0) (key : String) (val : V) :
    f.done key val = .error "sync: negative WaitGroup counter" :=
  if_pos (by omega)

/-- **A run panics exactly at its first `Done` with no `Add` outstanding**:
from a counter at least 0, it fails, and then with the `WaitGroup`'s panic,
exactly when a prefix of it takes the counter below 0. -/
theorem run_error {f : Future V} (h0 : 0 ≤ f.count) (ops : List (Op V)) (e : String) :
    f.run ops = .error e ↔
      e = "sync: negative WaitGroup counter" ∧ ∃ k, f.count + ((ops.take k).map Op.delta).sum < 0 := by
  induction ops generalizing f with
  | nil => simp only [run, List.take_nil, List.map_nil, List.sum_nil, reduceCtorEq, false_iff]; omega
  | cons op ops ih =>
    have hk : (∃ k, f.count + ((op :: ops).take k |>.map Op.delta).sum < 0) ↔
        ∃ k, f.count + op.delta + ((ops.take k).map Op.delta).sum < 0 :=
      ⟨fun ⟨k, hk⟩ => by cases k with
        | zero => simp at hk; omega
        | succ k => exact ⟨k, by simpa [Int.add_assoc] using hk⟩,
       fun ⟨k, hk⟩ => ⟨k + 1, by simpa [Int.add_assoc] using hk⟩⟩
    rw [hk]
    cases op with
    | add => exact ih (f := f.add) (by simp only [add]; omega)
    | done key val =>
      by_cases hneg : f.count - 1 < 0
      · simp only [run, step, done_panics (by omega : f.count ≤ 0) key val, Except.error.injEq]
        exact ⟨fun h => ⟨h.symm, 0, by simp [Op.delta]; omega⟩, fun h => h.1.symm⟩
      · have := ih (f := ⟨f.count - 1, some (Function.update f.lazyInit key (some val))⟩) (by simp only; omega)
        simp only [run, step, done, if_neg hneg]
        simpa [Op.delta, Int.sub_eq_add_neg] using this

/-- One call that does not panic: the counter moves by its delta, and a
`Done` overwrites its key. -/
theorem step_ok {f f' : Future V} {op : Op V} (h : f.step op = .ok f') :
    f'.count = f.count + op.delta ∧ (0 ≤ f.count → 0 ≤ f'.count) ∧
      ∀ key, f'.lazyInit key = (lastDone [op] key).or (f.lazyInit key) := by
  cases op with
  | add =>
    cases h
    exact ⟨rfl, fun h0 => by simp only [add]; omega, fun _ => by simp [lastDone, lazyInit, add]⟩
  | done k v =>
    simp only [step, done] at h
    split_ifs at h with hneg
    cases h
    refine ⟨by simp [Op.delta]; omega, fun _ => by simp only; omega, fun key => ?_⟩
    by_cases hk : k = key
    · subst hk; simp [lastDone, lazyInit]
    · simp [lastDone, lazyInit, hk, Function.update_noteq (Ne.symm hk)]

/-- **A run that does not panic**: the counter moves by the `Add`s minus the
`Done`s and stays at least 0 from a start at least 0, and each key holds
the value of its last `Done`, or what it held before. -/
theorem run_ok {f f' : Future V} {ops : List (Op V)} (h0 : 0 ≤ f.count)
    (h : f.run ops = .ok f') :
    f'.count = f.count + (ops.map Op.delta).sum ∧ 0 ≤ f'.count ∧
      ∀ key, f'.lazyInit key = (lastDone ops key).or (f.lazyInit key) := by
  induction ops generalizing f with
  | nil => cases h; exact ⟨by simp, h0, fun _ => by simp [lastDone]⟩
  | cons op ops ih =>
    unfold run at h
    split at h
    · next f₁ h₁ =>
      obtain ⟨hc₁, hp₁, hm₁⟩ := step_ok h₁
      obtain ⟨hc, hp, hm⟩ := ih (hp₁ h0) h
      refine ⟨by rw [hc, hc₁]; simp [Int.add_assoc], hp, fun key => ?_⟩
      rw [hm, hm₁, lastDone_cons op ops, Option.or_assoc]
    · cases h

end Future

/-- **`Wait` returns the last value of each key.** Over any sequence of
`Add` and `Done` calls from the zero value: it panics with the `WaitGroup`'s
message exactly when a prefix of it has more `Done`s than `Add`s; and when
it does not, the counter is the `Add`s minus the `Done`s and never negative,
`Wait` returns exactly when the `Add`s and `Done`s balance, and the map it
returns holds, for each key, the value of the last `Done` of it, and
nothing for a key never done. -/
theorem wait_returns_last {V : Type} (ops : List (Future.Op V)) :
    (∀ e, Future.empty.run ops = .error e ↔
      e = "sync: negative WaitGroup counter" ∧ ∃ k, ((ops.take k).map Future.Op.delta).sum < 0) ∧
    ∀ f, Future.empty.run ops = .ok f →
      f.count = (ops.map Future.Op.delta).sum ∧ 0 ≤ f.count ∧
      (f.wait.isSome ↔ (ops.map Future.Op.delta).sum = 0) ∧
      ∀ m f', f.wait = some (m, f') → ∀ key, m key = Future.lastDone ops key := by
  refine ⟨fun e => by simpa [Future.empty] using Future.run_error (f := Future.empty) (Int.le_refl 0) ops e, fun f hrun => ?_⟩
  obtain ⟨hc, hp, hm⟩ := Future.run_ok (Int.le_refl 0) hrun
  have hc' : f.count = (ops.map Future.Op.delta).sum := by simpa [Future.empty] using hc
  refine ⟨hc', hp, by simp [Future.wait, hc'], fun m f' hw key => ?_⟩
  simp only [Future.wait] at hw
  split_ifs at hw
  cases hw
  simpa [Future.empty, Future.lazyInit] using hm key

/-- Three values waited for, one key done twice. -/
def futureTrace : List (Future.Op Nat) :=
  [.add, .add, .add, .done "a" 1, .done "b" 2, .done "a" 3]

/-- The future after it. -/
def gathered : Future Nat :=
  match Future.empty.run futureTrace with
  | .ok f => f
  | .error _ => Future.empty

example : (gathered.wait.map fun r => (r.1 "a", r.1 "b", r.1 "c")) = some (some 3, some 2, none) := by
  decide

end Sync2
end Codis
