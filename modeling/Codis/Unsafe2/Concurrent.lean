/-
# The off-heap cap under concurrent allocation

`newCGoSlice(n, force)` is not one step: `allocOffheapBytes.Add(n)` and
`allocOffheapBytes.Sub(n)` are atomic, the check of `after` against
`MaxOffheapBytes()` and the `cgo_malloc` between them are the goroutine's
own. A `reclaim` frees its block, then does its `Sub`. Here every allocation
and every reclaim is a task with a `Phase`, one atomic step of one task is
an `Act`, and a run is any sequence of them: every interleaving of any number
of allocators and reclaimers. A task's bytes are on the counter from its
`Add` to its `Sub` (`Task.held`); a slice is live from `cgo_malloc` until
`reclaim` frees its block. `MaxOffheapBytes` stays fixed, and a run starts
from slices that are live, with the counter at their total (`Concurrent.start`).

The live slices made without force hold at most `MaxOffheapBytes` bytes
at every step (`offheap_cap`), though the counter itself may pass the cap
while a refused allocation has not yet done its `Sub`. The argument: the
latest unforced allocation still live saw, in the result of its own `Add`,
every unforced slice live now that was allocated before it, so the sum up to
it is at most its `after`, which passed the check (`Inv.live`). All sizes
are at least 0, since `MakeSlice` asks for at least `MinOffheapSlice` bytes
and `MakeOffheapSlice` panics on a negative size.

The argument needs the counter not to wrap: the bytes on it must stay below
`2^63` at every step of the run (`Concurrent.states`), which is exactly when
the `int64` counter equals them. Past that it fails: two refused requests of
`2^62` bytes in flight take the counter to `-2^63`, and a third allocation
then passes any cap (`cap_broken_by_wrap`).

Key definitions: `Task`, `Concurrent`, `Concurrent.step`, `Concurrent.run`,
`Concurrent.states`, `Concurrent.Inv`.
Key theorems: `Concurrent.Inv.step`, `Concurrent.run_inv`, `capped_le`,
`offheap_cap`.
-/
import Codis.Unsafe2.Offheap

namespace Codis
namespace Unsafe2

/-- Where an allocation or a reclaim is. -/
inductive Phase
  /-- `newCGoSlice` has done its `Add`, which returned `after`; the check
  and `cgo_malloc` come next -/
  | added (after : Int)
  /-- refused by the cap or by a nil `cgo_malloc`; its `Sub` comes next -/
  | rollback
  /-- a live `cgoSlice` -/
  | live
  /-- `reclaim` has freed the block; its `Sub` comes next -/
  | freeing
  /-- its bytes are off the counter -/
  | done
  deriving DecidableEq, Repr

/-- Between `Add` and the check, or a live slice: a task that an unforced
allocation after it must count. -/
def Phase.holds : Phase → Bool
  | .added _ | .live => true
  | _ => false

/-- One call of `newCGoSlice(n, force)`, and the `reclaim` of its slice. -/
structure Task where
  n : Nat
  force : Bool
  phase : Phase
  deriving DecidableEq, Repr

namespace Task

/-- Its bytes on the counter: from its `Add` to its `Sub`. -/
def held (t : Task) : Nat := if t.phase = .done then 0 else t.n

/-- Its bytes as a later unforced allocation must count them. -/
def claim (t : Task) : Nat := if t.force = false ∧ t.phase.holds then t.n else 0

/-- Its bytes as a live slice made without force. -/
def capped (t : Task) : Nat := if t.force = false ∧ t.phase = .live then t.n else 0

theorem capped_le_claim (t : Task) : t.capped ≤ t.claim := by
  unfold capped claim
  split
  · next h => rw [if_pos ⟨h.1, by rw [h.2]; rfl⟩]
  · exact Nat.zero_le _

theorem claim_le_held (t : Task) : t.claim ≤ t.held := by
  unfold claim held
  split
  · next h => rw [if_neg (by intro hd; have := h.2; rw [hd] at this; cases this)]
  · exact Nat.zero_le _

end Task

/-- The sum of `f` over the tasks. -/
def sumBy (f : Task → Nat) : List Task → Nat
  | [] => 0
  | t :: ts => f t + sumBy f ts

section SumBy

variable (f : Task → Nat)

@[simp] theorem sumBy_nil : sumBy f [] = 0 := rfl

@[simp] theorem sumBy_cons (t : Task) (ts : List Task) : sumBy f (t :: ts) = f t + sumBy f ts := rfl

@[simp] theorem sumBy_append (ts us : List Task) : sumBy f (ts ++ us) = sumBy f ts + sumBy f us := by
  induction ts with
  | nil => simp
  | cons t ts ih => simp [ih, Nat.add_assoc]

theorem sumBy_set {ts : List Task} {k : Nat} {t : Task} (t' : Task) (h : ts[k]? = some t) :
    sumBy f (ts.set k t') + f t = sumBy f ts + f t' := by
  induction ts generalizing k with
  | nil => simp at h
  | cons x ts ih =>
    cases k with
    | zero => simp at h; subst h; simp; omega
    | succ k => simp at h ⊢; have := ih h; omega

theorem sumBy_take_set_le {ts : List Task} {k : Nat} {t t' : Task} (h : ts[k]? = some t)
    (hle : f t' ≤ f t) (j : Nat) : sumBy f ((ts.set k t').take j) ≤ sumBy f (ts.take j) := by
  rw [List.set_take]
  by_cases hk : k < j
  · have := sumBy_set f t' (by rw [List.getElem?_take_of_lt hk, h])
    omega
  · rw [List.set_eq_of_length_le (by simp; omega)]

theorem sumBy_take_add {ts : List Task} {k : Nat} {t : Task} (h : ts[k]? = some t) :
    sumBy f (ts.take k) + f t ≤ sumBy f ts := by
  obtain ⟨hk, rfl⟩ := List.getElem?_eq_some_iff.1 h
  have := congrArg (sumBy f) (List.take_append_drop k ts)
  rw [List.drop_eq_getElem_cons hk, sumBy_append, sumBy_cons] at this
  omega

theorem sumBy_le {g : Task → Nat} (hfg : ∀ t, f t ≤ g t) (ts : List Task) : sumBy f ts ≤ sumBy g ts := by
  induction ts with
  | nil => exact Nat.le_refl 0
  | cons t ts ih => simp only [sumBy_cons]; exact Nat.add_le_add (hfg t) ih

end SumBy

/-- The counter, the cap, and every task so far, in the order of their
`Add`s. -/
structure Concurrent where
  allocOffheapBytes : Int
  maxOffheapBytes : Int
  tasks : List Task
  deriving DecidableEq, Repr

/-- One atomic step of one task. -/
inductive Act
  /-- a new `newCGoSlice(n, force)` does its `Add` -/
  | add (n : Nat) (force : Bool)
  /-- task `k` checks the cap unless forced, then calls `cgo_malloc`, which
  returns a block when `malloc` -/
  | check (k : Nat) (malloc : Bool)
  /-- task `k`, refused, does its `Sub` -/
  | undo (k : Nat)
  /-- `reclaim` of the live slice of task `k` frees its block -/
  | free (k : Nat)
  /-- `reclaim` of the slice of task `k` does its `Sub` -/
  | sub (k : Nat)
  deriving DecidableEq, Repr

namespace Concurrent

/-- Slices live at the start, by size and whether forced. -/
def liveTasks (live : List (Nat × Bool)) : List Task := live.map fun p => ⟨p.1, p.2, .live⟩

/-- A run's start: the slices of `live`, with the counter at their total. -/
def start (live : List (Nat × Bool)) (max : Int) : Concurrent :=
  ⟨sumBy Task.n (liveTasks live), max, liveTasks live⟩

/-- One step; none when the task is not where the step needs it. -/
def step (s : Concurrent) : Act → Option Concurrent
  | .add n force =>
    let after := wrap64 (s.allocOffheapBytes + n)
    some { s with allocOffheapBytes := after, tasks := s.tasks ++ [⟨n, force, .added after⟩] }
  | .check k malloc =>
    match s.tasks[k]? with
    | some ⟨n, force, .added after⟩ =>
      if !force ∧ after > s.maxOffheapBytes then
        some { s with tasks := s.tasks.set k ⟨n, force, .rollback⟩ }
      else if malloc then some { s with tasks := s.tasks.set k ⟨n, force, .live⟩ }
      else some { s with tasks := s.tasks.set k ⟨n, force, .rollback⟩ }
    | _ => none
  | .undo k =>
    match s.tasks[k]? with
    | some ⟨n, force, .rollback⟩ =>
      some { s with
        allocOffheapBytes := wrap64 (s.allocOffheapBytes - n)
        tasks := s.tasks.set k ⟨n, force, .done⟩ }
    | _ => none
  | .free k =>
    match s.tasks[k]? with
    | some ⟨n, force, .live⟩ => some { s with tasks := s.tasks.set k ⟨n, force, .freeing⟩ }
    | _ => none
  | .sub k =>
    match s.tasks[k]? with
    | some ⟨n, force, .freeing⟩ =>
      some { s with
        allocOffheapBytes := wrap64 (s.allocOffheapBytes - n)
        tasks := s.tasks.set k ⟨n, force, .done⟩ }
    | _ => none

/-- A run: one step after another, in any interleaving. -/
def run (s : Concurrent) : List Act → Option Concurrent
  | [] => some s
  | a :: as => (s.step a).bind fun s' => s'.run as

/-- The states a run passes through, from the first to the one it ends in. -/
def states (s : Concurrent) : List Act → List Concurrent
  | [] => [s]
  | a :: as => s :: ((s.step a).map fun s' => s'.states as).getD []

theorem mem_states_self {s : Concurrent} : ∀ {acts : List Act}, s ∈ s.states acts
  | [] | _ :: _ => List.mem_cons_self _ _

theorem run_mem_states : ∀ {s s' : Concurrent} {acts : List Act}, s.run acts = some s' → s' ∈ s.states acts
  | _, _, [], h => by cases h; exact mem_states_self
  | s, _, a :: as, h => by
    obtain ⟨s₁, h₁, h₂⟩ := Option.bind_eq_some.1 h
    simp only [states, h₁, Option.map_some', Option.getD_some]
    exact List.mem_cons_of_mem _ (run_mem_states h₂)

/-! ### The invariant -/

/-- The counter is the `int64` of the bytes held; an unforced task between
its `Add` and its check saw in `after` every unforced task before it that is
still pending or live; and so does a live unforced slice, against the cap. -/
structure Inv (s : Concurrent) : Prop where
  counter : s.allocOffheapBytes = wrap64 (sumBy Task.held s.tasks)
  added : ∀ {k n after}, s.tasks[k]? = some ⟨n, false, .added after⟩ →
    ((sumBy Task.claim (s.tasks.take k) + n : Nat) : Int) ≤ after
  live : ∀ {k n}, s.tasks[k]? = some ⟨n, false, .live⟩ →
    ((sumBy Task.claim (s.tasks.take k) + n : Nat) : Int) ≤ s.maxOffheapBytes
  max_nonneg : 0 ≤ s.maxOffheapBytes

variable {s s' : Concurrent}

theorem step_max {a : Act} (h : s.step a = some s') : s'.maxOffheapBytes = s.maxOffheapBytes := by
  cases a <;> simp only [step] at h <;> try split at h
  all_goals first | (cases h; rfl) | (split_ifs at h <;> cases h <;> rfl) | cases h

/-- A step other than an `Add` moves one task to a phase that is not
`added` and holds back no more than the one it leaves, with the counter
moved by what its bytes held moved. -/
theorem Inv.set (hi : s.Inv) {k n : Nat} {force : Bool} {p : Phase} (p' : Phase)
    (hk : s.tasks[k]? = some ⟨n, force, p⟩) (hna : ∀ after, p' ≠ .added after)
    (hholds : p'.holds = true → p.holds = true) {a : Int}
    (hc : a = wrap64 (sumBy Task.held s.tasks - (⟨n, force, p⟩ : Task).held +
      (⟨n, force, p'⟩ : Task).held))
    (hlive : force = false → p' = .live →
      ((sumBy Task.claim (s.tasks.take k) + n : Nat) : Int) ≤ s.maxOffheapBytes) :
    Inv { s with allocOffheapBytes := a, tasks := s.tasks.set k ⟨n, force, p'⟩ } := by
  have hclaim : (⟨n, force, p'⟩ : Task).claim ≤ (⟨n, force, p⟩ : Task).claim := by
    unfold Task.claim
    by_cases h' : force = false ∧ p'.holds = true
    · rw [if_pos h', if_pos ⟨h'.1, hholds h'.2⟩]
    · rw [if_neg h']; exact Nat.zero_le _
  have hlt := (List.getElem?_eq_some_iff.1 hk).1
  refine ⟨?_, fun {j _ _} hj => ?_, fun {j _} hj => ?_, hi.max_nonneg⟩
  · have := sumBy_set Task.held ⟨n, force, p'⟩ hk
    show a = wrap64 (sumBy Task.held (s.tasks.set k _) : Nat)
    rw [hc]; congr 1; omega
  · by_cases hjk : j = k
    · subst hjk
      rw [List.getElem?_set_self hlt] at hj
      exact absurd (Task.mk.inj (Option.some.inj hj)).2.2 (hna _)
    · rw [List.getElem?_set_ne (Ne.symm hjk)] at hj
      have := sumBy_take_set_le Task.claim hk hclaim j
      have := hi.added hj
      simp only at this ⊢; omega
  · by_cases hjk : j = k
    · subst hjk
      rw [List.getElem?_set_self hlt] at hj
      obtain ⟨rfl, rfl, rfl⟩ := Task.mk.inj (Option.some.inj hj)
      rw [List.set_take, List.set_eq_of_length_le (by simp)]
      exact hlive rfl rfl
    · rw [List.getElem?_set_ne (Ne.symm hjk)] at hj
      have := sumBy_take_set_le Task.claim hk hclaim j
      have := hi.live hj
      simp only at this ⊢; omega

/-- An index into the tasks after an `Add`: an earlier task, with the tasks
before it unchanged, or the new one. -/
theorem getElem?_append_task {ts : List Task} {t x : Task} {k : Nat} (h : (ts ++ [t])[k]? = some x) :
    (ts[k]? = some x ∧ (ts ++ [t]).take k = ts.take k) ∨ (k = ts.length ∧ x = t) := by
  rcases Nat.lt_or_ge k ts.length with hlt | hge
  · rw [List.getElem?_append_left hlt] at h
    exact .inl ⟨h, List.take_append_of_le_length hlt.le⟩
  · rw [List.getElem?_append_right hge] at h
    obtain rfl : k = ts.length := by
      by_contra hne
      rw [List.getElem?_eq_none (by simp; omega)] at h; cases h
    simp only [Nat.sub_self, List.getElem?_cons_zero, Option.some.injEq] at h
    exact .inr ⟨rfl, h.symm⟩

/-- An `Add` keeps the invariant while the bytes held stay below `2^63`:
its `after` is the bytes held before it and its own, so it counts every
task before it. -/
theorem Inv.add (hi : s.Inv) (n : Nat) (force : Bool) (hnew : sumBy Task.held s.tasks + n < 2 ^ 63) :
    Inv ⟨wrap64 (s.allocOffheapBytes + n), s.maxOffheapBytes,
      s.tasks ++ [⟨n, force, .added (wrap64 (s.allocOffheapBytes + n))⟩]⟩ := by
  have hafter : wrap64 (s.allocOffheapBytes + n) = sumBy Task.held s.tasks + n := by
    rw [hi.counter, wrap64_add_wrap64]; exact wrap64_of_lt (by omega) (by exact_mod_cast hnew)
  refine ⟨?_, fun hk => ?_, fun hk => ?_, hi.max_nonneg⟩
  · show _ = wrap64 ((sumBy Task.held (s.tasks ++ _) : Nat) : Int)
    rw [sumBy_append, hi.counter, Nat.cast_add, wrap64_add_wrap64]
    simp [Task.held]
  · rcases getElem?_append_task hk with ⟨hk, ht⟩ | ⟨rfl, hx⟩
    · rw [ht]; exact hi.added hk
    · obtain ⟨rfl, -, hx⟩ := Task.mk.inj hx
      cases hx
      rw [List.take_left' rfl, hafter]
      have := sumBy_le _ Task.claim_le_held s.tasks
      push_cast; omega
  · rcases getElem?_append_task hk with ⟨hk, ht⟩ | ⟨rfl, hx⟩
    · rw [ht]; exact hi.live hk
    · nomatch (Task.mk.inj hx).2.2

/-- **Every step keeps the invariant**, as long as the bytes held after it
stay below `2^63`, so that the counter does not wrap. -/
theorem Inv.step (hi : s.Inv) {a : Act} (h : s.step a = some s')
    (hw : sumBy Task.held s'.tasks < 2 ^ 63) : s'.Inv := by
  cases a with
  | add n force =>
    cases h
    exact hi.add n force (by simpa [Task.held] using hw)
  | check k malloc =>
    simp only [Concurrent.step] at h
    split at h
    · rename_i n force after heq
      have hc : s.allocOffheapBytes = wrap64 (sumBy Task.held s.tasks -
          (⟨n, force, .added after⟩ : Task).held + (⟨n, force, .rollback⟩ : Task).held) := by
        simp [Task.held, hi.counter]
      split_ifs at h with hcap <;> cases h
      · exact hi.set .rollback heq nofun nofun hc nofun
      · -- the check passed: `after`, which counts every unforced task before it, is within the cap
        refine hi.set .live heq nofun (fun _ => rfl) (by simpa [Task.held] using hc) fun hf _ => ?_
        subst hf
        exact (hi.added heq).trans (by simpa using hcap)
      · exact hi.set .rollback heq nofun nofun hc nofun
    · cases h
  | undo k | sub k =>
    simp only [Concurrent.step] at h
    split at h
    · rename_i n force heq
      cases h
      exact hi.set .done heq nofun nofun
        (by rw [hi.counter, wrap64_sub_wrap64]; simp [Task.held]) nofun
    · cases h
  | free k =>
    simp only [Concurrent.step] at h
    split at h
    · rename_i n force heq
      cases h
      exact hi.set .freeing heq nofun nofun (by simp [Task.held, hi.counter]) nofun
    · cases h

theorem run_max : ∀ {s s' : Concurrent} (acts : List Act), s.run acts = some s' →
    s'.maxOffheapBytes = s.maxOffheapBytes
  | _, _, [], h => by cases h; rfl
  | _, _, _ :: as, h => by
    obtain ⟨s₁, h₁, h₂⟩ := Option.bind_eq_some.1 h
    exact (run_max as h₂).trans (step_max h₁)

/-- **Every run keeps the invariant**, as long as the bytes held stay below
`2^63` in every state it passes through. -/
theorem run_inv : ∀ {s s' : Concurrent} (acts : List Act), s.Inv → s.run acts = some s' →
    (∀ t ∈ s.states acts, sumBy Task.held t.tasks < 2 ^ 63) → s'.Inv
  | _, _, [], hi, h, _ => by cases h; exact hi
  | s, _, a :: as, hi, h, hw => by
    obtain ⟨s₁, h₁, h₂⟩ := Option.bind_eq_some.1 h
    have hw₁ : ∀ t ∈ s₁.states as, sumBy Task.held t.tasks < 2 ^ 63 := fun t ht =>
      hw t (by simp [states, h₁, ht])
    exact run_inv as (hi.step h₁ (hw₁ s₁ mem_states_self)) h₂ hw₁

/-- The live unforced slices fit under the cap: each saw in its `after`
all of them before it. -/
theorem Inv.capped_le (hi : s.Inv) : (sumBy Task.capped s.tasks : Int) ≤ s.maxOffheapBytes := by
  suffices h : ∀ j, (sumBy Task.capped (s.tasks.take j) : Int) ≤ s.maxOffheapBytes by
    simpa using h s.tasks.length
  intro j
  induction j with
  | zero => simpa using hi.max_nonneg
  | succ j ih =>
    rw [List.take_succ]
    cases ht : s.tasks[j]? with
    | none => simpa using ih
    | some t =>
      obtain ⟨n, force, phase⟩ := t
      simp only [Option.toList_some, sumBy_append, sumBy_cons, sumBy_nil, Nat.add_zero]
      by_cases hc : force = false ∧ phase = .live
      · obtain ⟨rfl, rfl⟩ := hc
        have := hi.live ht
        have := sumBy_le _ Task.capped_le_claim (s.tasks.take j)
        simp only [Task.capped, and_self, ↓reduceIte]
        push_cast at *; omega
      · simp only [Task.capped, if_neg hc, Nat.add_zero]
        exact ih

theorem sumBy_liveTasks_claim (live : List (Nat × Bool)) :
    sumBy Task.claim (liveTasks live) = sumBy Task.capped (liveTasks live) := by
  induction live with
  | nil => rfl
  | cons p live ih =>
    obtain ⟨n, force⟩ := p
    simp only [liveTasks, List.map_cons, sumBy_cons] at ih ⊢
    rw [ih]; congr 1
    cases force <;> rfl

theorem sumBy_liveTasks_held (live : List (Nat × Bool)) :
    sumBy Task.held (liveTasks live) = sumBy Task.n (liveTasks live) := by
  induction live with
  | nil => rfl
  | cons p live ih => simp only [liveTasks, List.map_cons, sumBy_cons] at ih ⊢; rw [ih]; rfl

/-- A start within the cap and below `2^63` bytes keeps the invariant. -/
theorem start_inv {live : List (Nat × Bool)} {max : Int}
    (hcap : (sumBy Task.capped (start live max).tasks : Int) ≤ max)
    (hw : sumBy Task.held (start live max).tasks < 2 ^ 63) : (start live max).Inv where
  counter := by
    simp only [start, sumBy_liveTasks_held] at hw ⊢
    exact (wrap64_of_lt (by omega) (by exact_mod_cast hw)).symm
  added {k n after} hk := by
    simp only [start, liveTasks, List.getElem?_map, Option.map_eq_some'] at hk
    obtain ⟨_, _, h⟩ := hk
    nomatch (Task.mk.inj h).2.2
  live {k n} hk := by
    have := sumBy_take_add Task.claim hk
    simp only [start, sumBy_liveTasks_claim] at this hcap ⊢
    push_cast at this ⊢; exact le_trans (by exact_mod_cast this) hcap
  max_nonneg := le_trans (Int.natCast_nonneg _) hcap

end Concurrent

open Concurrent in
/-- **The live slices made without force hold at most `MaxOffheapBytes`
bytes**, after every interleaving of allocations and reclaims from live
slices within the cap, as long as the bytes on the counter stay below
`2^63` in every state of the run, so that the `int64` counter never wraps;
the counter is the bytes held between an `Add` and its `Sub`, which may
exceed the cap. -/
theorem offheap_cap (live : List (Nat × Bool)) (max : Int) (acts : List Act) {s : Concurrent}
    (hcap : (sumBy Task.capped (start live max).tasks : Int) ≤ max)
    (hrun : (start live max).run acts = some s)
    (hwrap : ∀ t ∈ (start live max).states acts, sumBy Task.held t.tasks < 2 ^ 63) :
    (sumBy Task.capped s.tasks : Int) ≤ max ∧ s.maxOffheapBytes = max ∧
      s.allocOffheapBytes = sumBy Task.held s.tasks ∧
      sumBy Task.capped s.tasks ≤ sumBy Task.held s.tasks := by
  have hi := run_inv acts (start_inv hcap (hwrap _ mem_states_self)) hrun hwrap
  have hlt := hwrap s (run_mem_states hrun)
  have hmax : s.maxOffheapBytes = max := run_max acts hrun
  refine ⟨hmax ▸ hi.capped_le, hmax, ?_, ?_⟩
  · rw [hi.counter, wrap64_of_lt (by omega) (by exact_mod_cast hlt)]
  · exact sumBy_le _ (fun t => (Task.capped_le_claim t).trans (Task.claim_le_held t)) _

/-- Two unforced allocations race one live slice under a cap of 65536: the
first passes its check, the second is refused and rolls back, then the first
slice is reclaimed. -/
def capTrace : List Act :=
  [.add 30000 false, .add 40000 false, .check 1 true, .check 2 true, .undo 2, .free 0, .sub 0]

/-- Where `capTrace` ends: the second allocation's slice is the one live. -/
def capTraceEnd : Concurrent :=
  ⟨30000, 65536, [⟨20000, false, .done⟩, ⟨30000, false, .live⟩, ⟨40000, false, .done⟩]⟩

theorem offheap_cap_race :
    (sumBy Task.capped (Concurrent.start [(20000, false)] 65536).tasks : Int) ≤ 65536 ∧
      (Concurrent.start [(20000, false)] 65536).run capTrace = some capTraceEnd ∧
      (∀ t ∈ (Concurrent.start [(20000, false)] 65536).states capTrace, sumBy Task.held t.tasks < 2 ^ 63) ∧
      ((sumBy Task.capped capTraceEnd.tasks : Int) ≤ 65536 ∧ capTraceEnd.maxOffheapBytes = 65536 ∧
        capTraceEnd.allocOffheapBytes = sumBy Task.held capTraceEnd.tasks ∧
        sumBy Task.capped capTraceEnd.tasks ≤ sumBy Task.held capTraceEnd.tasks) :=
  ⟨by decide, by decide, by decide,
    offheap_cap [(20000, false)] 65536 capTrace (by decide) (by decide) (by decide)⟩

/-- Midway through `capTrace`, with both allocations added and none checked,
the counter is past the cap. -/
example : ((Concurrent.start [(20000, false)] 65536).run (capTrace.take 2)).map
    Concurrent.allocOffheapBytes = some 90000 := by decide

/-- Two refused requests of `2^62` bytes in flight wrap the counter to
`-2^63`, and a third allocation, of 20000 bytes, passes a cap of 100. -/
def wrapTrace : List Act := [.add (2 ^ 62) false, .add (2 ^ 62) false, .add 20000 false, .check 2 true]

theorem cap_broken_by_wrap :
    (sumBy Task.capped (Concurrent.start [] 100).tasks : Int) ≤ 100 ∧
      ((Concurrent.start [] 100).run wrapTrace).map (fun s => sumBy Task.capped s.tasks) = some 20000 ∧
      ((Concurrent.start [] 100).states wrapTrace).map (fun s => sumBy Task.held s.tasks) =
        [0, 2 ^ 62, 2 ^ 63, 2 ^ 63 + 20000, 2 ^ 63 + 20000] :=
  ⟨by decide, by decide, by decide⟩

end Unsafe2
end Codis
