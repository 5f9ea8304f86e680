/-
# Off-heap slices and their byte counter

`unsafe2` hands out byte slices. One of at least `MinOffheapSlice` bytes
(`MakeSlice`), or of any size when forced (`MakeOffheapSlice`), is a
`cgoSlice` on a block of `cgo_malloc`; the others are `goSlice`s on the Go
heap. `newCGoSlice` first adds the size to `allocOffheapBytes`, then takes
it back when an unforced allocation would pass `MaxOffheapBytes()` or
`cgo_malloc` returns nil. A `cgoSlice`'s `reclaim` frees its block once,
subtracts its size, and clears its pointer, its buffer and its finalizer;
`FreeSlice` calls it, and so does the finalizer while it is set.

`allocOffheapBytes` is an `atomic2.Int64`: its value is an unbounded
integer wrapped to 64-bit two's complement (`wrap64`). The calls are one
sequence, one step each. A slice is named by its place in `slices`, the
slices in the order they were made; a block of `cgo_malloc` is named by the
slice made on it, and whether `cgo_malloc` returns a block is the call's
`malloc` argument. The blocks passed to `cgo_free` are logged in `frees`
(ghost, not in the code).

`Inv` is what holds after every run: the counter is the wrapped sum of the
sizes of the live `cgoSlice`s, and a block is freed exactly when its slice
was reclaimed, once (`Inv.step`, `run_inv`).

Key definitions: `Offheap`, `Offheap.newCGoSlice`, `Offheap.reclaim`,
`Offheap.makeSlice`, `Offheap.makeOffheapSlice`, `Offheap.run`, `liveBytes`.
Key theorems: `Offheap.newCGoSlice_refused`, `Offheap.reclaim_reclaim`,
`Offheap.run_inv`, `offheap_accounting`.
-/
import Mathlib.Data.List.Nodup
import Mathlib.Algebra.Ring.Int.Defs

namespace Codis
namespace Unsafe2

/-- An `int64` value of an unbounded computation: the two's-complement wrap. -/
def wrap64 (x : Int) : Int := x.bmod (2 ^ 64)

@[simp] theorem wrap64_wrap64 (x : Int) : wrap64 (wrap64 x) = wrap64 x := Int.bmod_bmod

theorem wrap64_add_wrap64 (x y : Int) : wrap64 (wrap64 x + y) = wrap64 (x + y) :=
  Int.bmod_add_bmod_congr

theorem wrap64_sub_wrap64 (x y : Int) : wrap64 (wrap64 x - y) = wrap64 (x - y) :=
  Int.bmod_sub_bmod_congr

theorem wrap64_of_lt {x : Int} (h0 : 0 ≤ x) (h : x < 2 ^ 63) : wrap64 x = x := by
  rw [wrap64, Int.bmod_pos _ _ (by rw [Int.emod_eq_of_lt h0 (by omega)]; omega),
    Int.emod_eq_of_lt h0 (by omega)]

/-- `MinOffheapSlice`. -/
def minOffheapSlice : Int := 1024 * 16

/-- A `cgoSlice`: its block, `len(buf)`, and whether its finalizer is set. -/
structure CGoSlice where
  ptr : Option Nat
  buf : Nat
  finalizer : Bool
  deriving DecidableEq, Repr

/-- A `Slice`: a `cgoSlice`, or a `goSlice` of its size. -/
inductive Slice
  | cgo (s : CGoSlice)
  | go (n : Int)
  deriving DecidableEq, Repr

/-- The bytes a slice holds off the heap: `len(Buffer())` of a `cgoSlice`
not yet reclaimed. -/
def Slice.offheap : Slice → Nat
  | .cgo ⟨some _, n, _⟩ => n
  | _ => 0

/-- The bytes the live `cgoSlice`s of `ss` hold. -/
def liveBytes : List Slice → Nat
  | [] => 0
  | s :: ss => s.offheap + liveBytes ss

@[simp] theorem liveBytes_append (ss ts : List Slice) :
    liveBytes (ss ++ ts) = liveBytes ss + liveBytes ts := by
  induction ss with
  | nil => simp [liveBytes]
  | cons s ss ih => simp [liveBytes, ih, Nat.add_assoc]

theorem liveBytes_set {ss : List Slice} {k : Nat} {s : Slice} (t : Slice) (hs : ss[k]? = some s) :
    liveBytes (ss.set k t) + s.offheap = liveBytes ss + t.offheap := by
  induction ss generalizing k with
  | nil => simp at hs
  | cons x ss ih =>
    cases k with
    | zero => simp at hs; subst hs; simp [liveBytes]; omega
    | succ k => simp [liveBytes] at hs ⊢; have := ih hs; omega

/-- The counters and the slices made so far. -/
structure Offheap where
  allocOffheapBytes : Int
  maxOffheapBytes : Int
  slices : List Slice
  /-- the blocks passed to `cgo_free`, in order (ghost) -/
  frees : List Nat

namespace Offheap

/-- The zero values of the two counters: no slice yet. -/
def init : Offheap := ⟨0, 0, [], []⟩

/-- `newCGoSlice(n, force)`: the new slice's name, none for nil. -/
def newCGoSlice (h : Offheap) (n : Nat) (force malloc : Bool) : Option Nat × Offheap :=
  let after := wrap64 (h.allocOffheapBytes + n)
  if !force ∧ after > h.maxOffheapBytes then
    (none, { h with allocOffheapBytes := wrap64 (after - n) })
  else if !malloc then
    (none, { h with allocOffheapBytes := wrap64 (after - n) })
  else
    (some h.slices.length,
      { h with
        allocOffheapBytes := after
        slices := h.slices ++ [.cgo ⟨some h.slices.length, n, true⟩] })

/-- `newGoSlice(n)`. -/
def newGoSlice (h : Offheap) (n : Int) : Nat × Offheap :=
  (h.slices.length, { h with slices := h.slices ++ [.go n] })

/-- `MakeSlice(n)`. -/
def makeSlice (h : Offheap) (n : Int) (malloc : Bool) : Nat × Offheap :=
  if n ≥ minOffheapSlice then
    match h.newCGoSlice n.toNat false malloc with
    | (some k, h') => (k, h')
    | (none, h') => h'.newGoSlice n
  else h.newGoSlice n

/-- `MakeOffheapSlice(n)`. -/
def makeOffheapSlice (h : Offheap) (n : Int) (malloc : Bool) :
    Except String (Option Nat × Offheap) :=
  if n ≥ 0 then .ok (h.newCGoSlice n.toNat true malloc)
  else .error "make slice with negative size"

/-- `s.reclaim()` of the slice named `k`. A `goSlice` holds nothing off the
heap and its `reclaim` changes nothing here. -/
def reclaim (h : Offheap) (k : Nat) : Offheap :=
  match h.slices[k]? with
  | some (.cgo ⟨some p, n, _⟩) =>
    { h with
      frees := h.frees ++ [p]
      allocOffheapBytes := wrap64 (h.allocOffheapBytes - n)
      slices := h.slices.set k (.cgo ⟨none, 0, false⟩) }
  | _ => h

/-- `FreeSlice(s)`; a name that is no slice stands for nil. -/
def freeSlice (h : Offheap) (k : Nat) : Offheap := h.reclaim k

/-- The runtime runs the finalizer of slice `k`, if it is set. -/
def finalize (h : Offheap) (k : Nat) : Offheap :=
  match h.slices[k]? with
  | some (.cgo s) => if s.finalizer then h.reclaim k else h
  | _ => h

/-- `SetMaxOffheapBytes(n)`. -/
def setMaxOffheapBytes (h : Offheap) (n : Int) : Offheap := { h with maxOffheapBytes := n }

/-- A call of the package, or a finalizer run. -/
inductive Op
  | makeSlice (n : Int) (malloc : Bool)
  | makeOffheapSlice (n : Int) (malloc : Bool)
  | freeSlice (k : Nat)
  | finalize (k : Nat)
  | setMaxOffheapBytes (n : Int)
  deriving DecidableEq, Repr

/-- One call; `MakeOffheapSlice` of a negative size panics. -/
def step (h : Offheap) : Op → Except String Offheap
  | .makeSlice n malloc => .ok (h.makeSlice n malloc).2
  | .makeOffheapSlice n malloc => (h.makeOffheapSlice n malloc).map Prod.snd
  | .freeSlice k => .ok (h.freeSlice k)
  | .finalize k => .ok (h.finalize k)
  | .setMaxOffheapBytes n => .ok (h.setMaxOffheapBytes n)

/-- A sequence of calls, stopped by the first panic. -/
def run (h : Offheap) : List Op → Except String Offheap
  | [] => .ok h
  | op :: ops =>
    match h.step op with
    | .ok h' => h'.run ops
    | .error e => .error e

/-! ### Allocation and reclaim -/

section
variable {h : Offheap}

/-- **A refused allocation changes nothing**: the counter is added to and
taken back, which is the identity on an `int64`. -/
theorem newCGoSlice_refused {n : Nat} {force malloc : Bool}
    (hw : wrap64 h.allocOffheapBytes = h.allocOffheapBytes)
    (hr : (h.newCGoSlice n force malloc).1 = none) : (h.newCGoSlice n force malloc).2 = h := by
  have hback : wrap64 (wrap64 (h.allocOffheapBytes + n) - n) = h.allocOffheapBytes := by
    rw [wrap64_sub_wrap64, Int.add_sub_cancel, hw]
  unfold newCGoSlice at hr ⊢
  dsimp only at hr ⊢
  split_ifs at hr ⊢ <;> simp_all

theorem newCGoSlice_made {n k : Nat} {force malloc : Bool} {h' : Offheap}
    (hr : h.newCGoSlice n force malloc = (some k, h')) :
    k = h.slices.length ∧
      h' = { h with
        allocOffheapBytes := wrap64 (h.allocOffheapBytes + n)
        slices := h.slices ++ [.cgo ⟨some h.slices.length, n, true⟩] } := by
  unfold newCGoSlice at hr
  dsimp only at hr
  split_ifs at hr
  · cases hr
  · cases hr
  · cases hr; exact ⟨rfl, rfl⟩

theorem reclaim_live {k p n : Nat} {fin : Bool} (hs : h.slices[k]? = some (.cgo ⟨some p, n, fin⟩)) :
    h.reclaim k =
      { h with
        frees := h.frees ++ [p]
        allocOffheapBytes := wrap64 (h.allocOffheapBytes - n)
        slices := h.slices.set k (.cgo ⟨none, 0, false⟩) } := by
  simp [reclaim, hs]

/-- **Reclaim runs once**: a second reclaim of the same slice frees nothing
and subtracts nothing. -/
theorem reclaim_reclaim (k : Nat) : (h.reclaim k).reclaim k = h.reclaim k := by
  cases hs : h.slices[k]? with
  | none => simp [reclaim, hs]
  | some x =>
    rcases x with ⟨_ | p, n, fin⟩ | n
    · simp [reclaim, hs]
    · have hk := (List.getElem?_eq_some_iff.1 hs).1
      rw [reclaim_live hs]; simp [reclaim, hk]
    · simp [reclaim, hs]

theorem finalize_eq (k : Nat) : h.finalize k = h ∨ h.finalize k = h.reclaim k := by
  unfold finalize
  split
  · split <;> simp
  · exact .inl rfl

end

/-! ### The invariant -/

/-- What holds between calls: the counter is the `int64` of the live bytes;
a `cgoSlice` is live on its own block with its finalizer set, or was
reclaimed, with no buffer and no finalizer, and its block freed; a freed
block is a reclaimed slice's, freed once. -/
structure Inv (h : Offheap) : Prop where
  counter : h.allocOffheapBytes = wrap64 (liveBytes h.slices)
  cgo : ∀ {k : Nat} {s : CGoSlice}, h.slices[k]? = some (.cgo s) →
    (s.ptr = some k ∧ s.finalizer = true ∧ k ∉ h.frees) ∨
      (s.ptr = none ∧ s.buf = 0 ∧ s.finalizer = false ∧ k ∈ h.frees)
  freed : ∀ p ∈ h.frees, ∃ s, h.slices[p]? = some (.cgo s) ∧ s.ptr = none
  nodup : h.frees.Nodup

theorem inv_init : init.Inv :=
  ⟨rfl, fun h => by simp [init] at h, nofun, List.nodup_nil⟩

section
variable {h : Offheap}

theorem Inv.wrap (hi : h.Inv) : wrap64 h.allocOffheapBytes = h.allocOffheapBytes := by
  rw [hi.counter, wrap64_wrap64]

/-- Appending a slice that holds `d` bytes off the heap, not on a freed
block, with the counter moved by `d`. -/
theorem Inv.append {x : Slice} {a : Int} (hi : h.Inv)
    (hx : ∀ s, x = .cgo s → s.ptr = some h.slices.length ∧ s.finalizer = true)
    (hc : wrap64 (h.allocOffheapBytes + x.offheap) = a) :
    Inv { h with allocOffheapBytes := a, slices := h.slices ++ [x] } where
  counter := by
    rw [← hc, hi.counter, wrap64_add_wrap64]; simp [liveBytes]
  cgo {k s} hs := by
    rcases lt_or_ge k h.slices.length with hk | hk
    · rw [List.getElem?_append_left hk] at hs; exact hi.cgo hs
    · rw [List.getElem?_append_right hk] at hs
      have hk' : k = h.slices.length := by
        by_contra hne
        rw [List.getElem?_eq_none (by simp; omega)] at hs; cases hs
      subst hk'
      simp at hs
      obtain ⟨hp, hf⟩ := hx s hs
      refine .inl ⟨hp, hf, fun hm => ?_⟩
      obtain ⟨s', hs', _⟩ := hi.freed _ hm
      simp at hs'
  freed p hp := by
    obtain ⟨s, hs, hn⟩ := hi.freed p hp
    exact ⟨s, List.getElem?_append_left (List.getElem?_eq_some_iff.1 hs).1 ▸ hs, hn⟩
  nodup := hi.nodup

theorem Inv.newCGoSlice {n : Nat} {force malloc : Bool} (hi : h.Inv) :
    (h.newCGoSlice n force malloc).2.Inv := by
  cases hr : h.newCGoSlice n force malloc with
  | mk k h' =>
    cases k with
    | none =>
      have := newCGoSlice_refused hi.wrap (by rw [hr])
      rw [hr] at this; exact this ▸ hi
    | some k =>
      obtain ⟨-, rfl⟩ := newCGoSlice_made hr
      exact hi.append (by simp) (by simp [Slice.offheap])

theorem Inv.newGoSlice {n : Int} (hi : h.Inv) : (h.newGoSlice n).2.Inv := by
  exact hi.append (x := .go n) (a := h.allocOffheapBytes) nofun (by simp [Slice.offheap, hi.wrap])

theorem Inv.makeSlice {n : Int} {malloc : Bool} (hi : h.Inv) : (h.makeSlice n malloc).2.Inv := by
  unfold Offheap.makeSlice
  split_ifs
  · have hc := @Inv.newCGoSlice h n.toNat false malloc hi
    split
    · next heq => rw [heq] at hc; exact hc
    · next heq => rw [heq] at hc; exact hc.newGoSlice
  · exact hi.newGoSlice

/-- The first reclaim of a live slice: its block joins the freed ones and
its bytes leave the counter. -/
theorem Inv.reclaim_live {k n : Nat} {fin : Bool} (hi : h.Inv)
    (hs : h.slices[k]? = some (.cgo ⟨some k, n, fin⟩)) :
    Inv { h with
      frees := h.frees ++ [k]
      allocOffheapBytes := wrap64 (h.allocOffheapBytes - n)
      slices := h.slices.set k (.cgo ⟨none, 0, false⟩) } := by
  have hnot : k ∉ h.frees := ((hi.cgo hs).resolve_right (by simp)).2.2
  have hk : k < h.slices.length := (List.getElem?_eq_some_iff.1 hs).1
  have hsum := liveBytes_set (.cgo ⟨none, 0, false⟩) hs
  simp only [Slice.offheap, Nat.add_zero] at hsum
  refine ⟨?_, fun {j s} hj => ?_, fun q hq => ?_, ?_⟩
  · rw [hi.counter, wrap64_sub_wrap64, ← hsum]; push_cast; rw [Int.add_sub_cancel]
  · simp only [List.getElem?_set, hk, if_true] at hj
    split_ifs at hj with hkj
    · subst hkj; cases hj; simp
    · rcases hi.cgo hj with h1 | h1
      · exact .inl ⟨h1.1, h1.2.1, by simp [h1.2.2, Ne.symm hkj]⟩
      · exact .inr ⟨h1.1, h1.2.1, h1.2.2.1, by simp [h1.2.2.2]⟩
  · rcases List.mem_append.1 hq with hq | hq
    · obtain ⟨s, hs', hn⟩ := hi.freed q hq
      have hqk : k ≠ q := by rintro rfl; exact hnot hq
      exact ⟨s, by simp only [List.getElem?_set, hk, if_true, if_neg hqk, hs'], hn⟩
    · simp at hq; subst hq; exact ⟨⟨none, 0, false⟩, by simp [hk], rfl⟩
  · exact List.nodup_append.2 ⟨hi.nodup, List.nodup_singleton _, by simpa using hnot⟩

theorem Inv.reclaim {k : Nat} (hi : h.Inv) : (h.reclaim k).Inv := by
  unfold Offheap.reclaim
  split
  · next p n fin hs =>
    obtain rfl : k = p := by simpa using ((hi.cgo hs).resolve_right (by simp)).1.symm
    exact hi.reclaim_live hs
  · exact hi

theorem Inv.finalize {k : Nat} (hi : h.Inv) : (h.finalize k).Inv :=
  (finalize_eq k).elim (· ▸ hi) (· ▸ hi.reclaim)

theorem Inv.step {op : Op} {h' : Offheap} (hi : h.Inv) (hs : h.step op = .ok h') : h'.Inv := by
  cases op with
  | makeSlice n malloc => cases hs; exact hi.makeSlice
  | makeOffheapSlice n malloc =>
    simp only [Offheap.step, Offheap.makeOffheapSlice] at hs
    split_ifs at hs
    · cases hs; exact hi.newCGoSlice
    · cases hs
  | freeSlice k => cases hs; exact hi.reclaim
  | finalize k => cases hs; exact hi.finalize
  | setMaxOffheapBytes n => cases hs; exact ⟨hi.counter, hi.cgo, hi.freed, hi.nodup⟩

/-- **Every run keeps the invariant.** -/
theorem run_inv {ops : List Op} {h' : Offheap} (hi : h.Inv) (hr : h.run ops = .ok h') : h'.Inv := by
  induction ops generalizing h with
  | nil => cases hr; exact hi
  | cons op ops ih =>
    unfold Offheap.run at hr
    split at hr
    · exact ih (hi.step (by assumption)) hr
    · cases hr

end

end Offheap

/-- **Off-heap accounting**, over every sequence of calls from the start:
the counter is the `int64` of the bytes the live `cgoSlice`s hold, and is
that sum while it is below `2^63`; an allocation that is refused, for the
cap or for a nil `cgo_malloc`, changes nothing; no block is freed twice;
and a reclaim of a live slice frees its own block and subtracts its size,
while a second reclaim of it does nothing. -/
theorem offheap_accounting (ops : List Offheap.Op) {h : Offheap}
    (hrun : Offheap.init.run ops = .ok h) :
    h.allocOffheapBytes = wrap64 (liveBytes h.slices) ∧
    (liveBytes h.slices < 2 ^ 63 → h.allocOffheapBytes = liveBytes h.slices) ∧
    (∀ n force malloc, (h.newCGoSlice n force malloc).1 = none →
      (h.newCGoSlice n force malloc).2 = h) ∧
    h.frees.Nodup ∧
    ∀ k, (h.reclaim k).reclaim k = h.reclaim k ∧
      ∀ p n fin, h.slices[k]? = some (.cgo ⟨some p, n, fin⟩) →
        p = k ∧ k ∉ h.frees ∧ (h.reclaim k).frees = h.frees ++ [k] ∧
        (h.reclaim k).allocOffheapBytes = wrap64 (h.allocOffheapBytes - n) ∧
        liveBytes (h.reclaim k).slices + n = liveBytes h.slices := by
  have hi := Offheap.run_inv Offheap.inv_init hrun
  refine ⟨hi.counter, fun hlt => ?_, fun _ _ _ => Offheap.newCGoSlice_refused hi.wrap, hi.nodup,
    fun k => ⟨Offheap.reclaim_reclaim k, fun p n fin hs => ?_⟩⟩
  · rw [hi.counter, wrap64_of_lt (by omega) (by exact_mod_cast hlt)]
  · obtain ⟨hp, -, hnot⟩ := (hi.cgo hs).resolve_right (by simp)
    obtain rfl : p = k := by simpa using hp
    have hsum := liveBytes_set (.cgo ⟨none, 0, false⟩) hs
    simp only [Slice.offheap, Nat.add_zero] at hsum
    simp [Offheap.reclaim_live hs, hnot, hsum]

/-- A cap, a slice under it, one over it (made on the Go heap instead), a
forced one refused by `cgo_malloc`, a forced one over the cap, and the first
slice freed, finalized and freed again. -/
def offheapTrace : List Offheap.Op :=
  [.setMaxOffheapBytes 65536, .makeSlice 20000 true, .makeSlice 50000 true,
    .makeOffheapSlice 100 false, .makeOffheapSlice 30000 true, .freeSlice 0, .finalize 0, .freeSlice 0]

/-- The slices and counters after it. -/
def afterTrace : Offheap :=
  match Offheap.init.run offheapTrace with
  | .ok h => h
  | .error _ => Offheap.init

theorem offheap_accounting_trace :
    afterTrace.allocOffheapBytes = wrap64 (liveBytes afterTrace.slices) ∧
    (liveBytes afterTrace.slices < 2 ^ 63 →
      afterTrace.allocOffheapBytes = liveBytes afterTrace.slices) ∧
    (∀ n force malloc, (afterTrace.newCGoSlice n force malloc).1 = none →
      (afterTrace.newCGoSlice n force malloc).2 = afterTrace) ∧
    afterTrace.frees.Nodup ∧
    ∀ k, (afterTrace.reclaim k).reclaim k = afterTrace.reclaim k ∧
      ∀ p n fin, afterTrace.slices[k]? = some (.cgo ⟨some p, n, fin⟩) →
        p = k ∧ k ∉ afterTrace.frees ∧ (afterTrace.reclaim k).frees = afterTrace.frees ++ [k] ∧
        (afterTrace.reclaim k).allocOffheapBytes = wrap64 (afterTrace.allocOffheapBytes - n) ∧
        liveBytes (afterTrace.reclaim k).slices + n = liveBytes afterTrace.slices :=
  offheap_accounting offheapTrace rfl

example : afterTrace.allocOffheapBytes = 30000 ∧ afterTrace.frees = [0] := by decide

end Unsafe2
end Codis
