/-
# `Btoi64` is `strconv.ParseInt`

`Btoi64`'s fast path takes a string of one to nine bytes: an optional sign,
then digits accumulated in an `int64`, all the way to the end. Anything else
goes to `strconv.ParseInt(string(b), 10, 64)`. The fast path never decides
differently from `ParseInt`: where it returns a value, `ParseInt` returns the
same value (`btoi64Fast_eq_parseInt`), so `Btoi64` is `ParseInt` on every
byte string (`btoi64_eq_parseInt`). A lone sign never reaches the fast path's
return, since the fast path asks for at least one byte after the sign.

Nine digits stay below `10^9`, far inside `int64`. The fast path's
accumulator only grows, so its final value bounds every intermediate one.

Key theorems: `digitLoop_parseUintLoop`, `btoi64Fast_eq_parseInt`,
`btoi64_agrees`.
-/
import Codis.Redis.Resp
import Mathlib.Tactic.Ring

namespace Codis
namespace Redis

theorem digit_lt_ten {c : UInt8} (hc : isDigit c = true) : (c - 48).toNat < 10 ∧
    (c - 48).toNat = c.toNat - 48 := by
  simp only [isDigit, Bool.and_eq_true, decide_eq_true_eq] at hc
  have h48 : 48 ≤ c.toNat := BitVec.le_def.1 (UInt8.le_def.1 hc.1)
  have h57 : c.toNat ≤ 57 := BitVec.le_def.1 (UInt8.le_def.1 hc.2)
  have hsub : (c - 48).toNat = c.toNat - 48 := UInt8.toNat_sub_of_le _ _ hc.1
  exact ⟨by omega, hsub⟩

/-- On a digit string whose value stays below `2^64`, `ParseUint`'s loop and
the fast path's loop compute the same number, and the fast path reads to the
end. -/
theorem digitLoop_parseUintLoop : ∀ (l : List UInt8) (acc : Nat), (∀ c ∈ l, isDigit c = true) →
    (acc + 1) * 10 ^ l.length ≤ 2 ^ 64 →
    ∃ v : Nat, parseUintLoop l acc = .ok v ∧ digitLoop l acc = ((v : Int), []) ∧
      v < (acc + 1) * 10 ^ l.length
  | [], acc, _, _ => ⟨acc, rfl, rfl, by simp⟩
  | c :: cs, acc, hd, hb => by
    have hc := hd c (List.mem_cons_self c cs)
    have hlt := (digit_lt_ten hc).1
    have hpow : 1 ≤ 10 ^ cs.length := Nat.one_le_pow _ _ (by norm_num)
    have hstep : (acc * 10 + (c - 48).toNat + 1) * 10 ^ cs.length ≤
        (acc + 1) * 10 ^ (c :: cs).length := by
      calc (acc * 10 + (c - 48).toNat + 1) * 10 ^ cs.length
          ≤ (acc + 1) * 10 * 10 ^ cs.length := Nat.mul_le_mul_right _ (by omega)
        _ = (acc + 1) * 10 ^ (c :: cs).length := by simp [pow_succ]; ring
    obtain ⟨v, hp, hdl, hv⟩ := digitLoop_parseUintLoop cs (acc * 10 + (c - 48).toNat)
      (fun c' h => hd c' (List.mem_cons_of_mem c h)) (hstep.trans hb)
    have hno : ¬ 2 ^ 64 ≤ acc * 10 + (c - 48).toNat := by
      have := Nat.le_mul_of_pos_right (acc * 10 + (c - 48).toNat + 1) hpow; omega
    refine ⟨v, by simp only [parseUintLoop, hc, ↓reduceIte, if_neg hno, hp], ?_,
      hv.trans_le hstep⟩
    simp only [digitLoop, hc, ↓reduceIte]
    rw [show ((c - 48).toNat : Int) + (acc : Int) * 10 = ((acc * 10 + (c - 48).toNat : Nat) : Int)
      by push_cast; ring, hdl]

/-- The fast path's loop reaches the end only over digits. -/
theorem digits_of_digitLoop : ∀ {l : List UInt8} {acc n : Int}, digitLoop l acc = (n, []) →
    ∀ c ∈ l, isDigit c = true
  | [], _, _, _ => nofun
  | c :: cs, acc, n, h => by
    by_cases hc : isDigit c = true
    · simp only [digitLoop, hc, ↓reduceIte] at h
      simp only [List.mem_cons, forall_eq_or_imp]
      exact ⟨hc, digits_of_digitLoop h⟩
    · simp [digitLoop, hc] at h

/-- **The fast path returns what `ParseInt` returns**, and its value has
at most nine digits. -/
theorem btoi64Fast_eq_parseInt {b : List UInt8} {n : Int} (h : btoi64Fast b = some n) :
    parseInt b = .ok n ∧ n.natAbs < 10 ^ 9 := by
  cases b with
  | nil => simp [btoi64Fast] at h
  | cons c cs =>
    simp only [btoi64Fast, List.headD_cons, List.tail_cons, List.length_cons] at h
    -- the digits after the sign, as both functions take them
    generalize hr : (if c = 45 ∨ c = 43 then cs else c :: cs) = rest at h
    have hdigits : (if c = 43 ∨ c = 45 then cs else c :: cs) = rest := by
      rw [← hr]; simp only [or_comm]
    have hrl : rest.length ≤ cs.length + 1 := by rw [← hr]; split <;> simp
    split at h
    · rename_i hlen
      split at h
      · rename_i hrest
        split at h
        · rename_i hend
          have hb9 : (0 + 1) * 10 ^ rest.length ≤ 10 ^ 9 :=
            by simpa using Nat.pow_le_pow_right (by norm_num) (by omega : rest.length ≤ 9)
          obtain ⟨v, hp, hdl, hv⟩ := digitLoop_parseUintLoop rest 0
            (@digits_of_digitLoop rest 0 (digitLoop rest 0).1 (by rw [← hend]))
            (hb9.trans (by decide))
          have hv9 : v < 10 ^ 9 := hv.trans_le hb9
          have hdl' : digitLoop rest 0 = ((v : Int), []) := by simpa using hdl
          simp only [hdl', Option.some.injEq] at h
          obtain ⟨d, ds, rfl⟩ := List.exists_cons_of_ne_nil (List.ne_nil_of_length_pos
            (Nat.pos_of_ne_zero hrest))
          refine ⟨?_, ?_⟩
          · simp only [parseInt, hdigits, hp]
            rw [if_neg (fun hh => absurd hh.2 (by omega)), if_neg (fun hh => absurd hh.2 (by omega)), h]
          · rw [← h]; split <;> simp <;> omega
        · cases h
      · cases h
    · cases h

/-- `Btoi64` is `ParseInt` on every byte string. -/
theorem btoi64_eq_parseInt (b : List UInt8) : btoi64 b = parseInt b := by
  unfold btoi64
  split
  · exact ((btoi64Fast_eq_parseInt ‹_›).1).symm
  · rfl

/-- `ParseUint`'s loop accepts only digits. -/
theorem digits_of_parseUintLoop : ∀ {l : List UInt8} {acc v : Nat}, parseUintLoop l acc = .ok v →
    ∀ c ∈ l, isDigit c = true
  | [], _, _, _ => nofun
  | c :: cs, acc, v, h => by
    unfold parseUintLoop at h
    split at h
    · split at h
      · cases h
      · simp only [List.mem_cons, forall_eq_or_imp]
        exact ⟨‹_›, digits_of_parseUintLoop h⟩
    · cases h

/-- A number `Btoi64` accepts is a sign and digits, so it has no LF. -/
theorem lf_not_mem_of_btoi64 {s : List UInt8} {n : Int} (h : btoi64 s = .ok n) : (10 : UInt8) ∉ s := by
  rw [btoi64_eq_parseInt] at h
  cases s with
  | nil => cases h
  | cons c cs =>
    have hd : ∀ x ∈ (if c = 43 ∨ c = 45 then cs else c :: cs), isDigit x = true := by
      simp only [parseInt] at h
      split at h
      · cases h
      · split at h
        · cases h
        · rename_i hun
          exact digits_of_parseUintLoop hun
    intro hm
    split at hd
    · rename_i hc
      rcases List.mem_cons.1 hm with rfl | hm
      · rcases hc with hc | hc <;> cases hc
      · exact absurd (hd 10 hm) (by decide)
    · exact absurd (hd 10 hm) (by decide)

/-- **`Btoi64` agrees with `strconv.ParseInt(string(b), 10, 64)`** on every
byte string: the same value, and the same error exactly when `ParseInt` fails. Its
fast path runs only on strings of one to nine bytes, returns `ParseInt`'s
value there, which has at most nine digits and so fits an `int64`, and
never accepts a string `ParseInt` rejects. -/
theorem btoi64_agrees (b : List UInt8) :
    btoi64 b = parseInt b ∧
      ∀ n, btoi64Fast b = some n →
        0 < b.length ∧ b.length < 10 ∧ parseInt b = .ok n ∧ n.natAbs < 10 ^ 9 := by
  refine ⟨btoi64_eq_parseInt b, fun n hn => ?_⟩
  have hlen : b.length ≠ 0 ∧ b.length < 10 := by
    unfold btoi64Fast at hn
    split at hn
    · assumption
    · cases hn
  exact ⟨Nat.pos_of_ne_zero hlen.1, hlen.2, btoi64Fast_eq_parseInt hn⟩

/-- A lone sign is not a number, on either path. -/
example : btoi64 [45] = .error .invalidNumber ∧ btoi64 [43] = .error .invalidNumber := ⟨rfl, rfl⟩

end Redis
end Codis
