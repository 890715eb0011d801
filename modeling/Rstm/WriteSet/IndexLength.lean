import Rstm.WriteSet.Basic
import Mathlib.Tactic.IntervalCases

/- The length of the write-set index (`WriteSet::doubleIndexLength` and the
   constructor's sizing loop).

   `ilength = 1 << (32 - shift)` is computed in 32-bit `int` and widened to
   `size_t`. Up to `2^30` that is the power of two the code means, and each
   doubling doubles it (`doubleIndexLength_doubles`); the constructor then
   sizes the index to the least power of two at or above three slots per
   entry of capacity (`sizeIndex_new`). The next doubling, to `1 << 31`, is
   `INT_MIN` and widens to `2^64 - 2^31` (`indexLength_one`), so a capacity
   with `3c` above `2^30` gets that length instead of `2^31`
   (`writeSet_new_overflow`). -/
namespace Rstm

theorem indexLength_eq {s : Nat} (h2 : 2 ≤ s) (h32 : s ≤ 32) : indexLength s = 2 ^ (32 - s) := by
  interval_cases s <;> rfl

theorem indexLength_one : indexLength 1 = 2 ^ 64 - 2 ^ 31 := rfl

/-- Below the sign bit, a doubling that passes its assertion doubles the index. -/
theorem doubleIndexLength_doubles {s : Nat} (h3 : 3 ≤ s) (h32 : s ≤ 32) :
    doubleIndexLength s = .ok (s - 1, 2 * 2 ^ (32 - s)) := by
  obtain ⟨t, rfl⟩ : ∃ t, s = t + 2 := ⟨s - 2, by omega⟩
  rw [doubleIndexLength, indexLength_eq (by omega) (by omega),
    show 32 - (t + 1) = 32 - (t + 2) + 1 by omega, Nat.pow_succ, Nat.mul_comm]
  rfl

/-- From any power of two below twice the target, the sizing loop stops at the least
    power of two at or above it, as long as that is at most `2^30`. -/
theorem sizeIndex_pow {target : Nat} (ht : target ≤ 2 ^ 30) :
    ∀ s, 2 ≤ s → s ≤ 32 → 2 ^ (32 - s) < 2 * target →
      ∃ s', sizeIndex target s (2 ^ (32 - s)) = .ok (s', 2 ^ (32 - s')) ∧
        target ≤ 2 ^ (32 - s') ∧ 2 ^ (32 - s') < 2 * target
  | 0, h2, _, _ | 1, h2, _, _ => absurd h2 (by decide)
  | s + 2, _, h32, hlt => by
    rw [sizeIndex]
    by_cases hs : 2 ^ (32 - (s + 2)) < target
    · have h3 : 2 ≤ s + 1 := by
        by_contra hs2
        have : 2 ^ 30 ≤ 2 ^ (32 - (s + 2)) := Nat.pow_le_pow_right (by decide) (by omega)
        omega
      have hd : 2 ^ (32 - (s + 1)) = 2 * 2 ^ (32 - (s + 2)) := by
        rw [show 32 - (s + 1) = 32 - (s + 2) + 1 by omega, Nat.pow_succ, Nat.mul_comm]
      rw [if_pos hs, indexLength_eq h3 (by omega)]
      exact sizeIndex_pow ht (s + 1) h3 (by omega) (by omega)
    · exact ⟨s + 2, by rw [if_neg hs], by omega, hlt⟩

/-- For every capacity `c ≥ 1` with `3c ≤ 2^30`, the constructor sizes the index to
    `2^(32 - shift)`, the least power of two at or above `3c`. -/
theorem sizeIndex_new {c : Nat} (h1 : 1 ≤ c) (h30 : 3 * c ≤ 2 ^ 30) :
    ∃ s, sizeIndex (3 * c) 32 0 = .ok (s, 2 ^ (32 - s)) ∧
      3 * c ≤ 2 ^ (32 - s) ∧ 2 ^ (32 - s) < 2 * (3 * c) := by
  rw [sizeIndex, if_pos (by omega)]
  exact sizeIndex_pow h30 31 (by decide) (by decide) (by norm_num; omega)

/-- The capacity `2^29` (so `3c ≤ 2^31`): the loop doubles up to `2^30`, and the next
    doubling leaves `shift = 1` with `ilength = 2^64 - 2^31`, not `2^31`. -/
theorem writeSet_new_overflow :
    (WriteSet.new (2 ^ 29)).map (fun ws => (ws.shift, ws.ilength)) = .ok (1, 2 ^ 64 - 2 ^ 31) := by
  rfl

end Rstm
