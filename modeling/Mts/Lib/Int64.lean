import Mathlib

/-! `int64` arithmetic where it does not wrap around, and the rounding down to a multiple of an interval that is
written as a truncating division with a branch for negative numbers. -/

theorem LE.le.toInt_le {a b : Int64} (h : a ≤ b) : a.toInt ≤ b.toInt := Int64.le_iff_toInt_le.mp h

theorem LT.lt.toInt_lt {a b : Int64} (h : a < b) : a.toInt < b.toInt := Int64.lt_iff_toInt_lt.mp h

namespace Mts.Lib

theorem nodup_times {β : Type} {points : List (Int64 × β)} (h : points.Pairwise (·.1 < ·.1)) :
    (points.map Prod.fst).Nodup := by
  refine List.pairwise_map.mpr (h.imp fun {a b} hlt heq => ?_)
  exact Int64.lt_irrefl (heq ▸ hlt)

section
variable {a b d t : Int64}

theorem toInt_add_of_fits (hlow : -2 ^ 63 ≤ a.toInt + b.toInt) (hhigh : a.toInt + b.toInt < 2 ^ 63) :
    (a + b).toInt = a.toInt + b.toInt := by
  rw [Int64.toInt_add]
  exact Int.bmod_eq_of_le (by omega) (by omega)

theorem toInt_sub_of_fits (hlow : -2 ^ 63 ≤ a.toInt - b.toInt) (hhigh : a.toInt - b.toInt < 2 ^ 63) :
    (a - b).toInt = a.toInt - b.toInt := by
  rw [Int64.toInt_sub]
  exact Int.bmod_eq_of_le (by omega) (by omega)

theorem toInt_mul_of_fits (hlow : -2 ^ 63 ≤ a.toInt * b.toInt) (hhigh : a.toInt * b.toInt < 2 ^ 63) :
    (a * b).toInt = a.toInt * b.toInt := by
  rw [Int64.toInt_mul]
  exact Int.bmod_eq_of_le (by omega) (by omega)

theorem toInt_div_of_pos (hb : 0 < b.toInt) : (a / b).toInt = a.toInt.tdiv b.toInt := by
  have hlow := a.le_toInt
  have hhigh := a.toInt_lt
  have habs : (a.toInt.tdiv b.toInt).natAbs ≤ a.toInt.natAbs := by
    rw [Int.natAbs_tdiv]
    exact Nat.div_le_self _ _
  have hlt : a.toInt.tdiv b.toInt < 2 ^ 63 := by
    by_cases ha : 0 ≤ a.toInt
    · omega
    · have hnonneg : 0 ≤ (-a.toInt).tdiv b.toInt := Int.tdiv_nonneg (by omega) hb.le
      rw [Int.neg_tdiv] at hnonneg
      omega
  rw [Int64.toInt_div]
  exact Int.bmod_eq_of_le (by omega) (by omega)

theorem toInt_div_mul_of_nonneg (hd : 0 < d.toInt) (ht : 0 ≤ t.toInt) :
    (t / d * d).toInt = t.toInt / d.toInt * d.toInt := by
  have hquot : (t / d).toInt = t.toInt / d.toInt := by
    rw [toInt_div_of_pos hd, Int.tdiv_eq_ediv_of_nonneg ht]
  have hnonneg : 0 ≤ t.toInt / d.toInt * d.toInt := Int.mul_nonneg (Int.ediv_nonneg ht hd.le) hd.le
  have hle := Int.ediv_mul_le t.toInt (Int.ne_of_gt hd)
  have hhigh := t.toInt_lt
  rw [toInt_mul_of_fits (by rw [hquot]; omega) (by rw [hquot]; omega), hquot]

theorem toInt_floorDiv_of_neg (hd : 0 < d.toInt) (ht : t.toInt < 0) : ((t + 1) / d - 1).toInt = t.toInt / d.toInt := by
  have htlow := t.le_toInt
  have hone : (1 : Int64).toInt = 1 := rfl
  have hsucc : (t + 1).toInt = t.toInt + 1 := toInt_add_of_fits (by omega) (by omega)
  have hfloor : t.toInt / d.toInt = -((-t.toInt - 1) / d.toInt + 1) := Int.ediv_of_neg_of_pos ht hd
  have hquot : (t.toInt + 1).tdiv d.toInt = t.toInt / d.toInt + 1 := by
    rw [hfloor, show t.toInt + 1 = -(-t.toInt - 1) by omega, Int.neg_tdiv, Int.tdiv_eq_ediv_of_nonneg (by omega)]
    omega
  have hnonneg : 0 ≤ (-t.toInt - 1) / d.toInt := Int.ediv_nonneg (by omega) hd.le
  have hbound : (-t.toInt - 1) / d.toInt ≤ -t.toInt - 1 := Int.ediv_le_self _ (by omega)
  have hdiv : ((t + 1) / d).toInt = t.toInt / d.toInt + 1 := by rw [toInt_div_of_pos hd, hsucc, hquot]
  rw [toInt_sub_of_fits (by omega) (by omega), hdiv, hone]
  omega

theorem toInt_floor_of_neg (hd : 0 < d.toInt) (ht : t.toInt < 0) (hlow : -2 ^ 63 ≤ t.toInt / d.toInt * d.toInt) :
    (((t + 1) / d - 1) * d).toInt = t.toInt / d.toInt * d.toInt := by
  have hquot := toInt_floorDiv_of_neg hd ht
  have hle := Int.ediv_mul_le t.toInt (Int.ne_of_gt hd)
  rw [toInt_mul_of_fits (by rw [hquot]; omega) (by rw [hquot]; omega), hquot]

end
end Mts.Lib
