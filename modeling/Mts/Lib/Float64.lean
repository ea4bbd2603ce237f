import Mathlib

/-! `float64` values as bit patterns: the IEEE 754 comparisons and the conversions from and to `int64`. -/

namespace Mts.Lib.Float64

def magnitude (bits : UInt64) : Nat := bits.toNat % 2 ^ 63

def isNaN (bits : UInt64) : Bool := 2047 * 2 ^ 52 < magnitude bits

/-- Apart from NaN, bit patterns compare as signed magnitudes; both zeros have rank 0. -/
def rank (bits : UInt64) : Int :=
  if bits.toNat < 2 ^ 63 then magnitude bits else -(magnitude bits : Int)

def lt (a b : UInt64) : Bool := !isNaN a && !isNaN b && decide (rank a < rank b)

def le (a b : UInt64) : Bool := !isNaN a && !isNaN b && decide (rank a ≤ rank b)

def eq (a b : UInt64) : Bool := !isNaN a && !isNaN b && decide (rank a = rank b)

/-- The nearest `float64`, ties to an even mantissa. A mantissa rounded up to `2 ^ 53` carries into the
exponent. -/
def ofInt64 (x : Int64) : UInt64 :=
  let n := x.toInt.natAbs
  let e := Nat.log2 n
  let mantissa :=
    if e ≤ 52 then n * 2 ^ (52 - e)
    else
      let unit := 2 ^ (e - 52)
      let q := n / unit
      if unit < 2 * (n % unit) ∨ unit = 2 * (n % unit) ∧ q % 2 = 1 then q + 1 else q
  let bits := if n = 0 then 0 else (e + 1023) * 2 ^ 52 + (mantissa - 2 ^ 52)
  UInt64.ofNat (if x < 0 then 2 ^ 63 + bits else bits)

section Order

variable {n : Nat}

/-- The mantissa of `n` with its leading bit, `2 ^ 53` after a carry. -/
def mantissa (n : Nat) : Nat :=
  let e := Nat.log2 n
  if e ≤ 52 then n * 2 ^ (52 - e)
  else
    let unit := 2 ^ (e - 52)
    let q := n / unit
    if unit < 2 * (n % unit) ∨ unit = 2 * (n % unit) ∧ q % 2 = 1 then q + 1 else q

def natBits (n : Nat) : Nat := if n = 0 then 0 else (Nat.log2 n + 1023) * 2 ^ 52 + (mantissa n - 2 ^ 52)

theorem ofInt64_eq (x : Int64) :
    ofInt64 x = UInt64.ofNat (if x < 0 then 2 ^ 63 + natBits x.toInt.natAbs else natBits x.toInt.natAbs) := rfl

theorem mantissa_bounds (hn : n ≠ 0) : 2 ^ 52 ≤ mantissa n ∧ mantissa n ≤ 2 ^ 53 := by
  have hlow := Nat.log2_self_le hn
  have hhigh := Nat.lt_log2_self (n := n)
  unfold mantissa
  dsimp only
  split
  · next he =>
    have hsplit : (2 : Nat) ^ 52 = 2 ^ n.log2 * 2 ^ (52 - n.log2) := by
      rw [← Nat.pow_add]
      congr 1
      omega
    have hmul := Nat.mul_le_mul_right (2 ^ (52 - n.log2)) hlow
    have hmul' := Nat.mul_le_mul_right (2 ^ (52 - n.log2)) (Nat.le_of_lt hhigh)
    rw [Nat.pow_succ, Nat.mul_right_comm, ← hsplit] at hmul'
    omega
  · next he =>
    have hsplit : (2 : Nat) ^ n.log2 = 2 ^ 52 * 2 ^ (n.log2 - 52) := by
      rw [← Nat.pow_add]
      congr 1
      omega
    have hunit : 0 < 2 ^ (n.log2 - 52) := Nat.two_pow_pos _
    have hq : 2 ^ 52 ≤ n / 2 ^ (n.log2 - 52) := by
      rw [Nat.le_div_iff_mul_le hunit, ← hsplit]
      exact hlow
    have hq' : n / 2 ^ (n.log2 - 52) < 2 ^ 53 := by
      rw [Nat.div_lt_iff_lt_mul hunit, Nat.pow_succ, Nat.mul_right_comm, ← hsplit, ← Nat.pow_succ]
      exact hhigh
    split <;> omega

theorem mantissa_mono (hlog : n.log2 = m.log2) (hnm : n ≤ m) : mantissa n ≤ mantissa m := by
  unfold mantissa
  dsimp only
  rw [hlog]
  split
  · exact Nat.mul_le_mul_right _ hnm
  · generalize 2 ^ (m.log2 - 52) = unit
    have hdiv : n / unit ≤ m / unit := Nat.div_le_div_right hnm
    have hn := Nat.div_add_mod n unit
    have hm := Nat.div_add_mod m unit
    rcases Nat.lt_or_eq_of_le hdiv with hlt | heq
    · split <;> split <;> omega
    · rw [heq] at hn ⊢
      split <;> split <;> omega

theorem natBits_mono (hnm : n ≤ m) : natBits n ≤ natBits m := by
  unfold natBits
  by_cases hn : n = 0
  · rw [if_pos hn]
    exact Nat.zero_le _
  have hm : m ≠ 0 := by omega
  rw [if_neg hn, if_neg hm]
  have hlog : n.log2 ≤ m.log2 := by
    rw [Nat.log2_eq_log_two, Nat.log2_eq_log_two]
    exact Nat.log_mono_right hnm
  obtain ⟨hn1, hn2⟩ := mantissa_bounds hn
  rcases Nat.lt_or_eq_of_le hlog with hlt | heq
  · -- a carry reaches the next exponent at most
    have hexp := Nat.mul_le_mul_right (2 ^ 52) (show n.log2 + 1023 + 1 ≤ m.log2 + 1023 by omega)
    rw [Nat.add_mul _ 1, Nat.one_mul] at hexp
    calc (n.log2 + 1023) * 2 ^ 52 + (mantissa n - 2 ^ 52)
        ≤ (n.log2 + 1023) * 2 ^ 52 + 2 ^ 52 := Nat.add_le_add_left (by omega) _
      _ ≤ (m.log2 + 1023) * 2 ^ 52 := hexp
      _ ≤ (m.log2 + 1023) * 2 ^ 52 + (mantissa m - 2 ^ 52) := Nat.le_add_right ..
  · rw [heq]
    exact Nat.add_le_add_left (Nat.sub_le_sub_right (mantissa_mono heq hnm) _) _

theorem natBits_le (hn : n ≤ 2 ^ 63) : natBits n ≤ 1087 * 2 ^ 52 := by
  have := natBits_mono hn
  have hmax : natBits (2 ^ 63) ≤ 1087 * 2 ^ 52 := by decide
  omega

theorem natBits_natAbs_le (x : Int64) : natBits x.toInt.natAbs ≤ 1087 * 2 ^ 52 := by
  have hlow := x.le_toInt
  have hhigh := x.toInt_lt
  exact natBits_le (by omega)

theorem toNat_ofInt64 (x : Int64) :
    (ofInt64 x).toNat = if x < 0 then 2 ^ 63 + natBits x.toInt.natAbs else natBits x.toInt.natAbs := by
  have hle := natBits_natAbs_le x
  rw [ofInt64_eq, UInt64.toNat_ofNat', Nat.mod_eq_of_lt]
  split <;> omega

theorem magnitude_ofInt64 (x : Int64) : magnitude (ofInt64 x) = natBits x.toInt.natAbs := by
  have hle := natBits_natAbs_le x
  rw [magnitude, toNat_ofInt64]
  split <;> omega

theorem isNaN_ofInt64 (x : Int64) : isNaN (ofInt64 x) = false := by
  have hle := natBits_natAbs_le x
  rw [isNaN, magnitude_ofInt64, decide_eq_false_iff_not]
  omega

theorem rank_ofInt64 (x : Int64) :
    rank (ofInt64 x) = if x < 0 then -(natBits x.toInt.natAbs : Int) else natBits x.toInt.natAbs := by
  have hle := natBits_natAbs_le x
  rw [rank, magnitude_ofInt64, toNat_ofInt64]
  by_cases hx : x < 0
  · rw [if_pos hx, if_pos hx, if_neg (by omega)]
  · rw [if_neg hx, if_neg hx, if_pos (by omega)]

/-- The conversion keeps the order, and may make different values equal. -/
theorem rank_ofInt64_mono (hxy : x ≤ y) : rank (ofInt64 x) ≤ rank (ofInt64 y) := by
  rw [rank_ofInt64, rank_ofInt64]
  have hle := Int64.le_iff_toInt_le.mp hxy
  have hzero : (0 : Int64).toInt = 0 := rfl
  by_cases hx : x < 0
  · rw [if_pos hx]
    by_cases hy : y < 0
    · rw [if_pos hy]
      have hy' := Int64.lt_iff_toInt_lt.mp hy
      have := natBits_mono (show y.toInt.natAbs ≤ x.toInt.natAbs by omega)
      omega
    · rw [if_neg hy]
      omega
  · have hx' := Int64.le_iff_toInt_le.mp (Int64.not_lt.mp hx)
    have hy : ¬ y < 0 := Int64.not_lt.mpr (Int64.le_trans (Int64.not_lt.mp hx) hxy)
    rw [if_neg hx, if_neg hy]
    have := natBits_mono (show x.toInt.natAbs ≤ y.toInt.natAbs by omega)
    omega

theorem rank_ofInt64_pos (hx : 0 < x) : 0 < rank (ofInt64 x) := by
  have hx' : 0 < x.toInt := Int64.lt_iff_toInt_lt.mp hx
  rw [rank_ofInt64, if_neg (Int64.not_lt.mpr (Int64.le_of_lt hx)), natBits, if_neg (by omega)]
  omega

theorem lt_ofInt64 (x y : Int64) : lt (ofInt64 x) (ofInt64 y) = decide (rank (ofInt64 x) < rank (ofInt64 y)) := by
  rw [lt, isNaN_ofInt64, isNaN_ofInt64]
  rfl

theorem eq_ofInt64 (x y : Int64) : eq (ofInt64 x) (ofInt64 y) = decide (rank (ofInt64 x) = rank (ofInt64 y)) := by
  rw [eq, isNaN_ofInt64, isNaN_ofInt64]
  rfl

end Order

/-- Truncation towards zero; out of range and for NaN the result is the least `int64`, as on amd64. -/
def toInt64 (bits : UInt64) : Int64 :=
  let e := magnitude bits / 2 ^ 52
  let m := magnitude bits % 2 ^ 52 + 2 ^ 52
  if 1086 ≤ e then Int64.minValue
  else
    let n : Nat := if e < 1023 then 0 else if e ≤ 1075 then m / 2 ^ (1075 - e) else m * 2 ^ (e - 1075)
    Int64.ofInt (if bits.toNat < 2 ^ 63 then n else -(n : Int))

example : toInt64 (ofInt64 (-3)) = -3 := by decide
example : toInt64 (ofInt64 9007199254740993) = 9007199254740992 := by decide

end Mts.Lib.Float64
