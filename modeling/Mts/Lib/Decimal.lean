import Mts.Lib.Bytes

/-! Decimal numbers as Go prints and parses them: `fmt.Sprint` and `strconv.ParseInt` with base 10. -/

namespace Mts.Lib
open List

variable {n fuel : Nat} {acc : Bytes}

def decimalLoop : Nat → Nat → Bytes → Bytes
  | 0, _, acc => acc
  | fuel + 1, n, acc =>
    let acc := UInt8.ofNat (48 + n % 10) :: acc
    if n < 10 then acc else decimalLoop fuel (n / 10) acc

/-- The digits of a number below `10^20`. -/
def decimal (n : Nat) : Bytes := decimalLoop 20 n []

def sprintInt (x : Int64) : Bytes :=
  if x.toInt < 0 then 45 :: decimal x.toInt.natAbs else decimal x.toInt.natAbs

def digitStep (v : Nat) (b : UInt8) : Option Nat :=
  if 48 ≤ b.toNat ∧ b.toNat ≤ 57 then some (10 * v + (b.toNat - 48)) else none

/-- `strconv.ParseUint`, without its limit. -/
def parseDigits (s : Bytes) : Option Nat := if s.isEmpty then none else s.foldlM digitStep 0

/-- Numbers out of range are errors. -/
def parseInt (s : Bytes) : Option Int64 :=
  match s with
  | 43 :: rest => (parseDigits rest).bind fun n => if n < 2 ^ 63 then some (Int64.ofNat n) else none
  | 45 :: rest => (parseDigits rest).bind fun n => if n ≤ 2 ^ 63 then some (Int64.ofInt (-n)) else none
  | rest => (parseDigits rest).bind fun n => if n < 2 ^ 63 then some (Int64.ofNat n) else none

theorem toNat_digit (n : Nat) : (UInt8.ofNat (48 + n % 10)).toNat = 48 + n % 10 := toNat_ofNat_of_lt (by omega)

theorem mem_decimalLoop (hacc : ∀ b ∈ acc, 48 ≤ b.toNat ∧ b.toNat ≤ 57) :
    ∀ b ∈ decimalLoop fuel n acc, 48 ≤ b.toNat ∧ b.toNat ≤ 57 := by
  induction fuel generalizing n acc with
  | zero => exact hacc
  | succ fuel ih =>
    have hcons : ∀ b ∈ UInt8.ofNat (48 + n % 10) :: acc, 48 ≤ b.toNat ∧ b.toNat ≤ 57 := by
      refine forall_mem_cons.mpr ⟨?_, hacc⟩
      rw [toNat_digit]
      omega
    rw [decimalLoop]
    split
    · exact hcons
    · exact ih hcons

theorem decimalLoop_ne_nil (h : acc ≠ []) : decimalLoop fuel n acc ≠ [] := by
  induction fuel generalizing n acc with
  | zero => exact h
  | succ fuel ih =>
    rw [decimalLoop]
    split
    · simp
    · exact ih (by simp)

theorem foldlM_decimalLoop (h : n < 10 ^ fuel) (acc : Bytes) :
    (decimalLoop fuel n acc).foldlM digitStep 0 = acc.foldlM digitStep n := by
  induction fuel generalizing n acc with
  | zero =>
    obtain rfl : n = 0 := by simpa using h
    rfl
  | succ fuel ih =>
    have hstep : ∀ v, digitStep v (UInt8.ofNat (48 + n % 10)) = some (10 * v + n % 10) := by
      intro v
      rw [digitStep, toNat_digit, if_pos (by omega), Nat.add_sub_cancel_left]
    rw [decimalLoop]
    split
    · next hlt =>
      rw [foldlM_cons, hstep, Nat.mod_eq_of_lt hlt]
      simp
    · have hdiv : n / 10 < 10 ^ fuel := Nat.div_lt_of_lt_mul (by rw [Nat.pow_succ] at h; omega)
      rw [ih hdiv, foldlM_cons, hstep, Nat.div_add_mod]
      rfl

theorem parseDigits_decimal (h : n < 10 ^ 20) : parseDigits (decimal n) = some n := by
  have hne : decimal n ≠ [] := by
    rw [decimal, decimalLoop]
    split
    · simp
    · exact decimalLoop_ne_nil (by simp)
  rw [parseDigits, if_neg (by simpa using hne), decimal, foldlM_decimalLoop h]
  rfl

theorem mem_decimal : ∀ b ∈ decimal n, 48 ≤ b.toNat ∧ b.toNat ≤ 57 := mem_decimalLoop fun _ hb => absurd hb not_mem_nil

theorem natAbs_lt (x : Int64) : x.toInt.natAbs ≤ 2 ^ 63 := by
  have hlo := x.le_toInt
  have hhi := x.toInt_lt
  omega

theorem parseInt_sprintInt (x : Int64) : parseInt (sprintInt x) = some x := by
  have habs := natAbs_lt x
  have hdigits := parseDigits_decimal (n := x.toInt.natAbs) (by omega)
  rw [sprintInt]
  split
  · next hneg =>
    have hvalue : -(x.toInt.natAbs : Int) = x.toInt := by omega
    rw [parseInt, hdigits, Option.bind_some, if_pos habs, hvalue, Int64.ofInt_toInt]
  · next hnonneg =>
    have hlt : x.toInt.natAbs < 2 ^ 63 := by
      have := x.toInt_lt
      omega
    have hvalue : Int64.ofNat x.toInt.natAbs = x := by
      rw [← Int64.ofInt_eq_ofNat]
      have : (x.toInt.natAbs : Int) = x.toInt := by omega
      rw [this, Int64.ofInt_toInt]
    cases hd : decimal x.toInt.natAbs with
    | nil => rw [hd] at hdigits; cases hdigits
    | cons b bs =>
      have hb := mem_decimal b (hd ▸ mem_cons_self)
      have hplus : b ≠ 43 := by rintro rfl; exact absurd hb (by decide)
      have hminus : b ≠ 45 := by rintro rfl; exact absurd hb (by decide)
      rw [hd] at hdigits
      rw [parseInt.eq_3 _ (fun rest h => hplus (List.cons.inj h).1) fun rest h => hminus (List.cons.inj h).1]
      rw [hdigits, Option.bind_some, if_pos hlt, hvalue]

theorem sprintInt_inj (h : sprintInt x = sprintInt y) : x = y := by
  have := congrArg parseInt h
  rw [parseInt_sprintInt, parseInt_sprintInt] at this
  exact Option.some.inj this

theorem mem_sprintInt (h : b ∈ sprintInt x) : b.toNat = 45 ∨ 48 ≤ b.toNat ∧ b.toNat ≤ 57 := by
  rw [sprintInt] at h
  split at h
  · rcases mem_cons.mp h with rfl | h
    · exact .inl rfl
    · exact .inr (mem_decimal b h)
  · exact .inr (mem_decimal b h)

end Mts.Lib
