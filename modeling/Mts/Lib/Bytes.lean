import Mathlib

/-! The integer codecs of Go's `encoding/binary` over byte lists. A reader returns the value with the
bytes after it; each writer comes with the law that reading `write x ++ rest` gives `x` and `rest`. -/

namespace Mts.Lib
open List

variable {k : Nat}

abbrev Bytes := List UInt8

variable {bytes rest : Bytes}

abbrev Reader (α : Type) := Bytes → Option (α × Bytes)

def uvarintLoop : Nat → Nat → Bytes
  | 0, n => [UInt8.ofNat n]
  | fuel + 1, n =>
    if n < 128 then [UInt8.ofNat n] else UInt8.ofNat (n % 128 + 128) :: uvarintLoop fuel (n / 128)

/-- `binary.AppendUvarint`: at most nine continuation bytes. -/
def uvarint (n : UInt64) : Bytes := uvarintLoop 9 n.toNat

def readUvarintLoop : Nat → Reader Nat
  | _, [] => none
  | 0, _ :: _ => none
  | fuel + 1, b :: bs =>
    if b.toNat < 128 then
      -- the tenth byte holds one bit
      if fuel = 0 ∧ 1 < b.toNat then none else some (b.toNat, bs)
    else (readUvarintLoop fuel bs).map fun r => (b.toNat - 128 + 128 * r.1, r.2)

/-- `binary.Uvarint`, `none` where it reports a size `≤ 0`. -/
def readUvarint : Reader UInt64 := fun bs => (readUvarintLoop 10 bs).map fun r => (UInt64.ofNat r.1, r.2)

theorem toNat_ofNat_of_lt (h : n < 256) : (UInt8.ofNat n).toNat = n := by
  simpa using h

theorem readUvarintLoop_append (fuel n : Nat) (h : n < 2 ^ (7 * fuel + 1)) (rest : Bytes) :
    readUvarintLoop (fuel + 1) (uvarintLoop fuel n ++ rest) = some (n, rest) := by
  induction fuel generalizing n with
  | zero =>
    have hn : (UInt8.ofNat n).toNat = n := toNat_ofNat_of_lt (by omega)
    simp only [uvarintLoop, cons_append, nil_append, readUvarintLoop, hn]
    rw [if_pos (by omega), if_neg (by omega)]
  | succ fuel ih =>
    rw [uvarintLoop]
    split
    · next hlt =>
      have hn : (UInt8.ofNat n).toNat = n := toNat_ofNat_of_lt (by omega)
      simp only [cons_append, nil_append, readUvarintLoop, hn]
      rw [if_pos hlt, if_neg (by omega)]
    · next hge =>
      have hb : (UInt8.ofNat (n % 128 + 128)).toNat = n % 128 + 128 := toNat_ofNat_of_lt (by omega)
      have hdiv : n / 128 < 2 ^ (7 * fuel + 1) := by
        apply Nat.div_lt_of_lt_mul
        calc n < 2 ^ (7 * (fuel + 1) + 1) := h
          _ = 128 * 2 ^ (7 * fuel + 1) := by ring
      rw [cons_append, readUvarintLoop, hb, if_neg (by omega), ih _ hdiv]
      simp only [Option.map_some, Option.some.injEq, Prod.mk.injEq, and_true]
      omega

@[simp] theorem readUvarint_append (n : UInt64) (rest : Bytes) : readUvarint (uvarint n ++ rest) = some (n, rest) := by
  have h : n.toNat < 2 ^ (7 * 9 + 1) := n.toNat_lt
  rw [readUvarint, uvarint, readUvarintLoop_append 9 _ h]
  simp

theorem uvarintLoop_ne_nil (fuel n : Nat) : uvarintLoop fuel n ≠ [] := by
  cases fuel with
  | zero => simp [uvarintLoop]
  | succ fuel =>
    rw [uvarintLoop]
    split <;> simp

theorem uvarint_ne_nil (n : UInt64) : uvarint n ≠ [] := uvarintLoop_ne_nil 9 _

theorem length_uvarintLoop_le (fuel n : Nat) : (uvarintLoop fuel n).length ≤ fuel + 1 := by
  induction fuel generalizing n with
  | zero => simp [uvarintLoop]
  | succ fuel ih =>
    rw [uvarintLoop]
    split
    · simp
    · have := ih (n / 128)
      rw [length_cons]
      omega

theorem length_uvarint_le (n : UInt64) : (uvarint n).length ≤ 10 := length_uvarintLoop_le 9 _

theorem length_uvarintLoop_le_of_lt (fuel : Nat) (h : n < 2 ^ (7 * (k + 1))) :
    (uvarintLoop fuel n).length ≤ k + 1 := by
  induction fuel generalizing n k with
  | zero => simp [uvarintLoop]
  | succ fuel ih =>
    rw [uvarintLoop]
    split
    · simp
    · next hge =>
      cases k with
      | zero => omega
      | succ k =>
        have hdiv : n / 128 < 2 ^ (7 * (k + 1)) := by
          apply Nat.div_lt_of_lt_mul
          calc n < 2 ^ (7 * (k + 1 + 1)) := h
            _ = 128 * 2 ^ (7 * (k + 1)) := by ring
        have := ih hdiv
        simpa using this

theorem readUvarintLoop_lt (h : readUvarintLoop fuel bytes = some (v, rest)) :
    ∃ k, bytes.length = rest.length + (k + 1) ∧ v < 2 ^ (7 * (k + 1)) := by
  induction fuel generalizing v bytes with
  | zero => cases bytes <;> simp [readUvarintLoop] at h
  | succ fuel ih =>
    cases bytes with
    | nil => simp [readUvarintLoop] at h
    | cons b bytes =>
      rw [readUvarintLoop] at h
      split_ifs at h with hlast hover
      · cases h
        exact ⟨0, by simp, by simpa using hlast⟩
      · obtain ⟨⟨w, rest'⟩, hread, heq⟩ := Option.map_eq_some_iff.mp h
        cases heq
        obtain ⟨k, hlen, hlt⟩ := ih hread
        refine ⟨k + 1, by simp [hlen]; omega, ?_⟩
        have hb := b.toNat_lt
        calc b.toNat - 128 + 128 * w < 128 * 2 ^ (7 * (k + 1)) := by omega
          _ = 2 ^ (7 * (k + 1 + 1)) := by ring

theorem length_uvarint_le_of_read (h : readUvarint bytes = some (n, rest)) :
    rest.length + (uvarint n).length ≤ bytes.length := by
  obtain ⟨⟨v, rest'⟩, hread, heq⟩ := Option.map_eq_some_iff.mp h
  cases heq
  obtain ⟨k, hlen, hlt⟩ := readUvarintLoop_lt hread
  have hmod : (UInt64.ofNat v).toNat < 2 ^ (7 * (k + 1)) := by
    exact Nat.lt_of_le_of_lt (Nat.mod_le _ _) hlt
  have hle : (uvarint (UInt64.ofNat v)).length ≤ k + 1 := length_uvarintLoop_le_of_lt 9 hmod
  dsimp only
  omega

/-- Signed values are mapped to unsigned ones by zig-zag. -/
def zigZag (x : Int64) : UInt64 := UInt64.ofNat (if 0 ≤ x.toInt then 2 * x.toInt.toNat else 2 * (-x.toInt).toNat - 1)

def unzigZag (u : UInt64) : Int64 :=
  Int64.ofInt (if u.toNat % 2 = 0 then (u.toNat / 2 : Nat) else -(u.toNat / 2 : Nat) - 1)

theorem unzigZag_zigZag (x : Int64) : unzigZag (zigZag x) = x := by
  have hlo := x.le_toInt
  have hhi := x.toInt_lt
  have hnat : (zigZag x).toNat =
      if 0 ≤ x.toInt then 2 * x.toInt.toNat else 2 * (-x.toInt).toNat - 1 := by
    apply Nat.mod_eq_of_lt
    split <;> omega
  have hint : (if (zigZag x).toNat % 2 = 0 then (((zigZag x).toNat / 2 : Nat) : Int)
      else -(((zigZag x).toNat / 2 : Nat) : Int) - 1) = x.toInt := by
    rw [hnat]
    split_ifs <;> omega
  rw [unzigZag, hint, Int64.ofInt_toInt]

theorem zigZag_unzigZag (u : UInt64) : zigZag (unzigZag u) = u := by
  have hlt := u.toNat_lt
  have hint : (unzigZag u).toInt = if u.toNat % 2 = 0 then ((u.toNat / 2 : Nat) : Int)
      else -((u.toNat / 2 : Nat) : Int) - 1 := by
    rw [unzigZag, Int64.toInt_ofInt_of_le] <;> split_ifs <;> omega
  have hnat : (if 0 ≤ (unzigZag u).toInt then 2 * (unzigZag u).toInt.toNat
      else 2 * (-(unzigZag u).toInt).toNat - 1) = u.toNat := by
    split_ifs <;> omega
  rw [zigZag, hnat, UInt64.ofNat_toNat]

def varint (x : Int64) : Bytes := uvarint (zigZag x)

def readVarint : Reader Int64 := fun bs => (readUvarint bs).map fun r => (unzigZag r.1, r.2)

@[simp] theorem readVarint_append (x : Int64) (rest : Bytes) : readVarint (varint x ++ rest) = some (x, rest) := by
  simp [readVarint, varint, unzigZag_zigZag]

/-- The `k` low bytes of a number, lowest first. -/
def leBytes : Nat → Nat → Bytes
  | 0, _ => []
  | k + 1, n => UInt8.ofNat (n % 256) :: leBytes k (n / 256)

def leValue : Bytes → Nat
  | [] => 0
  | b :: bs => b.toNat + 256 * leValue bs

@[simp] theorem length_leBytes (k n : Nat) : (leBytes k n).length = k := by
  induction k generalizing n with
  | zero => rfl
  | succ k ih => rw [leBytes, length_cons, ih]

theorem leValue_leBytes (k n : Nat) (h : n < 256 ^ k) : leValue (leBytes k n) = n := by
  induction k generalizing n with
  | zero =>
    have : n = 0 := by simpa using h
    simp [leBytes, leValue, this]
  | succ k ih =>
    have hdiv : n / 256 < 256 ^ k := by
      apply Nat.div_lt_of_lt_mul
      calc n < 256 ^ (k + 1) := h
        _ = 256 * 256 ^ k := by ring
    have hb : (UInt8.ofNat (n % 256)).toNat = n % 256 := toNat_ofNat_of_lt (by omega)
    rw [leBytes, leValue, ih _ hdiv, hb]
    omega

theorem leValue_lt : ∀ bytes, leValue bytes < 256 ^ bytes.length
  | [] => Nat.one_pos
  | b :: bytes => by
    have hb : b.toNat < 256 := b.toNat_lt
    have := leValue_lt bytes
    rw [leValue, length_cons, Nat.pow_succ]
    omega

theorem leBytes_of_leValue (hlen : bytes.length = k) (hvalue : leValue bytes = n) : leBytes k n = bytes := by
  subst hlen hvalue
  induction bytes with
  | nil => rfl
  | cons b bytes ih =>
    have hb : b.toNat < 256 := b.toNat_lt
    have hmod : (b.toNat + 256 * leValue bytes) % 256 = b.toNat := by omega
    have hdiv : (b.toNat + 256 * leValue bytes) / 256 = leValue bytes := by omega
    rw [length_cons, leValue, leBytes, hmod, hdiv, ih, UInt8.ofNat_toNat]

def readBytes (k : Nat) : Reader Bytes := fun bs =>
  if bs.length < k then none else some (bs.take k, bs.drop k)

theorem readBytes_append (h : a.length = k) (rest : Bytes) : readBytes k (a ++ rest) = some (a, rest) := by
  subst h
  rw [readBytes, if_neg (by simp), take_left', drop_left']
  · rfl
  · rfl

theorem readBytes_some (h : readBytes k bytes = some (a, rest)) : a.length = k ∧ bytes.length = rest.length + k := by
  unfold readBytes at h
  split at h
  · simp at h
  · next hlen =>
    cases h
    simp only [length_take, length_drop]
    omega

/-- `binary.LittleEndian.AppendUint64`. -/
def uint64LE (n : UInt64) : Bytes := leBytes 8 n.toNat

def readUint64LE : Reader UInt64 := fun bs =>
  (readBytes 8 bs).map fun r => (UInt64.ofNat (leValue r.1), r.2)

@[simp] theorem readUint64LE_append (n : UInt64) (rest : Bytes) :
    readUint64LE (uint64LE n ++ rest) = some (n, rest) := by
  have h : n.toNat < 256 ^ 8 := n.toNat_lt
  rw [readUint64LE, uint64LE, readBytes_append (length_leBytes ..), Option.map_some,
    leValue_leBytes 8 _ h, UInt64.ofNat_toNat]

/-- One byte of CRC-32C, with the reflected polynomial of Castagnoli. -/
def crc32cStep (crc : UInt32) (b : UInt8) : UInt32 :=
  (List.range 8).foldl (fun c _ => if c &&& 1 = 1 then (c >>> 1) ^^^ 0x82F63B78 else c >>> 1) (crc ^^^ b.toUInt32)

/-- `crc32.Checksum` with the Castagnoli table. -/
def crc32c (bytes : Bytes) : UInt32 := bytes.foldl crc32cStep 0xFFFFFFFF ^^^ 0xFFFFFFFF

-- the check value of the polynomial, for the digits 1 to 9
example : crc32c [49, 50, 51, 52, 53, 54, 55, 56, 57] = 0xE3069283 := by decide +kernel

end Mts.Lib
