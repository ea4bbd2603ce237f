import Mts.Wal.Segment
import Mts.Engine.Shard

/-! The numbers in the names of log segments and part directories. Names are printed with at least six digits and
scanned with at most six. -/

namespace Mts.Engine
open Mts.Lib Mts.Sstable Mts.Wal List

theorem foldlM_digitStep_lt {digits : Bytes} (h : digits.foldlM digitStep v = some n) :
    n < (v + 1) * 10 ^ digits.length := by
  induction digits generalizing v with
  | nil =>
    obtain rfl : v = n := by simpa using h
    simp
  | cons b digits ih =>
    rw [foldlM_cons, digitStep] at h
    split at h
    · next hdigit =>
      have hlt := ih h
      have hle : (10 * v + (b.toNat - 48) + 1) * 10 ^ digits.length ≤ (v + 1) * 10 * 10 ^ digits.length :=
        Nat.mul_le_mul_right _ (by omega)
      rw [length_cons, Nat.pow_succ', ← Nat.mul_assoc]
      omega
    · simp at h

theorem lt_of_six_digits {digits : Bytes} (hlen : digits.length ≤ 6) (h : digits.foldlM digitStep 0 = some n) :
    n < 10 ^ 6 := by
  have hlt := foldlM_digitStep_lt h
  have hpow := Nat.pow_le_pow_right (show 0 < 10 by decide) hlen
  omega

theorem length_takeWhile_take_six (p : UInt8 → Bool) (name : Bytes) : ((name.take 6).takeWhile p).length ≤ 6 :=
  (takeWhile_sublist _).length_le.trans (length_take_le _ _)

theorem scanSegmentName_lt (h : scanSegmentName name = some n) : n < 10 ^ 6 := by
  rw [scanSegmentName] at h
  split at h
  · rw [parseDigits] at h
    split at h
    · simp at h
    · exact lt_of_six_digits (length_takeWhile_take_six _ _) h
  · simp at h

/-- A directory that holds the segment of a number lists it under this number. -/
def SegmentListed (n : Nat) : Prop :=
  ∀ files : List SegmentFile, ∀ f ∈ files, f.name = segmentName n → ⟨n, f.name, f.data⟩ ∈ listSegments files

theorem mem_listSegments : s ∈ listSegments files ↔
    ∃ f ∈ files, scanSegmentName f.name = some s.number ∧ f.name = s.name ∧ f.data = s.data := by
  rw [listSegments, mem_insertionSort, mem_filterMap]
  refine exists_congr fun f => and_congr_right fun _ => ?_
  rw [Option.map_eq_some_iff]
  constructor
  · rintro ⟨n, hn, rfl⟩
    exact ⟨hn, rfl, rfl⟩
  · rintro ⟨hn, hname, hdata⟩
    exact ⟨s.number, hn, by rw [hname, hdata]⟩

theorem segmentListed_iff : SegmentListed n ↔ n < 10 ^ 6 := by
  constructor
  · intro h
    obtain ⟨f, -, hscan, -⟩ := mem_listSegments.mp (h [⟨segmentName n, [], 0⟩] _ mem_cons_self rfl)
    exact scanSegmentName_lt hscan
  · intro h files f hf hname
    exact mem_listSegments.mpr ⟨f, hf, by rw [hname, scanSegmentName_segmentName h], rfl, rfl⟩

theorem length_partID_iff : (partID n).length = 10 ↔ n < 10 ^ 6 := by
  rw [← Nat.length_toDigits_le_iff (show 1 < 10 by decide) (by decide), partID, length_append, length_append,
    length_replicate, show (decimal n).length = (Nat.toDigits 10 n).length from length_map _,
    show (asciiBytes "sst-").length = 4 from rfl]
  omega

theorem isPartDirName_partID_iff : isPartDirName (partID n) = true ↔ n < 10 ^ 6 := by
  rw [← length_partID_iff, isPartDirName, show (partID n).take 4 = asciiBytes "sst-" from rfl, decide_eq_true rfl,
    Bool.true_and, decide_eq_true_iff]

theorem foldlM_digitStep_of_digits {digits : Bytes} (h : ∀ b ∈ digits, (48 ≤ b && b ≤ 57) = true) :
    digits.foldlM digitStep v = some (digits.foldl (fun n b => 10 * n + (b.toNat - 48)) v) := by
  induction digits generalizing v with
  | nil => rfl
  | cons b digits ih =>
    have hb := h b mem_cons_self
    simp only [Bool.and_eq_true, decide_eq_true_eq, UInt8.le_iff_toNat_le] at hb
    rw [foldlM_cons, digitStep, if_pos (show 48 ≤ b.toNat ∧ b.toNat ≤ 57 from hb)]
    exact ih fun d hd => h d (mem_cons_of_mem _ hd)

theorem partNumber_lt (id : Model.GoString) : partNumber id < 10 ^ 6 := by
  rw [partNumber]
  split
  · exact lt_of_six_digits (length_takeWhile_take_six _ _) (foldlM_digitStep_of_digits fun b => mem_takeWhile_imp)
  · decide

theorem partNumber_partID_iff : partNumber (partID n) = n ↔ n < 10 ^ 6 := by
  constructor
  · intro h
    rw [← h]
    exact partNumber_lt _
  · intro h
    have hlen : ((partID n).drop 4).length ≤ 6 := by rw [length_drop, length_partID_iff.mpr h]
    have hdigits : ∀ b ∈ (partID n).drop 4, (48 ≤ b && b ≤ 57) = true := by
      intro b hb
      rcases mem_append.mp (show b ∈ List.replicate _ 48 ++ decimal n from hb) with hb | hb
      · rw [eq_of_mem_replicate hb]
        rfl
      · obtain ⟨c, hc, rfl⟩ := mem_map.mp hb
        have hchar := toNat_digit_of_mem hc
        simp only [Bool.and_eq_true, decide_eq_true_eq, UInt8.le_iff_toNat_le, hchar.1]
        exact hchar.2
    rw [partNumber, if_pos (show (partID n).take 4 = asciiBytes "sst-" from rfl), take_of_length_le hlen,
      takeWhile_eq_self_iff.mpr hdigits, foldl_partID]

/-- The counter of a reopened shard is above the number of every part it lists. -/
def NumberTaken (n : Nat) : Prop := ∀ parts : List Part, ∀ p ∈ parts, p.partMeta.id = partID n → n < nextPartAfter parts

theorem nextPartAfter_spec (parts : List Part) :
    nextPartAfter parts ≤ 10 ^ 6 ∧ ∀ p ∈ parts, partNumber p.partMeta.id < nextPartAfter parts := by
  induction parts using reverseRecOn with
  | nil => exact ⟨by decide, by simp⟩
  | append_singleton parts p ih =>
    have hlt := partNumber_lt p.partMeta.id
    have hnext : nextPartAfter (parts ++ [p]) =
        if partNumber p.partMeta.id ≥ nextPartAfter parts then partNumber p.partMeta.id + 1 else nextPartAfter parts :=
      foldl_concat ..
    rw [hnext]
    split
    · refine ⟨hlt, fun q hq => ?_⟩
      rcases mem_append.mp hq with hq | hq
      · have := ih.2 q hq
        omega
      · rw [mem_singleton.mp hq]
        omega
    · refine ⟨ih.1, fun q hq => ?_⟩
      rcases mem_append.mp hq with hq | hq
      · exact ih.2 q hq
      · rw [mem_singleton.mp hq]
        omega

theorem numberTaken_iff : NumberTaken n ↔ n < 10 ^ 6 := by
  constructor
  · intro h
    let p : Part := ⟨⟨partID n, 0, 0, 0, 0, 0, 0, 0, 0, 0, []⟩, []⟩
    exact (h [p] p mem_cons_self rfl).trans_le (nextPartAfter_spec [p]).1
  · intro h parts p hp hid
    have hlt := (nextPartAfter_spec parts).2 p hp
    rwa [hid, partNumber_partID_iff.mpr h] at hlt

/-- The numbers of a segment and of a part are read back, and not used again, iff they have at most six digits. -/
theorem numbering_iff (n : Nat) : (∀ files, (listSegments files).Pairwise fun a b => a.number ≤ b.number) ∧
    (SegmentListed n ↔ n < 10 ^ 6) ∧ (isPartDirName (partID n) = true ↔ n < 10 ^ 6) ∧
      (partNumber (partID n) = n ↔ n < 10 ^ 6) ∧ (NumberTaken n ↔ n < 10 ^ 6) :=
  ⟨fun _ => pairwise_insertionSort _ _, segmentListed_iff, isPartDirName_partID_iff, partNumber_partID_iff, numberTaken_iff⟩

theorem millionth_lost : listSegments [⟨segmentName 1000000, [], 0⟩] = [] ∧ isPartDirName (partID 1000000) = false ∧
    partNumber (partID 1000000) = 100000 := by
  decide +kernel

end Mts.Engine
