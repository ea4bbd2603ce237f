import Mts.Model.Types

/-! The segmented log, `wal/wal.go`, at the level of records: a segment file is the list of the
records in it and its size in bytes follows from their frames. `Mts.Wal.Segment` has the bytes. -/

namespace Mts.Wal
open Model List

structure Record where
  points : List ResolvedPoint
  tombstones : List Tombstone
  deriving DecidableEq

structure Segment where
  number : Nat
  records : List Record
  deriving DecidableEq

variable {segments : List Segment}

def walSegmentHeaderLen : Nat := 15

/-- The options of a log and the length of the frame that a record is encoded to. -/
structure LogOptions where
  segmentBytes : Nat
  frameLen : Record → Nat

variable {opts : LogOptions}

def Segment.size (opts : LogOptions) (s : Segment) : Nat := walSegmentHeaderLen + (s.records.map opts.frameLen).sum

/-- `openLastSegment`: the last segment is opened, or the first one created. -/
def openLastSegment : List Segment → List Segment
  | [] => [⟨1, []⟩]
  | segments => segments

/-- `appendFrameLocked` with `rollIfNeeded`; the last segment is the open one. -/
def appendRecord (opts : LogOptions) (r : Record) : List Segment → List Segment
  | [] => [⟨1, [r]⟩]
  | [last] =>
    if last.size opts + opts.frameLen r ≤ opts.segmentBytes then [⟨last.number, last.records ++ [r]⟩]
    else [last, ⟨last.number + 1, [r]⟩]
  | s :: segments => s :: appendRecord opts r segments

def replayRecords (segments : List Segment) : List Record := segments.flatMap Segment.records

def openNumber (segments : List Segment) : Nat := (segments.getLast?.map Segment.number).getD 1

/-- The segments of the directory in the order of their numbers, and at least the open one. -/
def SegmentsOrdered (segments : List Segment) : Prop :=
  segments ≠ [] ∧ segments.Pairwise fun a b => a.number < b.number

@[simp] theorem replayRecords_openLastSegment (segments : List Segment) :
    replayRecords (openLastSegment segments) = replayRecords segments := by
  cases segments <;> rfl

theorem appendRecord_cons_cons (opts : LogOptions) (r : Record) (s t : Segment) (segments : List Segment) :
    appendRecord opts r (s :: t :: segments) = s :: appendRecord opts r (t :: segments) := by
  rw [appendRecord]
  simp

@[simp] theorem replayRecords_appendRecord (opts : LogOptions) (r : Record) (segments : List Segment) :
    replayRecords (appendRecord opts r segments) = replayRecords segments ++ [r] := by
  induction segments with
  | nil => rfl
  | cons s segments ih =>
    cases segments with
    | nil =>
      rw [appendRecord]
      split <;> simp [replayRecords]
    | cons s' segments =>
      rw [appendRecord_cons_cons]
      simp only [replayRecords, flatMap_cons, append_assoc] at ih ⊢
      rw [ih]

theorem segmentsOrdered_openLastSegment (h : segments.Pairwise (·.number < ·.number)) :
    SegmentsOrdered (openLastSegment segments) := by
  cases segments with
  | nil => simp [openLastSegment, SegmentsOrdered]
  | cons s segments => exact ⟨by simp [openLastSegment], h⟩

theorem appendRecord_ge (hne : segments ≠ []) :
    ∀ s ∈ appendRecord opts r segments, ∃ t ∈ segments, t.number ≤ s.number := by
  induction segments with
  | nil => exact absurd rfl hne
  | cons t segments ih =>
    intro s hs
    cases segments with
    | nil =>
      refine ⟨t, mem_singleton_self _, ?_⟩
      rw [appendRecord] at hs
      split at hs
      · simp_all
      · rcases mem_cons.mp hs with rfl | hs
        · exact le_rfl
        · simp_all
    | cons t' segments =>
      rcases mem_cons.mp hs with rfl | hs
      · exact ⟨s, mem_cons_self, le_rfl⟩
      · obtain ⟨u, hu, hle⟩ := ih (cons_ne_nil _ _) s hs
        exact ⟨u, mem_cons_of_mem _ hu, hle⟩

theorem segmentsOrdered_appendRecord (h : SegmentsOrdered segments) :
    SegmentsOrdered (appendRecord opts r segments) := by
  obtain ⟨hne, hord⟩ := h
  induction segments with
  | nil => exact absurd rfl hne
  | cons t segments ih =>
    cases segments with
    | nil =>
      rw [appendRecord]
      split <;> simp [SegmentsOrdered]
    | cons t' segments =>
      obtain ⟨ht, hrest⟩ := pairwise_cons.mp hord
      refine ⟨cons_ne_nil _ _, pairwise_cons.mpr ⟨?_, (ih (cons_ne_nil _ _) hrest).2⟩⟩
      intro s hs
      obtain ⟨u, hu, hle⟩ := appendRecord_ge (cons_ne_nil _ _) s hs
      exact (ht u hu).trans_le hle

theorem number_le_openNumber (h : SegmentsOrdered segments) : ∀ s ∈ segments, s.number ≤ openNumber segments := by
  obtain ⟨hne, hord⟩ := h
  intro s hs
  rw [openNumber, getLast?_eq_some_getLast hne]
  rcases mem_iff_append.mp hs with ⟨a, b, rfl⟩
  cases b with
  | nil => simp
  | cons t b =>
    have hlast : (a ++ s :: t :: b).getLast hne ∈ t :: b := by
      rw [getLast_append_of_ne_nil _ (cons_ne_nil _ _), getLast_cons_cons]
      exact getLast_mem _
    have := (pairwise_cons.mp (pairwise_append.mp hord).2.1).1 _ hlast
    exact this.le

end Mts.Wal
