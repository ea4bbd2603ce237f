import Mts.Sstable.Part
import Mts.Lib.Bytes
import Mts.Lib.Exec
import Mts.Lib.Float64

/-! Value pages, `sstable/write.go`, `encoding_samples.go` and `compression*.go`. A page is modelled by
what its payload says: time references into the row's time block or a timestamp payload of its own,
the write sequences and the values. The typed value codecs are a parameter: they do `float64`
arithmetic and bit packing, and a reader only sees the value at each index. -/

namespace Mts.Sstable
open Lib Model Engine List

variable {α : Type} {size : Nat} {l w : List α} {fieldType : FieldType} {samples : Samples} {step : Int64}

structure CompressionOptions where
  enabled : Bool
  timestamp : String
  float : String
  int : String
  string : String
  algorithm : String
  minPageValues : Int
  valuePageSamples : Int
  omitWriteSeq : Bool
  zstdLevel : String

inductive PageError
  | emptyRowTimestamps | missingTimestamp (timestamp : Int64) | boolSample (type : FieldType)
  | noRowTimestamps | alignedCount (count rows : Nat) | ordinalRange (ordinal : Nat) | missingRow
  deriving DecidableEq, Repr

def PageError.message : PageError → String
  | emptyRowTimestamps => "row timestamps are empty"
  | missingTimestamp t => "sample timestamp " ++ toString t ++ " is missing from row time block"
  | boolSample t => "bool sample has value type " ++ toString (repr t)
  | noRowTimestamps => "row timestamps are required for value page"
  | alignedCount count rows => "aligned value count " ++ toString count ++
      " does not match row timestamp count " ++ toString rows
  | ordinalRange ordinal => "time ordinal " ++ toString ordinal ++ " out of range"
  | missingRow => "decode part index row: got 0 rows, want 1"

inductive TimeRefs
  | aligned
  | indexed (ordinals : List Nat)
  deriving DecidableEq, Repr

/-- A timestamp payload. Plain deltas and deltas of deltas both list all timestamps. -/
inductive TimePayload
  | listed (timestamps : List Int64)
  | constStep (base step : Int64)
  deriving DecidableEq, Repr

inductive ValueCodec
  | plain | delta | rle | xor | constStep | dictionary
  deriving DecidableEq, Repr

/-- A typed value payload: the codec and the value it decodes to at an index. -/
structure ValuePayload where
  codec : ValueCodec
  valueAt : Int → FieldValue

inductive ValueBlock
  | plain (fieldType : FieldType) (count : Nat) (refs : TimeRefs) (writeSeqs : List UInt64)
      (values : List FieldValue)
  | compressed (fieldType : FieldType) (count : Nat) (times : TimePayload)
      (writeSeqs : Option (List UInt64)) (values : ValuePayload)

inductive ValuePageStats
  | none
  | float64 (minimum maximum : UInt64)
  | int64 (minimum maximum : Int64)
  deriving DecidableEq, Repr

structure ValuePage where
  minTime : Int64
  maxTime : Int64
  stats : ValuePageStats
  block : ValueBlock

def compressionPolicy (policy defaultPolicy : String) : String :=
  if policy = "plain" then policy else defaultPolicy

def compressionEnabled (opts : CompressionOptions) (count : Nat) : Bool :=
  opts.enabled && decide ((if opts.minPageValues ≤ 0 then 8 else opts.minPageValues) ≤ count)

def resolveValuePageSamples (configured : Int) : Nat :=
  if configured ≤ 0 then 1024
  else if configured < 64 then 64
  else if configured > 65536 then 65536
  else configured.toNat

def samplesAligned (samples : Samples) (rowTimestamps : List Int64) : Bool :=
  samples.map VersionedSample.timestamp = rowTimestamps

/-- The loop of `encodeTimeRefs`: `row` is the position of the first of `rowTimestamps`. -/
def timeOrdinals : Nat → List Int64 → List Int64 → Except PageError (List Nat)
  | _, _, [] => .ok []
  | _, [], t :: _ => .error (.missingTimestamp t)
  | row, r :: rows, t :: ts =>
    if r < t then timeOrdinals (row + 1) rows (t :: ts)
    else if r ≠ t then .error (.missingTimestamp t)
    else (timeOrdinals (row + 1) rows ts).map (row :: ·)

def encodeTimeRefs (samples : Samples) (rowTimestamps : List Int64) : Except PageError TimeRefs :=
  if samples.isEmpty then .ok .aligned
  else if rowTimestamps.isEmpty then .error .emptyRowTimestamps
  else if samplesAligned samples rowTimestamps then .ok .aligned
  else (timeOrdinals 0 rowTimestamps (samples.map VersionedSample.timestamp)).map .indexed

/-- The member of Go's `FieldValue` for a type; a value of another type has its zero value there. -/
def valueOfType : FieldType → FieldValue → FieldValue
  | .float64, .float64 bits => .float64 bits
  | .float64, _ => .float64 0
  | .int64, .int64 value => .int64 value
  | .int64, _ => .int64 0
  | .string, .string value => .string value
  | .string, _ => .string []
  | .bool, .bool value => .bool value
  | .bool, _ => .bool false

/-- Only `appendBoolValues` checks the type of a value. -/
def checkValues (fieldType : FieldType) (samples : Samples) : Except PageError Unit :=
  match fieldType, samples.find? fun s => s.value.type ≠ .bool with
  | .bool, some s => .error (.boolSample s.value.type)
  | _, _ => .ok ()

/-- All deltas, with wraparound, agree. -/
def detectConstStepSamples : Samples → Option Int64
  | a :: b :: rest =>
    let step := b.timestamp - a.timestamp
    if List.IsChain (fun x y : VersionedSample => y.timestamp - x.timestamp = step) (b :: rest)
    then some step else none
  | _ => none

def appendPlainSampleTimestamps : Samples → Bytes
  | [] => []
  | first :: rest =>
    uint64LE first.timestamp.toUInt64 ++
      (List.zipWith (fun x y : VersionedSample => varint (y.timestamp - x.timestamp))
        (first :: rest) rest).flatten

def appendConstStepTimestamps (base step : Int64) : Bytes := uint64LE base.toUInt64 ++ varint step

def encodeSampleTimestamps (samples : Samples) (policy : String) : TimePayload :=
  let listed := TimePayload.listed (samples.map VersionedSample.timestamp)
  if compressionPolicy policy "delta-of-delta" = "plain" then listed
  else
    match samples, detectConstStepSamples samples with
    | first :: _, some step =>
      if (appendConstStepTimestamps first.timestamp step).length <
          (appendPlainSampleTimestamps samples).length then .constStep first.timestamp step
      else listed
    | _, _ => listed

/-- The typed value encoders, chosen by the options for a field type. -/
abbrev ValueEncoder := CompressionOptions → FieldType → List FieldValue → ValuePayload

def marshalValuePage (encode : ValueEncoder) (opts : CompressionOptions) (rowTimestamps : List Int64)
    (fieldType : FieldType) (samples : Samples) : Except PageError ValueBlock := do
  if compressionEnabled opts samples.length then
    checkValues fieldType samples
    .ok (.compressed fieldType samples.length (encodeSampleTimestamps samples opts.timestamp)
      (if opts.omitWriteSeq then none else some (samples.map VersionedSample.writeSeq))
      (encode opts fieldType (samples.map VersionedSample.value)))
  else
    let refs ← encodeTimeRefs samples rowTimestamps
    checkValues fieldType samples
    .ok (.plain fieldType samples.length refs (samples.map VersionedSample.writeSeq)
      (samples.map fun s => valueOfType fieldType s.value))

def valuePageStatsFromSamples (fieldType : FieldType) : Samples → ValuePageStats
  | [] => .none
  | first :: rest =>
    match fieldType with
    | .float64 =>
      let bits := fun s : VersionedSample =>
        match s.value with
        | .float64 b => b
        | _ => 0
      .float64 (rest.foldl (fun m s => if Float64.lt (bits s) m then bits s else m) (bits first))
        (rest.foldl (fun m s => if Float64.lt m (bits s) then bits s else m) (bits first))
    | .int64 =>
      let int := fun s : VersionedSample =>
        match s.value with
        | .int64 v => v
        | _ => 0
      .int64 (rest.foldl (fun m s => if int s < m then int s else m) (int first))
        (rest.foldl (fun m s => if int s > m then int s else m) (int first))
    | _ => .none

/-- The pages of a column hold this many samples each, the last one what is left. -/
def windows {α : Type} (size : Nat) (l : List α) : List (List α) :=
  (List.range ((l.length + size - 1) / size)).map fun i => (l.drop (i * size)).take size

def writeValuePages (encode : ValueEncoder) (opts : CompressionOptions) (rowTimestamps : List Int64)
    (column : ColumnData) : Except PageError (List ValuePage) :=
  (windows (resolveValuePageSamples opts.valuePageSamples) column.samples).mapM fun samples => do
    let block ← marshalValuePage encode opts rowTimestamps column.fieldType samples
    let times := samples.map VersionedSample.timestamp
    .ok ⟨times.headD 0, times.getLastD 0, valuePageStatsFromSamples column.fieldType samples, block⟩

def raiseStart (base step first : Int64) : Nat → Int64 → Int64 → Int64
  | 0, start, _ => start
  | fuel + 1, start, stop =>
    if start < stop ∧ base + start * step < first then raiseStart base step first fuel (start + 1) stop
    else start

def lowerStop (base step last : Int64) : Nat → Int64 → Int64 → Int64
  | 0, _, stop => stop
  | fuel + 1, start, stop =>
    if start < stop ∧ last < base + (stop - 1) * step then lowerStop base step last fuel start (stop - 1)
    else stop

/-- The index range `[start, stop)` of an arithmetic progression inside the query window; all
arithmetic wraps around, as `int` and `int64` do. -/
def constStepWindow (base step : Int64) (count : Nat) (q : ColumnQuery) : Int64 × Int64 :=
  let count := Int64.ofNat count
  if count ≤ 0 ∨ q.stop < q.start then (0, 0)
  else if step = 0 then if q.start ≤ base ∧ base ≤ q.stop then (0, count) else (0, 0)
  else if step < 0 then (0, count)
  else
    let start := if q.start ≤ base then 0 else (q.start - base + step - 1) / step
    if count ≤ start then (0, 0)
    else
      let stop := (q.stop - base) / step + 1
      let stop := if count < stop then count else stop
      if stop ≤ start then (0, 0)
      else
        let start := raiseStart base step q.start (stop.toInt - start.toInt).toNat start stop
        let stop := lowerStop base step q.stop (stop.toInt - start.toInt).toNat start stop
        if stop ≤ start then (0, 0) else (start, stop)

def materializeConstStepTimestamps (base step start stop : Int64) : List Int64 :=
  if stop ≤ start then []
  else (List.range (stop - start).toInt.toNat).map fun i => base + (start + Int64.ofNat i) * step

/-- The timestamps of a const-step page that fall into the window, and the index of the first. -/
def decodeConstStepTimestampsWindow (base step : Int64) (count : Nat) (q : ColumnQuery) : List Int64 × Int64 :=
  let (start, stop) := constStepWindow base step count q
  (materializeConstStepTimestamps base step start stop, start)

def buildSamples (timestamps : List Int64) (writeSeqs : List UInt64) (values : List FieldValue) : Samples :=
  (timestamps.zip (writeSeqs.zip values)).map fun x => ⟨x.1, x.2.1, x.2.2⟩

/-- The codecs that `readConstStepWindowSamples` decodes for a window only. -/
def windowedCodec : FieldType → ValueCodec → Bool
  | .float64, .constStep | .float64, .delta | .float64, .rle | .int64, .delta | .int64, .rle => true
  | _, _ => false

/-- The samples of a window that starts at index `start`, with omitted write sequences. A float
progression is evaluated at every index of the window; the integer codecs run through the page. -/
def readWindowedCodecValues (fieldType : FieldType) (values : ValuePayload) (count : Nat)
    (start : Int64) (timestamps : List Int64) : Samples :=
  match fieldType, values.codec with
  | .float64, .constStep =>
    timestamps.zipIdx.map fun x => ⟨x.1, 0, values.valueAt (start.toInt + x.2)⟩
  | _, _ =>
    (List.range count).filterMap fun index =>
      if index = 0 ∧ start ≠ 0 ∨ (index : Int) < start.toInt then none
      else (timestamps[((index : Int) - start.toInt).toNat]?).map fun t => ⟨t, 0, values.valueAt index⟩

def readCompressedSamples (q : ColumnQuery) (fieldType : FieldType) (count : Nat) (times : TimePayload)
    (writeSeqs : Option (List UInt64)) (values : ValuePayload) : Samples :=
  let all := fun timestamps =>
    buildSamples timestamps (writeSeqs.getD (List.replicate count 0))
      ((List.range count).map fun i : Nat => values.valueAt i)
  let samples :=
    match times with
    | .listed timestamps => all timestamps
    | .constStep base step =>
      let (timestamps, start) := decodeConstStepTimestampsWindow base step count q
      if timestamps.isEmpty then []
      else if writeSeqs.isNone && windowedCodec fieldType values.codec then
        readWindowedCodecValues fieldType values count start timestamps
      else all (materializeConstStepTimestamps base step 0 (Int64.ofNat count))
  samples.filter fun s => q.inWindow s.timestamp

/-- The timestamps of a plain page; ordinals are stored as positive deltas. -/
def resolveTimes (rowTimestamps : List Int64) (count : Nat) : TimeRefs → Except PageError (List Int64)
  | .aligned =>
    if count ≠ rowTimestamps.length then .error (.alignedCount count rowTimestamps.length)
    else .ok rowTimestamps
  | .indexed ordinals => ordinals.mapM fun o =>
    match rowTimestamps[o]? with
    | none => .error (.ordinalRange o)
    | some t => .ok t

/-- `unmarshalValueBlockWithTimestamps`. -/
def readValueBlock (rowTimestamps : List Int64) (q : ColumnQuery) : ValueBlock → Except PageError Samples
  | .compressed fieldType count times writeSeqs values =>
    .ok (readCompressedSamples q fieldType count times writeSeqs values)
  | .plain _ count refs writeSeqs values =>
    if count = 0 then .ok []
    else if rowTimestamps.isEmpty then .error .noRowTimestamps
    else (resolveTimes rowTimestamps count refs).map fun times =>
      (buildSamples times writeSeqs values).filter fun s => q.inWindow s.timestamp

theorem resolveValuePageSamples_pos (configured : Int) : 0 < resolveValuePageSamples configured := by
  unfold resolveValuePageSamples
  split_ifs <;> omega

theorem resolveValuePageSamples_le (configured : Int) : resolveValuePageSamples configured ≤ 65536 := by
  unfold resolveValuePageSamples
  split_ifs <;> omega

theorem sublist_of_mem_windows (h : w ∈ windows size l) : w.Sublist l := by
  obtain ⟨i, -, rfl⟩ := mem_map.mp h
  exact (take_sublist ..).trans (drop_sublist ..)

theorem length_of_mem_windows (h : w ∈ windows size l) : w.length ≤ size := by
  obtain ⟨i, -, rfl⟩ := mem_map.mp h
  exact length_take_le ..

theorem length_le_windows (hsize : 0 < size) (l : List α) : l.length ≤ (l.length + size - 1) / size * size := by
  have := Nat.div_add_mod (l.length + size - 1) size
  have := Nat.mod_lt (l.length + size - 1) hsize
  have := Nat.mul_comm size ((l.length + size - 1) / size)
  omega

theorem mem_iff_mem_windows (hsize : 0 < size) : x ∈ l ↔ ∃ w ∈ windows size l, x ∈ w := by
  rw [mem_iff_mem_window (length_le_windows hsize l)]
  simp [windows]

theorem ne_nil_of_mem_windows (hsize : 0 < size) (h : w ∈ windows size l) : w ≠ [] := by
  obtain ⟨i, hi, rfl⟩ := mem_map.mp h
  have hlt : i * size < l.length := by
    have hi := mem_range.mp hi
    have := Nat.div_add_mod (l.length + size - 1) size
    have := Nat.mul_le_mul_left size (Nat.succ_le_of_lt hi)
    rw [Nat.mul_succ, Nat.mul_comm size i] at this
    omega
  apply ne_nil_of_length_pos
  rw [length_take, length_drop]
  omega

theorem valueOfType_eq (h : value.type = fieldType) : valueOfType fieldType value = value := by
  subst h
  cases value <;> rfl

theorem checkValues_ok (h : ∀ s ∈ samples, s.value.type = fieldType) : checkValues fieldType samples = .ok () := by
  unfold checkValues
  split
  · next s hs =>
    have hmem := mem_of_find?_eq_some hs
    have := find?_some hs
    simp [h s hmem] at this
  · rfl

theorem buildSamples_self (samples : Samples) :
    buildSamples (samples.map VersionedSample.timestamp) (samples.map VersionedSample.writeSeq)
      (samples.map VersionedSample.value) = samples := by
  induction samples with
  | nil => rfl
  | cons s samples ih =>
    simp only [buildSamples, map_cons, zip_cons_cons, List.cons.injEq, true_and] at ih ⊢
    exact ih

theorem timeOrdinals_ok (pre rows times : List Int64) (hrows : rows.Pairwise (· < ·))
    (htimes : times.Pairwise (· < ·)) (hmem : ∀ t ∈ times, t ∈ rows) :
    ∃ ordinals, timeOrdinals pre.length rows times = .ok ordinals ∧
      ∀ count, resolveTimes (pre ++ rows) count (.indexed ordinals) = .ok times := by
  induction rows generalizing pre times with
  | nil =>
    cases times with
    | nil => exact ⟨[], rfl, fun _ => rfl⟩
    | cons t times => exact absurd (hmem t mem_cons_self) not_mem_nil
  | cons r rows ih =>
    obtain ⟨hr, hrows⟩ := pairwise_cons.mp hrows
    have hpre : (pre ++ [r]).length = pre.length + 1 := by simp
    have happ : pre ++ [r] ++ rows = pre ++ r :: rows := by simp
    cases times with
    | nil => exact ⟨[], by rw [timeOrdinals], fun _ => rfl⟩
    | cons t times =>
      obtain ⟨ht, htimes'⟩ := pairwise_cons.mp htimes
      rw [timeOrdinals]
      split
      · next hlt =>
        have hrest : ∀ u ∈ t :: times, u ∈ rows := by
          intro u hu
          have hru : r < u := by
            rcases mem_cons.mp hu with rfl | hu
            · exact hlt
            · exact Int64.lt_trans hlt (ht u hu)
          rcases mem_cons.mp (hmem u hu) with rfl | h
          · exact absurd hru (Int64.lt_irrefl)
          · exact h
        obtain ⟨ordinals, hok, hres⟩ := ih (pre ++ [r]) (t :: times) hrows htimes hrest
        rw [hpre] at hok
        rw [happ] at hres
        exact ⟨ordinals, hok, hres⟩
      · next hge =>
        have hrt : r = t := by
          rcases mem_cons.mp (hmem t mem_cons_self) with h | h
          · exact h.symm
          · exact absurd (hr t h) hge
        subst hrt
        have hrest : ∀ u ∈ times, u ∈ rows := by
          intro u hu
          rcases mem_cons.mp (hmem u (mem_cons_of_mem _ hu)) with rfl | h
          · exact absurd (ht _ hu) (Int64.lt_irrefl)
          · exact h
        obtain ⟨ordinals, hok, hres⟩ := ih (pre ++ [r]) times hrows htimes' hrest
        rw [hpre] at hok
        rw [happ] at hres
        rw [if_neg (not_not.mpr rfl), hok]
        refine ⟨pre.length :: ordinals, rfl, fun count => ?_⟩
        have hhead : (pre ++ r :: rows)[pre.length]? = some r := by simp
        have hrest := hres count
        simp only [resolveTimes] at hrest ⊢
        rw [mapM_cons, hhead, hrest]
        rfl

theorem encodeTimeRefs_ok (hne : samples ≠ []) (hrows : rowTimestamps.Pairwise (· < ·))
    (hsorted : (samples.map VersionedSample.timestamp).Pairwise (· < ·))
    (hmem : ∀ t ∈ samples.map VersionedSample.timestamp, t ∈ rowTimestamps) :
    ∃ refs, encodeTimeRefs samples rowTimestamps = .ok refs ∧
      resolveTimes rowTimestamps samples.length refs = .ok (samples.map VersionedSample.timestamp) := by
  have hrne : rowTimestamps ≠ [] := by
    obtain ⟨s, hs⟩ := exists_mem_of_ne_nil _ hne
    exact ne_nil_of_mem (hmem _ (mem_map_of_mem hs))
  unfold encodeTimeRefs
  rw [if_neg (by simpa using hne), if_neg (by simpa using hrne)]
  split
  · next haligned =>
    have haligned : samples.map VersionedSample.timestamp = rowTimestamps := by
      simpa [samplesAligned] using haligned
    refine ⟨.aligned, rfl, ?_⟩
    rw [resolveTimes, ← haligned, if_neg (by simp)]
  · obtain ⟨ordinals, hok, hres⟩ := timeOrdinals_ok [] rowTimestamps _ hrows hsorted hmem
    exact ⟨.indexed ordinals, by rw [show timeOrdinals 0 _ _ = _ from hok]; rfl, hres _⟩

theorem timestamps_of_isChain (first : Int64) (rest : List Int64)
    (h : (first :: rest).IsChain fun x y => y - x = step) :
    first :: rest = (List.range (rest.length + 1)).map fun i => first + Int64.ofNat i * step := by
  induction rest generalizing first with
  | nil => simp
  | cons second rest ih =>
    obtain ⟨hstep, hrest⟩ := isChain_cons_cons.mp h
    have hsecond : second = first + step := by
      rw [← hstep, Int64.add_comm, Int64.sub_add_cancel]
    rw [length_cons, range_succ_eq_map (n := rest.length + 1), map_cons, map_map, List.cons.injEq, ih second hrest]
    constructor
    · simp
    · apply map_congr_left
      intro i _
      simp only [Function.comp_apply, hsecond, Nat.succ_eq_add_one, Int64.ofNat_add]
      rw [Int64.add_mul, Int64.add_assoc, Int64.add_comm step]
      simp

theorem encodeSampleTimestamps_constStep
    (h : encodeSampleTimestamps samples policy = .constStep base step) (hlen : samples.length ≤ 65536) :
    materializeConstStepTimestamps base step 0 (Int64.ofNat samples.length) =
      samples.map VersionedSample.timestamp := by
  unfold encodeSampleTimestamps at h
  split at h
  · simp at h
  · split at h
    · next first rest st hdetect =>
      split at h
      · simp only [TimePayload.constStep.injEq] at h
        obtain ⟨rfl, rfl⟩ := h
        cases rest with
        | nil => simp [detectConstStepSamples] at hdetect
        | cons second rest =>
          simp only [detectConstStepSamples] at hdetect
          split at hdetect
          · next hchain =>
            cases hdetect
            have hall := timestamps_of_isChain first.timestamp ((second :: rest).map VersionedSample.timestamp)
              (isChain_cons_cons.mpr ⟨rfl, (isChain_map (l := second :: rest) _).mpr hchain⟩)
            rw [map_cons, hall, length_map]
            have hcount : (Int64.ofNat (first :: second :: rest).length).toInt =
                ((first :: second :: rest).length : Int) := by
              rw [Int64.toInt_ofNat_of_lt (by omega)]
            have hpos : ¬ Int64.ofNat (first :: second :: rest).length ≤ 0 := by
              rw [Int64.le_iff_toInt_le, hcount]
              simp
              omega
            rw [materializeConstStepTimestamps, if_neg hpos, Int64.sub_zero, hcount, Int.toNat_natCast]
            simp
          · simp at hdetect
      · simp at h
    · simp at h

def windowFound (policy : String) (samples : Samples) (q : ColumnQuery) : Bool :=
  match encodeSampleTimestamps samples policy with
  | .listed _ => true
  | .constStep base step =>
    !(decodeConstStepTimestampsWindow base step samples.length q).1.isEmpty

theorem readCompressedSamples_eq (policy : String) (q : ColumnQuery) (fieldType : FieldType)
    (values : ValuePayload) (hlen : samples.length ≤ 65536) :
    readCompressedSamples q fieldType samples.length (encodeSampleTimestamps samples policy)
        (some (samples.map VersionedSample.writeSeq)) values =
      if windowFound policy samples q then
        (buildSamples (samples.map VersionedSample.timestamp) (samples.map VersionedSample.writeSeq)
          ((List.range samples.length).map fun i : Nat => values.valueAt i)).filter fun s => q.inWindow s.timestamp
      else [] := by
  unfold readCompressedSamples windowFound
  cases henc : encodeSampleTimestamps samples policy with
  | listed timestamps =>
    have : timestamps = samples.map VersionedSample.timestamp := by
      unfold encodeSampleTimestamps at henc
      split at henc
      · exact (TimePayload.listed.inj henc).symm
      · split at henc
        · split at henc
          · simp at henc
          · exact (TimePayload.listed.inj henc).symm
        · exact (TimePayload.listed.inj henc).symm
    simp [this]
  | constStep base step =>
    rcases hw : decodeConstStepTimestampsWindow base step samples.length q with ⟨timestamps, start⟩
    simp only [hw, Option.isNone_some, Bool.false_and, Bool.false_eq_true, if_false,
      Option.getD_some, encodeSampleTimestamps_constStep henc hlen]
    cases timestamps with
    | nil => simp
    | cons t timestamps => simp

section Pages
variable (encode : ValueEncoder) (opts : CompressionOptions) (fieldType : FieldType) (samples : Samples)

/-- A compressed const-step page whose window search comes out empty gives nothing back. -/
def pageLost (q : ColumnQuery) : Bool :=
  compressionEnabled opts samples.length && !windowFound opts.timestamp samples q

def readBack (i : Nat) (s : VersionedSample) : VersionedSample :=
  if compressionEnabled opts samples.length then
    { s with value := (encode opts fieldType (samples.map VersionedSample.value)).valueAt i }
  else s

def pageSamples (q : ColumnQuery) : Samples :=
  if pageLost opts samples q then []
  else (samples.zipIdx.map fun x => readBack encode opts fieldType samples x.2 x.1).filter
    fun s => q.inWindow s.timestamp

end Pages

variable {encode : ValueEncoder} {opts : CompressionOptions} {fieldType : FieldType} {samples : Samples}
  {q : ColumnQuery}

@[simp] theorem readBack_timestamp (i : Nat) (s : VersionedSample) :
    (readBack encode opts fieldType samples i s).timestamp = s.timestamp := by
  unfold readBack
  split <;> rfl

theorem mem_pageSamples :
    s ∈ pageSamples encode opts fieldType samples q ↔ pageLost opts samples q = false ∧
      ∃ i x, samples[i]? = some x ∧ q.inWindow x.timestamp = true ∧
        s = readBack encode opts fieldType samples i x := by
  unfold pageSamples
  split
  · next h => simp [h]
  · next h =>
    simp only [mem_filter, mem_map, h, true_and]
    constructor
    · rintro ⟨⟨⟨x, i⟩, hx, rfl⟩, hw⟩
      rw [mem_zipIdx_iff_getElem?] at hx
      exact ⟨i, x, hx, by simpa using hw, rfl⟩
    · rintro ⟨i, x, hx, hw, rfl⟩
      exact ⟨⟨(x, i), mem_zipIdx_iff_getElem?.mpr hx, rfl⟩, by simpa using hw⟩

theorem buildSamples_readBack (valueAt : Nat → FieldValue) (samples : Samples) :
    buildSamples (samples.map VersionedSample.timestamp) (samples.map VersionedSample.writeSeq)
      ((List.range samples.length).map valueAt) =
    samples.zipIdx.map fun x => { x.1 with value := valueAt x.2 } := by
  apply ext_getElem
  · simp [buildSamples]
  · intro i h h'
    simp [buildSamples]

theorem marshalValuePage_ok (encode : ValueEncoder) (homit : opts.omitWriteSeq = false)
    (hlen : samples.length ≤ 65536) (hne : samples ≠ [])
    (hsorted : (samples.map VersionedSample.timestamp).Pairwise (· < ·))
    (htyped : ∀ s ∈ samples, s.value.type = fieldType) (hrows : rowTimestamps.Pairwise (· < ·))
    (hmem : ∀ s ∈ samples, s.timestamp ∈ rowTimestamps) :
    ∃ block, marshalValuePage encode opts rowTimestamps fieldType samples = .ok block ∧
      ∀ q, readValueBlock rowTimestamps q block = .ok (pageSamples encode opts fieldType samples q) := by
  have hcheck := checkValues_ok htyped
  have hrne : rowTimestamps ≠ [] := by
    obtain ⟨s, hs⟩ := exists_mem_of_ne_nil _ hne
    exact ne_nil_of_mem (hmem s hs)
  unfold marshalValuePage
  split
  · next hcomp =>
    refine ⟨_, by rw [hcheck]; rfl, fun q => ?_⟩
    simp only [readValueBlock, homit, Bool.false_eq_true, if_false, readCompressedSamples_eq _ _ _ _ hlen,
      buildSamples_readBack, pageSamples, pageLost, readBack, hcomp, Bool.true_and, if_true]
    cases windowFound opts.timestamp samples q <;> simp
  · next hplain =>
    have hvalues : samples.map (fun s => valueOfType fieldType s.value) =
        samples.map VersionedSample.value :=
      map_congr_left fun s hs => valueOfType_eq (htyped s hs)
    obtain ⟨refs, hrefs, hres⟩ := encodeTimeRefs_ok hne hrows hsorted (by simpa using hmem)
    refine ⟨.plain fieldType samples.length refs (samples.map VersionedSample.writeSeq)
      (samples.map VersionedSample.value), by rw [hrefs, hvalues]; simp only [hcheck]; rfl, fun q => ?_⟩
    have hself : (samples.zipIdx.map fun x => readBack encode opts fieldType samples x.2 x.1) = samples := by
      simp [readBack, hplain]
    rw [readValueBlock, if_neg (by simpa using hne), if_neg (by simpa using hrne), hres, pageSamples, hself]
    simp [Except.map, buildSamples_self, pageLost, hplain]

end Mts.Sstable
