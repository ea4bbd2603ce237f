import Mts.Wal.Log
import Mts.Wal.BatchRoundTrip

/-! The bytes of a segment file, `wal/wal.go` and `wal/encoding_tombstone.go`: a header and then one frame per
record. A reader goes on to the first frame that it cannot read; a frame that the file ends in belongs to an
append that was cut off. -/

namespace Mts.Wal
open Lib Model List

variable {tombstones : List Tombstone}

section Tombstones

/-- `appendTombstone`. -/
def tombstoneBytes (t : Tombstone) : Bytes :=
  varint t.startTime ++ (varint t.endTime ++ (uvarint t.writeSeq ++
    (uvarint (UInt64.ofNat t.seriesIDs.length) ++ t.seriesIDs.flatMap uvarint ++
      (uvarint (UInt64.ofNat t.fieldIDs.length) ++ t.fieldIDs.flatMap fun id => uvarint id.toUInt64))))

def encodeTombstones (tombstones : List Tombstone) : Bytes :=
  uvarint (UInt64.ofNat tombstones.length) ++ tombstones.flatMap tombstoneBytes

open BatchReader

def uint32Value (name : String) (value : UInt64) : BatchReader UInt32 :=
  if value.toNat > 2 ^ 32 - 1 then .fail (.overflow32 name value) else return value.toUInt32

def readUint64s (name : String) : BatchReader (List UInt64) := do
  let count ← intCount (name ++ " count")
  Parser.times count (uvarint (name ++ " value"))

def readUint32s (name : String) : BatchReader (List UInt32) := do
  let count ← intCount (name ++ " count")
  Parser.times count do
    let value ← uvarint (name ++ " value")
    uint32Value (name ++ " value") value

def readTombstone : BatchReader Tombstone := do
  let start ← varint "tombstone start"
  let stop ← varint "tombstone end"
  let writeSeq ← uvarint "tombstone write seq"
  let seriesIDs ← readUint64s "tombstone series"
  let fieldIDs ← readUint32s "tombstone fields"
  return ⟨seriesIDs, fieldIDs, start, stop, writeSeq⟩

def readTombstones : BatchReader (List Tombstone) := do
  let count ← intCount "tombstone count"
  let tombstones ← Parser.times count readTombstone
  done "wal tombstones"
  return tombstones

def decodeTombstones (payload : Bytes) : Except DecodeError (List Tombstone) :=
  if payload.isEmpty then .error .emptyTombstones else (readTombstones payload).map Prod.fst

def TombstoneSized (t : Tombstone) : Prop := IntSized t.seriesIDs.length ∧ IntSized t.fieldIDs.length

theorem parses_uint64s (name : String) (h : IntSized ids.length) :
    Parses (readUint64s name) (Lib.uvarint (UInt64.ofNat ids.length) ++ ids.flatMap Lib.uvarint) ids :=
  (parses_intCount _ h).bind (parses_times_self fun id _ => parses_uvarint _ id)

theorem parses_uint32 (name : String) (id : UInt32) :
    Parses (do let value ← uvarint name; uint32Value name value) (Lib.uvarint id.toUInt64) id := by
  have hlt := id.toNat_lt
  refine (parses_uvarint name id.toUInt64).bind_nil ?_
  rw [uint32Value, UInt32.toNat_toUInt64, if_neg (by omega), UInt32.toUInt32_toUInt64]
  exact parses_pure id

theorem parses_uint32s (name : String) (h : IntSized ids.length) :
    Parses (readUint32s name)
      (Lib.uvarint (UInt64.ofNat ids.length) ++ ids.flatMap fun id => Lib.uvarint id.toUInt64) ids :=
  (parses_intCount _ h).bind (parses_times_self fun id _ => parses_uint32 _ id)

theorem parses_tombstone (h : TombstoneSized t) : Parses readTombstone (tombstoneBytes t) t := by
  refine (parses_varint _ t.startTime).bind ?_
  refine (parses_varint _ t.endTime).bind ?_
  refine (parses_uvarint _ t.writeSeq).bind ?_
  refine (parses_uint64s _ h.1).bind ?_
  exact (parses_uint32s _ h.2).map fun ids => (⟨t.seriesIDs, ids, t.startTime, t.endTime, t.writeSeq⟩ : Tombstone)

theorem decodeTombstones_encodeTombstones (hcount : IntSized tombstones.length)
    (h : ∀ t ∈ tombstones, TombstoneSized t) : decodeTombstones (encodeTombstones tombstones) = .ok tombstones := by
  have hne : (encodeTombstones tombstones).isEmpty = false := by
    rw [isEmpty_eq_false_iff, encodeTombstones]
    exact append_ne_nil_of_left_ne_nil (uvarint_ne_nil _) _
  have hall : Parses (Parser.times tombstones.length readTombstone) (tombstones.flatMap tombstoneBytes) tombstones :=
    parses_times_self fun t ht => parses_tombstone (h t ht)
  have hcount' := (parses_intCount "tombstone count" hcount).run
    (f := fun count => do let read ← Parser.times count readTombstone; done "wal tombstones"; return read)
    (tombstones.flatMap tombstoneBytes)
  have hrest := hall.run (f := fun read => (do done "wal tombstones"; return read : BatchReader _)) []
  rw [append_nil] at hrest
  rw [decodeTombstones, hne, readTombstones, encodeTombstones]
  rw [hcount', hrest]
  rfl

theorem sized_of_encodeTombstones (h : IntSized (encodeTombstones tombstones).length) :
    IntSized tombstones.length ∧ ∀ t ∈ tombstones, TombstoneSized t := by
  have hne : ∀ t, tombstoneBytes t ≠ [] := fun t =>
    append_ne_nil_of_left_ne_nil (uvarint_ne_nil _) _
  have hall : (tombstones.flatMap tombstoneBytes).length ≤ (encodeTombstones tombstones).length := by
    rw [encodeTombstones, length_append]
    omega
  refine ⟨h.mono ((length_le_flatMap fun t _ => hne t).trans hall), fun t ht => ?_⟩
  have hbytes := (length_le_flatMap_of_mem tombstoneBytes ht).trans hall
  have hseries : t.seriesIDs.length ≤ (t.seriesIDs.flatMap Lib.uvarint).length :=
    length_le_flatMap fun _ _ => uvarint_ne_nil _
  have hfields : t.fieldIDs.length ≤ (t.fieldIDs.flatMap fun id => Lib.uvarint id.toUInt64).length :=
    length_le_flatMap fun _ _ => uvarint_ne_nil _
  simp only [tombstoneBytes, length_append] at hbytes
  exact ⟨h.mono (by omega), h.mono (by omega)⟩

end Tombstones

section Frames

variable {n : Nat} {tail : Bytes} {isLast : Bool}

def uint32BE (n : UInt32) : Bytes := (leBytes 4 n.toNat).reverse

def uint32OfBE (bytes : Bytes) : UInt32 := UInt32.ofNat (leValue bytes.reverse)

@[simp] theorem length_uint32BE (n : UInt32) : (uint32BE n).length = 4 := by
  rw [uint32BE, length_reverse, length_leBytes]

@[simp] theorem uint32OfBE_uint32BE (n : UInt32) : uint32OfBE (uint32BE n) = n := by
  rw [uint32OfBE, uint32BE, reverse_reverse, leValue_leBytes 4 _ n.toNat_lt, UInt32.ofNat_toNat]

theorem uint32BE_uint32OfBE (h : bytes.length = 4) : uint32BE (uint32OfBE bytes) = bytes := by
  rw [← length_reverse] at h
  have hlt : leValue bytes.reverse < 2 ^ 32 := (leValue_lt _).trans_eq (by rw [h]; rfl)
  rw [uint32BE, uint32OfBE, UInt32.toNat_ofNat', Nat.mod_eq_of_lt hlt, leBytes_of_leValue h rfl, reverse_reverse]

inductive ReplayError
  | eof | unexpectedEOF | lengthTooSmall | crcMismatch | magicMismatch | formatID (id : Nat)
  | headerLength (length : Nat) | headerCRCMismatch | payload (e : DecodeError) | recordType
  deriving DecidableEq

/-- `io.ReadFull`: it is the end of the file if nothing could be read and an unexpected one otherwise. -/
def readFull (n : Nat) (bytes : Bytes) : Except ReplayError (Bytes × Bytes) :=
  if n ≤ bytes.length then .ok (bytes.take n, bytes.drop n)
  else if bytes.isEmpty then .error .eof
  else .error .unexpectedEOF

theorem readFull_append (h : bytes.length = n) (rest : Bytes) : readFull n (bytes ++ rest) = .ok (bytes, rest) := by
  rw [readFull, if_pos (by rw [length_append]; omega), take_left' h, drop_left' h]

theorem readFull_ok (h : readFull n bytes = .ok (front, rest)) : front ++ rest = bytes ∧ front.length = n := by
  rw [readFull] at h
  split_ifs at h with hle
  cases h
  exact ⟨take_append_drop n bytes, length_take_of_le hle⟩

theorem readFull_short (hne : bytes ≠ []) (h : bytes.length < n) : readFull n bytes = .error .unexpectedEOF := by
  rw [readFull, if_neg (by omega), if_neg (by simpa using hne)]

def recordWriteBatch : UInt8 := 1

def recordTombstone : UInt8 := 2

def decodeFramePayload (recordType : UInt8) (payload : Bytes) : Except ReplayError Record :=
  if recordType = recordWriteBatch then
    match decodeBatch payload with
    | .ok points => .ok ⟨points, []⟩
    | .error e => .error (.payload e)
  else if recordType = recordTombstone then
    match decodeTombstones payload with
    | .ok tombstones => .ok ⟨[], tombstones⟩
    | .error e => .error (.payload e)
  else .error .recordType

theorem decodeFramePayload_tombstones (h : IntSized (encodeTombstones tombstones).length) :
    decodeFramePayload recordTombstone (encodeTombstones tombstones) = .ok ⟨[], tombstones⟩ := by
  obtain ⟨hcount, hlists⟩ := sized_of_encodeTombstones h
  rw [decodeFramePayload, if_neg (by decide), if_pos rfl, decodeTombstones_encodeTombstones hcount hlists]

variable (crc : Bytes → UInt32)

/-- The length of the body is kept in 32 bits. -/
def encodeFrame (recordType : UInt8) (payload : Bytes) : Bytes :=
  uint32BE (UInt32.ofNat (1 + payload.length + 4)) ++ (recordType :: payload ++ uint32BE (crc (recordType :: payload)))

def readBody (body : Bytes) : Except ReplayError Record :=
  let content := body.take (body.length - 4)
  if crc content ≠ uint32OfBE (body.drop (body.length - 4)) then .error .crcMismatch
  else decodeFramePayload (content.headD 0) content.tail

def readFrame (bytes : Bytes) : Except ReplayError (Record × Bytes) := do
  let (header, rest) ← readFull 4 bytes
  let length := uint32OfBE header
  if length < 5 then .error .lengthTooSmall
  let (body, rest) ← readFull length.toNat rest
  let record ← readBody crc body
  return (record, rest)

def walSegmentMagic : Bytes := [77, 84, 83, 87, 65, 76, 50]

def segmentHeaderBody : Bytes := walSegmentMagic ++ leBytes 2 2 ++ leBytes 2 walSegmentHeaderLen

def segmentHeader : Bytes := segmentHeaderBody ++ leBytes 4 (crc segmentHeaderBody).toNat

def checkSegmentHeader (header : Bytes) : Except ReplayError Unit :=
  let formatID := leValue ((header.drop 7).take 2)
  let headerLen := leValue ((header.drop 9).take 2)
  if header.take 7 ≠ walSegmentMagic then .error .magicMismatch
  else if formatID ≠ 2 then .error (.formatID formatID)
  else if headerLen ≠ walSegmentHeaderLen then .error (.headerLength headerLen)
  else if (crc (header.take 11)).toNat ≠ leValue (header.drop 11) then .error .headerCRCMismatch
  else .ok ()

def readSegmentHeader (bytes : Bytes) : Except ReplayError Bytes := do
  let (header, rest) ← readFull walSegmentHeaderLen bytes
  checkSegmentHeader crc header
  return rest

/-- The records up to the end of the file, and where to cut it off. -/
def replayFrames (isLast : Bool) : Nat → Nat → Bytes → Except ReplayError (List Record × Option Nat)
  | 0, _, _ => .ok ([], none)
  | fuel + 1, offset, bytes =>
    match readFrame crc bytes with
    | .ok (record, rest) => do
      let (records, cut) ← replayFrames isLast fuel (offset + (bytes.length - rest.length)) rest
      return (record :: records, cut)
    | .error .eof => .ok ([], none)
    | .error e => if isLast ∧ e = .unexpectedEOF then .ok ([], some offset) else .error e

/-- `replayOpenSegment`: a frame takes bytes, so that the loop ends within the length of the file. -/
def replaySegment (isLast : Bool) (data : Bytes) : Except ReplayError (List Record × Option Nat) := do
  let rest ← readSegmentHeader crc data
  replayFrames crc isLast (rest.length + 1) walSegmentHeaderLen rest

/-- A record with the frame that holds it: the payload decodes and the length of the body fits. -/
structure Frame where
  recordType : UInt8
  payload : Bytes
  record : Record
  decodes : decodeFramePayload recordType payload = .ok record
  sized : 1 + payload.length + 4 < 2 ^ 32

variable {frames : List Frame}

def Frame.body (f : Frame) : Bytes := f.recordType :: f.payload ++ uint32BE (crc (f.recordType :: f.payload))

def Frame.bytes (f : Frame) : Bytes := encodeFrame crc f.recordType f.payload

section
variable (f : Frame)
include f

theorem Frame.length_body : (f.body crc).length = 1 + f.payload.length + 4 := by
  rw [Frame.body, length_append, length_cons, length_uint32BE]
  omega

theorem Frame.bytes_eq : f.bytes crc = uint32BE (UInt32.ofNat (f.body crc).length) ++ f.body crc := by
  rw [Frame.length_body]
  rfl

theorem Frame.toNat_length : (UInt32.ofNat (f.body crc).length).toNat = (f.body crc).length := by
  have h := f.sized
  rw [← Frame.length_body crc] at h
  rw [UInt32.toNat_ofNat', Nat.mod_eq_of_lt h]

theorem Frame.length_bytes : (f.bytes crc).length = 4 + (f.body crc).length := by
  rw [Frame.bytes_eq, length_append, length_uint32BE]

theorem Frame.five_le : 5 ≤ (f.body crc).length := by
  rw [Frame.length_body]
  omega

theorem Frame.not_small : ¬ UInt32.ofNat (f.body crc).length < 5 := by
  have h := f.five_le crc
  rw [UInt32.lt_iff_toNat_lt, f.toNat_length crc]
  exact Nat.not_lt.mpr h

theorem readBody_body : readBody crc (f.body crc) = .ok f.record := by
  have hlen : (f.body crc).length - 4 = (f.recordType :: f.payload).length := by
    rw [Frame.length_body, length_cons]
    omega
  rw [readBody, hlen, Frame.body, take_left' rfl, drop_left' rfl, uint32OfBE_uint32BE, if_neg (by simp)]
  exact f.decodes

theorem readFrame_header (rest : Bytes) :
    readFrame crc (uint32BE (UInt32.ofNat (f.body crc).length) ++ rest) = do
      let (body, rest) ← readFull (f.body crc).length rest
      let record ← readBody crc body
      return (record, rest) := by
  rw [readFrame, readFull_append (length_uint32BE _)]
  change (if uint32OfBE (uint32BE _) < 5 then _ else _ : Except _ _) = _
  rw [uint32OfBE_uint32BE, if_neg (f.not_small crc), f.toNat_length crc]

theorem readFrame_bytes (rest : Bytes) : readFrame crc (f.bytes crc ++ rest) = .ok (f.record, rest) := by
  rw [Frame.bytes_eq, append_assoc, readFrame_header, readFull_append rfl]
  change (readBody crc (f.body crc) >>= fun record => .ok (record, rest)) = _
  rw [readBody_body]
  rfl

end

theorem readFrame_ok (h : readFrame crc bytes = .ok (record, rest)) :
    ∃ f : Frame, f.bytes crc ++ rest = bytes ∧ f.record = record := by
  obtain ⟨⟨header, _⟩, hheader, hrest⟩ := except_bind_ok h
  obtain ⟨rfl, hfour⟩ := readFull_ok hheader
  dsimp only at hrest
  split at hrest
  · simp [bind, Except.bind] at hrest
  next hlong =>
  obtain ⟨⟨body, _⟩, hfull, hrecord⟩ := except_bind_ok hrest
  obtain ⟨rfl, hlength⟩ := readFull_ok hfull
  obtain ⟨_, hbody, heq⟩ := except_bind_ok hrecord
  cases heq
  rw [UInt32.lt_iff_toNat_lt, ← hlength] at hlong
  change ¬ body.length < 5 at hlong
  have hsized := UInt32.toNat_lt (uint32OfBE header)
  obtain ⟨recordType, payload, hcontent⟩ := exists_cons_of_length_pos (l := body.take (body.length - 4)) (by simp; omega)
  have hlen := congrArg length hcontent
  rw [length_take, length_cons] at hlen
  dsimp only [readBody] at hbody
  rw [hcontent] at hbody
  split_ifs at hbody with hcrc
  refine ⟨⟨recordType, payload, record, hbody, by omega⟩, ?_, rfl⟩
  rw [Frame.bytes, encodeFrame, not_not.mp hcrc, uint32BE_uint32OfBE (by simp; omega), ← hcontent, take_append_drop,
    show 1 + payload.length + 4 = (uint32OfBE header).toNat by omega, UInt32.ofNat_toNat,
    uint32BE_uint32OfBE hfour, append_assoc]

theorem readFrame_nil : readFrame crc [] = .error .eof := by
  rfl

theorem readFrame_take (f : Frame) (h : k < (f.bytes crc).length) :
    readFrame crc ((f.bytes crc).take k) = .error (if k = 0 ∨ k = 4 then .eof else .unexpectedEOF) := by
  rw [Frame.length_bytes] at h
  by_cases hhead : k < 4
  · -- the length itself is cut off
    have hlen : ((f.bytes crc).take k).length = k := by
      rw [length_take, Frame.length_bytes]
      omega
    rcases Nat.eq_zero_or_pos k with rfl | hpos
    · rw [take_zero]
      exact readFrame_nil crc
    · have hne : (f.bytes crc).take k ≠ [] := ne_nil_of_length_pos (by omega)
      rw [readFrame, readFull_short hne (by omega), if_neg (by omega)]
      rfl
  · have htake : (f.bytes crc).take k =
        uint32BE (UInt32.ofNat (f.body crc).length) ++ (f.body crc).take (k - 4) := by
      rw [Frame.bytes_eq, take_append, length_uint32BE, take_of_length_le (by simp; omega)]
    rw [htake, readFrame_header]
    by_cases hfour : k = 4
    · subst hfour
      rfl
    · have hlen : ((f.body crc).take (k - 4)).length = k - 4 := by
        rw [length_take]
        omega
      rw [readFull_short (ne_nil_of_length_pos (by omega)) (by omega), if_neg (by omega)]
      rfl

def frameBytes (frames : List Frame) : Bytes := frames.flatMap (Frame.bytes crc)

@[simp] theorem frameBytes_nil : frameBytes crc [] = [] := rfl

@[simp] theorem frameBytes_cons (f : Frame) (frames : List Frame) :
    frameBytes crc (f :: frames) = f.bytes crc ++ frameBytes crc frames := flatMap_cons ..

@[simp] theorem frameBytes_append (frames frames' : List Frame) :
    frameBytes crc (frames ++ frames') = frameBytes crc frames ++ frameBytes crc frames' := flatMap_append ..

theorem length_le_frameBytes (frames : List Frame) : frames.length ≤ (frameBytes crc frames).length :=
  length_le_flatMap fun f _ => ne_nil_of_length_pos (by rw [f.length_bytes crc]; omega)

/-- The reader goes over whole frames and then reads what comes after them. -/
theorem replayFrames_frameBytes (isLast : Bool) (frames : List Frame) (tail : Bytes) (fuel offset : Nat) :
    replayFrames crc isLast (frames.length + fuel) offset (frameBytes crc frames ++ tail) =
      (replayFrames crc isLast fuel (offset + (frameBytes crc frames).length) tail).map
        fun r => (frames.map Frame.record ++ r.1, r.2) := by
  induction frames generalizing offset with
  | nil =>
    rw [length_nil, Nat.zero_add, frameBytes_nil, nil_append, length_nil, Nat.add_zero]
    cases replayFrames crc isLast fuel offset tail <;> rfl
  | cons f frames ih =>
    have hstep : ∀ rest, offset + ((f.bytes crc ++ rest).length - rest.length) = offset + (f.bytes crc).length := by
      intro rest
      rw [length_append, Nat.add_sub_cancel]
    rw [length_cons, Nat.add_right_comm, frameBytes_cons, append_assoc, replayFrames, readFrame_bytes]
    dsimp only
    rw [hstep, ih, length_append, Nat.add_assoc]
    cases replayFrames crc isLast fuel (offset + ((f.bytes crc).length + (frameBytes crc frames).length)) tail <;> rfl

theorem length_segmentHeader : (segmentHeader crc).length = walSegmentHeaderLen := by
  rfl

theorem checkSegmentHeader_segmentHeader : checkSegmentHeader crc (segmentHeader crc) = .ok () := by
  have hcrc : leValue (leBytes 4 (crc segmentHeaderBody).toNat) = (crc segmentHeaderBody).toNat :=
    leValue_leBytes 4 _ (UInt32.toNat_lt _)
  have hbody : segmentHeaderBody.length = 11 := rfl
  have hmagic : (segmentHeader crc).take 7 = walSegmentMagic := rfl
  have hformat : leValue (((segmentHeader crc).drop 7).take 2) = 2 := rfl
  have hlength : leValue (((segmentHeader crc).drop 9).take 2) = walSegmentHeaderLen := rfl
  rw [checkSegmentHeader, if_neg (not_not.mpr hmagic)]
  rw [if_neg (not_not.mpr hformat), if_neg (not_not.mpr hlength), segmentHeader, take_left' hbody,
    drop_left' hbody, hcrc, if_neg (not_not.mpr rfl)]

theorem checkSegmentHeader_ok (hlen : header.length = 15) (h : checkSegmentHeader crc header = .ok ()) :
    header = segmentHeader crc := by
  unfold checkSegmentHeader at h
  dsimp only at h
  split_ifs at h with hmagic hformat hsize hcrc
  have hbody : header.take 11 = segmentHeaderBody := by
    rw [segmentHeaderBody, ← not_not.mp hmagic, leBytes_of_leValue (by simp; omega) (not_not.mp hformat),
      leBytes_of_leValue (by simp; omega) (not_not.mp hsize), ← take_add, ← take_add]
  rw [segmentHeader, ← hbody, leBytes_of_leValue (by simp; omega) (not_not.mp hcrc).symm, take_append_drop]

theorem readSegmentHeader_segmentHeader (rest : Bytes) :
    readSegmentHeader crc (segmentHeader crc ++ rest) = .ok rest := by
  change (checkSegmentHeader crc (segmentHeader crc) >>= fun _ => .ok rest) = _
  rw [checkSegmentHeader_segmentHeader]
  rfl

def segmentBytes (frames : List Frame) (tail : Bytes) : Bytes := segmentHeader crc ++ (frameBytes crc frames ++ tail)

theorem replaySegment_segmentBytes (isLast : Bool) (frames : List Frame) (tail : Bytes) :
    ∃ fuel, replaySegment crc isLast (segmentBytes crc frames tail) =
      (replayFrames crc isLast (fuel + 1) (segmentBytes crc frames []).length tail).map
        fun r => (frames.map Frame.record ++ r.1, r.2) := by
  have hle := length_le_frameBytes crc frames
  refine ⟨(frameBytes crc frames ++ tail).length - frames.length, ?_⟩
  have hfuel : (frameBytes crc frames ++ tail).length + 1 =
      frames.length + ((frameBytes crc frames ++ tail).length - frames.length + 1) := by
    rw [length_append]
    omega
  have hoffset : (segmentBytes crc frames []).length = walSegmentHeaderLen + (frameBytes crc frames).length := by
    rw [segmentBytes, append_nil, length_append, length_segmentHeader]
  rw [replaySegment, segmentBytes, readSegmentHeader_segmentHeader]
  change replayFrames crc isLast ((frameBytes crc frames ++ tail).length + 1) _ _ = _
  rw [hoffset, hfuel, replayFrames_frameBytes]

theorem replaySegment_of_eof (h : readFrame crc tail = .error .eof) :
    replaySegment crc isLast (segmentBytes crc frames tail) = .ok (frames.map Frame.record, none) := by
  obtain ⟨fuel, hreplay⟩ := replaySegment_segmentBytes crc isLast frames tail
  rw [hreplay, replayFrames, h]
  change Except.ok (_ ++ [], none) = _
  rw [append_nil]

theorem replaySegment_of_unexpectedEOF (h : readFrame crc tail = .error .unexpectedEOF) :
    replaySegment crc true (segmentBytes crc frames tail) =
      .ok (frames.map Frame.record, some (segmentBytes crc frames []).length) := by
  obtain ⟨fuel, hreplay⟩ := replaySegment_segmentBytes crc true frames tail
  rw [hreplay, replayFrames, h]
  change Except.ok (_ ++ [], _) = _
  rw [append_nil]

theorem replaySegment_of_error (h : readFrame crc tail = .error e) (heof : e ≠ .eof)
    (hrest : ¬ (isLast ∧ e = .unexpectedEOF)) :
    replaySegment crc isLast (segmentBytes crc frames tail) = .error e := by
  obtain ⟨fuel, hreplay⟩ := replaySegment_segmentBytes crc isLast frames tail
  rw [hreplay, replayFrames, h]
  cases e with
  | eof => exact absurd rfl heof
  | _ =>
    dsimp only
    rw [if_neg hrest]
    rfl

/-- Where the reader stops: at the end of the file, or in the last file at a frame that is cut off. -/
def Stops (isLast : Bool) (size : Nat) (tail : Bytes) : Option Nat → Prop
  | none => readFrame crc tail = .error .eof
  | some cut => readFrame crc tail = .error .unexpectedEOF ∧ isLast ∧ cut = size

theorem replayFrames_ok (hfuel : bytes.length < fuel)
    (h : replayFrames crc isLast fuel offset bytes = .ok (records, cut)) :
    ∃ frames tail, bytes = frameBytes crc frames ++ tail ∧ records = frames.map Frame.record ∧
      Stops crc isLast (offset + (frameBytes crc frames).length) tail cut := by
  induction fuel generalizing offset bytes records with
  | zero => omega
  | succ fuel ih =>
    rw [replayFrames] at h
    split at h
    · next record rest hframe =>
      obtain ⟨_, hlater, heq⟩ := except_bind_ok h
      cases heq
      obtain ⟨f, rfl, rfl⟩ := readFrame_ok crc hframe
      rw [length_append, f.length_bytes crc] at hfuel
      obtain ⟨frames, tail, rfl, hrecords, hstops⟩ := ih (by omega) hlater
      rw [length_append, Nat.add_sub_cancel, Nat.add_assoc, ← length_append, ← frameBytes_cons] at hstops
      exact ⟨f :: frames, tail, by simp, congrArg _ hrecords, hstops⟩
    · next heof =>
      cases h
      exact ⟨[], bytes, rfl, rfl, heof⟩
    · next herror =>
      split_ifs at h with hlast
      cases h
      exact ⟨[], bytes, rfl, rfl, hlast.2 ▸ herror, hlast.1, rfl⟩

/-- A segment is accepted exactly if it is a header, whole frames that decode and a tail at which the reader stops. -/
theorem replaySegment_ok_iff : replaySegment crc isLast data = .ok (records, cut) ↔
    ∃ frames tail, data = segmentBytes crc frames tail ∧ records = frames.map Frame.record ∧
      Stops crc isLast (segmentBytes crc frames []).length tail cut := by
  constructor
  · intro h
    obtain ⟨_, hrest, hframes⟩ := except_bind_ok h
    obtain ⟨⟨header, _⟩, hfull, hcheck⟩ := except_bind_ok hrest
    obtain ⟨rfl, hlen⟩ := readFull_ok hfull
    obtain ⟨_, hchecked, heq⟩ := except_bind_ok hcheck
    cases heq
    obtain rfl := checkSegmentHeader_ok crc hlen hchecked
    obtain ⟨frames, tail, rfl, hrecords, hstops⟩ := replayFrames_ok crc (Nat.lt_succ_self _) hframes
    refine ⟨frames, tail, rfl, hrecords, ?_⟩
    rwa [segmentBytes, append_nil, length_append]
  · rintro ⟨frames, tail, rfl, rfl, hstops⟩
    cases cut with
    | none => exact replaySegment_of_eof crc hstops
    | some cut =>
      obtain ⟨htail, rfl, rfl⟩ := hstops
      exact replaySegment_of_unexpectedEOF crc htail

end Frames

end Mts.Wal
