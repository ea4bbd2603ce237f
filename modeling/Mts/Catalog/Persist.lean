import Mts.Catalog.Resolve
import Mts.Wal.BatchRoundTrip

/-! The snapshot file and the log file of the catalog, `catalog/persist.go`, with the envelope of
`codec/envelope.go` around the snapshot and each record, and the opening of a catalog directory. The checksum is
a parameter. Snapshot and metadata file are replaced atomically; the encoding of the metadata is left out. -/

set_option linter.dupNamespace false

namespace Mts.Catalog
open Lib Model Wal List

inductive OpenError
  | tooShort (length : Nat) | magic | crcMismatch | payloadLength | payloadTruncated | trailingBeforeCRC
  | recordLength | frameTruncated | recordType (type : UInt8)
  | invalidUvarint (name : String) | countOverflow (name : String) (value : UInt64)
  | stringLength (name : String) | stringTruncated (name : String) | missingByte (name : String)
  | overflow32 (name : String) (value : UInt64) | fieldType (type : UInt8)
  | trailing (name : String) (count : Nat)
  deriving DecidableEq

/-- `MTSCAT2`. -/
def catalogMagic : Bytes := [77, 84, 83, 67, 65, 84, 50]

section Encoding

def seriesBytes (s : Series) : Bytes := uvarint s.id ++ stringBytes s.measurement ++ tagsBytes s.tags

def fieldBytes (f : Field) : Bytes :=
  uvarint f.id.toUInt64 ++ stringBytes f.measurement ++ stringBytes f.name ++ [f.type]

def encodeWALEntry : WalEntry → Bytes
  | .series s => 1 :: seriesBytes s
  | .field f => 2 :: fieldBytes f

def snapshotPayload (snap : SnapshotData) : Bytes :=
  uvarint snap.nextSeriesID ++ (uvarint snap.nextFieldID.toUInt64 ++
    (uvarint (UInt64.ofNat snap.series.length) ++ snap.series.flatMap seriesBytes ++
      (uvarint (UInt64.ofNat snap.fields.length) ++ snap.fields.flatMap fieldBytes)))

variable (crc : Bytes → UInt32)

/-- The envelope before its checksum; a magic has seven bytes. -/
def envelopeBody (magic : Bytes) (flags : UInt16) (payload : Bytes) : Bytes :=
  magic ++ leBytes 2 flags.toNat ++ uvarint (UInt64.ofNat payload.length) ++ payload

def marshalEnvelope (magic : Bytes) (flags : UInt16) (payload : Bytes) : Bytes :=
  envelopeBody magic flags payload ++ leBytes 4 (crc (envelopeBody magic flags payload)).toNat

def encodeSnapshot (snap : SnapshotData) : Bytes := marshalEnvelope crc catalogMagic 0 (snapshotPayload snap)

def walFrame (entry : WalEntry) : Bytes := marshalEnvelope crc catalogMagic 0 (encodeWALEntry entry)

def recordBytes (entry : WalEntry) : Bytes := uvarint (UInt64.ofNat (walFrame crc entry).length) ++ walFrame crc entry

def LogWrite.bytes (w : LogWrite) : Bytes :=
  match w.written with
  | .whole => recordBytes crc w.entry
  | .part n => (recordBytes crc w.entry).take n

def Disk.walBytes (d : Disk) : Bytes := d.wal.flatMap (LogWrite.bytes crc)

end Encoding

section Reading

abbrev PayloadReader := Parser OpenError

namespace PayloadReader

def uvarint (name : String) : PayloadReader UInt64 := Parser.uvarint (.invalidUvarint name)

def intCount (name : String) : PayloadReader Nat := Parser.intCount (.invalidUvarint name) (.countOverflow name)

def string (name : String) : PayloadReader GoString := Parser.string (.stringLength name) (.stringTruncated name)

def byte (name : String) : PayloadReader UInt8 := Parser.byte (.missingByte name)

def done (name : String) : PayloadReader Unit := Parser.done (.trailing name)

end PayloadReader

open PayloadReader

def uint32Value (name : String) (value : UInt64) : PayloadReader UInt32 :=
  if value.toNat > 2 ^ 32 - 1 then .fail (.overflow32 name value) else return value.toUInt32

def readCatalogTagPair : PayloadReader (GoString × GoString) := do
  let key ← string "tag key"
  let value ← string "tag value"
  return (key, value)

def readCatalogTags : PayloadReader TagMap := do
  let count ← intCount "tag count"
  let pairs ← Parser.times count readCatalogTagPair
  return pairs.foldl setTag TagMap.empty

def readSeries : PayloadReader Series := do
  let id ← uvarint "series id"
  let measurement ← string "series measurement"
  let tags ← readCatalogTags
  return ⟨id, measurement, tags⟩

def validFieldType : UInt8 → Bool
  | 1 | 2 | 3 | 4 => true
  | _ => false

def readField : PayloadReader Field := do
  let id ← uvarint "field id"
  let fieldID ← uint32Value "field id" id
  let measurement ← string "field measurement"
  let name ← string "field name"
  let type ← byte "field type"
  if validFieldType type then return ⟨fieldID, measurement, name, type⟩ else .fail (.fieldType type)

def readSeriesList : PayloadReader (List Series) := do
  let count ← intCount "series count"
  Parser.times count readSeries

def readFieldList : PayloadReader (List Field) := do
  let count ← intCount "field count"
  Parser.times count readField

def readSnapshotPayload : PayloadReader SnapshotData := do
  let nextSeriesID ← uvarint "next series id"
  let nextFieldID ← uvarint "next field id"
  let nextField ← uint32Value "next field id" nextFieldID
  let series ← readSeriesList
  let fields ← readFieldList
  return ⟨nextSeriesID, nextField, series, fields⟩

def readWALEntry : PayloadReader WalEntry := do
  let type ← byte "record type"
  match type with
  | 1 => do return .series (← readSeries)
  | 2 => do return .field (← readField)
  | _ => .fail (.recordType type)

variable (crc : Bytes → UInt32)

def envelopePayload (data : Bytes) : Except OpenError Bytes :=
  let limit := data.length - 4
  if (crc (data.take limit)).toNat ≠ leValue (data.drop limit) then .error .crcMismatch
  else
    match readUvarint (data.drop 9) with
    | none => .error .payloadLength
    | some (length, rest) =>
      let start := data.length - rest.length
      if limit < start ∨ limit - start < length.toNat then .error .payloadTruncated
      else if start + length.toNat ≠ limit then .error .trailingBeforeCRC
      else .ok (rest.take length.toNat)

def unmarshalEnvelope (data want : Bytes) : Except OpenError Bytes :=
  if data.length < 13 then .error (.tooShort data.length)
  else if data.take 7 ≠ want then .error .magic
  else envelopePayload crc data

def decodeEnvelope {α : Type} (read : PayloadReader α) (name : String) (data : Bytes) : Except OpenError α := do
  let payload ← unmarshalEnvelope crc data catalogMagic
  let (a, _) ← (do
    let a ← read
    done name
    return a : PayloadReader α) payload
  return a

def decodeSnapshot (data : Bytes) : Except OpenError SnapshotData :=
  decodeEnvelope crc readSnapshotPayload "catalog snapshot" data

def decodeWALFrame (frame : Bytes) : Except OpenError WalEntry :=
  decodeEnvelope crc readWALEntry "catalog wal record" frame

def decodeWALRecord (data : Bytes) : Except OpenError (WalEntry × Bytes) :=
  match readUvarint data with
  | none => .error .recordLength
  | some (length, rest) =>
    if rest.length < length.toNat then .error .frameTruncated
    else do
      let entry ← decodeWALFrame crc (rest.take length.toNat)
      return (entry, rest.drop length.toNat)

def Catalog.applyEntry (c : Catalog) : WalEntry → Catalog
  | .series s => c.applySeries s
  | .field f => c.applyField f

def Catalog.replayEntry (c : Catalog) (entry : WalEntry) : Catalog :=
  { c.applyEntry entry with snapshotDirtyRecords := c.snapshotDirtyRecords + 1 }

/-- The loop of `replayWAL`; each record takes at least one byte. -/
def replayLoop : Nat → Bytes → Catalog → Except OpenError Catalog
  | _, [], c => .ok c
  | 0, _ :: _, _ => .error .recordLength
  | fuel + 1, data, c => do
    let (entry, rest) ← decodeWALRecord crc data
    replayLoop fuel rest (c.replayEntry entry)

def replayWAL (data : Bytes) (c : Catalog) : Except OpenError Catalog := replayLoop crc data.length data c

def Catalog.applySnapshot (c : Catalog) (snap : SnapshotData) : Catalog :=
  let c := { c with
    nextSeriesID := if snap.nextSeriesID < 1 then 1 else snap.nextSeriesID
    nextFieldID := if snap.nextFieldID < 1 then 1 else snap.nextFieldID }
  snap.fields.foldl Catalog.applyField (snap.series.foldl Catalog.applySeries c)

def loadSnapshot (c : Catalog) : Option SnapshotData → Except OpenError Catalog
  | none => .ok c
  | some snap => (decodeSnapshot crc (encodeSnapshot crc snap)).map c.applySnapshot

def loadMetadata (c : Catalog) : Option Metadata → Catalog
  | none => c
  | some m => { c with databases := m.databases, policies := m.policies }

/-- `OpenWithOptions` on a directory. -/
def openCatalog (limits : Limits) (d : Disk) : Except OpenError Catalog := do
  let c ← loadSnapshot crc (newCatalog limits) d.snapshot
  let c ← replayWAL crc (d.walBytes crc) c
  return loadMetadata c d.metadata

end Reading

section RoundTrip

variable {entry : WalEntry} {payload : Bytes} {snap : SnapshotData}

def EntrySized : WalEntry → Prop
  | .series s => IntSized s.measurement.length ∧ IntSized s.tags.entries.length ∧
      ∀ e ∈ s.tags.entries, IntSized e.1.length ∧ IntSized e.2.length
  | .field f => IntSized f.measurement.length ∧ IntSized f.name.length

theorem parses_catalogTags (hcount : IntSized tags.entries.length)
    (hsized : ∀ e ∈ tags.entries, IntSized e.1.length ∧ IntSized e.2.length) :
    Parses readCatalogTags (tagsBytes tags) tags := by
  refine (Parser.parses_intCount _ _ hcount).bind ?_
  have hpairs : Parses (Parser.times tags.entries.length readCatalogTagPair) _ tags.entries :=
    parses_times_self fun e he => (Parser.parses_string _ _ (hsized e he).1).bind
      ((Parser.parses_string _ _ (hsized e he).2).map fun value => (e.1, value))
  have hread := hpairs.map fun pairs => pairs.foldl setTag TagMap.empty
  rwa [show tags.entries.foldl setTag TagMap.empty = tags from tags.foldl_set_entries] at hread

theorem parses_series (h : EntrySized (.series s)) : Parses readSeries (seriesBytes s) s := by
  obtain ⟨hm, hcount, htags⟩ := h
  unfold seriesBytes
  rw [append_assoc]
  refine (Parser.parses_uvarint _ s.id).bind ?_
  refine (Parser.parses_string _ _ hm).bind ?_
  exact (parses_catalogTags hcount htags).map fun tags => (⟨s.id, s.measurement, tags⟩ : Series)

theorem parses_uint32Value (name : String) (id : UInt32) : Parses (uint32Value name id.toUInt64) [] id := by
  have hlt := id.toNat_lt
  rw [uint32Value, UInt32.toNat_toUInt64, if_neg (by omega), UInt32.toUInt32_toUInt64]
  exact parses_pure id

def WalEntry.Supported : WalEntry → Prop
  | .series _ => True
  | .field f => validFieldType f.type

instance : DecidablePred WalEntry.Supported
  | .series _ => inferInstanceAs (Decidable True)
  | .field f => inferInstanceAs (Decidable (validFieldType f.type = true))

theorem parses_field (h : EntrySized (.field f)) (htype : validFieldType f.type) :
    Parses readField (fieldBytes f) f := by
  obtain ⟨hm, hname⟩ := h
  unfold fieldBytes
  rw [append_assoc, append_assoc]
  refine (Parser.parses_uvarint _ f.id.toUInt64).bind ?_
  refine (parses_uint32Value _ f.id).bind ?_
  refine (Parser.parses_string _ _ hm).bind ?_
  refine (Parser.parses_string _ _ hname).bind ?_
  refine (Parser.parses_byte _ f.type).bind_nil ?_
  rw [if_pos htype]
  exact parses_pure f

theorem parses_WALEntry (h : EntrySized entry) (htype : entry.Supported) :
    Parses readWALEntry (encodeWALEntry entry) entry := by
  cases entry with
  | series s => exact (Parser.parses_byte _ 1).bind ((parses_series h).map WalEntry.series)
  | field f => exact (Parser.parses_byte _ 2).bind ((parses_field h htype).map WalEntry.field)

variable (crc : Bytes → UInt32)

theorem unmarshalEnvelope_marshalEnvelope (flags : UInt16) (hmagic : magic.length = 7)
    (hsized : IntSized payload.length) :
    unmarshalEnvelope crc (marshalEnvelope crc magic flags payload) magic = .ok payload := by
  have hbody : (envelopeBody magic flags payload).length =
      9 + (uvarint (UInt64.ofNat payload.length)).length + payload.length := by
    simp only [envelopeBody, length_append, hmagic, length_leBytes]
  have hlen : (marshalEnvelope crc magic flags payload).length = (envelopeBody magic flags payload).length + 4 := by
    rw [marshalEnvelope, length_append, length_leBytes]
  have htake : (marshalEnvelope crc magic flags payload).take 7 = magic := by
    rw [marshalEnvelope, envelopeBody, append_assoc, append_assoc, append_assoc]
    exact take_left' hmagic
  have hhead : (marshalEnvelope crc magic flags payload).drop 9 =
      uvarint (UInt64.ofNat payload.length) ++
        (payload ++ leBytes 4 (crc (envelopeBody magic flags payload)).toNat) := by
    have hnine : (magic ++ leBytes 2 flags.toNat).length = 9 := by rw [length_append, hmagic, length_leBytes]
    rw [marshalEnvelope, envelopeBody, append_assoc, append_assoc]
    exact drop_left' hnine
  have hcrc : leValue (leBytes 4 (crc (envelopeBody magic flags payload)).toNat) =
      (crc (envelopeBody magic flags payload)).toNat := leValue_leBytes 4 _ (UInt32.toNat_lt _)
  rw [unmarshalEnvelope, if_neg (by omega), htake, if_neg (by simp), envelopePayload, hlen, Nat.add_sub_cancel]
  rw [marshalEnvelope, take_left' rfl, drop_left' rfl, hcrc, if_neg (by simp), ← marshalEnvelope, hhead,
    readUvarint_append]
  dsimp only
  rw [length_append, length_leBytes, hsized.toNat]
  rw [if_neg (by omega), if_neg (by omega), take_left' rfl]

theorem decodeEnvelope_marshalEnvelope {α : Type} {read : PayloadReader α} {a : α}
    (hread : Parses read payload a) (hsized : IntSized payload.length) :
    decodeEnvelope crc read name (marshalEnvelope crc catalogMagic 0 payload) = .ok a := by
  have hrun := hread.run (f := fun a => (do PayloadReader.done name; return a : PayloadReader α)) []
  rw [append_nil] at hrun
  rw [decodeEnvelope, unmarshalEnvelope_marshalEnvelope crc 0 rfl hsized]
  change (Except.bind (_ : Except OpenError (α × Bytes)) _) = _
  rw [hrun]
  rfl

structure RecordSized (entry : WalEntry) : Prop where
  strings : EntrySized entry
  supported : entry.Supported
  payload : IntSized (encodeWALEntry entry).length
  frame : IntSized (walFrame crc entry).length

variable {crc}

theorem length_le_stringBytes (s : GoString) : s.length ≤ (stringBytes s).length := by
  rw [stringBytes, length_append]
  omega

theorem le_length_tagPairs (es : List (GoString × GoString)) :
    es.length ≤ (es.flatMap fun e => stringBytes e.1 ++ stringBytes e.2).length ∧
      ∀ e ∈ es, e.1.length ≤ (es.flatMap fun e => stringBytes e.1 ++ stringBytes e.2).length ∧
        e.2.length ≤ (es.flatMap fun e => stringBytes e.1 ++ stringBytes e.2).length := by
  induction es with
  | nil => simp
  | cons e es ih =>
    have hpos : 0 < (stringBytes e.1).length := by
      rw [stringBytes, length_append]
      have := length_pos_of_ne_nil (uvarint_ne_nil (UInt64.ofNat e.1.length))
      omega
    have hname := length_le_stringBytes e.1
    have hvalue := length_le_stringBytes e.2
    simp only [flatMap_cons, length_append, length_cons]
    refine ⟨by omega, fun x hx => ?_⟩
    rcases mem_cons.mp hx with rfl | hx
    · omega
    · have := ih.2 x hx
      omega

theorem entrySized_of_payload (h : IntSized (encodeWALEntry entry).length) : EntrySized entry := by
  cases entry with
  | series s =>
    have hm := length_le_stringBytes s.measurement
    obtain ⟨hcount, htags⟩ := le_length_tagPairs s.tags.entries
    simp only [encodeWALEntry, seriesBytes, tagsBytes, length_cons, length_append] at h
    refine ⟨h.mono (by omega), h.mono (by omega), fun e he => ?_⟩
    have := htags e he
    exact ⟨h.mono (by omega), h.mono (by omega)⟩
  | field f =>
    have hm := length_le_stringBytes f.measurement
    have hname := length_le_stringBytes f.name
    simp only [encodeWALEntry, fieldBytes, length_cons, length_append] at h
    exact ⟨h.mono (by omega), h.mono (by omega)⟩

theorem recordSized_of_frame (h : IntSized (walFrame crc entry).length) (htype : entry.Supported) :
    RecordSized crc entry := by
  have hframe : (encodeWALEntry entry).length ≤ (walFrame crc entry).length := by
    simp only [walFrame, marshalEnvelope, envelopeBody, length_append]
    omega
  exact ⟨entrySized_of_payload (h.mono hframe), htype, h.mono hframe, h⟩

theorem decodeWALRecord_append (h : RecordSized crc entry) (rest : Bytes) :
    decodeWALRecord crc (recordBytes crc entry ++ rest) = .ok (entry, rest) := by
  rw [decodeWALRecord, recordBytes, append_assoc, readUvarint_append]
  dsimp only
  rw [h.frame.toNat, if_neg (by simp), take_left' rfl, drop_left' rfl,
    decodeWALFrame, walFrame, decodeEnvelope_marshalEnvelope crc (parses_WALEntry h.strings h.supported) h.payload]
  rfl

theorem recordBytes_ne_nil (entry : WalEntry) : recordBytes crc entry ≠ [] := by
  intro h
  exact uvarint_ne_nil _ (append_eq_nil_iff.mp h).1

theorem replayLoop_records {entries : List WalEntry} (h : ∀ e ∈ entries, RecordSized crc e)
    (hfuel : (entries.flatMap (recordBytes crc)).length ≤ fuel) (c : Catalog) :
    replayLoop crc fuel (entries.flatMap (recordBytes crc)) c = .ok (entries.foldl Catalog.replayEntry c) := by
  induction entries generalizing fuel c with
  | nil => cases fuel <;> rfl
  | cons e entries ih =>
    obtain ⟨he, hes⟩ := forall_mem_cons.mp h
    rw [flatMap_cons] at hfuel ⊢
    have hpos : 0 < (recordBytes crc e).length := length_pos_of_ne_nil (recordBytes_ne_nil e)
    rw [length_append] at hfuel
    cases fuel with
    | zero => omega
    | succ fuel =>
      have hstep : replayLoop crc (fuel + 1) (recordBytes crc e ++ entries.flatMap (recordBytes crc)) c =
          (do
            let (entry, rest) ← decodeWALRecord crc (recordBytes crc e ++ entries.flatMap (recordBytes crc))
            replayLoop crc fuel rest (c.replayEntry entry)) := by
        cases hdata : recordBytes crc e ++ entries.flatMap (recordBytes crc) with
        | nil => exact absurd (append_eq_nil_iff.mp hdata).1 (recordBytes_ne_nil e)
        | cons b data => rfl
      rw [hstep, decodeWALRecord_append he]
      exact ih hes (by omega) _

def SnapshotData.entries (snap : SnapshotData) : List WalEntry :=
  snap.series.map WalEntry.series ++ snap.fields.map WalEntry.field

structure SnapshotData.Readable (snap : SnapshotData) : Prop where
  payload : IntSized (snapshotPayload snap).length
  supported : ∀ e ∈ snap.entries, e.Supported

theorem seriesBytes_ne_nil (s : Series) : seriesBytes s ≠ [] := by
  simp [seriesBytes, uvarint_ne_nil]

theorem fieldBytes_ne_nil (f : Field) : fieldBytes f ≠ [] := by simp [fieldBytes]

theorem parses_snapshotPayload (h : snap.Readable) : Parses readSnapshotPayload (snapshotPayload snap) snap := by
  have hpayload := h.payload
  have hfirst := length_pos_of_ne_nil (uvarint_ne_nil snap.nextSeriesID)
  simp only [snapshotPayload, length_append] at hpayload
  have hseries : ∀ s ∈ snap.series, EntrySized (.series s) := by
    intro s hs
    have hle := length_le_flatMap_of_mem seriesBytes hs
    refine entrySized_of_payload (hpayload.mono ?_)
    simp only [encodeWALEntry, length_cons]
    omega
  have hfields : ∀ f ∈ snap.fields, EntrySized (.field f) := by
    intro f hf
    have hle := length_le_flatMap_of_mem fieldBytes hf
    refine entrySized_of_payload (hpayload.mono ?_)
    simp only [encodeWALEntry, length_cons]
    omega
  have hcount : snap.series.length ≤ _ := length_le_flatMap fun s _ => seriesBytes_ne_nil s
  have hcount' : snap.fields.length ≤ _ := length_le_flatMap fun f _ => fieldBytes_ne_nil f
  refine (Parser.parses_uvarint _ snap.nextSeriesID).bind ?_
  refine (Parser.parses_uvarint _ snap.nextFieldID.toUInt64).bind ?_
  refine (parses_uint32Value _ snap.nextFieldID).bind ?_
  refine ((Parser.parses_intCount _ _ (hpayload.mono (by omega))).bind
    (parses_times_self fun s hs => parses_series (hseries s hs))).bind ?_
  refine Parses.map (((Parser.parses_intCount _ _ (hpayload.mono (by omega))).bind
    (parses_times_self fun f hf => parses_field (hfields f hf) ?_))) fun fields =>
      (⟨snap.nextSeriesID, snap.nextFieldID, snap.series, fields⟩ : SnapshotData)
  exact h.supported (.field f) (mem_append_right _ (mem_map_of_mem hf))

theorem decodeSnapshot_encodeSnapshot (h : snap.Readable) : decodeSnapshot crc (encodeSnapshot crc snap) = .ok snap :=
  decodeEnvelope_marshalEnvelope crc (parses_snapshotPayload h) h.payload

end RoundTrip

end Mts.Catalog
