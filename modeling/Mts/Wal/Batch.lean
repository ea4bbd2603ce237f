import Mts.Lib.Parse
import Mts.Model.Types

/-! The columnar batch payload of the log, `wal/encoding_columnar.go`, `encoding.go` and
`encoding_value.go`: identities, field schema, row count, and per column the identity references,
series IDs, timestamps, write sequences and field values. The encoder appends to a buffer with a
capacity, because a presence bitmap is written through a slice of the buffer while values are
appended behind it. -/

namespace Mts.Wal
open Lib Model

structure BatchIdentity where
  database : GoString
  retentionPolicy : GoString
  measurement : GoString
  tags : TagMap
  deriving DecidableEq

structure ColumnarFieldSchema where
  fieldID : UInt32
  name : GoString
  typ : FieldType
  deriving DecidableEq

def newBatchIdentity (p : ResolvedPoint) : BatchIdentity := ⟨p.database, p.retentionPolicy, p.measurement, p.tags⟩

/-- `identityMatches`: a tag that the identity lacks reads as the empty string. -/
def identityMatches (p : ResolvedPoint) (identity : BatchIdentity) : Bool :=
  p.database = identity.database && p.retentionPolicy = identity.retentionPolicy &&
    p.measurement = identity.measurement && p.tags.entries.length = identity.tags.entries.length &&
    p.tags.entries.all fun e => identity.tags.get e.1 = e.2

def stringBytes (s : GoString) : Bytes := uvarint (UInt64.ofNat s.length) ++ s

def tagsBytes (tags : TagMap) : Bytes :=
  uvarint (UInt64.ofNat tags.entries.length) ++
    tags.entries.flatMap fun e => stringBytes e.1 ++ stringBytes e.2

def identityBytes (identity : BatchIdentity) : Bytes :=
  stringBytes identity.database ++ stringBytes identity.retentionPolicy ++
    stringBytes identity.measurement ++ tagsBytes identity.tags

/-- `seriesRefIndex`: references are kept in a slice when the IDs lie close together (0 for none,
`ref + 1` otherwise) and in a map when they do not. -/
inductive SeriesRefIndex
  | none
  | sparse (refs : List (UInt64 × Nat))
  | dense (base : UInt64) (slots : List Nat)

def seriesIDRange (points : List ResolvedPoint) : Option (UInt64 × UInt64) :=
  (points.map ResolvedPoint.seriesID).foldl (fun range id =>
    if id = 0 then range
    else
      match range with
      | none => some (id, id)
      | some (lo, hi) => some (if id < lo then id else lo, if hi < id then id else hi)) none

def newSeriesRefIndex (points : List ResolvedPoint) : SeriesRefIndex :=
  match seriesIDRange points with
  | .none => .none
  | some (lo, hi) =>
    let span := hi - lo + 1
    if span ≤ UInt64.ofNat (points.length * 4) then .dense lo (List.replicate span.toNat 0) else .sparse []

def SeriesRefIndex.lookup (index : SeriesRefIndex) (id : UInt64) : Option Nat :=
  match index with
  | .none => .none
  | .sparse refs => (refs.find? fun e => e.1 = id).map Prod.snd
  | .dense base slots =>
    if id < base then .none
    else
      match slots[(id - base).toNat]? with
      | some (ref + 1) => some ref
      | _ => .none

def SeriesRefIndex.setIfAbsent (index : SeriesRefIndex) (id : UInt64) (ref : Nat) : SeriesRefIndex :=
  match index with
  | .none => .none
  | .sparse refs =>
    if refs.any fun e => e.1 = id then .sparse refs else .sparse ((id, ref) :: refs)
  | .dense base slots =>
    if id < base then .dense base slots
    else if slots[(id - base).toNat]? = some 0 then .dense base (slots.set (id - base).toNat (ref + 1))
    else .dense base slots

structure IdentityState where
  identities : List BatchIdentity
  refs : List Nat
  seenSeries : SeriesRefIndex
  seenIdentity : List (Bytes × Nat)

def lastIdentityRef (p : ResolvedPoint) (identities : List BatchIdentity) : Option Nat :=
  match identities.getLast? with
  | none => none
  | some identity => if identityMatches p identity then some (identities.length - 1) else none

/-- The end of the loop body: the reference of the point's key, with a new identity if it has none. -/
def IdentityState.refByKey (s : IdentityState) (p : ResolvedPoint) : IdentityState :=
  let key := identityBytes (newBatchIdentity p)
  let found := (s.seenIdentity.find? fun e => e.1 = key).map Prod.snd
  let ref := found.getD s.identities.length
  { identities := if ref = s.identities.length then s.identities ++ [newBatchIdentity p] else s.identities
    refs := s.refs ++ [ref]
    seenSeries := if p.seriesID ≠ 0 then s.seenSeries.setIfAbsent p.seriesID ref else s.seenSeries
    seenIdentity := if found.isSome then s.seenIdentity else (key, ref) :: s.seenIdentity }

def IdentityState.next (s : IdentityState) (p : ResolvedPoint) : IdentityState :=
  match lastIdentityRef p s.identities with
  | some ref => { s with refs := s.refs ++ [ref] }
  | none =>
    if p.seriesID ≠ 0 then
      match s.seenSeries.lookup p.seriesID with
      | some ref =>
        match s.identities[ref]? with
        | some identity =>
          if identityMatches p identity then { s with refs := s.refs ++ [ref] } else s.refByKey p
        | none => s.refByKey p
      | none =>
        { s with
          identities := s.identities ++ [newBatchIdentity p]
          refs := s.refs ++ [s.identities.length]
          seenSeries := s.seenSeries.setIfAbsent p.seriesID s.identities.length }
    else s.refByKey p

def batchIdentities (points : List ResolvedPoint) : List BatchIdentity × List Nat :=
  let s := points.foldl IdentityState.next ⟨[], [], newSeriesRefIndex points, []⟩
  (s.identities, s.refs)

inductive EncodeError
  | typeMismatch (field : GoString) (type valueType : FieldType)
  | denseIndex (index : Nat)
  deriving DecidableEq, Repr

def schemaOf (f : ResolvedField) : ColumnarFieldSchema := ⟨f.fieldID, f.fieldName, f.type⟩

def schemaLe (a b : ColumnarFieldSchema) : Prop :=
  a.fieldID < b.fieldID ∨ a.fieldID = b.fieldID ∧
    (a.name < b.name ∨ a.name = b.name ∧ fieldTypeByte a.typ ≤ fieldTypeByte b.typ)

instance : DecidableRel schemaLe := fun _ _ => inferInstanceAs (Decidable (_ ∨ _))

def buildPointFieldSchema (points : List ResolvedPoint) : Except EncodeError (List ColumnarFieldSchema) := do
  let fields := points.flatMap ResolvedPoint.fields
  let schema ← fields.foldlM (fun schema f =>
    if f.type ≠ f.value.type then .error (.typeMismatch f.fieldName f.type f.value.type)
    else if schemaOf f ∈ schema then .ok schema
    else .ok (schema ++ [schemaOf f])) []
  .ok (schema.insertionSort schemaLe)

def uvarintSizeLoop : Nat → Nat → Nat
  | 0, _ => 1
  | fuel + 1, value => if value ≥ 128 then uvarintSizeLoop fuel (value / 128) + 1 else 1

def uvarintSize (value : UInt64) : Nat := uvarintSizeLoop 9 value.toNat

def stringSize (s : GoString) : Nat := uvarintSize (UInt64.ofNat s.length) + s.length

def estimateTagsSize (tags : TagMap) : Nat :=
  uvarintSize (UInt64.ofNat tags.entries.length) +
    (tags.entries.map fun e => stringSize e.1 + stringSize e.2).sum

def estimateColumnarPointsSize (identities : List BatchIdentity) (schema : List ColumnarFieldSchema)
    (points : List ResolvedPoint) : Nat :=
  uvarintSize (UInt64.ofNat identities.length) +
    (identities.map fun i => stringSize i.database + stringSize i.retentionPolicy +
      stringSize i.measurement + estimateTagsSize i.tags).sum +
    uvarintSize (UInt64.ofNat schema.length) +
    (schema.map fun f => stringSize f.name + uvarintSize f.fieldID.toUInt64 + 1).sum +
    uvarintSize (UInt64.ofNat points.length) + points.length * 20 +
    schema.length * ((points.length + 7) / 8 + points.length * 10) + 64

/-- A slice with the capacity of the array it lies in. -/
structure Buffer where
  bytes : Bytes
  cap : Nat

section Buffers
variable (grow : Nat → Nat → Nat)

/-- One `append`; the runtime chooses the capacity of a new array from the old one and the length. -/
def Buffer.append (b : Buffer) (chunk : Bytes) : Buffer :=
  ⟨b.bytes ++ chunk, if b.bytes.length + chunk.length ≤ b.cap then b.cap
    else grow b.cap (b.bytes.length + chunk.length)⟩

def Buffer.appendAll (b : Buffer) (chunks : List Bytes) : Buffer := chunks.foldl (Buffer.append grow) b

/-- `binary.AppendUvarint` appends byte by byte. -/
def uvarintChunks (n : UInt64) : List Bytes := (uvarint n).map fun x => [x]

def varintChunks (n : Int64) : List Bytes := (varint n).map fun x => [x]

def stringChunks (s : GoString) : List Bytes := uvarintChunks (UInt64.ofNat s.length) ++ [s]

def tagsChunks (tags : TagMap) : List Bytes :=
  uvarintChunks (UInt64.ofNat tags.entries.length) ++
    tags.entries.flatMap fun e => stringChunks e.1 ++ stringChunks e.2

def identityChunks (identity : BatchIdentity) : List Bytes :=
  stringChunks identity.database ++ stringChunks identity.retentionPolicy ++
    stringChunks identity.measurement ++ tagsChunks identity.tags

def schemaChunks (f : ColumnarFieldSchema) : List Bytes :=
  stringChunks f.name ++ uvarintChunks f.fieldID.toUInt64 ++ [[fieldTypeByte f.typ]]

def timestampDeltas : Option Int64 → List Int64 → List Int64
  | _, [] => []
  | none, t :: ts => t :: timestampDeltas (some t) ts
  | some prev, t :: ts => (t - prev) :: timestampDeltas (some t) ts

/-- The tokens of `appendPointWriteSeqDeltas`: the first sequence, then 0 and the sequence where it
goes down and the distance plus one, with wraparound, where it does not. -/
def writeSeqTokens : Option UInt64 → List UInt64 → List UInt64
  | _, [] => []
  | none, s :: ss => s :: writeSeqTokens (some s) ss
  | some prev, s :: ss =>
    if s < prev then 0 :: s :: writeSeqTokens (some s) ss
    else (s - prev + 1) :: writeSeqTokens (some s) ss

def valueChunks : FieldValue → List Bytes
  | .float64 bits => [uint64LE bits]
  | .int64 value => varintChunks value
  | .string value => stringChunks value
  | .bool value => [[if value then 1 else 0]]

def headerChunks (identities : List BatchIdentity) (refs : List Nat) (schema : List ColumnarFieldSchema)
    (points : List ResolvedPoint) : List Bytes :=
  uvarintChunks (UInt64.ofNat identities.length) ++ identities.flatMap identityChunks ++
    uvarintChunks (UInt64.ofNat schema.length) ++ schema.flatMap schemaChunks ++
    uvarintChunks (UInt64.ofNat points.length) ++
    refs.flatMap (fun ref => uvarintChunks (UInt64.ofNat ref)) ++
    points.flatMap (fun p => uvarintChunks p.seriesID) ++
    (timestampDeltas none (points.map ResolvedPoint.timestamp)).flatMap varintChunks ++
    (writeSeqTokens none (points.map ResolvedPoint.writeSeq)).flatMap uvarintChunks

/-- `growBytes`: an array of exactly the new length when the old one is too small. -/
def growBytes (b : Buffer) (chunk : Bytes) : Buffer :=
  ⟨b.bytes ++ chunk, if b.cap - b.bytes.length < chunk.length then b.bytes.length + chunk.length else b.cap⟩

/-- All rows present: bytes of ones, the last one cut off after the last row. -/
def denseBits (rows : Nat) : Bytes :=
  (List.range ((rows + 7) / 8)).map fun i =>
    if i + 1 = (rows + 7) / 8 ∧ rows % 8 ≠ 0 then UInt8.ofNat (2 ^ (rows % 8) - 1) else 255

/-- Rows 0, `n/2` and `n-1` are compared with the schema. -/
def pointFieldsMatchSchema (points : List ResolvedPoint) (schema : List ColumnarFieldSchema) : Bool :=
  [0, points.length / 2, points.length - 1].all fun i =>
    match points[i]? with
    | none => true
    | some p => p.fields.map schemaOf = schema

def appendPointFieldColumnsDense (b : Buffer) (points : List ResolvedPoint)
    (schema : List ColumnarFieldSchema) : Except EncodeError Buffer :=
  (List.range schema.length).foldlM (fun b fieldIndex =>
    points.foldlM (fun b p =>
      match p.fields[fieldIndex]? with
      | none => .error (.denseIndex fieldIndex)
      | some f => .ok (b.appendAll grow (valueChunks f.value))) (growBytes b (denseBits points.length))) b

def lookupPointField (p : ResolvedPoint) (field : ColumnarFieldSchema) : Option FieldValue :=
  (p.fields.find? fun f => schemaOf f = field).map ResolvedField.value

def setBit (bytes : Bytes) (start row : Nat) : Bytes :=
  bytes.modify (start + row / 8) fun x => x ||| UInt8.ofNat (2 ^ (row % 8))

/-- The loop of `appendPointFieldColumn`. `aliased` says that the bitmap slice still lies in the
array of the buffer; an append that moves the buffer leaves the slice behind. -/
def appendPointFieldLoop (start : Nat) (field : ColumnarFieldSchema) :
    Nat → Bool → Buffer → List ResolvedPoint → Buffer
  | _, _, b, [] => b
  | row, aliased, b, p :: ps =>
    match lookupPointField p field with
    | none => appendPointFieldLoop start field (row + 1) aliased b ps
    | some value =>
      let marked : Buffer := if aliased then { b with bytes := setBit b.bytes start row } else b
      let appended := marked.appendAll grow (valueChunks value)
      appendPointFieldLoop start field (row + 1)
        (aliased && decide (appended.bytes.length ≤ b.cap)) appended ps

def appendPointFieldColumn (b : Buffer) (points : List ResolvedPoint) (field : ColumnarFieldSchema) : Buffer :=
  let zeros := List.replicate ((points.length + 7) / 8) 0
  appendPointFieldLoop grow b.bytes.length field 0 true (growBytes b zeros) points

def appendPointFieldColumns (b : Buffer) (points : List ResolvedPoint) (schema : List ColumnarFieldSchema) :
    Except EncodeError Buffer :=
  if schema.isEmpty then .ok b
  else if pointFieldsMatchSchema points schema then appendPointFieldColumnsDense grow b points schema
  else .ok (schema.foldl (fun b field => appendPointFieldColumn grow b points field) b)

/-- `encodeBatchInto` with a scratch buffer of capacity `scratch`. -/
def encodeBatchInto (scratch : Nat) (points : List ResolvedPoint) : Except EncodeError Bytes := do
  let (identities, refs) := batchIdentities points
  let schema ← buildPointFieldSchema points
  let size := estimateColumnarPointsSize identities schema points
  let b : Buffer := ⟨[], if scratch < size then size else scratch⟩
  let b ← appendPointFieldColumns grow (b.appendAll grow (headerChunks identities refs schema points)) points schema
  .ok b.bytes

end Buffers

inductive DecodeError
  | emptyBatch | invalidUvarint (name : String) | invalidVarint (name : String)
  | countOverflow (name : String) (value : UInt64) | stringLength (name : String)
  | stringTruncated (name : String) | missingByte (name : String) | invalidBool (name : String) (value : UInt8)
  | truncatedFloat | truncated (name : String) | unsupportedType (value : UInt8) | identityRef (ref : Nat)
  | trailing (name : String) (count : Nat)
  | emptyTombstones | overflow32 (name : String) (value : UInt64)
  deriving DecidableEq, Repr

def DecodeError.message : DecodeError → String
  | emptyBatch => "empty wal batch"
  | invalidUvarint name => "decode wal " ++ name ++ ": invalid uvarint"
  | invalidVarint name => "decode wal " ++ name ++ ": invalid varint"
  | countOverflow name value => "decode wal " ++ name ++ ": count " ++ toString value ++ " overflows int"
  | stringLength name => "decode wal " ++ name ++ ": read string: invalid length"
  | stringTruncated name => "decode wal " ++ name ++ ": read string: truncated payload"
  | missingByte name => "decode wal " ++ name ++ ": missing byte"
  | invalidBool name value => "decode wal " ++ name ++ ": invalid bool byte " ++ toString value
  | truncatedFloat => "decode wal float64 field value: truncated payload"
  | truncated name => "decode wal " ++ name ++ ": truncated payload"
  | unsupportedType value => "unsupported field value type " ++ toString value
  | identityRef ref => "decode wal identity ref " ++ toString ref ++ " out of range"
  | trailing name count => "decode " ++ name ++ ": " ++ toString count ++ " trailing bytes"
  | emptyTombstones => "empty wal tombstones"
  | overflow32 name value => "decode wal " ++ name ++ ": value " ++ toString value ++ " overflows uint32"

abbrev BatchReader := Parser DecodeError

namespace BatchReader

def uvarint (name : String) : BatchReader UInt64 := .ofReader readUvarint (.invalidUvarint name)

def varint (name : String) : BatchReader Int64 := .ofReader readVarint (.invalidVarint name)

def intCount (name : String) : BatchReader Nat := do
  let value ← uvarint name
  if value.toNat > 2 ^ 63 - 1 then .fail (.countOverflow name value) else return value.toNat

/-- `codec.ReadString`. -/
def string (name : String) : BatchReader GoString := do
  let length ← .ofReader readUvarint (.stringLength name)
  .ofReader (readBytes length.toNat) (.stringTruncated name)

def byte (name : String) : BatchReader UInt8 := do
  let bytes ← .ofReader (readBytes 1) (.missingByte name)
  return bytes.headD 0

def bool (name : String) : BatchReader Bool := do
  let value ← byte name
  if value = 0 then return false else if value = 1 then return true else .fail (.invalidBool name value)

def done (name : String) : BatchReader Unit := fun rest =>
  if rest.isEmpty then .ok ((), []) else .error (.trailing name rest.length)

end BatchReader

open BatchReader in
/-- `readValuePayload` by the number of the type. -/
def readValuePayload (typ : UInt8) : BatchReader FieldValue :=
  match typ with
  | 1 => do return .float64 (← .ofReader readUint64LE .truncatedFloat)
  | 2 => do return .int64 (← varint "int64 field value")
  | 3 => do return .string (← string "string field value")
  | 4 => do return .bool (← bool "bool field value")
  | _ => .fail (.unsupportedType typ)

def setTag (tags : TagMap) (e : GoString × GoString) : TagMap := tags.set e.1 e.2

/-- A schema entry as it is read: the type is not checked before a value of it is read. -/
structure DecodedSchema where
  fieldID : UInt32
  name : GoString
  typ : UInt8
  deriving DecidableEq

section Decoding
open BatchReader

def readTagPair : BatchReader (GoString × GoString) := do
  let key ← string "tag key"
  let value ← string "tag value"
  return (key, value)

def readTags : BatchReader TagMap := do
  let count ← intCount "tag count"
  let pairs ← Parser.times count readTagPair
  return pairs.foldl setTag TagMap.empty

def readIdentity : BatchReader BatchIdentity := do
  let database ← string "database"
  let policy ← string "retention policy"
  let measurement ← string "measurement"
  let tags ← readTags
  return ⟨database, policy, measurement, tags⟩

def readBatchIdentities : BatchReader (List BatchIdentity) := do
  let count ← intCount "identity count"
  Parser.times count readIdentity

def readSchemaField : BatchReader DecodedSchema := do
  let name ← string "field name"
  let fieldID ← uvarint "field id"
  let typ ← byte "field type"
  return ⟨fieldID.toUInt32, name, typ⟩

def readColumnarSchema : BatchReader (List DecodedSchema) := do
  let count ← intCount "field schema count"
  Parser.times count readSchemaField

def readIdentityRef (identities : List BatchIdentity) : BatchReader Nat := do
  let ref ← intCount "identity ref"
  if ref ≥ identities.length then .fail (.identityRef ref) else return ref

def readDeltaVarints : Option Int64 → Nat → BatchReader (List Int64)
  | _, 0 => return []
  | prev, n + 1 => do
    let delta ← varint "timestamp delta"
    let t := match prev with
      | none => delta
      | some p => p + delta
    return t :: (← readDeltaVarints (some t) n)

def readWriteSeq : Option UInt64 → BatchReader UInt64
  | none => uvarint "write seq token"
  | some prev => do
    let token ← uvarint "write seq token"
    if token = 0 then uvarint "write seq absolute" else return prev + token - 1

def readDeltaUvarints : Option UInt64 → Nat → BatchReader (List UInt64)
  | _, 0 => return []
  | prev, n + 1 => do
    let seq ← readWriteSeq prev
    return seq :: (← readDeltaUvarints (some seq) n)

def readPresenceBits (rows : Nat) : BatchReader (List Bool) := do
  let raw ← .ofReader (readBytes ((rows + 7) / 8)) (.truncated "presence bitmap")
  return (List.range rows).map fun i => (raw.getD (i / 8) 0 &&& UInt8.ofNat (2 ^ (i % 8))) ≠ 0

/-- The values of a field by row; the source keeps them in a list with a cursor. -/
def readFieldColumn (rows : Nat) (field : DecodedSchema) : BatchReader (List (Option FieldValue)) := do
  let presence ← readPresenceBits rows
  presence.mapM fun present =>
    if present then do return some (← readValuePayload field.typ) else return none

def rowFields (schema : List DecodedSchema) (columns : List (List (Option FieldValue))) (row : Nat) :
    List ResolvedField :=
  (schema.zip columns).filterMap fun x =>
    (x.2.getD row none).map fun value => ⟨x.1.fieldID, x.1.name, value.type, value⟩

def emptyIdentity : BatchIdentity := ⟨[], [], [], TagMap.empty⟩

def readColumnarBatch : BatchReader (List ResolvedPoint) := do
  let identities ← readBatchIdentities
  let schema ← readColumnarSchema
  let rowCount ← intCount "row count"
  let refs ← Parser.times rowCount (readIdentityRef identities)
  let seriesIDs ← Parser.times rowCount (uvarint "series id")
  let timestamps ← readDeltaVarints none rowCount
  let writeSeqs ← readDeltaUvarints none rowCount
  let columns ← schema.mapM (readFieldColumn rowCount)
  done "wal columnar batch"
  return (List.range rowCount).map fun row =>
    let identity := identities.getD (refs.getD row 0) emptyIdentity
    { database := identity.database
      retentionPolicy := identity.retentionPolicy
      measurement := identity.measurement
      tags := identity.tags
      seriesID := seriesIDs.getD row 0
      timestamp := timestamps.getD row 0
      writeSeq := writeSeqs.getD row 0
      fields := rowFields schema columns row }

def decodeBatch (payload : Bytes) : Except DecodeError (List ResolvedPoint) :=
  if payload.isEmpty then .error .emptyBatch else (readColumnarBatch payload).map Prod.fst

end Decoding

end Mts.Wal
