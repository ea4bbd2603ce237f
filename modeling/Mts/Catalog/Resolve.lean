import Mts.Lib.Exec
import Mts.Lib.GoMap
import Mts.Model.Types

/-! The catalog in memory and the resolution of points, `catalog/catalog.go`, `key.go`, `resolve.go`,
`typed_batch.go` and `cardinality.go`, with its writes to disk from `persist.go` and `metadata.go`. The nested
maps by measurement, tag key and tag value are flat maps with a triple as key. The log file is the list of
what was written to it, a write that failed may have left a part of its record. Scratch buffers, the arena of
resolved fields and the counter of rejected points are left out, and so is downsampling. -/

set_option linter.dupNamespace false

namespace Mts.Catalog
open Lib Model

/-- A limit of 0 or less is no limit. -/
structure Limits where
  maxSeries : Int
  maxFields : Int
  maxTagValuesPerKey : Int

structure RetentionPolicy where
  name : GoString
  duration : Int64
  deriving DecidableEq

/-- `model.FieldValue`. Its type is a number, which the catalog takes over as it is. -/
structure FieldValue where
  type : UInt8
  float64 : UInt64
  int64 : Int64
  string : GoString
  bool : Bool
  deriving DecidableEq

structure Field where
  id : UInt32
  measurement : GoString
  name : GoString
  type : UInt8
  deriving DecidableEq

structure ResolvedField where
  fieldID : UInt32
  fieldName : GoString
  type : UInt8
  value : FieldValue
  deriving DecidableEq

structure ResolvedPoint where
  database : GoString
  retentionPolicy : GoString
  measurement : GoString
  tags : TagMap
  seriesID : UInt64
  timestamp : Int64
  writeSeq : UInt64
  fields : List ResolvedField
  deriving DecidableEq

structure Catalog where
  limits : Limits
  nextSeriesID : UInt64
  nextFieldID : UInt32
  seriesByKey : GoMap GoString UInt64
  seriesByTag : GoMap (GoString × GoString × GoString) UInt64
  tagValues : List (GoString × GoString × GoString)
  series : GoMap UInt64 Series
  fieldsByKey : GoMap GoString UInt32
  fields : GoMap UInt32 Field
  fieldSchemas : GoMap GoString (List Field)
  databases : List GoString
  policies : GoMap (GoString × GoString) RetentionPolicy
  snapshotDirtyRecords : Nat

def newCatalog (limits : Limits) : Catalog where
  limits := limits
  nextSeriesID := 1
  nextFieldID := 1
  seriesByKey := ∅
  seriesByTag := ∅
  tagValues := []
  series := ∅
  fieldsByKey := ∅
  fields := ∅
  fieldSchemas := ∅
  databases := []
  policies := ∅
  snapshotDirtyRecords := 0

inductive WalEntry
  | series (s : Series)
  | field (f : Field)
  deriving DecidableEq

structure SnapshotData where
  nextSeriesID : UInt64
  nextFieldID : UInt32
  series : List Series
  fields : List Field

structure Metadata where
  databases : List GoString
  policies : GoMap (GoString × GoString) RetentionPolicy

inductive Written
  | whole
  | part (bytes : Nat)
  deriving DecidableEq

/-- A record appended to the log, and how much of it reached the file. -/
structure LogWrite where
  entry : WalEntry
  written : Written

structure Disk where
  snapshot : Option SnapshotData
  wal : List LogWrite
  metadata : Option Metadata

inductive AppendResult
  | ok
  | short (bytes : Nat)
  | syncFailed
  deriving DecidableEq

/-- How a checkpoint ends: the snapshot file is not written, or the log is not truncated, or the truncated log
is not synced. -/
inductive CheckpointResult
  | ok
  | saveFailed
  | truncateFailed
  | syncFailed
  deriving DecidableEq

/-- The catalog with its directory. `appends`, `saves` and `checkpoints` tell how the next appends to the log,
the next writes of the metadata file and the next checkpoints will end; where they are used up, all succeed. -/
structure Store where
  catalog : Catalog
  disk : Disk
  appends : List AppendResult
  saves : List Bool
  checkpoints : List CheckpointResult

inductive CatalogError
  | emptyMeasurement
  | emptyFields
  | fieldTypeConflict (name : GoString)
  | maxSeries (limit : Int)
  | maxFields (limit : Int)
  | maxTagValues (limit : Int) (measurement tag : GoString)
  | tagNameEmpty
  | duplicateTag (name : GoString)
  | tagLength (name : GoString) (length want : Nat)
  | fieldNameEmpty
  | duplicateField (name : GoString)
  | fieldLength (name : GoString) (length want : Nat)
  | unsupportedType (name : GoString)
  | writeWAL
  | syncWAL
  | writeSnapshot
  | truncateWAL
  | syncTruncatedWAL
  | writeMetadata
  | databaseNameEmpty
  | policyNamesRequired
  deriving DecidableEq

abbrev CatalogM := EStateM CatalogError Store

/-- `strings.TrimSpace` leaves nothing: only white space of Unicode, in UTF-8. -/
def isBlank : GoString → Bool
  | [] => true
  | 0xC2 :: 0x85 :: rest | 0xC2 :: 0xA0 :: rest => isBlank rest
  | 0xE1 :: 0x9A :: 0x80 :: rest => isBlank rest
  | 0xE2 :: 0x80 :: b :: rest =>
    ((0x80 ≤ b && b ≤ 0x8A) || b = 0xA8 || b = 0xA9 || b = 0xAF) && isBlank rest
  | 0xE2 :: 0x81 :: 0x9F :: rest => isBlank rest
  | 0xE3 :: 0x80 :: 0x80 :: rest => isBlank rest
  | b :: rest => ((9 ≤ b && b ≤ 13) || b = 32) && isBlank rest

/-- A `map[string]FieldValue` in the order of its sorted keys. -/
structure FieldMap where
  entries : List (GoString × FieldValue)
  sorted : entries.Pairwise fun a b => a.1 < b.1

def FieldMap.find? (m : FieldMap) (name : GoString) : Option FieldValue :=
  (m.entries.find? fun e => e.1 = name).map Prod.snd

structure Point where
  database : GoString
  retentionPolicy : GoString
  measurement : GoString
  tags : TagMap
  timestamp : Int64
  fields : FieldMap

section Keys

def tagKey (name value : GoString) : GoString := 0xff :: name ++ 61 :: value

/-- The three branches of `seriesKeyWithScratch` write the same bytes. -/
def seriesKey (measurement : GoString) (tags : TagMap) : GoString :=
  measurement ++ tags.entries.flatMap fun e => tagKey e.1 e.2

def fieldKey (measurement name : GoString) : GoString := measurement ++ 0xff :: name

def singleTag (name value : GoString) : TagMap := TagMap.empty.set name value

end Keys

namespace Catalog

def seriesAt (c : Catalog) (id : UInt64) : Series := (c.series.get? id).getD ⟨0, [], TagMap.empty⟩

def fieldAt (c : Catalog) (id : UInt32) : Field := (c.fields.get? id).getD ⟨0, [], [], 0⟩

def schema (c : Catalog) (measurement : GoString) : List Field := (c.fieldSchemas.get? measurement).getD []

def upsertSingleTagSeries (c : Catalog) (s : Series) : Catalog :=
  match s.tags.entries with
  | [(name, value)] => { c with seriesByTag := c.seriesByTag.set (s.measurement, name, value) s.id }
  | _ => c

def recordTagValues (c : Catalog) (measurement : GoString) (tags : TagMap) : Catalog :=
  { c with tagValues := tags.entries.foldl (fun values e =>
      if values.contains (measurement, e.1, e.2) then values else values ++ [(measurement, e.1, e.2)]) c.tagValues }

def applySeries (c : Catalog) (s : Series) : Catalog :=
  let c := { c with
    series := c.series.set s.id s
    seriesByKey := c.seriesByKey.set (seriesKey s.measurement s.tags) s.id }
  let c := (c.upsertSingleTagSeries s).recordTagValues s.measurement s.tags
  { c with nextSeriesID := if c.nextSeriesID ≤ s.id then s.id + 1 else c.nextSeriesID }

/-- The position of the field among the names of its measurement. -/
def upsertField (f : Field) : List Field → List Field
  | [] => [f]
  | g :: schema =>
    if g.name = f.name then f :: schema
    else if f.name < g.name then f :: g :: schema
    else g :: upsertField f schema

def upsertFieldSchema (c : Catalog) (f : Field) : Catalog :=
  { c with fieldSchemas := c.fieldSchemas.set f.measurement (upsertField f (c.schema f.measurement)) }

def applyField (c : Catalog) (f : Field) : Catalog :=
  let c := { c with
    fields := c.fields.set f.id f
    fieldsByKey := c.fieldsByKey.set (fieldKey f.measurement f.name) f.id }
  let c := c.upsertFieldSchema f
  { c with nextFieldID := if c.nextFieldID ≤ f.id then f.id + 1 else c.nextFieldID }

def lookupSeriesID (c : Catalog) (measurement : GoString) (tags : TagMap) : Option UInt64 :=
  match tags.entries with
  | [] => c.seriesByKey.get? measurement
  | [(name, value)] => c.seriesByTag.get? (measurement, name, value)
  | _ => none

def schemaField (c : Catalog) (measurement name : GoString) : Option Field :=
  ((c.schema measurement).find? fun f => name ≤ f.name).filter fun f => f.name = name

def tagValueCount (c : Catalog) (measurement name : GoString) : Nat :=
  (c.tagValues.filter fun v => v.1 = measurement && v.2.1 = name).length

def ensureMetadata (c : Catalog) (database policy : GoString) : Catalog × Bool :=
  if isBlank database then (c, false)
  else
    let (c, changed) :=
      if c.databases.contains database then (c, false)
      else ({ c with databases := c.databases ++ [database] }, true)
    if isBlank policy then (c, changed)
    else
      match c.policies.get? (database, policy) with
      | some _ => (c, changed)
      | none => ({ c with policies := c.policies.set (database, policy) ⟨policy, 0⟩ }, true)

def snapshotData (c : Catalog) : SnapshotData where
  nextSeriesID := c.nextSeriesID
  nextFieldID := c.nextFieldID
  series := c.series.values.insertionSort fun a b => a.id ≤ b.id
  fields := c.fields.values.insertionSort fun a b => a.id ≤ b.id

def snapshotCheckpointThreshold (c : Catalog) : Nat := min (max 4096 ((c.series.size + c.fields.size) / 2)) 65536

end Catalog

def onlyIf (condition : Bool) (x : CatalogM Unit) : CatalogM Unit := if condition then x else pure ()

def getCatalog : CatalogM Catalog := do return (← get).catalog

def modifyCatalog (f : Catalog → Catalog) : CatalogM Unit := modify fun s => { s with catalog := f s.catalog }

def appendEntryLocked (entry : WalEntry) : CatalogM Unit := do
  let s ← get
  let append (written : Written) : Store :=
    { s with disk := { s.disk with wal := s.disk.wal ++ [⟨entry, written⟩] }, appends := s.appends.tail }
  match s.appends.headD .ok with
  | .ok => set (append .whole)
  | .short bytes =>
    set (append (.part bytes))
    throw .writeWAL
  | .syncFailed =>
    set (append .whole)
    throw .syncWAL

def checkpointSnapshotLocked (force : Bool) : CatalogM Unit := do
  let s ← get
  if s.catalog.snapshotDirtyRecords = 0 then return
  else if !force && s.catalog.snapshotDirtyRecords < s.catalog.snapshotCheckpointThreshold then return
  else
    let save (wal : List LogWrite) (dirty : Nat) : Store :=
      ⟨{ s.catalog with snapshotDirtyRecords := dirty },
        { s.disk with snapshot := some s.catalog.snapshotData, wal := wal }, s.appends, s.saves, s.checkpoints.tail⟩
    match s.checkpoints.headD .ok with
    | .ok => set (save [] 0)
    | .saveFailed =>
      set { s with checkpoints := s.checkpoints.tail }
      throw .writeSnapshot
    | .truncateFailed =>
      set (save s.disk.wal s.catalog.snapshotDirtyRecords)
      throw .truncateWAL
    | .syncFailed =>
      set (save [] s.catalog.snapshotDirtyRecords)
      throw .syncTruncatedWAL

def saveMetadataLocked : CatalogM Unit := do
  let s ← get
  if s.saves.headD true then
    set { s with
      disk := { s.disk with metadata := some ⟨s.catalog.databases, s.catalog.policies⟩ }, saves := s.saves.tail }
  else
    set { s with saves := s.saves.tail }
    throw .writeMetadata

def ensureMetadataLocked (database policy : GoString) : CatalogM Bool :=
  modifyGet fun s =>
    let (catalog, changed) := s.catalog.ensureMetadata database policy
    (changed, { s with catalog := catalog })

section Series

/-- The code visits the tags in the order of the Go map; which of several exceeded keys it names is open. -/
def ensureSeriesCardinalityLocked (measurement : GoString) (tags : TagMap) : CatalogM Unit := do
  let c ← getCatalog
  onlyIf (0 < c.limits.maxSeries && c.limits.maxSeries ≤ c.series.size) (throw (.maxSeries c.limits.maxSeries))
  match tags.entries.find? fun e => 0 < c.limits.maxTagValuesPerKey &&
      !c.tagValues.contains (measurement, e.1, e.2) &&
      c.limits.maxTagValuesPerKey ≤ c.tagValueCount measurement e.1 with
  | some e => throw (.maxTagValues c.limits.maxTagValuesPerKey measurement e.1)
  | none => return

def createSeriesNoSnapshotLocked (measurement : GoString) (tags : TagMap) : CatalogM (Series × Bool) := do
  ensureSeriesCardinalityLocked measurement tags
  let c ← getCatalog
  let series : Series := ⟨c.nextSeriesID, measurement, tags⟩
  appendEntryLocked (.series series)
  modifyCatalog fun c =>
    let c := c.applySeries series
    { c with nextSeriesID := c.nextSeriesID + 1, snapshotDirtyRecords := c.snapshotDirtyRecords + 1 }
  return (series, true)

def resolveSeriesNoSnapshotLocked (measurement : GoString) (tags : TagMap) : CatalogM (Series × Bool) := do
  let c ← getCatalog
  match c.lookupSeriesID measurement tags with
  | some id => return (c.seriesAt id, false)
  | none =>
    match c.seriesByKey.get? (seriesKey measurement tags) with
    | some id => return (c.seriesAt id, false)
    | none => createSeriesNoSnapshotLocked measurement tags

/-- With the cache of a batch, which is used for two tags and more. -/
def resolveSeriesNoSnapshotCachedLocked (measurement : GoString) (tags : TagMap) (cache : GoMap GoString Series) :
    CatalogM ((Series × Bool) × GoMap GoString Series) :=
  if 1 < tags.entries.length then do
    let key := seriesKey measurement tags
    match cache.get? key with
    | some series => return ((series, false), cache)
    | none =>
      let c ← getCatalog
      match c.seriesByKey.get? key with
      | some id => return ((c.seriesAt id, false), cache.set key (c.seriesAt id))
      | none =>
        let (series, changed) ← createSeriesNoSnapshotLocked measurement tags
        return ((series, changed), cache.set key series)
  else do
    let result ← resolveSeriesNoSnapshotLocked measurement tags
    return (result, cache)

def resolveSeriesLocked (measurement : GoString) (tags : TagMap) : CatalogM Series := do
  let (series, changed) ← resolveSeriesNoSnapshotLocked measurement tags
  onlyIf changed (checkpointSnapshotLocked false)
  return series

end Series

section Fields

def ensureFieldCardinalityLocked : CatalogM Unit := do
  let c ← getCatalog
  onlyIf (0 < c.limits.maxFields && c.limits.maxFields ≤ c.fields.size) (throw (.maxFields c.limits.maxFields))

def resolveFieldNoSnapshotLocked (measurement name : GoString) (type : UInt8) : CatalogM (Field × Bool) := do
  let c ← getCatalog
  match c.schemaField measurement name with
  | some field => if field.type ≠ type then throw (.fieldTypeConflict name) else return (field, false)
  | none =>
    match c.fieldsByKey.get? (fieldKey measurement name) with
    | some id =>
      if (c.fieldAt id).type ≠ type then throw (.fieldTypeConflict name) else return (c.fieldAt id, false)
    | none =>
      ensureFieldCardinalityLocked
      let c ← getCatalog
      let field : Field := ⟨c.nextFieldID, measurement, name, type⟩
      appendEntryLocked (.field field)
      modifyCatalog fun c =>
        let c := c.applyField field
        { c with nextFieldID := c.nextFieldID + 1, snapshotDirtyRecords := c.snapshotDirtyRecords + 1 }
      return (field, true)

def matchStep (values : FieldMap) (out : Option (List ResolvedField)) (item : UInt32 × GoString × UInt8) :
    Except CatalogError (Option (List ResolvedField)) :=
  match out, values.find? item.2.1 with
  | some out, some value =>
    if item.2.2 ≠ value.type then .error (.fieldTypeConflict item.2.1)
    else .ok (some (out ++ [⟨item.1, item.2.1, item.2.2, value⟩]))
  | _, _ => .ok none

/-- The fields that a point takes over from a list of known ones: `none` where the names differ. -/
def matchFields (known : List (UInt32 × GoString × UInt8)) (values : FieldMap) :
    Except CatalogError (Option (List ResolvedField)) :=
  if known.isEmpty || known.length ≠ values.entries.length then .ok none
  else known.foldlM (matchStep values) (some [])

def resolveFieldsFromSchema (c : Catalog) (measurement : GoString) (values : FieldMap) :
    Except CatalogError (Option (List ResolvedField)) :=
  matchFields ((c.schema measurement).map fun f => (f.id, f.name, f.type)) values

def applyFieldTemplateLocked (template : List ResolvedField) (values : FieldMap) :
    Except CatalogError (Option (List ResolvedField)) :=
  matchFields (template.map fun f => (f.fieldID, f.fieldName, f.type)) values

def resolveFieldsNoSnapshotLocked (measurement : GoString) (values : FieldMap) :
    CatalogM (List ResolvedField × Bool) := do
  let c ← getCatalog
  match resolveFieldsFromSchema c measurement values with
  | .error e => throw e
  | .ok (some fields) => return (fields, false)
  | .ok none =>
    values.entries.foldlM (fun out e => do
      let (field, changed) ← resolveFieldNoSnapshotLocked measurement e.1 e.2.type
      return (out.1 ++ [⟨field.id, field.name, field.type, e.2⟩], out.2 || changed)) ([], false)

def resolveFieldsLocked (measurement : GoString) (values : FieldMap) : CatalogM (List ResolvedField) := do
  let (fields, changed) ← resolveFieldsNoSnapshotLocked measurement values
  onlyIf changed (checkpointSnapshotLocked false)
  return fields

end Fields

section Points

def validatePoint (p : Point) : Except CatalogError Unit :=
  if isBlank p.measurement then .error .emptyMeasurement
  else if p.fields.entries.isEmpty then .error .emptyFields
  else .ok ⟨⟩

def resolvedPointFrom (p : Point) (seriesID : UInt64) (fields : List ResolvedField) : ResolvedPoint :=
  ⟨p.database, p.retentionPolicy, p.measurement, p.tags, seriesID, p.timestamp, 0, fields⟩

def resolvePoint (p : Point) : CatalogM ResolvedPoint := do
  match validatePoint p with
  | .error e => throw e
  | .ok _ =>
    let metadataChanged ← ensureMetadataLocked p.database p.retentionPolicy
    let series ← resolveSeriesLocked p.measurement p.tags
    let fields ← resolveFieldsLocked p.measurement p.fields
    onlyIf metadataChanged saveMetadataLocked
    return resolvedPointFrom p series.id fields

/-- The fields of the last point that was resolved without a template, with its measurement. -/
structure FieldTemplate where
  measurement : GoString
  fields : List ResolvedField

structure BatchState where
  cache : GoMap GoString Series
  template : Option FieldTemplate
  lastMetadata : Option (GoString × GoString)
  changed : Bool
  metadataChanged : Bool
  resolved : List ResolvedPoint

def emptyBatch : BatchState := ⟨∅, none, none, false, false, []⟩

def resolveTemplateLocked (p : Point) : CatalogM ((List ResolvedField × Bool) × Option FieldTemplate) := do
  let (fields, changed) ← resolveFieldsNoSnapshotLocked p.measurement p.fields
  return ((fields, changed), if fields.isEmpty then none else some ⟨p.measurement, fields⟩)

def resolveBatchFields (p : Point) (template : Option FieldTemplate) :
    CatalogM ((List ResolvedField × Bool) × Option FieldTemplate) :=
  match template with
  | some t =>
    if p.measurement = t.measurement && p.fields.entries.length = t.fields.length then
      match applyFieldTemplateLocked t.fields p.fields with
      | .error e => throw e
      | .ok (some fields) => return ((fields, false), template)
      | .ok none => resolveTemplateLocked p
    else resolveTemplateLocked p
  | none => resolveTemplateLocked p

def ensureBatchMetadata (p : Point) (last : Option (GoString × GoString)) : CatalogM Bool :=
  if last = some (p.database, p.retentionPolicy) then return false
  else ensureMetadataLocked p.database p.retentionPolicy

def resolveBatchPoint (b : BatchState) (p : Point) : CatalogM BatchState := do
  let metadataChanged ← ensureBatchMetadata p b.lastMetadata
  let ((series, seriesChanged), cache) ← resolveSeriesNoSnapshotCachedLocked p.measurement p.tags b.cache
  let ((fields, fieldsChanged), template) ← resolveBatchFields p b.template
  return {
    cache := cache
    template := template
    lastMetadata := some (p.database, p.retentionPolicy)
    changed := b.changed || seriesChanged || fieldsChanged
    metadataChanged := metadataChanged || b.metadataChanged
    resolved := b.resolved ++ [resolvedPointFrom p series.id fields] }

def resolvePoints (points : List Point) : CatalogM (List ResolvedPoint) := do
  match points.mapM validatePoint with
  | .error e => throw e
  | .ok _ =>
    let b ← points.foldlM resolveBatchPoint emptyBatch
    onlyIf b.changed (checkpointSnapshotLocked false)
    onlyIf b.metadataChanged saveMetadataLocked
    return b.resolved

end Points

section Typed

structure TagColumn where
  name : GoString
  values : List GoString

/-- `type` is `none` for a number that is no field type; only the slice of the type is read. -/
structure TypedFieldColumn where
  name : GoString
  type : Option FieldType
  float64Values : List UInt64
  int64Values : List Int64
  stringValues : List GoString
  boolValues : List Bool

structure TypedBatch where
  database : GoString
  retentionPolicy : GoString
  measurement : GoString
  tags : List TagColumn
  timestamps : List Int64
  fields : List TypedFieldColumn

structure ResolvedTypedFieldColumn where
  fieldID : UInt32
  name : GoString
  type : FieldType
  values : TypedFieldColumn

structure ResolvedTypedBatch where
  database : GoString
  retentionPolicy : GoString
  measurement : GoString
  tags : List TagColumn
  timestamps : List Int64
  seriesIDs : List UInt64
  fields : List ResolvedTypedFieldColumn

def typedFieldColumnLen (c : TypedFieldColumn) : Option Nat :=
  c.type.map fun
    | .float64 => c.float64Values.length
    | .int64 => c.int64Values.length
    | .string => c.stringValues.length
    | .bool => c.boolValues.length

def validateTypedTags (rows : Nat) (seen : List GoString) : List TagColumn → Except CatalogError Unit
  | [] => .ok ⟨⟩
  | tag :: tags =>
    if isBlank tag.name then .error .tagNameEmpty
    else if seen.contains tag.name then .error (.duplicateTag tag.name)
    else if tag.values.length ≠ rows then .error (.tagLength tag.name tag.values.length rows)
    else validateTypedTags rows (tag.name :: seen) tags

def validateTypedFields (rows : Nat) (seen : List GoString) : List TypedFieldColumn → Except CatalogError Unit
  | [] => .ok ⟨⟩
  | field :: fields =>
    if isBlank field.name then .error .fieldNameEmpty
    else if seen.contains field.name then .error (.duplicateField field.name)
    else
      match typedFieldColumnLen field with
      | none => .error (.unsupportedType field.name)
      | some length =>
        if length ≠ rows then .error (.fieldLength field.name length rows)
        else validateTypedFields rows (field.name :: seen) fields

def validateTypedBatch (b : TypedBatch) (rows : Nat) : Except CatalogError Unit :=
  if isBlank b.measurement then .error .emptyMeasurement
  else if b.fields.isEmpty then .error .emptyFields
  else do
    validateTypedTags rows [] b.tags
    validateTypedFields rows [] b.fields

def TagColumn.at (tag : TagColumn) (row : Nat) : GoString := tag.values.getD row []

def tagMapFromColumns (tags : List TagColumn) (row : Nat) : TagMap :=
  tags.foldl (fun out tag => out.set tag.name (tag.at row)) TagMap.empty

def seriesKeyFromTagColumns (measurement : GoString) (tags : List TagColumn) (row : Nat) : GoString :=
  measurement ++ (tags.insertionSort fun a b => a.name ≤ b.name).flatMap fun tag => tagKey tag.name (tag.at row)

def resolveSingleTagSeriesLocked (measurement : GoString) (tag : TagColumn) (row : Nat) :
    CatalogM (Series × Bool) := do
  let c ← getCatalog
  match c.seriesByTag.get? (measurement, tag.name, tag.at row) with
  | some id => return (c.seriesAt id, false)
  | none => createSeriesNoSnapshotLocked measurement (singleTag tag.name (tag.at row))

def resolveSeriesFromTypedTagsLocked (measurement : GoString) (tags : List TagColumn) (row : Nat) :
    CatalogM (Series × Bool) :=
  match tags with
  | [] => resolveSeriesNoSnapshotLocked measurement TagMap.empty
  | [tag] => resolveSingleTagSeriesLocked measurement tag row
  | _ => do
    let c ← getCatalog
    match c.seriesByKey.get? (seriesKeyFromTagColumns measurement tags row) with
    | some id => return (c.seriesAt id, false)
    | none => createSeriesNoSnapshotLocked measurement (tagMapFromColumns tags row)

def resolveTypedSeriesIDsLocked (b : TypedBatch) (rows : Nat) : CatalogM (List UInt64 × Bool) :=
  (List.range rows).foldlM (fun out row => do
    let (series, changed) ← resolveSeriesFromTypedTagsLocked b.measurement b.tags row
    return (out.1 ++ [series.id], out.2 || changed)) ([], false)

def resolveTypedFieldDefinitionsLocked (measurement : GoString) (columns : List TypedFieldColumn) :
    CatalogM (List ResolvedTypedFieldColumn × Bool) :=
  columns.foldlM (fun out column => do
    match column.type with
    | none => throw (.unsupportedType column.name)
    | some type =>
      -- the type of the field is the one that was asked for
      let (field, changed) ← resolveFieldNoSnapshotLocked measurement column.name (fieldTypeByte type)
      return (out.1 ++ [⟨field.id, field.name, type, column⟩], out.2 || changed)) ([], false)

def resolveTypedBatchColumns (b : TypedBatch) : CatalogM ResolvedTypedBatch := do
  if b.timestamps.isEmpty then return ⟨[], [], [], [], [], [], []⟩
  else
    match validateTypedBatch b b.timestamps.length with
    | .error e => throw e
    | .ok _ =>
      let metadataChanged ← ensureMetadataLocked b.database b.retentionPolicy
      let (fields, fieldsChanged) ← resolveTypedFieldDefinitionsLocked b.measurement b.fields
      let (seriesIDs, seriesChanged) ← resolveTypedSeriesIDsLocked b b.timestamps.length
      onlyIf (fieldsChanged || seriesChanged) (checkpointSnapshotLocked false)
      onlyIf metadataChanged saveMetadataLocked
      return ⟨b.database, b.retentionPolicy, b.measurement, b.tags, b.timestamps, seriesIDs, fields⟩

end Typed

end Mts.Catalog
