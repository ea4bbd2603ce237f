import Mts.Lib.Latest
import Mts.Lib.SortedMap

/-! The records of `internal/model` that the storage layers pass around. Go strings are byte
lists, a `float64` is its bit pattern, a tag map is its key-sorted list of entries. -/

namespace Mts.Model
open Lib List

abbrev GoString := List UInt8

inductive FieldType
  | float64 | int64 | string | bool
  deriving DecidableEq, Repr

/-- The numbers of `model.FieldType`. -/
def fieldTypeByte : FieldType → UInt8
  | .float64 => 1
  | .int64 => 2
  | .string => 3
  | .bool => 4

inductive FieldValue
  | float64 (bits : UInt64)
  | int64 (value : Int64)
  | string (value : GoString)
  | bool (value : Bool)
  deriving DecidableEq, Repr

def FieldValue.type : FieldValue → FieldType
  | .float64 _ => .float64
  | .int64 _ => .int64
  | .string _ => .string
  | .bool _ => .bool

/-- `tags[key] = value` on the sorted entries of a map. -/
def setEntry (key value : GoString) : List (GoString × GoString) → List (GoString × GoString)
  | [] => [(key, value)]
  | e :: es =>
    if e.1 < key then e :: setEntry key value es
    else if e.1 = key then (key, value) :: es
    else (key, value) :: e :: es

theorem setEntry_eq (key value : GoString) (es : List (GoString × GoString)) :
    setEntry key value es = SortedMap.setEntry key value es := by
  induction es with
  | nil => rfl
  | cons e es ih => rw [setEntry, SortedMap.setEntry, ih]

/-- A `map[string]string`; the order of the entries is canonical, so equal maps are equal values. -/
structure TagMap where
  entries : List (GoString × GoString)
  sorted : entries.Pairwise fun a b => a.1 < b.1
  deriving DecidableEq

namespace TagMap

def empty : TagMap := ⟨[], List.Pairwise.nil⟩

def find? (tags : TagMap) (key : GoString) : Option GoString := (tags.entries.find? fun e => e.1 = key).map Prod.snd

/-- Go's `tags[key]`, which reads a missing key as the empty string. -/
def get (tags : TagMap) (key : GoString) : GoString := (tags.find? key).getD []

def sortedMap (tags : TagMap) : SortedMap GoString GoString := ⟨tags.entries, tags.sorted⟩

theorem mem_entries_iff {tags : TagMap} : (key, value) ∈ tags.entries ↔ tags.find? key = some value :=
  (SortedMap.find?_eq_some_iff (m := tags.sortedMap)).symm

/-- `tags[key] = value`. -/
def set (tags : TagMap) (key value : GoString) : TagMap :=
  ⟨setEntry key value tags.entries, setEntry_eq key value _ ▸ SortedMap.setEntry_sorted tags.sorted⟩

theorem sortedMap_set (tags : TagMap) (key value : GoString) :
    (tags.set key value).sortedMap = tags.sortedMap.set key value := by
  simp [sortedMap, set, SortedMap.set, setEntry_eq]

theorem find?_set (tags : TagMap) (key value key' : GoString) :
    (tags.set key value).find? key' = if key' = key then some value else tags.find? key' := by
  have hset := SortedMap.find?_set tags.sortedMap key value key'
  rwa [← sortedMap_set] at hset

theorem foldl_set_entries (tags : TagMap) : tags.entries.foldl (fun m e => m.set e.1 e.2) empty = tags := by
  have hsame : (tags.entries.foldl (fun m e => m.set e.1 e.2) empty).sortedMap = tags.sortedMap := by
    refine (foldl_hom sortedMap fun m e => ?_).symm.trans tags.sortedMap.foldl_set_entries
    exact (sortedMap_set m e.1 e.2).symm
  generalize tags.entries.foldl (fun m e => m.set e.1 e.2) empty = m at hsame
  cases m
  cases tags
  cases hsame
  rfl

end TagMap

structure Series where
  id : UInt64
  measurement : GoString
  tags : TagMap
  deriving DecidableEq

structure Field where
  id : UInt32
  measurement : GoString
  name : GoString
  type : FieldType
  deriving DecidableEq, Repr

structure VersionedSample where
  timestamp : Int64
  writeSeq : UInt64
  value : FieldValue
  deriving DecidableEq, Repr

structure ColumnData where
  seriesID : UInt64
  fieldID : UInt32
  fieldType : FieldType
  samples : List VersionedSample
  deriving DecidableEq, Repr

variable {columns : List ColumnData}

structure Tombstone where
  seriesIDs : List UInt64
  fieldIDs : List UInt32
  startTime : Int64
  endTime : Int64
  writeSeq : UInt64
  deriving DecidableEq, Repr

structure ResolvedField where
  fieldID : UInt32
  fieldName : GoString
  type : FieldType
  value : FieldValue
  deriving DecidableEq, Repr

structure ResolvedPoint where
  database : GoString
  retentionPolicy : GoString
  measurement : GoString
  tags : TagMap
  seriesID : UInt64
  timestamp : Int64
  writeSeq : UInt64
  fields : List ResolvedField
  deriving DecidableEq

inductive FieldComparison
  | eq | ne | gt | gte | lt | lte
  deriving DecidableEq, Repr

structure FieldPredicate where
  kind : FieldComparison
  value : FieldValue
  deriving DecidableEq, Repr

inductive QueryBoundaryMode
  | none | first | last | both
  deriving DecidableEq, Repr

/-- The columns and the time window of a scan; an empty ID list stands for all IDs. -/
structure ColumnQuery where
  seriesIDs : List UInt64
  fieldIDs : List UInt32
  start : Int64
  stop : Int64

/-- The scan that a query passes to MemTable and parts; only parts read the last two fields. -/
structure StorageQuery extends ColumnQuery where
  boundary : QueryBoundaryMode
  fieldPredicates : UInt32 → List FieldPredicate

def ColumnQuery.inWindow (q : ColumnQuery) (t : Int64) : Bool := q.start ≤ t && t ≤ q.stop

theorem ColumnQuery.inWindow_iff {q : ColumnQuery} : q.inWindow t = true ↔ q.start ≤ t ∧ t ≤ q.stop := by
  simp [inWindow]

def ColumnQuery.wants (q : ColumnQuery) (seriesID : UInt64) (fieldID : UInt32) : Bool :=
  (q.seriesIDs.isEmpty || q.seriesIDs.contains seriesID) &&
    (q.fieldIDs.isEmpty || q.fieldIDs.contains fieldID)

structure Version where
  seriesID : UInt64
  fieldID : UInt32
  sample : VersionedSample
  deriving DecidableEq, Repr

variable {v : Version}

instance : Versioned VersionedSample Int64 Nat where
  key s := s.timestamp
  seq s := s.writeSeq.toNat

instance : Versioned Version (UInt64 × UInt32 × Int64) Nat where
  key v := (v.seriesID, v.fieldID, v.sample.timestamp)
  seq v := v.sample.writeSeq.toNat

@[simp] theorem VersionedSample.key_eq (s : VersionedSample) : Versioned.key s = s.timestamp := rfl

@[simp] theorem VersionedSample.seq_eq (s : VersionedSample) : Versioned.seq s = s.writeSeq.toNat := rfl

@[simp] theorem Version.key_eq (v : Version) : Versioned.key v = (v.seriesID, v.fieldID, v.sample.timestamp) := rfl

theorem Version.key_inj {u : Version} : Versioned.key u = Versioned.key v ↔
    u.seriesID = v.seriesID ∧ u.fieldID = v.fieldID ∧ u.sample.timestamp = v.sample.timestamp := by simp

theorem Version.of_key {id : UInt64} (h : Versioned.key v = (id, field, t)) :
    v.seriesID = id ∧ v.fieldID = field ∧ v.sample.timestamp = t := by simpa using h

@[simp] theorem Version.seq_eq (v : Version) : Versioned.seq v = v.sample.writeSeq.toNat := rfl

def ColumnData.versions (c : ColumnData) : List Version := c.samples.map fun s => ⟨c.seriesID, c.fieldID, s⟩

def versions (columns : List ColumnData) : List Version := columns.flatMap ColumnData.versions

def ResolvedPoint.versions (p : ResolvedPoint) : List Version :=
  p.fields.map fun f => ⟨p.seriesID, f.fieldID, ⟨p.timestamp, p.writeSeq, f.value⟩⟩

@[simp] theorem ColumnData.mem_versions {c : ColumnData} :
    v ∈ c.versions ↔ c.seriesID = v.seriesID ∧ c.fieldID = v.fieldID ∧ v.sample ∈ c.samples := by
  obtain ⟨s, f, x⟩ := v
  simp [ColumnData.versions]
  grind

@[simp] theorem mem_versions : v ∈ versions columns ↔ ∃ c ∈ columns, v ∈ c.versions := mem_flatMap

@[simp] theorem versions_nil : versions [] = [] := rfl

@[simp] theorem versions_append (a b : List ColumnData) :
    versions (a ++ b) = versions a ++ versions b := flatMap_append

theorem mem_versions_flatMap {α : Type} {l : List α} {f : α → List ColumnData} :
    v ∈ versions (l.flatMap f) ↔ ∃ a ∈ l, v ∈ versions (f a) := by
  simp only [mem_versions, mem_flatMap]
  constructor
  · rintro ⟨c, ⟨a, ha, hc⟩, hv⟩
    exact ⟨a, ha, c, hc, hv⟩
  · rintro ⟨a, ha, c, hc, hv⟩
    exact ⟨c, ⟨a, ha, hc⟩, hv⟩

theorem mem_versions_flatten {columns : List (List ColumnData)} :
    v ∈ versions columns.flatten ↔ ∃ cs ∈ columns, v ∈ versions cs := by
  rw [← flatMap_id', mem_versions_flatMap]

theorem mem_versions_filter_nonempty :
    v ∈ versions (columns.filter fun c => !c.samples.isEmpty) ↔ v ∈ versions columns := by
  simp only [mem_versions, mem_filter]
  constructor
  · rintro ⟨c, ⟨hc, -⟩, hv⟩
    exact ⟨c, hc, hv⟩
  · rintro ⟨c, hc, hv⟩
    refine ⟨c, ⟨hc, ?_⟩, hv⟩
    have := (ColumnData.mem_versions.mp hv).2.2
    simpa using ne_nil_of_mem this

end Mts.Model
