import Mts.Engine.RowMerge
import Mts.Sstable.ReadBack

/-! Field predicates pushed down to page statistics, `engine/query.go` over `shard_scan.go` and
`sstable/read_page_match.go`. The merge of the sources keeps the newest version of a key among the
pages that were read, so a skipped page can uncover an older version. -/

namespace Mts.Engine
open Lib Model Sstable List

variable {columns : List ColumnData} {predicates : List (UInt32 × FieldPredicate)} {v : Version}
  {q : StorageQuery} {row : Row} {shown : Version → Prop}

variable {encode : ValueEncoder} {opts : CompressionOptions}

structure WrittenPart (encode : ValueEncoder) (opts : CompressionOptions) where
  calls : List (List ColumnData)
  path : GoString
  level : Int
  id : GoString
  stored : StoredPart
  valid : AddSeriesCalls calls
  distinctFields : ∀ columns ∈ calls, (columns.map ColumnData.fieldID).Nodup
  written : writePart encode opts path level id calls = .ok stored

variable {p : WrittenPart encode opts}

structure ShardContent (encode : ValueEncoder) (opts : CompressionOptions) where
  mem : MemTable
  parts : List (WrittenPart encode opts)
  tombstones : List Tombstone
  distinctColumns : mem.DistinctColumns

def fieldPredicatesByID (predicates : List (UInt32 × FieldPredicate)) (id : UInt32) : List FieldPredicate :=
  (predicates.filter fun p => p.1 = id).map Prod.snd

def storageQuery (q : ColumnQuery) (predicates : List (UInt32 × FieldPredicate)) : StorageQuery :=
  { toColumnQuery := q, boundary := .none, fieldPredicates := fieldPredicatesByID predicates }

namespace ShardContent

def scanColumns (s : ShardContent encode opts) (q : StorageQuery) : Except PageError (List ColumnData) := do
  let sources ← s.parts.mapM fun p => p.stored.scanColumns q
  .ok (((mergeColumnDataStreams (s.mem.query q.toColumnQuery :: sources)).map fun c =>
    { c with samples := filterTombstonedSamples c s.tombstones }).filter fun c => !c.samples.isEmpty)

/-- `QueryRows` on one shard: `pushed` prunes pages, `predicates` filters the rows. -/
def queryRows (s : ShardContent encode opts) (q : ColumnQuery) (pushed predicates : List (UInt32 × FieldPredicate)) :
    Except PageError (List Row) := do
  let columns ← s.scanColumns (storageQuery q pushed)
  .ok ((rowMergeStream (mergeColumnDataStreams [columns])).filter (rowMatchesPredicates predicates))

end ShardContent

def WrittenPart.Reads (p : WrittenPart encode opts) (q : StorageQuery) (v : Version) : Prop :=
  v.seriesID ∈ q.seriesIDs ∧ ∃ r, FirstRow (p.calls.filterMap callRow) r ∧ RowReads encode opts q r v

theorem pairwise_fieldID_callRow (hfields : (columns.map ColumnData.fieldID).Nodup)
    (hr : callRow columns = some r) : (r.columns.map ColumnData.fieldID).Pairwise (· < ·) := by
  cases columns with
  | nil => simp [callRow] at hr
  | cons c cs =>
    cases hr
    have hle : ((sortByField (c :: cs)).map ColumnData.fieldID).Pairwise (· ≤ ·) :=
      pairwise_map.mpr (pairwise_insertionSort _ _)
    have hnodup : ((sortByField (c :: cs)).map ColumnData.fieldID).Nodup :=
      ((perm_insertionSort _ _).map _).nodup_iff.mpr hfields
    exact (hle.and hnodup).imp fun h => UInt32.lt_of_le_of_ne h.1 h.2

theorem WrittenPart.scanColumns_ok (p : WrittenPart encode opts) (homit : opts.omitWriteSeq = false)
    (hids : q.seriesIDs ≠ []) :
    ∃ out, p.stored.scanColumns q = .ok out ∧
      (out.Pairwise columnLess ∧ ∀ v, v ∈ versions out ↔ p.Reads q v) := by
  obtain ⟨part, sp, hsp, hpart, hrows⟩ := writePart_ok encode homit p.valid p.path p.level p.id
  obtain rfl : p.stored = sp := Except.ok.inj (p.written.symm.trans hsp)
  obtain ⟨out, hout, hmem⟩ := hpart.mem_scanColumns hids
  refine ⟨out, hout, hpart.pairwise_columnLess_scanColumns hids ?_ hout, by rw [hrows] at hmem; exact hmem⟩
  intro r hr
  obtain ⟨columns, hcol, hr⟩ := mem_filterMap.mp (hrows ▸ hr : r ∈ p.calls.filterMap callRow)
  exact pairwise_fieldID_callRow (p.distinctFields columns hcol) hr

def Satisfies (shown : Version → Prop) (predicates : List (UInt32 × FieldPredicate)) (id : UInt64)
    (t : Int64) : Prop :=
  ∀ p ∈ predicates, ∃ v, shown v ∧ Versioned.key v = (id, p.1, t) ∧
    valueMatchesPredicate v.sample.value p.2 = true

theorem rowMatchesPredicates_iff :
    rowMatchesPredicates predicates row = true ↔
      ∀ p ∈ predicates, ∃ x, row.fields p.1 = some x ∧ valueMatchesPredicate x p.2 = true := by
  rw [rowMatchesPredicates, all_eq_true]
  refine forall_congr' fun p => forall_congr' fun _ => ?_
  cases row.fields p.1 <;> simp

theorem RowOf.satisfies (h : RowOf {v | shown v} row) :
    rowMatchesPredicates predicates row = true ↔
      Satisfies shown predicates row.seriesID row.timestamp := by
  rw [rowMatchesPredicates_iff]
  refine forall_congr' fun p => forall_congr' fun _ => ?_
  simp only [h.fields_iff]
  constructor
  · rintro ⟨_, ⟨v, hv, hk, rfl⟩, hm⟩
    exact ⟨v, hv, hk, hm⟩
  · rintro ⟨v, hv, hk, hm⟩
    exact ⟨_, ⟨v, hv, hk, rfl⟩, hm⟩

theorem RowOf.transfer {A B : Version → Prop} (hA : ∀ u v, A u → A v → Versioned.key u = Versioned.key v → u = v)
    (hB : ∀ u v, B u → B v → Versioned.key u = Versioned.key v → u = v)
    (hother : ∀ v : Version, (∀ p ∈ predicates, p.1 ≠ v.fieldID) → (A v ↔ B v)) (hsame : ∀ p ∈ predicates, ∃ v w, A v ∧ B w ∧ Versioned.key v = (row.seriesID, p.1, row.timestamp) ∧
      Versioned.key w = (row.seriesID, p.1, row.timestamp) ∧ v.sample.value = w.sample.value)
    (h : RowOf {v | A v} row) : RowOf {v | B v} row where
  exists_version := by
    obtain ⟨v, hv, hs, ht⟩ := h.exists_version
    by_cases hp : ∃ p ∈ predicates, p.1 = v.fieldID
    · obtain ⟨p, hp, -⟩ := hp
      obtain ⟨-, w, -, hw, -, hk, -⟩ := hsame p hp
      obtain ⟨hws, hk⟩ := Prod.mk.inj hk
      exact ⟨w, hw, hws, (Prod.mk.inj hk).2⟩
    · exact ⟨v, (hother v fun p hmem hf => hp ⟨p, hmem, hf⟩).mp hv, hs, ht⟩
  fields_iff f x := by
    rw [h.fields_iff]
    by_cases hp : ∃ p ∈ predicates, p.1 = f
    · obtain ⟨p, hp, rfl⟩ := hp
      obtain ⟨v, w, hv, hw, hkv, hkw, heq⟩ := hsame p hp
      constructor
      · rintro ⟨u, hu, hk, rfl⟩
        exact ⟨w, hw, hkw, by rw [hA u v hu hv (hk.trans hkv.symm), heq]⟩
      · rintro ⟨u, hu, hk, rfl⟩
        exact ⟨v, hv, hkv, by rw [hB u w hu hw (hk.trans hkw.symm), heq]⟩
    · have hf : ∀ u, Versioned.key u = (row.seriesID, f, row.timestamp) → (A u ↔ B u) := by
        intro u hk
        refine hother u fun p hmem hne => hp ⟨p, hmem, hne.trans ?_⟩
        exact (Prod.mk.inj (Prod.mk.inj hk).2).1
      constructor
      · rintro ⟨u, hu, hk, hx⟩
        exact ⟨u, (hf u hk).mp hu, hk, hx⟩
      · rintro ⟨u, hu, hk, hx⟩
        exact ⟨u, (hf u hk).mpr hu, hk, hx⟩

theorem exists_matching_row (h : RowsOf {v | shown v} rows) {id : UInt64}
    (hsat : Satisfies shown predicates id t) {p : UInt32 × FieldPredicate} (hp : p ∈ predicates) :
    ∃ row, RowOf {v | shown v} row ∧ rowMatchesPredicates predicates row = true ∧
      row.seriesID = id ∧ row.timestamp = t := by
  obtain ⟨v, hv, hk, -⟩ := hsat p hp
  obtain ⟨row, hmem, hs, ht⟩ := h.complete v hv
  have hrow := h.sound row hmem
  have hid : row.seriesID = id := hs.trans (Prod.mk.inj hk).1
  have htime : row.timestamp = t := ht.trans (Prod.mk.inj (Prod.mk.inj hk).2).2
  refine ⟨row, hrow, hrow.satisfies.mpr ?_, hid, htime⟩
  rw [hid, htime]
  exact hsat

theorem WrittenPart.Reads.inWindow (h : p.Reads q v) :
    q.wants v.seriesID v.fieldID = true ∧ q.inWindow v.sample.timestamp = true := by
  obtain ⟨hid, r, -, -, c, -, hwant, hf, hreads⟩ := h
  obtain ⟨x, -, -, hin⟩ := hreads.exists_sample
  refine ⟨?_, hin⟩
  rw [ColumnQuery.wants, Bool.and_eq_true, ← hf]
  exact ⟨by simp [hid], hwant⟩

namespace ShardContent
variable {s : ShardContent encode opts} {q : StorageQuery}

def sourceVersions (s : ShardContent encode opts) (q : StorageQuery) : Set Version :=
  {v | v ∈ s.mem.versions} ∪ {v | ∃ p ∈ s.parts, p.Reads q v}

/-- The newest version of a key over all sources, in the window and not deleted. -/
def Shown (s : ShardContent encode opts) (q : StorageQuery) (v : Version) : Prop :=
  q.wants v.seriesID v.fieldID = true ∧ q.inWindow v.sample.timestamp = true ∧
    Lib.Visible (s.sourceVersions q) (Covered s.tombstones) v

theorem scanColumns_ok (homit : opts.omitWriteSeq = false) (hids : q.seriesIDs ≠ [])
    (hc : Consistent (s.sourceVersions q)) :
    ∃ columns, s.scanColumns q = .ok columns ∧ ColumnsSorted columns ∧
      ∀ v, v ∈ versions columns ↔ s.Shown q v := by
  obtain ⟨sources, hok, hsources⟩ := mapM_ok fun p (_ : p ∈ s.parts) => p.scanColumns_ok homit hids
  refine ⟨_, by rw [scanColumns, hok]; rfl, ?_⟩
  have hreads : ∀ v, (∃ source ∈ sources, v ∈ versions source) ↔ v ∈ {v | ∃ p ∈ s.parts, p.Reads q v} ∧
      q.wants v.seriesID v.fieldID = true ∧ q.inWindow v.sample.timestamp = true := by
    intro v
    constructor
    · rintro ⟨source, hsource, hv⟩
      obtain ⟨p, hp, -, hmem⟩ := exists_of_forall₂ hsources hsource
      have hv := (hmem v).mp hv
      exact ⟨⟨p, hp, hv⟩, hv.inWindow⟩
    · rintro ⟨⟨p, hp, hv⟩, -⟩
      obtain ⟨source, hsource, -, hmem⟩ := exists_of_forall₂ hsources.flip hp
      exact ⟨source, hsource, (hmem v).mpr hv⟩
  have hsorted : SourcesSorted sources := by
    intro source hsource
    obtain ⟨p, -, hp, -⟩ := exists_of_forall₂ hsources hsource
    exact hp
  obtain ⟨hmem, hkeys, htimes⟩ := Shard.scan_spec s.distinctColumns hc hsorted hreads
  exact ⟨⟨hkeys, htimes⟩, hmem⟩

theorem samples_ne_nil (h : s.scanColumns q = .ok columns) (hc : c ∈ columns) : c.samples ≠ [] := by
  obtain ⟨sources, -, h⟩ := except_bind_ok h
  cases h
  have := (mem_filter.mp hc).2
  simpa using this

theorem mem_versions_mergeOne (h : ColumnsSorted columns) :
    ColumnsSorted (mergeColumnDataStreams [columns]) ∧
      ∀ v, v ∈ versions (mergeColumnDataStreams [columns]) ↔ v ∈ versions columns := by
  have hflat : ([columns] : List (List ColumnData)).flatten = columns := by simp
  have hkey : ∀ u ∈ versions columns, ∀ v ∈ versions columns,
      Versioned.key u = Versioned.key v → u = v := by
    intro u hu v hv hk
    exact inj_on_of_nodup_map h.nodup_keys hu hv hk
  have hsorted : SourcesSorted [columns] := by simpa [SourcesSorted] using h.keys
  have hmerge := mergeColumnDataStreams_columnsMergeTo hsorted
    (by rw [hflat]; exact fun u hu v hv hk _ => hkey u hu v hv hk)
  refine ⟨⟨hmerge.keys, hmerge.times⟩, fun v => ?_⟩
  rw [hmerge.mem_iff, hflat]
  refine ⟨And.left, fun hv => ⟨hv, fun u hu hk => ?_⟩⟩
  rw [hkey u hu v hv hk]

theorem queryRows_ok {q : ColumnQuery} (homit : opts.omitWriteSeq = false) (hids : q.seriesIDs ≠ [])
    (pushed predicates : List (UInt32 × FieldPredicate))
    (hc : Consistent (s.sourceVersions (storageQuery q pushed))) :
    ∃ all rows, RowsOf {v | s.Shown (storageQuery q pushed) v} all ∧
      s.queryRows q pushed predicates = .ok rows ∧ rows = all.filter (rowMatchesPredicates predicates) := by
  obtain ⟨columns, hok, hsorted, hmem⟩ := scanColumns_ok homit hids hc
  obtain ⟨hsorted', hmem'⟩ := mem_versions_mergeOne hsorted
  have hset : {v | v ∈ versions (mergeColumnDataStreams [columns])} = {v | s.Shown (storageQuery q pushed) v} := by
    ext v
    exact (hmem' v).trans (hmem v)
  exact ⟨_, _, hset ▸ rowMergeStream_rowsOf hsorted', by rw [queryRows, hok]; rfl, rfl⟩

/-- Where the predicates hold for the pages read or for all pages, the skipped pages change the newest
value of no field with a predicate. -/
def PruningSafe (s : ShardContent encode opts) (q : ColumnQuery)
    (predicates : List (UInt32 × FieldPredicate)) : Prop :=
  ∀ id t, Satisfies (s.Shown (storageQuery q predicates)) predicates id t ∨
      Satisfies (s.Shown (storageQuery q [])) predicates id t →
    ∀ p ∈ predicates, ∃ v w, s.Shown (storageQuery q predicates) v ∧ s.Shown (storageQuery q []) w ∧
      Versioned.key v = (id, p.1, t) ∧ Versioned.key w = (id, p.1, t) ∧ v.sample.value = w.sample.value

theorem Shown.eq (hc : Consistent (s.sourceVersions q)) (hu : s.Shown q u) (hv : s.Shown q v)
    (hk : Versioned.key u = Versioned.key v) : u = v := hu.2.2.1.eq hc hv.2.2.1 hk

theorem reads_storageQuery {q : ColumnQuery} :
    (p.Reads (storageQuery q predicates) v → p.Reads (storageQuery q []) v) ∧
      ((∀ x ∈ predicates, x.1 ≠ v.fieldID) → p.Reads (storageQuery q []) v →
        p.Reads (storageQuery q predicates) v) := by
  constructor
  · rintro ⟨hid, r, hfirst, hs, c, hc, hwant, hf, w, hw, hsample⟩
    obtain ⟨hw, hmatch⟩ := mem_windowsRead hw
    refine ⟨hid, r, hfirst, hs, c, hc, hwant, hf, w, (mem_windowsRead_of_none rfl).mpr ⟨hw, ?_⟩, hsample⟩
    rw [windowMatches, valuePageMatchesQuery, Bool.and_eq_true] at hmatch ⊢
    exact ⟨hmatch.1, rfl⟩
  · rintro hother ⟨hid, r, hfirst, hs, c, hc, hwant, hf, w, hw, hsample⟩
    obtain ⟨hw, hmatch⟩ := mem_windowsRead hw
    refine ⟨hid, r, hfirst, hs, c, hc, hwant, hf, w, (mem_windowsRead_of_none rfl).mpr ⟨hw, ?_⟩, hsample⟩
    have hnone : fieldPredicatesByID predicates c.fieldID = [] := by
      rw [fieldPredicatesByID, map_eq_nil_iff, filter_eq_nil_iff]
      intro x hx
      rw [hf]
      simpa using hother x hx
    rw [windowMatches, valuePageMatchesQuery, Bool.and_eq_true] at hmatch ⊢
    refine ⟨hmatch.1, ?_⟩
    simp [storageQuery, hnone]

theorem sourceVersions_subset (s : ShardContent encode opts) (q : ColumnQuery)
    (predicates : List (UInt32 × FieldPredicate)) :
    s.sourceVersions (storageQuery q predicates) ⊆ s.sourceVersions (storageQuery q []) := by
  apply Set.union_subset_union_right
  rintro v ⟨p, hp, hv⟩
  exact ⟨p, hp, reads_storageQuery.1 hv⟩

theorem shown_iff_of_no_predicate {q : ColumnQuery} (hother : ∀ x ∈ predicates, x.1 ≠ v.fieldID) :
    s.Shown (storageQuery q predicates) v ↔ s.Shown (storageQuery q []) v := by
  refine and_congr_right fun _ => and_congr_right fun _ => visible_congr_key fun u hk => ?_
  have hf : u.fieldID = v.fieldID := (Prod.mk.inj (Prod.mk.inj hk).2).1
  refine ⟨fun hu => s.sourceVersions_subset q predicates hu, ?_⟩
  rintro (hu | ⟨p, hp, hu⟩)
  · exact .inl hu
  · exact .inr ⟨p, hp, reads_storageQuery.2 (hf ▸ hother) hu⟩

def versionCall (writeSeq : UInt64) (value : Int64) : List (List ColumnData) :=
  [[⟨1, 1, .int64, [⟨5, writeSeq, .int64 value⟩]⟩]]

theorem addSeriesCalls_versionCall (writeSeq : UInt64) (value : Int64) :
    AddSeriesCalls (versionCall writeSeq value) where
  writable := by
    intro columns hcol c hc
    obtain rfl := mem_singleton.mp hcol
    obtain rfl := mem_singleton.mp hc
    constructor <;> simp [FieldValue.type]
  oneSeries := by simp [versionCall]
  ordered := by simp [versionCall]
  unique := by simp [versionCall, versions, ColumnData.versions]
  nonempty := by simp [versionCall]

def versionStored (writeSeq : UInt64) (value : Int64) : StoredPart :=
  match writePart plainEncoder uncompressed [] 0 [] (versionCall writeSeq value) with
  | .ok sp => sp
  | .error _ => ⟨(newPartWriter [] 0 []).partMeta, [], [], []⟩

def versionPart (writeSeq : UInt64) (value : Int64) : WrittenPart plainEncoder uncompressed where
  calls := versionCall writeSeq value
  path := []
  level := 0
  id := []
  stored := versionStored writeSeq value
  valid := addSeriesCalls_versionCall writeSeq value
  distinctFields := by simp [versionCall]
  written := by
    obtain ⟨-, sp, hsp, -⟩ := writePart_ok plainEncoder (show uncompressed.omitWriteSeq = false from rfl)
      (addSeriesCalls_versionCall writeSeq value) [] 0 []
    rw [versionStored, hsp]

theorem versionPart_reads (h : (versionPart writeSeq value).Reads q v) : v = ⟨1, 1, ⟨5, writeSeq, .int64 value⟩⟩ := by
  obtain ⟨-, r, hfirst, hs, c, hc, -, hf, w, hw, hsample⟩ := h
  obtain ⟨columns, hcol, hr⟩ := mem_filterMap.mp hfirst.mem
  obtain rfl := mem_singleton.mp hcol
  obtain rfl := mem_singleton.mp ((mem_columns_callRow hr).mp hc)
  cases hr
  obtain ⟨-, i, x, hx, -, heq⟩ := mem_pageSamples.mp hsample
  have hmem : x ∈ [⟨5, writeSeq, .int64 value⟩] := mem_pageWindows.mpr ⟨w, (mem_windowsRead hw).1, mem_of_getElem? hx⟩
  obtain rfl := mem_singleton.mp hmem
  obtain ⟨seriesID, fieldID, sample⟩ := v
  obtain rfl : fieldID = 1 := hf.symm
  obtain rfl : seriesID = 1 := hs
  simpa [readBack, compressionEnabled, uncompressed] using heq

def versionParts (versions : List (UInt64 × Int64)) : ShardContent plainEncoder uncompressed where
  mem := MemTable.empty
  parts := versions.map fun x => versionPart x.1 x.2
  tombstones := []
  distinctColumns := MemTable.distinctColumns_empty

theorem consistent_versionParts {versions : List (UInt64 × Int64)} (h : (versions.map Prod.fst).Nodup) :
    Consistent ((versionParts versions).sourceVersions q) := by
  have hread : ∀ v ∈ (versionParts versions).sourceVersions q,
      ∃ x ∈ versions, v = ⟨1, 1, ⟨5, x.1, .int64 x.2⟩⟩ := by
    rintro v (hv | ⟨p, hp, hv⟩)
    · exact absurd hv (by simp [versionParts])
    · obtain ⟨x, hx, rfl⟩ := mem_map.mp hp
      exact ⟨x, hx, versionPart_reads hv⟩
  intro u hu v hv _ hseq
  obtain ⟨x, hx, rfl⟩ := hread u hu
  obtain ⟨y, hy, rfl⟩ := hread v hv
  have hxy : x.1 = y.1 := UInt64.toNat_inj.mp hseq
  rw [inj_on_of_nodup_map h hx hy hxy]

def greaterThan (value : Int64) : List (UInt32 × FieldPredicate) := [(1, ⟨.gt, .int64 value⟩)]

end ShardContent
end Mts.Engine
