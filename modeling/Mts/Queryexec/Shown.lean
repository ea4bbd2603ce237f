import Mts.Queryexec.Execute
import Mts.Queryexec.Planned

/-! The content of the open shards and what a plan shows of it: the merge over the shards, the columns
with the names of the catalog, and the rows of both. -/

namespace Mts.Queryexec
open Lib Model Sstable List

variable {encode : ValueEncoder} {opts : CompressionOptions} {s : Engine.ShardContent encode opts}
  {v : Version} {out : List ColumnData} {q : StorageQuery}

def stored (s : Engine.ShardContent encode opts) : Set Version :=
  {v | v ∈ s.mem.versions} ∪ {v | ∃ p ∈ s.parts, v ∈ versions p.calls.flatten}

def Catalogued (catalog : Snapshot) (id : UInt64) (fieldID : UInt32) : Prop :=
  ∃ s ∈ catalog.series, s.id = id ∧ ∃ f ∈ catalog.fields, f.id = fieldID ∧ f.measurement = s.measurement

namespace QueryEngine

def Holds (e : QueryEngine encode opts) (q : Query) (shard : OpenShard encode opts) : Prop :=
  shard ∈ e.shards ∧ shard.database = (normalizeQuery e.defaults q).database ∧
    shard.retentionPolicy = (normalizeQuery e.defaults q).retentionPolicy

/-- What writes leave behind: catalogued columns, timestamps in the range of the shard, and one version
of a key and sequence number. -/
structure Sound (e : QueryEngine encode opts) (q : Query) : Prop where
  catalogued : ∀ shard, e.Holds q shard → ∀ v ∈ stored shard.content,
    Catalogued e.catalog v.seriesID v.fieldID
  inRange : ∀ shard, e.Holds q shard → ∀ v ∈ stored shard.content,
    shard.start ≤ v.sample.timestamp ∧ v.sample.timestamp ≤ shard.stop
  consistent : Consistent {v | ∃ shard, e.Holds q shard ∧ v ∈ stored shard.content}

def Live (e : QueryEngine encode opts) (q : Query) (v : Version) : Prop :=
  IsLatest {u | ∃ shard, e.Holds q shard ∧
    Visible (stored shard.content) (Engine.Covered shard.content.tombstones) u} v

def FieldsFrom (e : QueryEngine encode opts) (q : Query) (shown : Version → Prop) (row : Row) : Prop :=
  ∀ name x, row.fields name = some x ↔ ∃ f ∈ e.catalog.fields, f.measurement = q.measurement ∧ f.name = name ∧
    ∃ v, shown v ∧ Versioned.key v = (row.seriesID, f.id, row.timestamp) ∧ v.sample.value = x

structure StoredRow (e : QueryEngine encode opts) (q : Query) (row : Row) : Prop where
  series : ∃ s ∈ e.catalog.series, s.id = row.seriesID ∧ s.measurement = q.measurement ∧ s.tags = row.tags
  fields : e.FieldsFrom q (e.Live q) row

def Shown (e : QueryEngine encode opts) (q : Query) (scan : StorageQuery) (v : Version) : Prop :=
  IsLatest {u | ∃ shard ∈ e.shards.filter (shardMatches (plannedQuery e.defaults q)),
    shard.content.Shown scan u} v

end QueryEngine

theorem shown_storageQuery_iff {q : ColumnQuery} (hids : q.seriesIDs ≠ [])
    (hkept : ∀ p ∈ s.parts, Kept encode opts p.calls q) :
    s.Shown (Engine.storageQuery q []) v ↔ (q.wants v.seriesID v.fieldID = true ∧
      q.inWindow v.sample.timestamp = true) ∧ Visible (stored s) (Engine.Covered s.tombstones) v := by
  have hreads : ∀ p ∈ s.parts, ∀ u, p.Reads (Engine.storageQuery q []) u ↔ Asked p.calls q u := by
    intro p hp u
    constructor
    · rintro ⟨hid, r, hfirst, hr⟩
      exact (hkept p hp).asked p.valid hfirst.mem hid hr
    · intro hu
      have hid : u.seriesID ∈ q.seriesIDs := by
        have := (Bool.and_eq_true .. ▸ hu.2.1 : _ ∧ _).1
        simpa [hids] using this
      exact ⟨hid, (hkept p hp).reads p.valid hu⟩
  rw [Engine.ShardContent.Shown, and_assoc]
  refine and_congr_right fun hwants => and_congr_right fun hin => visible_congr_key fun u hk => ?_
  -- a version of the key is in the window and asked for as `v` is
  have hkey := Version.key_inj.mp hk
  have hu : q.wants u.seriesID u.fieldID = true ∧ q.inWindow u.sample.timestamp = true := by
    rw [hkey.1, hkey.2.1, hkey.2.2]
    exact ⟨hwants, hin⟩
  refine or_congr Iff.rfl (exists_congr fun p => and_congr_right fun hp => ?_)
  rw [hreads p hp u]
  exact ⟨And.left, fun hmem => ⟨hmem, hu⟩⟩

namespace QueryEngine
variable {e : QueryEngine encode opts} {q : Query} {shard : OpenShard encode opts}

def plannedScan (e : QueryEngine encode opts) (q : Query) : ColumnQuery :=
  ⟨plannedSeries e.defaults e.catalog q, plannedFields e.catalog q, (plannedQuery e.defaults q).startTime,
    (plannedQuery e.defaults q).endTime⟩

/-- Every part of the database and policy gives back what was written to it in the plan's window. -/
def Readable (e : QueryEngine encode opts) (q : Query) : Prop :=
  ∀ shard, e.Holds q shard → ∀ p ∈ shard.content.parts, Kept encode opts p.calls (e.plannedScan q)

theorem holds_of_shardMatches (h : shard ∈ e.shards.filter (shardMatches (plannedQuery e.defaults q))) :
    e.Holds q shard := by
  obtain ⟨hmem, hmatch⟩ := mem_filter.mp h
  obtain ⟨tags, start, stop, hplan⟩ := plannedQuery_frame e.defaults q
  rw [hplan, shardMatches, Bool.and_eq_true, Bool.and_eq_true] at hmatch
  exact ⟨hmem, of_decide_eq_true hmatch.1.1, of_decide_eq_true hmatch.1.2⟩

theorem shardMatches_of_inWindow (hs : e.Sound q) (hshard : e.Holds q shard) (hv : v ∈ stored shard.content)
    (hin : (e.plannedScan q).inWindow v.sample.timestamp = true) :
    shard ∈ e.shards.filter (shardMatches (plannedQuery e.defaults q)) := by
  obtain ⟨hstart, hstop⟩ := hs.inRange shard hshard v hv
  obtain ⟨hlow, hhigh⟩ := ColumnQuery.inWindow_iff.mp hin
  obtain ⟨hmem, hdb, hpolicy⟩ := hshard
  obtain ⟨tags, start, stop, hplan⟩ := plannedQuery_frame e.defaults q
  have hwindow : (plannedQuery e.defaults q).startTime ≤ shard.stop ∧
      shard.start ≤ (plannedQuery e.defaults q).endTime :=
    ⟨Int64.le_trans hlow hstop, Int64.le_trans hstart hhigh⟩
  rw [hplan] at hwindow ⊢
  refine mem_filter.mpr ⟨hmem, ?_⟩
  simp only [shardMatches, hdb, hpolicy, decide_true, Bool.true_and]
  exact Bool.and_eq_true .. ▸ ⟨decide_eq_true hwindow.1, decide_eq_true hwindow.2⟩

/-- Without pruning a plan shows the live versions that it asks for. -/
theorem shown_full_iff (hs : e.Sound q) (hids : plannedSeries e.defaults e.catalog q ≠ []) (hread : e.Readable q) :
    e.Shown q (Engine.storageQuery (e.plannedScan q) []) v ↔
      ((e.plannedScan q).wants v.seriesID v.fieldID = true ∧
        (e.plannedScan q).inWindow v.sample.timestamp = true) ∧ e.Live q v := by
  let P : UInt64 × UInt32 × Int64 → Prop := fun k =>
    (e.plannedScan q).wants k.1 k.2.1 = true ∧ (e.plannedScan q).inWindow k.2.2 = true
  have hset : {u | ∃ shard ∈ e.shards.filter (shardMatches (plannedQuery e.defaults q)),
      shard.content.Shown (Engine.storageQuery (e.plannedScan q) []) u} =
      {u | u ∈ {w | ∃ shard, e.Holds q shard ∧
        Visible (stored shard.content) (Engine.Covered shard.content.tombstones) w} ∧ P (Versioned.key u)} := by
    ext u
    constructor
    · rintro ⟨shard, hshard, hu⟩
      have hholds := holds_of_shardMatches hshard
      obtain ⟨hasked, hvisible⟩ := (shown_storageQuery_iff hids (hread shard hholds)).mp hu
      exact ⟨⟨shard, hholds, hvisible⟩, hasked⟩
    · rintro ⟨⟨shard, hholds, hvisible⟩, hasked⟩
      exact ⟨shard, shardMatches_of_inWindow hs hholds hvisible.1.1 hasked.2,
        (shown_storageQuery_iff hids (hread shard hholds)).mpr ⟨hasked, hvisible⟩⟩
  rw [Shown, hset, isLatest_sep_iff]
  rfl

theorem sourceVersions_subset_stored (hread : e.Readable q) (hshard : e.Holds q shard)
    (pushed : List (UInt32 × FieldPredicate)) :
    shard.content.sourceVersions (Engine.storageQuery (e.plannedScan q) pushed) ⊆ stored shard.content := by
  rintro v (hv | ⟨p, hp, hv⟩)
  · exact .inl hv
  · obtain ⟨hid, r, hfirst, hr⟩ := Engine.ShardContent.reads_storageQuery.1 hv
    exact .inr ⟨p, hp, ((hread shard hshard p hp).asked p.valid hfirst.mem hid hr).1⟩

theorem consistent_stored (hs : e.Sound q) (hshard : e.Holds q shard) :
    Consistent (stored shard.content) := hs.consistent.mono fun _ hv => ⟨shard, hshard, hv⟩

end QueryEngine

theorem exists_written_of_scanned (p : Engine.WrittenPart encode opts) (homit : opts.omitWriteSeq = false)
    (hids : q.seriesIDs ≠ []) (hout : p.stored.scanColumns q = .ok out) :
    out.Pairwise Engine.columnLess ∧ ∀ c ∈ out, (c.seriesID ∈ q.seriesIDs ∧
      ∃ v ∈ versions p.calls.flatten, v.seriesID = c.seriesID ∧ v.fieldID = c.fieldID) ∧
      ∀ x ∈ c.samples, ∃ v ∈ versions p.calls.flatten, v.sample.timestamp = x.timestamp := by
  obtain ⟨part, sp, hsp, hpart, hrows⟩ := writePart_ok encode homit p.valid p.path p.level p.id
  obtain rfl : p.stored = sp := Except.ok.inj (p.written.symm.trans hsp)
  have hcolumns : ∀ {r : IndexRow}, r ∈ part.rows → ∀ {d : ColumnData}, d ∈ r.columns → ∀ {x}, x ∈ d.samples →
      (⟨r.seriesID, d.fieldID, x⟩ : Version) ∈ versions p.calls.flatten := by
    intro r hr d hd x hx
    obtain ⟨columns, hcol, hr⟩ := mem_filterMap.mp (hrows ▸ hr : r ∈ p.calls.filterMap callRow)
    have hd := (mem_columns_callRow hr).mp hd
    exact mem_versions_calls.mpr ⟨columns, hcol, d, hd, p.valid.series_callRow hcol hr hd, rfl, hx⟩
  constructor
  · refine hpart.pairwise_columnLess_scanColumns hids (fun r hr => ?_) hout
    obtain ⟨columns, hcol, hr⟩ := mem_filterMap.mp (hrows ▸ hr : r ∈ p.calls.filterMap callRow)
    exact Engine.pairwise_fieldID_callRow (p.distinctFields columns hcol) hr
  · intro c hc
    constructor
    · obtain ⟨hasked, r, hr, hs, d, hd, hf⟩ := hpart.exists_column_of_scanned hids hout hc
      obtain ⟨columns, hcol, hrow⟩ := mem_filterMap.mp (hrows ▸ hr : r ∈ p.calls.filterMap callRow)
      have hwritable := p.valid.writable columns hcol d ((mem_columns_callRow hrow).mp hd)
      obtain ⟨x, hx⟩ := exists_mem_of_ne_nil _ hwritable.nonempty
      exact ⟨hasked, _, hcolumns hr hd hx, hs, hf⟩
    · intro x hx
      obtain ⟨out', hout', hmem⟩ := hpart.mem_scanColumns hids
      obtain rfl : out = out' := Except.ok.inj (hout.symm.trans hout')
      obtain ⟨-, r, hfirst, hreads⟩ := (hmem ⟨c.seriesID, c.fieldID, x⟩).mp (mem_versions.mpr ⟨c, hc, by simp [hx]⟩)
      obtain ⟨d, hd, -, -, y, hy, ht, -⟩ := hreads.exists_sample
      exact ⟨_, hcolumns hfirst.mem hd hy, ht⟩

/-- What a shard returns is asked for and stored in it under the same key, at every timestamp. -/
theorem exists_stored_of_scanned (homit : opts.omitWriteSeq = false) (hc : Consistent (stored s))
    (hids : q.seriesIDs ≠ []) (hout : s.scanColumns q = .ok out) :
    out.Pairwise Engine.columnLess ∧ ∀ c ∈ out,
      (c.seriesID ∈ q.seriesIDs ∧ ∃ v ∈ stored s, v.seriesID = c.seriesID ∧ v.fieldID = c.fieldID) ∧
      ∀ x ∈ c.samples, ∃ v ∈ stored s, v.sample.timestamp = x.timestamp := by
  have hne : ∀ c ∈ out, c.samples ≠ [] := fun c hmem => Engine.ShardContent.samples_ne_nil hout hmem
  obtain ⟨sources, hok, hmerge⟩ := except_bind_ok hout
  cases hmerge
  have hparts := forall₂_of_mapM hok
  have hsorted : Engine.SourcesSorted (s.mem.query q.toColumnQuery :: sources) := by
    refine forall_mem_cons.mpr ⟨Engine.MemTable.pairwise_columnLess_query s.distinctColumns _, ?_⟩
    intro source hsource
    obtain ⟨p, -, hp⟩ := exists_of_forall₂ hparts hsource
    exact (exists_written_of_scanned p homit hids hp).1
  obtain ⟨hkeys, hmerged⟩ := Engine.mergeColumnDataStreams_merged hsorted
  refine ⟨List.Pairwise.filter _ (pairwise_map.mpr (hkeys.imp fun {c d} hlt => ?_)), fun c hmem => ?_⟩
  · exact hlt
  -- a sample that is left comes from a source column of the same key
  have hsource : ∀ x ∈ c.samples,
      (c.seriesID ∈ q.seriesIDs ∧ ∃ v ∈ stored s, v.seriesID = c.seriesID ∧ v.fieldID = c.fieldID) ∧
      ∃ v ∈ stored s, v.sample.timestamp = x.timestamp := by
    obtain ⟨d, hd, rfl⟩ := mem_map.mp (mem_of_mem_filter hmem)
    intro x hx
    obtain ⟨d', hd', hsame, hx'⟩ := (hmerged d hd).samples x (mem_of_mem_filter hx)
    rw [flatten_cons, mem_append] at hd'
    rcases hd' with hd' | hd'
    · have hv : (⟨d'.seriesID, d'.fieldID, x⟩ : Version) ∈ versions (s.mem.query q.toColumnQuery) :=
        mem_versions.mpr ⟨d', hd', by simp [hx']⟩
      have hcm : Consistent {v | v ∈ s.mem.versions} := hc.mono Set.subset_union_left
      obtain ⟨hwants, -, hlatest⟩ := (Engine.MemTable.mem_versions_query s.distinctColumns hcm).mp hv
      have hasked : d'.seriesID ∈ q.seriesIDs := by
        have hcontains := (Bool.and_eq_true .. ▸ hwants : _ ∧ _).1
        simpa [hids] using hcontains
      exact ⟨⟨hsame.1 ▸ hasked, _, .inl hlatest.1, hsame.1, hsame.2⟩, _, .inl hlatest.1, rfl⟩
    · obtain ⟨source, hsource, hd'⟩ := mem_flatten.mp hd'
      obtain ⟨p, hp, hscan⟩ := exists_of_forall₂ hparts hsource
      obtain ⟨⟨hasked, v, hv, hvs, hvf⟩, htimes⟩ := (exists_written_of_scanned p homit hids hscan).2 d' hd'
      refine ⟨⟨hsame.1 ▸ hasked, v, .inr ⟨p, hp, hv⟩, hvs.trans hsame.1, hvf.trans hsame.2⟩, ?_⟩
      obtain ⟨w, hw, hwt⟩ := htimes x hx'
      exact ⟨w, .inr ⟨p, hp, hw⟩, hwt⟩
  obtain ⟨x, hx⟩ := exists_mem_of_ne_nil _ (hne c hmem)
  exact ⟨(hsource x hx).1, fun x hx => (hsource x hx).2⟩

namespace QueryEngine
variable {e : QueryEngine encode opts} {q : Query} {query : Query}

def scanShards (e : QueryEngine encode opts) (query : Query) (scan : StorageQuery) :
    Except PageError (List ColumnData) := do
  let streams ← (e.shards.filter (shardMatches query)).mapM fun shard => shard.content.scanColumns scan
  .ok (Engine.mergeColumnDataStreams streams)

theorem queryColumnDataStream_eq (go : GoLib) (plan : QueryPlan) :
    e.queryColumnDataStream go plan = e.scanShards plan.query (plan.scan go) := rfl

structure RawColumns (e : QueryEngine encode opts) (q : Query) (seriesIDs : List UInt64) (raw : List ColumnData) :
    Prop where
  planned : ∀ c ∈ raw, c.seriesID ∈ seriesIDs
  sorted : Engine.ColumnsSorted raw
  nonempty : ∀ c ∈ raw, c.samples ≠ []
  catalogued : ∀ c ∈ raw, Catalogued e.catalog c.seriesID c.fieldID
  times : ∀ c ∈ raw, ∀ x ∈ c.samples, ∃ shard, e.Holds q shard ∧
    ∃ v ∈ stored shard.content, v.sample.timestamp = x.timestamp

theorem rawColumns (homit : opts.omitWriteSeq = false) (hs : e.Sound q)
    (hids : scan.seriesIDs ≠ []) (hmatch : ∀ shard ∈ e.shards.filter (shardMatches query), e.Holds q shard) (h : e.scanShards query scan = .ok raw) : e.RawColumns q scan.seriesIDs raw := by
  obtain ⟨streams, hok, hmerge⟩ := except_bind_ok h
  cases hmerge
  have hall := forall₂_of_mapM hok
  have hscanned : ∀ columns ∈ streams, ∃ shard, e.Holds q shard ∧ columns.Pairwise Engine.columnLess ∧
      ∀ c ∈ columns, c.samples ≠ [] ∧
        (c.seriesID ∈ scan.seriesIDs ∧ ∃ v ∈ stored shard.content, v.seriesID = c.seriesID ∧ v.fieldID = c.fieldID) ∧
        ∀ x ∈ c.samples, ∃ v ∈ stored shard.content, v.sample.timestamp = x.timestamp := by
    intro columns hcolumns
    obtain ⟨shard, hshard, hscan⟩ := exists_of_forall₂ hall hcolumns
    have hholds := hmatch shard hshard
    obtain ⟨hsorted, hstored⟩ := exists_stored_of_scanned homit (consistent_stored hs hholds) hids hscan
    exact ⟨shard, hholds, hsorted, fun c hc =>
      ⟨Engine.ShardContent.samples_ne_nil hscan hc, hstored c hc⟩⟩
  have hsorted : Engine.SourcesSorted streams := by
    intro columns hcolumns
    obtain ⟨shard, -, hsorted, -⟩ := hscanned columns hcolumns
    exact hsorted
  have hflat : ∀ d ∈ streams.flatten, ∃ shard, e.Holds q shard ∧ d.samples ≠ [] ∧
      (d.seriesID ∈ scan.seriesIDs ∧ ∃ v ∈ stored shard.content, v.seriesID = d.seriesID ∧ v.fieldID = d.fieldID) ∧
      ∀ x ∈ d.samples, ∃ v ∈ stored shard.content, v.sample.timestamp = x.timestamp := by
    intro d hd
    obtain ⟨columns, hcolumns, hd⟩ := mem_flatten.mp hd
    obtain ⟨shard, hshard, -, hc⟩ := hscanned columns hcolumns
    exact ⟨shard, hshard, hc d hd⟩
  obtain ⟨hkeys, hmerged⟩ := Engine.mergeColumnDataStreams_merged hsorted
  constructor
  · intro c hc
    obtain ⟨d, hd, hsame⟩ := (hmerged c hc).source
    obtain ⟨shard, -, -, ⟨hasked, -⟩, -⟩ := hflat d hd
    exact hsame.1 ▸ hasked
  · exact ⟨hkeys, fun c hc => (hmerged c hc).times⟩
  · intro c hc
    refine (hmerged c hc).nonempty fun d hd => ?_
    obtain ⟨shard, -, hne, -⟩ := hflat d hd
    exact hne
  · intro c hc
    obtain ⟨d, hd, hsame⟩ := (hmerged c hc).source
    obtain ⟨shard, hshard, -, ⟨-, v, hv, hvs, hvf⟩, -⟩ := hflat d hd
    have hcat := hs.catalogued shard hshard v hv
    rwa [hvs, hvf, hsame.1, hsame.2] at hcat
  · intro c hc x hx
    obtain ⟨d, hd, -, hx⟩ := (hmerged c hc).samples x hx
    obtain ⟨shard, hshard, -, -, htimes⟩ := hflat d hd
    exact ⟨shard, hshard, htimes x hx⟩

def readVersions (e : QueryEngine encode opts) (q : Query) (scan : StorageQuery) : Set Version :=
  {v | ∃ shard ∈ e.shards.filter (shardMatches (plannedQuery e.defaults q)), v ∈ shard.content.sourceVersions scan}

theorem scanShards_ok (homit : opts.omitWriteSeq = false) (hs : e.Sound q) (scan : StorageQuery)
    (hids : scan.seriesIDs ≠ []) (hc : Consistent (e.readVersions q scan)) :
    ∃ raw, e.scanShards (plannedQuery e.defaults q) scan = .ok raw ∧ e.RawColumns q scan.seriesIDs raw ∧
      ∀ v, v ∈ versions raw ↔ e.Shown q scan v := by
  have hshards : ∀ shard ∈ e.shards.filter (shardMatches (plannedQuery e.defaults q)), ∃ columns,
      shard.content.scanColumns scan = .ok columns ∧ (Engine.ColumnsSorted columns ∧
        ∀ v, v ∈ versions columns ↔ shard.content.Shown scan v) := fun shard hshard =>
    Engine.ShardContent.scanColumns_ok homit hids (hc.mono fun v hv => ⟨shard, hshard, hv⟩)
  obtain ⟨streams, hok, hall⟩ := mapM_ok hshards
  have hset : {u | u ∈ versions streams.flatten} =
      {u | ∃ shard ∈ e.shards.filter (shardMatches (plannedQuery e.defaults q)), shard.content.Shown scan u} := by
    ext u
    show u ∈ versions streams.flatten ↔ _
    rw [mem_versions_flatten]
    constructor
    · rintro ⟨columns, hcolumns, hu⟩
      obtain ⟨shard, hshard, -, hmem⟩ := exists_of_forall₂ hall hcolumns
      exact ⟨shard, hshard, (hmem u).mp hu⟩
    · rintro ⟨shard, hshard, hu⟩
      obtain ⟨columns, hcolumns, -, hmem⟩ := exists_of_forall₂ hall.flip hshard
      exact ⟨columns, hcolumns, (hmem u).mpr hu⟩
  have hconsistent : Consistent {u | u ∈ versions streams.flatten} := by
    rw [hset]
    refine hc.mono ?_
    rintro u ⟨shard, hshard, hu⟩
    exact ⟨shard, hshard, hu.2.2.1.1⟩
  have hsorted : Engine.SourcesSorted streams := by
    intro columns hcolumns
    obtain ⟨shard, -, hcolumns, -⟩ := exists_of_forall₂ hall hcolumns
    exact hcolumns.keys
  have hraw : e.scanShards (plannedQuery e.defaults q) scan = .ok (Engine.mergeColumnDataStreams streams) := by
    rw [scanShards, hok]
    rfl
  refine ⟨_, hraw, rawColumns homit hs hids (fun shard => holds_of_shardMatches) hraw, fun v => ?_⟩
  rw [(Engine.mergeColumnDataStreams_columnsMergeTo hsorted hconsistent).mem_iff, hset]
  rfl

theorem scanShards_congr (scan : StorageQuery) (h : ∀ shard : OpenShard encode opts,
    shardMatches query shard = shardMatches query' shard) : e.scanShards query scan = e.scanShards query' scan := by
  rw [scanShards, scanShards, show (shardMatches query : OpenShard encode opts → Bool) = shardMatches query' from
    funext h]

theorem queryColumnDataStream_ok (go : GoLib) (homit : opts.omitWriteSeq = false) (hs : e.Sound q)
    (hread : e.Readable q) (hids : plannedSeries e.defaults e.catalog q ≠ [])
    (hscan : plan.scan go = Engine.storageQuery (e.plannedScan q) pushed)
    (hmatch : ∀ shard : OpenShard encode opts,
      shardMatches plan.query shard = shardMatches (plannedQuery e.defaults q) shard) :
    ∃ raw, e.queryColumnDataStream go plan = .ok raw ∧ Engine.ColumnsSorted raw ∧
      (∀ v, v ∈ versions raw ↔ e.Shown q (Engine.storageQuery (e.plannedScan q) pushed) v) ∧
      ∀ c ∈ raw, Catalogued e.catalog c.seriesID c.fieldID := by
  have hc : Consistent (e.readVersions q (Engine.storageQuery (e.plannedScan q) pushed)) := by
    refine hs.consistent.mono ?_
    rintro v ⟨shard, hshard, hv⟩
    have hholds := holds_of_shardMatches hshard
    exact ⟨shard, hholds, sourceVersions_subset_stored hread hholds pushed hv⟩
  obtain ⟨raw, hok, hraw, hmem⟩ := scanShards_ok homit hs (Engine.storageQuery (e.plannedScan q) pushed) hids hc
  refine ⟨raw, ?_, hraw.sorted, hmem, hraw.catalogued⟩
  rw [queryColumnDataStream_eq, hscan, scanShards_congr _ hmatch, hok]

end QueryEngine

section Decorated
variable {catalog : Snapshot} {raw : List ColumnData} {f : Field} {c : ColumnData}

theorem Snapshot.fieldByID (hf : f ∈ catalog.fields) : (catalog.fields.find? fun g => g.id = f.id) = some f := by
  cases hfind : catalog.fields.find? fun g => g.id = f.id with
  | none => simpa using find?_eq_none.mp hfind f hf
  | some g =>
    have hid : g.id = f.id := by simpa using find?_some hfind
    rw [inj_on_of_nodup_map catalog.fieldsNodup (mem_of_find?_eq_some hfind) hf hid]

theorem decorateColumn_eq {s : Series} (hs : s ∈ catalog.series) (hsid : s.id = c.seriesID)
    (hf : f ∈ catalog.fields) (hfid : f.id = c.fieldID) :
    decorateColumn catalog c = ⟨c.seriesID, s.tags, c.fieldID, f.name, some c.fieldType,
      c.samples.map fun x => (x.timestamp, x.value)⟩ := by
  unfold decorateColumn
  rw [← hsid, ← hfid, catalog.seriesByID hs, Snapshot.fieldByID hf]

structure Decorated (catalog : Snapshot) (c : ColumnData) (d : ColumnSeries) : Prop where
  seriesID : d.seriesID = c.seriesID
  points : d.points = c.samples.map fun x => (x.timestamp, x.value)
  names : ∃ s ∈ catalog.series, s.id = c.seriesID ∧ d.tags = s.tags ∧
    ∃ f ∈ catalog.fields, f.id = c.fieldID ∧ f.measurement = s.measurement ∧ d.fieldName = f.name

theorem decorated (h : Catalogued catalog c.seriesID c.fieldID) : Decorated catalog c (decorateColumn catalog c) := by
  obtain ⟨s, hs, hsid, f, hf, hfid, hm⟩ := h
  rw [decorateColumn_eq hs hsid hf hfid]
  exact ⟨rfl, rfl, s, hs, hsid, rfl, f, hf, hfid, hm, rfl⟩

theorem field_eq_of_name {s s' : Series} (hs : s ∈ catalog.series) (hs' : s' ∈ catalog.series)
    (hid : s.id = s'.id) (hf : f ∈ catalog.fields) (hf' : f' ∈ catalog.fields)
    (hm : f.measurement = s.measurement) (hm' : f'.measurement = s'.measurement) (hname : f.name = f'.name) :
    f = f' := by
  obtain rfl := inj_on_of_nodup_map catalog.seriesNodup hs hs' hid
  refine inj_on_of_nodup_map catalog.namesNodup hf hf' ?_
  rw [hm, hm', hname]

theorem hasValue_decorated (hcat : ∀ c ∈ raw, Catalogued catalog c.seriesID c.fieldID) {id : UInt64} :
    HasValue (raw.map (decorateColumn catalog)) id t name x ↔ ∃ f ∈ catalog.fields, f.name = name ∧
      ∃ v ∈ versions raw, Versioned.key v = (id, f.id, t) ∧ v.sample.value = x := by
  constructor
  · rintro ⟨d, hd, hid, hname, hx⟩
    obtain ⟨c, hc, rfl⟩ := mem_map.mp hd
    have hdec := decorated (hcat c hc)
    obtain ⟨s, -, -, -, f, hf, hfid, -, hfname⟩ := hdec.names
    rw [hdec.points] at hx
    obtain ⟨y, hy, heq⟩ := mem_map.mp hx
    cases heq
    refine ⟨f, hf, hfname.symm.trans hname, ⟨c.seriesID, c.fieldID, y⟩, ?_, ?_, rfl⟩
    · exact mem_versions.mpr ⟨c, hc, by simp [hy]⟩
    · simp [← hid, hdec.seriesID, hfid]
  · rintro ⟨f, hf, hname, v, hv, hk, rfl⟩
    obtain ⟨c, hc, hv⟩ := mem_versions.mp hv
    obtain ⟨hcs, hcf, hy⟩ := ColumnData.mem_versions.mp hv
    obtain ⟨hvs, hvf, hvt⟩ := Version.of_key hk
    have hdec := decorated (hcat c hc)
    obtain ⟨s, -, -, -, g, hg, hgid, -, hgname⟩ := hdec.names
    have hgf : g = f := inj_on_of_nodup_map catalog.fieldsNodup hg hf (hgid.trans (hcf.trans hvf))
    refine ⟨_, mem_map_of_mem hc, hdec.seriesID.trans (hcs.trans hvs), ?_, ?_⟩
    · rw [hgname, hgf, hname]
    · rw [hdec.points, ← hvt]
      exact mem_map_of_mem hy

theorem mergeable_decorated (hsorted : Engine.ColumnsSorted raw)
    (hcat : ∀ c ∈ raw, Catalogued catalog c.seriesID c.fieldID) :
    MergeableColumns (raw.map (decorateColumn catalog)) where
  sorted := by
    rw [pairwise_map]
    refine hsorted.keys.imp_of_mem fun {c d} hc hd hlt => ?_
    rw [(decorated (hcat c hc)).seriesID, (decorated (hcat d hd)).seriesID]
    exact hlt.series_le
  tags := by
    intro a ha b hb hid
    obtain ⟨c, hc, rfl⟩ := mem_map.mp ha
    obtain ⟨d, hd, rfl⟩ := mem_map.mp hb
    have hc := decorated (hcat c hc)
    have hd := decorated (hcat d hd)
    obtain ⟨s, hs, hsid, htags, -⟩ := hc.names
    obtain ⟨s', hs', hsid', htags', -⟩ := hd.names
    have hss : s = s' := inj_on_of_nodup_map catalog.seriesNodup hs hs' (by
      rw [hsid, hsid', ← hc.seriesID, ← hd.seriesID, hid])
    rw [htags, htags', hss]
  times := by
    intro a ha
    obtain ⟨c, hc, rfl⟩ := mem_map.mp ha
    rw [(decorated (hcat c hc)).points]
    exact pairwise_map.mpr (hsorted.times c hc)
  names := by
    intro a ha b hb hid hname
    obtain ⟨c, hc, rfl⟩ := mem_map.mp ha
    obtain ⟨d, hd, rfl⟩ := mem_map.mp hb
    have hdecc := decorated (hcat c hc)
    have hdecd := decorated (hcat d hd)
    obtain ⟨s, hs, hsid, -, f, hf, hfid, hfm, hfn⟩ := hdecc.names
    obtain ⟨s', hs', hsid', -, g, hg, hgid, hgm, hgn⟩ := hdecd.names
    have hseries : c.seriesID = d.seriesID := by rw [← hdecc.seriesID, ← hdecd.seriesID, hid]
    -- both fields belong to the measurement of the series
    obtain rfl := field_eq_of_name hs hs' (by rw [hsid, hsid', hseries]) hf hg hfm hgm
      (hfn.symm.trans (hname.trans hgn))
    rw [hsorted.eq_of_key hc hd hseries (hfid.symm.trans hgid)]

theorem rowOf_decorated (hcat : ∀ c ∈ raw, Catalogued catalog c.seriesID c.fieldID) :
    RowOf (raw.map (decorateColumn catalog)) row ↔
      (∃ s ∈ catalog.series, s.id = row.seriesID ∧ s.tags = row.tags) ∧
      (∃ name x, row.fields name = some x) ∧
      ∀ name x, row.fields name = some x ↔ ∃ f ∈ catalog.fields, f.name = name ∧
        ∃ v ∈ versions raw, Versioned.key v = (row.seriesID, f.id, row.timestamp) ∧ v.sample.value = x := by
  constructor
  · intro h
    obtain ⟨d, hd, hid, htags, htime⟩ := h.source
    obtain ⟨⟨t, x⟩, hx, ht⟩ := mem_map.mp htime
    obtain rfl : t = row.timestamp := ht
    obtain ⟨c, hc, rfl⟩ := mem_map.mp hd
    have hdec := decorated (hcat c hc)
    obtain ⟨s, hs, hsid, hstags, -⟩ := hdec.names
    refine ⟨⟨s, hs, ?_, hstags.symm.trans htags⟩, ⟨(decorateColumn catalog c).fieldName, x, ?_⟩, fun name x => ?_⟩
    · rw [hsid, ← hdec.seriesID, hid]
    · exact (h.fields _ _).mpr ⟨_, hd, hid, rfl, hx⟩
    · exact (h.fields name x).trans (hasValue_decorated hcat)
  · rintro ⟨⟨s, hs, hsid, hstags⟩, ⟨name, x, hx⟩, hfields⟩
    refine ⟨?_, fun name x => (hfields name x).trans (hasValue_decorated hcat).symm⟩
    obtain ⟨d, hd, hid, -, hpt⟩ := (hasValue_decorated hcat).mpr ((hfields name x).mp hx)
    obtain ⟨c, hc, rfl⟩ := mem_map.mp hd
    have hdec := decorated (hcat c hc)
    obtain ⟨s', hs', hsid', hstags', -⟩ := hdec.names
    have hss : s' = s := inj_on_of_nodup_map catalog.seriesNodup hs' hs (by
      rw [hsid', hsid, ← hdec.seriesID, hid])
    refine ⟨_, hd, hid, ?_, mem_map_of_mem hpt⟩
    rw [hstags', hss, hstags]

end Decorated

end Mts.Queryexec
