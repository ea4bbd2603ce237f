import Mts.Sstable.Read

/-! What comes back from a part that a sequence of `AddSeries` calls wrote, over every read path. -/

namespace Mts.Sstable
open Lib Model Engine List

variable {columns : List ColumnData} {r : IndexRow} {s x : VersionedSample} {v : Version} {c d : ColumnData}
  {y : VersionedSample}

variable {encode : ValueEncoder} {opts : CompressionOptions}

def callRow : List ColumnData → Option IndexRow
  | [] => none
  | c :: cs => some (writeSeries c.seriesID (c :: cs))

theorem mem_columns_callRow (h : callRow columns = some r) : c ∈ r.columns ↔ c ∈ columns := by
  cases columns with
  | nil => simp [callRow] at h
  | cons d ds =>
    cases h
    simp [writeSeries, sortByField]

theorem writableRow_callRow (h : callRow columns = some r) (hw : ∀ c ∈ columns, Writable c)
    (hs : ∀ c ∈ columns, ∀ d ∈ columns, c.seriesID = d.seriesID) : WritableRow r := by
  have hmem := fun c => mem_columns_callRow h (c := c)
  cases columns with
  | nil => simp [callRow] at h
  | cons d ds =>
    cases h
    have hcols : ∀ c ∈ (writeSeries d.seriesID (d :: ds)).columns, Writable c := fun c hc => hw c ((hmem c).mp hc)
    obtain ⟨hsorted, htimes⟩ := collectTimestamps_spec fun c hc => (hcols c hc).sorted
    refine ⟨hcols, fun c hc => hs c ((hmem c).mp hc) d mem_cons_self, fun c hc s hx => ?_⟩
    exact head_le_last_of_mem hsorted ((htimes _).mpr ⟨c, hc, mem_map_of_mem hx⟩)

structure MetaBounds (m : PartMeta) (rows : List IndexRow) : Prop where
  rowsCount : rows ≠ [] → m.rowsCount ≠ 0
  seriesCount : rows ≠ [] → m.seriesCount ≠ 0
  covers : ∀ r ∈ rows, Covers m r

theorem MetaBounds.updateMeta (h : MetaBounds m rows)
    (hne : row.columns.flatMap ColumnData.samples ≠ []) : MetaBounds (updateMeta m row) (rows ++ [row]) where
  rowsCount _ := by
    have := length_pos_of_ne_nil hne
    simp only [Sstable.updateMeta]
    omega
  seriesCount _ := Nat.succ_ne_zero _
  covers r hr := by
    simp only [mem_append, mem_singleton] at hr
    rcases hr with hr | rfl
    · have hcov := h.covers r hr
      have hrows := h.rowsCount (ne_nil_of_mem hr)
      have hseries := h.seriesCount (ne_nil_of_mem hr)
      constructor <;> simp [Sstable.updateMeta, hrows, hseries]
      · split
        · next hlt => exact Int64.le_trans (Int64.le_of_lt hlt) hcov.minTime
        · exact hcov.minTime
      · split
        · next hlt => exact Int64.le_trans hcov.maxTime (Int64.le_of_lt hlt)
        · exact hcov.maxTime
      · split
        · next hlt => exact UInt64.le_trans (UInt64.le_of_lt hlt) hcov.minSeriesID
        · exact hcov.minSeriesID
      · split
        · next hlt => exact UInt64.le_trans hcov.maxSeriesID (UInt64.le_of_lt hlt)
        · exact hcov.maxSeriesID
    · constructor <;> simp [Sstable.updateMeta]
      · split
        · exact Int64.le_refl _
        · next h => exact Int64.not_lt.mp fun hlt => h (.inr hlt)
      · split
        · exact Int64.le_refl _
        · next h => exact Int64.not_lt.mp h
      · split
        · exact UInt64.le_refl _
        · next h => exact UInt64.not_lt.mp fun hlt => h (.inr hlt)
      · split
        · exact UInt64.le_refl _
        · next h => exact UInt64.not_lt.mp h

theorem foldlM_addSeries_ok {calls : List (List ColumnData)} (hw : ∀ columns ∈ calls, ∀ c ∈ columns, Writable c)
    (hs : ∀ columns ∈ calls, ∀ c ∈ columns, ∀ d ∈ columns, c.seriesID = d.seriesID)
    (hm : MetaBounds w.partMeta w.rows) :
    ∃ w', calls.foldlM PartWriter.addSeries w = .ok w' ∧ w'.rows = w.rows ++ calls.filterMap callRow ∧
      MetaBounds w'.partMeta w'.rows := by
  induction calls generalizing w with
  | nil => exact ⟨w, rfl, by simp, hm⟩
  | cons columns calls ih =>
    have hcalls := fun w hm => ih (fun d hd => hw d (mem_cons_of_mem _ hd))
      (fun d hd => hs d (mem_cons_of_mem _ hd)) (w := w) hm
    rw [foldlM_cons]
    cases columns with
    | nil => exact hcalls w hm
    | cons c cs =>
      have hcheck : checkSeries c.seriesID (c :: cs) = .ok () := by
        apply checkSeries_of
        intro d hd
        exact ⟨hs _ mem_cons_self d hd c mem_cons_self, (hw _ mem_cons_self d hd).nonempty⟩
      let row := writeSeries c.seriesID (c :: cs)
      let added : PartWriter := { w with rows := w.rows ++ [row], partMeta := updateMeta w.partMeta row }
      have hadd : w.addSeries (c :: cs) = .ok added := by
        simp only [PartWriter.addSeries, hcheck]
        rfl
      have hne : row.columns.flatMap ColumnData.samples ≠ [] := by
        obtain ⟨s, hs⟩ := exists_mem_of_ne_nil _ (hw _ mem_cons_self c mem_cons_self).nonempty
        refine ne_nil_of_mem (mem_flatMap.mpr ⟨c, ?_, hs⟩)
        exact (mem_columns_callRow rfl).mpr mem_cons_self
      obtain ⟨w', hok, hrows, hm'⟩ := hcalls added (hm.updateMeta hne)
      refine ⟨w', by rw [hadd]; exact hok, ?_, hm'⟩
      rw [hrows]
      simp [callRow, row, added]

variable {q : ColumnQuery} {c : ColumnData}

def scanQuery (q : ColumnQuery) : StorageQuery :=
  { toColumnQuery := q, boundary := .none, fieldPredicates := fun _ => [] }

def ColumnKept (encode : ValueEncoder) (opts : CompressionOptions) (q : ColumnQuery) (c : ColumnData) : Prop :=
  ∀ w ∈ pageWindows opts c, ∀ i s, w[i]? = some s → q.inWindow s.timestamp = true →
    pageLost opts w q = false ∧ readBack encode opts c.fieldType w i s = s

theorem mem_pageWindows : s ∈ c.samples ↔ ∃ w ∈ pageWindows opts c, s ∈ w :=
  mem_iff_mem_windows (resolveValuePageSamples_pos _)

theorem windowMatches_of_mem (hc : Writable c) (hw : w ∈ pageWindows opts c) (hx : x ∈ w)
    (hin : q.inWindow x.timestamp = true) : windowMatches c.fieldID c.fieldType (scanQuery q) w = true := by
  have hsorted : (w.map VersionedSample.timestamp).Pairwise (· < ·) :=
    pairwise_map.mpr (hc.sorted.sublist (sublist_of_mem_windows hw))
  obtain ⟨hhead, hlast⟩ := head_le_last_of_mem hsorted (mem_map_of_mem hx)
  obtain ⟨hstart, hstop⟩ := ColumnQuery.inWindow_iff.mp hin
  rw [windowMatches, valuePageMatchesQuery, Bool.and_eq_true]
  exact ⟨not_or_of_overlaps ⟨Int64.le_trans hstart hlast, Int64.le_trans hhead hstop⟩, rfl⟩

theorem columnReads_iff (hc : Writable c) :
    ColumnReads encode opts (scanQuery q) c s ↔ ∃ w ∈ pageWindows opts c, pageLost opts w q = false ∧
      ∃ i x, w[i]? = some x ∧ q.inWindow x.timestamp = true ∧
        s = readBack encode opts c.fieldType w i x := by
  refine exists_congr fun w => ?_
  rw [mem_windowsRead_of_none rfl, mem_pageSamples, and_assoc]
  refine and_congr_right fun hw => ⟨And.right, fun h => ⟨?_, h⟩⟩
  obtain ⟨-, i, x, hx, hin, -⟩ := h
  exact windowMatches_of_mem hc hw (mem_of_getElem? hx) hin

theorem columnReads_of_kept (hc : Writable c) (hkept : ColumnKept encode opts q c) :
    ColumnReads encode opts (scanQuery q) c s ↔ s ∈ c.samples ∧ q.inWindow s.timestamp = true := by
  rw [columnReads_iff hc]
  constructor
  · rintro ⟨w, hw, -, i, x, hx, hin, rfl⟩
    rw [(hkept w hw i x hx hin).2]
    exact ⟨mem_pageWindows.mpr ⟨w, hw, mem_of_getElem? hx⟩, hin⟩
  · rintro ⟨hs, hin⟩
    obtain ⟨w, hw, hsw⟩ := mem_pageWindows.mp hs
    obtain ⟨i, hi⟩ := getElem?_of_mem hsw
    obtain ⟨hlost, hback⟩ := hkept w hw i s hi hin
    exact ⟨w, hw, hlost, i, s, hi, hin, hback.symm⟩

theorem windows_place {α : Type} {l w w' : List α} (hl : l.Nodup) (hw : w ∈ windows size l)
    (hw' : w' ∈ windows size l) {i i' : Nat} {x : α} (hi : w[i]? = some x) (hi' : w'[i']? = some x) :
    w = w' ∧ i = i' := by
  obtain ⟨n, -, rfl⟩ := mem_map.mp hw
  obtain ⟨n', -, rfl⟩ := mem_map.mp hw'
  simp only [getElem?_take, getElem?_drop] at hi hi'
  split at hi
  · next hlt =>
    split at hi'
    · next hlt' =>
      have hplace : n * size + i = n' * size + i' := by
        obtain ⟨hb, hx⟩ := List.getElem?_eq_some_iff.mp hi
        obtain ⟨hb', hx'⟩ := List.getElem?_eq_some_iff.mp hi'
        exact (hl.getElem_inj_iff).mp (hx.trans hx'.symm)
      have hn : n = n' := by
        have h1 : (n * size + i) / size = n := by
          rw [Nat.mul_comm, Nat.mul_add_div (by omega), Nat.div_eq_of_lt hlt, Nat.add_zero]
        have h2 : (n' * size + i') / size = n' := by
          rw [Nat.mul_comm, Nat.mul_add_div (by omega), Nat.div_eq_of_lt hlt', Nat.add_zero]
        rw [← h1, ← h2, hplace]
      subst hn
      exact ⟨rfl, by omega⟩
    · simp at hi'
  · simp at hi

theorem kept_of_columnReads (hc : Writable c)
    (h : ∀ s ∈ c.samples, q.inWindow s.timestamp = true → ColumnReads encode opts (scanQuery q) c s) :
    ColumnKept encode opts q c := by
  intro w hw i s hi hin
  have hs : s ∈ c.samples := mem_pageWindows.mpr ⟨w, hw, mem_of_getElem? hi⟩
  obtain ⟨w', hw', hlost, i', x, hx, -, hback⟩ := (columnReads_iff hc).mp (h s hs hin)
  -- only the sample itself has its timestamp, and it has one place
  have hxs : x ∈ c.samples := mem_pageWindows.mpr ⟨w', hw', mem_of_getElem? hx⟩
  have hts : x.timestamp = s.timestamp := by rw [hback, readBack_timestamp]
  obtain rfl : x = s := eq_of_timestamp_eq hc.sorted hxs hs hts
  have hnodup : c.samples.Nodup := hc.sorted.imp fun hlt heq => by
    rw [heq] at hlt
    exact Int64.lt_irrefl hlt
  obtain ⟨rfl, rfl⟩ := windows_place hnodup hw hw' hi hx
  exact ⟨hlost, hback.symm⟩

/-- Calls of `AddSeries` as the engine makes them: each with columns of one series, the series in
order, and no series, field and timestamp written twice. -/
structure AddSeriesCalls (calls : List (List ColumnData)) : Prop where
  writable : ∀ columns ∈ calls, ∀ c ∈ columns, Writable c
  oneSeries : ∀ columns ∈ calls, ∀ c ∈ columns, ∀ d ∈ columns, c.seriesID = d.seriesID
  ordered : calls.flatten.Pairwise fun c d => c.seriesID ≤ d.seriesID
  unique : ((versions calls.flatten).map fun v => (v.seriesID, v.fieldID, v.sample.timestamp)).Nodup
  nonempty : calls.flatten ≠ []

variable {calls : List (List ColumnData)}

theorem AddSeriesCalls.writableRow (h : AddSeriesCalls calls) (hcol : columns ∈ calls) (hr : callRow columns = some r) :
    WritableRow r := writableRow_callRow hr (h.writable columns hcol) (h.oneSeries columns hcol)

theorem AddSeriesCalls.series_callRow (h : AddSeriesCalls calls) (hcol : columns ∈ calls)
    (hr : callRow columns = some r) (hc : c ∈ columns) : c.seriesID = r.seriesID :=
  (h.writableRow hcol hr).series c ((mem_columns_callRow hr).mpr hc)

theorem callRow_ne_nil (h : callRow columns = some r) : ∃ c, c ∈ columns := by
  cases columns with
  | nil => simp [callRow] at h
  | cons c cs => exact ⟨c, mem_cons_self⟩

theorem exists_callRow (hc : c ∈ columns) : ∃ r, callRow columns = some r := by
  cases columns with
  | nil => simp at hc
  | cons d ds => exact ⟨_, rfl⟩

theorem AddSeriesCalls.sorted_rows (h : AddSeriesCalls calls) :
    (calls.filterMap callRow).Pairwise (·.seriesID ≤ ·.seriesID) := by
  rw [pairwise_filterMap]
  refine (pairwise_flatten.mp h.ordered).2.imp_of_mem fun {columns columns'} hcol hcol' hle r hr r' hr' => ?_
  obtain ⟨c, hc⟩ := callRow_ne_nil hr
  obtain ⟨c', hc'⟩ := callRow_ne_nil hr'
  rw [← h.series_callRow hcol hr hc, ← h.series_callRow hcol' hr' hc']
  exact hle c hc c' hc'

theorem writePart_ok (encode : ValueEncoder) (homit : opts.omitWriteSeq = false) (h : AddSeriesCalls calls)
    (path : GoString) (level : Int) (id : GoString) :
    ∃ p sp, writePart encode opts path level id calls = .ok sp ∧ SoundPart encode opts p sp ∧
      p.rows = calls.filterMap callRow := by
  have hnew : MetaBounds (newPartWriter path level id).partMeta (newPartWriter path level id).rows :=
    ⟨fun hne => absurd rfl hne, fun hne => absurd rfl hne, by simp [newPartWriter]⟩
  obtain ⟨w, hw, hrows, hm⟩ := foldlM_addSeries_ok h.writable h.oneSeries hnew
  have hrows : w.rows = calls.filterMap callRow := by simpa [newPartWriter] using hrows
  have hne : w.rows ≠ [] := by
    obtain ⟨c, hc⟩ := exists_mem_of_ne_nil _ h.nonempty
    obtain ⟨columns, hcol, hc⟩ := mem_flatten.mp hc
    obtain ⟨r, hr⟩ := exists_callRow hc
    rw [hrows]
    exact ne_nil_of_mem (mem_filterMap.mpr ⟨columns, hcol, hr⟩)
  let p : Part := ⟨{ w.partMeta with path := w.path }, w.rows⟩
  have hclose : w.close = .ok p := by
    rw [PartWriter.close, if_neg (by simpa using hne)]
  have hwritable : ∀ r ∈ p.rows, WritableRow r := by
    intro r hr
    obtain ⟨columns, hcol, hr⟩ := mem_filterMap.mp (hrows ▸ hr : r ∈ calls.filterMap callRow)
    exact h.writableRow hcol hr
  obtain ⟨sp, hsp, hpart⟩ := storePart_ok encode homit hwritable
  refine ⟨p, sp, ?_, ⟨hpart, hwritable, ?_, fun r hr => ?_⟩, hrows⟩
  · rw [writePart, hw]
    simp [Except.mapError, bind, Except.bind, hclose, hsp]
  · rw [show p.rows = calls.filterMap callRow from hrows]
    exact h.sorted_rows
  · have hcov := hm.covers r hr
    exact ⟨hcov.minTime, hcov.maxTime, hcov.minSeriesID, hcov.maxSeriesID⟩

/-- Every column with a sample that the scan asks for is in the first call of its series, and its
pages give the samples in the window back. -/
def Kept (encode : ValueEncoder) (opts : CompressionOptions) (calls : List (List ColumnData))
    (q : ColumnQuery) : Prop :=
  ∀ pre columns post, calls = pre ++ columns :: post → ∀ c ∈ columns,
    q.wants c.seriesID c.fieldID = true → (∃ s ∈ c.samples, q.inWindow s.timestamp = true) →
      (∀ earlier ∈ pre, ∀ d ∈ earlier, d.seriesID ≠ c.seriesID) ∧ ColumnKept encode opts q c

def Asked (calls : List (List ColumnData)) (q : ColumnQuery) (v : Version) : Prop :=
  v ∈ versions calls.flatten ∧ q.wants v.seriesID v.fieldID = true ∧ q.inWindow v.sample.timestamp = true

/-- The series-filtered scans return what was written, and so does the unfiltered query restricted to
the same series. -/
def ReadsExactly (sp : StoredPart) (calls : List (List ColumnData)) (q : ColumnQuery) : Prop :=
  ∃ scanned selected all, sp.scanColumns (scanQuery q) = .ok scanned ∧
    sp.querySeriesIDs (scanQuery { q with seriesIDs := [] }) q.seriesIDs = .ok selected ∧
    sp.query (scanQuery { q with seriesIDs := [] }) = .ok all ∧ ∀ v,
      (v ∈ versions scanned ↔ Asked calls q v) ∧ (v ∈ versions selected ↔ Asked calls q v) ∧
        (v ∈ versions all ∧ v.seriesID ∈ q.seriesIDs ↔ Asked calls q v)

theorem mem_versions_calls : v ∈ versions calls.flatten ↔
    ∃ columns ∈ calls, ∃ c ∈ columns, c.seriesID = v.seriesID ∧ c.fieldID = v.fieldID ∧ v.sample ∈ c.samples := by
  simp only [mem_versions, mem_flatten, ColumnData.mem_versions]
  constructor
  · rintro ⟨c, ⟨columns, hcol, hc⟩, hv⟩
    exact ⟨columns, hcol, c, hc, hv⟩
  · rintro ⟨columns, hcol, c, hc, hv⟩
    exact ⟨c, ⟨columns, hcol, hc⟩, hv⟩

theorem Kept.asked (hk : Kept encode opts calls q) (h : AddSeriesCalls calls) (hr : r ∈ calls.filterMap callRow)
    (hid : v.seriesID ∈ q.seriesIDs) (hv : RowReads encode opts (scanQuery q) r v) : Asked calls q v := by
  obtain ⟨columns, hcol, hrow⟩ := mem_filterMap.mp hr
  obtain ⟨hs, c, hc, hwant, hf, hreads⟩ := hv
  have hc := (mem_columns_callRow hrow).mp hc
  have hseries : c.seriesID = v.seriesID := (h.series_callRow hcol hrow hc).trans hs.symm
  have hwants : q.wants v.seriesID v.fieldID = true := by
    have hid' : containsID q.seriesIDs v.seriesID = true := by simp [containsID, hid]
    rw [ColumnQuery.wants, Bool.and_eq_true, ← hf]
    exact ⟨hid', hwant⟩
  have hwc := h.writable columns hcol c hc
  obtain ⟨w, hw, -, i, x, hx, hin, -⟩ := (columnReads_iff hwc).mp hreads
  obtain ⟨pre, post, hsplit⟩ := append_of_mem hcol
  have hkept := (hk pre columns post hsplit c hc (by rw [hseries, hf]; exact hwants)
    ⟨x, mem_pageWindows.mpr ⟨w, hw, mem_of_getElem? hx⟩, hin⟩).2
  obtain ⟨hmem, hin⟩ := (columnReads_of_kept hwc hkept).mp hreads
  exact ⟨mem_versions_calls.mpr ⟨columns, hcol, c, hc, hseries, hf, hmem⟩, hwants, hin⟩

theorem Kept.reads (hk : Kept encode opts calls q) (h : AddSeriesCalls calls) (hv : Asked calls q v) :
    ∃ r, FirstRow (calls.filterMap callRow) r ∧
      RowReads encode opts (scanQuery q) r v := by
  obtain ⟨hmem, hwants, hin⟩ := hv
  obtain ⟨columns, hcol, c, hc, hs, hf, hx⟩ := mem_versions_calls.mp hmem
  obtain ⟨pre, post, rfl⟩ := append_of_mem hcol
  obtain ⟨r, hr⟩ := exists_callRow hc
  obtain ⟨hfirst, hkept⟩ := hk pre columns post rfl c hc (by rw [hs, hf]; exact hwants) ⟨_, hx, hin⟩
  have hseries : c.seriesID = r.seriesID := h.series_callRow hcol hr hc
  refine ⟨r, ⟨pre.filterMap callRow, post.filterMap callRow, ?_, fun a ha => ?_⟩, ?_⟩
  · rw [filterMap_append, filterMap_cons, hr]
  · obtain ⟨earlier, he, ha⟩ := mem_filterMap.mp ha
    obtain ⟨d, hd⟩ := callRow_ne_nil ha
    rw [← h.series_callRow (mem_append_left _ he) ha hd, ← hseries]
    exact hfirst earlier he d hd
  · refine ⟨hs.symm.trans hseries, c, (mem_columns_callRow hr).mpr hc, ?_, hf, ?_⟩
    · rw [ColumnQuery.wants, Bool.and_eq_true] at hwants
      rw [hf]
      exact hwants.2
    · exact (columnReads_of_kept (h.writable columns hcol c hc) hkept).mpr ⟨hx, hin⟩

theorem AddSeriesCalls.column_eq (h : AddSeriesCalls calls) (hc : c ∈ calls.flatten) (hd : d ∈ calls.flatten)
    (hs : c.seriesID = d.seriesID) (hf : c.fieldID = d.fieldID) (hx : x ∈ c.samples) (hy : y ∈ d.samples)
    (ht : x.timestamp = y.timestamp) : c = d := by
  have hnodup := h.unique
  rw [versions, map_flatMap, nodup_flatMap] at hnodup
  have hsymm : Std.Symm (Function.onFun List.Disjoint fun c : ColumnData =>
      c.versions.map fun v => (v.seriesID, v.fieldID, v.sample.timestamp)) := ⟨fun _ _ h => h.symm⟩
  by_contra hne
  have hdisj := hnodup.2.forall hc hd hne
  refine hdisj (a := (c.seriesID, c.fieldID, x.timestamp)) ?_ ?_
  · exact mem_map.mpr ⟨⟨c.seriesID, c.fieldID, x⟩, by simp [hx], rfl⟩
  · exact mem_map.mpr ⟨⟨c.seriesID, c.fieldID, y⟩, by simp [hs, hf, hy], by simp [ht]⟩

theorem AddSeriesCalls.disjoint (h : AddSeriesCalls (pre ++ columns :: post)) (hc : c ∈ columns) (hd : d ∈ pre.flatten)
    (hs : c.seriesID = d.seriesID) (hf : c.fieldID = d.fieldID) (hx : x ∈ c.samples) (hy : y ∈ d.samples) :
    x.timestamp ≠ y.timestamp := by
  intro ht
  have hnodup := h.unique
  rw [flatten_append, versions_append, map_append, nodup_append] at hnodup
  refine hnodup.2.2 (c.seriesID, c.fieldID, x.timestamp) ?_ (c.seriesID, c.fieldID, x.timestamp) ?_ rfl
  · refine mem_map.mpr ⟨⟨c.seriesID, c.fieldID, y⟩, ?_, by simp [ht]⟩
    exact mem_versions.mpr ⟨d, hd, by simp [hs, hf, hy]⟩
  · refine mem_map.mpr ⟨⟨c.seriesID, c.fieldID, x⟩, ?_, rfl⟩
    exact mem_versions.mpr ⟨c, by simp [hc], by simp [hx]⟩

theorem kept_of_reads (h : AddSeriesCalls calls)
    (hreads : ∀ v, Asked calls q v → ∃ r, FirstRow (calls.filterMap callRow) r ∧
      RowReads encode opts (scanQuery q) r v) : Kept encode opts calls q := by
  rintro pre columns post rfl c hc hwants ⟨s₀, hs₀, hin₀⟩
  have hcol : columns ∈ pre ++ columns :: post := by simp
  have hflat : c ∈ (pre ++ columns :: post).flatten := mem_flatten.mpr ⟨columns, hcol, hc⟩
  -- a sample of `c` in the window is read from a column that holds its key
  have hfound : ∀ s ∈ c.samples, q.inWindow s.timestamp = true →
      ∃ r, FirstRow ((pre ++ columns :: post).filterMap callRow) r ∧ r.seriesID = c.seriesID ∧
        ∃ d ∈ r.columns, d.seriesID = c.seriesID ∧ d.fieldID = c.fieldID ∧
          ColumnReads encode opts (scanQuery q) d s ∧ ∃ y ∈ d.samples, y.timestamp = s.timestamp := by
    intro s hs hin
    obtain ⟨r, hfirst, hr⟩ := hreads ⟨c.seriesID, c.fieldID, s⟩
      ⟨mem_versions_calls.mpr ⟨columns, hcol, c, hc, rfl, rfl, hs⟩, hwants, hin⟩
    obtain ⟨hseries, d, hd, -, hf, hreads⟩ := hr
    obtain ⟨y, hy, hyt, -⟩ := hreads.exists_sample
    obtain ⟨columns', hcol', hr⟩ := mem_filterMap.mp hfirst.mem
    have hds : d.seriesID = r.seriesID := (h.writableRow hcol' hr).series d hd
    exact ⟨r, hfirst, hseries.symm, d, hd, hds.trans hseries.symm, hf, hreads, y, hy, hyt⟩
  have hcolumns : ∀ {r : IndexRow} {calls' : List (List ColumnData)}, r ∈ calls'.filterMap callRow →
      ∀ {d : ColumnData}, d ∈ r.columns → d ∈ calls'.flatten := by
    intro r calls' hr d hd
    obtain ⟨columns', hcol', hr⟩ := mem_filterMap.mp hr
    exact mem_flatten.mpr ⟨columns', hcol', (mem_columns_callRow hr).mp hd⟩
  constructor
  · intro earlier he e hee heq
    obtain ⟨r, ⟨pre', post', hsplit, hnone⟩, hrs, d, hd, hds, hdf, -, y, hy, hyt⟩ := hfound s₀ hs₀ hin₀
    obtain ⟨re, hre⟩ := exists_callRow hee
    have hes : re.seriesID = r.seriesID := by
      rw [← h.series_callRow (mem_append_left _ he) hre hee, heq, hrs]
    have hlate : r ∉ pre.filterMap callRow := fun hr =>
      h.disjoint hc (hcolumns hr hd) hds.symm hdf.symm hs₀ hy hyt.symm
    rw [filterMap_append, append_eq_append_iff] at hsplit
    have hmem : re ∈ pre.filterMap callRow := mem_filterMap.mpr ⟨earlier, he, hre⟩
    rcases hsplit with ⟨rest, hpre', -⟩ | ⟨rest, hpre, hrest⟩
    · exact hnone re (by rw [hpre']; exact mem_append_left _ hmem) hes
    · cases rest with
      | nil => exact hnone re (by simpa [hpre] using hmem) hes
      | cons b rest =>
        obtain ⟨rfl, -⟩ := List.cons.inj hrest
        exact hlate (by simp [hpre])
  · apply kept_of_columnReads (h.writable columns hcol c hc)
    intro s hs hin
    obtain ⟨r, hfirst, -, d, hd, hds, hdf, hreads, y, hy, hyt⟩ := hfound s hs hin
    obtain rfl : d = c := h.column_eq (hcolumns hfirst.mem hd) hflat hds hdf hy hs hyt
    exact hreads

theorem not_readsExactly
    (hscan : sp.scanColumns (scanQuery q) = .ok scanned) (hasked : Asked calls q v) (hmissed : v ∉ versions scanned) :
    ¬ ReadsExactly sp calls q := by
  rintro ⟨scanned', _, _, hscan', -, -, hexact⟩
  obtain rfl : scanned = scanned' := Except.ok.inj (hscan.symm.trans hscan')
  exact hmissed ((hexact v).1.mpr hasked)

def intColumn (timestamps : List Int64) : ColumnData :=
  ⟨1, 1, .int64, timestamps.map fun t => ⟨t, t.toUInt64, .int64 t⟩⟩

def uncompressed : CompressionOptions :=
  { enabled := false, timestamp := "", float := "", int := "", string := "", algorithm := "",
    minPageValues := 0, valuePageSamples := 0, omitWriteSeq := false, zstdLevel := "" }

def plainEncoder : ValueEncoder := fun _ _ values => ⟨.plain, fun i => values.getD i.toNat (.int64 0)⟩

def seriesOne : ColumnQuery := ⟨[1], [], 0, 10⟩

theorem addSeriesCalls_split : AddSeriesCalls [[intColumn [1]], [intColumn [2]]] where
  writable := by
    intro columns hcol c hc
    simp only [mem_cons, not_mem_nil, or_false] at hcol
    rcases hcol with rfl | rfl <;> (obtain rfl := mem_singleton.mp hc; constructor <;> decide)
  oneSeries := by decide
  ordered := by decide
  unique := by decide
  nonempty := by decide

theorem addSeriesCalls_single : AddSeriesCalls [[intColumn [1, 2]]] where
  writable := by
    intro columns hcol c hc
    obtain rfl := mem_singleton.mp hcol
    obtain rfl := mem_singleton.mp hc
    constructor <;> decide
  oneSeries := by decide
  ordered := by decide
  unique := by decide
  nonempty := by decide

theorem kept_of_uncompressed (encode : ValueEncoder) (h : opts.enabled = false)
    (columns : List ColumnData) (q : ColumnQuery) : Kept encode opts [columns] q := by
  intro pre columns' post hsplit c _ _ _
  cases pre with
  | nil =>
    refine ⟨fun earlier he => absurd he not_mem_nil, fun w _ i s _ _ => ⟨?_, ?_⟩⟩
    · simp [pageLost, compressionEnabled, h]
    · simp [readBack, compressionEnabled, h]
  | cons first pre => simp at hsplit

end Mts.Sstable
