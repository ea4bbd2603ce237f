import Mts.Queryexec.Shown

/-! What a row query with an expression returns, compared with the rows that are stored. The planner
takes the fields to scan from the projection and the predicate list, the filter reads the expression. -/

namespace Mts.Queryexec
open Lib Model Sstable List

variable {encode : ValueEncoder} {opts : CompressionOptions} {e : QueryEngine encode opts} {q : Query}
  {v u : Version}

namespace QueryEngine

variable {id : UInt64} {row row' : Row} {shown : Version → Prop} {fields : List GoString}

def pushed (e : QueryEngine encode opts) (q : Query) : List (UInt32 × FieldPredicate) :=
  pushedPredicates e.catalog q.measurement (storageFieldPredicates q (fieldPredicates q.predicates))

def prunedScan (e : QueryEngine encode opts) (q : Query) : StorageQuery :=
  Engine.storageQuery (e.plannedScan q) (e.pushed q)

def fullScan (e : QueryEngine encode opts) (q : Query) : StorageQuery := Engine.storageQuery (e.plannedScan q) []

/-- At a series and a timestamp, skipped pages do not change the newest value of a pushed field. -/
def PrunedAlike (e : QueryEngine encode opts) (q : Query) (id : UInt64) (t : Int64) : Prop :=
  ∀ p ∈ e.pushed q, ∃ v w, e.Shown q (e.prunedScan q) v ∧ e.Shown q (e.fullScan q) w ∧
    Versioned.key v = (id, p.1, t) ∧ Versioned.key w = (id, p.1, t) ∧ v.sample.value = w.sample.value

def PruningSafe (e : QueryEngine encode opts) (q : Query) : Prop :=
  ∀ id t, Engine.Satisfies (e.Shown q (e.prunedScan q)) (e.pushed q) id t ∨
    Engine.Satisfies (e.Shown q (e.fullScan q)) (e.pushed q) id t → e.PrunedAlike q id t

def ReadsName (q : Query) (name : GoString) : Prop :=
  ∃ p ∈ q.expr.leaves, isTagOrTimePredicate p.kind = false ∧ p.name = name

structure ExprCovered (e : QueryEngine encode opts) (q : Query) : Prop where
  scanned : ∀ f ∈ e.catalog.fields, f.measurement = q.measurement →
    (q.fields = [] ∨ f.name ∈ q.fields ∨ ReadsName q f.name) → Scans q f.name
  pushdown : queryExprAllowsFlatPredicates q.expr = false → tagOnlyExpr q.expr = true →
    ∀ p ∈ q.expr.leavesAt false, p.kind ≠ .timeRange
  pruning : e.PruningSafe q
  readable : e.Readable q

theorem Shown.eq (hs : e.Sound q) (hread : e.Readable q) {pushed : List (UInt32 × FieldPredicate)}
    (hu : e.Shown q (Engine.storageQuery (e.plannedScan q) pushed) u)
    (hv : e.Shown q (Engine.storageQuery (e.plannedScan q) pushed) v) (hk : Versioned.key u = Versioned.key v) :
    u = v := by
  refine IsLatest.eq (hs.consistent.mono ?_) hu hv hk
  rintro w ⟨shard, hshard, hw⟩
  have hholds := holds_of_shardMatches hshard
  exact ⟨shard, hholds, sourceVersions_subset_stored hread hholds pushed hw.2.2.1.1⟩

theorem Live.eq (hs : e.Sound q) (hu : e.Live q u) (hv : e.Live q v) (hk : Versioned.key u = Versioned.key v) :
    u = v := by
  refine IsLatest.eq (hs.consistent.mono ?_) hu hv hk
  rintro w ⟨shard, hshard, hw⟩
  exact ⟨shard, hshard, hw.1.1⟩

theorem shown_iff_of_not_pushed (h : ∀ p ∈ e.pushed q, p.1 ≠ v.fieldID) :
    e.Shown q (e.prunedScan q) v ↔ e.Shown q (e.fullScan q) v := by
  refine isLatest_congr_key fun u hk => exists_congr fun shard => and_congr_right fun _ => ?_
  exact Engine.ShardContent.shown_iff_of_no_predicate (by rw [(Version.key_inj.mp hk).2.1]; exact h)

theorem wants_iff_scans (hne : scanNames q = [] ∨ plannedFields e.catalog q ≠ [])
    (hid : id ∈ plannedSeries e.defaults e.catalog q) (hf : f ∈ e.catalog.fields)
    (hm : f.measurement = q.measurement) : (e.plannedScan q).wants id f.id = true ↔ Scans q f.name := by
  have hseries : ((e.plannedScan q).seriesIDs.isEmpty || (e.plannedScan q).seriesIDs.contains id) = true := by
    simp [plannedScan, hid]
  rw [ColumnQuery.wants, hseries, Bool.true_and]
  show ((plannedFields e.catalog q).isEmpty || (plannedFields e.catalog q).contains f.id) = true ↔ _
  rw [Bool.or_eq_true, contains_iff_mem, mem_plannedFields hf, and_iff_right hm]
  constructor
  · rintro (hempty | hscans)
    · exact .inl (hne.resolve_right (not_not.mpr (List.isEmpty_iff.mp hempty)))
    · exact hscans
  · exact Or.inr

theorem value_iff (hs : e.Sound q) (hread : e.Readable q) (hne : scanNames q = [] ∨ plannedFields e.catalog q ≠ [])
    (hid : id ∈ plannedSeries e.defaults e.catalog q) (hin : (e.plannedScan q).inWindow t = true)
    (hsafe : e.PrunedAlike q id t) (hf : f ∈ e.catalog.fields) (hm : f.measurement = q.measurement)
    (x : FieldValue) :
    (∃ v, e.Shown q (e.prunedScan q) v ∧ Versioned.key v = (id, f.id, t) ∧ v.sample.value = x) ↔
      Scans q f.name ∧ ∃ v, e.Live q v ∧ Versioned.key v = (id, f.id, t) ∧ v.sample.value = x := by
  have hids : plannedSeries e.defaults e.catalog q ≠ [] := ne_nil_of_mem hid
  have hfull : ∀ {v : Version}, Versioned.key v = (id, f.id, t) →
      (e.Shown q (e.fullScan q) v ↔ Scans q f.name ∧ e.Live q v) := by
    intro v hk
    obtain ⟨hvs, hvf, hvt⟩ := Version.of_key hk
    rw [fullScan, shown_full_iff hs hids hread, hvs, hvf, hvt, wants_iff_scans hne hid hf hm, and_iff_left hin]
  by_cases hp : ∃ p ∈ e.pushed q, p.1 = f.id
  · obtain ⟨p, hp, hpf⟩ := hp
    obtain ⟨v, w, hv, hw, hkv, hkw, heq⟩ := hsafe p hp
    rw [hpf] at hkv hkw
    obtain ⟨hscans, hlive⟩ := (hfull hkw).mp hw
    constructor
    · rintro ⟨u, hu, hk, rfl⟩
      rw [hu.eq hs hread hv (hk.trans hkv.symm), heq]
      exact ⟨hscans, w, hlive, hkw, rfl⟩
    · rintro ⟨-, u, hu, hk, rfl⟩
      rw [hu.eq hs hlive (hk.trans hkw.symm), ← heq]
      exact ⟨v, hv, hkv, rfl⟩
  · have hshown : ∀ {v : Version}, Versioned.key v = (id, f.id, t) →
        (e.Shown q (e.prunedScan q) v ↔ e.Shown q (e.fullScan q) v) := by
      intro v hk
      exact shown_iff_of_not_pushed fun p hmem heq => hp ⟨p, hmem, heq.trans (Version.of_key hk).2.1⟩
    constructor
    · rintro ⟨v, hv, hk, hx⟩
      obtain ⟨hscans, hlive⟩ := (hfull hk).mp ((hshown hk).mp hv)
      exact ⟨hscans, v, hlive, hk, hx⟩
    · rintro ⟨hscans, v, hv, hk, hx⟩
      exact ⟨v, (hshown hk).mpr ((hfull hk).mpr ⟨hscans, hv⟩), hk, hx⟩

theorem rowMatchesExpr_congr (htags : row.tags = row'.tags) (htime : row.timestamp = row'.timestamp)
    (hfields : ∀ name, ReadsName q name → row.fields name = row'.fields name) :
    rowMatchesExpr row q.expr = rowMatchesExpr row' q.expr := by
  refine BoolExpr.eval_congr fun p hp => ?_
  unfold rowMatchesExprPredicate
  cases hkind : isTagOrTimePredicate p.kind with
  | true =>
    cases hk : p.kind <;> simp_all [isTagOrTimePredicate]
  | false =>
    rw [hfields p.name ⟨p, hp, hkind, rfl⟩]
    cases hk : p.kind <;> simp_all [isTagOrTimePredicate]

theorem satisfies_pushed (hpred : PredicatesAreLeaves q) (hexpr : rowMatchesExpr row q.expr = true)
    (hrow : ∀ f ∈ e.catalog.fields, f.measurement = q.measurement → ReadsName q f.name → ∀ x,
      row.fields f.name = some x →
        ∃ v, shown v ∧ Versioned.key v = (row.seriesID, f.id, row.timestamp) ∧ v.sample.value = x) :
    Engine.Satisfies shown (e.pushed q) row.seriesID row.timestamp := by
  intro p hp
  obtain ⟨qp, hqp, hkind, hvalue, f, hf, hm, hname, hid⟩ := mem_pushedPredicates.mp hp
  cases hflat : queryExprAllowsFlatPredicates q.expr with
  | false =>
    rw [storageFieldPredicates, hflat] at hqp
    cases hqp
  | true =>
    rw [storageFieldPredicates, hflat] at hqp
    have hmem : qp ∈ q.predicates := mem_of_mem_filter hqp
    have hholds := hpred.holds hflat hexpr hmem
    have hreads : ReadsName q f.name := ⟨qp, mem_append_left _ (hpred hflat qp hmem), by rw [hkind]; rfl, hname.symm⟩
    rw [rowMatchesExprPredicate, hkind] at hholds
    cases hx : row.fields qp.name with
    | none => simp [hx] at hholds
    | some x =>
      rw [hx] at hholds
      obtain ⟨v, hv, hk, rfl⟩ := hrow f hf hm hreads x (hname ▸ hx)
      refine ⟨v, hv, hid ▸ hk, ?_⟩
      have hmatch : valueMatchesPredicate v.sample.value qp = true := hholds
      rw [valueMatchesPredicate, hkind, hvalue] at hmatch
      exact hmatch

theorem measurement_of_mem_plannedSeries (h : id ∈ plannedSeries e.defaults e.catalog q)
    (hs : s ∈ e.catalog.series) (hid : s.id = id) : s.measurement = q.measurement := by
  have hsub : ∀ ids, filterSeriesIDsByPredicates e.catalog ids q.expr q.predicates ⊆ ids := by
    intro ids
    unfold filterSeriesIDsByPredicates filterSeriesIDsByTagExpr filterSeriesIDs
    split_ifs
    · exact List.Subset.refl _
    · exact filter_subset_self _
    · exact List.Subset.refl _
    · exact filter_subset_self _
  have hmatch := (mem_matchSeries hs).mp (hid ▸ hsub _ h)
  obtain ⟨tags, start, stop, hplan⟩ := plannedQuery_frame e.defaults q
  rw [hmatch.1, hplan]
  rfl

theorem exists_fieldsFrom (e : QueryEngine encode opts) (q : Query)
    (hshown : ∀ u v, shown u → shown v → Versioned.key u = Versioned.key v → u = v) (id : UInt64)
    (tags : TagMap) (t : Int64) : ∃ fields, e.FieldsFrom q shown ⟨id, tags, t, fields⟩ := by
  classical
  let P : GoString → FieldValue → Prop := fun name x => ∃ f ∈ e.catalog.fields,
    f.measurement = q.measurement ∧ f.name = name ∧
      ∃ v, shown v ∧ Versioned.key v = (id, f.id, t) ∧ v.sample.value = x
  refine ⟨fun name => if h : ∃ x, P name x then some h.choose else none, fun name x => ?_⟩
  dsimp only
  constructor
  · intro heq
    split at heq
    · next h =>
      rw [← Option.some.inj heq]
      exact h.choose_spec
    · cases heq
  · intro hx
    have h : ∃ x, P name x := ⟨x, hx⟩
    rw [dif_pos h]
    obtain ⟨f, hf, hfm, hfn, u, hu, hku, hux⟩ := h.choose_spec
    obtain ⟨g, hg, hgm, hgn, v, hv, hkv, rfl⟩ := hx
    obtain rfl : f = g := inj_on_of_nodup_map e.catalog.namesNodup hf hg (by rw [hfm, hgm, hfn, hgn])
    rw [← hux, hshown u v hu hv (hku.trans hkv.symm)]

theorem planned_of_shown (hids : plannedSeries e.defaults e.catalog q ≠ []) (hv : e.Shown q (e.prunedScan q) v) :
    v.seriesID ∈ plannedSeries e.defaults e.catalog q := by
  obtain ⟨⟨shard, -, hv⟩, -⟩ := hv
  have := (Bool.and_eq_true .. ▸ hv.1 : _ ∧ _).1
  simpa [prunedScan, Engine.storageQuery, plannedScan, hids] using this

theorem rowOf_planned (hcat : ∀ c ∈ raw, Catalogued e.catalog c.seriesID c.fieldID)
    (hraw : ∀ v, v ∈ versions raw ↔ e.Shown q (e.prunedScan q) v)
    (hids : plannedSeries e.defaults e.catalog q ≠ []) :
    RowOf (raw.map (decorateColumn e.catalog)) row ↔
      (∃ s ∈ e.catalog.series, s.id = row.seriesID ∧ s.measurement = q.measurement ∧ s.tags = row.tags) ∧
      (∃ name x, row.fields name = some x) ∧ e.FieldsFrom q (e.Shown q (e.prunedScan q)) row := by
  have hfield : ∀ {v : Version}, e.Shown q (e.prunedScan q) v → ∀ f ∈ e.catalog.fields, f.id = v.fieldID →
      f.measurement = q.measurement := by
    intro v hv f hf hid
    obtain ⟨c, hc, hvc⟩ := mem_versions.mp ((hraw v).mpr hv)
    obtain ⟨hcs, hcf, -⟩ := ColumnData.mem_versions.mp hvc
    obtain ⟨s, hs, hsid, g, hg, hgid, hgm⟩ := hcat c hc
    obtain rfl : g = f := inj_on_of_nodup_map e.catalog.fieldsNodup hg hf (hgid.trans (hcf.trans hid.symm))
    rw [hgm]
    exact measurement_of_mem_plannedSeries (planned_of_shown hids hv) hs (hsid.trans hcs)
  have hiff : (∀ name x, row.fields name = some x ↔ ∃ f ∈ e.catalog.fields, f.name = name ∧
      ∃ v ∈ versions raw, Versioned.key v = (row.seriesID, f.id, row.timestamp) ∧ v.sample.value = x) ↔
      e.FieldsFrom q (e.Shown q (e.prunedScan q)) row := by
    refine forall_congr' fun name => forall_congr' fun x => iff_congr Iff.rfl (exists_congr fun f =>
      and_congr_right fun hf => ?_)
    simp only [hraw]
    constructor
    · rintro ⟨hname, v, hv, hk, hx⟩
      exact ⟨hfield hv f hf (Version.of_key hk).2.1.symm, hname, v, hv, hk, hx⟩
    · rintro ⟨-, hname, hv⟩
      exact ⟨hname, hv⟩
  rw [rowOf_decorated hcat, hiff]
  constructor
  · rintro ⟨⟨s, hs, hid, htags⟩, hnonempty, hfields⟩
    refine ⟨⟨s, hs, hid, ?_, htags⟩, hnonempty, hfields⟩
    obtain ⟨name, x, hx⟩ := hnonempty
    obtain ⟨f, -, -, -, v, hv, hk, -⟩ := (hfields name x).mp hx
    exact measurement_of_mem_plannedSeries (planned_of_shown hids hv) hs (hid.trans (Prod.mk.inj hk).1.symm)
  · rintro ⟨⟨s, hs, hid, -, htags⟩, hnonempty, hfields⟩
    exact ⟨⟨s, hs, hid, htags⟩, hnonempty, hfields⟩

theorem fields_eq_of_scanned (hs : e.Sound q) (hread : e.Readable q)
    (hne : scanNames q = [] ∨ plannedFields e.catalog q ≠ [])
    (hid : row.seriesID ∈ plannedSeries e.defaults e.catalog q)
    (hin : (e.plannedScan q).inWindow row.timestamp = true) (hsafe : e.PrunedAlike q row.seriesID row.timestamp)
    (hrow : e.FieldsFrom q (e.Shown q (e.prunedScan q)) row) (hrow' : e.FieldsFrom q (e.Live q) row')
    (hseries : row'.seriesID = row.seriesID) (htime : row'.timestamp = row.timestamp)
    (hscans : ∀ f ∈ e.catalog.fields, f.measurement = q.measurement → f.name = name → Scans q f.name) :
    row.fields name = row'.fields name := by
  apply Option.ext
  intro x
  rw [hrow, hrow', hseries, htime]
  refine exists_congr fun f => and_congr_right fun hf => and_congr_right fun hm => and_congr_right fun hn => ?_
  rw [value_iff hs hread hne hid hin hsafe hf hm, and_iff_right (hscans f hf hm hn)]

def projection (fields : List GoString) (row : Row) : Row :=
  if fields.isEmpty then row else projectRow fields row

theorem mem_projectedRowStream : out ∈ projectedRowStream fields rows ↔ ∃ row ∈ rows, projection fields row = out := by
  unfold projectedRowStream projection
  split <;> simp

theorem projection_congr (hseries : row.seriesID = row'.seriesID) (htags : row.tags = row'.tags)
    (htime : row.timestamp = row'.timestamp)
    (hfields : ∀ name, (fields = [] ∨ name ∈ fields) → row.fields name = row'.fields name) :
    projection fields row = projection fields row' := by
  obtain ⟨id, tags, t, values⟩ := row
  obtain ⟨id', tags', t', values'⟩ := row'
  obtain rfl := hseries
  obtain rfl := htags
  obtain rfl := htime
  unfold projection
  split
  · next hempty =>
    have : values = values' := funext fun name => hfields name (.inl (List.isEmpty_iff.mp hempty))
    rw [this]
  · unfold projectRow
    congr 1
    funext name
    split
    · next hmem => exact hfields name (.inr (by simpa using hmem))
    · rfl

theorem queryRows_eq (go : GoLib) (e : QueryEngine encode opts) (q : Query) :
    e.queryRows go q = (e.queryColumnsFromPlan go (buildQueryPlan e.defaults e.catalog q).columnPlan).bind
      fun columns => .ok (projectedRowStream (buildQueryPlan e.defaults e.catalog q).outputFields
        (filteredRowStream (buildQueryPlan e.defaults e.catalog q).query.expr
          (buildQueryPlan e.defaults e.catalog q).postFilterPredicates (rowMergeStream columns))) := rfl

theorem queryRows_ok (go : GoLib) (homit : opts.omitWriteSeq = false) (hs : e.Sound q) (hread : e.Readable q)
    (haggr : q.aggregates = []) (hpred : PredicatesAreLeaves q)
    (hids : plannedSeries e.defaults e.catalog q ≠ [])
    (hne : scanNames q = [] ∨ plannedFields e.catalog q ≠ []) :
    ∃ rows, e.queryRows go q = .ok rows ∧ ∀ out, out ∈ rows ↔ ∃ row,
      ((∃ s ∈ e.catalog.series, s.id = row.seriesID ∧ s.measurement = q.measurement ∧ s.tags = row.tags) ∧
        (∃ name x, row.fields name = some x) ∧ e.FieldsFrom q (e.Shown q (e.prunedScan q)) row) ∧
      rowMatchesExpr row q.expr = true ∧ projection q.fields row = out := by
  obtain ⟨tags, start, stop, hframe⟩ := plannedQuery_frame e.defaults q
  have hplan := buildQueryPlan_eq e.defaults e.catalog q
  rw [if_neg (by simpa using hids)] at hplan
  have hexpr : (plannedQuery e.defaults q).expr = q.expr := by rw [hframe]; rfl
  have hnoaggr : (plannedQuery e.defaults q).aggregates = [] := by rw [hframe]; exact haggr
  have hempty : (!(scanNames q).isEmpty && (plannedFields e.catalog q).isEmpty) = false := by
    rcases hne with h | h <;> simp [h]
  -- the plan of the columns, its scan and its shards
  let columnPlan := (buildQueryPlan e.defaults e.catalog q).columnPlan
  have haggr' : columnPlan.query.aggregates = [] := by simp [columnPlan, QueryPlan.columnPlan, hplan, hnoaggr]
  have hscan : columnPlan.scan go = e.prunedScan q := by
    have hboundary : queryBoundaryMode go columnPlan.query = .none := by simp [queryBoundaryMode, haggr']
    unfold QueryPlan.scan
    rw [hboundary]
    simp only [columnPlan, QueryPlan.columnPlan, hplan, fieldPredicatesByID_eq]
    rfl
  have hmatch : ∀ shard : OpenShard encode opts, shardMatches columnPlan.query shard =
      shardMatches (plannedQuery e.defaults q) shard := by
    intro shard
    simp only [columnPlan, QueryPlan.columnPlan, hplan]
    rfl
  obtain ⟨raw, hraw, hsorted, hmem, hcat⟩ := queryColumnDataStream_ok go homit hs hread hids hscan hmatch
  have hcolumns : e.queryColumnsFromPlan go columnPlan = .ok (raw.map (decorateColumn e.catalog)) := by
    have hfalse : columnPlan.empty = false := by simp [columnPlan, QueryPlan.columnPlan, hplan, hempty]
    unfold queryColumnsFromPlan
    rw [hfalse, hraw, haggr']
    rfl
  refine ⟨projectedRowStream q.fields (filteredRowStream q.expr (fieldPredicates q.predicates)
    (rowMergeStream (raw.map (decorateColumn e.catalog)))), ?_, fun out => ?_⟩
  · rw [queryRows_eq, hcolumns, hplan]
    show Except.ok _ = _
    rw [show ({ plannedQuery e.defaults q with fields := scanNames q } : Query).expr = q.expr from hexpr]
  · have hfilter : ∀ {rows : List Row} {row : Row}, row ∈ filteredRowStream q.expr
        (fieldPredicates q.predicates) rows ↔ row ∈ rows ∧ rowMatchesExpr row q.expr = true := by
      intro rows row
      cases hexpr : q.expr with
      | none =>
        have hnone : q.predicates = [] := eq_nil_iff_forall_not_mem.mpr fun p hp => by
          have := hpred (by rw [hexpr]; rfl) p hp
          rw [hexpr] at this
          cases this
        simp [filteredRowStream, hnone, fieldPredicates, rowMatchesPredicates, rowMatchesExpr, BoolExpr.eval]
      | _ => rw [filteredRowStream, mem_filter]; simp
    rw [mem_projectedRowStream]
    refine exists_congr fun row => ?_
    rw [hfilter, mem_rowMergeStream (mergeable_decorated hsorted hcat), rowOf_planned hcat hmem hids, and_assoc]

theorem queryRows_of_empty (go : GoLib) (h : (buildQueryPlan e.defaults e.catalog q).empty = true) :
    e.queryRows go q = .ok [] := by
  have hcolumns : e.queryColumnsFromPlan go (buildQueryPlan e.defaults e.catalog q).columnPlan = .ok [] := if_pos h
  have hnil : ∀ expr post, filteredRowStream expr post (rowMergeStream []) = [] := by
    intro expr post
    cases expr <;> rfl
  rw [queryRows_eq, hcolumns]
  show Except.ok _ = _
  rw [hnil, projectedRowStream]
  simp

theorem exists_scanned_field (hcov : e.ExprCovered q) (hrow : e.StoredRow q row)
    (hout : projection q.fields row = out) (hfield : ∃ name x, out.fields name = some x) :
    ∃ name x, row.fields name = some x ∧ (q.fields = [] ∨ name ∈ q.fields) ∧
      ∃ f ∈ e.catalog.fields, f.measurement = q.measurement ∧ f.name = name ∧ Scans q f.name := by
  obtain ⟨name, x, hx⟩ := hfield
  have hproj : row.fields name = some x ∧ (q.fields = [] ∨ name ∈ q.fields) := by
    rw [← hout, projection] at hx
    split at hx
    · next hempty => exact ⟨hx, .inl (List.isEmpty_iff.mp hempty)⟩
    · rw [projectRow] at hx
      dsimp only at hx
      split at hx
      · next hmem => exact ⟨hx, .inr (by simpa using hmem)⟩
      · cases hx
  obtain ⟨f, hf, hm, hn, -⟩ := (hrow.fields name x).mp hproj.1
  refine ⟨name, x, hproj.1, hproj.2, f, hf, hm, hn, hcov.scanned f hf hm ?_⟩
  rw [hn]
  exact hproj.2.imp_right Or.inl

end QueryEngine

section Example

variable {a b : Int64}

def plainStored (columns : List ColumnData) : StoredPart :=
  match writePart plainEncoder uncompressed [] 0 [] [columns] with
  | .ok sp => sp
  | .error _ => ⟨(newPartWriter [] 0 []).partMeta, [], [], []⟩

def plainPart (columns : List ColumnData) (valid : AddSeriesCalls [columns])
    (distinct : (columns.map ColumnData.fieldID).Nodup) : Engine.WrittenPart plainEncoder uncompressed where
  calls := [columns]
  path := []
  level := 0
  id := []
  stored := plainStored columns
  valid := valid
  distinctFields := by simpa using distinct
  written := by
    obtain ⟨-, sp, hsp, -⟩ := writePart_ok plainEncoder (show uncompressed.omitWriteSeq = false from rfl) valid [] 0 []
    rw [plainStored, hsp]

def twoColumns (a b : Int64) : List ColumnData :=
  [⟨1, 1, .int64, [⟨5, 1, .int64 a⟩]⟩, ⟨1, 2, .int64, [⟨5, 1, .int64 b⟩]⟩]

theorem addSeriesCalls_twoColumns (a b : Int64) : AddSeriesCalls [twoColumns a b] where
  writable := by
    intro columns hcol c hc
    obtain rfl := mem_singleton.mp hcol
    simp only [twoColumns, mem_cons, not_mem_nil, or_false] at hc
    rcases hc with rfl | rfl <;> constructor <;> simp [FieldValue.type]
  oneSeries := by simp [twoColumns]
  ordered := by simp [twoColumns]
  unique := by simp [twoColumns, versions, ColumnData.versions]
  nonempty := by simp [twoColumns]

def twoFieldCatalog : Snapshot where
  series := [⟨1, [109], TagMap.empty⟩]
  fields := [⟨1, [109], [97], .int64⟩, ⟨2, [109], [98], .int64⟩]
  seriesNodup := by decide
  fieldsNodup := by decide
  namesNodup := by decide

def twoFieldEngine (a b : Int64) : QueryEngine plainEncoder uncompressed where
  defaults := ⟨[100], [114]⟩
  catalog := twoFieldCatalog
  shards := [⟨[100], [114], 0, 100, ⟨Engine.MemTable.empty,
    [plainPart (twoColumns a b) (addSeriesCalls_twoColumns a b) (by simp [twoColumns])], [],
    Engine.MemTable.distinctColumns_empty⟩⟩]

def plainGo : GoLib := ⟨id, fun a _ => a, fun a _ => a, fun a _ => a, fun a _ => a, id, id, fun _ => []⟩

def exprQuery (fields : List GoString) (predicates : List QueryPredicate) (expr : QueryExpr) : Query :=
  { predicateQuery predicates with fields := fields, expr := expr }

def twoFieldRow (a b : Int64) : Row :=
  ⟨1, TagMap.empty, 5, fun name =>
    if name = [97] then some (.int64 a) else if name = [98] then some (.int64 b) else none⟩

theorem mem_stored_twoFieldEngine (h : (twoFieldEngine a b).Holds q shard) :
    stored shard.content = {v | v ∈ versions (twoColumns a b)} ∧ shard.content.tombstones = [] ∧
      shard.start = 0 ∧ shard.stop = 100 := by
  obtain rfl := mem_singleton.mp h.1
  refine ⟨?_, rfl, rfl, rfl⟩
  ext v
  simp [stored, plainPart]

theorem versions_twoColumns (a b : Int64) :
    versions (twoColumns a b) = [⟨1, 1, ⟨5, 1, .int64 a⟩⟩, ⟨1, 2, ⟨5, 1, .int64 b⟩⟩] := rfl

theorem eq_of_key_twoColumns (hu : u ∈ versions (twoColumns a b)) (hv : v ∈ versions (twoColumns a b))
    (hk : Versioned.key u = Versioned.key v) : u = v := by
  simp only [versions_twoColumns, mem_cons, not_mem_nil, or_false] at hu hv
  rcases hu with rfl | rfl <;> rcases hv with rfl | rfl <;> simp_all

variable {fields : List GoString} {predicates : List QueryPredicate} {expr : QueryExpr}

theorem sound_twoFieldEngine (a b : Int64) : (twoFieldEngine a b).Sound (exprQuery fields predicates expr) where
  catalogued := by
    intro shard hshard v hv
    rw [(mem_stored_twoFieldEngine hshard).1] at hv
    refine ⟨⟨1, [109], TagMap.empty⟩, mem_singleton_self _, ?_⟩
    simp only [versions_twoColumns, Set.mem_ofPred_eq, mem_cons, not_mem_nil, or_false] at hv
    rcases hv with rfl | rfl
    · exact ⟨rfl, ⟨1, [109], [97], .int64⟩, by simp [twoFieldEngine, twoFieldCatalog], rfl, rfl⟩
    · exact ⟨rfl, ⟨2, [109], [98], .int64⟩, by simp [twoFieldEngine, twoFieldCatalog], rfl, rfl⟩
  inRange := by
    intro shard hshard v hv
    obtain ⟨hstored, -, hstart, hstop⟩ := mem_stored_twoFieldEngine hshard
    rw [hstored] at hv
    have htime : v.sample.timestamp = 5 := by
      simp only [versions_twoColumns, Set.mem_ofPred_eq, mem_cons, not_mem_nil, or_false] at hv
      rcases hv with rfl | rfl <;> rfl
    rw [hstart, hstop, htime]
    decide
  consistent := by
    rintro u ⟨shard, hshard, hu⟩ v ⟨shard', hshard', hv⟩ hk _
    rw [(mem_stored_twoFieldEngine hshard).1] at hu
    rw [(mem_stored_twoFieldEngine hshard').1] at hv
    exact eq_of_key_twoColumns hu hv hk

theorem live_twoFieldEngine :
    (twoFieldEngine a b).Live (exprQuery fields predicates expr) v ↔ v ∈ versions (twoColumns a b) := by
  have hvisible : ∀ u, (∃ shard, (twoFieldEngine a b).Holds (exprQuery fields predicates expr) shard ∧
      Visible (stored shard.content) (Engine.Covered shard.content.tombstones) u) ↔
        u ∈ versions (twoColumns a b) := by
    intro u
    constructor
    · rintro ⟨shard, hshard, hu⟩
      have := hu.1.1
      rwa [(mem_stored_twoFieldEngine hshard).1] at this
    · intro hu
      have hshard : (twoFieldEngine a b).Holds (exprQuery fields predicates expr)
          ((twoFieldEngine a b).shards.head (by simp [twoFieldEngine])) :=
        ⟨head_mem _, rfl, rfl⟩
      refine ⟨_, hshard, ?_, ?_⟩
      · rw [(mem_stored_twoFieldEngine hshard).1]
        exact ⟨hu, fun w hw hk => le_of_eq (congrArg Versioned.seq (eq_of_key_twoColumns hw hu hk))⟩
      · rw [(mem_stored_twoFieldEngine hshard).2.1]
        rintro ⟨tombstone, hmem, -⟩
        cases hmem
  unfold QueryEngine.Live
  simp only [hvisible]
  exact ⟨And.left, fun hv => ⟨hv, fun w hw hk =>
    le_of_eq (congrArg Versioned.seq (eq_of_key_twoColumns hw hv hk))⟩⟩

theorem storedRow_twoFieldRow (a b : Int64) :
    (twoFieldEngine a b).StoredRow (exprQuery fields predicates expr) (twoFieldRow a b) where
  series := ⟨⟨1, [109], TagMap.empty⟩, mem_singleton_self _, rfl, rfl, rfl⟩
  fields := by
    intro name x
    simp only [live_twoFieldEngine, versions_twoColumns, mem_cons, not_mem_nil, or_false]
    constructor
    · intro hx
      simp only [twoFieldRow] at hx
      split_ifs at hx with ha hb
      · exact ⟨⟨1, [109], [97], .int64⟩, by simp [twoFieldEngine, twoFieldCatalog], rfl, ha.symm,
          _, .inl rfl, rfl, Option.some.inj hx⟩
      · exact ⟨⟨2, [109], [98], .int64⟩, by simp [twoFieldEngine, twoFieldCatalog], rfl, hb.symm,
          _, .inr rfl, rfl, Option.some.inj hx⟩
    · rintro ⟨f, hf, -, rfl, v, hv, hk, rfl⟩
      simp only [twoFieldEngine, twoFieldCatalog, mem_cons, not_mem_nil, or_false] at hf
      rcases hf with rfl | rfl <;> rcases hv with rfl | rfl <;> simp_all [twoFieldRow]

def fieldGreater (name : GoString) (value : Int64) : QueryPredicate :=
  { kind := .field .gt, name := name, value := .int64 value }

/-- `a > 5` below a disjunction, and in the predicate list so that `a` is scanned. -/
def scannedQuery : Query := exprQuery [[98]] [fieldGreater [97] 5] (.or [.leaf (fieldGreater [97] 5)])

theorem exprCovered_scannedQuery : (twoFieldEngine 10 1).ExprCovered scannedQuery where
  scanned := by
    intro f hf _ _
    right
    simp only [twoFieldEngine, twoFieldCatalog, mem_cons, not_mem_nil, or_false] at hf
    rcases hf with rfl | rfl <;> decide
  pushdown := by
    intro _ htag
    exact absurd htag (by decide)
  pruning := by
    intro id t _ p hp
    cases hp
  readable := by
    intro shard hshard p hp
    obtain rfl := mem_singleton.mp hshard.1
    obtain rfl := mem_singleton.mp hp
    exact kept_of_uncompressed _ rfl _ _

end Example

end Mts.Queryexec
