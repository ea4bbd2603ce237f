import Mts.Queryexec.Predicate

/-! Query planning, `engine/query_plan.go`, `query_predicates.go` and `paths.go`: the predicate list is
folded into the one time window and the one tag map of the query, then the catalog gives the series and
the fields to scan. Limits, order, cursor, budget and explain data are left out. -/

namespace Mts.Queryexec
open Lib Model List

variable {s : Series} {tags : TagMap}

/-- The maps of a catalog snapshot; an ID is a key, and so is the name of a field in its measurement. -/
structure Snapshot where
  series : List Series
  fields : List Field
  seriesNodup : (series.map Series.id).Nodup
  fieldsNodup : (fields.map Field.id).Nodup
  namesNodup : (fields.map fun f => (f.measurement, f.name)).Nodup

variable {catalog : Snapshot}

structure AggregateSpec where
  field : GoString
  function : GoString
  deriving DecidableEq, Repr

structure Query where
  database : GoString
  retentionPolicy : GoString
  measurement : GoString
  tags : TagMap
  fields : List GoString
  startTime : Int64
  endTime : Int64
  predicates : List QueryPredicate
  expr : QueryExpr
  aggregates : List AggregateSpec
  window : Int64
  groupTags : List GoString

structure Defaults where
  database : GoString
  retentionPolicy : GoString

def defaultQueryEndTime : Int64 := Int64.maxValue

def normalizeQuery (opts : Defaults) (query : Query) : Query :=
  { query with
    database := if query.database.isEmpty then opts.database else query.database
    retentionPolicy := if query.retentionPolicy.isEmpty then opts.retentionPolicy else query.retentionPolicy
    endTime := if query.endTime = 0 then defaultQueryEndTime else query.endTime }

/-- One predicate of the list takes the place of what the query asked for before. -/
def applyPredicate (query : Query) (p : QueryPredicate) : Query :=
  match p.kind with
  | .timeRange => { query with startTime := p.start, endTime := p.stop }
  | .tagEq =>
    match p.stringValues with
    | [] => query
    | value :: _ => { query with tags := query.tags.set p.name value }
  | _ => query

def normalizeStructuredQuery (query : Query) : Query :=
  if !queryExprAllowsFlatPredicates query.expr then query
  else query.predicates.foldl applyPredicate query

def fieldPredicates (predicates : List QueryPredicate) : List QueryPredicate :=
  predicates.filter fun p => isFieldPredicate p.kind

def storageFieldPredicates (query : Query) (predicates : List QueryPredicate) : List QueryPredicate :=
  if !queryExprAllowsFlatPredicates query.expr then [] else predicates

def appendUniqueField (out : List GoString) (field : GoString) : List GoString :=
  if field.isEmpty then out else if out.contains field then out else out ++ [field]

def scanFields (fields : List GoString) (aggregates : List AggregateSpec) (predicates : List QueryPredicate) :
    List GoString :=
  (fields ++ aggregates.map AggregateSpec.field ++ predicates.map QueryPredicate.name).foldl appendUniqueField []

/-- A missing tag reads as the empty string. -/
def tagsMatch (seriesTags filter : TagMap) : Bool := filter.entries.all fun e => seriesTags.get e.1 = e.2

def matchSeries (catalog : Snapshot) (measurement : GoString) (tags : TagMap) : List UInt64 :=
  ((catalog.series.filter fun s => s.measurement = measurement && tagsMatch s.tags tags).map
    Series.id).insertionSort (· ≤ ·)

def hasNonExactTagPredicate (predicates : List QueryPredicate) : Bool :=
  predicates.any fun p => p.kind = .tagNe || p.kind = .tagExists || p.kind = .tagIn

def seriesMatchesTagPredicates (tags : TagMap) (predicates : List QueryPredicate) : Bool :=
  predicates.all (tagPredicateMatches tags)

def filterSeriesIDs (ids : List UInt64) (series : List Series) (predicates : List QueryPredicate) : List UInt64 :=
  ids.filter fun id =>
    seriesMatchesTagPredicates (((seriesByID series id).map Series.tags).getD TagMap.empty) predicates

def filterSeriesIDsByPredicates (catalog : Snapshot) (ids : List UInt64) (expr : QueryExpr)
    (predicates : List QueryPredicate) : List UInt64 :=
  if !queryExprAllowsFlatPredicates expr then
    if !tagOnlyExpr expr then ids else filterSeriesIDsByTagExpr ids catalog.series expr
  else if !hasNonExactTagPredicate predicates then ids
  else filterSeriesIDs ids catalog.series predicates

/-- `FieldIDs` of the catalog; no name stands for all fields of the measurement. -/
def fieldIDs (catalog : Snapshot) (measurement : GoString) (names : List GoString) : List UInt32 :=
  (catalog.fields.filter fun f =>
    f.measurement = measurement && (names.isEmpty || names.contains f.name)).map Field.id

def fieldPredicatesByID (catalog : Snapshot) (measurement : GoString) (predicates : List QueryPredicate)
    (id : UInt32) : List FieldPredicate :=
  predicates.filterMap fun p =>
    match p.kind with
    | .field comparison =>
      if catalog.fields.any fun f => f.measurement = measurement && f.name = p.name && f.id = id then
        some ⟨comparison, p.value⟩
      else none
    | _ => none

structure QueryPlan where
  query : Query
  seriesIDs : List UInt64
  fieldIDs : List UInt32
  fieldPredicates : UInt32 → List FieldPredicate
  outputFields : List GoString
  postFilterPredicates : List QueryPredicate
  empty : Bool

def buildQueryPlan (opts : Defaults) (catalog : Snapshot) (query : Query) : QueryPlan :=
  let query := normalizeStructuredQuery (normalizeQuery opts query)
  let outputFields := query.fields
  let postFilters := fieldPredicates query.predicates
  let storageFilters := storageFieldPredicates query postFilters
  let query := { query with fields := scanFields query.fields query.aggregates postFilters }
  let seriesIDs := filterSeriesIDsByPredicates catalog (matchSeries catalog query.measurement query.tags)
    query.expr query.predicates
  if seriesIDs.isEmpty then ⟨query, [], [], fun _ => [], outputFields, [], true⟩
  else
    let fieldIDs := fieldIDs catalog query.measurement query.fields
    ⟨query, seriesIDs, fieldIDs, fieldPredicatesByID catalog query.measurement storageFilters, outputFields,
      postFilters, !query.fields.isEmpty && fieldIDs.isEmpty⟩

theorem Snapshot.seriesByID (h : s ∈ catalog.series) : seriesByID catalog.series s.id = some s := by
  unfold Queryexec.seriesByID
  cases hfind : catalog.series.find? fun x => x.id = s.id with
  | none => simpa using find?_eq_none.mp hfind s h
  | some x =>
    have hid : x.id = s.id := by simpa using find?_some hfind
    rw [inj_on_of_nodup_map catalog.seriesNodup (mem_of_find?_eq_some hfind) h hid]

theorem mem_matchSeries (h : s ∈ catalog.series) :
    s.id ∈ matchSeries catalog measurement tags ↔ s.measurement = measurement ∧ tagsMatch s.tags tags = true := by
  rw [matchSeries, mem_insertionSort, mem_map]
  constructor
  · rintro ⟨x, hx, hid⟩
    obtain ⟨hmem, hx⟩ := mem_filter.mp hx
    rw [← inj_on_of_nodup_map catalog.seriesNodup hmem h hid]
    simpa using hx
  · intro hs
    exact ⟨s, mem_filter.mpr ⟨h, by simpa using hs⟩, rfl⟩

theorem tagsMatch_iff {seriesTags filter : TagMap} :
    tagsMatch seriesTags filter = true ↔
      ∀ key value, filter.find? key = some value → seriesTags.get key = value := by
  rw [tagsMatch, all_eq_true]
  constructor
  · intro h key value hfind
    simpa using h (key, value) (TagMap.mem_entries_iff.mpr hfind)
  · intro h e he
    simpa using h e.1 e.2 (TagMap.mem_entries_iff.mp he)

section Conjunction

variable {q : Query}

/-- A time range of a query; an end of 0 means no upper bound. -/
def InRange (start stop t : Int64) : Prop := start ≤ t ∧ (stop = 0 ∨ t ≤ stop)

instance (start stop t : Int64) : Decidable (InRange start stop t) := inferInstanceAs (Decidable (_ ∧ _))

def PredicateHolds (s : Series) (t : Int64) (p : QueryPredicate) : Prop :=
  if p.kind = .timeRange then InRange p.start p.stop t else tagPredicateMatches s.tags p = true

instance (s : Series) (t : Int64) (p : QueryPredicate) : Decidable (PredicateHolds s t p) :=
  inferInstanceAs (Decidable (if p.kind = .timeRange then _ else _))

/-- The pairs of series and timestamp that a query without expression asks for. -/
structure Wanted (q : Query) (s : Series) (t : Int64) : Prop where
  measurement : s.measurement = q.measurement
  tags : ∀ key value, q.tags.find? key = some value → s.tags.find? key = some value
  window : InRange q.startTime q.endTime t
  predicates : ∀ p ∈ q.predicates, PredicateHolds s t p

def QueryPlan.Selects (plan : QueryPlan) (s : Series) (t : Int64) : Prop :=
  s.id ∈ plan.seriesIDs ∧ plan.query.startTime ≤ t ∧ t ≤ plan.query.endTime

instance (plan : QueryPlan) (s : Series) (t : Int64) : Decidable (plan.Selects s t) :=
  inferInstanceAs (Decidable (_ ∧ _))

def lastTimeRange (predicates : List QueryPredicate) : Option QueryPredicate :=
  (predicates.filter fun p => p.kind = .timeRange).getLast?

def planTags (q : Query) : TagMap := (q.predicates.foldl applyPredicate q).tags

/-- The window that the fold leaves: the last range as it stands, or else the query's own. -/
def InPlanWindow (q : Query) (t : Int64) : Prop :=
  match lastTimeRange q.predicates with
  | none => InRange q.startTime q.endTime t
  | some p => p.start ≤ t ∧ t ≤ p.stop

structure PlanSeries (q : Query) (s : Series) : Prop where
  measurement : s.measurement = q.measurement
  tags : ∀ key value, (planTags q).find? key = some value → s.tags.get key = value
  nonExact : hasNonExactTagPredicate q.predicates = true →
    ∀ p ∈ q.predicates, tagPredicateMatches s.tags p = true

/-- The tags of the query and of all its `TagEq` predicates, which all have a value. -/
def CarriesRequested (q : Query) (s : Series) : Prop :=
  (∀ key value, q.tags.find? key = some value → s.tags.find? key = some value) ∧
    ∀ p ∈ q.predicates, p.kind = .tagEq →
      ∃ value, p.stringValues.head? = some value ∧ s.tags.find? p.name = some value

def InAllRanges (q : Query) (t : Int64) : Prop :=
  InRange q.startTime q.endTime t ∧ ∀ p ∈ q.predicates, p.kind = .timeRange → InRange p.start p.stop t

theorem foldl_applyPredicate_other (predicates : List QueryPredicate) (q : Query) :
    (predicates.foldl applyPredicate q).measurement = q.measurement ∧
      (predicates.foldl applyPredicate q).expr = q.expr ∧
      (predicates.foldl applyPredicate q).predicates = q.predicates := by
  induction predicates generalizing q with
  | nil => exact ⟨rfl, rfl, rfl⟩
  | cons p predicates ih =>
    have hstep : (applyPredicate q p).measurement = q.measurement ∧ (applyPredicate q p).expr = q.expr ∧
        (applyPredicate q p).predicates = q.predicates := by
      unfold applyPredicate
      split
      · exact ⟨rfl, rfl, rfl⟩
      · split <;> exact ⟨rfl, rfl, rfl⟩
      · exact ⟨rfl, rfl, rfl⟩
    obtain ⟨hm, he, hp⟩ := ih (applyPredicate q p)
    exact ⟨hm.trans hstep.1, he.trans hstep.2.1, hp.trans hstep.2.2⟩

theorem foldl_applyPredicate_window (predicates : List QueryPredicate) (q : Query) :
    ((predicates.foldl applyPredicate q).startTime, (predicates.foldl applyPredicate q).endTime) =
      match lastTimeRange predicates with
      | none => (q.startTime, q.endTime)
      | some p => (p.start, p.stop) := by
  induction predicates using List.reverseRecOn with
  | nil => rfl
  | append_singleton predicates p ih =>
    rw [foldl_append, foldl_cons, foldl_nil]
    by_cases hkind : p.kind = .timeRange
    · have hlast : lastTimeRange (predicates ++ [p]) = some p := by
        simp [lastTimeRange, filter_append, hkind]
      rw [hlast]
      simp [applyPredicate, hkind]
    · have hlast : lastTimeRange (predicates ++ [p]) = lastTimeRange predicates := by
        simp [lastTimeRange, filter_append, hkind]
      rw [hlast, ← ih]
      unfold applyPredicate
      split
      · exact absurd ‹_› hkind
      · split <;> rfl
      · rfl

theorem planTags_requested (h : (planTags q).find? key = some value) :
    q.tags.find? key = some value ∨
      ∃ p ∈ q.predicates, p.kind = .tagEq ∧ p.name = key ∧ p.stringValues.head? = some value := by
  have hloop : ∀ predicates : List QueryPredicate,
      (predicates.foldl applyPredicate q).tags.find? key = some value → q.tags.find? key = some value ∨
        ∃ p ∈ predicates, p.kind = .tagEq ∧ p.name = key ∧ p.stringValues.head? = some value := by
    intro predicates
    induction predicates using List.reverseRecOn with
    | nil => exact Or.inl
    | append_singleton predicates p ih =>
      intro h
      rw [foldl_append, foldl_cons, foldl_nil] at h
      have hold : (predicates.foldl applyPredicate q).tags.find? key = some value →
          q.tags.find? key = some value ∨
            ∃ x ∈ predicates ++ [p], x.kind = .tagEq ∧ x.name = key ∧ x.stringValues.head? = some value := by
        intro h
        rcases ih h with h | ⟨x, hx, hrest⟩
        · exact .inl h
        · exact .inr ⟨x, mem_append_left _ hx, hrest⟩
      unfold applyPredicate at h
      split at h
      · exact hold h
      · next hkind =>
        split at h
        · exact hold h
        · next v vs hvalues =>
          rw [TagMap.find?_set] at h
          split at h
          · next hname =>
            refine .inr ⟨p, by simp, hkind, hname.symm, ?_⟩
            rw [hvalues]
            exact h
          · exact hold h
      · exact hold h
  exact hloop q.predicates h

theorem planTags_normalizeQuery (opts : Defaults) (q : Query) : planTags (normalizeQuery opts q) = planTags q := by
  have hloop : ∀ (predicates : List QueryPredicate) (a b : Query), a.tags = b.tags →
      (predicates.foldl applyPredicate a).tags = (predicates.foldl applyPredicate b).tags := by
    intro predicates
    induction predicates with
    | nil => exact fun a b h => h
    | cons p predicates ih =>
      intro a b h
      refine ih _ _ ?_
      unfold applyPredicate
      split
      · exact h
      · split
        · exact h
        · rw [h]
      · exact h
  exact hloop q.predicates _ _ rfl

theorem mem_filterSeriesIDs (h : s ∈ catalog.series) :
    s.id ∈ filterSeriesIDs ids catalog.series predicates ↔
      s.id ∈ ids ∧ ∀ p ∈ predicates, tagPredicateMatches s.tags p = true := by
  rw [filterSeriesIDs, mem_filter, catalog.seriesByID h]
  simp [seriesMatchesTagPredicates]

theorem selects_iff (hexpr : q.expr = .none) (hs : s ∈ catalog.series) (t : Int64) :
    (buildQueryPlan opts catalog q).Selects s t ↔ PlanSeries q s ∧ InPlanWindow q t := by
  let q' := normalizeQuery opts q
  have hflat : queryExprAllowsFlatPredicates q'.expr = true := by
    show queryExprAllowsFlatPredicates q.expr = true
    rw [hexpr]
    rfl
  have hstructured : normalizeStructuredQuery q' = q.predicates.foldl applyPredicate q' := by
    rw [normalizeStructuredQuery, hflat]
    rfl
  obtain ⟨hm, he, hp⟩ := foldl_applyPredicate_other q.predicates q'
  have hwindow := foldl_applyPredicate_window q.predicates q'
  have hids : s.id ∈ filterSeriesIDsByPredicates catalog
      (matchSeries catalog (q.predicates.foldl applyPredicate q').measurement
        (q.predicates.foldl applyPredicate q').tags)
      (q.predicates.foldl applyPredicate q').expr (q.predicates.foldl applyPredicate q').predicates ↔
      PlanSeries q s := by
    have htags : (q.predicates.foldl applyPredicate q').tags = planTags q := planTags_normalizeQuery opts q
    have hp' : (q.predicates.foldl applyPredicate q').predicates = q.predicates := hp
    rw [filterSeriesIDsByPredicates, he, hflat, hm, hp', htags]
    have hmatch : s.id ∈ matchSeries catalog q'.measurement (planTags q) ↔ s.measurement = q.measurement ∧
        ∀ key value, (planTags q).find? key = some value → s.tags.get key = value := by
      rw [mem_matchSeries hs, tagsMatch_iff]
      rfl
    cases hexact : hasNonExactTagPredicate q.predicates with
    | false =>
      simp only [Bool.not_true, Bool.false_eq_true, if_false, Bool.not_false, if_true]
      rw [hmatch]
      exact ⟨fun h => ⟨h.1, h.2, by simp [hexact]⟩, fun h => ⟨h.measurement, h.tags⟩⟩
    | true =>
      simp only [Bool.not_true, Bool.false_eq_true, if_false]
      rw [mem_filterSeriesIDs hs, hmatch]
      exact ⟨fun h => ⟨h.1.1, h.1.2, fun _ => h.2⟩, fun h => ⟨⟨h.measurement, h.tags⟩, h.nonExact hexact⟩⟩
  have htime : (q.predicates.foldl applyPredicate q').startTime ≤ t ∧
      t ≤ (q.predicates.foldl applyPredicate q').endTime ↔ InPlanWindow q t := by
    unfold InPlanWindow
    cases hlast : lastTimeRange q.predicates with
    | some p =>
      rw [hlast] at hwindow
      rw [(Prod.mk.inj hwindow).1, (Prod.mk.inj hwindow).2]
    | none =>
      rw [hlast] at hwindow
      rw [(Prod.mk.inj hwindow).1, (Prod.mk.inj hwindow).2]
      show q.startTime ≤ t ∧ t ≤ (if q.endTime = 0 then defaultQueryEndTime else q.endTime) ↔
        InRange q.startTime q.endTime t
      unfold InRange
      split
      · next h0 =>
        have hmax : t ≤ defaultQueryEndTime := Int64.le_maxValue t
        simp [h0, hmax]
      · next h0 => simp [h0]
  unfold QueryPlan.Selects buildQueryPlan
  dsimp only
  rw [show normalizeStructuredQuery (normalizeQuery opts q) = q.predicates.foldl applyPredicate q' from hstructured]
  split
  · next hempty =>
    rw [List.isEmpty_iff] at hempty
    simp only [not_mem_nil, false_and, false_iff]
    intro h
    have := hids.mpr h.1
    rw [hempty] at this
    exact not_mem_nil this
  · rw [← hids, ← htime]

theorem tagPredicateMatches_tagEq (h : p.kind = .tagEq) :
    tagPredicateMatches tags p = true ↔
      ∃ value, p.stringValues.head? = some value ∧ tags.find? p.name = some value := by
  unfold tagPredicateMatches
  rw [h]
  cases tags.find? p.name <;> simp

theorem wanted_iff (hkinds : ∀ p ∈ q.predicates, isTagOrTimePredicate p.kind = true) :
    Wanted q s t ↔ PlanSeries q s ∧ CarriesRequested q s ∧ InAllRanges q t := by
  constructor
  · intro h
    have hpredicate : ∀ p ∈ q.predicates, tagPredicateMatches s.tags p = true := by
      intro p hp
      have := h.predicates p hp
      unfold PredicateHolds at this
      split at this
      · next hkind => exact tagPredicateMatches_of_not_tag (by rw [hkind]; rfl)
      · exact this
    have hcarries : CarriesRequested q s :=
      ⟨h.tags, fun p hp hkind => (tagPredicateMatches_tagEq hkind).mp (hpredicate p hp)⟩
    refine ⟨⟨h.measurement, fun key value hfind => ?_, fun _ => hpredicate⟩, hcarries, h.window, fun p hp hkind => ?_⟩
    · rcases planTags_requested hfind with hown | ⟨p, hp, hkind, rfl, hvalue⟩
      · rw [TagMap.get, h.tags key value hown]
        rfl
      · obtain ⟨value', hvalue', htag⟩ := hcarries.2 p hp hkind
        rw [TagMap.get, htag, Option.some.inj (hvalue'.symm.trans hvalue)]
        rfl
    · have := h.predicates p hp
      rwa [PredicateHolds, if_pos hkind] at this
  · rintro ⟨hplan, hcarries, hwindow, hranges⟩
    refine ⟨hplan.measurement, hcarries.1, hwindow, fun p hp => ?_⟩
    unfold PredicateHolds
    split
    · next hkind => exact hranges p hp hkind
    · next hkind =>
      by_cases heq : p.kind = .tagEq
      · exact (tagPredicateMatches_tagEq heq).mpr (hcarries.2 p hp heq)
      · have hexact : hasNonExactTagPredicate q.predicates = true := by
          rw [hasNonExactTagPredicate, any_eq_true]
          refine ⟨p, hp, ?_⟩
          have := hkinds p hp
          cases hk : p.kind <;> simp_all [isTagOrTimePredicate]
        exact hplan.nonExact hexact p hp

/-- Where folding the list into one window and one tag map loses nothing. -/
structure PredicatesFold (catalog : Snapshot) (q : Query) : Prop where
  tags : ∀ s ∈ catalog.series, PlanSeries q s → (∃ t, InPlanWindow q t) → CarriesRequested q s
  window : ∀ t, InPlanWindow q t → (∃ s ∈ catalog.series, PlanSeries q s) → InAllRanges q t
  upper : ∀ p, lastTimeRange q.predicates = some p → p.stop = 0 → ∀ t, 0 < t → InAllRanges q t →
    ¬ ∃ s ∈ catalog.series, PlanSeries q s ∧ CarriesRequested q s

def timeRange (start stop : Int64) : QueryPredicate := { kind := .timeRange, start := start, stop := stop }

def tagEq (name value : GoString) : QueryPredicate := { kind := .tagEq, name := name, stringValues := [value] }

def predicateQuery (predicates : List QueryPredicate) : Query :=
  { database := [100], retentionPolicy := [114], measurement := [109], tags := TagMap.empty, fields := []
    startTime := 0, endTime := 0, predicates := predicates, expr := .none, aggregates := [], window := 0
    groupTags := [] }

def hostSeries : Series := ⟨1, [109], TagMap.empty.set [104] [98]⟩

def hostCatalog : Snapshot := ⟨[hostSeries], [], by decide, by decide, by decide⟩

def emptyDefaults : Defaults := ⟨[], []⟩

def nestedQuery : Query := predicateQuery [timeRange 0 20, tagEq [104] [98], timeRange 5 10]

theorem predicatesFold_nestedQuery : PredicatesFold hostCatalog nestedQuery := by
  refine ⟨?_, ?_, ?_⟩
  · intro s hs _ _
    obtain rfl := mem_singleton.mp hs
    refine ⟨fun key value hfind => ?_, fun p hp hkind => ?_⟩
    · cases hfind
    simp only [nestedQuery, predicateQuery, mem_cons, not_mem_nil, or_false] at hp
    rcases hp with rfl | rfl | rfl
    · cases hkind
    · exact ⟨[98], rfl, by decide⟩
    · cases hkind
  · intro t hwindow _
    have hlast : lastTimeRange nestedQuery.predicates = some (timeRange 5 10) := rfl
    obtain ⟨h5, h10⟩ := hwindow
    have h0 : (0 : Int64) ≤ t := Int64.le_trans (by decide) h5
    have h20 : t ≤ 20 := Int64.le_trans h10 (by decide)
    refine ⟨⟨h0, .inl rfl⟩, fun p hp hkind => ?_⟩
    simp only [nestedQuery, predicateQuery, mem_cons, not_mem_nil, or_false] at hp
    rcases hp with rfl | rfl | rfl
    · exact ⟨h0, .inr h20⟩
    · cases hkind
    · exact ⟨h5, .inr h10⟩
  · intro p hlast hstop
    have hlast' : lastTimeRange nestedQuery.predicates = some (timeRange 5 10) := rfl
    obtain rfl := Option.some.inj (hlast'.symm.trans hlast)
    exact absurd hstop (by decide)

end Conjunction

end Mts.Queryexec
