import Mts.Engine.Pushdown
import Mts.Queryexec.Plan

/-! What the planner selects: the query after the predicate list has been folded into it, its series, its
fields and the predicates that it pushes down. No series and no timestamp of a row that satisfies the
expression is planned away. -/

namespace Mts.Queryexec
open Lib Model List

variable {catalog : Snapshot} {q : Query} {opts : Defaults} {row : Row}

theorem foldl_applyPredicate_frame (predicates : List QueryPredicate) (q : Query) :
    ∃ tags start stop, predicates.foldl applyPredicate q =
      { q with tags := tags, startTime := start, endTime := stop } := by
  induction predicates generalizing q with
  | nil => exact ⟨q.tags, q.startTime, q.endTime, rfl⟩
  | cons p predicates ih =>
    have hstep : ∃ tags start stop, applyPredicate q p =
        { q with tags := tags, startTime := start, endTime := stop } := by
      unfold applyPredicate
      split
      · exact ⟨_, _, _, rfl⟩
      · split <;> exact ⟨_, _, _, rfl⟩
      · exact ⟨_, _, _, rfl⟩
    obtain ⟨tags, start, stop, hstep⟩ := hstep
    obtain ⟨tags', start', stop', hrest⟩ := ih (applyPredicate q p)
    refine ⟨tags', start', stop', ?_⟩
    rw [foldl_cons, hrest, hstep]

def plannedQuery (opts : Defaults) (q : Query) : Query := normalizeStructuredQuery (normalizeQuery opts q)

theorem plannedQuery_frame (opts : Defaults) (q : Query) :
    ∃ tags start stop, plannedQuery opts q =
      { normalizeQuery opts q with tags := tags, startTime := start, endTime := stop } := by
  unfold plannedQuery normalizeStructuredQuery
  split
  · exact ⟨_, _, _, rfl⟩
  · exact foldl_applyPredicate_frame _ _

def plannedSeries (opts : Defaults) (catalog : Snapshot) (q : Query) : List UInt64 :=
  filterSeriesIDsByPredicates catalog
    (matchSeries catalog (plannedQuery opts q).measurement (plannedQuery opts q).tags) q.expr q.predicates

/-- The names of the fields to scan; none stands for all. -/
def scanNames (q : Query) : List GoString := scanFields q.fields q.aggregates (fieldPredicates q.predicates)

def plannedFields (catalog : Snapshot) (q : Query) : List UInt32 := fieldIDs catalog q.measurement (scanNames q)

theorem buildQueryPlan_eq (opts : Defaults) (catalog : Snapshot) (q : Query) :
    buildQueryPlan opts catalog q =
      if (plannedSeries opts catalog q).isEmpty then
        ⟨{ plannedQuery opts q with fields := scanNames q }, [], [], fun _ => [], q.fields, [], true⟩
      else
        ⟨{ plannedQuery opts q with fields := scanNames q }, plannedSeries opts catalog q,
          plannedFields catalog q,
          fieldPredicatesByID catalog q.measurement (storageFieldPredicates q (fieldPredicates q.predicates)),
          q.fields, fieldPredicates q.predicates, !(scanNames q).isEmpty && (plannedFields catalog q).isEmpty⟩ := by
  obtain ⟨tags, start, stop, hplan⟩ := plannedQuery_frame opts q
  have hbuild : buildQueryPlan opts catalog q =
      (let query := plannedQuery opts q
       let postFilters := fieldPredicates query.predicates
       let storageFilters := storageFieldPredicates query postFilters
       let outputFields := query.fields
       let query := { query with fields := scanFields query.fields query.aggregates postFilters }
       let seriesIDs := filterSeriesIDsByPredicates catalog (matchSeries catalog query.measurement query.tags)
         query.expr query.predicates
       if seriesIDs.isEmpty then ⟨query, [], [], fun _ => [], outputFields, [], true⟩
       else
         let fieldIDs := fieldIDs catalog query.measurement query.fields
         ⟨query, seriesIDs, fieldIDs, fieldPredicatesByID catalog query.measurement storageFilters, outputFields,
           postFilters, !query.fields.isEmpty && fieldIDs.isEmpty⟩) := rfl
  rw [hbuild]
  unfold plannedSeries
  rw [hplan]
  rfl

def Scans (q : Query) (name : GoString) : Prop := scanNames q = [] ∨ name ∈ scanNames q

theorem mem_plannedFields (hf : f ∈ catalog.fields) :
    f.id ∈ plannedFields catalog q ↔ f.measurement = q.measurement ∧ Scans q f.name := by
  rw [plannedFields, fieldIDs, mem_map]
  constructor
  · rintro ⟨g, hg, hid⟩
    obtain ⟨hmem, hg⟩ := mem_filter.mp hg
    obtain rfl := inj_on_of_nodup_map catalog.fieldsNodup hmem hf hid
    simpa [Scans] using hg
  · intro h
    refine ⟨f, mem_filter.mpr ⟨hf, ?_⟩, rfl⟩
    simpa [Scans] using h

def PredicatesAreLeaves (q : Query) : Prop :=
  queryExprAllowsFlatPredicates q.expr = true → ∀ p ∈ q.predicates, p ∈ q.expr.leavesAt true

theorem PredicatesAreLeaves.holds (h : PredicatesAreLeaves q)
    (hflat : queryExprAllowsFlatPredicates q.expr = true) (hrow : rowMatchesExpr row q.expr = true) (hp : p ∈ q.predicates) : rowMatchesExprPredicate row p = true :=
  (BoolExpr.eval_iff_of_isConj hflat).mp hrow p (h hflat p hp)

theorem plannedQuery_of_flat (hflat : queryExprAllowsFlatPredicates q.expr = true) :
    plannedQuery opts q = q.predicates.foldl applyPredicate (normalizeQuery opts q) := by
  unfold plannedQuery normalizeStructuredQuery
  rw [show queryExprAllowsFlatPredicates (normalizeQuery opts q).expr = true from hflat]
  rfl

theorem plannedQuery_of_not_flat (hflat : queryExprAllowsFlatPredicates q.expr = false) :
    plannedQuery opts q = normalizeQuery opts q := by
  unfold plannedQuery normalizeStructuredQuery
  rw [show queryExprAllowsFlatPredicates (normalizeQuery opts q).expr = false from hflat]
  rfl

/-- No series with a row that satisfies the expression is planned away. -/
theorem mem_plannedSeries (htags : q.tags = TagMap.empty) (hpred : PredicatesAreLeaves q) (hodd : queryExprAllowsFlatPredicates q.expr = false → tagOnlyExpr q.expr = true →
      ∀ p ∈ q.expr.leavesAt false, p.kind ≠ .timeRange) (hs : s ∈ catalog.series)
    (hm : s.measurement = q.measurement) (hrow : row.tags = s.tags) (hexpr : rowMatchesExpr row q.expr = true) :
    s.id ∈ plannedSeries opts catalog q := by
  have hmeasurement : s.measurement = (plannedQuery opts q).measurement := by
    obtain ⟨tags, start, stop, hplan⟩ := plannedQuery_frame opts q
    rw [hplan]
    exact hm
  cases hflat : queryExprAllowsFlatPredicates q.expr with
  | false =>
    have hmatch : s.id ∈ matchSeries catalog (plannedQuery opts q).measurement (plannedQuery opts q).tags := by
      refine (mem_matchSeries hs).mpr ⟨hmeasurement, tagsMatch_iff.mpr fun key value hfind => ?_⟩
      rw [plannedQuery_of_not_flat hflat] at hfind
      have hnone : q.tags.find? key = some value := hfind
      rw [htags] at hnone
      cases hnone
    rw [plannedSeries, filterSeriesIDsByPredicates, hflat]
    cases htag : tagOnlyExpr q.expr with
    | false => simpa using hmatch
    | true =>
      have hleaves : ∀ p ∈ q.expr.leavesAt false, isTagPredicate p.kind = true := by
        intro p hp
        have hkind := BoolExpr.allLeaves_of_mem htag hp
        cases hk : p.kind <;> simp_all [isTagOrTimePredicate, isTagPredicate]
      have hseries := seriesMatchesTagExpr_of_row hleaves hexpr
      rw [hrow] at hseries
      simpa using (mem_filterSeriesIDsByTagExpr (catalog.seriesByID hs)).mpr ⟨hmatch, hseries⟩
  | true =>
    have hholds : ∀ p ∈ q.predicates, rowMatchesExprPredicate row p = true := fun p hp => hpred.holds hflat hexpr hp
    have htag : ∀ p ∈ q.predicates, tagPredicateMatches s.tags p = true := by
      intro p hp
      cases hk : isTagPredicate p.kind with
      | true =>
        rw [← hrow, ← rowMatchesExprPredicate_of_tag hk]
        exact hholds p hp
      | false => exact tagPredicateMatches_of_not_tag hk
    have hmatch : s.id ∈ matchSeries catalog (plannedQuery opts q).measurement (plannedQuery opts q).tags := by
      refine (mem_matchSeries hs).mpr ⟨hmeasurement, tagsMatch_iff.mpr fun key value hfind => ?_⟩
      rw [plannedQuery_of_flat hflat] at hfind
      have hplan : (planTags q).find? key = some value := planTags_normalizeQuery opts q ▸ hfind
      rcases planTags_requested hplan with hown | ⟨p, hp, hkind, rfl, hvalue⟩
      · rw [htags] at hown
        cases hown
      · obtain ⟨value', hvalue', hfound⟩ := (tagPredicateMatches_tagEq hkind).mp (htag p hp)
        rw [TagMap.get, hfound, Option.some.inj (hvalue'.symm.trans hvalue)]
        rfl
    rw [plannedSeries, filterSeriesIDsByPredicates, hflat]
    cases hexact : hasNonExactTagPredicate q.predicates with
    | false => simpa using hmatch
    | true => simpa using (mem_filterSeriesIDs hs).mpr ⟨hmatch, htag⟩

/-- No row of the query's own window that satisfies the expression is planned away. -/
theorem inWindow_plannedQuery (hpred : PredicatesAreLeaves q) (hexpr : rowMatchesExpr row q.expr = true)
    (hwindow : InRange q.startTime q.endTime row.timestamp) :
    (plannedQuery opts q).startTime ≤ row.timestamp ∧ row.timestamp ≤ (plannedQuery opts q).endTime := by
  have hown : (normalizeQuery opts q).startTime ≤ row.timestamp ∧
      row.timestamp ≤ (normalizeQuery opts q).endTime := by
    refine ⟨hwindow.1, ?_⟩
    show row.timestamp ≤ if q.endTime = 0 then defaultQueryEndTime else q.endTime
    split
    · exact Int64.le_maxValue _
    · next hne => exact hwindow.2.resolve_left hne
  cases hflat : queryExprAllowsFlatPredicates q.expr with
  | false =>
    rw [plannedQuery_of_not_flat hflat]
    exact hown
  | true =>
    rw [plannedQuery_of_flat hflat]
    have hfold := foldl_applyPredicate_window q.predicates (normalizeQuery opts q)
    cases hlast : lastTimeRange q.predicates with
    | none =>
      rw [hlast] at hfold
      rw [(Prod.mk.inj hfold).1, (Prod.mk.inj hfold).2]
      exact hown
    | some p =>
      rw [hlast] at hfold
      rw [(Prod.mk.inj hfold).1, (Prod.mk.inj hfold).2]
      obtain ⟨hp, hkind⟩ := mem_filter.mp (mem_of_getLast? hlast)
      have hholds := hpred.holds hflat hexpr hp
      rw [rowMatchesExprPredicate, of_decide_eq_true hkind] at hholds
      simpa using hholds

def pushedPredicates (catalog : Snapshot) (measurement : GoString) (predicates : List QueryPredicate) :
    List (UInt32 × FieldPredicate) :=
  predicates.flatMap fun p =>
    match p.kind with
    | .field comparison =>
      (catalog.fields.filter fun f => f.measurement = measurement && f.name = p.name).map fun f =>
        (f.id, ⟨comparison, p.value⟩)
    | _ => []

theorem mem_pushedPredicates :
    x ∈ pushedPredicates catalog measurement predicates ↔
      ∃ p ∈ predicates, p.kind = .field x.2.kind ∧ p.value = x.2.value ∧
        ∃ f ∈ catalog.fields, f.measurement = measurement ∧ f.name = p.name ∧ f.id = x.1 := by
  rw [pushedPredicates, mem_flatMap]
  refine exists_congr fun p => and_congr_right fun _ => ?_
  cases hk : p.kind with
  | field comparison =>
    simp only [mem_map, mem_filter, Bool.and_eq_true, decide_eq_true_eq]
    constructor
    · rintro ⟨f, ⟨hf, hm, hn⟩, rfl⟩
      exact ⟨rfl, rfl, f, hf, hm, hn, rfl⟩
    · rintro ⟨hc, hv, f, hf, hm, hn, hid⟩
      obtain ⟨id, kind, value⟩ := x
      obtain rfl : comparison = kind := by simpa using hc
      obtain rfl := hv
      obtain rfl := hid
      exact ⟨f, ⟨hf, hm, hn⟩, rfl⟩
  | _ => simp

theorem fieldPredicatesByID_eq (catalog : Snapshot) (measurement : GoString) (predicates : List QueryPredicate) :
    fieldPredicatesByID catalog measurement predicates =
      Engine.fieldPredicatesByID (pushedPredicates catalog measurement predicates) := by
  funext id
  unfold fieldPredicatesByID Engine.fieldPredicatesByID pushedPredicates
  rw [filter_flatMap, map_flatMap, filterMap_eq_flatMap_toList]
  refine congrArg (fun g => predicates.flatMap g) (funext fun p => ?_)
  cases p.kind with
  | field comparison =>
    simp only [filter_map, map_map]
    split
    · next hany =>
      obtain ⟨f, hf, hmatch⟩ := any_eq_true.mp hany
      have hone : (catalog.fields.filter fun f => f.measurement = measurement && f.name = p.name).filter
          ((fun x : UInt32 × FieldPredicate => decide (x.1 = id)) ∘ fun f =>
            (f.id, ⟨comparison, p.value⟩)) = [f] := by
        rw [filter_filter]
        refine filter_eq_singleton catalog.fieldsNodup.of_map hf ?_ fun g hg hgm => ?_
        · simpa [and_comm] using hmatch
        · refine inj_on_of_nodup_map catalog.fieldsNodup hg hf ?_
          simp at hgm hmatch
          rw [hgm.1, hmatch.2]
      rw [hone]
      rfl
    · next hany =>
      have hnone : (catalog.fields.filter fun f => f.measurement = measurement && f.name = p.name).filter
          ((fun x : UInt32 × FieldPredicate => decide (x.1 = id)) ∘ fun f =>
            (f.id, ⟨comparison, p.value⟩)) = [] := by
        rw [filter_filter, filter_eq_nil_iff]
        intro f hf hmatch
        refine hany (any_eq_true.mpr ⟨f, hf, ?_⟩)
        simpa [and_comm] using hmatch
      rw [hnone]
      rfl
  | _ => rfl

end Mts.Queryexec
