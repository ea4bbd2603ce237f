import Mts.Catalog.Resolved

/-! Over any sequence of calls two points have one series ID exactly if they are of one series, and two fields
one field ID exactly if they have measurement and name in common, as long as the joined keys tell the requests
apart. -/

set_option linter.dupNamespace false

namespace Mts.Catalog
open Lib Model List

variable {c : Catalog} {p : Point} {e : GoString × GoString} {tags : List TagColumn} {row : Nat}
  {rp : ResolvedPoint} {c' : Catalog} {r : Requests}

variable {r : Requests} {s : Store}

section Points

/-- The IDs of a resolved point are those of its series and of its fields. -/
structure Catalog.Resolved (c : Catalog) (r : Requests) (p : Point) (rp : ResolvedPoint) : Prop where
  series : c.Gives r (p.measurement, p.tags) rp.seriesID
  fields : c.ResolvedFields r p.measurement (p.fields.entries.map Prod.fst) rp.fields

theorem Extends.resolved (h : Extends c c') (hp : c.Resolved r p rp) :
    c'.Resolved r p rp := ⟨h.gives hp.series, h.resolvedFields hp.fields⟩

structure Requests.Covers (r : Requests) (p : Point) : Prop where
  series : (p.measurement, p.tags) ∈ r.series
  fields : ∀ e ∈ p.fields.entries, (p.measurement, e.1) ∈ r.fields ∧ e.2.type ∈ r.types

variable (hr : r.Roomy) (hvalid : Valid r s.catalog)
include hr hvalid

theorem resolves_point (hp : r.Covers p) : Resolves r (resolvePoint p) s fun rp c => c.Resolved r p rp := by
  unfold resolvePoint
  split
  · exact resolves_throw
  · refine hvalid.bind hr (resolves_ensureMetadata _ _) fun _ t₁ hvalid₁ _ _ => ?_
    refine hvalid₁.bind hr (resolves_series hr hvalid₁ hp.series) fun x t₂ hvalid₂ _ hx => ?_
    refine hvalid₂.bind hr (resolves_fields hr hvalid₂ hp.fields) fun fields t₃ hvalid₃ hext₃ hfields => ?_
    refine hvalid₃.bind hr (resolves_saveMetadataIf _) fun _ t₄ _ hext₄ _ => ?_
    exact resolves_pure ⟨hext₄.gives (hext₃.gives hx.gives), hext₄.resolvedFields hfields⟩

theorem resolves_template (hp : r.Covers p) :
    Resolves r (resolveTemplateLocked p) s fun x c =>
      c.ResolvedFields r p.measurement (p.fields.entries.map Prod.fst) x.1.1 ∧ TemplateSound r c x.2 := by
  refine (resolves_fieldsNoSnapshot hr hvalid hp.fields).bind fun x t _ hx => ?_
  refine resolves_pure ⟨hx, fun template htemplate => ?_⟩
  split at htemplate
  · cases htemplate
  · cases htemplate
    exact ⟨_, p.fields.names_sorted, hx⟩

theorem resolves_batchFields (hp : r.Covers p) (htemplate : TemplateSound r s.catalog template) :
    Resolves r (resolveBatchFields p template) s fun x c =>
      c.ResolvedFields r p.measurement (p.fields.entries.map Prod.fst) x.1.1 ∧ TemplateSound r c x.2 := by
  unfold resolveBatchFields
  split
  · next t =>
    split
    · next hsame =>
      split
      · exact resolves_throw
      · next fields hfields =>
        have hm : p.measurement = t.measurement := by
          simp only [Bool.and_eq_true, decide_eq_true_eq] at hsame
          exact hsame.1
        exact resolves_pure ⟨hm ▸ htemplate.resolvedFields hfields, htemplate⟩
      · exact resolves_template hr hvalid hp
    · exact resolves_template hr hvalid hp
  · exact resolves_template hr hvalid hp

/-- The state of the loop over a batch, when a part of the points is resolved. -/
structure BatchSound (r : Requests) (c : Catalog) (done : List Point) (b : BatchState) : Prop where
  cache : CacheSound c b.cache
  template : TemplateSound r c b.template
  resolved : List.Forall₂ (c.Resolved r) done b.resolved

theorem resolves_batchPoint (hp : r.Covers p) (hb : BatchSound r s.catalog done b) :
    Resolves r (resolveBatchPoint b p) s fun b' c => BatchSound r c (done ++ [p]) b' := by
  have hmetadata : Resolves r (ensureBatchMetadata p b.lastMetadata) s fun _ _ => True := by
    unfold ensureBatchMetadata
    split
    · exact resolves_pure trivial
    · exact resolves_ensureMetadata _ _
  refine hvalid.bind hr hmetadata fun _ t₁ hvalid₁ hext₁ _ => ?_
  refine hvalid₁.bind hr (resolves_seriesCached hr hvalid₁ (hb.cache.mono hext₁) hp.series)
    fun x t₂ hvalid₂ hext₂ hx => ?_
  refine hvalid₂.bind hr (resolves_batchFields hr hvalid₂ hp ((hb.template.mono hext₁).mono hext₂))
    fun y t₃ _ hext₃ hy => ?_
  refine resolves_pure ⟨hx.2.mono hext₃, hy.2, rel_append ?_ (.cons ⟨hext₃.gives hx.1.gives, hy.1⟩ .nil)⟩
  exact hb.resolved.imp fun q rq hq => hext₃.resolved (hext₂.resolved (hext₁.resolved hq))

theorem resolves_points (hpoints : ∀ p ∈ points, r.Covers p) :
    Resolves r (resolvePoints points) s fun out c => List.Forall₂ (c.Resolved r) points out := by
  unfold resolvePoints
  split
  · exact resolves_throw
  · refine hvalid.bind hr (hvalid.foldlM hr (fun done b c => BatchSound r c done b) ?_ ?_) fun b t hvalid₁ _ hb => ?_
    · exact ⟨fun k x hx => (by simp [emptyBatch] at hx), nofun, List.Forall₂.nil⟩
    · exact fun done p b t hp hvalid => resolves_batchPoint hr hvalid (hpoints p hp)
    · refine hvalid₁.bind hr (resolves_checkpointIf _) fun _ t₂ hvalid₂ hext₂ _ => ?_
      refine hvalid₂.bind hr (resolves_saveMetadataIf _) fun _ t₃ _ hext₃ _ => ?_
      exact resolves_pure (hb.resolved.imp fun p rp hp => hext₃.resolved (hext₂.resolved hp))

end Points

section Typed

variable {m : GoString}

theorem TagMap.mem_set {tags : TagMap} (hnew : tags.find? key = none) :
    e ∈ (tags.set key value).entries ↔ e = (key, value) ∨ e ∈ tags.entries := by
  obtain ⟨k, v⟩ := e
  rw [TagMap.mem_entries_iff, TagMap.mem_entries_iff, TagMap.find?_set]
  split
  · next heq =>
    subst heq
    rw [hnew]
    simp [eq_comm]
  · next hne => simp [hne]

section
variable (hnodup : (tags.map TagColumn.name).Nodup)
include hnodup

theorem mem_foldl_set {acc : TagMap} (hacc : ∀ tag ∈ tags, acc.find? tag.name = none) :
    e ∈ (tags.foldl (fun out tag => out.set tag.name (tag.at row)) acc).entries ↔
      e ∈ acc.entries ∨ ∃ tag ∈ tags, e = (tag.name, tag.at row) := by
  induction tags generalizing acc with
  | nil => simp
  | cons tag tags ih =>
    obtain ⟨hhead, htail⟩ := nodup_cons.mp hnodup
    rw [foldl_cons, ih htail, TagMap.mem_set (hacc tag mem_cons_self)]
    · simp only [mem_cons, exists_eq_or_imp]
      rw [or_comm (a := e = _), or_assoc]
    · intro tag' htag'
      rw [TagMap.find?_set, if_neg, hacc tag' (mem_cons_of_mem _ htag')]
      intro heq
      exact hhead (heq ▸ mem_map_of_mem htag')

theorem mem_tagMapFromColumns :
    e ∈ (tagMapFromColumns tags row).entries ↔ ∃ tag ∈ tags, e = (tag.name, tag.at row) := by
  rw [tagMapFromColumns, mem_foldl_set hnodup fun _ _ => rfl]
  simp [TagMap.empty]

theorem entries_tagMapFromColumns :
    (tagMapFromColumns tags row).entries =
      (tags.insertionSort (·.name ≤ ·.name)).map fun tag => (tag.name, tag.at row) := by
  have hsorted : (tags.insertionSort (·.name ≤ ·.name)).Pairwise (·.name < ·.name) := by
    have hle := pairwise_insertionSort (fun a b => a.name ≤ b.name) tags
    have hperm := (perm_insertionSort (fun a b => a.name ≤ b.name) tags).map TagColumn.name
    have hne := pairwise_map.mp (hperm.nodup_iff.mpr hnodup)
    refine (hle.and hne).imp fun {a b} hab => ?_
    by_contra hnot
    exact hab.2 (List.le_antisymm hab.1 (List.not_lt.mp hnot))
  refine List.Pairwise.eq_of_mem_iff (r := (·.1 < ·.1)) (tagMapFromColumns tags row).sorted ?_ fun e => ?_
  · exact pairwise_map.mpr hsorted
  · rw [mem_tagMapFromColumns hnodup]
    simp [eq_comm]

theorem seriesKeyFromTagColumns_eq :
    seriesKeyFromTagColumns m tags row = Catalog.key (m, tagMapFromColumns tags row) := by
  rw [seriesKeyFromTagColumns, Catalog.key, seriesKey, entries_tagMapFromColumns hnodup, flatMap_map]

end

theorem nodup_of_validateTypedTags (h : validateTypedTags rows seen tags = .ok ⟨⟩) :
    (tags.map TagColumn.name).Nodup ∧ ∀ tag ∈ tags, tag.name ∉ seen := by
  induction tags generalizing seen with
  | nil => simp
  | cons tag tags ih =>
    rw [validateTypedTags] at h
    split_ifs at h with hblank hseen hlen
    obtain ⟨hnodup, hnew⟩ := ih h
    refine ⟨nodup_cons.mpr ⟨fun hmem => ?_, hnodup⟩, fun t ht => ?_⟩
    · obtain ⟨t, ht, heq⟩ := mem_map.mp hmem
      exact hnew t ht (heq ▸ mem_cons_self)
    · rcases mem_cons.mp ht with rfl | ht
      · simpa using hseen
      · exact fun hmem => hnew t ht (mem_cons_of_mem _ hmem)

variable (hr : r.Roomy) (hvalid : Valid r s.catalog)
include hvalid

theorem resolves_typedSeries (hnodup : (tags.map TagColumn.name).Nodup)
    (hreq : (m, tagMapFromColumns tags row) ∈ r.series) :
    Resolves r (resolveSeriesFromTypedTagsLocked m tags row) s
      fun x c => c.Found r (m, tagMapFromColumns tags row) x.1 := by
  unfold resolveSeriesFromTypedTagsLocked
  split
  · exact resolves_seriesNoSnapshot hvalid hreq
  · next tag =>
    refine resolves_getCatalog_bind ?_
    split
    · next id hid => exact resolves_pure (hvalid.found_of_tag hreq hid)
    · next hnone => exact resolves_createSeries hreq (hvalid.new_of_tag hnone)
  · refine resolves_getCatalog_bind ?_
    rw [seriesKeyFromTagColumns_eq hnodup]
    split
    · next id hid => exact resolves_pure (hvalid.found_of_key hreq hid)
    · next hnone => exact resolves_createSeries hreq (hvalid.new_of_key hnone)

def TypedBatch.identity (b : TypedBatch) (row : Nat) : Identity := (b.measurement, tagMapFromColumns b.tags row)

include hr

theorem resolves_typedSeriesIDs (hnodup : (b.tags.map TagColumn.name).Nodup)
    (hreq : ∀ row < rows, b.identity row ∈ r.series) :
    Resolves r (resolveTypedSeriesIDsLocked b rows) s
      fun x c => List.Forall₂ (fun row id => c.Gives r (b.identity row) id) (List.range rows) x.1 := by
  refine hvalid.foldlM hr (fun done (out : _ × Bool) c =>
    List.Forall₂ (fun row id => c.Gives r (b.identity row) id) done out.1) .nil fun done row out t hrow hvalid' hout => ?_
  refine hvalid'.bind hr (resolves_typedSeries hvalid' hnodup (hreq row (mem_range.mp hrow))) fun x u _ hext hx => ?_
  exact resolves_pure (rel_append (hout.imp fun _ _ h => hext.gives h) (.cons hx.gives .nil))

theorem resolves_typedFields
    (hreq : ∀ column ∈ columns, (m, column.name) ∈ r.fields ∧ ∀ type ∈ column.type, fieldTypeByte type ∈ r.types) :
    Resolves r (resolveTypedFieldDefinitionsLocked m columns) s fun x c =>
      List.Forall₂ (fun column out => c.GivesField r (m, column.name) out.fieldID) columns x.1 := by
  refine hvalid.foldlM hr (fun done (out : _ × Bool) c =>
    List.Forall₂ (fun (f : TypedFieldColumn) (out : ResolvedTypedFieldColumn) => c.GivesField r (m, f.name) out.fieldID)
      done out.1) .nil
    fun done column out t hcolumn hvalid' hout => ?_
  split
  · exact resolves_throw
  · next type htype =>
    refine hvalid'.bind hr (resolves_field hvalid' (hreq column hcolumn).1 ((hreq column hcolumn).2 type htype))
      fun x u _ hext hx => ?_
    exact resolves_pure (rel_append (hout.imp fun _ _ h => hext.givesField h) (.cons ⟨x.1, hx.1, hx.2⟩ .nil))

end Typed

section Run

inductive Call
  | points (points : List Point)
  | point (point : Point)
  | typed (batch : TypedBatch)

structure Resolution where
  series : List (Identity × UInt64)
  fields : List (FieldName × UInt32)

variable {out : Resolution}

def Point.identity (p : Point) : Identity := (p.measurement, p.tags)

def Point.fieldNames (p : Point) : List FieldName := p.fields.entries.map fun e => (p.measurement, e.1)

def TypedBatch.identities (b : TypedBatch) : List Identity := (List.range b.timestamps.length).map b.identity

def TypedBatch.fieldNames (b : TypedBatch) : List FieldName := b.fields.map fun f => (b.measurement, f.name)

def Point.fieldTypes (p : Point) : List UInt8 := p.fields.entries.map fun e => e.2.type

def TypedBatch.fieldTypes (b : TypedBatch) : List UInt8 := b.fields.filterMap fun f => f.type.map fieldTypeByte

def pointResolution (p : Point) (rp : ResolvedPoint) : Resolution :=
  ⟨[(p.identity, rp.seriesID)], p.fieldNames.zip (rp.fields.map ResolvedField.fieldID)⟩

def Resolution.concat (rs : List Resolution) : Resolution :=
  ⟨rs.flatMap Resolution.series, rs.flatMap Resolution.fields⟩

def Call.resolve : Call → CatalogM Resolution
  | .points ps => do
    let out ← resolvePoints ps
    return Resolution.concat (List.zipWith pointResolution ps out)
  | .point p => do
    let out ← resolvePoint p
    return pointResolution p out
  | .typed b => do
    let out ← resolveTypedBatchColumns b
    return ⟨b.identities.zip out.seriesIDs, b.fieldNames.zip (out.fields.map ResolvedTypedFieldColumn.fieldID)⟩

def Call.requests : Call → Requests
  | .points ps => ⟨ps.map Point.identity, ps.flatMap Point.fieldNames, ps.flatMap Point.fieldTypes⟩
  | .point p => ⟨[p.identity], p.fieldNames, p.fieldTypes⟩
  | .typed b => ⟨b.identities, b.fieldNames, b.fieldTypes⟩

def Requests.concat (rs : List Requests) : Requests :=
  ⟨rs.flatMap Requests.series, rs.flatMap Requests.fields, rs.flatMap Requests.types⟩

def requests (calls : List Call) : Requests := Requests.concat (calls.map Call.requests)

structure Requests.Within (r' r : Requests) : Prop where
  series : ∀ i ∈ r'.series, i ∈ r.series
  fields : ∀ n ∈ r'.fields, n ∈ r.fields
  types : ∀ t ∈ r'.types, t ∈ r.types

theorem Requests.within_refl (r : Requests) : r.Within r := ⟨fun _ => id, fun _ => id, fun _ => id⟩

theorem Requests.Within.of_concat_cons
    (h : (Requests.concat (r₁ :: rs)).Within r) : r₁.Within r ∧ (Requests.concat rs).Within r :=
  ⟨⟨fun i hi => h.series i (mem_append_left _ hi), fun n hn => h.fields n (mem_append_left _ hn),
    fun t ht => h.types t (mem_append_left _ ht)⟩,
    ⟨fun i hi => h.series i (mem_append_right _ hi), fun n hn => h.fields n (mem_append_right _ hn),
    fun t ht => h.types t (mem_append_right _ ht)⟩⟩

/-- The results of the calls that succeed. A call that fails may have changed the catalog as well. -/
def run : List Call → Store → List Resolution × Store
  | [], s => ([], s)
  | call :: calls, s =>
    match call.resolve s with
    | .ok out t => (out :: (run calls t).1, (run calls t).2)
    | .error _ t => run calls t

structure Catalog.Denotes (c : Catalog) (out : Resolution) : Prop where
  series : ∀ x ∈ out.series, c.Names x.1 x.2
  fields : ∀ x ∈ out.fields, c.NamesField x.1 x.2

/-- All IDs of a result are in the catalog, and stand there for what was asked for if the keys tell the requests
apart. -/
structure Catalog.Answers (c : Catalog) (r : Requests) (out : Resolution) : Prop where
  series : ∀ x ∈ out.series, c.Gives r x.1 x.2
  fields : ∀ x ∈ out.fields, c.GivesField r x.1 x.2

theorem Catalog.Answers.denotes (h : c.Answers r out) (hd : r.Distinct) : c.Denotes out := by
  refine ⟨fun x hx => ?_, fun x hx => ?_⟩
  · obtain ⟨s, hs, hident⟩ := h.series x hx
    exact ⟨s, hs, hident hd⟩
  · obtain ⟨f, hf, hname⟩ := h.fields x hx
    exact ⟨f, hf, hname hd⟩

theorem Extends.answers (h : Extends c c') (hout : c.Answers r out) :
    c'.Answers r out := ⟨fun x hx => h.gives (hout.series x hx), fun x hx => h.givesField (hout.fields x hx)⟩

theorem Catalog.Resolved.answers (h : c.Resolved r p rp) : c.Answers r (pointResolution p rp) := by
  refine ⟨fun x hx => ?_, fun x hx => ?_⟩
  · rw [mem_singleton.mp hx]
    exact h.series
  · change x ∈ p.fieldNames.zip _ at hx
    by_cases hd : r.Distinct
    · have heq : p.fieldNames = rp.fields.map fun f => (p.measurement, f.fieldName) := by
        have hnames := congrArg (List.map fun name => (p.measurement, name)) (h.fields.names hd)
        rw [map_map, map_map] at hnames
        exact hnames.symm
      rw [heq, zip_map', mem_map] at hx
      obtain ⟨f, hf, rfl⟩ := hx
      exact h.fields.ids f hf
    · obtain ⟨f, hf, hid⟩ := mem_map.mp (of_mem_zip hx).2
      obtain ⟨field, hfield, -⟩ := h.fields.ids f hf
      exact ⟨field, hid ▸ hfield, fun hd' => absurd hd' hd⟩

theorem Catalog.answers_concat (h : ∀ out ∈ rs, c.Answers r out) : c.Answers r (Resolution.concat rs) := by
  refine ⟨fun x hx => ?_, fun x hx => ?_⟩
  · obtain ⟨out, hout, hx⟩ := mem_flatMap.mp hx
    exact (h out hout).series x hx
  · obtain ⟨out, hout, hx⟩ := mem_flatMap.mp hx
    exact (h out hout).fields x hx

theorem forall_mem_zipWith {α β γ : Type} {R : α → β → Prop} {f : α → β → γ} {P : γ → Prop} {l : List α}
    {l' : List β} (h : List.Forall₂ R l l') (hf : ∀ a b, R a b → P (f a b)) :
    ∀ x ∈ List.zipWith f l l', P x := by
  induction h with
  | nil => simp
  | cons hab _ ih =>
    intro x hx
    rcases mem_cons.mp hx with rfl | hx
    · exact hf _ _ hab
    · exact ih x hx

variable (hr : r.Roomy) (hvalid : Valid r s.catalog)
include hr hvalid

theorem resolves_typed {b : TypedBatch} (hreq : (Call.requests (.typed b)).Within r) :
    Resolves r (Call.resolve (.typed b)) s fun out c => c.Answers r out := by
  refine Resolves.bind (Q := fun (rb : ResolvedTypedBatch) c => c.Answers r
    ⟨b.identities.zip rb.seriesIDs, b.fieldNames.zip (rb.fields.map ResolvedTypedFieldColumn.fieldID)⟩) ?_
    fun rb t _ h => resolves_pure h
  unfold resolveTypedBatchColumns
  split
  · exact resolves_pure ⟨by simp, by simp⟩
  · split
    · exact resolves_throw
    · next hcheck =>
      have hnodup : (b.tags.map TagColumn.name).Nodup := by
        unfold validateTypedBatch at hcheck
        split_ifs at hcheck
        cases htags : validateTypedTags b.timestamps.length [] b.tags with
        | error e =>
          rw [htags] at hcheck
          cases hcheck
        | ok u => exact (nodup_of_validateTypedTags htags).1
      refine hvalid.bind hr (resolves_ensureMetadata _ _) fun _ t₁ hvalid₁ _ _ => ?_
      have hcolumns : ∀ f ∈ b.fields, (b.measurement, f.name) ∈ r.fields ∧
          ∀ type ∈ f.type, fieldTypeByte type ∈ r.types := by
        intro f hf
        refine ⟨hreq.fields _ (mem_map_of_mem hf), fun type htype => hreq.types _ ?_⟩
        exact mem_filterMap.mpr ⟨f, hf, congrArg (Option.map fieldTypeByte) htype⟩
      refine hvalid₁.bind hr (resolves_typedFields hr hvalid₁ hcolumns) fun x t₂ hvalid₂ _ hx => ?_
      refine hvalid₂.bind hr (resolves_typedSeriesIDs hr hvalid₂ hnodup fun row hrow =>
        hreq.series _ (mem_map_of_mem (mem_range.mpr hrow))) fun y t₃ hvalid₃ hext₃ hy => ?_
      have hanswers : t₃.catalog.Answers r
          ⟨b.identities.zip y.1, b.fieldNames.zip (x.1.map ResolvedTypedFieldColumn.fieldID)⟩ := by
        constructor
        · rw [TypedBatch.identities, zip_map_left]
          refine forall_mem_map.mpr (forall_mem_zipWith hy fun row id h => h)
        · rw [TypedBatch.fieldNames, zip_map]
          refine forall_mem_map.mpr (forall_mem_zipWith hx fun column out h => hext₃.givesField h)
      refine hvalid₃.bind hr (resolves_checkpointIf _) fun _ t₄ hvalid₄ hext₄ _ => ?_
      refine hvalid₄.bind hr (resolves_saveMetadataIf _) fun _ t₅ _ hext₅ _ => ?_
      exact resolves_pure (hext₅.answers (hext₄.answers hanswers))

theorem resolves_call (call : Call) (hreq : call.requests.Within r) :
    Resolves r call.resolve s fun out c => c.Answers r out := by
  have hcovers : ∀ p, p.identity ∈ call.requests.series → (∀ n ∈ p.fieldNames, n ∈ call.requests.fields) →
      (∀ t ∈ p.fieldTypes, t ∈ call.requests.types) → r.Covers p := fun p hp hn ht =>
    ⟨hreq.series _ hp, fun e he => ⟨hreq.fields _ (hn _ (mem_map_of_mem he)),
      hreq.types _ (ht _ (mem_map_of_mem he))⟩⟩
  cases call with
  | points points =>
    refine (resolves_points hr hvalid fun p hp => hcovers p (mem_map_of_mem hp)
      (fun n hn => mem_flatMap.mpr ⟨p, hp, hn⟩) fun t ht => mem_flatMap.mpr ⟨p, hp, ht⟩).bind
      fun out t _ hout => ?_
    exact resolves_pure (Catalog.answers_concat (forall_mem_zipWith hout fun p rp h => h.answers))
  | point p =>
    refine (resolves_point hr hvalid (hcovers p mem_cons_self (fun n hn => hn) fun t ht => ht)).bind
      fun out t _ hout => ?_
    exact resolves_pure hout.answers
  | typed b => exact resolves_typed hr hvalid hreq

theorem run_answers (hreq : (requests calls).Within r) :
    Steps r s (run calls s).2 ∧ ∀ out ∈ (run calls s).1, (run calls s).2.catalog.Answers r out := by
  induction calls generalizing s with
  | nil => exact ⟨.refl, by simp [run]⟩
  | cons call calls ih =>
    obtain ⟨hfirst, hlater⟩ := hreq.of_concat_cons
    have hcall := resolves_call hr hvalid call hfirst
    have hrest : ∀ {t : Store}, Steps r s t →
        Steps r t (run calls t).2 ∧ ∀ out ∈ (run calls t).1, (run calls t).2.catalog.Answers r out := fun ht =>
      ih (ht.keeps hr hvalid).1 hlater
    rw [run]
    unfold Resolves Ends at hcall
    split
    · next out t heq =>
      rw [heq] at hcall
      obtain ⟨hsteps, hout⟩ := hcall
      obtain ⟨hsteps', houts⟩ := hrest hsteps
      refine ⟨hsteps.trans hsteps', forall_mem_cons.mpr ⟨?_, houts⟩⟩
      exact (hsteps'.keeps hr (hsteps.keeps hr hvalid).1).2.answers hout
    · next e t heq =>
      rw [heq] at hcall
      obtain ⟨hsteps', houts⟩ := hrest hcall
      exact ⟨Relation.ReflTransGen.trans hcall hsteps', houts⟩

end Run

def newStore (limits : Limits) (appends : List AppendResult) (saves : List Bool)
    (checkpoints : List CheckpointResult) : Store := ⟨newCatalog limits, ⟨none, [], none⟩, appends, saves, checkpoints⟩

/-- One ID for one request, and different ones for different requests. -/
structure Identifies (outs : List Resolution) : Prop where
  series : ∀ x ∈ outs.flatMap Resolution.series, ∀ y ∈ outs.flatMap Resolution.series, x.2 = y.2 ↔ x.1 = y.1
  fields : ∀ x ∈ outs.flatMap Resolution.fields, ∀ y ∈ outs.flatMap Resolution.fields, x.2 = y.2 ↔ x.1 = y.1

theorem identifies_of_denotes (hsound : c.Sound) (h : ∀ out ∈ outs, c.Denotes out) : Identifies outs := by
  refine ⟨fun x hx y hy => ?_, fun x hx y hy => ?_⟩
  · obtain ⟨out, hout, hx⟩ := mem_flatMap.mp hx
    obtain ⟨out', hout', hy⟩ := mem_flatMap.mp hy
    exact hsound.names_iff ((h out hout).series x hx) ((h out' hout').series y hy)
  · obtain ⟨out, hout, hx⟩ := mem_flatMap.mp hx
    obtain ⟨out', hout', hy⟩ := mem_flatMap.mp hy
    exact hsound.namesField_iff ((h out hout).fields x hx) ((h out' hout').fields y hy)

theorem identifies_run (limits : Limits) (appends : List AppendResult) (saves : List Bool)
    (checkpoints : List CheckpointResult) (calls : List Call) (h : (requests calls).Separate) :
    Identifies (run calls (newStore limits appends saves checkpoints)).1 := by
  have hvalid := valid_newCatalog (requests calls) limits
  obtain ⟨hsteps, hanswers⟩ := run_answers (s := newStore limits appends saves checkpoints) h.toRoomy hvalid
    (Requests.within_refl _)
  exact identifies_of_denotes (hsteps.keeps h.toRoomy hvalid).1.toSound fun out hout =>
    (hanswers out hout).denotes h.toDistinct

def samplePoint (measurement : GoString) (tags : TagMap) (field : GoString) : Point :=
  ⟨[100], [112], measurement, tags, 0, ⟨[(field, ⟨1, 0, 0, [], false⟩)], pairwise_singleton _ _⟩⟩

/-- The second point has the tag `a` with the value `1\xffb=2`, the first has `a=1` and `b=2`. The fields are
`x\xffy` of `m` and `y` of `m\xffx`. -/
def sharedKeyCalls : List Call :=
  [.point (samplePoint [109] ((singleTag [97] [49]).set [98] [50]) [120, 0xff, 121]),
   .point (samplePoint [109] (singleTag [97] [49, 0xff, 98, 61, 50]) [120, 0xff, 121]),
   .point (samplePoint [109, 0xff, 120] TagMap.empty [121])]

def unlimited : Limits := ⟨0, 0, 0⟩

theorem shared_keys_share_ids :
    let outs := (run sharedKeyCalls (newStore unlimited [] [] [])).1
    outs.length = 3 ∧
      (∃ x ∈ outs.flatMap Resolution.series, ∃ y ∈ outs.flatMap Resolution.series, x.2 = y.2 ∧ x.1 ≠ y.1) ∧
      ∃ x ∈ outs.flatMap Resolution.fields, ∃ y ∈ outs.flatMap Resolution.fields, x.2 = y.2 ∧ x.1 ≠ y.1 := by
  decide +kernel

def twoHostCalls : List Call :=
  [.point (samplePoint [109] (singleTag [97] [49]) [120]), .points [samplePoint [109] (singleTag [97] [50]) [120]]]

theorem identifies_twoHostCalls : (requests twoHostCalls).Separate ∧
    Identifies (run twoHostCalls (newStore unlimited [] [] [])).1 := by
  have hseparate : (requests twoHostCalls).Separate :=
    ⟨⟨by decide +kernel, by decide +kernel⟩, ⟨by decide +kernel, by decide +kernel⟩⟩
  exact ⟨hseparate, identifies_run unlimited [] [] [] twoHostCalls hseparate⟩

end Mts.Catalog
