import Mts.Catalog.Steps

/-! What the resolution of series and fields returns, whatever writes fail: IDs of the catalog, and those it has
given to what was asked for as long as the joined keys tell the requests apart. -/

set_option linter.dupNamespace false

namespace Mts.Catalog
open Lib Model List

variable {i : Identity} {id : UInt64} {α : Type} {Q : Catalog → Prop} {name : GoString}
  {cache : GoMap GoString Series} {known : List (UInt32 × GoString × UInt8)} {out : List ResolvedField}
  {m : GoString} {c c' : Catalog} {values : FieldMap}

def Catalog.Names (c : Catalog) (i : Identity) (id : UInt64) : Prop := ∃ s, c.series.get? id = some s ∧ identity s = i

def Catalog.NamesField (c : Catalog) (n : FieldName) (id : UInt32) : Prop :=
  ∃ f, c.fields.get? id = some f ∧ fieldName f = n

/-- An ID of the catalog, which is the one of `i` if the keys tell the requests apart. -/
def Catalog.Gives (c : Catalog) (r : Requests) (i : Identity) (id : UInt64) : Prop :=
  ∃ s, c.series.get? id = some s ∧ (r.Distinct → identity s = i)

def Catalog.GivesField (c : Catalog) (r : Requests) (n : FieldName) (id : UInt32) : Prop :=
  ∃ f, c.fields.get? id = some f ∧ (r.Distinct → fieldName f = n)

section Names
variable {c c' : Catalog} {r : Requests} {n : FieldName}

theorem Extends.gives (h : Extends c c') (hi : c.Gives r i id) : c'.Gives r i id := by
  obtain ⟨s, hs, hident⟩ := hi
  exact ⟨s, h.series hs, hident⟩

theorem Extends.givesField (h : Extends c c') {id : UInt32} (hn : c.GivesField r n id) : c'.GivesField r n id := by
  obtain ⟨f, hf, hname⟩ := hn
  exact ⟨f, h.fields hf, hname⟩

theorem Catalog.Sound.names_iff (h : c.Sound) (hi : c.Names i id) (hj : c.Names j id') : id = id' ↔ i = j := by
  obtain ⟨s, hs, rfl⟩ := hi
  obtain ⟨s', hs', rfl⟩ := hj
  constructor
  · rintro rfl
    rw [Option.some.inj (hs.symm.trans hs')]
  · exact h.distinct hs hs'

theorem Catalog.Sound.namesField_iff (h : c.Sound) {id id' : UInt32} (hn : c.NamesField n id)
    (hn' : c.NamesField n' id') : id = id' ↔ n = n' := by
  obtain ⟨f, hf, rfl⟩ := hn
  obtain ⟨f', hf', rfl⟩ := hn'
  constructor
  · rintro rfl
    rw [Option.some.inj (hf.symm.trans hf')]
  · exact h.fieldDistinct hf hf'

end Names

variable {r : Requests} {s : Store}

abbrev Resolves (r : Requests) {α : Type} (x : CatalogM α) (s : Store) (Q : α → Catalog → Prop) : Prop :=
  Ends (x s) (fun a t => Steps r s t ∧ Q a t.catalog) (fun t => Steps r s t)

theorem Step.steps (h : Step r s t) (happends : t.appends ⊆ s.appends) : Steps r s t := .single ⟨h, happends⟩

section
variable {Q : α → Catalog → Prop}

theorem Resolves.bind {β : Type} {f : α → CatalogM β} {Q' : β → Catalog → Prop}
    (hx : Resolves r x s Q) (hf : ∀ a t, Steps r s t → Q a t.catalog → Resolves r (f a) t Q') :
    Resolves r (x >>= f) s Q' := by
  refine Ends.bind hx fun a t ⟨hsteps, hQ⟩ => ?_
  refine (hf a t hsteps hQ).mono (fun b u h => ⟨hsteps.trans h.1, h.2⟩) fun u h => hsteps.trans h

theorem Valid.bind {β : Type} {f : α → CatalogM β} {Q' : β → Catalog → Prop}
    (hvalid : Valid r s.catalog) (hr : r.Roomy) (hx : Resolves r x s Q)
    (hf : ∀ a t, Valid r t.catalog → Extends s.catalog t.catalog → Q a t.catalog → Resolves r (f a) t Q') :
    Resolves r (x >>= f) s Q' := hx.bind fun a t hsteps => hf a t (hsteps.keeps hr hvalid).1 (hsteps.keeps hr hvalid).2

theorem resolves_pure (h : Q a s.catalog) : Resolves r (pure a) s Q := ends_pure ⟨.refl, h⟩

theorem resolves_throw : Resolves r (throw e) s Q := ends_throw .refl

theorem resolves_getCatalog_bind (h : Resolves r (f s.catalog) s Q) : Resolves r (getCatalog >>= f) s Q := h

end

theorem ends_appendEntryLocked (entry : WalEntry) (s : Store) :
    Ends (appendEntryLocked entry s)
      (fun _ t => t.catalog = s.catalog ∧ t.disk = s.disk.append entry .whole ∧ t.appends ⊆ s.appends)
      (fun t => t.catalog = s.catalog ∧ (∃ written, t.disk = s.disk.append entry written ∧
        ∃ result ∈ s.appends, result.Leaves written) ∧ t.appends ⊆ s.appends) := by
  refine Ends.bind (ends_get (Q := fun a t => a = s ∧ t = s) ⟨rfl, rfl⟩) ?_
  rintro a t ⟨ha, ht⟩
  rw [ha, ht]
  have htail := tail_subset s.appends
  have hmem : ∀ result, s.appends.headD .ok = result → result ≠ .ok → result ∈ s.appends := by
    intro result hhead hne
    cases happends : s.appends with
    | nil =>
      rw [happends] at hhead
      exact absurd hhead.symm hne
    | cons first rest =>
      rw [happends] at hhead
      exact hhead ▸ mem_cons_self
  cases hhead : s.appends.headD .ok with
  | ok => exact ⟨rfl, rfl, htail⟩
  | short bytes => exact ⟨rfl, ⟨.part bytes, rfl, _, hmem _ hhead (by simp), rfl⟩, htail⟩
  | syncFailed => exact ⟨rfl, ⟨.whole, rfl, _, hmem _ hhead (by simp), rfl⟩, htail⟩

theorem resolves_register (entry : WalEntry) {Q : α → Catalog → Prop} (hfresh : Fresh r s.catalog entry)
    (hQ : Q a (s.catalog.register entry)) :
    Resolves r (do
      appendEntryLocked entry
      modifyCatalog fun c => c.register entry
      return a) s Q := by
  refine Ends.bind ((ends_appendEntryLocked entry s).mono (fun _ t h => h) ?_) ?_
  · rintro t ⟨hcatalog, ⟨written, hdisk, hleaves⟩, happends⟩
    exact (Step.failed entry written hfresh hleaves hcatalog hdisk).steps happends
  · rintro _ t ⟨hcatalog, hdisk, happends⟩
    refine ⟨Step.steps (.registered entry hfresh ?_ hdisk) happends, ?_⟩
    · change t.catalog.register entry = _
      rw [hcatalog]
    · change Q a (t.catalog.register entry)
      rwa [hcatalog]

theorem resolves_onlyIf (h : Q s.catalog) (hx : Resolves r x s fun _ c => Q c) :
    Resolves r (onlyIf condition x) s fun _ c => Q c := by
  cases condition with
  | true => exact hx
  | false => exact resolves_pure h

theorem resolves_checkpoint (force : Bool) : Resolves r (checkpointSnapshotLocked force) s fun _ _ => True := by
  refine Ends.bind (ends_get (Q := fun a t => a = s ∧ t = s) ⟨rfl, rfl⟩) ?_
  rintro a t ⟨ha, ht⟩
  rw [ha, ht]
  split_ifs
  · exact ⟨.refl, trivial⟩
  · exact ⟨.refl, trivial⟩
  · cases s.checkpoints.headD .ok with
    | ok => exact ⟨Step.steps (.snapshotted [] 0 (.inl rfl) rfl rfl) (List.Subset.refl _), trivial⟩
    | saveFailed =>
      exact Step.steps (.metadata s.catalog.databases s.catalog.policies s.disk.metadata rfl rfl) (List.Subset.refl _)
    | truncateFailed => exact Step.steps (.snapshotted s.disk.wal _ (.inr rfl) rfl rfl) (List.Subset.refl _)
    | syncFailed => exact Step.steps (.snapshotted [] _ (.inl rfl) rfl rfl) (List.Subset.refl _)

theorem resolves_checkpointIf (changed : Bool) :
    Resolves r (onlyIf changed (checkpointSnapshotLocked false)) s fun _ _ => True :=
  resolves_onlyIf trivial (resolves_checkpoint false)

theorem Catalog.ensureMetadata_eq (c : Catalog) (database policy : GoString) :
    ∃ databases policies, (c.ensureMetadata database policy).1 =
      { c with databases := databases, policies := policies } := by
  unfold Catalog.ensureMetadata
  split_ifs
  case pos => exact ⟨_, _, rfl⟩
  case pos => exact ⟨_, _, rfl⟩
  case neg =>
    dsimp only
    split <;> exact ⟨_, _, rfl⟩
  case pos => exact ⟨_, _, rfl⟩
  case neg =>
    dsimp only
    split <;> exact ⟨_, _, rfl⟩

theorem resolves_ensureMetadata (database policy : GoString) :
    Resolves r (ensureMetadataLocked database policy) s fun _ _ => True := by
  obtain ⟨databases, policies, heq⟩ := s.catalog.ensureMetadata_eq database policy
  exact ⟨Step.steps (.metadata databases policies s.disk.metadata heq rfl) (List.Subset.refl _), trivial⟩

theorem resolves_saveMetadata : Resolves r saveMetadataLocked s fun _ _ => True := by
  refine Ends.bind (ends_get (Q := fun a t => a = s ∧ t = s) ⟨rfl, rfl⟩) ?_
  rintro a t ⟨ha, ht⟩
  rw [ha, ht]
  split
  · exact ⟨Step.steps (.metadata s.catalog.databases s.catalog.policies _ rfl rfl) (List.Subset.refl _), trivial⟩
  · exact Step.steps (.metadata s.catalog.databases s.catalog.policies s.disk.metadata rfl rfl) (List.Subset.refl _)

theorem resolves_saveMetadataIf (changed : Bool) : Resolves r (onlyIf changed saveMetadataLocked) s fun _ _ => True :=
  resolves_onlyIf trivial resolves_saveMetadata

theorem Valid.foldlM {β : Type} {f : β → α → CatalogM β} {b : β} {items : List α} (hvalid : Valid r s.catalog)
    (hr : r.Roomy) (P : List α → β → Catalog → Prop) (h : P [] b s.catalog)
    (hstep : ∀ done a b t, a ∈ items → Valid r t.catalog → P done b t.catalog →
      Resolves r (f b a) t (P (done ++ [a]))) : Resolves r (items.foldlM f b) s (P items) := by
  have hall : ∀ rest done b t, items = done ++ rest → Valid r t.catalog → P done b t.catalog →
      Resolves r (rest.foldlM f b) t (P items) := by
    intro rest
    induction rest with
    | nil =>
      intro done b t hdone _ hb
      rw [hdone, append_nil]
      exact resolves_pure hb
    | cons a rest ih =>
      intro done b t hdone hvalid hb
      refine hvalid.bind hr (hstep done a b t (hdone ▸ mem_append_right _ mem_cons_self) hvalid hb) ?_
      intro b' u hvalid' _ hb'
      exact ih (done ++ [a]) b' u (by rw [hdone, append_assoc]; rfl) hvalid' hb'
  exact hall items [] b s rfl hvalid h

section Series

def Catalog.Found (c : Catalog) (r : Requests) (i : Identity) (s : Series) : Prop :=
  c.series.get? s.id = some s ∧ Catalog.key (identity s) = Catalog.key i ∧ (r.Distinct → identity s = i)

theorem Extends.found (h : Extends c c') {s : Series} (hs : c.Found r i s) : c'.Found r i s := ⟨h.series hs.1, hs.2⟩

theorem Catalog.Found.gives {s : Series} (h : c.Found r i s) : c.Gives r i s.id := ⟨s, h.1, h.2.2⟩

section Lookup
variable {c : Catalog} {value : GoString}

theorem Valid.found_seriesAt (h : Valid r c) {s : Series} (hs : c.series.get? id = some s)
    (hkey : Catalog.key (identity s) = Catalog.key i) (hreq : i ∈ r.series) : c.Found r i (c.seriesAt id) := by
  obtain ⟨rfl, -⟩ := h.ids hs
  rw [Catalog.seriesAt, hs]
  exact ⟨hs, hkey, fun hd => hd.seriesKeys _ (h.seriesRequested hs) _ hreq hkey⟩

theorem Valid.found_of_key (h : Valid r c) (hreq : i ∈ r.series) (hk : c.seriesByKey.get? (Catalog.key i) = some id) :
    c.Found r i (c.seriesAt id) := by
  obtain ⟨s, hs, hkey⟩ := h.byKey hk
  exact h.found_seriesAt hs hkey hreq

theorem Valid.found_of_tag (h : Valid r c) (hreq : (m, singleTag name value) ∈ r.series)
    (ht : c.seriesByTag.get? (m, name, value) = some id) : c.Found r (m, singleTag name value) (c.seriesAt id) := by
  obtain ⟨s, hs, hident⟩ := h.byTag.mp ht
  exact h.found_seriesAt hs (congrArg _ hident) hreq

theorem Valid.found_of_lookup (h : Valid r c) (hreq : (m, tags) ∈ r.series)
    (hl : c.lookupSeriesID m tags = some id) : c.Found r (m, tags) (c.seriesAt id) := by
  unfold Catalog.lookupSeriesID at hl
  split at hl
  · next hnil =>
    refine h.found_of_key hreq ?_
    rwa [Catalog.key, seriesKey, hnil, flatMap_nil, append_nil]
  · next name value hone =>
    rw [Catalog.eq_singleTag_iff.mpr hone] at hreq ⊢
    exact h.found_of_tag hreq hl
  · cases hl

theorem Catalog.Sound.new_of_key (h : c.Sound) (hk : c.seriesByKey.get? (Catalog.key i) = none) {s : Series}
    (hs : c.series.get? id = some s) : identity s ≠ i := by
  rintro rfl
  have := h.keyed hs
  rw [hk] at this
  cases this

theorem Catalog.Sound.new_of_tag (h : c.Sound) (ht : c.seriesByTag.get? (m, name, value) = none) {s : Series}
    (hs : c.series.get? id = some s) : identity s ≠ (m, singleTag name value) := by
  intro heq
  have := h.byTag.mpr ⟨s, hs, heq⟩
  rw [ht] at this
  cases this

end Lookup

variable {m : GoString} {tags : TagMap}

theorem resolves_ensureSeriesCardinality (h : Q s.catalog) :
    Resolves r (ensureSeriesCardinalityLocked m tags) s fun _ c => Q c := by
  refine resolves_getCatalog_bind ?_
  refine (resolves_onlyIf h resolves_throw).bind fun _ t hsteps hQ => ?_
  split
  · exact resolves_throw
  · exact resolves_pure hQ

theorem resolves_createSeries (hreq : (m, tags) ∈ r.series)
    (hnew : ∀ {id s'}, s.catalog.series.get? id = some s' → identity s' ≠ (m, tags)) :
    Resolves r (createSeriesNoSnapshotLocked m tags) s fun x c => c.Found r (m, tags) x.1 := by
  refine (resolves_ensureSeriesCardinality (Q := fun c => c = s.catalog) rfl).bind fun _ t _ ht => ?_
  refine resolves_getCatalog_bind ?_
  refine resolves_register (.series ⟨t.catalog.nextSeriesID, m, tags⟩) ⟨rfl, hreq, ?_⟩ ⟨?_, rfl, fun _ => rfl⟩
  · rw [ht]
    exact hnew
  · change (t.catalog.applySeries _).series.get? _ = _
    rw [Catalog.applySeries_series, GoMap.get?_set_self]

variable (hr : r.Roomy) (hvalid : Valid r s.catalog)
include hvalid

theorem resolves_seriesNoSnapshot (hreq : (m, tags) ∈ r.series) :
    Resolves r (resolveSeriesNoSnapshotLocked m tags) s fun x c => c.Found r (m, tags) x.1 := by
  refine resolves_getCatalog_bind ?_
  split
  · next id hl => exact resolves_pure (hvalid.found_of_lookup hreq hl)
  · split
    · next id hk => exact resolves_pure (hvalid.found_of_key (i := (m, tags)) hreq hk)
    · next hk => exact resolves_createSeries hreq (hvalid.new_of_key (i := (m, tags)) hk)

def CacheSound (c : Catalog) (cache : GoMap GoString Series) : Prop :=
  ∀ k x, cache.get? k = some x → c.series.get? x.id = some x ∧ Catalog.key (identity x) = k

omit hvalid in
theorem CacheSound.set (h : CacheSound c cache) (hx : c.Found r i x) : CacheSound c (cache.set (Catalog.key i) x) := by
  intro k y hy
  rw [GoMap.get?_set] at hy
  split at hy
  · next heq =>
    cases hy
    exact ⟨hx.1, by rw [hx.2.1, heq]⟩
  · exact h k y hy

omit hvalid in
theorem CacheSound.mono (h : CacheSound c cache) (hext : Extends c c') : CacheSound c' cache :=
  fun k x hx => ⟨hext.series (h k x hx).1, (h k x hx).2⟩

include hr

theorem resolves_seriesCached (hcache : CacheSound s.catalog cache) (hreq : (m, tags) ∈ r.series) :
    Resolves r (resolveSeriesNoSnapshotCachedLocked m tags cache) s
      fun x c => c.Found r (m, tags) x.1.1 ∧ CacheSound c x.2 := by
  unfold resolveSeriesNoSnapshotCachedLocked
  split
  · dsimp only
    split
    · next x hx =>
      obtain ⟨hget, hkey⟩ := hcache _ x hx
      exact resolves_pure ⟨⟨hget, hkey, fun hd => hd.seriesKeys _ (hvalid.seriesRequested hget) _ hreq hkey⟩, hcache⟩
    · refine resolves_getCatalog_bind ?_
      split
      · next id hk =>
        have hfound := hvalid.found_of_key (i := (m, tags)) hreq hk
        exact resolves_pure ⟨hfound, hcache.set hfound⟩
      · next hk =>
        refine hvalid.bind hr (resolves_createSeries hreq (hvalid.new_of_key (i := (m, tags)) hk)) ?_
        exact fun x t _ hext hx => resolves_pure ⟨hx, (hcache.mono hext).set hx⟩
  · refine hvalid.bind hr (resolves_seriesNoSnapshot hvalid hreq) fun x t _ hext hx => ?_
    exact resolves_pure ⟨hx, hcache.mono hext⟩

theorem resolves_series (hreq : (m, tags) ∈ r.series) :
    Resolves r (resolveSeriesLocked m tags) s fun x c => c.Found r (m, tags) x := by
  refine hvalid.bind hr (resolves_seriesNoSnapshot hvalid hreq) fun x t hvalid' _ hx => ?_
  refine hvalid'.bind hr (resolves_checkpointIf _) fun _ u _ hext _ => ?_
  exact resolves_pure (hext.found hx)

end Series

section Fields

def Catalog.FoundField (c : Catalog) (r : Requests) (n : FieldName) (f : Field) : Prop :=
  c.fields.get? f.id = some f ∧ (r.Distinct → fieldName f = n)

theorem Catalog.Sound.foundField_of_schema (h : c.Sound) (hf : c.schemaField m name = some f) :
    c.FoundField r (m, name) f := by
  obtain ⟨hfind, hname⟩ := Option.filter_eq_some_iff.mp hf
  obtain ⟨hm, hget⟩ := h.schema.mp (mem_of_find?_eq_some hfind)
  exact ⟨hget, fun _ => Prod.ext hm (of_decide_eq_true hname)⟩

theorem Valid.foundField_of_key (h : Valid r c) {id : UInt32} (hreq : (m, name) ∈ r.fields)
    (hk : c.fieldsByKey.get? (fieldKey m name) = some id) : c.FoundField r (m, name) (c.fieldAt id) := by
  obtain ⟨f, hf, hkey⟩ := h.byFieldKey hk
  obtain ⟨rfl, -⟩ := h.fieldIDs hf
  rw [Catalog.fieldAt, hf]
  exact ⟨hf, fun hd => hd.fieldKeys _ (h.fieldsRequested hf).1 _ hreq hkey⟩

theorem Catalog.Sound.new_of_fieldKey (h : c.Sound) (hk : c.fieldsByKey.get? (fieldKey m name) = none)
    {id : UInt32} (hf : c.fields.get? id = some f) : f.key ≠ fieldKey m name := by
  intro heq
  have := h.fieldsKeyed hf
  rw [← Field.key, heq, hk] at this
  cases this

theorem resolves_ensureFieldCardinality (h : Q s.catalog) : Resolves r ensureFieldCardinalityLocked s fun _ c => Q c :=
  resolves_getCatalog_bind (resolves_onlyIf h resolves_throw)

theorem resolves_field (hvalid : Valid r s.catalog) (hreq : (m, name) ∈ r.fields) (htype : type ∈ r.types) :
    Resolves r (resolveFieldNoSnapshotLocked m name type) s fun x c => c.FoundField r (m, name) x.1 := by
  refine resolves_getCatalog_bind ?_
  split
  · next field hfield =>
    split
    · exact resolves_throw
    · exact resolves_pure (hvalid.foundField_of_schema hfield)
  · split
    · next id hk =>
      split
      · exact resolves_throw
      · exact resolves_pure (hvalid.foundField_of_key hreq hk)
    · next hk =>
      refine (resolves_ensureFieldCardinality (Q := fun c => c = s.catalog) rfl).bind fun _ t _ ht => ?_
      refine resolves_getCatalog_bind ?_
      refine resolves_register (.field ⟨t.catalog.nextFieldID, m, name, type⟩) ⟨rfl, hreq, htype, ?_⟩
        ⟨?_, fun _ => rfl⟩
      · rw [ht]
        exact hvalid.new_of_fieldKey hk
      · exact GoMap.get?_set_self _ _ _

end Fields

section Match

theorem foldlM_matchStep_none (values : FieldMap) (known : List (UInt32 × GoString × UInt8)) :
    known.foldlM (matchStep values) none = .ok none := by
  induction known with
  | nil => rfl
  | cons item known ih =>
    exact ih

theorem foldlM_matchStep (h : known.foldlM (matchStep values) (some acc) = .ok (some out)) :
    (∀ item ∈ known, item.2.1 ∈ values.entries.map Prod.fst) ∧
      out.map (fun f => (f.fieldID, f.fieldName)) =
        acc.map (fun f => (f.fieldID, f.fieldName)) ++ known.map fun item => (item.1, item.2.1) := by
  induction known generalizing acc with
  | nil =>
    obtain rfl := Option.some.inj (Except.ok.inj h)
    simp
  | cons item known ih =>
    rw [foldlM_cons] at h
    cases hfind : values.find? item.2.1 with
    | none =>
      have hstep : matchStep values (some acc) item = .ok none := by simp [matchStep, hfind]
      rw [hstep] at h
      change known.foldlM (matchStep values) none = .ok (some out) at h
      rw [foldlM_matchStep_none] at h
      cases h
    | some value =>
      have hstep : matchStep values (some acc) item = if item.2.2 ≠ value.type then
          .error (.fieldTypeConflict item.2.1) else .ok (some (acc ++ [⟨item.1, item.2.1, item.2.2, value⟩])) := by
        simp [matchStep, hfind]
      rw [hstep] at h
      split at h
      · cases h
      · obtain ⟨hnames, hout⟩ := ih h
        refine ⟨fun x hx => ?_, by simpa using hout⟩
        rcases mem_cons.mp hx with rfl | hx
        · obtain ⟨e, he, -⟩ := Option.map_eq_some_iff.mp hfind
          have hname := find?_some he
          exact mem_map.mpr ⟨e, mem_of_find?_eq_some he, of_decide_eq_true hname⟩
        · exact hnames x hx

theorem eq_of_sorted_subset {a b : List GoString} (ha : a.Pairwise (· < ·)) (hb : b.Pairwise (· < ·))
    (hsub : a ⊆ b) (hlen : a.length = b.length) : a = b := by
  have hnodup : a.Nodup := by
    refine List.Pairwise.imp (fun hlt heq => ?_) ha
    exact List.lt_irrefl _ (heq ▸ hlt)
  have hperm : a.Perm b := (subperm_of_subset hnodup hsub).perm_of_length_le hlen.ge
  exact hperm.eq_of_pairwise' ha hb

theorem matchFields_some (h : matchFields known values = .ok (some out)) :
    out.map (fun f => (f.fieldID, f.fieldName)) = known.map (fun item => (item.1, item.2.1)) ∧
      out.length = values.entries.length ∧
      ((known.map fun item => item.2.1).Pairwise (· < ·) →
        out.map ResolvedField.fieldName = values.entries.map Prod.fst) := by
  unfold matchFields at h
  split at h
  · cases h
  · next hcond =>
    obtain ⟨hnames, hout⟩ := foldlM_matchStep h
    rw [map_nil, nil_append] at hout
    have hlen : known.length = values.entries.length := by
      simp only [Bool.or_eq_true, decide_eq_true_eq, not_or, not_not] at hcond
      exact hcond.2
    have hlen' : out.length = known.length := by simpa using congrArg List.length hout
    refine ⟨hout, hlen'.trans hlen, fun hsorted => ?_⟩
    have hfst : out.map ResolvedField.fieldName = known.map fun item => item.2.1 := by
      have := congrArg (List.map Prod.snd) hout
      rwa [map_map, map_map] at this
    rw [hfst]
    refine eq_of_sorted_subset hsorted (List.Pairwise.map _ (fun _ _ hlt => hlt) values.sorted) ?_ (by simp [hlen])
    intro name hname
    obtain ⟨item, hitem, rfl⟩ := mem_map.mp hname
    exact hnames item hitem

end Match

section ResolvedFields

/-- The fields of a point: as many as the names asked for, and if the keys tell the requests apart those of the
names in their order. -/
structure Catalog.ResolvedFields (c : Catalog) (r : Requests) (m : GoString) (names : List GoString)
    (out : List ResolvedField) : Prop where
  length : out.length = names.length
  names : r.Distinct → out.map ResolvedField.fieldName = names
  ids : ∀ f ∈ out, c.GivesField r (m, f.fieldName) f.fieldID

theorem Extends.resolvedFields (h : Extends c c')
    (hout : c.ResolvedFields r m names out) : c'.ResolvedFields r m names out :=
  ⟨hout.length, hout.names, fun f hf => h.givesField (hout.ids f hf)⟩

theorem FieldMap.names_sorted (values : FieldMap) : (values.entries.map Prod.fst).Pairwise (· < ·) :=
  List.Pairwise.map _ (fun _ _ hlt => hlt) values.sorted

theorem resolvedFields_of_match (hsorted : r.Distinct → (known.map fun item => item.2.1).Pairwise (· < ·))
    (hknown : ∀ item ∈ known, c.GivesField r (m, item.2.1) item.1)
    (h : matchFields known values = .ok (some out)) :
    c.ResolvedFields r m (values.entries.map Prod.fst) out := by
  obtain ⟨hout, hlen, hnames⟩ := matchFields_some h
  refine ⟨by rw [hlen, length_map], fun hd => hnames (hsorted hd), fun f hf => ?_⟩
  have hmem : (f.fieldID, f.fieldName) ∈ known.map fun item => (item.1, item.2.1) := hout ▸ mem_map_of_mem hf
  obtain ⟨item, hitem, heq⟩ := mem_map.mp hmem
  obtain ⟨hid, hname⟩ := Prod.mk.inj heq
  rw [← hid, ← hname]
  exact hknown item hitem

theorem Catalog.Sound.resolvedFields_of_schema (h : c.Sound)
    (hout : resolveFieldsFromSchema c m values = .ok (some out)) :
    c.ResolvedFields r m (values.entries.map Prod.fst) out := by
  refine resolvedFields_of_match (fun _ => ?_) (fun item hitem => ?_) hout
  · rw [map_map]
    exact List.Pairwise.map _ (fun _ _ hlt => hlt) (h.sorted m)
  · obtain ⟨f, hf, rfl⟩ := mem_map.mp hitem
    obtain ⟨hm, hget⟩ := h.schema.mp hf
    exact ⟨f, hget, fun _ => Prod.ext hm rfl⟩

def TemplateSound (r : Requests) (c : Catalog) (template : Option FieldTemplate) : Prop :=
  ∀ t, template = some t → ∃ names, names.Pairwise (· < ·) ∧ c.ResolvedFields r t.measurement names t.fields

theorem TemplateSound.mono (h : TemplateSound r c template) (hext : Extends c c') : TemplateSound r c' template := by
  intro t ht
  obtain ⟨names, hsorted, hfields⟩ := h t ht
  exact ⟨names, hsorted, hext.resolvedFields hfields⟩

theorem TemplateSound.resolvedFields (h : TemplateSound r c (some t))
    (hout : applyFieldTemplateLocked t.fields values = .ok (some out)) :
    c.ResolvedFields r t.measurement (values.entries.map Prod.fst) out := by
  obtain ⟨names, hsorted, hfields⟩ := h t rfl
  refine resolvedFields_of_match (fun hd => ?_) (fun item hitem => ?_) hout
  · rw [map_map]
    exact hfields.names hd ▸ hsorted
  · obtain ⟨f, hf, rfl⟩ := mem_map.mp hitem
    exact hfields.ids f hf

variable (hr : r.Roomy) (hvalid : Valid r s.catalog) {m : GoString} {values : FieldMap}
include hr hvalid

theorem resolves_fieldsNoSnapshot (hreq : ∀ e ∈ values.entries, (m, e.1) ∈ r.fields ∧ e.2.type ∈ r.types) :
    Resolves r (resolveFieldsNoSnapshotLocked m values) s
      fun x c => c.ResolvedFields r m (values.entries.map Prod.fst) x.1 := by
  refine resolves_getCatalog_bind ?_
  split
  · exact resolves_throw
  · next fields hfields => exact resolves_pure (hvalid.resolvedFields_of_schema hfields)
  · refine hvalid.foldlM hr (fun done (out : _ × Bool) c => c.ResolvedFields r m (done.map Prod.fst) out.1)
      ⟨rfl, fun _ => rfl, fun f hf => absurd hf not_mem_nil⟩ fun done e out t hmem hvalid' hout => ?_
    refine hvalid'.bind hr (resolves_field hvalid' (hreq e hmem).1 (hreq e hmem).2) fun x u _ hext hx => ?_
    refine resolves_pure ⟨?_, fun hd => ?_, ?_⟩
    · simp [hout.length]
    · have hname : x.1.name = e.1 := congrArg Prod.snd (hx.2 hd)
      rw [map_append, map_append, hout.names hd]
      exact congrArg (_ ++ [·]) hname
    · intro f hf
      rcases mem_append.mp hf with hf | hf
      · exact hext.givesField (hout.ids f hf)
      · rw [mem_singleton.mp hf]
        have hm : r.Distinct → x.1.measurement = m := fun hd => congrArg Prod.fst (hx.2 hd)
        exact ⟨x.1, hx.1, fun hd => Prod.ext (hm hd) rfl⟩

theorem resolves_fields (hreq : ∀ e ∈ values.entries, (m, e.1) ∈ r.fields ∧ e.2.type ∈ r.types) :
    Resolves r (resolveFieldsLocked m values) s
      fun out c => c.ResolvedFields r m (values.entries.map Prod.fst) out := by
  refine hvalid.bind hr (resolves_fieldsNoSnapshot hr hvalid hreq) fun x t hvalid' _ hx => ?_
  refine hvalid'.bind hr (resolves_checkpointIf _) fun _ u _ hext _ => ?_
  exact resolves_pure (hext.resolvedFields hx)

end ResolvedFields

end Mts.Catalog
