import Mts.Catalog.Resolve

/-! The invariant of the catalog's maps, and that registering a series or a field keeps it. -/

set_option linter.dupNamespace false

namespace Mts.Catalog
open Lib Model List

variable {f : Field}

abbrev Identity := GoString × TagMap

def identity (s : Series) : Identity := (s.measurement, s.tags)

def fieldName (f : Field) : GoString × GoString := (f.measurement, f.name)

def Field.key (f : Field) : GoString := fieldKey f.measurement f.name

theorem Field.key_congr (h : fieldName f = fieldName g) : f.key = g.key := by
  obtain ⟨hm, hname⟩ := Prod.mk.inj h
  rw [Field.key, Field.key, hm, hname]

def Catalog.key (i : Identity) : GoString := seriesKey i.1 i.2

namespace Catalog

variable {id : UInt32} {name value : GoString} {schema : List Field}

/-- The maps of the catalog agree. A key may have been taken over by a later series with the same key. -/
structure Sound (c : Catalog) : Prop where
  ids : ∀ {id s}, c.series.get? id = some s → s.id = id ∧ id.toNat < c.nextSeriesID.toNat
  distinct : ∀ {id id' s s'}, c.series.get? id = some s → c.series.get? id' = some s' →
    identity s = identity s' → id = id'
  keyed : ∀ {id s}, c.series.get? id = some s → (c.seriesByKey.get? (key (identity s))).isSome
  byKey : ∀ {k id}, c.seriesByKey.get? k = some id → ∃ s, c.series.get? id = some s ∧ key (identity s) = k
  byTag : ∀ {m name value id}, c.seriesByTag.get? (m, name, value) = some id ↔
    ∃ s, c.series.get? id = some s ∧ identity s = (m, singleTag name value)
  fieldIDs : ∀ {id f}, c.fields.get? id = some f → f.id = id ∧ id.toNat < c.nextFieldID.toNat
  schema : ∀ {m f}, f ∈ c.schema m ↔ f.measurement = m ∧ c.fields.get? f.id = some f
  sorted : ∀ m, (c.schema m).Pairwise fun f g => f.name < g.name
  fieldsKeyed : ∀ {id f}, c.fields.get? id = some f → (c.fieldsByKey.get? (fieldKey f.measurement f.name)).isSome
  byFieldKey : ∀ {k id}, c.fieldsByKey.get? k = some id →
    ∃ f, c.fields.get? id = some f ∧ fieldKey f.measurement f.name = k

theorem sound_newCatalog (limits : Limits) : (newCatalog limits).Sound where
  ids h := by simp [newCatalog] at h
  distinct h := by simp [newCatalog] at h
  keyed h := by simp [newCatalog] at h
  byKey h := by simp [newCatalog] at h
  byTag := by simp [newCatalog]
  fieldIDs h := by simp [newCatalog] at h
  schema := by simp [newCatalog, Catalog.schema]
  sorted := by simp [newCatalog, Catalog.schema]
  fieldsKeyed h := by simp [newCatalog] at h
  byFieldKey h := by simp [newCatalog] at h

variable {c : Catalog}

theorem Sound.fieldDistinct (h : c.Sound) (hf : c.fields.get? id = some f)
    (hf' : c.fields.get? id' = some f') (hname : fieldName f = fieldName f') : id = id' := by
  obtain ⟨hid, -⟩ := h.fieldIDs hf
  obtain ⟨hid', -⟩ := h.fieldIDs hf'
  obtain ⟨hm, hn⟩ := Prod.mk.inj hname
  have hmem : f ∈ c.schema f.measurement := h.schema.mpr ⟨rfl, by rw [hid, hf]⟩
  have hmem' : f' ∈ c.schema f.measurement := h.schema.mpr ⟨hm.symm, by rw [hid', hf']⟩
  have hnodup : ((c.schema f.measurement).map Field.name).Nodup := by
    refine List.Pairwise.map _ (fun g g' hlt heq => ?_) (h.sorted f.measurement)
    exact List.lt_irrefl _ (heq ▸ hlt)
  rw [← hid, ← hid', inj_on_of_nodup_map hnodup hmem hmem' hn]

theorem eq_singleTag_iff : tags = singleTag name value ↔ tags.entries = [(name, value)] := by
  constructor
  · rintro rfl
    rfl
  · intro h
    obtain ⟨entries, sorted⟩ := tags
    subst h
    rfl

theorem toNat_succ64 {id : UInt64} (h : id.toNat + 1 < 2 ^ 64) : (id + 1).toNat = id.toNat + 1 := by
  exact Nat.mod_eq_of_lt h

theorem toNat_succ32 (h : id.toNat + 1 < 2 ^ 32) : (id + 1).toNat = id.toNat + 1 := by
  exact Nat.mod_eq_of_lt h

section ApplySeries
variable (c : Catalog) (s : Series)

@[simp] theorem applySeries_series : (c.applySeries s).series = c.series.set s.id s := by
  unfold applySeries upsertSingleTagSeries
  dsimp only
  split <;> rfl

@[simp] theorem applySeries_seriesByKey :
    (c.applySeries s).seriesByKey = c.seriesByKey.set (key (identity s)) s.id := by
  unfold applySeries upsertSingleTagSeries
  dsimp only
  split <;> rfl

@[simp] theorem applySeries_nextSeriesID : (c.applySeries s).nextSeriesID =
    if c.nextSeriesID ≤ s.id then s.id + 1 else c.nextSeriesID := by
  unfold applySeries upsertSingleTagSeries
  dsimp only
  split <;> rfl

theorem applySeries_seriesByTag_single (h : s.tags.entries = [(name, value)]) :
    (c.applySeries s).seriesByTag = c.seriesByTag.set (s.measurement, name, value) s.id := by
  unfold applySeries upsertSingleTagSeries
  rw [h]
  rfl

theorem applySeries_seriesByTag_other (h : ∀ name value, s.tags.entries ≠ [(name, value)]) :
    (c.applySeries s).seriesByTag = c.seriesByTag := by
  unfold applySeries upsertSingleTagSeries
  split
  · next name value heq => exact absurd heq (h name value)
  · rfl

theorem applySeries_frame : (c.applySeries s).fields = c.fields ∧ (c.applySeries s).fieldsByKey = c.fieldsByKey ∧
    (c.applySeries s).fieldSchemas = c.fieldSchemas ∧ (c.applySeries s).nextFieldID = c.nextFieldID := by
  unfold applySeries upsertSingleTagSeries
  split <;> exact ⟨rfl, rfl, rfl, rfl⟩

end ApplySeries

theorem Sound.applySeries {s : Series} (h : c.Sound) (hid : ∀ {s'}, c.series.get? s.id = some s' → s' = s)
    (hnew : ∀ {id s'}, c.series.get? id = some s' → identity s' = identity s → id = s.id)
    (hroom : s.id.toNat + 1 < 2 ^ 64) : (c.applySeries s).Sound := by
  obtain ⟨hfields, hfieldsByKey, hschemas, hnext⟩ := c.applySeries_frame s
  have hschema : ∀ m, (c.applySeries s).schema m = c.schema m := fun m => by
    rw [Catalog.schema, Catalog.schema, hschemas]
  have hle : c.nextSeriesID.toNat ≤ (c.applySeries s).nextSeriesID.toNat ∧
      s.id.toNat < (c.applySeries s).nextSeriesID.toNat := by
    rw [applySeries_nextSeriesID]
    split
    · next hle =>
      rw [toNat_succ64 hroom]
      have := UInt64.le_iff_toNat_le.mp hle
      omega
    · next hlt => exact ⟨Nat.le_refl _, UInt64.lt_iff_toNat_lt.mp (UInt64.not_le.mp hlt)⟩
  have hget : ∀ {id s'}, (c.applySeries s).series.get? id = some s' ↔
      id = s.id ∧ s' = s ∨ c.series.get? id = some s' := by
    intro id s'
    rw [applySeries_series]
    exact GoMap.get?_set_eq_some hid
  constructor
  · intro id s' hs'
    rcases hget.mp hs' with ⟨rfl, rfl⟩ | hs'
    · exact ⟨rfl, hle.2⟩
    · exact ⟨(h.ids hs').1, Nat.lt_of_lt_of_le (h.ids hs').2 hle.1⟩
  · intro id id' a b ha hb hab
    rcases hget.mp ha with ⟨rfl, rfl⟩ | ha' <;> rcases hget.mp hb with ⟨rfl, rfl⟩ | hb'
    · rfl
    · exact (hnew hb' hab.symm).symm
    · exact hnew ha' hab
    · exact h.distinct ha' hb' hab
  · intro id s' hs'
    rw [applySeries_seriesByKey, GoMap.get?_set]
    split
    · rfl
    · next hne =>
      rcases hget.mp hs' with ⟨rfl, rfl⟩ | hs'
      · exact absurd rfl hne
      · exact h.keyed hs'
  · intro k id hk
    rw [applySeries_seriesByKey, GoMap.get?_set] at hk
    split at hk
    · next heq =>
      cases hk
      exact ⟨s, hget.mpr (.inl ⟨rfl, rfl⟩), heq.symm⟩
    · obtain ⟨s', hs', hkey⟩ := h.byKey hk
      exact ⟨s', hget.mpr (.inr hs'), hkey⟩
  · intro m name value id
    have hiff : (∃ s', (c.applySeries s).series.get? id = some s' ∧ identity s' = (m, singleTag name value)) ↔
        id = s.id ∧ identity s = (m, singleTag name value) ∨ c.seriesByTag.get? (m, name, value) = some id := by
      rw [h.byTag]
      constructor
      · rintro ⟨s', hs', hident⟩
        rcases hget.mp hs' with ⟨rfl, rfl⟩ | hs'
        · exact .inl ⟨rfl, hident⟩
        · exact .inr ⟨s', hs', hident⟩
      · rintro (⟨rfl, hident⟩ | ⟨s', hs', hident⟩)
        · exact ⟨s, hget.mpr (.inl ⟨rfl, rfl⟩), hident⟩
        · exact ⟨s', hget.mpr (.inr hs'), hident⟩
    rw [hiff]
    by_cases hsingle : ∃ name' value', s.tags.entries = [(name', value')]
    · obtain ⟨name', value', htags⟩ := hsingle
      rw [applySeries_seriesByTag_single c s htags, GoMap.get?_set]
      have hident : identity s = (m, singleTag name value) ↔ (m, name, value) = (s.measurement, name', value') := by
        simp only [identity, Prod.mk.injEq, eq_singleTag_iff, htags, List.cons.injEq, and_true]
        constructor <;> (rintro ⟨rfl, rfl, rfl⟩; exact ⟨rfl, rfl, rfl⟩)
      rw [hident]
      split
      · next heq =>
        constructor
        · intro hsome
          exact .inl ⟨(Option.some.inj hsome).symm, heq⟩
        · rintro (⟨rfl, -⟩ | hold')
          · rfl
          · obtain ⟨s', hs', hident'⟩ := h.byTag.mp hold'
            rw [hnew hs' (hident'.trans (hident.mpr heq).symm)]
      · next hne => simp [hne]
    · have hother : ∀ name value, s.tags.entries ≠ [(name, value)] := fun name value heq => hsingle ⟨_, _, heq⟩
      rw [applySeries_seriesByTag_other c s hother]
      have hident : identity s ≠ (m, singleTag name value) := by
        intro heq
        exact hother name value (eq_singleTag_iff.mp (Prod.mk.inj heq).2)
      simp [hident]
  · intro id f hf
    rw [hnext]
    exact h.fieldIDs (hfields ▸ hf)
  · intro m f
    rw [hschema, hfields]
    exact h.schema
  · intro m
    rw [hschema]
    exact h.sorted m
  · intro id f hf
    rw [hfieldsByKey]
    exact h.fieldsKeyed (hfields ▸ hf)
  · intro k id hk
    rw [hfields]
    exact h.byFieldKey (hfieldsByKey ▸ hk)

section ApplyField
variable (c : Catalog) (f : Field)

@[simp] theorem applyField_fields : (c.applyField f).fields = c.fields.set f.id f := rfl

@[simp] theorem applyField_fieldsByKey :
    (c.applyField f).fieldsByKey = c.fieldsByKey.set (fieldKey f.measurement f.name) f.id := rfl

@[simp] theorem applyField_nextFieldID : (c.applyField f).nextFieldID =
    if c.nextFieldID ≤ f.id then f.id + 1 else c.nextFieldID := rfl

theorem schema_applyField (m : GoString) : (c.applyField f).schema m =
    if m = f.measurement then upsertField f (c.schema m) else c.schema m := by
  change ((c.fieldSchemas.set _ _).get? m).getD [] = _
  rw [GoMap.get?_set]
  split
  · next h => rw [h]; rfl
  · rfl

end ApplyField

theorem mem_upsertField (hnew : ∀ g ∈ schema, g.name = f.name → g = f) :
    g ∈ upsertField f schema ↔ g = f ∨ g ∈ schema := by
  induction schema with
  | nil => simp [upsertField]
  | cons h schema ih =>
    rw [upsertField]
    split
    · next heq =>
      obtain rfl := hnew h mem_cons_self heq
      simp
    · split
      · rw [mem_cons]
      · rw [mem_cons, ih fun g hg => hnew g (mem_cons_of_mem _ hg), mem_cons]
        exact or_left_comm

theorem upsertField_sorted (hnew : ∀ g ∈ schema, g.name = f.name → g = f)
    (hsorted : schema.Pairwise (·.name < ·.name)) :
    (upsertField f schema).Pairwise (·.name < ·.name) := by
  induction schema with
  | nil => exact pairwise_singleton _ _
  | cons h schema ih =>
    obtain ⟨hhead, htail⟩ := pairwise_cons.mp hsorted
    have htailNew : ∀ g ∈ schema, g.name = f.name → g = f := fun g hg => hnew g (mem_cons_of_mem _ hg)
    rw [upsertField]
    split_ifs with heq hlt
    · obtain rfl := hnew h mem_cons_self heq
      exact hsorted
    · refine pairwise_cons.mpr ⟨fun g hg => ?_, hsorted⟩
      rcases mem_cons.mp hg with rfl | hg
      · exact hlt
      · exact List.lt_trans hlt (hhead g hg)
    · have hlt' : h.name < f.name := by
        by_contra hnot
        exact heq (Std.Trichotomous.trichotomous _ _ hnot hlt)
      refine pairwise_cons.mpr ⟨fun g hg => ?_, ih htailNew htail⟩
      rcases (mem_upsertField htailNew).mp hg with rfl | hg
      · exact hlt'
      · exact hhead g hg

theorem Sound.applyField (h : c.Sound) (hid : ∀ {f'}, c.fields.get? f.id = some f' → f' = f)
    (hnew : ∀ {id f'}, c.fields.get? id = some f' → fieldName f' = fieldName f → id = f.id)
    (hroom : f.id.toNat + 1 < 2 ^ 32) : (c.applyField f).Sound := by
  have hle : c.nextFieldID.toNat ≤ (c.applyField f).nextFieldID.toNat ∧
      f.id.toNat < (c.applyField f).nextFieldID.toNat := by
    rw [applyField_nextFieldID]
    split
    · next hle =>
      rw [toNat_succ32 hroom]
      have := UInt32.le_iff_toNat_le.mp hle
      omega
    · next hlt => exact ⟨Nat.le_refl _, UInt32.lt_iff_toNat_lt.mp (UInt32.not_le.mp hlt)⟩
  have hget : ∀ {id f'}, (c.applyField f).fields.get? id = some f' ↔
      id = f.id ∧ f' = f ∨ c.fields.get? id = some f' := by
    intro id f'
    exact GoMap.get?_set_eq_some hid
  have hnames : ∀ g ∈ c.schema f.measurement, g.name = f.name → g = f := by
    intro g hg heq
    obtain ⟨hm, hgot⟩ := h.schema.mp hg
    rw [hnew hgot (Prod.ext hm heq)] at hgot
    exact hid hgot
  constructor
  · exact h.ids
  · exact h.distinct
  · exact h.keyed
  · exact h.byKey
  · exact h.byTag
  · intro id f' hf'
    rcases hget.mp hf' with ⟨rfl, rfl⟩ | hf'
    · exact ⟨rfl, hle.2⟩
    · exact ⟨(h.fieldIDs hf').1, Nat.lt_of_lt_of_le (h.fieldIDs hf').2 hle.1⟩
  · intro m g
    rw [schema_applyField, hget]
    split
    · next heq =>
      subst heq
      rw [mem_upsertField hnames, h.schema]
      constructor
      · rintro (rfl | ⟨hm, hg⟩)
        · exact ⟨rfl, .inl ⟨rfl, rfl⟩⟩
        · exact ⟨hm, .inr hg⟩
      · rintro ⟨hm, ⟨-, rfl⟩ | hg⟩
        · exact .inl rfl
        · exact .inr ⟨hm, hg⟩
    · next hne =>
      rw [h.schema]
      constructor
      · rintro ⟨hm, hg⟩
        exact ⟨hm, .inr hg⟩
      · rintro ⟨hm, ⟨-, rfl⟩ | hg⟩
        · exact absurd hm.symm hne
        · exact ⟨hm, hg⟩
  · intro m
    rw [schema_applyField]
    split
    · next heq =>
      subst heq
      exact upsertField_sorted hnames (h.sorted _)
    · exact h.sorted m
  · intro id f' hf'
    rw [applyField_fieldsByKey, GoMap.get?_set]
    split
    · rfl
    · next hne =>
      rcases hget.mp hf' with ⟨rfl, rfl⟩ | hf'
      · exact absurd rfl hne
      · exact h.fieldsKeyed hf'
  · intro k id hk
    rw [applyField_fieldsByKey, GoMap.get?_set] at hk
    split at hk
    · next heq =>
      cases hk
      exact ⟨f, hget.mpr (.inl ⟨rfl, rfl⟩), heq.symm⟩
    · obtain ⟨f', hf', hkey⟩ := h.byFieldKey hk
      exact ⟨f', hget.mpr (.inr hf'), hkey⟩

end Catalog
end Mts.Catalog
