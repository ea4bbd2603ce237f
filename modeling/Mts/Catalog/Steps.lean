import Mts.Catalog.Sound

/-! What the calls of the catalog do to it and to its directory, one step at a time, and what every step keeps. -/

set_option linter.dupNamespace false

namespace Mts.Catalog
open Lib Model

abbrev FieldName := GoString × GoString

structure Requests where
  series : List Identity
  fields : List FieldName
  types : List UInt8

structure Requests.Distinct (r : Requests) : Prop where
  seriesKeys : ∀ i ∈ r.series, ∀ j ∈ r.series, Catalog.key i = Catalog.key j → i = j
  fieldKeys : ∀ n ∈ r.fields, ∀ n' ∈ r.fields, fieldKey n.1 n.2 = fieldKey n'.1 n'.2 → n = n'

/-- The IDs suffice: each new series or field takes two of them. -/
structure Requests.Roomy (r : Requests) : Prop where
  seriesRoom : r.series.dedup.length < 2 ^ 63
  fieldRoom : r.fields.dedup.length < 2 ^ 31

structure Requests.Separate (r : Requests) : Prop extends r.Distinct, r.Roomy

def Catalog.register (c : Catalog) : WalEntry → Catalog
  | .series s =>
    let c := c.applySeries s
    { c with nextSeriesID := c.nextSeriesID + 1, snapshotDirtyRecords := c.snapshotDirtyRecords + 1 }
  | .field f =>
    let c := c.applyField f
    { c with nextFieldID := c.nextFieldID + 1, snapshotDirtyRecords := c.snapshotDirtyRecords + 1 }

def Fresh (r : Requests) (c : Catalog) : WalEntry → Prop
  | .series s => s.id = c.nextSeriesID ∧ identity s ∈ r.series ∧
      ∀ {id s'}, c.series.get? id = some s' → identity s' ≠ identity s
  | .field f => f.id = c.nextFieldID ∧ fieldName f ∈ r.fields ∧ f.type ∈ r.types ∧
      ∀ {id f'}, c.fields.get? id = some f' → f'.key ≠ f.key

def Disk.append (d : Disk) (entry : WalEntry) (written : Written) : Disk :=
  { d with wal := d.wal ++ [⟨entry, written⟩] }

def AppendResult.Leaves : AppendResult → Written → Prop
  | .ok, _ => False
  | .short bytes, written => written = .part bytes
  | .syncFailed, written => written = .whole

inductive Step (r : Requests) (s t : Store) : Prop
  | registered (entry : WalEntry) (hfresh : Fresh r s.catalog entry)
      (hcatalog : t.catalog = s.catalog.register entry) (hdisk : t.disk = s.disk.append entry .whole)
  | failed (entry : WalEntry) (written : Written) (hfresh : Fresh r s.catalog entry)
      (hleaves : ∃ result ∈ s.appends, result.Leaves written)
      (hcatalog : t.catalog = s.catalog) (hdisk : t.disk = s.disk.append entry written)
  | snapshotted (wal : List LogWrite) (dirty : Nat) (hwal : wal = [] ∨ wal = s.disk.wal)
      (hcatalog : t.catalog = { s.catalog with snapshotDirtyRecords := dirty })
      (hdisk : t.disk = { s.disk with snapshot := some s.catalog.snapshotData, wal := wal })
  | metadata (databases : List GoString) (policies : GoMap (GoString × GoString) RetentionPolicy)
      (saved : Option Metadata)
      (hcatalog : t.catalog = { s.catalog with databases := databases, policies := policies })
      (hdisk : t.disk = { s.disk with metadata := saved })

def StepOf (r : Requests) (s t : Store) : Prop := Step r s t ∧ t.appends ⊆ s.appends

abbrev Steps (r : Requests) := Relation.ReflTransGen (StepOf r)

structure Valid (r : Requests) (c : Catalog) : Prop extends c.Sound where
  seriesRequested : ∀ {id s}, c.series.get? id = some s → identity s ∈ r.series
  fieldsRequested : ∀ {id f}, c.fields.get? id = some f → fieldName f ∈ r.fields ∧ f.type ∈ r.types
  nextSeries : c.nextSeriesID.toNat ≤ 2 * c.series.size + 1
  nextField : c.nextFieldID.toNat ≤ 2 * c.fields.size + 1

structure Extends (c c' : Catalog) : Prop where
  series : ∀ {id s}, c.series.get? id = some s → c'.series.get? id = some s
  fields : ∀ {id f}, c.fields.get? id = some f → c'.fields.get? id = some f

theorem Extends.rfl : Extends c c := ⟨id, id⟩

theorem Extends.trans (h : Extends c₁ c₂) (h' : Extends c₂ c₃) : Extends c₁ c₃ :=
  ⟨fun hs => h'.series (h.series hs), fun hf => h'.fields (h.fields hf)⟩

theorem valid_newCatalog (r : Requests) (limits : Limits) : Valid r (newCatalog limits) where
  toSound := Catalog.sound_newCatalog limits
  seriesRequested h := by simp [newCatalog] at h
  fieldsRequested h := by simp [newCatalog] at h
  nextSeries := Nat.le_refl 1
  nextField := Nat.le_refl 1

section Register
variable {r : Requests} {c : Catalog} {s : Series} {f : Field}

theorem Valid.series_room (hr : r.Roomy) (h : Valid r c) (hfresh : Fresh r c (.series s)) :
    c.nextSeriesID.toNat + 2 < 2 ^ 64 := by
  have hsize := GoMap.size_lt_of_new (fun k k' v v' => h.distinct) (fun k v => h.seriesRequested) hfresh.2.1
    fun k v => hfresh.2.2
  have hnext := h.nextSeries
  have hroom := hr.seriesRoom
  omega

theorem Valid.field_room (hr : r.Roomy) (h : Valid r c) (hfresh : Fresh r c (.field f)) :
    c.nextFieldID.toNat + 2 < 2 ^ 32 := by
  have hsize := GoMap.size_lt_of_new (fun k k' v v' => h.fieldDistinct) (fun k v hf => (h.fieldsRequested hf).1)
    hfresh.2.1 fun k v hf heq => hfresh.2.2.2 hf (Field.key_congr heq)
  have hnext := h.nextField
  have hroom := hr.fieldRoom
  omega

theorem Catalog.Sound.series_next (h : c.Sound) : c.series.get? c.nextSeriesID = none := by
  cases hget : c.series.get? c.nextSeriesID with
  | none => rfl
  | some s => exact absurd (h.ids hget).2 (Nat.lt_irrefl _)

theorem Catalog.Sound.field_next (h : c.Sound) : c.fields.get? c.nextFieldID = none := by
  cases hget : c.fields.get? c.nextFieldID with
  | none => rfl
  | some f => exact absurd (h.fieldIDs hget).2 (Nat.lt_irrefl _)

theorem Catalog.Sound.raise (h : c.Sound) {nextSeriesID : UInt64} {nextFieldID : UInt32}
    (hseries : c.nextSeriesID.toNat ≤ nextSeriesID.toNat) (hfield : c.nextFieldID.toNat ≤ nextFieldID.toNat) :
    Catalog.Sound { c with nextSeriesID := nextSeriesID, nextFieldID := nextFieldID,
                           snapshotDirtyRecords := dirty } where
  ids hs := ⟨(h.ids hs).1, Nat.lt_of_lt_of_le (h.ids hs).2 hseries⟩
  distinct := h.distinct
  keyed := h.keyed
  byKey := h.byKey
  byTag := h.byTag
  fieldIDs hf := ⟨(h.fieldIDs hf).1, Nat.lt_of_lt_of_le (h.fieldIDs hf).2 hfield⟩
  schema := h.schema
  sorted := h.sorted
  fieldsKeyed := h.fieldsKeyed
  byFieldKey := h.byFieldKey

theorem Catalog.toNat_next_register_series (hid : s.id = c.nextSeriesID) (hroom : c.nextSeriesID.toNat + 2 < 2 ^ 64) :
    (c.register (.series s)).nextSeriesID.toNat = c.nextSeriesID.toNat + 2 := by
  change ((c.applySeries s).nextSeriesID + 1).toNat = _
  have hsucc : (c.nextSeriesID + 1).toNat = c.nextSeriesID.toNat + 1 := toNat_succ64 (by omega)
  rw [applySeries_nextSeriesID, hid, if_pos (UInt64.le_refl _), toNat_succ64 (by omega), hsucc]

theorem Catalog.toNat_next_register_field (hid : f.id = c.nextFieldID) (hroom : c.nextFieldID.toNat + 2 < 2 ^ 32) :
    (c.register (.field f)).nextFieldID.toNat = c.nextFieldID.toNat + 2 := by
  change ((c.applyField f).nextFieldID + 1).toNat = _
  have hsucc : (c.nextFieldID + 1).toNat = c.nextFieldID.toNat + 1 := toNat_succ32 (by omega)
  rw [applyField_nextFieldID, hid, if_pos (UInt32.le_refl _), toNat_succ32 (by omega), hsucc]

theorem Valid.register_series (hr : r.Roomy) (h : Valid r c) (hfresh : Fresh r c (.series s)) :
    Valid r (c.register (.series s)) := by
  obtain ⟨hfields, -, -, hnextField⟩ := c.applySeries_frame s
  have hroom := h.series_room hr hfresh
  obtain ⟨hid, hreq, hnew⟩ := hfresh
  have hnone : c.series.get? s.id = none := hid ▸ h.series_next
  have hnext : (c.applySeries s).nextSeriesID.toNat = c.nextSeriesID.toNat + 1 := by
    rw [Catalog.applySeries_nextSeriesID, hid, if_pos (UInt64.le_refl _), Catalog.toNat_succ64 (by omega)]
  have htwo := Catalog.toNat_next_register_series hid hroom
  have hsound : (c.applySeries s).Sound := by
    refine h.applySeries (fun hs' => ?_) (fun hs' heq => absurd heq (hnew hs')) (by rw [hid]; omega)
    rw [hnone] at hs'
    cases hs'
  refine ⟨hsound.raise ?_ (Nat.le_refl _), ?_, ?_, ?_, ?_⟩
  · exact (hnext.trans_le (Nat.le_succ _)).trans_eq htwo.symm
  · intro id s' hs'
    change (c.applySeries s).series.get? id = some s' at hs'
    rw [Catalog.applySeries_series, GoMap.get?_set] at hs'
    split at hs'
    · exact Option.some.inj hs' ▸ hreq
    · exact h.seriesRequested hs'
  · intro id f hf
    exact h.fieldsRequested (hfields ▸ hf)
  · change _ ≤ 2 * (c.applySeries s).series.size + 1
    rw [htwo, Catalog.applySeries_series, GoMap.size_set_of_none hnone]
    have := h.nextSeries
    omega
  · change (c.applySeries s).nextFieldID.toNat ≤ 2 * (c.applySeries s).fields.size + 1
    rw [hnextField, hfields]
    exact h.nextField

theorem Valid.register_field (hr : r.Roomy) (h : Valid r c) (hfresh : Fresh r c (.field f)) :
    Valid r (c.register (.field f)) := by
  have hroom := h.field_room hr hfresh
  obtain ⟨hid, hreq, htype, hnew⟩ := hfresh
  have hnone : c.fields.get? f.id = none := hid ▸ h.field_next
  have hnext : (c.applyField f).nextFieldID.toNat = c.nextFieldID.toNat + 1 := by
    rw [Catalog.applyField_nextFieldID, hid, if_pos (UInt32.le_refl _), Catalog.toNat_succ32 (by omega)]
  have htwo := Catalog.toNat_next_register_field hid hroom
  have hsound : (c.applyField f).Sound := by
    refine h.applyField (fun hf' => ?_) (fun hf' heq => absurd (Field.key_congr heq) (hnew hf')) (by rw [hid]; omega)
    rw [hnone] at hf'
    cases hf'
  refine ⟨hsound.raise (Nat.le_refl _) ?_, h.seriesRequested, ?_, h.nextSeries, ?_⟩
  · exact (hnext.trans_le (Nat.le_succ _)).trans_eq htwo.symm
  · intro id f' hf'
    change (c.applyField f).fields.get? id = some f' at hf'
    rw [Catalog.applyField_fields, GoMap.get?_set] at hf'
    split at hf'
    · exact Option.some.inj hf' ▸ ⟨hreq, htype⟩
    · exact h.fieldsRequested hf'
  · change _ ≤ 2 * (c.applyField f).fields.size + 1
    rw [htwo, Catalog.applyField_fields, GoMap.size_set_of_none hnone]
    have := h.nextField
    omega

theorem Catalog.Sound.extends_register (h : c.Sound) (hfresh : Fresh r c entry) : Extends c (c.register entry) := by
  cases entry with
  | series s =>
    obtain ⟨hfields, -⟩ := c.applySeries_frame s
    refine ⟨fun {id s'} hs' => ?_, fun hf => ?_⟩
    · change (c.applySeries s).series.get? id = some s'
      rw [Catalog.applySeries_series, GoMap.get?_set_ne]
      · exact hs'
      · rintro rfl
        rw [hfresh.1, h.series_next] at hs'
        cases hs'
    · exact hfields ▸ hf
  | field f =>
    refine ⟨id, fun {id f'} hf' => ?_⟩
    change (c.fields.set f.id f).get? id = some f'
    rw [GoMap.get?_set_ne]
    · exact hf'
    · rintro rfl
      rw [hfresh.1, h.field_next] at hf'
      cases hf'

end Register

section Run
variable {r : Requests} {s t : Store}

theorem Step.keeps (hr : r.Roomy) (hstep : Step r s t) (h : Valid r s.catalog) :
    Valid r t.catalog ∧ Extends s.catalog t.catalog := by
  cases hstep with
  | registered entry hfresh hcatalog =>
    rw [hcatalog]
    refine ⟨?_, h.extends_register hfresh⟩
    cases entry with
    | series s => exact h.register_series hr hfresh
    | field f => exact h.register_field hr hfresh
  | failed entry written hfresh hleaves hcatalog =>
    rw [hcatalog]
    exact ⟨h, Extends.rfl⟩
  | snapshotted wal dirty hwal hcatalog =>
    rw [hcatalog]
    refine ⟨⟨h.raise (Nat.le_refl _) (Nat.le_refl _), ?_, ?_, ?_, ?_⟩, ⟨id, id⟩⟩
    exacts [h.seriesRequested, h.fieldsRequested, h.nextSeries, h.nextField]
  | metadata databases policies saved hcatalog =>
    rw [hcatalog]
    exact ⟨⟨⟨h.ids, h.distinct, h.keyed, h.byKey, h.byTag, h.fieldIDs, h.schema, h.sorted, h.fieldsKeyed,
      h.byFieldKey⟩, h.seriesRequested, h.fieldsRequested, h.nextSeries, h.nextField⟩, ⟨id, id⟩⟩

theorem Steps.keeps (hr : r.Roomy) (hsteps : Steps r s t) (h : Valid r s.catalog) :
    Valid r t.catalog ∧ Extends s.catalog t.catalog := by
  induction hsteps with
  | refl => exact ⟨h, Extends.rfl⟩
  | tail _ hstep ih =>
    obtain ⟨hvalid, hext⟩ := hstep.1.keeps hr ih.1
    exact ⟨hvalid, ih.2.trans hext⟩

end Run

end Mts.Catalog
