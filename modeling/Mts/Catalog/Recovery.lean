import Mts.Catalog.Identity
import Mts.Catalog.Persist

/-! Opening a catalog again after failed appends. Every ID that a call has returned still stands for its series
or field, as long as each record is in the log wholly or not at all and no two records give one ID to different
series or fields. -/

set_option linter.dupNamespace false

namespace Mts.Catalog
open Lib Model List

variable {entry : WalEntry} {c c' c₁ c₂ : Catalog} {s : Series} {f : Field} {e : WalEntry}

def Catalog.Holds (c : Catalog) : WalEntry → Prop
  | .series s => c.series.get? s.id = some s
  | .field f => c.fields.get? f.id = some f

theorem Extends.holds (h : Extends c c') (he : c.Holds entry) : c'.Holds entry := by
  cases entry with
  | series s => exact h.series he
  | field f => exact h.fields he

theorem holds_register (c : Catalog) (entry : WalEntry) : (c.register entry).Holds entry := by
  cases entry with
  | series s =>
    change (c.applySeries s).series.get? s.id = some s
    rw [Catalog.applySeries_series, GoMap.get?_set_self]
  | field f => exact GoMap.get?_set_self _ _ _

section Replay

structure Coherent (all : List WalEntry) : Prop where
  series : ∀ {s s'}, .series s ∈ all → .series s' ∈ all →
    (s.id = s'.id → s = s') ∧ (identity s = identity s' → s.id = s'.id)
  fields : ∀ {f f'}, .field f ∈ all → .field f' ∈ all →
    (f.id = f'.id → f = f') ∧ (fieldName f = fieldName f' → f.id = f'.id)
  seriesRoom : ∀ {s}, .series s ∈ all → s.id.toNat + 1 < 2 ^ 64
  fieldRoom : ∀ {f}, .field f ∈ all → f.id.toNat + 1 < 2 ^ 32

structure Replayed (all : List WalEntry) (c : Catalog) : Prop extends c.Sound where
  seriesFrom : ∀ {id s}, c.series.get? id = some s → .series s ∈ all
  fieldsFrom : ∀ {id f}, c.fields.get? id = some f → .field f ∈ all

structure Replays (all : List WalEntry) (c c' : Catalog) : Prop where
  replayed : Replayed all c'
  ext : Extends c c'
  seriesLower : c.nextSeriesID.toNat ≤ c'.nextSeriesID.toNat
  fieldLower : c.nextFieldID.toNat ≤ c'.nextFieldID.toNat
  seriesUpper : ∀ {m}, c.nextSeriesID.toNat ≤ m → (∀ {s}, .series s ∈ all → s.id.toNat + 1 ≤ m) →
    c'.nextSeriesID.toNat ≤ m
  fieldUpper : ∀ {m}, c.nextFieldID.toNat ≤ m → (∀ {f}, .field f ∈ all → f.id.toNat + 1 ≤ m) →
    c'.nextFieldID.toNat ≤ m

variable {all : List WalEntry} {c : Catalog}

theorem Replays.refl (h : Replayed all c) : Replays all c c :=
  ⟨h, Extends.rfl, Nat.le_refl _, Nat.le_refl _, fun hm _ => hm, fun hm _ => hm⟩

theorem Replays.trans (h : Replays all c₁ c₂) (h' : Replays all c₂ c₃) : Replays all c₁ c₃ where
  replayed := h'.replayed
  ext := h.ext.trans h'.ext
  seriesLower := h.seriesLower.trans h'.seriesLower
  fieldLower := h.fieldLower.trans h'.fieldLower
  seriesUpper hm hall := h'.seriesUpper (h.seriesUpper hm hall) hall
  fieldUpper hm hall := h'.fieldUpper (h.fieldUpper hm hall) hall

theorem Replays.dirty (h : Replays all c c') (n : Nat) : Replays all c { c' with snapshotDirtyRecords := n } :=
  ⟨⟨h.replayed.raise (Nat.le_refl _) (Nat.le_refl _), h.replayed.seriesFrom, h.replayed.fieldsFrom⟩,
    ⟨h.ext.series, h.ext.fields⟩, h.seriesLower, h.fieldLower, h.seriesUpper, h.fieldUpper⟩

theorem replays_applySeries (hall : Coherent all) (h : Replayed all c) (hs : .series s ∈ all) :
    Replays all c (c.applySeries s) := by
  obtain ⟨hfields, -, -, hnext⟩ := c.applySeries_frame s
  have hid : ∀ {s'}, c.series.get? s.id = some s' → s' = s := fun {s'} hs' =>
    (hall.series (h.seriesFrom hs') hs).1 (h.ids hs').1
  have hroom := hall.seriesRoom hs
  have hget : ∀ {id s'}, (c.applySeries s).series.get? id = some s' ↔
      id = s.id ∧ s' = s ∨ c.series.get? id = some s' := by
    intro id s'
    rw [Catalog.applySeries_series]
    exact GoMap.get?_set_eq_some hid
  have hsucc := Catalog.toNat_succ64 hroom
  refine ⟨⟨h.applySeries hid ?_ hroom, ?_, ?_⟩, ⟨?_, ?_⟩, ?_, ?_, ?_, ?_⟩
  · intro id s' hs' hident
    rw [← (h.ids hs').1]
    exact (hall.series (h.seriesFrom hs') hs).2 hident
  · intro id s' hs'
    rcases hget.mp hs' with ⟨-, rfl⟩ | hs'
    · exact hs
    · exact h.seriesFrom hs'
  · intro id f hf
    exact h.fieldsFrom (hfields ▸ hf)
  · intro id s' hs'
    exact hget.mpr (.inr hs')
  · intro id f hf
    exact hfields ▸ hf
  · rw [Catalog.applySeries_nextSeriesID]
    split
    · next hle =>
      have := UInt64.le_iff_toNat_le.mp hle
      omega
    · exact Nat.le_refl _
  · exact Nat.le_of_eq (congrArg UInt32.toNat hnext.symm)
  · intro m hm hids
    rw [Catalog.applySeries_nextSeriesID]
    split
    · rw [hsucc]
      exact hids hs
    · exact hm
  · intro m hm _
    rwa [hnext]

theorem replays_applyField (hall : Coherent all) (h : Replayed all c) (hf : .field f ∈ all) :
    Replays all c (c.applyField f) := by
  have hid : ∀ {f'}, c.fields.get? f.id = some f' → f' = f := fun {f'} hf' =>
    (hall.fields (h.fieldsFrom hf') hf).1 (h.fieldIDs hf').1
  have hroom := hall.fieldRoom hf
  have hget : ∀ {id f'}, (c.applyField f).fields.get? id = some f' ↔
      id = f.id ∧ f' = f ∨ c.fields.get? id = some f' := GoMap.get?_set_eq_some hid
  have hsucc := Catalog.toNat_succ32 hroom
  refine ⟨⟨h.applyField hid ?_ hroom, h.seriesFrom, ?_⟩, ⟨id, ?_⟩, Nat.le_refl _, ?_, fun hm _ => hm, ?_⟩
  · intro id f' hf' hname
    rw [← (h.fieldIDs hf').1]
    exact (hall.fields (h.fieldsFrom hf') hf).2 hname
  · intro id f' hf'
    rcases hget.mp hf' with ⟨-, rfl⟩ | hf'
    · exact hf
    · exact h.fieldsFrom hf'
  · intro id f' hf'
    exact hget.mpr (.inr hf')
  · rw [Catalog.applyField_nextFieldID]
    split
    · next hle =>
      have := UInt32.le_iff_toNat_le.mp hle
      omega
    · exact Nat.le_refl _
  · intro m hm hids
    rw [Catalog.applyField_nextFieldID]
    split
    · rw [hsucc]
      exact hids hf
    · exact hm

theorem replays_applyEntry (hall : Coherent all) (h : Replayed all c) (he : entry ∈ all) :
    Replays all c (c.applyEntry entry) ∧ (c.applyEntry entry).Holds entry := by
  cases entry with
  | series s => exact ⟨replays_applySeries hall h he, holds_register c (.series s)⟩
  | field f => exact ⟨replays_applyField hall h he, holds_register c (.field f)⟩

theorem replays_foldl {entries : List WalEntry}
    (happly : ∀ c e, Replayed all c → e ∈ all → Replays all c (apply c e) ∧ (apply c e).Holds e)
    (h : Replayed all c) (hsub : ∀ e ∈ entries, e ∈ all) :
    Replays all c (entries.foldl apply c) ∧ ∀ e ∈ entries, (entries.foldl apply c).Holds e := by
  induction entries generalizing c with
  | nil => exact ⟨.refl h, by simp⟩
  | cons e entries ih =>
    obtain ⟨he, hes⟩ := forall_mem_cons.mp hsub
    obtain ⟨hstep, hholds⟩ := happly c e h he
    obtain ⟨hrest, hrests⟩ := ih hstep.replayed hes
    exact ⟨hstep.trans hrest, forall_mem_cons.mpr ⟨hrest.ext.holds hholds, hrests⟩⟩

theorem replays_replayEntry (hall : Coherent all) (h : Replayed all c) (he : entry ∈ all) :
    Replays all c (c.replayEntry entry) ∧ (c.replayEntry entry).Holds entry := by
  obtain ⟨hreplays, hholds⟩ := replays_applyEntry hall h he
  refine ⟨hreplays.dirty _, ?_⟩
  cases entry with
  | series s => exact hholds
  | field f => exact hholds

end Replay

section Entries

def WalEntry.SameID : WalEntry → WalEntry → Prop
  | .series s, .series s' => s.id = s'.id
  | .field f, .field f' => f.id = f'.id
  | _, _ => False

instance : DecidableRel WalEntry.SameID := fun e e' => by
  cases e <;> cases e' <;> unfold WalEntry.SameID <;> infer_instance

def snapshotEntries (snapshot : Option SnapshotData) : List WalEntry := (snapshot.map SnapshotData.entries).getD []

theorem foldl_applyEntry_entries (snap : SnapshotData) (c : Catalog) :
    snap.entries.foldl Catalog.applyEntry c =
      snap.fields.foldl Catalog.applyField (snap.series.foldl Catalog.applySeries c) := by
  rw [SnapshotData.entries, foldl_append, foldl_map, foldl_map]
  rfl

variable (crc : Bytes → UInt32)

def LogWrite.Complete (w : LogWrite) : Prop := w.bytes crc = recordBytes crc w.entry

instance (w : LogWrite) : Decidable (w.Complete crc) := inferInstanceAs (Decidable (_ = _))

def Disk.logEntries (d : Disk) : List WalEntry := (d.wal.filter fun w => w.Complete crc).map LogWrite.entry

def Disk.entries (d : Disk) : List WalEntry := snapshotEntries d.snapshot ++ d.logEntries crc

/-- A directory that can be opened: no record is torn, and no ID is given to two series or two fields. -/
@[mk_iff] structure Recoverable (d : Disk) : Prop where
  whole : ∀ w ∈ d.wal, w.bytes crc = [] ∨ w.Complete crc
  ids : ∀ e ∈ d.entries crc, ∀ e' ∈ d.entries crc, e.SameID e' → e = e'

instance (d : Disk) : Decidable (Recoverable crc d) := decidable_of_iff _ (recoverable_iff crc d).symm

variable {crc} {d : Disk}

theorem Recoverable.series (h : Recoverable crc d) (hs : .series s ∈ d.entries crc)
    (hs' : .series s' ∈ d.entries crc) (hid : s.id = s'.id) : s = s' := WalEntry.series.inj (h.ids _ hs _ hs' hid)

theorem Recoverable.fields (h : Recoverable crc d) (hf : .field f ∈ d.entries crc)
    (hf' : .field f' ∈ d.entries crc) (hid : f.id = f'.id) : f = f' := WalEntry.field.inj (h.ids _ hf _ hf' hid)

theorem Recoverable.walBytes (h : Recoverable crc d) :
    d.walBytes crc = (d.logEntries crc).flatMap (recordBytes crc) := by
  have hwhole := h.whole
  unfold Disk.walBytes Disk.logEntries
  generalize d.wal = wal at hwhole ⊢
  induction wal with
  | nil => rfl
  | cons w wal ih =>
    obtain ⟨hw, hwal⟩ := forall_mem_cons.mp hwhole
    by_cases hcomplete : w.Complete crc
    · rw [filter_cons_of_pos (by simpa using hcomplete), map_cons, flatMap_cons, flatMap_cons, ih hwal, hcomplete]
    · rw [filter_cons_of_neg (by simpa using hcomplete), flatMap_cons, ih hwal, hw.resolve_right hcomplete, nil_append]

theorem Disk.mem_entries_append :
    e ∈ (d.append entry written).entries crc ↔
      e ∈ d.entries crc ∨ e = entry ∧ LogWrite.Complete crc ⟨entry, written⟩ := by
  by_cases hcomplete : LogWrite.Complete crc ⟨entry, written⟩
  · simp [Disk.entries, Disk.logEntries, Disk.append, filter_append, hcomplete, or_assoc]
  · simp [Disk.entries, Disk.logEntries, Disk.append, filter_append, hcomplete]

theorem complete_whole (entry : WalEntry) : LogWrite.Complete crc ⟨entry, .whole⟩ := rfl

end Entries

section Sizes

def seriesSize (i : Identity) : Nat := (Wal.stringBytes i.1).length + (Wal.tagsBytes i.2).length

def fieldSize (n : FieldName) : Nat := (Wal.stringBytes n.1).length + (Wal.stringBytes n.2).length

/-- The strings of all requests together are shorter than `2^59` bytes, and the types of the fields are the four. -/
@[mk_iff] structure Requests.Storable (r : Requests) : Prop where
  sized : (r.series.dedup.map seriesSize).sum + (r.fields.dedup.map fieldSize).sum < 2 ^ 59
  supported : ∀ t ∈ r.types, validFieldType t

instance (r : Requests) : Decidable r.Storable := decidable_of_iff _ (r.storable_iff).symm

def WalEntry.Requested (r : Requests) : WalEntry → Prop
  | .series s => identity s ∈ r.series
  | .field f => fieldName f ∈ r.fields ∧ f.type ∈ r.types

variable {r : Requests} (h : r.Storable)

theorem two_le_seriesSize (i : Identity) : 2 ≤ seriesSize i := by
  have hm := length_pos_of_ne_nil (uvarint_ne_nil (UInt64.ofNat i.1.length))
  have htags := length_pos_of_ne_nil (uvarint_ne_nil (UInt64.ofNat i.2.entries.length))
  simp only [seriesSize, Wal.stringBytes, Wal.tagsBytes, length_append]
  omega

theorem two_le_fieldSize (n : FieldName) : 2 ≤ fieldSize n := by
  have hm := length_pos_of_ne_nil (uvarint_ne_nil (UInt64.ofNat n.1.length))
  have hname := length_pos_of_ne_nil (uvarint_ne_nil (UInt64.ofNat n.2.length))
  simp only [fieldSize, Wal.stringBytes, length_append]
  omega

theorem length_seriesBytes_le (s : Series) : (seriesBytes s).length ≤ 6 * seriesSize (identity s) := by
  have hid := length_uvarint_le s.id
  have hsize := two_le_seriesSize (identity s)
  simp only [seriesSize, identity] at hsize ⊢
  simp only [seriesBytes, length_append]
  omega

theorem length_fieldBytes_le (f : Field) : (fieldBytes f).length ≤ 7 * fieldSize (fieldName f) := by
  have hid := length_uvarint_le f.id.toUInt64
  have hsize := two_le_fieldSize (fieldName f)
  simp only [fieldSize, fieldName] at hsize ⊢
  simp only [fieldBytes, length_append, length_singleton]
  omega

include h

theorem Requests.Storable.series_lt (hi : i ∈ r.series) : seriesSize i < 2 ^ 59 := by
  have hle := single_le_sum (fun _ _ => Nat.zero_le _) _ (mem_map_of_mem (f := seriesSize) (mem_dedup.mpr hi))
  have := h.sized
  omega

theorem Requests.Storable.field_lt (hn : n ∈ r.fields) : fieldSize n < 2 ^ 59 := by
  have hle := single_le_sum (fun _ _ => Nat.zero_le _) _ (mem_map_of_mem (f := fieldSize) (mem_dedup.mpr hn))
  have := h.sized
  omega

theorem Requests.Storable.supported_entry (he : entry.Requested r) : entry.Supported := by
  cases entry with
  | series s => exact trivial
  | field f => exact h.supported _ he.2

theorem Requests.Storable.frame (he : entry.Requested r) : IntSized (walFrame crc entry).length := by
  have hpayload : (encodeWALEntry entry).length < 2 ^ 62 := by
    cases entry with
    | series s =>
      have hle := length_seriesBytes_le s
      have hlt := h.series_lt he
      simp only [encodeWALEntry, length_cons]
      omega
    | field f =>
      have hle := length_fieldBytes_le f
      have hlt := h.field_lt he.1
      simp only [encodeWALEntry, length_cons]
      omega
  have hlength := length_uvarint_le (UInt64.ofNat (encodeWALEntry entry).length)
  have hmagic : catalogMagic.length = 7 := rfl
  simp only [walFrame, marshalEnvelope, envelopeBody, length_append, length_leBytes, hmagic]
  exact Nat.lt_of_le_of_lt (by omega) (by decide : 2 ^ 62 + 64 < 2 ^ 63)

theorem Requests.Storable.snapshot (hvalid : Valid r c) : IntSized (snapshotPayload c.snapshotData).length := by
  have hseries : (c.snapshotData.series.flatMap _).length ≤ _ :=
    GoMap.length_flatMap_values_le (fun _ _ _ _ => hvalid.distinct) (fun _ _ => hvalid.seriesRequested)
      (perm_insertionSort _ _) length_seriesBytes_le
  have hfields : (c.snapshotData.fields.flatMap _).length ≤ _ :=
    GoMap.length_flatMap_values_le (fun _ _ _ _ => hvalid.fieldDistinct)
      (fun _ _ hf => (hvalid.fieldsRequested hf).1) (perm_insertionSort _ _) length_fieldBytes_le
  have hsized := h.sized
  have hnext := length_uvarint_le c.snapshotData.nextSeriesID
  have hnext' := length_uvarint_le c.snapshotData.nextFieldID.toUInt64
  have hcount := length_uvarint_le (UInt64.ofNat c.snapshotData.series.length)
  have hcount' := length_uvarint_le (UInt64.ofNat c.snapshotData.fields.length)
  simp only [snapshotPayload, length_append]
  exact Nat.lt_of_le_of_lt (by omega) (by decide : 7 * 2 ^ 59 + 64 < 2 ^ 63)

end Sizes

section Durable
variable (crc : Bytes → UInt32) (r : Requests)

def Catalog.Displaced (c : Catalog) : WalEntry → Prop
  | .series s => ∃ s', c.series.get? s.id = some s' ∧ s' ≠ s
  | .field f => ∃ f', c.fields.get? f.id = some f' ∧ f' ≠ f

/-- What the directory has of the catalog. An entry of a failed append is not in the catalog, and has its next
ID or one that was then given to another. -/
structure Durable (c : Catalog) (d : Disk) : Prop where
  stored : ∀ {entry}, c.Holds entry → entry ∈ d.entries crc
  placed : ∀ {entry}, entry ∈ d.entries crc → c.Holds entry ∨ Fresh r c entry ∨ c.Displaced entry
  positive : 1 ≤ c.nextSeriesID.toNat ∧ 1 ≤ c.nextFieldID.toNat
  snapshotNext : ∀ {snap}, d.snapshot = some snap →
    snap.nextSeriesID.toNat ≤ c.nextSeriesID.toNat ∧ snap.nextFieldID.toNat ≤ c.nextFieldID.toNat
  snapshotSized : ∀ {snap}, d.snapshot = some snap → IntSized (snapshotPayload snap).length

variable {crc r}

theorem durable_newCatalog (limits : Limits) : Durable crc r (newCatalog limits) ⟨none, [], none⟩ where
  stored {entry} h := by cases entry <;> simp [newCatalog, Catalog.Holds] at h
  placed h := by simp [Disk.entries, snapshotEntries, Disk.logEntries] at h
  positive := ⟨Nat.le_refl 1, Nat.le_refl 1⟩
  snapshotNext h := by cases h
  snapshotSized h := by cases h

theorem Extends.displaced (h : Extends c c') (he : c.Displaced entry) : c'.Displaced entry := by
  cases entry with
  | series s =>
    obtain ⟨s', hs', hne⟩ := he
    exact ⟨s', h.series hs', hne⟩
  | field f =>
    obtain ⟨f', hf', hne⟩ := he
    exact ⟨f', h.fields hf', hne⟩

variable {c : Catalog} {d : Disk}

theorem holds_of_register (h : (c.register entry).Holds e) : e = entry ∨ c.Holds e := by
  cases entry with
  | series s =>
    obtain ⟨hfields, -⟩ := c.applySeries_frame s
    cases e with
    | series s' =>
      change (c.applySeries s).series.get? s'.id = some s' at h
      rw [Catalog.applySeries_series, GoMap.get?_set] at h
      split at h
      · exact .inl (congrArg WalEntry.series (Option.some.inj h).symm)
      · exact .inr h
    | field f =>
      change (c.applySeries s).fields.get? f.id = some f at h
      rw [hfields] at h
      exact .inr h
  | field f =>
    cases e with
    | series s' => exact .inr h
    | field f' =>
      change (c.fields.set f.id f).get? f'.id = some f' at h
      rw [GoMap.get?_set] at h
      split at h
      · exact .inl (congrArg WalEntry.field (Option.some.inj h).symm)
      · exact .inr h

theorem placed_register (hentry : Fresh r c entry) (he : Fresh r c e) :
    (c.register entry).Holds e ∨ Fresh r (c.register entry) e ∨ (c.register entry).Displaced e := by
  by_cases heq : e = entry
  · exact .inl (heq ▸ holds_register c entry)
  have hholds := holds_register c entry
  cases entry with
  | series s =>
    obtain ⟨hfields, -, -, hnext⟩ := c.applySeries_frame s
    cases e with
    | series s' =>
      have hid : s'.id = s.id := he.1.trans hentry.1.symm
      refine .inr (.inr ⟨s, hid ▸ hholds, fun hs => heq (congrArg WalEntry.series hs.symm)⟩)
    | field f =>
      refine .inr (.inl ⟨he.1.trans hnext.symm, he.2.1, he.2.2.1, fun {id f'} hf' => ?_⟩)
      exact he.2.2.2 (hfields ▸ hf')
  | field f =>
    cases e with
    | series s => exact .inr (.inl he)
    | field f' =>
      have hid : f'.id = f.id := he.1.trans hentry.1.symm
      exact .inr (.inr ⟨f, hid ▸ hholds, fun hf => heq (congrArg WalEntry.field hf.symm)⟩)

theorem next_le_register (hr : r.Roomy) (h : Valid r c) (hentry : Fresh r c entry) :
    c.nextSeriesID.toNat ≤ (c.register entry).nextSeriesID.toNat ∧
      c.nextFieldID.toNat ≤ (c.register entry).nextFieldID.toNat := by
  cases entry with
  | series s =>
    obtain ⟨-, -, -, hnext⟩ := c.applySeries_frame s
    rw [Catalog.toNat_next_register_series hentry.1 (h.series_room hr hentry)]
    exact ⟨Nat.le_add_right _ _, Nat.le_of_eq (congrArg UInt32.toNat hnext.symm)⟩
  | field f =>
    rw [Catalog.toNat_next_register_field hentry.1 (h.field_room hr hentry)]
    exact ⟨Nat.le_refl _, Nat.le_add_right _ _⟩

theorem Durable.register (hr : r.Roomy) (hvalid : Valid r c) (h : Durable crc r c d) (hentry : Fresh r c entry) :
    Durable crc r (c.register entry) (d.append entry .whole) := by
  have hnext := next_le_register hr hvalid hentry
  have hext := hvalid.extends_register hentry
  refine ⟨fun he => ?_, fun he => ?_, ?_, fun hsnap => ?_, h.snapshotSized⟩
  · refine Disk.mem_entries_append.mpr ?_
    rcases holds_of_register he with rfl | he
    · exact .inr ⟨rfl, complete_whole _⟩
    · exact .inl (h.stored he)
  · rcases Disk.mem_entries_append.mp he with he | ⟨rfl, -⟩
    · rcases h.placed he with hholds | hfresh | hdisplaced
      · exact .inl (hext.holds hholds)
      · exact placed_register hentry hfresh
      · exact .inr (.inr (hext.displaced hdisplaced))
    · exact .inl (holds_register c _)
  · have := h.positive
    omega
  · have := h.snapshotNext hsnap
    omega

theorem Durable.failed (h : Durable crc r c d) (hentry : Fresh r c entry) (written : Written) :
    Durable crc r c (d.append entry written) where
  stored he := Disk.mem_entries_append.mpr (.inl (h.stored he))
  placed he := by
    rcases Disk.mem_entries_append.mp he with he | ⟨rfl, -⟩
    · exact h.placed he
    · exact .inr (.inl hentry)
  positive := h.positive
  snapshotNext := h.snapshotNext
  snapshotSized := h.snapshotSized

theorem mem_snapshotData_entries (hsound : c.Sound) : entry ∈ c.snapshotData.entries ↔ c.Holds entry := by
  cases entry with
  | series s =>
    simp only [SnapshotData.entries, Catalog.snapshotData, mem_append, mem_map, mem_insertionSort,
      WalEntry.series.injEq, exists_eq_right, reduceCtorEq, and_false, exists_false, or_false, GoMap.mem_values]
    refine ⟨?_, fun h => ⟨s.id, h⟩⟩
    rintro ⟨id, hid⟩
    exact (congrArg c.series.get? (hsound.ids hid).1).trans hid
  | field f =>
    simp only [SnapshotData.entries, Catalog.snapshotData, mem_append, mem_map, mem_insertionSort,
      WalEntry.field.injEq, exists_eq_right, reduceCtorEq, and_false, exists_false, false_or, GoMap.mem_values]
    refine ⟨?_, fun h => ⟨f.id, h⟩⟩
    rintro ⟨id, hid⟩
    exact (congrArg c.fields.get? (hsound.fieldIDs hid).1).trans hid

theorem Durable.snapshot (hstorable : r.Storable) (hvalid : Valid r c) (h : Durable crc r c d) (dirty : Nat) (hwal : wal = [] ∨ wal = d.wal) :
    Durable crc r { c with snapshotDirtyRecords := dirty } { d with snapshot := some c.snapshotData, wal := wal } := by
  have hmem : ∀ {entry}, entry ∈ Disk.entries crc { d with snapshot := some c.snapshotData, wal := wal } →
      c.Holds entry ∨ entry ∈ d.logEntries crc := by
    intro entry he
    rcases mem_append.mp he with he | he
    · exact .inl ((mem_snapshotData_entries hvalid.toSound).mp he)
    · rcases hwal with rfl | rfl
      · simp [Disk.logEntries] at he
      · exact .inr he
  refine ⟨fun {entry} he => mem_append_left _ ((mem_snapshotData_entries hvalid.toSound).mpr ?_),
    fun {entry} he => ?_, h.positive, fun hsnap => ?_, fun hsnap => ?_⟩
  · cases entry <;> exact he
  · rcases hmem he with hholds | hlog
    · cases entry <;> exact .inl hholds
    · have := h.placed (mem_append_right _ hlog)
      cases entry <;> exact this
  · cases hsnap
    exact ⟨Nat.le_refl _, Nat.le_refl _⟩
  · cases hsnap
    exact hstorable.snapshot hvalid

theorem Step.durable {s t : Store} (hr : r.Roomy) (hstorable : r.Storable) (hstep : Step r s t) (hvalid : Valid r s.catalog)
    (h : Durable crc r s.catalog s.disk) : Durable crc r t.catalog t.disk := by
  cases hstep with
  | registered entry hfresh hcatalog hdisk =>
    rw [hcatalog, hdisk]
    exact h.register hr hvalid hfresh
  | failed entry written hfresh hleaves hcatalog hdisk =>
    rw [hcatalog, hdisk]
    exact h.failed hfresh written
  | snapshotted wal dirty hwal hcatalog hdisk =>
    rw [hcatalog, hdisk]
    exact h.snapshot hstorable hvalid dirty hwal
  | metadata databases policies saved hcatalog hdisk =>
    rw [hcatalog, hdisk]
    refine ⟨fun {entry} he => h.stored (by cases entry <;> exact he), fun {entry} he => ?_, h.positive,
      h.snapshotNext, h.snapshotSized⟩
    have := h.placed he
    cases entry <;> exact this

theorem Steps.durable {s t : Store} (hr : r.Roomy) (hstorable : r.Storable) (hsteps : Steps r s t) (hvalid : Valid r s.catalog)
    (h : Durable crc r s.catalog s.disk) : Durable crc r t.catalog t.disk := by
  induction hsteps with
  | refl => exact h
  | tail hsteps hstep ih => exact hstep.1.durable hr hstorable (Steps.keeps hr hsteps hvalid).1 ih

end Durable

section Reopen
variable {crc : Bytes → UInt32} {r : Requests} {c : Catalog} {d : Disk}

variable (hvalid : Valid r c) (h : Durable crc r c d) (hrec : Recoverable crc d)
include hvalid h hrec

theorem Durable.holds_or_fresh (he : entry ∈ d.entries crc) : c.Holds entry ∨ Fresh r c entry := by
  rcases h.placed he with hholds | hfresh | hdisplaced
  · exact .inl hholds
  · exact .inr hfresh
  · cases entry with
    | series s =>
      obtain ⟨s', hs', hne⟩ := hdisplaced
      have hid := (hvalid.ids hs').1
      have hholds : c.Holds (.series s') := by
        change c.series.get? s'.id = some s'
        rw [hid, hs']
      exact absurd (hrec.series (h.stored hholds) he hid) hne
    | field f =>
      obtain ⟨f', hf', hne⟩ := hdisplaced
      have hid := (hvalid.fieldIDs hf').1
      have hholds : c.Holds (.field f') := by
        change c.fields.get? f'.id = some f'
        rw [hid, hf']
      exact absurd (hrec.fields (h.stored hholds) he hid) hne

theorem Durable.requested (he : entry ∈ d.entries crc) : entry.Requested r := by
  rcases h.holds_or_fresh hvalid hrec he with hholds | hfresh
  · cases entry with
    | series s => exact hvalid.seriesRequested hholds
    | field f => exact hvalid.fieldsRequested hholds
  · cases entry with
    | series s => exact hfresh.2.1
    | field f => exact ⟨hfresh.2.1, hfresh.2.2.1⟩

theorem Durable.series_le (he : .series s ∈ d.entries crc) : s.id.toNat ≤ c.nextSeriesID.toNat := by
  rcases h.holds_or_fresh hvalid hrec he with hholds | hfresh
  · exact Nat.le_of_lt (hvalid.ids hholds).2
  · exact Nat.le_of_eq (congrArg UInt64.toNat hfresh.1)

theorem Durable.field_le (he : .field f ∈ d.entries crc) : f.id.toNat ≤ c.nextFieldID.toNat := by
  rcases h.holds_or_fresh hvalid hrec he with hholds | hfresh
  · exact Nat.le_of_lt (hvalid.fieldIDs hholds).2
  · exact Nat.le_of_eq (congrArg UInt32.toNat hfresh.1)

theorem Durable.coherent (hr : r.Roomy) : Coherent (d.entries crc) := by
  refine ⟨fun {s s'} hs hs' => ⟨hrec.series hs hs', fun hident => ?_⟩,
    fun {f f'} hf hf' => ⟨hrec.fields hf hf', fun hname => ?_⟩, fun {s} hs => ?_, fun {f} hf => ?_⟩
  · rcases h.holds_or_fresh hvalid hrec hs with hholds | hfresh <;>
      rcases h.holds_or_fresh hvalid hrec hs' with hholds' | hfresh'
    · exact hvalid.distinct hholds hholds' hident
    · exact absurd hident (hfresh'.2.2 hholds)
    · exact absurd hident.symm (hfresh.2.2 hholds')
    · exact hfresh.1.trans hfresh'.1.symm
  · rcases h.holds_or_fresh hvalid hrec hf with hholds | hfresh <;>
      rcases h.holds_or_fresh hvalid hrec hf' with hholds' | hfresh'
    · exact hvalid.fieldDistinct hholds hholds' hname
    · exact absurd (Field.key_congr hname) (hfresh'.2.2.2 hholds)
    · exact absurd (Field.key_congr hname.symm) (hfresh.2.2.2 hholds')
    · exact hfresh.1.trans hfresh'.1.symm
  · rcases h.holds_or_fresh hvalid hrec hs with hholds | hfresh
    · have hlt := (hvalid.ids hholds).2
      have := c.nextSeriesID.toNat_lt
      omega
    · have hid := hfresh.1
      have := hvalid.series_room hr hfresh
      rw [hid]
      omega
  · rcases h.holds_or_fresh hvalid hrec hf with hholds | hfresh
    · have hlt := (hvalid.fieldIDs hholds).2
      have := c.nextFieldID.toNat_lt
      omega
    · have hid := hfresh.1
      have := hvalid.field_room hr hfresh
      rw [hid]
      omega

omit hvalid h hrec

def startCatalog (limits : Limits) : Option SnapshotData → Catalog
  | none => newCatalog limits
  | some snap => { newCatalog limits with
      nextSeriesID := if snap.nextSeriesID < 1 then 1 else snap.nextSeriesID
      nextFieldID := if snap.nextFieldID < 1 then 1 else snap.nextFieldID }

theorem loadSnapshot_eq (limits : Limits) (h : ∀ snap ∈ snapshot, snap.Readable) :
    loadSnapshot crc (newCatalog limits) snapshot =
      .ok ((snapshotEntries snapshot).foldl Catalog.applyEntry (startCatalog limits snapshot)) := by
  cases snapshot with
  | none => rfl
  | some snap =>
    rw [loadSnapshot, decodeSnapshot_encodeSnapshot (h snap rfl)]
    exact congrArg Except.ok (foldl_applyEntry_entries snap _).symm

def Disk.replayed (crc : Bytes → UInt32) (limits : Limits) (d : Disk) : Catalog :=
  (d.logEntries crc).foldl Catalog.replayEntry
    ((snapshotEntries d.snapshot).foldl Catalog.applyEntry (startCatalog limits d.snapshot))

theorem startCatalog_next (limits : Limits) (snapshot : Option SnapshotData) :
    (1 ≤ (startCatalog limits snapshot).nextSeriesID.toNat ∧ 1 ≤ (startCatalog limits snapshot).nextFieldID.toNat) ∧
      ∀ snap, snapshot = some snap →
        snap.nextSeriesID.toNat ≤ (startCatalog limits snapshot).nextSeriesID.toNat ∧
          snap.nextFieldID.toNat ≤ (startCatalog limits snapshot).nextFieldID.toNat := by
  cases snapshot with
  | none => exact ⟨⟨Nat.le_refl 1, Nat.le_refl 1⟩, by simp⟩
  | some snap =>
    have hseries : 1 ≤ (startCatalog limits (some snap)).nextSeriesID.toNat ∧
        snap.nextSeriesID.toNat ≤ (startCatalog limits (some snap)).nextSeriesID.toNat := by
      simp only [startCatalog, UInt64.lt_iff_toNat_lt, UInt64.toNat_one]
      split <;> simp <;> omega
    have hfield : 1 ≤ (startCatalog limits (some snap)).nextFieldID.toNat ∧
        snap.nextFieldID.toNat ≤ (startCatalog limits (some snap)).nextFieldID.toNat := by
      simp only [startCatalog, UInt32.lt_iff_toNat_lt, UInt32.toNat_one]
      split <;> simp <;> omega
    refine ⟨⟨hseries.1, hfield.1⟩, fun snap' heq => ?_⟩
    cases heq
    exact ⟨hseries.2, hfield.2⟩

theorem replayed_startCatalog (all : List WalEntry) (limits : Limits) (snapshot : Option SnapshotData) :
    Replayed all (startCatalog limits snapshot) := by
  obtain ⟨⟨hseries, hfield⟩, -⟩ := startCatalog_next limits snapshot
  cases snapshot with
  | none =>
    exact ⟨Catalog.sound_newCatalog limits, fun hs => by simp [startCatalog, newCatalog] at hs,
      fun hf => by simp [startCatalog, newCatalog] at hf⟩
  | some snap =>
    exact ⟨(Catalog.sound_newCatalog limits).raise hseries hfield,
      fun hs => by simp [startCatalog, newCatalog] at hs, fun hf => by simp [startCatalog, newCatalog] at hf⟩

include h in
theorem Durable.start_le (limits : Limits) :
    (startCatalog limits d.snapshot).nextSeriesID.toNat ≤ c.nextSeriesID.toNat ∧
      (startCatalog limits d.snapshot).nextFieldID.toNat ≤ c.nextFieldID.toNat := by
  have hpositive := h.positive
  cases hsnap : d.snapshot with
  | none => exact hpositive
  | some snap =>
    obtain ⟨hseries, hfield⟩ := h.snapshotNext hsnap
    simp only [startCatalog]
    constructor
    · split
      · exact hpositive.1
      · exact hseries
    · split
      · exact hpositive.2
      · exact hfield

include hvalid h hrec

theorem Durable.replayed_nextSeries (hreplays : Replays (d.entries crc) c₁ c₂)
    (hstart : c₁.nextSeriesID.toNat ≤ c.nextSeriesID.toNat) (hext : Extends c c₂)
    (hholds : ∀ e ∈ d.entries crc, c₂.Holds e) : c₂.nextSeriesID.toNat ≤ 2 * c₂.series.size + 1 := by
  have hnext := hvalid.nextSeries
  by_cases hpending : ∃ s, .series s ∈ d.entries crc ∧ ¬ c.Holds (.series s)
  · obtain ⟨s, hs, hnot⟩ := hpending
    have hfresh := (h.holds_or_fresh hvalid hrec hs).resolve_left hnot
    have hnone : c.series.get? s.id = none := hfresh.1 ▸ hvalid.series_next
    have hsize := GoMap.size_lt_of_extends (fun _ _ hs' => hext.series hs') hnone (hholds _ hs)
    have hupper := hreplays.seriesUpper (hstart.trans (Nat.le_succ _)) fun hs' =>
      Nat.succ_le_succ (h.series_le hvalid hrec hs')
    omega
  · have hsize := GoMap.size_le_of_extends fun _ _ hs' => hext.series hs'
    have hupper := hreplays.seriesUpper hstart fun {s} hs => by
      have hheld : c.Holds (.series s) := by
        by_contra hnot
        exact hpending ⟨s, hs, hnot⟩
      exact (hvalid.ids hheld).2
    omega

theorem Durable.replayed_nextField (hreplays : Replays (d.entries crc) c₁ c₂)
    (hstart : c₁.nextFieldID.toNat ≤ c.nextFieldID.toNat) (hext : Extends c c₂)
    (hholds : ∀ e ∈ d.entries crc, c₂.Holds e) : c₂.nextFieldID.toNat ≤ 2 * c₂.fields.size + 1 := by
  have hnext := hvalid.nextField
  by_cases hpending : ∃ f, .field f ∈ d.entries crc ∧ ¬ c.Holds (.field f)
  · obtain ⟨f, hf, hnot⟩ := hpending
    have hfresh := (h.holds_or_fresh hvalid hrec hf).resolve_left hnot
    have hnone : c.fields.get? f.id = none := hfresh.1 ▸ hvalid.field_next
    have hsize := GoMap.size_lt_of_extends (fun _ _ hf' => hext.fields hf') hnone (hholds _ hf)
    have hupper := hreplays.fieldUpper (hstart.trans (Nat.le_succ _)) fun hf' =>
      Nat.succ_le_succ (h.field_le hvalid hrec hf')
    omega
  · have hsize := GoMap.size_le_of_extends fun _ _ hf' => hext.fields hf'
    have hupper := hreplays.fieldUpper hstart fun {f} hf => by
      have hheld : c.Holds (.field f) := by
        by_contra hnot
        exact hpending ⟨f, hf, hnot⟩
      exact (hvalid.fieldIDs hheld).2
    omega

theorem Durable.supported (hstorable : r.Storable) : ∀ e ∈ d.entries crc, e.Supported :=
  fun _ he => hstorable.supported_entry (h.requested hvalid hrec he)

theorem Durable.readable (hstorable : r.Storable) : ∀ snap ∈ d.snapshot, snap.Readable := by
  intro snap hsnap
  refine ⟨h.snapshotSized hsnap, fun e he =>
    h.supported hvalid hrec hstorable e (mem_append_left _ ?_)⟩
  rw [Option.mem_def.mp hsnap]
  exact he

theorem Durable.openCatalog_eq (hstorable : r.Storable) (limits : Limits) :
    openCatalog crc limits d = .ok (loadMetadata (d.replayed crc limits) d.metadata) := by
  have hreplay : ∀ c, replayWAL crc (d.walBytes crc) c = .ok ((d.logEntries crc).foldl Catalog.replayEntry c) := by
    intro c
    rw [replayWAL, hrec.walBytes]
    refine replayLoop_records (fun e he => recordSized_of_frame (hstorable.frame ?_) ?_) (Nat.le_refl _) _
    · exact h.requested hvalid hrec (mem_append_right _ he)
    · exact h.supported hvalid hrec hstorable e (mem_append_right _ he)
  rw [openCatalog, loadSnapshot_eq limits (h.readable hvalid hrec hstorable)]
  change (do
    let c ← replayWAL crc (d.walBytes crc) _
    return loadMetadata c d.metadata : Except OpenError Catalog) = _
  rw [hreplay]
  rfl

theorem Durable.reopen (hr : r.Roomy) (hstorable : r.Storable) (limits : Limits) :
    ∃ c', openCatalog crc limits d = .ok c' ∧ Valid r c' ∧ Extends c c' ∧ Durable crc r c' d := by
  have hall := h.coherent hvalid hrec hr
  obtain ⟨hpositive, hsnapNext⟩ := startCatalog_next limits d.snapshot
  obtain ⟨hloaded, hsnapHolds⟩ := replays_foldl (fun _ _ hc he => replays_applyEntry hall hc he)
    (replayed_startCatalog (d.entries crc) limits d.snapshot)
    (fun e he => mem_append_left (d.logEntries crc) he : ∀ e ∈ snapshotEntries d.snapshot, e ∈ d.entries crc)
  obtain ⟨hlog, hlogHolds⟩ := replays_foldl (fun _ _ hc he => replays_replayEntry hall hc he) hloaded.replayed
    (fun e he => mem_append_right (snapshotEntries d.snapshot) he : ∀ e ∈ d.logEntries crc, e ∈ d.entries crc)
  have hopen := h.openCatalog_eq hvalid hrec hstorable limits
  rw [← Disk.replayed] at hlog hlogHolds
  generalize d.replayed crc limits = c₂ at hlog hlogHolds hopen
  have hreplays := hloaded.trans hlog
  have hholds : ∀ e ∈ d.entries crc, c₂.Holds e := by
    intro e he
    rcases mem_append.mp he with he | he
    · exact hlog.ext.holds (hsnapHolds e he)
    · exact hlogHolds e he
  have hext : Extends c c₂ := by
    refine ⟨fun {id s} hs => ?_, fun {id f} hf => ?_⟩
    · obtain ⟨rfl, -⟩ := hvalid.ids hs
      exact hholds (.series s) (h.stored hs)
    · obtain ⟨rfl, -⟩ := hvalid.fieldIDs hf
      exact hholds (.field f) (h.stored hf)
  obtain ⟨hstart, hstart'⟩ := h.start_le limits
  have hvalid₂ : Valid r c₂ :=
    ⟨hreplays.replayed.toSound, fun hs => h.requested hvalid hrec (hreplays.replayed.seriesFrom hs),
      fun hf => h.requested hvalid hrec (hreplays.replayed.fieldsFrom hf),
      h.replayed_nextSeries hvalid hrec hreplays hstart hext hholds,
      h.replayed_nextField hvalid hrec hreplays hstart' hext hholds⟩
  have hdurable₂ : Durable crc r c₂ d := by
    refine ⟨fun {entry} he => ?_, fun he => .inl (hholds _ he), ?_, fun {snap} hsnap => ?_, h.snapshotSized⟩
    · cases entry with
      | series s => exact hreplays.replayed.seriesFrom he
      | field f => exact hreplays.replayed.fieldsFrom he
    · exact ⟨hpositive.1.trans hreplays.seriesLower, hpositive.2.trans hreplays.fieldLower⟩
    · obtain ⟨hs, hf⟩ := hsnapNext snap hsnap
      exact ⟨hs.trans hreplays.seriesLower, hf.trans hreplays.fieldLower⟩
  refine ⟨_, hopen, ?_⟩
  cases hmetadata : d.metadata with
  | none => exact ⟨hvalid₂, hext, hdurable₂⟩
  | some m =>
    have hstep : Step r ⟨c₂, d, [], [], []⟩ ⟨loadMetadata c₂ (some m), d, [], [], []⟩ :=
      .metadata m.databases m.policies d.metadata rfl rfl
    obtain ⟨hvalid₃, hext₃⟩ := hstep.keeps hr hvalid₂
    exact ⟨hvalid₃, hext.trans hext₃, hstep.durable hr hstorable hvalid₂ hdurable₂⟩

end Reopen

section Actions
variable (crc : Bytes → UInt32)

/-- A call, or opening the directory again, after a crash or not. -/
inductive Action
  | call (call : Call)
  | reopen (limits : Limits) (appends : List AppendResult) (saves : List Bool) (checkpoints : List CheckpointResult)

def Action.requests : Action → Requests
  | .call c => c.requests
  | .reopen .. => ⟨[], [], []⟩

def requestsOf (actions : List Action) : Requests := Requests.concat (actions.map Action.requests)

def runActions : List Action → Store → Except OpenError (Store × List Resolution)
  | [], s => .ok (s, [])
  | .call c :: actions, s =>
    match c.resolve s with
    | .ok out t => do
      let (u, outs) ← runActions actions t
      return (u, out :: outs)
    | .error _ t => runActions actions t
  | .reopen limits appends saves checkpoints :: actions, s => do
    let c ← openCatalog crc limits s.disk
    runActions actions ⟨c, s.disk, appends, saves, checkpoints⟩

/-- Each time the directory is opened it is recoverable. -/
def Recovers : List Action → Store → Prop
  | [], _ => True
  | .call c :: actions, s =>
    match c.resolve s with
    | .ok _ t => Recovers actions t
    | .error _ t => Recovers actions t
  | .reopen limits appends saves checkpoints :: actions, s =>
    Recoverable crc s.disk ∧
      match openCatalog crc limits s.disk with
      | .ok c => Recovers actions ⟨c, s.disk, appends, saves, checkpoints⟩
      | .error _ => True

instance decidableRecovers : (actions : List Action) → (s : Store) → Decidable (Recovers crc actions s)
  | [], _ => inferInstanceAs (Decidable True)
  | .call _ :: actions, _ | .reopen .. :: actions, _ => by
    have := decidableRecovers actions
    unfold Recovers
    split <;> infer_instance

variable {crc} {r : Requests} {s : Store} (hr : r.Roomy) (hstorable : r.Storable)
include hr hstorable

theorem runActions_answers (hreq : (requestsOf actions).Within r) (hvalid : Valid r s.catalog)
    (hdurable : Durable crc r s.catalog s.disk) (hrec : Recovers crc actions s) :
    ∃ u outs, runActions crc actions s = .ok (u, outs) ∧ Valid r u.catalog ∧ Extends s.catalog u.catalog ∧
      ∀ out ∈ outs, u.catalog.Answers r out := by
  induction actions generalizing s with
  | nil => exact ⟨s, [], rfl, hvalid, Extends.rfl, by simp⟩
  | cons action actions ih =>
    obtain ⟨hfirst, hlater⟩ := hreq.of_concat_cons
    have hrest := fun {t : Store} => ih (s := t) hlater
    cases action with
    | call call =>
      have hcall := resolves_call hr hvalid call hfirst
      unfold Resolves Ends at hcall
      rw [Recovers] at hrec
      rw [runActions]
      cases hresolve : call.resolve s with
      | ok out t =>
        rw [hresolve] at hcall hrec
        obtain ⟨hsteps, hout⟩ := hcall
        obtain ⟨hvalid', hext⟩ := Steps.keeps hr hsteps hvalid
        obtain ⟨u, outs, hrun, hvalid'', hext', houts⟩ := hrest hvalid' (hsteps.durable hr hstorable hvalid hdurable) hrec
        refine ⟨u, out :: outs, ?_, hvalid'', hext.trans hext', forall_mem_cons.mpr ⟨?_, houts⟩⟩
        · dsimp only
          rw [hrun]
          rfl
        · exact hext'.answers hout
      | error e t =>
        rw [hresolve] at hcall hrec
        obtain ⟨hvalid', hext⟩ := Steps.keeps hr hcall hvalid
        obtain ⟨u, outs, hrun, hvalid'', hext', houts⟩ :=
          hrest hvalid' (Steps.durable hr hstorable hcall hvalid hdurable) hrec
        exact ⟨u, outs, hrun, hvalid'', hext.trans hext', houts⟩
    | reopen limits appends saves checkpoints =>
      obtain ⟨hdisk, hrec⟩ := hrec
      obtain ⟨c', hopen, hvalid', hext, hdurable'⟩ := Durable.reopen hvalid hdurable hdisk hr hstorable limits
      rw [hopen] at hrec
      obtain ⟨u, outs, hrun, hvalid'', hext', houts⟩ := hrest hvalid' hdurable' hrec
      refine ⟨u, outs, ?_, hvalid'', hext.trans hext', houts⟩
      rw [runActions, hopen]
      exact hrun

end Actions

/-- Every run from an empty directory goes through, and each returned ID stands for what it was asked for. -/
theorem returned_ids_survive (crc : Bytes → UInt32) (limits : Limits) (appends : List AppendResult)
    (saves : List Bool) (checkpoints : List CheckpointResult) (actions : List Action)
    (hr : (requestsOf actions).Separate) (hstorable : (requestsOf actions).Storable)
    (hrec : Recovers crc actions (newStore limits appends saves checkpoints)) :
    ∃ u outs, runActions crc actions (newStore limits appends saves checkpoints) = .ok (u, outs) ∧
      (∀ out ∈ outs, u.catalog.Denotes out) ∧ Identifies outs := by
  obtain ⟨u, outs, hrun, hvalid, -, houts⟩ := runActions_answers
    hr.toRoomy hstorable (Requests.within_refl _)
    (valid_newCatalog _ limits) (durable_newCatalog limits) hrec
  have hdenotes : ∀ out ∈ outs, u.catalog.Denotes out := fun out hout => (houts out hout).denotes hr.toDistinct
  exact ⟨u, outs, hrun, hdenotes, identifies_of_denotes hvalid.toSound hdenotes⟩

def hostPoint (host : GoString) : Point := samplePoint [109] (singleTag [97] host) [120]

def tornActions : List Action := [.call (.point (hostPoint [49])), .reopen unlimited [] [] []]

/-- The first record is written and its sync fails, then another host is resolved. -/
def syncFailedActions : List Action :=
  [.call (.point (hostPoint [49])), .call (.point (hostPoint [50])), .reopen unlimited [] [] [],
   .call (.point (hostPoint [49]))]

/-- A torn record makes the directory unreadable, and an ID that a failed append left in the log stands for two
series. -/
theorem failed_append_corrupts :
    (runActions crc32c tornActions (newStore unlimited [.short 3] [] [])).toOption.isNone ∧
      ((runActions crc32c syncFailedActions (newStore unlimited [.syncFailed] [] [])).toOption.map fun run =>
        (run.2.flatMap Resolution.series, (run.1.catalog.series.get? 1).map identity)) =
      some ([((hostPoint [50]).identity, 1), ((hostPoint [49]).identity, 1)],
        some (hostPoint [50]).identity) := by
  decide +kernel

/-- The first sync fails, the same host is resolved again, and the directory is opened. -/
def retriedActions : List Action :=
  [.call (.point (hostPoint [49])), .call (.point (hostPoint [49])), .reopen unlimited [.short 0] [] [],
   .call (.point (hostPoint [50])), .reopen unlimited [] [] [], .call (.points [hostPoint [50], hostPoint [49]])]

theorem returned_ids_survive_retry :
    Recovers crc32c retriedActions (newStore unlimited [.syncFailed] [] []) ∧
      ∃ u outs, runActions crc32c retriedActions (newStore unlimited [.syncFailed] [] []) = .ok (u, outs) ∧
        (∀ out ∈ outs, u.catalog.Denotes out) ∧ Identifies outs := by
  have hseparate : (requestsOf retriedActions).Separate :=
    ⟨⟨by decide +kernel, by decide +kernel⟩, ⟨by decide +kernel, by decide +kernel⟩⟩
  have hstorable : (requestsOf retriedActions).Storable := by decide +kernel
  have hrec : Recovers crc32c retriedActions (newStore unlimited [.syncFailed] [] []) := by decide +kernel
  exact ⟨hrec, returned_ids_survive crc32c unlimited [.syncFailed] [] [] retriedActions hseparate hstorable hrec⟩

end Mts.Catalog
