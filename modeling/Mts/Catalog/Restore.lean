import Mts.Catalog.Recovery

/-! A catalog that is opened after a close or a crash looks up what the catalog in memory did. The log holds the
records since the last snapshot and may hold older ones, whose replay changes nothing. -/

set_option linter.dupNamespace false

namespace Mts.Catalog
open Lib Model List

variable {k : GoString} {entries : List WalEntry} {s : Series} {t : Store}

section Lookups

structure SameLookups (c c' : Catalog) : Prop where
  series : ∀ id, c.series.get? id = c'.series.get? id
  fields : ∀ id, c.fields.get? id = c'.fields.get? id
  schema : ∀ m, c.schema m = c'.schema m
  seriesByKey : ∀ k, c.seriesByKey.get? k = c'.seriesByKey.get? k
  seriesByTag : ∀ k, c.seriesByTag.get? k = c'.seriesByTag.get? k
  fieldsByKey : ∀ k, c.fieldsByKey.get? k = c'.fieldsByKey.get? k

structure Catalog.Keyed (c : Catalog) : Prop where
  last : ∀ {k id id' s}, c.seriesByKey.get? k = some id → c.series.get? id' = some s →
    Catalog.key (identity s) = k → id'.toNat ≤ id.toNat
  fields : ∀ {id id' f f'}, c.fields.get? id = some f → c.fields.get? id' = some f' → f.key = f'.key → id = id'

variable {c c' : Catalog} (h : c.Sound) (hk : c.Keyed) (h' : c'.Sound) (hk' : c'.Keyed)
include h hk h' hk'

theorem seriesByKey_of_series (hseries : ∀ id, c.series.get? id = c'.series.get? id) {id : UInt64}
    (hid : c.seriesByKey.get? k = some id) : c'.seriesByKey.get? k = some id := by
  obtain ⟨s, hs, hkey⟩ := h.byKey hid
  obtain ⟨id', hid'⟩ := Option.isSome_iff_exists.mp (h'.keyed (hseries id ▸ hs))
  rw [hkey] at hid'
  obtain ⟨s', hs', hkey'⟩ := h'.byKey hid'
  have hle := hk'.last hid' (hseries id ▸ hs) hkey
  have hle' := hk.last hid (hseries id' ▸ hs') hkey'
  rw [hid', UInt64.toNat_inj.mp (Nat.le_antisymm hle' hle)]

omit hk in
theorem fieldsByKey_of_fields (hfields : ∀ id, c.fields.get? id = c'.fields.get? id) {id : UInt32}
    (hid : c.fieldsByKey.get? k = some id) : c'.fieldsByKey.get? k = some id := by
  obtain ⟨f, hf, hkey⟩ := h.byFieldKey hid
  obtain ⟨id', hid'⟩ := Option.isSome_iff_exists.mp (h'.fieldsKeyed (hfields id ▸ hf))
  rw [hkey] at hid'
  obtain ⟨f', hf', hkey'⟩ := h'.byFieldKey hid'
  rw [hid', hk'.fields hf' (hfields id ▸ hf) (hkey'.trans hkey.symm)]

theorem sameLookups_of_maps (hseries : ∀ id, c.series.get? id = c'.series.get? id)
    (hfields : ∀ id, c.fields.get? id = c'.fields.get? id) : SameLookups c c' where
  series := hseries
  fields := hfields
  schema m := (h.sorted m).eq_of_mem_iff (h'.sorted m) fun f => by rw [h.schema, h'.schema, hfields]
  seriesByKey k := by
    refine Option.ext fun id => ⟨seriesByKey_of_series h hk h' hk' hseries, ?_⟩
    exact seriesByKey_of_series h' hk' h hk fun id => (hseries id).symm
  seriesByTag := by
    rintro ⟨m, name, value⟩
    refine Option.ext fun id => ?_
    rw [h.byTag, h'.byTag, hseries]
  fieldsByKey k := by
    refine Option.ext fun id => ⟨fieldsByKey_of_fields h h' hk' hfields, ?_⟩
    exact fieldsByKey_of_fields h' h hk fun id => (hfields id).symm

end Lookups

section Order

variable {last : Series}

def seriesOf (entries : List WalEntry) : List Series :=
  entries.filterMap fun
    | .series s => some s
    | .field _ => none

theorem mem_seriesOf : s ∈ seriesOf entries ↔ .series s ∈ entries := by
  rw [seriesOf, mem_filterMap]
  constructor
  · rintro ⟨entry, hentry, hs⟩
    cases entry with
    | series s' => exact Option.some.inj hs ▸ hentry
    | field f => cases hs
  · intro hs
    exact ⟨_, hs, rfl⟩

theorem seriesOf_append (entries entries' : List WalEntry) :
    seriesOf (entries ++ entries') = seriesOf entries ++ seriesOf entries' := filterMap_append

def lastOf (k : GoString) (entries : List WalEntry) : Option Series :=
  ((seriesOf entries).filter fun s => Catalog.key (identity s) = k).getLast?

theorem lastOf_append (k : GoString) (entries entries' : List WalEntry) :
    lastOf k (entries ++ entries') = (lastOf k entries').or (lastOf k entries) := by
  rw [lastOf, seriesOf_append, filter_append, getLast?_append]
  rfl

theorem mem_of_lastOf (h : lastOf k entries = some s) : s ∈ seriesOf entries := mem_of_mem_filter (mem_of_getLast? h)

theorem le_lastOf (hsorted : (seriesOf entries).Pairwise (·.id.toNat ≤ ·.id.toNat))
    (hs : s ∈ seriesOf entries) (hkey : Catalog.key (identity s) = k) (hlast : lastOf k entries = some last) :
    s.id.toNat ≤ last.id.toNat := by
  have hfilter := hsorted.filter fun s => decide (Catalog.key (identity s) = k)
  have hmem : s ∈ (seriesOf entries).filter fun s => Catalog.key (identity s) = k :=
    mem_filter.mpr ⟨hs, decide_eq_true hkey⟩
  obtain ⟨before, heq⟩ := getLast?_eq_some_iff.mp hlast
  rw [heq] at hfilter hmem
  rcases mem_append.mp hmem with hmem | hmem
  · exact (pairwise_append.mp hfilter).2.2 s hmem last mem_cons_self
  · rw [mem_singleton.mp hmem]

theorem lastOf_isSome (hs : s ∈ seriesOf entries) (hkey : Catalog.key (identity s) = k) :
    ∃ last, lastOf k entries = some last := by
  have hmem : s ∈ (seriesOf entries).filter fun s => Catalog.key (identity s) = k :=
    mem_filter.mpr ⟨hs, decide_eq_true hkey⟩
  cases hlast : lastOf k entries with
  | some last => exact ⟨last, rfl⟩
  | none =>
    rw [lastOf, getLast?_eq_none_iff] at hlast
    rw [hlast] at hmem
    cases hmem

theorem le_lastOf_append (hsorted : (seriesOf entries).Pairwise (·.id.toNat ≤ ·.id.toNat))
    (hlog : (seriesOf log).Pairwise (·.id.toNat ≤ ·.id.toNat))
    (hclosed : ∀ s ∈ seriesOf log, ∀ s' ∈ seriesOf entries, s.id.toNat ≤ s'.id.toNat → s' ∈ seriesOf log)
    (hs : s ∈ seriesOf (entries ++ log)) (hkey : Catalog.key (identity s) = k)
    (hlast : lastOf k (entries ++ log) = some last) : s.id.toNat ≤ last.id.toNat := by
  rw [lastOf_append] at hlast
  rw [seriesOf_append, mem_append] at hs
  cases hlog' : lastOf k log with
  | some t =>
    rw [hlog', Option.some_or] at hlast
    obtain rfl := Option.some.inj hlast
    rcases hs with hs | hs
    · by_contra hlt
      have hmem := hclosed t (mem_of_lastOf hlog') s hs (by omega)
      exact hlt (le_lastOf hlog hmem hkey hlog')
    · exact le_lastOf hlog hs hkey hlog'
  | none =>
    rw [hlog', Option.none_or] at hlast
    rcases hs with hs | hs
    · exact le_lastOf hsorted hs hkey hlast
    · obtain ⟨t, ht⟩ := lastOf_isSome hs hkey
      rw [hlog'] at ht
      cases ht

theorem seriesByKey_foldl (happly : ∀ c e, (apply c e).seriesByKey = (c.applyEntry e).seriesByKey) (k : GoString)
    (entries : List WalEntry) (c : Catalog) :
    (entries.foldl apply c).seriesByKey.get? k =
      ((lastOf k entries).map Series.id).or (c.seriesByKey.get? k) := by
  induction entries generalizing c with
  | nil => rfl
  | cons entry entries ih =>
    rw [foldl_cons, ih, ← singleton_append, lastOf_append, happly]
    cases hlast : lastOf k entries with
    | some last => rfl
    | none =>
      cases entry with
      | series s =>
        change (c.applySeries s).seriesByKey.get? k = _
        rw [Catalog.applySeries_seriesByKey, GoMap.get?_set]
        by_cases hkey : k = Catalog.key (identity s)
        · simp [lastOf, seriesOf, hkey]
        · simp [lastOf, seriesOf, hkey, Ne.symm hkey]
      | field f => rfl

theorem seriesByKey_replayed (crc : Bytes → UInt32) (limits : Limits) (d : Disk) (k : GoString) :
    (d.replayed crc limits).seriesByKey.get? k = (lastOf k (d.entries crc)).map Series.id := by
  have hstart : (startCatalog limits d.snapshot).seriesByKey.get? k = none := by
    cases d.snapshot <;> exact GoMap.get?_empty k
  have hreplay : ∀ c e, (Catalog.replayEntry c e).seriesByKey = (c.applyEntry e).seriesByKey := fun _ _ => rfl
  rw [Disk.replayed, seriesByKey_foldl hreplay, seriesByKey_foldl fun _ _ => rfl, hstart, Disk.entries, lastOf_append]
  cases lastOf k (d.logEntries crc) <;> simp

end Order

section Orderly
variable (crc : Bytes → UInt32) {entry : WalEntry}

/-- The directory has exactly the entries of the catalog, and its log all of them after the first it has. -/
structure Orderly (c : Catalog) (d : Disk) : Prop where
  keyed : c.Keyed
  entries : ∀ {entry}, entry ∈ d.entries crc ↔ c.Holds entry
  whole : ∀ w ∈ d.wal, w.bytes crc = [] ∨ w.Complete crc
  snapshotSorted : (seriesOf (snapshotEntries d.snapshot)).Pairwise fun s s' => s.id.toNat ≤ s'.id.toNat
  logSorted : (seriesOf (d.logEntries crc)).Pairwise fun s s' => s.id.toNat ≤ s'.id.toNat
  logClosed : ∀ {s s'}, s ∈ seriesOf (d.logEntries crc) → c.Holds (.series s') → s.id.toNat ≤ s'.id.toNat →
    s' ∈ seriesOf (d.logEntries crc)

variable {crc} {r : Requests} {c : Catalog} {d : Disk}

theorem orderly_newCatalog (limits : Limits) : Orderly crc (newCatalog limits) ⟨none, [], none⟩ where
  keyed := ⟨fun h => by simp [newCatalog] at h, fun h => by simp [newCatalog] at h⟩
  entries {entry} := by cases entry <;> simp [newCatalog, Catalog.Holds, Disk.entries, snapshotEntries, Disk.logEntries]
  whole := by simp
  snapshotSorted := List.Pairwise.nil
  logSorted := List.Pairwise.nil
  logClosed h := by simp [Disk.logEntries, seriesOf] at h

theorem Catalog.Keyed.register (hvalid : Valid r c) (h : c.Keyed) (hfresh : Fresh r c entry) :
    (c.register entry).Keyed := by
  cases entry with
  | series s =>
    obtain ⟨hfields, -⟩ := c.applySeries_frame s
    refine ⟨fun {k id id' s'} hid hs' hkey => ?_, fun {id id' f f'} hf hf' => ?_⟩
    · change (c.applySeries s).seriesByKey.get? k = some id at hid
      change (c.applySeries s).series.get? id' = some s' at hs'
      rw [Catalog.applySeries_seriesByKey, GoMap.get?_set] at hid
      rw [Catalog.applySeries_series, GoMap.get?_set] at hs'
      split at hs'
      · next hsame =>
        cases hs'
        rw [if_pos hkey.symm] at hid
        rw [hsame, ← Option.some.inj hid]
      · have hlt := (hvalid.ids hs').2
        split at hid
        · rw [← Option.some.inj hid, hfresh.1]
          exact Nat.le_of_lt hlt
        · exact h.last hid hs' hkey
    · change (c.applySeries s).fields.get? id = some f at hf
      change (c.applySeries s).fields.get? id' = some f' at hf'
      rw [hfields] at hf hf'
      exact h.fields hf hf'
  | field f =>
    refine ⟨h.last, fun {id id' g g'} hg hg' hkey => ?_⟩
    change (c.fields.set f.id f).get? id = some g at hg
    change (c.fields.set f.id f).get? id' = some g' at hg'
    rw [GoMap.get?_set] at hg hg'
    split at hg <;> split at hg'
    · next hid hid' => exact hid.trans hid'.symm
    · exact absurd (Option.some.inj hg ▸ hkey).symm (hfresh.2.2.2 hg')
    · exact absurd (Option.some.inj hg' ▸ hkey) (hfresh.2.2.2 hg)
    · exact h.fields hg hg' hkey

theorem Disk.logEntries_append (d : Disk) (entry : WalEntry) (written : Written) :
    (d.append entry written).logEntries crc =
      d.logEntries crc ++ if LogWrite.Complete crc ⟨entry, written⟩ then [entry] else [] := by
  by_cases hcomplete : LogWrite.Complete crc ⟨entry, written⟩
  · simp [Disk.logEntries, Disk.append, filter_append, hcomplete]
  · simp [Disk.logEntries, Disk.append, filter_append, hcomplete]

theorem holds_register_iff (hvalid : Valid r c) (hfresh : Fresh r c entry) :
    (c.register entry).Holds e ↔ c.Holds e ∨ e = entry := by
  constructor
  · intro he
    exact (holds_of_register he).symm
  · rintro (he | rfl)
    · exact (hvalid.extends_register hfresh).holds he
    · exact holds_register c _

theorem Orderly.series_lt (hvalid : Valid r c) (h : Orderly crc c d) (hs : s ∈ seriesOf (d.logEntries crc)) :
    s.id.toNat < c.nextSeriesID.toNat := by
  have hholds := h.entries.mp (mem_append_right _ (mem_seriesOf.mp hs))
  exact (hvalid.ids hholds).2

theorem Orderly.register (hvalid : Valid r c) (h : Orderly crc c d) (hfresh : Fresh r c entry) :
    Orderly crc (c.register entry) (d.append entry .whole) := by
  have hlog : (d.append entry .whole).logEntries crc = d.logEntries crc ++ [entry] := by
    rw [Disk.logEntries_append, if_pos (complete_whole entry)]
  refine ⟨h.keyed.register hvalid hfresh, fun {e} => ?_, fun w hw => ?_, h.snapshotSorted, ?_, ?_⟩
  · rw [Disk.mem_entries_append, holds_register_iff hvalid hfresh, h.entries]
    simp [complete_whole]
  · rcases mem_append.mp hw with hw | hw
    · exact h.whole w hw
    · rw [mem_singleton.mp hw]
      exact .inr (complete_whole entry)
  · rw [hlog, seriesOf_append]
    cases entry with
    | series s =>
      refine pairwise_append.mpr ⟨h.logSorted, pairwise_singleton _ _, fun s' hs' t ht => ?_⟩
      rw [mem_singleton.mp ht, hfresh.1]
      exact Nat.le_of_lt (h.series_lt hvalid hs')
    | field f => simpa [seriesOf] using h.logSorted
  · intro s s' hs hs' hle
    rw [hlog, seriesOf_append, mem_append] at hs ⊢
    rcases (holds_register_iff hvalid hfresh).mp hs' with hold | rfl
    · rcases hs with hs | hs
      · exact .inl (h.logClosed hs hold hle)
      · -- the new series comes after all others
        obtain rfl := mem_singleton.mp (mem_seriesOf.mp hs)
        have hlt := (hvalid.ids hold).2
        rw [hfresh.1] at hle
        omega
    · exact .inr (mem_seriesOf.mpr mem_cons_self)

theorem Orderly.failed (h : Orderly crc c d) (entry : WalEntry) : Orderly crc c (d.append entry (.part 0)) := by
  have hcomplete : ¬ LogWrite.Complete crc ⟨entry, .part 0⟩ := fun heq => recordBytes_ne_nil entry heq.symm
  have hlog : (d.append entry (.part 0)).logEntries crc = d.logEntries crc := by
    rw [Disk.logEntries_append, if_neg hcomplete, append_nil]
  refine ⟨h.keyed, fun {e} => ?_, fun w hw => ?_, h.snapshotSorted, ?_, ?_⟩
  · rw [Disk.mem_entries_append, h.entries]
    simp [hcomplete]
  · rcases mem_append.mp hw with hw | hw
    · exact h.whole w hw
    · rw [mem_singleton.mp hw]
      exact .inl rfl
  · rw [hlog]
    exact h.logSorted
  · rw [hlog]
    exact h.logClosed

theorem seriesOf_snapshotData (c : Catalog) : seriesOf c.snapshotData.entries = c.snapshotData.series := by
  rw [SnapshotData.entries, seriesOf_append, seriesOf, seriesOf, filterMap_map, filterMap_map]
  have hfields : ∀ fields : List Field, fields.filterMap (fun _ => (none : Option Series)) = [] := by simp
  exact (congrArg₂ _ (filterMap_some) (hfields _)).trans (append_nil _)

theorem Orderly.snapshot (hvalid : Valid r c) (h : Orderly crc c d) (dirty : Nat) (hwal : wal = [] ∨ wal = d.wal) :
    Orderly crc { c with snapshotDirtyRecords := dirty } { d with snapshot := some c.snapshotData, wal := wal } := by
  have hholds : ∀ {entry : WalEntry}, Catalog.Holds { c with snapshotDirtyRecords := dirty } entry ↔ c.Holds entry := by
    intro entry
    cases entry <;> exact Iff.rfl
  have hlog : ∀ {entry}, entry ∈ Disk.logEntries crc { d with snapshot := some c.snapshotData, wal := wal } →
      c.Holds entry := by
    intro entry he
    rcases hwal with rfl | rfl
    · simp [Disk.logEntries] at he
    · exact h.entries.mp (mem_append_right _ he)
  have hsorted : c.snapshotData.series.Pairwise (·.id.toNat ≤ ·.id.toNat) :=
    (pairwise_insertionSort (·.id ≤ ·.id) c.series.values).imp UInt64.le_iff_toNat_le.mp
  refine ⟨⟨h.keyed.last, h.keyed.fields⟩, fun {entry} => ?_, fun w hw => ?_, ?_, ?_, ?_⟩
  · rw [hholds, ← mem_snapshotData_entries hvalid.toSound]
    refine ⟨fun he => ?_, fun he => mem_append_left _ he⟩
    rcases mem_append.mp he with he | he
    · exact he
    · exact (mem_snapshotData_entries hvalid.toSound).mpr (hlog he)
  · rcases hwal with rfl | rfl
    · cases hw
    · exact h.whole w hw
  · change (seriesOf c.snapshotData.entries).Pairwise _
    rw [seriesOf_snapshotData]
    exact hsorted
  · rcases hwal with rfl | rfl
    · exact List.Pairwise.nil
    · exact h.logSorted
  · rcases hwal with rfl | rfl
    · intro s s' hs
      simp [Disk.logEntries, seriesOf] at hs
    · intro s s' hs hs'
      exact h.logClosed hs (hholds.mp hs')

def Store.Clean (s : Store) : Prop := ∀ result ∈ s.appends, result = .ok ∨ result = .short 0

theorem Step.orderly {s : Store} (hstep : Step r s t) (hclean : s.Clean) (hvalid : Valid r s.catalog)
    (h : Orderly crc s.catalog s.disk) : Orderly crc t.catalog t.disk := by
  cases hstep with
  | registered entry hfresh hcatalog hdisk =>
    rw [hcatalog, hdisk]
    exact h.register hvalid hfresh
  | failed entry written hfresh hleaves hcatalog hdisk =>
    obtain ⟨result, hresult, hleaves⟩ := hleaves
    have hwritten : written = .part 0 := by
      rcases hclean result hresult with rfl | rfl
      · exact hleaves.elim
      · exact hleaves
    rw [hcatalog, hdisk, hwritten]
    exact h.failed entry
  | snapshotted wal dirty hwal hcatalog hdisk =>
    rw [hcatalog, hdisk]
    exact h.snapshot hvalid dirty hwal
  | metadata databases policies saved hcatalog hdisk =>
    rw [hcatalog, hdisk]
    refine ⟨⟨h.keyed.last, h.keyed.fields⟩, fun {entry} => ?_, h.whole, h.snapshotSorted, h.logSorted, h.logClosed⟩
    cases entry <;> exact h.entries

theorem Steps.orderly {s : Store} (hr : r.Roomy) (hsteps : Steps r s t) (hclean : s.Clean)
    (hvalid : Valid r s.catalog) (h : Orderly crc s.catalog s.disk) : Orderly crc t.catalog t.disk ∧ t.Clean := by
  induction hsteps with
  | refl => exact ⟨h, hclean⟩
  | tail hsteps hstep ih =>
    obtain ⟨horderly, hclean'⟩ := ih
    exact ⟨hstep.1.orderly hclean' (Steps.keeps hr hsteps hvalid).1 horderly,
      fun result hresult => hclean' result (hstep.2 hresult)⟩

theorem Orderly.recoverable (h : Orderly crc c d) : Recoverable crc d := by
  refine ⟨h.whole, fun e he e' he' hsame => ?_⟩
  have hholds := h.entries.mp he
  have hholds' := h.entries.mp he'
  cases e with
  | series s =>
    cases e' with
    | series s' =>
      change c.series.get? s.id = some s at hholds
      rw [hsame] at hholds
      rw [Option.some.inj (hholds.symm.trans hholds')]
    | field f => exact hsame.elim
  | field f =>
    cases e' with
    | series s => exact hsame.elim
    | field f' =>
      change c.fields.get? f.id = some f at hholds
      rw [hsame] at hholds
      rw [Option.some.inj (hholds.symm.trans hholds')]

theorem Orderly.reopen (hr : r.Roomy) (hstorable : r.Storable) (hvalid : Valid r c) (hdurable : Durable crc r c d)
    (h : Orderly crc c d) (limits : Limits) :
    ∃ c', openCatalog crc limits d = .ok c' ∧ SameLookups c c' ∧ Valid r c' ∧ Extends c c' ∧ Durable crc r c' d ∧
      Orderly crc c' d := by
  have hrec := h.recoverable
  obtain ⟨c', hopen, hvalid', hext, hdurable'⟩ := Durable.reopen hvalid hdurable hrec hr hstorable limits
  have hentries : ∀ {entry}, entry ∈ d.entries crc ↔ c'.Holds entry :=
    ⟨fun he => hext.holds (h.entries.mp he), hdurable'.stored⟩
  have hseries : ∀ id, c.series.get? id = c'.series.get? id := by
    refine fun id => Option.ext fun s => ⟨hext.series, fun hs => ?_⟩
    obtain ⟨rfl, -⟩ := hvalid'.ids hs
    exact h.entries.mp (hentries.mpr (show c'.Holds (.series s) from hs))
  have hfields : ∀ id, c.fields.get? id = c'.fields.get? id := by
    refine fun id => Option.ext fun f => ⟨hext.fields, fun hf => ?_⟩
    obtain ⟨rfl, -⟩ := hvalid'.fieldIDs hf
    exact h.entries.mp (hentries.mpr (show c'.Holds (.field f) from hf))
  have hbyKey : ∀ k, c'.seriesByKey.get? k = (lastOf k (d.entries crc)).map Series.id := by
    intro k
    rw [Durable.openCatalog_eq hvalid hdurable hrec hstorable limits] at hopen
    rw [← Except.ok.inj hopen, ← seriesByKey_replayed crc limits d k]
    cases d.metadata <;> rfl
  have hkeyed : c'.Keyed := by
    refine ⟨fun {k id id' s} hid hs hkey => ?_, fun {id id' f f'} hf hf' => ?_⟩
    · rw [hbyKey] at hid
      obtain ⟨last, hlast, rfl⟩ := Option.map_eq_some_iff.mp hid
      obtain ⟨rfl, -⟩ := hvalid'.ids hs
      have hmem : s ∈ seriesOf (d.entries crc) := mem_seriesOf.mpr (hentries.mpr (show c'.Holds (.series s) from hs))
      refine le_lastOf_append h.snapshotSorted h.logSorted (fun t ht t' ht' => ?_) hmem hkey hlast
      exact h.logClosed ht (h.entries.mp (mem_append_left _ (mem_seriesOf.mp ht')))
    · rw [← hfields] at hf hf'
      exact h.keyed.fields hf hf'
  refine ⟨c', hopen, sameLookups_of_maps hvalid.toSound h.keyed hvalid'.toSound hkeyed hseries hfields, hvalid', hext,
    hdurable', hkeyed, hentries, h.whole, h.snapshotSorted, h.logSorted, fun {s s'} hs hs' hle => ?_⟩
  exact h.logClosed hs (h.entries.mp (hentries.mpr hs')) hle

end Orderly

section Events

variable {outs : List Resolution}

/-- How a process ends: between two calls, in `Close` or in a call. A file operation is done or not done. -/
inductive Stop
  | crashed
  | closed (checkpoint : CheckpointResult)
  | interrupted (call : Call) (appends saves : List Bool) (checkpoints : List CheckpointResult)

inductive Event
  | call (call : Call)
  | reopen (stop : Stop) (limits : Limits)

def Event.requests : Event → Requests
  | .call c => c.requests
  | .reopen (.interrupted c ..) _ => c.requests
  | .reopen .. => ⟨[], [], []⟩

def eventRequests (events : List Event) : Requests := Requests.concat (events.map Event.requests)

/-- `Close` before it closes the log file. -/
def closeCatalog : CatalogM Unit := checkpointSnapshotLocked true

def stateOf {α : Type} : EStateM.Result CatalogError Store α → Store
  | .ok _ s => s
  | .error _ s => s

def Stop.leave (s : Store) : Stop → Store
  | .crashed => s
  | .closed checkpoint => stateOf (closeCatalog { s with checkpoints := [checkpoint] })
  | .interrupted call appends saves checkpoints =>
    stateOf (call.resolve { s with
      appends := appends.map fun done => if done then .ok else .short 0
      saves := saves
      checkpoints := checkpoints })

/-- A call that gives an ID to a series or field without one takes an ID that no call has returned. -/
structure FreshIDs (c c' : Catalog) (out : Resolution) (outs : List Resolution) : Prop where
  series : ∀ x ∈ out.series, (∀ id, ¬ c.Names x.1 id) → c'.Names x.1 x.2 →
    ∀ old ∈ outs, ∀ y ∈ old.series, y.2 ≠ x.2
  fields : ∀ x ∈ out.fields, (∀ id, ¬ c.NamesField x.1 id) → c'.NamesField x.1 x.2 →
    ∀ old ∈ outs, ∀ y ∈ old.fields, y.2 ≠ x.2

/-- Each time the directory is opened it gives back the lookups of the catalog in memory, and no call takes an
ID that was returned before. -/
def Restores (crc : Bytes → UInt32) : List Event → Store → List Resolution → Prop
  | [], _, _ => True
  | .call call :: events, s, outs =>
    match call.resolve s with
    | .ok out t => FreshIDs s.catalog t.catalog out outs ∧ Restores crc events t (out :: outs)
    | .error _ t => Restores crc events t outs
  | .reopen stop limits :: events, s, outs =>
    match openCatalog crc limits (stop.leave s).disk with
    | .ok c => SameLookups (stop.leave s).catalog c ∧ Restores crc events ⟨c, (stop.leave s).disk, [], [], []⟩ outs
    | .error _ => False

variable {crc : Bytes → UInt32} {r : Requests}

theorem freshIDs_of_answers (hext : Extends c c')
    (houts : ∀ old ∈ outs, c.Answers r old) : FreshIDs c c' out outs := by
  constructor
  · intro x hx hnew hnames old hold y hy heq
    obtain ⟨s, hs, -⟩ := (houts old hold).series y hy
    obtain ⟨s', hs', hident⟩ := hnames
    have hsame : s = s' := by
      rw [← heq] at hs'
      exact Option.some.inj ((hext.series hs).symm.trans hs')
    exact hnew y.2 ⟨s, hs, hsame ▸ hident⟩
  · intro x hx hnew hnames old hold y hy heq
    obtain ⟨f, hf, -⟩ := (houts old hold).fields y hy
    obtain ⟨f', hf', hname⟩ := hnames
    have hsame : f = f' := by
      rw [← heq] at hf'
      exact Option.some.inj ((hext.fields hf).symm.trans hf')
    exact hnew y.2 ⟨f, hf, hsame ▸ hname⟩

theorem steps_stateOf {α : Type} {x : CatalogM α} {s : Store} {Q : α → Catalog → Prop} (h : Resolves r x s Q) :
    Steps r s (stateOf (x s)) := by
  unfold Resolves Ends at h
  cases hx : x s with
  | ok a t =>
    rw [hx] at h
    exact h.1
  | error e t =>
    rw [hx] at h
    exact h

structure Restorable (crc : Bytes → UInt32) (r : Requests) (s : Store) : Prop where
  valid : Valid r s.catalog
  durable : Durable crc r s.catalog s.disk
  orderly : Orderly crc s.catalog s.disk
  clean : s.Clean

section
variable {s : Store} (hr : r.Roomy) (hstorable : r.Storable)
include hr hstorable

theorem Restorable.steps (h : Restorable crc r s) (hsteps : Steps r s t) : Restorable crc r t := by
  obtain ⟨horderly, hclean⟩ := hsteps.orderly hr h.clean h.valid h.orderly
  exact ⟨(hsteps.keeps hr h.valid).1, hsteps.durable hr hstorable h.valid h.durable, horderly, hclean⟩

theorem Restorable.leave (h : Restorable crc r s) {stop : Stop}
    (hreq : (Event.requests (.reopen stop limits)).Within r) :
    Restorable crc r (stop.leave s) ∧ Extends s.catalog (stop.leave s).catalog := by
  cases stop with
  | crashed => exact ⟨h, Extends.rfl⟩
  | closed checkpoint =>
    have hstart : Restorable crc r { s with checkpoints := [checkpoint] } := ⟨h.valid, h.durable, h.orderly, h.clean⟩
    have hsteps := steps_stateOf (resolves_checkpoint (r := r) (s := { s with checkpoints := [checkpoint] }) true)
    exact ⟨hstart.steps hr hstorable hsteps, (hsteps.keeps hr hstart.valid).2⟩
  | interrupted call appends saves checkpoints =>
    have hstart : Restorable crc r { s with
        appends := appends.map fun done => if done then .ok else .short 0
        saves := saves
        checkpoints := checkpoints } := by
      refine ⟨h.valid, h.durable, h.orderly, fun result hresult => ?_⟩
      obtain ⟨done, -, rfl⟩ := mem_map.mp hresult
      cases done
      · exact .inr rfl
      · exact .inl rfl
    have hsteps := steps_stateOf (resolves_call hr hstart.valid call hreq)
    exact ⟨hstart.steps hr hstorable hsteps, (hsteps.keeps hr hstart.valid).2⟩

theorem restores_of_restorable {events : List Event} (hreq : (eventRequests events).Within r)
    (h : Restorable crc r s) (houts : ∀ old ∈ outs, s.catalog.Answers r old) : Restores crc events s outs := by
  induction events generalizing s outs with
  | nil => exact trivial
  | cons event events ih =>
    obtain ⟨hfirst, hlater⟩ := hreq.of_concat_cons
    cases event with
    | call call =>
      have hcall := resolves_call hr h.valid call hfirst
      have hsteps := steps_stateOf hcall
      unfold Resolves Ends at hcall
      rw [Restores]
      cases hresolve : call.resolve s with
      | ok out t =>
        rw [hresolve] at hcall hsteps
        have hext := (hsteps.keeps hr h.valid).2
        refine ⟨freshIDs_of_answers hext houts, ih hlater (h.steps hr hstorable hsteps) ?_⟩
        exact forall_mem_cons.mpr ⟨hcall.2, fun old hold => hext.answers (houts old hold)⟩
      | error e t =>
        rw [hresolve] at hsteps
        have hext := (hsteps.keeps hr h.valid).2
        exact ih hlater (h.steps hr hstorable hsteps) fun old hold => hext.answers (houts old hold)
    | reopen stop limits =>
      obtain ⟨hleft, hext⟩ := h.leave hr hstorable hfirst
      obtain ⟨c', hopen, hsame, hvalid, hext', hdurable, horderly⟩ :=
        hleft.orderly.reopen hr hstorable hleft.valid hleft.durable limits
      rw [Restores, hopen]
      refine ⟨hsame, ih hlater ⟨hvalid, hdurable, horderly, nofun⟩ fun old hold => ?_⟩
      exact hext'.answers (hext.answers (houts old hold))

end

end Events

/-- Every run from an empty directory. -/
theorem restores_of_storable (crc : Bytes → UInt32) (limits : Limits) (events : List Event)
    (hr : (eventRequests events).Roomy) (hstorable : (eventRequests events).Storable) :
    Restores crc events (newStore limits [] [] []) [] :=
  restores_of_restorable hr hstorable (Requests.within_refl _)
    ⟨valid_newCatalog _ limits, durable_newCatalog limits, orderly_newCatalog limits,
      nofun⟩ nofun

def untypedPoint : Point :=
  ⟨[100], [112], [109], TagMap.empty, 0, ⟨[([120], ⟨0, 0, 0, [], false⟩)], pairwise_singleton _ _⟩⟩

def untypedEvents : List Event := [.call (.point untypedPoint), .reopen .crashed unlimited]

/-- The field is registered, and the directory cannot be opened any more. -/
theorem untypedField_not_restored :
    (eventRequests untypedEvents).Roomy ∧ ¬ Restores crc32c untypedEvents (newStore unlimited [] [] []) [] := by
  refine ⟨⟨by decide +kernel, by decide +kernel⟩, fun h => ?_⟩
  have hresolve : (match Call.resolve (.point untypedPoint) (newStore unlimited [] [] []) with
    | .ok _ t => match openCatalog crc32c unlimited t.disk with
      | .ok _ => false
      | .error _ => true
    | .error _ _ => false) = true := by decide +kernel
  rw [untypedEvents, Restores] at h
  split at hresolve
  · next out t heq =>
    rw [heq] at h
    have hreopen := h.2
    change (match openCatalog crc32c unlimited t.disk with
      | .ok c => _
      | .error _ => False) at hreopen
    split at hresolve
    · cases hresolve
    · next e hopen =>
      rw [hopen] at hreopen
      exact hreopen
  · cases hresolve

/-- The process dies in `Close` after the snapshot is written, then in a call before its second record. -/
def stoppedEvents : List Event :=
  [.call (.point (hostPoint [49])), .reopen (.closed .truncateFailed) unlimited,
   .call (.points [hostPoint [50], hostPoint [49]]),
   .reopen (.interrupted (.points [hostPoint [51], hostPoint [52]]) [true, false] [] []) unlimited,
   .call (.point (hostPoint [52])), .reopen (.closed .ok) unlimited]

theorem restores_stoppedEvents :
    ((eventRequests stoppedEvents).Roomy ∧ (eventRequests stoppedEvents).Storable) ∧
      Restores crc32c stoppedEvents (newStore unlimited [] [] []) [] := by
  have hr : (eventRequests stoppedEvents).Roomy := ⟨by decide +kernel, by decide +kernel⟩
  have hstorable : (eventRequests stoppedEvents).Storable := by decide +kernel
  exact ⟨⟨hr, hstorable⟩, restores_of_storable crc32c unlimited stoppedEvents hr hstorable⟩

end Mts.Catalog
