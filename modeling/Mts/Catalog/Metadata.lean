import Mts.Catalog.Restore

/-! Databases and retention policies over failed calls, `catalog/management.go` and the part of the resolve
functions that notes names. A call notes the names of its points in memory first and saves the metadata file
last, and only if it found a name that was not noted yet. -/

set_option linter.dupNamespace false

namespace Mts.Catalog
open Lib Model List

section Management

def Catalog.addDatabase (c : Catalog) (name : GoString) : Catalog :=
  if c.databases.contains name then c else { c with databases := c.databases ++ [name] }

def createDatabase (name : GoString) : CatalogM Unit := do
  if isBlank name then throw .databaseNameEmpty
  else
    modifyCatalog fun c => c.addDatabase name
    saveMetadataLocked

def createRetentionPolicy (database : GoString) (policy : RetentionPolicy) : CatalogM Unit := do
  if isBlank database || isBlank policy.name then throw .policyNamesRequired
  else
    modifyCatalog fun c =>
      let c := c.addDatabase database
      { c with policies := c.policies.set (database, policy.name) policy }
    saveMetadataLocked

abbrev Name := GoString × GoString

def Point.policyName (p : Point) : Name := (p.database, p.retentionPolicy)

def TypedBatch.policyName (b : TypedBatch) : Name := (b.database, b.retentionPolicy)

inductive MetadataCall
  | resolve (call : Call)
  | createDatabase (name : GoString)
  | createRetentionPolicy (database : GoString) (policy : RetentionPolicy)

namespace MetadataCall

def run : MetadataCall → CatalogM Unit
  | .resolve c => do
    let _ ← c.resolve
  | .createDatabase name => Catalog.createDatabase name
  | .createRetentionPolicy database policy => Catalog.createRetentionPolicy database policy

def requests : MetadataCall → Requests
  | .resolve c => c.requests
  | _ => ⟨[], [], []⟩

def names : MetadataCall → List Name
  | .resolve (.points ps) => ps.map Point.policyName
  | .resolve (.point p) => [p.policyName]
  | .resolve (.typed b) => [b.policyName]
  | .createDatabase name => [(name, [])]
  | .createRetentionPolicy database policy => [(database, policy.name)]

/-- The call gets as far as its names: it is not rejected, and a typed batch has rows. -/
def reaches : MetadataCall → Bool
  | .resolve (.points ps) => (ps.mapM validatePoint).isOk
  | .resolve (.point p) => (validatePoint p).isOk
  | .resolve (.typed b) => !b.timestamps.isEmpty && (validateTypedBatch b b.timestamps.length).isOk
  | .createDatabase name => !isBlank name
  | .createRetentionPolicy database policy => !isBlank database && !isBlank policy.name

def noted (call : MetadataCall) : List Name := if call.reaches then call.names else []

end MetadataCall

end Management

section Names

def Metadata.Has (m : Metadata) (n : Name) : Prop :=
  isBlank n.1 = true ∨ (n.1 ∈ m.databases ∧ (isBlank n.2 = true ∨ (m.policies.get? n).isSome = true))

instance (m : Metadata) (n : Name) : Decidable (m.Has n) :=
  inferInstanceAs (Decidable (isBlank n.1 = true ∨ (n.1 ∈ m.databases ∧ _)))

def Metadata.empty : Metadata := ⟨[], ∅⟩

def Catalog.metadata (c : Catalog) : Metadata := ⟨c.databases, c.policies⟩

def Disk.savedMetadata (d : Disk) : Metadata := d.metadata.getD Metadata.empty

variable {c : Catalog} {n : Name} {database policy : GoString}

theorem Metadata.Has.of_subset {m m' : Metadata} (hdatabases : ∀ name ∈ m.databases, name ∈ m'.databases)
    (hpolicies : ∀ k, (m.policies.get? k).isSome = true → (m'.policies.get? k).isSome = true) (h : m.Has n) :
    m'.Has n := by
  rcases h with h | ⟨hname, hpolicy⟩
  · exact .inl h
  · refine .inr ⟨hdatabases _ hname, ?_⟩
    rcases hpolicy with h | h
    · exact .inl h
    · exact .inr (hpolicies _ h)

theorem isSome_get?_set {κ ν : Type} [DecidableEq κ] {m : GoMap κ ν} {k k' : κ} {v : ν}
    (h : (m.get? k').isSome = true) : ((m.set k v).get? k').isSome = true := by
  rw [GoMap.get?_set]
  split
  · rfl
  · exact h

theorem Catalog.mem_addDatabase :
    name ∈ (c.addDatabase database).databases ↔ name = database ∨ name ∈ c.databases := by
  unfold Catalog.addDatabase
  split
  · next h =>
    refine ⟨Or.inr, ?_⟩
    rintro (rfl | h')
    · exact contains_iff_mem.mp h
    · exact h'
  · change name ∈ c.databases ++ [database] ↔ _
    rw [mem_append, mem_singleton, or_comm]

theorem Catalog.addDatabase_policies : (c.addDatabase database).policies = c.policies := by
  unfold Catalog.addDatabase
  split <;> rfl

theorem Catalog.addDatabase_of_mem (h : database ∈ c.databases) : c.addDatabase database = c :=
  if_pos (contains_iff_mem.mpr h)

theorem Catalog.has_addDatabase (database : GoString) (h : c.metadata.Has n) : (c.addDatabase database).metadata.Has n := by
  refine h.of_subset (fun name hname => Catalog.mem_addDatabase.mpr (.inr hname)) fun k hk => ?_
  change ((c.addDatabase database).policies.get? k).isSome = true
  rw [Catalog.addDatabase_policies]
  exact hk

theorem Catalog.has_setPolicy {v : RetentionPolicy} {k : Name} (h : c.metadata.Has n) :
    Metadata.Has ⟨c.databases, c.policies.set k v⟩ n := by
  refine Metadata.Has.of_subset (m := c.metadata) (fun _ hname => hname) (fun _ hk => ?_) h
  exact isSome_get?_set hk

theorem Catalog.ensureMetadata_of_not_blank (h : isBlank database = false) : c.ensureMetadata database policy =
    if isBlank policy then (c.addDatabase database, !c.databases.contains database)
    else
      match c.policies.get? (database, policy) with
      | some _ => (c.addDatabase database, !c.databases.contains database)
      | none => ({ c.addDatabase database with policies := c.policies.set (database, policy) ⟨policy, 0⟩ }, true) := by
  unfold Catalog.ensureMetadata Catalog.addDatabase
  rw [h]
  cases c.databases.contains database <;> rfl

/-- What `ensureMetadata` does with a name that the catalog has and with one that it has not. -/
structure Catalog.Notes (c : Catalog) (n : Name) (c' : Catalog) (changed : Bool) : Prop where
  has : c'.metadata.Has n
  keeps : ∀ n', c.metadata.Has n' → c'.metadata.Has n'
  unchanged : changed = false → c' = c
  known : c.metadata.Has n → changed = false

theorem Catalog.notes_addDatabase (policy : GoString) (hblank : isBlank database = false)
    (hpolicy : isBlank policy = true ∨ (c.policies.get? (database, policy)).isSome = true) :
    c.Notes (database, policy) (c.addDatabase database) (!c.databases.contains database) where
  has := by
    refine .inr ⟨Catalog.mem_addDatabase.mpr (.inl rfl), ?_⟩
    change _ ∨ ((c.addDatabase database).policies.get? _).isSome = true
    rw [Catalog.addDatabase_policies]
    exact hpolicy
  keeps := fun _ => Catalog.has_addDatabase database
  unchanged := by
    intro h
    rw [Bool.not_eq_false'] at h
    exact Catalog.addDatabase_of_mem (contains_iff_mem.mp h)
  known := by
    rintro (h | ⟨h, -⟩)
    · rw [hblank] at h
      cases h
    · rw [Bool.not_eq_false']
      exact contains_iff_mem.mpr h

theorem Catalog.notes_ensureMetadata (c : Catalog) (database policy : GoString) :
    c.Notes (database, policy) (c.ensureMetadata database policy).1 (c.ensureMetadata database policy).2 := by
  cases hblank : isBlank database with
  | true =>
    rw [Catalog.ensureMetadata, if_pos hblank]
    exact ⟨.inl hblank, fun _ h => h, fun _ => rfl, fun _ => rfl⟩
  | false =>
    rw [Catalog.ensureMetadata_of_not_blank hblank]
    cases hpolicy : isBlank policy with
    | true => exact Catalog.notes_addDatabase policy hblank (.inl hpolicy)
    | false =>
      cases hget : c.policies.get? (database, policy) with
      | some v => exact Catalog.notes_addDatabase policy hblank (.inr (by rw [hget]; rfl))
      | none =>
        refine ⟨.inr ⟨Catalog.mem_addDatabase.mpr (.inl rfl), .inr ?_⟩, fun n h => ?_, ?_, ?_⟩
        · change ((c.policies.set (database, policy) _).get? (database, policy)).isSome = true
          rw [GoMap.get?_set_self]
          rfl
        · have hset := Catalog.has_setPolicy (v := ⟨policy, 0⟩) (k := (database, policy))
            (Catalog.has_addDatabase database h)
          rw [Catalog.addDatabase_policies] at hset
          exact hset
        · intro h
          cases h
        · rintro (h | ⟨-, h | h⟩)
          · rw [hblank] at h
            cases h
          · rw [hpolicy] at h
            cases h
          · change (c.policies.get? (database, policy)).isSome = true at h
            rw [hget] at h
            cases h

end Names

section Frame

structure SameMetadata (s t : Store) : Prop where
  memory : t.catalog.metadata = s.catalog.metadata
  saved : t.disk.metadata = s.disk.metadata

theorem SameMetadata.trans (h : SameMetadata s t) (h' : SameMetadata t u) : SameMetadata s u :=
  ⟨h'.memory.trans h.memory, h'.saved.trans h.saved⟩

def Quiet {α : Type} (x : CatalogM α) : Prop := ∀ s, Ends (x s) (fun _ t => SameMetadata s t) (SameMetadata s)

variable {α β : Type}

theorem quiet_pure (a : α) : Quiet (pure a : CatalogM α) := fun _ => ends_pure ⟨rfl, rfl⟩

theorem quiet_throw (e : CatalogError) : Quiet (throw e : CatalogM α) := fun _ => ends_throw ⟨rfl, rfl⟩

theorem Quiet.bind (hx : Quiet x) (hf : ∀ a, Quiet (f a)) : Quiet (x >>= f) := fun s =>
  (hx s).bind fun a t ht => (hf a t).mono (fun _ _ hu => ht.trans hu) fun _ hu => ht.trans hu

theorem quiet_getCatalog_bind (hf : ∀ c, Quiet (f c)) : Quiet (getCatalog >>= f) := fun s => hf s.catalog s

theorem quiet_onlyIf (hx : Quiet x) : Quiet (onlyIf condition x) := by
  cases condition with
  | true => exact hx
  | false => exact quiet_pure _

theorem quiet_foldlM (hf : ∀ b a, Quiet (f b a)) (items : List α) (b : β) : Quiet (items.foldlM f b) := fun s =>
  ends_foldlM (fun _ _ t => SameMetadata s t) ⟨rfl, rfl⟩ fun a _ b _ ht =>
    (hf b a _).mono (fun _ _ hu => ht.trans hu) fun _ hu => ht.trans hu

theorem quiet_modifyCatalog (hf : ∀ c, (f c).metadata = c.metadata) : Quiet (modifyCatalog f) :=
  fun s => ends_modify ⟨hf s.catalog, rfl⟩

theorem quiet_appendEntry (entry : WalEntry) : Quiet (appendEntryLocked entry) := by
  intro s
  refine (ends_appendEntryLocked entry s).mono ?_ ?_
  · rintro _ t ⟨hcatalog, hdisk, -⟩
    exact ⟨congrArg Catalog.metadata hcatalog, by rw [hdisk]; rfl⟩
  · rintro t ⟨hcatalog, ⟨written, hdisk, -⟩, -⟩
    exact ⟨congrArg Catalog.metadata hcatalog, by rw [hdisk]; rfl⟩

theorem quiet_checkpoint (force : Bool) : Quiet (checkpointSnapshotLocked force) := by
  intro s
  refine ends_get_bind ?_
  split_ifs
  · exact ends_pure ⟨rfl, rfl⟩
  · exact ends_pure ⟨rfl, rfl⟩
  · cases s.checkpoints.headD .ok <;> exact ⟨rfl, rfl⟩

theorem Catalog.applySeries_metadata (c : Catalog) (s : Series) : (c.applySeries s).metadata = c.metadata := by
  unfold Catalog.applySeries Catalog.upsertSingleTagSeries
  split <;> rfl

theorem quiet_createSeries (m : GoString) (tags : TagMap) : Quiet (createSeriesNoSnapshotLocked m tags) := by
  refine Quiet.bind (quiet_getCatalog_bind fun c => ?_) fun _ => quiet_getCatalog_bind fun c => ?_
  · refine (quiet_onlyIf (quiet_throw _)).bind fun _ => ?_
    split
    · exact quiet_throw _
    · exact quiet_pure _
  · refine (quiet_appendEntry _).bind fun _ => ?_
    refine Quiet.bind (quiet_modifyCatalog fun c => ?_) fun _ => quiet_pure _
    exact Catalog.applySeries_metadata c _

theorem quiet_resolveSeries (m : GoString) (tags : TagMap) : Quiet (resolveSeriesNoSnapshotLocked m tags) := by
  refine quiet_getCatalog_bind fun c => ?_
  split
  · exact quiet_pure _
  · split
    · exact quiet_pure _
    · exact quiet_createSeries m tags

theorem quiet_resolveSeriesCached (m : GoString) (tags : TagMap) (cache : GoMap GoString Series) :
    Quiet (resolveSeriesNoSnapshotCachedLocked m tags cache) := by
  unfold resolveSeriesNoSnapshotCachedLocked
  split
  · dsimp only
    split
    · exact quiet_pure _
    · refine quiet_getCatalog_bind fun c => ?_
      split
      · exact quiet_pure _
      · exact (quiet_createSeries m tags).bind fun _ => quiet_pure _
  · exact (quiet_resolveSeries m tags).bind fun _ => quiet_pure _

theorem quiet_resolveField (m name : GoString) (type : UInt8) : Quiet (resolveFieldNoSnapshotLocked m name type) := by
  refine quiet_getCatalog_bind fun c => ?_
  split
  · split
    · exact quiet_throw _
    · exact quiet_pure _
  · split
    · split
      · exact quiet_throw _
      · exact quiet_pure _
    · refine Quiet.bind (quiet_getCatalog_bind fun c => quiet_onlyIf (quiet_throw _)) fun _ => ?_
      refine quiet_getCatalog_bind fun c => (quiet_appendEntry _).bind fun _ => ?_
      refine Quiet.bind (quiet_modifyCatalog fun c => ?_) fun _ => quiet_pure _
      rfl

theorem quiet_resolveFields (m : GoString) (values : FieldMap) : Quiet (resolveFieldsNoSnapshotLocked m values) := by
  refine quiet_getCatalog_bind fun c => ?_
  split
  · exact quiet_throw _
  · exact quiet_pure _
  · exact quiet_foldlM (fun _ _ => (quiet_resolveField m _ _).bind fun _ => quiet_pure _) _ _

theorem quiet_resolveBatchFields (p : Point) (template : Option FieldTemplate) :
    Quiet (resolveBatchFields p template) := by
  have hall : Quiet (resolveTemplateLocked p) :=
    (quiet_resolveFields p.measurement p.fields).bind fun _ => quiet_pure _
  unfold resolveBatchFields
  split
  · split
    · split
      · exact quiet_throw _
      · exact quiet_pure _
      · exact hall
    · exact hall
  · exact hall

theorem quiet_resolveTypedFields (m : GoString) (columns : List TypedFieldColumn) :
    Quiet (resolveTypedFieldDefinitionsLocked m columns) := by
  refine quiet_foldlM (fun out column => ?_) columns _
  split
  · exact quiet_throw _
  · exact (quiet_resolveField m _ _).bind fun _ => quiet_pure _

theorem quiet_resolveTypedSeries (b : TypedBatch) (rows : Nat) : Quiet (resolveTypedSeriesIDsLocked b rows) := by
  refine quiet_foldlM (fun out row => Quiet.bind ?_ fun _ => quiet_pure _) _ _
  unfold resolveSeriesFromTypedTagsLocked
  split
  · exact quiet_resolveSeries b.measurement TagMap.empty
  · refine quiet_getCatalog_bind fun c => ?_
    split
    · exact quiet_pure _
    · exact quiet_createSeries _ _
  · refine quiet_getCatalog_bind fun c => ?_
    split
    · exact quiet_pure _
    · exact quiet_createSeries _ _

end Frame

section Calls

/-- A part of a call that notes names from the store `s` on and tells whether one was new. -/
structure Noted (s : Store) (names : List Name) (changed : Bool) (t : Store) : Prop where
  has : ∀ n ∈ names, t.catalog.metadata.Has n
  keeps : ∀ n, s.catalog.metadata.Has n → t.catalog.metadata.Has n
  unchanged : changed = false → t.catalog.metadata = s.catalog.metadata
  known : (∀ n ∈ names, s.catalog.metadata.Has n) → changed = false
  saved : t.disk.metadata = s.disk.metadata

structure Accepted (s : Store) (names : List Name) (t : Store) : Prop where
  has : ∀ n ∈ names, t.catalog.metadata.Has n
  keeps : ∀ n, s.catalog.metadata.Has n → t.catalog.metadata.Has n
  saved : t.disk.metadata = some t.catalog.metadata ∨ SameMetadata s t

def Refused (s : Store) (names : List Name) (t : Store) : Prop :=
  (∀ n ∈ names, s.catalog.metadata.Has n) →
    (∀ n, t.catalog.metadata.Has n ↔ s.catalog.metadata.Has n) ∧ t.disk.metadata = s.disk.metadata

variable {α β : Type} {s t u : Store} {names : List Name} {changed : Bool}

section
variable (h : Noted s names changed t)
include h

theorem Noted.same (h' : SameMetadata t u) : Noted s names changed u where
  has := by
    rw [h'.memory]
    exact h.has
  keeps := by
    rw [h'.memory]
    exact h.keeps
  unchanged := fun hchanged => h'.memory.trans (h.unchanged hchanged)
  known := h.known
  saved := h'.saved.trans h.saved

theorem Noted.refused : Refused s names t := by
  intro hknown
  rw [h.unchanged (h.known hknown)]
  exact ⟨fun n => Iff.rfl, h.saved⟩

theorem Noted.ends_quiet (hx : Quiet x) : Ends (x t) (fun _ u => Noted s names changed u) (Refused s names) :=
  (hx t).mono (fun _ _ hu => h.same hu) fun _ hu => (h.same hu).refused

theorem Noted.append (h' : Noted t names' changed' u) :
    Noted s (names ++ names') (changed' || changed) u where
  has := by
    intro n hn
    rcases mem_append.mp hn with hn | hn
    · exact h'.keeps n (h.has n hn)
    · exact h'.has n hn
  keeps := fun n hn => h'.keeps n (h.keeps n hn)
  unchanged := by
    intro hchanged
    obtain ⟨hchanged', hchanged⟩ := Bool.or_eq_false_iff.mp hchanged
    exact (h'.unchanged hchanged').trans (h.unchanged hchanged)
  known := by
    intro hknown
    have hchanged := h.known fun n hn => hknown n (mem_append_left _ hn)
    refine Bool.or_eq_false_iff.mpr ⟨h'.known fun n hn => ?_, hchanged⟩
    rw [h.unchanged hchanged]
    exact hknown n (mem_append_right _ hn)
  saved := h'.saved.trans h.saved

end

theorem noted_nil (s : Store) : Noted s [] false s where
  has := fun _ h => (not_mem_nil h).elim
  keeps := fun _ h => h
  unchanged := fun _ => rfl
  known := fun _ => rfl
  saved := rfl

theorem Refused.mono (h : Refused s names t) (hsub : ∀ n ∈ names, n ∈ names') :
    Refused s names' t := fun hknown => h fun n hn => hknown n (hsub n hn)

theorem refused_refl (s : Store) (names : List Name) : Refused s names s := fun _ => ⟨fun _ => Iff.rfl, rfl⟩

theorem ends_ensureMetadata (database policy : GoString) (s : Store) :
    Ends (ensureMetadataLocked database policy s) (fun changed t => Noted s [(database, policy)] changed t) E := by
  have h := s.catalog.notes_ensureMetadata database policy
  refine ⟨?_, h.keeps, fun hchanged => congrArg Catalog.metadata (h.unchanged hchanged), fun hknown => ?_, rfl⟩
  · intro n hn
    rw [mem_singleton.mp hn]
    exact h.has
  · exact h.known (hknown _ mem_cons_self)

theorem ends_saveMetadata (hsaved : t.disk.metadata = s.disk.metadata) (has : ∀ n ∈ names, t.catalog.metadata.Has n)
    (keeps : ∀ n, s.catalog.metadata.Has n → t.catalog.metadata.Has n)
    (hknown : (∀ n ∈ names, s.catalog.metadata.Has n) → ∀ n, t.catalog.metadata.Has n ↔ s.catalog.metadata.Has n) :
    Ends (saveMetadataLocked t) (fun _ u => Accepted s names u) (Refused s names) := by
  refine ends_get_bind ?_
  split
  · exact ⟨has, keeps, .inl rfl⟩
  · exact fun hall => ⟨hknown hall, hsaved⟩

theorem Noted.ends_save (h : Noted s names changed t) (a : α) :
    Ends ((onlyIf changed saveMetadataLocked >>= fun _ => pure a : CatalogM α) t) (fun _ u => Accepted s names u)
      (Refused s names) := by
  cases changed with
  | false => exact ends_pure ⟨h.has, h.keeps, .inr ⟨h.unchanged rfl, h.saved⟩⟩
  | true =>
    refine Ends.bind (ends_saveMetadata h.saved h.has h.keeps fun hknown => ?_) fun _ u hu => ends_pure hu
    exact (h.refused hknown).1

theorem ends_resolvePoint (hvalid : validatePoint p = .ok ⟨⟩) :
    Ends (resolvePoint p s) (fun _ t => Accepted s [p.policyName] t) (Refused s [p.policyName]) := by
  unfold resolvePoint
  rw [hvalid]
  refine (ends_ensureMetadata p.database p.retentionPolicy s).bind fun changed t ht => ?_
  have hseries : Quiet (resolveSeriesLocked p.measurement p.tags) :=
    (quiet_resolveSeries _ _).bind fun _ => (quiet_onlyIf (quiet_checkpoint false)).bind fun _ => quiet_pure _
  have hfields : Quiet (resolveFieldsLocked p.measurement p.fields) :=
    (quiet_resolveFields _ _).bind fun _ => (quiet_onlyIf (quiet_checkpoint false)).bind fun _ => quiet_pure _
  refine (ht.ends_quiet hseries).bind fun series u hu => ?_
  exact (hu.ends_quiet hfields).bind fun fields v hv => hv.ends_save _

theorem ends_ensureBatchMetadata (p : Point) (hlast : ∀ n, last = some n → s.catalog.metadata.Has n) :
    Ends (ensureBatchMetadata p last s) (fun changed t => Noted s [p.policyName] changed t) E := by
  unfold ensureBatchMetadata
  split
  · next h =>
    refine ends_pure ⟨fun n hn => ?_, fun _ h => h, fun _ => rfl, fun _ => rfl, rfl⟩
    rw [mem_singleton.mp hn]
    exact hlast _ h
  · exact ends_ensureMetadata p.database p.retentionPolicy s

structure BatchNoted (s : Store) (points rest : List Point) (b : BatchState) (t : Store) : Prop where
  noted : ∃ names, names ++ rest.map Point.policyName = points.map Point.policyName ∧
    Noted s names b.metadataChanged t ∧ ∀ n, b.lastMetadata = some n → n ∈ names

theorem ends_resolveBatchPoint (h : BatchNoted s points (p :: rest) b t) :
    Ends (resolveBatchPoint b p t) (fun b' u => BatchNoted s points rest b' u)
      (Refused s (points.map Point.policyName)) := by
  obtain ⟨names, hnames, hnoted, hlast⟩ := h.noted
  have hsub : ∀ n ∈ names ++ [p.policyName], n ∈ points.map Point.policyName := by
    intro n hn
    rw [← hnames]
    rcases mem_append.mp hn with hn | hn
    · exact mem_append_left _ hn
    · rw [mem_singleton.mp hn]
      exact mem_append_right _ mem_cons_self
  refine (ends_ensureBatchMetadata p fun n hn => hnoted.has n (hlast n hn)).bind fun changed u hu => ?_
  have hquiet {α : Type} {x : CatalogM α} {v : Store} (hx : Quiet x)
      (hv : Noted s (names ++ [p.policyName]) (changed || b.metadataChanged) v) :=
    (hv.ends_quiet hx).mono (fun _ _ hw => hw) fun _ hw => hw.mono hsub
  refine (hquiet (quiet_resolveSeriesCached _ _ _) (hnoted.append hu)).bind fun series v hv => ?_
  refine (hquiet (quiet_resolveBatchFields _ _) hv).bind fun fields w hw => ?_
  refine ends_pure ⟨names ++ [p.policyName], ?_, hw, fun n hn => ?_⟩
  · rw [append_assoc]
    exact hnames
  · cases hn
    exact mem_append_right _ mem_cons_self

theorem ends_resolvePoints (hvalid : points.mapM validatePoint = .ok units) :
    Ends (resolvePoints points s) (fun _ t => Accepted s (points.map Point.policyName) t)
      (Refused s (points.map Point.policyName)) := by
  unfold resolvePoints
  rw [hvalid]
  have hstart : BatchNoted s points points emptyBatch s := ⟨[], rfl, noted_nil s, fun n hn => by cases hn⟩
  refine (ends_foldlM (fun rest b t => BatchNoted s points rest b t) hstart fun p rest b t =>
    ends_resolveBatchPoint).bind fun b t ht => ?_
  obtain ⟨names, hnames, hnoted, -⟩ := ht.noted
  obtain rfl : names = points.map Point.policyName := by simpa using hnames
  exact (hnoted.ends_quiet (quiet_onlyIf (quiet_checkpoint false))).bind fun _ u hu => hu.ends_save _

theorem ends_resolveTyped (hrows : b.timestamps.isEmpty = false)
    (hvalid : validateTypedBatch b b.timestamps.length = .ok ⟨⟩) :
    Ends (resolveTypedBatchColumns b s) (fun _ t => Accepted s [b.policyName] t) (Refused s [b.policyName]) := by
  unfold resolveTypedBatchColumns
  rw [hrows, hvalid]
  refine (ends_ensureMetadata b.database b.retentionPolicy s).bind fun changed t ht => ?_
  refine (ht.ends_quiet (quiet_resolveTypedFields _ _)).bind fun fields u hu => ?_
  refine (hu.ends_quiet (quiet_resolveTypedSeries _ _)).bind fun series v hv => ?_
  exact (hv.ends_quiet (quiet_onlyIf (quiet_checkpoint false))).bind fun _ w hw => hw.ends_save _

theorem ends_createDatabase (hname : isBlank name = false) :
    Ends (createDatabase name s) (fun _ t => Accepted s [(name, [])] t) (Refused s [(name, [])]) := by
  unfold createDatabase
  rw [hname]
  have hnotes := Catalog.notes_addDatabase (c := s.catalog) [] hname (.inl rfl)
  refine ends_modify_bind (ends_saveMetadata rfl (fun n hn => ?_) hnotes.keeps fun hknown n => ?_)
  · rw [mem_singleton.mp hn]
    exact hnotes.has
  · have hsame := hnotes.unchanged (hnotes.known (hknown _ mem_cons_self))
    change (s.catalog.addDatabase name).metadata.Has n ↔ _
    rw [hsame]

theorem ends_createRetentionPolicy {database : GoString} (hdatabase : isBlank database = false)
    (hpolicy : isBlank policy.name = false) :
    Ends (createRetentionPolicy database policy s) (fun _ t => Accepted s [(database, policy.name)] t)
      (Refused s [(database, policy.name)]) := by
  unfold createRetentionPolicy
  rw [hdatabase, hpolicy]
  have hkeeps (n : Name) (h : s.catalog.metadata.Has n) : Metadata.Has ⟨(s.catalog.addDatabase database).databases,
      (s.catalog.addDatabase database).policies.set (database, policy.name) policy⟩ n :=
    Catalog.has_setPolicy (Catalog.has_addDatabase database h)
  refine ends_modify_bind (ends_saveMetadata rfl (fun n hn => ?_) hkeeps fun hknown n => ⟨fun h => ?_, hkeeps n⟩)
  · rw [mem_singleton.mp hn]
    refine .inr ⟨Catalog.mem_addDatabase.mpr (.inl rfl), .inr ?_⟩
    change (GoMap.get? (GoMap.set _ _ _) _).isSome = true
    rw [GoMap.get?_set_self]
    rfl
  · -- the policy is there already, and only its duration changes
    obtain ⟨hmem, hsome⟩ : database ∈ s.catalog.databases ∧
        (s.catalog.policies.get? (database, policy.name)).isSome = true := by
      rcases hknown _ mem_cons_self with h | ⟨hmem, h | h⟩
      · rw [hdatabase] at h
        cases h
      · rw [hpolicy] at h
        cases h
      · exact ⟨hmem, h⟩
    change Metadata.Has ⟨(s.catalog.addDatabase database).databases,
      (s.catalog.addDatabase database).policies.set (database, policy.name) policy⟩ n at h
    rw [Catalog.addDatabase_of_mem hmem] at h
    refine Metadata.Has.of_subset (m := ⟨_, s.catalog.policies.set (database, policy.name) policy⟩)
      (fun _ hname => hname) (fun k hk => ?_) h
    rw [GoMap.get?_set] at hk
    split at hk
    · next heq =>
      rw [heq]
      exact hsome
    · exact hk

/-- A call that succeeds has saved the names it notes, a call that fails has changed none that were known. -/
theorem ends_metadataCall (call : MetadataCall) (s : Store) :
    Ends (call.run s) (fun _ t => Accepted s call.noted t) (Refused s call.noted) := by
  unfold MetadataCall.noted
  match call with
  | .resolve (.points points) =>
    refine Ends.bind (Ends.bind ?_ fun _ t ht => ends_pure ht) fun _ t ht => ends_pure ht
    cases hvalid : points.mapM validatePoint with
    | error e =>
      unfold resolvePoints
      rw [hvalid]
      exact refused_refl s _
    | ok units =>
      rw [if_pos (by rw [MetadataCall.reaches, hvalid]; rfl)]
      exact ends_resolvePoints hvalid
  | .resolve (.point p) =>
    refine Ends.bind (Ends.bind ?_ fun _ t ht => ends_pure ht) fun _ t ht => ends_pure ht
    cases hvalid : validatePoint p with
    | error e =>
      unfold resolvePoint
      rw [hvalid]
      exact refused_refl s _
    | ok _ =>
      rw [if_pos (by rw [MetadataCall.reaches, hvalid]; rfl)]
      exact ends_resolvePoint hvalid
  | .resolve (.typed b) =>
    refine Ends.bind (Ends.bind ?_ fun _ t ht => ends_pure ht) fun _ t ht => ends_pure ht
    cases hrows : b.timestamps.isEmpty with
    | true =>
      rw [if_neg (by rw [MetadataCall.reaches, hrows]; exact Bool.false_ne_true), resolveTypedBatchColumns, if_pos hrows]
      exact ends_pure ⟨(noted_nil s).has, fun _ h => h, .inr ⟨rfl, rfl⟩⟩
    | false =>
      cases hvalid : validateTypedBatch b b.timestamps.length with
      | error e =>
        unfold resolveTypedBatchColumns
        rw [hrows, hvalid]
        exact refused_refl s _
      | ok _ =>
        rw [if_pos (by rw [MetadataCall.reaches, hrows, hvalid]; rfl)]
        exact ends_resolveTyped hrows hvalid
  | .createDatabase name =>
    cases hname : isBlank name with
    | true =>
      rw [MetadataCall.run, createDatabase, if_pos hname]
      exact refused_refl s _
    | false =>
      rw [if_pos (by rw [MetadataCall.reaches, hname]; rfl)]
      exact ends_createDatabase hname
  | .createRetentionPolicy database policy =>
    cases hblank : isBlank database || isBlank policy.name with
    | true =>
      rw [MetadataCall.run, createRetentionPolicy, if_pos hblank]
      exact refused_refl s _
    | false =>
      obtain ⟨hdatabase, hpolicy⟩ := Bool.or_eq_false_iff.mp hblank
      rw [if_pos (by rw [MetadataCall.reaches, hdatabase, hpolicy]; rfl)]
      exact ends_createRetentionPolicy hdatabase hpolicy

end Calls

section Runs

inductive MetadataEvent
  | call (call : MetadataCall)
  | reopen (limits : Limits) (saves : List Bool)

def MetadataEvent.requests : MetadataEvent → Requests
  | .call c => c.requests
  | .reopen .. => ⟨[], [], []⟩

def metadataRequests (events : List MetadataEvent) : Requests := Requests.concat (events.map MetadataEvent.requests)

/-- Each time the directory is opened it has the names of all calls that succeeded. -/
def NamesSurvive (crc : Bytes → UInt32) : List MetadataEvent → Store → List Name → Prop
  | [], _, _ => True
  | .call call :: events, s, acked =>
    match call.run s with
    | .ok _ t => NamesSurvive crc events t (call.names ++ acked)
    | .error _ t => NamesSurvive crc events t acked
  | .reopen limits saves :: events, s, acked =>
    match openCatalog crc limits s.disk with
    | .ok c => (∀ n ∈ acked, c.metadata.Has n) ∧ NamesSurvive crc events ⟨c, s.disk, [], saves, []⟩ acked
    | .error _ => False

/-- A call that fails after it has noted its names, and a typed batch without rows, names databases and policies
only that the catalog has. -/
def FailuresKnown (crc : Bytes → UInt32) : List MetadataEvent → Store → Prop
  | [], _ => True
  | .call call :: events, s =>
    match call.run s with
    | .ok _ t => (call.reaches = false → ∀ n ∈ call.names, s.catalog.metadata.Has n) ∧ FailuresKnown crc events t
    | .error _ t => (∀ n ∈ call.noted, s.catalog.metadata.Has n) ∧ FailuresKnown crc events t
  | .reopen limits saves :: events, s =>
    match openCatalog crc limits s.disk with
    | .ok c => FailuresKnown crc events ⟨c, s.disk, [], saves, []⟩
    | .error _ => True

/-- The catalog has the acknowledged names, and the file all names of the catalog. -/
structure NamesSaved (s : Store) (acked : List Name) : Prop where
  has : ∀ n ∈ acked, s.catalog.metadata.Has n
  saved : ∀ n, s.catalog.metadata.Has n → s.disk.savedMetadata.Has n

variable {crc : Bytes → UInt32} {r : Requests} {s t : Store} {acked : List Name}

theorem NamesSaved.accepted {call : MetadataCall} (h : NamesSaved s acked) (ht : Accepted s call.noted t)
    (hknown : call.reaches = false → ∀ n ∈ call.names, s.catalog.metadata.Has n) :
    NamesSaved t (call.names ++ acked) where
  has := by
    intro n hn
    rcases mem_append.mp hn with hn | hn
    · cases hreaches : call.reaches with
      | true => exact ht.has n (by rwa [MetadataCall.noted, if_pos hreaches])
      | false => exact ht.keeps n (hknown hreaches n hn)
    · exact ht.keeps n (h.has n hn)
  saved := by
    intro n hn
    rcases ht.saved with hsaved | hsame
    · rw [Disk.savedMetadata, hsaved]
      exact hn
    · rw [hsame.memory] at hn
      rw [Disk.savedMetadata, hsame.saved]
      exact h.saved n hn

theorem NamesSaved.refused {call : MetadataCall} (h : NamesSaved s acked) (ht : Refused s call.noted t)
    (hknown : ∀ n ∈ call.noted, s.catalog.metadata.Has n) : NamesSaved t acked := by
  obtain ⟨hsame, hsaved⟩ := ht hknown
  refine ⟨fun n hn => (hsame n).mpr (h.has n hn), fun n hn => ?_⟩
  rw [Disk.savedMetadata, hsaved]
  exact h.saved n ((hsame n).mp hn)

theorem steps_metadataCall (hr : r.Roomy) (hvalid : Valid r s.catalog) (call : MetadataCall)
    (hreq : call.requests.Within r) : Steps r s (stateOf (call.run s)) := by
  have hsave : ∀ c, c = { s.catalog with databases := c.databases, policies := c.policies } →
      Resolves r (modifyCatalog (fun _ => c) >>= fun _ => saveMetadataLocked) s fun _ _ => True := by
    intro c hc
    refine Resolves.bind (Q := fun _ _ => True) ?_ fun _ _ _ _ => resolves_saveMetadata
    exact ⟨Step.steps (.metadata c.databases c.policies s.disk.metadata hc rfl) (List.Subset.refl _), trivial⟩
  have hadd : ∀ database, s.catalog.addDatabase database =
      { s.catalog with databases := (s.catalog.addDatabase database).databases } := by
    intro database
    unfold Catalog.addDatabase
    split <;> rfl
  cases call with
  | resolve c =>
    refine steps_stateOf (Q := fun _ _ => True) ?_
    exact (resolves_call hr hvalid c hreq).bind fun _ _ _ _ => resolves_pure trivial
  | createDatabase name =>
    refine steps_stateOf (Q := fun _ _ => True) ?_
    change Resolves r (createDatabase name) s _
    unfold createDatabase
    split
    · exact resolves_throw
    · exact hsave (s.catalog.addDatabase name) (by rw [hadd])
  | createRetentionPolicy database policy =>
    refine steps_stateOf (Q := fun _ _ => True) ?_
    change Resolves r (createRetentionPolicy database policy) s _
    unfold createRetentionPolicy
    split
    · exact resolves_throw
    · refine hsave { s.catalog.addDatabase database with
        policies := (s.catalog.addDatabase database).policies.set (database, policy.name) policy } ?_
      rw [hadd]

theorem Catalog.applyEntry_metadata (c : Catalog) (entry : WalEntry) : (c.applyEntry entry).metadata = c.metadata := by
  cases entry with
  | series s => exact c.applySeries_metadata s
  | field f => rfl

theorem Disk.replayed_metadata (d : Disk) (limits : Limits) : (d.replayed crc limits).metadata = Metadata.empty := by
  have hstart : (startCatalog limits d.snapshot).metadata = Metadata.empty := by
    cases d.snapshot <;> rfl
  have hfold : ∀ {f : Catalog → WalEntry → Catalog}, (∀ c e, (f c e).metadata = c.metadata) →
      ∀ (entries : List WalEntry) (c : Catalog), (entries.foldl f c).metadata = c.metadata := by
    intro f hf entries
    induction entries with
    | nil => exact fun c => rfl
    | cons e entries ih => exact fun c => (ih (f c e)).trans (hf c e)
  rw [Disk.replayed, hfold (f := Catalog.replayEntry) fun c e => c.applyEntry_metadata e,
    hfold Catalog.applyEntry_metadata, hstart]

theorem Restorable.openCatalog_metadata (hstorable : r.Storable) (h : Restorable crc r s) (hopen : openCatalog crc limits s.disk = .ok c) : c.metadata = s.disk.savedMetadata := by
  rw [Durable.openCatalog_eq h.valid h.durable h.orderly.recoverable hstorable limits] at hopen
  cases hopen
  cases hsaved : s.disk.metadata with
  | none =>
    rw [Disk.savedMetadata, hsaved]
    exact Disk.replayed_metadata s.disk limits
  | some m =>
    rw [Disk.savedMetadata, hsaved]
    rfl

theorem namesSurvive_of_saved (hr : r.Roomy) (hstorable : r.Storable) {events : List MetadataEvent}
    (hreq : (metadataRequests events).Within r) (h : Restorable crc r s) (hnames : NamesSaved s acked)
    (hknown : FailuresKnown crc events s) : NamesSurvive crc events s acked := by
  induction events generalizing s acked with
  | nil => exact trivial
  | cons event events ih =>
    obtain ⟨hfirst, hlater⟩ := hreq.of_concat_cons
    cases event with
    | call call =>
      have hends := ends_metadataCall call s
      have hsteps := steps_metadataCall hr h.valid call hfirst
      rw [FailuresKnown] at hknown
      rw [NamesSurvive]
      cases hrun : call.run s with
      | ok _ t =>
        rw [hrun] at hends hsteps hknown
        exact ih hlater (h.steps hr hstorable hsteps) (hnames.accepted hends hknown.1) hknown.2
      | error e t =>
        rw [hrun] at hends hsteps hknown
        exact ih hlater (h.steps hr hstorable hsteps) (hnames.refused hends hknown.1) hknown.2
    | reopen limits saves =>
      obtain ⟨c, hopen, -, hvalid, -, hdurable, horderly⟩ := h.orderly.reopen hr hstorable h.valid h.durable limits
      have hmetadata := h.openCatalog_metadata hstorable hopen
      rw [FailuresKnown, hopen] at hknown
      rw [NamesSurvive, hopen]
      have hacked : ∀ n ∈ acked, c.metadata.Has n := by
        intro n hn
        rw [hmetadata]
        exact hnames.saved n (hnames.has n hn)
      refine ⟨hacked, ih hlater ⟨hvalid, hdurable, horderly, fun _ h => (not_mem_nil h).elim⟩
        ⟨hacked, fun n hn => ?_⟩ hknown⟩
      rw [← hmetadata]
      exact hn

end Runs

/-- Every run from an empty directory whose failures name nothing new. -/
theorem names_survive (crc : Bytes → UInt32) (limits : Limits) (saves : List Bool) (events : List MetadataEvent)
    (hr : (metadataRequests events).Roomy) (hstorable : (metadataRequests events).Storable)
    (hknown : FailuresKnown crc events (newStore limits [] saves [])) :
    NamesSurvive crc events (newStore limits [] saves []) [] :=
  namesSurvive_of_saved hr hstorable (Requests.within_refl _)
    ⟨valid_newCatalog _ limits, durable_newCatalog limits, orderly_newCatalog limits,
      fun _ h => (not_mem_nil h).elim⟩
    ⟨fun _ h => (not_mem_nil h).elim, fun _ h => h⟩ hknown

section Decide

variable (crc : Bytes → UInt32)

instance decidableNamesSurvive : (events : List MetadataEvent) → (s : Store) → (acked : List Name) →
    Decidable (NamesSurvive crc events s acked)
  | [], _, _ => inferInstanceAs (Decidable True)
  | .call _ :: events, _, _ | .reopen .. :: events, _, _ => by
    have := decidableNamesSurvive events
    unfold NamesSurvive
    split <;> infer_instance

instance decidableFailuresKnown : (events : List MetadataEvent) → (s : Store) → Decidable (FailuresKnown crc events s)
  | [], _ => inferInstanceAs (Decidable True)
  | .call _ :: events, _ | .reopen .. :: events, _ => by
    have := decidableFailuresKnown events
    unfold FailuresKnown
    split <;> infer_instance

end Decide

def databasePoint (database : GoString) (type : UInt8) : Point :=
  ⟨database, [112], [109], TagMap.empty, 0, ⟨[([120], ⟨type, 0, 0, [], false⟩)], pairwise_singleton _ _⟩⟩

/-- A point of a new database fails by the type of its field, the next one succeeds. -/
def conflictEvents : List MetadataEvent :=
  [.call (.resolve (.point (databasePoint [97] 1))), .call (.resolve (.point (databasePoint [98] 2))),
   .call (.resolve (.point (databasePoint [98] 1))), .reopen unlimited []]

theorem names_lost_after_conflict :
    ((metadataRequests conflictEvents).Roomy ∧ (metadataRequests conflictEvents).Storable) ∧
      ¬ NamesSurvive crc32c conflictEvents (newStore unlimited [] [] []) [] := by
  refine ⟨⟨⟨by decide +kernel, by decide +kernel⟩, by decide +kernel⟩, ?_⟩
  decide +kernel

/-- The conflict is in a known database, and a save that fails is of known names. -/
def knownEvents : List MetadataEvent :=
  [.call (.createDatabase [97]), .call (.createRetentionPolicy [97] ⟨[112], 60⟩),
   .call (.resolve (.point (databasePoint [97] 1))), .call (.resolve (.point (databasePoint [97] 2))),
   .call (.createRetentionPolicy [97] ⟨[112], 90⟩), .reopen unlimited [],
   .call (.resolve (.points [databasePoint [97] 1, databasePoint [98] 1])), .reopen unlimited []]

theorem names_survive_knownEvents :
    ((metadataRequests knownEvents).Roomy ∧ (metadataRequests knownEvents).Storable ∧
      FailuresKnown crc32c knownEvents (newStore unlimited [] [true, true, false] [])) ∧
      NamesSurvive crc32c knownEvents (newStore unlimited [] [true, true, false] []) [] := by
  have hr : (metadataRequests knownEvents).Roomy := ⟨by decide +kernel, by decide +kernel⟩
  have hstorable : (metadataRequests knownEvents).Storable := by decide +kernel
  have hknown : FailuresKnown crc32c knownEvents (newStore unlimited [] [true, true, false] []) := by decide +kernel
  refine ⟨⟨hr, hstorable, hknown⟩, ?_⟩
  -- the run is not to be evaluated here
  generalize knownEvents = events at hr hstorable hknown ⊢
  exact names_survive crc32c unlimited [true, true, false] events hr hstorable hknown

end Mts.Catalog
