import Mts.Catalog.Identity
import Mts.Wal.BatchRoundTrip

/-! The payload of a typed batch, `encodeTypedBatchInto` of `wal/encoding_columnar.go`, and the points that a
shard makes of the batch. A typed column is written after its bitmap, so that a move of the buffer between the
two does not matter and the payload is the bytes in order. -/

namespace Mts.Wal
open Lib Model List
open Catalog hiding FieldValue Field ResolvedField ResolvedPoint

variable {prev : Option UInt64} {seqs : List UInt64} {rest bytes : Bytes}

/-- `ResolvedTypedBatch` after the engine has assigned the sequences. -/
structure SequencedBatch extends ResolvedTypedBatch where
  writeSeqs : List UInt64

inductive TypedError
  | rowMetadataLength
  | rowIndex (row : Int)
  | fieldLength (name : GoString)
  deriving DecidableEq

def typedResolvedFieldLen (f : ResolvedTypedFieldColumn) : Nat :=
  match f.type with
  | .float64 => f.values.float64Values.length
  | .int64 => f.values.int64Values.length
  | .string => f.values.stringValues.length
  | .bool => f.values.boolValues.length

def validateResolvedTypedBatch (b : SequencedBatch) (rows : List Int) : Except TypedError Unit :=
  let count := b.timestamps.length
  if b.seriesIDs.length ≠ count ∨ b.writeSeqs.length ≠ count then .error .rowMetadataLength
  else
    match rows.find? fun row => row < 0 || row ≥ (count : Int) with
    | some row => .error (.rowIndex row)
    | none =>
      match b.fields.find? fun f => typedResolvedFieldLen f ≠ count with
      | some f => .error (.fieldLength f.name)
      | none => .ok ⟨⟩

/-- The rows that `typedRowIndex` gives for the positions below `typedRowCount`; no row index means all rows. -/
def typedRows (b : SequencedBatch) (rows : List Int) : List Nat :=
  if rows.isEmpty then List.range b.timestamps.length else rows.map Int.toNat

section Points
variable (b : SequencedBatch)

def typedFieldValueAt (f : ResolvedTypedFieldColumn) (row : Nat) : FieldValue :=
  match f.type with
  | .float64 => .float64 (f.values.float64Values.getD row 0)
  | .int64 => .int64 (f.values.int64Values.getD row 0)
  | .string => .string (f.values.stringValues.getD row [])
  | .bool => .bool (f.values.boolValues.getD row false)

def resolvedTypedFieldAt (f : ResolvedTypedFieldColumn) (row : Nat) : ResolvedField :=
  ⟨f.fieldID, f.name, f.type, typedFieldValueAt f row⟩

def resolvedTypedPointAt (row : Nat) : ResolvedPoint where
  database := b.database
  retentionPolicy := b.retentionPolicy
  measurement := b.measurement
  tags := tagMapFromColumns b.tags row
  seriesID := b.seriesIDs.getD row 0
  timestamp := b.timestamps.getD row 0
  writeSeq := b.writeSeqs.getD row 0
  fields := b.fields.map fun f => resolvedTypedFieldAt f row

def resolvedPointsFromTypedBatch (rows : List Int) : List ResolvedPoint :=
  (typedRows b rows).map (resolvedTypedPointAt b)

end Points

section Encoding
variable (b : SequencedBatch)

def typedSeriesIDRange (ids : List UInt64) : Option (UInt64 × UInt64) :=
  ids.foldl (fun range id =>
    if id = 0 then range
    else
      match range with
      | none => some (id, id)
      | some (lo, hi) => some (if id < lo then id else lo, if hi < id then id else hi)) none

def newTypedSeriesRefIndex (ids : List UInt64) : SeriesRefIndex :=
  match typedSeriesIDRange ids with
  | .none => .none
  | some (lo, hi) =>
    let span := hi - lo + 1
    if span ≤ UInt64.ofNat (ids.length * 4) then .dense lo (List.replicate span.toNat 0) else .sparse []

/-- The variables of the loop of `typedBatchIdentities`. -/
structure TypedIdentities where
  identityRows : List Nat
  refs : List Nat
  seen : SeriesRefIndex

def TypedIdentities.next (s : TypedIdentities) (row : Nat) : TypedIdentities :=
  match s.seen.lookup (b.seriesIDs.getD row 0) with
  | some ref => { s with refs := s.refs ++ [ref] }
  | none =>
    { identityRows := s.identityRows ++ [row]
      refs := s.refs ++ [s.identityRows.length]
      seen := s.seen.setIfAbsent (b.seriesIDs.getD row 0) s.identityRows.length }

def typedBatchIdentities (rows : List Nat) : TypedIdentities :=
  rows.foldl (TypedIdentities.next b) ⟨[], [], newTypedSeriesRefIndex (rows.map fun row => b.seriesIDs.getD row 0)⟩

/-- The tags in the order of `typedTagOrder`. -/
def typedTagsBytes (tags : List TagColumn) (row : Nat) : Bytes :=
  uvarint (UInt64.ofNat tags.length) ++ (tags.insertionSort fun a b => a.name ≤ b.name).flatMap fun tag =>
    stringBytes tag.name ++ stringBytes (tag.at row)

def typedIdentityBytes (row : Nat) : Bytes :=
  stringBytes b.database ++ stringBytes b.retentionPolicy ++ stringBytes b.measurement ++
    typedTagsBytes b.tags row

def typedSchema : List ColumnarFieldSchema := b.fields.map fun f => ⟨f.fieldID, f.name, f.type⟩

/-- `appendTypedScalar`. -/
def typedScalarBytes (f : ResolvedTypedFieldColumn) (row : Nat) : Bytes :=
  match f.type with
  | .float64 => uint64LE (f.values.float64Values.getD row 0)
  | .int64 => varint (f.values.int64Values.getD row 0)
  | .string => stringBytes (f.values.stringValues.getD row [])
  | .bool => [if f.values.boolValues.getD row false then 1 else 0]

/-- `appendTypedFieldColumnDense`. -/
def typedColumnBytes (rows : List Nat) (f : ResolvedTypedFieldColumn) : Bytes :=
  denseBits rows.length ++ rows.flatMap (typedScalarBytes f)

def encodeColumnarTypedInto (rows : List Nat) : Bytes :=
  let identities := typedBatchIdentities b rows
  uvarint (UInt64.ofNat identities.identityRows.length) ++ identities.identityRows.flatMap (typedIdentityBytes b) ++
    (uvarint (UInt64.ofNat (typedSchema b).length) ++ (typedSchema b).flatMap fun f => (schemaChunks f).flatten) ++
    uvarint (UInt64.ofNat rows.length) ++
    identities.refs.flatMap (fun ref => uvarint (UInt64.ofNat ref)) ++
    rows.flatMap (fun row => uvarint (b.seriesIDs.getD row 0)) ++
    (timestampDeltas none (rows.map fun row => b.timestamps.getD row 0)).flatMap varint ++
    (writeSeqTokens none (rows.map fun row => b.writeSeqs.getD row 0)).flatMap uvarint ++
    b.fields.flatMap (typedColumnBytes rows)

def encodeTypedBatchInto (rows : List Int) : Except TypedError Bytes := do
  validateResolvedTypedBatch b rows
  return encodeColumnarTypedInto b (typedRows b rows)

end Encoding

section Index

theorem lookup_newTypedSeriesRefIndex (ids : List UInt64) (id : UInt64) :
    (newTypedSeriesRefIndex ids).lookup id = none := by
  unfold newTypedSeriesRefIndex
  split
  · rfl
  · next lo hi _ =>
    dsimp only
    split
    · unfold SeriesRefIndex.lookup
      dsimp only
      split
      · rfl
      · split
        · next ref hget =>
          rw [getElem?_replicate] at hget
          split at hget <;> simp at hget
        · rfl
    · rfl

theorem lookup_setIfAbsent {index : SeriesRefIndex} {id id' : UInt64}
    (h : (index.setIfAbsent id ref).lookup id' = some ref') :
    index.lookup id' = some ref' ∨ id' = id ∧ ref' = ref := by
  cases index with
  | none => exact .inl h
  | sparse refs =>
    simp only [SeriesRefIndex.setIfAbsent] at h
    split at h
    · exact .inl h
    · simp only [SeriesRefIndex.lookup, find?_cons] at h ⊢
      split at h
      · next heq =>
        have hid : id = id' := of_decide_eq_true heq
        exact .inr ⟨hid.symm, (by simpa using h.symm)⟩
      · exact .inl h
  | dense base slots =>
    simp only [SeriesRefIndex.setIfAbsent] at h
    split_ifs at h with hbase hslot
    · exact .inl h
    · simp only [SeriesRefIndex.lookup] at h ⊢
      split_ifs at h ⊢ with hbase'
      by_cases hsame : (id - base).toNat = (id' - base).toNat
      · have hid : id' = id := by
          have hsub := UInt64.toNat_inj.mp hsame
          rw [← UInt64.sub_add_cancel id base, hsub, UInt64.sub_add_cancel]
        subst hid
        rw [getElem?_set_self (List.getElem?_eq_some_iff.mp hslot).1] at h
        exact .inr ⟨rfl, (by simpa using h.symm)⟩
      · rw [getElem?_set_ne hsame] at h
        exact .inl h
    · exact .inl h

end Index

section Identities
variable {b : SequencedBatch} {rows : List Nat}

def rowIdentity (b : SequencedBatch) (row : Nat) : BatchIdentity := newBatchIdentity (resolvedTypedPointAt b row)

def SeriesShareTags (b : SequencedBatch) (rows : List Nat) : Prop :=
  ∀ row ∈ rows, ∀ row' ∈ rows, b.seriesIDs.getD row 0 = b.seriesIDs.getD row' 0 →
    ∀ tag ∈ b.tags, tag.at row = tag.at row'

structure TypedInv (b : SequencedBatch) (rows : List Nat) (s : TypedIdentities) : Prop where
  refs : List.Forall₂ (fun row ref => ∃ row', s.identityRows[ref]? = some row' ∧
    b.seriesIDs.getD row' 0 = b.seriesIDs.getD row 0) rows s.refs
  seen : ∀ id ref, s.seen.lookup id = some ref →
    ∃ row, s.identityRows[ref]? = some row ∧ b.seriesIDs.getD row 0 = id
  sources : ∀ row ∈ s.identityRows, row ∈ rows
  count : s.identityRows.length ≤ rows.length

theorem TypedInv.next {s : TypedIdentities} (h : TypedInv b rows s) (row : Nat) :
    TypedInv b (rows ++ [row]) (s.next b row) := by
  have hcount := h.count
  unfold TypedIdentities.next
  split
  · next ref hfound =>
    refine ⟨rel_append h.refs (.cons (h.seen _ _ hfound) .nil), h.seen, fun r hr => ?_, ?_⟩
    · exact mem_append_left _ (h.sources r hr)
    · simp only [length_append, length_singleton]
      omega
  · have hold : ∀ {ref row' : Nat}, s.identityRows[ref]? = some row' →
        (s.identityRows ++ [row])[ref]? = some row' := fun {ref row'} hget => by
      rwa [getElem?_append_left (List.getElem?_eq_some_iff.mp hget).1]
    have hnew : (s.identityRows ++ [row])[s.identityRows.length]? = some row := by simp
    refine ⟨rel_append (h.refs.imp ?_) (.cons ⟨row, hnew, rfl⟩ .nil), fun id ref hlookup => ?_, fun r hr => ?_, ?_⟩
    · rintro r ref ⟨row', hget, hid⟩
      exact ⟨row', hold hget, hid⟩
    · rcases lookup_setIfAbsent hlookup with hlookup | ⟨rfl, rfl⟩
      · obtain ⟨row', hget, hid⟩ := h.seen id ref hlookup
        exact ⟨row', hold hget, hid⟩
      · exact ⟨row, hnew, rfl⟩
    · rcases mem_append.mp hr with hr | hr
      · exact mem_append_left _ (h.sources r hr)
      · exact mem_append_right _ hr
    · simp only [length_append, length_singleton]
      omega

theorem typedInv_foldl (done : List Nat) (h : TypedInv b done s) :
    TypedInv b (done ++ rows) (rows.foldl (TypedIdentities.next b) s) := by
  induction rows generalizing done s with
  | nil => rwa [append_nil]
  | cons row rows ih =>
    rw [append_cons]
    exact ih _ (h.next row)

theorem typedInv_typedBatchIdentities (b : SequencedBatch) (rows : List Nat) :
    TypedInv b rows (typedBatchIdentities b rows) :=
  typedInv_foldl [] ⟨.nil, fun id ref h => by simp [lookup_newTypedSeriesRefIndex] at h, by simp, by simp⟩

theorem tagMapFromColumns_congr (h : ∀ tag ∈ tags, tag.at row = tag.at row') :
    tagMapFromColumns tags row = tagMapFromColumns tags row' := by
  exact foldl_ext _ _ _ fun out tag htag => by rw [h tag htag]

theorem typedBatchIdentities_refs (hshare : SeriesShareTags b rows) :
    List.Forall₂ (fun row ref =>
      ((typedBatchIdentities b rows).identityRows.map (rowIdentity b))[ref]? = some (rowIdentity b row))
      rows (typedBatchIdentities b rows).refs := by
  have hinv := typedInv_typedBatchIdentities b rows
  have hmem : ∀ row ref : Nat, row ∈ rows → (∃ row', (typedBatchIdentities b rows).identityRows[ref]? = some row' ∧
      b.seriesIDs.getD row' 0 = b.seriesIDs.getD row 0) →
      ((typedBatchIdentities b rows).identityRows.map (rowIdentity b))[ref]? = some (rowIdentity b row) := by
    rintro row ref hrow ⟨row', hget, hid⟩
    have htags := hshare row' (hinv.sources row' (mem_of_getElem? hget)) row hrow hid
    rw [getElem?_map, hget, Option.map_some]
    simp [rowIdentity, newBatchIdentity, resolvedTypedPointAt, tagMapFromColumns_congr htags]
  rw [forall₂_iff_get]
  obtain ⟨hlen, hget⟩ := forall₂_iff_get.mp hinv.refs
  exact ⟨hlen, fun i hi hi' => hmem _ _ (get_mem _ _) (hget i hi hi')⟩

theorem typedIdentityBytes_eq (hnodup : (b.tags.map TagColumn.name).Nodup) (row : Nat) :
    typedIdentityBytes b row = identityBytes (rowIdentity b row) := by
  simp [typedIdentityBytes, identityBytes, rowIdentity, newBatchIdentity, resolvedTypedPointAt, typedTagsBytes, tagsBytes, entries_tagMapFromColumns hnodup, flatMap_map]

end Identities

section Columns
variable {b : SequencedBatch} {rows : List Nat}

@[simp] theorem type_typedFieldValueAt (f : ResolvedTypedFieldColumn) (row : Nat) :
    (typedFieldValueAt f row).type = f.type := by
  unfold typedFieldValueAt
  split <;> next h => rw [h]; rfl

theorem typedScalarBytes_eq (f : ResolvedTypedFieldColumn) (row : Nat) :
    typedScalarBytes f row = (valueChunks (typedFieldValueAt f row)).flatten := by
  unfold typedScalarBytes typedFieldValueAt
  split <;> simp [valueChunks]

def typedColumn (rows : List Nat) (f : ResolvedTypedFieldColumn) : List (Option FieldValue) :=
  rows.map fun row => some (typedFieldValueAt f row)

theorem typedColumnBytes_eq (rows : List Nat) (f : ResolvedTypedFieldColumn) :
    typedColumnBytes rows f = denseBits rows.length ++ columnValues (typedColumn rows f) := by
  have hscalar : typedScalarBytes f = fun row => (valueChunks (typedFieldValueAt f row)).flatten :=
    funext (typedScalarBytes_eq f)
  simp [typedColumnBytes, columnValues, typedColumn, flatMap_map, hscalar]

structure TypedSized (b : SequencedBatch) (rows : List Nat) : Prop where
  count : IntSized rows.length
  fields : IntSized b.fields.length
  names : ∀ f ∈ b.fields, IntSized f.name.length
  identities : ∀ row ∈ rows, IdentitySized (rowIdentity b row)
  values : ∀ f ∈ b.fields, ∀ row ∈ rows, ValueSized (typedFieldValueAt f row)

theorem parses_typedColumns (hsized : TypedSized b rows) :
    Parses (((typedSchema b).map decodedSchema).mapM (readFieldColumn rows.length))
      (b.fields.flatMap (typedColumnBytes rows)) (b.fields.map (typedColumn rows)) := by
  rw [typedSchema, map_map, mapM_map]
  refine parses_mapM fun f hf => ?_
  have hlen : (typedColumn rows f).length = rows.length := length_map _
  rw [typedColumnBytes_eq, ← hlen]
  refine parses_fieldColumn (show (decodedSchema _).typ = fieldTypeByte f.type from rfl) ?_ fun x hx => ?_
  · have hpresent : (typedColumn rows f).map Option.isSome = List.replicate (typedColumn rows f).length true := by
      simp [typedColumn, map_map, Function.comp_def]
    rw [hpresent]
    exact isBitmap_dense _
  · obtain ⟨row, hrow, heq⟩ := mem_map.mp hx
    cases heq
    exact ⟨type_typedFieldValueAt f row, hsized.values f hf row hrow⟩

theorem rowFields_typedColumns (hrow : rows[i]? = some row) :
    rowFields ((typedSchema b).map decodedSchema) (b.fields.map (typedColumn rows)) i =
      (resolvedTypedPointAt b row).fields := by
  have hcell : ∀ f, (typedColumn rows f).getD i none = some (typedFieldValueAt f row) := by
    intro f
    rw [getD_eq_getElem?_getD, typedColumn, getElem?_map, hrow, Option.map_some, Option.getD_some]
  rw [rowFields, typedSchema, map_map, zip_map', filterMap_map]
  simp only [Function.comp_def, hcell, Option.map_some, type_typedFieldValueAt, decodedSchema, filterMap_eq_map',
    resolvedTypedPointAt, resolvedTypedFieldAt]

theorem encodeColumnarTypedInto_eq (hnodup : (b.tags.map TagColumn.name).Nodup) (rows : List Nat) :
    encodeColumnarTypedInto b rows =
      rowsHeader ((typedBatchIdentities b rows).identityRows.map (rowIdentity b)) (typedBatchIdentities b rows).refs
        (typedSchema b) (rows.map fun row => b.seriesIDs.getD row 0) (rows.map fun row => b.timestamps.getD row 0) ++
      ((writeSeqTokens none (rows.map fun row => b.writeSeqs.getD row 0)).flatMap uvarint ++
        b.fields.flatMap (typedColumnBytes rows)) := by
  have hlen := (typedInv_typedBatchIdentities b rows).refs.length_eq
  have hidentity : typedIdentityBytes b = fun row => identityBytes (rowIdentity b row) :=
    funext (typedIdentityBytes_eq hnodup)
  simp [encodeColumnarTypedInto, rowsHeader, flatMap_map, hlen, hidentity]

end Columns

section Equivalence
variable {b : SequencedBatch} {rows : List Nat}

theorem readColumnarBatch_typed (hnodup : (b.tags.map TagColumn.name).Nodup) (hsized : TypedSized b rows)
    (hshare : SeriesShareTags b rows) :
    readColumnarBatch (encodeColumnarTypedInto b rows) =
      readRows ((typedBatchIdentities b rows).identityRows.map (rowIdentity b)) (typedBatchIdentities b rows).refs
        ((typedSchema b).map decodedSchema) (rows.map fun row => b.seriesIDs.getD row 0)
        (rows.map fun row => b.timestamps.getD row 0)
        ((writeSeqTokens none (rows.map fun row => b.writeSeqs.getD row 0)).flatMap uvarint ++
          b.fields.flatMap (typedColumnBytes rows)) := by
  have hinv := typedInv_typedBatchIdentities b rows
  have hrefs := typedBatchIdentities_refs hshare
  have hlen := hinv.refs.length_eq
  rw [encodeColumnarTypedInto_eq hnodup]
  refine readColumnarBatch_rowsHeader ⟨?_, ?_⟩ ⟨?_, ?_⟩ ?_ (hlen ▸ hsized.count) (by simpa using hlen)
    (by simpa using hlen) _
  · simpa [typedSchema] using hsized.fields
  · intro f hf
    obtain ⟨c, hc, rfl⟩ := mem_map.mp hf
    exact hsized.names c hc
  · rw [length_map]
    exact hsized.count.mono hinv.count
  · intro i hi
    obtain ⟨row, hrow, rfl⟩ := mem_map.mp hi
    exact hsized.identities row (hinv.sources row hrow)
  · intro ref href
    obtain ⟨row, -, hget⟩ := exists_of_forall₂ hrefs href
    exact (List.getElem?_eq_some_iff.mp hget).1

theorem assembled_eq (hshare : SeriesShareTags b rows) :
    ((List.range (typedBatchIdentities b rows).refs.length).map fun i =>
      let identity := ((typedBatchIdentities b rows).identityRows.map (rowIdentity b)).getD
        ((typedBatchIdentities b rows).refs.getD i 0) emptyIdentity
      ({ database := identity.database
         retentionPolicy := identity.retentionPolicy
         measurement := identity.measurement
         tags := identity.tags
         seriesID := (rows.map fun row => b.seriesIDs.getD row 0).getD i 0
         timestamp := (rows.map fun row => b.timestamps.getD row 0).getD i 0
         writeSeq := (rows.map fun row => b.writeSeqs.getD row 0).getD i 0
         fields := rowFields ((typedSchema b).map decodedSchema) (b.fields.map (typedColumn rows)) i } :
           ResolvedPoint)) = rows.map (resolvedTypedPointAt b) := by
  have hrefs := typedBatchIdentities_refs hshare
  have hlen := hrefs.length_eq
  refine ext_getElem (by simp [hlen]) fun i hi hi' => ?_
  have hrow : i < rows.length := by simpa using hi'
  have href : i < (typedBatchIdentities b rows).refs.length := hlen ▸ hrow
  have hidentity := (forall₂_iff_get.mp hrefs).2 i hrow href
  have hcell : ∀ {α : Type} (g : Nat → α) (d : α), (rows.map g).getD i d = g rows[i] := fun g d => by
    rw [getD_eq_getElem?_getD, getElem?_map, getElem?_eq_getElem hrow, Option.map_some, Option.getD_some]
  have hid : ((typedBatchIdentities b rows).identityRows.map (rowIdentity b)).getD
      ((typedBatchIdentities b rows).refs.getD i 0) emptyIdentity = rowIdentity b rows[i] := by
    rw [getD_eq_getElem?_getD, getD_eq_getElem?_getD, getElem?_eq_getElem href, Option.getD_some]
    exact (congrArg (Option.getD · emptyIdentity) hidentity).trans (Option.getD_some ..)
  simp only [getElem_map, getElem_range, hcell, hid, rowFields_typedColumns (getElem?_eq_getElem hrow)]
  rfl

end Equivalence

section Sizes

theorem consumes_uvarint (name : String) : Consumes (BatchReader.uvarint name) fun n => (uvarint n).length :=
  consumes_ofReader _ fun _ _ _ => length_uvarint_le_of_read

theorem consumes_value (typ : UInt8) : Consumes (readValuePayload typ) fun x => (valueChunks x).flatten.length := by
  unfold readValuePayload
  split
  · refine consumes_bind (fun _ => 8) (consumes_ofReader _ fun bytes a rest h => ?_) fun a => ?_
    · unfold readUint64LE at h
      obtain ⟨⟨raw, rest'⟩, hread, heq⟩ := Option.map_eq_some_iff.mp h
      obtain ⟨-, rfl⟩ := Prod.mk.inj heq
      exact (readBytes_some hread).2.ge
    · exact consumes_pure _ (by simp [valueChunks, uint64LE])
  · refine consumes_bind (fun n => (varint n).length) (consumes_ofReader _ fun bytes a rest h => ?_) fun a => ?_
    · unfold readVarint at h
      obtain ⟨⟨u, rest'⟩, hread, heq⟩ := Option.map_eq_some_iff.mp h
      cases heq
      have hle := length_uvarint_le_of_read hread
      rwa [varint, zigZag_unzigZag]
    · exact consumes_pure _ (by simp [valueChunks])
  · refine consumes_bind (fun s => (stringBytes s).length) ?_ fun a => consumes_pure _ (by simp [valueChunks])
    intro bytes text rest h
    obtain ⟨length, mid, hlength, htext⟩ := parser_bind_ok h
    have hmid := consumes_ofReader _ (fun _ _ _ => length_uvarint_le_of_read) bytes length mid hlength
    have hrest := consumes_ofReader (fun text => length.toNat)
      (fun _ _ _ h => (readBytes_some h).2.ge) mid text rest htext
    have htake : text.length = length.toNat := by
      unfold Parser.ofReader at htext
      split at htext
      · simp at htext
      · next hread =>
        cases htext
        exact (readBytes_some hread).1
    dsimp only at hmid hrest ⊢
    rw [stringBytes, length_append, htake, UInt64.ofNat_toNat]
    omega
  · refine consumes_bind (fun _ => 1) ?_ fun a => consumes_pure _ (by simp [valueChunks])
    intro bytes value rest h
    obtain ⟨byte, mid, hbyte, hvalue⟩ := parser_bind_ok h
    obtain ⟨raw, mid', hraw, hhead⟩ := parser_bind_ok hbyte
    obtain ⟨-, rfl⟩ := Prod.mk.inj (Except.ok.inj hhead)
    have hmid := consumes_ofReader (fun _ => 1) (fun _ _ _ h => (readBytes_some h).2.ge) _ _ _ hraw
    have hrest : rest = mid' := by
      split_ifs at hvalue
      · exact (Prod.mk.inj (Except.ok.inj hvalue)).2.symm
      · exact (Prod.mk.inj (Except.ok.inj hvalue)).2.symm
      · simp [Parser.fail] at hvalue
    rw [hrest]
    exact hmid
  · intro bytes a rest h
    simp [Parser.fail] at h

theorem consumes_fieldColumn (rows : Nat) (field : DecodedSchema) :
    Consumes (readFieldColumn rows field) fun column => (rows + 7) / 8 + (columnValues column).length := by
  intro bytes column rest h
  obtain ⟨presence, mid, hpresence, hvalues⟩ := parser_bind_ok h
  obtain ⟨raw, mid', hraw, hbits⟩ := parser_bind_ok hpresence
  obtain ⟨-, rfl⟩ := Prod.mk.inj (Except.ok.inj hbits)
  have hmid := consumes_ofReader (fun _ => (rows + 7) / 8) (fun _ _ _ h => (readBytes_some h).2.ge) _ _ _ hraw
  have hcells := consumes_mapM (fun v => (v.elim [] fun x => (valueChunks x).flatten).length)
    (fun present _ => ?_) _ _ _ hvalues
  · dsimp only at hmid hcells ⊢
    rw [columnValues, length_flatMap]
    omega
  · split
    · exact consumes_bind _ (consumes_value field.typ) fun x => consumes_pure _ (by simp)
    · exact consumes_pure none rfl

theorem length_readFieldColumn (h : readFieldColumn rows field bytes = .ok (column, rest)) : column.length = rows := by
  obtain ⟨presence, mid, hpresence, hvalues⟩ := parser_bind_ok h
  obtain ⟨raw, mid', -, hbits⟩ := parser_bind_ok hpresence
  cases hbits
  rw [length_of_mapM_ok hvalues]
  simp

theorem length_readDeltaUvarints (h : readDeltaUvarints prev n bytes = .ok (seqs, rest)) : seqs.length = n := by
  induction n generalizing prev bytes seqs rest with
  | zero =>
    cases h
    rfl
  | succ n ih =>
    obtain ⟨seq, mid, -, htail⟩ := parser_bind_ok h
    obtain ⟨seqs', mid', hrest, hout⟩ := parser_bind_ok htail
    cases hout
    rw [length_cons, ih hrest]

end Sizes

section Converse

/-- Sequences that are read back either had no ambiguous pair, or the last one was completed by bytes behind the
tokens. -/
theorem seqsSafe_of_read {tail : Bytes}
    (h : readDeltaUvarints prev seqs.length ((writeSeqTokens prev seqs).flatMap uvarint ++ tail) = .ok (seqs, rest)) :
    SeqsSafe (prev.toList ++ seqs) ∨ rest.length < tail.length := by
  induction seqs generalizing prev with
  | nil => cases prev <;> simp [SeqsSafe]
  | cons s seqs ih =>
    obtain ⟨seq, mid, hseq, htail⟩ := parser_bind_ok h
    obtain ⟨seqs', mid', hseqs, hout⟩ := parser_bind_ok htail
    obtain ⟨hlist, rfl⟩ := Prod.mk.inj (Except.ok.inj hout)
    obtain ⟨rfl, rfl⟩ := List.cons.inj hlist
    cases prev with
    | none =>
      rw [writeSeqTokens, flatMap_cons, append_assoc] at hseq
      obtain ⟨-, rfl⟩ := Prod.mk.inj (Except.ok.inj ((parses_uvarint _ seq _).symm.trans hseq))
      exact ih hseqs
    | some prev =>
      rw [writeSeqTokens] at hseq
      split at hseq
      · next hlt =>
        rw [flatMap_cons, flatMap_cons, ← append_assoc, append_assoc] at hseq
        have hread : Parses (readWriteSeq (some prev)) (uvarint 0 ++ uvarint seq) seq :=
          (parses_uvarint _ 0).bind (parses_uvarint _ seq)
        obtain ⟨-, rfl⟩ := Prod.mk.inj (Except.ok.inj ((hread _).symm.trans hseq))
        refine (ih hseqs).imp_left fun hsafe => isChain_cons_cons.mpr ⟨?_, hsafe⟩
        rintro ⟨rfl, -⟩
        exact UInt64.not_lt_zero hlt
      · next hge =>
        by_cases hpair : prev = 0 ∧ seq = ~~~0
        · -- the token is 0, and the next number is taken for the sequence
          obtain ⟨rfl, rfl⟩ := hpair
          right
          have htoken : (~~~0 : UInt64) - 0 + 1 = 0 := by decide
          rw [htoken, flatMap_cons, append_assoc] at hseq
          unfold readWriteSeq at hseq
          dsimp only at hseq
          rw [(parses_uvarint _ 0).run, if_pos rfl] at hseq
          cases seqs' with
          | nil =>
            obtain ⟨-, rfl⟩ := Prod.mk.inj (Except.ok.inj hseqs)
            have hle := consumes_uvarint _ _ _ _ hseq
            have hpos := length_pos_of_ne_nil (uvarint_ne_nil (~~~0))
            simp only [writeSeqTokens, flatMap_nil, nil_append] at hle
            omega
          | cons s' seqs' =>
            rw [writeSeqTokens] at hseq
            split at hseq
            · rw [flatMap_cons, append_assoc] at hseq
              have hval := (Prod.mk.inj (Except.ok.inj ((parses_uvarint _ 0 _).symm.trans hseq))).1
              exact absurd hval (by decide)
            · next hmax =>
              rw [flatMap_cons, append_assoc] at hseq
              have hval := (Prod.mk.inj (Except.ok.inj ((parses_uvarint _ _ _).symm.trans hseq))).1
              have hs' : s' = ~~~0 := by
                have hle := UInt64.le_iff_toNat_le.mp (UInt64.not_lt.mp hmax)
                have hlt := s'.toNat_lt
                have hval : (~~~0 : UInt64).toNat = 2 ^ 64 - 1 := by decide
                exact UInt64.toNat_inj.mp (by omega)
              rw [hs'] at hval
              exact absurd hval (by decide)
        · have hne := writeSeq_token_ne_zero (UInt64.not_lt.mp hge) hpair
          rw [flatMap_cons, append_assoc] at hseq
          unfold readWriteSeq at hseq
          dsimp only at hseq
          rw [(parses_uvarint _ _).run, if_neg hne] at hseq
          obtain ⟨-, rfl⟩ := Prod.mk.inj (Except.ok.inj hseq)
          exact (ih hseqs).imp_left fun hsafe => isChain_cons_cons.mpr ⟨hpair, hsafe⟩

variable {b : SequencedBatch} {rows : List Nat}

theorem map_eq_map_some {α β : Type} {l : List α} {g : α → Option β} {out : List β} (h : l.filterMap g = out)
    (hlen : out.length = l.length) : l.map g = out.map some := by
  have hall := filterMap_length_eq_length.mp (h ▸ hlen)
  subst h
  clear hlen
  induction l with
  | nil => rfl
  | cons a l ih =>
    obtain ⟨x, hx⟩ := Option.isSome_iff_exists.mp (hall a mem_cons_self)
    rw [filterMap_cons_some hx, map_cons, map_cons, hx, ih fun y hy => hall y (mem_cons_of_mem _ hy)]

theorem columns_eq_of_rowFields {columns : List (List (Option FieldValue))} (hcount : columns.length = b.fields.length)
    (hlen : ∀ column ∈ columns, column.length = rows.length)
    (hrows : ∀ i row, rows[i]? = some row →
      rowFields ((typedSchema b).map decodedSchema) columns i = (resolvedTypedPointAt b row).fields) :
    columns = b.fields.map (typedColumn rows) := by
  refine ext_getElem (by simpa using hcount) fun j hj hj' => ?_
  have hf : j < b.fields.length := hcount ▸ hj
  refine ext_getElem (by simp [typedColumn, hlen _ (getElem_mem hj)]) fun i hi hi' => ?_
  have hi'' : i < rows.length := by simpa [typedColumn] using hi'
  have hfields := map_eq_map_some (hrows i rows[i] (getElem?_eq_getElem hi''))
    (by simp [resolvedTypedPointAt, typedSchema, hcount])
  have hzip : (((typedSchema b).map decodedSchema).zip columns)[j]? =
      some (decodedSchema ⟨b.fields[j].fieldID, b.fields[j].name, b.fields[j].type⟩, columns[j]) := by
    refine getElem?_zip_eq_some.mpr ⟨?_, getElem?_eq_getElem hj⟩
    rw [typedSchema, getElem?_map, getElem?_map, getElem?_eq_getElem hf]
    rfl
  have hcell := congrArg (·[j]?) hfields
  simp only [getElem?_map, hzip, resolvedTypedPointAt, getElem?_eq_getElem hf, Option.map_some,
    getD_eq_getElem?_getD, getElem?_eq_getElem hi, Option.getD_some] at hcell
  obtain ⟨value, hvalue, hfield⟩ := Option.map_eq_some_iff.mp (Option.some.inj hcell)
  rw [hvalue]
  simp only [typedColumn, getElem_map]
  exact congrArg (some ∘ Model.ResolvedField.value) hfield

/-- A payload that is read back as the points had no ambiguous sequences: bytes taken for the last one would be
missing at the end. -/
theorem seqsSafe_of_readColumnarBatch (hnodup : (b.tags.map TagColumn.name).Nodup) (hsized : TypedSized b rows)
    (hshare : SeriesShareTags b rows)
    (h : readColumnarBatch (encodeColumnarTypedInto b rows) = .ok (rows.map (resolvedTypedPointAt b), [])) :
    SeqsSafe (rows.map fun row => b.writeSeqs.getD row 0) := by
  have hlen := (typedInv_typedBatchIdentities b rows).refs.length_eq
  rw [readColumnarBatch_typed hnodup hsized hshare] at h
  unfold readRows at h
  rw [← hlen] at h
  obtain ⟨seqs, mid, hseqs, h⟩ := parser_bind_ok h
  obtain ⟨columns, rest, hcolumns, h⟩ := parser_bind_ok h
  obtain ⟨_, rest', hdone, h⟩ := parser_bind_ok h
  obtain ⟨hpoints, -⟩ := Prod.mk.inj (Except.ok.inj h)
  have hpoint : ∀ i row, rows[i]? = some row →
      seqs.getD i 0 = b.writeSeqs.getD row 0 ∧
        rowFields ((typedSchema b).map decodedSchema) columns i = (resolvedTypedPointAt b row).fields := by
    intro i row hrow
    have hi := (List.getElem?_eq_some_iff.mp hrow).1
    have hget := congrArg (·[i]?) hpoints
    simp only [getElem?_map, getElem?_range hi, hrow, Option.map_some, Option.some.injEq] at hget
    exact ⟨congrArg Model.ResolvedPoint.writeSeq hget, congrArg Model.ResolvedPoint.fields hget⟩
  have hseqsLen := length_readDeltaUvarints hseqs
  have hseqsEq : seqs = rows.map fun row => b.writeSeqs.getD row 0 := by
    refine ext_getElem (by simpa using hseqsLen) fun i hi hi' => ?_
    have hrow : i < rows.length := hseqsLen ▸ hi
    have hget := (hpoint i rows[i] (getElem?_eq_getElem hrow)).1
    rw [getD_eq_getElem?_getD, getElem?_eq_getElem hi, Option.getD_some] at hget
    rw [hget, getElem_map]
  have hcolumnsEq : columns = b.fields.map (typedColumn rows) := by
    refine columns_eq_of_rowFields ?_ ?_ fun i row hrow => (hpoint i row hrow).2
    · simpa [typedSchema] using length_of_mapM_ok hcolumns
    · exact forall_of_mapM_ok (fun field _ _ _ _ => length_readFieldColumn) hcolumns
  have hsum := consumes_mapM _ (fun field _ => consumes_fieldColumn rows.length field) _ _ _ hcolumns
  have htail : (b.fields.flatMap (typedColumnBytes rows)).length =
      (columns.map fun column => (rows.length + 7) / 8 + (columnValues column).length).sum := by
    rw [hcolumnsEq, map_map, length_flatMap]
    congr 2
    funext f
    simp [typedColumnBytes_eq, denseBits]
  have hlength : (rows.map fun row => b.writeSeqs.getD row 0).length = rows.length := length_map _
  rw [hseqsEq, ← hlength] at hseqs
  refine (seqsSafe_of_read hseqs).resolve_right fun hlt => ?_
  dsimp only at hsum
  omega

end Converse

section Main
variable {b : SequencedBatch} {rows : List Int}

/-- The record of a typed batch is read back as the points that the shard makes of the batch. -/
def TypedMatchesPoints (b : SequencedBatch) (rows : List Int) : Prop :=
  ∃ payload, encodeTypedBatchInto b rows = .ok payload ∧
    decodeBatch payload = .ok (resolvedPointsFromTypedBatch b rows)

theorem encodeColumnarTypedInto_ne_nil (b : SequencedBatch) (rows : List Nat) : encodeColumnarTypedInto b rows ≠ [] := by
  simp [encodeColumnarTypedInto, uvarint_ne_nil]

theorem readColumnarBatch_rest (h : readColumnarBatch bytes = .ok (points, rest)) : rest = [] := by
  obtain ⟨identities, _, -, h⟩ := parser_bind_ok h
  obtain ⟨schema, _, -, h⟩ := parser_bind_ok h
  obtain ⟨rowCount, _, -, h⟩ := parser_bind_ok h
  obtain ⟨refs, _, -, h⟩ := parser_bind_ok h
  obtain ⟨seriesIDs, _, -, h⟩ := parser_bind_ok h
  obtain ⟨timestamps, _, -, h⟩ := parser_bind_ok h
  obtain ⟨seqs, _, -, h⟩ := parser_bind_ok h
  obtain ⟨columns, _, -, h⟩ := parser_bind_ok h
  obtain ⟨_, rest', hdone, h⟩ := parser_bind_ok h
  obtain ⟨-, rfl⟩ := Prod.mk.inj (Except.ok.inj h)
  unfold BatchReader.done at hdone
  split at hdone
  · exact (Prod.mk.inj (Except.ok.inj hdone)).2.symm
  · simp at hdone

theorem typedMatchesPoints_iff_read (hvalid : validateResolvedTypedBatch b rows = .ok ⟨⟩) :
    TypedMatchesPoints b rows ↔ readColumnarBatch (encodeColumnarTypedInto b (typedRows b rows)) =
      .ok (resolvedPointsFromTypedBatch b rows, []) := by
  have hencode : encodeTypedBatchInto b rows = .ok (encodeColumnarTypedInto b (typedRows b rows)) := by
    rw [encodeTypedBatchInto, hvalid]
    rfl
  have hnonempty := encodeColumnarTypedInto_ne_nil b (typedRows b rows)
  have hdecode : ∀ points, decodeBatch (encodeColumnarTypedInto b (typedRows b rows)) = .ok points ↔
      ∃ rest, readColumnarBatch (encodeColumnarTypedInto b (typedRows b rows)) = .ok (points, rest) := by
    intro points
    rw [decodeBatch, if_neg (by simpa using hnonempty)]
    cases readColumnarBatch (encodeColumnarTypedInto b (typedRows b rows)) with
    | error e => simp [Except.map]
    | ok x =>
      simp only [Except.map, Except.ok.injEq]
      refine ⟨fun h => ⟨x.2, by rw [← h]⟩, ?_⟩
      rintro ⟨rest, h⟩
      rw [h]
  constructor
  · rintro ⟨payload, hpayload, hpoints⟩
    obtain rfl := Except.ok.inj (hencode.symm.trans hpayload)
    obtain ⟨rest, hread⟩ := (hdecode _).mp hpoints
    rw [hread, readColumnarBatch_rest hread]
  · intro hread
    exact ⟨_, hencode, (hdecode _).mpr ⟨[], hread⟩⟩

def wrappedBatch : SequencedBatch := ⟨⟨[100], [114], [109], [], [1, 2], [1, 1], []⟩, [0, ~~~0]⟩

/-- Two series with one tag, a float and a string column, and the rows in another order. -/
def twoSeriesBatch : SequencedBatch :=
  ⟨⟨[100], [114], [109], [⟨[104], [[97], [98], [97]]⟩], [5, 3, 9], [7, 8, 7],
    [⟨1, [118], .float64, ⟨[118], some .float64, [1, 2, 3], [], [], []⟩⟩,
      ⟨2, [115], .string, ⟨[115], some .string, [], [], [[120], [], [121, 122]], []⟩⟩]⟩, [4, 5, 6]⟩

end Main

end Mts.Wal
