import Mts.Lib.Exec
import Mts.Wal.Batch

/-! Decoding a batch payload gives back the points that were encoded, where the encoder's shortcuts
are harmless. -/

namespace Mts.Wal
open Lib Model List

variable {bits : Bytes} {row : Nat} {b : Buffer} {field : ColumnarFieldSchema}
  {identities : List BatchIdentity} {points : List ResolvedPoint} {p : ResolvedPoint} {k : Nat} {pre : Bytes}
  {column : List (Option FieldValue)}

@[simp] theorem flatten_uvarintChunks (n : UInt64) : (uvarintChunks n).flatten = uvarint n := by
  rw [uvarintChunks, ← flatMap_def, flatMap_singleton']

@[simp] theorem flatten_varintChunks (n : Int64) : (varintChunks n).flatten = varint n := by
  rw [varintChunks, ← flatMap_def, flatMap_singleton']

@[simp] theorem flatten_stringChunks (s : GoString) : (stringChunks s).flatten = stringBytes s := by
  simp [stringChunks, stringBytes]

theorem flatten_flatMap {α β : Type} (f : α → List (List β)) (l : List α) :
    (l.flatMap f).flatten = l.flatMap fun x => (f x).flatten := by
  induction l with
  | nil => rfl
  | cons x l ih => rw [flatMap_cons, flatten_append, ih, flatMap_cons]

@[simp] theorem flatten_tagsChunks (tags : TagMap) : (tagsChunks tags).flatten = tagsBytes tags := by
  simp [tagsChunks, tagsBytes, flatten_flatMap]

@[simp] theorem flatten_identityChunks (identity : BatchIdentity) :
    (identityChunks identity).flatten = identityBytes identity := by
  simp [identityChunks, identityBytes]

section Readers

theorem parses_uvarint (name : String) (n : UInt64) : Parses (BatchReader.uvarint name) (uvarint n) n :=
  parses_ofReader (readUvarint_append n)

theorem parses_varint (name : String) (n : Int64) : Parses (BatchReader.varint name) (varint n) n :=
  parses_ofReader (readVarint_append n)

theorem parses_intCount (name : String) (h : IntSized n) :
    Parses (BatchReader.intCount name) (uvarint (UInt64.ofNat n)) n :=
  Parser.parses_intCount (DecodeError.invalidUvarint name) (DecodeError.countOverflow name) h

theorem parses_string (name : String) (h : IntSized s.length) : Parses (BatchReader.string name) (stringBytes s) s :=
  Parser.parses_string (DecodeError.stringLength name) (DecodeError.stringTruncated name) h

theorem parses_byte (name : String) (x : UInt8) : Parses (BatchReader.byte name) [x] x :=
  Parser.parses_byte (DecodeError.missingByte name) x

theorem parses_bool (name : String) (x : Bool) : Parses (BatchReader.bool name) [if x then 1 else 0] x := by
  refine (parses_byte name (if x then 1 else 0)).bind_nil ?_
  cases x <;> exact parses_pure _

def ValueSized : FieldValue → Prop
  | .string s => IntSized s.length
  | _ => True

instance : DecidablePred ValueSized
  | .string s => inferInstanceAs (Decidable (IntSized s.length))
  | .float64 _ | .int64 _ | .bool _ => isTrue trivial

theorem parses_value (h : ValueSized v) :
    Parses (readValuePayload (fieldTypeByte v.type)) (valueChunks v).flatten v := by
  cases v with
  | float64 bits =>
    refine Parses.map (parses_ofReader fun rest => ?_) FieldValue.float64
    simp [valueChunks]
  | int64 value =>
    rw [valueChunks, flatten_varintChunks]
    exact (parses_varint _ value).map FieldValue.int64
  | string value =>
    rw [valueChunks, flatten_stringChunks]
    exact (parses_string _ h).map FieldValue.string
  | bool value => exact (parses_bool _ value).map FieldValue.bool

theorem parses_tags (hcount : IntSized tags.entries.length)
    (hsized : ∀ e ∈ tags.entries, IntSized e.1.length ∧ IntSized e.2.length) :
    Parses readTags (tagsBytes tags) tags := by
  refine (parses_intCount _ hcount).bind ?_
  have hpairs : Parses (Parser.times tags.entries.length readTagPair) _ tags.entries :=
    parses_times_self fun e he => (parses_string "tag key" (hsized e he).1).bind
      ((parses_string "tag value" (hsized e he).2).map fun value => (e.1, value))
  have hread := hpairs.map fun pairs => pairs.foldl setTag TagMap.empty
  rwa [show tags.entries.foldl setTag TagMap.empty = tags from tags.foldl_set_entries] at hread

@[mk_iff] structure IdentitySized (identity : BatchIdentity) : Prop where
  database : IntSized identity.database.length
  retentionPolicy : IntSized identity.retentionPolicy.length
  measurement : IntSized identity.measurement.length
  tagCount : IntSized identity.tags.entries.length
  tags : ∀ e ∈ identity.tags.entries, IntSized e.1.length ∧ IntSized e.2.length

instance : DecidablePred IdentitySized := fun identity => decidable_of_iff _ (identitySized_iff identity).symm

theorem parses_identity (h : IdentitySized identity) : Parses readIdentity (identityBytes identity) identity := by
  unfold identityBytes
  rw [append_assoc, append_assoc]
  refine (parses_string _ h.database).bind ?_
  refine (parses_string _ h.retentionPolicy).bind ?_
  refine (parses_string _ h.measurement).bind ?_
  exact (parses_tags h.tagCount h.tags).map fun tags => (⟨_, _, _, tags⟩ : BatchIdentity)

def decodedSchema (f : ColumnarFieldSchema) : DecodedSchema := ⟨f.fieldID, f.name, fieldTypeByte f.typ⟩

theorem parses_schemaField (h : IntSized f.name.length) :
    Parses readSchemaField (schemaChunks f).flatten (decodedSchema f) := by
  have hflat : (schemaChunks f).flatten =
      stringBytes f.name ++ (uvarint f.fieldID.toUInt64 ++ [fieldTypeByte f.typ]) := by
    simp [schemaChunks]
  rw [hflat]
  refine (parses_string _ h).bind ((parses_uvarint _ _).bind ?_)
  have := (parses_byte "field type" (fieldTypeByte f.typ)).map fun typ =>
    (⟨f.fieldID.toUInt64.toUInt32, f.name, typ⟩ : DecodedSchema)
  simpa [decodedSchema] using this

theorem parses_identityRef (h : ref < identities.length) (hsized : IntSized ref) :
    Parses (readIdentityRef identities) (uvarint (UInt64.ofNat ref)) ref := by
  refine (parses_intCount _ hsized).bind_nil ?_
  rw [if_neg (by omega)]
  exact parses_pure ref

theorem parses_deltaVarints (prev : Option Int64) (ts : List Int64) :
    Parses (readDeltaVarints prev ts.length) ((timestampDeltas prev ts).flatMap varint) ts := by
  induction ts generalizing prev with
  | nil => cases prev <;> exact parses_pure []
  | cons t ts ih =>
    cases prev with
    | none =>
      rw [timestampDeltas, flatMap_cons]
      exact (parses_varint _ t).bind ((ih (some t)).map (t :: ·))
    | some prev =>
      rw [timestampDeltas, flatMap_cons]
      refine (parses_varint _ (t - prev)).bind ?_
      have ht : prev + (t - prev) = t := by
        rw [Int64.add_comm, Int64.sub_add_cancel]
      dsimp only
      rw [ht]
      exact (ih (some t)).map (t :: ·)

/-- The tokens of write sequences are ambiguous where 0 is followed by the greatest sequence. -/
def SeqsSafe (seqs : List UInt64) : Prop := seqs.IsChain fun a b => ¬ (a = 0 ∧ b = ~~~0)

instance (seqs : List UInt64) : Decidable (SeqsSafe seqs) := inferInstanceAs (Decidable (seqs.IsChain _))

theorem writeSeq_token_ne_zero {prev s : UInt64} (hle : prev ≤ s) (h : ¬ (prev = 0 ∧ s = ~~~0)) :
    s - prev + 1 ≠ 0 := by
  intro h0
  have hsub : (s - prev).toNat = s.toNat - prev.toNat := UInt64.toNat_sub_of_le _ _ hle
  have hadd : (s - prev + 1).toNat = (s.toNat - prev.toNat + 1) % 2 ^ 64 := by
    rw [UInt64.toNat_add, hsub]
    rfl
  rw [h0] at hadd
  have hs := s.toNat_lt
  have hzero : (0 : UInt64).toNat = 0 := rfl
  have hmax : s.toNat = 2 ^ 64 - 1 ∧ prev.toNat = 0 := by omega
  exact h ⟨UInt64.toNat_inj.mp hmax.2, UInt64.toNat_inj.mp hmax.1⟩

theorem parses_deltaUvarints (prev : Option UInt64) (seqs : List UInt64) (h : SeqsSafe (prev.toList ++ seqs)) :
    Parses (readDeltaUvarints prev seqs.length) ((writeSeqTokens prev seqs).flatMap uvarint) seqs := by
  induction seqs generalizing prev with
  | nil => cases prev <;> exact parses_pure []
  | cons s seqs ih =>
    cases prev with
    | none =>
      rw [writeSeqTokens, flatMap_cons]
      exact (parses_uvarint _ s).bind ((ih (some s) h).map (s :: ·))
    | some prev =>
      have hpair : ¬ (prev = 0 ∧ s = ~~~0) := (isChain_cons_cons.mp h).1
      have hrest := (ih (some s) (isChain_cons_cons.mp h).2).map (s :: ·)
      rw [writeSeqTokens]
      split
      · next hlt =>
        rw [flatMap_cons, flatMap_cons, ← append_assoc]
        refine Parses.bind ?_ hrest
        exact (parses_uvarint _ 0).bind (parses_uvarint _ s)
      · next hge =>
        rw [flatMap_cons]
        refine Parses.bind ?_ hrest
        refine (parses_uvarint _ _).bind_nil ?_
        rw [if_neg (writeSeq_token_ne_zero (UInt64.not_lt.mp hge) hpair)]
        have hseq : prev + (s - prev + 1) - 1 = s := by
          rw [← UInt64.add_assoc, UInt64.add_sub_cancel, UInt64.add_comm, UInt64.sub_add_cancel]
        rw [hseq]
        exact parses_pure s

end Readers
theorem identityBytes_inj {a b : BatchIdentity} (ha : IdentitySized a) (hb : IdentitySized b)
    (h : identityBytes a = identityBytes b) : a = b := by
  have hra := parses_identity ha []
  rw [h, parses_identity hb []] at hra
  exact (Prod.mk.inj (Except.ok.inj hra)).1.symm

structure IdentityInv (points : List ResolvedPoint) (s : IdentityState) : Prop where
  refs : List.Forall₂ (fun p ref => s.identities[ref]? = some (newBatchIdentity p)) points s.refs
  keys : ∀ e ∈ s.seenIdentity, ∃ identity, s.identities[e.2]? = some identity ∧ identityBytes identity = e.1
  sources : ∀ identity ∈ s.identities, ∃ p ∈ points, newBatchIdentity p = identity
  count : s.identities.length ≤ points.length

section Identities
variable {points : List ResolvedPoint} {s : IdentityState} {p : ResolvedPoint} {seenSeries : SeriesRefIndex}

theorem IdentityInv.known (h : IdentityInv points s) (href : s.identities[ref]? = some (newBatchIdentity p)) :
    IdentityInv (points ++ [p]) { s with refs := s.refs ++ [ref], seenSeries := seenSeries } where
  refs := rel_append h.refs (List.Forall₂.cons href List.Forall₂.nil)
  keys := h.keys
  sources identity hmem := by
    obtain ⟨q, hq, heq⟩ := h.sources identity hmem
    exact ⟨q, mem_append_left _ hq, heq⟩
  count := by
    have := h.count
    simp only [length_append]
    omega

theorem IdentityInv.new (h : IdentityInv points s) (hkeys : ∀ e ∈ seenIdentity, e ∈ s.seenIdentity ∨
      e = (identityBytes (newBatchIdentity p), s.identities.length)) :
    IdentityInv (points ++ [p])
      { identities := s.identities ++ [newBatchIdentity p], refs := s.refs ++ [s.identities.length]
        seenSeries := seenSeries, seenIdentity := seenIdentity } where
  refs := by
    refine rel_append (h.refs.imp fun q ref hq => ?_) (List.Forall₂.cons (by simp) List.Forall₂.nil)
    rw [getElem?_append_left (List.getElem?_eq_some_iff.mp hq).1]
    exact hq
  keys e he := by
    rcases hkeys e he with he | rfl
    · obtain ⟨identity, hget, hkey⟩ := h.keys e he
      refine ⟨identity, ?_, hkey⟩
      rw [getElem?_append_left (List.getElem?_eq_some_iff.mp hget).1]
      exact hget
    · exact ⟨_, by simp, rfl⟩
  sources identity hmem := by
    rcases mem_append.mp hmem with hmem | hmem
    · obtain ⟨q, hq, heq⟩ := h.sources identity hmem
      exact ⟨q, mem_append_left _ hq, heq⟩
    · exact ⟨p, by simp, (mem_singleton.mp hmem).symm⟩
  count := by
    have := h.count
    simp only [length_append, length_singleton]
    omega

theorem IdentityInv.refByKey (h : IdentityInv points s) (hsized : ∀ q ∈ points ++ [p], IdentitySized (newBatchIdentity q)) :
    IdentityInv (points ++ [p]) (s.refByKey p) := by
  unfold IdentityState.refByKey
  dsimp only
  cases hfind : s.seenIdentity.find? fun e => e.1 = identityBytes (newBatchIdentity p) with
  | none =>
    simp only [Option.map_none, Option.getD_none, if_true, Option.isSome_none, Bool.false_eq_true, if_false]
    exact h.new fun e he => (mem_cons.mp he).symm
  | some e =>
    obtain ⟨identity, hget, hkey⟩ := h.keys e (mem_of_find?_eq_some hfind)
    obtain ⟨q, hq, rfl⟩ := h.sources identity (mem_of_getElem? hget)
    have hlt := (List.getElem?_eq_some_iff.mp hget).1
    have heq : newBatchIdentity q = newBatchIdentity p := by
      refine identityBytes_inj (hsized q (mem_append_left _ hq)) (hsized p (by simp)) (hkey.trans ?_)
      simpa using find?_some hfind
    simp only [Option.map_some, Option.getD_some, if_neg (Nat.ne_of_lt hlt), Option.isSome_some, if_true]
    exact h.known (heq ▸ hget)

theorem IdentityInv.next (h : IdentityInv points s) (hsized : ∀ q ∈ points ++ [p], IdentitySized (newBatchIdentity q))
    (hmatch : ∀ q ∈ points, identityMatches p (newBatchIdentity q) = true → newBatchIdentity q = newBatchIdentity p) :
    IdentityInv (points ++ [p]) (s.next p) := by
  have hknown : ∀ {ref : Nat} {identity : BatchIdentity}, s.identities[ref]? = some identity → identityMatches p identity = true →
      s.identities[ref]? = some (newBatchIdentity p) := by
    intro ref identity hget hm
    obtain ⟨q, hq, rfl⟩ := h.sources identity (mem_of_getElem? hget)
    rw [← hmatch q hq hm]
    exact hget
  unfold IdentityState.next
  split
  · next ref hlast =>
    refine h.known ?_
    unfold lastIdentityRef at hlast
    split at hlast
    · simp at hlast
    · next identity hget =>
      split at hlast
      · next hm =>
        cases hlast
        exact hknown (by rw [← getLast?_eq_getElem?]; exact hget) hm
      · simp at hlast
  · split
    · split
      · split
        · next identity hget =>
          split
          · next hm => exact h.known (hknown hget hm)
          · exact h.refByKey hsized
        · exact h.refByKey hsized
      · exact h.new fun e he => .inl he
    · exact h.refByKey hsized

/-- No point is taken for a point with other tags. -/
def IdentitiesSafe (points : List ResolvedPoint) : Prop :=
  ∀ p ∈ points, ∀ q ∈ points, identityMatches p (newBatchIdentity q) = true → p.tags = q.tags

instance (points : List ResolvedPoint) : Decidable (IdentitiesSafe points) :=
  inferInstanceAs (Decidable (∀ p ∈ points, ∀ q ∈ points, _))

theorem newBatchIdentity_eq_of_matches (h : identityMatches p (newBatchIdentity q) = true)
    (htags : p.tags = q.tags) : newBatchIdentity q = newBatchIdentity p := by
  simp only [identityMatches, newBatchIdentity, Bool.and_eq_true] at h
  obtain ⟨⟨⟨⟨hdb, hrp⟩, hm⟩, -⟩, -⟩ := h
  rw [newBatchIdentity, newBatchIdentity, of_decide_eq_true hdb, of_decide_eq_true hrp, of_decide_eq_true hm, htags]

theorem batchIdentities_spec (hsized : ∀ q ∈ points, IdentitySized (newBatchIdentity q))
    (hsafe : IdentitiesSafe points) :
    List.Forall₂ (fun p ref => (batchIdentities points).1[ref]? = some (newBatchIdentity p)) points
        (batchIdentities points).2 ∧
      (∀ identity ∈ (batchIdentities points).1, ∃ p ∈ points, newBatchIdentity p = identity) ∧
      (batchIdentities points).1.length ≤ points.length := by
  have hloop : ∀ (done todo : List ResolvedPoint) (s : IdentityState), done ++ todo = points →
      IdentityInv done s → IdentityInv points (todo.foldl IdentityState.next s) := by
    intro done todo
    induction todo generalizing done with
    | nil =>
      rintro s rfl h
      simpa using h
    | cons p todo ih =>
      intro s hsplit h
      have hsub : ∀ q ∈ done ++ [p], q ∈ points := by
        intro q hq
        rw [← hsplit]
        simp only [mem_append, mem_cons] at hq ⊢
        tauto
      rw [foldl_cons]
      refine ih (done ++ [p]) _ (by simpa using hsplit) (h.next (fun q hq => hsized q (hsub q hq)) ?_)
      intro q hq hm
      exact newBatchIdentity_eq_of_matches hm (hsafe p (hsub p (by simp)) q (hsub q (mem_append_left _ hq)) hm)
  have hinv := hloop [] points ⟨[], [], newSeriesRefIndex points, []⟩ rfl ⟨List.Forall₂.nil, by simp, by simp, by simp⟩
  exact ⟨hinv.refs, hinv.sources, hinv.count⟩

end Identities
theorem buildPointFieldSchema_ok (htyped : ∀ p ∈ points, ∀ f ∈ p.fields, f.type = f.value.type) :
    ∃ schema, buildPointFieldSchema points = .ok schema ∧ schema.Nodup ∧
      ∀ x, x ∈ schema ↔ ∃ p ∈ points, ∃ f ∈ p.fields, schemaOf f = x := by
  have hloop : ∀ (fields : List ResolvedField) (acc : List ColumnarFieldSchema), acc.Nodup →
      (∀ f ∈ fields, f.type = f.value.type) → ∃ schema, fields.foldlM (fun schema f =>
        if f.type ≠ f.value.type then .error (.typeMismatch f.fieldName f.type f.value.type)
        else if schemaOf f ∈ schema then .ok schema
        else .ok (schema ++ [schemaOf f])) acc = Except.ok (ε := EncodeError) schema ∧ schema.Nodup ∧
          ∀ x, x ∈ schema ↔ x ∈ acc ∨ ∃ f ∈ fields, schemaOf f = x := by
    intro fields
    induction fields with
    | nil =>
      intro acc hacc _
      exact ⟨acc, rfl, hacc, by simp⟩
    | cons f fields ih =>
      intro acc hacc hfields
      have hrest := fun x hx => hfields x (mem_cons_of_mem _ hx)
      rw [foldlM_cons, if_neg (not_not.mpr (hfields f mem_cons_self))]
      by_cases hmem : schemaOf f ∈ acc
      · obtain ⟨schema, hok, hnodup, hiff⟩ := ih acc hacc hrest
        refine ⟨schema, by rw [if_pos hmem]; exact hok, hnodup, fun x => ?_⟩
        rw [hiff]
        grind
      · have hacc' : (acc ++ [schemaOf f]).Nodup := by
          rw [nodup_append]
          refine ⟨hacc, nodup_singleton _, fun a ha b hb => ?_⟩
          rintro rfl
          exact hmem (mem_singleton.mp hb ▸ ha)
        obtain ⟨schema, hok, hnodup, hiff⟩ := ih _ hacc' hrest
        refine ⟨schema, by rw [if_neg hmem]; exact hok, hnodup, fun x => ?_⟩
        rw [hiff]
        grind
  obtain ⟨schema, hok, hnodup, hiff⟩ := hloop (points.flatMap ResolvedPoint.fields) [] nodup_nil (by
    intro f hf
    obtain ⟨p, hp, hf⟩ := mem_flatMap.mp hf
    exact htyped p hp f hf)
  refine ⟨schema.insertionSort schemaLe, by rw [buildPointFieldSchema, hok]; rfl,
    (perm_insertionSort _ _).nodup_iff.mpr hnodup, fun x => ?_⟩
  rw [mem_insertionSort, hiff]
  simp only [not_mem_nil, false_or, mem_flatMap]
  grind

theorem and_two_pow_ne_zero (x : UInt8) (hj : j < 8) :
    ((x &&& UInt8.ofNat (2 ^ j)) ≠ 0) ↔ x.toNat.testBit j = true := by
  have hpow : (UInt8.ofNat (2 ^ j)).toNat = 2 ^ j := by
    rw [UInt8.toNat_ofNat']
    exact Nat.mod_eq_of_lt (Nat.pow_lt_pow_right (by decide) hj)
  rw [ne_eq, ← UInt8.toNat_inj, UInt8.toNat_and, hpow, Nat.and_two_pow]
  cases x.toNat.testBit j
  · simp
  · have := Nat.two_pow_pos j
    simp

theorem testBit_or_two_pow (x : UInt8) (hk : k < 8) :
    (x ||| UInt8.ofNat (2 ^ k)).toNat.testBit j = (x.toNat.testBit j || decide (k = j)) := by
  have hpow : (UInt8.ofNat (2 ^ k)).toNat = 2 ^ k := by
    rw [UInt8.toNat_ofNat']
    exact Nat.mod_eq_of_lt (Nat.pow_lt_pow_right (by decide) hk)
  rw [UInt8.toNat_or, hpow, Nat.testBit_or, Nat.testBit_two_pow]

def bitSet (bytes : Bytes) (row : Nat) : Bool := (bytes.getD (row / 8) 0).toNat.testBit (row % 8)

@[simp] theorem length_setBit (bytes : Bytes) (start row : Nat) : (setBit bytes start row).length = bytes.length := by
  rw [setBit, length_modify]

theorem bitSet_setBit (hrow : row / 8 < bits.length) :
    bitSet (setBit bits 0 row) i = (bitSet bits i || decide (row = i)) := by
  unfold bitSet setBit
  have hmod : row % 8 < 8 := Nat.mod_lt _ (by decide)
  simp only [Nat.zero_add, getD_eq_getElem?_getD, getElem?_modify]
  by_cases hbyte : row / 8 = i / 8
  · rw [← hbyte, getElem?_eq_getElem hrow]
    simp only [if_true, Option.map_eq_map, Option.map_some, Option.getD_some]
    rw [testBit_or_two_pow _ hmod]
    congr 1
    exact decide_eq_decide.mpr ⟨fun h => by omega, fun h => by omega⟩
  · have hne : row ≠ i := fun h => hbyte (h ▸ rfl)
    simp [hbyte, hne]

theorem setBit_append (hrow : row / 8 < bits.length) (tail : Bytes) :
    setBit (pre ++ bits ++ tail) pre.length row = pre ++ setBit bits 0 row ++ tail := by
  obtain ⟨front, x, back, rfl, hfront⟩ : ∃ front x back, bits = front ++ x :: back ∧ front.length = row / 8 :=
    ⟨bits.take (row / 8), bits[row / 8], bits.drop (row / 8 + 1), by simp, by simp; omega⟩
  unfold setBit
  have hinner := modifyTailIdx_add (List.modifyHead fun x => x ||| UInt8.ofNat (2 ^ (row % 8))) 0 front (x :: back)
  have houter := modifyTailIdx_add
    (List.modifyHead fun x => x ||| UInt8.ofNat (2 ^ (row % 8))) 0 (pre ++ front) (x :: (back ++ tail))
  simp only [Nat.add_zero, hfront, length_append] at hinner houter
  rw [Nat.zero_add]
  simp only [List.modify, append_assoc, cons_append] at hinner houter ⊢
  rw [hinner, houter]
  simp

def markRows : Nat → List (Option FieldValue) → Bytes → Bytes
  | _, [], bits => bits
  | row, none :: column, bits => markRows (row + 1) column bits
  | row, some _ :: column, bits => markRows (row + 1) column (setBit bits 0 row)

theorem length_markRows (row : Nat) (column : List (Option FieldValue)) (bits : Bytes) :
    (markRows row column bits).length = bits.length := by
  induction column generalizing row bits with
  | nil => rfl
  | cons v column ih => cases v <;> simp [markRows, ih]

theorem bitSet_markRows (h : row + column.length ≤ 8 * bits.length) (i : Nat) :
    bitSet (markRows row column bits) i =
      (bitSet bits i || decide (row ≤ i) && (column.getD (i - row) none).isSome) := by
  induction column generalizing row bits with
  | nil => simp [markRows]
  | cons v column ih =>
    rw [length_cons] at h
    have hstep : ∀ b : Bool, b = decide (row = i) →
        (v.isSome && b || decide (row + 1 ≤ i) && (column.getD (i - (row + 1)) none).isSome) =
          (decide (row ≤ i) && ((v :: column).getD (i - row) none).isSome) := by
      rintro _ rfl
      rcases Nat.lt_trichotomy i row with hi | rfl | hi
      · simp [Nat.not_le.mpr hi, Nat.not_le.mpr (Nat.lt_succ_of_lt hi), Nat.ne_of_gt hi]
      · simp
      · rw [show i - row = (i - (row + 1)) + 1 by omega, getD_cons_succ]
        simp [Nat.le_of_lt hi, Nat.succ_le_of_lt hi, Nat.ne_of_lt hi]
    rw [← hstep _ rfl]
    cases v with
    | none =>
      rw [markRows, ih (by omega)]
      simp
    | some x =>
      rw [markRows, ih (by rw [length_setBit]; omega), bitSet_setBit (by omega), Bool.or_assoc]
      simp

structure IsBitmap (bytes : Bytes) (presence : List Bool) : Prop where
  length : bytes.length = (presence.length + 7) / 8
  bits : ∀ i < presence.length, bitSet bytes i = presence.getD i false

theorem parses_presence (h : IsBitmap bytes presence) : Parses (readPresenceBits presence.length) bytes presence := by
  have hraw : Parses (Parser.ofReader (readBytes ((presence.length + 7) / 8))
      (DecodeError.truncated "presence bitmap")) bytes bytes :=
    parses_ofReader fun rest => readBytes_append h.length rest
  have hread := hraw.map fun raw => (List.range presence.length).map fun i =>
    decide ((raw.getD (i / 8) 0 &&& UInt8.ofNat (2 ^ (i % 8))) ≠ 0)
  have hbits : ((List.range presence.length).map fun i =>
      decide ((bytes.getD (i / 8) 0 &&& UInt8.ofNat (2 ^ (i % 8))) ≠ 0)) = presence := by
    apply ext_getElem (by simp)
    intro i hi hi'
    simp only [getElem_map, getElem_range]
    have hbit := h.bits i hi'
    rw [getD_eq_getElem?_getD, getElem?_eq_getElem hi', Option.getD_some] at hbit
    rw [← hbit, bitSet, Bool.eq_iff_iff, decide_eq_true_iff]
    exact and_two_pow_ne_zero _ (Nat.mod_lt _ (by decide))
  rwa [hbits] at hread

theorem isBitmap_dense (n : Nat) : IsBitmap (denseBits n) (List.replicate n true) := by
  constructor
  · simp [denseBits]
  · intro i hi
    simp only [length_replicate] at hi
    have hbyte : i / 8 < (n + 7) / 8 := by omega
    rw [bitSet, getD_eq_getElem?_getD, denseBits, getElem?_map, getElem?_range hbyte]
    simp only [Option.map_some, Option.getD_some, getD_eq_getElem?_getD, getElem?_replicate, hi, if_true]
    split
    · next hlast =>
      have hpow : (UInt8.ofNat (2 ^ (n % 8) - 1)).toNat = 2 ^ (n % 8) - 1 := by
        rw [UInt8.toNat_ofNat']
        have : 2 ^ (n % 8) ≤ 2 ^ 8 := Nat.pow_le_pow_right (by decide) (by omega)
        omega
      rw [hpow, Nat.testBit_two_pow_sub_one]
      exact decide_eq_true (by omega)
    · rw [show (255 : UInt8).toNat = 2 ^ 8 - 1 from rfl, Nat.testBit_two_pow_sub_one]
      exact decide_eq_true (by omega)
section Header
variable {identities : List BatchIdentity} {refs : List Nat} {schema : List ColumnarFieldSchema}
  {seriesIDs : List UInt64} {timestamps : List Int64}

def rowsHeader (identities : List BatchIdentity) (refs : List Nat) (schema : List ColumnarFieldSchema)
    (seriesIDs : List UInt64) (timestamps : List Int64) : Bytes :=
  (uvarint (UInt64.ofNat identities.length) ++ identities.flatMap identityBytes) ++
    ((uvarint (UInt64.ofNat schema.length) ++ schema.flatMap fun f => (schemaChunks f).flatten) ++
    (uvarint (UInt64.ofNat refs.length) ++ (refs.flatMap (fun ref => uvarint (UInt64.ofNat ref)) ++
    (seriesIDs.flatMap uvarint ++ (timestampDeltas none timestamps).flatMap varint))))

def readRows (identities : List BatchIdentity) (refs : List Nat) (schema : List DecodedSchema)
    (seriesIDs : List UInt64) (timestamps : List Int64) : BatchReader (List ResolvedPoint) := do
  let writeSeqs ← readDeltaUvarints none refs.length
  let columns ← schema.mapM (readFieldColumn refs.length)
  BatchReader.done "wal columnar batch"
  return (List.range refs.length).map fun row =>
    let identity := identities.getD (refs.getD row 0) emptyIdentity
    { database := identity.database
      retentionPolicy := identity.retentionPolicy
      measurement := identity.measurement
      tags := identity.tags
      seriesID := seriesIDs.getD row 0
      timestamp := timestamps.getD row 0
      writeSeq := writeSeqs.getD row 0
      fields := rowFields schema columns row }

theorem readColumnarBatch_rowsHeader (hschema : IntSized schema.length ∧ ∀ f ∈ schema, IntSized f.name.length)
    (hidentities : IntSized identities.length ∧ ∀ i ∈ identities, IdentitySized i)
    (hrefs : ∀ ref ∈ refs, ref < identities.length) (hrows : IntSized refs.length)
    (hseries : seriesIDs.length = refs.length) (htimes : timestamps.length = refs.length) (rest : Bytes) :
    readColumnarBatch (rowsHeader identities refs schema seriesIDs timestamps ++ rest) =
      readRows identities refs (schema.map decodedSchema) seriesIDs timestamps rest := by
  have hi : Parses readBatchIdentities
      (uvarint (UInt64.ofNat identities.length) ++ identities.flatMap identityBytes) identities :=
    (parses_intCount "identity count" hidentities.1).bind
      (parses_times_self fun i hi => parses_identity (hidentities.2 i hi))
  have hs : Parses readColumnarSchema
      (uvarint (UInt64.ofNat schema.length) ++ schema.flatMap fun f => (schemaChunks f).flatten)
      (schema.map decodedSchema) :=
    (parses_intCount "field schema count" hschema.1).bind
      (parses_times fun f hf => parses_schemaField (hschema.2 f hf))
  have hr : Parses (Parser.times refs.length (readIdentityRef identities))
      (refs.flatMap fun ref => uvarint (UInt64.ofNat ref)) refs :=
    parses_times_self fun ref href =>
      parses_identityRef (hrefs ref href) (Nat.lt_trans (hrefs ref href) hidentities.1)
  have hid : Parses (Parser.times seriesIDs.length (BatchReader.uvarint "series id"))
      (seriesIDs.flatMap uvarint) seriesIDs := parses_times_self fun id _ => parses_uvarint "series id" id
  have ht := parses_deltaVarints none timestamps
  rw [hseries] at hid
  rw [htimes] at ht
  unfold rowsHeader readColumnarBatch
  simp only [append_assoc]
  rw [← append_assoc (uvarint (UInt64.ofNat identities.length)), hi.run,
    ← append_assoc (uvarint (UInt64.ofNat schema.length)), hs.run,
    (parses_intCount "row count" hrows).run, hr.run, hid.run, ht.run]
  rfl

end Header

def columnValues (column : List (Option FieldValue)) : Bytes :=
  column.flatMap fun v => v.elim [] fun x => (valueChunks x).flatten

theorem parses_fieldColumn {field : DecodedSchema} (hfield : field.typ = fieldTypeByte typ)
    (hbits : IsBitmap bits (column.map Option.isSome))
    (hvalues : ∀ x, some x ∈ column → x.type = typ ∧ ValueSized x) :
    Parses (readFieldColumn column.length field) (bits ++ columnValues column) column := by
  have hpresence := parses_presence hbits
  rw [length_map] at hpresence
  refine hpresence.bind ?_
  rw [mapM_map]
  have hcell : ∀ v ∈ column, Parses
      (if v.isSome then do return some (← readValuePayload field.typ) else return none)
      (v.elim [] fun x => (valueChunks x).flatten) v := by
    intro v hv
    cases v with
    | none => exact parses_pure none
    | some x =>
      obtain ⟨htype, hsized⟩ := hvalues x hv
      rw [hfield, ← htype]
      exact (parses_value hsized).map some
  have hcells := parses_mapM hcell
  rwa [map_id'] at hcells

section Buffers
variable {grow : Nat → Nat → Nat} {schema : List ColumnarFieldSchema}

@[simp] theorem bytes_appendAll (b : Buffer) (chunks : List Bytes) :
    (b.appendAll grow chunks).bytes = b.bytes ++ chunks.flatten := by
  unfold Buffer.appendAll
  induction chunks generalizing b with
  | nil => simp
  | cons chunk chunks ih => simp [ih, Buffer.append]

theorem cap_appendAll (h : b.bytes.length + chunks.flatten.length ≤ b.cap) :
    (b.appendAll grow chunks).cap = b.cap := by
  unfold Buffer.appendAll
  induction chunks generalizing b with
  | nil => rfl
  | cons chunk chunks ih =>
    simp only [flatten_cons, length_append] at h
    have hcap : (b.append grow chunk).cap = b.cap := by
      rw [Buffer.append, if_pos (by omega)]
    have hlen : (b.append grow chunk).bytes.length = b.bytes.length + chunk.length := by
      simp [Buffer.append]
    rw [foldl_cons, ih (by rw [hcap, hlen]; omega), hcap]

def fieldColumn (points : List ResolvedPoint) (field : ColumnarFieldSchema) : List (Option FieldValue) :=
  points.map fun p => lookupPointField p field

theorem appendPointFieldLoop_spec {tail : Bytes} (row : Nat) (hb : b.bytes = pre ++ bits ++ tail)
    (hrows : row + points.length ≤ 8 * bits.length)
    (hfit : b.bytes.length + (columnValues (fieldColumn points field)).length ≤ b.cap) :
    appendPointFieldLoop grow pre.length field row true b points =
      ⟨pre ++ markRows row (fieldColumn points field) bits ++ (tail ++ columnValues (fieldColumn points field)),
        b.cap⟩ := by
  induction points generalizing row b bits tail with
  | nil =>
    obtain ⟨bytes, cap⟩ := b
    simp [appendPointFieldLoop, fieldColumn, columnValues, markRows, ← hb]
  | cons p points ih =>
    have hcolumn : fieldColumn (p :: points) field = lookupPointField p field :: fieldColumn points field := rfl
    rw [length_cons] at hrows
    rw [hcolumn] at hfit ⊢
    rw [appendPointFieldLoop]
    cases hvalue : lookupPointField p field with
    | none =>
      rw [hvalue] at hfit
      exact ih (row + 1) hb (by omega) hfit
    | some value =>
      rw [hvalue] at hfit
      have hvalues : columnValues (some value :: fieldColumn points field) =
          (valueChunks value).flatten ++ columnValues (fieldColumn points field) := rfl
      rw [hvalues] at hfit ⊢
      rw [length_append] at hfit
      simp only [if_true, Bool.true_and]
      let marked : Buffer := { b with bytes := setBit b.bytes pre.length row }
      have hmarked : marked.bytes.length = b.bytes.length := length_setBit ..
      have hbytes : (marked.appendAll grow (valueChunks value)).bytes =
          pre ++ setBit bits 0 row ++ (tail ++ (valueChunks value).flatten) := by
        rw [bytes_appendAll, show marked.bytes = setBit b.bytes pre.length row from rfl, hb,
          setBit_append (by omega), append_assoc _ tail]
      have hlen : (marked.appendAll grow (valueChunks value)).bytes.length =
          b.bytes.length + (valueChunks value).flatten.length := by
        rw [bytes_appendAll, length_append, hmarked]
      have hcap : (marked.appendAll grow (valueChunks value)).cap = b.cap :=
        cap_appendAll (by rw [hmarked]; show _ ≤ b.cap; omega)
      rw [decide_eq_true (p := _ ≤ b.cap) (by rw [hlen]; omega),
        ih (row + 1) hbytes (by rw [length_setBit]; omega) (by rw [hlen, hcap]; omega), hcap, markRows,
        append_assoc tail]

def columnSize (points : List ResolvedPoint) (field : ColumnarFieldSchema) : Nat :=
  (points.length + 7) / 8 + (columnValues (fieldColumn points field)).length

def columnBytes (bits : ColumnarFieldSchema → Bytes) (points : List ResolvedPoint) (field : ColumnarFieldSchema) :
    Bytes := bits field ++ columnValues (fieldColumn points field)

def sparseBits (points : List ResolvedPoint) (field : ColumnarFieldSchema) : Bytes :=
  markRows 0 (fieldColumn points field) (List.replicate ((points.length + 7) / 8) 0)

theorem isBitmap_sparse (points : List ResolvedPoint) (field : ColumnarFieldSchema) :
    IsBitmap (sparseBits points field) ((fieldColumn points field).map Option.isSome) := by
  have hlen : (fieldColumn points field).length = points.length := length_map _
  constructor
  · rw [sparseBits, length_markRows, length_replicate, length_map, hlen]
  · intro i _
    rw [sparseBits, bitSet_markRows (by rw [length_replicate, hlen]; omega)]
    have hzero : bitSet (List.replicate ((points.length + 7) / 8) 0) i = false := by
      rw [bitSet, getD_eq_getElem?_getD, getElem?_replicate]
      split <;> simp
    rw [hzero, getD_eq_getElem?_getD, getD_eq_getElem?_getD, getElem?_map]
    cases (fieldColumn points field)[i]? <;> simp

theorem appendPointFieldColumn_spec (hfit : b.bytes.length + columnSize points field ≤ b.cap) :
    appendPointFieldColumn grow b points field =
      ⟨b.bytes ++ columnBytes (sparseBits points) points field, b.cap⟩ := by
  unfold columnSize at hfit
  unfold appendPointFieldColumn growBytes
  have hcap : ¬ b.cap - b.bytes.length < (List.replicate ((points.length + 7) / 8) (0 : UInt8)).length := by
    rw [length_replicate]
    omega
  dsimp only
  have hbytes : b.bytes ++ List.replicate ((points.length + 7) / 8) 0 =
      b.bytes ++ List.replicate ((points.length + 7) / 8) 0 ++ [] := by rw [append_nil]
  rw [if_neg hcap, appendPointFieldLoop_spec 0 hbytes (by rw [length_replicate]; omega) (by simp; omega)]
  simp [columnBytes, sparseBits]

theorem foldl_appendPointFieldColumn (hfit : b.bytes.length + (schema.map (columnSize points)).sum ≤ b.cap) :
    (schema.foldl (fun b field => appendPointFieldColumn grow b points field) b).bytes =
      b.bytes ++ schema.flatMap (columnBytes (sparseBits points) points) := by
  induction schema generalizing b with
  | nil => simp
  | cons field schema ih =>
    rw [map_cons, sum_cons] at hfit
    have hlen : (columnBytes (sparseBits points) points field).length = columnSize points field := by
      rw [columnBytes, length_append, sparseBits, length_markRows, length_replicate, columnSize]
    rw [foldl_cons, appendPointFieldColumn_spec (by omega), ih]
    · simp
    · simp only [length_append, hlen]
      omega

theorem lookupPointField_of_index (hp : p.fields.map schemaOf = schema) (hnodup : schema.Nodup)
    (hk : schema[k]? = some field) : ∃ f, p.fields[k]? = some f ∧ lookupPointField p field = some f.value := by
  subst hp
  rw [getElem?_map, Option.map_eq_some_iff] at hk
  obtain ⟨f, hf, rfl⟩ := hk
  have hmem := mem_of_getElem? hf
  refine ⟨f, hf, ?_⟩
  cases hfind : p.fields.find? fun g => schemaOf g = schemaOf f with
  | none => simpa using find?_eq_none.mp hfind f hmem
  | some g =>
    have hg : schemaOf g = schemaOf f := by simpa using find?_some hfind
    rw [lookupPointField, hfind, inj_on_of_nodup_map hnodup (mem_of_find?_eq_some hfind) hmem hg]
    rfl

theorem appendDenseColumn_spec (grow : Nat → Nat → Nat) (hmatch : ∀ p ∈ points, p.fields.map schemaOf = schema)
    (hnodup : schema.Nodup) (hk : schema[k]? = some field) (b : Buffer) :
    ∃ b' : Buffer, points.foldlM (fun b p =>
        match p.fields[k]? with
        | none => .error (.denseIndex k)
        | some f => .ok (b.appendAll grow (valueChunks f.value))) b = Except.ok (ε := EncodeError) b' ∧
      b'.bytes = b.bytes ++ columnValues (fieldColumn points field) := by
  induction points generalizing b with
  | nil => exact ⟨b, rfl, by simp [fieldColumn, columnValues]⟩
  | cons p points ih =>
    obtain ⟨f, hf, hvalue⟩ := lookupPointField_of_index (hmatch p mem_cons_self) hnodup hk
    obtain ⟨b', hok, hbytes⟩ := ih (fun q hq => hmatch q (mem_cons_of_mem _ hq))
      (b.appendAll grow (valueChunks f.value))
    refine ⟨b', ?_, ?_⟩
    · rw [foldlM_cons, hf]
      exact hok
    · rw [hbytes, bytes_appendAll, append_assoc]
      simp [fieldColumn, columnValues, hvalue]

theorem appendPointFieldColumnsDense_spec (grow : Nat → Nat → Nat)
    (hmatch : ∀ p ∈ points, p.fields.map schemaOf = schema) (hnodup : schema.Nodup) (b : Buffer) :
    ∃ b', appendPointFieldColumnsDense grow b points schema = .ok b' ∧
      b'.bytes = b.bytes ++ schema.flatMap (columnBytes (fun _ => denseBits points.length) points) := by
  have hloop : ∀ (indices : List Nat) (fields : List ColumnarFieldSchema),
      List.Forall₂ (fun k field => schema[k]? = some field) indices fields → ∀ b : Buffer,
      ∃ b' : Buffer, indices.foldlM (fun b fieldIndex =>
        points.foldlM (fun b p =>
          match p.fields[fieldIndex]? with
          | none => .error (.denseIndex fieldIndex)
          | some f => .ok (b.appendAll grow (valueChunks f.value)))
          (growBytes b (denseBits points.length))) b = Except.ok (ε := EncodeError) b' ∧
        b'.bytes = b.bytes ++ fields.flatMap (columnBytes (fun _ => denseBits points.length) points) := by
    intro indices fields hfields
    induction hfields with
    | nil => exact fun b => ⟨b, rfl, by simp⟩
    | @cons k field indices fields hk _ ih =>
      intro b
      obtain ⟨b', hok, hbytes⟩ := appendDenseColumn_spec grow hmatch hnodup hk (growBytes b (denseBits points.length))
      obtain ⟨b'', hok', hbytes'⟩ := ih b'
      refine ⟨b'', ?_, ?_⟩
      · rw [foldlM_cons, hok]
        exact hok'
      · rw [hbytes', hbytes]
        simp [growBytes, columnBytes]
  refine hloop _ schema (forall₂_iff_get.mpr ⟨by simp, fun i hi hi' => ?_⟩) b
  simp [getElem?_eq_getElem hi']

theorem isBitmap_denseColumn (hmatch : ∀ p ∈ points, p.fields.map schemaOf = schema) (hnodup : schema.Nodup)
    (hfield : field ∈ schema) :
    IsBitmap (denseBits points.length) ((fieldColumn points field).map Option.isSome) := by
  obtain ⟨k, hk⟩ := mem_iff_getElem?.mp hfield
  have hall : (fieldColumn points field).map Option.isSome = List.replicate points.length true := by
    rw [fieldColumn, map_map, eq_replicate_iff]
    refine ⟨length_map _, fun x hx => ?_⟩
    obtain ⟨p, hp, rfl⟩ := mem_map.mp hx
    obtain ⟨f, -, hvalue⟩ := lookupPointField_of_index (hmatch p hp) hnodup hk
    rw [Function.comp_apply, hvalue]
    rfl
  rw [hall]
  exact isBitmap_dense _

/-- The points of a batch as the write path resolves them. -/
structure BatchWellFormed (points : List ResolvedPoint) : Prop where
  distinct : ∀ p ∈ points, (p.fields.map ResolvedField.fieldID).Nodup
  consistent : ∀ p ∈ points, ∀ q ∈ points, ∀ f ∈ p.fields, ∀ g ∈ q.fields, f.fieldID = g.fieldID →
    schemaOf f = schemaOf g
  typed : ∀ p ∈ points, ∀ f ∈ p.fields, f.type = f.value.type

/-- Slices and strings of a running program have lengths that fit into an `int`. -/
structure BatchSized (points : List ResolvedPoint) : Prop where
  rows : IntSized points.length
  fieldCount : IntSized (points.flatMap ResolvedPoint.fields).length
  identities : ∀ p ∈ points, IdentitySized (newBatchIdentity p)
  fields : ∀ p ∈ points, ∀ f ∈ p.fields, IntSized f.fieldName.length ∧ ValueSized f.value

def encodedSize (points : List ResolvedPoint) (schema : List ColumnarFieldSchema) : Nat :=
  (headerChunks (batchIdentities points).1 (batchIdentities points).2 schema points).flatten.length +
    (schema.map (columnSize points)).sum

/-- What a batch needs to be read back: the write sequence tokens are unambiguous, no point is taken
for one with other tags, the rows that are not sampled agree with the sampled ones, and a batch that
is written sparsely fits into the buffer that is set aside for it. -/
structure BatchLossless (scratch : Nat) (points : List ResolvedPoint) : Prop where
  seqs : SeqsSafe (points.map ResolvedPoint.writeSeq)
  identities : IdentitiesSafe points
  dense : ∀ schema, buildPointFieldSchema points = .ok schema → pointFieldsMatchSchema points schema = true →
    ∀ p ∈ points, p.fields.map schemaOf = schema
  sparse : ∀ schema, buildPointFieldSchema points = .ok schema → pointFieldsMatchSchema points schema = false →
    encodedSize points schema ≤ max scratch (estimateColumnarPointsSize (batchIdentities points).1 schema points)

/-- The same point, with its fields in any order. -/
structure SamePoint (a b : ResolvedPoint) : Prop where
  database : a.database = b.database
  retentionPolicy : a.retentionPolicy = b.retentionPolicy
  measurement : a.measurement = b.measurement
  tags : a.tags = b.tags
  seriesID : a.seriesID = b.seriesID
  timestamp : a.timestamp = b.timestamp
  writeSeq : a.writeSeq = b.writeSeq
  fields : a.fields.Perm b.fields

section Rows
variable {points : List ResolvedPoint} {schema : List ColumnarFieldSchema}
  {bits : ColumnarFieldSchema → Bytes} {refs : List Nat}

theorem mem_lookupPointField (hdistinct : (p.fields.map ResolvedField.fieldID).Nodup)
    (field : ColumnarFieldSchema) (value : FieldValue) :
    lookupPointField p field = some value ↔ ∃ f ∈ p.fields, schemaOf f = field ∧ f.value = value := by
  rw [lookupPointField, Option.map_eq_some_iff]
  constructor
  · rintro ⟨f, hfind, hvalue⟩
    exact ⟨f, mem_of_find?_eq_some hfind, by simpa using find?_some hfind, hvalue⟩
  · rintro ⟨f, hf, hfield, hvalue⟩
    cases hfind : p.fields.find? fun g => schemaOf g = field with
    | none =>
      have := find?_eq_none.mp hfind f hf
      simp [hfield] at this
    | some g =>
      have hg : schemaOf g = field := by simpa using find?_some hfind
      have hid : g.fieldID = f.fieldID := congrArg ColumnarFieldSchema.fieldID (hg.trans hfield.symm)
      exact ⟨g, rfl, inj_on_of_nodup_map hdistinct (mem_of_find?_eq_some hfind) hf hid ▸ hvalue⟩

theorem rowFields_perm (hwf : BatchWellFormed points) (hnodup : schema.Nodup)
    (hschema : ∀ x, x ∈ schema ↔ ∃ p ∈ points, ∃ f ∈ p.fields, schemaOf f = x) (hrow : points[row]? = some p) :
    (rowFields (schema.map decodedSchema) (schema.map (fieldColumn points)) row).Perm p.fields := by
  have hp := mem_of_getElem? hrow
  have hcells : rowFields (schema.map decodedSchema) (schema.map (fieldColumn points)) row =
      schema.filterMap fun s => (lookupPointField p s).map fun v => ⟨s.fieldID, s.name, v.type, v⟩ := by
    rw [rowFields, zip_map', filterMap_map]
    refine filterMap_congr fun s _ => ?_
    simp [fieldColumn, hrow, decodedSchema]
  rw [hcells, perm_ext_iff_of_nodup]
  · intro f
    simp only [mem_filterMap, Option.map_eq_some_iff]
    constructor
    · rintro ⟨s, _, v, hv, rfl⟩
      obtain ⟨g, hg, rfl, rfl⟩ := (mem_lookupPointField (hwf.distinct p hp) s v).mp hv
      have hcell : (⟨(schemaOf g).fieldID, (schemaOf g).name, g.value.type, g.value⟩ : ResolvedField) = g := by
        rw [← hwf.typed p hp g hg]
        rfl
      exact hcell ▸ hg
    · intro hf
      refine ⟨schemaOf f, (hschema _).mpr ⟨p, hp, f, hf, rfl⟩, f.value,
        (mem_lookupPointField (hwf.distinct p hp) _ _).mpr ⟨f, hf, rfl, rfl⟩, ?_⟩
      rw [← hwf.typed p hp f hf]
      rfl
  · refine hnodup.filterMap fun s s' f hs hs' => ?_
    obtain ⟨v, hv, rfl⟩ := Option.map_eq_some_iff.mp (Option.mem_def.mp hs)
    obtain ⟨v', hv', heq⟩ := Option.map_eq_some_iff.mp (Option.mem_def.mp hs')
    obtain ⟨g, hg, rfl, rfl⟩ := (mem_lookupPointField (hwf.distinct p hp) s v).mp hv
    obtain ⟨g', hg', rfl, rfl⟩ := (mem_lookupPointField (hwf.distinct p hp) s' v').mp hv'
    simp only [ResolvedField.mk.injEq] at heq
    exact hwf.consistent p hp p hp g hg g' hg' heq.1.symm
  · exact List.Nodup.of_map _ (hwf.distinct p hp)

theorem appendPointFieldColumns_spec (grow : Nat → Nat → Nat) (hnodup : schema.Nodup)
    (hdense : pointFieldsMatchSchema points schema = true → ∀ p ∈ points, p.fields.map schemaOf = schema)
    (hsparse : pointFieldsMatchSchema points schema = false →
      b.bytes.length + (schema.map (columnSize points)).sum ≤ b.cap) :
    ∃ bits b', appendPointFieldColumns grow b points schema = .ok b' ∧
      b'.bytes = b.bytes ++ schema.flatMap (columnBytes bits points) ∧
      ∀ field ∈ schema, IsBitmap (bits field) ((fieldColumn points field).map Option.isSome) := by
  unfold appendPointFieldColumns
  split
  · next hempty =>
    obtain rfl := List.isEmpty_iff.mp hempty
    exact ⟨fun _ => [], b, rfl, by simp, by simp⟩
  · cases hlayout : pointFieldsMatchSchema points schema with
    | true =>
      obtain ⟨b', hok, hbytes⟩ := appendPointFieldColumnsDense_spec grow (hdense hlayout) hnodup b
      exact ⟨_, b', hok, hbytes, fun field hfield => isBitmap_denseColumn (hdense hlayout) hnodup hfield⟩
    | false =>
      exact ⟨_, _, rfl, foldl_appendPointFieldColumn (hsparse hlayout), fun field _ => isBitmap_sparse points field⟩

theorem parses_columns (hwf : BatchWellFormed points) (hsized : BatchSized points)
    (hbits : ∀ field ∈ schema, IsBitmap (bits field) ((fieldColumn points field).map Option.isSome)) :
    Parses ((schema.map decodedSchema).mapM (readFieldColumn points.length))
      (schema.flatMap (columnBytes bits points)) (schema.map (fieldColumn points)) := by
  rw [mapM_map]
  refine parses_mapM fun field hfield => ?_
  have hlen : (fieldColumn points field).length = points.length := length_map _
  rw [← hlen]
  refine parses_fieldColumn rfl (hbits field hfield) fun v hv => ?_
  obtain ⟨p, hp, hvalue⟩ := mem_map.mp hv
  obtain ⟨f, hf, rfl, rfl⟩ := (mem_lookupPointField (hwf.distinct p hp) field v).mp hvalue
  exact ⟨(hwf.typed p hp f hf).symm, (hsized.fields p hp f hf).2⟩

def decodedPoint (identities : List BatchIdentity) (refs : List Nat) (schema : List ColumnarFieldSchema)
    (points : List ResolvedPoint) (row : Nat) : ResolvedPoint :=
  let identity := identities.getD (refs.getD row 0) emptyIdentity
  { database := identity.database
    retentionPolicy := identity.retentionPolicy
    measurement := identity.measurement
    tags := identity.tags
    seriesID := (points.map ResolvedPoint.seriesID).getD row 0
    timestamp := (points.map ResolvedPoint.timestamp).getD row 0
    writeSeq := (points.map ResolvedPoint.writeSeq).getD row 0
    fields := rowFields (schema.map decodedSchema) (schema.map (fieldColumn points)) row }

theorem readColumnarBatch_spec (hwf : BatchWellFormed points) (hsized : BatchSized points)
    (hschema : IntSized schema.length ∧ ∀ f ∈ schema, IntSized f.name.length)
    (hidentities : IntSized identities.length ∧ ∀ i ∈ identities, IdentitySized i)
    (hrefs : refs.length = points.length ∧ ∀ ref ∈ refs, ref < identities.length)
    (hseqs : SeqsSafe (points.map ResolvedPoint.writeSeq))
    (hbits : ∀ field ∈ schema, IsBitmap (bits field) ((fieldColumn points field).map Option.isSome)) :
    readColumnarBatch ((headerChunks identities refs schema points).flatten ++
        schema.flatMap (columnBytes bits points)) =
      .ok ((List.range points.length).map (decodedPoint identities refs schema points), []) := by
  have hheader : (headerChunks identities refs schema points).flatten =
      rowsHeader identities refs schema (points.map ResolvedPoint.seriesID) (points.map ResolvedPoint.timestamp) ++
        (writeSeqTokens none (points.map ResolvedPoint.writeSeq)).flatMap uvarint := by
    simp [headerChunks, rowsHeader, flatten_flatMap, flatMap_map, hrefs.1]
  have hw := parses_deltaUvarints none (points.map ResolvedPoint.writeSeq) hseqs
  have hc := parses_columns hwf hsized hbits
  rw [hheader, append_assoc, readColumnarBatch_rowsHeader hschema hidentities hrefs.2 (hrefs.1 ▸ hsized.rows)
    (by simp [hrefs.1]) (by simp [hrefs.1])]
  unfold readRows
  rw [hrefs.1]
  rw [length_map] at hw
  rw [hw.run, ← append_nil (schema.flatMap _), hc.run]
  rfl

theorem decodedPoint_same (hwf : BatchWellFormed points) (hnodup : schema.Nodup)
    (hschema : ∀ x, x ∈ schema ↔ ∃ p ∈ points, ∃ f ∈ p.fields, schemaOf f = x)
    (hrefs : List.Forall₂ (fun p ref => identities[ref]? = some (newBatchIdentity p)) points refs)
    (hrow : points[row]? = some p) : SamePoint (decodedPoint identities refs schema points row) p := by
  obtain ⟨hlt, rfl⟩ := List.getElem?_eq_some_iff.mp hrow
  have hlt' : row < refs.length := hrefs.length_eq ▸ hlt
  have hidentity : identities.getD (refs.getD row 0) emptyIdentity = newBatchIdentity points[row] := by
    have hget : identities[refs[row]]? = some (newBatchIdentity points[row]) :=
      (forall₂_iff_get.mp hrefs).2 row hlt hlt'
    rw [getD_eq_getElem?_getD, getD_eq_getElem?_getD, getElem?_eq_getElem hlt', Option.getD_some,
      hget, Option.getD_some]
  constructor
  case fields => exact rowFields_perm hwf hnodup hschema hrow
  all_goals simp only [decodedPoint, hidentity, newBatchIdentity]
  all_goals rw [getD_eq_getElem?_getD, getElem?_map, hrow, Option.map_some, Option.getD_some]

/-- A batch is written and read back as the same points in the same order. -/
def BatchRoundTrips (grow : Nat → Nat → Nat) (scratch : Nat) (points : List ResolvedPoint) : Prop :=
  ∃ bytes decoded, encodeBatchInto grow scratch points = .ok bytes ∧ decodeBatch bytes = .ok decoded ∧
    List.Forall₂ SamePoint decoded points

theorem schema_length_le (hnodup : schema.Nodup)
    (hschema : ∀ x, x ∈ schema ↔ ∃ p ∈ points, ∃ f ∈ p.fields, schemaOf f = x) :
    schema.length ≤ (points.flatMap ResolvedPoint.fields).length := by
  have hsub : schema ⊆ (points.flatMap ResolvedPoint.fields).map schemaOf := by
    intro x hx
    obtain ⟨p, hp, f, hf, rfl⟩ := (hschema x).mp hx
    exact mem_map_of_mem (mem_flatMap.mpr ⟨p, hp, hf⟩)
  simpa using (subperm_of_subset hnodup hsub).length_le

end Rows
end Buffers

section Failing

variable {grow : Nat → Nat → Nat} {scratch : Nat}

def plainPoint (timestamp : Int64) (writeSeq : UInt64) : ResolvedPoint :=
  { database := [100], retentionPolicy := [114], measurement := [109], tags := TagMap.empty
    seriesID := 1, timestamp := timestamp, writeSeq := writeSeq, fields := [] }

def intField (id : UInt32) (name : GoString) (value : Int64) : ResolvedField := ⟨id, name, .int64, .int64 value⟩

def textField (id : UInt32) (name value : GoString) : ResolvedField := ⟨id, name, .string, .string value⟩

def doubling (old need : Nat) : Nat := max need (2 * old)

/-- The token of a greatest sequence after sequence 0 wraps around to the mark of a descent. -/
def wrappedSeqs : List ResolvedPoint := [plainPoint 1 0, plainPoint 2 (~~~0)]

/-- The second of four rows is not sampled and has its fields in another order. -/
def reorderedRow : List ResolvedPoint :=
  [{ plainPoint 1 1 with fields := [intField 1 [97] 10, intField 2 [98] 20] },
   { plainPoint 2 2 with fields := [intField 2 [98] 21, intField 1 [97] 11] },
   { plainPoint 3 3 with fields := [intField 1 [97] 12, intField 2 [98] 22] },
   { plainPoint 4 4 with fields := [intField 1 [97] 13, intField 2 [98] 23] }]

/-- One point has only tag `b`, the next one only tag `a` with an empty value. -/
def emptyTagValue : List ResolvedPoint :=
  [{ plainPoint 1 1 with tags := setTag TagMap.empty ([98], [120]) },
   { plainPoint 2 2 with seriesID := 2, tags := setTag TagMap.empty ([97], []) }]

/-- The long value of the first row moves the buffer before the second row is marked. -/
def movedBuffer : List ResolvedPoint :=
  [{ plainPoint 1 1 with fields := [textField 1 [97] (List.replicate 200 120)] },
   { plainPoint 2 2 with fields := [textField 1 [97] [121]] },
   plainPoint 3 3]

theorem not_batchRoundTrips_of_error (h : (encodeBatchInto grow scratch points).map decodeBatch = .ok (.error e)) :
    ¬ BatchRoundTrips grow scratch points := by
  rintro ⟨bytes, decoded, hbytes, hdecoded, -⟩
  rw [hbytes] at h
  cases hdecoded.symm.trans (Except.ok.inj h)

theorem not_batchRoundTrips_of_ne (h : (encodeBatchInto grow scratch points).map decodeBatch = .ok (.ok decoded))
    (hne : ¬ List.Forall₂ SamePoint decoded points) : ¬ BatchRoundTrips grow scratch points := by
  rintro ⟨bytes, decoded', hbytes, hdecoded, hsame⟩
  rw [hbytes] at h
  cases hdecoded.symm.trans (Except.ok.inj h)
  exact hne hsame

theorem wrappedSeqs_lost : ¬ BatchRoundTrips doubling 0 wrappedSeqs := by
  have heval : (encodeBatchInto doubling 0 wrappedSeqs).map decodeBatch =
      .ok (.error (.invalidUvarint "write seq absolute")) := rfl
  exact not_batchRoundTrips_of_error heval

theorem reorderedRow_lost : ¬ BatchRoundTrips doubling 0 reorderedRow := by
  have heval : (encodeBatchInto doubling 0 reorderedRow).map decodeBatch =
      .ok (.ok (reorderedRow.set 1
        { plainPoint 2 2 with fields := [intField 1 [97] 21, intField 2 [98] 11] })) := rfl
  refine not_batchRoundTrips_of_ne heval fun h => ?_
  have hrow := ((forall₂_iff_get.mp h).2 1 (by decide) (by decide)).fields.mem_iff (a := intField 1 [97] 21)
  exact absurd (hrow.mp (by decide)) (by decide)

theorem emptyTagValue_lost : ¬ BatchRoundTrips doubling 0 emptyTagValue := by
  have heval : (encodeBatchInto doubling 0 emptyTagValue).map decodeBatch =
      .ok (.ok (emptyTagValue.set 1
        { plainPoint 2 2 with seriesID := 2, tags := setTag TagMap.empty ([98], [120]) })) := rfl
  refine not_batchRoundTrips_of_ne heval fun h => ?_
  have htags := ((forall₂_iff_get.mp h).2 1 (by decide) (by decide)).tags
  exact absurd (congrArg TagMap.entries htags) (by decide)

set_option maxRecDepth 4000 in
theorem movedBuffer_lost : ¬ BatchRoundTrips doubling 0 movedBuffer := by
  have heval : (encodeBatchInto doubling 0 movedBuffer).map decodeBatch =
      .ok (.error (.trailing "wal columnar batch" 2)) := rfl
  exact not_batchRoundTrips_of_error heval

def mixedBatch : List ResolvedPoint :=
  [{ plainPoint 1 1 with tags := setTag TagMap.empty ([97], [120]), fields := [intField 1 [97] 10, textField 2 [98] [121]] },
   { plainPoint 2 2 with seriesID := 2, fields := [textField 2 [98] [122]] }]

end Failing
end Mts.Wal
