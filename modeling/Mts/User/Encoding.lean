import Mts.Catalog.Persist
import Mts.User.State

/-! The file of the user manager, `user/local_user_encoding.go`: the users with their passwords and grants, then the
tokens, in the envelope of `codec/envelope.go`. A well-formed state is read back from its encoding. -/

namespace Mts.User
open Lib Model Wal List

/-- `MTSUSR3`. -/
def userMetadataMagic : Bytes := [77, 84, 83, 85, 83, 82, 51]

inductive MetadataError
  | envelope (e : Catalog.OpenError) | string (name : String) | countTooLarge (name : String)
  | invalidCount (name : String) | truncatedBytes (name : String) | truncatedInt64 (name : String)
  | invalidBool (name : String) (value : UInt8) | truncatedByte (name : String) | invalidRole (text : GoString)
  | invalidBits (mask : UInt8) | sliceBounds (name : String) | trailing
  deriving DecidableEq

structure UserEntry where
  user : User
  password : PasswordRecord
  grants : UserGrants

section Encoding

def boolByte (b : Bool) : UInt8 := if b then 1 else 0

def appendUser (u : User) : Bytes :=
  stringBytes u.name ++ (stringBytes u.displayName ++ (stringBytes u.role.text ++
    ([boolByte u.disabled] ++ tagsBytes u.metadata)))

def permissionMask (s : PermissionSet) : UInt8 :=
  (if s.read then 1 else 0) ||| (if s.write then 2 else 0) ||| (if s.admin then 4 else 0)

def appendGrant (e : GoString × PermissionSet) : Bytes := stringBytes e.1 ++ [permissionMask e.2]

def appendUserGrants (grants : UserGrants) : Bytes :=
  uvarint (UInt64.ofNat grants.entries.length) ++ grants.entries.flatMap appendGrant

def appendPasswordRecord (r : PasswordRecord) : Bytes :=
  if r.salt = [] ∨ r.hash = [] ∨ r.iterations ≤ 0 then [0]
  else [1] ++ (stringBytes r.salt ++ (stringBytes r.hash ++ uvarint r.iterations.toUInt64))

def appendTokenRecord (e : GoString × TokenRecord) : Bytes :=
  stringBytes e.1 ++ (stringBytes e.2.userName ++ uint64LE e.2.expiresAtUnixNano.toUInt64)

def appendTokenRecords (tokens : SortedMap GoString TokenRecord) : Bytes :=
  uvarint (UInt64.ofNat tokens.entries.length) ++ tokens.entries.flatMap appendTokenRecord

def appendEntry (e : UserEntry) : Bytes :=
  appendUser e.user ++ (appendPasswordRecord e.password ++ appendUserGrants e.grants)

/-- The user with its password and grants, which are empty where the maps have none. -/
def State.entryOf (s : State) (e : GoString × User) : UserEntry :=
  ⟨e.2, (s.passwords.find? e.1).getD .zero, (s.grants.find? e.1).getD .empty⟩

def State.fileEntries (s : State) : List UserEntry := s.users.entries.map s.entryOf

def State.payload (s : State) : Bytes :=
  uvarint (UInt64.ofNat s.fileEntries.length) ++ s.fileEntries.flatMap appendEntry ++ appendTokenRecords s.tokens

def encodeUserMetadata (crc : Bytes → UInt32) (s : State) : Bytes :=
  Catalog.marshalEnvelope crc userMetadataMagic 0 s.payload

end Encoding

section Reading

abbrev MetadataReader := Parser MetadataError

namespace MetadataReader

def string (name : String) : MetadataReader GoString := Parser.string (.string name) (.string name)

def uvarint (name : String) : MetadataReader Int64 := do
  let value ← Parser.uvarint (.invalidCount name)
  return value.toInt64

def count (name : String) : MetadataReader Int64 := do
  let n ← uvarint name
  let rest ← get
  if n.toInt > rest.length then .fail (.countTooLarge name) else return n

def bytes (name : String) : MetadataReader Bytes := do
  let n ← count name
  if n < 0 then .fail (.sliceBounds name)
  else Parser.ofReader (readBytes n.toInt.toNat) (.truncatedBytes name)

def int64 (name : String) : MetadataReader Int64 := do
  let value ← Parser.ofReader readUint64LE (.truncatedInt64 name)
  return value.toInt64

def byte (name : String) : MetadataReader UInt8 := Parser.byte (.truncatedByte name)

def bool (name : String) : MetadataReader Bool := do
  let value ← byte name
  if value = 0 then return false else if value = 1 then return true else .fail (.invalidBool name value)

def counted {α : Type} (name : String) (item : MetadataReader α) : MetadataReader (List α) := do
  let n ← count name
  Parser.times n.toInt.toNat item

def stringPair (name : String) : MetadataReader (GoString × GoString) := do
  let key ← string (name ++ " key")
  let value ← string (name ++ " value")
  return (key, value)

def stringMap (name : String) : MetadataReader TagMap := do
  let pairs ← counted (name ++ " count") (stringPair name)
  return pairs.foldl setTag TagMap.empty

def user : MetadataReader User := do
  let name ← string "user name"
  let displayName ← string "display name"
  let roleText ← string "role"
  let disabled ← bool "disabled"
  let metadata ← stringMap "metadata"
  match validRole (normalizeRole roleText) with
  | none => .fail (.invalidRole roleText)
  | some role => return ⟨name, displayName, role, disabled, metadata⟩

def permissionsFromMask (mask : UInt8) : MetadataReader PermissionSet :=
  if mask &&& 248 ≠ 0 then .fail (.invalidBits mask)
  else return ⟨mask &&& 1 ≠ 0, mask &&& 2 ≠ 0, mask &&& 4 ≠ 0⟩

def grant : MetadataReader (GoString × PermissionSet) := do
  let database ← string "grant database"
  let mask ← byte "grant permission mask"
  let permissions ← permissionsFromMask mask
  return (database, permissions)

def grants : MetadataReader UserGrants := do
  let items ← counted "grant database count" grant
  return items.foldl (fun m e => m.set e.1 e.2) SortedMap.empty

def passwordRecord : MetadataReader PasswordRecord := do
  let stored ← bool "password exists"
  if stored then
    let salt ← bytes "password salt"
    let hash ← bytes "password hash"
    let iterations ← uvarint "password iterations"
    return ⟨salt, hash, iterations⟩
  else return .zero

def tokenRecord : MetadataReader (GoString × TokenRecord) := do
  let digest ← string "token digest"
  let userName ← string "token user"
  let expiresAt ← int64 "token expires at"
  return (digest, ⟨userName, expiresAt⟩)

def tokenRecords : MetadataReader (SortedMap GoString TokenRecord) := do
  let items ← counted "token count" tokenRecord
  return items.foldl (fun m e => m.set e.1 e.2) SortedMap.empty

def entry : MetadataReader UserEntry := do
  let user ← user
  let password ← passwordRecord
  let grants ← grants
  return ⟨user, password, grants⟩

end MetadataReader

def State.addEntry (s : State) (e : UserEntry) : State :=
  { s with
    users := s.users.set e.user.name e.user
    passwords := if e.password.salt ≠ [] ∧ e.password.hash ≠ [] then s.passwords.set e.user.name e.password
      else s.passwords
    grants := if e.grants.isEmpty then s.grants else s.grants.set e.user.name e.grants }

def MetadataReader.read : MetadataReader State := do
  let entries ← counted "user count" entry
  let tokens ← tokenRecords
  return { entries.foldl State.addEntry .empty with tokens := tokens }

def decodeUserMetadata (crc : Bytes → UInt32) (data : Bytes) : Except MetadataError State :=
  match Catalog.unmarshalEnvelope crc data userMetadataMagic with
  | .error e => .error (.envelope e)
  | .ok payload =>
    match MetadataReader.read payload with
    | .error e => .error e
    | .ok (s, rest) => if rest.isEmpty then .ok s else .error .trailing

/-- `localStateStore.load`: no file stands for no users. -/
def load (crc : Bytes → UInt32) : Option Bytes → Except MetadataError State
  | none => .ok .empty
  | some data => decodeUserMetadata crc data

end Reading

namespace MetadataReader

theorem toInt_toInt64_ofNat (h : IntSized n) : (UInt64.ofNat n).toInt64.toInt = n := by
  unfold IntSized at h
  have hnat : (UInt64.ofNat n).toBitVec.toNat = n := by
    rw [UInt64.toNat_toBitVec, UInt64.toNat_ofNat', Nat.mod_eq_of_lt (by omega)]
  change (UInt64.ofNat n).toBitVec.toInt = n
  rw [BitVec.toInt_eq_toNat_of_lt (by omega), hnat]

theorem parses_count {α : Type} (name : String) (h : IntSized n) {f : Int64 → MetadataReader α}
    {bytes : Bytes} {a : α} (hle : n ≤ bytes.length) (hf : Parses (f (UInt64.ofNat n).toInt64) bytes a) :
    Parses (count name >>= f) (Lib.uvarint (UInt64.ofNat n) ++ bytes) a := by
  intro rest
  have hcount : count name (Lib.uvarint (UInt64.ofNat n) ++ (bytes ++ rest)) =
      .ok ((UInt64.ofNat n).toInt64, bytes ++ rest) := by
    have hread := (Parser.parses_uvarint (.invalidCount name : MetadataError) (UInt64.ofNat n)).map UInt64.toInt64
    change (uvarint name _ >>= _) = _
    rw [uvarint, hread]
    change (if (UInt64.ofNat n).toInt64.toInt > (bytes ++ rest).length then Parser.fail (.countTooLarge name)
      else pure (UInt64.ofNat n).toInt64 : MetadataReader Int64) (bytes ++ rest) = _
    rw [toInt_toInt64_ofNat h, length_append, if_neg (by omega)]
    rfl
  change (count name _ >>= _) = _
  rw [append_assoc, hcount]
  exact hf rest

theorem reads_counted {α : Type} (name : String) {item : MetadataReader α} {write : α → Bytes} {items : List α}
    (hitem : ∀ x ∈ items, Reads item (write x) x) (hne : ∀ x ∈ items, write x ≠ []) :
    Reads (counted name item) (Lib.uvarint (UInt64.ofNat items.length) ++ items.flatMap write) items := by
  intro hsized
  have hle := length_le_flatMap hne
  have hall : IntSized (items.flatMap write).length := by
    rw [length_append] at hsized
    exact hsized.mono (by omega)
  refine parses_count name (hall.mono hle) hle ?_
  rw [toInt_toInt64_ofNat (hall.mono hle)]
  exact reads_times hitem hall

theorem reads_string' (name : String) (s : GoString) : Reads (string name) (stringBytes s) s := reads_string _ _ s

theorem reads_bytes (name : String) (b : Bytes) : Reads (bytes name) (stringBytes b) b := by
  intro hsized
  have hb : IntSized b.length := by
    rw [stringBytes, length_append] at hsized
    exact hsized.mono (by omega)
  refine parses_count name hb le_rfl ?_
  have hpos : ¬ (UInt64.ofNat b.length).toInt64 < 0 := by
    rw [Int64.lt_iff_toInt_lt, toInt_toInt64_ofNat hb]
    simp
  rw [if_neg hpos, toInt_toInt64_ofNat hb]
  exact parses_ofReader fun rest => readBytes_append rfl rest

theorem reads_bool (name : String) (b : Bool) : Reads (bool name) [boolByte b] b := by
  refine (Parser.parses_byte _ (boolByte b)).reads.bind_nil ?_
  cases b
  · exact parses_pure false
  · exact parses_pure true

theorem stringBytes_ne_nil (s : GoString) (rest : Bytes) : stringBytes s ++ rest ≠ [] := by
  simp [stringBytes, uvarint_ne_nil]

theorem reads_stringMap (name : String) (tags : TagMap) : Reads (stringMap name) (tagsBytes tags) tags := by
  have hpair : ∀ e ∈ tags.entries, Reads (stringPair name) (stringBytes e.1 ++ stringBytes e.2) e := fun e _ =>
    (reads_string' _ e.1).bind ((reads_string' _ e.2).map fun value => (e.1, value))
  have hpairs := reads_counted (name ++ " count") hpair fun e _ => stringBytes_ne_nil e.1 _
  have hread := hpairs.map fun pairs => pairs.foldl setTag TagMap.empty
  rwa [show tags.entries.foldl setTag TagMap.empty = tags from tags.foldl_set_entries] at hread

theorem reads_user (u : User) : Reads user (appendUser u) u := by
  refine (reads_string' _ u.name).bind ?_
  refine (reads_string' _ u.displayName).bind ?_
  refine (reads_string' _ u.role.text).bind ?_
  refine (reads_bool _ u.disabled).bind ?_
  refine (reads_stringMap _ u.metadata).bind_nil ?_
  rw [validRole_normalizeRole_text]
  exact parses_pure u

theorem parses_permissionsFromMask (s : PermissionSet) : Parses (permissionsFromMask (permissionMask s)) [] s := by
  obtain ⟨read, write, admin⟩ := s
  cases read <;> cases write <;> cases admin <;> exact parses_pure _

theorem reads_grants (g : UserGrants) : Reads grants (appendUserGrants g) g := by
  have hgrant : ∀ e ∈ g.entries, Reads grant (appendGrant e) e := by
    intro e _
    refine (reads_string' _ e.1).bind ((Parser.parses_byte _ (permissionMask e.2)).reads.bind_nil ?_)
    exact (parses_permissionsFromMask e.2).map fun permissions => (e.1, permissions)
  have hitems := reads_counted "grant database count" hgrant fun e _ => stringBytes_ne_nil e.1 _
  have hread := hitems.map fun items => items.foldl (fun m e => m.set e.1 e.2) (SortedMap.empty : UserGrants)
  rwa [g.foldl_set_entries] at hread

theorem reads_uvarint (name : String) (n : Int64) : Reads (uvarint name) (Lib.uvarint n.toUInt64) n := by
  have hread := (Parser.parses_uvarint (.invalidCount name : MetadataError) n.toUInt64).map UInt64.toInt64
  exact Parses.reads hread

theorem reads_passwordRecord (h : r = .zero ∨ r.salt ≠ [] ∧ r.hash ≠ [] ∧ 0 < r.iterations) :
    Reads passwordRecord (appendPasswordRecord r) r := by
  rcases h with rfl | ⟨hsalt, hhash, hpos⟩
  · exact (reads_bool _ false).bind_nil (parses_pure _)
  · have hstored : ¬ (r.salt = [] ∨ r.hash = [] ∨ r.iterations ≤ 0) := by
      rw [not_or, not_or]
      exact ⟨hsalt, hhash, Int64.not_le.mpr hpos⟩
    rw [appendPasswordRecord, if_neg hstored]
    refine (reads_bool _ true).bind ?_
    refine (reads_bytes _ r.salt).bind ?_
    refine (reads_bytes _ r.hash).bind ?_
    exact (reads_uvarint _ r.iterations).map fun iterations => (⟨r.salt, r.hash, iterations⟩ : PasswordRecord)

theorem reads_int64 (name : String) (n : Int64) : Reads (int64 name) (uint64LE n.toUInt64) n := by
  have hread : Parses (Parser.ofReader readUint64LE (.truncatedInt64 name : MetadataError)) (uint64LE n.toUInt64)
      n.toUInt64 := parses_ofReader fun rest => readUint64LE_append n.toUInt64 rest
  exact Parses.reads (hread.map UInt64.toInt64)

theorem reads_tokenRecords (tokens : SortedMap GoString TokenRecord) :
    Reads tokenRecords (appendTokenRecords tokens) tokens := by
  have htoken : ∀ e ∈ tokens.entries, Reads tokenRecord (appendTokenRecord e) e := by
    intro e _
    refine (reads_string' _ e.1).bind ((reads_string' _ e.2.userName).bind ?_)
    exact (reads_int64 _ e.2.expiresAtUnixNano).map fun expiresAt => (e.1, (⟨e.2.userName, expiresAt⟩ : TokenRecord))
  have hitems := reads_counted "token count" htoken fun e _ => stringBytes_ne_nil e.1 _
  have hread := hitems.map fun items =>
    items.foldl (fun m e => m.set e.1 e.2) (SortedMap.empty : SortedMap GoString TokenRecord)
  rwa [tokens.foldl_set_entries] at hread

theorem reads_entry
    (h : e.password = .zero ∨ e.password.salt ≠ [] ∧ e.password.hash ≠ [] ∧ 0 < e.password.iterations) :
    Reads entry (appendEntry e) e := by
  refine (reads_user e.user).bind ((reads_passwordRecord h).bind ?_)
  exact (reads_grants e.grants).map fun grants => (⟨e.user, e.password, grants⟩ : UserEntry)

end MetadataReader

namespace State
variable {s : State}

section
variable (h : s.WellFormed)
include h

theorem names_fileEntries : (s.fileEntries.map fun e => e.user.name) = s.users.entries.map Prod.fst := by
  rw [fileEntries, map_map]
  refine map_congr_left fun e he => ?_
  exact h.named e.1 e.2 (SortedMap.find?_eq_some_iff.mpr he)

theorem foldl_fileEntries {ν : Type} (val : UserEntry → Option ν) {m : SortedMap GoString ν}
    (hm : ∀ name, m.find? name = (s.users.find? name).bind fun u => val (s.entryOf (name, u))) :
    s.fileEntries.foldl (fun m e => m.setIfSome e.user.name (val e)) SortedMap.empty = m := by
  apply SortedMap.ext_find?
  intro name
  have hnames := names_fileEntries h
  have hnodup : (s.fileEntries.map fun e => e.user.name).Nodup := hnames ▸ s.users.nodup_keys
  rw [hm]
  cases hu : s.users.find? name with
  | some u =>
    have hmem : (name, u) ∈ s.users.entries := SortedMap.find?_eq_some_iff.mp hu
    obtain rfl : u.name = name := h.named _ u hu
    exact SortedMap.find?_foldl_of_mem hnodup (mem_map_of_mem hmem) rfl
  | none =>
    refine SortedMap.find?_foldl_of_notMem fun hmem => ?_
    rw [hnames] at hmem
    obtain ⟨e, he, rfl⟩ := mem_map.mp hmem
    have hsome := SortedMap.find?_isSome_of_mem he
    rw [hu] at hsome
    simp at hsome

theorem foldl_users : (s.fileEntries.foldl addEntry .empty).users = s.users := by
  have hfold := foldl_fileEntries h (fun e => some e.user) fun name => by
    cases s.users.find? name <;> rfl
  rw [← hfold]
  exact (foldl_hom State.users fun _ _ => rfl).symm

def storedPassword (e : UserEntry) : Option PasswordRecord :=
  if e.password.salt ≠ [] ∧ e.password.hash ≠ [] then some e.password else none

theorem storedPassword_entryOf (name : GoString) :
    s.passwords.find? name = (s.users.find? name).bind fun u => storedPassword (s.entryOf (name, u)) := by
  cases hp : s.passwords.find? name with
  | some r =>
    obtain ⟨hsome, hsalt, hhash, -⟩ := h.passwords name r hp
    obtain ⟨u, hu⟩ := Option.isSome_iff_exists.mp hsome
    simp [hu, entryOf, hp, storedPassword, hsalt, hhash]
  | none =>
    cases s.users.find? name with
    | none => rfl
    | some u => simp [entryOf, hp, storedPassword, PasswordRecord.zero]

theorem foldl_passwords : (s.fileEntries.foldl addEntry .empty).passwords = s.passwords := by
  rw [← foldl_fileEntries h storedPassword (storedPassword_entryOf h)]
  refine (foldl_hom State.passwords fun s e => ?_).symm
  rw [addEntry, storedPassword]
  split <;> rfl

def storedGrants (e : UserEntry) : Option UserGrants := if e.grants.isEmpty then none else some e.grants

theorem storedGrants_entryOf (name : GoString) :
    s.grants.find? name = (s.users.find? name).bind fun u => storedGrants (s.entryOf (name, u)) := by
  cases hg : s.grants.find? name with
  | some g =>
    obtain ⟨hsome, hne⟩ := h.grants name g hg
    obtain ⟨u, hu⟩ := Option.isSome_iff_exists.mp hsome
    simp [hu, entryOf, hg, storedGrants, hne]
  | none =>
    cases s.users.find? name with
    | none => rfl
    | some u => simp [entryOf, hg, storedGrants, SortedMap.isEmpty, SortedMap.empty]

theorem foldl_grants : (s.fileEntries.foldl addEntry .empty).grants = s.grants := by
  rw [← foldl_fileEntries h storedGrants (storedGrants_entryOf h)]
  refine (foldl_hom State.grants fun s e => ?_).symm
  rw [addEntry, storedGrants]
  split <;> rfl

theorem reads_payload : Reads MetadataReader.read s.payload s := by
  have hentry : ∀ e ∈ s.fileEntries, Reads MetadataReader.entry (appendEntry e) e := by
    intro e he
    obtain ⟨⟨name, u⟩, -, rfl⟩ := mem_map.mp he
    refine MetadataReader.reads_entry ?_
    dsimp [entryOf]
    cases hp : s.passwords.find? name with
    | none => exact .inl rfl
    | some r => exact .inr (h.passwords name r hp).2
  have hne : ∀ e ∈ s.fileEntries, appendEntry e ≠ [] := by
    intro e _
    rw [appendEntry, appendUser, append_assoc]
    exact MetadataReader.stringBytes_ne_nil _ _
  have hentries := MetadataReader.reads_counted "user count" hentry hne
  refine hentries.bind ?_
  have hread := (MetadataReader.reads_tokenRecords s.tokens).map fun tokens =>
    { s.fileEntries.foldl addEntry .empty with tokens := tokens }
  have hsame : { s.fileEntries.foldl addEntry .empty with tokens := s.tokens } = s := by
    rw [State.mk.injEq]
    exact ⟨foldl_users h, foldl_grants h, foldl_passwords h, rfl⟩
  rwa [hsame] at hread

end

end State

/-- A well-formed state is read back from its file. -/
theorem decodeUserMetadata_encodeUserMetadata (crc : Bytes → UInt32) (h : s.WellFormed)
    (hsized : IntSized s.payload.length) : decodeUserMetadata crc (encodeUserMetadata crc s) = .ok s := by
  have hread := State.reads_payload h hsized []
  rw [append_nil] at hread
  rw [decodeUserMetadata, encodeUserMetadata, Catalog.unmarshalEnvelope_marshalEnvelope crc 0 rfl hsized]
  dsimp only
  rw [hread]
  rfl

end Mts.User
