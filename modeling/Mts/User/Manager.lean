import Mts.User.Encoding

/-! The calls of the local user manager, `user/local_user_manager.go`, `user/local_user_permissions.go` and
`user/local_user_auth.go`. A call computes the state that replaces the old one; it takes effect when it is saved.
What a call gets from outside (its context, random bytes, the time, the end of the save) is its environment; PBKDF2,
SHA-256 in hex and base64 are parameters. -/

namespace Mts.User
open Lib Model

structure Primitives where
  crc : Bytes → UInt32
  /-- `pbkdf2.Key` with SHA-256. -/
  key : GoString → Bytes → Int64 → Nat → Option Bytes
  key_length : ∀ {password salt iterations length hash}, key password salt iterations length = some hash →
    hash.length = length
  /-- The SHA-256 sum in hex. -/
  digest : GoString → GoString
  encodeToString : Bytes → GoString

/-- How `WriteFileAtomic` ends: it fails `unsynced` if the directory cannot be synced after the rename. -/
inductive Save
  | ok | failed | unsynced
  deriving DecidableEq

structure Env where
  canceled : Bool
  canceledLater : Bool
  random : Nat → Option Bytes
  random_length : ∀ {n bytes}, random n = some bytes → bytes.length = n
  now : Int64
  save : Save

inductive UserError
  | canceled | invalidUser | notFound (name : GoString) | alreadyExists (name : GoString) | invalidPermission
  | invalidCredentials | authenticationDisabled | random | key | save
  deriving DecidableEq

def State.removeUserTokens (s : State) (userName : GoString) : SortedMap GoString TokenRecord :=
  s.tokens.filter fun e => e.2.userName ≠ userName

def checkContext (canceled : Bool) : Except UserError Unit := require (canceled = false) .canceled

section Users
variable (env : Env)

def State.deleteUser (s : State) (name : GoString) : State :=
  ⟨s.users.erase name, s.grants.erase name, s.passwords.erase name, s.removeUserTokens name⟩

def createUser (input : UserInput) (s : State) : Except UserError State := do
  checkContext env.canceled
  let user ← orError (normalizeUser input) .invalidUser
  require (s.users.find? user.name = none) (.alreadyExists user.name)
  return { s with users := s.users.set user.name user }

/-- A user that gets disabled loses all tokens. -/
def updateUser (input : UserInput) (s : State) : Except UserError State := do
  checkContext env.canceled
  let user ← orError (normalizeUser input) .invalidUser
  let existing ← orError (s.users.find? user.name) (.notFound user.name)
  return { s with
    users := s.users.set user.name user
    tokens := if user.disabled && !existing.disabled then s.removeUserTokens user.name else s.tokens }

def deleteUser (name : GoString) (s : State) : Except UserError State := do
  checkContext env.canceled
  let _ ← orError (s.users.find? (trimSpace name)) (.notFound (trimSpace name))
  return s.deleteUser (trimSpace name)

end Users

section Permissions
variable (env : Env)

def validateGrantInput (userName database permission : GoString) :
    Except UserError (GoString × GoString × Permission) :=
  if trimSpace userName = [] ∨ trimSpace database = [] then .error .invalidPermission
  else do
    let permission ← orError (validPermission permission) .invalidPermission
    return (trimSpace userName, trimSpace database, permission)

def State.grantsOf (s : State) (userName : GoString) : UserGrants := (s.grants.find? userName).getD .empty

def permissionsOf (grants : UserGrants) (database : GoString) : PermissionSet := (grants.find? database).getD .empty

def grantPermission (userName database permission : GoString) (s : State) : Except UserError State := do
  checkContext env.canceled
  let (userName, database, permission) ← validateGrantInput userName database permission
  let _ ← orError (s.users.find? userName) (.notFound userName)
  let grants := s.grantsOf userName
  return { s with
    grants := s.grants.set userName (grants.set database ((permissionsOf grants database).put permission true)) }

/-- `removeGrant`: neither a database without permissions nor a user without databases stays. -/
def removeGrant (grants : UserGrants) (database : GoString) (permission : Permission) : UserGrants :=
  let permissions := (permissionsOf grants database).put permission false
  if permissions.isEmpty then grants.erase database else grants.set database permissions

def revokePermission (userName database permission : GoString) (s : State) : Except UserError State := do
  checkContext env.canceled
  let (userName, database, permission) ← validateGrantInput userName database permission
  let _ ← orError (s.users.find? userName) (.notFound userName)
  let grants := removeGrant (s.grantsOf userName) database permission
  return { s with
    grants := if grants.isEmpty then s.grants.erase userName else s.grants.set userName grants }

end Permissions

section Passwords
variable (p : Primitives) (authDisabled : Bool) (env : Env)

def passwordSaltBytes : Nat := 16
def passwordHashBytes : Nat := 32
def passwordIterations : Int64 := 210000
def tokenBytes : Nat := 32

def newPasswordRecord (password : GoString) : Except UserError PasswordRecord := do
  let salt ← orError (env.random passwordSaltBytes) .random
  let hash ← orError (p.key password salt passwordIterations passwordHashBytes) .key
  return ⟨salt, hash, passwordIterations⟩

def verifyPasswordRecord (r : PasswordRecord) (password : GoString) : Bool :=
  if r.salt = [] ∨ r.hash = [] ∨ r.iterations ≤ 0 then false
  else p.key password r.salt r.iterations r.hash.length = some r.hash

def checkEnabled : Except UserError Unit := require (authDisabled = false) .authenticationDisabled

def checkPassword (userName password : GoString) (s : State) : Except UserError Unit := do
  let user ← orError (s.users.find? userName) .invalidCredentials
  require (user.disabled = false) .invalidCredentials
  require (verifyPasswordRecord p ((s.passwords.find? userName).getD .zero) password = true) .invalidCredentials

def State.setPassword (s : State) (userName : GoString) (r : PasswordRecord) : State :=
  { s with
    passwords := s.passwords.set userName r
    tokens := s.removeUserTokens userName }

def setPassword (userName password : GoString) (s : State) : Except UserError State := do
  checkContext env.canceled
  checkEnabled authDisabled
  require (trimSpace userName ≠ [] ∧ trimSpace password ≠ []) .invalidCredentials
  let record ← newPasswordRecord p env password
  let _ ← orError (s.users.find? (trimSpace userName)) (.notFound (trimSpace userName))
  return s.setPassword (trimSpace userName) record

def changePassword (userName oldPassword newPassword : GoString) (s : State) : Except UserError State := do
  checkContext env.canceled
  checkEnabled authDisabled
  require (trimSpace newPassword ≠ []) .invalidCredentials
  checkPassword p (trimSpace userName) oldPassword s
  let record ← newPasswordRecord p env newPassword
  return s.setPassword (trimSpace userName) record

def verifyPassword (canceled : Bool) (userName password : GoString) (s : State) : Except UserError Unit := do
  checkContext canceled
  checkEnabled authDisabled
  checkPassword p (trimSpace userName) password s

end Passwords

section Tokens
variable (p : Primitives) (authDisabled : Bool) (env : Env)

structure Credentials where
  userName : GoString
  password : GoString

structure Ticket where
  userName : GoString
  token : GoString
  expiresAt : Int64
  deriving DecidableEq

/-- `Authenticate` up to the lock under which the token is stored. -/
def drawTicket (credentials : Credentials) (ttl : Int64) (s : State) : Except UserError Ticket := do
  checkContext env.canceled
  checkEnabled authDisabled
  require (0 < ttl) .invalidCredentials
  verifyPassword p authDisabled env.canceledLater credentials.userName credentials.password s
  let raw ← orError (env.random tokenBytes) .random
  return ⟨trimSpace credentials.userName, p.encodeToString raw, env.now + ttl⟩

/-- The rest of `Authenticate`, which looks at the user again but not at the password. -/
def storeTicket (t : Ticket) (s : State) : Except UserError State := do
  let user ← orError (s.users.find? t.userName) .invalidCredentials
  require (user.disabled = false) .invalidCredentials
  return { s with tokens := s.tokens.set (p.digest t.token) ⟨t.userName, t.expiresAt⟩ }

structure Principal where
  userName : GoString
  role : Role
  expiresAt : Int64
  deriving DecidableEq

/-- `VerifyToken`; the revocation of an expired token is a call of its own. -/
def verifyToken (token : GoString) (s : State) : Except UserError Principal := do
  checkContext env.canceled
  checkEnabled authDisabled
  require (trimSpace token ≠ []) .invalidCredentials
  let record ← orError (s.tokens.find? (p.digest (trimSpace token))) .invalidCredentials
  let user ← orError (s.users.find? record.userName) .invalidCredentials
  require (env.now < record.expiresAtUnixNano ∧ user.name ≠ [] ∧ user.disabled = false) .invalidCredentials
  return ⟨record.userName, user.role, record.expiresAtUnixNano⟩

def revokeToken (token : GoString) (s : State) : Except UserError State := do
  checkContext env.canceled
  checkEnabled authDisabled
  require (trimSpace token ≠ []) .invalidCredentials
  return { s with tokens := s.tokens.erase (p.digest (trimSpace token)) }

end Tokens

inductive Call
  | createUser (input : UserInput)
  | updateUser (input : UserInput)
  | deleteUser (name : GoString)
  | grantPermission (userName database permission : GoString)
  | revokePermission (userName database permission : GoString)
  | setPassword (userName password : GoString)
  | changePassword (userName oldPassword newPassword : GoString)
  | revokeToken (token : GoString)

def Call.update (p : Primitives) (authDisabled : Bool) (env : Env) : Call → State → Except UserError State
  | .createUser input => User.createUser env input
  | .updateUser input => User.updateUser env input
  | .deleteUser name => User.deleteUser env name
  | .grantPermission userName database permission => User.grantPermission env userName database permission
  | .revokePermission userName database permission => User.revokePermission env userName database permission
  | .setPassword userName password => User.setPassword p authDisabled env userName password
  | .changePassword userName oldPassword newPassword =>
    User.changePassword p authDisabled env userName oldPassword newPassword
  | .revokeToken token => User.revokeToken p authDisabled env token

/-- The user whose access the call ends: the password changes or the user goes. -/
def Call.changes : Call → Option GoString
  | .deleteUser name => some (trimSpace name)
  | .setPassword userName _ => some (trimSpace userName)
  | .changePassword userName _ _ => some (trimSpace userName)
  | _ => none

structure Store where
  state : State
  file : Option Bytes

/-- `localStateStore.replace`: the state in memory is replaced if the file was written. -/
def Store.replace (crc : Bytes → UInt32) (save : Save) (s : Store) (next : State) : Store × Option UserError :=
  match save with
  | .ok => (⟨next, some (encodeUserMetadata crc next)⟩, none)
  | .failed => (s, some .save)
  | .unsynced => ({ s with file := some (encodeUserMetadata crc next) }, some .save)

def Store.call (crc : Bytes → UInt32) (save : Save) (s : Store) (update : State → Except UserError State) :
    Store × Option UserError :=
  match update s.state with
  | .error e => (s, some e)
  | .ok next => s.replace crc save next

inductive Change (s : State) : Option GoString → State → Prop
  | user (user : User) (tokens : SortedMap GoString TokenRecord)
      (htokens : ∀ d t, tokens.find? d = some t → s.tokens.find? d = some t) :
      Change s none { s with users := s.users.set user.name user, tokens := tokens }
  | delete (name : GoString) : Change s (some name) (s.deleteUser name)
  | grant (name : GoString) (grants : UserGrants) (huser : (s.users.find? name).isSome)
      (hne : grants.isEmpty = false) : Change s none { s with grants := s.grants.set name grants }
  | ungrant (name : GoString) : Change s none { s with grants := s.grants.erase name }
  | password (name : GoString) (r : PasswordRecord) (huser : (s.users.find? name).isSome)
      (hr : r.salt ≠ [] ∧ r.hash ≠ [] ∧ 0 < r.iterations) : Change s (some name) (s.setPassword name r)
  | revoke (digest : GoString) : Change s none { s with tokens := s.tokens.erase digest }

section
variable {p : Primitives} {authDisabled : Bool} {env : Env} {s next : State}

theorem find?_removeUserTokens :
    (s.removeUserTokens userName).find? d = some t ↔ s.tokens.find? d = some t ∧ t.userName ≠ userName := by
  rw [State.removeUserTokens, SortedMap.find?_filter, Option.filter_eq_some_iff]
  simp

theorem newPasswordRecord_ok
    (h : newPasswordRecord p env password = .ok r) : r.salt ≠ [] ∧ r.hash ≠ [] ∧ 0 < r.iterations := by
  obtain ⟨salt, hsalt, h⟩ := except_bind_ok h
  obtain ⟨hash, hhash, h⟩ := except_bind_ok h
  cases h
  have hpos : 0 < passwordIterations := by decide
  refine ⟨List.ne_nil_of_length_pos ?_, List.ne_nil_of_length_pos ?_, hpos⟩
  · rw [env.random_length (orError_ok hsalt)]
    decide
  · rw [p.key_length (orError_ok hhash)]
    decide

theorem isSome_of_orError {α ε : Type} {o : Option α} {e : ε} {a : α} (h : orError o e = .ok a) : o.isSome := by
  rw [orError_ok h]
  rfl

theorem createUser_change (h : createUser env input s = .ok next) : Change s none next := by
  obtain ⟨_, -, h⟩ := except_bind_ok h
  obtain ⟨user, -, h⟩ := except_bind_ok h
  obtain ⟨_, -, h⟩ := except_bind_ok h
  cases h
  exact .user user s.tokens fun _ _ ht => ht

theorem updateUser_change (h : updateUser env input s = .ok next) : Change s none next := by
  obtain ⟨_, -, h⟩ := except_bind_ok h
  obtain ⟨user, -, h⟩ := except_bind_ok h
  obtain ⟨existing, -, h⟩ := except_bind_ok h
  cases h
  refine .user user _ fun d t ht => ?_
  split at ht
  · exact (find?_removeUserTokens.mp ht).1
  · exact ht

theorem deleteUser_change (h : deleteUser env name s = .ok next) : Change s (some (trimSpace name)) next := by
  obtain ⟨_, -, h⟩ := except_bind_ok h
  obtain ⟨_, -, h⟩ := except_bind_ok h
  cases h
  exact .delete _

theorem grantPermission_change {userName database permission : GoString}
    (h : grantPermission env userName database permission s = .ok next) : Change s none next := by
  obtain ⟨_, -, h⟩ := except_bind_ok h
  obtain ⟨⟨name, db, perm⟩, -, h⟩ := except_bind_ok h
  obtain ⟨_, huser, h⟩ := except_bind_ok h
  cases h
  exact .grant name _ (isSome_of_orError huser) (SortedMap.isEmpty_set _ _ _)

theorem revokePermission_change {userName database permission : GoString}
    (h : revokePermission env userName database permission s = .ok next) : Change s none next := by
  obtain ⟨_, -, h⟩ := except_bind_ok h
  obtain ⟨⟨name, db, perm⟩, -, h⟩ := except_bind_ok h
  obtain ⟨_, huser, h⟩ := except_bind_ok h
  cases h
  split
  · exact .ungrant name
  · next hne => exact .grant name _ (isSome_of_orError huser) (by simpa using hne)

theorem setPassword_change {userName password : GoString}
    (h : setPassword p authDisabled env userName password s = .ok next) :
    Change s (some (trimSpace userName)) next := by
  obtain ⟨_, -, h⟩ := except_bind_ok h
  obtain ⟨_, -, h⟩ := except_bind_ok h
  obtain ⟨_, -, h⟩ := except_bind_ok h
  obtain ⟨r, hr, h⟩ := except_bind_ok h
  obtain ⟨_, huser, h⟩ := except_bind_ok h
  cases h
  exact .password _ r (isSome_of_orError huser) (newPasswordRecord_ok hr)

theorem changePassword_change {userName oldPassword newPassword : GoString}
    (h : changePassword p authDisabled env userName oldPassword newPassword s = .ok next) :
    Change s (some (trimSpace userName)) next := by
  obtain ⟨_, -, h⟩ := except_bind_ok h
  obtain ⟨_, -, h⟩ := except_bind_ok h
  obtain ⟨_, -, h⟩ := except_bind_ok h
  obtain ⟨_, hcheck, h⟩ := except_bind_ok h
  obtain ⟨r, hr, h⟩ := except_bind_ok h
  cases h
  obtain ⟨_, huser, -⟩ := except_bind_ok hcheck
  exact .password _ r (isSome_of_orError huser) (newPasswordRecord_ok hr)

theorem revokeToken_change (h : revokeToken p authDisabled env token s = .ok next) : Change s none next := by
  obtain ⟨_, -, h⟩ := except_bind_ok h
  obtain ⟨_, -, h⟩ := except_bind_ok h
  obtain ⟨_, -, h⟩ := except_bind_ok h
  cases h
  exact .revoke _

theorem Call.change {c : Call} (h : c.update p authDisabled env s = .ok next) : Change s c.changes next := by
  cases c with
  | createUser input => exact createUser_change h
  | updateUser input => exact updateUser_change h
  | deleteUser name => exact deleteUser_change h
  | grantPermission userName database permission => exact grantPermission_change h
  | revokePermission userName database permission => exact revokePermission_change h
  | setPassword userName password => exact setPassword_change h
  | changePassword userName oldPassword newPassword => exact changePassword_change h
  | revokeToken token => exact revokeToken_change h

/-- A call gives no new tokens, and those of the user whose access it ends are gone. -/
theorem Change.tokens (h : Change s changed next)
    (ht : next.tokens.find? d = some t) : s.tokens.find? d = some t ∧ changed ≠ some t.userName := by
  cases h with
  | user user tokens htokens => exact ⟨htokens d t ht, by simp⟩
  | delete name =>
    obtain ⟨ht, hne⟩ := find?_removeUserTokens.mp ht
    exact ⟨ht, by simpa using hne.symm⟩
  | grant name grants huser hne => exact ⟨ht, by simp⟩
  | ungrant name => exact ⟨ht, by simp⟩
  | password name r huser hr =>
    obtain ⟨ht, hne⟩ := find?_removeUserTokens.mp ht
    exact ⟨ht, by simpa using hne.symm⟩
  | revoke digest => exact ⟨(SortedMap.of_find?_erase ht).2, by simp⟩

theorem find?_isSome_deleteUser (h : (s.users.find? userName).isSome)
    (hne : userName ≠ name) : ((s.deleteUser name).users.find? userName).isSome := by
  change ((s.users.erase name).find? userName).isSome
  rwa [SortedMap.find?_erase, if_neg hne]

theorem State.WellFormed.deleteUser (h : s.WellFormed) (name : GoString) : (s.deleteUser name).WellFormed where
  named userName u hu := h.named userName u (SortedMap.of_find?_erase hu).2
  grants userName g hg := by
    obtain ⟨hne, hg⟩ := SortedMap.of_find?_erase hg
    exact (h.grants userName g hg).imp_left fun huser => find?_isSome_deleteUser huser hne
  passwords userName r hr := by
    obtain ⟨hne, hr⟩ := SortedMap.of_find?_erase hr
    exact (h.passwords userName r hr).imp_left fun huser => find?_isSome_deleteUser huser hne
  tokens d t ht := by
    obtain ⟨ht, hne⟩ := find?_removeUserTokens.mp ht
    exact find?_isSome_deleteUser (h.tokens d t ht) hne

theorem State.WellFormed.setUser (h : s.WellFormed) (user : User) {tokens : SortedMap GoString TokenRecord}
    (htokens : ∀ d t, tokens.find? d = some t → s.tokens.find? d = some t) :
    State.WellFormed { s with users := s.users.set user.name user, tokens := tokens } where
  named name u hu := by
    rcases SortedMap.of_find?_set hu with ⟨rfl, rfl⟩ | hu
    · rfl
    · exact h.named name u hu
  grants name g hg := (h.grants name g hg).imp_left fun hu => SortedMap.isSome_find?_set hu _ _
  passwords name r hr := (h.passwords name r hr).imp_left fun hu => SortedMap.isSome_find?_set hu _ _
  tokens d t ht := SortedMap.isSome_find?_set (h.tokens d t (htokens d t ht)) _ _

theorem State.WellFormed.setTokens (h : s.WellFormed) {tokens : SortedMap GoString TokenRecord}
    (htokens : ∀ d t, tokens.find? d = some t → (s.users.find? t.userName).isSome) :
    State.WellFormed { s with tokens := tokens } := ⟨h.named, h.grants, h.passwords, htokens⟩

theorem State.WellFormed.setPassword (h : s.WellFormed)
    (huser : (s.users.find? name).isSome) (hr : r.salt ≠ [] ∧ r.hash ≠ [] ∧ 0 < r.iterations) :
    (s.setPassword name r).WellFormed where
  named := h.named
  grants := h.grants
  passwords userName r' hr' := by
    rcases SortedMap.of_find?_set hr' with ⟨rfl, rfl⟩ | hr'
    · exact ⟨huser, hr⟩
    · exact h.passwords userName r' hr'
  tokens d t ht := h.tokens d t (find?_removeUserTokens.mp ht).1

theorem Change.wellFormed {changed : Option GoString} (h : Change s changed next) (hs : s.WellFormed) :
    next.WellFormed := by
  cases h with
  | user user tokens htokens => exact hs.setUser user htokens
  | delete name => exact hs.deleteUser name
  | grant name grants huser hne =>
    refine ⟨hs.named, fun userName g hg => ?_, hs.passwords, hs.tokens⟩
    rcases SortedMap.of_find?_set hg with ⟨rfl, rfl⟩ | hg
    · exact ⟨huser, hne⟩
    · exact hs.grants userName g hg
  | ungrant name =>
    exact ⟨hs.named, fun userName g hg => hs.grants userName g (SortedMap.of_find?_erase hg).2, hs.passwords, hs.tokens⟩
  | password name r huser hr => exact hs.setPassword huser hr
  | revoke digest => exact hs.setTokens fun d t ht => hs.tokens d t (SortedMap.of_find?_erase ht).2

theorem storeTicket_ok {t : Ticket} (h : storeTicket p t s = .ok next) :
    (s.users.find? t.userName).isSome ∧
      next = { s with tokens := s.tokens.set (p.digest t.token) ⟨t.userName, t.expiresAt⟩ } := by
  obtain ⟨user, huser, h⟩ := except_bind_ok h
  obtain ⟨_, -, h⟩ := except_bind_ok h
  exact ⟨isSome_of_orError huser, (Except.ok.inj h).symm⟩

theorem storeTicket_wellFormed {t : Ticket} (h : storeTicket p t s = .ok next) (hs : s.WellFormed) :
    next.WellFormed := by
  obtain ⟨huser, rfl⟩ := storeTicket_ok h
  refine hs.setTokens fun d r hr => ?_
  rcases SortedMap.of_find?_set hr with ⟨-, rfl⟩ | hr
  · exact huser
  · exact hs.tokens d r hr

theorem verifyToken_ok (h : verifyToken p authDisabled env token s = .ok principal) :
    ∃ r u, s.tokens.find? (p.digest (trimSpace token)) = some r ∧ s.users.find? r.userName = some u ∧
      u.disabled = false := by
  obtain ⟨_, -, h⟩ := except_bind_ok h
  obtain ⟨_, -, h⟩ := except_bind_ok h
  obtain ⟨_, -, h⟩ := except_bind_ok h
  obtain ⟨r, hr, h⟩ := except_bind_ok h
  obtain ⟨u, hu, h⟩ := except_bind_ok h
  obtain ⟨_, hvalid, -⟩ := except_bind_ok h
  exact ⟨r, u, orError_ok hr, orError_ok hu, (require_ok hvalid).2.2⟩

end

section
variable {crc : Bytes → UInt32} {save : Save} {s s' : Store} {update : State → Except UserError State}

theorem Store.call_error (h : s.call crc save update = (s', some e)) : s'.state = s.state := by
  unfold Store.call Store.replace at h
  split at h
  · rw [(Prod.mk.inj h).1]
  · split at h
    · simp at h
    · rw [(Prod.mk.inj h).1]
    · rw [← (Prod.mk.inj h).1]

theorem Store.call_ok (h : s.call crc save update = (s', none)) :
    ∃ next, update s.state = .ok next ∧ s' = ⟨next, some (encodeUserMetadata crc next)⟩ := by
  unfold Store.call Store.replace at h
  split at h
  · simp at h
  · next next hnext =>
    split at h
    · exact ⟨next, hnext, (Prod.mk.inj h).1.symm⟩
    · simp at h
    · simp at h

end

end Mts.User
