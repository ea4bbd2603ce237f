import Mts.Lib.Bytes
import Mts.Model.Types

/-! The state of the local user manager, `user/types.go` and `user/local_state_store.go`, and the normalisation of
its input. The maps are sorted by key. -/

set_option linter.dupNamespace false

namespace Mts.User
open Lib Model

scoped instance preorder : Std.IsPreorder UInt8 := inferInstance

scoped instance trichotomous : Std.Trichotomous (α := GoString) (· < ·) := inferInstance

scoped instance lawful : LawfulBEq GoString := inferInstance

inductive Role
  | user | admin
  deriving DecidableEq

inductive Permission
  | read | write | admin
  deriving DecidableEq

structure User where
  name : GoString
  displayName : GoString
  role : Role
  disabled : Bool
  metadata : TagMap
  deriving DecidableEq

/-- A `map[Permission]struct{}`. -/
structure PermissionSet where
  read : Bool
  write : Bool
  admin : Bool
  deriving DecidableEq

namespace PermissionSet

def empty : PermissionSet := ⟨false, false, false⟩

def put (s : PermissionSet) (p : Permission) (b : Bool) : PermissionSet :=
  match p with
  | .read => { s with read := b }
  | .write => { s with write := b }
  | .admin => { s with admin := b }

def isEmpty (s : PermissionSet) : Bool := s = empty

end PermissionSet

structure PasswordRecord where
  salt : Bytes
  hash : Bytes
  iterations : Int64
  deriving DecidableEq

def PasswordRecord.zero : PasswordRecord := ⟨[], [], 0⟩

structure TokenRecord where
  userName : GoString
  expiresAtUnixNano : Int64
  deriving DecidableEq

abbrev UserGrants := SortedMap GoString PermissionSet

structure State where
  users : SortedMap GoString User
  grants : SortedMap GoString UserGrants
  passwords : SortedMap GoString PasswordRecord
  tokens : SortedMap GoString TokenRecord
  deriving DecidableEq

def State.empty : State := ⟨.empty, .empty, .empty, .empty⟩

/-- Every grant, password and token belongs to a user; no user has an empty record or no grants in the maps. -/
structure State.WellFormed (s : State) : Prop where
  named : ∀ name u, s.users.find? name = some u → u.name = name
  grants : ∀ name g, s.grants.find? name = some g → (s.users.find? name).isSome ∧ g.isEmpty = false
  passwords : ∀ name r, s.passwords.find? name = some r →
    (s.users.find? name).isSome ∧ r.salt ≠ [] ∧ r.hash ≠ [] ∧ 0 < r.iterations
  tokens : ∀ digest t, s.tokens.find? digest = some t → (s.users.find? t.userName).isSome

theorem State.wellFormed_empty : State.empty.WellFormed := by
  constructor <;> simp [State.empty]

section Trim

def asciiSpace (b : UInt8) : Bool := (9 ≤ b && b ≤ 13) || b = 32

/-- The last byte of a space of the block U+2000. -/
def generalSpace (b : UInt8) : Bool := (0x80 ≤ b && b ≤ 0x8A) || b = 0xA8 || b = 0xA9 || b = 0xAF

def trimLeft : GoString → GoString
  | [] => []
  | 0xC2 :: 0x85 :: rest | 0xC2 :: 0xA0 :: rest => trimLeft rest
  | 0xE1 :: 0x9A :: 0x80 :: rest => trimLeft rest
  | 0xE2 :: 0x80 :: b :: rest => if generalSpace b then trimLeft rest else 0xE2 :: 0x80 :: b :: rest
  | 0xE2 :: 0x81 :: 0x9F :: rest => trimLeft rest
  | 0xE3 :: 0x80 :: 0x80 :: rest => trimLeft rest
  | b :: rest => if asciiSpace b then trimLeft rest else b :: rest

/-- The bytes come in reverse. -/
def trimRight : GoString → GoString
  | [] => []
  | b :: rest =>
    if asciiSpace b then trimRight rest
    else
      match b, rest with
      | 0x85, 0xC2 :: before | 0xA0, 0xC2 :: before => trimRight before
      | 0x80, 0x9A :: 0xE1 :: before => trimRight before
      | 0x9F, 0x81 :: 0xE2 :: before => trimRight before
      | 0x80, 0x80 :: 0xE3 :: before => trimRight before
      | b, 0x80 :: 0xE2 :: before => if generalSpace b then trimRight before else b :: 0x80 :: 0xE2 :: before
      | b, rest => b :: rest

/-- `strings.TrimSpace` on UTF-8. -/
def trimSpace (s : GoString) : GoString := (trimRight (trimLeft s).reverse).reverse

end Trim

section Input

/-- `user` and `admin`. -/
def Role.text : Role → GoString
  | .user => [117, 115, 101, 114]
  | .admin => [97, 100, 109, 105, 110]

def normalizeRole (role : GoString) : GoString :=
  let role := trimSpace role
  if role = [] then Role.user.text else role

def validRole (role : GoString) : Option Role :=
  if role = Role.user.text then some .user else if role = Role.admin.text then some .admin else none

theorem validRole_normalizeRole_text (role : Role) : validRole (normalizeRole role.text) = some role := by
  cases role <;> decide

/-- `read`, `write` and `admin`. -/
def validPermission (permission : GoString) : Option Permission :=
  if permission = [114, 101, 97, 100] then some .read
  else if permission = [119, 114, 105, 116, 101] then some .write
  else if permission = [97, 100, 109, 105, 110] then some .admin
  else none

structure UserInput where
  name : GoString
  displayName : GoString
  role : GoString
  disabled : Bool
  metadata : TagMap

def normalizeUser (input : UserInput) : Option User :=
  if trimSpace input.name = [] then none
  else (validRole (normalizeRole input.role)).map fun role =>
    ⟨trimSpace input.name, trimSpace input.displayName, role, input.disabled, input.metadata⟩

end Input

end Mts.User
