import Mts.User.Sessions

/-! Calls of the user manager one at a time, any of whose saves may fail: the maps stay consistent, a failed call
changes nothing, and the file holds the state in memory. -/

namespace Mts.User
open Lib Model

inductive Op
  | call (c : Call) (env : Env)
  | authenticate (credentials : Credentials) (ttl : Int64) (env : Env)

namespace Op

def env : Op → Env
  | .call _ env => env
  | .authenticate _ _ env => env

def events : Op → List Event
  | .call c env => [.call c env]
  | .authenticate credentials ttl env => [.verify credentials ttl env, .finish 0 env]

end Op

section
variable (p : Primitives) (authDisabled : Bool)

def Machine.execute (m : Machine) (op : Op) : Machine := op.events.foldl (Machine.step p authDisabled) m

def Machine.error? (m : Machine) : Op → Option UserError
  | .call c env => (m.store.call p.crc env.save (c.update p authDisabled env)).2
  | .authenticate credentials ttl env =>
    match drawTicket p authDisabled env credentials ttl m.store.state with
    | .error e => some e
    | .ok ticket => (m.store.call p.crc env.save (storeTicket p ticket)).2

/-- The random token of the call is one of `used`, and its digest is new. -/
def Machine.DrawsNew (used : Set GoString) (m : Machine) : Op → Prop
  | .call .. => True
  | .authenticate credentials ttl env =>
    ∀ ticket ∈ (drawTicket p authDisabled env credentials ttl m.store.state).toOption,
      ticket.token ∈ used ∧ p.digest ticket.token ∉ m.issued.map fun issue => p.digest issue.ticket.token

/-- The save of the call does not fail after it replaced the file. -/
def Op.Synced (op : Op) : Prop := op.env.save ≠ .unsynced

instance (op : Op) : Decidable op.Synced := inferInstanceAs (Decidable (_ ≠ _))

instance (used : Set GoString) [DecidablePred (· ∈ used)] (m : Machine) :
    DecidablePred (m.DrawsNew p authDisabled used)
  | .call .. | .authenticate .. => by unfold Machine.DrawsNew; infer_instance

/-- Grants, passwords and tokens belong to users, a token that is accepted was issued to an enabled user whose
password was not changed since, and the file is read as the state. -/
structure Machine.Intact (used : Set GoString) (m : Machine) : Prop where
  grants : ∀ name, (m.store.state.grants.find? name).isSome → (m.store.state.users.find? name).isSome
  passwords : ∀ name, (m.store.state.passwords.find? name).isSome → (m.store.state.users.find? name).isSome
  tokens : ∀ digest t, m.store.state.tokens.find? digest = some t → (m.store.state.users.find? t.userName).isSome
  accepted : ∀ env text, trimSpace text ∈ used → Accepts p authDisabled env text m.store.state →
    ∃ issue ∈ m.issued, issue.ticket.token = trimSpace text ∧ issue.epoch = m.epochs issue.ticket.userName ∧
      ∃ u, m.store.state.users.find? issue.ticket.userName = some u ∧ u.disabled = false
  reopened : load p.crc m.store.file = .ok m.store.state

structure Machine.Saved (used : Set GoString) (m : Machine) : Prop where
  inv : m.Inv p
  idle : m.pending = []
  used : ∀ issue ∈ m.issued, issue.ticket.token ∈ used
  file : m.store = ⟨.empty, none⟩ ∨ m.store.file = some (encodeUserMetadata p.crc m.store.state)

end

section
variable {p : Primitives} {authDisabled : Bool} {used : Set GoString} {m : Machine}

theorem Store.call_error_of_synced {s s' : Store} (hsave : save ≠ .unsynced)
    (h : s.call crc save update = (s', some e)) : s' = s := by
  unfold Store.call Store.replace at h
  split at h
  · exact (Prod.mk.inj h).1.symm
  · split at h
    · simp at h
    · exact (Prod.mk.inj h).1.symm
    · exact absurd rfl hsave

theorem Machine.Saved.intact (hinj : Set.InjOn p.digest used) (h : m.Saved p used)
    (hsized : IntSized m.store.state.payload.length) : m.Intact p authDisabled used where
  grants name hg := by
    obtain ⟨g, hg⟩ := Option.isSome_iff_exists.mp hg
    exact (h.inv.wellFormed.grants name g hg).1
  passwords name hr := by
    obtain ⟨r, hr⟩ := Option.isSome_iff_exists.mp hr
    exact (h.inv.wellFormed.passwords name r hr).1
  tokens := h.inv.wellFormed.tokens
  accepted env text htext haccepts := by
    obtain ⟨issue, hissue, hdigest, hepoch, huser⟩ := h.inv.accepts haccepts
    exact ⟨issue, hissue, hinj (h.used issue hissue) htext hdigest, hepoch, huser⟩
  reopened := by
    rcases h.file with hstore | hfile
    · rw [hstore]
      rfl
    · rw [hfile]
      exact decodeUserMetadata_encodeUserMetadata p.crc h.inv.wellFormed hsized

theorem Machine.saved_start : Machine.start.Saved p used := ⟨Machine.inv_start, rfl, by simp [start], .inl rfl⟩

theorem Machine.Saved.call (h : m.Saved p used) (hsave : env.save ≠ .unsynced) :
    (m.call p authDisabled c env).Saved p used := by
  have hinv : (m.call p authDisabled c env).Inv p := h.inv.call (by simp [h.idle])
  revert hinv
  unfold Machine.call
  split
  · next store hcall =>
    intro hinv
    obtain ⟨next, -, rfl⟩ := Store.call_ok hcall
    exact ⟨hinv, h.idle, h.used, .inr rfl⟩
  · next store e hcall =>
    intro hinv
    obtain rfl := Store.call_error_of_synced hsave hcall
    exact ⟨hinv, h.idle, h.used, h.file⟩

theorem Machine.execute_authenticate (hidle : m.pending = []) (credentials : Credentials) (ttl : Int64) (env : Env) :
    m.execute p authDisabled (.authenticate credentials ttl env) =
      match drawTicket p authDisabled env credentials ttl m.store.state with
      | .error _ => m
      | .ok ticket =>
        match m.store.call p.crc env.save (storeTicket p ticket) with
        | (store, none) =>
          { m with store := store, issued := ⟨ticket, m.epochs ticket.userName⟩ :: m.issued }
        | (store, some _) => { m with store := store } := by
  obtain ⟨store, epochs, pending, issued⟩ := m
  obtain rfl : pending = [] := hidle
  change Machine.finish p (Machine.verify p authDisabled _ credentials ttl env) 0 env = _
  unfold Machine.verify
  cases drawTicket p authDisabled env credentials ttl store.state with
  | error e => rfl
  | ok ticket => rfl

theorem Machine.Saved.authenticate (h : m.Saved p used) (hsave : env.save ≠ .unsynced)
    (hnew : m.DrawsNew p authDisabled used (.authenticate credentials ttl env)) :
    (m.execute p authDisabled (.authenticate credentials ttl env)).Saved p used := by
  have hfresh : m.Fresh p authDisabled (.verify credentials ttl env) := by
    intro ticket hticket
    rw [h.idle]
    exact (hnew ticket hticket).2
  have hinv : (m.execute p authDisabled (.authenticate credentials ttl env)).Inv p := (h.inv.verify hfresh).finish 0 env
  revert hinv
  rw [Machine.execute_authenticate h.idle]
  split
  · exact fun hinv => ⟨hinv, h.idle, h.used, h.file⟩
  · next ticket hticket =>
    split
    · next store hcall =>
      intro hinv
      obtain ⟨next, -, rfl⟩ := Store.call_ok hcall
      refine ⟨hinv, h.idle, fun issue hissue => ?_, .inr rfl⟩
      rcases List.mem_cons.mp hissue with rfl | hissue
      · exact (hnew ticket (by rw [hticket]; rfl)).1
      · exact h.used issue hissue
    · next store e hcall =>
      intro hinv
      obtain rfl := Store.call_error_of_synced hsave hcall
      exact ⟨hinv, h.idle, h.used, h.file⟩

theorem Machine.Saved.execute (h : m.Saved p used) (hsynced : op.Synced)
    (hnew : m.DrawsNew p authDisabled used op) : (m.execute p authDisabled op).Saved p used := by
  cases op with
  | call c env => exact h.call hsynced
  | authenticate credentials ttl env => exact h.authenticate hsynced hnew

theorem Machine.state_execute_of_error (hidle : m.pending = []) (h : m.error? p authDisabled op ≠ none) :
    (m.execute p authDisabled op).store.state = m.store.state := by
  cases op with
  | call c env =>
    change (m.call p authDisabled c env).store.state = _
    change (m.store.call p.crc env.save (c.update p authDisabled env)).2 ≠ none at h
    unfold Machine.call
    split
    · next store hcall => simp [hcall] at h
    · next store e hcall => exact Store.call_error hcall
  | authenticate credentials ttl env =>
    rw [Machine.execute_authenticate hidle]
    unfold Machine.error? at h
    split
    · rfl
    · next ticket hticket =>
      simp only [hticket] at h
      split
      · next store hcall => simp [hcall] at h
      · next store e hcall => exact Store.call_error hcall

end

/-- As long as no save fails after it replaced the file, every state that is reached is intact, and a call that
returns an error changes nothing. -/
theorem intact_of_synced (p : Primitives) (authDisabled : Bool) (used : Set GoString) (hinj : Set.InjOn p.digest used)
    (ops : List Op)
    (h : Always (Machine.execute p authDisabled) (fun m op => op.Synced ∧ m.DrawsNew p authDisabled used op) .start ops)
    (hsized : ∀ pre, pre <+: ops →
      IntSized (pre.foldl (Machine.execute p authDisabled) .start).store.state.payload.length) :
    (∀ pre, pre <+: ops → (pre.foldl (Machine.execute p authDisabled) .start).Intact p authDisabled used) ∧
      Always (Machine.execute p authDisabled) (fun m op => m.error? p authDisabled op ≠ none →
        (m.execute p authDisabled op).store.state = m.store.state) .start ops := by
  have hstep : ∀ (m : Machine) (op : Op), m.Saved p used → op.Synced ∧ m.DrawsNew p authDisabled used op →
      (m.execute p authDisabled op).Saved p used := fun m op hm hop => hm.execute hop.1 hop.2
  constructor
  · intro pre hpre
    have hsize := hsized pre hpre
    obtain ⟨post, rfl⟩ := hpre
    exact (h.of_append.with_invariant Machine.saved_start hstep).1.intact hinj hsize
  · refine (h.with_invariant Machine.saved_start hstep).2.imp fun m op hm herror => ?_
    exact Machine.state_execute_of_error hm.1.idle herror

/-- The second user is saved, but the directory cannot be synced. -/
def unsyncedOps : List Op :=
  [.call (.createUser plainUser) plainEnv,
    .call (.createUser { plainUser with name := [98] }) { plainEnv with save := .unsynced }]

/-- The call returned an error, and the file has its user. -/
theorem unsyncedOps_not_reopened :
    let m := unsyncedOps.foldl (Machine.execute plainPrimitives false) .start
    m.store.state.users.entries.map Prod.fst = [[97]] ∧
      (load plainPrimitives.crc m.store.file).toOption.map (fun s => s.users.entries.map Prod.fst) =
        some [[97], [98]] ∧
      ¬ m.Intact plainPrimitives false Set.univ := by
  have hmemory : (unsyncedOps.foldl (Machine.execute plainPrimitives false) .start).store.state.users.entries.map
      Prod.fst = [[97]] := by decide +kernel
  have hfile : (load plainPrimitives.crc
      (unsyncedOps.foldl (Machine.execute plainPrimitives false) .start).store.file).toOption.map
        (fun s => s.users.entries.map Prod.fst) = some [[97], [98]] := by decide +kernel
  refine ⟨hmemory, hfile, fun h => ?_⟩
  rw [h.reopened] at hfile
  exact absurd (hmemory.symm.trans (Option.some.inj hfile)) (by decide)

def syncedOps : List Op :=
  [.call (.createUser plainUser) plainEnv, .call (.setPassword [97] [120]) plainEnv,
    .authenticate ⟨[97], [120]⟩ 10 plainEnv,
    .call (.grantPermission [97] [100] [114, 101, 97, 100]) { plainEnv with save := .failed },
    .call (.changePassword [97] [120] [121]) plainEnv]

theorem syncedOps_intact :
    Set.InjOn plainPrimitives.digest Set.univ ∧
      Always (Machine.execute plainPrimitives false)
        (fun m op => op.Synced ∧ m.DrawsNew plainPrimitives false Set.univ op) .start syncedOps ∧
      (syncedOps.foldl (Machine.execute plainPrimitives false) .start).Intact plainPrimitives false Set.univ := by
  have hinj : Set.InjOn plainPrimitives.digest Set.univ := fun _ _ _ _ heq => heq
  have hsynced : Always (Machine.execute plainPrimitives false)
      (fun m op => op.Synced ∧ m.DrawsNew plainPrimitives false Set.univ op) .start syncedOps := by decide +kernel
  have hsized : ∀ pre ∈ syncedOps.inits,
      IntSized (pre.foldl (Machine.execute plainPrimitives false) .start).store.state.payload.length := by
    decide +kernel
  have hintact := intact_of_synced _ _ _ hinj _ hsynced fun pre hpre => hsized pre ((List.mem_inits _ _).mpr hpre)
  exact ⟨hinj, hsynced, hintact.1 _ List.prefix_rfl⟩

end Mts.User
