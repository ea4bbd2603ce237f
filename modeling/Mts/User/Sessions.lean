import Mts.Lib.Trace
import Mts.User.Manager

/-! Interleavings of `Authenticate` with the other calls. `Authenticate` checks the password under one lock and
stores its token under another; in between it is pending. `epochs` counts how often the password of a user was
changed or the user deleted, and every token carries the count at which its password was checked. -/

namespace Mts.User
open Lib Model List

structure Issue where
  ticket : Ticket
  epoch : Nat
  deriving DecidableEq

structure Machine where
  store : Store
  epochs : GoString → Nat
  pending : List Issue
  issued : List Issue

inductive Event
  | call (c : Call) (env : Env)
  /-- `Authenticate` up to its second lock. -/
  | verify (credentials : Credentials) (ttl : Int64) (env : Env)
  /-- A pending `Authenticate` stores its token. -/
  | finish (i : Nat) (env : Env)
  /-- `VerifyToken` revokes an expired token. -/
  | expire (token : GoString) (env : Env)

section
variable (p : Primitives) (authDisabled : Bool)

def Machine.start : Machine := ⟨⟨.empty, none⟩, fun _ => 0, [], []⟩

def countChange (epochs : GoString → Nat) : Option GoString → GoString → Nat
  | none => epochs
  | some name => Function.update epochs name (epochs name + 1)

def Machine.call (m : Machine) (c : Call) (env : Env) : Machine :=
  match m.store.call p.crc env.save (c.update p authDisabled env) with
  | (store, none) => { m with store := store, epochs := countChange m.epochs c.changes }
  | (store, some _) => { m with store := store }

def Machine.verify (m : Machine) (credentials : Credentials) (ttl : Int64) (env : Env) : Machine :=
  match drawTicket p authDisabled env credentials ttl m.store.state with
  | .error _ => m
  | .ok ticket => { m with pending := m.pending ++ [⟨ticket, m.epochs ticket.userName⟩] }

def Machine.finish (m : Machine) (i : Nat) (env : Env) : Machine :=
  match m.pending[i]? with
  | none => m
  | some issue =>
    match m.store.call p.crc env.save (storeTicket p issue.ticket) with
    | (store, none) =>
      { m with store := store, pending := m.pending.eraseIdx i, issued := issue :: m.issued }
    | (store, some _) => { m with store := store, pending := m.pending.eraseIdx i }

def Machine.step (m : Machine) : Event → Machine
  | .call c env => m.call p authDisabled c env
  | .verify credentials ttl env => m.verify p authDisabled credentials ttl env
  | .finish i env => m.finish p i env
  | .expire token env => m.call p authDisabled (.revokeToken token) env

def Accepts (env : Env) (text : GoString) (s : State) : Prop :=
  ∃ principal, verifyToken p authDisabled env text s = .ok principal

/-- No token is accepted whose password was checked before a change. -/
def Machine.Revoked (m : Machine) : Prop :=
  ∀ issue ∈ m.issued, issue.epoch < m.epochs issue.ticket.userName →
    ∀ env text, trimSpace text = issue.ticket.token → ¬ Accepts p authDisabled env text m.store.state

/-- The digest of a new token is not one of an earlier token. -/
def Machine.Fresh (m : Machine) : Event → Prop
  | .verify credentials ttl env =>
    ∀ ticket ∈ (drawTicket p authDisabled env credentials ttl m.store.state).toOption,
      p.digest ticket.token ∉ (m.pending ++ m.issued).map fun issue => p.digest issue.ticket.token
  | .call .. | .finish .. | .expire .. => True

/-- Access of a user is ended only while no `Authenticate` of this user is pending. -/
def Machine.Settled (m : Machine) : Event → Prop
  | .call c _ => ∀ name ∈ c.changes, ∀ issue ∈ m.pending, issue.ticket.userName ≠ name
  | .verify .. | .finish .. | .expire .. => True

instance (m : Machine) : DecidablePred (m.Fresh p authDisabled)
  | .verify .. | .call .. | .finish .. | .expire .. => by unfold Machine.Fresh; infer_instance

instance (m : Machine) : DecidablePred m.Settled
  | .call .. | .verify .. | .finish .. | .expire .. => by unfold Machine.Settled; infer_instance

structure Machine.Inv (m : Machine) : Prop where
  wellFormed : m.store.state.WellFormed
  pending : ∀ issue ∈ m.pending, issue.epoch = m.epochs issue.ticket.userName
  tokens : ∀ d t, m.store.state.tokens.find? d = some t → ∃ issue ∈ m.issued,
    p.digest issue.ticket.token = d ∧ issue.ticket.userName = t.userName ∧
      issue.epoch = m.epochs issue.ticket.userName
  distinct : ((m.pending ++ m.issued).map fun issue => p.digest issue.ticket.token).Nodup

end

section
variable {p : Primitives} {authDisabled : Bool} {m : Machine} {env : Env}

theorem Machine.inv_start : Machine.start.Inv p :=
  ⟨State.wellFormed_empty, by simp [start], by simp [start, State.empty], nodup_nil⟩

theorem countChange_of_ne (h : changed ≠ some name) : countChange epochs changed name = epochs name := by
  cases changed with
  | none => rfl
  | some other => exact Function.update_of_ne (fun heq => h (by rw [heq])) _ _

section
variable (h : m.Inv p)
include h

theorem Machine.Inv.setStore {store : Store} (hstate : store.state = m.store.state) :
    Machine.Inv p { m with store := store } := by
  refine ⟨?_, h.pending, ?_, h.distinct⟩
  · exact hstate ▸ h.wellFormed
  · exact hstate ▸ h.tokens

theorem Machine.Inv.call (hsettled : ∀ name ∈ c.changes, ∀ issue ∈ m.pending, issue.ticket.userName ≠ name) :
    (m.call p authDisabled c env).Inv p := by
  unfold Machine.call
  split
  · next store hcall =>
    obtain ⟨next, hnext, rfl⟩ := Store.call_ok hcall
    have hchange := Call.change hnext
    refine ⟨hchange.wellFormed h.wellFormed, fun issue hissue => ?_, fun d t ht => ?_, h.distinct⟩
    · have hne : c.changes ≠ some issue.ticket.userName := fun heq => hsettled _ heq issue hissue rfl
      exact (h.pending issue hissue).trans (countChange_of_ne hne).symm
    · obtain ⟨ht, hne⟩ := hchange.tokens ht
      obtain ⟨issue, hissue, hdigest, huser, hepoch⟩ := h.tokens d t ht
      rw [← huser] at hne
      exact ⟨issue, hissue, hdigest, huser, hepoch.trans (countChange_of_ne hne).symm⟩
  · next store e hcall => exact h.setStore (Store.call_error hcall)

theorem Machine.Inv.verify (hfresh : m.Fresh p authDisabled (.verify credentials ttl env)) :
    (m.verify p authDisabled credentials ttl env).Inv p := by
  unfold Machine.verify
  split
  · exact h
  · next ticket hticket =>
    refine ⟨h.wellFormed, fun issue hissue => ?_, h.tokens, ?_⟩
    · rcases mem_append.mp hissue with hissue | hissue
      · exact h.pending issue hissue
      · obtain rfl := mem_singleton.mp hissue
        rfl
    · have hperm : ∀ x, (m.pending ++ [x] ++ m.issued).Perm (x :: (m.pending ++ m.issued)) := by
        intro x
        rw [append_assoc]
        exact perm_middle
      refine ((hperm _).map _).nodup_iff.mpr ?_
      rw [map_cons, nodup_cons]
      exact ⟨hfresh ticket (by rw [hticket]; rfl), h.distinct⟩

theorem Machine.Inv.finish (i : Nat) (env : Env) : (m.finish p i env).Inv p := by
  unfold Machine.finish
  split
  · exact h
  · next issue hget =>
    obtain ⟨hi, rfl⟩ := List.getElem?_eq_some_iff.mp hget
    have hperm : (m.pending.get ⟨i, hi⟩ :: m.pending.eraseIdx i).Perm m.pending := getElem_cons_eraseIdx_perm hi
    have hsub : ∀ issue ∈ m.pending.eraseIdx i, issue ∈ m.pending := fun issue hissue =>
      (eraseIdx_sublist ..).subset hissue
    split
    · next store hcall =>
      obtain ⟨next, hnext, rfl⟩ := Store.call_ok hcall
      have hepoch := h.pending _ (getElem_mem hi)
      refine ⟨storeTicket_wellFormed hnext h.wellFormed, fun issue hissue => h.pending issue (hsub issue hissue),
        fun d t ht => ?_, ?_⟩
      · obtain ⟨-, rfl⟩ := storeTicket_ok hnext
        rcases SortedMap.of_find?_set ht with ⟨heq, rfl⟩ | ht
        · exact ⟨_, mem_cons_self, heq.symm, rfl, hepoch⟩
        · obtain ⟨issue, hissue, hrest⟩ := h.tokens d t ht
          exact ⟨issue, mem_cons_of_mem _ hissue, hrest⟩
      · have hall : (m.pending.eraseIdx i ++ m.pending.get ⟨i, hi⟩ :: m.issued).Perm (m.pending ++ m.issued) :=
          perm_middle.trans (hperm.append_right m.issued)
        exact (hall.map _).nodup_iff.mpr h.distinct
    · next store e hcall =>
      have hstate := Store.call_error hcall
      refine ⟨hstate ▸ h.wellFormed, fun issue hissue => h.pending issue (hsub issue hissue), hstate ▸ h.tokens, ?_⟩
      exact h.distinct.sublist (((eraseIdx_sublist ..).append_right m.issued).map _)

theorem Machine.Inv.step (hsettled : m.Settled e) (hfresh : m.Fresh p authDisabled e) :
    (m.step p authDisabled e).Inv p := by
  cases e with
  | call c env => exact h.call hsettled
  | verify credentials ttl env => exact h.verify hfresh
  | finish i env => exact h.finish i env
  | expire token env => exact h.call (by simp [Call.changes])

theorem Machine.Inv.accepts (haccepts : Accepts p authDisabled env text m.store.state) :
    ∃ issue ∈ m.issued, p.digest issue.ticket.token = p.digest (trimSpace text) ∧
      issue.epoch = m.epochs issue.ticket.userName ∧
      ∃ u, m.store.state.users.find? issue.ticket.userName = some u ∧ u.disabled = false := by
  obtain ⟨principal, hprincipal⟩ := haccepts
  obtain ⟨r, u, hr, hu, henabled⟩ := verifyToken_ok hprincipal
  obtain ⟨issue, hissue, hdigest, huser, hepoch⟩ := h.tokens _ r hr
  exact ⟨issue, hissue, hdigest, hepoch, u, huser ▸ hu, henabled⟩

theorem Machine.Inv.revoked : m.Revoked p authDisabled := by
  intro issue hissue hlt env text htext haccepts
  obtain ⟨other, hother, hdigest, hepoch, -⟩ := h.accepts haccepts
  have hinj := inj_on_of_nodup_map (List.Nodup.of_append_right (map_append ▸ h.distinct))
  obtain rfl : other = issue := hinj hother hissue (htext ▸ hdigest)
  omega

end

end

/-- As long as access is ended only while no `Authenticate` of the user is pending, no token of an earlier password
is accepted. -/
theorem revoked_of_settled (p : Primitives) (authDisabled : Bool) (events : List Event)
    (h : Always (Machine.step p authDisabled) (fun m e => m.Settled e ∧ m.Fresh p authDisabled e) .start events)
    (pre : List Event) (hpre : pre <+: events) :
    (pre.foldl (Machine.step p authDisabled) .start).Revoked p authDisabled := by
  obtain ⟨post, rfl⟩ := hpre
  have hinv := h.of_append.with_invariant Machine.inv_start fun m e hm he => hm.step he.1 he.2
  exact hinv.1.revoked

def plainPrimitives : Primitives where
  crc _ := 0
  key password _ _ length := some ((password ++ List.replicate length 0).take length)
  key_length h := by
    cases h
    simp
  digest token := token
  encodeToString raw := raw

def plainEnv : Env where
  canceled := false
  canceledLater := false
  random n := some (List.replicate n 1)
  random_length h := by
    cases h
    simp
  now := 0
  save := .ok

def plainUser : UserInput := ⟨[97], [], [], false, TagMap.empty⟩

/-- A password change between the two locks of an `Authenticate`. -/
def racingEvents : List Event :=
  [.call (.createUser plainUser) plainEnv, .call (.setPassword [97] [120]) plainEnv,
    .verify ⟨[97], [120]⟩ 10 plainEnv, .call (.setPassword [97] [121]) plainEnv, .finish 0 plainEnv]

/-- The token of the old password is accepted after the password was changed twice. -/
theorem racingEvents_not_revoked :
    let m := racingEvents.foldl (Machine.step plainPrimitives false) .start
    m.epochs [97] = 2 ∧ ¬ m.Revoked plainPrimitives false := by
  refine ⟨by decide +kernel, fun h => ?_⟩
  refine h ⟨⟨[97], List.replicate 32 1, 10⟩, 1⟩ (by decide +kernel) (by decide +kernel) plainEnv (List.replicate 32 1)
    (by decide +kernel) ⟨⟨[97], .user, 10⟩, by decide +kernel⟩

/-- The same calls, with the token stored before the password is changed. -/
def settledEvents : List Event :=
  [.call (.createUser plainUser) plainEnv, .call (.setPassword [97] [120]) plainEnv,
    .verify ⟨[97], [120]⟩ 10 plainEnv, .finish 0 plainEnv, .call (.setPassword [97] [121]) plainEnv]

theorem settledEvents_revoked :
    Always (Machine.step plainPrimitives false)
        (fun m e => m.Settled e ∧ m.Fresh plainPrimitives false e) .start settledEvents ∧
      (settledEvents.foldl (Machine.step plainPrimitives false) .start).Revoked plainPrimitives false := by
  have hsettled : Always (Machine.step plainPrimitives false)
      (fun m e => m.Settled e ∧ m.Fresh plainPrimitives false e) .start settledEvents := by decide +kernel
  exact ⟨hsettled, revoked_of_settled _ _ _ hsettled _ List.prefix_rfl⟩

end Mts.User
