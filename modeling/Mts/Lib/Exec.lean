import Mathlib

/-! Rules for code with a state and errors that runs to its end: what a sequence did is what its
parts did, and what a loop collected is the union of what its rounds collected. -/

namespace Mts.Lib
open List

section
variable {ε σ α β γ : Type} {x : EStateM ε σ α} {s t s' : σ} {a : α} {e : ε} {f : α → EStateM ε σ β} {b : β}
  {items : List α} {E P : σ → Prop} {Q : α → σ → Prop} {R : α → β → Prop} {results : List β}

/-- The state after a run, also after one that failed. -/
def exec (x : EStateM ε σ α) (s : σ) : σ :=
  match x s with
  | .ok _ t => t
  | .error _ t => t

theorem exec_of_ok (h : x s = .ok a t) : exec x s = t := by
  rw [exec, h]

theorem exec_of_error (h : x s = .error e t) : exec x s = t := by
  rw [exec, h]

theorem exec_bind_eq (h : x s = .ok a t) : (x >>= f) s = f a t := by
  change EStateM.bind x f s = f a t
  rw [EStateM.bind, h]

theorem exec_bind_of_ok (h : x s = .ok a t) : exec (x >>= f) s = exec (f a) t := by
  rw [exec, exec_bind_eq h]
  rfl

theorem exec_bind_ok (h : (x >>= f) s = .ok b s') : ∃ a t, x s = .ok a t ∧ f a t = .ok b s' := by
  change EStateM.bind x f s = _ at h
  unfold EStateM.bind at h
  split at h
  · next a t hx => exact ⟨a, t, hx, h⟩
  · simp at h

theorem exec_pure_ok {b : α} (h : (pure a : EStateM ε σ α) s = .ok b s') : a = b ∧ s = s' := by
  simpa [pure, EStateM.pure] using h

theorem exec_forM_collects {R : Set β → σ → σ → Prop} (hnil : ∀ s, R ∅ s s)
    (htrans : ∀ {A B s t u}, R A s t → R B t u → R (A ∪ B) s u) (added : α → Set β) {f : α → EStateM ε σ PUnit}
    (hstep : ∀ a ∈ items, ∀ s s', f a s = .ok ⟨⟩ s' → R (added a) s s') (h : items.forM f s = .ok ⟨⟩ s') :
    R {b | ∃ a ∈ items, b ∈ added a} s s' := by
  induction items generalizing s with
  | nil =>
    obtain ⟨-, rfl⟩ := exec_pure_ok h
    simpa using hnil s
  | cons a items ih =>
    obtain ⟨⟨⟩, t, ha, hrest⟩ := exec_bind_ok h
    have hall := htrans (hstep a mem_cons_self s t ha) (ih (fun b hb => hstep b (mem_cons_of_mem _ hb)) hrest)
    have hset : added a ∪ {b | ∃ x ∈ items, b ∈ added x} = {b | ∃ x ∈ a :: items, b ∈ added x} := by
      ext b
      simp
    rwa [hset] at hall

/-- A loop whose rounds succeed and keep an invariant succeeds. -/
theorem exec_forM_exists {f : α → EStateM ε σ PUnit} (P : σ → Prop)
    (hstep : ∀ a ∈ items, ∀ s, P s → ∃ s', f a s = .ok ⟨⟩ s' ∧ P s') (hs : P s) :
    ∃ s', items.forM f s = .ok ⟨⟩ s' ∧ P s' := by
  induction items generalizing s with
  | nil => exact ⟨s, rfl, hs⟩
  | cons a items ih =>
    obtain ⟨t, ha, ht⟩ := hstep a mem_cons_self s hs
    obtain ⟨s', hrest, hs'⟩ := ih (fun b hb => hstep b (mem_cons_of_mem _ hb)) ht
    exact ⟨s', (exec_bind_eq ha).trans hrest, hs'⟩

/-- A run ends with a result that satisfies `Q`, or fails in a state that satisfies `E`. -/
def Ends (r : EStateM.Result ε σ α) (Q : α → σ → Prop) (E : σ → Prop) : Prop :=
  match r with
  | .ok a t => Q a t
  | .error _ t => E t

theorem Ends.mono (h : Ends r Q E) (hok : ∀ a t, Q a t → Q' a t) (herror : ∀ t, E t → E' t) : Ends r Q' E' := by
  cases r with
  | ok a t => exact hok a t h
  | error e t => exact herror t h

theorem Ends.bind (hx : Ends (x s) Q E) (hf : ∀ a t, Q a t → Ends (f a t) Q' E) : Ends ((x >>= f) s) Q' E := by
  change Ends (EStateM.bind x f s) Q' E
  unfold EStateM.bind
  cases hr : x s with
  | ok a t => exact hf a t (by rw [hr] at hx; exact hx)
  | error e t =>
    rw [hr] at hx
    exact hx

theorem exec_of_ends (h : Ends (x s) (fun _ t => P t) P) : P (exec x s) := by
  unfold exec
  cases hr : x s with
  | ok a t => rwa [hr] at h
  | error e t => rwa [hr] at h

theorem ends_pure (h : Q a s) : Ends ((pure a : EStateM ε σ α) s) Q E := h

theorem ends_throw (h : E s) : Ends ((throw e : EStateM ε σ α) s) Q E := h

theorem ends_get {Q : σ → σ → Prop} (h : Q s s) : Ends ((get : EStateM ε σ σ) s) Q E := h

theorem ends_modify {f : σ → σ} {Q : PUnit → σ → Prop} (h : Q ⟨⟩ (f s)) :
    Ends ((modify f : EStateM ε σ PUnit) s) Q E := h

theorem ends_get_bind {f : σ → EStateM ε σ β} {Q : β → σ → Prop} (h : Ends (f s s) Q E) : Ends ((get >>= f) s) Q E := h

theorem ends_modify_bind {f : PUnit → EStateM ε σ β} {Q : β → σ → Prop} (h : Ends (f ⟨⟩ (g s)) Q E) :
    Ends ((modify g >>= f) s) Q E := h

/-- A loop whose rounds keep an invariant over the items that are left. -/
theorem ends_foldlM {f : β → α → EStateM ε σ β} (P : List α → β → σ → Prop) (h : P items b s)
    (hstep : ∀ a rest b s, P (a :: rest) b s → Ends (f b a s) (fun b' t => P rest b' t) E) :
    Ends (items.foldlM f b s) (fun b' t => P [] b' t) E := by
  induction items generalizing b s with
  | nil => exact h
  | cons a items ih =>
    exact (hstep a items b s h).bind fun b' t hP => ih hP

theorem exec_ok_of_check {r : EStateM.Result ε σ PUnit} [DecidablePred P]
    (h : (match r with | .ok _ s => decide (P s) | .error _ _ => false) = true) : ∃ s, r = .ok ⟨⟩ s ∧ P s := by
  cases r with
  | ok a s => exact ⟨s, rfl, of_decide_eq_true h⟩
  | error e s => simp at h

theorem except_bind_ok {x : Except ε α} {f : α → Except ε β} (h : (x >>= f) = .ok b) :
    ∃ a, x = .ok a ∧ f a = .ok b := by
  cases x with
  | error e => simp [bind, Except.bind] at h
  | ok a => exact ⟨a, rfl, h⟩

def require (c : Prop) [Decidable c] (e : ε) : Except ε Unit := if c then .ok () else .error e

def orError (o : Option α) (e : ε) : Except ε α :=
  match o with
  | some a => .ok a
  | none => .error e

theorem require_ok {c : Prop} [Decidable c] (h : require c e = .ok u) : c := by
  unfold require at h
  split at h
  · next hc => exact hc
  · simp at h

theorem orError_ok (h : orError o e = .ok a) : o = some a := by
  unfold orError at h
  split at h
  · rw [Except.ok.inj h]
  · simp at h

/-- What every round of a loop keeps holds at its end. -/
theorem foldlM_ok_invariant {f : σ → α → Except ε σ} (P : σ → Prop)
    (hstep : ∀ s a s', P s → f s a = .ok s' → P s') (hs : P s) (h : items.foldlM f s = .ok s') : P s' := by
  induction items generalizing s with
  | nil =>
    obtain rfl : s = s' := by simpa [pure, Except.pure] using h
    exact hs
  | cons a items ih =>
    obtain ⟨t, ht, h⟩ := except_bind_ok h
    exact ih (hstep s a t hs ht) h

/-- A loop that collects results succeeds when each round does. -/
theorem mapM_ok {f : α → Except ε β} (h : ∀ a ∈ items, ∃ b, f a = .ok b ∧ R a b) :
    ∃ results, items.mapM f = .ok results ∧ List.Forall₂ R items results := by
  induction items with
  | nil => exact ⟨[], rfl, .nil⟩
  | cons a items ih =>
    obtain ⟨b, hb, hab⟩ := h a mem_cons_self
    obtain ⟨bs, hbs, hall⟩ := ih fun x hx => h x (mem_cons_of_mem _ hx)
    refine ⟨b :: bs, ?_, .cons hab hall⟩
    rw [mapM_cons, hb, hbs]
    rfl

/-- What such a loop collected is what its rounds collected. -/
theorem mapM_collects (collected : β → Set γ) (added : α → Set γ) {f : α → Except ε β}
    (h : ∀ a ∈ items, ∃ b, f a = .ok b ∧ collected b = added a) :
    ∃ results, items.mapM f = .ok results ∧
      ∀ x, (∃ b ∈ results, x ∈ collected b) ↔ ∃ a ∈ items, x ∈ added a := by
  obtain ⟨results, hok, hall⟩ := mapM_ok h
  refine ⟨results, hok, fun x => ?_⟩
  clear h hok
  induction hall with
  | nil => simp
  | cons hab _ ih => simp [hab, ih]

theorem forall₂_of_mapM {f : α → Except ε β} (h : items.mapM f = .ok results) :
    List.Forall₂ (fun a b => f a = .ok b) items results := by
  induction items generalizing results with
  | nil =>
    obtain rfl : [] = results := by simpa [pure, Except.pure] using h
    exact List.Forall₂.nil
  | cons a items ih =>
    rw [mapM_cons] at h
    obtain ⟨b, hb, h⟩ := except_bind_ok h
    obtain ⟨bs, hbs, h⟩ := except_bind_ok h
    cases h
    exact List.Forall₂.cons hb (ih hbs)

theorem exists_of_forall₂ (h : List.Forall₂ R items results) (hb : b ∈ results) : ∃ a ∈ items, R a b := by
  induction h with
  | nil => simp at hb
  | @cons a b' items results hab _ ih =>
    rcases mem_cons.mp hb with rfl | hb
    · exact ⟨a, mem_cons_self, hab⟩
    · obtain ⟨a', ha', h⟩ := ih hb
      exact ⟨a', mem_cons_of_mem _ ha', h⟩

theorem exists_result_of_forall₂ (h : List.Forall₂ R items results) (ha : a ∈ items) : ∃ b ∈ results, R a b :=
  exists_of_forall₂ h.flip ha

theorem pairwise_of_forall₂ (h : List.Forall₂ R items results)
    (hS : items.Pairwise S) (hT : ∀ a b x y, R a x → R b y → S a b → T x y) : results.Pairwise T := by
  induction h with
  | nil => exact List.Pairwise.nil
  | @cons a x items results hax hrest ih =>
    obtain ⟨ha, hitems⟩ := pairwise_cons.mp hS
    refine pairwise_cons.mpr ⟨fun y hy => ?_, ih hitems⟩
    obtain ⟨b, hb, hby⟩ := exists_of_forall₂ hrest hy
    exact hT a b x y hax hby (ha b hb)

end
end Mts.Lib
