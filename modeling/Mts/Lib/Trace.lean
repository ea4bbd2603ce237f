import Mathlib

/-! Runs of a state machine over a list of events. `Always step P s events` says that at every step of the run
the state before it and its event satisfy `P`. -/

namespace Mts.Lib

section
variable {σ ε : Type*} {step : σ → ε → σ} {P Q : σ → ε → Prop} {I : σ → Prop} {events : List ε} {s : σ}

def Always (step : σ → ε → σ) (P : σ → ε → Prop) (s : σ) (events : List ε) : Prop :=
  ∀ pre e post, events = pre ++ e :: post → P (pre.foldl step s) e

theorem always_nil (s : σ) : Always step P s [] := by
  intro pre e post h
  simp at h

theorem always_cons : Always step P s (e :: events) ↔ P s e ∧ Always step P (step s e) events := by
  constructor
  · intro h
    refine ⟨h [] e events rfl, fun pre f post hsplit => ?_⟩
    exact h (e :: pre) f post (by rw [hsplit]; rfl)
  · rintro ⟨he, h⟩ pre f post hsplit
    cases pre with
    | nil =>
      obtain ⟨rfl, -⟩ := List.cons.inj hsplit
      exact he
    | cons a pre =>
      obtain ⟨rfl, hrest⟩ := List.cons.inj hsplit
      exact h pre f post hrest

instance decidableAlways [∀ s e, Decidable (P s e)] (s : σ) : (events : List ε) → Decidable (Always step P s events)
  | [] => isTrue (always_nil s)
  | e :: events =>
    have := decidableAlways (step s e) events
    decidable_of_iff (P s e ∧ Always step P (step s e) events) always_cons.symm

/-- An invariant that every allowed step keeps holds along the run. -/
theorem Always.with_invariant (h : Always step P s events) (hs : I s) (hstep : ∀ s e, I s → P s e → I (step s e)) :
    I (events.foldl step s) ∧ Always step (fun s e => I s ∧ P s e) s events := by
  induction events generalizing s with
  | nil => exact ⟨hs, always_nil s⟩
  | cons e events ih =>
    obtain ⟨he, h⟩ := always_cons.mp h
    obtain ⟨hlast, hall⟩ := ih h (hstep s e hs he)
    exact ⟨hlast, always_cons.mpr ⟨⟨hs, he⟩, hall⟩⟩

theorem Always.imp (h : Always step P s events) (hPQ : ∀ s e, P s e → Q s e) : Always step Q s events :=
  fun pre e post hsplit => hPQ _ _ (h pre e post hsplit)

theorem Always.of_append (h : Always step P s (pre ++ post)) : Always step P s pre := by
  intro a e b hsplit
  exact h a e (b ++ post) (by rw [hsplit]; simp)

end

end Mts.Lib
