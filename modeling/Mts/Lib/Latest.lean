import Mathlib

/-! Multi-version data in which the newest version at a key wins. `Visible S C` is what a reader
of the versions `S` sees when the cover `C` hides versions; the lemmas say when a set of versions
may be replaced by another one without a reader noticing. -/

namespace Mts.Lib

/-- A version has a key and a sequence number; among equal keys the greater number is newer. -/
class Versioned (ε : Type*) (κ σ : outParam Type*) where
  key : ε → κ
  seq : ε → σ

open Versioned

section
variable {ε κ σ : Type*} [LinearOrder σ] [Versioned ε κ σ] {S T : Set ε} {e : ε} {C : ε → Prop}

/-- `e` is a newest version of its key in `S`. -/
def IsLatest (S : Set ε) (e : ε) : Prop := e ∈ S ∧ ∀ f ∈ S, key f = key e → seq f ≤ seq e

/-- Two versions of one key with one sequence number are one version. -/
def Consistent (S : Set ε) : Prop := ∀ e ∈ S, ∀ f ∈ S, key e = key f → seq e = seq f → e = f

/-- Every version of `T` has a version in `S` that is at least as new. -/
def Dominates (S T : Set ε) : Prop := ∀ e ∈ T, ∃ f ∈ S, key f = key e ∧ seq e ≤ seq f

def Visible (S : Set ε) (C : ε → Prop) (e : ε) : Prop := IsLatest S e ∧ ¬ C e

omit [LinearOrder σ] in
theorem Consistent.mono (h : Consistent T) (hST : S ⊆ T) : Consistent S := fun e he f hf => h e (hST he) f (hST hf)

theorem IsLatest.eq (hS : Consistent S) (he : IsLatest S e) (hf : IsLatest S f) (hk : key e = key f) : e = f :=
  hS e he.1 f hf.1 hk (le_antisymm (hf.2 e he.1 hk) (he.2 f hf.1 hk.symm))

theorem IsLatest.of_subset (h : IsLatest T e) (he : e ∈ S) (hST : S ⊆ T) :
    IsLatest S e := ⟨he, fun f hf hk => h.2 f (hST hf) hk⟩

/-- Restricting to some of the keys does not change which versions are newest. -/
theorem isLatest_sep_iff {P : κ → Prop} : IsLatest {f | f ∈ S ∧ P (key f)} e ↔ P (key e) ∧ IsLatest S e := by
  constructor
  · rintro ⟨⟨hmem, hP⟩, hmax⟩
    exact ⟨hP, hmem, fun f hf hk => hmax f ⟨hf, hk.symm ▸ hP⟩ hk⟩
  · rintro ⟨hP, hmem, hmax⟩
    exact ⟨⟨hmem, hP⟩, fun f hf hk => hmax f hf.1 hk⟩

theorem exists_isLatest (hS : S.Finite) (he : e ∈ S) : ∃ m, IsLatest S m ∧ key m = key e ∧ seq e ≤ seq m := by
  let K : Set ε := {f ∈ S | key f = key e}
  have hK : K.Finite := hS.subset fun f hf => hf.1
  obtain ⟨m, hm, hmax⟩ := Set.exists_max_image K seq hK ⟨e, he, rfl⟩
  exact ⟨m, ⟨hm.1, fun f hf hk => hmax f ⟨hf, hk.trans hm.2⟩⟩, hm.2, hmax e ⟨he, rfl⟩⟩

theorem Dominates.trans (h : Dominates S T) (h' : Dominates T U) : Dominates S U := by
  intro e he
  obtain ⟨f, hf, hk, hs⟩ := h' e he
  obtain ⟨g, hg, hk', hs'⟩ := h f hf
  exact ⟨g, hg, hk'.trans hk, hs.trans hs'⟩

theorem Dominates.of_subset (h : T ⊆ S) : Dominates S T := fun e he => ⟨e, h he, rfl, le_rfl⟩

theorem Dominates.mono_left (h : Dominates S T) (hS : S ⊆ S') : Dominates S' T :=
  fun e he => let ⟨f, hf, hk, hs⟩ := h e he; ⟨f, hS hf, hk, hs⟩

theorem Dominates.union (h : Dominates S T) (h' : Dominates S U) :
    Dominates S (T ∪ U) := fun e he => he.elim (h e) (h' e)

theorem dominates_isLatest (hS : S.Finite) : Dominates {e | IsLatest S e} S := by
  intro e he
  obtain ⟨m, hm, hk, hs⟩ := exists_isLatest hS he
  exact ⟨m, hm, hk, hs⟩

/-- Dominated versions may be added or forgotten. -/
theorem isLatest_iff_of_dominates (hST : S ⊆ T) (hd : Dominates S T) (hT : Consistent T) (e : ε) :
    IsLatest T e ↔ IsLatest S e := by
  constructor
  · intro h
    obtain ⟨f, hf, hk, hs⟩ := hd e h.1
    have hfe : f = e := hT f (hST hf) e h.1 hk (le_antisymm (h.2 f (hST hf) hk) hs)
    exact h.of_subset (hfe ▸ hf) hST
  · intro h
    refine ⟨hST h.1, fun g hg hk => ?_⟩
    obtain ⟨f, hf, hkf, hs⟩ := hd g hg
    exact hs.trans (h.2 f hf (hkf.trans hk))

theorem visible_iff_of_dominates (hST : S ⊆ T) (hd : Dominates S T) (hT : Consistent T) (C : ε → Prop) (e : ε) :
    Visible T C e ↔ Visible S C e := by
  rw [Visible, Visible, isLatest_iff_of_dominates hST hd hT]

theorem isLatest_congr_key (h : ∀ f, key f = key e → (f ∈ S ↔ f ∈ T)) : IsLatest S e ↔ IsLatest T e := by
  refine and_congr (h e rfl) (forall_congr' fun f => ?_)
  constructor
  · intro hf hT hk
    exact hf ((h f hk).mpr hT) hk
  · intro hf hS hk
    exact hf ((h f hk).mp hS) hk

theorem visible_congr_key (h : ∀ f, key f = key e → (f ∈ S ↔ f ∈ T)) :
    Visible S C e ↔ Visible T C e := and_congr_left fun _ => isLatest_congr_key h

/-- Replacing a finite set by its newest versions changes nothing, also next to other versions. -/
theorem isLatest_union_isLatest (hS : S.Finite) (hc : Consistent (S ∪ T)) (e : ε) :
    IsLatest ({f | IsLatest S f} ∪ T) e ↔ IsLatest (S ∪ T) e := by
  refine (isLatest_iff_of_dominates (Set.union_subset_union_left T fun f hf => hf.1) ?_ hc e).symm
  exact Dominates.union ((dominates_isLatest hS).mono_left Set.subset_union_left)
    (Dominates.of_subset Set.subset_union_right)

/-- Rewriting `A` to what is visible of it and dropping the cover is unnoticed next to `B` exactly
if the cover hides no newest version at a key of `B`. -/
theorem isLatest_rewrite_iff (hA : A.Finite) (hB : B.Finite) (hc : Consistent (A ∪ B)) :
    (∀ e, IsLatest ({f | Visible A C f} ∪ B) e ↔ Visible (A ∪ B) C e) ↔
      ∀ b ∈ B, ∀ m, IsLatest (A ∪ B) m → key m = key b → ¬ C m := by
  have hsub : {f | Visible A C f} ∪ B ⊆ A ∪ B := Set.union_subset_union_left B fun f hf => hf.1.1
  constructor
  · intro h b hb m hm hk hCm
    obtain ⟨e, he, hke, -⟩ := exists_isLatest ((hA.union hB).subset hsub) (Set.mem_union_right _ hb)
    have hv := (h e).mp he
    exact hv.2 (hv.1.eq hc hm (hke.trans hk.symm) ▸ hCm)
  · intro h e
    constructor
    · rintro ⟨he, hmax⟩
      obtain ⟨m, hm, hkm, hem⟩ := exists_isLatest (hA.union hB) (hsub he)
      rcases he with heA | heB
      · -- a surviving version of `A` is uncovered and newest in `A`; `B` is bounded by `hmax`
        have hlatest : IsLatest (A ∪ B) e :=
          ⟨.inl heA.1.1, fun f hf hk => hf.elim (fun hfA => heA.1.2 f hfA hk)
            (fun hfB => hmax f (.inr hfB) hk)⟩
        exact ⟨hlatest, heA.2⟩
      · -- at a key of `B` the newest version survives, so it is bounded by `hmax`
        have hCm := h e heB m hm hkm
        have hmem : m ∈ {f | Visible A C f} ∪ B := hm.1.imp
          (fun hmA => ⟨hm.of_subset hmA Set.subset_union_left, hCm⟩) id
        have hme : m = e := hc m hm.1 e (.inr heB) hkm (le_antisymm (hmax m hmem hkm) hem)
        exact hme ▸ ⟨hm, hCm⟩
    · rintro ⟨hlatest, hCe⟩
      refine hlatest.of_subset ?_ hsub
      exact hlatest.1.imp (fun heA => ⟨hlatest.of_subset heA Set.subset_union_left, hCe⟩) id

/-- Whatever hides a version hides the older versions of its key. -/
def HidesOlder (C : ε → Prop) : Prop := ∀ e f, key e = key f → seq e ≤ seq f → C f → C e

/-- `S` is made of versions of `T` and has, for each of them that is not hidden, one that is at least as new. -/
structure Keeps (C : ε → Prop) (S T : Set ε) : Prop where
  subset : S ⊆ T
  newer : ∀ e ∈ T, ¬ C e → ∃ f ∈ S, key f = key e ∧ seq e ≤ seq f

section
variable {C : ε → Prop} {S S' T T' U : Set ε}

theorem Keeps.refl (C : ε → Prop) (S : Set ε) : Keeps C S S := ⟨subset_rfl, fun e he _ => ⟨e, he, rfl, le_rfl⟩⟩

theorem Keeps.trans (hC : HidesOlder C) (h : Keeps C S T) (h' : Keeps C T U) : Keeps C S U := by
  refine ⟨h.subset.trans h'.subset, fun e he hCe => ?_⟩
  obtain ⟨f, hf, hk, hs⟩ := h'.newer e he hCe
  obtain ⟨g, hg, hk', hs'⟩ := h.newer f hf fun hCf => hCe (hC e f hk.symm hs hCf)
  exact ⟨g, hg, hk'.trans hk, hs.trans hs'⟩

theorem Keeps.union (h : Keeps C S T) (h' : Keeps C S' T') : Keeps C (S ∪ S') (T ∪ T') := by
  refine ⟨Set.union_subset_union h.subset h'.subset, ?_⟩
  rintro e (he | he) hCe
  · obtain ⟨f, hf, hk, hs⟩ := h.newer e he hCe
    exact ⟨f, .inl hf, hk, hs⟩
  · obtain ⟨f, hf, hk, hs⟩ := h'.newer e he hCe
    exact ⟨f, .inr hf, hk, hs⟩

theorem keeps_isLatest (C : ε → Prop) (hS : S.Finite) : Keeps C {e | IsLatest S e} S :=
  ⟨fun _ he => he.1, fun e he _ => dominates_isLatest hS e he⟩

theorem keeps_sep (C : ε → Prop) (S : Set ε) : Keeps C {e | e ∈ S ∧ ¬ C e} S :=
  ⟨fun _ he => he.1, fun e he hCe => ⟨e, ⟨he, hCe⟩, rfl, le_rfl⟩⟩

/-- A reader does not see the difference. -/
theorem Keeps.visible_iff (hC : HidesOlder C) (hT : Consistent T) (h : Keeps C S T) (e : ε) :
    Visible S C e ↔ Visible T C e := by
  constructor
  · rintro ⟨⟨he, hmax⟩, hCe⟩
    refine ⟨⟨h.subset he, fun f hf hk => le_of_not_gt fun hlt => ?_⟩, hCe⟩
    -- a newer version would not be hidden, and `S` has one at least as new
    obtain ⟨g, hg, hkg, hs⟩ := h.newer f hf fun hCf => hCe (hC e f hk.symm hlt.le hCf)
    exact absurd (hmax g hg (hkg.trans hk)) (not_le_of_gt (lt_of_lt_of_le hlt hs))
  · rintro ⟨hlatest, hCe⟩
    obtain ⟨f, hf, hk, hs⟩ := h.newer e hlatest.1 hCe
    have hfe : f = e := hT f (h.subset hf) e hlatest.1 hk (le_antisymm (hlatest.2 f (h.subset hf) hk) hs)
    exact ⟨hlatest.of_subset (hfe ▸ hf) h.subset, hCe⟩

end

instance [DecidableEq ε] [DecidableEq κ] (l : List ε) (e : ε) : Decidable (IsLatest {f | f ∈ l} e) :=
  inferInstanceAs (Decidable (e ∈ l ∧ ∀ f ∈ l, key f = key e → seq f ≤ seq e))

instance [DecidableEq ε] [DecidableEq κ] (l : List ε) (C : ε → Prop) [DecidablePred C] (e : ε) :
    Decidable (Visible {f | f ∈ l} C e) := inferInstanceAs (Decidable (_ ∧ ¬ C e))

instance [DecidableEq ε] [DecidableEq κ] (l : List ε) : Decidable (Consistent {f | f ∈ l}) :=
  inferInstanceAs (Decidable (∀ e ∈ l, ∀ f ∈ l, key e = key f → seq e = seq f → e = f))

end
end Mts.Lib
