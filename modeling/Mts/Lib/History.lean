import Mts.Lib.Latest

/-! Histories of writes and deletions. A version is in force if it was the last write of its key
and no later deletion names the key; `Shows` compares that with what a reader of versions sees. -/

namespace Mts.Lib
open List
open Versioned

inductive Event (ε κ : Type*)
  | write (e : ε)
  | delete (keys : κ → Prop)

section
variable {ε κ σ : Type*} [LinearOrder σ] [Versioned ε κ σ] {S : Set ε} {history : List (Event ε κ)}
  {C C' : ε → Prop}

def Event.Ends (e : ε) : Event ε κ → Prop
  | write f => key f = key e
  | delete keys => keys (key e)

/-- The last write of its key, not deleted later. -/
def InForce (history : List (Event ε κ)) (e : ε) : Prop :=
  ∃ before after, history = before ++ .write e :: after ∧ ∀ event ∈ after, ¬ event.Ends e

omit [LinearOrder σ] in
theorem not_inForce_nil (e : ε) : ¬ InForce ([] : List (Event ε κ)) e := by
  rintro ⟨before, after, h, -⟩
  simp at h

omit [LinearOrder σ] in
theorem inForce_concat : InForce (history ++ [event]) e ↔ event = .write e ∨ InForce history e ∧ ¬ event.Ends e := by
  constructor
  · rintro ⟨before, after, heq, hafter⟩
    rcases eq_nil_or_concat after with rfl | ⟨after', last, rfl⟩
    · exact .inl (List.cons.inj (append_inj' heq rfl).2).1
    · rw [concat_eq_append, ← cons_append, ← append_assoc] at heq
      obtain ⟨hinit, hlast⟩ := append_inj' heq rfl
      cases hlast
      exact .inr ⟨⟨before, after', hinit, fun event hevent => hafter event (by simp [hevent])⟩, hafter _ (by simp)⟩
  · rintro (rfl | ⟨⟨before, after, rfl, hafter⟩, hends⟩)
    · exact ⟨history, [], rfl, by simp⟩
    · refine ⟨before, after ++ [event], by simp, fun event' hevent => ?_⟩
      rcases mem_append.mp hevent with hevent | hevent
      · exact hafter event' hevent
      · exact mem_singleton.mp hevent ▸ hends

omit [LinearOrder σ] in
theorem inForce_append_write : InForce (history ++ [.write f]) e ↔ e = f ∨ InForce history e ∧ key f ≠ key e := by
  rw [inForce_concat, Event.write.injEq, eq_comm]
  rfl

omit [LinearOrder σ] in
theorem inForce_append_delete {keys : κ → Prop} :
    InForce (history ++ [.delete keys]) e ↔ InForce history e ∧ ¬ keys (key e) :=
  inForce_concat.trans (or_iff_right nofun)

theorem isLatest_insert_iff (hnew : ∀ g ∈ S, key g = key f → seq g < seq f) :
    IsLatest (insert f S) e ↔ e = f ∨ IsLatest S e ∧ key f ≠ key e := by
  constructor
  · rintro ⟨he, hmax⟩
    rcases he with rfl | he
    · exact .inl rfl
    · right
      refine ⟨⟨he, fun g hg => hmax g (Set.mem_insert_of_mem _ hg)⟩, fun hk => ?_⟩
      exact absurd (hmax f (Set.mem_insert ..) hk) (hnew e he hk.symm).not_ge
  · rintro (rfl | ⟨⟨he, hmax⟩, hne⟩)
    · refine ⟨Set.mem_insert .., fun g hg hk => ?_⟩
      rcases hg with rfl | hg
      · exact le_rfl
      · exact (hnew g hg hk).le
    · refine ⟨Set.mem_insert_of_mem _ he, fun g hg hk => ?_⟩
      rcases hg with rfl | hg
      · exact absurd hk hne
      · exact hmax g hg hk

/-- A reader of `S` under the cover `C` sees exactly what is in force. -/
def Shows (S : Set ε) (C : ε → Prop) (history : List (Event ε κ)) : Prop := ∀ e, Visible S C e ↔ InForce history e

theorem Shows.write (h : Shows S C history) (hnew : ∀ g ∈ S, key g = key f → seq g < seq f) (hC : ¬ C f) :
    Shows (insert f S) C (history ++ [.write f]) := by
  intro e
  rw [Visible, isLatest_insert_iff hnew, inForce_append_write, ← h e, Visible]
  constructor
  · rintro ⟨rfl | ⟨hl, hne⟩, hCe⟩
    · exact .inl rfl
    · exact .inr ⟨⟨hl, hCe⟩, hne⟩
  · rintro (rfl | ⟨⟨hl, hCe⟩, hne⟩)
    · exact ⟨.inl rfl, hC⟩
    · exact ⟨.inr ⟨hl, hne⟩, hCe⟩

/-- Writes one after another, each newer than what is there of its key. -/
theorem Shows.writes {fs : List ε} (h : Shows S C history)
    (hnew : ∀ f ∈ fs, ∀ g ∈ S, key g = key f → seq g < seq f) (hC : ∀ f ∈ fs, ¬ C f)
    (hfs : fs.Pairwise fun f g => key f = key g → seq f < seq g) :
    Shows (S ∪ {f | f ∈ fs}) C (history ++ fs.map .write) := by
  induction fs generalizing S history with
  | nil => simpa using h
  | cons f fs ih =>
    obtain ⟨hf, hrest⟩ := pairwise_cons.mp hfs
    have hstep := h.write (hnew f mem_cons_self) (hC f mem_cons_self)
    have hset : S ∪ {g | g ∈ f :: fs} = insert f S ∪ {g | g ∈ fs} := by
      ext g
      simp only [mem_cons, Set.mem_union, Set.mem_insert_iff, Set.mem_ofPred_eq]
      tauto
    have hlist : history ++ (f :: fs).map .write = history ++ [.write f] ++ fs.map .write := by simp
    rw [hset, hlist]
    refine ih hstep ?_ (fun g hg => hC g (mem_cons_of_mem _ hg)) hrest
    rintro g hg k (rfl | hk) hkey
    · exact hf g hg hkey
    · exact hnew g (mem_cons_of_mem _ hg) k hk hkey

theorem Shows.delete {keys : κ → Prop} (h : Shows S C history) (hC : ∀ e ∈ S, (C' e ↔ C e ∨ keys (key e))) :
    Shows S C' (history ++ [.delete keys]) := by
  intro e
  rw [inForce_append_delete, ← h e, Visible, Visible, and_assoc]
  apply and_congr_right
  intro hl
  rw [hC e hl.1, not_or]

theorem Shows.congr (h : Shows S C history) (hv : ∀ e, Visible S' C' e ↔ Visible S C e) : Shows S' C' history :=
  fun e => (hv e).trans (h e)

end
end Mts.Lib
