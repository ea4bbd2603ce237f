import Mts.Lib.Exec

/-! Programs that create directories step by step, of which one step fails, and that clean up after themselves.
The errors that are joined to the returned one are logged in the state. `Tidy` says which directories the program
still has to remove. -/

namespace Mts.Lib
open List

section
variable {ε σ α : Type}

/-- The end state of `x`, whose error is only logged. -/
def attempt (x : EStateM ε σ PUnit) : EStateM ε σ PUnit := fun s => .ok ⟨⟩ (exec x s)

/-- `x`, and `cleanup` where it fails. -/
def onError (x : EStateM ε σ α) (cleanup : EStateM ε σ PUnit) : EStateM ε σ α := fun s =>
  match x s with
  | .ok a t => .ok a t
  | .error e t => .error e (exec cleanup t)

theorem forM_attempt {β : Type} (x : β → EStateM ε σ PUnit) (items : List β) (s : σ) :
    (items.forM fun b => attempt (x b)) s = .ok ⟨⟩ (items.foldl (fun s b => exec (x b) s) s) := by
  induction items generalizing s with
  | nil => rfl
  | cons b items ih => exact ih (exec (x b) s)

theorem ends_onError {E E' : σ → Prop} (h : Ends (x s) Q E) (hcleanup : ∀ t, E t → E' (exec cleanup t)) :
    Ends (onError x cleanup s) Q E' := by
  unfold onError
  cases hr : x s with
  | ok a t =>
    rw [hr] at h
    exact h
  | error e t =>
    rw [hr] at h
    exact hcleanup t h

end

/-- Which step fails, and at which of its occurrences; a `late` failure comes after the effect of the step.
Closing files and removing directories may fail as well. -/
structure Fault (κ π : Type) where
  step : κ
  index : Nat
  late : Bool
  closeFails : π → Bool
  removeFails : π → Bool

inductive FileError (κ π : Type)
  | step (step : κ) (path : π)
  | close (path : π)
  | remove (path : π)
  deriving DecidableEq

def FileError.path {κ π : Type} : FileError κ π → π
  | .step _ path | .close path | .remove path => path

/-- The directories that exist, those that were created, the steps so far, the errors, and other content. -/
structure Files (κ π γ : Type) where
  content : γ
  dirs : List π
  created : List π
  steps : List κ
  errors : List (FileError κ π)

abbrev FileM (κ π γ : Type) := EStateM Unit (Files κ π γ)

namespace Files
variable {κ π γ : Type}

def fail (w : Files κ π γ) (e : FileError κ π) : Files κ π γ := { w with errors := w.errors ++ [e] }

def stepped (w : Files κ π γ) (k : κ) : Files κ π γ := { w with steps := k :: w.steps }

def create (w : Files κ π γ) (path : π) : Files κ π γ :=
  { w with dirs := path :: w.dirs, created := path :: w.created }

def remove [DecidableEq π] (w : Files κ π γ) (path : π) : Files κ π γ :=
  { w with dirs := w.dirs.filter fun q => q ≠ path }

/-- No directory of `dirs` is lost, and every directory that was created is gone, one of `openDirs`, or could not
be removed. -/
structure Tidy (w : Files κ π γ) (dirs openDirs : List π) : Prop where
  kept : ∀ p ∈ dirs, p ∈ w.dirs ∨ p ∈ w.created
  opened : openDirs ⊆ w.created
  settled : ∀ p ∈ w.created, p ∈ w.dirs → p ∈ openDirs ∨ .remove p ∈ w.errors

structure Stuck (w : Files κ π γ) (path : π) : Prop where
  created : path ∈ w.created
  present : path ∈ w.dirs
  untried : .remove path ∉ w.errors

namespace Tidy
variable {dirs openDirs : List π} {w : Files κ π γ}

section
variable (h : Tidy w dirs openDirs)
include h

theorem stepped (k : κ) : Tidy (w.stepped k) dirs openDirs := ⟨h.kept, h.opened, h.settled⟩

theorem setContent (c : γ) : Tidy { w with content := c } dirs openDirs := ⟨h.kept, h.opened, h.settled⟩

theorem congr (hmem : ∀ p, p ∈ openDirs ↔ p ∈ openDirs') : Tidy w dirs openDirs' :=
  ⟨h.kept, fun p hp => h.opened ((hmem p).mpr hp), fun p hp hd => (h.settled p hp hd).imp_left (hmem p).mp⟩

theorem fail (e : FileError κ π) : Tidy (w.fail e) dirs openDirs := by
  refine ⟨h.kept, h.opened, fun p hp hd => ?_⟩
  exact (h.settled p hp hd).imp_right fun hr => mem_append_left _ hr

theorem create (path : π) : Tidy (w.create path) dirs (path :: openDirs) := by
  refine ⟨fun p hp => ?_, cons_subset_cons _ h.opened, fun p hp hd => ?_⟩
  · exact (h.kept p hp).imp (mem_cons_of_mem _) (mem_cons_of_mem _)
  · rcases mem_cons.mp hp with rfl | hp
    · exact .inl mem_cons_self
    · rcases mem_cons.mp hd with rfl | hd
      · exact .inl mem_cons_self
      · exact (h.settled p hp hd).imp_left (mem_cons_of_mem _)

end

theorem remove [DecidableEq π] (h : Tidy w dirs (path :: openDirs)) : Tidy (w.remove path) dirs openDirs := by
  refine ⟨fun p hp => ?_, fun p hp => h.opened (mem_cons_of_mem _ hp), fun p hp hd => ?_⟩
  · by_cases heq : p = path
    · exact .inr (h.opened (heq ▸ mem_cons_self))
    · refine (h.kept p hp).imp_left fun hd => ?_
      exact mem_filter.mpr ⟨hd, by simpa using heq⟩
  · obtain ⟨hd, hne⟩ := mem_filter.mp hd
    refine (h.settled p hp hd).imp_left fun hmem => ?_
    exact (mem_cons.mp hmem).resolve_left (by simpa using hne)

theorem removeFailed (h : Tidy w dirs (path :: openDirs)) : Tidy (w.fail (.remove path)) dirs openDirs := by
  refine ⟨h.kept, fun p hp => h.opened (mem_cons_of_mem _ hp), fun p hp hd => ?_⟩
  rcases h.settled p hp hd with hmem | hr
  · rcases mem_cons.mp hmem with rfl | hmem
    · exact .inr (mem_append_right _ (mem_singleton_self _))
    · exact .inl hmem
  · exact .inr (mem_append_left _ hr)

end Tidy
end Files

section
variable {κ π γ : Type} [DecidableEq κ] (f : Fault κ π)

def Fault.Hits (k : κ) (w : Files κ π γ) : Prop := f.step = k ∧ w.steps.count k = f.index

instance (k : κ) (w : Files κ π γ) : Decidable (f.Hits k w) := inferInstanceAs (Decidable (_ ∧ _))

def perform (k : κ) (path : π) (effect : Files κ π γ → Files κ π γ) : FileM κ π γ PUnit := fun w =>
  if f.Hits k w then
    .error () ((if f.late then effect (w.stepped k) else w.stepped k).fail (.step k path))
  else .ok ⟨⟩ (effect (w.stepped k))

/-- A step that only reads, or writes into a directory that is there. -/
def touch (k : κ) (path : π) : FileM κ π γ PUnit := perform f k path id

def createDir (k : κ) (path : π) : FileM κ π γ PUnit := perform f k path fun w => w.create path

variable {f} {k : κ} {path : π} {w : Files κ π γ} {Q : PUnit → Files κ π γ → Prop} {E : Files κ π γ → Prop}

theorem ends_perform (hok : Q ⟨⟩ (effect (w.stepped k)))
    (hfail : f.Hits k w → E ((if f.late then effect (w.stepped k) else w.stepped k).fail (.step k path))) :
    Ends (perform f k path effect w) Q E := by
  unfold perform
  split
  · next h => exact hfail h
  · exact hok

theorem ends_touch (hok : Q ⟨⟩ (w.stepped k)) (hfail : f.Hits k w → E ((w.stepped k).fail (.step k path))) :
    Ends (touch f k path w) Q E := by
  refine ends_perform hok fun h => ?_
  have hsame : (if f.late then id (w.stepped k) else w.stepped k) = w.stepped k := ite_id _
  rw [hsame]
  exact hfail h

end

section
variable {κ π γ : Type} (f : Fault κ π) {w : Files κ π γ}

def closeFiles (path : π) : FileM κ π γ PUnit := fun w =>
  if f.closeFails path then .error () (w.fail (.close path)) else .ok ⟨⟩ w

variable {f} in
theorem exec_closeFiles (P : Files κ π γ → Prop) (hok : P w) (hfail : P (w.fail (.close path))) :
    P (exec (closeFiles f path) w) := by
  unfold exec closeFiles
  split_ifs
  · exact hfail
  · exact hok

variable [DecidableEq π]

def removeAll (path : π) : FileM κ π γ PUnit := fun w =>
  if f.removeFails path then .error () (w.fail (.remove path)) else .ok ⟨⟩ (w.remove path)

variable {f}

theorem exec_removeAll (P : Files κ π γ → Prop) (hok : P (w.remove path))
    (hfail : P (w.fail (.remove path))) : P (exec (removeAll f path) w) := by
  unfold exec removeAll
  split_ifs
  · exact hfail
  · exact hok

theorem stuck_removeAll (h : w.Stuck path) (hne : path ≠ other) : (exec (removeAll f other) w).Stuck path := by
  refine exec_removeAll (fun w => w.Stuck path) ⟨h.created, ?_, h.untried⟩ ⟨h.created, h.present, fun hmem => ?_⟩
  · exact mem_filter.mpr ⟨h.present, by simpa using hne⟩
  · rcases mem_append.mp hmem with hmem | hmem
    · exact h.untried hmem
    · exact hne (FileError.remove.inj (mem_singleton.mp hmem))

end
end Mts.Lib
