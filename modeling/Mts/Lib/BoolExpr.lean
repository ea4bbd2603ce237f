import Mathlib

/-! Boolean expression trees over arbitrary leaves: conjunction and disjunction of any number of
children, negation of the first child. Evaluation is monotone in the leaves below an even number of
negations and antitone in the others. -/

namespace Mts.Lib
open List

/-- `other` stands for a node of no known kind, which holds nowhere. -/
inductive BoolExpr (α : Type)
  | none
  | leaf (a : α)
  | and (children : List (BoolExpr α))
  | or (children : List (BoolExpr α))
  | not (children : List (BoolExpr α))
  | other

namespace BoolExpr
variable {α : Type} {even : Bool} {e : BoolExpr α} {f g : α → Bool}

mutual

def eval (f : α → Bool) : BoolExpr α → Bool
  | none => true
  | leaf a => f a
  | and children => evalAll f children
  | or children => evalAny f children
  | not [] => true
  | not (child :: _) => !eval f child
  | other => false

def evalAll (f : α → Bool) : List (BoolExpr α) → Bool
  | [] => true
  | child :: children => eval f child && evalAll f children

def evalAny (f : α → Bool) : List (BoolExpr α) → Bool
  | [] => false
  | child :: children => eval f child || evalAny f children

end

mutual

/-- The leaves that are evaluated, below an even number of negations or below an odd one. -/
def leavesAt (even : Bool) : BoolExpr α → List α
  | leaf a => if even then [a] else []
  | and children => leavesOf even children
  | or children => leavesOf even children
  | not (child :: _) => leavesAt (!even) child
  | none | not [] | other => []

def leavesOf (even : Bool) : List (BoolExpr α) → List α
  | [] => []
  | child :: children => leavesAt even child ++ leavesOf even children

end

mutual

/-- Every leaf satisfies `p`, also one that is not evaluated, and every node has a known kind. -/
def allLeaves (p : α → Bool) : BoolExpr α → Bool
  | none => true
  | leaf a => p a
  | and children => allLeavesOf p children
  | or children => allLeavesOf p children
  | not children => allLeavesOf p children
  | other => false

def allLeavesOf (p : α → Bool) : List (BoolExpr α) → Bool
  | [] => true
  | child :: children => allLeaves p child && allLeavesOf p children

end

mutual

def isConj : BoolExpr α → Bool
  | none => true
  | leaf _ => true
  | and children => areConj children
  | _ => false

def areConj : List (BoolExpr α) → Bool
  | [] => true
  | child :: children => isConj child && areConj children

end

mutual

def map {β : Type} (f : α → β) : BoolExpr α → BoolExpr β
  | none => none
  | leaf a => leaf (f a)
  | and children => and (mapAll f children)
  | or children => or (mapAll f children)
  | not children => not (mapAll f children)
  | other => other

def mapAll {β : Type} (f : α → β) : List (BoolExpr α) → List (BoolExpr β)
  | [] => []
  | child :: children => map f child :: mapAll f children

end

mutual

theorem map_map_eq_self {β : Type} {f : α → β} {g : β → α} (h : ∀ a, g (f a) = a) : ∀ e, map g (map f e) = e
  | none | other => rfl
  | leaf a => congrArg leaf (h a)
  | and children => congrArg and (mapAll_mapAll_eq_self h children)
  | or children => congrArg or (mapAll_mapAll_eq_self h children)
  | not children => congrArg not (mapAll_mapAll_eq_self h children)

theorem mapAll_mapAll_eq_self {β : Type} {f : α → β} {g : β → α} (h : ∀ a, g (f a) = a) :
    ∀ children, mapAll g (mapAll f children) = children
  | [] => rfl
  | child :: children => congrArg₂ List.cons (map_map_eq_self h child) (mapAll_mapAll_eq_self h children)

end

def leaves (e : BoolExpr α) : List α := e.leavesAt true ++ e.leavesAt false

@[simp] theorem evalAll_eq (f : α → Bool) (children : List (BoolExpr α)) :
    evalAll f children = children.all (eval f) := by
  induction children with
  | nil => rfl
  | cons child children ih => rw [evalAll, ih, all_cons]

@[simp] theorem evalAny_eq (f : α → Bool) (children : List (BoolExpr α)) :
    evalAny f children = children.any (eval f) := by
  induction children with
  | nil => rfl
  | cons child children ih => rw [evalAny, ih, any_cons]

@[simp] theorem mem_leavesOf : a ∈ leavesOf even children ↔ ∃ child ∈ children, a ∈ child.leavesAt even := by
  induction children with
  | nil => simp [leavesOf]
  | cons child children ih => simp [leavesOf, ih]

@[simp] theorem allLeavesOf_eq (p : α → Bool) (children : List (BoolExpr α)) :
    allLeavesOf p children = children.all (allLeaves p) := by
  induction children with
  | nil => rfl
  | cons child children ih => rw [allLeavesOf, ih, all_cons]

@[simp] theorem areConj_eq (children : List (BoolExpr α)) : areConj children = children.all isConj := by
  induction children with
  | nil => rfl
  | cons child children ih => rw [areConj, ih, all_cons]

@[elab_as_elim]
theorem induct {P : BoolExpr α → Prop} (none : P none) (leaf : ∀ a, P (leaf a))
    (and : ∀ children, (∀ child ∈ children, P child) → P (and children))
    (or : ∀ children, (∀ child ∈ children, P child) → P (or children))
    (notNil : P (not [])) (notCons : ∀ child children, P child → P (not (child :: children)))
    (other : P other) (e : BoolExpr α) : P e := by
  refine @BoolExpr.rec α P (fun children => ∀ child ∈ children, P child) none leaf and or ?_ other ?_ ?_ e
  · intro children h
    cases children with
    | nil => exact notNil
    | cons child children => exact notCons child children (h child mem_cons_self)
  · intro child hchild
    cases hchild
  · intro head tail hhead htail child hchild
    rcases mem_cons.mp hchild with rfl | hchild
    · exact hhead
    · exact htail child hchild

theorem eval_mono (hpos : ∀ a ∈ e.leavesAt true, f a = true → g a = true)
    (hneg : ∀ a ∈ e.leavesAt false, g a = true → f a = true) (h : e.eval f = true) : e.eval g = true := by
  induction e using induct generalizing f g with
  | none => exact h
  | other => exact h
  | notNil => exact h
  | leaf a => exact hpos a (mem_singleton_self a) h
  | and children ih =>
    simp only [eval, evalAll_eq, all_eq_true] at h ⊢
    intro child hchild
    refine ih child hchild (fun a ha => hpos a ?_) (fun a ha => hneg a ?_) (h child hchild)
    · exact mem_leavesOf.mpr ⟨child, hchild, ha⟩
    · exact mem_leavesOf.mpr ⟨child, hchild, ha⟩
  | or children ih =>
    simp only [eval, evalAny_eq, any_eq_true] at h ⊢
    obtain ⟨child, hchild, h⟩ := h
    refine ⟨child, hchild, ih child hchild (fun a ha => hpos a ?_) (fun a ha => hneg a ?_) h⟩
    · exact mem_leavesOf.mpr ⟨child, hchild, ha⟩
    · exact mem_leavesOf.mpr ⟨child, hchild, ha⟩
  | notCons child children ih =>
    rw [eval, Bool.not_eq_true'] at h ⊢
    -- below the negation the two evaluations change roles
    by_contra hg
    rw [ih hneg hpos (Bool.not_eq_false _ ▸ hg)] at h
    exact absurd h (by decide)

theorem eval_congr (h : ∀ a ∈ e.leaves, f a = g a) : e.eval f = e.eval g := by
  rw [Bool.eq_iff_iff]
  constructor
  · apply eval_mono
    · exact fun a ha hf => h a (mem_append_left _ ha) ▸ hf
    · exact fun a ha hg => (h a (mem_append_right _ ha)).symm ▸ hg
  · apply eval_mono
    · exact fun a ha hg => (h a (mem_append_left _ ha)).symm ▸ hg
    · exact fun a ha hf => h a (mem_append_right _ ha) ▸ hf

theorem allLeaves_of_mem {p : α → Bool} (h : e.allLeaves p = true) (ha : a ∈ e.leavesAt even) : p a = true := by
  induction e using induct generalizing even with
  | none => simp [leavesAt] at ha
  | other => simp [leavesAt] at ha
  | notNil => simp [leavesAt] at ha
  | leaf b =>
    cases even with
    | false => simp [leavesAt] at ha
    | true =>
      obtain rfl : a = b := by simpa [leavesAt] using ha
      exact h
  | and children ih =>
    obtain ⟨child, hchild, ha⟩ := mem_leavesOf.mp ha
    rw [allLeaves, allLeavesOf_eq, all_eq_true] at h
    exact ih child hchild (h child hchild) ha
  | or children ih =>
    obtain ⟨child, hchild, ha⟩ := mem_leavesOf.mp ha
    rw [allLeaves, allLeavesOf_eq, all_eq_true] at h
    exact ih child hchild (h child hchild) ha
  | notCons child children ih =>
    rw [allLeaves, allLeavesOf, Bool.and_eq_true] at h
    exact ih h.1 ha

theorem eval_iff_of_isConj (h : e.isConj = true) : e.eval f = true ↔ ∀ a ∈ e.leavesAt true, f a = true := by
  induction e using induct with
  | none => simp [eval, leavesAt]
  | leaf a => simp [eval, leavesAt]
  | and children ih =>
    rw [isConj, areConj_eq, all_eq_true] at h
    rw [eval, evalAll_eq, all_eq_true]
    constructor
    · intro hall a ha
      obtain ⟨child, hchild, ha⟩ := mem_leavesOf.mp ha
      exact (ih child hchild (h child hchild)).mp (hall child hchild) a ha
    · intro hall child hchild
      exact (ih child hchild (h child hchild)).mpr fun a ha =>
        hall a (mem_leavesOf.mpr ⟨child, hchild, ha⟩)
  | or children => simp [isConj] at h
  | notNil => simp [isConj] at h
  | notCons => simp [isConj] at h
  | other => simp [isConj] at h

end BoolExpr
end Mts.Lib
