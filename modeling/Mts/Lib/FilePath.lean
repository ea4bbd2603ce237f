import Mts.Lib.Bytes

/-! File paths with `/` as separator, as `path/filepath` cleans, joins and takes them apart. A cleaned path is
kept by its parts: whether it is rooted, how many `..` it starts with, and its names, the last one first. -/

namespace Mts.Lib
open List

/-- What can stand between two separators of a cleaned path. -/
def IsName (s : Bytes) : Prop := s ≠ [] ∧ 47 ∉ s ∧ s ≠ [46] ∧ s ≠ [46, 46]

instance (s : Bytes) : Decidable (IsName s) := inferInstanceAs (Decidable (_ ∧ _))

abbrev PathName := { s : Bytes // IsName s }

structure FilePath where
  rooted : Bool
  up : Nat
  names : List PathName
  deriving DecidableEq

def components : Bytes → List Bytes
  | [] => [[]]
  | b :: bs =>
    if b = 47 then [] :: components bs
    else
      match components bs with
      | c :: cs => (b :: c) :: cs
      | [] => [[b]]

namespace FilePath

/-- One component of a path: empty ones and `.` have no effect, `..` leaves the last directory. -/
def enter (p : FilePath) (c : Bytes) : FilePath :=
  if h : IsName c then { p with names := ⟨c, h⟩ :: p.names }
  else if c = [46, 46] then
    match p.names with
    | _ :: names => { p with names := names }
    | [] => if p.rooted then p else { p with up := p.up + 1 }
  else p

def clean (s : Bytes) : FilePath := (components s).foldl enter ⟨s.head? = some 47, 0, []⟩

/-- `filepath.Join`: empty elements are left out. -/
def join (elems : List Bytes) : FilePath := clean ([47].intercalate (elems.filter fun e => !e.isEmpty))

def base (p : FilePath) : Bytes :=
  match p.names with
  | n :: _ => n.1
  | [] => if p.rooted then [47] else if p.up = 0 then [46] else [46, 46]

def dir (p : FilePath) : FilePath :=
  match p.names with
  | _ :: names => { p with names := names }
  | [] => if p.rooted then p else { p with up := p.up - 1 }

def ancestors (p : FilePath) : List FilePath := p.names.tails.map fun names => { p with names := names }

def Below (p q : FilePath) : Prop := p.rooted = q.rooted ∧ p.up = q.up ∧ q.names <:+ p.names

instance (p q : FilePath) : Decidable (p.Below q) := inferInstanceAs (Decidable (_ ∧ _))

end FilePath

section Components

theorem components_ne_nil (s : Bytes) : components s ≠ [] := by
  cases s with
  | nil => simp [components]
  | cons b bs =>
    rw [components]
    split
    · simp
    · split <;> simp

theorem components_append_separator (s t : Bytes) : components (s ++ 47 :: t) = components s ++ components t := by
  induction s with
  | nil => simp [components]
  | cons b s ih =>
    by_cases hb : b = 47
    · simp [components, hb, ih]
    · simp only [cons_append, components, if_neg hb, ih]
      cases hs : components s with
      | nil => exact absurd hs (components_ne_nil s)
      | cons c cs => rfl

theorem components_of_notMem (h : 47 ∉ s) : components s = [s] := by
  induction s with
  | nil => rfl
  | cons b s ih =>
    rw [mem_cons, not_or] at h
    rw [components, if_neg (Ne.symm h.1), ih h.2]

end Components

namespace FilePath

variable {p q : FilePath} {names : List PathName} {n : PathName}

theorem base_of_names (h : p.names = n :: names) : p.base = n.1 := by
  rw [base, h]

theorem names_dir (h : p.names = n :: names) : p.dir.names = names := by
  rw [dir, h]

theorem eq_of_parts (hrooted : p.rooted = q.rooted) (hup : p.up = q.up) (hnames : p.names = q.names) : p = q := by
  obtain ⟨rooted, up, names⟩ := p
  subst hrooted hup hnames
  rfl

theorem enter_name (p : FilePath) (n : PathName) : p.enter n.1 = { p with names := n :: p.names } := by
  rw [enter, dif_pos n.2]

theorem enter_nil (p : FilePath) : p.enter [] = p := by
  rw [enter, dif_neg (by simp [IsName]), if_neg (by simp)]

def enterAll (p : FilePath) (e : Bytes) : FilePath := (components e).foldl enter p

theorem foldl_components_intercalate (p : FilePath) (e : Bytes) (elems : List Bytes) :
    (components ([47].intercalate (e :: elems))).foldl enter p = (e :: elems).foldl enterAll p := by
  induction elems generalizing p e with
  | nil => simp [enterAll]
  | cons e' elems ih =>
    rw [intercalate_cons_cons, append_assoc, singleton_append, components_append_separator, foldl_append, ih]
    rfl

theorem foldl_enterAll_filter (p : FilePath) (elems : List Bytes) :
    (elems.filter fun e => !e.isEmpty).foldl enterAll p = elems.foldl enterAll p := by
  induction elems generalizing p with
  | nil => rfl
  | cons e elems ih =>
    cases e with
    | nil =>
      have hnil : p.enterAll [] = p := enter_nil p
      simpa [hnil] using ih p
    | cons b e => simpa using ih _

theorem join_cons (hroot : root ≠ []) (elems : List Bytes) :
    join (root :: elems) = elems.foldl enterAll (clean root) := by
  have hfilter : (root :: elems).filter (fun e => !e.isEmpty) = root :: elems.filter fun e => !e.isEmpty := by
    simp [hroot]
  have hhead : ([47].intercalate (root :: elems.filter fun e => !e.isEmpty)).head? = root.head? := by
    cases root with
    | nil => exact absurd rfl hroot
    | cons b root =>
      cases elems.filter fun e => !e.isEmpty with
      | nil => simp
      | cons e elems => simp [intercalate_cons_cons]
  rw [join, hfilter, clean, hhead, foldl_components_intercalate, foldl_cons, foldl_enterAll_filter]
  rfl

theorem enterAll_name (p : FilePath) (n : PathName) : p.enterAll n.1 = { p with names := n :: p.names } := by
  rw [enterAll, components_of_notMem n.2.2.1]
  exact enter_name p n

theorem Below.refl (p : FilePath) : p.Below p := ⟨rfl, rfl, List.suffix_refl _⟩

theorem mem_ancestors : q ∈ p.ancestors ↔ p.Below q := by
  rw [ancestors, mem_map]
  constructor
  · rintro ⟨names, hnames, rfl⟩
    exact ⟨rfl, rfl, (mem_tails ..).mp hnames⟩
  · rintro ⟨hrooted, hup, hnames⟩
    refine ⟨q.names, (mem_tails ..).mpr hnames, ?_⟩
    rw [hrooted, hup]

end FilePath
end Mts.Lib
