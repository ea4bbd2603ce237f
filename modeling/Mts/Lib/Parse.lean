import Mts.Lib.Bytes

/-! Parsers that consume bytes from the front or fail with an error. `Parses p bytes a` says that `p`
reads `bytes`, whatever comes after them, as `a`; a parser that is assembled from parsers parses the
concatenation of what they parse. -/

namespace Mts.Lib
open List

variable {bytes : Bytes}

abbrev Parser (ε α : Type) := StateT Bytes (Except ε) α

section
variable {ε α β γ : Type} {p : Parser ε α} {f : α → Parser ε β} {bytes' rest : Bytes} {a : α} {b : β}
  {read : Reader α} {items : List γ} {write : γ → Bytes} {value : γ → α} {out : List α} {n : Nat}

def Parser.ofReader (read : Reader α) (e : ε) : Parser ε α := fun bytes =>
  match read bytes with
  | none => .error e
  | some (a, rest) => .ok (a, rest)

def Parser.fail (e : ε) : Parser ε α := fun _ => .error e

def Parses (p : Parser ε α) (bytes : Bytes) (a : α) : Prop := ∀ rest, p (bytes ++ rest) = .ok (a, rest)

theorem parses_pure (a : α) : Parses (pure a : Parser ε α) [] a := fun _ => rfl

theorem Parses.bind (h : Parses p bytes a) (h' : Parses (f a) bytes' b) : Parses (p >>= f) (bytes ++ bytes') b := by
  intro rest
  show (p (bytes ++ bytes' ++ rest) >>= fun x => f x.1 x.2) = _
  rw [append_assoc, h]
  exact h' rest

theorem Parses.bind_nil (h : Parses p bytes a) (h' : Parses (f a) [] b) : Parses (p >>= f) bytes b := by
  have := h.bind h'
  rwa [append_nil] at this

theorem Parses.map (h : Parses p bytes a) (f : α → β) :
    Parses (p >>= fun x => pure (f x)) bytes (f a) := h.bind_nil (parses_pure (f a))

theorem Parses.run (h : Parses p bytes a) (rest : Bytes) : (p >>= f) (bytes ++ rest) = f a rest := by
  show (p (bytes ++ rest) >>= fun x => f x.1 x.2) = _
  rw [h]
  rfl

theorem parses_ofReader (h : ∀ rest, read (bytes ++ rest) = some (a, rest)) :
    Parses (Parser.ofReader read e) bytes a := by
  intro rest
  rw [Parser.ofReader, h rest]

theorem parses_mapM {p : γ → Parser ε α} (h : ∀ x ∈ items, Parses (p x) (write x) (value x)) :
    Parses (items.mapM p) (items.flatMap write) (items.map value) := by
  induction items with
  | nil => exact parses_pure []
  | cons x items ih =>
    rw [mapM_cons, flatMap_cons]
    refine (h x mem_cons_self).bind ?_
    exact (ih fun y hy => h y (mem_cons_of_mem _ hy)).map (value x :: ·)

def Parser.times (n : Nat) (p : Parser ε α) : Parser ε (List α) := (List.range n).mapM fun _ => p

theorem parses_times (h : ∀ x ∈ items, Parses p (write x) (value x)) :
    Parses (Parser.times items.length p) (items.flatMap write) (items.map value) := by
  unfold Parser.times
  generalize hn : List.range items.length = indices
  have hlen : indices.length = items.length := by rw [← hn, length_range]
  clear hn
  induction items generalizing indices with
  | nil =>
    obtain rfl := eq_nil_of_length_eq_zero hlen
    exact parses_pure []
  | cons x items ih =>
    cases indices with
    | nil => simp at hlen
    | cons i indices =>
      rw [mapM_cons, flatMap_cons]
      refine (h x mem_cons_self).bind ?_
      exact (ih (fun y hy => h y (mem_cons_of_mem _ hy)) indices (by simpa using hlen)).map (value x :: ·)

theorem parses_times_self {items : List α} {write : α → Bytes} (h : ∀ x ∈ items, Parses p (write x) x) :
    Parses (Parser.times items.length p) (items.flatMap write) items := by
  have hread := parses_times h
  rwa [map_id'] at hread

theorem parser_bind_ok (h : (p >>= f) bytes = .ok (b, rest)) :
    ∃ a mid, p bytes = .ok (a, mid) ∧ f a mid = .ok (b, rest) := by
  change (p bytes >>= fun x => f x.1 x.2) = _ at h
  cases hp : p bytes with
  | error e =>
    rw [hp] at h
    simp [bind, Except.bind] at h
  | ok x =>
    rw [hp] at h
    exact ⟨x.1, x.2, rfl, h⟩

theorem length_of_mapM_ok {p : γ → Parser ε α} (h : items.mapM p bytes = .ok (out, rest)) :
    out.length = items.length := by
  induction items generalizing bytes out rest with
  | nil =>
    cases h
    rfl
  | cons x items ih =>
    rw [mapM_cons] at h
    obtain ⟨a, mid, -, htail⟩ := parser_bind_ok h
    obtain ⟨as, mid', has, hout⟩ := parser_bind_ok htail
    cases hout
    rw [length_cons, length_cons, ih has]

theorem forall_of_mapM_ok {p : γ → Parser ε α} {Q : α → Prop}
    (hp : ∀ x ∈ items, ∀ bytes a rest, p x bytes = .ok (a, rest) → Q a)
    (h : items.mapM p bytes = .ok (out, rest)) : ∀ a ∈ out, Q a := by
  induction items generalizing bytes out rest with
  | nil =>
    cases h
    simp
  | cons x items ih =>
    rw [mapM_cons] at h
    obtain ⟨a, mid, ha, htail⟩ := parser_bind_ok h
    obtain ⟨as, mid', has, hout⟩ := parser_bind_ok htail
    cases hout
    refine forall_mem_cons.mpr ⟨hp x mem_cons_self _ _ _ ha, ?_⟩
    exact ih (fun y hy => hp y (mem_cons_of_mem _ hy)) has

/-- A parser that returns `a` takes at least `size a` bytes. -/
def Consumes (p : Parser ε α) (size : α → Nat) : Prop :=
  ∀ bytes a rest, p bytes = .ok (a, rest) → rest.length + size a ≤ bytes.length

theorem consumes_pure (a : α) (h : size a = 0) : Consumes (pure a : Parser ε α) size := by
  intro bytes b rest hp
  cases hp
  simp [h]

theorem consumes_bind (size : α → Nat) (h : Consumes p size)
    (h' : ∀ a, Consumes (f a) fun b => size' b - size a) : Consumes (p >>= f) size' := by
  intro bytes b rest hp
  obtain ⟨a, mid, ha, hb⟩ := parser_bind_ok hp
  have h1 := h bytes a mid ha
  have h2 := h' a mid b rest hb
  dsimp only at h2
  omega

theorem consumes_ofReader (size : α → Nat)
    (h : ∀ bytes a rest, read bytes = some (a, rest) → rest.length + size a ≤ bytes.length) :
    Consumes (Parser.ofReader read e) size := by
  intro bytes a rest hp
  unfold Parser.ofReader at hp
  split at hp
  · simp at hp
  · next b rest' hread =>
    cases hp
    exact h _ _ _ hread

theorem consumes_mapM {p : γ → Parser ε α} (size : α → Nat) (h : ∀ x ∈ items, Consumes (p x) size) :
    Consumes (items.mapM p) fun out => (out.map size).sum := by
  induction items with
  | nil => exact consumes_pure [] rfl
  | cons x items ih =>
    rw [mapM_cons]
    intro bytes out rest hp
    obtain ⟨a, mid, ha, htail⟩ := parser_bind_ok hp
    obtain ⟨as, mid', has, hout⟩ := parser_bind_ok htail
    cases hout
    have h1 := h x mem_cons_self _ _ _ ha
    have h2 := ih (fun y hy => h y (mem_cons_of_mem _ hy)) _ _ _ has
    dsimp only at h2
    simp only [map_cons, sum_cons]
    omega

/-- Counts and lengths of Go values fit into an `int`. -/
def IntSized (n : Nat) : Prop := n < 2 ^ 63

instance (n : Nat) : Decidable (IntSized n) := inferInstanceAs (Decidable (n < 2 ^ 63))

theorem IntSized.toNat (h : IntSized n) : (UInt64.ofNat n).toNat = n := by
  unfold IntSized at h
  rw [UInt64.toNat_ofNat']
  omega

theorem IntSized.mono (h : IntSized n) (hle : m ≤ n) : IntSized m := Nat.lt_of_le_of_lt hle h

namespace Parser

def uvarint (invalid : ε) : Parser ε UInt64 := ofReader readUvarint invalid

def intCount (invalid : ε) (overflow : UInt64 → ε) : Parser ε Nat := do
  let value ← uvarint invalid
  if value.toNat > 2 ^ 63 - 1 then fail (overflow value) else return value.toNat

def string (length truncated : ε) : Parser ε Bytes := do
  let n ← uvarint length
  ofReader (readBytes n.toNat) truncated

def byte (missing : ε) : Parser ε UInt8 := do
  let bytes ← ofReader (readBytes 1) missing
  return bytes.headD 0

def done (trailing : Nat → ε) : Parser ε Unit := fun rest =>
  if rest.isEmpty then .ok ((), []) else .error (trailing rest.length)

theorem parses_uvarint (invalid : ε) (n : UInt64) : Parses (uvarint invalid) (Lib.uvarint n) n :=
  parses_ofReader (readUvarint_append n)

theorem parses_intCount (invalid : ε) (overflow : UInt64 → ε) (h : IntSized n) :
    Parses (intCount invalid overflow) (Lib.uvarint (UInt64.ofNat n)) n := by
  refine (parses_uvarint invalid (UInt64.ofNat n)).bind_nil ?_
  rw [h.toNat, if_neg (by unfold IntSized at h; omega)]
  exact parses_pure n

theorem parses_string (length truncated : ε) (h : IntSized s.length) :
    Parses (string length truncated) (Lib.uvarint (UInt64.ofNat s.length) ++ s) s := by
  refine (parses_uvarint length _).bind ?_
  refine parses_ofReader fun rest => ?_
  rw [h.toNat]
  exact readBytes_append rfl rest

theorem parses_byte (missing : ε) (x : UInt8) : Parses (byte missing) [x] x := by
  have h : Parses (ofReader (readBytes 1) missing) [x] [x] := parses_ofReader fun rest => readBytes_append rfl rest
  exact h.map fun bytes => bytes.headD 0

end Parser

theorem length_le_flatMap {α : Type} {items : List α} {write : α → Bytes} (h : ∀ x ∈ items, write x ≠ []) :
    items.length ≤ (items.flatMap write).length := by
  induction items with
  | nil => simp
  | cons x items ih =>
    have hx := length_pos_of_ne_nil (h x mem_cons_self)
    have hrest := ih fun y hy => h y (mem_cons_of_mem _ hy)
    rw [flatMap_cons, length_append, length_cons]
    omega

theorem length_le_flatMap_of_mem {α : Type} {items : List α} (write : α → Bytes) {x : α} (h : x ∈ items) :
    (write x).length ≤ (items.flatMap write).length := (sublist_flatten_of_mem (mem_map_of_mem h)).length_le

/-- `p` reads `bytes` as `a` if they fit into a slice. -/
def Reads (p : Parser ε α) (bytes : Bytes) (a : α) : Prop := IntSized bytes.length → Parses p bytes a

theorem Parses.reads (h : Parses p bytes a) : Reads p bytes a := fun _ => h

theorem Reads.bind (h : Reads p bytes a) (h' : Reads (f a) bytes' b) : Reads (p >>= f) (bytes ++ bytes') b := by
  intro hsized
  rw [length_append] at hsized
  exact (h (hsized.mono (by omega))).bind (h' (hsized.mono (by omega)))

theorem Reads.bind_nil (h : Reads p bytes a) (h' : Parses (f a) [] b) :
    Reads (p >>= f) bytes b := fun hsized => (h hsized).bind_nil h'

theorem Reads.map (h : Reads p bytes a) (f : α → β) :
    Reads (p >>= fun x => pure (f x)) bytes (f a) := h.bind_nil (parses_pure (f a))

theorem reads_string (length truncated : ε) (s : Bytes) :
    Reads (Parser.string length truncated) (uvarint (UInt64.ofNat s.length) ++ s) s := by
  intro hsized
  rw [length_append] at hsized
  exact Parser.parses_string length truncated (hsized.mono (by omega))

theorem reads_times {items : List α} {write : α → Bytes} (h : ∀ x ∈ items, Reads p (write x) x) :
    Reads (Parser.times items.length p) (items.flatMap write) items := by
  intro hsized
  refine parses_times_self fun x hx => h x hx (hsized.mono ?_)
  exact length_le_flatMap_of_mem write hx

end
end Mts.Lib
