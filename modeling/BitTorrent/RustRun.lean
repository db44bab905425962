import Mathlib.Tactic
import Mathlib.Data.List.Lex

/-! Runs of Rust code as values. A call returns a value, returns an error, panics, or never returns.
Word arithmetic on `usize` and slicing can panic; on the 64-bit targets modelled here a `usize` is
below `2 ^ 64` and no allocation, hence no slice, is longer than `isize::MAX` bytes. -/

namespace BitTorrent.Rust

open Except

/-- How a call ends without a value. -/
inductive Fault (ε : Type) where
  | panic
  | diverge
  | error (e : ε)
  deriving DecidableEq, Repr

abbrev Run (ε α : Type) := Except (Fault ε) α

section

variable {ε α β : Type}

variable {x : Run ε α} {f : α → Run ε β}

theorem bind_eq_ok {b : β} : (x >>= f) = .ok b ↔ ∃ a, x = .ok a ∧ f a = .ok b := by
  cases x with
  | error e =>
    constructor
    · intro h
      cases h
    · rintro ⟨a, ha, -⟩
      cases ha
  | ok a =>
    constructor
    · intro h
      exact ⟨a, rfl, h⟩
    · rintro ⟨a', ha, h⟩
      cases ha
      exact h

@[simp] theorem ok_bind (a : α) (f : α → Run ε β) : ((.ok a : Run ε α) >>= f) = f a := rfl

@[simp] theorem pure_eq_ok (a : α) : (pure a : Run ε α) = .ok a := rfl

/-- A call that returns an error through `Err`. -/
def fail (e : ε) : Run ε α := .error (.error e)

@[simp] theorem fail_ne_ok (e : ε) (a : α) : (fail e : Run ε α) ≠ .ok a := by
  intro h
  cases h

/-- A call that returns, with a value or with an error. -/
def Returns (x : Run ε α) : Prop := (∃ a, x = .ok a) ∨ ∃ e, x = fail e

theorem Returns.ok (a : α) : Returns (.ok a : Run ε α) := Or.inl ⟨a, rfl⟩

theorem Returns.fail (e : ε) : Returns (fail e : Run ε α) := Or.inr ⟨e, rfl⟩

theorem Returns.bind_of_ok (hx : Returns x) (hf : ∀ a, x = .ok a → Returns (f a)) : Returns (x >>= f) := by
  rcases hx with ⟨a, rfl⟩ | ⟨e, rfl⟩
  · exact hf a rfl
  · exact .fail e

theorem Returns.bind (hx : Returns x) (hf : ∀ a, Returns (f a)) :
    Returns (x >>= f) := hx.bind_of_ok fun a _ => hf a

theorem not_returns_panic : ¬ Returns (.error .panic : Run ε α) := by
  rintro (⟨a, h⟩ | ⟨e, h⟩) <;> cases h

theorem returns_bind_iff : Returns (x >>= f) ↔ Returns x ∧ ∀ a, x = .ok a → Returns (f a) := by
  refine ⟨fun h => ?_, fun h => h.1.bind_of_ok h.2⟩
  rcases x with (_ | _ | e) | a
  · exact absurd h not_returns_panic
  · rcases h with ⟨b, h⟩ | ⟨e, h⟩ <;> cases h
  · exact ⟨.fail e, fun a ha => (by cases ha)⟩
  · exact ⟨.ok a, fun a' ha => (by cases ha; exact h)⟩

/-- The `Result` that a call returns, as a value for its caller to look at. -/
def result {ε' : Type} : Run ε α → Run ε' (Except ε α)
  | .ok a => .ok (.ok a)
  | .error (.error e) => .ok (.error e)
  | .error .panic => .error .panic
  | .error .diverge => .error .diverge

/-- `expect` of a `Result`. -/
def expect {ε' : Type} : Run ε α → Run ε' α
  | .ok a => .ok a
  | .error .diverge => .error .diverge
  | .error _ => .error .panic

/-- The call that returns the given `Result`. -/
def ofResult : Except ε α → Run ε α
  | .ok a => .ok a
  | .error e => fail e

theorem returns_ofResult (r : Except ε α) : Returns (ofResult r) := by
  cases r with
  | ok a => exact .ok a
  | error e => exact .fail e

/-- `Result::map_err`. -/
def mapErr {ε' : Type} (f : ε → ε') (x : Run ε α) : Run ε' α :=
  result x >>= fun
    | .ok a => .ok a
    | .error e => fail (f e)

variable {ε' : Type}

theorem mapErr_eq_ok {f : ε → ε'} {a : α} : mapErr f x = .ok a ↔ x = .ok a := by
  rcases x with (_ | _ | e) | b
  · exact ⟨fun h => (by cases h), fun h => (by cases h)⟩
  · exact ⟨fun h => (by cases h), fun h => (by cases h)⟩
  · exact ⟨fun h => (by cases h), fun h => (by cases h)⟩
  · exact ⟨fun h => congrArg _ (ok.inj h), fun h => congrArg _ (ok.inj h)⟩

theorem Returns.mapErr (f : ε → ε') (h : Returns x) : Returns (mapErr f x) := by
  rcases h with ⟨a, rfl⟩ | ⟨e, rfl⟩
  · exact .ok a
  · exact .fail (f e)

theorem returns_result_iff : Returns (result x : Run ε' (Except ε α)) ↔ Returns x := by
  rcases x with (_ | _ | e) | a
  · constructor
    · rintro (⟨r, h⟩ | ⟨e, h⟩) <;> cases h
    · rintro (⟨r, h⟩ | ⟨e, h⟩) <;> cases h
  · constructor
    · rintro (⟨r, h⟩ | ⟨e, h⟩) <;> cases h
    · rintro (⟨r, h⟩ | ⟨e, h⟩) <;> cases h
  · exact ⟨fun _ => .fail e, fun _ => .ok _⟩
  · exact ⟨fun _ => .ok a, fun _ => .ok _⟩

theorem result_eq_ok {r : Except ε α} : (result x : Run ε' (Except ε α)) = .ok r ↔ x = ofResult r := by
  rcases x with (_ | _ | e) | a <;> rcases r with e' | a' <;> simp [result, ofResult, fail]

end

/-! ### Words -/

def usizeMax : Nat := 2 ^ 64 - 1

def isizeMax : Nat := 2 ^ 63 - 1

/-- Addition on `usize` with the overflow check of a checked build. -/
def addUsize {ε : Type} (a b : Nat) : Run ε Nat :=
  if a + b ≤ usizeMax then .ok (a + b) else .error .panic

variable {a b c : Nat}

theorem addUsize_eq_ok {ε : Type} : (addUsize a b : Run ε Nat) = .ok c ↔ c = a + b ∧ a + b ≤ usizeMax := by
  unfold addUsize
  split
  · rename_i h
    rw [ok.injEq]
    exact ⟨fun heq => ⟨heq.symm, h⟩, fun heq => heq.1.symm⟩
  · rename_i h
    exact ⟨fun heq => (by cases heq), fun heq => absurd heq.2 h⟩

theorem addUsize_of_le {ε : Type} (bound : Nat) (h : a + b ≤ bound + 1)
    (hbound : bound ≤ isizeMax) : (addUsize a b : Run ε Nat) = .ok (a + b) := by
  rw [addUsize_eq_ok]
  refine ⟨rfl, ?_⟩
  simp only [isizeMax, usizeMax] at *
  omega

/-- Multiplication of `usize` values. -/
def mulUsize {ε : Type} (a b : Nat) : Run ε Nat :=
  if a * b ≤ usizeMax then .ok (a * b) else .error .panic

/-- Subtraction on `usize` with the overflow check of a checked build. -/
def subUsize {ε : Type} (a b : Nat) : Run ε Nat := if b ≤ a then .ok (a - b) else .error .panic

/-- Division on `usize`, which panics for a divisor of zero. -/
def divUsize {ε : Type} (a b : Nat) : Run ε Nat := if b = 0 then .error .panic else .ok (a / b)

/-- The remainder on `usize`. -/
def remUsize {ε : Type} (a b : Nat) : Run ε Nat := if b = 0 then .error .panic else .ok (a % b)

/-- `assert_eq!`. -/
def assertEq {ε : Type} (a b : Nat) : Run ε Unit := if a = b then .ok () else .error .panic

@[simp] theorem assertEq_self {ε : Type} (a : Nat) : (assertEq a a : Run ε Unit) = .ok () := if_pos rfl

/-- `unwrap` of an `Option`. -/
def unwrapSome {ε α : Type} : Option α → Run ε α
  | some a => .ok a
  | none => .error .panic

theorem returns_unwrapSome_iff {ε α : Type} {o : Option α} :
    Returns (unwrapSome o : Run ε α) ↔ ∃ a, o = some a := by
  cases o with
  | none => exact ⟨fun h => absurd h not_returns_panic, fun ⟨a, h⟩ => (by cases h)⟩
  | some a => exact ⟨fun _ => ⟨a, rfl⟩, fun _ => .ok a⟩

theorem subUsize_eq_ok {ε : Type} : (subUsize a b : Run ε Nat) = .ok c ↔ b ≤ a ∧ c = a - b := by
  unfold subUsize
  split
  · rename_i h
    rw [ok.injEq]
    exact ⟨fun heq => ⟨h, heq.symm⟩, fun heq => heq.2.symm⟩
  · rename_i h
    exact ⟨fun heq => (by cases heq), fun heq => absurd heq.1 h⟩

theorem returns_subUsize_iff {ε : Type} : Returns (subUsize a b : Run ε Nat) ↔ b ≤ a := by
  unfold subUsize
  split
  · rename_i h
    exact ⟨fun _ => h, fun _ => .ok _⟩
  · rename_i h
    exact ⟨fun hreturns => absurd hreturns not_returns_panic, fun hle => absurd hle h⟩

/-- `try_from` into an unsigned word of `w` bits. -/
def tryUint (w : Nat) (n : Int) : Option Nat := if 0 ≤ n ∧ n < 2 ^ w then some n.toNat else none

theorem tryUint_eq_some_iff {w : Nat} {n : Int} : (∃ k, tryUint w n = some k) ↔ 0 ≤ n ∧ n < 2 ^ w := by
  unfold tryUint
  split
  · rename_i h
    exact ⟨fun _ => h, fun _ => ⟨_, rfl⟩⟩
  · rename_i h
    exact ⟨fun ⟨k, hk⟩ => (by cases hk), fun hn => absurd hn h⟩

/-- `l[i]`. -/
def index {ε α : Type} (l : List α) (i : Nat) : Run ε α :=
  match l[i]? with
  | some a => .ok a
  | none => .error .panic

theorem index_of_getElem? {ε α : Type} {l : List α} {i : Nat} {a : α} (h : l[i]? = some a) :
    (index l i : Run ε α) = .ok a := by
  rw [index, h]

/-! ### Bytes -/

instance byteLinearOrder : LinearOrder UInt8 where
  le_refl := UInt8.le_refl
  le_trans := fun _ _ _ => UInt8.le_trans
  lt_iff_le_not_ge := fun _ _ =>
    ⟨fun h => ⟨UInt8.le_of_lt h, UInt8.not_le.mpr h⟩, fun h => UInt8.not_le.mp h.2⟩
  le_antisymm := fun _ _ => UInt8.le_antisymm
  le_total := UInt8.le_total
  toDecidableLE := inferInstance
  toDecidableLT := inferInstance
  toDecidableEq := inferInstance

abbrev Bytes := List UInt8

/-- A byte slice as a program can hold it: no longer than `isize::MAX`. -/
structure Buffer where
  data : Bytes
  fits : data.length ≤ isizeMax
  deriving DecidableEq

/-- A sub-slice of some buffer: where it starts there, and its bytes. -/
structure Slice where
  start : Nat
  bytes : Bytes
  deriving DecidableEq, Repr

namespace Slice

/-- The position just past the slice. -/
def stop (s : Slice) : Nat := s.start + s.bytes.length

end Slice

/-- The expression `&bytes[from..to]`. -/
def slice {ε : Type} (bytes : Bytes) (start stop : Nat) : Run ε Slice :=
  if start ≤ stop ∧ stop ≤ bytes.length then .ok ⟨start, (bytes.take stop).drop start⟩
  else .error .panic

variable {bytes : Bytes}

theorem slice_eq_ok {ε : Type} {start stop : Nat} {s : Slice} :
    (slice bytes start stop : Run ε Slice) = .ok s ↔
      start ≤ stop ∧ stop ≤ bytes.length ∧ s = ⟨start, (bytes.take stop).drop start⟩ := by
  unfold slice
  split
  · rename_i h
    rw [ok.injEq]
    exact ⟨fun heq => ⟨h.1, h.2, heq.symm⟩, fun heq => heq.2.2.symm⟩
  · rename_i h
    exact ⟨fun heq => (by cases heq), fun heq => absurd ⟨heq.1, heq.2.1⟩ h⟩

variable {rest : Bytes} {pos : Nat}

theorem slice_of_drop {ε : Type} {text : Bytes} (hpos : pos ≤ bytes.length)
    (h : bytes.drop pos = text ++ rest) :
    (slice bytes pos (pos + text.length) : Run ε Slice) = .ok ⟨pos, text⟩ := by
  have hlen := congrArg List.length h
  rw [List.length_drop, List.length_append] at hlen
  rw [slice_eq_ok]
  refine ⟨by omega, by omega, ?_⟩
  rw [List.drop_take, h, Nat.add_sub_cancel_left, List.take_left]

theorem drop_of_drop (text : Bytes) (h : bytes.drop pos = text ++ rest) :
    bytes.drop (pos + text.length) = rest := by
  rw [← List.drop_drop, h, List.drop_left]

/-- The tail of `bytes.split_at(pos)`. -/
def splitAtTail {ε : Type} (bytes : Bytes) (pos : Nat) : Run ε Bytes :=
  if pos ≤ bytes.length then .ok (bytes.drop pos) else .error .panic

theorem splitAtTail_eq_ok {ε : Type} {tail : Bytes} :
    (splitAtTail bytes pos : Run ε Bytes) = .ok tail ↔ pos ≤ bytes.length ∧ tail = bytes.drop pos := by
  unfold splitAtTail
  split
  · rename_i h
    rw [ok.injEq]
    exact ⟨fun heq => ⟨h, heq.symm⟩, fun heq => heq.2.symm⟩
  · rename_i h
    exact ⟨fun heq => (by cases heq), fun heq => absurd heq.1 h⟩

end BitTorrent.Rust
