import BitTorrent.RustRun

/-! Bit sets over bytes, as the crate `bit_set` keeps them. The element `i` is the bit `i % 8` of the block
`i / 8`, counted from the least significant one. An insertion grows the storage up to the block of the
element and no further, and reserving space changes no length: how long the storage is depends on the
greatest element there ever was. -/

namespace BitTorrent.Rust

open List Nat

structure BitSet where
  storage : Bytes
  deriving DecidableEq

namespace BitSet

def new : BitSet := ⟨[]⟩

def contains (s : BitSet) (i : Nat) : Bool :=
  match s.storage[i / 8]? with
  | some block => block.toNat.testBit (i % 8)
  | none => false

def isEmpty (s : BitSet) : Bool := s.storage.all (· == 0)

def reserveLenExact (s : BitSet) (_len : Nat) : BitSet := s

/-- The storage with at least the given number of blocks. -/
def grown (s : BitSet) (blocks : Nat) : Bytes := s.storage ++ replicate (blocks - s.storage.length) 0

def insert (s : BitSet) (i : Nat) : BitSet :=
  if s.contains i then s
  else ⟨(s.grown (i / 8 + 1)).modify (i / 8) (· ||| 1 <<< UInt8.ofNat (i % 8))⟩

theorem lt_length_of_contains {s : BitSet} {i : Nat} (h : s.contains i = true) : i / 8 < s.storage.length := by
  by_contra hlt
  rw [contains, getElem?_eq_none (not_lt.mp hlt)] at h
  cases h

theorem length_grown (s : BitSet) (blocks : Nat) : (s.grown blocks).length = max s.storage.length blocks := by
  rw [grown, length_append, length_replicate]
  omega

theorem contains_grown (s : BitSet) (blocks i : Nat) : (⟨s.grown blocks⟩ : BitSet).contains i = s.contains i := by
  rw [contains, contains, grown]
  rcases lt_or_ge (i / 8) s.storage.length with hlt | hge
  · rw [getElem?_append_left hlt]
  · rw [getElem?_append_right hge, getElem?_eq_none hge, getElem?_replicate]
    split
    · rename_i block hblock
      split_ifs at hblock
      cases hblock
      exact zero_testBit _
    · rfl

theorem testBit_or_shiftLeft (block : UInt8) {k j : Nat} (hk : k < 8) :
    (block ||| 1 <<< UInt8.ofNat k).toNat.testBit j = (block.toNat.testBit j || decide (j = k)) := by
  have hone : ((1 : UInt8) <<< UInt8.ofNat k).toNat = 2 ^ k := by
    interval_cases k <;> rfl
  rw [UInt8.toNat_or, testBit_or, hone, testBit_two_pow]
  simp only [eq_comm]

theorem contains_insert (s : BitSet) (i j : Nat) :
    (s.insert i).contains j = (s.contains j || decide (j = i)) := by
  unfold insert
  split
  · rename_i hmem
    by_cases hj : j = i
    · simp [hj, hmem]
    · simp [hj]
  · have hblock : i / 8 < (s.grown (i / 8 + 1)).length := by
      rw [length_grown]
      omega
    rw [← contains_grown s (i / 8 + 1) j]
    simp only [contains]
    by_cases hsame : j / 8 = i / 8
    · have hbit : (j % 8 = i % 8) ↔ j = i := by omega
      rw [hsame, getElem?_modify_eq, getElem?_eq_getElem hblock]
      simp only [Option.map_eq_map, Option.map_some, testBit_or_shiftLeft _ (mod_lt i (by decide)), hbit]
    · have hne : j ≠ i := fun h => hsame (congrArg (· / 8) h)
      rw [getElem?_modify_ne _ _ (Ne.symm hsame)]
      simp only [hne, decide_false, Bool.or_false]

theorem length_insert (s : BitSet) (i : Nat) :
    (s.insert i).storage.length = max s.storage.length (i / 8 + 1) := by
  unfold insert
  split
  · rename_i hmem
    have hlt := lt_length_of_contains hmem
    omega
  · rw [length_modify, length_grown]

theorem isEmpty_iff (s : BitSet) : s.isEmpty = true ↔ ∀ i, s.contains i = false := by
  rw [isEmpty, all_eq_true]
  constructor
  · intro hzero i
    rw [contains]
    split
    · rename_i block hblock
      have hblock := eq_of_beq (hzero block (mem_of_getElem? hblock))
      rw [hblock]
      exact zero_testBit _
    · rfl
  · intro hnone block hmem
    obtain ⟨k, hk, rfl⟩ := mem_iff_getElem.mp hmem
    rw [beq_iff_eq, ← UInt8.toNat_inj]
    apply eq_of_testBit_eq
    intro j
    rw [UInt8.toNat_zero, zero_testBit]
    rcases lt_or_ge j 8 with hj | hj
    · have hbit := hnone (k * 8 + j)
      rw [contains, show (k * 8 + j) / 8 = k by omega, show (k * 8 + j) % 8 = j by omega,
        getElem?_eq_getElem hk] at hbit
      exact hbit
    · apply testBit_lt_two_pow
      calc s.storage[k].toNat < 2 ^ 8 := s.storage[k].toNat_lt
        _ ≤ 2 ^ j := Nat.pow_le_pow_right (by decide) hj

end BitSet

end BitTorrent.Rust
