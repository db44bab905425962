import BitTorrent.RustRun
import BitTorrent.RustIter
import BitTorrent.PrefixLength

/-! Hashes and the bits of their exclusive or. `Bits::next` shifts a byte to the right and compares
what is left with one, without masking the higher bits. So it sees a set bit only as the first one of
its byte, which is enough to count leading equal bits: that count is the length of the common prefix
of the two hashes. -/

namespace BitTorrent

open Rust List Nat

inductive LengthErrorKind where
  | lengthExceeded
  | lengthExpected
  | lengthMultipleExpected
  deriving DecidableEq, Repr

structure LengthError where
  kind : LengthErrorKind
  length : Nat
  index : Option Nat
  deriving DecidableEq, Repr

def LengthError.new (kind : LengthErrorKind) (length : Nat) : LengthError := ⟨kind, length, none⟩

def shaHashLen : Nat := 20

structure ShaHash where
  hash : Bytes
  size : hash.length = shaHashLen
  deriving DecidableEq

namespace ShaHash

/-- The hash of which every byte is `b`. -/
abbrev fill (b : UInt8) : ShaHash := ⟨replicate shaHashLen b, length_replicate⟩

theorem hash_injective : Function.Injective hash := by
  rintro ⟨x, hx⟩ ⟨y, hy⟩ rfl
  rfl

def fromHash (hash : Bytes) : Except LengthError ShaHash :=
  if h : hash.length = shaHashLen then .ok ⟨hash, h⟩
  else .error (.new .lengthExpected shaHashLen)

def xor (a b : ShaHash) : ShaHash :=
  ⟨zipWith (· ^^^ ·) a.hash b.hash, by rw [length_zipWith, a.size, b.size, Nat.min_self]⟩

/-- The derived order is that of the bytes. -/
instance : LT ShaHash := ⟨fun a b => a.hash < b.hash⟩

instance (a b : ShaHash) : Decidable (a < b) := inferInstanceAs (Decidable (a.hash < b.hash))

def cmp (a b : ShaHash) : Ordering := if a < b then .lt else if a = b then .eq else .gt

end ShaHash

inductive XorRep where
  | diff
  | same
  deriving DecidableEq, Repr

inductive BitRep where
  | set
  | unset
  deriving DecidableEq, Repr

/-- `BitRep == XorRep`. -/
def BitRep.eqXorRep : BitRep → XorRep → Bool
  | .set, .diff => true
  | .unset, .same => true
  | _, _ => false

structure Bits where
  bytes : Bytes
  bitPos : Nat

variable {bytes : Bytes} {pos : Nat}

namespace Bits

def new (bytes : Bytes) : Bits := ⟨bytes, 0⟩

def next (b : Bits) : Option BitRep × Bits :=
  if h : b.bitPos < b.bytes.length * 8 then
    let byteIndex := b.bitPos / 8
    let bitOffset := 7 - b.bitPos % 8
    let bitValue := b.bytes[byteIndex] >>> bitOffset.toUInt8
    (some (if bitValue = 1 then .set else .unset), ⟨b.bytes, b.bitPos + 1⟩)
  else (none, b)

theorem next_of_lt (h : pos < bytes.length * 8) :
    next ⟨bytes, pos⟩ = (some (if bytes[pos / 8] >>> (7 - pos % 8).toUInt8 = 1 then .set else .unset),
      ⟨bytes, pos + 1⟩) := by
  rw [next, dif_pos h]

theorem next_of_ge (h : bytes.length * 8 ≤ pos) : next ⟨bytes, pos⟩ = (none, ⟨bytes, pos⟩) := by
  rw [next, dif_neg (by simpa using h)]

def iter : Iter Bits BitRep where
  next := next
  rank b := b.bytes.length * 8 - b.bitPos
  rank_lt := by
    rintro ⟨bytes, pos⟩ a s' h
    by_cases hlt : pos < bytes.length * 8
    · rw [next_of_lt hlt, Prod.mk.injEq] at h
      rw [← h.2]
      simp only
      omega
    · rw [next_of_ge (by omega), Prod.mk.injEq] at h
      cases h.1

/-- What the iterator says of the bit at a position. -/
def rep (bytes : Bytes) (pos : Nat) : BitRep :=
  if bytes[pos / 8]?.getD 0 >>> (7 - pos % 8).toUInt8 = 1 then .set else .unset

theorem toList_eq (bytes : Bytes) (pos : Nat) :
    iter.toList ⟨bytes, pos⟩ = (range' pos (bytes.length * 8 - pos)).map (rep bytes) := by
  induction hk : bytes.length * 8 - pos generalizing pos with
  | zero =>
    rw [iter.toList_of_none (next_of_ge (by omega))]
    rfl
  | succ k ih =>
    have hlt : pos < bytes.length * 8 := by omega
    have hindex : pos / 8 < bytes.length := by omega
    rw [iter.toList_of_some (next_of_lt hlt), ih (pos + 1) (by omega), range'_succ,
      map_cons, rep, getElem?_eq_getElem hindex,
      Option.getD_some]

end Bits

/-! ### Leading bits -/

/-- The bit at a position, counted from the most significant bit of the first byte. -/
def ShaHash.bit (a : ShaHash) (pos : Nat) : Bool :=
  (a.hash[pos / 8]?.getD 0).toNat.testBit (7 - pos % 8)

def leadingBitCount (localNode remoteNode : ShaHash) : Nat :=
  let diffId := localNode.xor remoteNode
  ((Bits.iter.toList (Bits.new diffId.hash)).takeWhile (BitRep.eqXorRep · .same)).length

theorem rep_same_iff : (Bits.rep bytes pos).eqXorRep .same = true ↔
      (bytes[pos / 8]?.getD 0).toNat >>> (7 - pos % 8) ≠ 1 := by
  have hshift : (bytes[pos / 8]?.getD 0 >>> (7 - pos % 8).toUInt8).toNat =
      (bytes[pos / 8]?.getD 0).toNat >>> (7 - pos % 8) := by
    rw [UInt8.toNat_shiftRight, toUInt8, UInt8.toNat_ofNat', mod_eq_of_lt (b := 2 ^ 8),
      mod_eq_of_lt]
    · omega
    · omega
  rw [← hshift, Bits.rep]
  split
  · rename_i hone
    simp [hone, BitRep.eqXorRep]
  · rename_i hone
    simpa [BitRep.eqXorRep, ← UInt8.toNat_inj] using hone

theorem shiftRight_eq_one_iff {v o : Nat} (hv : v < 2 ^ 8)
    (habove : ∀ j, o < j → j < 8 → v.testBit j = false) : v >>> o = 1 ↔ v.testBit o = true := by
  have hlt : v >>> o < 2 ^ 1 := by
    apply lt_pow_two_of_testBit
    intro j hj
    rw [testBit_shiftRight]
    by_cases hlarge : o + j < 8
    · exact habove (o + j) (by omega) hlarge
    · exact Nat.testBit_lt_two_pow (hv.trans_le (Nat.pow_le_pow_right (by decide) (by omega)))
  have hbit : v.testBit o = decide (v >>> o % 2 = 1) := by
    rw [← Nat.testBit_zero, Nat.testBit_shiftRight, Nat.add_zero]
  rw [hbit, decide_eq_true_eq]
  generalize v >>> o = x at hlt
  omega

theorem forall_rep_same_iff {k : Nat} : (∀ i < k, (Bits.rep bytes i).eqXorRep .same = true) ↔
      ∀ i < k, (bytes[i / 8]?.getD 0).toNat.testBit (7 - i % 8) = false := by
  induction k with
  | zero => simp
  | succ k ih =>
    rw [forall_lt_succ_right, forall_lt_succ_right, ih]
    refine and_congr_right fun hbelow => ?_
    rw [rep_same_iff, ne_eq, shiftRight_eq_one_iff (UInt8.toNat_lt _), Bool.not_eq_true]
    intro j hj hj8
    have hpos := hbelow (k / 8 * 8 + (7 - j)) (by omega)
    rwa [show (k / 8 * 8 + (7 - j)) / 8 = k / 8 by omega,
      show 7 - (k / 8 * 8 + (7 - j)) % 8 = j by omega] at hpos

namespace ShaHash

theorem bit_xor (a b : ShaHash) (pos : Nat) : (a.xor b).bit pos = (a.bit pos ^^ b.bit pos) := by
  have hlen : a.hash.length = b.hash.length := by rw [a.size, b.size]
  rw [bit, bit, bit, xor, getElem?_zipWith]
  by_cases hpos : pos / 8 < a.hash.length
  · rw [getElem?_eq_getElem hpos, getElem?_eq_getElem (hlen ▸ hpos)]
    simp [UInt8.toNat_xor, testBit_xor]
  · rw [getElem?_eq_none (by omega), getElem?_eq_none (by omega)]
    simp

theorem ext_bit {a b : ShaHash} (h : ∀ i < shaHashLen * 8, a.bit i = b.bit i) : a = b := by
  obtain ⟨x, hx⟩ := a
  obtain ⟨y, hy⟩ := b
  rw [mk.injEq]
  apply ext_getElem (hx.trans hy.symm)
  intro n hnx hny
  rw [← UInt8.toNat_inj]
  apply eq_of_testBit_eq
  intro j
  by_cases hj : j < 8
  · have hbit := h (n * 8 + (7 - j)) (by omega)
    rw [bit, bit, show (n * 8 + (7 - j)) / 8 = n by omega,
      show 7 - (n * 8 + (7 - j)) % 8 = j by omega, getElem?_eq_getElem hnx,
      getElem?_eq_getElem hny] at hbit
    exact hbit
  · have hlarge : ∀ v : UInt8, v.toNat.testBit j = false := fun v =>
      Nat.testBit_lt_two_pow ((UInt8.toNat_lt v).trans_le (Nat.pow_le_pow_right (by decide) (by omega)))
    rw [hlarge, hlarge]

end ShaHash

theorem leadingBitCount_eq (a b : ShaHash) :
    leadingBitCount a b = prefixLength (shaHashLen * 8) a.bit b.bit := by
  have hcount : ∀ k, k ≤ leadingBitCount a b ↔ k ≤ prefixLength (shaHashLen * 8) a.bit b.bit := by
    intro k
    rw [leadingBitCount, Bits.new, Bits.toList_eq, Nat.sub_zero, ← range_eq_range',
      takeWhile_map, length_map, le_length_takeWhile_range, le_prefixLength,
      (a.xor b).size]
    refine and_congr_right fun _ => ?_
    simp only [Function.comp_apply]
    rw [forall_rep_same_iff]
    refine forall₂_congr fun i _ => ?_
    rw [← ShaHash.bit, ShaHash.bit_xor]
    simp
  exact le_antisymm ((hcount _).mp le_rfl) ((hcount _).mpr le_rfl)

variable {a b c : ShaHash}

theorem leadingBitCount_le : leadingBitCount a b ≤ shaHashLen * 8 := by
  rw [leadingBitCount_eq]
  exact prefixLength_le

theorem leadingBitCount_comm (a b : ShaHash) : leadingBitCount a b = leadingBitCount b a := by
  rw [leadingBitCount_eq, leadingBitCount_eq, prefixLength_comm]

theorem leadingBitCount_eq_len : leadingBitCount a b = shaHashLen * 8 ↔ a = b := by
  rw [leadingBitCount_eq, prefixLength_eq_bound]
  exact ⟨ShaHash.ext_bit, fun h => h ▸ fun _ _ => rfl⟩

/-- Of three hashes the two that leave the third at different places are as far apart as the one
that leaves first. -/
theorem leadingBitCount_of_lt (h : leadingBitCount a b < leadingBitCount a c) :
    leadingBitCount b c = leadingBitCount a b := by
  rw [leadingBitCount_eq, leadingBitCount_eq] at h ⊢
  exact prefixLength_of_lt h

theorem lt_leadingBitCount_of_eq (h : leadingBitCount a b = leadingBitCount a c)
    (hne : a ≠ b) : leadingBitCount a b < leadingBitCount b c := by
  have hlt : leadingBitCount a b < shaHashLen * 8 :=
    lt_of_le_of_ne leadingBitCount_le fun heq => hne (leadingBitCount_eq_len.mp heq)
  rw [leadingBitCount_eq] at hlt
  rw [leadingBitCount_eq, leadingBitCount_eq] at h ⊢
  exact lt_prefixLength_of_eq rfl h.symm hlt

end BitTorrent
