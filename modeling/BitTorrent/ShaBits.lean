import BitTorrent.ShaHash

/-! What the bits of a hash are used for, and what they are. An item is set only if no earlier bit of its byte is,
so the items are the bits of a hash exactly if no byte has two bits set. Counting equal leading bits needs less:
there the items up to the first difference are enough. -/

namespace BitTorrent

open Rust

namespace ShaHash

def bits (h : ShaHash) : List BitRep := Bits.iter.toList (.new h.hash)

/-- No byte has two bits set. -/
def Sparse (h : ShaHash) : Prop :=
  ∀ i j, i < j → j < shaHashLen * 8 → i / 8 = j / 8 → h.bit i = true → h.bit j = false

variable {a b : ShaHash} {pos : Nat}

theorem bits_eq (h : ShaHash) : h.bits = (List.range (shaHashLen * 8)).map (Bits.rep h.hash) := by
  rw [bits, Bits.new, Bits.toList_eq, h.size, Nat.sub_zero, ← List.range_eq_range']

theorem getElem?_bits (h : ShaHash) (hpos : pos < shaHashLen * 8) :
    h.bits[pos]? = some (Bits.rep h.hash pos) := by
  rw [bits_eq, List.getElem?_map, List.getElem?_range hpos, Option.map_some]

theorem rep_eq_set_iff (h : ShaHash) : Bits.rep h.hash pos = .set ↔
    h.bit pos = true ∧ ∀ j < pos, j / 8 = pos / 8 → h.bit j = false := by
  have hshift : Bits.rep h.hash pos = .set ↔ (h.hash[pos / 8]?.getD 0).toNat >>> (7 - pos % 8) = 1 := by
    rw [← not_iff_not, ← ne_eq ((_ : Nat) >>> _), ← rep_same_iff]
    cases Bits.rep h.hash pos <;> simp [BitRep.eqXorRep]
  have habove : (h.hash[pos / 8]?.getD 0).toNat >>> (7 - pos % 8) = 1 →
      ∀ o, 7 - pos % 8 < o → o < 8 → (h.hash[pos / 8]?.getD 0).toNat.testBit o = false := by
    intro hone o ho _
    have hbit : ((h.hash[pos / 8]?.getD 0).toNat >>> (7 - pos % 8)).testBit (o - (7 - pos % 8)) = false := by
      rw [hone]
      exact Nat.testBit_lt_two_pow (Nat.one_lt_two_pow (by omega))
    rwa [Nat.testBit_shiftRight, Nat.add_sub_cancel' ho.le] at hbit
  rw [hshift]
  constructor
  · intro hone
    refine ⟨(shiftRight_eq_one_iff (UInt8.toNat_lt _) (habove hone)).mp hone, fun j hj hsame => ?_⟩
    rw [bit, hsame]
    exact habove hone (7 - j % 8) (by omega) (by omega)
  · rintro ⟨hset, hbefore⟩
    refine (shiftRight_eq_one_iff (UInt8.toNat_lt _) fun o ho ho8 => ?_).mpr hset
    have hbit := hbefore (pos / 8 * 8 + (7 - o)) (by omega) (by omega)
    rwa [bit, show (pos / 8 * 8 + (7 - o)) / 8 = pos / 8 by omega,
      show 7 - (pos / 8 * 8 + (7 - o)) % 8 = o by omega] at hbit

theorem Sparse.getElem?_bits_eq_set_iff (h : a.Sparse) (hpos : pos < shaHashLen * 8) :
    a.bits[pos]? = some .set ↔ a.bit pos = true := by
  rw [getElem?_bits a hpos, Option.some.injEq, rep_eq_set_iff]
  refine and_iff_left_of_imp fun hset j hj hsame => ?_
  by_contra hbit
  rw [Bool.not_eq_false] at hbit
  rw [h j pos hj hpos hsame hbit] at hset
  cases hset

theorem sparse_of_bits (h : ∀ i < shaHashLen * 8, a.bits[i]? = some .set ↔ a.bit i = true) : a.Sparse := by
  intro i j hij hj hsame hbit
  by_contra hset
  rw [Bool.not_eq_false, ← h j hj, getElem?_bits a hj, Option.some.injEq, rep_eq_set_iff] at hset
  rw [hset.2 i hij hsame] at hbit
  cases hbit

/-- There are 160 items. They are the bits of the hash exactly if no byte has two bits set. Hashes of this kind
are told apart by their items, and if their exclusive or is of this kind too, its items are set where those of
the two hashes differ. -/
theorem bits_read_iff (a b : ShaHash) :
    a.bits.length = shaHashLen * 8 ∧
      ((∀ i < shaHashLen * 8, a.bits[i]? = some .set ↔ a.bit i = true) ↔ a.Sparse) ∧
      (a.Sparse → b.Sparse → a.bits = b.bits → a = b) ∧
      (a.Sparse → b.Sparse → (a.xor b).Sparse →
        ∀ i < shaHashLen * 8, (a.xor b).bits[i]? = some .set ↔ a.bits[i]? ≠ b.bits[i]?) := by
  refine ⟨?_, ⟨sparse_of_bits, fun h i hi => h.getElem?_bits_eq_set_iff hi⟩, fun ha hb heq => ?_,
    fun ha hb hab i hi => ?_⟩
  · rw [bits_eq, List.length_map, List.length_range]
  · apply ext_bit
    intro i hi
    rw [Bool.eq_iff_iff, ← ha.getElem?_bits_eq_set_iff hi, ← hb.getElem?_bits_eq_set_iff hi, heq]
  · have hdiffer : a.bits[i]? ≠ b.bits[i]? ↔ ¬ (a.bits[i]? = some .set ↔ b.bits[i]? = some .set) := by
      rw [getElem?_bits a hi, getElem?_bits b hi]
      cases Bits.rep a.hash i <;> cases Bits.rep b.hash i <;> simp
    rw [hab.getElem?_bits_eq_set_iff hi, hdiffer, ha.getElem?_bits_eq_set_iff hi,
      hb.getElem?_bits_eq_set_iff hi, bit_xor]
    cases a.bit i <;> cases b.bit i <;> simp

/-- The second of two bits is not seen, so two hashes have the same items. -/
theorem second_bit_unseen :
    let two : ShaHash := ⟨0xC0 :: List.replicate 19 0, by decide⟩
    let one : ShaHash := ⟨0x80 :: List.replicate 19 0, by decide⟩
    two.bit 1 = true ∧ two.bits[1]? = some .unset ∧ two.bits = one.bits ∧ two ≠ one := by
  refine ⟨by decide, ?_, ?_, by decide⟩
  · rw [getElem?_bits _ (by decide)]
    decide
  · rw [bits_eq, bits_eq]
    decide +kernel

end ShaHash

/-- The number of equal leading bits is the length of the common beginning of the two hashes. -/
theorem leadingBitCount_greatest (a b : ShaHash) :
    IsGreatest {n | n ≤ shaHashLen * 8 ∧ ∀ i < n, a.bit i = b.bit i} (leadingBitCount a b) ∧
      (leadingBitCount a b = shaHashLen * 8 ↔ a = b) ∧ leadingBitCount a b = leadingBitCount b a ∧
      ∀ c, min (leadingBitCount a b) (leadingBitCount b c) ≤ leadingBitCount a c := by
  refine ⟨⟨?_, fun n hn => ?_⟩, leadingBitCount_eq_len, leadingBitCount_comm a b, fun c => ?_⟩
  · rw [leadingBitCount_eq]
    exact le_prefixLength.mp le_rfl
  · rw [leadingBitCount_eq]
    exact le_prefixLength.mpr hn
  · rw [leadingBitCount_eq, leadingBitCount_eq, leadingBitCount_eq]
    exact min_le_prefixLength

end BitTorrent
