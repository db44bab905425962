import BitTorrent.PeerStandard
import Mathlib.Data.FinEnum

/-! Iterating over a bitfield. A call of `next` looks at one bit after another and calls itself until it
comes to one that is set. What it has yet to yield are the set bits from its position on; a call takes the
first of them. The depth of the recursion is not bounded here. -/

namespace BitTorrent.Peer

open Rust List

/-- The bit `i` of some bytes is set, the most significant bit of each byte coming first. -/
def IsSet (bytes : Bytes) (i : Nat) : Prop :=
  ∃ byte, bytes[i / 8]? = some byte ∧ byte.toNat.testBit (7 - i % 8) = true

instance (bytes : Bytes) (i : Nat) : Decidable (IsSet bytes i) :=
  match h : bytes[i / 8]? with
  | some byte =>
    decidable_of_iff (byte.toNat.testBit (7 - i % 8) = true)
      ⟨fun hbit => ⟨byte, h, hbit⟩, fun ⟨_, hbyte, hbit⟩ => Option.some.inj (h.symm.trans hbyte) ▸ hbit⟩
  | none => isFalse fun ⟨_, hbyte, _⟩ => Option.some_ne_none _ (hbyte.symm.trans h)

structure BitFieldIter where
  bytes : Bytes
  curBit : Nat

namespace BitFieldIter

def new (bytes : Bytes) : BitFieldIter := ⟨bytes, 0⟩

def next (it : BitFieldIter) : Run Empty (Option HaveMessage × BitFieldIter) :=
  match _h : it.bytes[it.curBit / 8]? with
  | none => .ok (none, it)
  | some byte => do
    let haveMessage : HaveMessage := ⟨← unwrapU32 it.curBit⟩
    let bitInByte := it.curBit % 8
    let it' := { it with curBit := it.curBit + 1 }
    if (byte <<< UInt8.ofNat bitInByte) >>> 7 = 1 then .ok (some haveMessage, it') else next it'
termination_by it.bytes.length * 8 - it.curBit
decreasing_by
  have hlt := (List.getElem?_eq_some_iff.mp _h).1
  show it.bytes.length * 8 - (it.curBit + 1) < it.bytes.length * 8 - it.curBit
  omega

/-- What `n` calls return, one after the other. -/
def nextCalls : Nat → BitFieldIter → Run Empty (List (Option HaveMessage))
  | 0, _ => .ok []
  | n + 1, it => do
    let (item, it) ← it.next
    .ok (item :: (← nextCalls n it))

/-- The set bits that are still to come. -/
def left (it : BitFieldIter) : List Nat :=
  (range' it.curBit (it.bytes.length * 8 - it.curBit)).filter (IsSet it.bytes ·)

end BitFieldIter

def BitFieldMessage.iter (msg : BitFieldMessage) : BitFieldIter := .new msg.bytes

theorem shift_eq_one_iff : ∀ (byte : UInt8) (k : Fin 8),
    (byte <<< UInt8.ofNat k) >>> 7 = 1 ↔ byte.toNat.testBit (7 - k) = true := by
  decide +kernel

theorem IsSet.lt {bytes : Bytes} {i : Nat} (h : IsSet bytes i) : i < bytes.length * 8 := by
  obtain ⟨byte, hbyte, -⟩ := h
  have hlt := (List.getElem?_eq_some_iff.mp hbyte).1
  omega

namespace BitFieldIter

variable {it : BitFieldIter}

theorem left_of_none (h : it.bytes[it.curBit / 8]? = none) : it.left = [] := by
  have hge := getElem?_eq_none_iff.mp h
  have hzero : it.bytes.length * 8 - it.curBit = 0 := by omega
  rw [left, hzero]
  rfl

theorem left_of_some {byte : UInt8} (h : it.bytes[it.curBit / 8]? = some byte) :
    it.left = if IsSet it.bytes it.curBit then it.curBit :: left { it with curBit := it.curBit + 1 }
      else left { it with curBit := it.curBit + 1 } := by
  have hlt := (List.getElem?_eq_some_iff.mp h).1
  have hcount : it.bytes.length * 8 - it.curBit = it.bytes.length * 8 - (it.curBit + 1) + 1 := by omega
  rw [left, hcount, range'_succ, filter_cons]
  simp only [decide_eq_true_eq]
  rfl

theorem unwrapU32_of_lt {n : Nat} (h : n < 2 ^ 32) : (unwrapU32 n : Run Empty UInt32) = .ok (UInt32.ofNat n) := by
  rw [unwrapU32, if_pos (by omega)]

theorem next_eq (hfits : it.bytes.length ≤ 2 ^ 29) :
    ∃ it', it.next = .ok (it.left.head?.map fun i => ⟨UInt32.ofNat i⟩, it') ∧
      it'.bytes = it.bytes ∧ it'.left = it.left.tail := by
  induction hk : it.bytes.length * 8 - it.curBit using Nat.strongRecOn generalizing it with
  | ind k ih =>
    cases hbyte : it.bytes[it.curBit / 8]? with
    | none =>
      rw [next]
      split
      · rw [left_of_none hbyte]
        exact ⟨it, rfl, rfl, left_of_none hbyte⟩
      · rename_i byte hsome
        rw [hbyte] at hsome
        cases hsome
    | some byte =>
      have hlt := (List.getElem?_eq_some_iff.mp hbyte).1
      have hset : IsSet it.bytes it.curBit ↔ (byte <<< UInt8.ofNat (it.curBit % 8)) >>> 7 = 1 := by
        rw [shift_eq_one_iff byte ⟨it.curBit % 8, Nat.mod_lt _ (by decide)⟩]
        constructor
        · rintro ⟨b, hb, hbit⟩
          rw [hbyte] at hb
          cases hb
          exact hbit
        · exact fun hbit => ⟨byte, hbyte, hbit⟩
      rw [next]
      split
      · rename_i hnone
        rw [hbyte] at hnone
        cases hnone
      · rename_i b hb
        rw [hbyte] at hb
        cases hb
        rw [unwrapU32_of_lt (by omega), ok_bind, left_of_some hbyte]
        by_cases hbit : IsSet it.bytes it.curBit
        · rw [if_pos hbit, if_pos (hset.mp hbit)]
          exact ⟨_, rfl, rfl, rfl⟩
        · -- the position moves on, and the call is made again
          rw [if_neg hbit, if_neg fun h => hbit (hset.mpr h)]
          exact @ih (it.bytes.length * 8 - (it.curBit + 1)) (by omega) { it with curBit := it.curBit + 1 } hfits rfl

theorem nextCalls_eq (hfits : it.bytes.length ≤ 2 ^ 29) (n : Nat) :
    it.nextCalls n = .ok ((range n).map fun k => it.left[k]?.map fun i => ⟨UInt32.ofNat i⟩) := by
  induction n generalizing it with
  | zero => rfl
  | succ n ih =>
    obtain ⟨it', hnext, hbytes, hleft⟩ := next_eq hfits
    rw [nextCalls, hnext, ok_bind]
    simp only
    rw [ih (hbytes.symm ▸ hfits), ok_bind, range_succ_eq_map, map_cons, map_map, hleft]
    congr 2
    · rw [← head?_eq_getElem?]
    · apply map_congr_left
      intro k _
      rw [Function.comp_apply, getElem?_tail]

theorem pairwise_left (it : BitFieldIter) : it.left.Pairwise (· < ·) :=
  List.Pairwise.filter _ pairwise_lt_range'

theorem mem_left_new {bytes : Bytes} {i : Nat} : i ∈ (new bytes).left ↔ IsSet bytes i := by
  rw [left, mem_filter, decide_eq_true_eq, mem_range'_1]
  constructor
  · exact fun h => h.2
  · intro h
    refine ⟨⟨Nat.zero_le i, ?_⟩, h⟩
    have hlt := h.lt
    show i < 0 + (bytes.length * 8 - 0)
    omega

end BitFieldIter

/-- A bitfield yields the bits that are set, in increasing order and each once, and then nothing for ever. -/
theorem BitFieldMessage.iter_exact (msg : BitFieldMessage) (hlen : msg.bytes.length < 2 ^ 29) :
    ∃ indices : List UInt32, indices.Pairwise (· < ·) ∧
      (∀ i : Nat, IsSet msg.bytes i ↔ ∃ index ∈ indices, index.toNat = i) ∧
      ∀ n, msg.iter.nextCalls n = .ok ((range n).map fun k => indices[k]?.map HaveMessage.mk) := by
  have htoNat : ∀ i ∈ msg.iter.left, (UInt32.ofNat i).toNat = i := by
    intro i hi
    have hlt := (BitFieldIter.mem_left_new.mp hi).lt
    have hsize : UInt32.size = 2 ^ 32 := rfl
    exact UInt32.toNat_ofNat_of_lt' (by omega)
  refine ⟨msg.iter.left.map UInt32.ofNat, ?_, ?_, ?_⟩
  · rw [pairwise_map]
    refine (BitFieldIter.pairwise_left msg.iter).imp_of_mem fun {i j} hi hj hlt => ?_
    rw [UInt32.lt_iff_toNat_lt, htoNat i hi, htoNat j hj]
    exact hlt
  · intro i
    rw [← BitFieldIter.mem_left_new]
    constructor
    · exact fun hi => ⟨UInt32.ofNat i, mem_map_of_mem hi, htoNat i hi⟩
    · rintro ⟨index, hindex, rfl⟩
      obtain ⟨j, hj, rfl⟩ := mem_map.mp hindex
      rw [htoNat j hj]
      exact hj
  · intro n
    rw [BitFieldIter.nextCalls_eq (Nat.le_of_lt hlen)]
    simp only [getElem?_map, Option.map_map]
    rfl

theorem BitFieldMessage.iter_exact_two_bytes :
    ∃ indices : List UInt32, indices.Pairwise (· < ·) ∧
      (∀ i : Nat, IsSet [0x81, 0x40] i ↔ ∃ index ∈ indices, index.toNat = i) ∧
      ∀ n, (BitFieldMessage.iter ⟨[0x81, 0x40]⟩).nextCalls n =
        .ok ((range n).map fun k => indices[k]?.map HaveMessage.mk) :=
  BitFieldMessage.iter_exact ⟨[0x81, 0x40]⟩ (by decide)

end BitTorrent.Peer
