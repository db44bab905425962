import BitTorrent.Shuffle
import Mathlib.Tactic

/-! Numbers handed out in shuffled blocks. A source of numbers allocates a block of them at a time,
from zero up, shuffles the block and hands its numbers out one by one; at a bound it starts again from
zero. If the length of the blocks divides the bound, no number is handed out twice among as many
numbers as the bound. -/

namespace BitTorrent.IdBlocks

open  Nat

open List hiding Vector

structure Blocks (len : Nat) where
  nextAlloc : Nat
  currIndex : Nat
  ids : Vector UInt64 len

/-- The next block and where the one after it starts. -/
def allocate (bound len nextAlloc : Nat) : Nat × Vector UInt64 len :=
  let (start, stop) := if nextAlloc = bound then (0, len) else (nextAlloc, nextAlloc + len)
  (stop, Vector.ofFn fun i => UInt64.ofNat (start + i))

namespace Blocks

variable {len bound : Nat}

def refill (alloc : Nat → Nat × Vector UInt64 len) (b : Blocks len) (s : Shuffle len) : Blocks len :=
  let (nextAlloc, ids) := alloc b.nextAlloc
  ⟨nextAlloc, 0, s.fisherShuffle ids⟩

/-- The next number. A new block is not empty, so a second attempt succeeds. -/
def draw [NeZero len] (alloc : Nat → Nat × Vector UInt64 len) (b : Blocks len) (s : Shuffle len) :
    UInt64 × Blocks len :=
  if h : b.currIndex < len then (b.ids[b.currIndex], { b with currIndex := b.currIndex + 1 })
  else
    have hlen : 0 < len := NeZero.pos len
    let b := b.refill alloc s
    (b.ids[0], { b with currIndex := 1 })

def rest (b : Blocks len) : List UInt64 := b.ids.toList.drop b.currIndex

/-- The numbers drawn from the source are distinct from each other and from what is left. -/
structure Handed (bound : Nat) (b : Blocks len) (drawn : List UInt64) : Prop where
  nodup : (drawn ++ b.rest).Nodup
  below : ∀ x ∈ drawn ++ b.rest, x.toNat < b.nextAlloc
  count : drawn.length + b.rest.length = b.nextAlloc
  aligned : len ∣ b.nextAlloc
  bounded : b.nextAlloc ≤ bound

section

variable {start : Nat}

theorem allocate_of_ne (hstart : start ≠ bound) :
    allocate bound len start = (start + len, Vector.ofFn fun i : Fin len => UInt64.ofNat (start + i)) := by
  rw [allocate, if_neg hstart]

theorem toNat_ofNat_id {k : Nat} (h : k < 2 ^ 64) : (UInt64.ofNat k).toNat = k :=
  UInt64.toNat_ofNat_of_lt' h

theorem mem_block {x : UInt64} (hfits : start + len ≤ 2 ^ 64)
    (hx : x ∈ (Vector.ofFn fun i : Fin len => UInt64.ofNat (start + i)).toList) :
    start ≤ x.toNat ∧ x.toNat < start + len := by
  rw [Vector.mem_toList_iff, Vector.mem_ofFn] at hx
  obtain ⟨i, rfl⟩ := hx
  have hi := i.isLt
  rw [toNat_ofNat_id (by omega)]
  omega

theorem nodup_block (hfits : start + len ≤ 2 ^ 64) :
    (Vector.ofFn fun i : Fin len => UInt64.ofNat (start + i)).toList.Nodup := by
  rw [Vector.toList_ofFn, nodup_ofFn]
  intro i j h
  have hi := i.isLt
  have hj := j.isLt
  have hnat : (UInt64.ofNat (start + i)).toNat = (UInt64.ofNat (start + j)).toNat :=
    congrArg UInt64.toNat h
  rw [toNat_ofNat_id (by omega), toNat_ofNat_id (by omega)] at hnat
  exact Fin.ext (by omega)

end

variable {b : Blocks len} {drawn : List UInt64}

theorem Handed.refill (h : Handed bound b drawn) (hdvd : len ∣ bound) (hfits : bound ≤ 2 ^ 64)
    (hempty : b.rest = []) (hroom : drawn.length < bound) (s : Shuffle len) :
    Handed bound (b.refill (allocate bound len) s) drawn := by
  have hcount := h.count
  rw [hempty, length_nil, add_zero] at hcount
  have hstart : b.nextAlloc ≠ bound := by omega
  -- both are multiples of the block length, so a whole block fits in between
  have hblock : b.nextAlloc + len ≤ bound := by
    have hdiff : len ∣ bound - b.nextAlloc := dvd_sub hdvd h.aligned
    have hle := le_of_dvd (by omega) hdiff
    omega
  have hperm : (b.refill (allocate bound len) s).rest.Perm
      (Vector.ofFn fun i : Fin len => UInt64.ofNat (b.nextAlloc + i)).toList := by
    rw [rest, Blocks.refill, allocate_of_ne hstart]
    exact s.fisherShuffle_perm _
  have halloc : (b.refill (allocate bound len) s).nextAlloc = b.nextAlloc + len := by
    rw [Blocks.refill, allocate_of_ne hstart]
  have hnew : ∀ x ∈ (b.refill (allocate bound len) s).rest, b.nextAlloc ≤ x.toNat ∧ x.toNat < b.nextAlloc + len :=
    fun x hx => mem_block (by omega) (hperm.mem_iff.mp hx)
  have hold : ∀ x ∈ drawn, x.toNat < b.nextAlloc := fun x hx =>
    h.below x (mem_append_left _ hx)
  constructor
  · apply List.Nodup.append (h.nodup.sublist (sublist_append_left _ _))
      (hperm.nodup_iff.mpr (nodup_block (by omega)))
    intro x hx hx'
    have hlt := hold x hx
    have hge := (hnew x hx').1
    omega
  · intro x hx
    rw [halloc]
    rcases mem_append.mp hx with hx | hx
    · exact (hold x hx).trans_le (le_add_right _ _)
    · exact (hnew x hx).2
  · rw [hperm.length_eq, halloc, Vector.length_toList, hcount]
  · rw [halloc]
    exact dvd_add h.aligned dvd_rfl
  · rw [halloc]
    exact hblock

theorem rest_eq_cons (hindex : b.currIndex < len) :
    b.rest = b.ids[b.currIndex] :: rest { b with currIndex := b.currIndex + 1 } := by
  rw [rest, drop_eq_getElem_cons (by simpa using hindex)]
  rfl

theorem Handed.next (h : Handed bound b drawn) (hindex : b.currIndex < len) :
    Handed bound { b with currIndex := b.currIndex + 1 } (drawn ++ [b.ids[b.currIndex]]) := by
  have hrest := rest_eq_cons hindex
  obtain ⟨hnodup, hbelow, hcount, haligned, hbounded⟩ := h
  rw [hrest, ← singleton_append, ← append_assoc] at hnodup hbelow
  rw [hrest, length_cons] at hcount
  refine ⟨hnodup, hbelow, ?_, haligned, hbounded⟩
  change (drawn ++ [b.ids[b.currIndex]]).length + _ = b.nextAlloc
  rw [length_append, length_singleton]
  omega

theorem Handed.draw [NeZero len] (h : Handed bound b drawn) (hdvd : len ∣ bound)
    (hfits : bound ≤ 2 ^ 64) (hroom : drawn.length < bound) (s : Shuffle len) :
    Handed bound (b.draw (allocate bound len) s).2 (drawn ++ [(b.draw (allocate bound len) s).1]) := by
  rw [Blocks.draw]
  split
  · rename_i hindex
    exact h.next hindex
  · rename_i hindex
    have hempty : b.rest = [] := drop_eq_nil_of_le (by simpa using hindex)
    exact (h.refill hdvd hfits hempty hroom s).next (NeZero.pos len)

theorem Handed.drawn_nodup (h : Handed bound b drawn) : drawn.Nodup :=
  h.nodup.sublist (sublist_append_left _ _)

theorem Handed.drawn_lt (h : Handed bound b drawn) {x : UInt64} (hx : x ∈ drawn) : x.toNat < bound :=
  (h.below x (mem_append_left _ hx)).trans_le h.bounded

theorem handed_nil (ids : Vector UInt64 len) : Handed bound ⟨0, len, ids⟩ [] := by
  have hrest : rest ⟨0, len, ids⟩ = [] := drop_eq_nil_of_le (by simp)
  constructor
  · rw [hrest]
    exact nodup_nil
  · rw [hrest]
    exact fun x hx => absurd hx not_mem_nil
  · rw [hrest]
    rfl
  · exact dvd_zero len
  · exact zero_le bound

/-- What holds however many numbers are drawn: all that is left of the block is below the bound. -/
structure InRange (bound : Nat) (b : Blocks len) : Prop where
  aligned : len ∣ b.nextAlloc
  bounded : b.nextAlloc ≤ bound
  below : ∀ x ∈ b.rest, x.toNat < bound

theorem Handed.inRange (h : Handed bound b drawn) : InRange bound b :=
  ⟨h.aligned, h.bounded, fun x hx => (h.below x (mem_append_right _ hx)).trans_le h.bounded⟩

theorem InRange.refill [NeZero len] (h : InRange bound b) (hdvd : len ∣ bound)
    (hfits : bound ≤ 2 ^ 64) (hpos : 0 < bound) (s : Shuffle len) :
    InRange bound (b.refill (allocate bound len) s) := by
  have hlen : len ≤ bound := le_of_dvd hpos hdvd
  -- a block starts at a multiple of its length, so it does not go over the bound
  have hblock : ∃ start, len ∣ start ∧ start + len ≤ bound ∧ allocate bound len b.nextAlloc =
      (start + len, Vector.ofFn fun i : Fin len => UInt64.ofNat (start + i)) := by
    by_cases hstart : b.nextAlloc = bound
    · refine ⟨0, dvd_zero len, by omega, ?_⟩
      simp only [allocate, if_pos hstart, zero_add]
    · refine ⟨b.nextAlloc, h.aligned, ?_, allocate_of_ne hstart⟩
      have hlt := lt_of_le_of_ne h.bounded hstart
      have hle := le_of_dvd (by omega) (dvd_sub hdvd h.aligned)
      omega
  obtain ⟨start, haligned, hle, halloc⟩ := hblock
  rw [Blocks.refill, halloc]
  refine ⟨dvd_add haligned dvd_rfl, hle, fun x hx => ?_⟩
  exact (mem_block (by omega) ((s.fisherShuffle_perm _).mem_iff.mp hx)).2.trans_le hle

theorem InRange.next (h : InRange bound b) (hindex : b.currIndex < len) :
    b.ids[b.currIndex].toNat < bound ∧ InRange bound { b with currIndex := b.currIndex + 1 } := by
  have hbelow := h.below
  rw [rest_eq_cons hindex, forall_mem_cons] at hbelow
  exact ⟨hbelow.1, h.aligned, h.bounded, hbelow.2⟩

theorem InRange.draw [NeZero len] (h : InRange bound b) (hdvd : len ∣ bound)
    (hfits : bound ≤ 2 ^ 64) (hpos : 0 < bound) (s : Shuffle len) :
    (b.draw (allocate bound len) s).1.toNat < bound ∧ InRange bound (b.draw (allocate bound len) s).2 := by
  rw [Blocks.draw]
  split
  · rename_i hindex
    exact h.next hindex
  · exact (h.refill hdvd hfits hpos s).next (NeZero.pos len)

end Blocks

end BitTorrent.IdBlocks
