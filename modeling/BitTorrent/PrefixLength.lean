import Mathlib.Data.List.Basic
import Mathlib.Order.Lattice
import Mathlib.Tactic.Push

/-! The length of the common prefix of two sequences, cut off at a bound. Longer prefixes are closer:
the length is symmetric, reaches the bound only for sequences that agree below it, and any two of the
three lengths between three sequences bound the third from below. Over two symbols a third fact
holds, that sequences which leave a common one at the same place agree there. -/

namespace BitTorrent

theorem le_length_takeWhile {α : Type} {p : α → Bool} {l : List α} {k : Nat} :
    k ≤ (l.takeWhile p).length ↔ k ≤ l.length ∧ ∀ a ∈ l.take k, p a = true := by
  induction l generalizing k with
  | nil => simp
  | cons a l ih =>
    cases k with
    | zero => simp
    | succ k =>
      rw [List.takeWhile_cons, List.take_succ_cons, List.forall_mem_cons]
      cases p a with
      | true => simp [ih]
      | false => simp

theorem le_length_takeWhile_range {p : Nat → Bool} {bound k : Nat} :
    k ≤ ((List.range bound).takeWhile p).length ↔ k ≤ bound ∧ ∀ i < k, p i = true := by
  rw [le_length_takeWhile, List.length_range, List.take_range]
  refine and_congr_right fun hk => ?_
  rw [min_eq_left hk]
  simp only [List.mem_range]

section

variable {α : Type} [DecidableEq α]

def prefixLength (bound : Nat) (f g : Nat → α) : Nat :=
  ((List.range bound).takeWhile fun i => f i = g i).length

variable {bound k : Nat} {f g h : Nat → α}

theorem le_prefixLength : k ≤ prefixLength bound f g ↔ k ≤ bound ∧ ∀ i < k, f i = g i := by
  rw [prefixLength, le_length_takeWhile_range]
  simp only [decide_eq_true_eq]

theorem prefixLength_le : prefixLength bound f g ≤ bound := (le_prefixLength.mp le_rfl).1

theorem eq_of_lt_prefixLength {i : Nat} (hi : i < prefixLength bound f g) : f i = g i :=
  (le_prefixLength.mp le_rfl).2 i hi

theorem ne_at_prefixLength (hk : prefixLength bound f g = k) (hbound : k < bound) : f k ≠ g k := by
  intro heq
  have hlt : k + 1 ≤ prefixLength bound f g := by
    rw [le_prefixLength]
    refine ⟨hbound, fun i hi => ?_⟩
    rcases Nat.lt_succ_iff_lt_or_eq.mp hi with hlt | rfl
    · exact eq_of_lt_prefixLength (hk.symm ▸ hlt)
    · exact heq
  omega

theorem prefixLength_comm : prefixLength bound f g = prefixLength bound g f := by
  apply Nat.le_antisymm
  · exact le_prefixLength.mpr ⟨prefixLength_le, fun i hi => (eq_of_lt_prefixLength hi).symm⟩
  · exact le_prefixLength.mpr ⟨prefixLength_le, fun i hi => (eq_of_lt_prefixLength hi).symm⟩

theorem prefixLength_eq_bound : prefixLength bound f g = bound ↔ ∀ i < bound, f i = g i := by
  constructor
  · intro heq i hi
    exact eq_of_lt_prefixLength (heq.symm ▸ hi)
  · intro hall
    exact Nat.le_antisymm prefixLength_le (le_prefixLength.mpr ⟨le_rfl, hall⟩)

theorem min_le_prefixLength :
    min (prefixLength bound f g) (prefixLength bound g h) ≤ prefixLength bound f h := by
  refine le_prefixLength.mpr ⟨(min_le_left _ _).trans prefixLength_le, fun i hi => ?_⟩
  rw [Nat.lt_min] at hi
  exact (eq_of_lt_prefixLength hi.1).trans (eq_of_lt_prefixLength hi.2)

theorem prefixLength_of_lt (hlt : prefixLength bound f g < prefixLength bound f h) :
    prefixLength bound g h = prefixLength bound f g := by
  have hlower : min (prefixLength bound f g) (prefixLength bound f h) ≤ prefixLength bound g h := by
    rw [prefixLength_comm (f := f) (g := g)]
    exact min_le_prefixLength
  have hupper : min (prefixLength bound g h) (prefixLength bound f h) ≤ prefixLength bound f g := by
    rw [prefixLength_comm (f := f) (g := g), prefixLength_comm (f := f) (g := h)]
    exact min_le_prefixLength
  omega

end

theorem lt_prefixLength_of_eq {bound k : Nat} {f g h : Nat → Bool}
    (hg : prefixLength bound f g = k) (hh : prefixLength bound f h = k) (hk : k < bound) :
    k < prefixLength bound g h := by
  refine le_prefixLength.mpr ⟨hk, fun i hi => ?_⟩
  rcases Nat.lt_succ_iff_lt_or_eq.mp hi with hlt | rfl
  · exact (eq_of_lt_prefixLength (hg.symm ▸ hlt)).symm.trans
      (eq_of_lt_prefixLength (hh.symm ▸ hlt))
  · have hfg := ne_at_prefixLength hg hk
    have hfh := ne_at_prefixLength hh hk
    cases hf : f i <;> cases hgi : g i <;> cases hhi : h i <;> simp_all

end BitTorrent
