import Mathlib.Data.List.FinRange
import Mathlib.Data.List.Nodup

/-! Shuffling in place. Each element is swapped with one at its own place or later; which one is
drawn at random, so a shuffle is given by what was drawn for each place. -/

namespace BitTorrent

structure Shuffle (n : Nat) where
  swapIndex : Fin n → Fin n
  le_swapIndex : ∀ i, i ≤ swapIndex i

namespace Shuffle

variable {α : Type} [Inhabited α] {n : Nat}

/-- One swap, with both elements taken out before either is put back. -/
def takeSwap (list : Vector α n) (i swapIndex : Fin n) : Vector α n :=
  let srcVal := list[i]
  let list := list.set i default
  let dstVal := list[swapIndex]
  let list := list.set swapIndex default
  (list.set i dstVal).set swapIndex srcVal

def fisherShuffle (s : Shuffle n) (list : Vector α n) : Vector α n :=
  (List.finRange n).foldl (fun list i => takeSwap list i (s.swapIndex i)) list

theorem takeSwap_eq (list : Vector α n) (i j : Fin n) : takeSwap list i j = list.swap i j := by
  ext k hk
  simp only [takeSwap, Vector.getElem_set, Vector.getElem_swap, Fin.getElem_fin]
  by_cases hj : j.val = k
  · by_cases hi : i.val = k
    · simp [hi, hj]
    · simp [hj, Ne.symm hi]
  · by_cases hi : i.val = k
    · simp [hi, hj, Ne.symm hj]
    · simp [hi, hj, Ne.symm hi, Ne.symm hj]

theorem takeSwap_perm (list : Vector α n) (i j : Fin n) : (takeSwap list i j).toList.Perm list.toList := by
  rw [takeSwap_eq]
  exact (Array.swap_perm _ _).toList

theorem fisherShuffle_perm (s : Shuffle n) (list : Vector α n) :
    (fisherShuffle s list).toList.Perm list.toList := by
  rw [fisherShuffle]
  induction List.finRange n generalizing list with
  | nil => exact List.Perm.refl _
  | cons i rest ih => exact (ih _).trans (takeSwap_perm list i _)

end Shuffle

end BitTorrent
