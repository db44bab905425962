import Mathlib.Data.List.Basic

/-! Iterators. `next` takes the iterator by mutable reference, so it returns the item, if any, and
the iterator after the call. An `Iter` comes with a rank that every item lowers, so that the loop
which drains it ends; what a program does with all items of an iterator is then done with a list. -/

namespace BitTorrent.Rust

structure Iter (σ α : Type) where
  next : σ → Option α × σ
  rank : σ → Nat
  rank_lt : ∀ s a s', next s = (some a, s') → rank s' < rank s

namespace Iter

variable {σ α : Type} (it : Iter σ α)

/-- All items up to the first `None`. -/
def toList (s : σ) : List α :=
  match _h : it.next s with
  | (some a, s') => a :: toList s'
  | (none, _) => []
termination_by it.rank s
decreasing_by exact it.rank_lt s a s' _h

theorem toList_of_some {s s' : σ} {a : α} (h : it.next s = (some a, s')) :
    it.toList s = a :: it.toList s' := by
  rw [toList]
  split
  · rename_i b s'' hb
    rw [h] at hb
    cases hb
    rfl
  · rename_i s'' hb
    rw [h] at hb
    cases hb

theorem toList_of_none {s s' : σ} (h : it.next s = (none, s')) : it.toList s = [] := by
  rw [toList]
  split
  · rename_i b s'' hb
    rw [h] at hb
    cases hb
  · rfl

theorem toList_eq_of_spec (left : σ → List α)
    (hsome : ∀ s a s', it.next s = (some a, s') → left s = a :: left s')
    (hnone : ∀ s s', it.next s = (none, s') → left s = []) (s : σ) : it.toList s = left s := by
  induction hk : it.rank s using Nat.strongRecOn generalizing s with
  | ind k ih =>
    obtain ⟨item, s', hnext⟩ : ∃ item s', it.next s = (item, s') := ⟨_, _, rfl⟩
    cases item with
    | none => rw [it.toList_of_none hnext, hnone s s' hnext]
    | some a =>
      rw [it.toList_of_some hnext, hsome s a s' hnext, ih _ (hk ▸ it.rank_lt s a s' hnext) s' rfl]

end Iter

end BitTorrent.Rust
