import Mathlib.Tactic
import Mathlib.Data.List.Sort

/-! A bounded number of slots that elements are put in, one after the other. An element takes the first slot
that is free or holds something greater, and what it replaces is lost. This is not a way to keep the
smallest elements: it is the first row of patience sorting, cut off at the last slot. The slot `j` holds
the least element at which an ascending subsequence of `j + 1` elements of the input can end, and the
slots hold the smallest elements exactly when these come in ascending order. -/

namespace BitTorrent.Slots

open List Nat

variable {α β : Type*} [LinearOrder β] (d : α → β)

/-- The used slots after one more element, if there are `k` slots in all. -/
def insertSlot (x : α) : Nat → List α → List α
  | 0, slots => slots
  | _ + 1, [] => [x]
  | k + 1, y :: slots => if d x < d y then x :: slots else y :: insertSlot x k slots

/-- The used slots after a sequence of elements. -/
def fill (k : Nat) (xs : List α) : List α := xs.foldl (fun slots x => insertSlot d x k slots) []

/-- In order of `d`, equal elements allowed. -/
def Ascending (xs : List α) : Prop := xs.Pairwise fun x y => d x ≤ d y

variable {d} {k : Nat} {x y : α} {slots : List α}

theorem fill_concat (xs : List α) : fill d k (xs ++ [x]) = insertSlot d x k (fill d k xs) := by
  rw [fill, foldl_append]
  rfl

/-! ### One element -/

theorem length_insertSlot_le (h : slots.length ≤ k) : (insertSlot d x k slots).length ≤ k := by
  induction k generalizing slots with
  | zero => exact h
  | succ k ih =>
    cases slots with
    | nil => exact succ_le_succ (zero_le k)
    | cons y slots =>
      rw [insertSlot]
      split
      · exact h
      · exact succ_le_succ (ih (le_of_succ_le_succ h))

variable {j : Nat}

theorem exists_getElem?_insertSlot (h : slots[j]? = some y) :
    ∃ z, (insertSlot d x k slots)[j]? = some z ∧ d z ≤ d y := by
  induction k generalizing slots j with
  | zero => exact ⟨y, h, le_rfl⟩
  | succ k ih =>
    cases slots with
    | nil => cases h
    | cons w slots =>
      rw [insertSlot]
      split
      · rename_i hlt
        cases j with
        | zero =>
          cases h
          exact ⟨x, rfl, hlt.le⟩
        | succ j => exact ⟨y, h, le_rfl⟩
      · cases j with
        | zero => exact ⟨w, rfl, (by cases h; exact le_rfl)⟩
        | succ j => exact ih h

theorem exists_getElem?_insertSlot_of_le (hj : j < k)
    (hbefore : ∀ i < j, ∃ z, slots[i]? = some z ∧ d z ≤ d x) :
    ∃ z, (insertSlot d x k slots)[j]? = some z ∧ d z ≤ d x := by
  induction k generalizing slots j with
  | zero => exact absurd hj (not_lt_zero j)
  | succ k ih =>
    cases slots with
    | nil =>
      cases j with
      | zero => exact ⟨x, rfl, le_rfl⟩
      | succ j =>
        obtain ⟨z, hz, -⟩ := hbefore 0 (succ_pos j)
        cases hz
    | cons w slots =>
      rw [insertSlot]
      cases j with
      | zero =>
        split
        · exact ⟨x, rfl, le_rfl⟩
        · rename_i hlt
          exact ⟨w, rfl, not_lt.mp hlt⟩
      | succ j =>
        obtain ⟨z, hz, hle⟩ := hbefore 0 (succ_pos j)
        cases hz
        rw [if_neg hle.not_gt]
        exact ih (lt_of_succ_lt_succ hj) fun i hi => hbefore (i + 1) (succ_lt_succ hi)

theorem getElem?_insertSlot (h : (insertSlot d x k slots)[j]? = some y) :
    slots[j]? = some y ∨ y = x ∧ ∀ i < j, ∃ z, slots[i]? = some z ∧ d z ≤ d x := by
  induction k generalizing slots j with
  | zero => exact Or.inl h
  | succ k ih =>
    cases slots with
    | nil =>
      cases j with
      | zero =>
        cases h
        exact Or.inr ⟨rfl, fun i hi => absurd hi (not_lt_zero i)⟩
      | succ j => cases h
    | cons w slots =>
      rw [insertSlot] at h
      split at h
      · cases j with
        | zero =>
          cases h
          exact Or.inr ⟨rfl, fun i hi => absurd hi (not_lt_zero i)⟩
        | succ j => exact Or.inl h
      · rename_i hlt
        cases j with
        | zero => exact Or.inl h
        | succ j =>
          rcases ih h with hold | ⟨hnew, hbefore⟩
          · exact Or.inl hold
          · refine Or.inr ⟨hnew, fun i hi => ?_⟩
            cases i with
            | zero => exact ⟨w, rfl, not_lt.mp hlt⟩
            | succ i => exact hbefore i (lt_of_succ_lt_succ hi)

/-! ### A sequence of elements -/

theorem length_fill_le (xs : List α) : (fill d k xs).length ≤ k := by
  induction xs using reverseRecOn with
  | nil => exact zero_le k
  | append_singleton xs x ih =>
    rw [fill_concat]
    exact length_insertSlot_le ih

theorem exists_sublist_of_getElem? {xs : List α} (h : (fill d k xs)[j]? = some y) :
    ∃ sub, (sub ++ [y]).Sublist xs ∧ Ascending d (sub ++ [y]) ∧ sub.length = j := by
  induction xs using reverseRecOn generalizing j y with
  | nil => cases h
  | append_singleton xs x ih =>
    rw [fill_concat] at h
    rcases getElem?_insertSlot h with hold | ⟨rfl, hbefore⟩
    · obtain ⟨sub, hsub, hascending, hlength⟩ := ih hold
      exact ⟨sub, hsub.trans (sublist_append_left xs [x]), hascending, hlength⟩
    · cases j with
      | zero =>
        exact ⟨[], sublist_append_right xs [y], pairwise_singleton _ y, rfl⟩
      | succ j =>
        obtain ⟨z, hz, hle⟩ := hbefore j (lt_succ_self j)
        obtain ⟨sub, hsub, hascending, hlength⟩ := ih hz
        refine ⟨sub ++ [z], hsub.append (List.Sublist.refl [y]), ?_, by simp [hlength]⟩
        rw [Ascending, pairwise_append]
        refine ⟨hascending, pairwise_singleton _ y, fun a ha b hb => ?_⟩
        rw [mem_singleton] at hb
        subst hb
        rcases mem_append.mp ha with ha | ha
        · exact ((pairwise_append.mp hascending).2.2 a ha z mem_cons_self).trans hle
        · rw [mem_singleton] at ha
          exact ha ▸ hle

variable {sub : List α}

theorem exists_getElem?_of_sublist {xs : List α} (hsub : (sub ++ [y]).Sublist xs)
    (hascending : Ascending d (sub ++ [y])) (hlength : sub.length < k) :
    ∃ z, (fill d k xs)[sub.length]? = some z ∧ d z ≤ d y := by
  induction xs using reverseRecOn generalizing sub y with
  | nil =>
    rw [sublist_nil, append_eq_nil_iff] at hsub
    cases hsub.2
  | append_singleton xs x ih =>
    rw [fill_concat]
    obtain hold | ⟨sub', hsub', heq⟩ : (sub ++ [y]).Sublist xs ∨
        ∃ sub', sub'.Sublist xs ∧ sub ++ [y] = sub' ++ [x] := by
      obtain ⟨front, back, heq, hfront, hback⟩ := sublist_append_iff.mp hsub
      rcases sublist_singleton.mp hback with rfl | rfl
      · exact Or.inl (heq ▸ (append_nil front).symm ▸ hfront)
      · exact Or.inr ⟨front, hfront, heq⟩
    · obtain ⟨z, hz, hle⟩ := ih hold hascending hlength
      obtain ⟨z', hz', hle'⟩ := exists_getElem?_insertSlot (d := d) hz
      exact ⟨z', hz', hle'.trans hle⟩
    · obtain ⟨rfl, hy⟩ := append_inj' heq rfl
      cases hy
      apply exists_getElem?_insertSlot_of_le hlength
      intro i hi
      -- the front of the subsequence that ends at its element `i` was there before
      have hfront : sub.take i ++ [sub[i]] = sub.take (i + 1) := take_concat_get' sub i hi
      have hmem : sub[i] ∈ sub := getElem_mem hi
      have htake : (sub.take i).length = i := by rw [length_take, min_eq_left hi.le]
      have hsublist : (sub.take i ++ [sub[i]]).Sublist xs := by
        rw [hfront]
        exact (take_sublist _ sub).trans hsub'
      have hordered : Ascending d (sub.take i ++ [sub[i]]) := by
        rw [hfront]
        exact (pairwise_append.mp hascending).1.sublist (take_sublist _ sub)
      obtain ⟨z, hz, hle⟩ := ih hsublist hordered (by omega)
      rw [htake] at hz
      exact ⟨z, hz, hle.trans ((pairwise_append.mp hascending).2.2 _ hmem _ mem_cons_self)⟩

/-! ### The smallest elements -/

section

variable {xs best rest : List α}

theorem mem_of_getElem?_fill (h : (fill d k xs)[j]? = some y) : y ∈ xs := by
  obtain ⟨sub, hsub, -, -⟩ := exists_sublist_of_getElem? h
  exact hsub.subset (mem_append_right sub mem_cons_self)

theorem length_fill_le_length : (fill d k xs).length ≤ xs.length := by
  by_contra hlt
  rw [not_le] at hlt
  obtain ⟨sub, hsub, -, hlength⟩ := exists_sublist_of_getElem? (getElem?_eq_getElem hlt)
  have hle := hsub.length_le
  rw [length_append, hlength, length_singleton] at hle
  exact not_succ_le_self _ hle

/-- The elements of `best` are those of `xs` that no element of `rest` is below. -/
structure Smallest (d : α → β) (xs best rest : List α) : Prop where
  nodup : xs.Nodup
  inj : ∀ x ∈ xs, ∀ y ∈ xs, d x = d y → x = y
  parts : (best ++ rest).Perm xs
  ascending : Ascending d best
  below : ∀ x ∈ best, ∀ y ∈ rest, d x ≤ d y

variable (h : Smallest d xs best rest)

include h

theorem Smallest.mem_xs (hx : x ∈ best) : x ∈ xs := h.parts.subset (mem_append_left rest hx)

theorem Smallest.mem_best (hy : y ∈ best) (hx : x ∈ xs) (hle : d x ≤ d y) : x ∈ best := by
  rcases mem_append.mp (h.parts.symm.subset hx) with hx' | hx'
  · exact hx'
  · have heq : x = y := h.inj x hx y (h.mem_xs hy) (hle.antisymm (h.below y hy x hx'))
    exact heq ▸ hy

theorem Smallest.subset_best (hy : y ∈ best) (hsub : (sub ++ [y]).Sublist xs)
    (hascending : Ascending d (sub ++ [y])) : ∀ z ∈ sub ++ [y], z ∈ best ∧ d z ≤ d y := by
  intro z hz
  have hle : d z ≤ d y := by
    rcases mem_append.mp hz with hz | hz
    · exact (pairwise_append.mp hascending).2.2 z hz y mem_cons_self
    · rw [mem_singleton] at hz
      rw [hz]
  exact ⟨h.mem_best hy (hsub.subset hz) hle, hle⟩

theorem Smallest.sublist_of_perm (hperm : (fill d k xs).Perm best) : best.Sublist xs := by
  rcases Nat.eq_zero_or_pos best.length with hzero | hpos
  · rw [length_eq_zero_iff.mp hzero]
    exact nil_sublist xs
  · have hlast : best.length - 1 < (fill d k xs).length := by
      rw [hperm.length_eq]
      omega
    obtain ⟨sub, hsub, hascending, hlength⟩ := exists_sublist_of_getElem? (getElem?_eq_getElem hlast)
    have hall := h.subset_best (hperm.subset (getElem_mem hlast)) hsub hascending
    have hsame : (sub ++ [(fill d k xs)[best.length - 1]]).Perm best := by
      apply (subperm_of_subset (h.nodup.sublist hsub) fun z hz => (hall z hz).1).perm_of_length_le
      rw [length_append, hlength, length_singleton]
      omega
    have heq := hsame.eq_of_pairwise (fun a b ha hb hab hba =>
      h.inj a (hsub.subset ha) b (h.mem_xs hb) (le_antisymm hab hba)) hascending h.ascending
    exact heq ▸ hsub

theorem Smallest.mem_take (hj : j < best.length) (hx : x ∈ best) (hlt : d x < d best[j]) :
    x ∈ best.take j := by
  obtain ⟨i, hi, rfl⟩ := mem_iff_getElem.mp hx
  have hij : i < j := by
    by_contra hge
    rcases (Nat.le_of_not_lt hge).lt_or_eq with hji | rfl
    · exact hlt.not_ge (pairwise_iff_getElem.mp h.ascending j i hj hi hji)
    · exact lt_irrefl _ hlt
  rw [mem_take_iff_getElem]
  exact ⟨i, by omega, rfl⟩

theorem Smallest.getElem?_fill (hsub : best.Sublist xs) (hj : j < best.length) (hk : j < k) :
    (fill d k xs)[j]? = some best[j] := by
  have hfront : best.take j ++ [best[j]] = best.take (j + 1) := take_concat_get' best j hj
  have htake : (best.take j).length = j := by rw [length_take, min_eq_left hj.le]
  have hsublist : (best.take j ++ [best[j]]).Sublist xs := by
    rw [hfront]
    exact (take_sublist _ best).trans hsub
  have hordered : Ascending d (best.take j ++ [best[j]]) := by
    rw [hfront]
    exact h.ascending.sublist (take_sublist _ best)
  obtain ⟨z, hz, hle⟩ := exists_getElem?_of_sublist hsublist hordered (htake.trans_lt hk)
  rw [htake] at hz
  rcases hle.lt_or_eq with hlt | heq
  · -- the elements up to `z` would all be before `best[j]`, and they are too many
    obtain ⟨sub, hsub', hascending, hlength⟩ := exists_sublist_of_getElem? hz
    have hzbest : z ∈ best := h.mem_best (getElem_mem hj) (mem_of_getElem?_fill hz) hle
    have hall := h.subset_best hzbest hsub' hascending
    have hsubset : sub ++ [z] ⊆ best.take j := fun w hw =>
      h.mem_take hj (hall w hw).1 ((hall w hw).2.trans_lt hlt)
    have hcount := (h.nodup.sublist hsub').length_le_of_subset hsubset
    rw [length_append, hlength, length_singleton, htake] at hcount
    exact absurd hcount (not_succ_le_self j)
  · rw [hz, h.inj z (mem_of_getElem?_fill hz) _ (h.mem_xs (getElem_mem hj)) heq]

theorem Smallest.fill_perm_iff (hlength : best.length = min k xs.length) :
    (fill d k xs).Perm best ↔ best.Sublist xs := by
  refine ⟨h.sublist_of_perm, fun hsub => ?_⟩
  have heq : fill d k xs = best := by
    apply ext_getElem?
    intro j
    rcases lt_or_ge j best.length with hj | hj
    · rw [h.getElem?_fill hsub hj (by omega), getElem?_eq_getElem hj]
    · have hk := length_fill_le (d := d) (k := k) xs
      have hxs := (length_fill_le_length : (fill d k xs).length ≤ xs.length)
      rw [getElem?_eq_none (by omega), getElem?_eq_none hj]
  rw [heq]

end

end BitTorrent.Slots
