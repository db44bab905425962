import Mathlib.Tactic

/-! Ranges of a list: reading one, replacing one, and what both are on a list that is put together from
two parts, where a range may lie in either part or span the boundary. -/

namespace BitTorrent.Segments

open List

variable {α : Type}

/-- The elements from `start` on, at most `len` of them. -/
def window (l : List α) (start len : Nat) : List α := (l.drop start).take len

/-- `data` in the place of the elements from `start` on. -/
def overwrite (l : List α) (start : Nat) (data : List α) : List α :=
  l.take start ++ data ++ l.drop (start + data.length)

variable {l a b data data' : List α} {start start' len k : Nat}

theorem getElem?_window : (window l start len)[k]? = if k < len then l[start + k]? else none := by
  rw [window, getElem?_take, getElem?_drop]

theorem length_window (h : start + len ≤ l.length) : (window l start len).length = len := by
  rw [window, length_take, length_drop]
  omega

theorem window_zero : window l start 0 = [] := take_zero

theorem getElem?_overwrite (h : start + data.length ≤ l.length) : (overwrite l start data)[k]? =
      if start ≤ k ∧ k < start + data.length then data[k - start]? else l[k]? := by
  have hstart : (l.take start).length = start := by
    rw [length_take]
    omega
  rw [overwrite, append_assoc, getElem?_append, hstart]
  by_cases hlow : k < start
  · rw [if_pos hlow, if_neg (by omega), getElem?_take, if_pos hlow]
  rw [if_neg hlow, getElem?_append]
  by_cases hhigh : k - start < data.length
  · rw [if_pos hhigh, if_pos (by omega)]
  · rw [if_neg hhigh, if_neg (by omega), getElem?_drop]
    congr 1
    omega

theorem length_overwrite (h : start + data.length ≤ l.length) :
    (overwrite l start data).length = l.length := by
  rw [overwrite, length_append, length_append, length_take, length_drop]
  omega

theorem overwrite_nil : overwrite l start [] = l := by
  rw [overwrite, append_nil, length_nil, Nat.add_zero, take_append_drop]

theorem overwrite_all (h : data.length = l.length) : overwrite l 0 data = data := by
  rw [overwrite, take_zero, nil_append, Nat.zero_add, h, drop_length, append_nil]

theorem window_overwrite_self (h : start + data.length ≤ l.length) :
    window (overwrite l start data) start data.length = data := by
  ext1 k
  rw [getElem?_window]
  by_cases hk : k < data.length
  · rw [if_pos hk, getElem?_overwrite h, if_pos (by omega), Nat.add_sub_cancel_left]
  · rw [if_neg hk, getElem?_eq_none (by omega)]

theorem window_overwrite_of_disjoint (h : start + data.length ≤ l.length)
    (hdisjoint : start + data.length ≤ start' ∨ start' + len ≤ start) :
    window (overwrite l start data) start' len = window l start' len := by
  ext1 k
  rw [getElem?_window, getElem?_window]
  by_cases hk : k < len
  · rw [if_pos hk, if_pos hk, getElem?_overwrite h, if_neg (by omega)]
  · rw [if_neg hk, if_neg hk]

theorem overwrite_comm (h : start + data.length ≤ l.length) (h' : start' + data'.length ≤ l.length)
    (hdisjoint : start + data.length ≤ start' ∨ start' + data'.length ≤ start) :
    overwrite (overwrite l start data) start' data' = overwrite (overwrite l start' data') start data := by
  ext1 k
  rw [getElem?_overwrite (by rwa [length_overwrite h]), getElem?_overwrite h,
    getElem?_overwrite (by rwa [length_overwrite h']), getElem?_overwrite h']
  by_cases hk : start ≤ k ∧ k < start + data.length
  · rw [if_pos hk, if_pos hk, if_neg (by omega)]
  · rw [if_neg hk, if_neg hk]

theorem overwrite_append_data (h : start + data.length + data'.length ≤ l.length) :
    overwrite (overwrite l start data) (start + data.length) data' = overwrite l start (data ++ data') := by
  ext1 k
  rw [getElem?_overwrite (by rw [length_overwrite (by omega)]; exact h),
    getElem?_overwrite (by omega), getElem?_overwrite (by rw [length_append]; omega),
    getElem?_append, length_append]
  split_ifs <;> first | rfl | omega | skip
  congr 1
  omega

theorem window_window {len' : Nat} (h : start' + len' ≤ len) :
    window (window l start len) start' len' = window l (start + start') len' := by
  ext1 k
  rw [getElem?_window, getElem?_window, getElem?_window]
  by_cases hk : k < len'
  · rw [if_pos hk, if_pos hk, if_pos (by omega), Nat.add_assoc]
  · rw [if_neg hk, if_neg hk]

section

/-- Of a range of `len` elements from `start` on, how many lie in the first `n`. -/
def share (n start len : Nat) : Nat := min len (n - min start n)

theorem window_append : window (a ++ b) start len =
      window a (min start a.length) (share a.length start len) ++
        window b (start - a.length) (len - share a.length start len) := by
  ext1 k
  rw [getElem?_append, getElem?_window, getElem?_window, getElem?_window, getElem?_append]
  have hlen : (window a (min start a.length) (share a.length start len)).length =
      share a.length start len := by
    refine length_window ?_
    unfold share
    omega
  rw [hlen]
  unfold share
  split_ifs <;> first | rfl | omega | skip
  · congr 1
    omega
  · congr 1
    omega

theorem overwrite_append (h : start + data.length ≤ a.length + b.length) : overwrite (a ++ b) start data =
      overwrite a (min start a.length) (data.take (share a.length start data.length)) ++
        overwrite b (start - a.length) (data.drop (share a.length start data.length)) := by
  have hshare : share a.length start data.length = min data.length (a.length - min start a.length) :=
    rfl
  generalize share a.length start data.length = m at *
  have htake : (data.take m).length = m := by
    rw [length_take]
    omega
  have hfirst : min start a.length + (data.take m).length ≤ a.length := by
    rw [htake]
    omega
  have hdrop : (data.drop m).length = data.length - m := length_drop
  ext1 k
  rw [getElem?_overwrite (by rwa [length_append]), getElem?_append, getElem?_append,
    length_overwrite hfirst, getElem?_overwrite hfirst, htake,
    getElem?_overwrite (by rw [hdrop]; omega), hdrop, getElem?_take, getElem?_drop]
  by_cases hk : k < a.length
  · rw [if_pos hk, if_pos hk]
    by_cases hin : start ≤ k ∧ k < start + data.length
    · rw [if_pos hin, if_pos (by omega), if_pos (by omega)]
      congr 1
      omega
    · rw [if_neg hin, if_neg (by omega)]
  · rw [if_neg hk, if_neg hk]
    by_cases hin : start ≤ k ∧ k < start + data.length
    · rw [if_pos hin, if_pos (by omega)]
      congr 1
      omega
    · rw [if_neg hin, if_neg (by omega)]

end

theorem sum_map_set_add {M : Type} [AddCommMonoid M] {l : List α} (f : α → M) {i : Nat} {a : α} (b : α)
    (h : l[i]? = some a) : ((l.set i b).map f).sum + f a = (l.map f).sum + f b := by
  induction l generalizing i with
  | nil => cases h
  | cons c l ih =>
    cases i with
    | zero =>
      cases h
      rw [set_cons_zero, map_cons, sum_cons, map_cons, sum_cons]
      abel
    | succ i =>
      rw [set_cons_succ, map_cons, sum_cons, map_cons, sum_cons, add_assoc,
        @ih i h, add_assoc]

end BitTorrent.Segments
