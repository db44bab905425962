import Mathlib.Tactic

/-! Binary search in a sorted slice, as `slice::binary_search_by` does it. The loop halves the part of
the slice that is left and never stops early, so among several equal elements it is the layout of the
slice that decides which one is found. -/

namespace BitTorrent.Rust

variable {α : Type}

/-- The loop over the part of length `size` that starts at `base`. -/
def searchFrom (cmp : α → Ordering) (l : List α) (size base : Nat) (hsize : 0 < size)
    (hfits : base + size ≤ l.length) : Fin l.length :=
  if h : 1 < size then
    let half := size / 2
    let mid : Fin l.length := ⟨base + half, by omega⟩
    if cmp (l.get mid) = .gt then searchFrom cmp l (size - half) base (by omega) (by omega)
    else searchFrom cmp l (size - half) mid (by omega) (by simp only [mid]; omega)
  else ⟨base, by omega⟩
termination_by size

/-- Where an element that compares equal is, or else where it could be inserted. -/
def binarySearchBy (cmp : α → Ordering) (l : List α) :
    Except (Fin (l.length + 1)) (Fin l.length) :=
  if h : 0 < l.length then
    let base := searchFrom cmp l l.length 0 h (Nat.zero_add _).le
    match cmp (l.get base) with
    | .eq => .ok base
    | .lt => .error base.succ
    | .gt => .error base.castSucc
  else .error 0

/-! ### What the search finds -/

/-- Elements that compare less come first and those that compare greater come last. -/
def Partitioned (cmp : α → Ordering) (l : List α) : Prop :=
  l.Pairwise fun a b => (cmp b = .lt → cmp a = .lt) ∧ (cmp a = .gt → cmp b = .gt)

section

variable {cmp : α → Ordering} {l : List α}

theorem Partitioned.lt_of_lt (h : Partitioned cmp l) {i j : Fin l.length} (hij : i ≤ j)
    (hj : cmp (l.get j) = .lt) : cmp (l.get i) = .lt := by
  rcases hij.lt_or_eq with hlt | rfl
  · exact (List.pairwise_iff_get.mp h i j hlt).1 hj
  · exact hj

theorem Partitioned.gt_of_gt (h : Partitioned cmp l) {i j : Fin l.length} (hij : i ≤ j)
    (hi : cmp (l.get i) = .gt) : cmp (l.get j) = .gt := by
  rcases hij.lt_or_eq with hlt | rfl
  · exact (List.pairwise_iff_get.mp h i j hlt).2 hi
  · exact hi

/-- The loop keeps what is behind its part greater, and its first element not greater unless it is the
first of all. -/
theorem searchFrom_spec (h : Partitioned cmp l) {size base : Nat} (hsize : 0 < size)
    (hfits : base + size ≤ l.length) (hbehind : ∀ j : Fin l.length, base + size ≤ j → cmp (l.get j) = .gt)
    (hbase : base = 0 ∨ cmp (l.get ⟨base, by omega⟩) ≠ .gt) :
    (∀ j : Fin l.length, searchFrom cmp l size base hsize hfits < j → cmp (l.get j) = .gt) ∧
      ((searchFrom cmp l size base hsize hfits).val = 0 ∨
        cmp (l.get (searchFrom cmp l size base hsize hfits)) ≠ .gt) := by
  induction size using Nat.strongRecOn generalizing base with
  | ind size ih =>
    rw [searchFrom]
    split
    · rename_i hone
      simp only
      split
      · rename_i hgt
        apply ih (size - size / 2) (by omega) (by omega) (by omega) ?_ hbase
        intro j hj
        exact h.gt_of_gt (Fin.mk_le_of_le_val (by omega)) hgt
      · rename_i hgt
        apply ih (size - size / 2) (by omega) (by omega) (by omega) ?_ (Or.inr hgt)
        intro j hj
        exact hbehind j (by omega)
    · rename_i hone
      refine ⟨fun j hj => hbehind j ?_, hbase⟩
      have hj : base < j.val := hj
      omega

theorem binarySearchBy_ok {i : Fin l.length} (h : binarySearchBy cmp l = .ok i) : cmp (l.get i) = .eq := by
  unfold binarySearchBy at h
  split at h
  · simp only at h
    split at h
    · rename_i heq
      cases h
      exact heq
    · cases h
    · cases h
  · cases h

theorem binarySearchBy_error (h : Partitioned cmp l) {i : Fin (l.length + 1)}
    (hi : binarySearchBy cmp l = .error i) (j : Fin l.length) :
    (j.val < i.val → cmp (l.get j) = .lt) ∧ (i.val ≤ j.val → cmp (l.get j) = .gt) := by
  unfold binarySearchBy at hi
  split at hi
  · rename_i hpos
    obtain ⟨hbehind, hbase⟩ := searchFrom_spec h hpos (Nat.zero_add _).le
      (fun j hj => absurd j.isLt (by omega)) (Or.inl rfl)
    simp only at hi
    split at hi
    · cases hi
    · rename_i hlt
      cases hi
      refine ⟨fun hj => h.lt_of_lt (Fin.le_def.mpr ?_) hlt, fun hj => hbehind j (Fin.lt_def.mpr ?_)⟩
      · rw [Fin.val_succ] at hj
        omega
      · rw [Fin.val_succ] at hj
        omega
    · rename_i hgt
      cases hi
      have hzero := hbase.resolve_right fun hne => hne hgt
      refine ⟨fun hj => ?_, fun hj => h.gt_of_gt (Fin.le_def.mpr hj) hgt⟩
      rw [Fin.val_castSucc, hzero] at hj
      exact absurd hj (Nat.not_lt_zero _)
  · rename_i hempty
    exact absurd j.isLt (by omega)

end

end BitTorrent.Rust
