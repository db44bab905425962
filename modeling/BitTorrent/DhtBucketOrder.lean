import BitTorrent.DhtTable

/-! The order in which the buckets are visited from a start index: one step to the right, the same
distance to the left, one step further to the right, and the rest of one side where the other has
ended. `turn` is the place of an index in this order over all integers; the next index is the one in
bounds with the next larger turn, so that the visits are sorted by turn and leave nothing out. -/

namespace BitTorrent.Dht

open Rust

def checkedAdd (a b : Nat) : Option Nat := if a + b ≤ usizeMax then some (a + b) else none

def checkedSub (a b : Nat) : Option Nat := if b ≤ a then some (a - b) else none

def indexIsInBounds (length : Nat) (checkedIndex : Option Nat) : Bool :=
  match checkedIndex with
  | some index => index < length
  | none => false

/-- The first of two candidates that is in bounds. -/
def firstInBounds (length : Nat) (preferred other : Option Nat) : Option Nat :=
  if indexIsInBounds length preferred then preferred
  else if indexIsInBounds length other then other
  else none

def nextBucketIndex (numBuckets startIndex currIndex : Nat) : Option Nat :=
  match compare currIndex startIndex with
  | .lt =>
    let offset := (startIndex - currIndex) + 1
    let rightIndex := checkedAdd startIndex offset
    let leftIndex := checkedSub currIndex 1
    firstInBounds numBuckets rightIndex leftIndex
  | .eq =>
    let rightIndex := checkedAdd startIndex 1
    let leftIndex := checkedSub startIndex 1
    firstInBounds numBuckets rightIndex leftIndex
  | .gt =>
    let offset := currIndex - startIndex
    let leftIndex := checkedSub startIndex offset
    let rightIndex := checkedAdd currIndex 1
    firstInBounds numBuckets leftIndex rightIndex

/-- The place of an index in the order of visits from `start`. -/
def turn (start i : Nat) : Nat := if start < i then 2 * (i - start) - 1 else 2 * (start - i)

variable {n start curr i j : Nat}

theorem turn_self : turn start start = 0 := by
  rw [turn, if_neg (lt_irrefl _), Nat.sub_self]

theorem turn_inj (h : turn start i = turn start j) : i = j := by
  unfold turn at h
  split_ifs at h <;> omega

theorem turn_le (start : Nat) (hi : i < n) : turn start i ≤ 2 * (n + start) := by
  unfold turn
  split_ifs <;> omega

/-! ### One step -/

section

variable (hn : n ≤ usizeMax)

include hn in
theorem indexIsInBounds_checkedAdd {a b : Nat} : indexIsInBounds n (checkedAdd a b) = decide (a + b < n) := by
  unfold checkedAdd
  by_cases h : a + b ≤ usizeMax
  · rw [if_pos h, indexIsInBounds]
  · rw [if_neg h, indexIsInBounds, eq_comm, decide_eq_false_iff_not]
    omega

theorem indexIsInBounds_checkedSub {a b : Nat} :
    indexIsInBounds n (checkedSub a b) = decide (b ≤ a ∧ a - b < n) := by
  unfold checkedSub
  by_cases h : b ≤ a
  · simp [h, indexIsInBounds]
  · simp [h, indexIsInBounds]

include hn in
/-- Right first on the left side and at the start, left first on the right side. -/
theorem nextBucketIndex_eq : nextBucketIndex n start curr = if curr ≤ start then
      if start + (start - curr + 1) < n then some (start + (start - curr + 1))
      else if 1 ≤ curr ∧ curr - 1 < n then some (curr - 1) else none
    else if curr - start ≤ start ∧ start - (curr - start) < n then some (start - (curr - start))
    else if curr + 1 < n then some (curr + 1) else none := by
  have hadd : ∀ {a b}, a + b < n → checkedAdd a b = some (a + b) := fun h =>
    if_pos (h.le.trans hn)
  have hsub : ∀ {a b}, b ≤ a ∧ a - b < n → checkedSub a b = some (a - b) := fun h => if_pos h.1
  unfold nextBucketIndex
  rcases Nat.lt_trichotomy curr start with hlt | rfl | hgt
  · rw [Nat.compare_eq_lt.mpr hlt, if_pos hlt.le]
    simp only [firstInBounds, indexIsInBounds_checkedAdd hn, indexIsInBounds_checkedSub, decide_eq_true_eq]
    split_ifs with h₁ h₂
    · exact hadd h₁
    · exact hsub h₂
    · rfl
  · rw [Nat.compare_eq_eq.mpr rfl, if_pos le_rfl, Nat.sub_self, Nat.zero_add]
    simp only [firstInBounds, indexIsInBounds_checkedAdd hn, indexIsInBounds_checkedSub, decide_eq_true_eq]
    split_ifs with h₁ h₂
    · exact hadd h₁
    · exact hsub h₂
    · rfl
  · rw [Nat.compare_eq_gt.mpr hgt, if_neg hgt.not_ge]
    simp only [firstInBounds, indexIsInBounds_checkedAdd hn, indexIsInBounds_checkedSub, decide_eq_true_eq]
    split_ifs with h₁ h₂
    · exact hsub h₁
    · exact hadd h₂
    · rfl

include hn in
theorem turn_lt_of_next (h : nextBucketIndex n start curr = some j) :
    turn start curr < turn start j ∧ j < n := by
  rw [nextBucketIndex_eq hn] at h
  unfold turn
  split_ifs at h <;> cases h <;> split_ifs <;> omega

include hn in
theorem turn_le_of_next (h : nextBucketIndex n start curr = some j) (hi : i < n)
    (hcurr : turn start curr < turn start i) : turn start j ≤ turn start i := by
  rw [nextBucketIndex_eq hn] at h
  unfold turn at hcurr ⊢
  split_ifs at h <;> cases h <;> split_ifs at hcurr ⊢ <;> omega

include hn in
theorem turn_le_of_next_none (hstart : start ≤ n) (h : nextBucketIndex n start curr = none)
    (hi : i < n) : turn start i ≤ turn start curr := by
  rw [nextBucketIndex_eq hn] at h
  unfold turn
  split_ifs at h <;> split_ifs <;> omega

end

/-! ### All steps -/

theorem maxBuckets_le : maxBuckets ≤ usizeMax := by decide

/-- The indices visited after `curr`. -/
def visitsFrom (start curr : Nat) : List Nat :=
  match _h : nextBucketIndex maxBuckets start curr with
  | some next => next :: visitsFrom start next
  | none => []
termination_by 2 * (maxBuckets + start) - turn start curr
decreasing_by
  obtain ⟨hlt, hbound⟩ := turn_lt_of_next maxBuckets_le _h
  have := turn_le start hbound
  omega

theorem visitsFrom_of_some (h : nextBucketIndex maxBuckets start curr = some j) :
    visitsFrom start curr = j :: visitsFrom start j := by
  rw [visitsFrom]
  split
  · rename_i next hnext
    rw [h, Option.some.injEq] at hnext
    rw [hnext]
  · rename_i hnext
    rw [h] at hnext
    cases hnext

theorem visitsFrom_of_none (h : nextBucketIndex maxBuckets start curr = none) :
    visitsFrom start curr = [] := by
  rw [visitsFrom]
  split
  · rename_i next hnext
    rw [h] at hnext
    cases hnext
  · rfl

theorem turn_lt_of_mem_visitsFrom (h : i ∈ visitsFrom start curr) : turn start curr < turn start i := by
  fun_induction visitsFrom start curr with
  | case1 curr next hnext ih =>
    have hlt := (turn_lt_of_next maxBuckets_le hnext).1
    rcases List.mem_cons.mp h with rfl | h
    · exact hlt
    · exact hlt.trans (ih h)
  | case2 curr hnext => cases h

theorem mem_visitsFrom (hstart : start ≤ maxBuckets) :
    i ∈ visitsFrom start curr ↔ i < maxBuckets ∧ turn start curr < turn start i := by
  fun_induction visitsFrom start curr with
  | case1 curr next hnext ih =>
    obtain ⟨hlt, hbound⟩ := turn_lt_of_next maxBuckets_le hnext
    rw [List.mem_cons, ih]
    constructor
    · rintro (rfl | ⟨hi, hturn⟩)
      · exact ⟨hbound, hlt⟩
      · exact ⟨hi, hlt.trans hturn⟩
    · rintro ⟨hi, hturn⟩
      rcases Nat.eq_or_lt_of_le (turn_le_of_next maxBuckets_le hnext hi hturn) with heq | hgt
      · exact Or.inl (turn_inj heq).symm
      · exact Or.inr ⟨hi, hgt⟩
  | case2 curr hnext =>
    simp only [List.not_mem_nil, false_iff, not_and, not_lt]
    exact fun hi => turn_le_of_next_none maxBuckets_le hstart hnext hi

theorem pairwise_visitsFrom : (visitsFrom start curr).Pairwise fun i j => turn start i < turn start j := by
  fun_induction visitsFrom start curr with
  | case1 curr next hnext ih =>
    exact List.pairwise_cons.mpr ⟨fun i hi => turn_lt_of_mem_visitsFrom hi, ih⟩
  | case2 curr hnext => exact List.Pairwise.nil

/-- All indices visited from a start index, which itself may be out of bounds. -/
def visits (start : Nat) : List Nat := start :: visitsFrom start start

theorem pairwise_visits (start : Nat) : (visits start).Pairwise fun i j => turn start i < turn start j :=
  List.pairwise_cons.mpr ⟨fun _ hi => turn_lt_of_mem_visitsFrom hi, pairwise_visitsFrom⟩

theorem mem_visits (hstart : start ≤ maxBuckets) : i ∈ visits start ↔ i = start ∨ i < maxBuckets := by
  rw [visits, List.mem_cons, mem_visitsFrom hstart, turn_self]
  constructor
  · exact fun h => h.imp_right And.left
  · rintro (rfl | hi)
    · exact Or.inl rfl
    · by_cases heq : i = start
      · exact Or.inl heq
      · refine Or.inr ⟨hi, Nat.pos_of_ne_zero fun hzero => heq ?_⟩
        exact turn_inj (hzero.trans turn_self.symm)

end BitTorrent.Dht
