import Mathlib.Tactic

/-! Merging intervals from the back. A list of intervals is sorted by where they start, and the last one
is joined with the one before it again and again until two neighbours cannot be joined. All intervals
become one if and only if each of them is linked to its neighbour; the union stays the same in any
case. -/

namespace BitTorrent.Intervals

open List

variable {α : Type}

/-- The merge, on the list with the last interval first. -/
def collapse (join : α → α → Option α) (last : α) : List α → List α
  | [] => [last]
  | prev :: rest =>
    match join prev last with
    | some merged => collapse join merged rest
    | none => last :: prev :: rest

/-- The point lies in one of the intervals. -/
def Covered (start stop : α → Nat) (l : List α) (x : Nat) : Prop := ∃ a ∈ l, start a ≤ x ∧ x < stop a

theorem covered_cons {start stop : α → Nat} {l : List α} {a : α} {x : Nat} :
    Covered start stop (a :: l) x ↔ (start a ≤ x ∧ x < stop a) ∨ Covered start stop l x := by
  simp [Covered]

theorem covered_append {start stop : α → Nat} {l l' : List α} {x : Nat} :
    Covered start stop (l ++ l') x ↔ Covered start stop l x ∨ Covered start stop l' x := by
  simp only [Covered, mem_append, or_and_right, exists_or]

/-- What `join` does to an interval and one that does not start before it. -/
structure Joins (start stop : α → Nat) (linked : α → α → Prop) (join : α → α → Option α) : Prop where
  isSome_iff {a b : α} : start a ≤ start b → ((join a b).isSome ↔ linked a b)
  start_eq {a b m : α} : start a ≤ start b → join a b = some m → start m = start a
  stop_eq {a b m : α} : start a ≤ start b → join a b = some m → stop m = max (stop a) (stop b)
  le_stop {a b : α} : linked a b → start b ≤ stop a
  linked_left {a b c m : α} : start a ≤ start b → join a b = some m → (linked c m ↔ linked c a)

section

variable {start stop : α → Nat} {linked : α → α → Prop} {join : α → α → Option α} {last : α}
  {l : List α}

theorem collapse_ne_nil : collapse join last l ≠ [] := by
  induction l generalizing last with
  | nil => exact cons_ne_nil _ _
  | cons prev rest ih =>
    rw [collapse]
    split
    · exact ih
    · exact cons_ne_nil _ _

theorem length_collapse_le : (collapse join last l).length ≤ l.length + 1 := by
  induction l generalizing last with
  | nil => exact le_rfl
  | cons prev rest ih =>
    rw [collapse]
    split
    · exact ih.trans (Nat.le_succ _)
    · exact le_rfl

theorem forall_mem_collapse {p : α → Prop} (hjoin : ∀ a b m, join a b = some m → p a → p b → p m)
    (h : ∀ a ∈ last :: l, p a) : ∀ a ∈ collapse join last l, p a := by
  induction l generalizing last with
  | nil => exact h
  | cons prev rest ih =>
    rw [collapse]
    split
    · rename_i merged hmerged
      obtain ⟨hlast, hprev, hrest⟩ : p last ∧ p prev ∧ ∀ a ∈ rest, p a := by
        simpa only [forall_mem_cons] using h
      exact ih (forall_mem_cons.mpr ⟨hjoin prev last merged hmerged hprev hlast, hrest⟩)
    · exact h

theorem Joins.sorted (hjoins : Joins start stop linked join) {prev merged : α} {rest : List α}
    (hsorted : (last :: prev :: rest).Pairwise fun b a => start a ≤ start b)
    (hmerged : join prev last = some merged) : (merged :: rest).Pairwise fun b a => start a ≤ start b := by
  obtain ⟨hlast, hprev⟩ := pairwise_cons.mp hsorted
  obtain ⟨hprev, hrest⟩ := pairwise_cons.mp hprev
  refine pairwise_cons.mpr ⟨fun a ha => ?_, hrest⟩
  rw [hjoins.start_eq (hlast prev mem_cons_self) hmerged]
  exact hprev a ha

theorem Joins.covered_collapse (hjoins : Joins start stop linked join)
    (hsorted : (last :: l).Pairwise fun b a => start a ≤ start b) (x : Nat) :
    Covered start stop (collapse join last l) x ↔ Covered start stop (last :: l) x := by
  induction l generalizing last with
  | nil => exact Iff.rfl
  | cons prev rest ih =>
    rw [collapse]
    split
    · rename_i merged hmerged
      have hle : start prev ≤ start last := rel_of_pairwise_cons hsorted mem_cons_self
      have hlinked := (hjoins.isSome_iff hle).mp (by rw [hmerged]; rfl)
      have hreach := hjoins.le_stop hlinked
      have hstart := hjoins.start_eq hle hmerged
      have hstop := hjoins.stop_eq hle hmerged
      rw [ih (hjoins.sorted hsorted hmerged)]
      simp only [covered_cons, hstart, hstop, ← or_assoc]
      refine or_congr_left ?_
      omega
    · exact Iff.rfl

theorem Joins.length_collapse_eq_one_iff (hjoins : Joins start stop linked join)
    (hsorted : (last :: l).Pairwise fun b a => start a ≤ start b) :
    (collapse join last l).length = 1 ↔ (last :: l).IsChain fun b a => linked a b := by
  induction l generalizing last with
  | nil => simp [collapse]
  | cons prev rest ih =>
    have hle : start prev ≤ start last := rel_of_pairwise_cons hsorted mem_cons_self
    rw [collapse, isChain_cons_cons, ← hjoins.isSome_iff hle]
    split
    · rename_i merged hmerged
      rw [ih (hjoins.sorted hsorted hmerged), hmerged, Option.isSome_some]
      -- the joined interval stands to the left as the earlier of the two did
      cases rest with
      | nil => simp
      | cons next rest => simp only [isChain_cons_cons, hjoins.linked_left hle hmerged, true_and]
    · rename_i hnone
      rw [hnone]
      simp

/-- Intervals one behind the other stay so. -/
theorem Joins.ordered_collapse (hjoins : Joins start stop linked join)
    (hsorted : (last :: l).Pairwise fun b a => start a ≤ start b)
    (hordered : (last :: l).Pairwise fun b a => stop a ≤ start b) :
    (collapse join last l).Pairwise fun b a => stop a ≤ start b := by
  induction l generalizing last with
  | nil => exact hordered
  | cons prev rest ih =>
    rw [collapse]
    split
    · rename_i merged hmerged
      have hle : start prev ≤ start last := rel_of_pairwise_cons hsorted mem_cons_self
      obtain ⟨hprev, hrest⟩ := pairwise_cons.mp (pairwise_cons.mp hordered).2
      refine ih (hjoins.sorted hsorted hmerged) (pairwise_cons.mpr ⟨?_, hrest⟩)
      rw [hjoins.start_eq hle hmerged]
      exact hprev
    · exact hordered

end

/-! ### Intervals that follow each other -/

section

variable {start stop : α → Nat} {size : Nat} {l : List α}

/-- Intervals one behind the other that leave no point of a range uncovered touch their neighbours. -/
theorem isChain_of_covered_from {low : Nat} (hordered : l.Pairwise fun a b => stop a ≤ start b)
    (hproper : ∀ a ∈ l, start a < stop a) (hsize : ∀ a ∈ l, low ≤ start a ∧ stop a ≤ size)
    (hcovered : ∀ x, low ≤ x → x < size → Covered start stop l x) :
    l.IsChain fun a b => start b ≤ stop a := by
  induction l generalizing low with
  | nil => exact .nil
  | cons a l ih =>
    obtain ⟨ha, hordered⟩ := pairwise_cons.mp hordered
    obtain ⟨haproper, hproper⟩ := forall_mem_cons.mp hproper
    obtain ⟨hasize, hsize⟩ := forall_mem_cons.mp hsize
    have hrest := @ih (stop a) hordered hproper (fun b hb => ⟨ha b hb, (hsize b hb).2⟩)
      fun x hlow hx => (covered_cons.mp (hcovered x (by omega) hx)).resolve_left (by omega)
    cases l with
    | nil => exact .singleton a
    | cons b l =>
      refine isChain_cons_cons.mpr ⟨?_, hrest⟩
      by_contra hgap
      -- the end of `a` would lie in a later interval, and all of them start behind it
      have hb := hproper b mem_cons_self
      have hbsize := hsize b mem_cons_self
      have hcover := hcovered (stop a) (by omega) (by omega)
      rcases covered_cons.mp hcover with hself | ⟨c, hc, hstart, -⟩
      · omega
      · rcases mem_cons.mp hc with rfl | hc
        · omega
        · have hbc := rel_of_pairwise_cons hordered hc
          omega

/-- Disjoint intervals in the order of their starts lie one behind the other. -/
theorem ordered_of_sorted (hsorted : l.Pairwise fun a b => start a ≤ start b)
    (hdisjoint : l.Pairwise fun a b => stop a ≤ start b ∨ stop b ≤ start a)
    (hproper : ∀ a ∈ l, start a < stop a) : l.Pairwise fun a b => stop a ≤ start b := by
  refine (hsorted.and hdisjoint).imp_of_mem fun {a b} ha hb h => ?_
  have := hproper b hb
  omega

/-- Intervals without a common point lie one behind the other. -/
theorem apart_of_not_covered {a : α} {low high : Nat} (hproper : low < high)
    (hcommon : ∀ x, low ≤ x → x < high → Covered start stop l x → False) (ha : a ∈ l)
    (haproper : start a < stop a) : stop a ≤ low ∨ high ≤ start a := by
  by_contra hoverlap
  exact hcommon (max low (start a)) (by omega) (by omega) ⟨a, ha, by omega, by omega⟩

/-- Disjoint intervals that cover a range touch their neighbours. -/
theorem isChain_of_covered (hsorted : l.Pairwise fun a b => start a ≤ start b)
    (hdisjoint : l.Pairwise fun a b => stop a ≤ start b ∨ stop b ≤ start a)
    (hproper : ∀ a ∈ l, start a < stop a) (hsize : ∀ a ∈ l, stop a ≤ size)
    (hcovered : ∀ x < size, Covered start stop l x) : l.IsChain fun a b => start b ≤ stop a := by
  exact @isChain_of_covered_from α start stop size l 0 (ordered_of_sorted hsorted hdisjoint hproper)
    hproper
    (fun a ha => ⟨Nat.zero_le _, hsize a ha⟩) fun x _ hx => hcovered x hx

end

end BitTorrent.Intervals
