import Mathlib.Tactic
import Mathlib.Data.List.Defs

/-! Cutting a list into chunks of one length, of which the last may be shorter. What is known so far of a
list is enough for its whole chunks; only what is left over behind them depends on the rest. -/

namespace BitTorrent.Chunks

open List Nat

variable {α : Type} {n : Nat}

theorem go_eq (l : List α) (chunk : Array α) (done : Array (List α)) :
    toChunks.go n l chunk done = done.toList ++ toChunks.go n l chunk #[] := by
  induction l generalizing chunk done with
  | nil => simp [toChunks.go]
  | cons x l ih =>
    rw [toChunks.go, toChunks.go]
    split
    · rw [ih, ih _ (Array.push #[] chunk.toList)]
      simp
    · exact ih _ _

theorem toChunks_cons (hn : 0 < n) (x : α) (l : List α) : (x :: l).toChunks n = toChunks.go n l #[x] #[] := by
  cases n with
  | zero => exact absurd hn (lt_irrefl 0)
  | succ n => rfl

variable {c l : List α}

theorem go_append (hn : 0 < n) {chunk : Array α} (h : chunk.size + c.length = n) :
    toChunks.go n (c ++ l) chunk #[] = (chunk.toList ++ c) :: l.toChunks n := by
  induction c generalizing chunk with
  | nil =>
    rw [length_nil, add_zero] at h
    cases l with
    | nil => simp [toChunks.go, toChunks]
    | cons x l =>
      rw [nil_append, toChunks.go, if_pos (beq_iff_eq.mpr h), go_eq, toChunks_cons hn]
      simp
  | cons x c ih =>
    rw [length_cons] at h
    have hne : ¬ (chunk.size == n) = true := by
      rw [beq_iff_eq]
      omega
    rw [cons_append, toChunks.go, if_neg hne, ih (by rw [Array.size_push]; omega)]
    simp

theorem toChunks_append (hn : 0 < n) (l : List α) (h : c.length = n) :
    (c ++ l).toChunks n = c :: l.toChunks n := by
  cases c with
  | nil =>
    rw [length_nil] at h
    omega
  | cons x c =>
    rw [cons_append, toChunks_cons hn, go_append hn]
    · simp
    · rw [length_cons] at h
      simp only [size_toArray, length_cons, length_nil]
      omega

theorem toChunks_of_lt (h : l.length < n) : l.toChunks n = if l = [] then [] else [l] := by
  cases l with
  | nil => rfl
  | cons x l =>
    have hgo : ∀ (l : List α) (chunk : Array α), chunk.size + l.length < n →
        toChunks.go n l chunk #[] = [chunk.toList ++ l] := by
      intro l
      induction l with
      | nil =>
        intro chunk _
        simp [toChunks.go]
      | cons y l ih =>
        intro chunk hlt
        rw [length_cons] at hlt
        have hne : ¬ (chunk.size == n) = true := by
          rw [beq_iff_eq]
          omega
        rw [toChunks.go, if_neg hne, ih _ (by rw [Array.size_push]; omega)]
        simp
    rw [length_cons] at h
    rw [toChunks_cons (by omega), if_neg (cons_ne_nil x l), hgo l #[x] (by simpa using by omega)]
    rfl

/-- The chunks of the full length. -/
def wholes (n : Nat) (l : List α) : List (List α) := (l.toChunks n).filter fun c => c.length = n

def leftover (n : Nat) (l : List α) : List α := l.drop (n * (l.length / n))

theorem wholes_append (hn : 0 < n) (l : List α) (h : c.length = n) : wholes n (c ++ l) = c :: wholes n l := by
  rw [wholes, toChunks_append hn l h, filter_cons_of_pos (by simpa using h), wholes]

theorem leftover_append (hn : 0 < n) (l : List α) (h : c.length = n) :
    leftover n (c ++ l) = leftover n l := by
  have hdiv : (c.length + l.length) / n = l.length / n + 1 := by
    rw [h, add_comm, add_div_right _ hn]
  rw [leftover, length_append, hdiv, mul_add, mul_one, add_comm, ← drop_drop,
    ← h, drop_left, h, leftover]

theorem wholes_of_lt (h : l.length < n) : wholes n l = [] := by
  rw [wholes, toChunks_of_lt h]
  split
  · rfl
  · rw [filter_cons_of_neg (by simpa using h.ne), filter_nil]

theorem leftover_of_lt (h : l.length < n) : leftover n l = l := by
  rw [leftover, div_eq_of_lt h, mul_zero, drop_zero]

theorem chunk_induction (hn : 0 < n) {motive : List α → Prop} (short : ∀ l, l.length < n → motive l)
    (cut : ∀ c l, c.length = n → motive l → motive (c ++ l)) (l : List α) : motive l := by
  induction hlen : l.length using Nat.strong_induction_on generalizing l with
  | _ k ih =>
    by_cases hlt : l.length < n
    · exact short l hlt
    · rw [← take_append_drop n l]
      have htake : (l.take n).length = n := by
        rw [length_take]
        omega
      refine cut _ _ htake (ih (l.drop n).length ?_ _ rfl)
      rw [length_drop]
      omega

theorem length_leftover_lt (hn : 0 < n) (l : List α) : (leftover n l).length < n := by
  rw [leftover, length_drop]
  have := mod_lt l.length hn
  have := div_add_mod l.length n
  omega

theorem toChunks_append_eq (hn : 0 < n) (l r : List α) :
    (l ++ r).toChunks n = wholes n l ++ (leftover n l ++ r).toChunks n := by
  induction l using chunk_induction hn with
  | short l h => rw [wholes_of_lt h, leftover_of_lt h, nil_append]
  | cut c l hc ih =>
    rw [wholes_append hn l hc, leftover_append hn l hc, append_assoc, toChunks_append hn _ hc, ih,
      cons_append]

end BitTorrent.Chunks
