import Mathlib.Tactic
import Mathlib.Data.List.Sort

/-! Ordered maps as their entries in key order, which is what iterating a `BTreeMap` yields. The
entries of a map are determined by their multiset, so any order of insertion gives the same map. -/

namespace BitTorrent.Rust.OrderedMap

open List

variable {κ α β : Type} [LinearOrder κ]

/-- The entries are in strictly increasing key order. -/
def Sorted (m : List (κ × α)) : Prop := m.Pairwise fun a b => a.1 < b.1

def insert (k : κ) (v : α) : List (κ × α) → List (κ × α)
  | [] => [(k, v)]
  | e :: m =>
    if k < e.1 then (k, v) :: e :: m
    else if e.1 < k then e :: insert k v m
    else (k, v) :: m

def lookup (m : List (κ × α)) (k : κ) : Option α := (m.find? (·.1 = k)).map Prod.snd

/-- The greatest key, `map.keys().last()`. -/
def lastKey (m : List (κ × α)) : Option κ := m.getLast?.map Prod.fst

variable {m : List (κ × α)} {k : κ} {v : α}

theorem insert_perm (hk : ∀ e ∈ m, e.1 ≠ k) : (insert k v m).Perm ((k, v) :: m) := by
  induction m with
  | nil => exact List.Perm.refl _
  | cons e m ih =>
    rw [insert]
    split
    · exact List.Perm.refl _
    · rename_i hlt
      have hne := hk e mem_cons_self
      rw [if_pos (lt_of_le_of_ne (not_lt.mp hlt) hne)]
      exact ((ih fun e' he' => hk e' (mem_cons_of_mem e he')).cons e).trans
        (List.Perm.swap _ _ _)

variable {e : κ × α}

theorem mem_insert (h : e ∈ insert k v m) : e = (k, v) ∨ e ∈ m := by
  induction m with
  | nil => exact Or.inl (mem_singleton.mp h)
  | cons e' m ih =>
    rw [insert] at h
    split at h
    · exact mem_cons.mp h
    · split at h
      · rcases mem_cons.mp h with h | h
        · exact Or.inr (mem_cons.mpr (Or.inl h))
        · exact (ih h).imp_right (mem_cons_of_mem e')
      · exact (mem_cons.mp h).imp_right (mem_cons_of_mem e')

theorem lookup_insert {k' : κ} : lookup (insert k v m) k' = if k' = k then some v else lookup m k' := by
  induction m with
  | nil =>
    by_cases hk : k' = k
    · simp [insert, lookup, hk]
    · simp [insert, lookup, hk, Ne.symm hk]
  | cons e m ih =>
    rw [lookup] at ih
    rw [insert, lookup]
    by_cases hk : k' = k
    · subst hk
      rw [if_pos rfl] at ih ⊢
      split_ifs with hlt hgt
      · simp
      · rw [find?_cons_of_neg (by simpa using hgt.ne), ih]
      · simp
    · rw [if_neg hk] at ih ⊢
      split_ifs with hlt hgt
      · rw [find?_cons_of_neg (by simpa using Ne.symm hk), lookup]
      · by_cases he : e.1 = k'
        · rw [find?_cons_of_pos (by simpa using he), lookup,
            find?_cons_of_pos (by simpa using he)]
        · rw [find?_cons_of_neg (by simpa using he), ih, lookup, lookup,
            find?_cons_of_neg (by simpa using he)]
      · have he : e.1 = k := le_antisymm (not_lt.mp hlt) (not_lt.mp hgt)
        rw [find?_cons_of_neg (by simpa using Ne.symm hk), lookup,
          find?_cons_of_neg (by rw [he]; simpa using Ne.symm hk)]

theorem mem_of_lookup (h : lookup m k = some v) : (k, v) ∈ m := by
  obtain ⟨⟨k', v'⟩, hfind, hv⟩ := Option.map_eq_some_iff.mp h
  have hkey : k' = k := by simpa using find?_some hfind
  cases hv
  rw [← hkey]
  exact mem_of_find?_eq_some hfind

theorem sorted_insert (hm : Sorted m) : Sorted (insert k v m) := by
  induction m with
  | nil => exact pairwise_singleton _ _
  | cons e m ih =>
    obtain ⟨hhead, htail⟩ := pairwise_cons.mp hm
    rw [insert]
    split
    · rename_i hlt
      refine pairwise_cons.mpr ⟨fun e' he' => ?_, hm⟩
      rcases mem_cons.mp he' with rfl | he'
      · exact hlt
      · exact hlt.trans (hhead e' he')
    · rename_i hle
      split
      · rename_i hlt
        refine pairwise_cons.mpr ⟨fun e' he' => ?_, ih htail⟩
        rcases mem_insert he' with rfl | he'
        · exact hlt
        · exact hhead e' he'
      · rename_i hge
        have heq : k = e.1 := le_antisymm (not_lt.mp hge) (not_lt.mp hle)
        refine pairwise_cons.mpr ⟨fun e' he' => ?_, htail⟩
        rw [heq]
        exact hhead e' he'

theorem sorted_map (f : α → β) : Sorted (m.map (Prod.map id f)) ↔ Sorted m := by
  rw [Sorted, pairwise_map]
  exact Iff.rfl

theorem Sorted.perm_eq {m' : List (κ × α)} (hm : Sorted m) (hm' : Sorted m') (h : m.Perm m') : m = m' :=
  h.eq_of_pairwise (fun _ _ _ _ hab hba => absurd hba hab.asymm) hm hm'

theorem Sorted.nodup_keys (h : Sorted m) : (m.map Prod.fst).Nodup :=
  pairwise_map.mpr (h.imp fun hlt => hlt.ne)

theorem Sorted.le_lastKey (hm : Sorted m) (hk : lastKey m = some k) (he : e ∈ m) : e.1 ≤ k := by
  obtain ⟨last, hlast, rfl⟩ := Option.map_eq_some_iff.mp hk
  obtain ⟨init, rfl⟩ := getLast?_eq_some_iff.mp hlast
  rcases mem_append.mp he with he | he
  · exact ((pairwise_append.mp hm).2.2 e he last (mem_singleton.mpr rfl)).le
  · rw [mem_singleton.mp he]

omit [LinearOrder κ] in
theorem exists_lastKey (hm : m ≠ []) : ∃ k, lastKey m = some k ∧ ∃ e ∈ m, e.1 = k := by
  refine ⟨(m.getLast hm).1, ?_, m.getLast hm, getLast_mem hm, rfl⟩
  rw [lastKey, getLast?_eq_some_getLast hm]
  rfl

end BitTorrent.Rust.OrderedMap
