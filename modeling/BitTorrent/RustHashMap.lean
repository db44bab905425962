import BitTorrent.RustRun
import Mathlib.Data.List.AList

/-! Hash maps. The order in which a `HashMap` is iterated is unspecified: a map is a list of entries
with distinct keys, and an iteration whose order matters has it as a parameter. -/

namespace BitTorrent.Rust

open List

abbrev HashMap (κ α : Type) := AList fun _ : κ => α

/-- An order of iteration: some arrangement of the keys. -/
structure Arrangement (κ : Type) where
  arrange : List κ → List κ
  perm : ∀ l, (arrange l).Perm l

/-- The order in which the entries are listed. -/
def Arrangement.listed (κ : Type) : Arrangement κ := ⟨id, fun _ => .refl _⟩

namespace HashMap

variable {κ α : Type} [DecidableEq κ] {m : HashMap κ α} {k k' : κ}

theorem lookup_insert_eq {v : α} : (m.insert k v).lookup k' = if k' = k then some v else m.lookup k' := by
  by_cases h : k' = k
  · rw [if_pos h, h, AList.lookup_insert]
  · rw [if_neg h, AList.lookup_insert_ne h]

theorem lookup_erase_eq : (m.erase k).lookup k' = if k' = k then none else m.lookup k' := by
  by_cases h : k' = k
  · rw [if_pos h, h, AList.lookup_erase]
  · rw [if_neg h, AList.lookup_erase_ne h]

/-- The first entry of an iteration that satisfies `p`. An iteration comes to the keys in `order` first,
so every order of the entries is that of some iteration. -/
def find (order : List κ) (p : κ → α → Bool) (m : HashMap κ α) : Option (κ × α) :=
  (order ++ m.keys).findSome? fun k =>
    (m.lookup k).bind fun v => if p k v then some (k, v) else none

theorem find_eq_some {order : List κ} {p : κ → α → Bool} {v : α} (h : m.find order p = some (k, v)) :
    m.lookup k = some v ∧ p k v = true := by
  obtain ⟨k', -, hk'⟩ := exists_of_findSome?_eq_some h
  obtain ⟨v', hlookup, hv'⟩ := Option.bind_eq_some_iff.mp hk'
  split_ifs at hv' with hp
  cases hv'
  exact ⟨hlookup, hp⟩

/-- The value of a key is replaced, if there is one. -/
def updateAt {ε : Type} (f : κ → α → Run ε α) (m : HashMap κ α) (k : κ) : Run ε (HashMap κ α) :=
  match m.lookup k with
  | some v => do .ok (m.insert k (← f k v))
  | none => .ok m

/-- All values are replaced. -/
def updateAll {ε : Type} (f : κ → α → Run ε α) (m : HashMap κ α) : Run ε (HashMap κ α) :=
  m.keys.foldlM (updateAt f) m

section

variable {ε : Type} {f : κ → α → Run ε α} {m' : HashMap κ α}

/-- The value of one key before and after it was replaced. -/
def Updated (f : κ → α → Run ε α) (m m' : HashMap κ α) (k : κ) : Prop :=
  (m.lookup k = none ∧ m'.lookup k = none) ∨
    ∃ v v', m.lookup k = some v ∧ f k v = .ok v' ∧ m'.lookup k = some v'

theorem updateAt_eq_ok (h : m.updateAt f k = .ok m') :
    Updated f m m' k ∧ ∀ k', k' ≠ k → m'.lookup k' = m.lookup k' := by
  unfold updateAt at h
  split at h
  · rename_i v hv
    obtain ⟨v', hv', hinsert⟩ := bind_eq_ok.mp h
    cases hinsert
    refine ⟨.inr ⟨v, v', hv, hv', AList.lookup_insert m⟩, fun k' hne => ?_⟩
    exact AList.lookup_insert_ne hne
  · rename_i hv
    cases h
    exact ⟨.inl ⟨hv, hv⟩, fun k' _ => rfl⟩

theorem foldlM_updateAt_eq_ok {keys : List κ} (hkeys : keys.Nodup) (h : keys.foldlM (updateAt f) m = .ok m') :
    (∀ k ∈ keys, Updated f m m' k) ∧ ∀ k ∉ keys, m'.lookup k = m.lookup k := by
  induction keys generalizing m with
  | nil =>
    cases h
    exact ⟨nofun, fun k _ => rfl⟩
  | cons key keys ih =>
    obtain ⟨mid, hmid, hrest⟩ := bind_eq_ok.mp h
    obtain ⟨hkey, hnodup⟩ := nodup_cons.mp hkeys
    obtain ⟨hupdated, hother⟩ := updateAt_eq_ok hmid
    obtain ⟨hin, hout⟩ := ih hnodup hrest
    constructor
    · intro k hk
      rcases mem_cons.mp hk with rfl | hk
      · have hlast := hout k hkey
        rcases hupdated with ⟨hnone, hnone'⟩ | ⟨v, v', hv, hv', hlookup⟩
        · exact .inl ⟨hnone, hlast.trans hnone'⟩
        · exact .inr ⟨v, v', hv, hv', hlast.trans hlookup⟩
      · have hne : k ≠ key := fun heq => hkey (heq ▸ hk)
        have hsame := hother k hne
        rcases hin k hk with ⟨hnone, hnone'⟩ | ⟨v, v', hv, hv', hlookup⟩
        · exact .inl ⟨hsame ▸ hnone, hnone'⟩
        · exact .inr ⟨v, v', hsame ▸ hv, hv', hlookup⟩
    · intro k hk
      obtain ⟨hne, hk⟩ := not_or.mp (fun hmem => hk (mem_cons.mpr hmem))
      exact (hout k hk).trans (hother k hne)

theorem updated_of_updateAll (h : m.updateAll f = .ok m') (k : κ) : Updated f m m' k := by
  obtain ⟨hin, hout⟩ := foldlM_updateAt_eq_ok m.keys_nodup h
  by_cases hk : k ∈ m.keys
  · exact hin k hk
  · have hnone : m.lookup k = none := AList.lookup_eq_none.mpr fun hmem => hk (AList.mem_keys.mp hmem)
    exact .inl ⟨hnone, (hout k hk).trans hnone⟩

theorem exists_updateAll (hf : ∀ k v, ∃ v', f k v = .ok v') (m : HashMap κ α) :
    ∃ m', m.updateAll f = .ok m' := by
  have hkey : ∀ (m : HashMap κ α) (key : κ), ∃ m', m.updateAt f key = .ok m' := by
    intro m key
    unfold updateAt
    split
    · rename_i v _
      obtain ⟨v', hv'⟩ := hf key v
      exact ⟨m.insert key v', by rw [hv']; rfl⟩
    · exact ⟨m, rfl⟩
  have hkeys : ∀ (keys : List κ) (m : HashMap κ α), ∃ m', keys.foldlM (updateAt f) m = .ok m' := by
    intro keys
    induction keys with
    | nil => exact fun m => ⟨m, rfl⟩
    | cons key keys ih =>
      intro m
      obtain ⟨mid, hmid⟩ := hkey m key
      obtain ⟨m', hm'⟩ := ih mid
      exact ⟨m', bind_eq_ok.mpr ⟨mid, hmid, hm'⟩⟩
  exact hkeys m.keys m

end

/-- The sum over all values. -/
def total (f : α → Nat) (m : HashMap κ α) : Nat := (m.entries.map fun e => f e.2).sum

theorem sum_kerase (f : α → Nat) (k : κ) (l : List (Sigma fun _ : κ => α)) :
    ((l.kerase k).map fun e => f e.2).sum + (l.dlookup k).elim 0 f = (l.map fun e => f e.2).sum := by
  induction l with
  | nil => rfl
  | cons e l ih =>
    obtain ⟨k', v⟩ := e
    by_cases h : k = k'
    · subst h
      have herase : kerase k (⟨k, v⟩ :: l) = l := kerase_cons_eq rfl
      rw [herase, dlookup_cons_eq, map_cons, sum_cons, Nat.add_comm]
      rfl
    · rw [kerase_cons_ne h, dlookup_cons_ne l ⟨k', v⟩ h, map_cons, sum_cons,
        map_cons, sum_cons, Nat.add_assoc, ih]

theorem total_erase (f : α → Nat) : total f (m.erase k) + (m.lookup k).elim 0 f = total f m :=
  sum_kerase f k m.entries

theorem length_erase_lt {v : α} (h : m.lookup k = some v) :
    (m.erase k).entries.length < m.entries.length := by
  have hlength : ∀ m : HashMap κ α, total (fun _ => 1) m = m.entries.length := fun m => by
    rw [total, map_const', sum_replicate, smul_eq_mul, Nat.mul_one]
  have herase := total_erase (m := m) (k := k) fun _ => 1
  rw [hlength, hlength, h, Option.elim_some] at herase
  omega

end HashMap

end BitTorrent.Rust
