import Mathlib.Algebra.Order.Group.Defs
import Mathlib.Data.Set.Card
import Mathlib.Data.List.Basic

/-! Maps whose entries expire. Such a map remembers when each key was last stamped, and a key is live
for less than a lifetime after that. A queue of stamped keys in the order of their stamps is enough to
hold the live part of the map: expired entries can only be at its front, and a key that is stamped
anew goes to its back. -/

namespace BitTorrent.ExpiringMap

open List

variable {κ T : Type*} [AddCommGroup T] [LinearOrder T] [IsOrderedAddMonoid T]

/-- The key was stamped less than a lifetime ago. -/
def Live (life : T) (m : κ → Option T) (now : T) (k : κ) : Prop :=
  ∃ t, m k = some t ∧ now - t < life

/-- The queue holds what is live in the map, and nothing the map does not say. -/
structure Holds (life : T) (q : List (κ × T)) (m : κ → Option T) (now : T) : Prop where
  ordered : q.Pairwise fun a b => a.2 ≤ b.2
  nodup : (q.map Prod.fst).Nodup
  sound : ∀ e ∈ q, m e.1 = some e.2 ∧ e.2 ≤ now
  complete : ∀ k t, m k = some t → now - t < life → (k, t) ∈ q

def expired (life now : T) (e : κ × T) : Bool := life ≤ now - e.2

def expire (life now : T) (q : List (κ × T)) : List (κ × T) := q.dropWhile (expired life now)

variable {life now now' : T} {q : List (κ × T)} {m : κ → Option T}

omit [IsOrderedAddMonoid T] in
theorem expired_iff {e : κ × T} : expired life now e = true ↔ life ≤ now - e.2 := decide_eq_true_iff

omit [IsOrderedAddMonoid T] in
theorem holds_nil : Holds life [] (fun _ : κ => none) now :=
  ⟨.nil, .nil, fun _ h => (by cases h), fun _ _ h => (by cases h)⟩

theorem mem_expire (hq : q.Pairwise fun a b => a.2 ≤ b.2) {e : κ × T} :
    e ∈ expire life now q ↔ e ∈ q ∧ now - e.2 < life := by
  rw [expire]
  induction q with
  | nil => simp
  | cons a q ih =>
    obtain ⟨hhead, htail⟩ := pairwise_cons.mp hq
    rw [dropWhile_cons]
    by_cases ha : life ≤ now - a.2
    · rw [if_pos (expired_iff.mpr ha), ih htail, mem_cons]
      constructor
      · exact fun h => ⟨Or.inr h.1, h.2⟩
      · rintro ⟨rfl | he, hlive⟩
        · exact absurd ha (not_le.mpr hlive)
        · exact ⟨he, hlive⟩
    · rw [if_neg (mt expired_iff.mp ha)]
      refine ⟨fun he => ⟨he, ?_⟩, fun h => h.1⟩
      rcases mem_cons.mp he with rfl | he
      · exact not_le.mp ha
      · exact lt_of_le_of_lt (sub_le_sub_left (hhead e he) now) (not_le.mp ha)

namespace Holds

theorem expire (h : Holds life q m now) (hle : now ≤ now') :
    Holds life (ExpiringMap.expire life now' q) m now' := by
  have hsub : (ExpiringMap.expire life now' q).Sublist q := dropWhile_sublist _
  refine ⟨h.ordered.sublist hsub, h.nodup.sublist (hsub.map _), fun e he => ?_, fun k t hk hlive => ?_⟩
  · obtain ⟨hm, ht⟩ := h.sound e (hsub.subset he)
    exact ⟨hm, ht.trans hle⟩
  · rw [mem_expire h.ordered]
    exact ⟨h.complete k t hk (lt_of_le_of_lt (sub_le_sub_right hle t) hlive), hlive⟩

theorem mem_keys_expire (h : Holds life q m now) (hle : now ≤ now') {k : κ} :
    k ∈ (ExpiringMap.expire life now' q).map Prod.fst ↔ Live life m now' k := by
  rw [mem_map]
  constructor
  · rintro ⟨e, he, rfl⟩
    obtain ⟨hmem, hlive⟩ := (mem_expire h.ordered).mp he
    exact ⟨e.2, (h.sound e hmem).1, hlive⟩
  · rintro ⟨t, hk, hlive⟩
    exact ⟨(k, t), (h.expire hle).complete k t hk hlive, rfl⟩

theorem encard_live (h : Holds life q m now) (hle : now ≤ now') :
    {k | Live life m now' k}.encard = (ExpiringMap.expire life now' q).length := by
  classical
  have hset : {k | Live life m now' k} =
      ((ExpiringMap.expire life now' q).map Prod.fst).toFinset := by
    ext k
    change Live life m now' k ↔ _
    rw [← h.mem_keys_expire hle, Finset.mem_coe, mem_toFinset]
  rw [hset, Set.encard_coe_eq_coe_finsetCard, toFinset_card_of_nodup (h.expire hle).nodup,
    length_map]

variable [DecidableEq κ]

omit [IsOrderedAddMonoid T] in
theorem stamp (h : Holds life q m now) (k : κ) :
    Holds life (q.filter (fun e => e.1 ≠ k) ++ [(k, now)]) (Function.update m k (some now)) now := by
  have hsub : (q.filter fun e => e.1 ≠ k).Sublist q := filter_sublist
  refine ⟨?_, ?_, fun e he => ?_, fun k' t hk' hlive => ?_⟩
  · refine pairwise_append.mpr ⟨h.ordered.sublist hsub, pairwise_singleton _ _, ?_⟩
    intro a ha b hb
    rw [mem_singleton.mp hb]
    exact (h.sound a (hsub.subset ha)).2
  · rw [map_append, nodup_append]
    refine ⟨h.nodup.sublist (hsub.map _), nodup_singleton _, ?_⟩
    intro a ha b hb
    obtain ⟨e, he, rfl⟩ := mem_map.mp ha
    rw [mem_singleton.mp hb]
    exact of_decide_eq_true (mem_filter.mp he).2
  · rcases mem_append.mp he with he | he
    · obtain ⟨hmem, hne⟩ := mem_filter.mp he
      rw [Function.update_of_ne (of_decide_eq_true hne)]
      exact h.sound e hmem
    · rw [mem_singleton.mp he]
      exact ⟨Function.update_self _ _ _, le_rfl⟩
  · rw [mem_append, mem_filter, mem_singleton]
    by_cases hkey : k' = k
    · subst hkey
      rw [Function.update_self, Option.some.injEq] at hk'
      exact Or.inr (by rw [hk'])
    · rw [Function.update_of_ne hkey] at hk'
      exact Or.inl ⟨h.complete k' t hk' hlive, decide_eq_true hkey⟩

end Holds

end BitTorrent.ExpiringMap
