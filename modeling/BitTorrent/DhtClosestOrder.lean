import BitTorrent.DhtClosest

/-! What the iterator over the closest nodes yields from a reachable table: the live nodes place by
place, each once. Seen from the target, the place of the target comes first and is closest; a place to
the left of it is as far as its index, and all places to the right are equally far. -/

namespace BitTorrent.Dht.RoutingTable

open Rust List Bucket ClosestNodes

def closestNodes (t : RoutingTable) (nodeId : NodeId) : Run Empty ClosestNodes :=
  ClosestNodes.new t.buckets t.nodeId nodeId

/-- The nodes of the last bucket, as long as it is unsorted, with the places they would have. -/
def assorted (t : RoutingTable) : Option (List AssortedNode) :=
  if t.buckets.length = maxBuckets then none
  else t.buckets.getLast?.map fun b =>
    b.nodes.map fun node => ⟨leadingBitCount t.nodeId node.id, node, false⟩

/-- The nodes handed out at a place. -/
def placeNodes (w : World) (t : RoutingTable) (i : Nat) : List Node :=
  sortedAt w t.buckets i ++ assortedAt w t.assorted i

theorem foldl_set_zipIdx {α β : Type} (f : α → β) (l : List α) :
    ∀ (done rest : List β), rest.length = l.length →
      (l.zipIdx done.length).foldl (fun arr entry => arr.set entry.2 (f entry.1)) (done ++ rest) =
        done ++ l.map f := by
  induction l with
  | nil =>
    intro done rest hrest
    rw [length_eq_zero_iff.mp hrest]
    rfl
  | cons a l ih =>
    intro done rest hrest
    obtain ⟨b, rest, rfl⟩ := exists_cons_of_length_eq_add_one hrest
    have hstep := ih (done ++ [f a]) rest (Nat.succ.inj hrest)
    rw [length_append, length_singleton] at hstep
    rw [zipIdx_cons, foldl_cons]
    simp only [set_append_right _ _ le_rfl, Nat.sub_self, set_cons_zero]
    rw [append_cons, hstep, map_cons, ← append_cons]

theorem precomputeAssortedNodes_eq {t : RoutingTable} (ht : t.Valid) :
    precomputeAssortedNodes t.buckets t.nodeId = .ok t.assorted := by
  rw [precomputeAssortedNodes, assorted]
  by_cases hmax : t.buckets.length = maxBuckets
  · rw [if_pos hmax, if_pos hmax]
  obtain ⟨b, hb⟩ : ∃ b, t.buckets[t.buckets.length - 1]? = some b :=
    ⟨_, getElem?_eq_getElem (Nat.sub_lt ht.pos Nat.one_pos)⟩
  rw [if_neg hmax, if_neg hmax, subUsize, if_pos (show 1 ≤ t.buckets.length from ht.pos), ok_bind,
    index_of_getElem? hb, ok_bind, getLast?_eq_getElem?, hb, Option.map_some]
  have hsize := b.size
  split
  · rename_i hnil
    rw [hnil] at hsize
    cases hsize
  · rename_i first rest hcons
    have hfill := foldl_set_zipIdx
      (fun node : Node => AssortedNode.mk (leadingBitCount t.nodeId node.id) node false) b.nodes []
      (replicate maxBucketSize ⟨0, first, true⟩) (by rw [length_replicate, b.size])
    simp only [length_nil, nil_append] at hfill
    simp only
    rw [hfill]

/-- The iterator on a reachable table hands out its nodes place by place. -/
theorem toList_closestNodes {t : RoutingTable} (ht : t.Valid) (w : World) (target : NodeId) :
    ∃ it, t.closestNodes target = .ok it ∧ (ClosestNodes.iter w).toList it =
      (visits (leadingBitCount t.nodeId target)).flatMap (placeNodes w t) := by
  refine ⟨⟨t.buckets, bucketIterator t.buckets (leadingBitCount t.nodeId target),
    leadingBitCount t.nodeId target, leadingBitCount t.nodeId target, t.assorted⟩, ?_, ?_⟩
  · rw [closestNodes, ClosestNodes.new, precomputeAssortedNodes_eq ht, ok_bind]
  · rw [toList_eq_left, left, visits, flatMap_cons]
    rfl

/-! ### The nodes of a place -/

section

variable {w : World} {t : RoutingTable} {x : Node} {i : Nat}

theorem assortedAt_assorted : assortedAt w t.assorted i =
    (if t.buckets.length = maxBuckets then []
      else (t.buckets.getLast?.map nodes).getD []).filter fun x =>
        isGoodNode w x && decide (leadingBitCount t.nodeId x.id = i) := by
  unfold assorted
  by_cases hmax : t.buckets.length = maxBuckets
  · rw [if_pos hmax, if_pos hmax]
    rfl
  rw [if_neg hmax, if_neg hmax]
  cases t.buckets.getLast? with
  | none => rfl
  | some b =>
    simp only [Option.map_some, assortedAt, Option.getD_some, filter_map, map_map]
    simp [Function.comp_def]

theorem mem_assortedAt : x ∈ assortedAt w t.assorted i ↔
    t.buckets.length ≠ maxBuckets ∧ (∃ b, t.buckets.getLast? = some b ∧ x ∈ b.nodes) ∧
      isGoodNode w x = true ∧ leadingBitCount t.nodeId x.id = i := by
  rw [assortedAt_assorted, mem_filter, Bool.and_eq_true, decide_eq_true_eq]
  by_cases hmax : t.buckets.length = maxBuckets
  · simp [hmax]
  · rw [if_neg hmax]
    cases t.buckets.getLast? with
    | none => simp
    | some b => simp [hmax]

theorem mem_sortedAt : x ∈ sortedAt w t.buckets i ↔
    (t.buckets.length = maxBuckets ∨ i + 1 < t.buckets.length) ∧
      (∃ b, t.buckets[i]? = some b ∧ x ∈ b.nodes) ∧ isGoodNode w x = true := by
  have hiter : ∀ buckets : List Bucket,
      x ∈ ((buckets[i]?.map nodes).getD []).filter (isGoodNode w) ↔
        (∃ b, buckets[i]? = some b ∧ x ∈ b.nodes) ∧ isGoodNode w x = true := by
    intro buckets
    cases buckets[i]? with
    | none => simp
    | some b => simp
  rw [sortedAt, bucketIterator, hiter]
  by_cases hmax : t.buckets.length = maxBuckets
  · rw [if_pos hmax]
    simp [hmax]
  · rw [if_neg hmax, getElem?_take]
    by_cases hi : i < t.buckets.length - 1
    · rw [if_pos hi]
      simp [show i + 1 < t.buckets.length by omega]
    · rw [if_neg hi]
      simp [hmax, show ¬ i + 1 < t.buckets.length by omega]

theorem Valid.of_mem_placeNodes (ht : t.Valid) (hx : x ∈ placeNodes w t i) :
    x ∈ t.entries ∧ isGoodNode w x = true ∧ leadingBitCount t.nodeId x.id = i ∧ x.id ≠ t.nodeId := by
  rcases mem_append.mp hx with hx | hx
  · obtain ⟨hsorted, ⟨b, hb, hmem⟩, hgood⟩ := mem_sortedAt.mp hx
    have hreal := not_isPlaceholder_of_isPingable hgood
    have hx := mem_entries.mpr ⟨i, b, hb, hmem⟩
    have hlt := ht.leadingBitCount_lt hx hreal
    have hhome := ht.home_eq i b hb x hmem hreal
    refine ⟨hx, hgood, ?_, ht.foreign b (mem_of_getElem? hb) x hmem hreal⟩
    rw [home] at hhome
    omega
  · obtain ⟨-, ⟨b, hb, hmem⟩, hgood, hcount⟩ := mem_assortedAt.mp hx
    have hbmem := mem_of_getLast? hb
    exact ⟨mem_flatMap.mpr ⟨b, hbmem, hmem⟩, hgood, hcount,
      ht.foreign b hbmem x hmem (not_isPlaceholder_of_isPingable hgood)⟩

theorem Valid.mem_placeNodes (ht : t.Valid) (hx : x ∈ t.entries) (hgood : isGoodNode w x = true) :
    x ∈ placeNodes w t (leadingBitCount t.nodeId x.id) ∧ leadingBitCount t.nodeId x.id < maxBuckets := by
  obtain ⟨i, b, hb, hmem⟩ := mem_entries.mp hx
  have hreal := not_isPlaceholder_of_isPingable hgood
  have hhome := ht.home_eq i b hb x hmem hreal
  have hcount := ht.leadingBitCount_lt hx hreal
  have hlt := (List.getElem?_eq_some_iff.mp hb).1
  refine ⟨?_, hcount⟩
  rw [placeNodes, mem_append, mem_sortedAt, mem_assortedAt]
  rw [home] at hhome
  by_cases hsorted : t.buckets.length = maxBuckets ∨ i + 1 < t.buckets.length
  · obtain rfl : i = leadingBitCount t.nodeId x.id := by omega
    exact Or.inl ⟨hsorted, ⟨b, hb, hmem⟩, hgood⟩
  · push Not at hsorted
    refine Or.inr ⟨hsorted.1, ⟨b, ?_, hmem⟩, hgood, rfl⟩
    rw [getLast?_eq_getElem?, ← hb]
    congr 1
    omega

theorem Valid.nodup_live (ht : t.Valid) (w : World) {b : Bucket} (hb : b ∈ t.buckets) :
    (b.nodes.filter (isGoodNode w)).Nodup := by
  rw [List.Nodup, pairwise_filter]
  refine (ht.distinct b hb).imp fun h _ hlive heq => ?_
  exact isPingable_iff.mp hlive (Node.status_of_isPlaceholder (h (by rw [heq])) w)

theorem Valid.nodup_sortedAt (ht : t.Valid) (w : World) (i : Nat) : (sortedAt w t.buckets i).Nodup := by
  rw [sortedAt]
  cases hiter : bucketIterator t.buckets i with
  | none => exact nodup_nil
  | some nodes =>
    obtain ⟨b, hb, rfl⟩ := Option.map_eq_some_iff.mp hiter
    have hmem := mem_of_getElem? hb
    refine ht.nodup_live w ?_
    split at hmem
    · exact hmem
    · exact mem_of_mem_take hmem

theorem Valid.nodup_assortedAt (ht : t.Valid) (w : World) (i : Nat) : (assortedAt w t.assorted i).Nodup := by
  rw [assortedAt_assorted]
  by_cases hmax : t.buckets.length = maxBuckets
  · rw [if_pos hmax]
    exact nodup_nil
  rw [if_neg hmax]
  cases hlast : t.buckets.getLast? with
  | none => exact nodup_nil
  | some b =>
    simp only [Option.map_some, Option.getD_some, Bool.and_comm (isGoodNode w _)]
    rw [← filter_filter]
    exact (ht.nodup_live w (mem_of_getLast? hlast)).filter _

theorem Valid.nodup_placeNodes (ht : t.Valid) (w : World) (i : Nat) : (placeNodes w t i).Nodup := by
  rw [placeNodes, nodup_append]
  refine ⟨ht.nodup_sortedAt w i, ht.nodup_assortedAt w i, ?_⟩
  rintro x hx y hy rfl
  obtain ⟨hsorted, ⟨b, hb, hmem⟩, hgood⟩ := mem_sortedAt.mp hx
  obtain ⟨hmax, ⟨c, hc, hmem'⟩, -⟩ := mem_assortedAt.mp hy
  have hreal := not_isPlaceholder_of_isPingable hgood
  have hhome := ht.home_eq i b hb x hmem hreal
  rw [getLast?_eq_getElem?] at hc
  have hhome' := ht.home_eq _ c hc x hmem' hreal
  omega

end

/-! ### All nodes -/

theorem Valid.nodup_closest {t : RoutingTable} (ht : t.Valid) (w : World) (start : Nat) :
    ((visits start).flatMap (placeNodes w t)).Nodup := by
  rw [List.Nodup, pairwise_flatMap]
  refine ⟨fun i _ => ht.nodup_placeNodes w i, (pairwise_visits start).imp ?_⟩
  rintro i j hlt x hx y hy rfl
  have hi := (ht.of_mem_placeNodes hx).2.2.1
  have hj := (ht.of_mem_placeNodes hy).2.2.1
  rw [← hi, ← hj] at hlt
  exact lt_irrefl _ hlt

theorem Valid.toList_perm {t : RoutingTable} (ht : t.Valid) (w : World) (target : NodeId) :
    ∃ it, t.closestNodes target = .ok it ∧
      ((ClosestNodes.iter w).toList it).Perm (t.entries.filter (isPingable w)) ∧
      ((ClosestNodes.iter w).toList it).Pairwise fun x y => x.key ≠ y.key := by
  obtain ⟨it, hit, hlist⟩ := toList_closestNodes ht w target
  have hlive : t.entries.filter (isPingable w) =
      t.entries.filter fun node => node.status w ≠ .bad := by
    refine filter_congr fun x _ => ?_
    rw [Bool.eq_iff_iff, isPingable_iff, decide_eq_true_eq]
  have hkeys := ht.pairwise_live w
  rw [← hlive] at hkeys
  have hnodup : (t.entries.filter (isPingable w)).Nodup :=
    hkeys.imp fun hne heq => hne (by rw [heq])
  have hperm : ((ClosestNodes.iter w).toList it).Perm
      (t.entries.filter (isPingable w)) := by
    rw [hlist]
    refine (perm_ext_iff_of_nodup (ht.nodup_closest w _) hnodup).mpr fun x => ?_
    rw [mem_flatMap, mem_filter]
    constructor
    · rintro ⟨i, -, hx⟩
      obtain ⟨hmem, hgood, -⟩ := ht.of_mem_placeNodes hx
      exact ⟨hmem, hgood⟩
    · rintro ⟨hmem, hgood⟩
      obtain ⟨hx, hlt⟩ := ht.mem_placeNodes hmem hgood
      exact ⟨_, (mem_visits leadingBitCount_le).mpr (Or.inr hlt), hx⟩
  exact ⟨it, hit, hperm, hperm.symm.pairwise hkeys Ne.symm⟩

/-- The iterator over the closest nodes ends, and yields every live node of a reachable table once
and nothing else. -/
theorem closestNodes_perm {t : RoutingTable} (h : Reachable t) (w : World) (target : NodeId) :
    ∃ it, t.closestNodes target = .ok it ∧
      ((ClosestNodes.iter w).toList it).Perm (t.entries.filter (isPingable w)) ∧
      ((ClosestNodes.iter w).toList it).Pairwise fun x y => x.key ≠ y.key :=
  h.valid.toList_perm w target

/-- Nodes of a sorted bucket to the left of the start, and of the unsorted one at the start and to the right. -/
theorem closestNodes_perm_tenNodes :
    ∃ it, tenNodes.closestNodes (idOf 96) = .ok it ∧
      ((ClosestNodes.iter (worldOf [])).toList it).Perm (eightNodes ++ nextNodes) ∧
      ((ClosestNodes.iter (worldOf [])).toList it).Pairwise fun x y => x.key ≠ y.key := by
  obtain ⟨it, hit, hperm, hkeys⟩ := closestNodes_perm reachable_tenNodes (worldOf []) (idOf 96)
  have hlive : tenNodes.entries.filter (isPingable (worldOf [])) = eightNodes ++ nextNodes := by decide
  exact ⟨it, hit, hlive ▸ hperm, hkeys⟩

/-! ### The order seen from the target -/

/-- How many bits a node shares with the target, up to one more than the local node does, if it
shares `i` with the local node and the local node shares `start` with the target. -/
def sharedWithTarget (start i : Nat) : Nat :=
  if i = start then start + 1 else if i < start then i else start

theorem min_leadingBitCount {nodeId target x : NodeId} (hforeign : x ≠ nodeId) :
    min (leadingBitCount target x) (leadingBitCount nodeId target + 1) =
      sharedWithTarget (leadingBitCount nodeId target) (leadingBitCount nodeId x) := by
  rcases Nat.lt_trichotomy (leadingBitCount nodeId x) (leadingBitCount nodeId target) with h | h | h
  · have hx := leadingBitCount_of_lt h
    rw [leadingBitCount_comm] at hx
    rw [sharedWithTarget, if_neg h.ne, if_pos h]
    omega
  · have hx := lt_leadingBitCount_of_eq h hforeign.symm
    rw [leadingBitCount_comm x] at hx
    rw [sharedWithTarget, if_pos h]
    omega
  · have hx := leadingBitCount_of_lt h
    rw [sharedWithTarget, if_neg h.ne', if_neg h.not_gt]
    omega

theorem sharedWithTarget_le {start i j : Nat} (hturn : turn start i ≤ turn start j)
    (hside : ¬ (i < start ∧ start < j)) : sharedWithTarget start j ≤ sharedWithTarget start i := by
  unfold turn at hturn
  unfold sharedWithTarget
  split_ifs at hturn ⊢ <;> omega

/-- Closest first, with everything that shares more bits with the target than the local node counted
as equally close, and but for a node from the left of the target's place before one from the right. -/
theorem closestNodes_order {t : RoutingTable} (h : Reachable t) (w : World) (target : NodeId) :
    ∃ it, t.closestNodes target = .ok it ∧
      ((ClosestNodes.iter w).toList it).Pairwise fun a b =>
        ¬ (leadingBitCount t.nodeId a.id < leadingBitCount t.nodeId target ∧
            leadingBitCount t.nodeId target < leadingBitCount t.nodeId b.id) →
          min (leadingBitCount target b.id) (leadingBitCount t.nodeId target + 1) ≤
            min (leadingBitCount target a.id) (leadingBitCount t.nodeId target + 1) := by
  have ht := h.valid
  obtain ⟨it, hit, hlist⟩ := toList_closestNodes ht w target
  have horder : ∀ {i j : Nat} {a b : Node}, a ∈ placeNodes w t i → b ∈ placeNodes w t j →
      turn (leadingBitCount t.nodeId target) i ≤ turn (leadingBitCount t.nodeId target) j →
      ¬ (leadingBitCount t.nodeId a.id < leadingBitCount t.nodeId target ∧
        leadingBitCount t.nodeId target < leadingBitCount t.nodeId b.id) →
      min (leadingBitCount target b.id) (leadingBitCount t.nodeId target + 1) ≤
        min (leadingBitCount target a.id) (leadingBitCount t.nodeId target + 1) := by
    intro i j a b ha hb hturn hside
    obtain ⟨-, -, rfl, haforeign⟩ := ht.of_mem_placeNodes ha
    obtain ⟨-, -, rfl, hbforeign⟩ := ht.of_mem_placeNodes hb
    rw [min_leadingBitCount haforeign, min_leadingBitCount hbforeign]
    exact sharedWithTarget_le hturn hside
  refine ⟨it, hit, ?_⟩
  rw [hlist, pairwise_flatMap]
  refine ⟨fun i _ => ?_, (pairwise_visits _).imp fun hlt a ha b hb => horder ha hb hlt.le⟩
  exact pairwise_of_forall_mem_list fun a ha b hb => horder ha hb le_rfl

/-- Two nodes of the target's place `16`, one from its left and one from its right. -/
def fourNodes : List Node := [nodeOf 24 0, nodeOf 17 1, nodeOf 32 2, nodeOf 4 3]

theorem reachable_fourNodes : Reachable (tableOf (idOf 0) fourNodes (by decide)) :=
  .addAll (.new (idOf 0)) (worldOf [0, 1, 2, 3]) fourNodes (by decide +kernel)

theorem closestNodes_order_fourNodes :
    ∃ it, (tableOf (idOf 0) fourNodes (by decide)).closestNodes (idOf 16) = .ok it ∧
      ((ClosestNodes.iter (worldOf [0, 1, 2, 3])).toList it).Pairwise fun a b =>
        ¬ (leadingBitCount (idOf 0) a.id < leadingBitCount (idOf 0) (idOf 16) ∧
            leadingBitCount (idOf 0) (idOf 16) < leadingBitCount (idOf 0) b.id) →
          min (leadingBitCount (idOf 16) b.id) (leadingBitCount (idOf 0) (idOf 16) + 1) ≤
            min (leadingBitCount (idOf 16) a.id) (leadingBitCount (idOf 0) (idOf 16) + 1) :=
  closestNodes_order reachable_fourNodes (worldOf [0, 1, 2, 3]) (idOf 16)

/-- The bits shared with the target go up within its own place, and from the left to the right. -/
theorem closestNodes_not_monotone :
    Reachable (tableOf (idOf 0) fourNodes (by decide)) ∧
    ((tableOf (idOf 0) fourNodes (by decide)).closestNodes (idOf 16)).map (fun it =>
      ((ClosestNodes.iter (worldOf [0, 1, 2, 3])).toList it).map fun x =>
        leadingBitCount (idOf 16) x.id) = .ok [4, 7, 2, 3] :=
  ⟨reachable_fourNodes, by decide +kernel⟩

end BitTorrent.Dht.RoutingTable
