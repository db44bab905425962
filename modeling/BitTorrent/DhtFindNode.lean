import BitTorrent.DhtTableInvariant

/-! Looking a node up. `buckets()` iterates over all 160 places a bucket can have, with an empty item
for each place whose bucket does not exist yet, and the last bucket of an unfinished table after them.
So there is an item at every index below 160, and `find_node` goes on to the last bucket only for the
local id. -/

namespace BitTorrent.Dht

open Rust List Bucket

inductive BucketContents where
  | empty
  | sorted (b : Bucket)
  | assorted (b : Bucket)
  deriving DecidableEq

structure Buckets where
  buckets : List Bucket
  index : Nat

namespace Buckets

def new (buckets : List Bucket) : Buckets := ⟨buckets, 0⟩

def next (s : Buckets) : Option BucketContents × Buckets :=
  if hover : s.index > maxBuckets then (none, s)
  else if hlast : s.index = maxBuckets then
    (if h : s.buckets.length = maxBuckets ∨ s.buckets.length = 0 then none
      else some (.assorted s.buckets[s.buckets.length - 1]), ⟨s.buckets, s.index + 1⟩)
  else if h : s.index + 1 < s.buckets.length ∨ s.buckets.length = maxBuckets then
    (some (.sorted s.buckets[s.index]), ⟨s.buckets, s.index + 1⟩)
  else (some .empty, ⟨s.buckets, s.index + 1⟩)

theorem index_next {s : Buckets} (h : s.index ≤ maxBuckets) : (next s).2.index = s.index + 1 := by
  rw [next, dif_neg (not_lt.mpr h)]
  split
  · rfl
  · split
    · rfl
    · rfl

def iter : Iter Buckets BucketContents where
  next := next
  rank s := maxBuckets + 1 - s.index
  rank_lt := by
    intro s a s' h
    by_cases hover : s.index > maxBuckets
    · rw [next, dif_pos hover] at h
      cases h
    · have hindex := index_next (not_lt.mp hover)
      rw [h] at hindex
      simp only at hindex
      omega

theorem iter_next (s : Buckets) : iter.next s = next s := rfl

/-- The item at a place before the last item. -/
def contentsAt (buckets : List Bucket) (i : Nat) : BucketContents :=
  match buckets[i]? with
  | some b => if i + 1 < buckets.length ∨ buckets.length = maxBuckets then .sorted b else .empty
  | none => .empty

/-- The item after all places: the last bucket, unless its place is its own. -/
def lastContents (buckets : List Bucket) : List BucketContents :=
  if buckets.length = maxBuckets then []
  else
    match buckets.getLast? with
    | some b => [.assorted b]
    | none => []

theorem next_of_lt {buckets : List Bucket} {i : Nat} (hi : i < maxBuckets) :
    next ⟨buckets, i⟩ = (some (contentsAt buckets i), ⟨buckets, i + 1⟩) := by
  rw [next, dif_neg (by simp only; omega), dif_neg (by simp only; omega)]
  simp only [contentsAt]
  by_cases h : i + 1 < buckets.length ∨ buckets.length = maxBuckets
  · have hlt : i < buckets.length := by omega
    rw [dif_pos h, getElem?_eq_getElem hlt]
    simp only [if_pos h]
  · rw [dif_neg h]
    cases buckets[i]? with
    | some b => simp only [if_neg h]
    | none => rfl

theorem toList_eq (buckets : List Bucket) {k : Nat} : ∀ {i : Nat}, i ≤ maxBuckets → maxBuckets - i = k →
      iter.toList ⟨buckets, i⟩ = (range' i k).map (contentsAt buckets) ++ lastContents buckets := by
  induction k with
  | zero =>
    intro i hle hk
    obtain rfl : i = maxBuckets := by omega
    rw [range'_zero, map_nil, nil_append, lastContents]
    by_cases hnone : buckets.length = maxBuckets ∨ buckets.length = 0
    · have hnext : iter.next ⟨buckets, maxBuckets⟩ = (none, ⟨buckets, maxBuckets + 1⟩) := by
        rw [iter_next, next, dif_neg (lt_irrefl _), dif_pos rfl, dif_pos hnone]
      rw [iter.toList_of_none hnext]
      rcases hnone with hmax | hzero
      · rw [if_pos hmax]
      · rw [length_eq_zero_iff.mp hzero]
        rfl
    · have hnext : iter.next ⟨buckets, maxBuckets⟩ =
          (some (.assorted buckets[buckets.length - 1]), ⟨buckets, maxBuckets + 1⟩) := by
        rw [iter_next, next, dif_neg (lt_irrefl _), dif_pos rfl, dif_neg hnone]
      have hend : iter.next ⟨buckets, maxBuckets + 1⟩ = (none, ⟨buckets, maxBuckets + 1⟩) := by
        rw [iter_next, next, dif_pos (Nat.lt_succ_self _)]
      push Not at hnone
      rw [iter.toList_of_some hnext, iter.toList_of_none hend, if_neg hnone.1,
        getLast?_eq_getElem?, getElem?_eq_getElem]
  | succ k ih =>
    intro i hle hk
    rw [iter.toList_of_some (next_of_lt (by omega)), ih (by omega) (by omega), range'_succ,
      map_cons, cons_append]

theorem toList_new (buckets : List Bucket) :
    iter.toList (new buckets) = (range maxBuckets).map (contentsAt buckets) ++ lastContents buckets := by
  rw [new, toList_eq buckets (Nat.zero_le _) rfl, Nat.sub_zero, range_eq_range']

end Buckets

namespace RoutingTable

/-- All items of `buckets()`. -/
def bucketContents (t : RoutingTable) : List BucketContents :=
  Buckets.iter.toList (Buckets.new t.buckets)

def isAssorted : BucketContents → Bool
  | .sorted _ | .empty => false
  | .assorted _ => true

def findNode (w : World) (t : RoutingTable) (node : Node) : Option Node :=
  let bucketIndex := leadingBitCount t.nodeId node.id
  let optBucketContents := t.bucketContents[bucketIndex]?.or (t.bucketContents.find? isAssorted)
  match optBucketContents with
  | some (.sorted b) => (b.pingableNodes w).find? (·.eq node)
  | some (.assorted b) => (b.pingableNodes w).find? (·.eq node)
  | _ => none

variable {w : World} {t : RoutingTable} {n : Node}

theorem getElem?_bucketContents {i : Nat} (hi : i < maxBuckets) :
    t.bucketContents[i]? = some (Buckets.contentsAt t.buckets i) := by
  rw [bucketContents, Buckets.toList_new, getElem?_append_left (by simpa using hi),
    getElem?_map, getElem?_range hi, Option.map_some]

theorem mem_of_contents {c : BucketContents} (hc : c ∈ t.bucketContents) {b : Bucket}
    (hb : c = .sorted b ∨ c = .assorted b) : b ∈ t.buckets := by
  rw [bucketContents, Buckets.toList_new, mem_append, mem_map] at hc
  rcases hc with ⟨i, -, rfl⟩ | hc
  · unfold Buckets.contentsAt at hb
    split at hb
    · rename_i b' hget
      by_cases hsorted : i + 1 < t.buckets.length ∨ t.buckets.length = maxBuckets
      · rw [if_pos hsorted] at hb
        rcases hb with hb | hb
        · exact BucketContents.sorted.inj hb ▸ mem_of_getElem? hget
        · cases hb
      · rw [if_neg hsorted] at hb
        rcases hb with hb | hb <;> cases hb
    · rcases hb with hb | hb <;> cases hb
  · unfold Buckets.lastContents at hc
    by_cases hmax : t.buckets.length = maxBuckets
    · rw [if_pos hmax] at hc
      cases hc
    rw [if_neg hmax] at hc
    split at hc
    · rename_i b' hlast
      obtain rfl := mem_singleton.mp hc
      rcases hb with hb | hb
      · cases hb
      · exact BucketContents.assorted.inj hb ▸ mem_of_getLast? hlast
    · cases hc

theorem find_pingable {b : Bucket} {e : Node} (hb : b ∈ t.buckets)
    (h : (b.pingableNodes w).find? (·.eq n) = some e) :
    e ∈ t.entries ∧ isPingable w e = true ∧ e.key = n.key := by
  obtain ⟨hmem, hlive⟩ := mem_filter.mp (mem_of_find?_eq_some h)
  have heq := find?_some h
  exact ⟨mem_flatMap.mpr ⟨b, hb, hmem⟩, hlive, Node.eq_iff.mp heq⟩

theorem findNode_sound {e : Node} (h : findNode w t n = some e) :
    e ∈ t.entries ∧ isPingable w e = true ∧ e.key = n.key := by
  have hmem : ∀ c, t.bucketContents[leadingBitCount t.nodeId n.id]?.or
      (t.bucketContents.find? isAssorted) = some c → c ∈ t.bucketContents := by
    intro c hc
    rcases Option.or_eq_some_iff.mp hc with hc | ⟨-, hc⟩
    · exact mem_of_getElem? hc
    · exact mem_of_find?_eq_some hc
  unfold findNode at h
  simp only at h
  split at h
  · rename_i b hc
    exact find_pingable (mem_of_contents (hmem _ hc) (Or.inl rfl)) h
  · rename_i b hc
    exact find_pingable (mem_of_contents (hmem _ hc) (Or.inr rfl)) h
  · cases h

theorem findNode_of_sorted {b : Bucket} (hi : leadingBitCount t.nodeId n.id < maxBuckets)
    (hb : t.buckets[leadingBitCount t.nodeId n.id]? = some b)
    (hsorted : leadingBitCount t.nodeId n.id + 1 < t.buckets.length ∨ t.buckets.length = maxBuckets) :
    findNode w t n = (b.pingableNodes w).find? (·.eq n) := by
  rw [findNode]
  simp only [getElem?_bucketContents hi, Option.some_or, Buckets.contentsAt, hb, if_pos hsorted]

theorem findNode_of_assorted (hi : leadingBitCount t.nodeId n.id < maxBuckets)
    (hassorted : ¬ (leadingBitCount t.nodeId n.id + 1 < t.buckets.length ∨
      t.buckets.length = maxBuckets)) : findNode w t n = none := by
  rw [findNode]
  simp only [getElem?_bucketContents hi, Option.some_or, Buckets.contentsAt, if_neg hassorted]
  cases t.buckets[leadingBitCount t.nodeId n.id]? with
  | none => rfl
  | some b => rfl

theorem Valid.eq_of_key (ht : t.Valid) {x y : Node} (hx : x ∈ t.entries) (hy : y ∈ t.entries)
    (hxlive : x.status w ≠ .bad) (hylive : y.status w ≠ .bad) (hkey : x.key = y.key) : x = y := by
  have hnodup : ((t.entries.filter fun node => node.status w ≠ .bad).map Node.key).Nodup :=
    pairwise_map.mpr (ht.pairwise_live w)
  exact inj_on_of_nodup_map hnodup (mem_filter.mpr ⟨hx, decide_eq_true hxlive⟩)
    (mem_filter.mpr ⟨hy, decide_eq_true hylive⟩) hkey

theorem Valid.findNode_eq_some (ht : t.Valid) {e : Node} (he : e ∈ t.entries)
    (hlive : isPingable w e = true) (hkey : e.key = n.key)
    (hsorted : leadingBitCount t.nodeId n.id + 1 < t.buckets.length ∨ t.buckets.length = maxBuckets) :
    findNode w t n = some e := by
  have hreal := not_isPlaceholder_of_isPingable hlive
  have hid : e.id = n.id := congrArg Prod.fst hkey
  have hi := hid ▸ ht.leadingBitCount_lt he hreal
  obtain ⟨i, b, hb, hmem⟩ := mem_entries.mp he
  have hhome := ht.home_eq i b hb e hmem hreal
  obtain rfl : i = leadingBitCount t.nodeId n.id := by
    rw [home_congr hkey, home] at hhome
    omega
  have hsome : ((b.pingableNodes w).find? (·.eq n)).isSome := by
    rw [find?_isSome]
    exact ⟨e, mem_filter.mpr ⟨hmem, hlive⟩, Node.eq_iff.mpr hkey⟩
  obtain ⟨e', he'⟩ := Option.isSome_iff_exists.mp hsome
  rw [← findNode_of_sorted hi hb hsorted] at he'
  -- what is found has the key of `e`, and the table has only one such live entry
  obtain ⟨hmem', hlive', hkey'⟩ := findNode_sound he'
  rw [he', ht.eq_of_key hmem' he (isPingable_iff.mp hlive') (isPingable_iff.mp hlive)
    (hkey'.trans hkey.symm)]

/-- `find_node` finds the stored entry exactly if the node belongs to a sorted bucket, and nothing
where there is nothing to find. -/
theorem findNode_iff (h : Reachable t) (w : World) (n : Node) :
    ((∀ e ∈ t.entries, isPingable w e = true → e.key = n.key → findNode w t n = some e) ↔
      ((∃ e ∈ t.entries, isPingable w e = true ∧ e.key = n.key) →
        leadingBitCount t.nodeId n.id + 1 < t.buckets.length ∨ t.buckets.length = maxBuckets)) ∧
    ((∀ e ∈ t.entries, isPingable w e = true → e.key ≠ n.key) → findNode w t n = none) := by
  have ht := h.valid
  refine ⟨⟨fun hfinds ⟨e, he, hlive, hkey⟩ => ?_, fun hcond e he hlive hkey => ?_⟩, fun hnone => ?_⟩
  · by_contra hassorted
    have hid : e.id = n.id := congrArg Prod.fst hkey
    have hi := hid ▸ ht.leadingBitCount_lt he (not_isPlaceholder_of_isPingable hlive)
    have hfound := hfinds e he hlive hkey
    rw [findNode_of_assorted hi hassorted] at hfound
    cases hfound
  · exact ht.findNode_eq_some he hlive hkey (hcond ⟨e, he, hlive, hkey⟩)
  · rw [Option.eq_none_iff_forall_ne_some]
    intro e he
    obtain ⟨hmem, hlive, hkey⟩ := findNode_sound he
    exact hnone e hmem hlive hkey

/-- The eight nodes in a sorted bucket, and a ninth that made the table split. -/
def eightNodesSplit : RoutingTable :=
  ⟨[⟨eightNodes, length_eightNodes⟩, ⟨nodeOf 64 8 :: replicate 7 placeholder, rfl⟩], idOf 0⟩

theorem findNode_iff_eightNodesSplit :
    Reachable eightNodesSplit ∧
    findNode (worldOf [0]) eightNodesSplit (nodeOf 128 0) = some (nodeOf 128 0) ∧
    findNode (worldOf [0]) eightNodesSplit (nodeOf 32 9) = none := by
  have ht : Reachable eightNodesSplit :=
    .addAll (.new (idOf 0)) (worldOf []) (eightNodes ++ [nodeOf 64 8]) (by decide +kernel)
  refine ⟨ht, ?_, ?_⟩
  · exact (findNode_iff ht (worldOf [0]) (nodeOf 128 0)).1.mpr (fun _ => .inl (by decide +kernel))
      (nodeOf 128 0) (by decide) (by decide) rfl
  · exact (findNode_iff ht (worldOf [0]) (nodeOf 32 9)).2 (by decide)

/-- The only node of a table, good and just added, is not found. -/
theorem findNode_misses :
    Reachable oneNode ∧ nodeOf 128 0 ∈ oneNode.entries ∧
    isPingable (worldOf [0]) (nodeOf 128 0) = true ∧
    findNode (worldOf [0]) oneNode (nodeOf 128 0) = none := by
  exact ⟨reachable_oneNode, by decide, by decide, by decide +kernel⟩

end RoutingTable

end BitTorrent.Dht
