import BitTorrent.DhtTable

/-! Adding a node as a run. Splitting the last bucket replays its nodes into two new buckets, which
have space for all eight of them, so a split never splits again on the way. A call of `add_node` is
therefore a chain of splits that ends with the node placed or refused, `Adds`, and each split brings
the table one bucket closer to its limit. -/

namespace BitTorrent.Dht.RoutingTable

open Rust List Bucket

/-- The nodes of a split bucket that stay at its index. -/
def isNear (w : World) (nodeId : NodeId) (k : Nat) (node : Node) : Bool :=
  decide (node.status w ≠ .bad ∧ leadingBitCount nodeId node.id = k)

/-- The nodes of a split bucket that move on to the new last bucket. -/
def isFar (w : World) (nodeId : NodeId) (k : Nat) (node : Node) : Bool :=
  decide (node.status w ≠ .bad ∧ k < leadingBitCount nodeId node.id)

/-- A table with its last bucket `b` split; `front` are the other buckets. -/
def splitTable (w : World) (nodeId : NodeId) (front : List Bucket) (b : Bucket) : RoutingTable :=
  ⟨front ++ [Bucket.fill w (b.nodes.filter (isNear w nodeId front.length)),
    Bucket.fill w (b.nodes.filter (isFar w nodeId front.length))], nodeId⟩

theorem length_splitTable (w : World) (nodeId : NodeId) (front : List Bucket) (b : Bucket) :
    (splitTable w nodeId front b).buckets.length = front.length + 2 := by
  simp [splitTable]

section

variable {w : World} {nodeId : NodeId} {front : List Bucket}

theorem bucketNode_of_space {t : RoutingTable} {node : Node} {b : Bucket} (hpos : 0 < t.buckets.length)
    (hb : t.buckets[t.home node]? = some b) (hspace : (b.addNode w node).2 = true) (fuel : Nat) :
    bucketNode w (fuel + 1) t node (leadingBitCount t.nodeId node.id) =
      .ok (t.setBucket (t.home node) (b.addNode w node).1) := by
  rw [bucketNode, bucketPlacement_eq hpos, ok_bind, ← home, index_of_getElem? hb, ok_bind]
  simp only [hspace, if_true]
  rfl

theorem addNode_replay {node : Node} (hnode : node.status w ≠ .bad →
      front.length ≤ leadingBitCount nodeId node.id ∧ leadingBitCount nodeId node.id ≠ maxBuckets)
    {near far : List Node} (hnear : near.length < maxBucketSize) (hfar : far.length < maxBucketSize)
    (fuel : Nat) : addNode w (fuel + 2) ⟨front ++ [fill w near, fill w far], nodeId⟩ node =
      .ok ⟨front ++ [fill w (near ++ [node].filter (isNear w nodeId front.length)),
        fill w (far ++ [node].filter (isFar w nodeId front.length))], nodeId⟩ := by
  by_cases hlive : node.status w = .bad
  · rw [addNode, if_pos hlive]
    simp [isNear, isFar, hlive]
  obtain ⟨hle, hmax⟩ := hnode hlive
  have hpos : 0 < (front ++ [fill w near, fill w far]).length := by simp
  rw [addNode, if_neg hlive]
  simp only [if_pos hmax]
  rcases Nat.lt_or_eq_of_le hle with hlt | heq
  · have hhome : home ⟨front ++ [fill w near, fill w far], nodeId⟩ node =
        front.length + 1 := by
      simp [home]
      omega
    have hget : (front ++ [fill w near, fill w far])[front.length + 1]? =
        some (fill w far) := by simp
    rw [bucketNode_of_space hpos (hhome ▸ hget) (space_fill w hfar node), hhome]
    simp [isNear, isFar, hlive, hlt, hlt.ne', fill_concat, setBucket]
  · have hhome : home ⟨front ++ [fill w near, fill w far], nodeId⟩ node =
        front.length := by
      simp [home]
      omega
    have hget : (front ++ [fill w near, fill w far])[front.length]? =
        some (fill w near) := by simp
    rw [bucketNode_of_space hpos (hhome ▸ hget) (space_fill w hnear node), hhome]
    simp [isNear, isFar, hlive, ← heq, fill_concat, setBucket]

theorem foldlM_replay {todo : List Node} (htodo : ∀ node ∈ todo, node.status w ≠ .bad →
      front.length ≤ leadingBitCount nodeId node.id ∧ leadingBitCount nodeId node.id ≠ maxBuckets)
    (done : List Node) (hsize : (done ++ todo).length ≤ maxBucketSize) (fuel : Nat) :
    todo.foldlM (fun table node => addNode w (fuel + 2) table node)
      ⟨front ++ [fill w (done.filter (isNear w nodeId front.length)),
        fill w (done.filter (isFar w nodeId front.length))], nodeId⟩ =
      .ok ⟨front ++ [fill w ((done ++ todo).filter (isNear w nodeId front.length)),
        fill w ((done ++ todo).filter (isFar w nodeId front.length))], nodeId⟩ := by
  induction todo generalizing done with
  | nil => rw [append_nil, foldlM_nil, pure_eq_ok]
  | cons node todo ih =>
    rw [length_append, length_cons] at hsize
    have hnear := length_filter_le (isNear w nodeId front.length) done
    have hfar := length_filter_le (isFar w nodeId front.length) done
    rw [foldlM_cons, addNode_replay (htodo node mem_cons_self) (by omega) (by omega),
      ok_bind, ← filter_append, ← filter_append,
      ih (fun n hn => htodo n (mem_cons_of_mem _ hn)) (done ++ [node]) (by simp; omega),
      ← append_cons]

/-- Splitting the last bucket of a table always succeeds below the limit. -/
theorem splitBucket_eq {b : Bucket} (hb : ∀ node ∈ b.nodes, node.status w ≠ .bad →
      front.length ≤ leadingBitCount nodeId node.id ∧ leadingBitCount nodeId node.id ≠ maxBuckets)
    (hlimit : front.length + 1 ≠ maxBuckets) (fuel : Nat) :
    splitBucket w (fuel + 3) ⟨front ++ [b], nodeId⟩ front.length =
      .ok (splitTable w nodeId front b, true) := by
  have hlen : (front ++ [b]).length = front.length + 1 := by simp
  rw [splitBucket]
  simp only [hlen]
  rw [canSplitBucket_eq (Nat.succ_pos _), ok_bind, decide_eq_true ⟨rfl, hlimit⟩]
  simp only [if_true, getLast?_concat, dropLast_concat]
  have hreplay := foldlM_replay (w := w) hb [] (by rw [nil_append, b.size]) fuel
  simp only [filter_nil, nil_append] at hreplay
  rw [show Bucket.fill w [] = Bucket.new from rfl] at hreplay
  rw [hreplay, ok_bind]
  rfl

end

/-! ### Valid tables -/

section

variable {w : World} {nodeId : NodeId} {front : List Bucket} {b : Bucket}

theorem foreign_iff {node : Node} : node.id ≠ nodeId ↔ leadingBitCount nodeId node.id ≠ maxBuckets := by
  rw [ne_eq, ne_eq, maxBuckets, leadingBitCount_eq_len, eq_comm]

theorem Valid.last_nodes (ht : Valid ⟨front ++ [b], nodeId⟩) {node : Node} (hnode : node ∈ b.nodes)
    (hlive : node.status w ≠ .bad) :
    front.length ≤ leadingBitCount nodeId node.id ∧ leadingBitCount nodeId node.id ≠ maxBuckets := by
  have hreal := Node.not_isPlaceholder_of_status hlive
  have hhome := ht.home_eq front.length b (by simp) node hnode hreal
  refine ⟨?_, foreign_iff.mp (ht.foreign b (by simp) node hnode hreal)⟩
  simp only [home, length_append, length_singleton] at hhome
  omega

theorem mem_splitTable {c : Bucket} (hc : c ∈ (splitTable w nodeId front b).buckets) :
    c ∈ front ∨ c = fill w (b.nodes.filter (isNear w nodeId front.length)) ∨
      c = fill w (b.nodes.filter (isFar w nodeId front.length)) := by
  simpa [splitTable] using hc

theorem Valid.split (ht : Valid ⟨front ++ [b], nodeId⟩) (hlimit : front.length + 1 ≠ maxBuckets) :
    (splitTable w nodeId front b).Valid := by
  have hle := ht.le
  have hlen := length_splitTable w nodeId front b
  simp only [length_append, length_singleton] at hle
  refine ⟨by omega, by omega, ?_, ?_, ?_⟩
  · intro i c hc node hnode hreal
    have hlt : i < front.length + 2 := hlen ▸ (List.getElem?_eq_some_iff.mp hc).1
    have hhome : (splitTable w nodeId front b).home node =
        min (leadingBitCount nodeId node.id) (front.length + 1) := by
      rw [home, hlen]
      rfl
    rw [hhome]
    rw [splitTable] at hc
    rcases Nat.lt_trichotomy i front.length with hi | rfl | hi
    · rw [getElem?_append_left hi] at hc
      have hold := ht.home_eq i c (by rw [getElem?_append_left hi]; exact hc) node hnode hreal
      simp only [home, length_append, length_singleton] at hold
      omega
    · obtain rfl : fill w (b.nodes.filter (isNear w nodeId front.length)) = c := by
        simpa using hc
      have hnear := (mem_filter.mp ((mem_fill hnode).resolve_left hreal).1).2
      rw [isNear, decide_eq_true_eq] at hnear
      omega
    · obtain rfl : i = front.length + 1 := by omega
      obtain rfl : fill w (b.nodes.filter (isFar w nodeId front.length)) = c := by
        simpa using hc
      have hfar := (mem_filter.mp ((mem_fill hnode).resolve_left hreal).1).2
      rw [isFar, decide_eq_true_eq] at hfar
      omega
  · intro c hc node hnode hreal
    rcases mem_splitTable hc with hc | rfl | rfl
    · exact ht.foreign c (mem_append_left _ hc) node hnode hreal
    · have hmem := ((mem_fill hnode).resolve_left hreal).1
      exact ht.foreign b (by simp) node (mem_of_mem_filter hmem) hreal
    · have hmem := ((mem_fill hnode).resolve_left hreal).1
      exact ht.foreign b (by simp) node (mem_of_mem_filter hmem) hreal
  · intro c hc
    rcases mem_splitTable hc with hc | rfl | rfl
    · exact ht.distinct c (mem_append_left _ hc)
    · exact distinct_fill w _
    · exact distinct_fill w _

end

/-! ### Runs -/

/-- What adding a live, foreign node to a valid table comes to. -/
inductive Adds (w : World) (n : Node) : RoutingTable → RoutingTable → Prop where
  | placed {t : RoutingTable} {b : Bucket} (hb : t.buckets[t.home n]? = some b)
      (hspace : (b.addNode w n).2 = true) :
      Adds w n t (t.setBucket (t.home n) (b.addNode w n).1)
  | refused {t : RoutingTable} {b : Bucket} (hb : t.buckets[t.home n]? = some b)
      (hspace : (b.addNode w n).2 = false)
      (hlimit : t.home n + 1 ≠ t.buckets.length ∨ t.buckets.length = maxBuckets) : Adds w n t t
  | split {nodeId : NodeId} {front : List Bucket} {b : Bucket} {t' : RoutingTable}
      (hhome : home ⟨front ++ [b], nodeId⟩ n = front.length)
      (hspace : (b.addNode w n).2 = false) (hlimit : front.length + 1 ≠ maxBuckets)
      (rest : Adds w n (splitTable w nodeId front b) t') : Adds w n ⟨front ++ [b], nodeId⟩ t'

theorem setBucket_of_no_space {t : RoutingTable} {w : World} {n : Node} {b : Bucket} {i : Nat}
    (hb : t.buckets[i]? = some b) (hspace : (b.addNode w n).2 = false) :
    t.setBucket i (b.addNode w n).1 = t := by
  have hadd := addNode_adding w b n
  rw [hspace] at hadd
  have hsame : (b.addNode w n).1 = b := Bucket.ext hadd.of_no_space.1
  obtain ⟨hlt, hget⟩ := List.getElem?_eq_some_iff.mp hb
  rw [hsame, setBucket, ← hget, set_getElem_self]

section

variable {w : World} {n : Node} {t : RoutingTable} {b : Bucket}

theorem bucketNode_of_no_space (hpos : 0 < t.buckets.length) (hb : t.buckets[t.home n]? = some b)
    (hspace : (b.addNode w n).2 = false) (fuel : Nat) :
    bucketNode w (fuel + 1) t n (leadingBitCount t.nodeId n.id) = (do
      let (table, split) ← splitBucket w fuel t (t.home n)
      if split then bucketNode w fuel table n (leadingBitCount t.nodeId n.id) else .ok table) := by
  have hsame := setBucket_of_no_space hb hspace
  rw [bucketNode, bucketPlacement_eq hpos, ok_bind, ← home, index_of_getElem? hb, ok_bind]
  simp only [hspace, Bool.false_eq_true, if_false]
  rw [← setBucket, hsame]

theorem bucketNode_of_refused (hpos : 0 < t.buckets.length) (hb : t.buckets[t.home n]? = some b)
    (hspace : (b.addNode w n).2 = false)
    (hlimit : t.home n + 1 ≠ t.buckets.length ∨ t.buckets.length = maxBuckets) (fuel : Nat) :
    bucketNode w (fuel + 2) t n (leadingBitCount t.nodeId n.id) = .ok t := by
  have hno : decide (t.home n + 1 = t.buckets.length ∧ t.buckets.length ≠ maxBuckets) = false := by
    rw [decide_eq_false_iff_not, not_and_or, not_not]
    exact hlimit
  rw [bucketNode_of_no_space hpos hb hspace, splitBucket, canSplitBucket_eq hpos, ok_bind, hno]
  rfl

theorem bucketNode_of_split {nodeId : NodeId} {front : List Bucket}
    (ht : Valid ⟨front ++ [b], nodeId⟩) (hhome : home ⟨front ++ [b], nodeId⟩ n = front.length)
    (hspace : (b.addNode w n).2 = false) (hlimit : front.length + 1 ≠ maxBuckets) (fuel : Nat) :
    bucketNode w (fuel + 4) ⟨front ++ [b], nodeId⟩ n (leadingBitCount nodeId n.id) =
      bucketNode w (fuel + 3) (splitTable w nodeId front b) n (leadingBitCount nodeId n.id) := by
  have hb : (front ++ [b])[home ⟨front ++ [b], nodeId⟩ n]? = some b := by rw [hhome]; simp
  rw [bucketNode_of_no_space ht.pos hb hspace, hhome,
    splitBucket_eq (fun node hnode hlive => ht.last_nodes hnode hlive) hlimit, ok_bind]
  simp only [if_true]

end

/-- Every call ends within the limit, and is a run. -/
theorem bucketNode_adds {w : World} {n : Node} (k : Nat) :
    ∀ {t : RoutingTable}, t.Valid → n.id ≠ t.nodeId → maxBuckets - t.buckets.length = k →
      ∃ t', Adds w n t t' ∧ ∀ fuel, k + 4 ≤ fuel →
        bucketNode w fuel t n (leadingBitCount t.nodeId n.id) = .ok t' := by
  induction k using Nat.strong_induction_on with
  | _ k ih =>
    intro t ht hforeign hk
    obtain ⟨b, hb⟩ : ∃ b, t.buckets[t.home n]? = some b :=
      ⟨_, getElem?_eq_getElem (home_lt ht.pos n)⟩
    by_cases hspace : (b.addNode w n).2 = true
    · refine ⟨_, .placed hb hspace, fun fuel hfuel => ?_⟩
      obtain ⟨f, rfl⟩ := Nat.exists_eq_add_of_le' hfuel
      exact bucketNode_of_space ht.pos hb hspace _
    rw [Bool.not_eq_true] at hspace
    by_cases hlimit : t.home n + 1 ≠ t.buckets.length ∨ t.buckets.length = maxBuckets
    · refine ⟨t, .refused hb hspace hlimit, fun fuel hfuel => ?_⟩
      obtain ⟨f, rfl⟩ := Nat.exists_eq_add_of_le' hfuel
      exact bucketNode_of_refused ht.pos hb hspace hlimit _
    push Not at hlimit
    obtain ⟨buckets, nodeId⟩ := t
    rcases eq_nil_or_concat' buckets with rfl | ⟨front, c, rfl⟩
    · exact absurd ht.pos (Nat.lt_irrefl 0)
    simp only [length_append, length_singleton] at hlimit hk
    have hhome : home ⟨front ++ [c], nodeId⟩ n = front.length := by omega
    obtain rfl : c = b := by
      rw [hhome] at hb
      simpa using hb
    have hle := ht.le
    simp only [length_append, length_singleton] at hle
    have hlen := length_splitTable w nodeId front c
    obtain ⟨t', hrun, hcall⟩ := ih (k - 1) (by omega) (ht.split (w := w) hlimit.2) hforeign
      (by omega)
    refine ⟨t', .split hhome hspace hlimit.2 hrun, fun fuel hfuel => ?_⟩
    obtain ⟨f, rfl⟩ := Nat.exists_eq_add_of_le' (show 4 ≤ fuel by omega)
    rw [bucketNode_of_split ht hhome hspace hlimit.2]
    exact hcall (f + 3) (by omega)

/-- The depth of recursion that is enough for every call. -/
def recursionLimit : Nat := maxBuckets + 4

/-- What a call makes of a valid table: nothing, for a bad node or the local one, or a run. -/
inductive AddsOrIgnores (w : World) (n : Node) (t : RoutingTable) : RoutingTable → Prop where
  | ignored (h : n.status w = .bad ∨ n.id = t.nodeId) : AddsOrIgnores w n t t
  | added {t' : RoutingTable} (hlive : n.status w ≠ .bad) (hforeign : n.id ≠ t.nodeId)
      (hrun : Adds w n t t') : AddsOrIgnores w n t t'

theorem addNode_run {t : RoutingTable} (ht : t.Valid) (w : World) (n : Node) :
    ∃ t', AddsOrIgnores w n t t' ∧ ∀ fuel, recursionLimit ≤ fuel → addNode w fuel t n = .ok t' := by
  have hpos := ht.pos
  have hle := ht.le
  by_cases hbad : n.status w = .bad
  · refine ⟨t, .ignored (Or.inl hbad), fun fuel hfuel => ?_⟩
    obtain ⟨f, rfl⟩ := Nat.exists_eq_add_of_le' hfuel
    rw [recursionLimit, ← Nat.add_assoc, addNode, if_pos hbad]
  by_cases hself : n.id = t.nodeId
  · refine ⟨t, .ignored (Or.inr hself), fun fuel hfuel => ?_⟩
    obtain ⟨f, rfl⟩ := Nat.exists_eq_add_of_le' hfuel
    rw [recursionLimit, ← Nat.add_assoc, addNode, if_neg hbad]
    simp only
    rw [if_neg (mt foreign_iff.mpr (not_not.mpr hself))]
  · obtain ⟨t', hrun, hcall⟩ := bucketNode_adds (w := w) _ ht hself rfl
    refine ⟨t', .added hbad hself hrun, fun fuel hfuel => ?_⟩
    rw [recursionLimit] at hfuel
    obtain ⟨f, rfl⟩ := Nat.exists_eq_add_of_le' (show 1 ≤ fuel by omega)
    rw [addNode, if_neg hbad]
    simp only
    rw [if_pos (foreign_iff.mp hself)]
    exact hcall f (by omega)

end BitTorrent.Dht.RoutingTable
