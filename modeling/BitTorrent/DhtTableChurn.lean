import BitTorrent.DhtTableInvariant

/-! What a call of `add_node` may cost the nodes already there. Good nodes stay, over any number of
splits. A questionable node may go: to a good node that takes its slot, which is the first of lower
status even when a bad slot follows, or in a split, where the replayed good nodes do the same. -/

namespace BitTorrent.Dht.RoutingTable

open Rust List

variable {w : World} {n : Node} {t t' : RoutingTable}

variable {b : Bucket} {i : Nat}

theorem getElem?_setBucket_ne {j : Nat} (h : i ≠ j) :
    (t.setBucket i b).buckets[j]? = t.buckets[j]? := getElem?_set_ne h

theorem getElem?_setBucket_eq (h : t.buckets[i]? = some b) (b' : Bucket) :
    (t.setBucket i b').buckets[i]? = some b' :=
  getElem?_set_self (List.getElem?_eq_some_iff.mp h).1

/-! ### Good nodes -/

variable {x : Node}

theorem good_setBucket (hb : t.buckets[t.home n]? = some b)
    (hx : x ∈ t.entries) (hgood : x.status w = .good) :
    ∃ y ∈ (t.setBucket (t.home n) (b.addNode w n).1).entries, y.key = x.key ∧ y.status w = .good := by
  obtain ⟨i, c, hc, hmem⟩ := mem_entries.mp hx
  by_cases hi : t.home n = i
  · rw [← hi, hb, Option.some.injEq] at hc
    obtain ⟨y, hy, hkey, hy'⟩ := (Bucket.addNode_adding w b n).good_stays (hc ▸ hmem) hgood
    exact ⟨y, mem_entries.mpr ⟨_, _, getElem?_setBucket_eq hb _, hy⟩, hkey, hy'⟩
  · refine ⟨x, mem_entries.mpr ⟨i, c, ?_, hmem⟩, rfl, hgood⟩
    rw [getElem?_setBucket_ne hi]
    exact hc

theorem good_splitTable {nodeId : NodeId} {front : List Bucket}
    (ht : Valid ⟨front ++ [b], nodeId⟩) (hx : x ∈ entries ⟨front ++ [b], nodeId⟩)
    (hgood : x.status w = .good) :
    ∃ y ∈ (splitTable w nodeId front b).entries, y.key = x.key ∧ y.status w = .good := by
  have hlive : x.status w ≠ .bad := by rw [hgood]; decide
  simp only [entries, flatMap_append, mem_append, flatMap_singleton] at hx
  have hsize : ∀ p : Node → Bool, (b.nodes.filter p).length ≤ maxBucketSize := fun p =>
    (length_filter_le p b.nodes).trans_eq b.size
  simp only [entries, splitTable, flatMap_append, flatMap_cons, flatMap_nil,
    append_nil, mem_append]
  rcases hx with hx | hx
  · exact ⟨x, Or.inl hx, rfl, hgood⟩
  · rcases Nat.lt_or_eq_of_le (ht.last_nodes hx hlive).1 with hlt | heq
    · obtain ⟨y, hy, hy'⟩ := Bucket.good_fill (hsize (isFar w nodeId front.length))
        (mem_filter.mpr ⟨hx, decide_eq_true ⟨hlive, hlt⟩⟩) hgood
      exact ⟨y, Or.inr (Or.inr hy), hy'⟩
    · obtain ⟨y, hy, hy'⟩ := Bucket.good_fill (hsize (isNear w nodeId front.length))
        (mem_filter.mpr ⟨hx, decide_eq_true ⟨hlive, heq.symm⟩⟩) hgood
      exact ⟨y, Or.inr (Or.inl hy), hy'⟩

theorem Adds.good_stays (h : Adds w n t t') (ht : t.Valid) (hforeign : n.id ≠ t.nodeId)
    (hx : x ∈ t.entries) (hgood : x.status w = .good) :
    ∃ y ∈ t'.entries, y.key = x.key ∧ y.status w = .good := by
  induction h generalizing x with
  | placed hb hspace => exact good_setBucket hb hx hgood
  | refused hb hspace hlimit => exact ⟨x, hx, rfl, hgood⟩
  | split hhome hspace hlimit rest ih =>
    obtain ⟨y, hy, hkey, hy'⟩ := good_splitTable ht hx hgood
    obtain ⟨z, hz, hkey', hz'⟩ := ih (ht.split hlimit) hforeign hy hy'
    exact ⟨z, hz, hkey'.trans hkey, hz'⟩

/-- A node that is not in the table after its run was refused by a full bucket. -/
theorem Adds.full_of_not_mem (h : Adds w n t t') (hlive : n.status w ≠ .bad)
    (hgone : ∀ y ∈ t'.entries, y.key = n.key → y.status w = .bad) :
    ∃ b, t'.buckets[t'.home n]? = some b ∧ ∀ y ∈ b.nodes, n.status w ≤ y.status w ∧ y.key ≠ n.key := by
  induction h with
  | @placed t b hb hspace =>
    have hadd := Bucket.addNode_adding w b n
    rw [hspace] at hadd
    obtain ⟨y, hy, hkey, hle⟩ := hadd.mem_of_space hlive
    have hbad := hgone y (mem_entries.mpr ⟨_, _, getElem?_setBucket_eq hb _, hy⟩) hkey
    rw [hbad] at hle
    exact absurd hle (not_le.mpr (NodeStatus.bad_lt_iff.mpr hlive))
  | @refused t b hb hspace hlimit =>
    have hadd := Bucket.addNode_adding w b n
    rw [hspace] at hadd
    obtain ⟨-, -, hnew, hfull⟩ := hadd.of_no_space
    exact ⟨b, hb, fun y hy => ⟨hfull y hy, hnew y hy⟩⟩
  | split hhome hspace hlimit rest ih => exact ih hgone

/-- Good nodes are stable, and a good node is turned away only by eight good ones. -/
theorem good_nodes_stable (ht : Reachable t) {m : Node} (hcall : addNode w recursionLimit t m = .ok t') :
    (∀ x ∈ t.entries, x.status w = .good → ∃ y ∈ t'.entries, y.key = x.key ∧ y.status w = .good) ∧
    (m.status w = .good → m.id ≠ t.nodeId →
      (∀ y ∈ t'.entries, y.key = m.key → y.status w = .bad) →
      ∃ b, t'.buckets[t'.home m]? = some b ∧ b.nodes.length = 8 ∧
        ∀ y ∈ b.nodes, y.status w = .good ∧ y.key ≠ m.key) := by
  cases addsOrIgnores_of_call ht.valid hcall with
  | ignored hignored =>
    refine ⟨fun x hx hgood => ⟨x, hx, rfl, hgood⟩, fun hgood hforeign _ => ?_⟩
    rcases hignored with hbad | hself
    · rw [hgood] at hbad
      cases hbad
    · exact absurd hself hforeign
  | added hlive hforeign hrun =>
    refine ⟨fun x hx hgood => hrun.good_stays ht.valid hforeign hx hgood, ?_⟩
    intro hgood _ hgone
    obtain ⟨b, hb, hfull⟩ := hrun.full_of_not_mem hlive hgone
    refine ⟨b, hb, b.size, fun y hy => ⟨?_, (hfull y hy).2⟩⟩
    have hle := (hfull y hy).1
    rw [hgood] at hle
    exact le_antisymm (NodeStatus.le_good _) hle

/-- A ninth good node for a bucket is turned away. -/
theorem good_nodes_stable_tenNodes :
    addNode (worldOf (range 11)) recursionLimit tenNodes (nodeOf 136 10) = .ok tenNodes ∧
    (∃ y ∈ tenNodes.entries, y.key = (nodeOf 64 8).key ∧ y.status (worldOf (range 11)) = .good) ∧
    ∃ b, tenNodes.buckets[tenNodes.home (nodeOf 136 10)]? = some b ∧ b.nodes.length = 8 ∧
      ∀ y ∈ b.nodes, y.status (worldOf (range 11)) = .good ∧ y.key ≠ (nodeOf 136 10).key := by
  have hcall : addNode (worldOf (range 11)) recursionLimit tenNodes (nodeOf 136 10) = .ok tenNodes := by
    decide +kernel
  obtain ⟨hstable, hfull⟩ := good_nodes_stable reachable_tenNodes hcall
  exact ⟨hcall, hstable (nodeOf 64 8) (by decide) (by decide), hfull (by decide) (by decide) (by decide)⟩

/-! ### Questionable nodes -/

theorem Adds.getElem?_eq (h : Adds w n t t') (hi : i < t.home n) : t'.buckets[i]? = t.buckets[i]? := by
  induction h with
  | placed hb hspace => exact getElem?_setBucket_ne hi.ne'
  | refused hb hspace hlimit => rfl
  | @split nodeId front b t' hhome hspace hlimit rest ih =>
    rw [hhome] at hi
    have hfront : (splitTable w nodeId front b).home n ≥ front.length := by
      simp only [home, splitTable, length_append, length_cons, length_nil] at hhome ⊢
      omega
    rw [ih (hi.trans_le hfront)]
    simp only [splitTable]
    rw [getElem?_append_left hi, getElem?_append_left hi]

/-- A live node that a run loses is questionable, and lost its slot to a good node or its bucket was
full of live ones. -/
theorem Adds.lost (h : Adds w n t t') (ht : t.Valid) (hlive : n.status w ≠ .bad)
    (hforeign : n.id ≠ t.nodeId) (hb : t.buckets[i]? = some b) (hx : x ∈ b.nodes) (hxlive : x.status w ≠ .bad)
    (hgone : ∀ y ∈ t'.entries, y.key = x.key → y.status w = .bad) : x.status w = .questionable ∧
      ((n.status w = .good ∧ ∃ b', t'.buckets[i]? = some b' ∧ n ∈ b'.nodes) ∨
        ∀ y ∈ b.nodes, y.status w ≠ .bad) := by
  have hstays : t'.buckets[i]? ≠ some b := by
    intro hsame
    exact hxlive (hgone x (mem_entries.mpr ⟨i, b, hsame, hx⟩) rfl)
  have hquestionable : x.status w = .questionable := by
    by_contra hne
    have hgood : x.status w = .good := by
      cases hst : x.status w with
      | bad => exact absurd hst hxlive
      | questionable => exact absurd hst hne
      | good => rfl
    obtain ⟨y, hy, hkey, hy'⟩ := h.good_stays ht hforeign (mem_entries.mpr ⟨i, b, hb, hx⟩) hgood
    rw [hgone y hy hkey] at hy'
    cases hy'
  refine ⟨hquestionable, ?_⟩
  cases h with
  | @placed t c hc hspace =>
    by_cases hi : t.home n = i
    · subst hi
      obtain rfl : c = b := Option.some.inj (hc.symm.trans hb)
      have hset := getElem?_setBucket_eq hc (c.addNode w n).1
      have hlost := (Bucket.addNode_adding w c n).status_lt_of_not_mem hx fun y hy hkey => by
        rw [hgone y (mem_entries.mpr ⟨_, _, hset, hy⟩) hkey]
        exact NodeStatus.bad_lt_iff.mpr hxlive
      exact Or.inl ⟨(NodeStatus.eq_questionable_of_lt hxlive hlost.1).2, _, hset, hlost.2⟩
    · exact absurd (by rw [getElem?_setBucket_ne hi, hb]) hstays
  | refused hc hspace hlimit => exact absurd hb hstays
  | @split nodeId front c t' hhome hspace hlimit rest =>
    have hrun : Adds w n ⟨front ++ [c], nodeId⟩ t' := .split hhome hspace hlimit rest
    rcases Nat.lt_or_ge i front.length with hi | hi
    · exact absurd ((hrun.getElem?_eq (hhome.symm ▸ hi)).trans hb) hstays
    · have hlt := (List.getElem?_eq_some_iff.mp hb).1
      simp only [length_append, length_singleton] at hlt
      obtain rfl : i = front.length := by omega
      obtain rfl : c = b := by simpa using hb
      have hadd := Bucket.addNode_adding w c n
      rw [hspace] at hadd
      refine Or.inr fun y hy hbad => ?_
      have hle := hadd.of_no_space.2.2.2 y hy
      rw [hbad] at hle
      exact absurd hle (not_le.mpr (NodeStatus.bad_lt_iff.mpr hlive))

/-- What a call may cost: a live node that was stored and is not any more. -/
theorem lost_node (ht : Reachable t) {m : Node} (hcall : addNode w recursionLimit t m = .ok t')
    {i : Nat} {b : Bucket} (hb : t.buckets[i]? = some b) {x : Node} (hx : x ∈ b.nodes)
    (hlive : x.status w ≠ .bad) (hgone : ∀ y ∈ t'.entries, y.key = x.key → y.status w = .bad) :
    x.status w = .questionable ∧
      ((m.status w = .good ∧ ∃ b', t'.buckets[i]? = some b' ∧ m ∈ b'.nodes) ∨
        ∀ y ∈ b.nodes, y.status w ≠ .bad) := by
  cases addsOrIgnores_of_call ht.valid hcall with
  | ignored hignored => exact absurd (hgone x (mem_entries.mpr ⟨i, b, hb, hx⟩) rfl) hlive
  | added hlive' hforeign hrun => exact hrun.lost ht.valid hlive' hforeign hb hx hlive hgone

theorem lost_node_to_good :
    addNode (worldOf [1]) recursionLimit oneNode (nodeOf 129 1) =
      .ok (tableOf (idOf 0) [nodeOf 129 1] (by decide)) ∧
    (nodeOf 128 0).status (worldOf [1]) = .questionable ∧
    (nodeOf 129 1).status (worldOf [1]) = .good ∧ ∃ b',
      (tableOf (idOf 0) [nodeOf 129 1] (by decide)).buckets[0]? = some b' ∧ nodeOf 129 1 ∈ b'.nodes := by
  have hcall : addNode (worldOf [1]) recursionLimit oneNode (nodeOf 129 1) =
      .ok (tableOf (idOf 0) [nodeOf 129 1] (by decide)) := by decide +kernel
  have hb : oneNode.buckets[0]? =
      some ⟨nodeOf 128 0 :: replicate 7 Bucket.placeholder, rfl⟩ := rfl
  obtain ⟨hstatus, hlost⟩ := lost_node reachable_oneNode hcall hb (x := nodeOf 128 0) (by decide) (by decide)
    (by decide)
  exact ⟨hcall, hstatus, hlost.resolve_right (by decide)⟩

theorem length_lastSeven : (eightNodes.tail ++ [Bucket.placeholder]).length = maxBucketSize := rfl

theorem length_ninth : (nodeOf 64 8 :: replicate 7 Bucket.placeholder).length = maxBucketSize := rfl

/-- The last seven of the eight nodes in one bucket, and a ninth node in the next. -/
def sevenNodesSplit : RoutingTable := ⟨[⟨_, length_lastSeven⟩, ⟨_, length_ninth⟩], idOf 0⟩

/-- A questionable node is lost to a good one with seven bad slots left in its bucket. Another is
lost in a split whose good nodes are replayed after it, with a bad slot left in its new bucket. -/
theorem questionable_lost :
    (Reachable oneNode ∧
      addNode (worldOf [1]) recursionLimit oneNode (nodeOf 129 1) =
        .ok (tableOf (idOf 0) [nodeOf 129 1] (by decide)) ∧
      nodeOf 128 0 ∈ oneNode.entries ∧ (nodeOf 128 0).status (worldOf [1]) = .questionable ∧
      (∀ y ∈ (tableOf (idOf 0) [nodeOf 129 1] (by decide)).entries, y.key ≠ (nodeOf 128 0).key) ∧
      ∃ b, oneNode.buckets = [b] ∧ ∃ y ∈ b.nodes, y.status (worldOf [1]) = .bad) ∧
    (Reachable (tableOf (idOf 0) eightNodes (by decide)) ∧
      addNode (worldOf [1, 2, 3, 4, 5, 6, 7]) recursionLimit
        (tableOf (idOf 0) eightNodes (by decide)) (nodeOf 64 8) = .ok sevenNodesSplit ∧
      nodeOf 128 0 ∈ (tableOf (idOf 0) eightNodes (by decide)).entries ∧
      (nodeOf 128 0).status (worldOf [1, 2, 3, 4, 5, 6, 7]) = .questionable ∧
      ∀ y ∈ sevenNodesSplit.entries, y.key ≠ (nodeOf 128 0).key) := by
  refine ⟨⟨reachable_oneNode, by decide +kernel, by decide, by decide, by decide, _, rfl, by decide⟩,
    ?_, by decide +kernel, by decide, by decide, by decide⟩
  exact Reachable.addAll (.new (idOf 0)) (worldOf []) eightNodes (by decide +kernel)

end BitTorrent.Dht.RoutingTable
