import BitTorrent.DhtTableRun

/-! The tables a program can reach. Every run keeps a table valid, so a table built by any sequence of
calls, each in its own world, is valid; and what validity says of the nodes ever added holds in every
world of the nodes that are live in it. -/

namespace BitTorrent.Dht.RoutingTable

open Rust List

variable {t t' : RoutingTable} {w : World} {n : Node}

theorem Adds.valid (h : Adds w n t t') (ht : t.Valid) (hforeign : n.id ≠ t.nodeId) : t'.Valid := by
  induction h with
  | placed hb hspace => exact ht.addNode hforeign hb
  | refused hb hspace hlimit => exact ht
  | split hhome hspace hlimit rest ih => exact ih (ht.split hlimit) hforeign

theorem AddsOrIgnores.valid (h : AddsOrIgnores w n t t') (ht : t.Valid) : t'.Valid := by
  cases h with
  | ignored h => exact ht
  | added hlive hforeign hrun => exact hrun.valid ht hforeign

/-- The tables built by `new` and any number of calls of `add_node`. -/
inductive Reachable : RoutingTable → Prop where
  | new (nodeId : NodeId) : Reachable (new nodeId)
  | add {t t' : RoutingTable} (w : World) (n : Node) (ht : Reachable t)
      (hcall : addNode w recursionLimit t n = .ok t') : Reachable t'

theorem addsOrIgnores_of_call (ht : t.Valid)
    (hcall : addNode w recursionLimit t n = .ok t') : AddsOrIgnores w n t t' := by
  obtain ⟨t'', hrun, hall⟩ := addNode_run ht w n
  rw [hall recursionLimit le_rfl, Except.ok.injEq] at hcall
  exact hcall ▸ hrun

theorem Reachable.valid (h : Reachable t) : t.Valid := by
  induction h with
  | new nodeId => exact valid_new nodeId
  | add w n ht hcall ih => exact (addsOrIgnores_of_call ih hcall).valid ih

def addAll (w : World) (t : RoutingTable) (nodes : List Node) : Run Empty RoutingTable :=
  nodes.foldlM (addNode w recursionLimit) t

theorem Reachable.addAll (ht : Reachable t) (w : World) (nodes : List Node)
    (hcalls : addAll w t nodes = .ok t') : Reachable t' := by
  induction nodes generalizing t with
  | nil =>
    cases hcalls
    exact ht
  | cons n nodes ih =>
    rw [RoutingTable.addAll, foldlM_cons] at hcalls
    obtain ⟨t₁, hcall, hrest⟩ := bind_eq_ok.mp hcalls
    exact ih (.add w n ht hcall) hrest

def entries (t : RoutingTable) : List Node := t.buckets.flatMap Bucket.nodes

theorem mem_entries {node : Node} :
    node ∈ t.entries ↔ ∃ (i : Nat) (b : Bucket), t.buckets[i]? = some b ∧ node ∈ b.nodes := by
  rw [entries, mem_flatMap]
  constructor
  · rintro ⟨b, hb, hnode⟩
    obtain ⟨i, hi⟩ := mem_iff_getElem?.mp hb
    exact ⟨i, b, hi, hnode⟩
  · rintro ⟨i, b, hb, hnode⟩
    exact ⟨b, mem_of_getElem? hb, hnode⟩

variable {x : Node}

theorem home_congr {y : Node} (h : x.key = y.key) : t.home x = t.home y := by
  rw [home, home, show x.id = y.id from congrArg Prod.fst h]

theorem Valid.leadingBitCount_lt (ht : t.Valid) (hx : x ∈ t.entries) (hreal : ¬ x.IsPlaceholder) :
    leadingBitCount t.nodeId x.id < maxBuckets := by
  obtain ⟨b, hb, hmem⟩ := mem_flatMap.mp hx
  exact lt_of_le_of_ne leadingBitCount_le (foreign_iff.mp (ht.foreign b hb x hmem hreal))

theorem Valid.pairwise_live (ht : t.Valid) (w : World) :
    (t.entries.filter fun node => node.status w ≠ .bad).Pairwise fun x y => x.key ≠ y.key := by
  rw [entries, filter_flatMap, pairwise_flatMap]
  constructor
  · intro b hb
    rw [pairwise_filter]
    refine (ht.distinct b hb).imp fun h _ hlive hkey => ?_
    exact of_decide_eq_true hlive (Node.status_of_isPlaceholder (h hkey) w)
  · rw [pairwise_iff_getElem]
    intro i j hi hj hij x hx y hy hkey
    obtain ⟨hx, hxlive⟩ := mem_filter.mp hx
    obtain ⟨hy, hylive⟩ := mem_filter.mp hy
    have hhomex := ht.home_eq i _ (getElem?_eq_getElem hi) x hx
      (Node.not_isPlaceholder_of_status (of_decide_eq_true hxlive))
    have hhomey := ht.home_eq j _ (getElem?_eq_getElem hj) y hy
      (Node.not_isPlaceholder_of_status (of_decide_eq_true hylive))
    rw [home_congr hkey, hhomey] at hhomex
    omega

/-- The representation invariant of every reachable table, and the end of every call on it. -/
theorem reachable_invariant {t : RoutingTable} (h : Reachable t) :
    1 ≤ t.buckets.length ∧ t.buckets.length ≤ 160 ∧
    (∀ (w : World) (i : Nat) (b : Bucket), t.buckets[i]? = some b → ∀ node ∈ b.nodes,
      node.status w ≠ .bad →
        (i + 1 < t.buckets.length → leadingBitCount t.nodeId node.id = i) ∧
        (i + 1 = t.buckets.length → i ≤ leadingBitCount t.nodeId node.id)) ∧
    (∀ w : World,
      (t.entries.filter fun node => node.status w ≠ .bad).Pairwise fun x y => x.key ≠ y.key) ∧
    (∀ node ∈ t.entries, ¬ node.IsPlaceholder → node.id ≠ t.nodeId) ∧
    ∀ (w : World) (n : Node), ∃ t', ∀ fuel, recursionLimit ≤ fuel → addNode w fuel t n = .ok t' := by
  have ht := h.valid
  refine ⟨ht.pos, ht.le, ?_, ht.pairwise_live, ?_, ?_⟩
  · intro w i b hb node hnode hlive
    have hhome := ht.home_eq i b hb node hnode (Node.not_isPlaceholder_of_status hlive)
    rw [home] at hhome
    omega
  · intro node hnode hreal
    obtain ⟨i, b, hb, hmem⟩ := mem_entries.mp hnode
    exact ht.foreign b (mem_of_getElem? hb) node hmem hreal
  · intro w n
    obtain ⟨t', -, hall⟩ := addNode_run ht w n
    exact ⟨t', hall⟩

/-! ### Small tables -/

/-- An id whose bytes after the first are zero. -/
def idOf (first : UInt8) : NodeId := ⟨first :: replicate 19 0, rfl⟩

def nodeOf (first : UInt8) (cell : Nat) : Node :=
  ⟨idOf first, .v4 (octets 10 0 0 1) 6881, some cell⟩

/-- A world in which the given cells are good and all others questionable. -/
def worldOf (good : List Nat) : World :=
  ⟨0, fun cell => if cell ∈ good then .asGood 0 else .asQuestionable 0⟩

/-- A table with the given nodes at the front of its only bucket. -/
def tableOf (nodeId : NodeId) (nodes : List Node) (hsize : nodes.length ≤ maxBucketSize) :
    RoutingTable :=
  ⟨[⟨nodes ++ replicate (maxBucketSize - nodes.length) Bucket.placeholder, by
    rw [length_append, length_replicate]
    omega⟩], nodeId⟩

def oneNode : RoutingTable := tableOf (idOf 0) [nodeOf 128 0] (by decide)

theorem reachable_oneNode : Reachable oneNode :=
  .add (worldOf [0]) (nodeOf 128 0) (.new (idOf 0)) (by decide +kernel)

/-- Eight nodes that share no bit with the local one. -/
def eightNodes : List Node :=
  [nodeOf 128 0, nodeOf 129 1, nodeOf 130 2, nodeOf 131 3, nodeOf 132 4, nodeOf 133 5,
    nodeOf 134 6, nodeOf 135 7]

/-- Two nodes that share a bit with it, and one of them a second one. -/
def nextNodes : List Node := [nodeOf 64 8, nodeOf 32 9]

theorem length_eightNodes : eightNodes.length = maxBucketSize := rfl

theorem length_nextNodes : (nextNodes ++ replicate 6 Bucket.placeholder).length = maxBucketSize := rfl

/-- The table after its first split. -/
def tenNodes : RoutingTable := ⟨[⟨_, length_eightNodes⟩, ⟨_, length_nextNodes⟩], idOf 0⟩

theorem reachable_tenNodes : Reachable tenNodes :=
  .addAll (.new (idOf 0)) (worldOf (range 10)) (eightNodes ++ nextNodes) (by decide +kernel)

theorem reachable_invariant_tenNodes :
    tenNodes.buckets.length ≤ 160 ∧ (∀ node ∈ eightNodes, leadingBitCount (idOf 0) node.id = 0) ∧
    (∀ node ∈ nextNodes, 1 ≤ leadingBitCount (idOf 0) node.id) ∧
    (tenNodes.entries.filter fun node => node.status (worldOf []) ≠ .bad).Pairwise (fun x y => x.key ≠ y.key) ∧
    (∀ node ∈ eightNodes ++ nextNodes, node.id ≠ idOf 0) ∧
    ∃ t, addNode (worldOf []) recursionLimit tenNodes (nodeOf 16 10) = .ok t := by
  obtain ⟨-, hle, hplaces, hpairwise, hforeign, hadds⟩ := reachable_invariant reachable_tenNodes
  obtain ⟨t, ht⟩ := hadds (worldOf []) (nodeOf 16 10)
  refine ⟨hle, fun node hnode => ?_, fun node hnode => ?_, hpairwise _, fun node hnode => ?_, t, ht _ le_rfl⟩
  · exact (hplaces (worldOf []) 0 _ rfl node hnode (by revert node; decide)).1 (by decide)
  · exact (hplaces (worldOf []) 1 _ rfl node (mem_append_left _ hnode) (by revert node; decide)).2 rfl
  · exact hforeign node (by revert node; decide) (by revert node; unfold Node.IsPlaceholder; decide)

end BitTorrent.Dht.RoutingTable
