import BitTorrent.DhtBucket

/-! The routing table and the way a node gets into it. `add_node`, `bucket_node` and `split_bucket` call
each other, so they share a recursion limit here and running out of it is divergence; indexing and
subtraction panic as they do in the source. No call returns an error. -/

namespace BitTorrent.Dht

open Rust List

def maxBuckets : Nat := shaHashLen * 8

structure RoutingTable where
  buckets : List Bucket
  nodeId : NodeId
  deriving DecidableEq

namespace RoutingTable

def new (nodeId : NodeId) : RoutingTable := ⟨[Bucket.new], nodeId⟩

def bucketPlacement (numSameBits numBuckets : Nat) : Run Empty Nat :=
  let idealIndex := numSameBits
  if idealIndex ≥ numBuckets then subUsize numBuckets 1 else .ok idealIndex

def canSplitBucket (numBuckets bucketIndex : Nat) : Run Empty Bool := do
  let lastIndex ← subUsize numBuckets 1
  .ok (bucketIndex = lastIndex && bucketIndex ≠ maxBuckets - 1)

mutual

def addNode (w : World) : Nat → RoutingTable → Node → Run Empty RoutingTable
  | 0, _, _ => .error .diverge
  | fuel + 1, table, node =>
    if node.status w = .bad then .ok table
    else
      let numSameBits := leadingBitCount table.nodeId node.id
      if numSameBits ≠ maxBuckets then bucketNode w fuel table node numSameBits else .ok table

def bucketNode (w : World) : Nat → RoutingTable → Node → Nat → Run Empty RoutingTable
  | 0, _, _, _ => .error .diverge
  | fuel + 1, table, node, numSameBits => do
    let bucketIndex ← bucketPlacement numSameBits table.buckets.length
    let bucket ← index table.buckets bucketIndex
    let (bucket, space) := bucket.addNode w node
    let table : RoutingTable := ⟨table.buckets.set bucketIndex bucket, table.nodeId⟩
    if space then .ok table
    else
      let (table, split) ← splitBucket w fuel table bucketIndex
      if split then bucketNode w fuel table node numSameBits else .ok table

/-- The result is the table and whether the split could be performed. -/
def splitBucket (w : World) : Nat → RoutingTable → Nat → Run Empty (RoutingTable × Bool)
  | 0, _, _ => .error .diverge
  | fuel + 1, table, bucketIndex => do
    let canSplit ← canSplitBucket table.buckets.length bucketIndex
    if canSplit then
      match table.buckets.getLast? with
      | none => .error .panic
      | some popped =>
        let table : RoutingTable :=
          ⟨table.buckets.dropLast ++ [Bucket.new, Bucket.new], table.nodeId⟩
        let table ← popped.nodes.foldlM (fun table node => addNode w fuel table node) table
        .ok (table, true)
    else .ok (table, false)

end

/-! ### Where a node belongs -/

/-- The bucket a node is put into, in a table with at least one bucket. -/
def home (t : RoutingTable) (node : Node) : Nat :=
  min (leadingBitCount t.nodeId node.id) (t.buckets.length - 1)

theorem bucketPlacement_eq {numSameBits numBuckets : Nat} (h : 0 < numBuckets) :
    bucketPlacement numSameBits numBuckets = .ok (min numSameBits (numBuckets - 1)) := by
  unfold bucketPlacement
  by_cases hlarge : numSameBits ≥ numBuckets
  · simp only [if_pos hlarge, subUsize, if_pos (show 1 ≤ numBuckets from h)]
    rw [Nat.min_eq_right (by omega)]
  · simp only [if_neg hlarge]
    rw [Nat.min_eq_left (by omega)]

theorem canSplitBucket_eq {numBuckets bucketIndex : Nat} (h : 0 < numBuckets) :
    canSplitBucket numBuckets bucketIndex =
      .ok (decide (bucketIndex + 1 = numBuckets ∧ numBuckets ≠ maxBuckets)) := by
  have hmax : maxBuckets = 160 := rfl
  rw [canSplitBucket, subUsize, if_pos (show 1 ≤ numBuckets from h), ok_bind, ← Bool.decide_and]
  congr 2
  rw [hmax, eq_iff_iff]
  omega

/-- What a table owes its readers: every node that was ever added is in the bucket it belongs to, is
not the local node, and is there once. -/
structure Valid (t : RoutingTable) : Prop where
  pos : 0 < t.buckets.length
  le : t.buckets.length ≤ maxBuckets
  home_eq : ∀ i b, t.buckets[i]? = some b → ∀ node ∈ b.nodes, ¬ node.IsPlaceholder → t.home node = i
  foreign : ∀ b ∈ t.buckets, ∀ node ∈ b.nodes, ¬ node.IsPlaceholder → node.id ≠ t.nodeId
  distinct : ∀ b ∈ t.buckets, b.nodes.Pairwise fun x y => x.key = y.key → y.IsPlaceholder

theorem valid_new (nodeId : NodeId) : (new nodeId).Valid := by
  have hnew : ∀ b ∈ (new nodeId).buckets, b = Bucket.new := fun b hb => mem_singleton.mp hb
  refine ⟨Nat.one_pos, ?_, ?_, ?_, ?_⟩
  · show 1 ≤ 160
    decide
  · intro i b hb node hnode hreal
    rw [hnew b (mem_of_getElem? hb)] at hnode
    exact absurd (Bucket.isPlaceholder_of_mem_new hnode) hreal
  · intro b hb node hnode hreal
    rw [hnew b hb] at hnode
    exact absurd (Bucket.isPlaceholder_of_mem_new hnode) hreal
  · intro b hb
    rw [hnew b hb]
    exact Bucket.distinct_new

theorem home_lt {t : RoutingTable} (h : 0 < t.buckets.length) (node : Node) :
    t.home node < t.buckets.length :=
  lt_of_le_of_lt (Nat.min_le_right _ _) (Nat.sub_lt h Nat.one_pos)

def setBucket (t : RoutingTable) (i : Nat) (b : Bucket) : RoutingTable := ⟨t.buckets.set i b, t.nodeId⟩

theorem home_setBucket (t : RoutingTable) (i : Nat) (b : Bucket) (node : Node) :
    (t.setBucket i b).home node = t.home node := by
  rw [home, home, setBucket, length_set]

theorem Valid.setBucket {t : RoutingTable} (ht : t.Valid) {i : Nat} {b' : Bucket}
    (hhome : ∀ node ∈ b'.nodes, ¬ node.IsPlaceholder → t.home node = i)
    (hforeign : ∀ node ∈ b'.nodes, ¬ node.IsPlaceholder → node.id ≠ t.nodeId)
    (hdistinct : b'.nodes.Pairwise fun x y => x.key = y.key → y.IsPlaceholder) :
    (t.setBucket i b').Valid := by
  have hlen : (t.setBucket i b').buckets.length = t.buckets.length := length_set
  refine ⟨hlen ▸ ht.pos, hlen ▸ ht.le, ?_, ?_, ?_⟩
  · intro j b hb node hnode hreal
    rw [home_setBucket]
    rw [RoutingTable.setBucket, getElem?_set] at hb
    split at hb
    · rename_i hij
      split at hb
      · rw [← Option.some.inj hb] at hnode
        rw [← hij]
        exact hhome node hnode hreal
      · cases hb
    · exact ht.home_eq j b hb node hnode hreal
  · intro b hb node hnode hreal
    rcases mem_or_eq_of_mem_set hb with hb | rfl
    · exact ht.foreign b hb node hnode hreal
    · exact hforeign node hnode hreal
  · intro b hb
    rcases mem_or_eq_of_mem_set hb with hb | rfl
    · exact ht.distinct b hb
    · exact hdistinct

theorem Valid.addNode {t : RoutingTable} (ht : t.Valid) {w : World} {n : Node}
    (hforeign : n.id ≠ t.nodeId) {b : Bucket} (hb : t.buckets[t.home n]? = some b) :
    (t.setBucket (t.home n) (b.addNode w n).1).Valid := by
  have hadd := Bucket.addNode_adding w b n
  have hmem := mem_of_getElem? hb
  refine ht.setBucket ?_ ?_ (hadd.distinct (ht.distinct b hmem))
  · intro node hnode hreal
    rcases hadd.mem_of_mem hnode with hnode | ⟨rfl, -⟩
    · exact ht.home_eq _ b hb node hnode hreal
    · rfl
  · intro node hnode hreal
    rcases hadd.mem_of_mem hnode with hnode | ⟨rfl, -⟩
    · exact ht.foreign b hmem node hnode hreal
    · exact hforeign

end RoutingTable

end BitTorrent.Dht
