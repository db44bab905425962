import BitTorrent.DhtBucketOrder
import BitTorrent.DhtTableInvariant

/-! The iterator over the closest nodes. It visits all places a bucket can have, first the one of the
target and then to both sides of it. At a place with a bucket of its own it hands out the nodes of that
bucket, and at every place the nodes of the unsorted last bucket that would belong there, which it
marks as it goes. `left` is what it has still to hand out. -/

namespace BitTorrent.Dht

open Rust List Option

/-- The live nodes, good or questionable. -/
def isGoodNode : World → Node → Bool := Bucket.isPingable

/-- A node of the unsorted bucket: where it would belong, and whether it was returned before. -/
structure AssortedNode where
  bucketIndex : Nat
  node : Node
  returned : Bool

structure ClosestNodes where
  buckets : List Bucket
  currentIter : Option (List Node)
  currentIndex : Nat
  startIndex : Nat
  assortedNodes : Option (List AssortedNode)

namespace ClosestNodes

/-- The nodes of the unsorted bucket, each with the place it would have. -/
def precomputeAssortedNodes (buckets : List Bucket) (selfNodeId : NodeId) :
    Run Empty (Option (List AssortedNode)) := do
  if buckets.length = maxBuckets then .ok none
  else
    let lastIndex ← subUsize buckets.length 1
    let assortedBucket ← index buckets lastIndex
    match assortedBucket.nodes with
    | [] => .ok none
    | initReference :: _ =>
      let blank := replicate maxBucketSize (AssortedNode.mk 0 initReference true)
      let assortedNodes := assortedBucket.nodes.zipIdx.foldl
        (fun assortedNodes entry =>
          let bucketIndex := leadingBitCount selfNodeId entry.1.id
          assortedNodes.set entry.2 ⟨bucketIndex, entry.1, false⟩) blank
      .ok (some assortedNodes)

/-- The nodes of the sorted bucket at an index. -/
def bucketIterator (buckets : List Bucket) (i : Nat) : Option (List Node) :=
  (if buckets.length = maxBuckets then buckets
    else buckets.take (buckets.length - 1))[i]?.map Bucket.nodes

/-- Without any bucket the source panics in `bucket_iterator` already, before the panic here. -/
def new (buckets : List Bucket) (selfNodeId otherNodeId : NodeId) : Run Empty ClosestNodes := do
  let startIndex := leadingBitCount selfNodeId otherNodeId
  let assortedNodes ← precomputeAssortedNodes buckets selfNodeId
  .ok ⟨buckets, bucketIterator buckets startIndex, startIndex, startIndex, assortedNodes⟩

/-- `next` of the filtered slice iterator. -/
def nextGood (w : World) : List Node → Option (Node × List Node)
  | [] => none
  | node :: rest => if isGoodNode w node then some (node, rest) else nextGood w rest

/-- The first assorted node for an index that was not returned before, marked as returned. -/
def takeAssorted (w : World) (currentIndex : Nat) (nodes : List AssortedNode) :
    Option (Node × List AssortedNode) :=
  match nodes.findFinIdx? fun tup =>
      isGoodNode w tup.node && (tup.bucketIndex = currentIndex && !tup.returned) with
  | some i =>
    let tup := nodes.get i
    some (tup.node, nodes.set i ⟨tup.bucketIndex, tup.node, true⟩)
  | none => none

def next (w : World) (s : ClosestNodes) : Option Node × ClosestNodes :=
  match s.currentIter.bind (nextGood w) with
  | some (node, rest) =>
    (some node, ⟨s.buckets, some rest, s.currentIndex, s.startIndex, s.assortedNodes⟩)
  | none =>
    -- an iterator without a good node left is used up
    let currentIter := s.currentIter.map fun _ => []
    match s.assortedNodes.bind (takeAssorted w s.currentIndex) with
    | some (node, nodes) =>
      (some node, ⟨s.buckets, currentIter, s.currentIndex, s.startIndex, some nodes⟩)
    | none =>
      match _h : nextBucketIndex maxBuckets s.startIndex s.currentIndex with
      | some newIndex =>
        next w ⟨s.buckets, bucketIterator s.buckets newIndex, newIndex, s.startIndex,
          s.assortedNodes⟩
      | none => (none, ⟨s.buckets, currentIter, s.currentIndex, s.startIndex, s.assortedNodes⟩)
termination_by 2 * (maxBuckets + s.startIndex) - turn s.startIndex s.currentIndex
decreasing_by
  obtain ⟨hlt, hbound⟩ := turn_lt_of_next maxBuckets_le _h
  have := turn_le s.startIndex hbound
  omega

/-! ### What is left to hand out -/

def sortedAt (w : World) (buckets : List Bucket) (i : Nat) : List Node :=
  ((bucketIterator buckets i).getD []).filter (isGoodNode w)

/-- The assorted nodes for an index that are still to be handed out. -/
def assortedAt (w : World) (nodes : Option (List AssortedNode)) (i : Nat) : List Node :=
  ((nodes.getD []).filter fun tup =>
    isGoodNode w tup.node && (tup.bucketIndex = i && !tup.returned)).map AssortedNode.node

def left (w : World) (s : ClosestNodes) : List Node :=
  (s.currentIter.getD []).filter (isGoodNode w) ++ assortedAt w s.assortedNodes s.currentIndex ++
    (visitsFrom s.startIndex s.currentIndex).flatMap fun i =>
      sortedAt w s.buckets i ++ assortedAt w s.assortedNodes i

variable {w : World}

theorem nextGood_eq_some {nodes rest : List Node} {node : Node} (h : nextGood w nodes = some (node, rest)) :
    nodes.filter (isGoodNode w) = node :: rest.filter (isGoodNode w) := by
  induction nodes with
  | nil => cases h
  | cons first nodes ih =>
    rw [nextGood] at h
    by_cases hgood : isGoodNode w first = true
    · rw [if_pos hgood] at h
      cases h
      rw [filter_cons_of_pos hgood]
    · rw [if_neg hgood] at h
      rw [filter_cons_of_neg hgood, ih h]

theorem nextGood_eq_none {nodes : List Node} (h : nextGood w nodes = none) :
    nodes.filter (isGoodNode w) = [] := by
  induction nodes with
  | nil => rfl
  | cons first nodes ih =>
    rw [nextGood] at h
    by_cases hgood : isGoodNode w first = true
    · rw [if_pos hgood] at h
      cases h
    · rw [if_neg hgood] at h
      rw [filter_cons_of_neg hgood, ih h]

theorem assortedAt_split {l₁ l₂ : List AssortedNode} {x : AssortedNode} {i : Nat} :
    assortedAt w (some (l₁ ++ x :: l₂)) i =
      assortedAt w (some l₁) i ++ (assortedAt w (some [x]) i ++ assortedAt w (some l₂) i) := by
  simp only [assortedAt, getD_some, ← map_append, ← filter_append, singleton_append]

/-- Taking an assorted node takes it off its own index and no other. -/
theorem takeAssorted_eq_some {nodes nodes' : List AssortedNode} {i : Nat} {node : Node}
    (h : takeAssorted w i nodes = some (node, nodes')) :
    assortedAt w (some nodes) i = node :: assortedAt w (some nodes') i ∧
      ∀ j, j ≠ i → assortedAt w (some nodes) j = assortedAt w (some nodes') j := by
  unfold takeAssorted at h
  split at h
  · rename_i k hk
    obtain ⟨l₁, x, l₂, hl, hget, hset, hx, hbefore⟩ := Bucket.findFinIdx?_split hk
    simp only [hget, hset] at h
    cases h
    have hfirst : assortedAt w (some l₁) i = [] := by
      rw [assortedAt, getD_some, map_eq_nil_iff, filter_eq_nil_iff]
      exact hbefore
    have hmarked : ∀ j, assortedAt w (some [⟨x.bucketIndex, x.node, true⟩]) j = [] := by
      intro j
      simp [assortedAt]
    simp only [Bool.and_eq_true, decide_eq_true_eq] at hx
    rw [hl]
    refine ⟨?_, fun j hj => ?_⟩
    · rw [assortedAt_split, assortedAt_split, hfirst, hmarked]
      simp [assortedAt, hx]
    · rw [assortedAt_split, assortedAt_split, hmarked]
      have hother : assortedAt w (some [x]) j = [] := by
        simp [assortedAt, hx.2.1, Ne.symm hj]
      rw [hother]
  · cases h

theorem takeAssorted_eq_none {nodes : List AssortedNode} {i : Nat}
    (h : takeAssorted w i nodes = none) : assortedAt w (some nodes) i = [] := by
  unfold takeAssorted at h
  split at h
  · cases h
  · rename_i hnone
    rw [assortedAt, getD_some, map_eq_nil_iff, filter_eq_nil_iff]
    exact findFinIdx?_eq_none_iff.mp hnone

theorem filter_of_iter_none {iter : Option (List Node)} (h : iter.bind (nextGood w) = none) :
    (iter.getD []).filter (isGoodNode w) = [] := by
  cases iter with
  | none => rfl
  | some nodes => exact nextGood_eq_none h

theorem assortedAt_of_none {nodes : Option (List AssortedNode)} {i : Nat}
    (h : nodes.bind (takeAssorted w i) = none) : assortedAt w nodes i = [] := by
  cases nodes with
  | none => rfl
  | some nodes => exact takeAssorted_eq_none h

theorem left_next (w : World) (s : ClosestNodes) :
    left w s = match next w s with
      | (some node, s') => node :: left w s'
      | (none, _) => [] := by
  fun_induction next w s with
  | case1 s node rest hiter =>
    obtain ⟨nodes, hnodes, hgood⟩ := bind_eq_some_iff.mp hiter
    simp only [left, hnodes, getD_some, nextGood_eq_some hgood, cons_append]
  | case2 s hiter currentIter node nodes hassorted =>
    obtain ⟨nodes', hnodes, htake⟩ := bind_eq_some_iff.mp hassorted
    obtain ⟨hcurr, hother⟩ := takeAssorted_eq_some htake
    have hused : (currentIter.getD []).filter (isGoodNode w) = [] := by
      cases hs : s.currentIter <;> simp [currentIter, hs]
    have hrest : ∀ i ∈ visitsFrom s.startIndex s.currentIndex,
        sortedAt w s.buckets i ++ assortedAt w (some nodes') i =
          sortedAt w s.buckets i ++ assortedAt w (some nodes) i := by
      intro i hi
      rw [hother i]
      rintro rfl
      exact absurd (turn_lt_of_mem_visitsFrom hi) (lt_irrefl _)
    simp only [left, filter_of_iter_none hiter, hused, hnodes, nil_append, hcurr,
      cons_append, flatMap_congr hrest]
  | case3 s hiter hassorted newIndex hnext ih =>
    rw [← ih]
    simp only [left, filter_of_iter_none hiter, assortedAt_of_none hassorted, nil_append,
      visitsFrom_of_some hnext, flatMap_cons, sortedAt]
  | case4 s hiter currentIter hassorted hnext =>
    simp only [left, filter_of_iter_none hiter, assortedAt_of_none hassorted, nil_append,
      visitsFrom_of_none hnext, flatMap_nil]

theorem left_of_some {s s' : ClosestNodes} {node : Node} (h : next w s = (some node, s')) :
    left w s = node :: left w s' := by
  rw [left_next, h]

def iter (w : World) : Iter ClosestNodes Node where
  next := next w
  rank s := (left w s).length
  rank_lt := by
    intro s node s' h
    rw [left_of_some h, length_cons]
    exact Nat.lt_succ_self _

theorem toList_eq_left (w : World) (s : ClosestNodes) : (iter w).toList s = left w s := by
  refine (iter w).toList_eq_of_spec (left w) (fun s node s' h => left_of_some h) (fun s s' h => ?_) s
  rw [left_next, show next w s = _ from h]

end ClosestNodes

end BitTorrent.Dht
