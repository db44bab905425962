import BitTorrent.DhtPicks

/-! The list of all nodes a lookup has heard of. A node is entered where a binary search finds its distance,
unless the search hits upon that very node. The list stays sorted and keeps every node. But several
nodes can share an id, and with it their distance: if a node comes again, the search may hit upon
another node of that id, and then the node is entered a second time. The results hold for any search
that keeps the contract of `binary_search_by`, which leaves open which of several matches is found. -/

namespace BitTorrent.Dht.TableLookup

open Rust List

/-! ### Searches -/

abbrev Search := (nodes : List SortedNode) → ShaHash → Except (Fin (nodes.length + 1)) (Fin nodes.length)

def SortedByDistance (nodes : List SortedNode) : Prop := nodes.Pairwise fun a b => a.dist.hash ≤ b.dist.hash

/-- In a sorted list some match is found, or, if there is none, the place to insert one. -/
structure Search.Valid (search : Search) : Prop where
  ok : ∀ nodes dist i, SortedByDistance nodes → search nodes dist = .ok i → (nodes.get i).dist = dist
  error : ∀ nodes dist i, SortedByDistance nodes → search nodes dist = .error i →
    ∀ j : Fin nodes.length, (j.val < i.val → (nodes.get j).dist.hash < dist.hash) ∧
      (i.val ≤ j.val → dist.hash < (nodes.get j).dist.hash)

/-- `insert_sorted_node` over a given search. -/
def insertSortedNodeBy (search : Search) (target : InfoHash) (nodes : List SortedNode) (node : NodeKey)
    (pinged : Bool) : List SortedNode :=
  let nodeDist := target.xor node.1
  match search nodes nodeDist with
  | .ok dupIndex =>
    if (nodes.get dupIndex).node ≠ node then nodes.insertIdx dupIndex ⟨nodeDist, node, pinged⟩
    else nodes
  | .error insIndex => nodes.insertIdx insIndex ⟨nodeDist, node, pinged⟩

def insertSortedNodes (search : Search) (target : InfoHash) (calls : List (NodeKey × Bool)) : List SortedNode :=
  calls.foldl (fun nodes call => insertSortedNodeBy search target nodes call.1 call.2) []

/-! ### The search of the program -/

def binarySearch : Search := fun nodes dist => binarySearchBy (fun n => n.dist.cmp dist) nodes

variable {a b : ShaHash}

theorem cmp_eq_lt : a.cmp b = .lt ↔ a.hash < b.hash := by
  rw [ShaHash.cmp]
  split
  · rename_i hlt
    exact ⟨fun _ => hlt, fun _ => rfl⟩
  · rename_i hlt
    refine ⟨fun h => ?_, fun h => absurd h hlt⟩
    split at h <;> cases h

theorem cmp_eq_eq : a.cmp b = .eq ↔ a = b := by
  rw [ShaHash.cmp]
  split
  · rename_i hlt
    refine ⟨fun h => (by cases h), ?_⟩
    rintro rfl
    exact absurd hlt (lt_irrefl a.hash)
  · split
    · rename_i heq
      exact ⟨fun _ => heq, fun _ => rfl⟩
    · rename_i hne
      exact ⟨fun h => (by cases h), fun h => absurd h hne⟩

theorem cmp_eq_gt : a.cmp b = .gt ↔ b.hash < a.hash := by
  rcases lt_trichotomy a.hash b.hash with hlt | heq | hgt
  · rw [cmp_eq_lt.mpr hlt]
    exact ⟨fun h => (by cases h), fun h => absurd h hlt.asymm⟩
  · rw [cmp_eq_eq.mpr (ShaHash.hash_injective heq), heq]
    exact ⟨fun h => (by cases h), fun h => absurd h (lt_irrefl _)⟩
  · refine ⟨fun _ => hgt, fun _ => ?_⟩
    cases hcmp : a.cmp b with
    | lt => exact absurd (cmp_eq_lt.mp hcmp) hgt.asymm
    | eq => exact absurd (cmp_eq_eq.mp hcmp ▸ hgt) (lt_irrefl _)
    | gt => rfl

theorem SortedByDistance.partitioned {nodes : List SortedNode} (h : SortedByDistance nodes) (dist : ShaHash) :
    Partitioned (fun n : SortedNode => n.dist.cmp dist) nodes := by
  refine h.imp fun hle => ⟨fun hlt => ?_, fun hgt => ?_⟩
  · exact cmp_eq_lt.mpr (hle.trans_lt (cmp_eq_lt.mp hlt))
  · exact cmp_eq_gt.mpr ((cmp_eq_gt.mp hgt).trans_le hle)

theorem valid_binarySearch : binarySearch.Valid where
  ok := fun _ _ _ _ hok => cmp_eq_eq.mp (binarySearchBy_ok hok)
  error := fun _ dist _ hsorted herror j =>
    have hplace := binarySearchBy_error (hsorted.partitioned dist) herror j
    ⟨fun hj => cmp_eq_lt.mp (hplace.1 hj), fun hj => cmp_eq_gt.mp (hplace.2 hj)⟩

/-! ### One call -/

/-- Every entry is at the distance of its node. -/
def Placed (target : InfoHash) (nodes : List SortedNode) : Prop := ∀ n ∈ nodes, n.dist = target.xor n.node.1

section

variable {search : Search} {target : InfoHash} {nodes : List SortedNode} {node : NodeKey} {pinged : Bool}

variable {n : SortedNode}

theorem Placed.dist_eq_iff (h : Placed target nodes) (hn : n ∈ nodes) :
    n.dist = target.xor node.1 ↔ n.node.1 = node.1 := by
  rw [h n hn]
  exact ⟨fun heq => target.xor_left_injective heq, fun heq => congrArg target.xor heq⟩

/-- What a call that enters the node makes of the list. -/
structure Entered (target : InfoHash) (nodes : List SortedNode) (node : NodeKey) (pinged : Bool)
    (after : List SortedNode) : Prop where
  split : ∃ front back, nodes = front ++ back ∧ after = front ++ ⟨target.xor node.1, node, pinged⟩ :: back ∧
    (∀ n ∈ front, n.dist.hash ≤ (target.xor node.1).hash) ∧ ∀ n ∈ back, (target.xor node.1).hash ≤ n.dist.hash
  hit : (∀ n ∈ nodes, n.node.1 ≠ node.1) ∨ ∃ n ∈ nodes, n.node.1 = node.1 ∧ n.node ≠ node

theorem insertIdx_eq {α : Type} (l : List α) (i : Nat) (x : α) (hi : i ≤ l.length) :
    l.insertIdx i x = l.take i ++ x :: l.drop i := by
  induction l generalizing i with
  | nil =>
    rw [length_nil, Nat.le_zero] at hi
    rw [hi]
    rfl
  | cons y l ih =>
    cases i with
    | zero => rfl
    | succ i =>
      rw [insertIdx_succ_cons, ih i (Nat.le_of_succ_le_succ hi)]
      rfl

/-- A call leaves the list alone if its search hits upon the node, and enters the node otherwise. -/
theorem insertSortedNodeBy_cases (hvalid : search.Valid) (hsorted : SortedByDistance nodes)
    (hplaced : Placed target nodes) :
    (insertSortedNodeBy search target nodes node pinged = nodes ∧ node ∈ nodes.map SortedNode.node) ∨
      Entered target nodes node pinged (insertSortedNodeBy search target nodes node pinged) := by
  unfold insertSortedNodeBy
  simp only
  split
  · rename_i i hi
    have hdist := hvalid.ok nodes _ i hsorted hi
    have hmem : nodes.get i ∈ nodes := get_mem nodes i
    split
    · rename_i hne
      refine Or.inr ⟨⟨nodes.take i, nodes.drop i, (take_append_drop _ nodes).symm,
        insertIdx_eq nodes i _ i.isLt.le, fun n hn => ?_, fun n hn => ?_⟩,
        Or.inr ⟨nodes.get i, hmem, (hplaced.dist_eq_iff hmem).mp hdist, hne⟩⟩
      · obtain ⟨j, hj, rfl⟩ := mem_take_iff_getElem.mp hn
        rw [← hdist]
        exact pairwise_iff_get.mp hsorted ⟨j, by omega⟩ i (Fin.lt_def.mpr (by simp only; omega))
      · obtain ⟨j, hj, rfl⟩ := mem_drop_iff_getElem.mp hn
        rw [← hdist]
        rcases Nat.eq_zero_or_pos j with rfl | hpos
        · exact le_rfl
        · exact pairwise_iff_get.mp hsorted i ⟨i + j, by omega⟩ (Fin.lt_def.mpr (by simp only; omega))
    · rename_i hsame
      exact Or.inl ⟨rfl, not_not.mp hsame ▸ mem_map_of_mem hmem⟩
  · rename_i i hi
    have hplace := hvalid.error nodes _ i hsorted hi
    refine Or.inr ⟨⟨nodes.take i, nodes.drop i, (take_append_drop _ nodes).symm,
      insertIdx_eq nodes i _ (Nat.le_of_lt_succ i.isLt), fun n hn => ?_, fun n hn => ?_⟩, Or.inl fun n hn => ?_⟩
    · obtain ⟨j, hj, rfl⟩ := mem_take_iff_getElem.mp hn
      exact ((hplace ⟨j, by omega⟩).1 (by simp only; omega)).le
    · obtain ⟨j, hj, rfl⟩ := mem_drop_iff_getElem.mp hn
      exact ((hplace ⟨i + j, by omega⟩).2 (by simp only; omega)).le
    · intro hid
      have hdist := (hplaced.dist_eq_iff hn).mpr hid
      obtain ⟨j, rfl⟩ := get_of_mem hn
      rcases Nat.lt_or_ge j i with hj | hj
      · exact absurd ((hplace j).1 hj) (hdist ▸ lt_irrefl _)
      · exact absurd ((hplace j).2 hj) (hdist ▸ lt_irrefl _)

variable {after : List SortedNode}

theorem Entered.mem_iff (h : Entered target nodes node pinged after) :
    n ∈ after ↔ n ∈ nodes ∨ n = ⟨target.xor node.1, node, pinged⟩ := by
  obtain ⟨⟨front, back, rfl, rfl, -, -⟩, -⟩ := h
  simp only [mem_append, mem_cons]
  tauto

theorem Entered.sorted (h : Entered target nodes node pinged after)
    (hsorted : SortedByDistance nodes) : SortedByDistance after := by
  obtain ⟨⟨front, back, rfl, rfl, hfront, hback⟩, -⟩ := h
  obtain ⟨hsorted₁, hsorted₂, hbetween⟩ := pairwise_append.mp hsorted
  refine pairwise_append.mpr ⟨hsorted₁, pairwise_cons.mpr ⟨hback, hsorted₂⟩, fun a ha b hb => ?_⟩
  rcases mem_cons.mp hb with rfl | hb
  · exact hfront a ha
  · exact hbetween a ha b hb

theorem Entered.perm (h : Entered target nodes node pinged after) :
    (after.map SortedNode.node).Perm (node :: nodes.map SortedNode.node) := by
  obtain ⟨⟨front, back, rfl, rfl, -, -⟩, -⟩ := h
  simp only [map_append, map_cons]
  exact perm_middle

end

/-! ### A sequence of calls -/

/-- The list is sorted, and its nodes are those of the calls. -/
structure Sound (target : InfoHash) (calls : List (NodeKey × Bool)) (nodes : List SortedNode) : Prop where
  sorted : SortedByDistance nodes
  placed : Placed target nodes
  mem_iff : ∀ node, node ∈ nodes.map SortedNode.node ↔ node ∈ calls.map Prod.fst

section

variable {search : Search} {target : InfoHash} {calls : List (NodeKey × Bool)}

theorem insertSortedNodes_concat (call : NodeKey × Bool) : insertSortedNodes search target (calls ++ [call]) =
      insertSortedNodeBy search target (insertSortedNodes search target calls) call.1 call.2 := by
  rw [insertSortedNodes, foldl_append]
  rfl

theorem Sound.insert (hvalid : search.Valid) {nodes : List SortedNode} (h : Sound target calls nodes)
    (call : NodeKey × Bool) :
    Sound target (calls ++ [call]) (insertSortedNodeBy search target nodes call.1 call.2) := by
  have hcalls : ∀ node, node ∈ (calls ++ [call]).map Prod.fst ↔ node ∈ calls.map Prod.fst ∨ node = call.1 := by
    intro node
    rw [map_append, mem_append, map_singleton, mem_singleton]
  rcases insertSortedNodeBy_cases hvalid h.sorted h.placed with ⟨hsame, hmem⟩ | hentered
  · rw [hsame]
    refine ⟨h.sorted, h.placed, fun node => ?_⟩
    rw [hcalls, ← h.mem_iff]
    exact ⟨Or.inl, fun hnode => hnode.elim id fun heq => heq ▸ hmem⟩
  · refine ⟨hentered.sorted h.sorted, fun n hn => ?_, fun node => ?_⟩
    · rcases hentered.mem_iff.mp hn with hn | rfl
      · exact h.placed n hn
      · rfl
    · rw [hcalls, hentered.perm.mem_iff, mem_cons, h.mem_iff]
      exact or_comm

theorem sound_insertSortedNodes (hvalid : search.Valid) (target : InfoHash) (calls : List (NodeKey × Bool)) :
    Sound target calls (insertSortedNodes search target calls) := by
  induction calls using reverseRecOn with
  | nil => exact ⟨List.Pairwise.nil, fun n hn => (by cases hn), fun node => Iff.rfl⟩
  | append_singleton calls call ih =>
    rw [insertSortedNodes_concat]
    exact ih.insert hvalid call

/-- A node comes again only while no other node of its id has come. -/
def ReturnsAlone (calls : List (NodeKey × Bool)) : Prop :=
  ∀ front call back, calls = front ++ call :: back → call.1 ∈ front.map Prod.fst →
    ∀ other ∈ front.map Prod.fst, other.1 = call.1.1 → other = call.1

theorem ReturnsAlone.of_append {front back : List (NodeKey × Bool)} (h : ReturnsAlone (front ++ back)) :
    ReturnsAlone front := by
  rintro first call rest rfl
  exact h first call (rest ++ back) (by simp)

theorem nodup_insertSortedNodes (hvalid : search.Valid) (h : ReturnsAlone calls) :
    ((insertSortedNodes search target calls).map SortedNode.node).Nodup := by
  induction calls using reverseRecOn with
  | nil => exact nodup_nil
  | append_singleton calls call ih =>
    have hsound := sound_insertSortedNodes hvalid target calls
    have hnodup := ih h.of_append
    rw [insertSortedNodes_concat]
    rcases insertSortedNodeBy_cases hvalid hsound.sorted hsound.placed with ⟨hsame, -⟩ | hentered
    · rw [hsame]
      exact hnodup
    · rw [hentered.perm.nodup_iff, nodup_cons]
      refine ⟨fun hmem => ?_, hnodup⟩
      rcases hentered.hit with hnone | ⟨n, hn, hid, hne⟩
      · obtain ⟨n, hn, heq⟩ := mem_map.mp hmem
        exact hnone n hn (congrArg Prod.fst heq)
      · exact hne (h calls call [] rfl ((hsound.mem_iff _).mp hmem) n.node
          ((hsound.mem_iff _).mp (mem_map_of_mem hn)) hid)

/-! ### Searches that hit upon another node -/

/-- A search that finds the given node only if no other matches. -/
def avoiding (node : NodeKey) : Search := fun nodes dist =>
  match nodes.findFinIdx? fun n => n.dist = dist ∧ n.node ≠ node with
  | some i => .ok i
  | none => binarySearch nodes dist

theorem valid_avoiding (node : NodeKey) : (avoiding node).Valid := by
  constructor
  · intro nodes dist i hsorted hi
    unfold avoiding at hi
    split at hi
    · rename_i j hj
      cases hi
      have hfound := (findFinIdx?_eq_some_iff.mp hj).1
      exact (of_decide_eq_true hfound).1
    · exact valid_binarySearch.ok nodes dist i hsorted hi
  · intro nodes dist i hsorted hi
    unfold avoiding at hi
    split at hi
    · cases hi
    · exact valid_binarySearch.error nodes dist i hsorted hi

/-- With another node of its id in the list, such a search has the node entered. -/
theorem insertSortedNodeBy_avoiding {nodes : List SortedNode} {node other : NodeKey} (pinged : Bool)
    (hplaced : Placed target nodes) (hother : other ∈ nodes.map SortedNode.node) (hid : other.1 = node.1)
    (hne : other ≠ node) :
    ((insertSortedNodeBy (avoiding node) target nodes node pinged).map SortedNode.node).Perm
      (node :: nodes.map SortedNode.node) := by
  obtain ⟨n, hn, rfl⟩ := mem_map.mp hother
  obtain ⟨i, hi⟩ : ∃ i, nodes.findFinIdx? (fun n => n.dist = target.xor node.1 ∧ n.node ≠ node) = some i := by
    rw [← Option.isSome_iff_exists, isSome_findFinIdx?, any_eq_true]
    exact ⟨n, hn, decide_eq_true ⟨(hplaced.dist_eq_iff hn).mpr hid, hne⟩⟩
  have hfound : (nodes.get i).node ≠ node := (of_decide_eq_true (findFinIdx?_eq_some_iff.mp hi).1).2
  have hsearch : avoiding node nodes (target.xor node.1) = .ok i := by
    rw [avoiding, hi]
  unfold insertSortedNodeBy
  simp only [hsearch]
  rw [if_pos hfound]
  exact (perm_insertIdx _ _ i.isLt.le).map SortedNode.node

/-- After every one of the calls the list is sorted, has every node that was entered, and none twice. -/
def SortedSet (search : Search) (target : InfoHash) (calls : List (NodeKey × Bool)) : Prop :=
  ∀ front, front <+: calls → SortedByDistance (insertSortedNodes search target front) ∧
    (∀ call ∈ front, call.1 ∈ (insertSortedNodes search target front).map SortedNode.node) ∧
    ((insertSortedNodes search target front).map SortedNode.node).Nodup

/-- The list is a sorted set for every search if and only if no node comes again after another node of its
id. The other two parts hold for all calls. -/
theorem sortedSet_iff (target : InfoHash) (calls : List (NodeKey × Bool)) :
    (∀ search : Search, search.Valid → ∀ front, front <+: calls →
      SortedByDistance (insertSortedNodes search target front) ∧
        ∀ call ∈ front, call.1 ∈ (insertSortedNodes search target front).map SortedNode.node) ∧
    ((∀ search : Search, search.Valid → SortedSet search target calls) ↔ ReturnsAlone calls) := by
  have hkept : ∀ search : Search, search.Valid → ∀ front, front <+: calls →
      SortedByDistance (insertSortedNodes search target front) ∧
        ∀ call ∈ front, call.1 ∈ (insertSortedNodes search target front).map SortedNode.node := by
    intro search hvalid front _
    have hsound := sound_insertSortedNodes hvalid target front
    exact ⟨hsound.sorted, fun call hcall => (hsound.mem_iff call.1).mpr (mem_map_of_mem hcall)⟩
  refine ⟨hkept, fun hset => ?_, fun halone search hvalid front hfront => ?_⟩
  · rintro front call back rfl hmem other hother hid
    by_contra hne
    have hsound := sound_insertSortedNodes (valid_avoiding call.1) target front
    obtain ⟨-, -, hnodup⟩ := hset (avoiding call.1) (valid_avoiding call.1) (front ++ [call]) ⟨back, by simp⟩
    rw [insertSortedNodes_concat, (insertSortedNodeBy_avoiding call.2 hsound.placed
      ((hsound.mem_iff other).mpr hother) hid hne).nodup_iff, nodup_cons] at hnodup
    exact hnodup.1 ((hsound.mem_iff call.1).mpr hmem)
  · obtain ⟨back, rfl⟩ := hfront
    obtain ⟨hsorted, hmem⟩ := hkept search hvalid front ⟨back, rfl⟩
    exact ⟨hsorted, hmem, nodup_insertSortedNodes hvalid halone.of_append⟩

end

/-- The same id at another address. -/
def nodeAtPort (port : UInt16) : NodeKey := ((nodeAt 1).1, .v4 (octets 10 0 0 1) port)

/-- A node that comes twice in a row, and then another node of its id. -/
theorem sortedSet_small :
    ReturnsAlone [(nodeAtPort 1, false), (nodeAtPort 1, true), (nodeAtPort 2, false)] ∧
      SortedSet binarySearch (nodeAt 0).1
        [(nodeAtPort 1, false), (nodeAtPort 1, true), (nodeAtPort 2, false)] := by
  have halone : ReturnsAlone [(nodeAtPort 1, false), (nodeAtPort 1, true), (nodeAtPort 2, false)] := by
    intro front call back hcalls hmem other hother hid
    match front, hcalls with
    | [], _ => cases hmem
    | [_], hcalls =>
      cases hcalls
      exact mem_singleton.mp hother
    | [_, _], hcalls =>
      cases hcalls
      exact absurd hmem (by decide)
    | _ :: _ :: _ :: front, hcalls =>
      have hlength := congrArg length hcalls
      simp only [length_append, length_cons, length_nil] at hlength
      omega
  exact ⟨halone, (sortedSet_iff (nodeAt 0).1 _).2.mpr halone binarySearch valid_binarySearch⟩

/-- A node that comes again after another node of its id is entered twice. -/
theorem sortedSet_fails :
    binarySearch.Valid ∧
      (insertSortedNodes binarySearch (nodeAt 0).1
        [(nodeAtPort 1, false), (nodeAtPort 2, false), (nodeAtPort 2, false)]).map SortedNode.node =
          [nodeAtPort 2, nodeAtPort 2, nodeAtPort 1] ∧
      ¬ SortedSet binarySearch (nodeAt 0).1
        [(nodeAtPort 1, false), (nodeAtPort 2, false), (nodeAtPort 2, false)] := by
  have hnodes : (insertSortedNodes binarySearch (nodeAt 0).1
      [(nodeAtPort 1, false), (nodeAtPort 2, false), (nodeAtPort 2, false)]).map SortedNode.node =
        [nodeAtPort 2, nodeAtPort 2, nodeAtPort 1] := by
    decide +kernel
  refine ⟨valid_binarySearch, hnodes, fun hset => ?_⟩
  obtain ⟨-, -, hnodup⟩ := hset _ prefix_rfl
  rw [hnodes] at hnodup
  exact absurd hnodup (by decide)

end BitTorrent.Dht.TableLookup
