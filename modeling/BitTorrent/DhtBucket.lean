import BitTorrent.DhtNode

/-! Buckets. A bucket is an array of eight nodes that starts out with bad ones. Adding a node is one of
five things, `Adding`, and what a bucket keeps over a call, or over a whole sequence of calls, is read
off these five. -/

namespace BitTorrent.Dht

open Rust List

def maxBucketSize : Nat := 8

@[ext] structure Bucket where
  nodes : List Node
  size : nodes.length = maxBucketSize
  deriving DecidableEq

namespace Bucket

/-- `Node::as_bad` with the zero id and the local host. -/
def placeholder : Node :=
  ⟨⟨replicate shaHashLen 0, length_replicate⟩, .v4 #v[127, 0, 0, 1] 0, none⟩

def new : Bucket := ⟨replicate maxBucketSize placeholder, length_replicate⟩

def isPingable (w : World) (node : Node) : Bool :=
  node.status w = .good || node.status w = .questionable

def pingableNodes (w : World) (b : Bucket) : List Node := b.nodes.filter (isPingable w)

def set (b : Bucket) (i : Nat) (node : Node) : Bucket :=
  ⟨b.nodes.set i node, by rw [length_set, b.size]⟩

/-- Adds a node that is not bad. The result is the bucket and whether there was space. -/
def addNode (w : World) (b : Bucket) (newNode : Node) : Bucket × Bool :=
  let newNodeStatus := newNode.status w
  if newNodeStatus = .bad then (b, true)
  else
    match b.nodes.findFinIdx? (·.eq newNode) with
    | some index =>
      let otherNodeStatus := (b.nodes.get index).status w
      if newNodeStatus ≥ otherNodeStatus then (b.set index newNode, true) else (b, true)
    | none =>
      match b.nodes.findFinIdx? (fun node => decide (node.status w < newNodeStatus)) with
      | some index => (b.set index newNode, true)
      | none => (b, false)

variable {node : Node}

theorem isPingable_iff {w : World} : isPingable w node = true ↔ node.status w ≠ .bad := by
  rw [isPingable, Bool.or_eq_true, decide_eq_true_eq, decide_eq_true_eq]
  cases node.status w <;> decide

theorem not_isPlaceholder_of_isPingable {w : World} (h : isPingable w node = true) : ¬ node.IsPlaceholder :=
  Node.not_isPlaceholder_of_status (isPingable_iff.mp h)

theorem isPlaceholder_of_mem_new (h : node ∈ new.nodes) : node.IsPlaceholder := by
  rw [eq_of_mem_replicate h]
  rfl

/-! ### The five ways to add a node -/

/-- What adding `n` makes of the nodes of a bucket, and whether there was space for it. -/
inductive Adding (w : World) (n : Node) : List Node → List Node → Bool → Prop where
  | ignored {l : List Node} (hbad : n.status w = .bad) : Adding w n l l true
  | renewed {l₁ l₂ : List Node} {x : Node} (hlive : n.status w ≠ .bad)
      (hbefore : ∀ y ∈ l₁, y.key ≠ n.key) (hkey : x.key = n.key)
      (hstatus : x.status w ≤ n.status w) : Adding w n (l₁ ++ x :: l₂) (l₁ ++ n :: l₂) true
  | kept {l : List Node} {x : Node} (hlive : n.status w ≠ .bad) (hmem : x ∈ l)
      (hkey : x.key = n.key) (hstatus : n.status w < x.status w) : Adding w n l l true
  | placed {l₁ l₂ : List Node} {x : Node} (hlive : n.status w ≠ .bad)
      (hnew : ∀ y ∈ l₁ ++ x :: l₂, y.key ≠ n.key) (hstatus : x.status w < n.status w)
      (hbefore : ∀ y ∈ l₁, n.status w ≤ y.status w) :
      Adding w n (l₁ ++ x :: l₂) (l₁ ++ n :: l₂) true
  | refused {l : List Node} (hlive : n.status w ≠ .bad) (hnew : ∀ y ∈ l, y.key ≠ n.key)
      (hfull : ∀ y ∈ l, n.status w ≤ y.status w) : Adding w n l l false

/-- The first slot that passes a test, and the array with another entry in it. -/
theorem findFinIdx?_split {α : Type} {l : List α} {p : α → Bool} {i : Fin l.length}
    (h : l.findFinIdx? p = some i) :
    ∃ l₁ x l₂, l = l₁ ++ x :: l₂ ∧ l.get i = x ∧ (∀ n, l.set i n = l₁ ++ n :: l₂) ∧ p x = true ∧
      ∀ y ∈ l₁, ¬ p y = true := by
  obtain ⟨hp, hbefore⟩ := findFinIdx?_eq_some_iff.mp h
  refine ⟨l.take i, l.get i, l.drop (i + 1), ?_, rfl, ?_, hp, ?_⟩
  · rw [get_eq_getElem, cons_getElem_drop_succ, take_append_drop]
  · intro n
    rw [set_eq_take_append_cons_drop, if_pos i.2]
  · intro y hy
    obtain ⟨j, hj, rfl⟩ := mem_take_iff_getElem.mp hy
    rw [Nat.lt_min] at hj
    exact hbefore ⟨j, hj.2⟩ hj.1

theorem addNode_adding (w : World) (b : Bucket) (n : Node) :
    Adding w n b.nodes (b.addNode w n).1.nodes (b.addNode w n).2 := by
  unfold addNode
  by_cases hlive : n.status w = .bad
  · simp only [if_pos hlive]
    exact .ignored hlive
  simp only [if_neg hlive]
  split
  · rename_i i hi
    obtain ⟨l₁, x, l₂, hl, hget, hset, hkey, hbefore⟩ := findFinIdx?_split hi
    simp only [Node.eq_iff] at hkey hbefore
    rw [hget]
    by_cases hstatus : n.status w ≥ x.status w
    · simp only [if_pos hstatus, set, hset]
      rw [hl]
      exact .renewed hlive hbefore hkey hstatus
    · simp only [if_neg hstatus]
      refine .kept hlive ?_ hkey (not_le.mp hstatus)
      rw [hl]
      exact mem_append_right _ mem_cons_self
  · rename_i hnone
    have hnew : ∀ y ∈ b.nodes, y.key ≠ n.key := by
      intro y hy
      rw [ne_eq, ← Node.eq_iff]
      exact findFinIdx?_eq_none_iff.mp hnone y hy
    split
    · rename_i i hi
      obtain ⟨l₁, x, l₂, hl, hget, hset, hstatus, hbefore⟩ := findFinIdx?_split hi
      simp only [decide_eq_true_eq, not_lt] at hstatus hbefore
      simp only [set, hset]
      rw [hl] at hnew ⊢
      exact .placed hlive hnew hstatus hbefore
    · rename_i hfull
      refine .refused hlive hnew fun y hy => ?_
      have := findFinIdx?_eq_none_iff.mp hfull y hy
      simpa using this

/-! ### One call -/

variable {w : World} {n : Node} {l l' : List Node} {space : Bool}

variable {x : Node}

namespace Adding

/-- A call leaves the nodes alone or exchanges one for the new node, never for a lower status, and
for an equal one only if it is the same node. -/
theorem exchange (h : Adding w n l l' space) :
    l' = l ∨ ∃ l₁ x l₂, l = l₁ ++ x :: l₂ ∧ l' = l₁ ++ n :: l₂ ∧ n.status w ≠ .bad ∧
      x.status w ≤ n.status w ∧ (x.status w = n.status w → x.key = n.key) := by
  cases h with
  | ignored hbad => exact Or.inl rfl
  | renewed hlive hbefore hkey hstatus =>
    exact Or.inr ⟨_, _, _, rfl, rfl, hlive, hstatus, fun _ => hkey⟩
  | kept hlive hmem hkey hstatus => exact Or.inl rfl
  | placed hlive hnew hstatus hbefore =>
    exact Or.inr ⟨_, _, _, rfl, rfl, hlive, hstatus.le, fun heq => absurd heq hstatus.ne⟩
  | refused hlive hnew hfull => exact Or.inl rfl

theorem mem_of_mem (h : Adding w n l l' space) (hx : x ∈ l') : x ∈ l ∨ x = n ∧ n.status w ≠ .bad := by
  rcases h.exchange with rfl | ⟨l₁, y, l₂, rfl, rfl, hlive, -⟩
  · exact Or.inl hx
  · simp only [mem_append, mem_cons] at hx ⊢
    rcases hx with hx | hx | hx
    · exact Or.inl (Or.inl hx)
    · exact Or.inr ⟨hx, hlive⟩
    · exact Or.inl (Or.inr (Or.inr hx))

theorem status_lt_of_not_mem (h : Adding w n l l' space) (hx : x ∈ l)
    (hgone : ∀ y ∈ l', y.key = x.key → y.status w < x.status w) : x.status w < n.status w ∧ n ∈ l' := by
  rcases h.exchange with rfl | ⟨l₁, y, l₂, rfl, rfl, hlive, hle, heq⟩
  · exact absurd (hgone x hx rfl) (lt_irrefl _)
  · have hn : n ∈ l₁ ++ n :: l₂ := mem_append_right _ mem_cons_self
    refine ⟨?_, hn⟩
    have hstay : ∀ z, z ∈ l₁ ++ n :: l₂ → z ≠ x := by
      rintro z hz rfl
      exact lt_irrefl _ (hgone z hz rfl)
    simp only [mem_append, mem_cons] at hx
    rcases hx with hx | rfl | hx
    · exact absurd rfl (hstay x (mem_append_left _ hx))
    · refine lt_of_le_of_ne hle fun hst => ?_
      exact lt_irrefl _ (hst ▸ hgone n hn (heq hst).symm)
    · exact absurd rfl (hstay x (mem_append_right _ (mem_cons_of_mem _ hx)))

theorem good_stays (h : Adding w n l l' space) (hx : x ∈ l) (hgood : x.status w = .good) :
    ∃ y ∈ l', y.key = x.key ∧ y.status w = .good := by
  by_contra hgone
  push Not at hgone
  have hlt := (h.status_lt_of_not_mem hx fun y hy hkey => by
    rw [hgood, NodeStatus.lt_good_iff]
    exact hgone y hy hkey).1
  rw [hgood] at hlt
  exact absurd hlt (not_lt.mpr (NodeStatus.le_good _))

theorem mem_of_space (h : Adding w n l l' true) (hlive : n.status w ≠ .bad) :
    ∃ y ∈ l', y.key = n.key ∧ n.status w ≤ y.status w := by
  cases h with
  | ignored hbad => exact absurd hbad hlive
  | renewed _ hbefore hkey hstatus =>
    exact ⟨n, mem_append_right _ mem_cons_self, rfl, le_rfl⟩
  | kept _ hmem hkey hstatus => exact ⟨_, hmem, hkey, hstatus.le⟩
  | placed _ hnew hstatus hbefore =>
    exact ⟨n, mem_append_right _ mem_cons_self, rfl, le_rfl⟩

theorem of_no_space (h : Adding w n l l' false) :
    l' = l ∧ n.status w ≠ .bad ∧ (∀ y ∈ l, y.key ≠ n.key) ∧ ∀ y ∈ l, n.status w ≤ y.status w := by
  cases h with
  | refused hlive hnew hfull => exact ⟨rfl, hlive, hnew, hfull⟩

theorem space_of_bad (h : Adding w n l l' space) (hx : x ∈ l) (hbad : x.status w = .bad) : space = true := by
  cases space with
  | true => rfl
  | false =>
    obtain ⟨-, hlive, -, hfull⟩ := h.of_no_space
    have := hfull x hx
    rw [hbad] at this
    exact absurd this (not_le.mpr (NodeStatus.bad_lt_iff.mpr hlive))

theorem distinct (h : Adding w n l l' space) (hl : l.Pairwise fun x y => x.key = y.key → y.IsPlaceholder) :
    l'.Pairwise fun x y => x.key = y.key → y.IsPlaceholder := by
  cases h with
  | ignored hbad => exact hl
  | kept hlive hmem hkey hstatus => exact hl
  | refused hlive hnew hfull => exact hl
  | renewed hlive hbefore hkey hstatus =>
    rw [pairwise_append, pairwise_cons] at hl ⊢
    obtain ⟨hl₁, ⟨hx, hl₂⟩, hcross⟩ := hl
    refine ⟨hl₁, ⟨?_, hl₂⟩, ?_⟩
    · intro y hy heq
      exact hx y hy (hkey.trans heq)
    · intro y hy z hz heq
      rcases mem_cons.mp hz with rfl | hz
      · exact absurd heq (hbefore y hy)
      · exact hcross y hy z (mem_cons_of_mem _ hz) heq
  | placed hlive hnew hstatus hbefore =>
    rw [pairwise_append, pairwise_cons] at hl ⊢
    obtain ⟨hl₁, ⟨-, hl₂⟩, hcross⟩ := hl
    refine ⟨hl₁, ⟨?_, hl₂⟩, ?_⟩
    · intro y hy heq
      exact absurd heq.symm (hnew y (mem_append_right _ (mem_cons_of_mem _ hy)))
    · intro y hy z hz heq
      rcases mem_cons.mp hz with rfl | hz
      · exact absurd heq (hnew y (mem_append_left _ hy))
      · exact hcross y hy z (mem_cons_of_mem _ hz) heq

theorem countP_bad_le (h : Adding w n l l' space) :
    l.countP (fun x => decide (x.status w = .bad)) ≤ l'.countP (fun x => decide (x.status w = .bad)) + 1 := by
  rcases h.exchange with rfl | ⟨l₁, x, l₂, rfl, rfl, -⟩
  · exact Nat.le_succ _
  · simp only [countP_append, countP_cons]
    split <;> omega

end Adding

/-! ### Filling a new bucket -/

def fill (w : World) (l : List Node) : Bucket := l.foldl (fun b node => (b.addNode w node).1) new

theorem fill_concat (w : World) (l : List Node) (n : Node) :
    fill w (l ++ [n]) = ((fill w l).addNode w n).1 := by
  rw [fill, foldl_concat, fill]

theorem countP_bad_fill (w : World) (l : List Node) :
    maxBucketSize ≤ (fill w l).nodes.countP (fun x => decide (x.status w = .bad)) + l.length := by
  induction l using reverseRecOn with
  | nil =>
    have hall : ∀ x ∈ new.nodes, decide (x.status w = .bad) = true := by
      intro x hx
      exact decide_eq_true (Node.status_of_isPlaceholder (isPlaceholder_of_mem_new hx) w)
    rw [fill, foldl_nil, countP_eq_length.mpr hall, new.size]
    exact Nat.le_add_right _ _
  | append_singleton l n ih =>
    have hstep := (addNode_adding w (fill w l) n).countP_bad_le
    rw [fill_concat, length_append, length_singleton]
    omega

theorem space_fill (w : World) (hl : l.length < maxBucketSize) (n : Node) :
    ((fill w l).addNode w n).2 = true := by
  have hfree := countP_bad_fill w l
  obtain ⟨x, hx, hbad⟩ := countP_pos_iff.mp
    (show 0 < (fill w l).nodes.countP (fun x => decide (x.status w = .bad)) by omega)
  exact (addNode_adding w (fill w l) n).space_of_bad hx (of_decide_eq_true hbad)

theorem mem_fill (hx : x ∈ (fill w l).nodes) : x.IsPlaceholder ∨ x ∈ l ∧ x.status w ≠ .bad := by
  induction l using reverseRecOn with
  | nil => exact Or.inl (isPlaceholder_of_mem_new hx)
  | append_singleton l n ih =>
    rw [fill_concat] at hx
    rcases (addNode_adding w (fill w l) n).mem_of_mem hx with hx | ⟨rfl, hlive⟩
    · exact (ih hx).imp_right fun h => ⟨mem_append_left _ h.1, h.2⟩
    · exact Or.inr ⟨mem_append_right _ mem_cons_self, hlive⟩

theorem distinct_new : new.nodes.Pairwise fun x y => x.key = y.key → y.IsPlaceholder := by
  exact pairwise_of_forall_mem_list fun x _ y hy _ => isPlaceholder_of_mem_new hy

theorem distinct_fill (w : World) (l : List Node) :
    (fill w l).nodes.Pairwise fun x y => x.key = y.key → y.IsPlaceholder := by
  induction l using reverseRecOn with
  | nil => exact distinct_new
  | append_singleton l n ih =>
    rw [fill_concat]
    exact (addNode_adding w (fill w l) n).distinct ih

theorem good_fill (hl : l.length ≤ maxBucketSize) (hx : x ∈ l)
    (hgood : x.status w = .good) : ∃ y ∈ (fill w l).nodes, y.key = x.key ∧ y.status w = .good := by
  induction l using reverseRecOn with
  | nil => cases hx
  | append_singleton l n ih =>
    rw [length_append, length_singleton] at hl
    rw [fill_concat]
    have hadd := addNode_adding w (fill w l) n
    rcases mem_append.mp hx with hx | hx
    · obtain ⟨y, hy, hkey, hgood'⟩ := ih (by omega) hx
      obtain ⟨z, hz, hkey', hgood''⟩ := hadd.good_stays hy hgood'
      exact ⟨z, hz, hkey'.trans hkey, hgood''⟩
    · obtain rfl := mem_singleton.mp hx
      rw [space_fill w (by omega) x] at hadd
      obtain ⟨y, hy, hkey, hle⟩ := hadd.mem_of_space (by rw [hgood]; decide)
      rw [hgood] at hle
      exact ⟨y, hy, hkey, le_antisymm (NodeStatus.le_good _) hle⟩

end Bucket

end BitTorrent.Dht
