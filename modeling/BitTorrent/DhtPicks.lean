import BitTorrent.DhtLookupOnce
import BitTorrent.Slots

/-! The nodes a lookup asks next. They are picked from an answer by putting its nodes into three slots one
after the other, where a closer node takes the place of a farther one, which is lost. So the picks are the
closest nodes of the answer only if those come in order of distance. -/

namespace BitTorrent

open Rust Slots List

theorem ShaHash.xor_left_injective (a : ShaHash) : Function.Injective a.xor := by
  intro b c h
  apply ShaHash.ext_bit
  intro i _
  have hbit := congrArg (ShaHash.bit · i) h
  simp only [bit_xor] at hbit
  exact Bool.xor_right_inj.mp hbit

namespace Dht.TableLookup

/-- The distance of a node, which is compared byte by byte. -/
def distance (target : InfoHash) (node : NodeKey) : Bytes := (target.xor node.1).hash

variable {target : InfoHash}

theorem eq_of_distance_eq {a b : NodeKey} (h : distance target a = distance target b) : a.1 = b.1 :=
  target.xor_left_injective (ShaHash.hash_injective h)

/-! ### The slots -/

/-- Slots of which the first are used. -/
def frame (k : Nat) (slots : List NodeKey) : List (NodeKey × Bool) :=
  slots.map (·, true) ++ replicate (k - slots.length) (dummyNode, false)

theorem picked_frame (k : Nat) (slots : List NodeKey) : picked (frame k slots) = slots := by
  have hfree : (replicate (k - slots.length) (dummyNode, false)).filter (·.2) = [] :=
    filter_eq_nil_iff.mpr fun entry hentry => by rw [eq_of_mem_replicate hentry]; simp
  rw [frame, picked, filter_append, hfree, append_nil, filter_map]
  simp [Function.comp_def]

theorem insertClosestNodes_frame (node : NodeKey) {k : Nat} {slots : List NodeKey} (h : slots.length ≤ k) :
    insertClosestNodes target node (frame k slots) = frame k (insertSlot (distance target) node k slots) := by
  induction k generalizing slots with
  | zero =>
    rw [length_eq_zero_iff.mp (Nat.le_zero.mp h)]
    rfl
  | succ k ih =>
    cases slots with
    | nil => rfl
    | cons old slots =>
      have hcons : ∀ (first : NodeKey) (rest : List NodeKey),
          frame (k + 1) (first :: rest) = (first, true) :: frame k rest := by
        intro first rest
        simp [frame]
      rw [hcons, insertClosestNodes, insertSlot, if_pos rfl]
      by_cases hlt : distance target node < distance target old
      · rw [if_pos hlt, hcons]
        exact if_pos hlt
      · rw [if_neg hlt, hcons, ← ih (Nat.le_of_succ_le_succ h)]
        exact if_neg hlt

theorem pickIterateNodes_eq (seq : List NodeKey) :
    pickIterateNodes seq target = frame iterativePickNum (fill (distance target) iterativePickNum seq) := by
  induction seq using reverseRecOn with
  | nil => rfl
  | append_singleton seq node ih =>
    rw [pickIterateNodes, foldl_append, ← pickIterateNodes, ih, fill_concat]
    exact insertClosestNodes_frame node (length_fill_le seq)

/-! ### The closest nodes -/

/-- The three closest nodes, or all if there are not that many, closest first. -/
def closest (target : InfoHash) (seq : List NodeKey) : List NodeKey :=
  (seq.insertionSort fun a b => distance target a ≤ distance target b).take iterativePickNum

theorem smallest_closest {seq : List NodeKey} (hids : (seq.map Prod.fst).Nodup) :
    Smallest (distance target) seq (closest target seq)
      ((seq.insertionSort fun a b => distance target a ≤ distance target b).drop iterativePickNum) := by
  have hsorted := seq.pairwise_insertionSort fun a b => distance target a ≤ distance target b
  have hperm := seq.perm_insertionSort fun a b => distance target a ≤ distance target b
  rw [← take_append_drop iterativePickNum (seq.insertionSort _)] at hsorted hperm
  obtain ⟨hascending, -, hbelow⟩ := pairwise_append.mp hsorted
  exact
    { nodup := hids.of_map Prod.fst
      inj := fun a ha b hb h => inj_on_of_nodup_map hids ha hb (eq_of_distance_eq h)
      parts := hperm
      ascending := hascending
      below := hbelow }

/-- The picks are the closest nodes if and only if these come in order of distance. -/
theorem picked_pickIterateNodes_iff (target : InfoHash) (seq : List NodeKey)
    (hids : (seq.map Prod.fst).Nodup) :
    (picked (pickIterateNodes seq target)).Perm (closest target seq) ↔ (closest target seq).Sublist seq := by
  rw [pickIterateNodes_eq, picked_frame]
  apply (smallest_closest hids).fill_perm_iff
  rw [closest, length_take, length_insertionSort]

def nodeAt (last : UInt8) : NodeKey := (⟨replicate 19 0 ++ [last], rfl⟩, .v4 #v[10, 0, 0, last] 6881)

/-- Nodes that come closest first, and a farther one between them. -/
theorem picked_pickIterateNodes_small :
    (picked (pickIterateNodes [nodeAt 1, nodeAt 9, nodeAt 2, nodeAt 3] (nodeAt 0).1)).Perm
      (closest (nodeAt 0).1 [nodeAt 1, nodeAt 9, nodeAt 2, nodeAt 3]) :=
  (picked_pickIterateNodes_iff (nodeAt 0).1 [nodeAt 1, nodeAt 9, nodeAt 2, nodeAt 3] (by decide)).mpr
    (by decide +kernel)

/-- Of two nodes of which the closer comes last only that one is picked. -/
theorem picked_pickIterateNodes_lost :
    ([nodeAt 2, nodeAt 1].map Prod.fst).Nodup ∧
      picked (pickIterateNodes [nodeAt 2, nodeAt 1] (nodeAt 0).1) = [nodeAt 1] ∧
      ¬ (picked (pickIterateNodes [nodeAt 2, nodeAt 1] (nodeAt 0).1)).Perm
        (closest (nodeAt 0).1 [nodeAt 2, nodeAt 1]) := by
  refine ⟨by decide, by decide +kernel, fun hperm => ?_⟩
  exact absurd hperm.length_eq (by decide +kernel)

end Dht.TableLookup

end BitTorrent
