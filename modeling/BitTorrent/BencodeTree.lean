import BitTorrent.RustText
import BitTorrent.RustOrderedMap

/-! Bencode values and their encoder. `Inner` is the tree the encoder reads through `kind()`; a
`BencodeMut` is such a tree as a program can hold it, with every dictionary an ordered map and every
byte string an allocation. -/

namespace BitTorrent.Bencode

open Rust

def benEnd : UInt8 := 101

def dictStart : UInt8 := 100

def listStart : UInt8 := 108

def intStart : UInt8 := 105

def byteLenLow : UInt8 := 48

def byteLenHigh : UInt8 := 57

def byteLenEnd : UInt8 := 58

inductive Inner where
  | int (n : Int64)
  | bytes (b : Bytes)
  | list (l : List Inner)
  | dict (d : List (Bytes × Inner))

namespace Inner

mutual

/-- The nesting height: a leaf or an empty container has height one. -/
def height : Inner → Nat
  | .int _ => 1
  | .bytes _ => 1
  | .list l => heightList l + 1
  | .dict d => heightDict d + 1

def heightList : List Inner → Nat
  | [] => 0
  | v :: l => max v.height (heightList l)

def heightDict : List (Bytes × Inner) → Nat
  | [] => 0
  | (_, v) :: d => max v.height (heightDict d)

end

theorem height_le_heightList {v : Inner} {l : List Inner} (h : v ∈ l) : v.height ≤ heightList l := by
  induction l with
  | nil => cases h
  | cons w l ih =>
    rw [heightList]
    rcases List.mem_cons.mp h with rfl | h
    · exact le_max_left _ _
    · exact (ih h).trans (le_max_right _ _)

theorem height_le_heightDict {e : Bytes × Inner} {d : List (Bytes × Inner)} (h : e ∈ d) :
    e.2.height ≤ heightDict d := by
  induction d with
  | nil => cases h
  | cons e' d ih =>
    obtain ⟨k, w⟩ := e'
    rw [heightDict]
    rcases List.mem_cons.mp h with rfl | h
    · exact le_max_left _ _
    · exact (ih h).trans (le_max_right _ _)

/-- The trees a `BencodeMut` can hold. -/
inductive Valid : Inner → Prop where
  | int (n : Int64) : Valid (.int n)
  | bytes {b : Bytes} : b.length ≤ isizeMax → Valid (.bytes b)
  | list {l : List Inner} : (∀ v ∈ l, Valid v) → Valid (.list l)
  | dict {d : List (Bytes × Inner)} : OrderedMap.Sorted d → (∀ e ∈ d, e.1.length ≤ isizeMax) →
      (∀ e ∈ d, Valid e.2) → Valid (.dict d)

end Inner

/-! ### The encoder -/

def encodeInt (n : Int64) : Bytes := intStart :: (decimalInt n.toInt ++ [benEnd])

def encodeBytes (list : Bytes) : Bytes := decimal list.length ++ byteLenEnd :: list

/-- The key comparison of the dictionary sort. -/
def keyLe {α : Type} (a b : Bytes × α) : Bool := a.1 ≤ b.1

mutual

/-- The sort of a dictionary looks at keys only, so the values are encoded before it. -/
def encode : Inner → Bytes
  | .int n => encodeInt n
  | .bytes b => encodeBytes b
  | .list l => listStart :: (encodeList l ++ [benEnd])
  | .dict d =>
    dictStart ::
      (((encodeValues d).mergeSort keyLe).flatMap (fun e => encodeBytes e.1 ++ e.2) ++ [benEnd])

def encodeList : List Inner → Bytes
  | [] => []
  | v :: l => encode v ++ encodeList l

def encodeValues : List (Bytes × Inner) → List (Bytes × Bytes)
  | [] => []
  | (k, v) :: d => (k, encode v) :: encodeValues d

end

theorem encodeList_eq (l : List Inner) : encodeList l = l.flatMap encode := by
  induction l with
  | nil => rfl
  | cons v l ih => rw [encodeList, ih, List.flatMap_cons]

theorem encodeValues_eq (d : List (Bytes × Inner)) : encodeValues d = d.map fun e => (e.1, encode e.2) := by
  induction d with
  | nil => rfl
  | cons e d ih =>
    obtain ⟨k, v⟩ := e
    rw [encodeValues, ih, List.map_cons]

theorem encode_dict (d : List (Bytes × Inner)) : encode (.dict d) = dictStart ::
      ((d.mergeSort keyLe).flatMap (fun e => encodeBytes e.1 ++ encode e.2) ++ [benEnd]) := by
  rw [encode, encodeValues_eq, ← List.map_mergeSort (r := keyLe), List.flatMap_map]
  intro a _ b _
  rfl

theorem encode_dict_of_sorted {d : List (Bytes × Inner)} (hd : OrderedMap.Sorted d) :
    encode (.dict d) = dictStart :: (d.flatMap (fun e => encodeBytes e.1 ++ encode e.2) ++ [benEnd]) := by
  rw [encode_dict, List.mergeSort_of_pairwise]
  exact hd.imp fun h => decide_eq_true h.le

structure BencodeMut where
  inner : Inner
  valid : inner.Valid

namespace BencodeMut

def encode (v : BencodeMut) : Bytes := Bencode.encode v.inner

end BencodeMut

end BitTorrent.Bencode
