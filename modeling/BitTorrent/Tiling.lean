import BitTorrent.Segments
import BitTorrent.Intervals

/-! Pieces that arrive in tiles. The tiles of a piece do not overlap and come in any order. With the last
missing tile the piece is judged: an accepted piece is done, any other piece starts again. -/

namespace BitTorrent.Tiling

open Segments Intervals

/-- Some elements of a piece, from `offset` on. -/
structure Tile (α : Type) where
  offset : Nat
  data : List α

variable {α : Type}

def Tile.stop (tile : Tile α) : Nat := tile.offset + tile.data.length

/-- The tiles leave nothing of the piece out. -/
def Covers (size : Nat) (tiles : List (Tile α)) : Prop :=
  ∀ x < size, Covered Tile.offset Tile.stop tiles x

instance (size : Nat) (tiles : List (Tile α)) : Decidable (Covers size tiles) :=
  inferInstanceAs (Decidable (∀ x < size, ∃ tile ∈ tiles, tile.offset ≤ x ∧ x < tile.stop))

/-- The tiles put in their places. -/
def assemble (l : List α) (tiles : List (Tile α)) : List α :=
  tiles.foldl (fun l tile => overwrite l tile.offset tile.data) l

section

variable {l l' : List α} {tiles : List (Tile α)}

/-- Parts that were all cut out of one list make it up again where they lie. -/
theorem getElem?_assemble (hlength : l'.length = l.length) (htiles : ∀ tile ∈ tiles, tile.stop ≤ l.length ∧
      window l tile.offset tile.data.length = tile.data) (x : Nat)
    (hx : l'[x]? = l[x]? ∨ Covered Tile.offset Tile.stop tiles x) : (assemble l' tiles)[x]? = l[x]? := by
  induction tiles generalizing l' with
  | nil => exact hx.resolve_right (by simp [Covered])
  | cons tile tiles ih =>
    obtain ⟨⟨hstop, hwindow⟩, htiles⟩ := List.forall_mem_cons.mp htiles
    have hfits : tile.offset + tile.data.length ≤ l'.length := hlength ▸ hstop
    refine ih ((length_overwrite hfits).trans hlength) htiles ?_
    rw [getElem?_overwrite hfits]
    by_cases hin : tile.offset ≤ x ∧ x < tile.offset + tile.data.length
    · rw [if_pos hin, ← hwindow, getElem?_window, if_pos (by omega)]
      refine .inl ?_
      congr 1
      omega
    · rw [if_neg hin]
      exact hx.imp_right fun hcovered => (covered_cons.mp hcovered).resolve_left hin

theorem assemble_eq (hlength : l'.length = l.length) (htiles : ∀ tile ∈ tiles, tile.stop ≤ l.length ∧
      window l tile.offset tile.data.length = tile.data) (hcovers : Covers l.length tiles) :
    assemble l' tiles = l := by
  ext1 x
  by_cases hx : x < l.length
  · exact getElem?_assemble hlength htiles x (.inr (hcovers x hx))
  · refine getElem?_assemble hlength htiles x (.inl ?_)
    rw [List.getElem?_eq_none (by omega), List.getElem?_eq_none (by omega)]

end

/-- The pieces that were accepted, and the tiles that there are of each of the others. -/
structure Tracker (α : Type) where
  accepted : Finset Nat
  tiles : Nat → List (Tile α)

namespace Tracker

variable (size : Nat → Nat) (judge : Nat → List α → Bool) (filler : α)

/-- The tile lies in the piece. If the piece is not accepted yet, the tile is not empty and does not
overlap with those that are there. -/
def Admits (t : Tracker α) (index : Nat) (tile : Tile α) : Prop :=
  tile.stop ≤ size index ∧ (index ∉ t.accepted → 0 < tile.data.length ∧
    ∀ other ∈ t.tiles index, other.stop ≤ tile.offset ∨ tile.stop ≤ other.offset)

instance (t : Tracker α) (index : Nat) (tile : Tile α) : Decidable (t.Admits size index tile) :=
  inferInstanceAs (Decidable (_ ∧ (_ → _)))

/-- The verdict about a piece, due when its last missing tile comes. -/
def verdict (t : Tracker α) (index : Nat) (tile : Tile α) : Option Bool :=
  if index ∉ t.accepted ∧ Covers (size index) (t.tiles index ++ [tile]) then
    some (judge index
      (assemble (List.replicate (size index) filler) (t.tiles index ++ [tile])))
  else none

def next (t : Tracker α) (index : Nat) (tile : Tile α) : Tracker α :=
  match t.verdict size judge filler index tile with
  | some isGood =>
    { accepted := if isGood then insert index t.accepted else t.accepted
      tiles := Function.update t.tiles index [] }
  | none => { t with tiles := Function.update t.tiles index (t.tiles index ++ [tile]) }

end Tracker

end BitTorrent.Tiling
