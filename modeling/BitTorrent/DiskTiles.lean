import BitTorrent.DiskResume
import BitTorrent.Tiling

/-! Blocks that tile pieces. As long as the blocks of a piece that is not good yet do not overlap, the
checker keeps to a tracker of tiles: it passes the piece on with its last missing block, and the bytes on
the disk are those of the blocks. -/

namespace BitTorrent.Disk

open Rust Segments Intervals Meta Tiling List Function PieceCheckerState Nat

/-! ### Blocks that tile a piece -/

/-- The blocks that wait for a piece, and the tiles that they stand for. Neighbours may have been
merged. -/
structure Waits (infoHash : ShaHash) (messages : List BlockMetadata) (tiles : List (Tile UInt8)) :
    Prop where
  same : ∀ m ∈ messages, m.infoHash = infoHash
  proper : ∀ m ∈ messages, 0 < m.blockLength
  apart : messages.Pairwise fun a b => a.blockStop ≤ b.blockOffset ∨ b.blockStop ≤ a.blockOffset
  covered : ∀ x, CoveredBy messages x ↔ Covered Tile.offset Tile.stop tiles x

variable {size : Nat}

section

variable {infoHash : ShaHash} {messages : List BlockMetadata} {tiles : List (Tile UInt8)}
  {message : BlockMetadata} {tile : Tile UInt8}

theorem waits_nil : Waits infoHash [] [] :=
  ⟨nofun, nofun, .nil, fun x => by simp [Covered]⟩

theorem blockOffset_lt_blockStop (h : 0 < message.blockLength) :
    message.blockOffset < message.blockStop := Nat.lt_add_of_pos_right h

theorem Waits.append (h : Waits infoHash messages tiles) (hhash : message.infoHash = infoHash)
    (hoffset : message.blockOffset = tile.offset) (hlength : message.blockLength = tile.data.length)
    (hpos : 0 < tile.data.length)
    (hapart : ∀ other ∈ tiles, other.stop ≤ tile.offset ∨ tile.stop ≤ other.offset) :
    Waits infoHash (messages ++ [message]) (tiles ++ [tile]) := by
  have hstop : message.blockStop = tile.stop := by
    rw [BlockMetadata.blockStop, Tile.stop, hoffset, hlength]
  constructor
  · intro m hm
    rcases mem_append.mp hm with hm | hm
    · exact h.same m hm
    · cases mem_singleton.mp hm
      exact hhash
  · intro m hm
    rcases mem_append.mp hm with hm | hm
    · exact h.proper m hm
    · cases mem_singleton.mp hm
      exact hlength ▸ hpos
  · refine pairwise_append.mpr ⟨h.apart, pairwise_singleton _ _, fun a ha b hb => ?_⟩
    cases mem_singleton.mp hb
    rw [hstop, hoffset]
    refine apart_of_not_covered (Nat.lt_add_of_pos_right hpos) ?_ ha
      (blockOffset_lt_blockStop (h.proper a ha))
    intro x hlow hhigh hcovered
    obtain ⟨other, hother, hstart, hend⟩ := (h.covered x).mp hcovered
    have := hapart other hother
    have : x < tile.stop := hhigh
    omega
  · intro x
    have hcovered := h.covered x
    simp only [Covered, mem_append, mem_singleton] at hcovered ⊢
    simp only [or_and_right, exists_or, exists_eq_left, hcovered, hoffset, hstop]

theorem Waits.merged (h : Waits infoHash messages tiles) :
    Waits infoHash (mergedMessages messages) tiles := by
  have hproper : ∀ m ∈ messages, m.blockOffset < m.blockStop := fun m hm =>
    blockOffset_lt_blockStop (h.proper m hm)
  constructor
  · refine forall_mem_merged (fun a b m hjoin ha hb => ?_) h.same
    rw [(joinMessages_stop hjoin).1, ha]
  · refine forall_mem_merged (fun a b m hjoin ha hb => ?_) h.proper
    obtain ⟨-, -, hoffset, hstop⟩ := joinMessages_stop hjoin
    simp only [BlockMetadata.blockStop] at hstop
    omega
  · unfold mergedMessages
    split
    · exact .nil
    · rename_i last rest hsort
      obtain ⟨hperm, hsorted⟩ := sortByOffset_reverse hsort
      have hdisjoint : (last :: rest).reverse.Pairwise fun a b : BlockMetadata =>
          a.blockStop ≤ b.blockOffset ∨ b.blockStop ≤ a.blockOffset :=
        (List.Perm.pairwise_iff (fun {a b} => Or.symm)
          (hperm.symm.trans (reverse_perm _).symm)).mp h.apart
      have hordered := ordered_of_sorted (pairwise_reverse.mpr hsorted) hdisjoint
        fun a ha => hproper a (hperm.mem_iff.mp (mem_reverse.mp ha))
      refine pairwise_reverse.mpr ?_
      exact (joins_messages.ordered_collapse hsorted (pairwise_reverse.mp hordered)).imp Or.inl
  · intro x
    rw [coveredBy_merged, h.covered]

theorem Waits.chained (h : Waits infoHash messages tiles) {index : Nat}
    (hindex : ∀ m ∈ messages, m.pieceIndex = index ∧ m.blockStop ≤ size) (hpos : 0 < size)
    (hcovers : Covers size tiles) : Chained messages := by
  have hcovered : ∀ x < size, CoveredBy (sortByOffset messages) x := by
    intro x hx
    obtain ⟨m, hm, hin⟩ := (h.covered x).mpr (hcovers x hx)
    exact ⟨m, (perm_sortByOffset messages).mem_iff.mpr hm, hin⟩
  have hmem : ∀ m ∈ sortByOffset messages, m ∈ messages := fun m =>
    (perm_sortByOffset messages).mem_iff.mp
  constructor
  · rintro rfl
    obtain ⟨m, hm, -⟩ := hcovered 0 hpos
    exact not_mem_nil (hmem m hm)
  · have hchain := isChain_of_covered (pairwise_sortByOffset messages)
      ((List.Perm.pairwise_iff (fun {a b} => Or.symm) (perm_sortByOffset messages).symm).mp h.apart)
      (fun m hm => blockOffset_lt_blockStop (h.proper m (hmem m hm)))
      (fun m hm => (hindex m (hmem m hm)).2) hcovered
    refine hchain.imp_of_mem_imp fun a b ha hb hreach => ⟨?_, ?_, hreach⟩
    · rw [h.same a (hmem a ha), h.same b (hmem b hb)]
    · rw [(hindex a (hmem a ha)).1, (hindex b (hmem b hb)).1]

end

/-! ### The checker and the tracker -/

/-- The data of a piece has its hash. -/
def judge (hash : Bytes → ShaHash) (info : Info) (index : Nat) (data : Bytes) : Bool :=
  pieceHash info index = some (hash data)

/-- Between two requests the checker knows the pieces that were accepted, waits for the tiles of the
others, and has all of no other piece. -/
structure Checks (layout : Layout) (infoHash : ShaHash) (s : PieceCheckerState)
    (t : Tracker UInt8) : Prop where
  newStates : s.newStates = []
  sized : Sized layout s
  good_iff {index : Nat} : .good index ∈ s.oldStates ↔ index ∈ t.accepted
  accepted_lt {index : Nat} : index ∈ t.accepted → index < layout.totalBlocks
  within (index : Nat) : Within layout index (s.pending index)
  waits {index : Nat} : index ∉ t.accepted → Waits infoHash (s.pending index) (t.tiles index)
  missing {index : Nat} : index < layout.totalBlocks → index ∉ t.accepted →
    ¬ Covers (layout.size index) (t.tiles index)

variable {m : BlockMetadata}

section

variable {layout : Layout} {infoHash : ShaHash} {s : PieceCheckerState} {t : Tracker UInt8}
  {index key : Nat} {tiles : List (Tile UInt8)}

theorem lt_totalBlocks_of_size_pos (h : 0 < layout.size index) : index < layout.totalBlocks := by
  rw [Layout.lt_totalBlocks_iff]
  rw [Layout.size] at h
  omega

theorem whole_of_good (hwithin : Within layout key (s.pending key)) (hgood : .good key ∈ s.oldStates) :
    s.whole layout.pieceLength key = none := by
  have hmerged := hwithin.merged
  unfold whole
  generalize mergedMessages (s.pending key) = merged at hmerged
  rcases merged with _ | ⟨m, _ | ⟨second, rest⟩⟩
  · rfl
  · rw [toCheck, (hmerged m (mem_singleton_self m)).1]
    exact if_neg fun h => h.2 hgood
  · rfl

/-- A piece whose blocks tile a part of it is passed on if that is all of it. -/
theorem whole_iff_covers (hsized : Sized layout s) (hwithin : Within layout key (s.pending key))
    (hkey : key < layout.totalBlocks) (hgood : .good key ∉ s.oldStates)
    (hwaits : Waits infoHash (s.pending key) tiles) :
    (∃ m, s.whole layout.pieceLength key = some m) ↔ Covers (layout.size key) tiles := by
  have hcomplete : layout.Complete key (s.pending key) ↔ Covers (layout.size key) tiles := by
    simp only [Layout.Complete, Covers, hwaits.covered]
  rw [whole_iff hsized hwithin hkey hgood, hcomplete]
  constructor
  · rintro ⟨⟨hne, -⟩, hcovers | ⟨-, -, hempty⟩⟩
    · exact hcovers
    · obtain ⟨m, hm⟩ := exists_mem_of_ne_nil _ hne
      exact absurd (hempty m hm) (pos_iff_ne_zero.mp (hwaits.proper m hm))
  · exact fun hcovers => ⟨hwaits.chained hwithin (layout.size_pos hkey) hcovers, .inl hcovers⟩

theorem whole_eq_piece (hsized : Sized layout s) (hwithin : Within layout key (s.pending key))
    (hkey : key < layout.totalBlocks) (hgood : .good key ∉ s.oldStates)
    (hwaits : Waits infoHash (s.pending key) tiles) (h : s.whole layout.pieceLength key = some m) :
    m.pieceIndex = key ∧ m.blockOffset = 0 ∧ m.blockLength = layout.size key := by
  obtain ⟨hmerged, hlength⟩ := (whole_eq_some hsized hwithin hkey hgood).mp h
  have hm : m ∈ mergedMessages (s.pending key) := by
    rw [hmerged]
    exact mem_singleton_self m
  obtain ⟨hindex, hstop⟩ := hwithin.merged m hm
  have hpos := hwaits.merged.proper m hm
  rcases hlength with hlength | ⟨-, -, hempty⟩
  · rw [BlockMetadata.blockStop] at hstop
    exact ⟨hindex, by omega, hlength⟩
  · exact absurd (hempty m (mem_singleton_self m)) (pos_iff_ne_zero.mp hpos)

theorem Checks.pending_of_le (h : Checks layout infoHash s t) (hkey : ¬ key < layout.totalBlocks) :
    s.pending key = [] := by
  have hwaits := h.waits fun hmem => hkey (h.accepted_lt hmem)
  rw [eq_nil_iff_forall_not_mem]
  intro m hm
  have hstop := (h.within key m hm).2
  have hpos := hwaits.proper m hm
  refine hkey (lt_totalBlocks_of_size_pos ?_)
  rw [BlockMetadata.blockStop] at hstop
  omega

theorem Checks.whole_eq_none (h : Checks layout infoHash s t) (key : Nat) :
    s.whole layout.pieceLength key = none := by
  by_cases haccepted : key ∈ t.accepted
  · exact whole_of_good (h.within key) (h.good_iff.mpr haccepted)
  by_cases hkey : key < layout.totalBlocks
  · rw [Option.eq_none_iff_forall_ne_some]
    intro m hm
    exact h.missing hkey haccepted ((whole_iff_covers h.sized (h.within key) hkey
      (fun hgood => haccepted (h.good_iff.mp hgood)) (h.waits haccepted)).mp ⟨m, hm⟩)
  · rw [whole, h.pending_of_le hkey]
    rfl

end

/-! ### One block -/

def tileOf (block : Block) : Tile UInt8 := ⟨block.metadata.blockOffset, block.blockData⟩

/-- A block of the torrent, with as many bytes as it says, that goes with what was there before. -/
structure Fits (layout : Layout) (infoHash : ShaHash) (t : Tracker UInt8) (block : Block) : Prop where
  hash_eq : block.metadata.infoHash = infoHash
  length_eq : block.blockData.length = block.metadata.blockLength
  admits : t.Admits layout.size block.metadata.pieceIndex (tileOf block)

/-- The block is the last missing one of its piece. -/
def Completes (layout : Layout) (t : Tracker UInt8) (block : Block) : Prop :=
  block.metadata.pieceIndex ∉ t.accepted ∧ Covers (layout.size block.metadata.pieceIndex)
    (t.tiles block.metadata.pieceIndex ++ [tileOf block])

instance (layout : Layout) (t : Tracker UInt8) (block : Block) : Decidable (Completes layout t block) :=
  inferInstanceAs (Decidable (_ ∧ _))

variable {pieceLength : Nat}

section

variable {layout : Layout} {infoHash : ShaHash} {s : PieceCheckerState} {t : Tracker UInt8}
  {block : Block} {key : Nat}

theorem Fits.blockStop_le (hfits : Fits layout infoHash t block) :
    block.metadata.blockStop ≤ layout.size block.metadata.pieceIndex := by
  rw [BlockMetadata.blockStop, ← hfits.length_eq]
  exact hfits.admits.1

theorem Checks.index_lt (h : Checks layout infoHash s t) (hfits : Fits layout infoHash t block) :
    block.metadata.pieceIndex < layout.totalBlocks := by
  by_cases haccepted : block.metadata.pieceIndex ∈ t.accepted
  · exact h.accepted_lt haccepted
  · have hpos := (hfits.admits.2 haccepted).1
    have hstop := hfits.admits.1
    refine lt_totalBlocks_of_size_pos ?_
    rw [Tile.stop] at hstop
    omega

theorem Checks.within_add (h : Checks layout infoHash s t) (hfits : Fits layout infoHash t block)
    (key : Nat) : Within layout key ((s.addPendingBlock block.metadata).pending key) := by
  rw [pending_addPendingBlock]
  split
  · rename_i hkey
    intro m hm
    rcases mem_append.mp hm with hm | hm
    · exact h.within key m hm
    · cases mem_singleton.mp hm
      rw [hkey]
      exact ⟨rfl, hfits.blockStop_le⟩
  · exact h.within key

theorem Checks.waits_add (h : Checks layout infoHash s t) (hfits : Fits layout infoHash t block)
    (hnew : block.metadata.pieceIndex ∉ t.accepted) :
    Waits infoHash ((s.addPendingBlock block.metadata).pending block.metadata.pieceIndex)
      (t.tiles block.metadata.pieceIndex ++ [tileOf block]) := by
  rw [pending_addPendingBlock, if_pos rfl]
  obtain ⟨hpos, hapart⟩ := hfits.admits.2 hnew
  exact (h.waits hnew).append hfits.hash_eq rfl hfits.length_eq.symm hpos hapart

theorem whole_addPendingBlock_of_ne {message : BlockMetadata} (h : key ≠ message.pieceIndex) :
    (s.addPendingBlock message).whole pieceLength key = s.whole pieceLength key := by
  rw [whole, pending_addPendingBlock, if_neg h]
  rfl

theorem Checks.whole_add (h : Checks layout infoHash s t) (hfits : Fits layout infoHash t block) :
    if Completes layout t block then
      ∃ m, (s.addPendingBlock block.metadata).whole layout.pieceLength block.metadata.pieceIndex =
          some m ∧ m.pieceIndex = block.metadata.pieceIndex ∧ m.blockOffset = 0 ∧
        m.blockLength = layout.size block.metadata.pieceIndex
    else (s.addPendingBlock block.metadata).whole layout.pieceLength block.metadata.pieceIndex = none := by
  have hwithin := h.within_add hfits block.metadata.pieceIndex
  have hindex := h.index_lt hfits
  have hsized : Sized layout (s.addPendingBlock block.metadata) :=
    ⟨h.sized.totalBlocks, h.sized.lastBlockSize⟩
  by_cases hnew : block.metadata.pieceIndex ∈ t.accepted
  · rw [if_neg (fun hcompletes => hcompletes.1 hnew)]
    exact whole_of_good hwithin (h.good_iff.mpr hnew)
  · have hwaits := h.waits_add hfits hnew
    have hgood : .good block.metadata.pieceIndex ∉ (s.addPendingBlock block.metadata).oldStates :=
      fun hmem => hnew (h.good_iff.mp hmem)
    have hiff := whole_iff_covers hsized hwithin hindex hgood hwaits
    split
    · rename_i hcompletes
      obtain ⟨m, hm⟩ := hiff.mpr hcompletes.2
      exact ⟨m, hm, whole_eq_piece hsized hwithin hindex hgood hwaits hm⟩
    · rename_i hcompletes
      rw [Option.eq_none_iff_forall_ne_some]
      intro m hm
      exact hcompletes ⟨hnew, hiff.mp ⟨m, hm⟩⟩

theorem Checks.whole_add_eq (h : Checks layout infoHash s t) (hfits : Fits layout infoHash t block)
    (hm : (s.addPendingBlock block.metadata).whole layout.pieceLength key = some m) :
    key = block.metadata.pieceIndex ∧ m.pieceIndex = key ∧ m.blockOffset = 0 ∧
      m.blockLength = layout.size key := by
  have hkey : key = block.metadata.pieceIndex := by
    by_contra hne
    rw [whole_addPendingBlock_of_ne hne, h.whole_eq_none] at hm
    cases hm
  have hself := h.whole_add hfits
  rw [← hkey, hm] at hself
  split at hself
  · obtain ⟨m', hm', hpiece⟩ := hself
    cases hm'
    exact ⟨hkey, hpiece⟩
  · cases hself

theorem Checks.wholes_add (h : Checks layout infoHash s t) (hfits : Fits layout infoHash t block)
    (order : Arrangement Nat) : if Completes layout t block then
      ∃ m, (s.addPendingBlock block.metadata).wholes order layout.pieceLength =
          [(block.metadata.pieceIndex, m)] ∧ m.pieceIndex = block.metadata.pieceIndex ∧
        m.blockOffset = 0 ∧ m.blockLength = layout.size block.metadata.pieceIndex
    else (s.addPendingBlock block.metadata).wholes order layout.pieceLength = [] := by
  have hothers : ∀ key m, (key, m) ∈ (s.addPendingBlock block.metadata).wholes order
      layout.pieceLength → key = block.metadata.pieceIndex := fun key m hmem =>
    (h.whole_add_eq hfits (mem_wholes_iff.mp hmem)).1
  have hself := h.whole_add hfits
  split
  · rename_i hcompletes
    rw [if_pos hcompletes] at hself
    obtain ⟨m, hm, hpiece⟩ := hself
    refine ⟨m, ?_, hpiece⟩
    have hnodup := ((s.addPendingBlock block.metadata).nodup_wholes order layout.pieceLength).of_map
    refine perm_singleton.mp ((perm_ext_iff_of_nodup hnodup (nodup_singleton _)).mpr ?_)
    rintro ⟨key, m'⟩
    rw [mem_singleton, mem_wholes_iff, Prod.mk.injEq]
    constructor
    · intro hwhole
      have hkey := hothers key m' (mem_wholes_iff.mpr hwhole)
      rw [hkey, hm, Option.some.injEq] at hwhole
      exact ⟨hkey, hwhole.symm⟩
    · rintro ⟨rfl, rfl⟩
      exact hm
  · rename_i hcompletes
    rw [if_neg hcompletes] at hself
    rw [eq_nil_iff_forall_not_mem]
    rintro ⟨key, m⟩ hmem
    have hwhole := mem_wholes_iff.mp hmem
    rw [hothers key m hmem, hself] at hwhole
    cases hwhole

end

def blockVerdict (hash : Bytes → ShaHash) (info : Info) (layout : Layout) (t : Tracker UInt8)
    (block : Block) : Option Bool :=
  t.verdict layout.size (judge hash info) 0 block.metadata.pieceIndex (tileOf block)

def afterBlock (hash : Bytes → ShaHash) (info : Info) (layout : Layout) (t : Tracker UInt8)
    (block : Block) : Tracker UInt8 :=
  t.next layout.size (judge hash info) 0 block.metadata.pieceIndex (tileOf block)

section

variable {hash : Bytes → ShaHash} {info : Info} {total : Nat} {hpos : 0 < info.pieceLen.toNat}
  {infoHash : ShaHash} {s s' : PieceCheckerState} {t : Tracker UInt8} {block : Block} {bytes : Bytes}
  {order : Arrangement Nat}

theorem pieceGood_eq_judge {index : Nat} (hindex : m.pieceIndex = index)
    (hoffset : m.blockOffset = 0) (hlength : m.blockLength = size) :
    pieceGood hash info bytes m = judge hash info index
      (window bytes (index * info.pieceLen.toNat) size) := by
  rw [pieceGood, judge, blockBegin, hindex, hoffset, hlength, add_zero, Bool.eq_iff_iff]
  cases pieceHash info index with
  | none => simp
  | some expected => rw [beq_iff_eq, decide_eq_true_eq, Option.some.injEq, eq_comm]

/-- The bytes that a piece is judged by are those of its tiles. -/
def Assembled (info : Info) (layout : Layout) (t : Tracker UInt8) (block : Block) (bytes : Bytes) :
    Prop :=
  Completes layout t block →
    window bytes (block.metadata.pieceIndex * info.pieceLen.toNat)
      (layout.size block.metadata.pieceIndex) =
    assemble (replicate (layout.size block.metadata.pieceIndex) 0)
      (t.tiles block.metadata.pieceIndex ++ [tileOf block])

theorem newStates_of_diffed (h : Checks (layoutOf info total hpos) infoHash s t)
    (hfits : Fits (layoutOf info total hpos) infoHash t block)
    (hbytes : Assembled info (layoutOf info total hpos) t block bytes)
    (hdiffed : Diffed hash order info bytes (s.addPendingBlock block.metadata) s') :
    s'.newStates = ((blockVerdict hash info (layoutOf info total hpos) t block).map fun isGood =>
      PieceState.ofVerdict isGood block.metadata.pieceIndex).toList := by
  have hwholes := h.wholes_add hfits order
  have hold : (s.addPendingBlock block.metadata).newStates = [] := h.newStates
  rw [hdiffed.newStates, hold, nil_append]
  change (map _ ((s.addPendingBlock block.metadata).wholes order
    (layoutOf info total hpos).pieceLength)) = _
  by_cases hcompletes : Completes (layoutOf info total hpos) t block
  · rw [if_pos hcompletes] at hwholes
    obtain ⟨m, hm, hindex, hoffset, hlength⟩ := hwholes
    have hverdict : blockVerdict hash info (layoutOf info total hpos) t block = some _ :=
      if_pos hcompletes
    rw [hm, hverdict, ← hbytes hcompletes, map_singleton,
      pieceGood_eq_judge hindex hoffset hlength, hindex]
    rfl
  · rw [if_neg hcompletes] at hwholes
    have hverdict : blockVerdict hash info (layoutOf info total hpos) t block = none :=
      if_neg hcompletes
    rw [hwholes, hverdict]
    rfl

theorem not_covers_nil (h : 0 < size) : ¬ Covers size ([] : List (Tile UInt8)) := by
  intro hcovers
  obtain ⟨tile, hmem, -⟩ := hcovers 0 h
  cases hmem

theorem checks_of_not_completes (h : Checks (layoutOf info total hpos) infoHash s t)
    (hfits : Fits (layoutOf info total hpos) infoHash t block)
    (hcompletes : ¬ Completes (layoutOf info total hpos) t block) (hnew : s'.newStates = [])
    (hdiffed : Diffed hash order info bytes (s.addPendingBlock block.metadata) s') :
    Checks (layoutOf info total hpos) infoHash s'.drained
      ⟨t.accepted, update t.tiles block.metadata.pieceIndex
        (t.tiles block.metadata.pieceIndex ++ [tileOf block])⟩ := by
  have hpending : ∀ key, s'.pending key =
      mergedMessages ((s.addPendingBlock block.metadata).pending key) := by
    intro key
    refine hdiffed.pending_rest ?_
    have hself := h.whole_add hfits
    rw [if_neg hcompletes] at hself
    by_cases hkey : key = block.metadata.pieceIndex
    · rw [hkey]
      exact hself
    · rw [whole_addPendingBlock_of_ne hkey]
      exact h.whole_eq_none key
  constructor
  · rfl
  · exact ⟨hdiffed.totalBlocks.trans h.sized.totalBlocks,
      hdiffed.lastBlockSize.trans h.sized.lastBlockSize⟩
  · intro index
    simp only [drained, hnew, hdiffed.oldStates, toFinset_nil, Finset.union_empty]
    exact h.good_iff
  · exact h.accepted_lt
  · intro index
    change Within _ index (s'.pending index)
    rw [hpending]
    exact (h.within_add hfits index).merged
  · intro index hindex
    change Waits infoHash (s'.pending index) _
    dsimp only
    rw [hpending]
    by_cases hkey : index = block.metadata.pieceIndex
    · subst hkey
      rw [update_self]
      exact (h.waits_add hfits hindex).merged
    · rw [update_of_ne hkey, pending_addPendingBlock, if_neg hkey]
      exact (h.waits hindex).merged
  · intro index hlt hindex
    dsimp only
    by_cases hkey : index = block.metadata.pieceIndex
    · subst hkey
      rw [update_self]
      exact fun hcovers => hcompletes ⟨hindex, hcovers⟩
    · rw [update_of_ne hkey]
      exact h.missing hlt hindex

theorem checks_of_completes (h : Checks (layoutOf info total hpos) infoHash s t)
    (hfits : Fits (layoutOf info total hpos) infoHash t block) {isGood : Bool}
    (hcompletes : Completes (layoutOf info total hpos) t block)
    (hnew : s'.newStates = [.ofVerdict isGood block.metadata.pieceIndex])
    (hdiffed : Diffed hash order info bytes (s.addPendingBlock block.metadata) s') :
    Checks (layoutOf info total hpos) infoHash s'.drained
      ⟨if isGood then insert block.metadata.pieceIndex t.accepted else t.accepted,
        update t.tiles block.metadata.pieceIndex []⟩ := by
  have hindex := h.index_lt hfits
  have hself : s'.pending block.metadata.pieceIndex = [] := by
    have hwhole := h.whole_add hfits
    rw [if_pos hcompletes] at hwhole
    obtain ⟨m, hm, -⟩ := hwhole
    exact hdiffed.pending_whole hm
  have hpending : ∀ key, key ≠ block.metadata.pieceIndex →
      s'.pending key = mergedMessages (s.pending key) := by
    intro key hkey
    have hnone : (s.addPendingBlock block.metadata).whole info.pieceLen.toNat key = none := by
      rw [whole_addPendingBlock_of_ne hkey]
      exact h.whole_eq_none key
    rw [hdiffed.pending_rest hnone, pending_addPendingBlock, if_neg hkey]
  have hold : ∀ key, key ∉ (if isGood then insert block.metadata.pieceIndex t.accepted else
      t.accepted) → key ∉ t.accepted := by
    intro key hkey hmem
    refine hkey ?_
    split
    · exact Finset.mem_insert_of_mem hmem
    · exact hmem
  constructor
  · rfl
  · exact ⟨hdiffed.totalBlocks.trans h.sized.totalBlocks,
      hdiffed.lastBlockSize.trans h.sized.lastBlockSize⟩
  · intro key
    simp only [drained, hnew, hdiffed.oldStates, toFinset_cons,
      toFinset_nil, Finset.mem_union, Finset.mem_insert, Finset.notMem_empty, or_false]
    have hgood : .good key ∈ (s.addPendingBlock block.metadata).oldStates ↔ key ∈ t.accepted :=
      h.good_iff
    rw [hgood]
    cases isGood with
    | true => simp [PieceState.ofVerdict, or_comm]
    | false => simp [PieceState.ofVerdict]
  · intro key hkey
    dsimp only at hkey
    split at hkey
    · rcases Finset.mem_insert.mp hkey with rfl | hkey
      · exact hindex
      · exact h.accepted_lt hkey
    · exact h.accepted_lt hkey
  · intro key
    change Within _ key (s'.pending key)
    by_cases hkey : key = block.metadata.pieceIndex
    · rw [hkey, hself]
      exact nofun
    · rw [hpending key hkey]
      exact (h.within key).merged
  · intro key hnotin
    change Waits infoHash (s'.pending key) _
    dsimp only
    by_cases hkey : key = block.metadata.pieceIndex
    · rw [hkey, hself, update_self]
      exact waits_nil
    · rw [hpending key hkey, update_of_ne hkey]
      exact (h.waits (hold key hnotin)).merged
  · intro key hlt hnotin
    dsimp only
    by_cases hkey : key = block.metadata.pieceIndex
    · rw [hkey, update_self]
      exact not_covers_nil (Layout.size_pos hindex)
    · rw [update_of_ne hkey]
      exact h.missing hlt (hold key hnotin)

theorem Checks.diffed (h : Checks (layoutOf info total hpos) infoHash s t)
    (hfits : Fits (layoutOf info total hpos) infoHash t block)
    (hbytes : Assembled info (layoutOf info total hpos) t block bytes)
    (hdiffed : Diffed hash order info bytes (s.addPendingBlock block.metadata) s') :
    Checks (layoutOf info total hpos) infoHash s'.drained
      (afterBlock hash info (layoutOf info total hpos) t block) := by
  have hnew := newStates_of_diffed h hfits hbytes hdiffed
  by_cases hcompletes : Completes (layoutOf info total hpos) t block
  · have hverdict : t.verdict (layoutOf info total hpos).size (judge hash info) 0
        block.metadata.pieceIndex (tileOf block) = some _ := if_pos hcompletes
    rw [blockVerdict, hverdict] at hnew
    rw [afterBlock, Tracker.next, hverdict]
    exact checks_of_completes h hfits hcompletes hnew hdiffed
  · have hverdict : t.verdict (layoutOf info total hpos).size (judge hash info) 0
        block.metadata.pieceIndex (tileOf block) = none := if_neg hcompletes
    rw [blockVerdict, hverdict] at hnew
    rw [afterBlock, Tracker.next, hverdict]
    exact checks_of_not_completes h hfits hcompletes hnew hdiffed

end

/-! ### The bytes of the tiles -/

/-- The tiles of the pieces that were not accepted are on the disk. -/
def Stored (info : Info) (layout : Layout) (bytes : Bytes) (t : Tracker UInt8) : Prop :=
  ∀ index ∉ t.accepted, ∀ tile ∈ t.tiles index, tile.stop ≤ layout.size index ∧
    window bytes (index * info.pieceLen.toNat + tile.offset) tile.data.length = tile.data

section

variable {hash : Bytes → ShaHash} {info : Info} {total : Nat} {hpos : 0 < info.pieceLen.toNat}
  {infoHash : ShaHash} {t : Tracker UInt8} {block : Block} {bytes : Bytes}

theorem apart_of_ne {i j a b : Nat} (hne : i ≠ j) (ha : a ≤ pieceLength) (hb : b ≤ pieceLength) :
    i * pieceLength + a ≤ j * pieceLength ∨ j * pieceLength + b ≤ i * pieceLength := by
  rcases lt_or_gt_of_ne hne with hlt | hgt
  · have hle := mul_le_mul_right pieceLength (succ_le_of_lt hlt)
    rw [succ_mul] at hle
    omega
  · have hle := mul_le_mul_right pieceLength (succ_le_of_lt hgt)
    rw [succ_mul] at hle
    omega

theorem end_le_total {index : Nat} (h : index < (layoutOf info total hpos).totalBlocks) :
    index * info.pieceLen.toNat + (layoutOf info total hpos).size index ≤ total := by
  have hlt : index * info.pieceLen.toNat < total := Layout.lt_totalBlocks_iff.mp h
  rw [size_layoutOf]
  omega

theorem Stored.write (h : Stored info (layoutOf info total hpos) bytes t)
    (hfits : Fits (layoutOf info total hpos) infoHash t block)
    (hin : blockBegin info block.metadata + block.blockData.length ≤ bytes.length) :
    Stored info (layoutOf info total hpos) (overwrite bytes (blockBegin info block.metadata) block.blockData)
      ⟨t.accepted, update t.tiles block.metadata.pieceIndex
        (t.tiles block.metadata.pieceIndex ++ [tileOf block])⟩ := by
  have hbegin : blockBegin info block.metadata =
      block.metadata.pieceIndex * info.pieceLen.toNat + (tileOf block).offset := rfl
  have hsize : ∀ index, (layoutOf info total hpos).size index ≤ info.pieceLen.toNat :=
    (layoutOf info total hpos).size_le
  have hstop := hfits.admits.1
  intro index hindex tile htile
  dsimp only at hindex htile
  by_cases hkey : index = block.metadata.pieceIndex
  · subst hkey
    rw [update_self] at htile
    rcases mem_append.mp htile with htile | htile
    · obtain ⟨hle, hwindow⟩ := h _ hindex tile htile
      have hapart := (hfits.admits.2 hindex).2 tile htile
      refine ⟨hle, ?_⟩
      rw [window_overwrite_of_disjoint hin, hwindow]
      simp only [Tile.stop, tileOf] at hapart hbegin
      omega
    · cases mem_singleton.mp htile
      exact ⟨hstop, window_overwrite_self hin⟩
  · rw [update_of_ne hkey] at htile
    obtain ⟨hle, hwindow⟩ := h _ hindex tile htile
    refine ⟨hle, ?_⟩
    have hapart := apart_of_ne hkey (hle.trans (hsize index)) (hstop.trans (hsize _))
    rw [window_overwrite_of_disjoint hin, hwindow]
    simp only [Tile.stop, tileOf] at hapart hbegin
    omega

theorem Stored.assembled (h : Stored info (layoutOf info total hpos) bytes
      ⟨t.accepted, update t.tiles block.metadata.pieceIndex
        (t.tiles block.metadata.pieceIndex ++ [tileOf block])⟩)
    (hindex : block.metadata.pieceIndex < (layoutOf info total hpos).totalBlocks)
    (hlength : bytes.length = total) : Assembled info (layoutOf info total hpos) t block bytes := by
  rintro ⟨hnew, hcovers⟩
  have hend := end_le_total hindex
  have hwindow := length_window (hend.trans hlength.ge)
  refine (assemble_eq ?_ ?_ ?_).symm
  · rw [length_replicate, hwindow]
  · intro tile htile
    obtain ⟨hle, hstored⟩ := h block.metadata.pieceIndex hnew tile (by
      dsimp only
      rwa [update_self])
    rw [hwindow, window_window hle]
    exact ⟨hle, hstored⟩
  · rw [hwindow]
    exact hcovers

/-- Nothing is lost when the tracker goes on. -/
theorem Stored.after (h : Stored info (layoutOf info total hpos) bytes
      ⟨t.accepted, update t.tiles block.metadata.pieceIndex
        (t.tiles block.metadata.pieceIndex ++ [tileOf block])⟩) : Stored info (layoutOf info total hpos) bytes
      (afterBlock hash info (layoutOf info total hpos) t block) := by
  rw [afterBlock, Tracker.next]
  split
  · rename_i isGood hverdict
    intro index hindex tile htile
    dsimp only at hindex htile
    by_cases hkey : index = block.metadata.pieceIndex
    · rw [hkey, update_self] at htile
      cases htile
    · rw [update_of_ne hkey] at htile
      refine h index (fun hmem => hindex ?_) tile ?_
      · split
        · exact Finset.mem_insert_of_mem hmem
        · exact hmem
      · dsimp only
        rwa [update_of_ne hkey]
  · exact h

end

end BitTorrent.Disk
