import BitTorrent.DiskValidate

/-! Adding a torrent. All pieces wait as one block each, so all of them are whole, and the good ones are
announced before the torrent is there. -/

namespace BitTorrent.Disk

open Rust Segments Meta List Volume Io PieceCheckerState Nat

theorem pieceLen_le_usizeMax (info : Info) : info.pieceLen.toNat ≤ usizeMax := by
  have := info.pieceLen.toNat_lt
  rw [usizeMax]
  omega

/-- The pieces of a torrent whose pieces are not empty. -/
def layoutOf (info : Info) (total : Nat) (h : 0 < info.pieceLen.toNat) : Layout :=
  ⟨total, info.pieceLen.toNat, h, pieceLen_le_usizeMax info⟩

/-! ### The blocks of all pieces -/

variable {index : Nat}

section

variable {info : Info} {total : Nat} {s : PieceCheckerState}

variable {length n : Nat}

theorem foldl_addPendingBlock : ((range n).foldl (fun s pieceIndex =>
      addPendingBlock s (.withDefaultHash pieceIndex 0 length)) s).pending index =
      if index < n then s.pending index ++ [.withDefaultHash index 0 length] else s.pending index := by
  induction n with
  | zero => simp
  | succ n ih =>
    rw [range_succ, foldl_append, foldl_cons, foldl_nil,
      pending_addPendingBlock, ih]
    by_cases hindex : index = n
    · subst hindex
      simp
    · have hlt : index < n + 1 ↔ index < n := by omega
      simp [hindex, hlt]

theorem foldl_addPendingBlock_fields {s' : PieceCheckerState}
    (h : s' = (range n).foldl (fun s pieceIndex =>
      addPendingBlock s (.withDefaultHash pieceIndex 0 length)) s) :
    s'.newStates = s.newStates ∧ s'.oldStates = s.oldStates ∧ s'.totalBlocks = s.totalBlocks ∧
      s'.lastBlockSize = s.lastBlockSize := by
  subst h
  induction n with
  | zero => exact ⟨rfl, rfl, rfl, rfl⟩
  | succ n ih =>
    rw [range_succ, foldl_append, foldl_cons, foldl_nil]
    exact ih

theorem size_layoutOf (hpos : 0 < info.pieceLen.toNat) (index : Nat) :
    (layoutOf info total hpos).size index =
      min info.pieceLen.toNat (total - index * info.pieceLen.toNat) := rfl

theorem layoutOf_full (hpos : 0 < info.pieceLen.toNat) (h : index < total / info.pieceLen.toNat) :
    index < (layoutOf info total hpos).totalBlocks ∧
      (layoutOf info total hpos).size index = info.pieceLen.toNat := by
  have hle : (index + 1) * info.pieceLen.toNat ≤ total := (le_div_iff_mul_le hpos).mp h
  rw [add_mul, one_mul] at hle
  rw [Layout.lt_totalBlocks_iff, size_layoutOf]
  change index * info.pieceLen.toNat < total ∧ _
  omega

theorem layoutOf_rest (total : Nat) (hpos : 0 < info.pieceLen.toNat) :
    (total / info.pieceLen.toNat < (layoutOf info total hpos).totalBlocks ↔ total % info.pieceLen.toNat ≠ 0) ∧
      (layoutOf info total hpos).size (total / info.pieceLen.toNat) = total % info.pieceLen.toNat := by
  have hsum := div_add_mod total info.pieceLen.toNat
  have hlt := mod_lt total hpos
  rw [mul_comm] at hsum
  rw [Layout.lt_totalBlocks_iff, size_layoutOf]
  change (total / info.pieceLen.toNat * info.pieceLen.toNat < total ↔ _) ∧ _
  omega

theorem layoutOf_beyond (hpos : 0 < info.pieceLen.toNat)
    (h : total / info.pieceLen.toNat < index) : ¬ index < (layoutOf info total hpos).totalBlocks := by
  rw [Layout.lt_totalBlocks_iff]
  change ¬ index * info.pieceLen.toNat < total
  rw [not_lt]
  exact ((div_lt_iff_lt_mul hpos).mp h).le

/-- Every piece waits as one block. -/
theorem fillCheckerState_run {ε : Type} (hpos : 0 < info.pieceLen.toNat)
    (htotal : totalBytes info = (.ok total : Run ε Nat)) (hempty : ∀ index, s.pending index = []) :
    ∃ s', (fillCheckerState info s : Run ε PieceCheckerState) = .ok s' ∧
      (s'.newStates = s.newStates ∧ s'.oldStates = s.oldStates ∧ s'.totalBlocks = s.totalBlocks ∧
        s'.lastBlockSize = s.lastBlockSize) ∧ ∀ index, s'.pending index =
        if index < (layoutOf info total hpos).totalBlocks then
          [.withDefaultHash index 0 ((layoutOf info total hpos).size index)] else [] := by
  obtain ⟨filled, hfilled⟩ : ∃ filled, filled = (range (total / info.pieceLen.toNat)).foldl
      (fun s pieceIndex => addPendingBlock s
        (.withDefaultHash pieceIndex 0 info.pieceLen.toNat)) s := ⟨_, rfl⟩
  have hpending : ∀ index, filled.pending index = if index < total / info.pieceLen.toNat then
      [.withDefaultHash index 0 info.pieceLen.toNat] else [] := fun index => by
    rw [hfilled, foldl_addPendingBlock, hempty, nil_append]
  have hfields := foldl_addPendingBlock_fields hfilled
  have hrest := layoutOf_rest total hpos
  have hrun : (fillCheckerState info s : Run ε PieceCheckerState) =
      if total % info.pieceLen.toNat ≠ 0 then
        .ok (filled.addPendingBlock (.withDefaultHash (total / info.pieceLen.toNat) 0
          (total % info.pieceLen.toNat)))
      else .ok filled := by
    have hne : info.pieceLen.toNat ≠ 0 := pos_iff_ne_zero.mp hpos
    simp only [fillCheckerState, lastPieceSize, htotal, divUsize, remUsize, if_neg hne, ok_bind, ← hfilled]
    rfl
  by_cases hrem : total % info.pieceLen.toNat = 0
  · rw [if_neg (not_not_intro hrem)] at hrun
    refine ⟨_, hrun, hfields, fun index => ?_⟩
    rw [hpending]
    rcases lt_trichotomy index (total / info.pieceLen.toNat) with hlt | rfl | hgt
    · obtain ⟨hin, hsize⟩ := layoutOf_full hpos hlt
      rw [if_pos hlt, if_pos hin, hsize]
    · rw [if_neg (lt_irrefl _), if_neg (fun hin => hrest.1.mp hin hrem)]
    · rw [if_neg (not_lt.mpr hgt.le), if_neg (layoutOf_beyond hpos hgt)]
  · rw [if_pos hrem] at hrun
    refine ⟨_, hrun, hfields, fun index => ?_⟩
    rw [pending_addPendingBlock, BlockMetadata.pieceIndex_withDefaultHash, hpending]
    rcases lt_trichotomy index (total / info.pieceLen.toNat) with hlt | rfl | hgt
    · obtain ⟨hin, hsize⟩ := layoutOf_full hpos hlt
      rw [if_neg (Nat.ne_of_lt hlt), if_pos hlt, if_pos hin, hsize]
    · rw [if_pos rfl, if_neg (Nat.lt_irrefl _), if_pos (hrest.1.mpr hrem), hrest.2, nil_append]
    · rw [if_neg (Nat.ne_of_gt hgt), if_neg (Nat.not_lt.mpr hgt.le), if_neg (layoutOf_beyond hpos hgt)]

end

/-! ### The diff -/

section

variable {info : Info} {v v' : Volume} {s s' : PieceCheckerState} (hash : Bytes → ShaHash)

theorem calculateDiff_of_run {order : Arrangement Nat} {buffer : Buffer} {buffer' : Bytes}
    {r : Run IoError Unit} (hzeros : (Buffer.zeros info.pieceLen.toNat : Run IoError Buffer) = .ok buffer)
    (h : (runWithWholePieces order info.pieceLen.toNat
      (pieceMatches fileSystem hash info)).run (s, (buffer.data, v)) = (r, (s', (buffer', v')))) :
    (calculateDiff fileSystem hash order info).run (s, v) = (r, (s', v')) := by
  rw [calculateDiff, hzeros, ofRun_ok_bind]
  rcases r with (_ | _ | e) | ⟨⟩
  · refine run_bind_of_error ?_
    simp only [withLocal, zoom, h]
    rfl
  · refine run_bind_of_error ?_
    simp only [withLocal, zoom, h]
    rfl
  · refine (run_bind_of_ok (a := (.error e, buffer')) ?_).trans (run_ofRun _ _)
    simp only [withLocal, zoom, h]
    rfl
  · refine (run_bind_of_ok (a := (.ok (), buffer')) ?_).trans (run_ofRun _ _)
    simp only [withLocal, zoom, h]
    rfl

/-- The bytes of the block hash to the hash of its piece. -/
def pieceGood (info : Info) (bytes : Bytes) (message : BlockMetadata) : Bool :=
  match pieceHash info message.pieceIndex with
  | some expected => hash (window bytes (blockBegin info message) message.blockLength) == expected
  | none => false

theorem exists_pieceHash (h : index < info.pieces.length) :
    ∃ expected, pieceHash info index = some expected := by
  rw [pieceHash, getElem?_eq_getElem h]
  exact ⟨_, rfl⟩

/-- A call on files that are all there: the whole pieces are compared with their hashes, and the disk is
left alone. -/
structure Diffed (order : Arrangement Nat) (info : Info) (bytes : Bytes) (s s' : PieceCheckerState) :
    Prop where
  newStates : s'.newStates = s.newStates ++ (s.wholes order info.pieceLen.toNat).map fun piece =>
    .ofVerdict (pieceGood hash info bytes piece.2) piece.2.pieceIndex
  oldStates : s'.oldStates = s.oldStates
  totalBlocks : s'.totalBlocks = s.totalBlocks
  lastBlockSize : s'.lastBlockSize = s.lastBlockSize
  pending_whole {key : Nat} {m : BlockMetadata} :
    s.whole info.pieceLen.toNat key = some m → s'.pending key = []
  pending_rest {key : Nat} : s.whole info.pieceLen.toNat key = none →
    s'.pending key = mergedMessages (s.pending key)

theorem calculateDiff_run {ε : Type} {total : Nat} (order : Arrangement Nat) (hlaid : Laid info v)
    (htotal : totalBytes info = (.ok total : Run ε Nat)) (hfits : info.pieceLen.toNat ≤ isizeMax)
    (hcounted : ∀ key, s.pending key ≠ [] → 0 < s.totalBlocks)
    (hstops : ∀ key, ∀ m ∈ s.pending key, m.blockStop ≤ usizeMax)
    (hwhole : ∀ key m, s.whole info.pieceLen.toNat key = some m → InRange info total m ∧
      m.blockLength ≤ info.pieceLen.toNat ∧ m.pieceIndex < info.pieces.length) :
    ∃ s', (calculateDiff fileSystem hash order info).run (s, v) = (.ok (), (s', v)) ∧
      Diffed hash order info (concatenation info v) s s' := by
  obtain ⟨buffer, hzeros, hbuffer⟩ := Buffer.zeros_of_le (ε := IoError) hfits
  obtain ⟨s₁, hmerged, hrun⟩ := runWithWholePieces_run order info.pieceLen.toNat
    (pieceMatches fileSystem hash info) (buffer.data, v) hcounted hstops
  have hcallback : ∀ piece ∈ s.wholes order info.pieceLen.toNat, ∀ t : Bytes × Volume,
      t.2 = v ∧ t.1.length = info.pieceLen.toNat →
      ∃ t', (pieceMatches fileSystem hash info piece.2).run t =
        (.ok (pieceGood hash info (concatenation info v) piece.2), t') ∧
        t'.2 = v ∧ t'.1.length = info.pieceLen.toNat := by
    rintro ⟨key, m⟩ hpiece ⟨buffer, v⟩ ⟨rfl, hlength⟩
    obtain ⟨hrange, hle, hindex⟩ := hwhole key m (mem_wholes_iff.mp hpiece)
    obtain ⟨expected, hexpected⟩ := exists_pieceHash hindex
    obtain ⟨buffer', hmatch, hlength'⟩ := pieceMatches_run hash hlaid htotal hrange
      (hle.trans hlength.ge) hexpected
    refine ⟨(buffer', v), ?_, rfl, hlength'.trans hlength⟩
    simp only [hmatch, pieceGood, hexpected]
  obtain ⟨s', t', hloop, ⟨hdisk, -⟩, hnew, hold, hblocks, hlast, hpending⟩ :=
    forM_checkWhole_run _ _ s₁ (buffer.data, v) _ _ hcallback ⟨rfl, hbuffer⟩
  obtain ⟨buffer', v'⟩ := t'
  cases hdisk
  refine ⟨s', calculateDiff_of_run hash hzeros (hrun.trans hloop), ?_⟩
  constructor
  · rw [hnew, hmerged.newStates]
  · rw [hold, hmerged.oldStates]
  · rw [hblocks, hmerged.totalBlocks]
  · rw [hlast, hmerged.lastBlockSize]
  · intro key m hm
    have hmem : key ∈ (s.wholes order info.pieceLen.toNat).map Prod.fst :=
      mem_map_of_mem (mem_wholes_iff.mpr hm)
    rw [hpending, if_pos hmem]
  · intro key hnone
    rw [hpending, if_neg, hmerged.pending]
    intro hmem
    obtain ⟨⟨key', m⟩, hpiece, rfl⟩ := mem_map.mp hmem
    rw [mem_wholes_iff.mp hpiece] at hnone
    cases hnone

end

/-! ### Adding a torrent -/

/-- Pieces that are not empty, files at different places, and as many hashes as there are pieces. -/
structure WellFormed (info : Info) (total : Nat) : Prop where
  positive : 0 < info.pieceLen.toNat
  distinct : DistinctPaths info
  total_eq : totalBytes info = (.ok total : Run IoError Nat)
  pieces_length : info.pieces.length = (layoutOf info total positive).totalBlocks

def wholePiece (info : Info) (total index : Nat) : BlockMetadata :=
  .withDefaultHash index 0 (min info.pieceLen.toNat (total - index * info.pieceLen.toNat))

variable {ε' : Type}

section

variable {info : Info} {total : Nat} {v : Volume} (hash : Bytes → ShaHash)

theorem totalBytes_of_eq {ε : Type} (h : totalBytes info = (.ok total : Run ε Nat)) :
    totalBytes info = (.ok total : Run ε' Nat) := totalBytes_eq_ok.mpr (totalBytes_eq_ok.mp h)

theorem lastPieceSize_run {ε : Type} (hpos : 0 < info.pieceLen.toNat)
    (htotal : totalBytes info = (.ok total : Run ε Nat)) :
    (lastPieceSize info : Run ε Nat) = .ok (total % info.pieceLen.toNat) := by
  rw [lastPieceSize, htotal, ok_bind, remUsize, if_neg (pos_iff_ne_zero.mp hpos)]

theorem inRange_wholePiece (hpos : 0 < info.pieceLen.toNat)
    (h : index < (layoutOf info total hpos).totalBlocks) :
    InRange info total (wholePiece info total index) := by
  have hlt : index * info.pieceLen.toNat < total := Layout.lt_totalBlocks_iff.mp h
  simp only [InRange, blockBegin, wholePiece, BlockMetadata.withDefaultHash]
  omega

/-- In a state where every piece waits as one block every piece is whole. -/
theorem whole_wholePiece {s : PieceCheckerState} (hpos : 0 < info.pieceLen.toNat)
    (hsized : Sized (layoutOf info total hpos) s) (hgood : .good index ∉ s.oldStates)
    (hindex : index < (layoutOf info total hpos).totalBlocks)
    (hpending : s.pending index = [wholePiece info total index]) :
    s.whole info.pieceLen.toNat index = some (wholePiece info total index) := by
  have hwithin : Within (layoutOf info total hpos) index (s.pending index) := by
    rw [hpending]
    intro m hm
    cases mem_singleton.mp hm
    exact ⟨rfl, (zero_add _).le⟩
  refine (whole_eq_some hsized hwithin hindex hgood).mpr ⟨?_, .inl rfl⟩
  rw [hpending]
  rfl

/-- The state of the checker of a torrent that was just looked at. -/
structure Initial (info : Info) (total : Nat) (bytes : Bytes) (s : PieceCheckerState)
    (keys : List Nat) : Prop where
  nodup : keys.Nodup
  mem_keys {index : Nat} : index ∈ keys ↔ index < info.pieces.length
  newStates : s.newStates = keys.map fun index =>
    .ofVerdict (pieceGood hash info bytes (wholePiece info total index)) index
  oldStates : s.oldStates = ∅
  totalBlocks : s.totalBlocks = info.pieces.length
  lastBlockSize : s.lastBlockSize = total % info.pieceLen.toNat
  pending (index : Nat) : s.pending index = []

theorem initState_run (order : Arrangement Nat) (hwf : WellFormed info total)
    (hfits : info.pieceLen.toNat ≤ isizeMax) (hfiles : ∀ file ∈ info.files, Acceptable info v file) :
    ∃ s v' keys, (initState fileSystem hash order info).run v = (.ok s, v') ∧
      Laid info v' ∧ concatenation info v' = image info v ∧
      Initial hash info total (image info v) s keys := by
  obtain ⟨v', hvalidate, hlaid, himage, -, -⟩ := forM_validateFileSize_run hwf.distinct hfiles
  have hconcat : concatenation info v' = image info v := by
    rw [concatenation, ← imageFiles_of_laid hlaid, himage, image]
  obtain ⟨s₁, hfill, ⟨hnew, hold, hblocks, hlast⟩, hpending⟩ := fillCheckerState_run
    (ε := TorrentError IoError) (s := .new info.pieces.length (total % info.pieceLen.toNat))
    hwf.positive (totalBytes_of_eq hwf.total_eq) fun _ => rfl
  have hsized : Sized (layoutOf info total hwf.positive) s₁ :=
    ⟨hblocks.trans hwf.pieces_length, hlast⟩
  have hpieces : ∀ key, s₁.pending key =
      if key < info.pieces.length then [wholePiece info total key] else [] := fun key => by
    rw [hpending, hwf.pieces_length]
    rfl
  have hwhole : ∀ key m, s₁.whole info.pieceLen.toNat key = some m ↔
      key < info.pieces.length ∧ m = wholePiece info total key := by
    intro key m
    by_cases hkey : key < info.pieces.length
    · have hpiece := whole_wholePiece hwf.positive hsized (by rw [hold]; exact Finset.notMem_empty _)
        (hwf.pieces_length ▸ hkey) ((hpieces key).trans (if_pos hkey))
      rw [hpiece, Option.some.injEq, eq_comm]
      exact (and_iff_right hkey).symm
    · rw [whole, hpieces, if_neg hkey]
      exact ⟨fun h => (by cases h), fun h => absurd h.1 hkey⟩
  obtain ⟨s₂, hdiff, hdiffed⟩ := calculateDiff_run hash order hlaid hwf.total_eq hfits
    (s := s₁) (fun key hne => by
      rw [hpieces] at hne
      split at hne
      · rename_i hkey
        rw [hblocks]
        exact lt_of_le_of_lt (zero_le key) hkey
      · exact absurd rfl hne) (fun key m hm => by
      rw [hpieces] at hm
      split at hm
      · cases mem_singleton.mp hm
        exact (zero_add _).le.trans ((min_le_left _ _).trans (layoutOf info total hwf.positive).fits)
      · cases hm) fun key m hm => by
      obtain ⟨hkey, rfl⟩ := (hwhole key m).mp hm
      exact ⟨inRange_wholePiece hwf.positive (hwf.pieces_length ▸ hkey), min_le_left _ _, hkey⟩
  rw [hconcat] at hdiffed
  refine ⟨s₂, v', (s₁.wholes order info.pieceLen.toNat).map Prod.fst, ?_, hlaid, hconcat, ?_⟩
  · have hlocal : (withLocal s₁ (calculateDiff fileSystem hash order info) :
        Io Volume (TorrentError IoError) (Except IoError Unit × PieceCheckerState)).run v' =
        (.ok (.ok (), s₂), v') := by
      simp only [withLocal, hdiff]
      rfl
    have hvalidated : (validateFilesSizes fileSystem info).run v = (.ok (), v') := hvalidate
    rw [initState, lastPieceSize_run hwf.positive (totalBytes_of_eq hwf.total_eq), ofRun_ok_bind,
      run_bind_of_ok hvalidated, hfill, ofRun_ok_bind, run_bind_of_ok hlocal]
    rfl
  · constructor
    · exact s₁.nodup_wholes order info.pieceLen.toNat
    · intro index
      constructor
      · intro hmem
        obtain ⟨⟨key, m⟩, hpiece, rfl⟩ := mem_map.mp hmem
        exact ((hwhole key m).mp (mem_wholes_iff.mp hpiece)).1
      · intro hindex
        exact mem_map_of_mem
          (mem_wholes_iff.mpr ((hwhole index _).mpr ⟨hindex, rfl⟩))
    · rw [hdiffed.newStates, hnew, map_map]
      refine (nil_append _).trans (map_congr_left fun piece hpiece => ?_)
      obtain ⟨-, hm⟩ := (hwhole piece.1 piece.2).mp (mem_wholes_iff.mp hpiece)
      rw [Function.comp_apply, hm]
      rfl
    · rw [hdiffed.oldStates, hold]
      rfl
    · rw [hdiffed.totalBlocks, hblocks]
      rfl
    · rw [hdiffed.lastBlockSize, hlast]
      rfl
    · intro index
      cases hcase : s₁.whole info.pieceLen.toNat index with
      | some m => exact hdiffed.pending_whole hcase
      | none =>
        have hindex : ¬ index < info.pieces.length := fun hlt => by
          rw [(hwhole index _).mpr ⟨hlt, rfl⟩] at hcase
          cases hcase
        rw [hdiffed.pending_rest hcase, hpieces, if_neg hindex]
        rfl

end

section

variable {σ ε : Type} {c : DiskManagerContext σ ε} {checker : Nat}

theorem foldl_append_toList {α β : Type} (f : α → Option β) (l : List α) (out : List β) :
    l.foldl (fun out a => out ++ (f a).toList) out = out ++ l.filterMap f := by
  induction l generalizing out with
  | nil => simp
  | cons a l ih =>
    rw [foldl_cons, ih, filterMap_cons]
    cases f a <;> simp

/-- All verdicts are sent, bad ones only if they are wanted. -/
theorem sendPieceDiff_run (hash : ShaHash) (ignoreBad : Bool) :
    (sendPieceDiff checker hash ignoreBad : Io (DiskManagerContext σ ε) ε' Unit).run c =
      (.ok (), { c.setChecker checker (c.checkerAt checker).drained with
        out := c.out ++ (c.checkerAt checker).newStates.filterMap (verdictMessage hash ignoreBad) }) := by
  have hsend : ∀ (pieceState : PieceState) (out : List (ODiskMessage ε)),
      (modify fun out => out ++ (verdictMessage hash ignoreBad pieceState).toList :
        Io (List (ODiskMessage ε)) ε' Unit).run out =
        (.ok (), out ++ (verdictMessage hash ignoreBad pieceState).toList) := fun _ _ => rfl
  have hrun := runWithDiff_run (s := c.checkerAt checker) (t := c.out) hsend
  rw [← foldl_append_toList]
  simp only [sendPieceDiff, zoom, hrun]

theorem checkerAt_append {s : PieceCheckerState} {checkers : List PieceCheckerState} (h : c.checkers = checkers ++ [s]) :
    c.checkerAt checkers.length = s := by
  rw [DiskManagerContext.checkerAt, h]
  simp

end

section

variable {c : DiskManagerContext Volume IoError} {metainfo : Metainfo} {order : Arrangement Nat}
  {s : PieceCheckerState} {v' : Volume} (hash : Bytes → ShaHash)

/-- What is there after the checker of a torrent was made and its good pieces were announced. -/
def afterInit (c : DiskManagerContext Volume IoError) (metainfo : Metainfo) (s : PieceCheckerState)
    (v' : Volume) : DiskManagerContext Volume IoError where
  disk := v'
  torrents := c.torrents
  checkers := c.checkers ++ [s.drained]
  out := c.out ++ s.newStates.filterMap (verdictMessage metainfo.info.infoHash true)

theorem executeAddTorrent_of_init
    (hinit : (initState fileSystem hash order metainfo.info).run c.disk = (.ok s, v')) :
    (executeAddTorrent fileSystem hash order metainfo).run c =
      match c.torrents.lookup metainfo.info.infoHash with
      | some _ => (fail (.existingInfoHash metainfo.info.infoHash), afterInit c metainfo s v')
      | none => (.ok (), { afterInit c metainfo s v' with
          torrents := c.torrents.insert metainfo.info.infoHash ⟨metainfo, c.checkers.length⟩ }) := by
  have hfiles : (onFiles (initState fileSystem hash order metainfo.info)).run c =
      (.ok s, { c with disk := v' }) := run_zoom_of_eq hinit
  have hat : ({ c with disk := v', checkers := c.checkers ++ [s] } :
      DiskManagerContext Volume IoError).checkerAt c.checkers.length = s := checkerAt_append rfl
  rw [executeAddTorrent, run_bind_of_ok hfiles, run_get_bind, run_modify_bind,
    run_bind_of_ok (sendPieceDiff_run _ _), hat, run_get_bind]
  have hset : ({ c with disk := v', checkers := c.checkers ++ [s] } :
      DiskManagerContext Volume IoError).setChecker c.checkers.length s.drained =
      { c with disk := v', checkers := c.checkers ++ [s.drained] } := by
    simp [DiskManagerContext.setChecker]
  rw [hset]
  simp only [DiskManagerContext.insertTorrent]
  cases c.torrents.lookup metainfo.info.infoHash with
  | none => rfl
  | some occupied => rfl

def GoodPiece (info : Info) (total : Nat) (bytes : Bytes) (index : Nat) : Prop :=
  pieceHash info index = some (hash (window bytes (index * info.pieceLen.toNat)
    (min info.pieceLen.toNat (total - index * info.pieceLen.toNat))))

instance (info : Info) (total : Nat) (bytes : Bytes) (index : Nat) :
    Decidable (GoodPiece hash info total bytes index) := inferInstanceAs (Decidable (_ = _))

variable {bytes : Bytes} {info : Info}

variable {hash} in
theorem GoodPiece.lt_length {total : Nat}
    (h : GoodPiece hash info total bytes index) : index < info.pieces.length := by
  by_contra hle
  rw [GoodPiece, pieceHash, getElem?_eq_none (Nat.le_of_not_lt hle)] at h
  cases h

theorem pieceGood_wholePiece {total : Nat} : pieceGood hash info bytes (wholePiece info total index) = true ↔
      GoodPiece hash info total bytes index := by
  rw [GoodPiece, pieceGood]
  change (match pieceHash info index with | some expected => _ | none => _) = true ↔ _
  cases pieceHash info index with
  | none => simp
  | some expected =>
    rw [beq_iff_eq, Option.some.injEq, eq_comm]
    rfl

theorem filterMap_verdictMessage (verdict : Nat → Bool) (infoHash : ShaHash) (keys : List Nat) :
    (keys.map fun index => PieceState.ofVerdict (verdict index) index).filterMap
        (verdictMessage infoHash true) =
      (keys.filter verdict).map (ODiskMessage.foundGoodPiece (ε := IoError) infoHash) := by
  induction keys with
  | nil => rfl
  | cons key keys ih =>
    rw [map_cons, filterMap_cons, ih, filter_cons]
    cases verdict key <;> rfl

/-- What is there after a torrent was added and the given pieces were announced. -/
def afterAdd (c : DiskManagerContext Volume IoError) (metainfo : Metainfo) (s : PieceCheckerState)
    (v : Volume) (goods : List Nat) : DiskManagerContext Volume IoError where
  disk := v
  torrents := c.torrents.insert metainfo.info.infoHash ⟨metainfo, c.checkers.length⟩
  checkers := c.checkers ++ [s.drained]
  out := c.out ++ goods.map (.foundGoodPiece metainfo.info.infoHash) ++
    [.torrentAdded metainfo.info.infoHash]

/-- Adding a torrent that is not there yet: the pieces that the disk holds are announced, and then the
torrent is there, with nothing waiting. -/
theorem execute_addTorrent_run {total : Nat} (order : Arrangement Nat)
    (hparsed : metainfo.Parsed hash) (hwf : WellFormed metainfo.info total)
    (hnew : c.torrents.lookup metainfo.info.infoHash = none)
    (hfiles : ∀ file ∈ metainfo.info.files, Acceptable metainfo.info c.disk file) :
    ∃ v s keys, Laid metainfo.info v ∧ concatenation metainfo.info v = image metainfo.info c.disk ∧
      Initial hash metainfo.info total (image metainfo.info c.disk) s keys ∧
      (execute fileSystem hash order (.addTorrent metainfo)).run c =
        (.ok (), afterAdd c metainfo s v (keys.filter fun index => pieceGood hash metainfo.info
          (image metainfo.info c.disk) (wholePiece metainfo.info total index))) := by
  obtain ⟨s, v, keys, hinit, hlaid, hconcat, hinitial⟩ :=
    initState_run hash order hwf hparsed.pieceLen_le hfiles
  refine ⟨v, s, keys, hlaid, hconcat, hinitial, ?_⟩
  have hadd := executeAddTorrent_of_init hash hinit
  rw [hnew] at hadd
  dsimp only at hadd
  have hout := filterMap_verdictMessage (fun index => pieceGood hash metainfo.info
    (image metainfo.info c.disk) (wholePiece metainfo.info total index)) metainfo.info.infoHash keys
  rw [← hinitial.newStates] at hout
  refine (run_bind_of_ok (run_result_of_ok hadd)).trans ?_
  rw [afterAdd, ← hout]
  rfl

/-- A hash for examples, under which two zeros have the hash `aaaaaaaaaaaaaaaaaaaa`. -/
def byteSum (bytes : Bytes) : ShaHash :=
  ⟨replicate shaHashLen (bytes.foldl (· + ·) 97), length_replicate⟩

def twoPiecesTorrent : Buffer where
  data := ascii "d4:infod6:lengthi3e4:name1:a12:piece lengthi2e6:pieces40:" ++
    ascii "aaaaaaaaaaaaaaaaaaaabbbbbbbbbbbbbbbbbbbbee"
  fits := by decide +kernel

def twoPieces : Metainfo := .ofInfo
  { infoHash := .fill 0
    files := [⟨3, ⟨ascii "a"⟩, none⟩]
    pieces := [Vector.replicate 20 97, Vector.replicate 20 98]
    pieceLen := 2
    isPrivate := none
    fileDirectory := none }

theorem wellFormed_twoPieces : WellFormed twoPieces.info 3 :=
  ⟨by decide, by decide, by decide, by decide⟩

def emptyVolume : Volume := ⟨fun _ => none, fun _ => false⟩

/-- Resume detection. Adding a torrent that is not there yet announces the pieces whose bytes on the disk
hash to their hashes, each of them once and nothing else, and ends with the torrent added. -/
theorem resume_exact {total : Nat} (order : Arrangement Nat) (metainfo : Metainfo)
    (c : DiskManagerContext Volume IoError) (hparsed : metainfo.Parsed hash)
    (hwf : WellFormed metainfo.info total) (hnew : c.torrents.lookup metainfo.info.infoHash = none)
    (hfiles : ∀ file ∈ metainfo.info.files, Acceptable metainfo.info c.disk file) :
    ∃ (c' : DiskManagerContext Volume IoError) (goods : List Nat),
      (execute fileSystem hash order (.addTorrent metainfo)).run c = (.ok (), c') ∧
      c'.out = c.out ++ goods.map (.foundGoodPiece metainfo.info.infoHash) ++
        [.torrentAdded metainfo.info.infoHash] ∧
      goods.Nodup ∧ ∀ index, index ∈ goods ↔
        GoodPiece hash metainfo.info total (image metainfo.info c.disk) index := by
  obtain ⟨v, s, keys, -, -, hinitial, hrun⟩ := execute_addTorrent_run hash order hparsed hwf hnew hfiles
  refine ⟨_, _, hrun, rfl, hinitial.nodup.filter _, fun index => ?_⟩
  rw [mem_filter, hinitial.mem_keys, pieceGood_wholePiece]
  exact and_iff_right_of_imp GoodPiece.lt_length

/-- The missing file is filled with zeros, which are the first piece. -/
theorem resume_exact_twoPieces :
    Metainfo.fromBytes byteSum twoPiecesTorrent = .ok twoPieces ∧
      GoodPiece byteSum twoPieces.info 3 (image twoPieces.info emptyVolume) 0 ∧
      ¬ GoodPiece byteSum twoPieces.info 3 (image twoPieces.info emptyVolume) 1 ∧
      ∃ (c' : DiskManagerContext Volume IoError) (goods : List Nat),
        (execute fileSystem byteSum (.listed Nat) (.addTorrent twoPieces)).run
          (.new emptyVolume) = (.ok (), c') ∧
        c'.out = [] ++ goods.map (.foundGoodPiece twoPieces.info.infoHash) ++
          [.torrentAdded twoPieces.info.infoHash] ∧
        goods.Nodup ∧ ∀ index, index ∈ goods ↔
          GoodPiece byteSum twoPieces.info 3 (image twoPieces.info emptyVolume) index :=
  ⟨by decide +kernel, by decide, by decide, resume_exact byteSum (.listed Nat) twoPieces (.new emptyVolume)
    (.inl ⟨twoPiecesTorrent, by decide +kernel⟩) wellFormed_twoPieces rfl
    (by decide)⟩

end

end BitTorrent.Disk
