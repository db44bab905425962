import BitTorrent.DiskTiles

/-! Downloading a torrent. Requests to process blocks are executed one after another, and the blocks of a
piece that is not good yet tile it. The checker then says what a tracker of tiles says: a piece is judged
with its last missing block, by the bytes of its blocks. -/

namespace BitTorrent.Disk

open Rust Segments Meta Tiling List Volume DiskManagerContext

/-! ### The requests -/

variable {s : PieceCheckerState}

section

variable {hash : Bytes → ShaHash} {metainfo : Metainfo} {order : Arrangement Nat}
  {c : DiskManagerContext Volume IoError} {checker : Nat} {block : Block} {v' : Volume}
  {s' : PieceCheckerState}

theorem checkerAt_setChecker {σ ε : Type} {c : DiskManagerContext σ ε} (h : checker < c.checkers.length) :
    (c.setChecker checker s).checkerAt checker = s := by
  rw [setChecker, checkerAt, getD_eq_getElem?_getD,
    getElem?_set_self h]
  rfl

theorem setChecker_setChecker : (c.setChecker checker s).setChecker checker s' = c.setChecker checker s' := by
  rw [setChecker, setChecker, setChecker]
  simp only [set_set]

def afterProcess (c : DiskManagerContext Volume IoError) (checker : Nat) (infoHash : ShaHash)
    (s' : PieceCheckerState) (v' : Volume) : DiskManagerContext Volume IoError where
  disk := v'
  torrents := c.torrents
  checkers := c.checkers.set checker s'.drained
  out := c.out ++ s'.newStates.filterMap (verdictMessage infoHash false)

theorem executeProcessBlock_run
    (hlookup : c.torrents.lookup block.metadata.infoHash = some ⟨metainfo, checker⟩)
    (hchecker : checker < c.checkers.length)
    (hwrite : (writePiece fileSystem metainfo.info block.blockData block.metadata).run c.disk = (.ok (), v'))
    (hdiff : (calculateDiff fileSystem hash order metainfo.info).run
      ((c.checkerAt checker).addPendingBlock block.metadata, v') = (.ok (), (s', v'))) :
    (executeProcessBlock fileSystem hash order block).run c =
      (.ok (), afterProcess c checker metainfo.info.infoHash s' v') := by
  have hwritten : (onFiles (writePiece fileSystem metainfo.info block.blockData
      block.metadata)).run c = (.ok (), { c with disk := v' }) := Io.run_zoom_of_eq hwrite
  obtain ⟨c₁, hc₁⟩ : ∃ c₁, c₁ = ({ c with disk := v' } : DiskManagerContext Volume IoError).setChecker
    checker ((c.checkerAt checker).addPendingBlock block.metadata) := ⟨_, rfl⟩
  have hat : c₁.checkerAt checker = (c.checkerAt checker).addPendingBlock block.metadata := by
    rw [hc₁]
    exact checkerAt_setChecker hchecker
  have hset : c₁.setChecker checker s' = { c with disk := v', checkers := c.checkers.set checker s' } := by
    rw [hc₁, setChecker_setChecker]
    rfl
  have hdisk : c₁.disk = v' := by
    rw [hc₁]
    rfl
  have hchecked : (Io.zoom (fun c : DiskManagerContext Volume IoError => (c.checkerAt checker, c.disk))
      (fun t c => { c.setChecker checker t.1 with disk := t.2 })
      (calculateDiff fileSystem hash order metainfo.info)).run c₁ =
      (.ok (), { c with disk := v', checkers := c.checkers.set checker s' }) := by
    simp only [Io.zoom, hat, hdisk, hdiff, hset]
  obtain ⟨c₂, hc₂⟩ : ∃ c₂ : DiskManagerContext Volume IoError,
    c₂ = { c with disk := v', checkers := c.checkers.set checker s' } := ⟨_, rfl⟩
  rw [← hc₂] at hchecked
  have hinner : (do
      onFiles (writePiece fileSystem metainfo.info block.blockData block.metadata)
      Io.modify fun c => c.setChecker checker ((c.checkerAt checker).addPendingBlock block.metadata)
      Io.zoom (fun c => (c.checkerAt checker, c.disk))
        (fun t c => { c.setChecker checker t.1 with disk := t.2 })
        (calculateDiff fileSystem hash order metainfo.info) :
      Io (DiskManagerContext Volume IoError) IoError Unit).run c = (.ok (), c₂) := by
    rw [Io.run_bind_of_ok hwritten, Io.run_modify_bind, ← hchecked, hc₁]
    rfl
  have hat₂ : c₂.checkerAt checker = s' := by
    rw [hc₂]
    exact checkerAt_setChecker hchecker
  have hsend : (sendPieceDiff checker metainfo.info.infoHash false :
      Io (DiskManagerContext Volume IoError) (BlockError IoError) Unit).run c₂ =
      (.ok (), afterProcess c checker metainfo.info.infoHash s' v') := by
    rw [sendPieceDiff_run, hat₂, hc₂]
    simp only [setChecker, set_set, afterProcess]
  rw [executeProcessBlock]
  refine (Io.run_bind_of_ok (a := some (.ok ())) ?_).trans (Io.run_pure () _)
  rw [updateTorrent, Io.run_get_bind, hlookup]
  refine (Io.run_bind_of_ok (a := .ok ()) ?_).trans rfl
  exact (Io.run_bind_of_ok (Io.run_result_of_ok hinner)).trans (Io.run_bind_of_ok hsend)

end

/-- An added torrent between two requests. -/
structure Downloads (metainfo : Metainfo) (total : Nat) (hpos : 0 < metainfo.info.pieceLen.toNat)
    (checker : Nat) (c : DiskManagerContext Volume IoError) (t : Tracker UInt8) : Prop where
  lookup : c.torrents.lookup metainfo.info.infoHash = some ⟨metainfo, checker⟩
  checker_lt : checker < c.checkers.length
  laid : Laid metainfo.info c.disk
  checks : Checks (layoutOf metainfo.info total hpos) metainfo.info.infoHash (c.checkerAt checker) t
  stored : Stored metainfo.info (layoutOf metainfo.info total hpos)
    (concatenation metainfo.info c.disk) t

/-- What a request to process a block sends: the verdict if there is one, and its response. -/
def blockMessages (hash : Bytes → ShaHash) (info : Info) (layout : Layout) (t : Tracker UInt8)
    (block : Block) : List (ODiskMessage IoError) :=
  ((blockVerdict hash info layout t block).map fun isGood =>
    if isGood then .foundGoodPiece info.infoHash block.metadata.pieceIndex
    else .foundBadPiece info.infoHash block.metadata.pieceIndex).toList ++ [.blockProcessed block]

def downloadMessages (hash : Bytes → ShaHash) (info : Info) (layout : Layout) :
    Tracker UInt8 → List Block → List (ODiskMessage IoError)
  | _, [] => []
  | t, block :: blocks => blockMessages hash info layout t block ++
      downloadMessages hash info layout (afterBlock hash info layout t block) blocks

/-- The blocks tile the pieces that are not good yet, one piece after a verdict about it again. -/
def TilesPieces (hash : Bytes → ShaHash) (info : Info) (layout : Layout) :
    Tracker UInt8 → List Block → Prop
  | _, [] => True
  | t, block :: blocks => Fits layout info.infoHash t block ∧
      TilesPieces hash info layout (afterBlock hash info layout t block) blocks

section

variable {hash : Bytes → ShaHash} {metainfo : Metainfo} {total checker : Nat}
  {c : DiskManagerContext Volume IoError} {t : Tracker UInt8} {block : Block}

theorem filterMap_verdict (infoHash : ShaHash) (index : Nat) (verdict : Option Bool) :
    (verdict.map fun isGood => PieceState.ofVerdict isGood index).toList.filterMap
        (verdictMessage infoHash false) =
      (verdict.map fun isGood => if isGood then ODiskMessage.foundGoodPiece (ε := IoError) infoHash index
        else .foundBadPiece infoHash index).toList := by
  rcases verdict with _ | _ | _ <;> rfl

theorem Downloads.process (hwf : WellFormed metainfo.info total) (hparsed : metainfo.Parsed hash)
    (h : Downloads metainfo total hwf.positive checker c t)
    (hfits : Fits (layoutOf metainfo.info total hwf.positive) metainfo.info.infoHash t block)
    (order : Arrangement Nat) :
    ∃ c', (execute fileSystem hash order (.processBlock block)).run c = (.ok (), c') ∧ c'.out = c.out ++
        blockMessages hash metainfo.info (layoutOf metainfo.info total hwf.positive) t block ∧
      Downloads metainfo total hwf.positive checker c'
        (afterBlock hash metainfo.info (layoutOf metainfo.info total hwf.positive) t block) := by
  have hindex := h.checks.index_lt hfits
  have hlength := length_concatenation h.laid hwf.total_eq
  have hrange : InRange metainfo.info total block.metadata := by
    have hend := end_le_total hindex
    have hstop := hfits.blockStop_le
    rw [InRange, blockBegin]
    rw [BlockMetadata.blockStop] at hstop
    omega
  obtain ⟨v', hwrite, hchanged⟩ := writePiece_run hwf.distinct h.laid hwf.total_eq hrange hfits.length_eq
  have hbytes : concatenation metainfo.info v' = overwrite (concatenation metainfo.info c.disk)
      (blockBegin metainfo.info block.metadata) block.blockData := hchanged.bytes
  have hstored := h.stored.write hfits (by rw [hfits.length_eq, hlength]; exact hrange)
  rw [← hbytes] at hstored
  have hassembled := hstored.assembled hindex (length_concatenation hchanged.laid hwf.total_eq)
  have hwhole : ∀ key m, ((c.checkerAt checker).addPendingBlock block.metadata).whole
      metainfo.info.pieceLen.toNat key = some m → InRange metainfo.info total m ∧
        m.blockLength ≤ metainfo.info.pieceLen.toNat ∧ m.pieceIndex < metainfo.info.pieces.length := by
    intro key m hm
    obtain ⟨hkey, hpiece, hoffset, hsize⟩ := h.checks.whole_add_eq hfits hm
    rw [← hkey] at hindex
    refine ⟨?_, hsize.le.trans ((layoutOf metainfo.info total hwf.positive).size_le key), ?_⟩
    · rw [InRange, blockBegin, hpiece, hoffset, hsize]
      exact end_le_total hindex
    · rw [hpiece, hwf.pieces_length]
      exact hindex
  have hcounted : ∀ key, ((c.checkerAt checker).addPendingBlock block.metadata).pending key ≠ [] →
      0 < ((c.checkerAt checker).addPendingBlock block.metadata).totalBlocks := by
    intro key _
    exact Nat.lt_of_le_of_lt (Nat.zero_le _) (hindex.trans_le h.checks.sized.totalBlocks.ge)
  obtain ⟨s', hdiff, hdiffed⟩ := calculateDiff_run hash order hchanged.laid hwf.total_eq
    hparsed.pieceLen_le hcounted (fun key => (h.checks.within_add hfits key).stop_le) hwhole
  have hlookup : c.torrents.lookup block.metadata.infoHash = some ⟨metainfo, checker⟩ := by
    rw [hfits.hash_eq]
    exact h.lookup
  have hprocess := executeProcessBlock_run hlookup h.checker_lt hwrite hdiff
  refine ⟨_, (Io.run_bind_of_ok (Io.run_result_of_ok hprocess)).trans rfl, ?_, ?_⟩
  · have hnew := newStates_of_diffed h.checks hfits hassembled hdiffed
    simp only [send, afterProcess, hnew, filterMap_verdict, blockMessages,
      append_assoc]
  · constructor
    · exact h.lookup
    · exact h.checker_lt.trans_eq length_set.symm
    · exact hchanged.laid
    · have hat : ((afterProcess c checker metainfo.info.infoHash s' v').send
          (.blockProcessed block)).checkerAt checker = s'.drained := checkerAt_setChecker h.checker_lt
      rw [hat]
      exact h.checks.diffed hfits hassembled hdiffed
    · exact hstored.after

variable {order : Arrangement Nat}

/-- A torrent is added only if it was not there and its files are acceptable. -/
theorem acceptable_of_added {c' : DiskManagerContext Volume IoError}
    (h : (executeAddTorrent fileSystem hash order metainfo).run c = (.ok (), c')) :
    c.torrents.lookup metainfo.info.infoHash = none ∧
      ∀ file ∈ metainfo.info.files, Acceptable metainfo.info c.disk file := by
  rcases hinit : (initState fileSystem hash order metainfo.info).run c.disk with ⟨e | s, v'⟩
  · have hfail := (Io.run_bind_of_error (Io.run_zoom_of_eq hinit)).symm.trans h
    cases hfail
  · constructor
    · rw [executeAddTorrent_of_init hash hinit] at h
      cases hlookup : c.torrents.lookup metainfo.info.infoHash with
      | none => rfl
      | some occupied =>
        rw [hlookup] at h
        cases h
    · obtain ⟨size, v₁, hsize, hrest⟩ := Io.run_bind_eq_ok hinit
      obtain ⟨⟨⟩, v₂, hvalidate, -⟩ := Io.run_bind_eq_ok hrest
      have hdisk : v₁ = c.disk := (congrArg Prod.snd hsize).symm
      rw [hdisk] at hvalidate
      exact acceptable_of_validateFilesSizes hvalidate

variable {c₀ : DiskManagerContext Volume IoError}

theorem executeAddTorrent_of_added {before : List (ODiskMessage IoError)}
    (h : (execute fileSystem hash order (.addTorrent metainfo)).run c = (.ok (), c₀))
    (hout : c₀.out = before ++ [.torrentAdded metainfo.info.infoHash]) :
    ∃ c', (executeAddTorrent fileSystem hash order metainfo).run c = (.ok (), c') := by
  obtain ⟨r, c', hresult, hrest⟩ := Io.run_bind_eq_ok h
  have hrun : (executeAddTorrent fileSystem hash order metainfo).run c = (ofResult r, c') := by
    rw [Prod.ext_iff] at hresult
    exact Prod.ext (result_eq_ok.mp hresult.1) hresult.2
  cases r with
  | ok => exact ⟨c', hrun⟩
  | error e =>
    have hsent : c₀ = c'.send (.torrentError metainfo.info.infoHash e) :=
      (congrArg Prod.snd hrest).symm
    rw [hsent, send] at hout
    have hlast := (append_inj' hout rfl).2
    cases hlast

theorem checks_of_initial {infoHash : ShaHash} {bytes : Bytes}
    {keys : List Nat} (hwf : WellFormed metainfo.info total)
    (h : Initial hash metainfo.info total bytes s keys) :
    Checks (layoutOf metainfo.info total hwf.positive) infoHash s.drained
      ⟨(keys.filter fun index => pieceGood hash metainfo.info bytes
        (wholePiece metainfo.info total index)).toFinset, fun _ => []⟩ := by
  have hpending : ∀ index, s.drained.pending index = [] := h.pending
  constructor
  · rfl
  · exact ⟨h.totalBlocks.trans hwf.pieces_length, h.lastBlockSize⟩
  · intro index
    rw [PieceCheckerState.drained, h.oldStates, Finset.empty_union, mem_toFinset, h.newStates,
      mem_toFinset, mem_map, mem_filter]
    constructor
    · rintro ⟨key, hkey, hstate⟩
      cases hgood : pieceGood hash metainfo.info bytes (wholePiece metainfo.info total key) with
      | true =>
        rw [hgood] at hstate
        cases hstate
        exact ⟨hkey, hgood⟩
      | false =>
        rw [hgood] at hstate
        cases hstate
    · rintro ⟨hkey, hgood⟩
      exact ⟨index, hkey, by rw [hgood]; rfl⟩
  · intro index hindex
    rw [mem_toFinset, mem_filter] at hindex
    exact hwf.pieces_length ▸ h.mem_keys.mp hindex.1
  · intro index
    rw [hpending]
    exact fun m hm => (by cases hm)
  · intro index _
    rw [hpending]
    exact waits_nil
  · intro index hindex _
    exact not_covers_nil (Layout.size_pos hindex)

theorem downloads_of_added
    {goods : List Nat} (hwf : WellFormed metainfo.info total) (hparsed : metainfo.Parsed hash)
    (h : (execute fileSystem hash order (.addTorrent metainfo)).run c = (.ok (), c₀))
    (hout : c₀.out = c.out ++ goods.map (.foundGoodPiece metainfo.info.infoHash) ++
      [.torrentAdded metainfo.info.infoHash]) :
    Downloads metainfo total hwf.positive c.checkers.length c₀ ⟨goods.toFinset, fun _ => []⟩ := by
  obtain ⟨c', hadd⟩ := executeAddTorrent_of_added h hout
  obtain ⟨hnew, hfiles⟩ := acceptable_of_added hadd
  obtain ⟨v, s, keys, hlaid, -, hinitial, hrun⟩ :=
    execute_addTorrent_run hash order hparsed hwf hnew hfiles
  rw [h, Prod.mk.injEq] at hrun
  obtain ⟨-, rfl⟩ := hrun
  rw [afterAdd] at hout
  have hgoods : goods = keys.filter fun index => pieceGood hash metainfo.info
      (image metainfo.info c.disk) (wholePiece metainfo.info total index) := by
    have hmap := append_cancel_left (append_cancel_right hout)
    refine (map_injective_iff.mpr (fun i j hij => ?_) hmap).symm
    cases hij
    rfl
  have hat : (afterAdd c metainfo s v goods).checkerAt c.checkers.length = s.drained :=
    checkerAt_append rfl
  rw [← hgoods]
  constructor
  · exact AList.lookup_insert _
  · rw [afterAdd, length_append]
    exact Nat.lt_succ_self _
  · exact hlaid
  · rw [hat, hgoods]
    exact checks_of_initial hwf hinitial
  · intro index _ tile htile
    cases htile

theorem Downloads.run (hwf : WellFormed metainfo.info total) (hparsed : metainfo.Parsed hash)
    (requests : List (Arrangement Nat × Block)) (h : Downloads metainfo total hwf.positive checker c t)
    (htiles : TilesPieces hash metainfo.info (layoutOf metainfo.info total hwf.positive) t
      (requests.map Prod.snd)) :
    ∃ c', (requests.forM fun request =>
        execute fileSystem hash request.1 (.processBlock request.2)).run c = (.ok (), c') ∧
      c'.out = c.out ++ downloadMessages hash metainfo.info
        (layoutOf metainfo.info total hwf.positive) t (requests.map Prod.snd) := by
  induction requests generalizing c t with
  | nil => exact ⟨c, rfl, (append_nil _).symm⟩
  | cons request requests ih =>
    obtain ⟨hfits, hrest⟩ := htiles
    obtain ⟨c₁, hrun₁, hout₁, h₁⟩ := h.process hwf hparsed hfits request.1
    obtain ⟨c', hrun', hout'⟩ := ih h₁ hrest
    refine ⟨c', (Io.run_bind_of_ok hrun₁).trans hrun', ?_⟩
    rw [hout', hout₁, map_cons, downloadMessages, append_assoc]

/-- The file of two pieces, with other bytes. -/
def ninesVolume : Volume :=
  ⟨fun path => if path = ⟨ascii "a"⟩ then some [9, 9, 9] else none, fun _ => false⟩

def addedTwoPieces : DiskManagerContext Volume IoError :=
  ((execute fileSystem byteSum (.listed Nat) (.addTorrent twoPieces)).run (.new ninesVolume)).2

def twoPiecesBlock (index offset : Nat) (data : Bytes) : Block :=
  ⟨⟨twoPieces.info.infoHash, index, offset, data.length⟩, data⟩

/-- The second half of the first piece, the second piece with a wrong byte, the first half of the first
piece, and the second piece again. -/
def twoPiecesBlocks : List Block :=
  [twoPiecesBlock 0 1 [0], twoPiecesBlock 1 0 [5], twoPiecesBlock 0 0 [0], twoPiecesBlock 1 0 [1]]

variable (hash) in
/-- Verdicts about a download. In a sequence of requests whose blocks tile the pieces of an added torrent
that are not good yet, a piece is judged with its last missing block, by the bytes of its blocks, and no
other verdict is sent. -/
theorem download_verdicts (order : Arrangement Nat) (metainfo : Metainfo)
    (c c₀ : DiskManagerContext Volume IoError) (goods : List Nat)
    (requests : List (Arrangement Nat × Block)) (hparsed : metainfo.Parsed hash)
    (hwf : WellFormed metainfo.info total)
    (hadd : (execute fileSystem hash order (.addTorrent metainfo)).run c = (.ok (), c₀))
    (hout : c₀.out = c.out ++ goods.map (.foundGoodPiece metainfo.info.infoHash) ++
      [.torrentAdded metainfo.info.infoHash])
    (htiles : TilesPieces hash metainfo.info (layoutOf metainfo.info total hwf.positive)
      ⟨goods.toFinset, fun _ => []⟩ (requests.map Prod.snd)) :
    ∃ c', (requests.forM fun request =>
        execute fileSystem hash request.1 (.processBlock request.2)).run c₀ = (.ok (), c') ∧
      c'.out = c₀.out ++ downloadMessages hash metainfo.info
        (layoutOf metainfo.info total hwf.positive) ⟨goods.toFinset, fun _ => []⟩ (requests.map Prod.snd) :=
  (downloads_of_added hwf hparsed hadd hout).run hwf hparsed requests htiles

theorem download_verdicts_twoPieces :
    ∃ c', ((twoPiecesBlocks.map fun block => (Arrangement.listed Nat, block)).forM fun request =>
        execute fileSystem byteSum request.1 (.processBlock request.2)).run addedTwoPieces =
          (.ok (), c') ∧
      c'.out = [.torrentAdded twoPieces.info.infoHash, .blockProcessed (twoPiecesBlock 0 1 [0]),
        .foundBadPiece twoPieces.info.infoHash 1, .blockProcessed (twoPiecesBlock 1 0 [5]),
        .foundGoodPiece twoPieces.info.infoHash 0, .blockProcessed (twoPiecesBlock 0 0 [0]),
        .foundGoodPiece twoPieces.info.infoHash 1, .blockProcessed (twoPiecesBlock 1 0 [1])] := by
  obtain ⟨c', hrun, hout⟩ := download_verdicts byteSum (.listed Nat) twoPieces
    (.new ninesVolume) addedTwoPieces [] (twoPiecesBlocks.map fun block => (.listed Nat, block))
    (.inl ⟨twoPiecesTorrent, by decide +kernel⟩) wellFormed_twoPieces (Prod.ext (by decide +kernel) rfl)
    (by decide +kernel)
    ⟨⟨rfl, rfl, by decide⟩, ⟨rfl, rfl, by decide⟩, ⟨rfl, rfl, by decide⟩, ⟨rfl, rfl, by decide⟩, trivial⟩
  exact ⟨c', hrun, hout.trans (by decide +kernel)⟩

end

end BitTorrent.Disk
