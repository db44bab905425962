import BitTorrent.DiskChecker

/-! The tasks of the disk manager. A request is executed as one task that works on the file system, the
added torrents and their checkers, sends notifications and ends with one response. -/

namespace BitTorrent.Disk

open Rust Segments Meta

inductive BlockError (ε : Type) where
  | io (error : ε)
  | infoHashNotFound (hash : ShaHash)
  deriving DecidableEq

inductive TorrentError (ε : Type) where
  | block (error : BlockError ε)
  | io (error : ε)
  | existingFileSizeCheck (filePath : PathBuf) (expectedSize actualSize : Nat)
  | existingInfoHash (hash : ShaHash)
  | infoHashNotFound (hash : ShaHash)
  deriving DecidableEq

/-- `Block` and `BlockMut`, which differ in who may write to the memory only. -/
structure Block where
  metadata : BlockMetadata
  blockData : Bytes
  deriving DecidableEq

inductive IDiskMessage where
  | addTorrent (metainfo : Metainfo)
  | removeTorrent (hash : ShaHash)
  | syncTorrent (hash : ShaHash)
  | loadBlock (block : Block)
  | processBlock (block : Block)
  deriving DecidableEq

inductive ODiskMessage (ε : Type) where
  | torrentAdded (hash : ShaHash)
  | torrentRemoved (hash : ShaHash)
  | torrentSynced (hash : ShaHash)
  | foundGoodPiece (hash : ShaHash) (index : Nat)
  | foundBadPiece (hash : ShaHash) (index : Nat)
  | blockLoaded (block : Block)
  | blockProcessed (block : Block)
  | torrentError (hash : ShaHash) (error : TorrentError ε)
  | loadBlockError (block : Block) (error : BlockError ε)
  | processBlockError (block : Block) (error : BlockError ε)
  deriving DecidableEq

/-! ### The piece checker -/

/-- `InfoHash::from_hash` of the `index`-th piece hash. -/
def pieceHash (info : Info) (index : Nat) : Option ShaHash :=
  info.pieces[index]?.map fun piece => ⟨piece.toList, piece.length_toList⟩

def lastPieceSize {ε : Type} (info : Info) : Run ε Nat := do
  remUsize (← totalBytes info) info.pieceLen.toNat

/-- The pieces that lie completely in the torrent, then the rest if there is one. -/
def fillCheckerState {ε : Type} (info : Info) (s : PieceCheckerState) : Run ε PieceCheckerState := do
  let pieceLength := info.pieceLen.toNat
  let totalBytes ← totalBytes info
  let fullPieces ← divUsize totalBytes pieceLength
  let lastPieceSize ← lastPieceSize info
  let filled := (List.range fullPieces).foldl
    (fun s pieceIndex => s.addPendingBlock (.withDefaultHash pieceIndex 0 pieceLength)) s
  if lastPieceSize ≠ 0 then
    return filled.addPendingBlock (.withDefaultHash fullPieces 0 lastPieceSize)
  else return filled

section

variable {σ File ε : Type} (fs : FileSystem σ File ε)

/-- One round of the loop of `validate_files_sizes`. -/
def validateFileSize (directory : Option PathBuf) (file : Meta.File) : Io σ (TorrentError ε) Unit := do
  let filePath := buildPath directory file
  let expectedSize := file.len.toNat
  let fsFile ← Io.mapErr .io (fs.openFile filePath)
  let actualSize ← Io.mapErr .io (fs.fileSize fsFile)
  if actualSize ≠ expectedSize ∧ actualSize = 0 then
    let _ ← Io.expect (fs.writeFile fsFile (expectedSize - 1) [0])
  else if actualSize ≠ expectedSize then
    Io.ofRun (fail (.existingFileSizeCheck filePath expectedSize actualSize))

def validateFilesSizes (info : Info) : Io σ (TorrentError ε) Unit :=
  info.files.forM (validateFileSize fs info.fileDirectory)

variable (hash : Bytes → ShaHash)

/-- The closure of `calculate_diff`. The buffer is shared by all pieces of a call, and a piece is read into
its front. -/
def pieceMatches (info : Info) (message : BlockMetadata) : Io (Bytes × σ) ε Bool := do
  let (pieceBuffer, _) ← Io.get
  let _ ← Io.ofRun (slice pieceBuffer 0 message.blockLength)
  Io.zoom (fun t => (t.1.take message.blockLength, t.2))
    (fun t t' => (t.1 ++ t'.1.drop message.blockLength, t.2)) (readPiece fs info message)
  let (pieceBuffer, _) ← Io.get
  let calculatedHash := hash (pieceBuffer.take message.blockLength)
  let expectedHash ← Io.ofRun (unwrapSome (pieceHash info message.pieceIndex))
  return calculatedHash == expectedHash

def calculateDiff (order : Arrangement Nat) (info : Info) : Io (PieceCheckerState × σ) ε Unit := do
  let pieceBuffer ← Io.ofRun (Buffer.zeros info.pieceLen.toNat)
  let (result, _) ← Io.withLocal pieceBuffer.data
    (Io.zoom (fun t => (t.2.1, (t.1, t.2.2))) (fun t _ => (t.2.1, (t.1, t.2.2)))
      (PieceCheckerState.runWithWholePieces order info.pieceLen.toNat (pieceMatches fs hash info)))
  Io.ofRun (ofResult result)

def initState (order : Arrangement Nat) (info : Info) : Io σ (TorrentError ε) PieceCheckerState := do
  let totalBlocks := info.pieces.length
  let lastPieceSize ← Io.ofRun (lastPieceSize info)
  let checkerState := PieceCheckerState.new totalBlocks lastPieceSize
  validateFilesSizes fs info
  let filled ← Io.ofRun (fillCheckerState info checkerState)
  let (result, checked) ← Io.withLocal filled (calculateDiff fs hash order info)
  match result with
  | .ok () => return checked
  | .error e => Io.ofRun (fail (.io e))

/-! ### The context -/

/-- An added torrent, with the place of its checker. -/
structure MetainfoState where
  file : Metainfo
  checker : Nat

/-- What the tasks share: the state of the file system, the torrents by their hash, all checkers there
have been, and the messages that were sent. -/
structure DiskManagerContext (σ ε : Type) where
  disk : σ
  torrents : HashMap ShaHash MetainfoState
  checkers : List PieceCheckerState
  out : List (ODiskMessage ε)

namespace DiskManagerContext

def new (disk : σ) : DiskManagerContext σ ε := ⟨disk, ∅, [], []⟩

def send (c : DiskManagerContext σ ε) (message : ODiskMessage ε) : DiskManagerContext σ ε :=
  { c with out := c.out ++ [message] }

def checkerAt (c : DiskManagerContext σ ε) (checker : Nat) : PieceCheckerState :=
  c.checkers.getD checker (.new 0 0)

def setChecker (c : DiskManagerContext σ ε) (checker : Nat) (s : PieceCheckerState) :
    DiskManagerContext σ ε :=
  { c with checkers := c.checkers.set checker s }

def insertTorrent (c : DiskManagerContext σ ε) (file : Metainfo) (state : Nat) :
    Except (ShaHash × MetainfoState) ShaHash × DiskManagerContext σ ε :=
  let hash := file.info.infoHash
  match c.torrents.lookup hash with
  | some occupied => (.error (hash, occupied), c)
  | none => (.ok hash, { c with torrents := c.torrents.insert hash ⟨file, state⟩ })

def removeTorrent (c : DiskManagerContext σ ε) (hash : ShaHash) : Bool × DiskManagerContext σ ε :=
  ((c.torrents.lookup hash).isSome, { c with torrents := c.torrents.erase hash })

end DiskManagerContext

/-- A call of the file system in a task. -/
def onFiles {α ε' : Type} (x : Io σ ε' α) : Io (DiskManagerContext σ ε) ε' α :=
  Io.zoom DiskManagerContext.disk (fun disk c => { c with disk }) x

/-- The message that a verdict is sent as, if any. -/
def verdictMessage (hash : ShaHash) (ignoreBad : Bool) : PieceState → Option (ODiskMessage ε)
  | .good index => some (.foundGoodPiece hash index)
  | .bad index => if ignoreBad then none else some (.foundBadPiece hash index)

/-- The checker is locked for all of this. -/
def sendPieceDiff {ε' : Type} (checkerState : Nat) (hash : ShaHash) (ignoreBad : Bool) :
    Io (DiskManagerContext σ ε) ε' Unit :=
  Io.zoom (fun c => (c.checkerAt checkerState, c.out))
    (fun t c => { c.setChecker checkerState t.1 with out := t.2 })
    (PieceCheckerState.runWithDiff fun pieceState =>
      Io.modify fun out => out ++ (verdictMessage hash ignoreBad pieceState).toList)

def executeAddTorrent (order : Arrangement Nat) (file : Metainfo) :
    Io (DiskManagerContext σ ε) (TorrentError ε) Unit := do
  let infoHash := file.info.infoHash
  let initState ← onFiles (initState fs hash order file.info)
  let checker := (← Io.get).checkers.length
  Io.modify fun c => { c with checkers := c.checkers ++ [initState] }
  sendPieceDiff checker infoHash true
  let (result, c) := (← Io.get).insertTorrent file checker
  Io.modify fun _ => c
  match result with
  | .ok _ => return
  | .error (hash, _) => Io.ofRun (fail (.existingInfoHash hash))

def executeRemoveTorrent (hash : ShaHash) : Io (DiskManagerContext σ ε) (TorrentError ε) Unit := do
  let (removed, c) := (← Io.get).removeTorrent hash
  Io.modify fun _ => c
  if removed then return else Io.ofRun (fail (.infoHashNotFound hash))

/-- The torrent is looked up once; the task keeps what it has found. -/
def updateTorrent {α ε' : Type} (hash : ShaHash)
    (withState : MetainfoState → Io (DiskManagerContext σ ε) ε' α) :
    Io (DiskManagerContext σ ε) ε' (Option α) := do
  match (← Io.get).torrents.lookup hash with
  | none => return none
  | some state => return some (← withState state)

def executeSyncTorrent (hash : ShaHash) : Io (DiskManagerContext σ ε) (TorrentError ε) Unit := do
  let syncResult ← updateTorrent hash fun state =>
    onFiles (Io.result (state.file.info.files.forM fun file =>
      fs.syncFile (buildPath state.file.info.fileDirectory file)))
  match syncResult with
  | some (.ok ()) => return
  | some (.error e) => Io.ofRun (fail (.io e))
  | none => Io.ofRun (fail (.infoHashNotFound hash))

/-- The block is returned as the read has left it, also with an error. -/
def executeLoadBlock {ε' : Type} (block : Block) :
    Io (DiskManagerContext σ ε) ε' (Except (BlockError ε) Unit × Block) := do
  let infoHash := block.metadata.infoHash
  let accessResult ← updateTorrent infoHash fun state =>
    onFiles (Io.withLocal block.blockData (readPiece fs state.file.info block.metadata))
  match accessResult with
  | some (.ok (), blockData) => return (.ok (), { block with blockData })
  | some (.error e, blockData) => return (.error (.io e), { block with blockData })
  | none => return (.error (.infoHashNotFound infoHash), block)

/-- The block is written before anything is checked, and the diff is sent whatever came out. -/
def executeProcessBlock (order : Arrangement Nat) (block : Block) :
    Io (DiskManagerContext σ ε) (BlockError ε) Unit := do
  let metadata := block.metadata
  let infoHash := metadata.infoHash
  let blockResult ← updateTorrent infoHash fun state => do
    let blockResult ← Io.result (do
      onFiles (writePiece fs state.file.info block.blockData metadata)
      Io.modify fun c => c.setChecker state.checker ((c.checkerAt state.checker).addPendingBlock metadata)
      Io.zoom (fun c => (c.checkerAt state.checker, c.disk))
        (fun t c => { c.setChecker state.checker t.1 with disk := t.2 })
        (calculateDiff fs hash order state.file.info))
    sendPieceDiff state.checker state.file.info.infoHash false
    return blockResult
  match blockResult with
  | some (.ok ()) => return
  | some (.error e) => Io.ofRun (fail (.io e))
  | none => Io.ofRun (fail (.infoHashNotFound infoHash))

/-- `tasks::execute`. The receiver of the messages is there as long as tasks run. -/
def execute (order : Arrangement Nat) (msg : IDiskMessage) :
    Io (DiskManagerContext σ ε) Empty Unit := do
  let outMsg ← match msg with
    | .addTorrent metainfo => do
      let infoHash := metainfo.info.infoHash
      match ← Io.result (executeAddTorrent fs hash order metainfo) with
      | .ok () => pure (.torrentAdded infoHash)
      | .error err => pure (.torrentError infoHash err)
    | .removeTorrent hash => do
      match ← Io.result (executeRemoveTorrent hash) with
      | .ok () => pure (.torrentRemoved hash)
      | .error err => pure (.torrentError hash err)
    | .syncTorrent hash => do
      match ← Io.result (executeSyncTorrent fs hash) with
      | .ok () => pure (.torrentSynced hash)
      | .error err => pure (.torrentError hash err)
    | .loadBlock block => do
      match ← executeLoadBlock fs block with
      | (.ok (), block) => pure (.blockLoaded block)
      | (.error err, block) => pure (.loadBlockError block err)
    | .processBlock block => do
      match ← Io.result (executeProcessBlock fs hash order block) with
      | .ok () => pure (.blockProcessed block)
      | .error err => pure (.processBlockError block err)
  Io.modify fun c => c.send outMsg

end

end BitTorrent.Disk
