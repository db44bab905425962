import BitTorrent.Metainfo
import BitTorrent.PeerUtMetadata
import BitTorrent.PeerManager

/-! The discovery module for metadata. It asks the peers of a torrent for the pieces of its info
dictionary, puts the pieces together and hands out the metainfo, and it answers the requests of other
peers for torrents that were added. Whether the assembled bytes have the requested hash is looked at
when the extended information of some peer is updated, and only then.

A call that panics is the end of the module. The hash function and the bytes of an info dictionary
(`Info::to_bytes`) are parameters; which entry an iteration over a map comes to first and which peer is
drawn is given with each call. -/

namespace BitTorrent.Select

open Rust Dht Peer Meta

/-- In nanoseconds. -/
abbrev Duration := Nat

def requestTimeoutMillis : Nat := 2000

def maxRequestSize : Nat := 16 * 1024

def maxActiveRequests : Nat := 100

def maxPeerRequests : Nat := 100

inductive ControlMessage where
  | addTorrent (metainfo : Metainfo)
  | removeTorrent (metainfo : Metainfo)
  | peerConnected (info : PeerInfo)
  | peerDisconnected (info : PeerInfo)
  | tick (duration : Duration)

inductive IDiscoveryMessage where
  | control (message : ControlMessage)
  | downloadMetainfo (hash : InfoHash)
  | receivedUtMetadataMessage (info : PeerInfo) (message : UtMetadataMessage)

inductive ODiscoveryMessage where
  | sendDhtAnnounce (hash : InfoHash)
  | sendUtMetadataMessage (info : PeerInfo) (message : UtMetadataMessage)
  | downloadedMetainfo (metainfo : Metainfo)

inductive DiscoveryError where
  | invalidMetainfoExists (hash : InfoHash)
  | invalidMetainfoNotExists (hash : InfoHash)
  deriving DecidableEq

structure ExtendedPeerInfo where
  ours : Option ExtendedMessage
  theirs : Option ExtendedMessage

structure PendingInfo where
  messages : List UtMetadataRequestMessage
  left : Nat
  bytes : Buffer

structure ActiveRequest where
  left : Duration
  message : UtMetadataRequestMessage
  sentTo : PeerInfo

structure PeerRequest where
  sendTo : PeerInfo
  request : UtMetadataRequestMessage

/-- A set of peers keeps the first of those that are equal. -/
structure ActivePeers where
  peers : HashMap PeerKey PeerInfo
  metadataSize : Int64

abbrev Waker := Nat

/-- `woken` keeps the wakers that were woken. -/
structure UtMetadataModule where
  completedMap : HashMap InfoHash Bytes
  pendingMap : HashMap InfoHash (Option PendingInfo)
  activePeers : HashMap InfoHash ActivePeers
  activeRequests : List ActiveRequest
  peerRequests : List PeerRequest
  optSinkWaker : Option Waker
  optStreamWaker : Option Waker
  woken : List Waker

def generateActiveRequest (message : UtMetadataRequestMessage) (peer : PeerInfo) : ActiveRequest :=
  ⟨requestTimeoutMillis * 10 ^ 6, message, peer⟩

def pendingInfoFromMetadataSize (metadataSize : Int64) : Run Empty PendingInfo := do
  let castMetadataSize ← unwrapSome (tryUint 64 metadataSize.toInt)
  let bytes ← Buffer.zeros castMetadataSize
  let numPieces :=
    if castMetadataSize % maxRequestSize = 0 then castMetadataSize / maxRequestSize
    else castMetadataSize / maxRequestSize + 1
  .ok ⟨(List.range numPieces).map fun index => .new (Int64.ofNat index), numPieces, bytes⟩

namespace UtMetadataModule

def new : UtMetadataModule := ⟨∅, ∅, ∅, [], [], none, none, []⟩

def addTorrent (toBytes : Info → Run Empty Bytes) (m : UtMetadataModule) (metainfo : Metainfo) :
    Run Empty (Except DiscoveryError Unit × UtMetadataModule) :=
  match m.completedMap.lookup metainfo.info.infoHash with
  | some _ => .ok (.error (.invalidMetainfoExists metainfo.info.infoHash), m)
  | none => do
    let infoBytes ← toBytes metainfo.info
    .ok (.ok (), { m with completedMap := m.completedMap.insert metainfo.info.infoHash infoBytes })

def removeTorrent (m : UtMetadataModule) (metainfo : Metainfo) :
    Except DiscoveryError Unit × UtMetadataModule :=
  match m.completedMap.lookup metainfo.info.infoHash with
  | none => (.error (.invalidMetainfoNotExists metainfo.info.infoHash), m)
  | some _ => (.ok (), { m with completedMap := m.completedMap.erase metainfo.info.infoHash })

def addPeer (m : UtMetadataModule) (info : PeerInfo) (extInfo : ExtendedPeerInfo) : UtMetadataModule :=
  let ourSupport := (extInfo.ours.bind fun msg => msg.queryId .utMetadata).isSome
  let theySupport := (extInfo.theirs.bind fun msg => msg.queryId .utMetadata).isSome
  match ourSupport, theySupport, extInfo.theirs.bind ExtendedMessage.metadataSize with
  | true, true, some metadataSize =>
    let active := (m.activePeers.lookup info.hash).getD ⟨∅, metadataSize⟩
    let peers := if info.key ∈ active.peers then active.peers else active.peers.insert info.key info
    { m with activePeers := m.activePeers.insert info.hash { active with peers } }
  | _, _, _ => m

def removePeer (m : UtMetadataModule) (info : PeerInfo) : UtMetadataModule :=
  match m.activePeers.lookup info.hash with
  | none => m
  | some active =>
    let peers := active.peers.erase info.key
    if peers.entries.isEmpty then { m with activePeers := m.activePeers.erase info.hash }
    else { m with activePeers := m.activePeers.insert info.hash { active with peers } }

/-- What a request that is not answered in time does to the peer and the download. -/
def expire (m : UtMetadataModule) (request : ActiveRequest) : UtMetadataModule :=
  let hash := request.sentTo.hash
  let activePeers :=
    match m.activePeers.lookup hash with
    | some active =>
      m.activePeers.insert hash { active with peers := active.peers.erase request.sentTo.key }
    | none => m.activePeers
  let pendingMap :=
    match m.pendingMap.lookup hash with
    | some (some pending) =>
      m.pendingMap.insert hash (some { pending with messages := pending.messages ++ [request.message] })
    | _ => m.pendingMap
  { m with activePeers, pendingMap }

def applyTick (m : UtMetadataModule) (duration : Duration) : UtMetadataModule :=
  let expired := m.activeRequests.filter fun request => request.left < duration
  let kept := m.activeRequests.filter fun request => ¬ request.left < duration
  { expired.foldl expire m with
    activeRequests := kept.map fun request => { request with left := request.left - duration } }

def downloadMetainfo (m : UtMetadataModule) (hash : InfoHash) : UtMetadataModule :=
  match m.pendingMap.lookup hash with
  | some _ => m
  | none => { m with pendingMap := m.pendingMap.insert hash none }

def recvRequest (m : UtMetadataModule) (info : PeerInfo) (request : UtMetadataRequestMessage) :
    UtMetadataModule :=
  if m.peerRequests.length < maxPeerRequests then
    { m with peerRequests := m.peerRequests ++ [⟨info, request⟩] }
  else m

/-- `Vec::swap_remove` of an index in range. -/
def swapRemove {α : Type} (l : List α) (index : Nat) : List α :=
  match l.getLast? with
  | some last => (l.set index last).dropLast
  | none => l

def recvData (m : UtMetadataModule) (info : PeerInfo) (data : UtMetadataDataMessage) :
    Run Empty UtMetadataModule :=
  match m.activeRequests.findIdx? fun request =>
      request.sentTo.key = info.key ∧ request.message.piece = data.piece with
  | none => .ok m
  | some index =>
    let m := { m with activeRequests := swapRemove m.activeRequests index }
    match m.pendingMap.lookup info.hash with
    | some (some pending) => do
      let piece ← unwrapSome (tryUint 64 data.piece.toInt)
      let dataOffset ← mulUsize piece maxRequestSize
      let left ← subUsize pending.left 1
      let bytes ← pending.bytes.writeAllAt dataOffset data.data
      .ok { m with pendingMap := m.pendingMap.insert info.hash (some { pending with left, bytes }) }
    | _ => .ok m

/-- A download that is handed out, or found to be no info dictionary, is removed with its peers. -/
def forget (m : UtMetadataModule) (completedHash : InfoHash) : UtMetadataModule :=
  { m with
    pendingMap := m.pendingMap.erase completedHash
    activePeers := m.activePeers.erase completedHash }

section

variable (hash : Bytes → ShaHash) (order : List InfoHash)

/-- The download is returned with the hash it was asked for under. The function calls itself when the
bytes of a download are no info dictionary. -/
def retrieveCompletedDownload (m : UtMetadataModule) :
    Run Empty (Option (InfoHash × PendingInfo × Info) × UtMetadataModule) :=
  match _hfind : m.pendingMap.find order fun _ opt => opt.any fun pending => pending.left = 0 with
  | some (completedHash, some completed) => do
    match ← result (Info.fromBytes hash completed.bytes) with
    | .ok info => .ok (some (completedHash, completed, info), m.forget completedHash)
    | .error _ => (m.forget completedHash).retrieveCompletedDownload
  | _ => .ok (none, m)
termination_by m.pendingMap.entries.length
decreasing_by exact HashMap.length_erase_lt (HashMap.find_eq_some _hfind).1

/-- The download of the hash has pieces that can be asked of some peer. -/
def canRequest (m : UtMetadataModule) (hash : InfoHash) (optPending : Option PendingInfo) : Bool :=
  optPending.any (fun pending => ¬ pending.messages.isEmpty) &&
    (m.activePeers.lookup hash).any fun active => ¬ active.peers.entries.isEmpty

def retrievePieceRequest (peer : Nat) (m : UtMetadataModule) :
    Option ODiscoveryMessage × UtMetadataModule :=
  match m.pendingMap.find order m.canRequest with
  | some (hash, some pending) =>
    let peers := ((m.activePeers.lookup hash).map ActivePeers.peers).getD ∅
    match peers.entries[peer % peers.entries.length]?, pending.messages.getLast? with
    | some ⟨_, selectedPeer⟩, some selectedMessage =>
      let pending := { pending with messages := pending.messages.dropLast }
      (some (.sendUtMetadataMessage selectedPeer (.request selectedMessage)),
        { m with
          pendingMap := m.pendingMap.insert hash (some pending)
          activeRequests := m.activeRequests ++ [generateActiveRequest selectedMessage selectedPeer] })
    | _, _ => (none, m)
  | _ => (none, m)

/-- The answer to a request, if it is for a whole piece of a torrent that was added. -/
def answerRequest (completedMap : HashMap InfoHash Bytes) (request : PeerRequest) :
    Run Empty (Option ODiscoveryMessage) := do
  let piece ← unwrapSome (tryUint 64 request.request.piece.toInt)
  let start ← mulUsize piece maxRequestSize
  let stop ← addUsize start maxRequestSize
  match completedMap.lookup request.sendTo.hash with
  | some data =>
    if start ≤ data.length ∧ stop ≤ data.length then
      let infoSlice := (data.take stop).drop start
      .ok (some (.sendUtMetadataMessage request.sendTo (.data
        (.new (Int64.ofNat piece) (Int64.ofNat infoSlice.length) infoSlice))))
    else .ok none
  | none => .ok none

/-- Requests that cannot be answered are dropped. -/
def pieceResponse (completedMap : HashMap InfoHash Bytes) :
    List PeerRequest → Run Empty (Option ODiscoveryMessage × List PeerRequest)
  | [] => .ok (none, [])
  | request :: peerRequests => do
    match ← answerRequest completedMap request with
    | some message => .ok (some message, peerRequests)
    | none => pieceResponse completedMap peerRequests

def retrievePieceResponse (m : UtMetadataModule) :
    Run Empty (Option ODiscoveryMessage × UtMetadataModule) := do
  let (message, peerRequests) ← pieceResponse m.completedMap m.peerRequests
  .ok (message, { m with peerRequests })

def initializePending (m : UtMetadataModule) : Run Empty (Bool × UtMetadataModule) := do
  let pendingMap ← m.pendingMap.updateAll fun hash optPending =>
    match optPending, m.activePeers.lookup hash with
    | none, some active => do .ok (some (← pendingInfoFromMetadataSize active.metadataSize))
    | _, _ => .ok optPending
  let available := pendingMap.entries.any fun entry =>
    entry.2.any fun pending => ¬ pending.messages.isEmpty
  .ok (available, { m with pendingMap })

def validateDownloaded (m : UtMetadataModule) : Run Empty (Bool × UtMetadataModule) := do
  let pendingMap ← m.pendingMap.updateAll fun expectedHash optPending =>
    match optPending with
    | some pending =>
      if pending.left = 0 ∧ hash pending.bytes.data ≠ expectedHash then .ok none else .ok optPending
    | none => .ok none
  let available := pendingMap.entries.any fun entry => entry.2.any fun pending => pending.left = 0
  .ok (available, { m with pendingMap })

def checkStreamUnblock (m : UtMetadataModule) : Run Empty UtMetadataModule := do
  let (downloadsAvailable, m) ← m.validateDownloaded hash
  let (tasksAvailable, m) ← m.initializePending
  let freeTaskQueueSpace := m.activeRequests.length ≠ maxActiveRequests
  let peerRequestsAvailable := ¬ m.peerRequests.isEmpty
  match m.optStreamWaker with
  | some waker =>
    if (freeTaskQueueSpace ∧ tasksAvailable) ∨ peerRequestsAvailable ∨ downloadsAvailable then
      .ok { m with optStreamWaker := none, woken := m.woken ++ [waker] }
    else .ok m
  | none => .ok m

def checkSinkUnblock (m : UtMetadataModule) : UtMetadataModule :=
  match m.optSinkWaker with
  | some waker =>
    if m.peerRequests.length ≠ maxPeerRequests then
      { m with optSinkWaker := none, woken := m.woken ++ [waker] }
    else m
  | none => m

def onUpdate (m : UtMetadataModule) (info : PeerInfo) (extended : ExtendedPeerInfo) :
    Run Empty UtMetadataModule :=
  (m.addPeer info extended).checkStreamUnblock hash

def pollReady (m : UtMetadataModule) (waker : Waker) : Poll Unit × UtMetadataModule :=
  if m.peerRequests.length < maxPeerRequests then (.ready (), m)
  else (.pending, { m with optSinkWaker := some waker })

def startSend (toBytes : Info → Run Empty Bytes) (m : UtMetadataModule) :
    IDiscoveryMessage → Run Empty (Except DiscoveryError Unit × UtMetadataModule)
  | .control (.addTorrent metainfo) => m.addTorrent toBytes metainfo
  | .control (.removeTorrent metainfo) => .ok (m.removeTorrent metainfo)
  | .control (.peerConnected _) => .ok (.ok (), m)
  | .control (.peerDisconnected info) => .ok (.ok (), m.removePeer info)
  | .control (.tick duration) => .ok (.ok (), m.applyTick duration)
  | .downloadMetainfo hash => .ok (.ok (), m.downloadMetainfo hash)
  | .receivedUtMetadataMessage info (.request msg) => .ok (.ok (), m.recvRequest info msg)
  | .receivedUtMetadataMessage info (.data msg) => do .ok (.ok (), ← m.recvData info msg)
  | .receivedUtMetadataMessage _ (.reject _) => .ok (.ok (), m)

/-- What a poll found: a download, with its hash and what was assembled, or a message to a peer. -/
inductive Retrieved where
  | download (completedHash : InfoHash) (completed : PendingInfo) (info : Info)
  | send (message : ODiscoveryMessage)

def retrieve (peer : Nat) (m : UtMetadataModule) : Run Empty (Option Retrieved × UtMetadataModule) := do
  match ← m.retrieveCompletedDownload hash order with
  | (some (completedHash, completed, info), m) =>
    .ok (some (.download completedHash completed info), m)
  | (none, m) =>
    match m.retrievePieceRequest order peer with
    | (some message, m) => .ok (some (.send message), m)
    | (none, m) => do
      let (message, m) ← m.retrievePieceResponse
      .ok (message.map .send, m)

def pollNext (peer : Nat) (waker : Waker) (m : UtMetadataModule) :
    Run Empty (Poll Retrieved × UtMetadataModule) := do
  let (optResult, m) ← m.retrieve hash order peer
  let m := m.checkSinkUnblock
  match optResult with
  | some result => .ok (.ready result, m)
  | none => .ok (.pending, { m with optStreamWaker := some waker })

end

end UtMetadataModule

end BitTorrent.Select
