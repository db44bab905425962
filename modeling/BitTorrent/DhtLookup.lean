import BitTorrent.DhtWorker
import BitTorrent.RustHashMap
import BitTorrent.RustSearch

/-! Lookups. A lookup asks the closest good nodes of the table for peers, then the closest of the nodes
the answers name, and when no answer is left to wait for, in its endgame, all nodes it has heard of and
not asked yet. It keeps two records of whom it asked: the set `requestedNodes`, which only the first
two kinds of rounds write and only answers read, and a flag with every node of `allSortedNodes`, which
is set when the node is entered and read by the endgame.

A lookup compares nodes and reads their addresses, but never looks at their state, so it keeps their
keys. The deadlines it stores are never read and are left out. -/

namespace BitTorrent.Dht

open Rust

def initialPickNum : Nat := 4

def iterativePickNum : Nat := 3

def announcePickNum : Nat := 8

inductive LookupStatus where
  | searching
  | values (addrs : List SocketAddr)
  | completed
  | failed
  deriving DecidableEq

structure SortedNode where
  dist : ShaHash
  node : NodeKey
  requested : Bool

structure TableLookup where
  tableId : NodeId
  targetId : InfoHash
  inEndgame : Bool
  recvValues : Bool
  idGenerator : MIDGenerator
  willAnnounce : Bool
  activeLookups : HashMap TransactionID ShaHash
  announceTokens : HashMap NodeKey Bytes
  requestedNodes : Finset NodeKey
  allSortedNodes : List SortedNode
  tasks : List ScheduledTaskCheck

namespace TableLookup

/-! ### Picking nodes -/

/-- The node that fills up a list of picks. -/
def dummyNode : NodeKey := (.fill 0, .v4 (octets 0 0 0 0) 0)

/-- The first nodes, filled up to four, and the list with their flags set. -/
def pickInitialNodes (sortedNodes : List SortedNode) : List (NodeKey × Bool) × List SortedNode :=
  ((sortedNodes.take initialPickNum).map (fun n => (n.node, true)) ++
      List.replicate (initialPickNum - sortedNodes.length) (dummyNode, false),
    (sortedNodes.take initialPickNum).map (fun n => { n with requested := true }) ++
      sortedNodes.drop initialPickNum)

/-- A new node takes the first place that is free or holds a node farther away; that node is lost. -/
def insertClosestNodes (targetId : InfoHash) (newNode : NodeKey) :
    List (NodeKey × Bool) → List (NodeKey × Bool)
  | [] => []
  | (oldNode, used) :: nodes =>
    if used then
      if targetId.xor newNode.1 < targetId.xor oldNode.1 then (newNode, true) :: nodes
      else (oldNode, used) :: insertClosestNodes targetId newNode nodes
    else (newNode, true) :: nodes

def pickIterateNodes (unsortedNodes : List NodeKey) (targetId : InfoHash) : List (NodeKey × Bool) :=
  unsortedNodes.foldl (fun pickNodes node => insertClosestNodes targetId node pickNodes)
    (List.replicate iterativePickNum (dummyNode, false))

/-- A node is entered unless the search finds the very same node. The flag of a node that is there
already is left as it is. -/
def insertSortedNode (target : InfoHash) (nodes : List SortedNode) (node : NodeKey) (pinged : Bool) :
    List SortedNode :=
  let nodeDist := target.xor node.1
  match binarySearchBy (fun n => n.dist.cmp nodeDist) nodes with
  | .ok dupIndex =>
    if (nodes.get dupIndex).node ≠ node then nodes.insertIdx dupIndex ⟨nodeDist, node, pinged⟩
    else nodes
  | .error insIndex => nodes.insertIdx insIndex ⟨nodeDist, node, pinged⟩

def picked (nodes : List (NodeKey × Bool)) : List NodeKey := (nodes.filter (·.2)).map Prod.fst

/-! ### Rounds -/

def getPeersMessage (l : TableLookup) (transId : TransactionID) : MessageType :=
  .request (.getPeers ⟨transId.asRef, l.tableId, l.targetId⟩)

def currentLookupStatus (l : TableLookup) : LookupStatus :=
  if l.inEndgame || !l.activeLookups.keys.isEmpty then .searching else .completed

/-- A new transaction id whose answer is waited for. -/
def activate (l : TableLookup) (s : Shared) (distToBeat : ShaHash) :
    TransactionID × TableLookup × Shared :=
  let (transId, idGenerator, s) := s.generate l.idGenerator
  (transId, { l with
    idGenerator := idGenerator, activeLookups := l.activeLookups.insert transId distToBeat }, s)

/-- The lookup after a request was sent to a node, outside of the endgame. -/
def recordRequest (l : TableLookup) (node : NodeKey) (transId : TransactionID) : TableLookup :=
  { l with
    requestedNodes := insert node l.requestedNodes
    tasks := l.tasks ++ [.lookupTimeout transId] }

/-- The loop of `start_request_round`. It is left when a message cannot be sent. -/
def requestNodes : List (NodeKey × ShaHash) → TableLookup → Shared →
    Bool × TableLookup × Shared
  | [], l, s => (true, l, s)
  | (node, distToBeat) :: nodes, l, s =>
    let (transId, l, s) := l.activate s distToBeat
    match s.send (l.getPeersMessage transId) node.2 with
    | (false, s) => (false, l, s)
    | (true, s) =>
      requestNodes nodes (l.recordRequest node transId) ((s.localRequestTo node).logQuery node)

def startRequestRound (l : TableLookup) (s : Shared) (nodes : List (NodeKey × ShaHash)) :
    LookupStatus × TableLookup × Shared :=
  match requestNodes nodes l s with
  | (false, l, s) => (.failed, l, s)
  | (true, l, s) =>
    if nodes.isEmpty then (.completed, { l with activeLookups := ∅ }, s) else (.searching, l, s)

/-- The messages of the endgame, for the nodes with clear flags. -/
def endgameMessages : List SortedNode → TableLookup → Shared →
    List (NodeKey × TransactionID) × TableLookup × Shared
  | [], l, s => ([], l, s)
  | n :: nodes, l, s =>
    let (transId, l, s) := l.activate s n.dist
    let (messages, l, s) := endgameMessages nodes l s
    ((n.node, transId) :: messages, l, s)

/-- Sets the first flag that is clear. The messages of the endgame are in the order of the nodes, so
this is the flag of the next message. -/
def markNext : List SortedNode → List SortedNode
  | [] => []
  | n :: nodes => if n.requested then n :: markNext nodes else { n with requested := true } :: nodes

def sendEndgame : List (NodeKey × TransactionID) → TableLookup → Shared → Bool × TableLookup × Shared
  | [], l, s => (true, l, s)
  | (node, transId) :: messages, l, s =>
    match s.send (l.getPeersMessage transId) node.2 with
    | (false, s) => (false, l, s)
    | (true, s) =>
      sendEndgame messages { l with allSortedNodes := markNext l.allSortedNodes } ((s.localRequestTo node).logQuery node)

/-- No check is scheduled for the end of this round. -/
def startEndgameRound (l : TableLookup) (s : Shared) : LookupStatus × TableLookup × Shared :=
  let l := { l with inEndgame := true }
  if l.recvValues then (.searching, l, s)
  else
    let (messages, l, s) := endgameMessages (l.allSortedNodes.filter (!·.requested)) l s
    match sendEndgame messages l s with
    | (false, l, s) => (.failed, l, s)
    | (true, l, s) => (.searching, l, s)

def endgameIfIdle (l : TableLookup) (s : Shared) : LookupStatus × TableLookup × Shared :=
  if l.activeLookups.keys.isEmpty then l.startEndgameRound s else (.searching, l, s)

/-! ### Calls -/

/-- The lookup before its first round, and its picks for that round. -/
def prepare (tableId : NodeId) (targetId : InfoHash) (idGenerator : MIDGenerator) (willAnnounce : Bool)
    (good : List Node) : List (NodeKey × Bool) × TableLookup :=
  let allSortedNodes := good.foldl
    (fun nodes n => insertSortedNode targetId nodes n.key false) []
  let (initialPickNodes, allSortedNodes) := pickInitialNodes allSortedNodes
  (initialPickNodes, ⟨tableId, targetId, false, false, idGenerator, willAnnounce, ∅, ∅, ∅,
    allSortedNodes, []⟩)

def start (tableId : NodeId) (targetId : InfoHash) (idGenerator : MIDGenerator) (willAnnounce : Bool)
    (s : Shared) : Run Empty (LookupStatus × TableLookup × Shared) := do
  let closest ← s.closestNodes targetId
  let good := (closest.filter fun n => n.status s.world = .good).take maxBucketSize
  let (initialPickNodes, l) := prepare tableId targetId idGenerator willAnnounce good
  return l.startRequestRound s ((picked initialPickNodes).map fun node => (node, node.1.xor targetId))

def new (tableId : NodeId) (targetId : InfoHash) (idGenerator : MIDGenerator) (willAnnounce : Bool)
    (s : Shared) : Run Empty (Option TableLookup × Shared) := do
  match ← start tableId targetId idGenerator willAnnounce s with
  | (.failed, _, s) => return (none, s)
  | (_, l, s) => return (some l, s)

def infoHash (l : TableLookup) : InfoHash := l.targetId

/-- What an answer's nodes mean for the lookup: the nodes to ask next, if one of the new ones is closer
than the distance to beat, and the distance to beat after them. -/
def considerNodes (l : TableLookup) (nodes : List NodeKey) (distToBeat : ShaHash) :
    Option (List (NodeKey × Bool)) × ShaHash × TableLookup :=
  let unrequested := nodes.filter fun node => node ∉ l.requestedNodes
  let nextDistToBeat := unrequested.foldl (fun closest node =>
    let distance := l.targetId.xor node.1
    if distance < closest then distance else closest) distToBeat
  if nextDistToBeat < distToBeat then
    let iterateNodes := pickIterateNodes unrequested l.targetId
    let allSortedNodes := nodes.foldl (fun sorted node =>
      insertSortedNode l.targetId sorted node (iterateNodes.any (·.1 = node))) l.allSortedNodes
    (some iterateNodes, nextDistToBeat, { l with allSortedNodes := allSortedNodes })
  else
    let allSortedNodes := nodes.foldl (fun sorted node =>
      insertSortedNode l.targetId sorted node false) l.allSortedNodes
    (none, nextDistToBeat, { l with allSortedNodes := allSortedNodes })

/-- The rounds an answer starts outside of the endgame. -/
def roundsAfter (l : TableLookup) (s : Shared) (iterateNodes : Option (List (NodeKey × Bool)))
    (distToBeat : ShaHash) : LookupStatus × TableLookup × Shared :=
  match iterateNodes with
  | none => l.endgameIfIdle s
  | some nodes =>
    match l.startRequestRound s ((picked nodes).map fun node => (node, distToBeat)) with
    | (.failed, l, s) => (.failed, l, s)
    | (_, l, s) => l.endgameIfIdle s

/-- In the endgame no round is started any more. -/
def unlessEndgame (l : TableLookup) (s : Shared)
    (rounds : TableLookup → Shared → LookupStatus × TableLookup × Shared) :
    LookupStatus × TableLookup × Shared :=
  if l.inEndgame then (.searching, l, s) else rounds l s

/-- What an answer holds besides its token. -/
def openInfo (l : TableLookup) : CompactInfoType → Option (List SocketAddr) × Option (List NodeKey) ×
    TableLookup
  | .nodes n => (none, some n.toList, l)
  | .values v => (some v.toList, none, { l with recvValues := true })
  | .both n v => (some v.toList, some n.toList, l)

/-- The answer of a node is kept in `announceTokens` if it has a token. -/
def storeToken (l : TableLookup) (node : NodeKey) : Option Bytes → TableLookup
  | some token => { l with announceTokens := l.announceTokens.insert node token }
  | none => l

/-- The state of a lookup when it has read an answer: the peers, the nodes to ask next and the distance
to beat. -/
def readResponse (l : TableLookup) (node : NodeKey) (distToBeat : ShaHash) (msg : GetPeersResponse) :
    Option (List SocketAddr) × Option (List (NodeKey × Bool)) × ShaHash × TableLookup :=
  let l := l.storeToken node msg.token
  let (optValues, optNodes, l) := l.openInfo msg.infoType
  match optNodes with
  | some nodes =>
    let (iterateNodes, nextDistToBeat, l) := l.considerNodes nodes distToBeat
    (optValues, iterateNodes, nextDistToBeat, l)
  | none => (optValues, none, distToBeat, l)

def recvResponse (l : TableLookup) (s : Shared) (node : NodeKey) (transId : TransactionID)
    (msg : GetPeersResponse) : LookupStatus × TableLookup × Shared :=
  match l.activeLookups.lookup transId with
  | none => (l.currentLookupStatus, l, s)
  | some distToBeat =>
    let l := { l with activeLookups := l.activeLookups.erase transId }
    let (optValues, iterateNodes, nextDistToBeat, l) := l.readResponse node distToBeat msg
    match l.unlessEndgame s fun l s => l.roundsAfter s iterateNodes nextDistToBeat with
    | (.failed, l, s) => (.failed, l, s)
    | (_, l, s) =>
      match optValues with
      | some addrs => (.values addrs, l, s)
      | none => (l.currentLookupStatus, l, s)

def recvTimeout (l : TableLookup) (s : Shared) (transId : TransactionID) :
    LookupStatus × TableLookup × Shared :=
  match l.activeLookups.lookup transId with
  | none => (l.currentLookupStatus, l, s)
  | some _ =>
    let l := { l with activeLookups := l.activeLookups.erase transId }
    match l.unlessEndgame s endgameIfIdle with
    | (.failed, l, s) => (.failed, l, s)
    | (_, l, s) => (l.currentLookupStatus, l, s)

/-- The announces to the closest nodes that gave a token. -/
def announceMessages (handshakePort : UInt16) : List (NodeKey × Bytes) → TableLookup → Shared →
    List (NodeKey × MessageType) × TableLookup × Shared
  | [], l, s => ([], l, s)
  | (node, token) :: nodes, l, s =>
    let (transId, idGenerator, s) := s.generate l.idGenerator
    let l := { l with idGenerator := idGenerator }
    let message : MessageType := .request (.announcePeer ⟨transId.asRef, l.tableId, l.targetId,
      token, .explicit handshakePort⟩)
    let (messages, l, s) := announceMessages handshakePort nodes l s
    ((node, message) :: messages, l, s)

/-- All announces are sent, whether or not one fails. The result says whether none did. -/
def sendAnnounces : List (NodeKey × MessageType) → Bool → Shared → Bool × Shared
  | [], fine, s => (fine, s)
  | (node, message) :: messages, fine, s =>
    let (taken, s) := s.send message node.2
    let fine := fine && taken
    sendAnnounces messages fine (if fine then s.localRequestTo node else s)

/-- The announces of a lookup that is to announce. -/
def announce (l : TableLookup) (s : Shared) (handshakePort : UInt16) : Bool × TableLookup × Shared :=
  if l.willAnnounce then
    let withToken := l.allSortedNodes.filterMap fun n =>
      (l.announceTokens.lookup n.node).map fun token => (n.node, token)
    let (nodeAnnounces, l, s) :=
      announceMessages handshakePort (withToken.take announcePickNum) l s
    let (fine, s) := sendAnnounces nodeAnnounces true s
    (fine, l, s)
  else (true, l, s)

def recvFinished (l : TableLookup) (s : Shared) (handshakePort : UInt16) :
    LookupStatus × TableLookup × Shared :=
  let (fine, l, s) := l.announce s handshakePort
  let l := { l with activeLookups := ∅, inEndgame := false }
  if fine then (l.currentLookupStatus, l, s) else (.failed, l, s)

end TableLookup

end BitTorrent.Dht
