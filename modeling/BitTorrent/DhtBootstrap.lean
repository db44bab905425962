import BitTorrent.DhtWorker

/-! Bootstraps and refreshes. A bootstrap asks its routers and nodes first and then, bucket by bucket,
the questionable nodes near that bucket; it goes on to the next bucket when no answer is left to wait
for, and is complete after the last one. The buckets are gone through by recursion, so there is a limit
on it here, and running out of it is divergence.

The deadlines that are stored with the messages are never read and are left out. -/

namespace BitTorrent.Dht

open Rust

def bootstrapPingsPerBucket : Nat := 8

/-- Panics if the index is out of bounds. -/
def flipIdBitAtIndex (nodeId : NodeId) (index : Nat) : Run Empty NodeId :=
  let byteIndex := index / 8
  let actualBitIndex := 7 - index % 8
  if h : byteIndex < nodeId.hash.length then
    .ok ⟨nodeId.hash.set byteIndex (nodeId.hash[byteIndex] ^^^ (1 <<< actualBitIndex.toUInt8)), by
      rw [List.length_set, nodeId.size]⟩
  else .error .panic

inductive BootstrapStatus where
  | idle
  | bootstrapping
  | completed
  | failed
  deriving DecidableEq, Repr

structure TableBootstrap where
  tableId : NodeId
  idGenerator : MIDGenerator
  startingNodes : List SocketAddr
  activeMessages : Finset TransactionID
  startingRouters : List SocketAddr
  currBootstrapBucket : Nat
  tasks : List ScheduledTaskCheck

namespace TableBootstrap

/-- The routers are a set; they are asked in some order. -/
def new (tableId : NodeId) (idGenerator : MIDGenerator) (nodes routers : List SocketAddr) :
    TableBootstrap :=
  ⟨tableId, idGenerator, nodes, ∅, routers.dedup, 0, []⟩

def currentBootstrapStatus (b : TableBootstrap) : BootstrapStatus :=
  if b.currBootstrapBucket = maxBuckets ∨ b.activeMessages = ∅ then .idle else .bootstrapping

def findNodeMessage (b : TableBootstrap) (transId : TransactionID) (targetId : NodeId) : MessageType :=
  .request (.findNode ⟨transId.asRef, b.tableId, targetId⟩)

/-- If a message cannot be sent, the timer is stopped again. -/
def startBootstrap (b : TableBootstrap) (s : Shared) :
    Except BootstrapStatus BootstrapStatus × TableBootstrap × Shared :=
  let (transId, idGenerator, s) := s.generate b.idGenerator
  let reset := { b with
    idGenerator := idGenerator, activeMessages := {transId}, currBootstrapBucket := 0 }
  match s.sendAll (b.findNodeMessage transId b.tableId) (b.startingRouters ++ b.startingNodes) with
  | (true, s) =>
    let b := { reset with tasks := b.tasks ++ [.bootstrapTimeout transId] }
    (.ok b.currentBootstrapStatus, b, s)
  | (false, s) => (.error .failed, reset, s)

def isRouter (b : TableBootstrap) (addr : SocketAddr) : Bool := addr ∈ b.startingRouters

/-! ### The next bucket -/

def bucketNodes : BucketContents → List Node
  | .empty => Bucket.new.nodes
  | .sorted b => b.nodes
  | .assorted b => b.nodes

/-- The nodes to ask for a bucket: all questionable ones for the first two, and for the others those
of the bucket and the two before it. -/
def questionableNodes (b : TableBootstrap) (s : Shared) (targetId : NodeId) : Run Empty (List Node) := do
  let bootstrapBucket := b.currBootstrapBucket
  let nodes ←
    if bootstrapBucket = 0 ∨ bootstrapBucket = 1 then s.closestNodes targetId
    else .ok (((s.table.bucketContents.drop (bootstrapBucket - 2)).take 3).flatMap bucketNodes)
  return nodes.filter fun n => n.status s.world = .questionable

/-- The loop of `send_bootstrap_requests`. It is left when a message cannot be sent. -/
def pingNodes (targetId : NodeId) : List Node → TableBootstrap → Shared → Bool × TableBootstrap × Shared
  | [], b, s => (true, b, s)
  | node :: nodes, b, s =>
    let (transId, idGenerator, s) := s.generate b.idGenerator
    let b := { b with idGenerator := idGenerator }
    match s.send (b.findNodeMessage transId targetId) node.addr with
    | (false, s) => (false, b, s)
    | (true, s) =>
      let b := { b with
        activeMessages := insert transId b.activeMessages
        tasks := b.tasks ++ [.bootstrapTimeout transId] }
      pingNodes targetId nodes b (s.localRequest node)

/-- A bucket without anyone to ask is followed by the next one. -/
def sendBootstrapRequests
    (bootstrapNextBucket : TableBootstrap → Shared → Run Empty (BootstrapStatus × TableBootstrap × Shared))
    (b : TableBootstrap) (s : Shared) (nodes : List Node) (targetId : NodeId) :
    Run Empty (BootstrapStatus × TableBootstrap × Shared) :=
  let asked := nodes.take bootstrapPingsPerBucket
  match pingNodes targetId asked b s with
  | (false, b, s) => .ok (.failed, b, s)
  | (true, b, s) =>
    let b := { b with currBootstrapBucket := b.currBootstrapBucket + 1 }
    if b.currBootstrapBucket = maxBuckets then .ok (.completed, b, s)
    else if asked.isEmpty then bootstrapNextBucket b s
    else .ok (.bootstrapping, b, s)

def bootstrapNextBucket : Nat → TableBootstrap → Shared →
    Run Empty (BootstrapStatus × TableBootstrap × Shared)
  | 0, _, _ => .error .diverge
  | fuel + 1, b, s => do
    let targetId ← flipIdBitAtIndex b.tableId b.currBootstrapBucket
    let nodes ← b.questionableNodes s targetId
    sendBootstrapRequests (bootstrapNextBucket fuel) b s nodes targetId

/-- Enough for all buckets. -/
def bucketLimit : Nat := maxBuckets

def nextBucketIfIdle (b : TableBootstrap) (s : Shared) :
    Run Empty (BootstrapStatus × TableBootstrap × Shared) :=
  if b.activeMessages = ∅ then bootstrapNextBucket bucketLimit b s
  else .ok (b.currentBootstrapStatus, b, s)

/-- The id of the first messages stays active until its timer fires. -/
def recvResponse (b : TableBootstrap) (s : Shared) (transId : TransactionID) :
    Run Empty (BootstrapStatus × TableBootstrap × Shared) :=
  if transId ∈ b.activeMessages then
    let b := if b.currBootstrapBucket ≠ 0 then
        { b with activeMessages := b.activeMessages.erase transId } else b
    b.nextBucketIfIdle s
  else .ok (b.currentBootstrapStatus, b, s)

def recvTimeout (b : TableBootstrap) (s : Shared) (transId : TransactionID) :
    Run Empty (BootstrapStatus × TableBootstrap × Shared) :=
  if transId ∈ b.activeMessages then
    nextBucketIfIdle { b with activeMessages := b.activeMessages.erase transId } s
  else .ok (b.currentBootstrapStatus, b, s)

end TableBootstrap

/-! ### Refreshes -/

inductive RefreshStatus where
  | refreshing
  | failed
  deriving DecidableEq, Repr

structure TableRefresh where
  idGenerator : MIDGenerator
  currRefreshBucket : Nat
  tasks : List ScheduledTaskCheck

namespace TableRefresh

def new (idGenerator : MIDGenerator) : TableRefresh := ⟨idGenerator, 0, []⟩

/-- After the last bucket comes the first one again. -/
def refreshBucket (r : TableRefresh) : Nat :=
  if r.currRefreshBucket = maxBuckets then 0 else r.currRefreshBucket

/-- Asks the closest questionable node, if there is one. The result says whether this worked. -/
def pingClosest (r : TableRefresh) (s : Shared) (targetId : NodeId) (closest : List Node) :
    Bool × TableRefresh × Shared :=
  match closest.find? (fun n => n.status s.world = .questionable) with
  | none => (true, r, s)
  | some node =>
    let (transId, idGenerator, s) := s.generate r.idGenerator
    let r := { r with idGenerator := idGenerator }
    match s.send (.request (.findNode ⟨transId.asRef, s.table.nodeId, targetId⟩)) node.addr with
    | (false, s) => (false, r, s)
    | (true, s) => (true, r, s.localRequest node)

/-- The id the next refresh is scheduled with is never sent. -/
def continueRefresh (r : TableRefresh) (s : Shared) :
    Run Empty (RefreshStatus × TableRefresh × Shared) := do
  let r := { r with currRefreshBucket := r.refreshBucket }
  let targetId ← flipIdBitAtIndex s.table.nodeId r.currRefreshBucket
  let closest ← s.closestNodes targetId
  match r.pingClosest s targetId closest with
  | (false, r, s) => return (.failed, r, s)
  | (true, r, s) =>
    let (transId, idGenerator, s) := s.generate r.idGenerator
    return (.refreshing, ⟨idGenerator, r.currRefreshBucket + 1, r.tasks ++ [.tableRefresh transId]⟩, s)

end TableRefresh

end BitTorrent.Dht
