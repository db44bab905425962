import BitTorrent.DhtLookup
import BitTorrent.DhtBootstrap
import BitTorrent.DhtStorage
import BitTorrent.DhtToken

/-! The handler. It owns the routing table and the actions on it, answers requests, and hands responses
and the checks of timers to the action whose id they carry. A response is accepted if the action id in
its transaction id is that of a current action; whether the whole transaction id is one the action
waits for is for the action to say.

The handler is one loop over two channels. A shutdown is announced and nothing else, the loop goes on.
Events are broadcast to whoever registered for them; here they are listed. -/

namespace BitTorrent.Dht

open Rust Bencode

def maxBootstrapAttempts : Nat := 3

def bootstrapGoodNodeThreshold : Nat := 10

inductive TableAction where
  | lookup (l : TableLookup)
  | refresh (r : TableRefresh)
  | bootstrap (b : TableBootstrap) (attempts : Nat)

def TableAction.tasks : TableAction → List ScheduledTaskCheck
  | .lookup l => l.tasks
  | .refresh r => r.tasks
  | .bootstrap b _ => b.tasks

def TableAction.withTasks (tasks : List ScheduledTaskCheck) : TableAction → TableAction
  | .lookup l => .lookup { l with tasks := tasks }
  | .refresh r => .refresh { r with tasks := tasks }
  | .bootstrap b attempts => .bootstrap { b with tasks := tasks } attempts

inductive PostBootstrapAction where
  | lookup (infoHash : InfoHash) (shouldAnnounce : Bool)
  | refresh (r : TableRefresh) (transId : TransactionID)

inductive DhtEvent where
  | bootstrapCompleted
  | lookupCompleted (infoHash : InfoHash)
  | shuttingDown (cause : ShutdownCause)
  deriving DecidableEq

/-- A router, as the addresses its name resolves to, if it does. -/
structure Router where
  socketAddrs : Option (List SocketAddr)

/-- The first address that is an IPv4 address. -/
def Router.ipv4Addr (r : Router) : Option SocketAddr :=
  r.socketAddrs.bind fun addrs => addrs.find? fun addr =>
    match addr with
    | .v4 .. => true
    | .v6 .. => false

inductive OneshotTask where
  | incoming (buffer : Buffer) (addr : SocketAddr)
  | startBootstrap (routers : List Router) (nodes : List SocketAddr)
  | startLookup (infoHash : InfoHash) (shouldAnnounce : Bool)
  | shutdown (cause : ShutdownCause)

structure DhtHandler where
  shared : Shared
  tableActions : HashMap ActionID TableAction
  readOnly : Bool
  bootstrapping : Bool
  tokenStore : TokenStore
  random : Random
  aidGenerator : AIDGenerator
  aidShuffles : Nat → Shuffle actionIdPreallocLen
  /-- How often an id for an action was generated. -/
  actions : Nat
  activeStores : AnnounceStorage
  futureActions : List PostBootstrapAction
  events : List DhtEvent
  handshakerPort : UInt16
  /-- What the handshaker was told to connect to. -/
  connects : List (InfoHash × SocketAddr)
  /-- The channel of the checks. -/
  scheduledTasks : List ScheduledTaskCheck

namespace DhtHandler

/-- The handler before the first task. The refresh is to be started after the first bootstrap. -/
def new (s : Shared) (readOnly : Bool) (random : Random)
    (aidShuffles : Nat → Shuffle actionIdPreallocLen) (handshakerPort : UInt16) : DhtHandler :=
  let (midGenerator, aidGenerator) := (AIDGenerator.new (aidShuffles 0)).generate (aidShuffles 1)
  let (refreshTransId, midGenerator, s) := s.generate midGenerator
  let (tokenStore, random) := TokenStore.new random s.now
  { shared := s
    tableActions := ∅
    readOnly := readOnly
    bootstrapping := false
    tokenStore := tokenStore
    random := random
    aidGenerator := aidGenerator
    aidShuffles := aidShuffles
    actions := 2
    activeStores := .new
    futureActions := [.refresh (.new midGenerator) refreshTransId]
    events := []
    handshakerPort := handshakerPort
    connects := []
    scheduledTasks := [] }

def generateAid (h : DhtHandler) : MIDGenerator × DhtHandler :=
  let (midGenerator, aidGenerator) := h.aidGenerator.generate (h.aidShuffles h.actions)
  (midGenerator, { h with aidGenerator := aidGenerator, actions := h.actions + 1 })

def broadcastDhtEvent (h : DhtHandler) (event : DhtEvent) : DhtHandler :=
  { h with events := h.events ++ [event] }

def handleShutdown (h : DhtHandler) (cause : ShutdownCause) : DhtHandler :=
  h.broadcastDhtEvent (.shuttingDown cause)

/-- The channel cannot be used any more. -/
def shutdownUnless (h : DhtHandler) (taken : Bool) : DhtHandler :=
  if taken then h else h.handleShutdown .unspecified

/-- An action after a call of it. -/
def setAction (h : DhtHandler) (actionId : ActionID) (action : TableAction) (s : Shared) : DhtHandler :=
  { h with tableActions := h.tableActions.insert actionId action, shared := s }

/-- A new action. An action with the same id, if there is one, is dropped. -/
def insertAction (h : DhtHandler) (actionId : ActionID) (action : TableAction) : DhtHandler :=
  h.setAction actionId action h.shared

def removeAction (h : DhtHandler) (actionId : ActionID) : DhtHandler :=
  { h with tableActions := h.tableActions.erase actionId }

/-! ### Starting actions -/

def handleStartLookup (h : DhtHandler) (infoHash : InfoHash) (shouldAnnounce : Bool) :
    Run Empty DhtHandler := do
  let (midGenerator, h) := h.generateAid
  if h.bootstrapping then
    return { h with futureActions := h.futureActions ++ [.lookup infoHash shouldAnnounce] }
  else
    let (lookup, s) ← TableLookup.new h.shared.table.nodeId infoHash midGenerator shouldAnnounce h.shared
    let h := { h with shared := s }
    match lookup with
    | some l => return h.insertAction midGenerator.actionId (.lookup l)
    | none => return h.handleShutdown .unspecified

def handleCheckTableRefresh (h : DhtHandler) (transId : TransactionID) : Run Empty DhtHandler := do
  match h.tableActions.lookup transId.actionId with
  | some (.refresh r) =>
    let (status, r, s) ← r.continueRefresh h.shared
    let h := h.setAction transId.actionId (.refresh r) s
    match status with
    | .refreshing => return h
    | .failed => return h.handleShutdown .unspecified
  | _ => return h

def startPostBootstrapAction (h : DhtHandler) : PostBootstrapAction → Run Empty DhtHandler
  | .lookup infoHash shouldAnnounce => h.handleStartLookup infoHash shouldAnnounce
  | .refresh r transId =>
    (h.insertAction transId.actionId (.refresh r)).handleCheckTableRefresh transId

def broadcastBootstrapCompleted (h : DhtHandler) (actionId : ActionID) : Run Empty DhtHandler :=
  let h := h.broadcastDhtEvent .bootstrapCompleted
  let h := { h with bootstrapping := false }
  let h := h.removeAction actionId
  let futureActions := h.futureActions
  futureActions.foldlM startPostBootstrapAction { h with futureActions := [] }

/-! ### Bootstrap attempts -/

def numGoodNodes (s : Shared) : Run Empty Nat := do
  let closest ← s.closestNodes s.table.nodeId
  return (closest.filter fun n => n.status s.world = .good).length

def shouldRebootstrap (s : Shared) : Run Empty Bool := do
  return (← numGoodNodes s) ≤ bootstrapGoodNodeThreshold

def shutdownEventLoop (s : Shared) (cause : ShutdownCause) : Shared :=
  { s with shutdowns := s.shutdowns ++ [cause] }

/-- No result if the node is to shut down, and else whether a new attempt was started. -/
def attemptRebootstrap (b : TableBootstrap) (attempts : Nat) (s : Shared) :
    Run Empty (Option Bool × TableBootstrap × Nat × Shared) := do
  let attempts := attempts + 1
  if attempts ≥ maxBootstrapAttempts then
    if (← numGoodNodes s) = 0 then return (none, b, attempts, shutdownEventLoop s .bootstrapFailed)
    else return (some false, b, attempts, s)
  else
    match b.startBootstrap s with
    | (.ok .idle, b, s) => return (some false, b, attempts, s)
    | (.ok .bootstrapping, b, s) => return (some true, b, attempts, s)
    | (.error .failed, b, s) => return (none, b, attempts, shutdownEventLoop s .unspecified)
    | _ => .error .panic

/-- What the handler makes of the status after a response or a check, and whether the bootstrap is
complete. -/
def afterBootstrap (h : DhtHandler) (actionId : ActionID) (attempts : Nat) (status : BootstrapStatus)
    (b : TableBootstrap) (s : Shared) : Run Empty (Bool × DhtHandler) := do
  match status with
  | .idle => return (true, h.setAction actionId (.bootstrap b attempts) s)
  | .bootstrapping => return (false, h.setAction actionId (.bootstrap b attempts) s)
  | .failed =>
    return (false, (h.setAction actionId (.bootstrap b attempts) s).handleShutdown .unspecified)
  | .completed =>
    if ← shouldRebootstrap s then
      let (result, b, attempts, s) ← attemptRebootstrap b attempts s
      return (result = some false, h.setAction actionId (.bootstrap b attempts) s)
    else return (true, h.setAction actionId (.bootstrap b attempts) s)

def completeIf (h : DhtHandler) (complete : Bool) (actionId : ActionID) : Run Empty DhtHandler :=
  if complete then h.broadcastBootstrapCompleted actionId else .ok h

def handleStartBootstrap (h : DhtHandler) (routers : List Router) (nodes : List SocketAddr) :
    Run Empty DhtHandler := do
  let (midGenerator, h) := h.generateAid
  let actionId := midGenerator.actionId
  let b := TableBootstrap.new h.shared.table.nodeId midGenerator nodes (routers.filterMap Router.ipv4Addr)
  let (status, b, s) := b.startBootstrap h.shared
  let h := { h with bootstrapping := true, shared := s }
  let h := h.insertAction actionId (.bootstrap b 0)
  match status with
  | .ok .idle => h.completeIf true actionId
  | .ok .bootstrapping => h.completeIf false actionId
  | .error .failed => (h.handleShutdown .unspecified).completeIf false actionId
  | _ => .error .panic

/-! ### Checks -/

def handleCheckBootstrapTimeout (h : DhtHandler) (transId : TransactionID) : Run Empty DhtHandler := do
  match h.tableActions.lookup transId.actionId with
  | some (.bootstrap b attempts) =>
    let (status, b, s) ← b.recvTimeout h.shared transId
    let (complete, h) ← h.afterBootstrap transId.actionId attempts status b s
    h.completeIf complete transId.actionId
  | _ => return h

/-- What the handler makes of the status of a lookup. -/
def afterLookup (h : DhtHandler) (infoHash : InfoHash) : LookupStatus → DhtHandler
  | .searching => h
  | .completed => h.broadcastDhtEvent (.lookupCompleted infoHash)
  | .failed => h.handleShutdown .unspecified
  | .values addrs => { h with connects := h.connects ++ addrs.map fun addr => (infoHash, addr) }

def handleCheckLookupTimeout (h : DhtHandler) (transId : TransactionID) : DhtHandler :=
  match h.tableActions.lookup transId.actionId with
  | some (.lookup l) =>
    let (status, l, s) := l.recvTimeout h.shared transId
    (h.setAction transId.actionId (.lookup l) s).afterLookup l.infoHash status
  | _ => h

def handleCheckLookupEndgame (h : DhtHandler) (transId : TransactionID) : DhtHandler :=
  match h.tableActions.lookup transId.actionId with
  | some (.lookup l) =>
    let (status, l, s) := l.recvFinished h.shared h.handshakerPort
    (h.setAction transId.actionId (.lookup l) s).afterLookup l.infoHash status
  | _ => h

def handleScheduledTask (h : DhtHandler) : ScheduledTaskCheck → Run Empty DhtHandler
  | .tableRefresh transId => h.handleCheckTableRefresh transId
  | .bootstrapTimeout transId => h.handleCheckBootstrapTimeout transId
  | .lookupTimeout transId => .ok (h.handleCheckLookupTimeout transId)
  | .lookupEndGame transId => .ok (h.handleCheckLookupEndgame transId)

/-! ### Requests -/

/-- The node that sent a request is marked in the table. -/
def markRemote (h : DhtHandler) (nodeId : NodeId) (addr : SocketAddr) : DhtHandler :=
  { h with shared := h.shared.remoteRequestFrom (nodeId, addr) }

def reply (h : DhtHandler) (message : MessageType) (addr : SocketAddr) : DhtHandler :=
  let (taken, s) := h.shared.send message addr
  shutdownUnless { h with shared := s } taken

/-- The compact form of the nodes closest to a target. -/
def closestNodesBytes (h : DhtHandler) (target : NodeId) : Run Empty Bytes := do
  let closest ← h.shared.closestNodes target
  let encoded ← (closest.take 8).mapM Node.encode
  return encoded.flatten

/-- `unwrap`. -/
def unwrap {ε α : Type} : Run ε α → Run Empty α
  | .ok a => .ok a
  | .error .diverge => .error .diverge
  | .error _ => .error .panic

def unwrapLength {α : Type} : Except LengthError α → Run Empty α
  | .ok a => .ok a
  | .error _ => .error .panic

def handlePing (h : DhtHandler) (p : PingRequest) (addr : SocketAddr) : DhtHandler :=
  let h := h.markRemote p.nodeId addr
  h.reply (.response (.ping ⟨p.transId, h.shared.table.nodeId⟩)) addr

def handleFindNode (h : DhtHandler) (f : FindNodeRequest) (addr : SocketAddr) : Run Empty DhtHandler := do
  let h := h.markRemote f.nodeId addr
  let closestNodesBytes ← h.closestNodesBytes f.targetId
  let rsp ← unwrap (FindNodeResponse.new f.transId h.shared.table.nodeId closestNodesBytes)
  return h.reply (.response (.findNode rsp)) addr

/-- The six bytes of an IPv4 contact. Other contacts are skipped. -/
def contactBytes : SocketAddr → Bytes
  | .v4 ip port => ipv4ToBytesBe ip ++ [(port >>> 8).toUInt8, (port &&& 0x00FF).toUInt8]
  | .v6 .. => []

/-- Every six bytes as one value. -/
def contactValues (contactInfoBytes : Bytes) : List Inner :=
  (List.range (contactInfoBytes.length / 6)).map fun chunkIndex =>
    .bytes ((contactInfoBytes.drop (chunkIndex * 6)).take 6)

/-- The nodes of an answer, with the contacts if there are any. -/
def compactInfo (closestNodesBytes : Bytes) (contactInfoBencode : List Inner) :
    Run Empty CompactInfoType := do
  let nodes ← unwrapLength (CompactNodeInfo.new closestNodesBytes)
  if contactInfoBencode.isEmpty then return .nodes nodes
  else return .both nodes (← unwrap (CompactValueInfo.new contactInfoBencode))

variable (hash : Bytes → ShaHash)

def handleGetPeers (h : DhtHandler) (g : GetPeersRequest) (addr : SocketAddr) :
    Run Empty DhtHandler := do
  let h := h.markRemote g.nodeId addr
  let (contacts, activeStores) := h.activeStores.findItems g.infoHash h.shared.now
  let h := { h with activeStores := activeStores }
  let closestNodesBytes ← h.closestNodesBytes g.infoHash
  let (token, tokenStore, random) :=
    h.tokenStore.checkout hash h.random (.fromSocketAddr addr) h.shared.now
  let h := { h with tokenStore := tokenStore, random := random }
  let compactInfoType ←
    compactInfo closestNodesBytes (contactValues (contacts.flatMap contactBytes))
  return h.reply (.response (.getPeers
    ⟨g.transId, h.shared.table.nodeId, some token.token, compactInfoType⟩)) addr

/-- The address an announce is for: the one it came from, with the port it names, if any. -/
def connectAddr (addr : SocketAddr) : ConnectPort → SocketAddr
  | .implied => addr
  | .explicit port =>
    match addr with
    | .v4 ip _ => .v4 ip port
    | .v6 ip _ flowinfo scopeId => .v6 ip port flowinfo scopeId

def checkin (h : DhtHandler) (token : Bytes) (addr : SocketAddr) : Bool × DhtHandler :=
  match Token.new token with
  | .ok token =>
    let (isValid, tokenStore, random) :=
      h.tokenStore.checkin hash h.random (.fromSocketAddr addr) token h.shared.now
    (isValid, { h with tokenStore := tokenStore, random := random })
  | .error _ => (false, h)

def handleAnnouncePeer (h : DhtHandler) (a : AnnouncePeerRequest) (addr : SocketAddr) : DhtHandler :=
  let h := h.markRemote a.nodeId addr
  let (isValid, h) := h.checkin hash a.token addr
  if !isValid then
    h.reply (.error ⟨a.transId, .protocolError, .ofAscii "Received An Invalid Token"⟩) addr
  else
    let (stored, activeStores) :=
      h.activeStores.addItem a.infoHash (connectAddr addr a.port) h.shared.now
    let h := { h with activeStores := activeStores }
    if stored then h.reply (.response (.announcePeer ⟨a.transId, h.shared.table.nodeId⟩)) addr
    else h.reply (.error ⟨a.transId, .serverError, .ofAscii "Announce Storage Is Full"⟩) addr

def handleRequest (h : DhtHandler) (request : RequestType) (addr : SocketAddr) :
    Run Empty DhtHandler :=
  match request with
  | .ping p => .ok (h.handlePing p addr)
  | .findNode f => h.handleFindNode f addr
  | .getPeers g => h.handleGetPeers hash g addr
  | .announcePeer a => .ok (h.handleAnnouncePeer hash a addr)

/-! ### Responses -/

/-- Adds a node in the given state to the table. -/
def addNewNode (s : Shared) (node : NodeKey) (state : NodeState) : Run Empty Shared :=
  let (n, s) := s.newNode node.1 node.2 state
  s.addNode n

/-- The payload nodes are added as questionable. -/
def addQuestionable (s : Shared) (nodes : List NodeKey) : Run Empty Shared :=
  nodes.foldlM (fun s node => addNewNode s node (.asQuestionable s.now)) s

def addGood (s : Shared) (node : NodeKey) : Run Empty Shared := addNewNode s node (.asGood s.now)

/-- The table after a response of the find_node kind: a router is not added to it. -/
def addResponder (h : DhtHandler) (s : Shared) (actionId : ActionID) (node : NodeKey) :
    Run Empty Shared :=
  match h.tableActions.lookup actionId with
  | some (.refresh _) => addGood s node
  | some (.bootstrap b _) => if b.isRouter node.2 then .ok s else addGood s node
  | _ => .ok s

def handleFindNodeResponse (h : DhtHandler) (f : FindNodeResponse) (addr : SocketAddr) :
    Run Empty DhtHandler := do
  match TransactionID.fromBytes f.transId with
  | none => .error .panic
  | some transId =>
    let s ← addQuestionable h.shared f.nodes.toList
    let s ← h.addResponder s transId.actionId (f.nodeId, addr)
    let h := { h with shared := s }
    match h.tableActions.lookup transId.actionId with
    | some (.bootstrap b attempts) =>
      let (status, b, s) ← b.recvResponse h.shared transId
      let (complete, h) ← h.afterBootstrap transId.actionId attempts status b s
      h.completeIf complete transId.actionId
    | _ => return h

def handleGetPeersResponse (h : DhtHandler) (g : GetPeersResponse) (addr : SocketAddr) :
    Run Empty DhtHandler := do
  match TransactionID.fromBytes g.transId with
  | none => .error .panic
  | some transId =>
    let s ← addGood h.shared (g.nodeId, addr)
    let h := { h with shared := s }
    match h.tableActions.lookup transId.actionId with
    | some (.lookup l) =>
      let (status, l, s) := l.recvResponse h.shared (g.nodeId, addr) transId g
      return (h.setAction transId.actionId (.lookup l) s).afterLookup l.infoHash status
    | _ => return h

def handleResponse (h : DhtHandler) (response : ResponseType) (addr : SocketAddr) :
    Run Empty DhtHandler :=
  match response with
  | .findNode f => h.handleFindNodeResponse f addr
  | .getPeers g => h.handleGetPeersResponse g addr
  | .ping _ => .ok h
  | .announcePeer _ => .ok h

/-! ### Messages -/

/-- The kind of response a transaction id calls for. Only its action id counts. -/
def expectedResponse (h : DhtHandler) (trans : Bytes) : ExpectedResponse :=
  match TransactionID.fromBytes trans with
  | none => .none
  | some transId =>
    match h.tableActions.lookup transId.actionId with
    | none => .none
    | some (.lookup _) => .getPeers
    | some (.refresh _) => .findNode
    | some (.bootstrap _ _) => .findNode

/-- An error that is only logged leaves no message. -/
def logged {ε α : Type} : Run ε α → Run Empty (Option α)
  | .ok a => .ok (some a)
  | .error (.error _) => .ok none
  | .error .panic => .error .panic
  | .error .diverge => .error .diverge

def parse (h : DhtHandler) (buffer : Buffer) : Run Empty (Option MessageType) := do
  match ← logged (BencodeRef.decode buffer .default) with
  | none => return none
  | some bencode => logged (MessageType.new bencode.value h.expectedResponse)

def handleIncoming (h : DhtHandler) (buffer : Buffer) (addr : SocketAddr) : Run Empty DhtHandler := do
  match ← h.parse buffer with
  | some (.request request) => if h.readOnly then return h else h.handleRequest hash request addr
  | some (.response response) => h.handleResponse response addr
  | some (.error _) => return h
  | none => return h

def handleTask (h : DhtHandler) : OneshotTask → Run Empty DhtHandler
  | .incoming buffer addr => h.handleIncoming hash buffer addr
  | .startBootstrap routers nodes => h.handleStartBootstrap routers nodes
  | .startLookup infoHash shouldAnnounce => h.handleStartLookup infoHash shouldAnnounce
  | .shutdown cause => .ok (h.handleShutdown cause)

/-! ### The loop -/

/-- A timer that fires puts its check into the channel. -/
def fire (h : DhtHandler) (actionId : ActionID) (index : Nat) : DhtHandler :=
  match h.tableActions.lookup actionId with
  | none => h
  | some action =>
    match action.tasks[index]? with
    | none => h
    | some check =>
      let action := action.withTasks (action.tasks.eraseIdx index)
      { h.setAction actionId action h.shared with scheduledTasks := h.scheduledTasks ++ [check] }

inductive Input where
  /-- The loop takes a task that somebody else sent. -/
  | task (task : OneshotTask)
  /-- The loop takes a task that the handler sent itself. -/
  | ownTask
  /-- A timer of an action fires. -/
  | fire (actionId : ActionID) (index : Nat)
  /-- The loop takes the next check. -/
  | check
  /-- Time passes. -/
  | tick (duration : Nat)

def step (h : DhtHandler) : Input → Run Empty DhtHandler
  | .task task => h.handleTask hash task
  | .ownTask =>
    match h.shared.shutdowns with
    | [] => .ok h
    | cause :: shutdowns =>
      .ok (handleShutdown { h with shared := { h.shared with shutdowns := shutdowns } } cause)
  | .fire actionId index => .ok (h.fire actionId index)
  | .check =>
    match h.scheduledTasks with
    | [] => .ok h
    | check :: scheduledTasks =>
      handleScheduledTask { h with scheduledTasks := scheduledTasks } check
  | .tick duration => .ok { h with shared := { h.shared with now := h.shared.now + duration } }

def run (h : DhtHandler) (inputs : List Input) : Run Empty DhtHandler := inputs.foldlM (step hash) h

end DhtHandler

end BitTorrent.Dht
