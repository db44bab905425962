import BitTorrent.PeerManager

/-! The sink of the peer manager and the tasks of its peers. A task waits for the connection and for
the sink, and answers what it got by sending to the connection and then to the stream of the manager;
each of these sends can have to wait, so a task can be interrupted before each of them. A call of the
sink holds the lock of the shared map while it works; a call that cannot get the lock returns at once
and does nothing. -/

namespace BitTorrent.Peer

open Rust

/-- Why the loop of a task ends. -/
inductive PeerError where
  | managerDisconnect
  | disconnected
  | peerDisconnect
  | peerRemoved (info : PeerInfo)
  deriving DecidableEq

inductive MergedError where
  | disconnect
  | streamError (err : IoError)
  | timeout
  deriving DecidableEq

inductive UnifiedItem (M : Type) where
  | peer (message : M)
  | manager (message : PeerManagerInputMessage M)

/-- What is sent to the connection and then to the manager, and what is returned if both succeed. -/
structure Handling (M : Type) where
  toPeer : Option M
  toManager : Option (ManagerOutput M)
  result : Except PeerError Unit

inductive Exit where
  | panicked
  | returned (err : PeerError)
  deriving DecidableEq

inductive Phase (M : Type) where
  | waiting
  | handling (h : Handling M)
  | ended (exit : Exit)

structure Task (M : Type) where
  info : PeerInfo
  inbox : List (PeerManagerInputMessage M)
  phase : Phase M

/-- What can happen in a task: the connection has an item or ended, the stream of the manager is
polled, before or after its deadline, an item was sent to the connection or could not be sent, an item
is sent to the manager, and the handling of an item is over. -/
inductive TaskEvent (M : Type) where
  | peer (item : Option (Except IoError M))
  | manager (late : Bool)
  | peerSend (sent : Bool)
  | managerSend
  | finish

section

variable {M : Type}

/-- `PersistentStream::poll_next` when the connection is ready. -/
def persistentStream : Option (Except IoError M) → Except MergedError (UnifiedItem M)
  | none => .error .disconnect
  | some (.ok message) => .ok (.peer message)
  | some (.error err) => .error (.streamError err)

variable (keepAlive : M)

def handleStreamResult (info : PeerInfo) :
    Except MergedError (UnifiedItem M) → Run Empty (Handling M)
  | .ok (.peer message) => .ok ⟨none, some (.ok (.receivedMessage info message)), .ok ()⟩
  | .ok (.manager (.addPeer _)) => .error .panic
  | .ok (.manager (.removePeer info)) =>
    .ok ⟨none, some (.ok (.peerRemoved info)), .error (.peerRemoved info)⟩
  | .ok (.manager (.sendMessage info mid message)) =>
    .ok ⟨some message, some (.ok (.sentMessage info mid)), .ok ()⟩
  | .error .disconnect => .ok ⟨none, none, .error .disconnected⟩
  | .error (.streamError err) =>
    .ok ⟨none, some (.error (.peerError info err)), .error (.peerRemoved info)⟩
  | .error .timeout => .ok ⟨some keepAlive, none, .ok ()⟩

namespace Task

/-- The task that `run_peer` spawns. -/
def new (info : PeerInfo) : Task M :=
  ⟨info, [], .handling ⟨none, some (.ok (.peerAdded info)), .ok ()⟩⟩

def running (task : Task M) : Bool :=
  match task.phase with
  | .ended _ => false
  | _ => true

def receive (task : Task M) (result : Except MergedError (UnifiedItem M)) : Task M :=
  match handleStreamResult keepAlive task.info result with
  | .ok handling => { task with phase := .handling handling }
  | .error _ => { task with phase := .ended .panicked }

/-- A step of a task, and what it sends to the manager. The sink is connected as long as the sender to
the task is in the map. The channel to the manager does not refuse: the stream is not dropped. -/
def step (connected : Bool) (task : Task M) (event : TaskEvent M) :
    Task M × Option (ManagerOutput M) :=
  match task.phase, event with
  | .waiting, .peer item => (task.receive keepAlive (persistentStream item), none)
  | .waiting, .manager late =>
    match task.inbox with
    | message :: inbox => ({ task with inbox }.receive keepAlive (.ok (.manager message)), none)
    | [] =>
      if connected then
        if late then (task.receive keepAlive (.error .timeout), none) else (task, none)
      else (task.receive keepAlive (.error .disconnect), none)
  | .handling ⟨some _, toManager, result⟩, .peerSend sent =>
    if sent then ({ task with phase := .handling ⟨none, toManager, result⟩ }, none)
    else ({ task with phase := .ended (.returned .peerDisconnect) }, none)
  | .handling ⟨none, some item, result⟩, .managerSend =>
    ({ task with phase := .handling ⟨none, none, result⟩ }, some item)
  | .handling ⟨none, none, .ok ()⟩, .finish => ({ task with phase := .waiting }, none)
  | .handling ⟨none, none, .error err⟩, .finish =>
    ({ task with phase := .ended (.returned err) }, none)
  | _, _ => (task, none)

end Task

end

inductive PeerManagerError where
  | peerNotFound (info : PeerInfo)
  | peerStoreFull (len : Nat)
  | peerAlreadyExists (info : PeerInfo)
  | sendFailed (err : SendError)
  deriving DecidableEq

/-- How far the call that holds the lock has come. -/
inductive SinkCall (M : Type) where
  | handling (message : PeerManagerInputMessage M)
  | inserting (info : PeerInfo) (task : Nat)
  | returning (result : Poll (Except PeerManagerError Unit))

/-- The sinks, the stream and the tasks. The sender to a task is the place of the task in `tasks`. -/
structure PeerManager (M : Type) where
  peerCapacity : Nat
  sinkBufferCapacity : Nat
  stream : PeerManagerStream Nat M
  tasks : List (Task M)
  lock : Option (SinkCall M)

/-- A call of a sink starts (`start_send`, or `poll_ready` or `poll_flush` with the senders in the order in
which the map yields them), the call that holds the lock goes on, something happens in a task, or the stream
is polled. -/
inductive ManagerEvent (M : Type) where
  | call (message : PeerManagerInputMessage M)
  | pollReady (senders : List Nat)
  | pollFlush (senders : List Nat)
  | proceed
  | task (id : Nat) (event : TaskEvent M)
  | poll

namespace PeerManager

variable {M : Type}

def new (peerCapacity sinkBufferCapacity : Nat) : PeerManager M :=
  ⟨peerCapacity, sinkBufferCapacity, .new .new ∅, [], none⟩

def returns (s : PeerManager M) (result : Except PeerManagerError Unit) : PeerManager M :=
  { s with lock := some (.returning (.ready result)) }

/-- The vacant entry in `add_peer`: the task is spawned, and its sender is yet to be inserted. -/
def spawn (s : PeerManager M) (info : PeerInfo) : PeerManager M :=
  { s with tasks := s.tasks ++ [.new info], lock := some (.inserting info s.tasks.length) }

/-- `add_peer` up to the spawning of the task. -/
def addPeer (s : PeerManager M) (info : PeerInfo) : PeerManager M :=
  if s.peerCapacity ≤ s.stream.peers.entries.length then
    s.returns (.error (.peerStoreFull s.stream.peers.entries.length))
  else
    match s.stream.peers.lookup info.key with
    | some _ => s.returns (.error (.peerAlreadyExists info))
    | none => s.spawn info

/-- `remove_peer` and `send_message`, which send the message on to the task. -/
def sendTo (s : PeerManager M) (info : PeerInfo) (message : PeerManagerInputMessage M) :
    PeerManager M :=
  match s.stream.peers.lookup info.key with
  | none => s.returns (.error (.peerNotFound info))
  | some id =>
    match s.tasks[id]? with
    | none => s
    | some task =>
      match startSend s.sinkBufferCapacity task.running task.inbox message with
      | .ok inbox => { s with tasks := s.tasks.set id { task with inbox } }.returns (.ok ())
      | .error err => s.returns (.error (.sendFailed err))

/-- The next step of the call that holds the lock. -/
def proceed (s : PeerManager M) : SinkCall M → PeerManager M
  | .handling (.addPeer info) => s.addPeer info
  | .handling (.removePeer info) => s.sendTo info (.removePeer info)
  | .handling (.sendMessage info mid message) => s.sendTo info (.sendMessage info mid message)
  | .inserting info task =>
    { s with stream.peers := s.stream.peers.insert info.key task }.returns (.ok ())
  | .returning _ => { s with lock := none }

/-- The task that has, or is about to get, the place of a peer in the map. -/
def current (s : PeerManager M) (key : PeerKey) : Option Nat :=
  match s.lock with
  | some (.inserting info task) => if key = info.key then some task else s.stream.peers.lookup key
  | _ => s.stream.peers.lookup key

/-- The sender to a task is in the map. -/
def connected (s : PeerManager M) (id : Nat) (task : Task M) : Bool :=
  s.current task.info.key = some id

def push (s : PeerManager M) : Option (ManagerOutput M) → PeerManager M
  | some item => { s with stream.recv := s.stream.recv.push item }
  | none => s

/-- A sender is ready unless it is parked, and fails once its task has ended. -/
def pollReady (buffer : Nat) : List (Task M) → Poll (Except PeerManagerError Unit)
  | [] => .ready (.ok ())
  | task :: tasks =>
    if task.running then
      if task.inbox.length ≤ buffer then pollReady buffer tasks else .pending
    else .ready (.error (.sendFailed .disconnected))

/-- A sender whose task has ended counts as flushed. -/
def pollFlush (buffer : Nat) : List (Task M) → Poll (Except PeerManagerError Unit)
  | [] => .ready (.ok ())
  | task :: tasks =>
    if task.running && decide (buffer < task.inbox.length) then .pending else pollFlush buffer tasks

/-- The senders in the map are asked one by one. -/
def polls (s : PeerManager M) (senders : List Nat)
    (poll : Nat → List (Task M) → Poll (Except PeerManagerError Unit)) : PeerManager M :=
  if s.lock.isNone ∧ senders.Perm (s.stream.peers.entries.map (·.2)) then
    { s with lock := some (.returning (poll s.sinkBufferCapacity (senders.filterMap (s.tasks[·]?)))) }
  else s

def step (keepAlive : M) (s : PeerManager M) : ManagerEvent M → PeerManager M
  | .call message =>
    match s.lock with
    | some _ => s
    | none => { s with lock := some (.handling message) }
  | .pollReady senders => s.polls senders pollReady
  | .pollFlush senders => s.polls senders pollFlush
  | .proceed =>
    match s.lock with
    | some call => s.proceed call
    | none => s
  | .task id event =>
    match s.tasks[id]? with
    | some task =>
      let (task, sent) := task.step keepAlive (s.connected id task) event
      { s with tasks := s.tasks.set id task }.push sent
    | none => s
  | .poll => { s with stream := (s.stream.pollNext s.lock.isSome).2 }

def run (keepAlive : M) (s : PeerManager M) (events : List (ManagerEvent M)) : PeerManager M :=
  events.foldl (step keepAlive) s

end PeerManager

end BitTorrent.Peer
