import BitTorrent.DhtClosestOrder
import BitTorrent.DhtFindNode
import BitTorrent.DhtTransaction
import BitTorrent.DhtKrpc

/-! What the handler shares with its lookups, bootstraps and refreshes: the clock, the states of the
nodes, the routing table, the channel to the outgoing messenger, and the checks that timers send back
later. Whether the channel still takes a message is not up to the node, and neither is how ids are
shuffled, so both are given. A call happens at one point in time. The delay of a timer is left out: it
may fire at any time.

Two lists are there for the statements only: the transaction ids that were generated, and whom
the lookups have sent queries to. -/

namespace BitTorrent.Dht

open Rust

inductive ScheduledTaskCheck where
  | tableRefresh (transId : TransactionID)
  | bootstrapTimeout (transId : TransactionID)
  | lookupTimeout (transId : TransactionID)
  | lookupEndGame (transId : TransactionID)
  deriving DecidableEq

/-- What nodes are compared by. Who never looks at the state of a node keeps nothing else of it. -/
abbrev NodeKey := NodeId × SocketAddr

inductive ShutdownCause where
  | bootstrapFailed
  | clientInitiated
  | unspecified
  deriving DecidableEq, Repr

structure Shared where
  now : Time
  cells : Nat → NodeState
  nextCell : Nat
  table : RoutingTable
  /-- Whether the channel takes the message of a call of `send`. -/
  accepts : Nat → Bool
  sends : Nat
  sent : List (MessageType × SocketAddr)
  shuffles : Nat → Shuffle messageIdPreallocLen
  issued : List TransactionID
  queries : List NodeKey
  /-- The shutdown tasks the handler has sent itself. -/
  shutdowns : List ShutdownCause

namespace Shared

def world (s : Shared) : World := ⟨s.now, s.cells⟩

/-- `MIDGenerator::generate`. -/
def generate (s : Shared) (g : MIDGenerator) : TransactionID × MIDGenerator × Shared :=
  let (transId, g) := g.generate (s.shuffles s.issued.length)
  (transId, g, { s with issued := s.issued ++ [transId] })

/-- `out.send`. The result says whether the message was taken. -/
def send (s : Shared) (message : MessageType) (addr : SocketAddr) : Bool × Shared :=
  if s.accepts s.sends then
    (true, { s with sends := s.sends + 1, sent := s.sent ++ [(message, addr)] })
  else (false, { s with sends := s.sends + 1 })

/-- A loop that sends one message to several addresses and stops at the first failure. -/
def sendAll (s : Shared) (message : MessageType) : List SocketAddr → Bool × Shared
  | [] => (true, s)
  | addr :: addrs =>
    match s.send message addr with
    | (true, s) => s.sendAll message addrs
    | (false, s) => (false, s)

def newNode (s : Shared) (id : NodeId) (addr : SocketAddr) (state : NodeState) : Node × Shared :=
  (⟨id, addr, some s.nextCell⟩,
    { s with cells := Function.update s.cells s.nextCell state, nextCell := s.nextCell + 1 })

/-- Changes the state of a node, for all who hold the node. -/
def modify (s : Shared) (node : Node) (f : NodeState → NodeState) : Shared :=
  match node.cell with
  | none => s
  | some c => { s with cells := Function.update s.cells c (f (s.cells c)) }

def localRequest (s : Shared) (node : Node) : Shared := s.modify node (·.localRequest s.now)

def remoteRequest (s : Shared) (node : Node) : Shared := s.modify node (·.remoteRequest s.now)

def findNode (s : Shared) (node : NodeKey) : Option Node :=
  s.table.findNode s.world ⟨node.1, node.2, none⟩

def localRequestTo (s : Shared) (node : NodeKey) : Shared :=
  match s.findNode node with
  | some n => s.localRequest n
  | none => s

def remoteRequestFrom (s : Shared) (node : NodeKey) : Shared :=
  match s.findNode node with
  | some n => s.remoteRequest n
  | none => s

/-- All that `closest_nodes` yields. -/
def closestNodes (s : Shared) (target : NodeId) : Run Empty (List Node) := do
  let nodes ← s.table.closestNodes target
  return (ClosestNodes.iter s.world).toList nodes

def addNode (s : Shared) (node : Node) : Run Empty Shared := do
  let table ← RoutingTable.addNode s.world RoutingTable.recursionLimit s.table node
  return { s with table := table }

def logQuery (s : Shared) (node : NodeKey) : Shared := { s with queries := s.queries ++ [node] }

/-- The nodes of the table that are not bad, each once. -/
theorem closestNodes_spec {s : Shared} (ht : s.table.Valid) (target : NodeId) : ∃ nodes,
    s.closestNodes target = .ok nodes ∧
      nodes.Perm (s.table.entries.filter (Bucket.isPingable s.world)) ∧
      nodes.Pairwise fun x y => x.key ≠ y.key := by
  obtain ⟨it, hit, hperm⟩ := ht.toList_perm s.world target
  refine ⟨(ClosestNodes.iter s.world).toList it, ?_, hperm⟩
  rw [closestNodes, hit]
  rfl

/-! ### What actions do with it -/

/-- What an action may do to the shared state: generate ids, send requests, change the states of nodes
and log what it does. -/
structure Works (s s' : Shared) : Prop where
  table : s'.table = s.table
  nextCell : s'.nextCell = s.nextCell
  issued : s.issued ⊆ s'.issued
  sent : ∀ p ∈ s'.sent, p ∈ s.sent ∨ ∃ request, p.1 = .request request

/-- Works that are not logged. -/
structure Unlogged (s s' : Shared) : Prop extends Works s s' where
  queries : s'.queries = s.queries

section

variable {s s' s'' : Shared}

theorem Works.refl (s : Shared) : s.Works s :=
  ⟨rfl, rfl, fun _ h => h, fun _ h => Or.inl h⟩

theorem Works.trans (h : s.Works s') (h' : s'.Works s'') : s.Works s'' := by
  refine ⟨h'.table.trans h.table, h'.nextCell.trans h.nextCell,
    fun _ hid => h'.issued (h.issued hid), ?_⟩
  intro p hp
  rcases h'.sent p hp with hp | hp
  · exact h.sent p hp
  · exact Or.inr hp

theorem Unlogged.refl (s : Shared) : s.Unlogged s := ⟨.refl s, rfl⟩

theorem Unlogged.trans (h : s.Unlogged s') (h' : s'.Unlogged s'') : s.Unlogged s'' :=
  ⟨h.toWorks.trans h'.toWorks, h'.queries.trans h.queries⟩

theorem works_logQuery (s : Shared) (node : NodeKey) : s.Works (s.logQuery node) :=
  ⟨rfl, rfl, fun _ h => h, fun _ h => Or.inl h⟩

end

section

variable (s : Shared)

theorem unlogged_generate (g : MIDGenerator) : s.Unlogged (s.generate g).2.2 :=
  ⟨⟨rfl, rfl, fun _ h => List.mem_append_left _ h, fun _ h => Or.inl h⟩, rfl⟩

theorem mem_issued_generate (g : MIDGenerator) :
    (s.generate g).1 ∈ (s.generate g).2.2.issued := List.mem_append_right _ List.mem_cons_self

theorem unlogged_send (request : RequestType) (addr : SocketAddr) :
    s.Unlogged (s.send (.request request) addr).2 := by
  unfold send
  split
  · refine ⟨⟨rfl, rfl, fun _ hid => hid, fun p hp => ?_⟩, rfl⟩
    rcases List.mem_append.mp hp with hp | hp
    · exact Or.inl hp
    · rw [List.mem_singleton.mp hp]
      exact Or.inr ⟨request, rfl⟩
  · exact ⟨⟨rfl, rfl, fun _ hid => hid, fun _ hp => Or.inl hp⟩, rfl⟩

theorem unlogged_sendAll (request : RequestType) (addrs : List SocketAddr) :
    s.Unlogged (s.sendAll (.request request) addrs).2 := by
  induction addrs generalizing s with
  | nil => exact .refl s
  | cons addr addrs ih =>
    have hsend := s.unlogged_send request addr
    rw [sendAll]
    split
    · rename_i s' heq
      rw [heq] at hsend
      exact hsend.trans (ih s')
    · rename_i s' heq
      rw [heq] at hsend
      exact hsend

theorem unlogged_localRequest (node : Node) : s.Unlogged (s.localRequest node) := by
  unfold localRequest modify
  split
  · exact .refl s
  · exact ⟨⟨rfl, rfl, fun _ h => h, fun _ h => Or.inl h⟩, rfl⟩

theorem unlogged_localRequestTo (node : NodeKey) : s.Unlogged (s.localRequestTo node) := by
  unfold localRequestTo
  split
  · exact s.unlogged_localRequest _
  · exact .refl s

end

end Shared

end BitTorrent.Dht
