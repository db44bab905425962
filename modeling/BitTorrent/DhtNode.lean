import BitTorrent.ShaHash

/-! Nodes of the routing table and their status. The request and response times of a node sit behind
shared pointers that the table, the handlers and the lookups all hold, so a node carries the cell of
its state and a `World` holds the clock and the cells. Everything that reads a status takes the world
it is read in; one call reads all its statuses in one world. -/

namespace BitTorrent.Dht

open Rust

abbrev NodeId := ShaHash

abbrev InfoHash := ShaHash

inductive SocketAddr where
  | v4 (ip : Vector UInt8 4) (port : UInt16)
  | v6 (ip : Vector UInt8 16) (port : UInt16) (flowinfo scopeId : UInt32)
  deriving DecidableEq

abbrev octets (a b c d : UInt8) : Vector UInt8 4 := #v[a, b, c, d]

inductive NodeStatus where
  | bad
  | questionable
  | good
  deriving Repr

namespace NodeStatus

/-- The place of a status in the derived order. -/
def level : NodeStatus → Nat
  | .bad => 0
  | .questionable => 1
  | .good => 2

instance : LinearOrder NodeStatus :=
  LinearOrder.lift' level fun a b h => by cases a <;> cases b <;> first | rfl | cases h

theorem bad_lt_iff {a : NodeStatus} : bad < a ↔ a ≠ bad := by
  cases a <;> decide

theorem lt_good_iff {a : NodeStatus} : a < good ↔ a ≠ good := by
  cases a <;> decide

theorem le_good (a : NodeStatus) : a ≤ good := by
  cases a <;> decide

theorem eq_questionable_of_lt {a b : NodeStatus} (ha : a ≠ bad) (h : a < b) :
    a = questionable ∧ b = good := by
  cases a <;> cases b <;> first | exact ⟨rfl, rfl⟩ | exact absurd rfl ha | exact absurd h (by decide)

end NodeStatus

/-- Points in time and durations, in nanoseconds. -/
abbrev Time := Int

def minutes (n : Int) : Time := n * 60 * 1000000000

def maxLastSeenMins : Int := 15

def maxRefreshRequests : Nat := 2

structure NodeState where
  lastRequest : Option Time
  lastResponse : Option Time
  refreshRequests : Nat
  deriving DecidableEq, Repr

namespace NodeState

def asGood (now : Time) : NodeState := ⟨none, some now, 0⟩

def asQuestionable (now : Time) : NodeState := ⟨none, some (now - minutes maxLastSeenMins), 0⟩

def asBad : NodeState := ⟨none, none, 0⟩

def recentlyResponded (node : NodeState) (currTime : Time) : NodeStatus :=
  match node.lastResponse with
  | none => .bad
  | some responseTime =>
    if currTime - responseTime < minutes maxLastSeenMins then .good else .questionable

def recentlyRequested (node : NodeState) (currTime : Time) : NodeStatus :=
  let byRefresh : NodeStatus :=
    if node.refreshRequests < maxRefreshRequests then .questionable else .bad
  match node.lastRequest with
  | some requestTime =>
    if currTime - requestTime < minutes maxLastSeenMins then .good else byRefresh
  | none => byRefresh

def status (node : NodeState) (currTime : Time) : NodeStatus :=
  match node.recentlyResponded currTime with
  | .good => .good
  | .bad => .bad
  | .questionable => node.recentlyRequested currTime

def localRequest (node : NodeState) (now : Time) : NodeState :=
  if node.status now ≠ .good then { node with refreshRequests := node.refreshRequests + 1 } else node

def remoteRequest (node : NodeState) (now : Time) : NodeState := { node with lastRequest := some now }

end NodeState

structure World where
  now : Time
  cells : Nat → NodeState

/-- A node. The nodes a new bucket is filled with are its own: their state has no cell and nobody
can change it. -/
structure Node where
  id : NodeId
  addr : SocketAddr
  cell : Option Nat
  deriving DecidableEq

namespace Node

/-- What nodes are compared by. -/
def key (n : Node) : NodeId × SocketAddr := (n.id, n.addr)

def state (n : Node) (w : World) : NodeState :=
  match n.cell with
  | none => .asBad
  | some c => w.cells c

def status (n : Node) (w : World) : NodeStatus := (n.state w).status w.now

/-- `PartialEq` of nodes. -/
def eq (n other : Node) : Bool := n.id = other.id && n.addr = other.addr

theorem eq_iff {n other : Node} : n.eq other = true ↔ n.key = other.key := by
  rw [eq, Bool.and_eq_true, decide_eq_true_eq, decide_eq_true_eq, key, key, Prod.mk.injEq]

/-- The compact form of a node. There is none for an IPv6 address. -/
def encode (n : Node) : Run Empty Bytes :=
  match n.addr with
  | .v4 ip port => .ok (n.id.hash ++ ip.toList ++ [(port >>> 8).toUInt8, port.toUInt8])
  | .v6 .. => .error .panic

/-- One of the nodes a new bucket is filled with. -/
def IsPlaceholder (n : Node) : Prop := n.cell = none

theorem status_of_isPlaceholder {n : Node} (h : n.IsPlaceholder) (w : World) : n.status w = .bad := by
  rw [status, state, h]
  rfl

theorem not_isPlaceholder_of_status {n : Node} {w : World} (h : n.status w ≠ .bad) :
    ¬ n.IsPlaceholder := fun hp => h (status_of_isPlaceholder hp w)

end Node

end BitTorrent.Dht
