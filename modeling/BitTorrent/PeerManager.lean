import BitTorrent.PeerProtocol
import BitTorrent.DhtNode
import BitTorrent.RustHashMap
import BitTorrent.RustChannel

/-! The messages of the peer manager and its stream. The stream receives what the tasks of the peers
sent, and takes a peer out of the shared map when its removal is announced. It takes the announcement
out of the channel first and tries the lock of the map after that; if the lock is held, the
announcement is gone. -/

namespace BitTorrent.Peer

open Rust Dht

open List hiding Vector

abbrev PeerId := ShaHash

structure Extensions where
  bytes : Vector UInt8 8
  deriving DecidableEq

structure PeerInfo where
  addr : SocketAddr
  pid : PeerId
  hash : InfoHash
  ext : Extensions
  deriving DecidableEq

abbrev PeerKey := SocketAddr × PeerId × InfoHash

/-- What the equality and the hash of a `PeerInfo` look at. -/
def PeerInfo.key (info : PeerInfo) : PeerKey := (info.addr, info.pid, info.hash)

abbrev MessageId := UInt64

/-- The connection that comes with `AddPeer` is left to what the tasks read and write. -/
inductive PeerManagerInputMessage (M : Type) where
  | addPeer (info : PeerInfo)
  | removePeer (info : PeerInfo)
  | sendMessage (info : PeerInfo) (mid : MessageId) (message : M)
  deriving DecidableEq

inductive PeerManagerOutputError where
  | peerDisconnectedAndMissing (info : PeerInfo)
  | peerRemovedAndMissing (info : PeerInfo)
  | peerErrorAndMissing (info : PeerInfo) (err : Option PeerManagerOutputError)
  | peerError (info : PeerInfo) (err : IoError)

inductive PeerManagerOutputMessage (M : Type) where
  | peerAdded (info : PeerInfo)
  | peerRemoved (info : PeerInfo)
  | sentMessage (info : PeerInfo) (mid : MessageId)
  | receivedMessage (info : PeerInfo) (message : M)
  | peerDisconnect (info : PeerInfo)
  deriving DecidableEq

/-- An item of the channel to the stream, and of the stream itself. -/
abbrev ManagerOutput (M : Type) := Except PeerManagerOutputError (PeerManagerOutputMessage M)

/-- The peer that the stream takes out of the map when it receives the item. -/
def removedPeer {M : Type} : ManagerOutput M → Option PeerInfo
  | .error (.peerError info _) => some info
  | .ok (.peerRemoved info) => some info
  | .ok (.peerDisconnect info) => some info
  | _ => none

/-- A value of the map is the sender to the task of a peer. -/
structure PeerManagerStream (σ M : Type) where
  recv : Receiver (ManagerOutput M)
  peers : HashMap PeerKey σ
  optPending : Option (ManagerOutput M)

namespace PeerManagerStream

variable {σ M : Type}

def new (recv : Receiver (ManagerOutput M)) (peers : HashMap PeerKey σ) : PeerManagerStream σ M :=
  ⟨recv, peers, none⟩

/-- The arm of an item that removes a peer. -/
def remove (s : PeerManagerStream σ M) (locked : Bool) (info : PeerInfo) (missing : PeerManagerOutputError) :
    Poll (Option (ManagerOutput M)) × PeerManagerStream σ M :=
  if locked then (.pending, s)
  else
    match s.peers.lookup info.key with
    | none => (.ready (some (.error missing)), s)
    | some _ =>
      (.ready (some (.ok (.peerRemoved info))), { s with peers := s.peers.erase info.key })

def handle (s : PeerManagerStream σ M) (locked : Bool) (nextMessage : ManagerOutput M) :
    Poll (Option (ManagerOutput M)) × PeerManagerStream σ M :=
  match nextMessage with
  | .error (.peerError info err) =>
    s.remove locked info (.peerErrorAndMissing info (some (.peerError info err)))
  | .error err => (.ready (some (.error err)), s)
  | .ok (.peerRemoved info) => s.remove locked info (.peerRemovedAndMissing info)
  | .ok (.peerDisconnect info) => s.remove locked info (.peerDisconnectedAndMissing info)
  | .ok msg => (.ready (some (.ok msg)), s)

/-- Nothing is ever put into `opt_pending`. -/
def pollNext (s : PeerManagerStream σ M) (locked : Bool) :
    Poll (Option (ManagerOutput M)) × PeerManagerStream σ M :=
  match s.optPending with
  | some message => { s with optPending := none }.handle locked message
  | none =>
    match s.recv.pollNext with
    | (.ready (some message), recv) => { s with recv }.handle locked message
    | (.ready none, recv) => (.ready none, { s with recv })
    | (.pending, recv) => (.pending, { s with recv })

/-- The item that the next poll takes out. -/
def next (s : PeerManagerStream σ M) : Option (ManagerOutput M) := s.optPending <|> s.recv.queue.head?

variable {s : PeerManagerStream σ M} {locked : Bool} {message : ManagerOutput M}

/-- An item is yielded for every message, unless it removes a peer and the lock is held. -/
theorem handle_of_yields (h : locked = false ∨ removedPeer message = none) :
    ∃ item s', s.handle locked message = (.ready (some item), s') ∧ s'.recv = s.recv ∧
      s'.optPending = s.optPending ∧ s.handle false message = (.ready (some item), s') := by
  have hremove : ∀ info missing, locked = false → ∃ item s',
      s.remove locked info missing = (.ready (some item), s') ∧ s'.recv = s.recv ∧
        s'.optPending = s.optPending ∧ s.remove false info missing = (.ready (some item), s') := by
    rintro info missing rfl
    unfold remove
    cases s.peers.lookup info.key with
    | none => exact ⟨_, _, rfl, rfl, rfl, rfl⟩
    | some sender => exact ⟨_, _, rfl, rfl, rfl, rfl⟩
  have hlocked : ∀ info, removedPeer message = some info → locked = false := fun info hinfo =>
    h.resolve_right (by rw [hinfo]; exact nofun)
  rcases message with (_ | _ | _ | ⟨info, err⟩) | (_ | info | _ | _ | info)
  case error.peerError => exact hremove _ _ (hlocked info rfl)
  case ok.peerRemoved => exact hremove _ _ (hlocked info rfl)
  case ok.peerDisconnect => exact hremove _ _ (hlocked info rfl)
  all_goals exact ⟨_, _, rfl, rfl, rfl, rfl⟩

theorem handle_of_locked {info : PeerInfo} (h : removedPeer message = some info) :
    s.handle true message = (.pending, s) := by
  rcases message with (_ | _ | _ | ⟨info, err⟩) | (_ | info | _ | _ | info)
  case error.peerError => rfl
  case ok.peerRemoved => rfl
  case ok.peerDisconnect => rfl
  all_goals cases h

theorem handle_of_none (h : removedPeer message = none) :
    s.handle locked message = (.ready (some message), s) := by
  rcases message with (_ | _ | _ | ⟨info, err⟩) | (_ | info | _ | _ | info)
  case error.peerError => cases h
  case ok.peerRemoved => cases h
  case ok.peerDisconnect => cases h
  all_goals rfl

theorem handle_of_free {info : PeerInfo} {sender : σ} (h : removedPeer message = some info)
    (hlookup : s.peers.lookup info.key = some sender) :
    s.handle false message =
      (.ready (some (.ok (.peerRemoved info))), { s with peers := s.peers.erase info.key }) := by
  have hremove : ∀ missing, s.remove false info missing =
      (.ready (some (.ok (.peerRemoved info))), { s with peers := s.peers.erase info.key }) := by
    intro missing
    rw [remove, hlookup]
    rfl
  rcases message with (_ | _ | _ | ⟨info', err⟩) | (_ | info' | _ | _ | info') <;> cases h
  · exact hremove _
  · exact hremove _
  · exact hremove _

variable (hpending : s.optPending = none)
include hpending

theorem pollNext_nil (hqueue : s.recv.queue = []) :
    s.pollNext locked = (if s.recv.closed then .ready none else .pending, s) := by
  obtain ⟨⟨_, closed⟩, peers, _⟩ := s
  subst hpending hqueue
  cases closed <;> rfl

theorem pollNext_cons {queue : List (ManagerOutput M)} (hqueue : s.recv.queue = message :: queue) :
    s.pollNext locked = { s with recv.queue := queue }.handle locked message := by
  rw [pollNext, hpending, Receiver.pollNext, hqueue]

theorem next_eq : s.next = s.recv.queue.head? := by
  rw [next, hpending]
  rfl

end PeerManagerStream

/-! ### What becomes of the messages -/

def localPeer : PeerInfo :=
  ⟨.v4 (Dht.octets 127 0 0 1) 6881, .fill 0, .fill 1, ⟨Vector.replicate 8 0⟩⟩

/-- What happens to a stream: a task sends an item, the last sender goes, the sink changes the map, or
the stream is polled while the lock is free or held. -/
inductive StreamEvent (σ M : Type) where
  | sent (item : ManagerOutput M)
  | closed
  | shared (peers : HashMap PeerKey σ)
  | poll (locked : Bool)

/-- A stream with the messages it received from the channel and the items it yielded. -/
structure WatchedStream (σ M : Type) where
  stream : PeerManagerStream σ M
  received : List (ManagerOutput M)
  yielded : List (ManagerOutput M)

/-- The item is one that a poll yields for the message. -/
def AccountedBy (σ : Type) {M : Type} (message item : ManagerOutput M) : Prop :=
  ∃ s s' : PeerManagerStream σ M, s.handle false message = (.ready (some item), s')

namespace WatchedStream

variable {σ M : Type}

def new (recv : Receiver (ManagerOutput M)) (peers : HashMap PeerKey σ) : WatchedStream σ M :=
  ⟨.new recv peers, [], []⟩

def step (w : WatchedStream σ M) : StreamEvent σ M → WatchedStream σ M
  | .sent item => { w with stream.recv := w.stream.recv.push item }
  | .closed => { w with stream.recv.closed := true }
  | .shared peers => { w with stream.peers := peers }
  | .poll locked =>
    let taken := if w.stream.optPending.isSome then [] else w.stream.recv.queue.take 1
    match w.stream.pollNext locked with
    | (.ready (some item), stream) => ⟨stream, w.received ++ taken, w.yielded ++ [item]⟩
    | (_, stream) => ⟨stream, w.received ++ taken, w.yielded⟩

def run (w : WatchedStream σ M) (events : List (StreamEvent σ M)) : WatchedStream σ M :=
  events.foldl step w

/-- The messages received are those accounted for by the items, in order and one by one, and the
message kept pending. -/
def Conserved (w : WatchedStream σ M) : Prop :=
  ∃ accounted, w.received = accounted ++ w.stream.optPending.toList ∧
    List.Forall₂ (AccountedBy σ) accounted w.yielded

/-- The event is a poll that takes a removal while the lock is held. -/
def Drops (w : WatchedStream σ M) : StreamEvent σ M → Prop
  | .poll true => ∃ message info, w.stream.next = some message ∧ removedPeer message = some info
  | _ => False

variable {w : WatchedStream σ M}

section

variable (hpending : w.stream.optPending = none)
include hpending

theorem step_poll_nil (locked : Bool) (hqueue : w.stream.recv.queue = []) : w.step (.poll locked) = w := by
  rw [step, PeerManagerStream.pollNext_nil hpending hqueue, hpending, hqueue]
  cases w.stream.recv.closed
  · exact congrArg (WatchedStream.mk w.stream · w.yielded) (append_nil _)
  · exact congrArg (WatchedStream.mk w.stream · w.yielded) (append_nil _)

theorem step_poll_yields {locked : Bool} {message : ManagerOutput M} {queue : List (ManagerOutput M)}
    (hqueue : w.stream.recv.queue = message :: queue) (h : locked = false ∨ removedPeer message = none) :
    ∃ item, AccountedBy σ message item ∧ (w.step (.poll locked)).stream.optPending = none ∧
      (w.step (.poll locked)).received = w.received ++ [message] ∧
      (w.step (.poll locked)).yielded = w.yielded ++ [item] := by
  obtain ⟨item, s', hhandle, -, hkept, hfree⟩ :=
    PeerManagerStream.handle_of_yields (s := { w.stream with recv.queue := queue }) h
  have hstep : w.step (.poll locked) = ⟨s', w.received ++ [message], w.yielded ++ [item]⟩ := by
    rw [step, PeerManagerStream.pollNext_cons hpending hqueue, hhandle, hpending, hqueue]
    rfl
  rw [hstep]
  exact ⟨item, ⟨_, _, hfree⟩, hkept.trans hpending, rfl, rfl⟩

theorem step_poll_drops {message : ManagerOutput M} {info : PeerInfo}
    {queue : List (ManagerOutput M)} (hqueue : w.stream.recv.queue = message :: queue)
    (h : removedPeer message = some info) :
    w.step (.poll true) = ⟨{ w.stream with recv.queue := queue }, w.received ++ [message], w.yielded⟩ := by
  have htaken : (if w.stream.optPending.isSome then [] else w.stream.recv.queue.take 1) = [message] := by
    rw [hpending, hqueue]
    rfl
  rw [step, PeerManagerStream.pollNext_cons hpending hqueue, PeerManagerStream.handle_of_locked h, htaken]

/-- What a step can do to the messages received and the items yielded. -/
theorem step_cases (event : StreamEvent σ M) : (w.step event).stream.optPending = none ∧
      (((w.step event).received = w.received ∧ (w.step event).yielded = w.yielded ∧ ¬ w.Drops event) ∨
        (∃ message item, AccountedBy σ message item ∧ (w.step event).received = w.received ++ [message] ∧
          (w.step event).yielded = w.yielded ++ [item] ∧ ¬ w.Drops event) ∨
        ∃ message, (w.step event).received = w.received ++ [message] ∧
          (w.step event).yielded = w.yielded ∧ w.Drops event) := by
  cases event with
  | sent item => exact ⟨hpending, .inl ⟨rfl, rfl, nofun⟩⟩
  | closed => exact ⟨hpending, .inl ⟨rfl, rfl, nofun⟩⟩
  | shared peers => exact ⟨hpending, .inl ⟨rfl, rfl, nofun⟩⟩
  | poll locked =>
    have hnext := PeerManagerStream.next_eq hpending
    cases hqueue : w.stream.recv.queue with
    | nil =>
      rw [step_poll_nil hpending locked hqueue]
      refine ⟨hpending, .inl ⟨rfl, rfl, ?_⟩⟩
      rw [hqueue] at hnext
      cases locked with
      | false => exact nofun
      | true =>
        rintro ⟨message, info, hmessage, -⟩
        cases hnext.symm.trans hmessage
    | cons message queue =>
      rw [hqueue] at hnext
      by_cases hyields : locked = false ∨ removedPeer message = none
      · obtain ⟨item, haccounted, hkept, hreceived, hyielded⟩ :=
          step_poll_yields hpending hqueue hyields
        refine ⟨hkept, .inr (.inl ⟨message, item, haccounted, hreceived, hyielded, ?_⟩)⟩
        cases locked with
        | false => exact nofun
        | true =>
          rintro ⟨message', info, hmessage, hinfo⟩
          cases hnext.symm.trans hmessage
          rw [hyields.resolve_left nofun] at hinfo
          cases hinfo
      · rw [not_or] at hyields
        obtain ⟨info, hinfo⟩ := Option.ne_none_iff_exists'.mp hyields.2
        cases locked with
        | false => exact absurd rfl hyields.1
        | true =>
          rw [step_poll_drops hpending hqueue hinfo]
          exact ⟨hpending, .inr (.inr ⟨message, rfl, rfl, message, info, hnext, hinfo⟩)⟩

theorem Conserved.length_eq (h : w.Conserved) : w.received.length = w.yielded.length := by
  obtain ⟨accounted, hreceived, haccounted⟩ := h
  rw [hpending] at hreceived
  rw [hreceived, Option.toList_none, append_nil, haccounted.length_eq]

theorem conserved_step (h : w.Conserved) {event : StreamEvent σ M} (hdrops : ¬ w.Drops event) :
    (w.step event).Conserved := by
  obtain ⟨accounted, hreceived, haccounted⟩ := h
  rw [hpending, Option.toList_none, append_nil] at hreceived
  obtain ⟨hkept, ⟨hr, hy, -⟩ | ⟨message, item, hitem, hr, hy, -⟩ | ⟨-, -, -, hd⟩⟩ :=
    step_cases hpending event
  · refine ⟨accounted, ?_, by rwa [hy]⟩
    rw [hr, hreceived, hkept, Option.toList_none, append_nil]
  · refine ⟨accounted ++ [message], ?_, ?_⟩
    · rw [hr, hreceived, hkept, Option.toList_none, append_nil]
    · rw [hy]
      exact rel_append haccounted (.cons hitem .nil)
  · exact absurd hd hdrops

theorem short_step (event : StreamEvent σ M) (h : w.yielded.length ≤ w.received.length)
    (hlost : w.yielded.length < w.received.length ∨ w.Drops event) :
    (w.step event).yielded.length < (w.step event).received.length := by
  obtain ⟨-, ⟨hr, hy, hd⟩ | ⟨message, item, -, hr, hy, hd⟩ | ⟨message, hr, hy, -⟩⟩ :=
    step_cases hpending event
  · rw [hr, hy]
    exact hlost.resolve_right hd
  · rw [hr, hy, length_append, length_append]
    exact Nat.add_lt_add_right (hlost.resolve_right hd) 1
  · rw [hr, hy, length_append]
    exact Nat.lt_succ_of_le h

theorem short_run (events : List (StreamEvent σ M)) (h : w.yielded.length < w.received.length) :
    (w.run events).yielded.length < (w.run events).received.length ∧
      (w.run events).stream.optPending = none := by
  induction events generalizing w with
  | nil => exact ⟨h, hpending⟩
  | cons event events ih =>
    exact ih (step_cases hpending event).1 (short_step hpending event h.le (.inl h))

end

/-- No poll in the run takes a removal while the lock is held. -/
def NeverDrops (w : WatchedStream σ M) : List (StreamEvent σ M) → Prop
  | [] => True
  | event :: events => ¬ w.Drops event ∧ (w.step event).NeverDrops events

theorem conserved_run_iff (hpending : w.stream.optPending = none) (h : w.Conserved)
    (events : List (StreamEvent σ M)) : (w.run events).Conserved ↔ w.NeverDrops events := by
  induction events generalizing w with
  | nil => exact ⟨fun _ => trivial, fun _ => h⟩
  | cons event events ih =>
    have hkept := (step_cases hpending event).1
    by_cases hdrops : w.Drops event
    · have hshort := short_step hpending event (h.length_eq hpending).ge (.inr hdrops)
      obtain ⟨hlt, hnone⟩ := short_run hkept events hshort
      refine ⟨fun hconserved => ?_, fun hnever => absurd hdrops hnever.1⟩
      exact absurd (Conserved.length_eq hnone hconserved) hlt.ne'
    · rw [NeverDrops, and_iff_right hdrops]
      exact ih hkept (conserved_step hpending h hdrops)

/-- The stream loses nothing if and only if it never takes a removal while the lock is held. -/
theorem conserved_iff_neverDrops (recv : Receiver (ManagerOutput M)) (peers : HashMap PeerKey σ)
    (events : List (StreamEvent σ M)) :
    ((new recv peers).run events).Conserved ↔ (new recv peers).NeverDrops events :=
  conserved_run_iff rfl ⟨[], rfl, .nil⟩ events

/-- The removal of a peer is polled while the lock is held, and again when it is free: it was received,
is not pending and is not yielded, and the peer stays in the map. -/
theorem removal_dropped :
    ∃ w : WatchedStream Unit Unit, w = (new .new (AList.singleton localPeer.key ())).run
        [.sent (.ok (.peerRemoved localPeer)), .poll true, .poll false] ∧
      w.received = [.ok (.peerRemoved localPeer)] ∧ w.yielded = [] ∧ w.stream.optPending = none ∧
      w.stream.peers.lookup localPeer.key = some () ∧ ¬ w.Conserved := by
  refine ⟨_, rfl, rfl, rfl, rfl, rfl, fun hconserved => ?_⟩
  cases Conserved.length_eq rfl hconserved

end WatchedStream

end BitTorrent.Peer
