import BitTorrent.RustBitSet
import BitTorrent.SelectUtMetadata
import Mathlib.Data.FinEnum

/-! The module that reveals to peers which pieces we have. A new peer of a torrent is sent a bitfield, made
from the storage of the set of pieces by turning every byte around, and from then on a message for each
piece. The storage reaches only as far as the greatest piece: the bits of a bitfield are right, but
unless a piece of the last byte is there, bytes are missing at its end. -/

namespace BitTorrent.Select

open Rust Dht Peer Meta List

inductive RevealError where
  | invalidMessage (info : PeerInfo) (message : String)
  | invalidMetainfoExists (hash : InfoHash)
  | invalidMetainfoNotExists (hash : InfoHash)
  | invalidPieceOutOfRange (hash : InfoHash) (index : UInt64)
  deriving DecidableEq

inductive IRevealMessage where
  | control (message : ControlMessage)
  | foundGoodPiece (hash : InfoHash) (index : UInt64)
  | receivedBitField (info : PeerInfo) (message : BitFieldMessage)
  | receivedHave (info : PeerInfo) (message : HaveMessage)

inductive ORevealMessage where
  | sendBitField (info : PeerInfo) (message : BitFieldMessage)
  | sendHave (info : PeerInfo) (message : HaveMessage)
  deriving DecidableEq

/-! ### Bitfields -/

/-- One round of the loop over the bits of a byte. -/
def reverseBit : UInt8 × UInt8 → UInt8 × UInt8
  | (reversedByte, byte) => (reversedByte <<< 1 ||| byte &&& 0x01, byte >>> 1)

def reversedByte (byte : UInt8) : UInt8 := (Nat.repeat reverseBit 8 (0, byte)).1

def insertReversedBits (bytes slice : Bytes) : Bytes :=
  slice.foldl (fun bytes byte => bytes ++ [reversedByte byte]) bytes

/-- The bit of a bitfield that stands for a piece, most significant bits first. -/
def bitAt (bitfield : Bytes) (i : Nat) : Bool :=
  match bitfield[i / 8]? with
  | some byte => byte.toNat.testBit (7 - i % 8)
  | none => false

theorem insertReversedBits_eq (bytes slice : Bytes) :
    insertReversedBits bytes slice = bytes ++ slice.map reversedByte := by
  induction slice generalizing bytes with
  | nil => exact (append_nil bytes).symm
  | cons byte slice ih =>
    rw [insertReversedBits, foldl_cons, ← insertReversedBits, ih, append_assoc, map_cons]
    rfl

theorem testBit_reversedByte : ∀ (byte : UInt8) (k : Fin 8),
    (reversedByte byte).toNat.testBit (7 - k) = byte.toNat.testBit k := by
  decide +kernel

theorem bitAt_map_reversedByte (s : BitSet) (i : Nat) :
    bitAt (s.storage.map reversedByte) i = s.contains i := by
  rw [bitAt, BitSet.contains, getElem?_map]
  cases s.storage[i / 8]? with
  | none => rfl
  | some byte => exact testBit_reversedByte byte ⟨i % 8, Nat.mod_lt i (by decide)⟩

/-! ### The module -/

/-- The peers are a set under the equality of `PeerInfo`; a peer that is there is not replaced. -/
structure PeersInfo where
  numPieces : Nat
  status : BitSet
  peers : HashMap PeerKey PeerInfo

structure HonestRevealModule where
  torrents : HashMap InfoHash PeersInfo
  outQueue : List ORevealMessage
  outBytes : Bytes
  optStreamWaker : Option Waker
  woken : List Waker

namespace HonestRevealModule

def new : HonestRevealModule := ⟨∅, [], [], none, []⟩

/-- `opt_stream_waker.take()`, and the call of the waker that was there. -/
def wake (m : HonestRevealModule) : HonestRevealModule :=
  match m.optStreamWaker with
  | some waker => { m with optStreamWaker := none, woken := m.woken ++ [waker] }
  | none => m

def push (m : HonestRevealModule) (message : ORevealMessage) : HonestRevealModule :=
  { m with outQueue := m.outQueue ++ [message] }.wake

def addTorrent (m : HonestRevealModule) (metainfo : Metainfo) :
    Except RevealError Unit × HonestRevealModule :=
  let infoHash := metainfo.info.infoHash
  match m.torrents.lookup infoHash with
  | some _ => (.error (.invalidMetainfoExists infoHash), m)
  | none =>
    let numPieces := metainfo.info.pieces.length
    let pieceSet := BitSet.new.reserveLenExact numPieces
    (.ok (), { m with torrents := m.torrents.insert infoHash ⟨numPieces, pieceSet, ∅⟩ })

def removeTorrent (m : HonestRevealModule) (metainfo : Metainfo) :
    Except RevealError Unit × HonestRevealModule :=
  let infoHash := metainfo.info.infoHash
  match m.torrents.lookup infoHash with
  | none => (.error (.invalidMetainfoNotExists infoHash), m)
  | some _ => (.ok (), { m with torrents := m.torrents.erase infoHash })

/-- `HashSet::insert`. -/
def PeersInfo.insertPeer (p : PeersInfo) (peer : PeerInfo) : PeersInfo :=
  match p.peers.lookup peer.key with
  | some _ => p
  | none => { p with peers := p.peers.insert peer.key peer }

def addPeer (m : HonestRevealModule) (peer : PeerInfo) : Except RevealError Unit × HonestRevealModule :=
  let infoHash := peer.hash
  match m.torrents.lookup infoHash with
  | none => (.error (.invalidMetainfoNotExists infoHash), m)
  | some peersInfo =>
    let peersInfo := PeersInfo.insertPeer peersInfo peer
    let m := { m with torrents := m.torrents.insert infoHash peersInfo }
    if peersInfo.status.isEmpty then (.ok (), m)
    else
      -- `split_off(0)` takes all of the buffer and leaves it empty
      let bitfieldBytes := insertReversedBits m.outBytes peersInfo.status.storage
      (.ok (), { m with outBytes := [] }.push (.sendBitField peer ⟨bitfieldBytes⟩))

def removePeer (m : HonestRevealModule) (peer : PeerInfo) : Except RevealError Unit × HonestRevealModule :=
  let infoHash := peer.hash
  match m.torrents.lookup infoHash with
  | none => (.error (.invalidMetainfoNotExists infoHash), m)
  | some peersInfo =>
    let peersInfo := { peersInfo with peers := peersInfo.peers.erase peer.key }
    (.ok (), { m with torrents := m.torrents.insert infoHash peersInfo })

/-- The peers of the set in the order of an iteration. -/
def PeersInfo.iter (p : PeersInfo) (order : Arrangement PeerKey) : List PeerInfo :=
  (order.arrange p.peers.keys).filterMap p.peers.lookup

/-- The loop over the peers. -/
def sendHaves (index : Nat) (peers : List PeerInfo) (m : HonestRevealModule) : Run Empty HonestRevealModule :=
  peers.foldlM (fun m peer => do .ok (m.push (.sendHave peer ⟨← unwrapU32 index⟩))) m

def insertPiece (m : HonestRevealModule) (order : Arrangement PeerKey) (hash : InfoHash) (index : UInt64) :
    Run Empty (Except RevealError Unit × HonestRevealModule) :=
  match m.torrents.lookup hash with
  | none => .ok (.error (.invalidMetainfoNotExists hash), m)
  | some peersInfo =>
    if peersInfo.numPieces ≤ index.toNat then .ok (.error (.invalidPieceOutOfRange hash index), m)
    else do
      let m ← m.sendHaves index.toNat (PeersInfo.iter peersInfo order)
      let peersInfo := { peersInfo with status := peersInfo.status.insert index.toNat }
      .ok (.ok (), { m with torrents := m.torrents.insert hash peersInfo })

def handleMessage (m : HonestRevealModule) (order : Arrangement PeerKey) :
    IRevealMessage → Run Empty (Except RevealError Unit × HonestRevealModule)
  | .control (.addTorrent metainfo) => .ok (m.addTorrent metainfo)
  | .control (.removeTorrent metainfo) => .ok (m.removeTorrent metainfo)
  | .control (.peerConnected info) => .ok (m.addPeer info)
  | .control (.peerDisconnected info) => .ok (m.removePeer info)
  | .foundGoodPiece hash index => m.insertPiece order hash index
  | .control (.tick _) => .ok (.ok (), m)
  | .receivedBitField _ _ => .ok (.ok (), m)
  | .receivedHave _ _ => .ok (.ok (), m)

def pollNextMessage (m : HonestRevealModule) (waker : Waker) : Poll ORevealMessage × HonestRevealModule :=
  match m.outQueue with
  | message :: outQueue => (.ready message, { m with outQueue := outQueue })
  | [] => (.pending, { m with optStreamWaker := some waker })

@[simp] theorem wake_torrents (m : HonestRevealModule) : m.wake.torrents = m.torrents := by
  unfold wake
  split <;> rfl

@[simp] theorem wake_outQueue (m : HonestRevealModule) : m.wake.outQueue = m.outQueue := by
  unfold wake
  split <;> rfl

@[simp] theorem wake_outBytes (m : HonestRevealModule) : m.wake.outBytes = m.outBytes := by
  unfold wake
  split <;> rfl

theorem sendHaves_eq_ok {index : Nat} {peers : List PeerInfo} {m m' : HonestRevealModule}
    (h : m.sendHaves index peers = .ok m') :
    m'.torrents = m.torrents ∧ m'.outBytes = m.outBytes ∧
      m'.outQueue = m.outQueue ++ peers.map fun peer => .sendHave peer ⟨UInt32.ofNat index⟩ := by
  induction peers generalizing m with
  | nil =>
    cases h
    exact ⟨rfl, rfl, (append_nil _).symm⟩
  | cons peer peers ih =>
    obtain ⟨m₁, hm₁, hrest⟩ := bind_eq_ok.mp h
    obtain ⟨piece, hpiece, hpush⟩ := bind_eq_ok.mp hm₁
    have hindex : piece = UInt32.ofNat index := by
      unfold unwrapU32 at hpiece
      split at hpiece
      · exact (Except.ok.inj hpiece).symm
      · cases hpiece
    cases hpush
    obtain ⟨htorrents, hbytes, hqueue⟩ := ih hrest
    refine ⟨by simpa [push] using htorrents, by simpa [push] using hbytes, ?_⟩
    rw [hqueue, hindex]
    simp [push]

end HonestRevealModule

/-! ### What the messages tell -/

/-- A torrent with the pieces that were accepted since it was added. -/
structure Torrent where
  numPieces : Nat
  found : List Nat

abbrev Ledger := HashMap InfoHash Torrent

/-- A message that was accepted. -/
def Ledger.record (l : Ledger) : IRevealMessage → Ledger
  | .control (.addTorrent metainfo) => l.insert metainfo.info.infoHash ⟨metainfo.info.pieces.length, []⟩
  | .control (.removeTorrent metainfo) => l.erase metainfo.info.infoHash
  | .foundGoodPiece hash index =>
    match l.lookup hash with
    | some t => l.insert hash { t with found := t.found ++ [index.toNat] }
    | none => l
  | _ => l

/-- The right number of bytes, a bit for every piece that is there and none beyond the pieces. -/
structure ExactBitfield (t : Torrent) (bitfield : Bytes) : Prop where
  length : bitfield.length = (t.numPieces + 7) / 8
  bits : ∀ i < t.numPieces, (bitAt bitfield i = true ↔ i ∈ t.found)
  spare : ∀ i, t.numPieces ≤ i → bitAt bitfield i = false

/-- What the module keeps of a torrent is what the messages tell. -/
structure Tracks (p : PeersInfo) (t : Torrent) : Prop where
  numPieces : p.numPieces = t.numPieces
  inRange : ∀ i ∈ t.found, i < t.numPieces
  contains : ∀ i, p.status.contains i = true ↔ i ∈ t.found
  reach : p.status.storage = [] ∨ ∃ i ∈ t.found, p.status.storage.length = i / 8 + 1

namespace Tracks

variable {p : PeersInfo} {t : Torrent}

theorem new (n : Nat) : Tracks ⟨n, BitSet.new.reserveLenExact n, ∅⟩ ⟨n, []⟩ where
  numPieces := rfl
  inRange := fun i hi => (by cases hi)
  contains := fun i => ⟨fun h => (by cases h), fun h => (by cases h)⟩
  reach := Or.inl rfl

theorem peers (h : Tracks p t) (peers : HashMap PeerKey PeerInfo) : Tracks { p with peers := peers } t :=
  ⟨h.numPieces, h.inRange, h.contains, h.reach⟩

variable {i : Nat}

theorem insertPiece (h : Tracks p t) (hi : i < t.numPieces) :
    Tracks { p with status := p.status.insert i } { t with found := t.found ++ [i] } where
  numPieces := h.numPieces
  inRange := fun j hj => by
    rcases mem_append.mp hj with hj | hj
    · exact h.inRange j hj
    · rw [mem_singleton.mp hj]
      exact hi
  contains := fun j => by
    rw [BitSet.contains_insert, Bool.or_eq_true, h.contains, decide_eq_true_eq, mem_append,
      mem_singleton]
  reach := by
    refine Or.inr ?_
    show ∃ j ∈ t.found ++ [i], (p.status.insert i).storage.length = j / 8 + 1
    have hlast : i ∈ t.found ++ [i] := mem_append_right _ mem_cons_self
    rw [BitSet.length_insert]
    rcases h.reach with hempty | ⟨j, hj, hlength⟩
    · exact ⟨i, hlast, by rw [hempty, length_nil, Nat.zero_max]⟩
    · rcases Nat.le_total (i / 8) (j / 8) with hle | hle
      · exact ⟨j, mem_append_left _ hj, by omega⟩
      · exact ⟨i, hlast, by omega⟩

theorem length_le (h : Tracks p t) : p.status.storage.length ≤ (t.numPieces + 7) / 8 := by
  rcases h.reach with hempty | ⟨i, hi, hlength⟩
  · rw [hempty]
    exact Nat.zero_le _
  · have hlt := h.inRange i hi
    omega

theorem bitAt_eq_true_iff (h : Tracks p t) (i : Nat) :
    bitAt (p.status.storage.map reversedByte) i = true ↔ i ∈ t.found := by
  rw [bitAt_map_reversedByte, h.contains]

theorem bitAt_spare (h : Tracks p t) (hi : t.numPieces ≤ i) :
    bitAt (p.status.storage.map reversedByte) i = false := by
  rw [Bool.eq_false_iff]
  intro hbit
  exact absurd (h.inRange i ((h.bitAt_eq_true_iff i).mp hbit)) (Nat.not_lt.mpr hi)

theorem exactBitfield_iff (h : Tracks p t) (hsome : p.status.isEmpty = false) :
    ExactBitfield t (p.status.storage.map reversedByte) ↔ ∃ i ∈ t.found, i / 8 + 1 = (t.numPieces + 7) / 8 := by
  constructor
  · intro hexact
    have hlength := hexact.length
    rw [length_map] at hlength
    rcases h.reach with hempty | ⟨i, hi, hreach⟩
    · rw [BitSet.isEmpty, hempty] at hsome
      cases hsome
    · exact ⟨i, hi, hreach.symm.trans hlength⟩
  · rintro ⟨i, hi, hlast⟩
    have hlt := BitSet.lt_length_of_contains ((h.contains i).mpr hi)
    have hle := h.length_le
    refine ⟨?_, fun j _ => h.bitAt_eq_true_iff j, fun j hj => h.bitAt_spare hj⟩
    rw [length_map]
    omega

end Tracks

/-- The module keeps exactly the torrents that were added. -/
def TracksAll (torrents : HashMap InfoHash PeersInfo) (ledger : Ledger) : Prop :=
  ∀ hash, Option.Rel Tracks (torrents.lookup hash) (ledger.lookup hash)

namespace TracksAll

variable {torrents : HashMap InfoHash PeersInfo} {ledger : Ledger} {hash : InfoHash} {p : PeersInfo} {t : Torrent}

theorem exists_of_some (h : TracksAll torrents ledger) (hp : torrents.lookup hash = some p) :
    ∃ t, ledger.lookup hash = some t ∧ Tracks p t := by
  have hrel := h hash
  rw [hp] at hrel
  cases hledger : ledger.lookup hash with
  | none =>
    rw [hledger] at hrel
    cases hrel
  | some t =>
    rw [hledger] at hrel
    cases hrel with
    | some htracks => exact ⟨t, rfl, htracks⟩

theorem insert (h : TracksAll torrents ledger) (htracks : Tracks p t) :
    TracksAll (torrents.insert hash p) (ledger.insert hash t) := by
  intro hash'
  rw [HashMap.lookup_insert_eq, HashMap.lookup_insert_eq]
  split
  · exact .some htracks
  · exact h hash'

theorem insert_left (h : TracksAll torrents ledger) (ht : ledger.lookup hash = some t) (htracks : Tracks p t) :
    TracksAll (torrents.insert hash p) ledger := by
  intro hash'
  rw [HashMap.lookup_insert_eq]
  split
  · rename_i heq
    rw [heq, ht]
    exact .some htracks
  · exact h hash'

theorem erase (h : TracksAll torrents ledger) : TracksAll (torrents.erase hash) (ledger.erase hash) := by
  intro hash'
  rw [HashMap.lookup_erase_eq, HashMap.lookup_erase_eq]
  split
  · exact .none
  · exact h hash'

end TracksAll

/-! ### Runs -/

/-- The ledger after a call that returned a result. -/
def Ledger.afterCall (l : Ledger) (message : IRevealMessage) : Except RevealError Unit → Ledger
  | .ok () => l.record message
  | .error _ => l

/-- A bitfield shows the pieces of its torrent, of which there is at least one. -/
def Shows (t : Torrent) (bitfield : Bytes) : Prop :=
  ∃ p, Tracks p t ∧ p.status.isEmpty = false ∧ bitfield = p.status.storage.map reversedByte

/-- What is said of a message at the time it is put in the queue. -/
def SentRight (ledger : Ledger) : ORevealMessage → Prop
  | .sendBitField peer message => ∃ t, ledger.lookup peer.hash = some t ∧ Shows t message.bytes
  | .sendHave _ _ => True

namespace HonestRevealModule

variable {m m' : HonestRevealModule} {ledger : Ledger} {result : Except RevealError Unit}

/-- What one call does. -/
structure Handled (m : HonestRevealModule) (ledger : Ledger) (message : IRevealMessage)
    (result : Except RevealError Unit) (m' : HonestRevealModule) : Prop where
  tracks : TracksAll m'.torrents (ledger.afterCall message result)
  outBytes : m'.outBytes = []
  queue : ∃ pushed, m'.outQueue = m.outQueue ++ pushed ∧ ∀ o ∈ pushed, SentRight ledger o

variable {message : IRevealMessage}

theorem Handled.of_quiet (htracks : TracksAll m'.torrents (ledger.afterCall message result))
    (hbytes : m'.outBytes = []) (hqueue : m'.outQueue = m.outQueue) : Handled m ledger message result m' :=
  ⟨htracks, hbytes, [], by rw [hqueue, append_nil], fun o ho => (by cases ho)⟩

theorem Handled.of_returned {out : Except RevealError Unit × HonestRevealModule}
    (h : Handled m ledger message out.1 out.2)
    (hout : (.ok out : Run Empty (Except RevealError Unit × HonestRevealModule)) = .ok (result, m')) :
    Handled m ledger message result m' := by
  cases Except.ok.inj hout
  exact h

variable (htracks : TracksAll m.torrents ledger) (hbytes : m.outBytes = [])

include htracks hbytes

theorem handled_addTorrent (metainfo : Metainfo) :
    Handled m ledger (.control (.addTorrent metainfo)) (m.addTorrent metainfo).1 (m.addTorrent metainfo).2 := by
  unfold addTorrent
  simp only
  split
  · exact .of_quiet htracks hbytes rfl
  · exact .of_quiet (htracks.insert (Tracks.new _)) hbytes rfl

theorem handled_removeTorrent (metainfo : Metainfo) :
    Handled m ledger (.control (.removeTorrent metainfo)) (m.removeTorrent metainfo).1
      (m.removeTorrent metainfo).2 := by
  unfold removeTorrent
  simp only
  split
  · exact .of_quiet htracks hbytes rfl
  · exact .of_quiet htracks.erase hbytes rfl

theorem handled_removePeer (peer : PeerInfo) :
    Handled m ledger (.control (.peerDisconnected peer)) (m.removePeer peer).1 (m.removePeer peer).2 := by
  unfold removePeer
  simp only
  split
  · exact .of_quiet htracks hbytes rfl
  · rename_i p hp
    obtain ⟨t, ht, htracks'⟩ := htracks.exists_of_some hp
    exact .of_quiet (htracks.insert_left ht (htracks'.peers _)) hbytes rfl

theorem handled_addPeer (peer : PeerInfo) :
    Handled m ledger (.control (.peerConnected peer)) (m.addPeer peer).1 (m.addPeer peer).2 := by
  unfold addPeer
  simp only
  split
  · exact .of_quiet htracks hbytes rfl
  · rename_i p hp
    obtain ⟨t, ht, htracks'⟩ := htracks.exists_of_some hp
    have hpeer : Tracks (PeersInfo.insertPeer p peer) t := by
      unfold PeersInfo.insertPeer
      split
      · exact htracks'
      · exact htracks'.peers _
    split
    · exact .of_quiet (htracks.insert_left ht hpeer) hbytes rfl
    · rename_i hsome
      refine ⟨by simpa [push, Ledger.afterCall, Ledger.record] using htracks.insert_left ht hpeer, by simp [push],
        [.sendBitField peer ⟨insertReversedBits m.outBytes (PeersInfo.insertPeer p peer).status.storage⟩],
        by simp [push], fun o ho => ?_⟩
      rw [mem_singleton.mp ho]
      refine ⟨t, ht, _, hpeer, by simpa using hsome, ?_⟩
      rw [insertReversedBits_eq, hbytes, nil_append]

variable {order : Arrangement PeerKey}

theorem handled_insertPiece {hash : InfoHash} {index : UInt64}
    (h : m.insertPiece order hash index = .ok (result, m')) :
    Handled m ledger (.foundGoodPiece hash index) result m' := by
  unfold insertPiece at h
  split at h
  · cases h
    exact .of_quiet htracks hbytes rfl
  · rename_i p hp
    obtain ⟨t, ht, htracks'⟩ := htracks.exists_of_some hp
    split at h
    · cases h
      exact .of_quiet htracks hbytes rfl
    · rename_i hindex
      obtain ⟨m₁, hhaves, h⟩ := bind_eq_ok.mp h
      cases h
      obtain ⟨htorrents, hbytes', hqueue⟩ := sendHaves_eq_ok hhaves
      refine ⟨?_, hbytes'.trans hbytes, _, hqueue, fun o ho => ?_⟩
      · have hpiece := htracks'.insertPiece (i := index.toNat) (by rw [← htracks'.numPieces]; omega)
        simp only [Ledger.afterCall, Ledger.record, ht, htorrents]
        exact htracks.insert hpiece
      · obtain ⟨peer, -, rfl⟩ := mem_map.mp ho
        trivial

theorem handled_handleMessage
    (h : m.handleMessage order message = .ok (result, m')) : Handled m ledger message result m' := by
  cases message with
  | control message =>
    cases message with
    | addTorrent metainfo => exact (handled_addTorrent htracks hbytes metainfo).of_returned h
    | removeTorrent metainfo => exact (handled_removeTorrent htracks hbytes metainfo).of_returned h
    | peerConnected info => exact (handled_addPeer htracks hbytes info).of_returned h
    | peerDisconnected info => exact (handled_removePeer htracks hbytes info).of_returned h
    | tick duration =>
      cases h
      exact .of_quiet htracks hbytes rfl
  | foundGoodPiece hash index => exact handled_insertPiece htracks hbytes h
  | receivedBitField info message =>
    cases h
    exact .of_quiet htracks hbytes rfl
  | receivedHave info message =>
    cases h
    exact .of_quiet htracks hbytes rfl

end HonestRevealModule

inductive RevealCall where
  | startSend (order : Arrangement PeerKey) (message : IRevealMessage)
  | pollNext (waker : Waker)

/-- A module with the ledger of the calls, the messages it put in its queue, each with the ledger at that
time, and the messages that were polled. -/
structure WatchedReveal where
  module : HonestRevealModule
  ledger : Ledger
  sent : List (ORevealMessage × Ledger)
  polled : List ORevealMessage

namespace WatchedReveal

def new : WatchedReveal := ⟨.new, ∅, [], []⟩

def step (w : WatchedReveal) : RevealCall → Run Empty WatchedReveal
  | .startSend order message => do
    let (result, m) ← w.module.handleMessage order message
    let pushed := m.outQueue.drop w.module.outQueue.length
    .ok ⟨m, w.ledger.afterCall message result, w.sent ++ pushed.map (·, w.ledger), w.polled⟩
  | .pollNext waker =>
    match w.module.pollNextMessage waker with
    | (.ready message, m) => .ok { w with module := m, polled := w.polled ++ [message] }
    | (.pending, m) => .ok { w with module := m }

def run (calls : List RevealCall) : Run Empty WatchedReveal := calls.foldlM step new

structure Sound (w : WatchedReveal) : Prop where
  tracks : TracksAll w.module.torrents w.ledger
  outBytes : w.module.outBytes = []
  messages : w.sent.map Prod.fst = w.polled ++ w.module.outQueue
  right : ∀ entry ∈ w.sent, SentRight entry.2 entry.1

theorem sound_new : new.Sound where
  tracks := fun _ => .none
  outBytes := rfl
  messages := rfl
  right := fun entry h => (by cases h)

variable {w' w : WatchedReveal}

theorem Sound.step (h : w.Sound) {call : RevealCall} (hstep : w.step call = .ok w') : w'.Sound := by
  cases call with
  | startSend order message =>
    obtain ⟨⟨result, m⟩, hm, hw'⟩ := bind_eq_ok.mp hstep
    obtain ⟨htracks, hbytes, pushed, hqueue, hright⟩ :=
      HonestRevealModule.handled_handleMessage h.tracks h.outBytes hm
    cases hw'
    have hpushed : m.outQueue.drop w.module.outQueue.length = pushed := by
      rw [hqueue, drop_left]
    refine ⟨htracks, hbytes, ?_, fun entry hentry => ?_⟩
    · have hfst : (pushed.map (·, w.ledger)).map Prod.fst = pushed := by
        rw [map_map]
        exact map_id pushed
      rw [hpushed, map_append, h.messages, hfst, hqueue, append_assoc]
    · simp only [hpushed] at hentry
      rcases mem_append.mp hentry with hentry | hentry
      · exact h.right entry hentry
      · obtain ⟨o, ho, rfl⟩ := mem_map.mp hentry
        exact hright o ho
  | pollNext waker =>
    unfold WatchedReveal.step HonestRevealModule.pollNextMessage at hstep
    simp only at hstep
    cases hqueue : w.module.outQueue with
    | nil =>
      rw [hqueue] at hstep
      cases hstep
      refine ⟨h.tracks, h.outBytes, ?_, h.right⟩
      rw [h.messages, hqueue]
    | cons message outQueue =>
      rw [hqueue] at hstep
      cases hstep
      refine ⟨h.tracks, h.outBytes, ?_, h.right⟩
      rw [h.messages, hqueue, append_assoc]
      rfl

theorem Sound.foldlM (h : w.Sound) {calls : List RevealCall}
    (hrun : calls.foldlM WatchedReveal.step w = .ok w') : w'.Sound := by
  induction calls generalizing w with
  | nil =>
    cases hrun
    exact h
  | cons call calls ih =>
    obtain ⟨w₁, hstep, hrest⟩ := bind_eq_ok.mp hrun
    exact ih (h.step hstep) hrest

/-- Every bitfield that was sent shows the pieces accepted before, and it is whole if and only if one of
them is in its last byte. Its bits are right in any case. -/
theorem bitfield_exact_iff {calls : List RevealCall} {w : WatchedReveal} (h : run calls = .ok w) :
    w.sent.map Prod.fst = w.polled ++ w.module.outQueue ∧
      ∀ peer message ledger, (.sendBitField peer message, ledger) ∈ w.sent →
        ∃ t, ledger.lookup peer.hash = some t ∧
          (∀ i < t.numPieces, (bitAt message.bytes i = true ↔ i ∈ t.found)) ∧
          (∀ i, t.numPieces ≤ i → bitAt message.bytes i = false) ∧
          (ExactBitfield t message.bytes ↔ ∃ i ∈ t.found, i / 8 + 1 = (t.numPieces + 7) / 8) := by
  have hsound : w.Sound := sound_new.foldlM h
  refine ⟨hsound.messages, fun peer message ledger hmem => ?_⟩
  obtain ⟨t, ht, p, htracks, hsome, hbytes⟩ := hsound.right _ hmem
  rw [hbytes]
  exact ⟨t, ht, fun i _ => htracks.bitAt_eq_true_iff i, fun i hi => htracks.bitAt_spare hi,
    htracks.exactBitfield_iff hsome⟩

/-- A torrent of nine pieces that `localPeer` is a peer of. -/
def ninePieces : Metainfo := .ofInfo ⟨localPeer.hash, [], replicate 9 (Vector.replicate 20 0), 1, none, none⟩

/-- The torrent is added, a piece is found, and a peer comes. -/
def foundThenPeer (index : UInt64) : List RevealCall :=
  [.startSend (.listed PeerKey) (.control (.addTorrent ninePieces)),
    .startSend (.listed PeerKey) (.foundGoodPiece localPeer.hash index),
    .startSend (.listed PeerKey) (.control (.peerConnected localPeer))]

/-- With the last piece the bitfield is whole. -/
theorem bitfield_exact_last :
    ∃ w message ledger t, run (foundThenPeer 8) = .ok w ∧ (.sendBitField localPeer message, ledger) ∈ w.sent ∧
      ledger.lookup localPeer.hash = some t ∧ ExactBitfield t message.bytes := by
  have hrun : run (foundThenPeer 8) = .ok _ := rfl
  refine ⟨_, ⟨[0, 0x80]⟩, _, ⟨9, [8]⟩, hrun, mem_cons_self, rfl, ?_⟩
  obtain ⟨-, hall⟩ := bitfield_exact_iff hrun
  obtain ⟨t, ht, -, -, hexact⟩ := hall _ _ _ mem_cons_self
  cases ht
  exact hexact.mpr ⟨8, mem_cons_self, rfl⟩

/-- With the first piece only, the second byte is missing. -/
theorem bitfield_not_exact_first :
    ∃ w message ledger t, run (foundThenPeer 0) = .ok w ∧ (.sendBitField localPeer message, ledger) ∈ w.sent ∧
      ledger.lookup localPeer.hash = some t ∧ t.numPieces = 9 ∧ message.bytes = [0x80] ∧
      ¬ ExactBitfield t message.bytes := by
  refine ⟨_, ⟨[0x80]⟩, _, ⟨9, [0]⟩, rfl, mem_cons_self, rfl, rfl, rfl, fun hexact => ?_⟩
  exact absurd hexact.length (by decide)

end WatchedReveal

end BitTorrent.Select
