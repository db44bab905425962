import BitTorrent.HandshakeFilter
import Mathlib.Data.Nat.Bitwise

/-! What each end of a handshake makes of the message it gets. The end that initiated compares the answer with
what it asked for; the other end takes protocol and info hash from the message and sends them back. -/

namespace BitTorrent.Handshake

open Rust

open Dht (SocketAddr InfoHash)

namespace Extensions

/-- The bit of an extension, counted from the highest bit of the first byte. -/
def contains (e : Extensions) (activeBit : Nat) : Bool :=
  e.bytes.getD (activeBit / 8) 0 &&& (0x80 >>> UInt8.ofNat (activeBit % 8)) != 0

variable {i : Nat}

theorem toNat_mask (h : i < 8) : ((0x80 : UInt8) >>> UInt8.ofNat i).toNat = 2 ^ (7 - i) := by
  interval_cases i <;> rfl

theorem and_mask_ne_zero (b : UInt8) (h : i < 8) :
    (b &&& (0x80 >>> UInt8.ofNat i) != 0) = b.toNat.testBit (7 - i) := by
  rw [Bool.eq_iff_iff, bne_iff_ne, ne_eq, ← UInt8.toNat_inj, UInt8.toNat_and, toNat_mask h, Nat.and_two_pow]
  cases b.toNat.testBit (7 - i) <;> simp

theorem contains_union (a b : Extensions) (activeBit : Nat) :
    (a.union b).contains activeBit = (a.contains activeBit && b.contains activeBit) := by
  have hbit := Nat.mod_lt activeBit (show 8 > 0 by decide)
  have hbyte : (a.union b).bytes.getD (activeBit / 8) 0 =
      a.bytes.getD (activeBit / 8) 0 &&& b.bytes.getD (activeBit / 8) 0 := by
    simp only [union, List.getD_eq_getElem?_getD, List.getElem?_zipWith]
    cases ha : a.bytes[activeBit / 8]? with
    | none => simp
    | some x =>
      cases hb : b.bytes[activeBit / 8]? with
      | none => simp
      | some y => rfl
  rw [contains, contains, contains, hbyte, and_mask_ne_zero _ hbit, and_mask_ne_zero _ hbit, and_mask_ne_zero _ hbit,
    UInt8.toNat_and, Nat.testBit_and]

end Extensions

structure InitiateMessage where
  prot : Protocol
  hash : InfoHash
  addr : SocketAddr

structure CompleteMessage where
  prot : Protocol
  ext : Extensions
  hash : InfoHash
  pid : PeerId
  addr : SocketAddr
  deriving DecidableEq

inductive HandshakeError where
  /-- The connection could not be made or accepted. -/
  | transport
  | other (text : String)
  deriving DecidableEq

/-- What the handshakes of one client have in common. -/
structure Context where
  ext : Extensions
  pid : PeerId
  filters : List HandshakeFilter

namespace Context

/-- The end of `initiate_handshake`, with the answer. -/
def checkAnswer (ctx : Context) (init : InitiateMessage) (msg : HandshakeMessage) :
    Run HandshakeError CompleteMessage :=
  if msg.hash ≠ init.hash then fail (.other "not matching hash")
  else if msg.prot ≠ init.prot then fail (.other "not matching port")
  else if shouldFilter (some init.addr) (some msg.prot) (some msg.ext) (some msg.hash) (some msg.pid) ctx.filters then
    fail (.other "should not filter")
  else .ok ⟨init.prot, ctx.ext.union msg.ext, init.hash, msg.pid, init.addr⟩

/-- What `complete_handshake` makes of the message it gets, before it answers. -/
def admits (ctx : Context) (addr : SocketAddr) (msg : HandshakeMessage) : Run HandshakeError CompleteMessage :=
  if shouldFilter (some addr) (some msg.prot) (some msg.ext) (some msg.hash) (some msg.pid) ctx.filters then
    fail (.other "should not filter")
  else .ok ⟨msg.prot, ctx.ext.union msg.ext, msg.hash, msg.pid, addr⟩

def request {ε : Type} (ctx : Context) (init : InitiateMessage) : Run ε HandshakeMessage :=
  HandshakeMessage.fromParts init.prot ctx.ext init.hash ctx.pid

def answer {ε : Type} (ctx : Context) (complete : CompleteMessage) : Run ε HandshakeMessage :=
  HandshakeMessage.fromParts complete.prot ctx.ext complete.hash ctx.pid

variable {complete : CompleteMessage} {msg : HandshakeMessage} {ctx : Context}

theorem checkAnswer_eq_ok {init : InitiateMessage} (h : ctx.checkAnswer init msg = .ok complete) :
    msg.hash = init.hash ∧ msg.prot = init.prot ∧
      complete = ⟨init.prot, ctx.ext.union msg.ext, init.hash, msg.pid, init.addr⟩ := by
  unfold checkAnswer at h
  split at h
  · cases h
  · rename_i hhash
    split at h
    · cases h
    · rename_i hprot
      split at h <;> cases h
      exact ⟨not_not.mp hhash, not_not.mp hprot, rfl⟩

theorem admits_eq_ok {addr : SocketAddr} (h : ctx.admits addr msg = .ok complete) :
    complete = ⟨msg.prot, ctx.ext.union msg.ext, msg.hash, msg.pid, addr⟩ := by
  unfold admits at h
  split at h <;> cases h
  rfl

end Context

/-! ### Whole handshakes -/

/-- A message as it comes from a connection. -/
abbrev ReadMessage := { m : HandshakeMessage // m.IsShort }

instance (m : HandshakeMessage) : Decidable m.IsShort := inferInstanceAs (Decidable (_ ≤ 255))

/-- What happens on a connection: whether our message could not be sent in time, and the message of the peer, if
there is one in time and the connection did not break before. -/
structure Conversation where
  sendTimedOut : Bool
  received : Option ReadMessage
  deriving DecidableEq

def initiateHandshake (ctx : Context) (sock : Conversation) (init : InitiateMessage) :
    Run HandshakeError (Option CompleteMessage) := do
  let _ ← ctx.request init
  if sock.sendTimedOut then .ok none
  else
    match sock.received with
    | some msg => (ctx.checkAnswer init msg.1).map some
    | none => .ok none

def completeHandshake (ctx : Context) (sock : Conversation) (addr : SocketAddr) :
    Run HandshakeError (Option CompleteMessage) :=
  match sock.received with
  | none => .ok none
  | some msg => do
    let complete ← ctx.admits addr msg.1
    let _ ← ctx.answer complete
    if sock.sendTimedOut then .ok none else .ok (some complete)

section

variable {ctx : Context} {init : InitiateMessage} {addr : SocketAddr} {complete : CompleteMessage} {msg : ReadMessage}

theorem answer_of_admits {ε : Type} (h : ctx.admits addr msg.1 = .ok complete) :
    (ctx.answer complete : Run ε _) = .ok ⟨msg.1.prot, ctx.ext, msg.1.hash, ctx.pid⟩ := by
  rw [Context.admits_eq_ok h]
  exact HandshakeMessage.fromParts_of_isShort (m := ⟨msg.1.prot, ctx.ext, msg.1.hash, ctx.pid⟩) msg.2

theorem completeHandshake_of_admits (h : ctx.admits addr msg.1 = .ok complete) (sendTimedOut : Bool) :
    completeHandshake ctx ⟨sendTimedOut, some msg⟩ addr = .ok (if sendTimedOut then none else some complete) := by
  simp only [completeHandshake, h, answer_of_admits h, ok_bind]
  cases sendTimedOut <;> rfl

theorem completeHandshake_of_not_admits {e : Fault HandshakeError} (h : ctx.admits addr msg.1 = .error e) :
    completeHandshake ctx ⟨false, some msg⟩ addr = .error e := by
  simp only [completeHandshake, h]
  rfl

variable {sock : Conversation}

theorem initiateHandshake_eq_some (h : initiateHandshake ctx sock init = .ok (some complete)) :
    ∃ msg, sock.received = some msg ∧ ctx.checkAnswer init msg.1 = .ok complete := by
  obtain ⟨request, -, h⟩ := bind_eq_ok.mp h
  split at h
  · cases h
  · cases hreceived : sock.received with
    | none =>
      rw [hreceived] at h
      cases h
    | some msg =>
      refine ⟨msg, rfl, ?_⟩
      rw [hreceived] at h
      cases hcheck : ctx.checkAnswer init msg.1 with
      | error e =>
        simp only [hcheck] at h
        cases h
      | ok complete' =>
        simp only [hcheck] at h
        cases h
        rfl

theorem completeHandshake_eq_some (h : completeHandshake ctx sock addr = .ok (some complete)) :
    ∃ msg, sock.received = some msg ∧ ctx.admits addr msg.1 = .ok complete := by
  unfold completeHandshake at h
  split at h
  · cases h
  · rename_i msg hreceived
    obtain ⟨complete', hadmits, h⟩ := bind_eq_ok.mp h
    obtain ⟨answer, -, h⟩ := bind_eq_ok.mp h
    split at h <;> cases h
    exact ⟨msg, hreceived, hadmits⟩

end

end BitTorrent.Handshake
