import BitTorrent.DhtNode
import BitTorrent.RustNom
import BitTorrent.RustText

/-! The handshake message: the length of the protocol name in one byte, the name, eight bytes of extension
bits, an info hash and a peer id. The name of the usual protocol is read as that protocol, however it was
written. -/

namespace BitTorrent.Handshake

open Rust List

open Dht (SocketAddr InfoHash)

abbrev PeerId := ShaHash

/-! ### Protocols -/

def btProtocol : Bytes := ascii "BitTorrent protocol"

def btProtocolLen : Nat := 19

inductive Protocol where
  | bitTorrent
  | custom (prot : Bytes)
  deriving DecidableEq

namespace Protocol

def written : Protocol → Nat × Bytes
  | bitTorrent => (btProtocolLen, btProtocol)
  | custom prot => (prot.length, prot)

/-- Writing into memory does not fail; the length is cut to a byte. -/
def writeBytesSync (p : Protocol) : Bytes := UInt8.ofNat p.written.1 :: p.written.2

def writeLen : Protocol → Nat
  | bitTorrent => btProtocolLen
  | custom prot => prot.length

/-- The protocol of a name that was read. -/
def ofName (rawProtocol : Bytes) : Protocol :=
  if rawProtocol = btProtocol then bitTorrent else custom rawProtocol

/-- The first byte is read by index before the parser runs. -/
def fromBytes (bytes : Buffer) : Run Nom.Err (Buffer × Protocol) :=
  match bytes.data[0]? with
  | none => .error .panic
  | some length => do
    let (remaining, _, rawProtocol) ← Nom.pair Nom.beU8 (Nom.take length.toNat) bytes
    .ok (remaining, ofName rawProtocol.data)

end Protocol

/-! ### Extensions -/

def numExtensionBytes : Nat := 8

structure Extensions where
  bytes : Bytes
  size : bytes.length = numExtensionBytes
  deriving DecidableEq

namespace Extensions

def new : Extensions := ⟨replicate numExtensionBytes 0, length_replicate⟩

/-- The extensions that both have. -/
def union (a b : Extensions) : Extensions :=
  ⟨zipWith (· &&& ·) a.bytes b.bytes, by rw [length_zipWith, a.size, b.size, Nat.min_self]⟩

def fromBytes (bytes : Buffer) : Run Nom.Err (Buffer × Extensions) := do
  let (remaining, bytes) ← Nom.take numExtensionBytes bytes
  if h : bytes.data.length = numExtensionBytes then .ok (remaining, ⟨bytes.data, h⟩) else .error .panic

theorem union_comm (a b : Extensions) : a.union b = b.union a := by
  simp only [union, mk.injEq]
  exact zipWith_comm_of_comm UInt8.and_comm

end Extensions

/-! ### Messages -/

structure HandshakeMessage where
  prot : Protocol
  ext : Extensions
  hash : InfoHash
  pid : PeerId
  deriving DecidableEq

def writeLenWithProtocolLen (protocolLen : UInt8) : Nat :=
  1 + protocolLen.toNat + numExtensionBytes + shaHashLen + shaHashLen

namespace HandshakeMessage

/-- A name whose length is no byte ends the program. -/
def fromParts {ε : Type} (prot : Protocol) (ext : Extensions) (hash : InfoHash) (pid : PeerId) :
    Run ε HandshakeMessage :=
  match prot with
  | .custom custom => if custom.length ≤ 255 then .ok ⟨prot, ext, hash, pid⟩ else .error .panic
  | .bitTorrent => .ok ⟨prot, ext, hash, pid⟩

def writeBytesSync (m : HandshakeMessage) : Bytes :=
  m.prot.writeBytesSync ++ m.ext.bytes ++ m.hash.hash ++ m.pid.hash

def writeLen (m : HandshakeMessage) : Nat := writeLenWithProtocolLen (UInt8.ofNat m.prot.writeLen)

/-- Both `parse_remote_hash` and `parse_remote_pid`. -/
def parseRemoteHash : Nom.Parser ShaHash :=
  Nom.mapRes (Nom.take shaHashLen) fun hash => ShaHash.fromHash hash.data

def parseRemoteHandshake (bytes : Buffer) : Run Nom.Err HandshakeMessage := do
  let (_, prot, ext, hash, pid) ← mapErr Nom.Err.forgetInput
    (Nom.pair Protocol.fromBytes (Nom.pair Extensions.fromBytes (Nom.pair parseRemoteHash parseRemoteHash)) bytes)
  fromParts prot ext hash pid

def fromBytes (bytes : Buffer) : Run Nom.Err HandshakeMessage := parseRemoteHandshake bytes

def asRead (m : HandshakeMessage) : HandshakeMessage := { m with prot := .ofName m.prot.written.2 }

end HandshakeMessage

/-! ### Reading what was written -/

theorem length_btProtocol : btProtocol.length ≤ 255 := by decide

theorem Protocol.written_fst (p : Protocol) : p.written.1 = p.written.2.length := by
  cases p <;> rfl

theorem Protocol.writeLen_eq (p : Protocol) : p.writeLen = p.written.2.length := by
  cases p <;> rfl

section

variable {bytes : Buffer} {front back : Bytes}

theorem take_of_append {n : Nat} (h : bytes.data = front ++ back) (hn : front.length = n) :
    ∃ rest first, Nom.take n bytes = .ok (rest, first) ∧ rest.data = back ∧ first.data = front := by
  subst hn
  refine ⟨bytes.drop front.length, bytes.take front.length, ?_, ?_, ?_⟩
  · rw [Nom.take, if_pos (by rw [Buffer.len, h, length_append]; exact Nat.le_add_right _ _)]
  · rw [Buffer.data_drop, h, drop_left]
  · show bytes.data.take front.length = front
    rw [h, take_left]

theorem Protocol.fromBytes_of_append {p : Protocol} (hp : p.written.2.length ≤ 255)
    (h : bytes.data = p.writeBytesSync ++ back) :
    ∃ rest, Protocol.fromBytes bytes = .ok (rest, .ofName p.written.2) ∧ rest.data = back := by
  have hhead : bytes.data[0]? = some (UInt8.ofNat p.written.1) := by
    rw [h]
    rfl
  have hlength : (UInt8.ofNat p.written.1).toNat = p.written.2.length := by
    rw [p.written_fst, UInt8.toNat_ofNat']
    omega
  have hrest : (bytes.drop 1).data = p.written.2 ++ back := by
    rw [Buffer.data_drop, h]
    rfl
  obtain ⟨rest, first, htake, hback, hfirst⟩ := take_of_append hrest hlength.symm
  refine ⟨rest, ?_, hback⟩
  rw [Protocol.fromBytes, hhead]
  simp only
  rw [Nom.pair_of_ok (Nom.beU8_of_getElem? hhead) htake, ok_bind, hfirst]

theorem Extensions.fromBytes_of_append (ext : Extensions) (h : bytes.data = ext.bytes ++ back) :
    ∃ rest, Extensions.fromBytes bytes = .ok (rest, ext) ∧ rest.data = back := by
  obtain ⟨rest, first, htake, hback, hfirst⟩ := take_of_append h ext.size
  refine ⟨rest, ?_, hback⟩
  rw [Extensions.fromBytes, htake, ok_bind]
  simp only [hfirst, ext.size, dif_pos]

theorem parseRemoteHash_of_append (hash : ShaHash) (h : bytes.data = hash.hash ++ back) :
    ∃ rest, HandshakeMessage.parseRemoteHash bytes = .ok (rest, hash) ∧ rest.data = back := by
  obtain ⟨rest, first, htake, hback, hfirst⟩ := take_of_append h hash.size
  refine ⟨rest, ?_, hback⟩
  rw [HandshakeMessage.parseRemoteHash, Nom.mapRes, htake, ok_bind]
  simp only [hfirst, ShaHash.fromHash, hash.size, dif_pos]

end

namespace HandshakeMessage

variable {m : HandshakeMessage}

/-- The name is short enough for its length to be a byte. -/
def IsShort (m : HandshakeMessage) : Prop := m.prot.written.2.length ≤ 255

theorem isShort_of_fromParts {ε : Type} {prot : Protocol} {ext : Extensions} {hash : InfoHash} {pid : PeerId}
    (h : (fromParts prot ext hash pid : Run ε HandshakeMessage) = .ok m) :
    m = ⟨prot, ext, hash, pid⟩ ∧ m.IsShort := by
  unfold fromParts at h
  split at h
  · split at h
    · rename_i custom hle
      cases h
      exact ⟨rfl, hle⟩
    · cases h
  · cases h
    exact ⟨rfl, length_btProtocol⟩

theorem fromParts_of_isShort {ε : Type} (h : m.IsShort) :
    (fromParts m.prot m.ext m.hash m.pid : Run ε HandshakeMessage) = .ok m := by
  obtain ⟨prot, ext, hash, pid⟩ := m
  cases prot with
  | bitTorrent => rfl
  | custom prot => exact if_pos h

theorem IsShort.toNat_length (h : m.IsShort) : (UInt8.ofNat m.prot.written.1).toNat = m.prot.written.2.length := by
  rw [m.prot.written_fst, UInt8.toNat_ofNat']
  exact Nat.mod_eq_of_lt (Nat.lt_succ_of_le h)

theorem IsShort.length_writeBytesSync (h : m.IsShort) : m.writeBytesSync.length = m.writeLen := by
  rw [writeLen, writeLenWithProtocolLen, m.prot.writeLen_eq, ← m.prot.written_fst, h.toNat_length]
  simp only [writeBytesSync, Protocol.writeBytesSync, length_append, length_cons, m.ext.size, m.hash.size,
    m.pid.size]
  omega

theorem asRead_isShort (h : m.IsShort) : m.asRead.IsShort := by
  unfold IsShort asRead Protocol.ofName
  split
  · exact length_btProtocol
  · exact h

theorem written_asRead : m.asRead.prot.written.2 = m.prot.written.2 := by
  unfold asRead Protocol.ofName
  split
  · rename_i hname
    exact hname.symm
  · rfl

theorem IsShort.fromBytes_of_writeBytesSync (h : m.IsShort) {bytes : Buffer}
    (hbytes : bytes.data = m.writeBytesSync) : fromBytes bytes = .ok m.asRead := by
  have hdata : bytes.data = m.prot.writeBytesSync ++ (m.ext.bytes ++ (m.hash.hash ++ (m.pid.hash ++ []))) := by
    rw [hbytes, writeBytesSync, append_nil, append_assoc, append_assoc]
  obtain ⟨rest₁, hprot, hrest₁⟩ := Protocol.fromBytes_of_append h hdata
  obtain ⟨rest₂, hext, hrest₂⟩ := Extensions.fromBytes_of_append m.ext hrest₁
  obtain ⟨rest₃, hhash, hrest₃⟩ := parseRemoteHash_of_append m.hash hrest₂
  obtain ⟨rest₄, hpid, -⟩ := parseRemoteHash_of_append m.pid hrest₃
  have hall := Nom.pair_of_ok hprot (Nom.pair_of_ok hext (Nom.pair_of_ok hhash hpid))
  rw [fromBytes, parseRemoteHandshake, mapErr_eq_ok.mpr hall, ok_bind]
  exact fromParts_of_isShort (asRead_isShort h)

end HandshakeMessage

end BitTorrent.Handshake
