import BitTorrent.DhtNode
import BitTorrent.Convert
import BitTorrent.BencodeAccess

/-! The messages of the DHT protocol. Each kind of message has its own encoder and its own decoder;
requests and errors name their kind, and what a response is depends on what the transaction id was
issued for, which the caller says. The decoders read the tree a datagram was decoded to. -/

namespace BitTorrent.Dht

open Rust Bencode

/-! ### Keys -/

def transactionIdKey : Bytes := ascii "t"

def messageTypeKey : Bytes := ascii "y"

def requestTypeKey : Bytes := ascii "q"

def responseTypeKey : Bytes := ascii "r"

def errorTypeKey : Bytes := ascii "e"

def rootIdKey : Bytes := ascii "root"

def nodeIdKey : Bytes := ascii "id"

def nodesKey : Bytes := ascii "nodes"

def valuesKey : Bytes := ascii "values"

def targetIdKey : Bytes := ascii "target"

def infoHashKey : Bytes := ascii "info_hash"

def tokenKey : Bytes := ascii "token"

def requestArgsKey : Bytes := ascii "a"

def responseArgsKey : Bytes := ascii "r"

def errorArgsKey : Bytes := ascii "e"

def portKey : Bytes := ascii "port"

def impliedPortKey : Bytes := ascii "implied_port"

def pingTypeKey : Bytes := ascii "ping"

def findNodeTypeKey : Bytes := ascii "find_node"

def getPeersTypeKey : Bytes := ascii "get_peers"

def announcePeerTypeKey : Bytes := ascii "announce_peer"

/-! ### Errors -/

inductive ErrorCode where
  | genericError
  | serverError
  | protocolError
  | methodUnknown
  deriving DecidableEq, Repr

structure ErrorMessage where
  transId : Bytes
  code : ErrorCode
  message : Str
  deriving DecidableEq

inductive DhtError where
  | bencode (error : BencodeConvertError)
  | invalidMessage (code : Str)
  | invalidResponse (details : String)
  | unsolicitedResponse
  | invalidRequest (msg : ErrorMessage)
  deriving DecidableEq

/-- `{:?}` of a byte slice. -/
def debugBytes (bytes : Bytes) : String := "[" ++ ", ".intercalate (bytes.map toString) ++ "]"

namespace ErrorCode

def toByte : ErrorCode → UInt8
  | .genericError => 201
  | .serverError => 202
  | .protocolError => 203
  | .methodUnknown => 204

def new (code : UInt8) : Run DhtError ErrorCode :=
  if code = 201 then .ok .genericError
  else if code = 202 then .ok .serverError
  else if code = 203 then .ok .protocolError
  else if code = 204 then .ok .methodUnknown
  else fail (.invalidResponse ("Error Message Invalid Error Code " ++ toString code))

theorem returns_new (code : UInt8) : Returns (new code) := by
  unfold new
  split
  · exact .ok _
  · split
    · exact .ok _
    · split
      · exact .ok _
      · split
        · exact .ok _
        · exact .fail _

end ErrorCode

namespace ErrorMessage

def numErrorArgs : Nat := 2

def extractErrorArgs (args : List Inner) : Run DhtError (UInt8 × Str) := do
  if args.length ≠ numErrorArgs then
    fail (.invalidResponse ("Error Message Invalid Number Of Error Args: " ++ toString args.length))
  else
    let code ← convertInt .bencode (← index args 0) (ascii "e[0]")
    let message ← convertStr .bencode (← index args 1) (ascii "e[1]")
    return (UInt8.ofNat code.toInt.natAbs, message)

def fromParts (root : List (Bytes × Inner)) (transId : Bytes) : Run DhtError ErrorMessage := do
  let errorArgs ← lookupAndConvertList .bencode root errorArgsKey
  let (code, message) ← extractErrorArgs errorArgs
  let errorCode ← ErrorCode.new code
  return ⟨transId, errorCode, message⟩

theorem returns_extractErrorArgs (args : List Inner) : Returns (extractErrorArgs args) := by
  unfold extractErrorArgs
  split
  · exact .fail _
  · rename_i hlen
    obtain ⟨code, message, rfl⟩ := List.length_eq_two.mp (not_not.mp hlen)
    refine (returns_convert _ _ _ _ _).bind fun code => ?_
    exact (returns_convert _ _ _ _ _).bind fun message => .ok _

theorem returns_fromParts (root : List (Bytes × Inner)) (transId : Bytes) :
    Returns (fromParts root transId) := by
  refine (returns_lookupAndConvertList _ _ _).bind fun errorArgs => ?_
  refine (returns_extractErrorArgs errorArgs).bind fun (code, message) => ?_
  exact (ErrorCode.returns_new code).bind fun errorCode => .ok _

def bencode (m : ErrorMessage) : Inner :=
  benMap [(transactionIdKey, .bytes m.transId), (messageTypeKey, .bytes errorTypeKey),
    (errorTypeKey, .list [.int (Int64.ofNat m.code.toByte.toNat), .bytes m.message.bytes])]

def encode (m : ErrorMessage) : Bytes := Bencode.encode m.bencode

end ErrorMessage

/-! ### Compact lists of nodes and peers -/

def bytesPerCompactIp : Nat := 6

def bytesPerCompactNodeInfo : Nat := 26

/-- The address in the six bytes. -/
def socketV4 (bytes : Vector UInt8 6) : SocketAddr :=
  let port := (0 : UInt16) ||| bytes[4].toUInt16
  let port := port <<< 8
  .v4 #v[bytes[0], bytes[1], bytes[2], bytes[3]] (port ||| bytes[5].toUInt16)

def socketV4FromBytesBe (bytes : Bytes) : Except LengthError SocketAddr :=
  if h : bytes.length = bytesPerCompactIp then .ok (socketV4 ⟨bytes.toArray, h⟩)
  else .error (.new .lengthExpected bytesPerCompactIp)

/-- The parts of 26 bytes. -/
def partsFromCompactInfo (compactInfo : Bytes) (h : compactInfo.length = bytesPerCompactNodeInfo) :
    NodeId × SocketAddr :=
  (⟨compactInfo.take shaHashLen, by simp [h, bytesPerCompactNodeInfo, shaHashLen]⟩,
    socketV4 ⟨(compactInfo.drop shaHashLen).toArray,
      by simp [h, bytesPerCompactNodeInfo, shaHashLen]⟩)

structure CompactNodeInfo where
  nodes : Bytes
  multiple : nodes.length % bytesPerCompactNodeInfo = 0
  deriving DecidableEq

namespace CompactNodeInfo

def empty : CompactNodeInfo := ⟨[], rfl⟩

def new (nodes : Bytes) : Except LengthError CompactNodeInfo :=
  if h : nodes.length % bytesPerCompactNodeInfo = 0 then .ok ⟨nodes, h⟩
  else .error (.new .lengthMultipleExpected bytesPerCompactNodeInfo)

def toList (c : CompactNodeInfo) : List (NodeId × SocketAddr) :=
  List.ofFn fun i : Fin (c.nodes.length / bytesPerCompactNodeInfo) =>
    partsFromCompactInfo ((c.nodes.drop (i * bytesPerCompactNodeInfo)).take bytesPerCompactNodeInfo) (by
      have hi := i.isLt
      simp only [List.length_take, List.length_drop, bytesPerCompactNodeInfo] at *
      omega)

end CompactNodeInfo

/-- Values are byte strings of six bytes. -/
structure CompactValueInfo where
  values : List Inner
  compact : ∀ v ∈ values, ∃ b, v = .bytes b ∧ b.length = bytesPerCompactIp

namespace CompactValueInfo

/-- The check of one value. Values that are not bytes make it panic. -/
def checkValue (index : Nat) (node : Inner) : Run LengthError Unit :=
  match node.asBytes with
  | none => .error .panic
  | some compactValue =>
    if compactValue.length ≠ bytesPerCompactIp then
      fail ⟨.lengthExpected, bytesPerCompactIp, some index⟩
    else .ok ()

def checkValues : Nat → List Inner → Run LengthError Unit
  | _, [] => .ok ()
  | index, node :: values => do
    checkValue index node
    checkValues (index + 1) values

theorem checkValue_eq_ok (index : Nat) {v : Inner} :
    checkValue index v = .ok () ↔ ∃ b, v = .bytes b ∧ b.length = bytesPerCompactIp := by
  cases v with
  | bytes b =>
    simp only [checkValue, Inner.asBytes]
    split
    · rename_i hlen
      exact iff_of_false (fail_ne_ok _ _) (by rintro ⟨b', heq, hb'⟩; cases heq; exact hlen hb')
    · rename_i hlen
      exact iff_of_true rfl ⟨b, rfl, not_not.mp hlen⟩
  | int n => exact iff_of_false (by rintro ⟨⟩) (by rintro ⟨b, ⟨⟩, -⟩)
  | list l => exact iff_of_false (by rintro ⟨⟩) (by rintro ⟨b, ⟨⟩, -⟩)
  | dict d => exact iff_of_false (by rintro ⟨⟩) (by rintro ⟨b, ⟨⟩, -⟩)

variable {values : List Inner}

theorem checkValues_eq_ok {index : Nat} : checkValues index values = .ok () ↔
      ∀ v ∈ values, ∃ b, v = .bytes b ∧ b.length = bytesPerCompactIp := by
  induction values generalizing index with
  | nil => exact iff_of_true rfl fun v hv => absurd hv List.not_mem_nil
  | cons node values ih =>
    rw [checkValues, bind_eq_ok, List.forall_mem_cons, ← checkValue_eq_ok index, ← ih]
    exact ⟨fun ⟨_, hnode, hrest⟩ => ⟨hnode, hrest⟩, fun ⟨hnode, hrest⟩ => ⟨(), hnode, hrest⟩⟩

def new (values : List Inner) : Run LengthError CompactValueInfo :=
  match h : checkValues 0 values with
  | .ok () => .ok ⟨values, checkValues_eq_ok.mp h⟩
  | .error e => .error e

theorem returns_checkValues (index : Nat)
    (hbytes : ∀ v ∈ values, v.asBytes.isSome) : Returns (checkValues index values) := by
  induction values generalizing index with
  | nil => exact .ok ()
  | cons v values ih =>
    obtain ⟨hv, hvalues⟩ := List.forall_mem_cons.mp hbytes
    refine Returns.bind ?_ fun _ => ih (index + 1) hvalues
    obtain ⟨compactValue, hv⟩ := Option.isSome_iff_exists.mp hv
    simp only [checkValue, hv]
    split
    · exact .fail _
    · exact .ok ()

theorem returns_new (hbytes : ∀ v ∈ values, v.asBytes.isSome) : Returns (new values) := by
  have hcheck := returns_checkValues 0 hbytes
  unfold new
  split
  · exact .ok _
  · rename_i e heq
    rcases hcheck with ⟨_, hcheck⟩ | ⟨e', hcheck⟩
    · rw [hcheck] at heq
      cases heq
    · rw [hcheck] at heq
      cases heq
      exact .fail e'

def toList (c : CompactValueInfo) : List SocketAddr :=
  c.values.filterMap fun v => v.asBytes.bind fun b => (socketV4FromBytesBe b).toOption

end CompactValueInfo

end BitTorrent.Dht
