import BitTorrent.PeerStandard
import BitTorrent.DhtToken
import BitTorrent.RustHashMap

/-! The messages announced by the bits of the handshake: the port of a DHT node, and the extended
handshake, a dictionary that assigns an id to every extension a peer supports. An extended message
keeps the bytes it was read from, or built as. -/

namespace BitTorrent.Peer

open Rust Bencode

open Dht (IpAddr)

def portMessageLen : UInt32 := 3

def baseExtendedMessageLen : UInt32 := 6

def portMessageId : UInt8 := 9

def extendedMessageId : UInt8 := 20

def extendedMessageHandshakeId : UInt8 := 0

structure PortMessage where
  port : UInt16
  deriving DecidableEq

namespace PortMessage

def parseBytes : Nom.Parser PortMessage := Nom.map Nom.beU16 fun port => .ok ⟨port⟩

def writeBytes (msg : PortMessage) : Run IoError Written :=
  let header := writeLengthIdPair portMessageLen (some portMessageId)
  .ok ⟨header.bytes ++ toBytesBe 2 msg.port.toNat, header.count + 2⟩

end PortMessage

/-! ### Extended messages -/

inductive ExtendedType where
  | utMetadata
  | utPex
  | custom (id : Str)
  deriving DecidableEq

namespace ExtendedType

def utMetadataId : Str := .ofAscii "ut_metadata"

def utPexId : Str := .ofAscii "ut_pex"

def fromId (id : Str) : ExtendedType :=
  if id = utMetadataId then .utMetadata else if id = utPexId then .utPex else .custom id

def id : ExtendedType → Str
  | .utMetadata => utMetadataId
  | .utPex => utPexId
  | .custom id => id

end ExtendedType

def idMapKey : Bytes := ascii "m"

def clientIdKey : Bytes := ascii "v"

def clientTcpPortKey : Bytes := ascii "p"

def ourIpKey : Bytes := ascii "yourip"

def clientIpv6AddrKey : Bytes := ascii "ipv6"

def clientIpv4AddrKey : Bytes := ascii "ipv4"

def clientMaxRequestsKey : Bytes := ascii "reqq"

def metadataSizeKey : Bytes := ascii "metadata_size"

section

variable (root : List (Bytes × Inner))

/-- One round of the loop of `parse_id_map`. -/
def insertId (idMap : HashMap ExtendedType UInt8) (entry : Bytes × Inner) :
    Run IoError (HashMap ExtendedType UInt8) :=
  match Str.fromUtf8 entry.1, (convertInt IoError.convert entry.2 entry.1).toOption with
  | some strId, some value => do
    let value ← unwrapSome (tryUint 8 value.toInt)
    .ok (idMap.insert (.fromId strId) (UInt8.ofNat value))
  | _, _ => .ok idMap

def parseIdMap : Run IoError (HashMap ExtendedType UInt8) :=
  match (lookupAndConvertDict IoError.convert root idMapKey).toOption with
  | some benIdMap => benIdMap.foldlM insertId ∅
  | none => .ok ∅

def parseClientId : Option Str := (lookupAndConvertStr IoError.convert root clientIdKey).toOption

def parseClientTcpPort : Option UInt16 :=
  (lookupAndConvertInt IoError.convert root clientTcpPortKey).toOption.bind fun port =>
    (tryUint 16 port.toInt).map UInt16.ofNat

def parseIpv4Addr (ipv4Bytes : Bytes) : Option Ipv4Addr :=
  if h : ipv4Bytes.length = 4 then some (bytesBeToIpv4 ⟨ipv4Bytes.toArray, h⟩) else none

def parseIpv6Addr (ipv6Bytes : Bytes) : Option Ipv6Addr :=
  if h : ipv6Bytes.length = 16 then some (bytesBeToIpv6 ⟨ipv6Bytes.toArray, h⟩) else none

def parseOurIp : Option IpAddr :=
  (lookupAndConvertBytes IoError.convert root ourIpKey).toOption.bind fun ipBytes =>
    if ipBytes.length = 4 then (parseIpv4Addr ipBytes).map .v4 else (parseIpv6Addr ipBytes).map .v6

def parseClientIpv6Addr : Option Ipv6Addr :=
  (lookupAndConvertBytes IoError.convert root clientIpv6AddrKey).toOption.bind parseIpv6Addr

def parseClientIpv4Addr : Option Ipv4Addr :=
  (lookupAndConvertBytes IoError.convert root clientIpv4AddrKey).toOption.bind parseIpv4Addr

def parseClientMaxRequests : Option Int64 :=
  (lookupAndConvertInt IoError.convert root clientMaxRequestsKey).toOption

def parseMetadataSize : Option Int64 :=
  (lookupAndConvertInt IoError.convert root metadataSizeKey).toOption

end

structure ExtendedMessageBuilder where
  idMap : HashMap ExtendedType UInt8 := ∅
  ourId : Option Str := none
  ourTcpPort : Option UInt16 := none
  theirIp : Option IpAddr := none
  ourIpv6Addr : Option Ipv6Addr := none
  ourIpv4Addr : Option Ipv4Addr := none
  ourMaxRequests : Option Int64 := none
  metadataSize : Option Int64 := none
  customEntries : HashMap Str BencodeMut := ∅

namespace ExtendedMessageBuilder

def new : ExtendedMessageBuilder := {}

def withExtendedType (builder : ExtendedMessageBuilder) (extType : ExtendedType)
    (optValue : Option UInt8) : ExtendedMessageBuilder :=
  match optValue with
  | some value => { builder with idMap := builder.idMap.insert extType value }
  | none => { builder with idMap := builder.idMap.erase extType }

/-- The insertions into the dictionary of ids. -/
def idEntries (builder : ExtendedMessageBuilder) : List (Bytes × Inner) :=
  builder.idMap.entries.map fun e => (e.1.id.bytes, .int (Int64.ofNat e.2.toNat))

/-- `convert` of an address to bytes in network order. -/
def ipBytes : IpAddr → Bytes
  | .v4 addr => ipv4ToBytesBe addr
  | .v6 addr => ipv6ToBytesBe addr

/-- The insertions into the dictionary of the message, in order. -/
def rootEntries (builder : ExtendedMessageBuilder) : List (Bytes × Inner) :=
  [(idMapKey, benMap builder.idEntries)] ++
  (builder.customEntries.entries.map fun e => (e.1.bytes, e.2.inner)) ++
  (builder.ourId.map fun clientId => (clientIdKey, Inner.bytes clientId.bytes)).toList ++
  (builder.ourTcpPort.map fun tcpPort =>
    (clientTcpPortKey, Inner.int (Int64.ofNat tcpPort.toNat))).toList ++
  (builder.theirIp.map fun ourIp => (ourIpKey, Inner.bytes (ipBytes ourIp))).toList ++
  (builder.ourIpv6Addr.map fun addr => (clientIpv6AddrKey, Inner.bytes (ipv6ToBytesBe addr))).toList ++
  (builder.ourIpv4Addr.map fun addr => (clientIpv4AddrKey, Inner.bytes (ipv4ToBytesBe addr))).toList ++
  (builder.ourMaxRequests.map fun requests => (clientMaxRequestsKey, Inner.int requests)).toList ++
  (builder.metadataSize.map fun size => (metadataSizeKey, Inner.int size)).toList

end ExtendedMessageBuilder

def bencodeFromBuilder (builder : ExtendedMessageBuilder) : Bytes := encode (benMap builder.rootEntries)

structure ExtendedMessage where
  idMap : HashMap ExtendedType UInt8
  ourId : Option Str
  ourTcpPort : Option UInt16
  theirIp : Option IpAddr
  ourIpv6Addr : Option Ipv6Addr
  ourIpv4Addr : Option Ipv4Addr
  ourMaxRequests : Option Int64
  metadataSize : Option Int64
  rawBencode : Bytes
  deriving DecidableEq

namespace ExtendedMessage

def rootErrorKey : Bytes := ascii "ExtendedMessage"

def fromBuilder (builder : ExtendedMessageBuilder) : ExtendedMessage where
  idMap := builder.idMap
  ourId := builder.ourId
  ourTcpPort := builder.ourTcpPort
  theirIp := builder.theirIp
  ourIpv6Addr := builder.ourIpv6Addr
  ourIpv4Addr := builder.ourIpv4Addr
  ourMaxRequests := builder.ourMaxRequests
  metadataSize := builder.metadataSize
  rawBencode := bencodeFromBuilder builder

/-- The message in a slice of bencode. -/
def ofBencode (rawBencode : Buffer) : Run IoError ExtendedMessage := do
  let bencode ← mapErr (.bencode "") (BencodeRef.decode rawBencode .default)
  let benDict ← convertDict .convert bencode.value rootErrorKey
  let idMap ← parseIdMap benDict
  .ok {
    idMap
    ourId := parseClientId benDict
    ourTcpPort := parseClientTcpPort benDict
    theirIp := parseOurIp benDict
    ourIpv6Addr := parseClientIpv6Addr benDict
    ourIpv4Addr := parseClientIpv4Addr benDict
    ourMaxRequests := parseClientMaxRequests benDict
    metadataSize := parseMetadataSize benDict
    rawBencode := rawBencode.data }

def parseBytes (bytes : Buffer) (len : UInt32) : Run Nom.Err (Buffer × Except IoError ExtendedMessage) :=
  let castLen := len.toNat
  if castLen ≤ bytes.len then do
    let resExtendedMessage ← result (ofBencode (bytes.take castLen))
    .ok (bytes, resExtendedMessage)
  else fail (.incomplete (castLen - bytes.len))

def bencodeSize (msg : ExtendedMessage) : Nat := msg.rawBencode.length

def writeBytes (msg : ExtendedMessage) : Run IoError Written := do
  let realLength ← tryU32 (msg.bencodeSize + 2)
  let header := writeLengthIdPair realLength (some extendedMessageId)
  .ok ⟨header.bytes ++ extendedMessageHandshakeId :: msg.rawBencode, realLength.toNat + header.count⟩

def queryId (msg : ExtendedMessage) (extType : ExtendedType) : Option UInt8 := msg.idMap.lookup extType

end ExtendedMessage

/-- An extended message that gives the metadata extension the id three. -/
def metadataExtended : ExtendedMessage :=
  .fromBuilder (ExtendedMessageBuilder.new.withExtendedType .utMetadata (some 3))

/-! ### Bits extension messages -/

inductive BitsExtensionMessage where
  | port (msg : PortMessage)
  | extended (msg : ExtendedMessage)
  deriving DecidableEq

namespace BitsExtensionMessage

def portFn (input : Buffer) : Run Nom.Err (Buffer × Except IoError BitsExtensionMessage) := do
  let (_, messageLen, messageId) ← Nom.pair Nom.beU32 Nom.beU8 input
  if messageLen = portMessageLen ∧ messageId = portMessageId then
    let (_, resPort) ← PortMessage.parseBytes (← input.sliceFrom headerLen)
    .ok (input, .ok (.port resPort))
  else fail (.error input.data .switch)

def extFn (input : Buffer) : Run Nom.Err (Buffer × Except IoError BitsExtensionMessage) := do
  let (_, messageLen, messageId, handshakeId) ← Nom.pair Nom.beU32 (Nom.pair Nom.beU8 Nom.beU8) input
  if messageId = extendedMessageId ∧ handshakeId = extendedMessageHandshakeId then
    let bytes ← input.sliceFrom (headerLen + 1)
    let len ← subUsize messageLen.toNat 2
    let (_, resExtended) ← ExtendedMessage.parseBytes bytes (UInt32.ofNat len)
    .ok (input, resExtended.map .extended)
  else fail (.error input.data .switch)

def parseBytes (input : Buffer) : Nom.IResult (Except IoError BitsExtensionMessage) :=
  Nom.alt [portFn] extFn input

def writeBytes : BitsExtensionMessage → Run IoError Written
  | .port msg => msg.writeBytes
  | .extended msg => msg.writeBytes

def messageSize : BitsExtensionMessage → Nat
  | .port _ => portMessageLen.toNat
  | .extended msg => baseExtendedMessageLen.toNat + msg.bencodeSize

end BitsExtensionMessage

end BitTorrent.Peer
