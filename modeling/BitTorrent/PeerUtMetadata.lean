import BitTorrent.PeerExtended

/-! Messages of negotiated extensions. The only extension built in exchanges metadata: requests, data
and rejections are small dictionaries, and a data message has the data behind its dictionary. A
message read from the wire keeps the size its dictionary had there; the bytes of the dictionary are
not kept, and writing the message encodes it anew. -/

namespace BitTorrent.Peer

open Rust Bencode

def messageTypeKey : Bytes := ascii "msg_type"

def pieceIndexKey : Bytes := ascii "piece"

def totalSizeKey : Bytes := ascii "total_size"

def requestMessageTypeId : UInt8 := 0

def dataMessageTypeId : UInt8 := 1

def rejectMessageTypeId : UInt8 := 2

section

variable (root : List (Bytes × Inner))

def parseMessageType : Run IoError UInt8 := do
  let msgType ← lookupAndConvertInt .convert root messageTypeKey
  .ok (UInt8.ofNat (← unwrapSome (tryUint 8 msgType.toInt)))

def parsePieceIndex : Run IoError Int64 := lookupAndConvertInt .convert root pieceIndexKey

def parseTotalSize : Run IoError Int64 := lookupAndConvertInt .convert root totalSizeKey

end

/-- The bytes of a request or a rejection. -/
def pieceBencode (typeId : UInt8) (piece : Int64) : Bytes :=
  encode (benMap [(messageTypeKey, .int (Int64.ofNat typeId.toNat)), (pieceIndexKey, .int piece)])

structure UtMetadataRequestMessage where
  piece : Int64
  bencodeSize : Nat
  deriving DecidableEq

namespace UtMetadataRequestMessage

def encoded (piece : Int64) : Bytes := pieceBencode requestMessageTypeId piece

def new (piece : Int64) : UtMetadataRequestMessage := ⟨piece, (encoded piece).length⟩

def withBytes (piece : Int64) (bytes : Buffer) : UtMetadataRequestMessage := ⟨piece, bytes.len⟩

def writeBytes (msg : UtMetadataRequestMessage) : Bytes := encoded msg.piece

def messageSize (msg : UtMetadataRequestMessage) : Nat := msg.bencodeSize

end UtMetadataRequestMessage

structure UtMetadataDataMessage where
  piece : Int64
  totalSize : Int64
  data : Bytes
  bencodeSize : Nat
  deriving DecidableEq

namespace UtMetadataDataMessage

def encoded (piece totalSize : Int64) : Bytes :=
  encode (benMap [(messageTypeKey, .int (Int64.ofNat dataMessageTypeId.toNat)),
    (pieceIndexKey, .int piece), (totalSizeKey, .int totalSize)])

def new (piece totalSize : Int64) (data : Bytes) : UtMetadataDataMessage :=
  ⟨piece, totalSize, data, (encoded piece totalSize).length⟩

def withBytes (piece totalSize : Int64) (data bytes : Buffer) : UtMetadataDataMessage :=
  ⟨piece, totalSize, data.data, bytes.len⟩

def writeBytes (msg : UtMetadataDataMessage) : Bytes := encoded msg.piece msg.totalSize ++ msg.data

def messageSize (msg : UtMetadataDataMessage) : Nat := msg.bencodeSize + msg.data.length

end UtMetadataDataMessage

structure UtMetadataRejectMessage where
  piece : Int64
  bencodeSize : Nat
  deriving DecidableEq

namespace UtMetadataRejectMessage

def encoded (piece : Int64) : Bytes := pieceBencode rejectMessageTypeId piece

def new (piece : Int64) : UtMetadataRejectMessage := ⟨piece, (encoded piece).length⟩

def withBytes (piece : Int64) (bytes : Buffer) : UtMetadataRejectMessage := ⟨piece, bytes.len⟩

def writeBytes (msg : UtMetadataRejectMessage) : Bytes := encoded msg.piece

def messageSize (msg : UtMetadataRejectMessage) : Nat := msg.bencodeSize

end UtMetadataRejectMessage

inductive UtMetadataMessage where
  | request (msg : UtMetadataRequestMessage)
  | data (msg : UtMetadataDataMessage)
  | reject (msg : UtMetadataRejectMessage)
  deriving DecidableEq

namespace UtMetadataMessage

def rootErrorKey : Bytes := ascii "PeerExtensionProtocolMessage"

def decodeOpts : BDecodeOpt := ⟨2, false, false⟩

/-- The message a decoded dictionary stands for, with the data behind it. -/
def ofDict (bencodeDict : List (Bytes × Inner)) (bytes : Buffer) (bencodeLen : Nat) :
    Run IoError (Except UtMetadataMessageError UtMetadataMessage) := do
  let msgType ← parseMessageType bencodeDict
  let piece ← parsePieceIndex bencodeDict
  let (bencodeBytes, extraBytes) ← bytes.splitTo bencodeLen
  if msgType = requestMessageTypeId then .ok (.ok (.request (.withBytes piece bencodeBytes)))
  else if msgType = rejectMessageTypeId then .ok (.ok (.reject (.withBytes piece bencodeBytes)))
  else if msgType = dataMessageTypeId then do
    let totalSize ← parseTotalSize bencodeDict
    .ok (.ok (.data (.withBytes piece totalSize extraBytes bencodeBytes)))
  else .ok (.error (.unknownMessageType msgType))

def parseBytes (bytes : Buffer) : Run IoError (Except UtMetadataMessageError UtMetadataMessage) := do
  let bencode ← mapErr (.bencode "Failed To Parse UtMetadataMessage As Bencode: ")
    (BencodeRef.decode bytes decodeOpts)
  let bencodeDict ← convertDict .convert bencode.value rootErrorKey
  ofDict bencodeDict bytes bencode.buffer.bytes.length

def writeBytes : UtMetadataMessage → Bytes
  | .request msg => msg.writeBytes
  | .data msg => msg.writeBytes
  | .reject msg => msg.writeBytes

def messageSize : UtMetadataMessage → Nat
  | .request msg => msg.messageSize
  | .data msg => msg.messageSize
  | .reject msg => msg.messageSize

end UtMetadataMessage

/-! ### The extension protocol -/

inductive PeerExtensionProtocolMessage (M E : Type) where
  | utMetadata (msg : UtMetadataMessage)
  | custom (result : Except E M)

def extensionHeaderLen : Nat := headerLen + 1

section

variable {S M E : Type}

/-- What reading an extension message returns: an `io::Error`, an error, or a message. -/
abbrev ExtensionResult (M E : Type) :=
  Except PeerExtensionProtocolMessageError (PeerExtensionProtocolMessage M E)

/-- The id in the message is not looked at. -/
def parseExtensionsWithId (bytes : Buffer) (extended : ExtendedMessage) (_id : UInt8) :
    Run IoError (ExtensionResult M E) :=
  match extended.queryId .utMetadata with
  | none => .ok (.error .unknownId)
  | some _ => do
    match ← UtMetadataMessage.parseBytes bytes with
    | .ok message => .ok (.ok (.utMetadata message))
    | .error err => .ok (.error (.utMetadataError err))

def utMetadataFn (extended : ExtendedMessage) (input : Buffer) :
    Run Nom.Err (Buffer × Except IoError (ExtensionResult M E)) := do
  let (_, messageLen, extendedId, messageId) ← Nom.pair Nom.beU32 (Nom.pair Nom.beU8 Nom.beU8) input
  if extendedId = extendedMessageId then
    let bytes ← input.slice extensionHeaderLen (extensionHeaderLen + messageLen.toNat - 2)
    let res ← result (parseExtensionsWithId bytes extended messageId)
    .ok (input, res)
  else .ok (input, .ok (.error (.unknownExtensionId extendedId)))

variable (P : PeerProtocol S M E)

def customFn (input : Buffer) (customProt : S) :
    Run Nom.Err (Buffer × Except IoError (ExtensionResult M E)) × S :=
  let (item, customProt) := P.parseBytes customProt input
  ((do
    let item ← result item
    .ok (input, item.map fun item => .ok (.custom item))), customProt)

def parseExtensions (bytes : Buffer) (extended : ExtendedMessage) (customProt : S) :
    Nom.IResult (Except IoError (ExtensionResult M E)) × S :=
  Nom.altMut [utMetadataFn extended] (customFn P) bytes customProt

namespace PeerExtensionProtocolMessage

def parseBytes (bytes : Buffer) (extended : ExtendedMessage) (customProt : S) :
    Run IoError (ExtensionResult M E) × S :=
  let (res, customProt) := parseExtensions P bytes extended customProt
  ((do
    match ← result res with
    | .ok (_, res) => ofResult res
    | .error err => .ok (.error (.parseExtensionError err))), customProt)

def writeUtMetadata (msg : UtMetadataMessage) (extended : ExtendedMessage) : Run IoError Written :=
  match extended.queryId .utMetadata with
  | none => fail (.other "Can't Send UtMetadataMessage As We Have No Id Mapping")
  | some extId => do
    let totalLen := 2 + msg.messageSize
    let header := writeLengthIdPair (← unwrapU32 totalLen) (some extendedMessageId)
    .ok ⟨header.bytes ++ extId :: msg.writeBytes, header.count + totalLen⟩

def writeBytes (message : PeerExtensionProtocolMessage M E) (extended : ExtendedMessage)
    (customProt : S) : Run IoError Written × S :=
  match message with
  | .utMetadata msg => (writeUtMetadata msg extended, customProt)
  | .custom msg => P.writeBytes customProt msg

def messageSize (message : PeerExtensionProtocolMessage M E) (customProt : S) :
    Run IoError Nat × S :=
  match message with
  | .utMetadata msg => (.ok msg.messageSize, customProt)
  | .custom msg => P.messageSize customProt msg

end PeerExtensionProtocolMessage

end

end BitTorrent.Peer
