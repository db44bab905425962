import BitTorrent.PeerProtocol

/-! The standard messages of the peer wire protocol. A message is written as a length of four bytes,
an id, and its fields. -/

namespace BitTorrent.Peer

open Rust

def keepAliveMessageLen : UInt32 := 0

def chokeMessageLen : UInt32 := 1

def unchokeMessageLen : UInt32 := 1

def interestedMessageLen : UInt32 := 1

def uninterestedMessageLen : UInt32 := 1

def haveMessageLen : UInt32 := 5

def baseBitfieldMessageLen : UInt32 := 1

def requestMessageLen : UInt32 := 13

def basePieceMessageLen : UInt32 := 9

def cancelMessageLen : UInt32 := 13

def chokeMessageId : UInt8 := 0

def unchokeMessageId : UInt8 := 1

def interestedMessageId : UInt8 := 2

def uninterestedMessageId : UInt8 := 3

def haveMessageId : UInt8 := 4

def bitfieldMessageId : UInt8 := 5

def requestMessageId : UInt8 := 6

def pieceMessageId : UInt8 := 7

def cancelMessageId : UInt8 := 8

def messageLengthLenBytes : Nat := 4

def messageIdLenBytes : Nat := 1

def headerLen : Nat := messageLengthLenBytes + messageIdLenBytes

/-- `write_u32::<BigEndian>`. -/
def u32Bytes (n : UInt32) : Bytes := toBytesBe 4 n.toNat

@[simp] theorem length_u32Bytes (n : UInt32) : (u32Bytes n).length = 4 := length_toBytesBe 4 _

def writeLengthIdPair (length : UInt32) (optId : Option UInt8) : Written :=
  match optId with
  | some id => ⟨u32Bytes length ++ [id], 5⟩
  | none => ⟨u32Bytes length, 4⟩

def parseMessageLength (bytes : Buffer) : Run IoError Nat :=
  match Nom.beU32 bytes with
  | .ok (_, len) => .ok len.toNat
  | .error _ => .error .panic

/-- `try_into` a `u32`, where a failure becomes an `io::Error`. -/
def tryU32 (n : Nat) : Run IoError UInt32 :=
  if n < 2 ^ 32 then .ok (UInt32.ofNat n) else fail .unsupported

/-- `try_into().unwrap()` to a `u32`. -/
def unwrapU32 {ε : Type} (n : Nat) : Run ε UInt32 :=
  if n < 2 ^ 32 then .ok (UInt32.ofNat n) else .error .panic

theorem toNat_of_tryU32 {n : Nat} {m : UInt32} (h : tryU32 n = .ok m) : m.toNat = n := by
  unfold tryU32 at h
  split at h
  · rename_i hlt
    rw [← Except.ok.inj h, UInt32.toNat_ofNat']
    omega
  · cases h

theorem toNat_of_unwrapU32 {ε : Type} {n : Nat} {m : UInt32} (h : (unwrapU32 n : Run ε _) = .ok m) :
    m.toNat = n := by
  unfold unwrapU32 at h
  split at h
  · rename_i hlt
    rw [← Except.ok.inj h, UInt32.toNat_ofNat']
    omega
  · cases h

/-- The result inside what a parser returned; an error of the parser itself becomes the given one. -/
def parsed {α : Type} (r : Nom.IResult (Except IoError α)) (text : String) : Run IoError α := do
  match ← result r with
  | .ok (_, msg) => ofResult msg
  | .error _ => fail (.other text)

structure HaveMessage where
  pieceIndex : UInt32
  deriving DecidableEq

namespace HaveMessage

def parseHave : Nom.Parser (Except IoError HaveMessage) := Nom.map Nom.beU32 fun index => .ok (.ok ⟨index⟩)

def parseBytes (bytes : Buffer) : Run IoError HaveMessage :=
  parsed (parseHave bytes) "Failed to parse HaveMessage"

def writeBytes (msg : HaveMessage) : Run IoError Written :=
  let header := writeLengthIdPair haveMessageLen (some haveMessageId)
  .ok ⟨header.bytes ++ u32Bytes msg.pieceIndex, header.count + 4⟩

end HaveMessage

structure BitFieldMessage where
  bytes : Bytes
  deriving DecidableEq

namespace BitFieldMessage

def parseBitfield (bytes : Buffer) (len : Nat) : Nom.IResult (Except IoError BitFieldMessage) :=
  if len ≤ bytes.len then .ok (bytes.drop len, .ok ⟨(bytes.take len).data⟩)
  else fail (.incomplete (len - bytes.len))

def parseBytes (bytes : Buffer) : Run IoError BitFieldMessage :=
  parsed (parseBitfield bytes bytes.len) "Failed to parse BitFieldMessage"

def writeBytes (msg : BitFieldMessage) : Run IoError Written := do
  let messageLength ← tryU32 msg.bytes.length
  -- an addition on `u32`, which a checked build does not let overflow
  let actualLength ← unwrapU32 (messageLength.toNat + 1)
  let header := writeLengthIdPair actualLength (some bitfieldMessageId)
  .ok ⟨header.bytes ++ msg.bytes, header.count + messageLength.toNat⟩

end BitFieldMessage

/-- A piece index, a block offset and a block length, as requests and cancels hold them. -/
def parseBlock : Nom.Parser (UInt32 × UInt32 × UInt32) :=
  Nom.pair Nom.beU32 (Nom.pair Nom.beU32 Nom.beU32)

def writeBlock (header : Written) (pieceIndex blockOffset : UInt32) (blockLength : Nat) :
    Run IoError Written := do
  let blockLength ← tryU32 blockLength
  .ok ⟨header.bytes ++ (u32Bytes pieceIndex ++ u32Bytes blockOffset ++ u32Bytes blockLength),
    header.count + 12⟩

structure RequestMessage where
  pieceIndex : UInt32
  blockOffset : UInt32
  blockLength : Nat
  deriving DecidableEq

namespace RequestMessage

def parseRequest : Nom.Parser (Except IoError RequestMessage) :=
  Nom.map parseBlock fun (index, offset, length) => .ok (.ok ⟨index, offset, length.toNat⟩)

def parseBytes (bytes : Buffer) : Run IoError RequestMessage :=
  parsed (parseRequest bytes) "Failed to parse RequestMessage"

def writeBytes (msg : RequestMessage) : Run IoError Written :=
  writeBlock (writeLengthIdPair requestMessageLen (some requestMessageId)) msg.pieceIndex
    msg.blockOffset msg.blockLength

end RequestMessage

structure PieceMessage where
  pieceIndex : UInt32
  blockOffset : UInt32
  block : Bytes
  deriving DecidableEq

namespace PieceMessage

def parsePiece (bytes : Buffer) (len : Nat) : Run Nom.Err (Buffer × Except IoError PieceMessage) := do
  let blockLen ← subUsize len 8
  Nom.map (Nom.pair Nom.beU32 (Nom.pair Nom.beU32 (Nom.take blockLen)))
    (fun (pieceIndex, blockOffset, block) => .ok (.ok ⟨pieceIndex, blockOffset, block.data⟩)) bytes

def parseBytes (bytes : Buffer) (len : Nat) : Run IoError PieceMessage :=
  parsed (parsePiece bytes len) "Failed to parse PieceMessage"

def blockLength (msg : PieceMessage) : Nat := msg.block.length

def writeBytes (msg : PieceMessage) : Run IoError Written := do
  let blockLength ← tryU32 msg.blockLength
  let actualLength := msg.blockLength + 9
  let header := writeLengthIdPair (← unwrapU32 actualLength) (some pieceMessageId)
  .ok ⟨header.bytes ++ (u32Bytes msg.pieceIndex ++ u32Bytes msg.blockOffset ++ msg.block),
    header.count + blockLength.toNat + 8⟩

end PieceMessage

structure CancelMessage where
  pieceIndex : UInt32
  blockOffset : UInt32
  blockLength : Nat
  deriving DecidableEq

namespace CancelMessage

def parseCancel : Nom.Parser (Except IoError CancelMessage) :=
  Nom.map parseBlock fun (index, offset, length) => .ok (.ok ⟨index, offset, length.toNat⟩)

def parseBytes (bytes : Buffer) : Run IoError CancelMessage :=
  parsed (parseCancel bytes) "Failed to parse CancelMessage"

def writeBytes (msg : CancelMessage) : Run IoError Written :=
  writeBlock (writeLengthIdPair cancelMessageLen (some cancelMessageId)) msg.pieceIndex
    msg.blockOffset msg.blockLength

end CancelMessage

end BitTorrent.Peer
