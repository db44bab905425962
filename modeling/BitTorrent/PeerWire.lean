import BitTorrent.PeerUtMetadata

/-! The peer wire protocol and the extension protocol nested in it. A frame is read by twelve
alternatives in order. The combinator `value` replaces what its parser returns and compares nothing,
so the alternatives for the standard messages read a length and an id without looking at either. -/

namespace BitTorrent.Peer

open Rust Nom

inductive PeerWireProtocolMessage (M E : Type) where
  | keepAlive
  | choke
  | unChoke
  | interested
  | unInterested
  | have (msg : HaveMessage)
  | bitField (msg : BitFieldMessage)
  | request (msg : RequestMessage)
  | piece (msg : PieceMessage)
  | cancel (msg : CancelMessage)
  | bitsExtension (msg : BitsExtensionMessage)
  | protExtension (result : Except E M)

def frameLength (input : Buffer) : Nat := ofBytesBe (input.data.take 4)

theorem toNat_frameLength (input : Buffer) :
    (UInt32.ofNat (frameLength input)).toNat = frameLength input := by
  have hlt := ofBytesBe_lt (input.data.take 4)
  have hpow : 256 ^ (input.data.take 4).length ≤ 256 ^ 4 :=
    Nat.pow_le_pow_right (by decide) (List.length_take_le 4 _)
  rw [UInt32.toNat_ofNat', Nat.mod_eq_of_lt]
  exact hlt.trans_le hpow

section

variable {S M E : Type}

def parseKeepAlive : Nom.Parser (Except IoError (PeerWireProtocolMessage M E)) :=
  map (pair beU32 (opt beU8)) fun _ => .ok (.ok .keepAlive)

/-- A length and an id in front of a message. -/
def parseHeader (len : UInt32) (id : UInt8) : Nom.Parser (UInt32 × Option UInt8) :=
  pair (value len beU32) (value (some id) beU8)

def parseEmpty (len : UInt32) (id : UInt8) (message : PeerWireProtocolMessage M E) :
    Nom.Parser (Except IoError (PeerWireProtocolMessage M E)) :=
  map (parseHeader len id) fun _ => .ok (.ok message)

def parseChoke : Nom.Parser (Except IoError (PeerWireProtocolMessage M E)) :=
  parseEmpty chokeMessageLen chokeMessageId .choke

def parseUnchoke : Nom.Parser (Except IoError (PeerWireProtocolMessage M E)) :=
  parseEmpty unchokeMessageLen unchokeMessageId .unChoke

def parseInterested : Nom.Parser (Except IoError (PeerWireProtocolMessage M E)) :=
  parseEmpty interestedMessageLen interestedMessageId .interested

def parseUninterested : Nom.Parser (Except IoError (PeerWireProtocolMessage M E)) :=
  parseEmpty uninterestedMessageLen uninterestedMessageId .unInterested

def parseFields (len : UInt32) (id : UInt8)
    (parse : Buffer → Run IoError (PeerWireProtocolMessage M E)) :
    Nom.Parser (Except IoError (PeerWireProtocolMessage M E)) :=
  map (preceded (parseHeader len id) (take 4)) fun fields => result (parse fields)

def parseHave : Nom.Parser (Except IoError (PeerWireProtocolMessage M E)) :=
  parseFields haveMessageLen haveMessageId fun bytes => do
    .ok (.have (← HaveMessage.parseBytes bytes))

def parseBitfield : Nom.Parser (Except IoError (PeerWireProtocolMessage M E)) :=
  parseFields baseBitfieldMessageLen bitfieldMessageId fun bytes => do
    .ok (.bitField (← BitFieldMessage.parseBytes bytes))

def parseRequest : Nom.Parser (Except IoError (PeerWireProtocolMessage M E)) :=
  parseFields requestMessageLen requestMessageId fun bytes => do
    .ok (.request (← RequestMessage.parseBytes bytes))

def parsePiece : Nom.Parser (Except IoError (PeerWireProtocolMessage M E)) :=
  parseFields basePieceMessageLen pieceMessageId fun bytes => do
    let len ← parseMessageLength bytes
    .ok (.piece (← PieceMessage.parseBytes bytes len))

def parseCancel : Nom.Parser (Except IoError (PeerWireProtocolMessage M E)) :=
  parseFields cancelMessageLen cancelMessageId fun bytes => do
    .ok (.cancel (← CancelMessage.parseBytes bytes))

def parseBitsExtension : Nom.Parser (Except IoError (PeerWireProtocolMessage M E)) :=
  map BitsExtensionMessage.parseBytes fun res => .ok (res.map .bitsExtension)

variable (P : PeerProtocol S M E)

def parseProtExtension (input : Buffer) (extProtocol : S) :
    Run Nom.Err (Buffer × Except IoError (PeerWireProtocolMessage M E)) × S :=
  let (item, extProtocol) := P.parseBytes extProtocol input
  ((do
    match ← result item with
    | .ok msg => .ok (input, .ok (.protExtension msg))
    | .error _ => fail (.error input.data .fail)), extProtocol)

def parseMessage (bytes : Buffer) (extProtocol : S) :
    Nom.IResult (Except IoError (PeerWireProtocolMessage M E)) × S :=
  altMut [parseKeepAlive, parseChoke, parseUnchoke, parseInterested, parseUninterested, parseHave,
    parseBitfield, parseRequest, parsePiece, parseCancel, parseBitsExtension] (parseProtExtension P)
    bytes extProtocol

namespace PeerWireProtocolMessage

def bytesNeeded (bytes : Buffer) : Option Nat :=
  match beU32 bytes with
  | .ok (_, length) => some (messageLengthLenBytes + length.toNat)
  | .error _ => none

theorem bytesNeeded_of_le {bytes : Buffer} (h : 4 ≤ bytes.len) :
    bytesNeeded bytes = some (4 + frameLength bytes) := by
  rw [bytesNeeded, beU32_of_le h, ← frameLength]
  exact congrArg (fun n => some (4 + n)) (toNat_frameLength bytes)

theorem bytesNeeded_of_lt {bytes : Buffer} (h : bytes.len < 4) : bytesNeeded bytes = none := by
  rw [bytesNeeded, beU32_of_lt h]
  rfl

def parseBytes (bytes : Buffer) (extProtocol : S) : Run IoError (PeerWireProtocolMessage M E) × S :=
  let (res, extProtocol) := parseMessage P bytes extProtocol
  (parsed res "Failed To Parse PeerWireProtocolMessage", extProtocol)

def writeBytes (message : PeerWireProtocolMessage M E) (extProtocol : S) : Run IoError Written × S :=
  match message with
  | .keepAlive => (.ok (writeLengthIdPair keepAliveMessageLen none), extProtocol)
  | .choke => (.ok (writeLengthIdPair chokeMessageLen (some chokeMessageId)), extProtocol)
  | .unChoke => (.ok (writeLengthIdPair unchokeMessageLen (some unchokeMessageId)), extProtocol)
  | .interested => (.ok (writeLengthIdPair interestedMessageLen (some interestedMessageId)), extProtocol)
  | .unInterested =>
    (.ok (writeLengthIdPair uninterestedMessageLen (some uninterestedMessageId)), extProtocol)
  | .have msg => (msg.writeBytes, extProtocol)
  | .bitField msg => (msg.writeBytes, extProtocol)
  | .request msg => (msg.writeBytes, extProtocol)
  | .piece msg => (msg.writeBytes, extProtocol)
  | .cancel msg => (msg.writeBytes, extProtocol)
  | .bitsExtension ext => (ext.writeBytes, extProtocol)
  | .protExtension ext => P.writeBytes extProtocol ext

def messageSize (message : PeerWireProtocolMessage M E) (extProtocol : S) : Run IoError Nat × S :=
  let sized (messageSpecificLen : Nat) : Run IoError Nat × S :=
    (.ok (messageLengthLenBytes + messageSpecificLen), extProtocol)
  match message with
  | .keepAlive => sized keepAliveMessageLen.toNat
  | .choke => sized chokeMessageLen.toNat
  | .unChoke => sized unchokeMessageLen.toNat
  | .interested => sized interestedMessageLen.toNat
  | .unInterested => sized uninterestedMessageLen.toNat
  | .have _ => sized haveMessageLen.toNat
  | .bitField msg => sized (baseBitfieldMessageLen.toNat + msg.bytes.length)
  | .request _ => sized requestMessageLen.toNat
  | .piece msg => sized (basePieceMessageLen.toNat + msg.block.length)
  | .cancel _ => sized cancelMessageLen.toNat
  | .bitsExtension ext => sized ext.messageSize
  | .protExtension ext =>
    let (size, extProtocol) := P.messageSize extProtocol ext
    ((do .ok (messageLengthLenBytes + (← size))), extProtocol)

end PeerWireProtocolMessage

end

/-! ### Protocols -/

section

variable {S M E : Type}

/-- The state of the extension protocol: the extended messages sent and received, and the state of
the protocol for custom extensions. -/
structure PeerExtensionProtocol (S : Type) where
  ourExtendedMsg : Option ExtendedMessage
  theirExtendedMsg : Option ExtendedMessage
  customProtocol : S

namespace PeerExtensionProtocol

def new (customProtocol : S) : PeerExtensionProtocol S := ⟨none, none, customProtocol⟩

variable (P : NestedPeerProtocol ExtendedMessage S M E)

def protocol : NestedPeerProtocol ExtendedMessage (PeerExtensionProtocol S)
    (PeerExtensionProtocolMessage M E) PeerExtensionProtocolMessageError where
  bytesNeeded s bytes := (.ok (PeerWireProtocolMessage.bytesNeeded bytes), s)
  parseBytes s bytes :=
    match s.ourExtendedMsg with
    | some extendedMsg =>
      let (res, customProtocol) := PeerExtensionProtocolMessage.parseBytes P.toPeerProtocol bytes
        extendedMsg s.customProtocol
      (res, { s with customProtocol })
    | none =>
      (fail (.other "Extension Message Received From Peer Before Extended Message..."), s)
  writeBytes s item :=
    match item with
    | .error err => (fail (.invalidInput err), s)
    | .ok message =>
      match s.theirExtendedMsg with
      | some extendedMsg =>
        let (res, customProtocol) := message.writeBytes P.toPeerProtocol extendedMsg s.customProtocol
        (res, { s with customProtocol })
      | none => (fail (.other "Extension Message Sent From Us Before Extended Message..."), s)
  messageSize s item :=
    match item with
    | .error err => (fail (.invalidInput err), s)
    | .ok message =>
      let (res, customProtocol) := message.messageSize P.toPeerProtocol s.customProtocol
      (res, { s with customProtocol })
  receivedMessage s message :=
    let (count, customProtocol) := P.receivedMessage s.customProtocol message
    (count, { s with theirExtendedMsg := some message, customProtocol })
  sentMessage s message :=
    let (count, customProtocol) := P.sentMessage s.customProtocol message
    (count, { s with ourExtendedMsg := some message, customProtocol })

end PeerExtensionProtocol

namespace PeerWireProtocol

variable (P : NestedPeerProtocol ExtendedMessage S M E)

/-- The state of the wire protocol is that of the protocol nested in it. Its error type has no
values. -/
def protocol : PeerProtocol S (PeerWireProtocolMessage M E) Empty where
  bytesNeeded s bytes := (.ok (PeerWireProtocolMessage.bytesNeeded bytes), s)
  parseBytes s bytes :=
    match PeerWireProtocolMessage.parseBytes P.toPeerProtocol bytes s with
    | (.ok (.bitsExtension (.extended msg)), s) =>
      (.ok (.ok (.bitsExtension (.extended msg))), (P.receivedMessage s msg).2)
    | (.ok other, s) => (.ok (.ok other), s)
    | (.error fault, s) => (.error fault, s)
  writeBytes s item :=
    match item with
    | .ok message =>
      match message.writeBytes P.toPeerProtocol s with
      | (.ok written, s) =>
        match message with
        | .bitsExtension (.extended extendedMessage) =>
          let (count, s) := P.sentMessage s extendedMessage
          (.ok ⟨written.bytes, count⟩, s)
        | _ => (.ok written, s)
      | (.error fault, s) => (.error fault, s)
  messageSize s item :=
    match item with
    | .ok message => message.messageSize P.toPeerProtocol s

end PeerWireProtocol

end

end BitTorrent.Peer
