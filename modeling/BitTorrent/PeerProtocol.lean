import BitTorrent.BencodeAccess
import BitTorrent.RustNom

/-! Protocols between peers. A protocol says how many bytes its next message needs, reads and writes
messages, and knows their sizes. Its methods take `&mut self`: a protocol has a state, which every
call takes and returns, also when it fails. A protocol can be nested in another one, and is then told
about the messages of the outer protocol that negotiate its own.

A writer takes all the bytes it is given. -/

namespace BitTorrent.Peer

open Rust Bencode

inductive UtMetadataMessageError where
  | unknownMessageType (msgType : UInt8)
  deriving DecidableEq

inductive PeerExtensionProtocolMessageError where
  | utMetadataError (error : UtMetadataMessageError)
  | unknownId
  | unknownExtensionId (id : UInt8)
  | parseExtensionError (error : Nom.Err)
  deriving DecidableEq

/-- What an `io::Error` is made from: a text, the display of a bencode error (after a text), a failed
conversion of an integer, or the error of a message that was to be written. -/
inductive IoError where
  | other (text : String)
  | bencode (text : String) (error : BencodeParseError)
  | convert (error : BencodeConvertError)
  | unsupported
  | invalidInput (error : PeerExtensionProtocolMessageError)
  deriving DecidableEq

/-- The bytes a call of `write_bytes` gave to the writer, and the number it returned. -/
structure Written where
  bytes : Bytes
  count : Nat
  deriving DecidableEq, Repr

structure PeerProtocol (S M E : Type) where
  bytesNeeded : S → Buffer → Run IoError (Option Nat) × S
  parseBytes : S → Buffer → Run IoError (Except E M) × S
  writeBytes : S → Except E M → Run IoError Written × S
  messageSize : S → Except E M → Run IoError Nat × S

/-- A protocol nested in one with messages `N`. -/
structure NestedPeerProtocol (N S M E : Type) extends PeerProtocol S M E where
  receivedMessage : S → N → Nat × S
  sentMessage : S → N → Nat × S

def nullProtocol (N : Type) : NestedPeerProtocol N Unit Empty IoError where
  bytesNeeded s _ := (.ok (some 0), s)
  parseBytes s _ := (fail (.other "Attempted To Parse Bytes As Null Protocol"), s)
  writeBytes s _ := (.error .panic, s)
  messageSize s _ := (.ok 0, s)
  receivedMessage s _ := (0, s)
  sentMessage s _ := (0, s)

def unitProtocol (N : Type) : NestedPeerProtocol N Unit Unit IoError where
  bytesNeeded s _ := (.ok (some 0), s)
  parseBytes s _ := (.ok (.ok ()), s)
  writeBytes s _ := (.ok ⟨[], 0⟩, s)
  messageSize s _ := (.ok 0, s)
  receivedMessage s _ := (0, s)
  sentMessage s _ := (0, s)

end BitTorrent.Peer
