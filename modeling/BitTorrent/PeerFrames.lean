import BitTorrent.PeerWire

/-! Frames as they are written and read. Every message writes a length, and says its size and the
number of bytes written, by code of its own; these agree with the bytes for the standard messages and
the port message. An extended message and a metadata message are off in what they report, a metadata
message that came from the wire can be off in the length it writes, and the reader takes every frame
for a keep-alive. -/

namespace BitTorrent.Peer

open Rust List PeerWireProtocol PeerWireProtocolMessage

/-- The first four bytes say how many follow. -/
def WellFramed (out : Bytes) : Prop := 4 ≤ out.length ∧ ofBytesBe (out.take 4) = out.length - 4

instance (out : Bytes) : Decidable (WellFramed out) :=
  inferInstanceAs (Decidable (4 ≤ out.length ∧ ofBytesBe (out.take 4) = out.length - 4))

theorem wellFramed_append_iff (len : UInt32) (body : Bytes) :
    WellFramed (u32Bytes len ++ body) ↔ len.toNat = body.length := by
  have hlen : ofBytesBe (u32Bytes len) = len.toNat := ofBytesBe_toBytesBe len.toNat_lt
  rw [WellFramed, take_left' (length_u32Bytes len), hlen, length_append, length_u32Bytes,
    Nat.add_sub_cancel_left]
  exact and_iff_right (Nat.le_add_right 4 _)

section

variable {len : UInt32} {id : UInt8} {fields : Bytes}

theorem wellFramed_header_iff :
    WellFramed ((writeLengthIdPair len (some id)).bytes ++ fields) ↔ len.toNat = 1 + fields.length := by
  change WellFramed (u32Bytes len ++ [id] ++ fields) ↔ _
  rw [append_assoc, wellFramed_append_iff, length_append, length_singleton]

theorem length_header : ((writeLengthIdPair len (some id)).bytes ++ fields).length = 5 + fields.length := by
  change (u32Bytes len ++ [id] ++ fields).length = _
  rw [length_append, length_append, length_u32Bytes, length_singleton]

end

/-- What a message wrote is a frame, and the size it has and the number it returned are those of the
frame. -/
structure Exact (w : Written) (size : Nat) : Prop where
  framed : WellFramed w.bytes
  size_eq : size = w.bytes.length
  count_eq : w.count = w.bytes.length

theorem Exact.of_header {len : UInt32} {id : UInt8} {fields : Bytes} {count size : Nat}
    (hlen : len.toNat = 1 + fields.length) (hsize : size = 5 + fields.length)
    (hcount : count = 5 + fields.length) :
    Exact ⟨(writeLengthIdPair len (some id)).bytes ++ fields, count⟩ size :=
  ⟨wellFramed_header_iff.mpr hlen, hsize.trans length_header.symm, hcount.trans length_header.symm⟩

/-! ### Standard messages -/

theorem exact_writeLengthIdPair_none : Exact (writeLengthIdPair 0 none) 4 := ⟨by decide, rfl, rfl⟩

theorem exact_writeLengthIdPair_some (id : UInt8) : Exact (writeLengthIdPair 1 (some id)) 5 :=
  @Exact.of_header 1 id [] 5 5 rfl rfl rfl

theorem HaveMessage.exact (msg : HaveMessage) {w : Written} (h : msg.writeBytes = .ok w) : Exact w 9 := by
  cases h
  apply Exact.of_header <;> rw [length_u32Bytes] <;> rfl

theorem BitFieldMessage.exact (msg : BitFieldMessage) {w : Written} (h : msg.writeBytes = .ok w) :
    Exact w (5 + msg.bytes.length) := by
  obtain ⟨messageLength, hmessage, h⟩ := bind_eq_ok.mp h
  obtain ⟨actualLength, hactual, h⟩ := bind_eq_ok.mp h
  cases h
  have hlength := toNat_of_tryU32 hmessage
  apply Exact.of_header
  · rw [toNat_of_unwrapU32 hactual, hlength, Nat.add_comm]
  · rfl
  · rw [hlength]
    rfl

theorem exact_writeBlock {w : Written} {id : UInt8} {pieceIndex blockOffset : UInt32} {blockLength : Nat}
    (h : writeBlock (writeLengthIdPair 13 (some id)) pieceIndex blockOffset blockLength = .ok w) :
    Exact w 17 := by
  obtain ⟨length, -, h⟩ := bind_eq_ok.mp h
  cases h
  apply Exact.of_header <;> simp only [length_append, length_u32Bytes] <;> rfl

theorem PieceMessage.exact (msg : PieceMessage) {w : Written} (h : msg.writeBytes = .ok w) :
    Exact w (13 + msg.block.length) := by
  obtain ⟨blockLength, hblock, h⟩ := bind_eq_ok.mp h
  obtain ⟨actualLength, hactual, h⟩ := bind_eq_ok.mp h
  cases h
  have hlength : blockLength.toNat = msg.block.length := toNat_of_tryU32 hblock
  have hprefix : actualLength.toNat = msg.block.length + 9 := toNat_of_unwrapU32 hactual
  have hheader : (writeLengthIdPair actualLength (some pieceMessageId)).count = 5 := rfl
  apply Exact.of_header <;> simp only [length_append, length_u32Bytes, hheader] <;> omega

theorem PortMessage.exact (msg : PortMessage) {w : Written} (h : msg.writeBytes = .ok w) : Exact w 7 := by
  cases h
  apply Exact.of_header <;> rw [length_toBytesBe] <;> rfl

/-! ### Messages of extensions -/

theorem ExtendedMessage.written (msg : ExtendedMessage) {w : Written} (h : msg.writeBytes = .ok w) :
    WellFramed w.bytes ∧ w.bytes.length = 6 + msg.bencodeSize := by
  obtain ⟨realLength, hreal, h⟩ := bind_eq_ok.mp h
  cases h
  have hlength : realLength.toNat = msg.rawBencode.length + 2 := toNat_of_tryU32 hreal
  rw [wellFramed_header_iff, length_header, hlength, length_cons, bencodeSize]
  constructor <;> omega

/-- The size of the dictionary in the bytes that writing the message gives. -/
def UtMetadataMessage.encodedSize : UtMetadataMessage → Nat
  | .request msg => (UtMetadataRequestMessage.encoded msg.piece).length
  | .data msg => (UtMetadataDataMessage.encoded msg.piece msg.totalSize).length
  | .reject msg => (UtMetadataRejectMessage.encoded msg.piece).length

/-- The size of the dictionary that is kept with the message. -/
def UtMetadataMessage.bencodeSize : UtMetadataMessage → Nat
  | .request msg => msg.bencodeSize
  | .data msg => msg.bencodeSize
  | .reject msg => msg.bencodeSize

theorem UtMetadataMessage.length_writeBytes (msg : UtMetadataMessage) :
    msg.writeBytes.length + msg.bencodeSize = msg.messageSize + msg.encodedSize := by
  cases msg with
  | request msg => exact Nat.add_comm _ _
  | reject msg => exact Nat.add_comm _ _
  | data msg =>
    simp only [UtMetadataMessage.writeBytes, UtMetadataDataMessage.writeBytes,
      UtMetadataMessage.bencodeSize, UtMetadataMessage.messageSize, UtMetadataDataMessage.messageSize,
      UtMetadataMessage.encodedSize, length_append]
    omega

theorem UtMetadataMessage.written {msg : UtMetadataMessage} {extended : ExtendedMessage} {w : Written}
    (h : PeerExtensionProtocolMessage.writeUtMetadata msg extended = .ok w) :
    (WellFramed w.bytes ↔ msg.bencodeSize = msg.encodedSize) ∧
      w.bytes.length = 6 + msg.writeBytes.length := by
  unfold PeerExtensionProtocolMessage.writeUtMetadata at h
  split at h
  · cases h
  · obtain ⟨totalLen, htotal, h⟩ := bind_eq_ok.mp h
    cases h
    have hlength : totalLen.toNat = 2 + msg.messageSize := toNat_of_unwrapU32 htotal
    have hsizes := msg.length_writeBytes
    rw [wellFramed_header_iff, length_header, hlength, length_cons]
    constructor <;> omega

/-! ### Sizes and lengths -/

/-- `d1:ai0e8:msg_typei0e5:piecei0ee`: a request with a key that no request is written with. -/
def strayKey : Buffer := ⟨ascii "d1:ai0e8:msg_typei0e5:piecei0ee", by decide⟩

theorem length_firstRequest : (UtMetadataRequestMessage.encoded 0).length = 25 := by
  change (Bencode.encode (Bencode.benMap _)).length = 25
  rw [Bencode.encode_benMap]
  decide +kernel

section

variable {S M E : Type}

/-- What a wire message is, if it was written without the nested protocol. -/
theorem PeerWireProtocolMessage.exact_or_extended (P : PeerProtocol S M E) {s : S}
    {m : PeerWireProtocolMessage M E} {w : Written} (hm : ∀ r, m ≠ .protExtension r)
    (h : (m.writeBytes P s).1 = .ok w) : (∃ size, (m.messageSize P s).1 = .ok size ∧ Exact w size) ∨
      ∃ msg, m = .bitsExtension (.extended msg) ∧ msg.writeBytes = .ok w := by
  cases m with
  | keepAlive =>
    cases h
    exact .inl ⟨4, rfl, exact_writeLengthIdPair_none⟩
  | choke | unChoke | interested | unInterested =>
    cases h
    exact .inl ⟨5, rfl, exact_writeLengthIdPair_some _⟩
  | «have» msg => exact .inl ⟨9, rfl, msg.exact h⟩
  | bitField msg =>
    refine .inl ⟨_, rfl, ?_⟩
    rw [messageLengthLenBytes, ← Nat.add_assoc]
    exact msg.exact h
  | request msg => exact .inl ⟨17, rfl, exact_writeBlock h⟩
  | piece msg =>
    refine .inl ⟨_, rfl, ?_⟩
    rw [messageLengthLenBytes, ← Nat.add_assoc]
    exact msg.exact h
  | cancel msg => exact .inl ⟨17, rfl, exact_writeBlock h⟩
  | bitsExtension ext =>
    cases ext with
    | port msg => exact .inl ⟨7, rfl, msg.exact h⟩
    | extended msg => exact .inr ⟨msg, rfl, h⟩
  | protExtension r => exact absurd rfl (hm r)

theorem wellFramed_of_writeBytes (P : PeerProtocol S M E) {s : S} {m : PeerWireProtocolMessage M E}
    {w : Written} (hm : ∀ r, m ≠ .protExtension r) (h : (m.writeBytes P s).1 = .ok w) :
    WellFramed w.bytes := by
  rcases exact_or_extended P hm h with ⟨size, -, hexact⟩ | ⟨msg, -, hmsg⟩
  · exact hexact.framed
  · exact (msg.written hmsg).1

variable (P : PeerProtocol S M E) (s : S)

/-- The length written is the number of bytes that follow, for every message but one of the metadata
extension; for that one, if and only if the size kept with it is the size of its dictionary as it is
written. -/
theorem wellFramed_iff_size_kept :
    (∀ (m : PeerWireProtocolMessage M E) (w : Written), (∀ r, m ≠ .protExtension r) →
      (m.writeBytes P s).1 = .ok w → WellFramed w.bytes) ∧
    ∀ (msg : UtMetadataMessage) (extended : ExtendedMessage) (w : Written),
      (PeerExtensionProtocolMessage.writeBytes P (.utMetadata msg) extended s).1 = .ok w →
        (WellFramed w.bytes ↔ msg.bencodeSize = msg.encodedSize) :=
  ⟨fun _ _ hm h => wellFramed_of_writeBytes P hm h, fun _ _ _ h => (UtMetadataMessage.written h).1⟩

end

theorem wellFramed_iff_size_kept_null :
    WellFramed (writeLengthIdPair chokeMessageLen (some chokeMessageId)).bytes ∧ ∃ w : Written,
      (PeerExtensionProtocolMessage.writeBytes (nullProtocol Unit).toPeerProtocol
        (.utMetadata (.request ⟨0, 25⟩)) metadataExtended ()).1 = .ok w ∧ WellFramed w.bytes := by
  obtain ⟨hplain, hmetadata⟩ := wellFramed_iff_size_kept (nullProtocol Unit).toPeerProtocol ()
  obtain ⟨w, hw⟩ : ∃ w, PeerExtensionProtocolMessage.writeUtMetadata (.request ⟨0, 25⟩)
      metadataExtended = .ok w := ⟨_, rfl⟩
  exact ⟨hplain .choke _ (fun _ h => (by cases h)) rfl, w, hw, (hmetadata (.request ⟨0, 25⟩) metadataExtended w hw).mpr length_firstRequest.symm⟩

theorem strayKey_misframed :
    ∃ w : Written, UtMetadataMessage.parseBytes strayKey = .ok (.ok (.request ⟨0, 31⟩)) ∧
      (PeerExtensionProtocolMessage.writeBytes (nullProtocol Unit).toPeerProtocol
        (.utMetadata (.request ⟨0, 31⟩)) metadataExtended ()).1 = .ok w ∧ ¬ WellFramed w.bytes := by
  obtain ⟨w, hw⟩ : ∃ w, PeerExtensionProtocolMessage.writeUtMetadata (.request ⟨0, 31⟩)
      metadataExtended = .ok w := ⟨_, rfl⟩
  refine ⟨w, by decide +kernel, hw, ?_⟩
  rw [(UtMetadataMessage.written hw).1]
  change 31 ≠ (UtMetadataRequestMessage.encoded 0).length
  rw [length_firstRequest]
  decide

section

variable {S M E : Type} (P : NestedPeerProtocol ExtendedMessage S M E) (s : S)

/-- The size a message has, and the number that writing it returned, are both the number of bytes
that were written. -/
def SizeExact (m : PeerWireProtocolMessage M E) (w : Written) : Prop :=
  ((protocol P).messageSize s (.ok m)).1 = .ok w.bytes.length ∧
    w.count = w.bytes.length

variable {P s}

theorem PeerWireProtocol.bytes_of_writeBytes {m : PeerWireProtocolMessage M E} {w : Written}
    (h : ((protocol P).writeBytes s (.ok m)).1 = .ok w) :
    ∃ w', (m.writeBytes P.toPeerProtocol s).1 = .ok w' ∧ w.bytes = w'.bytes ∧
      (w = w' ∨ ∃ msg, m = .bitsExtension (.extended msg)) := by
  simp only [protocol] at h
  split at h
  · rename_i w' s' hwrite
    refine ⟨w', congrArg Prod.fst hwrite, ?_⟩
    split at h
    · rename_i msg
      cases h
      exact ⟨rfl, .inr ⟨msg, rfl⟩⟩
    · cases h
      exact ⟨rfl, .inl rfl⟩
  · cases h

theorem sizeExact_of_ne_extended {m : PeerWireProtocolMessage M E} {w : Written}
    (hm : ∀ r, m ≠ .protExtension r) (hne : ∀ msg, m ≠ .bitsExtension (.extended msg))
    (h : ((protocol P).writeBytes s (.ok m)).1 = .ok w) : SizeExact P s m w := by
  obtain ⟨w', hwrite, -, rfl | ⟨msg, rfl⟩⟩ := bytes_of_writeBytes h
  · rcases exact_or_extended P.toPeerProtocol hm hwrite with
      ⟨size, hsize, hexact⟩ | ⟨msg, rfl, -⟩
    · exact ⟨hsize.trans (congrArg _ hexact.size_eq), hexact.count_eq⟩
    · exact absurd rfl (hne msg)
  · exact absurd rfl (hne msg)

theorem not_sizeExact_extended {msg : ExtendedMessage} {w : Written}
    (h : ((protocol P).writeBytes s (.ok (.bitsExtension (.extended msg)))).1 =
      .ok w) : ¬ SizeExact P s (.bitsExtension (.extended msg)) w := by
  rintro ⟨hsize, -⟩
  obtain ⟨w', hwrite, hbytes, -⟩ := bytes_of_writeBytes h
  have hlength := (msg.written hwrite).2
  have hsize' : 4 + (6 + msg.bencodeSize) = w.bytes.length := Except.ok.inj hsize
  rw [hbytes] at hsize'
  omega

/-- The size of a metadata message and the number that writing it returns differ by three. -/
theorem not_sizeExact_utMetadata {t : PeerExtensionProtocol S} {msg : UtMetadataMessage} {w : Written}
    (h : ((protocol (PeerExtensionProtocol.protocol P)).writeBytes t
      (.ok (.protExtension (.ok (.utMetadata msg))))).1 = .ok w) :
    ¬ SizeExact (PeerExtensionProtocol.protocol P) t (.protExtension (.ok (.utMetadata msg))) w := by
  rintro ⟨hsize, hcount⟩
  obtain ⟨w', hwrite, -, rfl | ⟨ext, hext⟩⟩ := bytes_of_writeBytes h
  · have hsize' : 4 + msg.messageSize = w.bytes.length := Except.ok.inj hsize
    simp only [writeBytes, PeerExtensionProtocol.protocol] at hwrite
    split at hwrite
    · have hcount' : w.count = 5 + (2 + msg.messageSize) := by
        simp only [PeerExtensionProtocolMessage.writeBytes,
          PeerExtensionProtocolMessage.writeUtMetadata] at hwrite
        split at hwrite
        · cases hwrite
        · obtain ⟨totalLen, -, hwrite⟩ := bind_eq_ok.mp hwrite
          cases hwrite
          rfl
      omega
    · cases hwrite
  · cases hext

variable (P s)

/-- Sizes are exact for all messages but extended messages and those of the metadata extension, for
which they never are. -/
theorem sizeExact_iff :
    (∀ (m : PeerWireProtocolMessage M E) (w : Written), (∀ r, m ≠ .protExtension r) →
      ((protocol P).writeBytes s (.ok m)).1 = .ok w →
        (SizeExact P s m w ↔ ∀ msg, m ≠ .bitsExtension (.extended msg))) ∧
    ∀ (t : PeerExtensionProtocol S) (msg : UtMetadataMessage) (w : Written),
      ((protocol (PeerExtensionProtocol.protocol P)).writeBytes t
        (.ok (.protExtension (.ok (.utMetadata msg))))).1 = .ok w →
          ¬ SizeExact (PeerExtensionProtocol.protocol P) t (.protExtension (.ok (.utMetadata msg))) w := by
  refine ⟨fun m w hm h => ⟨?_, fun hne => sizeExact_of_ne_extended hm hne h⟩,
    fun t msg w h => not_sizeExact_utMetadata h⟩
  rintro hexact msg rfl
  exact not_sizeExact_extended h hexact

end

theorem sizeExact_iff_choke :
    SizeExact (nullProtocol ExtendedMessage) () .choke
      (writeLengthIdPair chokeMessageLen (some chokeMessageId)) :=
  ((sizeExact_iff (nullProtocol ExtendedMessage) ()).1 .choke _ (fun _ h => (by cases h)) rfl).mpr
    fun _ h => (by cases h)

/-- Thirteen bytes are written, seventeen are the size, and zero is returned. -/
theorem extended_size_inexact :
    ∃ w : Written, ((protocol (nullProtocol ExtendedMessage)).writeBytes ()
        (.ok (.bitsExtension (.extended (.fromBuilder .new))))).1 = .ok w ∧
      w.bytes.length = 13 ∧ w.count = 0 ∧
      ((protocol (nullProtocol ExtendedMessage)).messageSize ()
        (.ok (.bitsExtension (.extended (.fromBuilder .new))))).1 = .ok 17 := by
  have hraw : (ExtendedMessage.fromBuilder .new).rawBencode = ascii "d1:mdee" := by
    change Bencode.encode (Bencode.benMap _) = _
    rw [Bencode.encode_benMap]
    decide +kernel
  have hsize : (ExtendedMessage.fromBuilder .new).bencodeSize = 7 := by
    rw [ExtendedMessage.bencodeSize, hraw]
    rfl
  have hwrite : ExtendedMessage.writeBytes (.fromBuilder .new) =
      .ok ⟨(writeLengthIdPair 9 (some extendedMessageId)).bytes ++ extendedMessageHandshakeId ::
        ascii "d1:mdee", 14⟩ := by
    rw [ExtendedMessage.writeBytes, hsize, hraw]
    rfl
  refine ⟨⟨(writeLengthIdPair 9 (some extendedMessageId)).bytes ++ extendedMessageHandshakeId ::
    ascii "d1:mdee", 0⟩, ?_, rfl, rfl, ?_⟩
  · simp only [protocol, writeBytes,
      BitsExtensionMessage.writeBytes, hwrite]
    rfl
  · change (.ok (4 + (6 + (ExtendedMessage.fromBuilder .new).bencodeSize)) : Run IoError Nat) = .ok 17
    rw [hsize]

section

variable {S M E : Type} (P : PeerProtocol S M E)

theorem parseKeepAlive_of_le {bytes : Buffer} (h : 4 ≤ bytes.len) :
    ∃ rest, (parseKeepAlive bytes : Nom.IResult (Except IoError (PeerWireProtocolMessage M E))) =
      .ok (rest, .ok .keepAlive) := by
  obtain ⟨⟨rest, id⟩, hid⟩ := Nom.opt_beU8 (bytes.drop 4)
  refine ⟨rest, ?_⟩
  simp only [parseKeepAlive, Nom.map, Nom.pair, Nom.beU32_of_le h, ok_bind, hid]

theorem PeerWireProtocolMessage.parseBytes_of_le {bytes : Buffer} (s : S) (h : 4 ≤ bytes.len) :
    parseBytes P bytes s = (.ok .keepAlive, s) := by
  obtain ⟨rest, hparse⟩ := parseKeepAlive_of_le (M := M) (E := E) h
  rw [parseBytes, parseMessage, Nom.altMut_of_ok hparse]
  rfl

/-- A message that was written is read back as itself if and only if it is a keep-alive. -/
theorem parse_written_iff_keepAlive (m : PeerWireProtocolMessage M E)
    (hm : ∀ r, m ≠ .protExtension r) (s s' : S) :
    (∃ (out : Buffer) (w : Written), (m.writeBytes P s).1 = .ok w ∧ w.bytes = out.data ∧
      (parseBytes P out s').1 = .ok m) ↔ m = .keepAlive := by
  constructor
  · rintro ⟨out, w, hwrite, hout, hparse⟩
    have hframed := (wellFramed_of_writeBytes P hm hwrite).1
    rw [hout] at hframed
    rw [parseBytes_of_le P s' hframed] at hparse
    exact (Except.ok.inj hparse).symm
  · rintro rfl
    refine ⟨⟨(writeLengthIdPair keepAliveMessageLen none).bytes, by decide⟩, _, rfl, rfl, ?_⟩
    rw [parseBytes_of_le P s' (by decide)]

end

theorem parse_written_iff_keepAlive_null :
    ∃ (out : Buffer) (w : Written),
      (keepAlive.writeBytes (nullProtocol Unit).toPeerProtocol ()).1 = .ok w ∧
      w.bytes = out.data ∧
      (parseBytes (nullProtocol Unit).toPeerProtocol out ()).1 = .ok .keepAlive :=
  (parse_written_iff_keepAlive (nullProtocol Unit).toPeerProtocol .keepAlive
    (fun _ h => (by cases h)) () ()).mpr rfl

theorem choke_read_as_keepAlive :
    (choke.writeBytes (nullProtocol Unit).toPeerProtocol ()).1 =
      .ok ⟨[0, 0, 0, 1, 0], 5⟩ ∧
    (parseBytes (nullProtocol Unit).toPeerProtocol
      ⟨[0, 0, 0, 1, 0], by decide⟩ ()).1 = .ok .keepAlive := by
  refine ⟨rfl, ?_⟩
  rw [parseBytes_of_le _ () (by decide)]

end BitTorrent.Peer
