import BitTorrent.PeerReturns

/-! Which extension a frame goes to. A peer sends extension messages with the ids we gave the
extensions in our extended message. The parser does not compare the id of a frame with them: every
complete frame goes to the metadata extension if that has an id at all, and to none otherwise, so the
protocol for custom extensions never sees one. -/

namespace BitTorrent.Peer

open Rust PeerExtensionProtocolMessage

/-- A frame of the extension with the id `ext`, all of it and nothing else. -/
structure ExtensionFrame (frame : Buffer) (ext : UInt8) : Prop where
  complete : frame.len = 4 + frameLength frame
  id_eq : frame.data[4]? = some extendedMessageId
  ext_eq : frame.data[5]? = some ext

section

variable {S M E : Type}

/-- The frame is given to the protocol for custom extensions. -/
def handToCustom (P : PeerProtocol S M E) (frame : Buffer) (s : S) :
    Run IoError (ExtensionResult M E) × S :=
  ((do .ok (.ok (.custom (← (P.parseBytes s frame).1)))), (P.parseBytes s frame).2)

/-- The frame goes where the ids in our extended message say. -/
structure Dispatched (ours : ExtendedMessage) (ext : UInt8) (P : PeerProtocol S M E) (frame : Buffer)
    (s : S) : Prop where
  metadata : ∀ r, (parseBytes P frame ours s).1 = .ok r →
    (∃ msg, r = .ok (.utMetadata msg)) ∨ (∃ err, r = .error (.utMetadataError err)) →
      ours.queryId .utMetadata = some ext
  custom : ours.queryId .utMetadata ≠ some ext →
    parseBytes P frame ours s = handToCustom P frame s

variable {ours : ExtendedMessage} {ext : UInt8} {frame : Buffer}

theorem ExtensionFrame.utMetadataFn_eq (h : ExtensionFrame frame ext) :
    (utMetadataFn ours frame : Nom.IResult (Except IoError (ExtensionResult M E))) =
      result (parseExtensionsWithId ((frame.take frame.len).drop 6) ours ext) >>= fun res =>
        .ok (frame, res) := by
  obtain ⟨rest, hread⟩ := readExtensionHeader_of_getElem? h.id_eq h.ext_eq
  have hlen : 6 ≤ frame.len := (List.getElem?_eq_some_iff.mp h.ext_eq).1
  have hstop : extensionHeaderLen + frameLength frame - 2 = frame.len := by
    have := h.complete
    change 6 + frameLength frame - 2 = _
    omega
  have hslice : (frame.slice extensionHeaderLen frame.len : Run Nom.Err Buffer) =
      .ok ((frame.take frame.len).drop 6) := Buffer.slice_eq_ok.mpr ⟨hlen, Nat.le_refl _, rfl⟩
  rw [utMetadataFn, hread, ok_bind]
  simp only [if_true, toNat_frameLength, hstop, hslice, ok_bind]

theorem ExtensionFrame.parseBytes_eq (h : ExtensionFrame frame ext) (P : PeerProtocol S M E) (s : S) :
    parseBytes P frame ours s = (parseExtensionsWithId ((frame.take frame.len).drop 6) ours ext, s) := by
  have hfn : (utMetadataFn ours frame : Nom.IResult (Except IoError (ExtensionResult M E))) = _ :=
    h.utMetadataFn_eq
  rw [parseBytes, parseExtensions, Nom.altMut, hfn]
  -- however reading the metadata message ends, the next alternative is not tried
  generalize (parseExtensionsWithId ((frame.take frame.len).drop 6) ours ext :
    Run IoError (ExtensionResult M E)) = parse
  rcases parse with (_ | _ | e) | r
  · rfl
  · rfl
  · rfl
  · rfl

theorem parseExtensionsWithId_ne_custom (ext : UInt8) {payload : Buffer} {item : Except E M} :
    (parseExtensionsWithId payload ours ext : Run IoError (ExtensionResult M E)) ≠
      .ok (.ok (.custom item)) := by
  intro h
  unfold parseExtensionsWithId at h
  split at h
  · cases h
  · obtain ⟨res, -, h⟩ := bind_eq_ok.mp h
    cases res <;> cases h

end

/-- A request for the first piece of metadata, in a frame of the extension with the given id. -/
def firstRequestFrame (ext : UInt8) : Buffer :=
  ⟨[0, 0, 0, 27, 20, ext] ++ ascii "d8:msg_typei0e5:piecei0ee",
    by change 31 ≤ isizeMax; decide⟩

/-- Frames of an extension are dispatched by their id, for all custom protocols, if and only if the
id is the one we gave the metadata extension. -/
theorem dispatched_iff (ours : ExtendedMessage) (ext : UInt8) (frame : Buffer)
    (hframe : ExtensionFrame frame ext) :
    (∀ (S M E : Type) (P : PeerProtocol S M E) (s : S), Dispatched ours ext P frame s) ↔
      ours.queryId .utMetadata = some ext := by
  constructor
  · intro h
    by_contra hne
    have hcustom := (h Unit Unit IoError (unitProtocol Unit).toPeerProtocol ()).custom hne
    rw [hframe.parseBytes_eq] at hcustom
    exact parseExtensionsWithId_ne_custom ext (congrArg Prod.fst hcustom)
  · intro hid S M E P s
    exact ⟨fun _ _ _ => hid, fun hne => absurd hid hne⟩

theorem dispatched_iff_idThree :
    Dispatched metadataExtended 3 (unitProtocol Unit).toPeerProtocol (firstRequestFrame 3) () :=
  (dispatched_iff metadataExtended 3 (firstRequestFrame 3) ⟨by decide, rfl, rfl⟩).mpr (by decide) Unit Unit
    IoError _ ()

/-- A frame of the extension with the id seven is read as a metadata message. -/
theorem idSeven_read_as_metadata :
    metadataExtended.queryId .utMetadata = some 3 ∧
    (parseBytes (unitProtocol Unit).toPeerProtocol (firstRequestFrame 7)
      metadataExtended ()).1 = .ok (.ok (.utMetadata (.request ⟨0, 25⟩))) := by
  have hframe : ExtensionFrame (firstRequestFrame 7) 7 := ⟨by decide, rfl, rfl⟩
  have hparse : UtMetadataMessage.parseBytes
      (((firstRequestFrame 7).take (firstRequestFrame 7).len).drop 6) =
        .ok (.ok (.request ⟨0, 25⟩)) := by decide +kernel
  refine ⟨by decide, ?_⟩
  rw [hframe.parseBytes_eq]
  change (UtMetadataMessage.parseBytes _ >>= _) = _
  rw [hparse]
  rfl

end BitTorrent.Peer
