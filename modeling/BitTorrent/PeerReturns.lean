import BitTorrent.PeerWire
import BitTorrent.BencodeReturns
import BitTorrent.BencodeBuffer

/-! Parsers of messages on any bytes. Whether a parser returns, with a message or with an error, or
panics, depends on three things in the bytes: a length that something is subtracted from, a length
that a slice is taken with, and integers in a dictionary that have to be a byte. -/

namespace BitTorrent.Peer

open Rust Bencode List Nat Nom Buffer

/-- The integer is that of a `u8`. -/
def FitsU8 (n : Int64) : Prop := 0 ≤ n.toInt ∧ n.toInt < 2 ^ 8

instance (n : Int64) : Decidable (FitsU8 n) :=
  inferInstanceAs (Decidable (0 ≤ n.toInt ∧ n.toInt < 2 ^ 8))

theorem returns_parsed_iff {α : Type} {r : Nom.IResult (Except IoError α)} {text : String} :
    Returns (parsed r text) ↔ Returns r := by
  rw [parsed, returns_bind_iff, returns_result_iff]
  refine and_iff_left fun res _ => ?_
  cases res with
  | ok value => exact returns_ofResult value.2
  | error err => exact .fail _

/-! ### Pieces -/

variable {bytes : Buffer} {len : Nat}

theorem PieceMessage.returns_parseBytes_iff : Returns (PieceMessage.parseBytes bytes len) ↔ 8 ≤ len := by
  rw [PieceMessage.parseBytes, returns_parsed_iff, PieceMessage.parsePiece, returns_bind_iff,
    returns_subUsize_iff]
  refine and_iff_left fun blockLen _ => returns_map ?_ fun _ => .ok _
  exact returns_pair (returns_beU32 bytes) fun rest =>
    returns_pair (returns_beU32 rest) fun rest => returns_take blockLen rest

/-! ### Extended messages -/

/-- An entry of the dictionary of ids: an integer under a text is a byte. -/
def EntryFits (entry : Bytes × Inner) : Prop :=
  ∀ n, entry.2 = .int n → isUtf8 entry.1 = true → FitsU8 n

variable {entry : Bytes × Inner}

theorem insertId_of_fits (idMap : HashMap ExtendedType UInt8)
    (h : EntryFits entry) : ∃ idMap', insertId idMap entry = .ok idMap' := by
  obtain ⟨key, value⟩ := entry
  unfold insertId
  split
  · rename_i strId n hkey hn
    have hutf8 : isUtf8 key = true := by
      by_contra hne
      rw [Str.fromUtf8, dif_neg hne] at hkey
      cases hkey
    have hint : value = .int n := by
      cases value <;> cases hn
      rfl
    obtain ⟨k, hk⟩ := tryUint_eq_some_iff.mpr (h n hint hutf8)
    exact ⟨_, by rw [hk]; rfl⟩
  · exact ⟨_, rfl⟩

theorem insertId_of_not_fits (idMap : HashMap ExtendedType UInt8)
    (h : ¬ EntryFits entry) : insertId idMap entry = .error .panic := by
  obtain ⟨key, value⟩ := entry
  simp only [EntryFits, not_forall] at h
  obtain ⟨n, rfl, hutf8, hn⟩ := h
  have hnone : tryUint 8 n.toInt = none := by
    cases hk : tryUint 8 n.toInt with
    | none => rfl
    | some k => exact absurd (tryUint_eq_some_iff.mp ⟨k, hk⟩) hn
  have hkey : Str.fromUtf8 key = some ⟨key, hutf8⟩ := dif_pos hutf8
  have hvalue : (convertInt IoError.convert (.int n) key).toOption = some n := rfl
  simp only [insertId, hkey, hvalue, hnone]
  rfl

theorem returns_foldlM_insertId_iff (ids : List (Bytes × Inner)) (idMap : HashMap ExtendedType UInt8) :
    Returns (ids.foldlM insertId idMap) ↔ ∀ entry ∈ ids, EntryFits entry := by
  induction ids generalizing idMap with
  | nil => exact ⟨fun _ entry h => (by cases h), fun _ => .ok idMap⟩
  | cons entry ids ih =>
    rw [foldlM_cons, forall_mem_cons]
    by_cases hfits : EntryFits entry
    · obtain ⟨idMap', hok⟩ := insertId_of_fits idMap hfits
      rw [hok, ok_bind, ih idMap']
      exact (and_iff_right hfits).symm
    · rw [insertId_of_not_fits idMap hfits]
      exact ⟨fun h => absurd h not_returns_panic, fun h => absurd h.1 hfits⟩

/-- The ids that the bytes of an extended message hold are bytes. -/
def ExtendedMessage.IdsFit (rawBencode : Buffer) : Prop :=
  ∀ r d ids, BencodeRef.decode rawBencode .default = .ok r → r.value = .dict d →
    OrderedMap.lookup d idMapKey = some (.dict ids) → ∀ entry ∈ ids, EntryFits entry

variable {d : List (Bytes × Inner)}

theorem returns_parseIdMap_iff : Returns (parseIdMap d) ↔
      ∀ ids, OrderedMap.lookup d idMapKey = some (.dict ids) → ∀ entry ∈ ids, EntryFits entry := by
  unfold parseIdMap
  cases hlookup : OrderedMap.lookup d idMapKey with
  | none =>
    rw [lookupAndConvertDict, lookup_of_eq_none hlookup]
    exact ⟨fun _ ids h => (by cases h), fun _ => .ok _⟩
  | some value =>
    rw [lookupAndConvertDict, lookup_of_eq_some hlookup]
    cases value with
    | dict ids =>
      refine (returns_foldlM_insertId_iff ids ∅).trans ⟨fun h ids' heq => ?_, fun h => h ids rfl⟩
      cases heq
      exact h
    | int n => exact ⟨fun _ ids h => (by cases h), fun _ => .ok _⟩
    | bytes b => exact ⟨fun _ ids h => (by cases h), fun _ => .ok _⟩
    | list l => exact ⟨fun _ ids h => (by cases h), fun _ => .ok _⟩

theorem ExtendedMessage.returns_ofBencode_iff {rawBencode : Buffer} :
    Returns (ExtendedMessage.ofBencode rawBencode) ↔ IdsFit rawBencode := by
  rw [ExtendedMessage.ofBencode, returns_decodeDict_iff]
  constructor
  · intro h r d ids hdecode hdict
    exact returns_parseIdMap_iff.mp (returns_bind_iff.mp (h r d hdecode hdict)).1 ids
  · intro h r d hdecode hdict
    refine Returns.bind (returns_parseIdMap_iff.mpr fun ids => ?_) fun idMap => .ok _
    exact h r d ids hdecode hdict

theorem ExtendedMessage.returns_parseBytes_iff {len : UInt32} :
    Returns (ExtendedMessage.parseBytes bytes len) ↔
      (len.toNat ≤ bytes.len → IdsFit (bytes.take len.toNat)) := by
  unfold ExtendedMessage.parseBytes
  simp only
  split
  · rename_i hle
    rw [returns_bind_iff, returns_result_iff, returns_ofBencode_iff]
    exact (and_iff_left fun _ _ => .ok _).trans ⟨fun h _ => h, fun h => h hle⟩
  · rename_i hlt
    exact ⟨fun _ hle => absurd hle hlt, fun _ => .fail _⟩

/-! ### Metadata messages -/

/-- The type of the metadata message in the bytes is a byte. -/
def UtMetadataMessage.TypeFits (bytes : Buffer) : Prop :=
  ∀ r d n, BencodeRef.decode bytes decodeOpts = .ok r → r.value = .dict d →
    OrderedMap.lookup d messageTypeKey = some (.int n) → FitsU8 n

theorem returns_parseMessageType_iff : Returns (parseMessageType d) ↔
      ∀ n, OrderedMap.lookup d messageTypeKey = some (.int n) → FitsU8 n := by
  rw [parseMessageType, returns_bind_iff, and_iff_right (returns_lookupAndConvertInt _ _ _)]
  constructor
  · intro h n hn
    have hreturns := h n (lookupAndConvertInt_eq_ok.mpr hn)
    rw [returns_bind_iff, returns_unwrapSome_iff, tryUint_eq_some_iff] at hreturns
    exact hreturns.1
  · intro h n hn
    refine Returns.bind ?_ fun _ => .ok _
    rw [returns_unwrapSome_iff, tryUint_eq_some_iff]
    exact h n (lookupAndConvertInt_eq_ok.mp hn)

theorem UtMetadataMessage.returns_ofDict_iff
    (hlen : len ≤ bytes.len) : Returns (ofDict d bytes len) ↔ Returns (parseMessageType d) := by
  rw [ofDict, returns_bind_iff]
  refine and_iff_left fun msgType _ => ?_
  refine (returns_lookupAndConvertInt _ _ _).bind fun piece => ?_
  rw [splitTo_eq_ok.mpr ⟨hlen, rfl⟩, ok_bind]
  simp only
  split
  · exact .ok _
  · split
    · exact .ok _
    · split
      · exact (returns_lookupAndConvertInt _ _ _).bind fun _ => .ok _
      · exact .ok _

theorem length_buffer_le {opts : BDecodeOpt} {r : BencodeRef}
    (h : BencodeRef.decode bytes opts = .ok r) : r.buffer.bytes.length ≤ bytes.len := by
  obtain ⟨next, hread, -⟩ := decode_sound h
  cases hread.located with
  | intro inBuffer _ _ _ =>
    have hstop : r.buffer.start + r.buffer.bytes.length ≤ bytes.data.length := inBuffer.1
    exact (le_add_left _ _).trans hstop

theorem UtMetadataMessage.returns_parseBytes_iff :
    Returns (UtMetadataMessage.parseBytes bytes) ↔ TypeFits bytes := by
  rw [UtMetadataMessage.parseBytes, returns_decodeDict_iff]
  constructor
  · intro h r d n hdecode hdict
    have hreturns := h r d hdecode hdict
    rw [returns_ofDict_iff (length_buffer_le hdecode)] at hreturns
    exact returns_parseMessageType_iff.mp hreturns n
  · intro h r d hdecode hdict
    rw [returns_ofDict_iff (length_buffer_le hdecode), returns_parseMessageType_iff]
    exact fun n => h r d n hdecode hdict

/-! ### Frames of extensions -/

theorem toNat_of_subUsize_frameLength {ε : Type} {input : Buffer} {k : Nat}
    (h : (subUsize (frameLength input) 2 : Run ε Nat) = .ok k) :
    (UInt32.ofNat k).toNat = frameLength input - 2 := by
  have hlength := toNat_frameLength input
  unfold subUsize at h
  split at h
  · cases h
    rw [UInt32.toNat_ofNat'] at hlength ⊢
    omega
  · cases h

section

variable {input : Buffer} {id ext : UInt8}

theorem readLength_of_getElem? (hid : input.data[4]? = some id) :
    beU32 input = .ok (input.drop 4, UInt32.ofNat (frameLength input)) := by
  obtain ⟨hlt, -⟩ := List.getElem?_eq_some_iff.mp hid
  exact beU32_of_le hlt.le

theorem readId_of_getElem? (hid : input.data[4]? = some id) :
    beU8 (input.drop 4) = .ok ((input.drop 4).drop 1, id) := by
  apply beU8_of_getElem?
  rw [data_drop, getElem?_drop]
  exact hid

theorem readHeader_of_getElem? (hid : input.data[4]? = some id) :
    pair beU32 beU8 input = .ok ((input.drop 4).drop 1, UInt32.ofNat (frameLength input), id) :=
  pair_of_ok (readLength_of_getElem? hid) (readId_of_getElem? hid)

theorem readExtensionHeader_of_getElem? (hid : input.data[4]? = some id) (hext : input.data[5]? = some ext) :
    ∃ rest, pair beU32 (pair beU8 beU8) input =
      .ok (rest, UInt32.ofNat (frameLength input), id, ext) := by
  have hext' : ((input.drop 4).drop 1).data[0]? = some ext := by
    rw [data_drop, data_drop, getElem?_drop, getElem?_drop]
    exact hext
  exact ⟨_, pair_of_ok (readLength_of_getElem? hid)
    (pair_of_ok (readId_of_getElem? hid) (beU8_of_getElem? hext'))⟩

theorem readHeader_of_getElem?_none (hid : input.data[4]? = none) :
    ∃ rest, pair beU32 beU8 input = fail (.error rest .eof) := by
  have hlen : input.len < 5 := lt_succ_of_le (getElem?_eq_none_iff.mp hid)
  rcases lt_or_ge input.len 4 with hlt | hge
  · exact ⟨_, pair_of_fail (beU32_of_lt hlt)⟩
  · refine ⟨_, pair_of_ok_of_fail (beU32_of_le hge) (beU8_of_lt ?_)⟩
    rw [len_drop]
    omega

theorem readExtensionHeader_of_getElem?_none (hext : input.data[5]? = none) :
    ∃ rest, pair beU32 (pair beU8 beU8) input = fail (.error rest .eof) := by
  have hlen : input.len < 6 := lt_succ_of_le (getElem?_eq_none_iff.mp hext)
  rcases lt_or_ge input.len 4 with hlt | hge
  · exact ⟨_, pair_of_fail (beU32_of_lt hlt)⟩
  · rcases lt_or_ge input.len 5 with hlt | hge'
    · refine ⟨_, pair_of_ok_of_fail (beU32_of_le hge) (pair_of_fail (beU8_of_lt ?_))⟩
      rw [len_drop]
      omega
    · refine ⟨_, pair_of_ok_of_fail (beU32_of_le hge) (pair_of_ok_of_fail
        (beU8_of_le ?_) (beU8_of_lt ?_))⟩
      · rw [len_drop]
        omega
      · rw [len_drop, len_drop]
        omega

theorem exists_id_of_ext (hext : input.data[5]? = some ext) : ∃ id, input.data[4]? = some id := by
  obtain ⟨hlt, -⟩ := List.getElem?_eq_some_iff.mp hext
  exact ⟨_, List.getElem?_eq_getElem (Nat.lt_of_succ_lt hlt)⟩

end

namespace BitsExtensionMessage

/-- The port message is taken from frames with its own id, and other frames are left to the next
alternative. -/
theorem portFn_cases (input : Buffer) : (∃ r, portFn input = .ok r ∧ input.data[4]? = some portMessageId) ∨
      ∃ rest code, portFn input = fail (.error rest code) := by
  cases hid : input.data[4]? with
  | none =>
    obtain ⟨rest, hread⟩ := readHeader_of_getElem?_none hid
    exact .inr ⟨rest, .eof, by rw [portFn, hread]; rfl⟩
  | some id =>
    have hlen : headerLen ≤ input.len := (List.getElem?_eq_some_iff.mp hid).1
    rw [portFn, readHeader_of_getElem? hid, ok_bind]
    simp only
    split
    · rename_i hport
      rw [sliceFrom_of_le hlen, ok_bind, hport.2]
      unfold PortMessage.parseBytes Nom.map Nom.beU16 Nom.map Nom.beUint
      split
      · exact .inl ⟨_, rfl, rfl⟩
      · exact .inr ⟨_, _, rfl⟩
    · exact .inr ⟨_, _, rfl⟩

/-- The extended message behind the header of the frame can be read. -/
def Readable (input : Buffer) : Prop :=
  input.data[4]? = some extendedMessageId → input.data[5]? = some extendedMessageHandshakeId →
    2 ≤ frameLength input ∧ (frameLength input - 2 ≤ input.len - 6 →
      ExtendedMessage.IdsFit ((input.drop 6).take (frameLength input - 2)))

theorem returns_extFn_iff {input : Buffer} : Returns (extFn input) ↔ Readable input := by
  cases hext : input.data[5]? with
  | none =>
    obtain ⟨rest, hread⟩ := readExtensionHeader_of_getElem?_none hext
    refine ⟨fun _ _ h => ?_, fun _ => ?_⟩
    · rw [hext] at h
      cases h
    · rw [extFn, hread]
      exact .fail _
  | some ext =>
    obtain ⟨id, hid⟩ := exists_id_of_ext hext
    obtain ⟨rest, hread⟩ := readExtensionHeader_of_getElem? hid hext
    have hlen : headerLen + 1 ≤ input.len := (List.getElem?_eq_some_iff.mp hext).1
    rw [extFn, hread, ok_bind, Readable, hid, hext]
    simp only
    split
    · rename_i hids
      obtain ⟨rfl, rfl⟩ := hids
      rw [sliceFrom_of_le hlen, ok_bind, toNat_frameLength, returns_bind_iff, returns_subUsize_iff]
      have hpayload : ∀ k, (subUsize (frameLength input) 2 : Run Nom.Err Nat) = .ok k →
          (Returns (ExtendedMessage.parseBytes (input.drop 6) (UInt32.ofNat k)) ↔
            (frameLength input - 2 ≤ input.len - 6 →
              ExtendedMessage.IdsFit ((input.drop 6).take (frameLength input - 2)))) := by
        intro k hk
        rw [ExtendedMessage.returns_parseBytes_iff, toNat_of_subUsize_frameLength hk, len_drop]
      constructor
      · rintro ⟨htwo, h⟩ - -
        refine ⟨htwo, (hpayload _ (if_pos htwo)).mp ?_⟩
        exact (returns_bind_iff.mp (h _ (if_pos htwo))).1
      · intro h
        obtain ⟨htwo, hids⟩ := h rfl rfl
        exact ⟨htwo, fun k hk => ((hpayload k hk).mpr hids).bind fun _ => .ok _⟩
    · rename_i hids
      refine ⟨fun _ hid' hext' => ?_, fun _ => .fail _⟩
      exact absurd ⟨Option.some.inj hid', Option.some.inj hext'⟩ hids

theorem returns_parseBytes_iff {input : Buffer} : Returns (parseBytes input) ↔ Readable input := by
  rw [parseBytes, alt]
  rcases portFn_cases input with ⟨r, hok, hid⟩ | ⟨rest, code, hfail⟩
  · rw [altMut_of_ok hok]
    refine ⟨fun _ hid' => ?_, fun _ => .ok r⟩
    rw [hid] at hid'
    exact absurd (Option.some.inj hid') (by decide)
  · rw [altMut_of_error hfail]
    exact returns_extFn_iff

end BitsExtensionMessage

namespace PeerExtensionProtocolMessage

variable {S M E : Type}

/-- The extension message behind the header of the frame is all there, and it can be read if it is
taken for a metadata message. -/
def Readable (bytes : Buffer) (extended : ExtendedMessage) : Prop :=
  6 ≤ bytes.len → bytes.data[4]? = some extendedMessageId →
    2 ≤ frameLength bytes ∧ 4 + frameLength bytes ≤ bytes.len ∧
      ∀ id, extended.queryId .utMetadata = some id →
        UtMetadataMessage.TypeFits ((bytes.take (4 + frameLength bytes)).drop 6)

variable {extended : ExtendedMessage}

theorem returns_parseExtensionsWithId_iff {id : UInt8} :
    Returns (parseExtensionsWithId bytes extended id : Run IoError (ExtensionResult M E)) ↔
      ∀ id', extended.queryId .utMetadata = some id' → UtMetadataMessage.TypeFits bytes := by
  unfold parseExtensionsWithId
  cases extended.queryId .utMetadata with
  | none => exact ⟨fun _ id' h => (by cases h), fun _ => .ok _⟩
  | some id' =>
    simp only
    rw [returns_bind_iff, UtMetadataMessage.returns_parseBytes_iff, and_iff_left]
    · exact ⟨fun h _ _ => h, fun h => h id' rfl⟩
    · intro res _
      cases res with
      | ok message => exact .ok _
      | error err => exact .ok _

theorem returns_utMetadataFn_iff :
    Returns (utMetadataFn extended bytes : Nom.IResult (Except IoError (ExtensionResult M E))) ↔
      Readable bytes extended := by
  cases hext : bytes.data[5]? with
  | none =>
    obtain ⟨rest, hread⟩ := readExtensionHeader_of_getElem?_none hext
    have hlen : bytes.len < 6 := lt_succ_of_le (getElem?_eq_none_iff.mp hext)
    refine ⟨fun _ h => absurd h (not_le.mpr hlen), fun _ => ?_⟩
    rw [utMetadataFn, hread]
    exact .fail _
  | some ext =>
    obtain ⟨id, hid⟩ := exists_id_of_ext hext
    obtain ⟨rest, hread⟩ := readExtensionHeader_of_getElem? hid hext
    have hlen : 6 ≤ bytes.len := (List.getElem?_eq_some_iff.mp hext).1
    rw [utMetadataFn, hread, ok_bind, Readable, hid]
    simp only
    split
    · rename_i hextended
      have hstop : extensionHeaderLen + frameLength bytes - 2 = 4 + frameLength bytes := by
        change 6 + frameLength bytes - 2 = _
        omega
      rw [toNat_frameLength, hstop, returns_bind_iff, returns_slice_iff]
      constructor
      · rintro ⟨⟨hstart, hle⟩, h⟩ - -
        have hreturns := (returns_bind_iff.mp (h _ (if_pos ⟨hstart, hle⟩))).1
        change 6 ≤ 4 + frameLength bytes at hstart
        refine ⟨by omega, hle, ?_⟩
        exact returns_parseExtensionsWithId_iff.mp (returns_result_iff.mp hreturns)
      · intro h
        obtain ⟨htwo, hle, htype⟩ := h hlen (congrArg some hextended)
        refine ⟨⟨?_, hle⟩, fun payload hpayload => ?_⟩
        · change 6 ≤ 4 + frameLength bytes
          omega
        · obtain ⟨-, -, rfl⟩ := slice_eq_ok.mp hpayload
          exact Returns.bind (returns_result_iff.mpr (returns_parseExtensionsWithId_iff.mpr htype))
            fun _ => .ok _
    · rename_i hne
      exact ⟨fun _ _ hid' => absurd (Option.some.inj hid') hne, fun _ => .ok _⟩

theorem returns_parseBytes_iff {P : PeerProtocol S M E} (hP : ∀ s bytes, Returns (P.parseBytes s bytes).1)
    {s : S} : Returns (parseBytes P bytes extended s).1 ↔ Readable bytes extended := by
  have hcustom : Returns (customFn P bytes s).1 :=
    Returns.bind (returns_result_iff.mpr (hP s bytes)) fun _ => .ok _
  have hres : Returns (parseBytes P bytes extended s).1 ↔
      Returns (parseExtensions P bytes extended s).1 := by
    change Returns (result _ >>= _) ↔ _
    rw [returns_bind_iff, returns_result_iff]
    refine and_iff_left fun res _ => ?_
    cases res with
    | ok value => exact returns_ofResult value.2
    | error err => exact .ok _
  rw [hres, parseExtensions, returns_altMut_iff hcustom, returns_utMetadataFn_iff]

end PeerExtensionProtocolMessage

/-- The five parsers return, with a message or an error, exactly on the bytes that pass the checks
they leave out. -/
theorem parsers_return_iff {S M E : Type} (P : PeerProtocol S M E)
    (hP : ∀ s bytes, Returns (P.parseBytes s bytes).1) :
    (∀ input, Returns (BitsExtensionMessage.parseBytes input) ↔
      BitsExtensionMessage.Readable input) ∧
    (∀ bytes len, Returns (ExtendedMessage.parseBytes bytes len) ↔
      (len.toNat ≤ bytes.len → ExtendedMessage.IdsFit (bytes.take len.toNat))) ∧
    (∀ bytes extended s, Returns (PeerExtensionProtocolMessage.parseBytes P bytes extended s).1 ↔
      PeerExtensionProtocolMessage.Readable bytes extended) ∧
    (∀ bytes, Returns (UtMetadataMessage.parseBytes bytes) ↔ UtMetadataMessage.TypeFits bytes) ∧
    ∀ bytes len, Returns (PieceMessage.parseBytes bytes len) ↔ 8 ≤ len :=
  ⟨fun _ => BitsExtensionMessage.returns_parseBytes_iff,
    fun _ _ => ExtendedMessage.returns_parseBytes_iff,
    fun _ _ _ => PeerExtensionProtocolMessage.returns_parseBytes_iff hP,
    fun _ => UtMetadataMessage.returns_parseBytes_iff,
    fun _ _ => PieceMessage.returns_parseBytes_iff⟩

theorem parsers_return_iff_null :
    ¬ BitsExtensionMessage.Readable ⟨[0, 0, 0, 0, 20, 0], by decide⟩ ∧
    ¬ ExtendedMessage.IdsFit (Buffer.take ⟨ascii "d1:md1:ai300eee", by decide⟩ 15) ∧
    ¬ PeerExtensionProtocolMessage.Readable ⟨[0, 0, 0, 9, 20, 3], by decide⟩ (.fromBuilder .new) ∧
    ¬ UtMetadataMessage.TypeFits ⟨ascii "d8:msg_typei300e5:piecei0ee", by decide⟩ ∧
    Returns (PieceMessage.parseBytes ⟨[], by decide⟩ 8) := by
  have hpanic : ∀ {ε α : Type} {x : Run ε α}, x = .error .panic → ¬ Returns x := by
    rintro _ _ _ rfl
    exact not_returns_panic
  obtain ⟨hbits, hextended, hprotocol, hmetadata, hpiece⟩ :=
    parsers_return_iff (nullProtocol Unit).toPeerProtocol fun _ _ => .fail _
  refine ⟨(hbits _).not.mp (hpanic rfl), fun h => (hextended _ 15).not.mp (hpanic ?_) fun _ => h,
    (hprotocol _ _ ()).not.mp (hpanic rfl), (hmetadata _).not.mp (hpanic ?_), (hpiece _ _).mpr le_rfl⟩
  · decide +kernel
  · decide +kernel

/-- A length of zero, an id of three hundred, a payload that is not there, a type of three hundred,
and a length below eight. -/
theorem parsers_panic :
    BitsExtensionMessage.parseBytes ⟨[0, 0, 0, 0, 20, 0], by decide⟩ = .error .panic ∧
    ExtendedMessage.parseBytes ⟨ascii "d1:md1:ai300eee", by decide⟩ 15 = .error .panic ∧
    (PeerExtensionProtocolMessage.parseBytes (nullProtocol Unit).toPeerProtocol
      ⟨[0, 0, 0, 9, 20, 3], by decide⟩ (.fromBuilder .new) ()).1 = .error .panic ∧
    UtMetadataMessage.parseBytes ⟨ascii "d8:msg_typei300e5:piecei0ee", by decide⟩ = .error .panic ∧
    PieceMessage.parseBytes ⟨[], by decide⟩ 7 = .error .panic := by
  refine ⟨rfl, ?_, rfl, ?_, rfl⟩
  · decide +kernel
  · decide +kernel

end BitTorrent.Peer
