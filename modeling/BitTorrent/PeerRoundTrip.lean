import BitTorrent.PeerReturns

/-! Reading back what was written. The dictionary of a metadata message ends where its encoding ends,
whatever follows it, so the data behind it is split off there. An extended message comes back with every
field it was built with, as long as the entries added to it use none of its own keys. -/

open BitTorrent.Rust BitTorrent.Bencode OrderedMap

open List hiding Vector

variable {out : Buffer}

namespace BitTorrent.Bencode

variable {v : Inner}

theorem Inner.Valid.ordered (h : v.Valid) : v.Ordered := by
  induction h with
  | int n => exact .int n
  | bytes _ => exact .bytes _
  | list _ ih => exact .list ih
  | dict hsorted _ _ ih => exact .dict hsorted ih

/-- The decoder stops at the end of an encoding, if it need not read everything. -/
theorem Inner.Shallow.decode_append {k : Nat} (h : Shallow k v) (opts : BDecodeOpt)
    (hk : k ≤ opts.maxRecursion) {rest : Bytes} (hout : out.data = encode v ++ rest)
    (hrest : opts.enforceFullDecode = true → rest = []) :
    ∃ r, BencodeRef.decode out opts = .ok r ∧ r.value = v ∧ r.buffer = ⟨0, encode v⟩ := by
  have hfits : (encode v).length ≤ isizeMax := by
    have hlen := out.fits
    rw [hout, length_append] at hlen
    omega
  obtain ⟨r, hr, heqv, hbuffer⟩ := (spelled_spell (h.ordered.valid hfits)).decode_complete out rest
    (by rw [text_spell, hout]) hrest (h.height_le.trans hk) (fun _ => rfl)
  refine ⟨r, hr, ?_, ?_⟩
  · rw [heqv.value_eq, value_spell]
  · rw [hbuffer, text_spell]

end BitTorrent.Bencode

namespace BitTorrent.Peer

theorem tryUint_ofNat {w n : Nat} (hn : n < 2 ^ w) (hw : n < 2 ^ 63) :
    tryUint w (Int64.ofNat n).toInt = some n := by
  have hint : ((n : Int) < 2 ^ w) := by exact_mod_cast hn
  rw [Int64.toInt_ofNat_of_lt hw, tryUint, if_pos ⟨Int.natCast_nonneg n, hint⟩, Int.toNat_natCast]

/-! ### Metadata messages -/

variable {root : List (Bytes × Inner)}

namespace UtMetadataMessage

/-- The entries of the dictionary of a message. -/
def entries : UtMetadataMessage → List (Bytes × Inner)
  | .request msg =>
    [(messageTypeKey, .int (Int64.ofNat requestMessageTypeId.toNat)), (pieceIndexKey, .int msg.piece)]
  | .data msg =>
    [(messageTypeKey, .int (Int64.ofNat dataMessageTypeId.toNat)), (pieceIndexKey, .int msg.piece),
      (totalSizeKey, .int msg.totalSize)]
  | .reject msg =>
    [(messageTypeKey, .int (Int64.ofNat rejectMessageTypeId.toNat)), (pieceIndexKey, .int msg.piece)]

def payload : UtMetadataMessage → Bytes
  | .data msg => msg.data
  | _ => []

/-- The messages that are built with `new`. -/
inductive Built : UtMetadataMessage → Prop where
  | request (piece : Int64) : Built (.request (.new piece))
  | data (piece totalSize : Int64) (data : Bytes) : Built (.data (.new piece totalSize data))
  | reject (piece : Int64) : Built (.reject (.new piece))

def header (msg : UtMetadataMessage) : Bytes := encode (benMap msg.entries)

theorem writeBytes_eq (msg : UtMetadataMessage) : msg.writeBytes = msg.header ++ msg.payload := by
  cases msg with
  | request msg => exact (append_nil _).symm
  | data msg => rfl
  | reject msg => exact (append_nil _).symm

theorem shallow_entries (msg : UtMetadataMessage) : (benMap msg.entries).Shallow 2 := by
  apply Inner.Shallow.benMap
  intro e he
  cases msg with
  | request msg =>
    rcases mem_pair.mp he with rfl | rfl
    · exact .int _
    · exact .int _
  | data msg =>
    rcases mem_cons.mp he with rfl | he
    · exact .int _
    · rcases mem_pair.mp he with rfl | rfl
      · exact .int _
      · exact .int _
  | reject msg =>
    rcases mem_pair.mp he with rfl | rfl
    · exact .int _
    · exact .int _

theorem parseMessageType_eq {typeId : UInt8}
    (h : lookup root messageTypeKey = some (.int (Int64.ofNat typeId.toNat))) :
    parseMessageType root = .ok typeId := by
  have hlt := typeId.toNat_lt
  rw [parseMessageType, lookupAndConvertInt_eq h, ok_bind, tryUint_ofNat (by omega) (by omega)]
  show Except.ok (UInt8.ofNat typeId.toNat) = _
  rw [UInt8.ofNat_toNat]

variable {msg : UtMetadataMessage}

theorem splitTo_header (hout : out.data = msg.header ++ msg.payload) :
    out.splitTo msg.header.length = (.ok (out.take msg.header.length, out.drop msg.header.length) : Run IoError _) ∧
      (out.take msg.header.length).len = msg.header.length ∧
      (out.drop msg.header.length).data = msg.payload := by
  have hlen : msg.header.length ≤ out.len := by
    rw [Buffer.len, hout, length_append]
    omega
  refine ⟨by rw [Buffer.splitTo, if_pos hlen], ?_, ?_⟩
  · show (out.data.take msg.header.length).length = msg.header.length
    rw [hout, take_left]
  · show out.data.drop msg.header.length = msg.payload
    rw [hout, drop_left]

theorem ofDict_of_built (h : msg.Built) (hout : out.data = msg.header ++ msg.payload) :
    ofDict (mapOf msg.entries) out msg.header.length = .ok (.ok msg) := by
  obtain ⟨hsplit, htake, hdrop⟩ := splitTo_header hout
  have hfound : ∀ {key : Bytes} {v : Inner}, (key, v) ∈ msg.entries →
      lookup (mapOf msg.entries) key = some v := by
    intro key v hmem
    refine lookup_mapOf msg.entries ?_ hmem
    cases msg <;> simp only [entries, map_cons, map_nil] <;> decide
  cases h with
  | request piece =>
    rw [ofDict, parseMessageType_eq (hfound mem_cons_self), ok_bind, parsePieceIndex,
      lookupAndConvertInt_eq (hfound (mem_cons_of_mem _ mem_cons_self)), ok_bind, hsplit, ok_bind]
    show (if requestMessageTypeId = requestMessageTypeId then _ else _) = _
    rw [if_pos rfl, UtMetadataRequestMessage.withBytes, htake]
    rfl
  | data piece totalSize data =>
    rw [ofDict, parseMessageType_eq (hfound mem_cons_self), ok_bind, parsePieceIndex,
      lookupAndConvertInt_eq (hfound (mem_cons_of_mem _ mem_cons_self)), ok_bind, hsplit, ok_bind]
    show (if dataMessageTypeId = requestMessageTypeId then _ else _) = _
    rw [if_neg (by decide), if_neg (by decide), if_pos rfl, parseTotalSize, lookupAndConvertInt_eq
      (hfound (mem_cons_of_mem _ (mem_cons_of_mem _ mem_cons_self))), ok_bind,
      UtMetadataDataMessage.withBytes, htake, hdrop]
    rfl
  | reject piece =>
    rw [ofDict, parseMessageType_eq (hfound mem_cons_self), ok_bind, parsePieceIndex,
      lookupAndConvertInt_eq (hfound (mem_cons_of_mem _ mem_cons_self)), ok_bind, hsplit, ok_bind]
    show (if rejectMessageTypeId = requestMessageTypeId then _ else _) = _
    rw [if_neg (by decide), if_pos rfl, UtMetadataRejectMessage.withBytes, htake]
    rfl

theorem messageSize_of_built (h : msg.Built) : msg.messageSize = (msg.header ++ msg.payload).length := by
  rw [length_append]
  cases h <;> rfl

/-- A metadata message is read back as it was built, and its payload begins where its dictionary ends. -/
theorem parseBytes_writeBytes (msg : UtMetadataMessage) (hbuilt : msg.Built) (out : Buffer)
    (hout : out.data = msg.writeBytes) :
    parseBytes out = .ok (.ok msg) ∧ msg.messageSize = out.len ∧
      ∃ r, BencodeRef.decode out decodeOpts = .ok r ∧ r.buffer.bytes.length = msg.header.length ∧
        out.data.drop r.buffer.bytes.length = msg.payload := by
  rw [writeBytes_eq] at hout
  obtain ⟨r, hr, hvalue, hbuffer⟩ := (shallow_entries msg).decode_append decodeOpts (by decide) hout
    (fun h => (by cases h))
  have hlength : r.buffer.bytes.length = msg.header.length := by
    rw [hbuffer]
    rfl
  refine ⟨?_, ?_, r, hr, hlength, ?_⟩
  · have hdict : convertDict IoError.convert r.value rootErrorKey = .ok (mapOf msg.entries) := by
      rw [hvalue, convertDict_eq_ok]
      rfl
    rw [parseBytes, mapErr_eq_ok.mpr hr, ok_bind, hdict, ok_bind, hlength]
    exact ofDict_of_built hbuilt hout
  · rw [messageSize_of_built hbuilt, Buffer.len, hout]
  · rw [hlength, hout, List.drop_left]

/-- Data that looks like bencode itself. -/
def bencodedData : UtMetadataMessage := .data (.new 3 40 (ascii "d1:ai0ee"))

def bencodedDataBytes : Buffer := ⟨ascii "d8:msg_typei1e5:piecei3e10:total_sizei40eed1:ai0ee", by decide⟩

theorem bencodedDataBytes_eq : bencodedDataBytes.data = bencodedData.writeBytes := by
  rw [writeBytes_eq, header, encode_benMap]
  decide +kernel

theorem parseBytes_writeBytes_bencodedData :
    parseBytes bencodedDataBytes = .ok (.ok bencodedData) ∧ bencodedData.messageSize = bencodedDataBytes.len ∧
      ∃ r, BencodeRef.decode bencodedDataBytes decodeOpts = .ok r ∧
        r.buffer.bytes.length = bencodedData.header.length ∧
        bencodedDataBytes.data.drop r.buffer.bytes.length = bencodedData.payload :=
  parseBytes_writeBytes bencodedData (.data 3 40 (ascii "d1:ai0ee")) bencodedDataBytes bencodedDataBytes_eq

end UtMetadataMessage

/-! ### Extended messages -/

variable {extType a b : ExtendedType}

namespace ExtendedType

/-- A type that its own name leads back to: no custom type has the name of one that is built in. -/
def Canonical (extType : ExtendedType) : Prop := fromId extType.id = extType

theorem canonical_of_names
    (h : ∀ name, extType = .custom name → name ≠ utMetadataId ∧ name ≠ utPexId) : extType.Canonical := by
  cases extType with
  | utMetadata => exact if_pos rfl
  | utPex =>
    have hne : utPexId ≠ utMetadataId := by decide
    show (if utPexId = utMetadataId then _ else if utPexId = utPexId then _ else _) = _
    rw [if_neg hne, if_pos rfl]
  | custom name =>
    obtain ⟨hmetadata, hpex⟩ := h name rfl
    show (if name = utMetadataId then _ else if name = utPexId then _ else _) = _
    rw [if_neg hmetadata, if_neg hpex]
    rfl

theorem Canonical.id_injective (ha : a.Canonical) (hb : b.Canonical)
    (h : a.id.bytes = b.id.bytes) : a = b := by
  have hid : a.id = b.id := by
    cases hida : a.id
    cases hidb : b.id
    rw [hida, hidb] at h
    cases h
    rfl
  rw [← ha, hid, hb]

end ExtendedType

/-- The entry of a type in the dictionary of ids. -/
def idEntry (extType : ExtendedType) (value : UInt8) : Bytes × Inner :=
  (extType.id.bytes, .int (Int64.ofNat value.toNat))

theorem idEntry_injective {x y : UInt8} (ha : a.Canonical) (hb : b.Canonical)
    (h : idEntry a x = idEntry b y) : a = b ∧ x = y := by
  refine ⟨ha.id_injective hb (congrArg Prod.fst h), ?_⟩
  have hx := x.toNat_lt
  have hy := y.toNat_lt
  have hint := congrArg Int64.toInt (Inner.int.inj (congrArg Prod.snd h))
  rw [Int64.toInt_ofNat_of_lt (by omega), Int64.toInt_ofNat_of_lt (by omega)] at hint
  exact UInt8.toNat_inj.mp (Int.ofNat_inj.mp hint)

theorem insertId_idEntry (idMap : HashMap ExtendedType UInt8) (h : extType.Canonical) (value : UInt8) :
    insertId idMap (idEntry extType value) = .ok (idMap.insert extType value) := by
  have hlt := value.toNat_lt
  have hkey : Str.fromUtf8 extType.id.bytes = some extType.id := dif_pos extType.id.utf8
  have hvalue : (convertInt IoError.convert (.int (Int64.ofNat value.toNat)) extType.id.bytes).toOption =
      some (Int64.ofNat value.toNat) := rfl
  simp only [insertId, idEntry, hkey, hvalue, tryUint_ofNat (show value.toNat < 2 ^ 8 by omega)
    (show value.toNat < 2 ^ 63 by omega), unwrapSome, ok_bind, UInt8.ofNat_toNat]
  rw [h]

/-- Entries of distinct types lead to a map with these types, besides what was there. -/
theorem foldlM_insertId {d : List (Bytes × Inner)}
    (hd : ∀ e ∈ d, ∃ extType value, extType.Canonical ∧ e = idEntry extType value)
    (hnodup : (d.map Prod.fst).Nodup) (idMap : HashMap ExtendedType UInt8) :
    ∃ idMap', d.foldlM insertId idMap = .ok idMap' ∧
      (∀ t v, t.Canonical → idEntry t v ∈ d → idMap'.lookup t = some v) ∧
      ∀ t, (∀ v, t.Canonical → idEntry t v ∉ d) → idMap'.lookup t = idMap.lookup t := by
  induction d generalizing idMap with
  | nil => exact ⟨idMap, rfl, fun t v _ h => (by cases h), fun t _ => rfl⟩
  | cons e d ih =>
    obtain ⟨extType, value, hcanonical, rfl⟩ := hd e mem_cons_self
    obtain ⟨hfresh, hnodup⟩ := nodup_cons.mp hnodup
    obtain ⟨idMap', hfold, hmem, hother⟩ :=
      ih (fun e' he' => hd e' (mem_cons_of_mem _ he')) hnodup (idMap.insert extType value)
    have habsent : ∀ v, extType.Canonical → idEntry extType v ∉ d :=
      fun v _ hv => hfresh (mem_map.mpr ⟨_, hv, rfl⟩)
    refine ⟨idMap', ?_, ?_, ?_⟩
    · rw [foldlM_cons, insertId_idEntry idMap hcanonical value]
      exact hfold
    · intro t v ht hv
      rcases mem_cons.mp hv with heq | hv
      · obtain ⟨rfl, rfl⟩ := idEntry_injective ht hcanonical heq
        rw [hother t habsent, AList.lookup_insert]
      · exact hmem t v ht hv
    · intro t ht
      have hne : t ≠ extType := by
        rintro rfl
        exact ht value hcanonical mem_cons_self
      rw [hother t fun v hv hin => ht v hv (mem_cons_of_mem _ hin), AList.lookup_insert_ne hne]

/-- The keys an extended message uses itself. -/
def reservedKeys : List Bytes :=
  [idMapKey, clientIdKey, clientTcpPortKey, ourIpKey, clientIpv6AddrKey, clientIpv4AddrKey, clientMaxRequestsKey,
    metadataSizeKey]

/-- What an entry leads to that may be there or not. -/
def someEntry (e : Bytes × Option Inner) : Option (Bytes × Inner) := e.2.map fun v => (e.1, v)

variable {α : Type}

theorem filterMap_cons_toList {β : Type} (f : α → Option β) (a : α) (l : List α) :
    (a :: l).filterMap f = (f a).toList ++ l.filterMap f := by
  rw [filterMap_cons]
  cases f a <;> rfl

variable {key : Bytes} {v : Option Inner}

theorem mem_filterMap_someEntry {optional : List (Bytes × Option Inner)} (hnodup : (optional.map Prod.fst).Nodup)
    (h : (key, v) ∈ optional) (w : Inner) : (key, w) ∈ optional.filterMap someEntry ↔ v = some w := by
  rw [mem_filterMap]
  constructor
  · rintro ⟨⟨key', v'⟩, hmem, hentry⟩
    obtain ⟨w', hv', heq⟩ := Option.map_eq_some_iff.mp hentry
    cases heq
    have hsame := inj_on_of_nodup_map hnodup hmem h rfl
    cases hsame
    exact hv'
  · rintro rfl
    exact ⟨(key, some w), h, rfl⟩

namespace ExtendedMessageBuilder

variable {builder : ExtendedMessageBuilder}

/-- The entries for the fields that may be set or not. -/
def optionalEntries (builder : ExtendedMessageBuilder) : List (Bytes × Option Inner) :=
  [(clientIdKey, builder.ourId.map fun clientId => .bytes clientId.bytes),
    (clientTcpPortKey, builder.ourTcpPort.map fun tcpPort => .int (Int64.ofNat tcpPort.toNat)),
    (ourIpKey, builder.theirIp.map fun ourIp => .bytes (ipBytes ourIp)),
    (clientIpv6AddrKey, builder.ourIpv6Addr.map fun addr => .bytes (ipv6ToBytesBe addr)),
    (clientIpv4AddrKey, builder.ourIpv4Addr.map fun addr => .bytes (ipv4ToBytesBe addr)),
    (clientMaxRequestsKey, builder.ourMaxRequests.map .int),
    (metadataSizeKey, builder.metadataSize.map .int)]

theorem keys_optionalEntries (builder : ExtendedMessageBuilder) :
    builder.optionalEntries.map Prod.fst = reservedKeys.tail := rfl

theorem rootEntries_eq (builder : ExtendedMessageBuilder) :
    builder.rootEntries = (idMapKey, benMap builder.idEntries) ::
      ((builder.customEntries.entries.map fun e => (e.1.bytes, e.2.inner)) ++
        builder.optionalEntries.filterMap someEntry) := by
  rw [optionalEntries]
  simp only [filterMap_cons_toList, someEntry, Option.map_map, filterMap_nil, append_nil, rootEntries,
    append_assoc, singleton_append]
  rfl

/-- A builder whose additions keep off the names and keys that are built in, and are not nested too deep. -/
structure Plain (builder : ExtendedMessageBuilder) : Prop where
  keys : ∀ key ∈ builder.customEntries, key.bytes ∉ reservedKeys
  names : ∀ name, .custom name ∈ builder.idMap → name ≠ ExtendedType.utMetadataId ∧ name ≠ ExtendedType.utPexId
  depth : ∀ key value, builder.customEntries.lookup key = some value →
    value.inner.height < BDecodeOpt.default.maxRecursion

theorem mem_customEntries {e : Sigma fun _ : Str => BencodeMut} (h : e ∈ builder.customEntries.entries) :
    builder.customEntries.lookup e.1 = some e.2 := AList.mem_lookup_iff.mpr h

theorem nodup_rootEntries (h : builder.Plain) : (builder.rootEntries.map Prod.fst).Nodup := by
  have hreserved : reservedKeys.Nodup := by decide
  have hoptional : (builder.optionalEntries.filterMap someEntry).map Prod.fst |>.Sublist reservedKeys.tail := by
    rw [← keys_optionalEntries builder]
    induction builder.optionalEntries with
    | nil => exact .slnil
    | cons e optional ih =>
      rw [filterMap_cons]
      obtain ⟨key, v⟩ := e
      cases v with
      | none => exact ih.cons key
      | some v => exact ih.cons_cons key
  have hcustom : ∀ key ∈ builder.customEntries.entries.map fun e => e.1.bytes, key ∉ reservedKeys := by
    intro key hkey
    obtain ⟨e, he, rfl⟩ := mem_map.mp hkey
    exact h.keys e.1 (AList.lookup_isSome.mp (by rw [mem_customEntries he]; rfl))
  rw [rootEntries_eq, map_cons, map_append, map_map]
  have htail : ∀ key ∈ (builder.optionalEntries.filterMap someEntry).map Prod.fst, key ∈ reservedKeys.tail :=
    fun key hkey => hoptional.subset hkey
  refine nodup_cons.mpr ⟨?_, nodup_append.mpr ⟨?_, ?_, ?_⟩⟩
  · intro hmem
    rcases mem_append.mp hmem with hmem | hmem
    · exact hcustom _ hmem mem_cons_self
    · exact (nodup_cons.mp hreserved).1 (htail _ hmem)
  · refine List.Nodup.map_on ?_ builder.customEntries.nodupKeys.nodup
    intro a ha b hb hbytes
    have hkey : a.1 = b.1 := by
      cases hida : a.1
      cases hidb : b.1
      rw [Function.comp_apply, Function.comp_apply, hida, hidb] at hbytes
      cases hbytes
      rfl
    have hvalue := mem_customEntries ha
    rw [hkey, mem_customEntries hb] at hvalue
    obtain ⟨ka, va⟩ := a
    obtain ⟨kb, vb⟩ := b
    cases hkey
    cases hvalue
    rfl
  · exact hoptional.nodup (nodup_cons.mp hreserved).2
  · rintro a ha b hb rfl
    exact hcustom a ha (mem_of_mem_tail (htail a hb))

theorem lookup_optional (h : builder.Plain) (hmem : (key, v) ∈ builder.optionalEntries) :
    lookup (mapOf builder.rootEntries) key = v := by
  have hkey : key ∈ reservedKeys.tail := keys_optionalEntries builder ▸ mem_map_of_mem hmem
  apply lookup_mapOf_eq (nodup_rootEntries h)
  intro w
  rw [rootEntries_eq, mem_cons, mem_append,
    mem_filterMap_someEntry (by rw [keys_optionalEntries]; decide) hmem]
  constructor
  · rintro (heq | hcustom | hv)
    · have hreserved : reservedKeys.Nodup := by decide
      cases heq
      exact absurd hkey (nodup_cons.mp hreserved).1
    · obtain ⟨e, he, heq⟩ := mem_map.mp hcustom
      cases heq
      exact absurd (mem_of_mem_tail hkey) (h.keys e.1 (AList.lookup_isSome.mp (by rw [mem_customEntries he]; rfl)))
    · exact hv
  · exact fun hv => Or.inr (Or.inr hv)

theorem lookup_idMapKey (h : builder.Plain) :
    lookup (mapOf builder.rootEntries) idMapKey = some (benMap builder.idEntries) := by
  apply lookup_mapOf _ (nodup_rootEntries h)
  rw [rootEntries_eq]
  exact mem_cons_self

theorem shallow_rootEntries (h : builder.Plain) :
    (benMap builder.rootEntries).Shallow BDecodeOpt.default.maxRecursion := by
  apply Inner.Shallow.benMap (k := 49)
  intro e he
  rw [rootEntries_eq] at he
  rcases mem_cons.mp he with rfl | he
  · apply Inner.Shallow.benMap (k := 48)
    intro e he
    obtain ⟨x, -, rfl⟩ := mem_map.mp he
    exact .int _
  · rcases mem_append.mp he with he | he
    · obtain ⟨x, hx, rfl⟩ := mem_map.mp he
      exact ⟨x.2.valid.ordered, Nat.le_of_lt_succ (h.depth x.1 x.2 (mem_customEntries hx))⟩
    · obtain ⟨⟨key, v⟩, hmem, hentry⟩ := mem_filterMap.mp he
      obtain ⟨w, rfl, rfl⟩ := Option.map_eq_some_iff.mp hentry
      simp only [optionalEntries, mem_cons, Prod.mk.injEq, not_mem_nil, or_false,
        eq_comm (a := some w), Option.map_eq_some_iff] at hmem
      rcases hmem with ⟨-, a, -, rfl⟩ | ⟨-, a, -, rfl⟩ | ⟨-, a, -, rfl⟩ | ⟨-, a, -, rfl⟩ | ⟨-, a, -, rfl⟩ |
        ⟨-, a, -, rfl⟩ | ⟨-, a, -, rfl⟩
      · exact .bytes _
      · exact .int _
      · exact .bytes _
      · exact .bytes _
      · exact .bytes _
      · exact .int _
      · exact .int _

theorem parseIdMap_rootEntries (h : builder.Plain) :
    ∃ idMap, parseIdMap (mapOf builder.rootEntries) = .ok idMap ∧
      ∀ extType, idMap.lookup extType = builder.idMap.lookup extType := by
  have hcanonical : ∀ {t : ExtendedType} {v : UInt8}, builder.idMap.lookup t = some v → t.Canonical := by
    intro t v ht
    refine ExtendedType.canonical_of_names fun name hname => h.names name ?_
    rw [← hname]
    exact AList.lookup_isSome.mp (by rw [ht]; rfl)
  have hentries : ∀ e ∈ builder.idEntries,
      ∃ t v, builder.idMap.lookup t = some v ∧ e = idEntry t v := by
    intro e he
    obtain ⟨x, hx, rfl⟩ := mem_map.mp he
    exact ⟨x.1, x.2, AList.mem_lookup_iff.mpr hx, rfl⟩
  have hnodup : (builder.idEntries.map Prod.fst).Nodup := by
    rw [idEntries, map_map]
    refine List.Nodup.map_on ?_ builder.idMap.nodupKeys.nodup
    rintro ⟨ta, va⟩ ha ⟨tb, vb⟩ hb hbytes
    have hta : builder.idMap.lookup ta = some va := AList.mem_lookup_iff.mpr ha
    have htb : builder.idMap.lookup tb = some vb := AList.mem_lookup_iff.mpr hb
    obtain rfl := (hcanonical hta).id_injective (hcanonical htb) hbytes
    rw [hta] at htb
    cases htb
    rfl
  have hperm := mapOf_perm hnodup
  obtain ⟨idMap, hfold, hmem, hother⟩ := foldlM_insertId (d := mapOf builder.idEntries)
    (fun e he => by
      obtain ⟨t, v, ht, rfl⟩ := hentries e (hperm.mem_iff.mp he)
      exact ⟨t, v, hcanonical ht, rfl⟩)
    ((hperm.map Prod.fst).nodup_iff.mpr hnodup) ∅
  refine ⟨idMap, ?_, fun t => ?_⟩
  · have hdict : (lookupAndConvertDict IoError.convert (mapOf builder.rootEntries) idMapKey).toOption =
        some (mapOf builder.idEntries) := by
      rw [lookupAndConvertDict_eq (lookup_idMapKey h)]
      rfl
    rw [parseIdMap, hdict]
    exact hfold
  · cases ht : builder.idMap.lookup t with
    | some v =>
      refine hmem t v (hcanonical ht) (hperm.mem_iff.mpr (mem_map.mpr ⟨⟨t, v⟩, ?_, rfl⟩))
      exact AList.mem_lookup_iff.mp ht
    | none =>
      rw [hother t, AList.lookup_empty]
      intro v hcanon hv
      obtain ⟨t', v', ht', heq⟩ := hentries _ (hperm.mem_iff.mp hv)
      obtain ⟨rfl, rfl⟩ := idEntry_injective hcanon (hcanonical ht') heq
      rw [ht] at ht'
      cases ht'

end ExtendedMessageBuilder

theorem parseIpv4Addr_ipv4ToBytesBe (addr : Ipv4Addr) : parseIpv4Addr (ipv4ToBytesBe addr) = some addr := by
  have hlen : (ipv4ToBytesBe addr).length = 4 := by simp [ipv4ToBytesBe]
  rw [parseIpv4Addr, dif_pos hlen, bytesBeToIpv4]
  congr 1
  apply Vector.ext
  intro i hi
  interval_cases i <;> rfl

section

variable (bytes : Vector UInt8 16)

theorem byteIndex_lt (index : Fin 16) : index.val < 16 := index.isLt

theorem segmentIndex_lt (index : Fin 16) : index.val / 2 < 8 := by omega

/-- What a byte adds to its segment. -/
def adjustedValue (index : Fin 16) : UInt16 :=
  if index.val % 2 = 0 then (getElem bytes index.val (byteIndex_lt index)).toUInt16 <<< (8 : UInt16)
  else (getElem bytes index.val (byteIndex_lt index)).toUInt16

/-- One round of the loop that combines the bytes to segments. -/
def combineByte (combinedBytes : Vector UInt16 8) (index : Fin 16) : Vector UInt16 8 :=
  combinedBytes.set (index.val / 2) (getElem combinedBytes (index.val / 2) (segmentIndex_lt index) |||
    adjustedValue bytes index) (segmentIndex_lt index)

variable {j : Nat}

/-- A segment takes part in the rounds for its own bytes only. -/
theorem getElem_foldl_combineByte (indices : List (Fin 16)) (combined : Vector UInt16 8) (hj : j < 8) :
    (indices.foldl (combineByte bytes) combined)[j] =
      indices.foldl (fun value index => if index.val / 2 = j then value ||| adjustedValue bytes index else value)
        combined[j] := by
  induction indices generalizing combined with
  | nil => rfl
  | cons index indices ih =>
    rw [foldl_cons, foldl_cons, ih, combineByte, Vector.getElem_set]
    by_cases heq : index.val / 2 = j
    · subst heq
      rw [if_pos rfl]
    · rw [if_neg heq, if_neg heq]

theorem getElem_segments (hj : j < 8) :
    ((finRange 16).foldl (combineByte bytes) (Vector.replicate 8 0))[j] =
      bytes[2 * j].toUInt16 <<< 8 ||| bytes[2 * j + 1].toUInt16 := by
  have hpair : (finRange 16).foldl
      (fun value index => if index.val / 2 = j then value ||| adjustedValue bytes index else value) 0 =
      (0 : UInt16) ||| bytes[2 * j].toUInt16 <<< 8 ||| bytes[2 * j + 1].toUInt16 := by
    interval_cases j <;> rfl
  rw [getElem_foldl_combineByte bytes _ _ hj, Vector.getElem_replicate, hpair, UInt16.zero_or]

theorem bytesBeToIpv6_eq : bytesBeToIpv6 bytes = bytes := by
  show ipv6New ((finRange 16).foldl (combineByte bytes) (Vector.replicate 8 0)) = bytes
  apply Vector.ext
  intro i hi
  rw [ipv6New, Vector.getElem_ofFn]
  simp only [getElem_segments bytes (show i / 2 < 8 by omega)]
  obtain hmod | hmod := Nat.mod_two_eq_zero_or_one i
  · have hindex : 2 * (i / 2) = i := by omega
    simp only [hmod, hindex]
    exact toUInt8_high _ _
  · have hindex : 2 * (i / 2) + 1 = i := by omega
    simp only [hmod, hindex]
    rw [show Nat.toUInt16 (8 - 1 * 8) = 0 by decide, UInt16.shiftRight_zero]
    exact toUInt8_low _ _

end

theorem parseIpv6Addr_ipv6ToBytesBe (addr : Ipv6Addr) : parseIpv6Addr (ipv6ToBytesBe addr) = some addr := by
  rw [ipv6ToBytesBe_eq]
  have hlen : addr.toList.length = 16 := by simp
  rw [parseIpv6Addr, dif_pos hlen, bytesBeToIpv6_eq]
  congr 1

/-- The messages agree in every field; the maps of ids agree as maps. -/
structure ExtendedMessage.Same (msg other : ExtendedMessage) : Prop where
  idMap : ∀ extType, msg.idMap.lookup extType = other.idMap.lookup extType
  ourId : msg.ourId = other.ourId
  ourTcpPort : msg.ourTcpPort = other.ourTcpPort
  theirIp : msg.theirIp = other.theirIp
  ourIpv6Addr : msg.ourIpv6Addr = other.ourIpv6Addr
  ourIpv4Addr : msg.ourIpv4Addr = other.ourIpv4Addr
  ourMaxRequests : msg.ourMaxRequests = other.ourMaxRequests
  metadataSize : msg.metadataSize = other.metadataSize
  rawBencode : msg.rawBencode = other.rawBencode

theorem toOption_lookupAndConvertInt {n : Option Int64} (h : lookup root key = n.map .int) :
    (lookupAndConvertInt IoError.convert root key).toOption = n := by
  cases n with
  | none =>
    rw [lookupAndConvertInt, lookup_of_eq_none h]
    rfl
  | some n =>
    rw [lookupAndConvertInt_eq h]
    rfl

theorem toOption_lookupAndConvertStr {text : Option Str}
    (h : lookup root key = text.map fun text => .bytes text.bytes) :
    (lookupAndConvertStr IoError.convert root key).toOption = text := by
  cases text with
  | none =>
    rw [lookupAndConvertStr, lookup_of_eq_none h]
    rfl
  | some text =>
    rw [lookupAndConvertStr_eq text h]
    rfl

theorem parseOurIp_eq {ip : Option Dht.IpAddr}
    (h : lookup root ourIpKey = ip.map fun ip => .bytes (ExtendedMessageBuilder.ipBytes ip)) :
    parseOurIp root = ip := by
  have hbytes : (lookupAndConvertBytes IoError.convert root ourIpKey).toOption =
      ip.map ExtendedMessageBuilder.ipBytes :=
    toOption_lookupAndConvertBytes (by rw [h, Option.map_map]; rfl)
  rw [parseOurIp, hbytes]
  cases ip with
  | none => rfl
  | some ip =>
    cases ip with
    | v4 addr =>
      have hlen : (ipv4ToBytesBe addr).length = 4 := by simp [ipv4ToBytesBe]
      show (if (ipv4ToBytesBe addr).length = 4 then (parseIpv4Addr (ipv4ToBytesBe addr)).map Dht.IpAddr.v4
        else (parseIpv6Addr (ipv4ToBytesBe addr)).map Dht.IpAddr.v6) = _
      rw [if_pos hlen, parseIpv4Addr_ipv4ToBytesBe]
      rfl
    | v6 addr =>
      have hlen : (ipv6ToBytesBe addr).length ≠ 4 := by simp [ipv6ToBytesBe]
      show (if (ipv6ToBytesBe addr).length = 4 then (parseIpv4Addr (ipv6ToBytesBe addr)).map Dht.IpAddr.v4
        else (parseIpv6Addr (ipv6ToBytesBe addr)).map Dht.IpAddr.v6) = _
      rw [if_neg hlen, parseIpv6Addr_ipv6ToBytesBe]
      rfl

theorem parseClientTcpPort_eq {port : Option UInt16}
    (h : lookup root clientTcpPortKey = port.map fun port => .int (Int64.ofNat port.toNat)) :
    parseClientTcpPort root = port := by
  have hint := toOption_lookupAndConvertInt (n := port.map fun port => Int64.ofNat port.toNat)
    (by rw [h, Option.map_map]; rfl)
  rw [parseClientTcpPort, hint]
  cases port with
  | none => rfl
  | some port =>
    have hlt := port.toNat_lt
    show (tryUint 16 (Int64.ofNat port.toNat).toInt).map UInt16.ofNat = _
    rw [tryUint_ofNat (by omega) (by omega), Option.map_some, UInt16.ofNat_toNat]

/-- An address that was set is read back, by the parser that undoes its conversion. -/
theorem bind_lookup_addr {addr : Option α}
    {toBytes : α → Bytes} {parse : Bytes → Option α} (hparse : ∀ a, parse (toBytes a) = some a)
    (h : lookup root key = addr.map fun a => .bytes (toBytes a)) :
    (lookupAndConvertBytes IoError.convert root key).toOption.bind parse = addr := by
  have hbytes : (lookupAndConvertBytes IoError.convert root key).toOption = addr.map toBytes :=
    toOption_lookupAndConvertBytes (by rw [h, Option.map_map]; rfl)
  rw [hbytes]
  cases addr with
  | none => rfl
  | some a => exact hparse a

theorem ExtendedMessage.ofBencode_built {builder : ExtendedMessageBuilder} (h : builder.Plain) {raw : Buffer}
    (hraw : raw.data = bencodeFromBuilder builder) :
    ∃ msg, ofBencode raw = .ok msg ∧ msg.Same (fromBuilder builder) := by
  obtain ⟨r, hr, hvalue⟩ := (builder.shallow_rootEntries h).decode_eq .default (Nat.le_refl _) hraw
  obtain ⟨idMap, hidMap, hids⟩ := builder.parseIdMap_rootEntries h
  have hdict : convertDict IoError.convert r.value ExtendedMessage.rootErrorKey = .ok (mapOf builder.rootEntries) := by
    rw [hvalue, convertDict_eq_ok]
    rfl
  refine ⟨_, by rw [ofBencode, mapErr_eq_ok.mpr hr, ok_bind, hdict, ok_bind, hidMap, ok_bind], ?_⟩
  have hfield : ∀ {key : Bytes} {v : Option Inner}, (key, v) ∈ builder.optionalEntries →
      lookup (mapOf builder.rootEntries) key = v := fun hmem => builder.lookup_optional h hmem
  exact
    { idMap := hids
      ourId := toOption_lookupAndConvertStr (hfield (mem_of_getElem? (i := 0) rfl))
      ourTcpPort := parseClientTcpPort_eq (hfield (mem_of_getElem? (i := 1) rfl))
      theirIp := parseOurIp_eq (hfield (mem_of_getElem? (i := 2) rfl))
      ourIpv6Addr := bind_lookup_addr parseIpv6Addr_ipv6ToBytesBe (hfield (mem_of_getElem? (i := 3) rfl))
      ourIpv4Addr := bind_lookup_addr parseIpv4Addr_ipv4ToBytesBe (hfield (mem_of_getElem? (i := 4) rfl))
      ourMaxRequests := toOption_lookupAndConvertInt (hfield (mem_of_getElem? (i := 5) rfl))
      metadataSize := toOption_lookupAndConvertInt (hfield (mem_of_getElem? (i := 6) rfl))
      rawBencode := hraw }

/-- A built message is read back from its bencode, with any bytes behind it. -/
theorem ExtendedMessage.parseBytes_built (builder : ExtendedMessageBuilder) (hplain : builder.Plain)
    (bytes : Buffer) (rest : Bytes) (hbytes : bytes.data = bencodeFromBuilder builder ++ rest) (len : UInt32)
    (hlen : len.toNat = (bencodeFromBuilder builder).length) :
    ∃ msg, parseBytes bytes len = .ok (bytes, .ok msg) ∧ msg.Same (fromBuilder builder) := by
  have hraw : (bytes.take len.toNat).data = bencodeFromBuilder builder := by
    show bytes.data.take len.toNat = _
    rw [hbytes, hlen, List.take_left]
  have hle : len.toNat ≤ bytes.len := by
    rw [Buffer.len, hbytes, hlen, List.length_append]
    omega
  obtain ⟨msg, hmsg, hsame⟩ := ofBencode_built hplain hraw
  have hresult : (result (ofBencode (bytes.take len.toNat)) : Run Nom.Err _) = .ok (.ok msg) :=
    result_eq_ok.mpr hmsg
  refine ⟨msg, ?_, hsame⟩
  simp only [parseBytes, if_pos hle, hresult, ok_bind]

def portBuilder : ExtendedMessageBuilder :=
  { idMap := AList.insert ExtendedType.utPex 7 ∅, ourTcpPort := some 6881, theirIp := some (.v4 (Dht.octets 127 0 0 1)) }

def portBytes : Buffer := ⟨ascii "d1:md6:ut_pexi7ee1:pi6881e6:yourip4:" ++ [127, 0, 0, 1] ++ ascii "etail", by decide⟩

theorem portBytes_eq : portBytes.data = bencodeFromBuilder portBuilder ++ ascii "tail" := by
  rw [bencodeFromBuilder, encode_benMap]
  have hids : encode (benMap portBuilder.idEntries) = ascii "d6:ut_pexi7ee" := by
    rw [encode_benMap]
    decide +kernel
  have hentries : mapOf portBuilder.rootEntries =
      [(idMapKey, benMap portBuilder.idEntries), (clientTcpPortKey, .int 6881), (ourIpKey, .bytes [127, 0, 0, 1])] := by
    rfl
  rw [hentries]
  simp only [flatMap_cons, flatMap_nil, hids]
  decide +kernel

theorem ExtendedMessage.parseBytes_built_port :
    ∃ msg, parseBytes portBytes 41 = .ok (portBytes, .ok msg) ∧ msg.Same (fromBuilder portBuilder) := by
  refine parseBytes_built portBuilder ⟨nofun, ?_, ?_⟩ portBytes (ascii "tail") portBytes_eq 41 ?_
  · intro name hname
    rcases (AList.mem_insert _).mp hname with h | h
    · cases h
    · exact absurd h (AList.notMem_empty _)
  · intro key value h
    cases h
  · have hlen := congrArg List.length portBytes_eq
    rw [List.length_append] at hlen
    have hall : portBytes.data.length = 45 := by decide
    have htail : (ascii "tail").length = 4 := by decide
    rw [hall, htail] at hlen
    show 41 = _
    omega

end BitTorrent.Peer
