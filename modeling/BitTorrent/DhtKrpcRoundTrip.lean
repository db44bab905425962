import BitTorrent.DhtKrpc

/-! What a node sends, another node reads. Every message is a dictionary with distinct keys, so each
decoder finds under its keys what the encoder put there. -/

namespace BitTorrent.Dht

open Rust Bencode List CompactInfoType OrderedMap ResponseValidate Int64

open Option hiding all_eq_true

section

variable (transId : Bytes)

theorem fromHash_hash (h : ShaHash) : ShaHash.fromHash h.hash = .ok h := by
  rw [ShaHash.fromHash, dif_pos h.size]

theorem RequestValidate.validateNodeId_hash (id : NodeId) :
    RequestValidate.validateNodeId transId id.hash = .ok id := by
  rw [RequestValidate.validateNodeId, fromHash_hash]

theorem RequestValidate.validateInfoHash_hash (hash : InfoHash) :
    RequestValidate.validateInfoHash transId hash.hash = .ok hash := by
  rw [RequestValidate.validateInfoHash, fromHash_hash]

theorem ResponseValidate.validateNodeId_hash (id : NodeId) : validateNodeId transId id.hash = .ok id := by
  rw [validateNodeId, fromHash_hash]

theorem ResponseValidate.validateNodes_nodes (info : CompactNodeInfo) :
    validateNodes transId info.nodes = .ok info := by
  rw [validateNodes, CompactNodeInfo.new, dif_pos info.multiple]

theorem CompactValueInfo.new_values (info : CompactValueInfo) :
    CompactValueInfo.new info.values = .ok info := by
  rw [CompactValueInfo.new]
  split
  · rfl
  · rename_i e he
    rw [CompactValueInfo.checkValues_eq_ok.mpr info.compact] at he
    cases he

theorem ResponseValidate.validateValues_values (info : CompactValueInfo) :
    validateValues transId info.values = .ok info := by
  have hbytes : info.values.all (·.asBytes.isSome) = true := by
    rw [all_eq_true]
    intro v hv
    obtain ⟨b, rfl, -⟩ := info.compact v hv
    rfl
  rw [validateValues, if_pos hbytes, CompactValueInfo.new_values]

theorem ErrorCode.new_toByte (code : ErrorCode) : ErrorCode.new code.toByte = .ok code := by
  cases code with
  | genericError => rfl
  | serverError => rfl
  | protocolError => rfl
  | methodUnknown => rfl

end

/-! ### The outer dictionary -/

section

variable {transMapper : Bytes → ExpectedResponse} {root args : List (Bytes × Inner)} (transId : Bytes)

theorem convertStr_type (text : String) (hy : lookup root messageTypeKey = some (.bytes (ascii text))) :
    lookupAndConvertStr DhtError.bencode root messageTypeKey = .ok (.ofAscii text) :=
  lookupAndConvertStr_eq (.ofAscii text) hy

theorem new_request (rqstType : Str) {m : RequestType}
    (ht : lookup root transactionIdKey = some (.bytes transId))
    (hy : lookup root messageTypeKey = some (.bytes requestTypeKey))
    (hq : lookup root requestTypeKey = some (.bytes rqstType.bytes))
    (hm : RequestType.fromParts root transId rqstType = .ok m) :
    MessageType.new (.dict root) transMapper = .ok (.request m) := by
  simp only [MessageType.new, convertDict, convert, Inner.asDict, ok_bind,
    lookupAndConvertBytes_eq ht, convertStr_type "q" hy, lookupAndConvertStr_eq _ hq, hm]
  rfl

theorem new_response {m : ResponseType} (ht : lookup root transactionIdKey = some (.bytes transId))
    (hy : lookup root messageTypeKey = some (.bytes responseTypeKey))
    (hm : ResponseType.fromParts root transId (transMapper transId) = .ok m) :
    MessageType.new (.dict root) transMapper = .ok (.response m) := by
  simp only [MessageType.new, convertDict, convert, Inner.asDict, ok_bind,
    lookupAndConvertBytes_eq ht, convertStr_type "r" hy, hm]
  rfl

theorem new_error {m : ErrorMessage} (ht : lookup root transactionIdKey = some (.bytes transId))
    (hy : lookup root messageTypeKey = some (.bytes errorTypeKey))
    (hm : ErrorMessage.fromParts root transId = .ok m) :
    MessageType.new (.dict root) transMapper = .ok (.error m) := by
  simp only [MessageType.new, convertDict, convert, Inner.asDict, ok_bind,
    lookupAndConvertBytes_eq ht, convertStr_type "e" hy, hm]
  rfl

theorem requestKeys_nodup :
    [transactionIdKey, messageTypeKey, requestTypeKey, requestArgsKey].Nodup := by decide

/-- A request is decoded from its type and its arguments. -/
theorem new_requestMap (rqstType : Str) {m : RequestType}
    (hm : ∀ root, lookup root requestArgsKey = some (benMap args) →
      RequestType.fromParts root transId rqstType = .ok m) :
    MessageType.new (requestMap transId rqstType.bytes args) transMapper = .ok (.request m) := by
  apply new_request transId rqstType
  · exact lookup_mapOf _ requestKeys_nodup (by simp)
  · exact lookup_mapOf _ requestKeys_nodup (by simp)
  · exact lookup_mapOf _ requestKeys_nodup (by simp)
  · exact hm _ (lookup_mapOf _ requestKeys_nodup (by simp))

theorem responseKeys_nodup : [transactionIdKey, messageTypeKey, responseArgsKey].Nodup := by decide

/-- A response is decoded from its arguments. -/
theorem new_responseMap {m : ResponseType} (hm : ∀ root, lookup root responseArgsKey = some (benMap args) →
      ResponseType.fromParts root transId (transMapper transId) = .ok m) :
    MessageType.new (responseMap transId args) transMapper = .ok (.response m) := by
  apply new_response transId
  · exact lookup_mapOf _ responseKeys_nodup (by simp)
  · exact lookup_mapOf _ responseKeys_nodup (by simp)
  · exact hm _ (lookup_mapOf _ responseKeys_nodup (by simp [responseArgsKey, responseTypeKey]))

end

/-! ### Requests -/

section

variable {transMapper : Bytes → ExpectedResponse} {rqstRoot : List (Bytes × Inner)}

theorem PingRequest.fromParts_eq (m : PingRequest)
    (hid : lookup rqstRoot nodeIdKey = some (.bytes m.nodeId.hash)) :
    PingRequest.fromParts rqstRoot m.transId = .ok m := by
  rw [PingRequest.fromParts, lookupAndConvertBytes_eq hid, ok_bind, RequestValidate.validateNodeId_hash]
  rfl

theorem PingRequest.new_bencode (m : PingRequest) :
    MessageType.new m.bencode transMapper = .ok (.request (.ping m)) := by
  apply new_requestMap m.transId (.ofAscii "ping")
  intro root hargs
  rw [RequestType.fromParts, lookupAndConvertDict_eq hargs, ok_bind, if_pos (by decide),
    PingRequest.fromParts_eq m]
  · rfl
  · exact lookup_mapOf _ (nodup_singleton nodeIdKey) (by simp)

theorem FindNodeRequest.fromParts_eq (m : FindNodeRequest) {targetKey : Bytes}
    (hid : lookup rqstRoot nodeIdKey = some (.bytes m.nodeId.hash))
    (htarget : lookup rqstRoot targetKey = some (.bytes m.targetId.hash)) :
    FindNodeRequest.fromParts rqstRoot m.transId targetKey = .ok m := by
  rw [FindNodeRequest.fromParts, lookupAndConvertBytes_eq hid, ok_bind,
    RequestValidate.validateNodeId_hash, ok_bind, lookupAndConvertBytes_eq htarget, ok_bind,
    RequestValidate.validateNodeId_hash]
  rfl

theorem FindNodeRequest.new_bencode (m : FindNodeRequest) :
    MessageType.new m.bencode transMapper = .ok (.request (.findNode m)) := by
  have hkeys : [nodeIdKey, targetIdKey].Nodup := by decide
  apply new_requestMap m.transId (.ofAscii "find_node")
  intro root hargs
  rw [RequestType.fromParts, lookupAndConvertDict_eq hargs, ok_bind, if_neg (by decide),
    if_pos (by decide), FindNodeRequest.fromParts_eq m]
  · rfl
  · exact lookup_mapOf _ hkeys (by simp)
  · exact lookup_mapOf _ hkeys (by simp)

theorem GetPeersRequest.fromParts_eq (m : GetPeersRequest)
    (hid : lookup rqstRoot nodeIdKey = some (.bytes m.nodeId.hash))
    (hhash : lookup rqstRoot infoHashKey = some (.bytes m.infoHash.hash)) :
    GetPeersRequest.fromParts rqstRoot m.transId = .ok m := by
  rw [GetPeersRequest.fromParts, lookupAndConvertBytes_eq hid, ok_bind,
    RequestValidate.validateNodeId_hash, ok_bind, lookupAndConvertBytes_eq hhash, ok_bind,
    RequestValidate.validateInfoHash_hash]
  rfl

theorem GetPeersRequest.new_bencode (m : GetPeersRequest) :
    MessageType.new m.bencode transMapper = .ok (.request (.getPeers m)) := by
  have hkeys : [nodeIdKey, infoHashKey].Nodup := by decide
  apply new_requestMap m.transId (.ofAscii "get_peers")
  intro root hargs
  rw [RequestType.fromParts, lookupAndConvertDict_eq hargs, ok_bind, if_neg (by decide),
    if_neg (by decide), if_pos (by decide), GetPeersRequest.fromParts_eq m]
  · rfl
  · exact lookup_mapOf _ hkeys (by simp)
  · exact lookup_mapOf _ hkeys (by simp)

theorem natAbs_port (port : UInt16) : UInt16.ofNat (ofNat port.toNat).toInt.natAbs = port := by
  have hlt := port.toNat_lt
  rw [toInt_ofNat_of_lt (by omega), Int.natAbs_natCast, UInt16.ofNat_toNat]

theorem AnnouncePeerRequest.fromParts_eq (m : AnnouncePeerRequest)
    (hid : lookup rqstRoot nodeIdKey = some (.bytes m.nodeId.hash))
    (hhash : lookup rqstRoot infoHashKey = some (.bytes m.infoHash.hash))
    (htoken : lookup rqstRoot tokenKey = some (.bytes m.token))
    (hport : lookup rqstRoot portKey = some (.int (ofNat (displayedPort m.port).1.toNat)))
    (himplied : lookup rqstRoot impliedPortKey = some (.int (displayedPort m.port).2)) :
    AnnouncePeerRequest.fromParts rqstRoot m.transId = .ok m := by
  obtain ⟨transId, nodeId, infoHash, token, port⟩ := m
  rw [AnnouncePeerRequest.fromParts, lookupAndConvertBytes_eq hid, ok_bind,
    RequestValidate.validateNodeId_hash, ok_bind, lookupAndConvertBytes_eq hhash, ok_bind,
    RequestValidate.validateInfoHash_hash, ok_bind, lookupAndConvertBytes_eq htoken, ok_bind]
  simp only [lookupAndConvertInt_eq hport, himplied]
  cases port with
  | implied => rfl
  | explicit port =>
    change Except.ok (AnnouncePeerRequest.mk transId nodeId infoHash token
      (.explicit (UInt16.ofNat (ofNat port.toNat).toInt.natAbs))) = _
    rw [natAbs_port]

theorem AnnouncePeerRequest.new_bencode (m : AnnouncePeerRequest) :
    MessageType.new m.bencode transMapper = .ok (.request (.announcePeer m)) := by
  have hkeys : [nodeIdKey, impliedPortKey, infoHashKey, portKey, tokenKey].Nodup := by decide
  apply new_requestMap m.transId (.ofAscii "announce_peer")
  intro root hargs
  rw [RequestType.fromParts, lookupAndConvertDict_eq hargs, ok_bind, if_neg (by decide),
    if_neg (by decide), if_neg (by decide), if_pos (by decide), AnnouncePeerRequest.fromParts_eq m]
  · rfl
  · exact lookup_mapOf _ hkeys (by simp)
  · exact lookup_mapOf _ hkeys (by simp)
  · exact lookup_mapOf _ hkeys (by simp)
  · exact lookup_mapOf _ hkeys (by simp [displayedPort])
  · exact lookup_mapOf _ hkeys (by simp [displayedPort])

end

/-! ### Responses and errors -/

section

variable {transMapper : Bytes → ExpectedResponse} {rspRoot : List (Bytes × Inner)}

theorem PingResponse.new_bencode (m : PingResponse) (hmapper : transMapper m.transId = .ping) :
    MessageType.new m.bencode transMapper = .ok (.response (.ping m)) := by
  apply new_responseMap m.transId
  intro root hargs
  rw [ResponseType.fromParts, lookupAndConvertDict_eq hargs, ok_bind, hmapper]
  simp only
  rw [PingResponse.fromParts, PingRequest.fromParts_eq ⟨m.transId, m.nodeId⟩]
  · rfl
  · exact lookup_mapOf _ (nodup_singleton nodeIdKey) (by simp)

theorem FindNodeResponse.fromParts_eq (m : FindNodeResponse)
    (hid : lookup rspRoot nodeIdKey = some (.bytes m.nodeId.hash))
    (hnodes : lookup rspRoot nodesKey = some (.bytes m.nodes.nodes)) :
    FindNodeResponse.fromParts rspRoot m.transId = .ok m := by
  rw [FindNodeResponse.fromParts, lookupAndConvertBytes_eq hid, ok_bind,
    validateNodeId_hash, ok_bind, lookupAndConvertBytes_eq hnodes, ok_bind,
    FindNodeResponse.new, validateNodes_nodes]
  rfl

theorem FindNodeResponse.new_bencode (m : FindNodeResponse) (hmapper : transMapper m.transId = .findNode) :
    MessageType.new m.bencode transMapper = .ok (.response (.findNode m)) := by
  have hkeys : [nodeIdKey, nodesKey].Nodup := by decide
  apply new_responseMap m.transId
  intro root hargs
  rw [ResponseType.fromParts, lookupAndConvertDict_eq hargs, ok_bind, hmapper]
  simp only
  rw [FindNodeResponse.fromParts_eq m]
  · rfl
  · exact lookup_mapOf _ hkeys (by simp)
  · exact lookup_mapOf _ hkeys (by simp)

theorem AnnouncePeerResponse.new_bencode (m : AnnouncePeerResponse)
    (hmapper : transMapper m.transId = .announcePeer) :
    MessageType.new m.bencode transMapper = .ok (.response (.announcePeer m)) := by
  apply new_responseMap m.transId
  intro root hargs
  have hid := lookup_mapOf [(nodeIdKey, .bytes m.nodeId.hash)] (nodup_singleton nodeIdKey)
    mem_cons_self
  rw [ResponseType.fromParts, lookupAndConvertDict_eq hargs, ok_bind, hmapper]
  simp only
  rw [AnnouncePeerResponse.fromParts, lookupAndConvertBytes_eq hid, ok_bind,
    RequestValidate.validateNodeId_hash]
  rfl

theorem ErrorMessage.extractErrorArgs_eq (code : UInt8) (message : Str) :
    extractErrorArgs [.int (ofNat code.toNat), .bytes message.bytes] = .ok (code, message) := by
  have hlt := code.toNat_lt
  have hcode : UInt8.ofNat (ofNat code.toNat).toInt.natAbs = code := by
    rw [toInt_ofNat_of_lt (by omega), Int.natAbs_natCast, UInt8.ofNat_toNat]
  have hmessage : convertStr DhtError.bencode (.bytes message.bytes) (ascii "e[1]") = .ok message := by
    rw [convertStr, convert, Inner.asStr, dif_pos message.utf8]
  rw [extractErrorArgs, if_neg (by simp [numErrorArgs])]
  simp only [index, convertInt, convert, Inner.asInt, ok_bind, getElem?_cons_zero,
    getElem?_cons_succ, hmessage, hcode]
  rfl

theorem ErrorMessage.fromParts_eq (m : ErrorMessage) (hargs : lookup rspRoot errorArgsKey =
      some (.list [.int (ofNat m.code.toByte.toNat), .bytes m.message.bytes])) :
    ErrorMessage.fromParts rspRoot m.transId = .ok m := by
  rw [ErrorMessage.fromParts, lookupAndConvertList_eq hargs, ok_bind,
    ErrorMessage.extractErrorArgs_eq, ok_bind]
  simp only [ErrorCode.new_toByte, ok_bind]
  rfl

theorem ErrorMessage.new_bencode (m : ErrorMessage) :
    MessageType.new m.bencode transMapper = .ok (.error m) := by
  have hkeys : [transactionIdKey, messageTypeKey, errorTypeKey].Nodup := by decide
  apply new_error m.transId
  · exact lookup_mapOf _ hkeys (by simp)
  · exact lookup_mapOf _ hkeys (by simp)
  · apply ErrorMessage.fromParts_eq
    exact lookup_mapOf _ hkeys (by simp [errorArgsKey, errorTypeKey])

end

/-! ### Responses with peers -/

namespace CompactInfoType

def nodesInfo : CompactInfoType → Option CompactNodeInfo
  | .nodes info => some info
  | .values _ => none
  | .both info _ => some info

def valuesInfo : CompactInfoType → Option CompactValueInfo
  | .nodes _ => none
  | .values info => some info
  | .both _ info => some info

end CompactInfoType

namespace GetPeersResponse

variable {transMapper : Bytes → ExpectedResponse} {rspRoot : List (Bytes × Inner)}

theorem fromParts_eq (m : GetPeersResponse) (hid : lookup rspRoot nodeIdKey = some (.bytes m.nodeId.hash))
    (htoken : lookup rspRoot tokenKey = m.token.map .bytes) (hnodes : lookup rspRoot nodesKey =
      (m.infoType.nodesInfo.map CompactNodeInfo.nodes).map .bytes) (hvalues : lookup rspRoot valuesKey =
      (m.infoType.valuesInfo.map CompactValueInfo.values).map .list) :
    fromParts rspRoot m.transId = .ok m := by
  obtain ⟨transId, nodeId, token, infoType⟩ := m
  rw [fromParts, lookupAndConvertBytes_eq hid, ok_bind, validateNodeId_hash,
    ok_bind, toOption_lookupAndConvertBytes htoken, toOption_lookupAndConvertBytes hnodes,
    toOption_lookupAndConvertList hvalues]
  cases infoType with
  | nodes info =>
    simp only [nodesInfo, valuesInfo, map_some,
      map_none, validateNodes_nodes, ok_bind]
    rfl
  | values info =>
    simp only [nodesInfo, valuesInfo, map_some,
      map_none, validateValues_values, ok_bind]
    rfl
  | both nodes values =>
    simp only [nodesInfo, valuesInfo, map_some,
      validateNodes_nodes, validateValues_values, ok_bind]
    rfl

theorem mem_responseArgs {m : GetPeersResponse} {key : Bytes} {v : Inner} :
    (key, v) ∈ m.responseArgs ↔ (key = nodeIdKey ∧ v = .bytes m.nodeId.hash) ∨
      (key = tokenKey ∧ m.token.map .bytes = some v) ∨
      (key = nodesKey ∧ (m.infoType.nodesInfo.map CompactNodeInfo.nodes).map .bytes = some v) ∨
      (key = valuesKey ∧ (m.infoType.valuesInfo.map CompactValueInfo.values).map .list = some v) := by
  obtain ⟨transId, nodeId, token, infoType⟩ := m
  cases token <;> cases infoType <;>
    simp [responseArgs, nodesInfo, valuesInfo, eq_comm]

theorem nodup_keys (m : GetPeersResponse) : (m.responseArgs.map Prod.fst).Nodup := by
  have hkeys : [nodeIdKey, tokenKey, nodesKey, valuesKey].Nodup := by decide
  refine List.Nodup.sublist ?_ hkeys
  obtain ⟨transId, nodeId, token, infoType⟩ := m
  cases token with
  | none => cases infoType <;> simp [responseArgs]
  | some token => cases infoType <;> simp [responseArgs]

theorem responseType_fromParts_eq {root : List (Bytes × Inner)} (m : GetPeersResponse)
    (hargs : lookup root responseArgsKey = some (benMap (mapOf m.responseArgs))) :
    ResponseType.fromParts root m.transId .getPeers = .ok (.getPeers m) := by
  rw [benMap, mapOf_mapOf] at hargs
  rw [ResponseType.fromParts, lookupAndConvertDict_eq hargs, ok_bind]
  simp only
  rw [fromParts_eq m]
  · rfl
  · apply lookup_mapOf_eq m.nodup_keys
    simp +decide [mem_responseArgs, eq_comm]
  · apply lookup_mapOf_eq m.nodup_keys
    simp +decide [mem_responseArgs]
  · apply lookup_mapOf_eq m.nodup_keys
    simp +decide [mem_responseArgs]
  · apply lookup_mapOf_eq m.nodup_keys
    simp +decide [mem_responseArgs]

theorem new_bencode (m : GetPeersResponse) (hmapper : transMapper m.transId = .getPeers) :
    MessageType.new m.bencode transMapper = .ok (.response (.getPeers m)) := by
  have hkeys : [transactionIdKey, messageTypeKey, requestTypeKey, responseArgsKey].Nodup := by decide
  apply new_response m.transId
  · exact lookup_mapOf _ hkeys (by simp)
  · exact lookup_mapOf _ hkeys (by simp)
  · rw [hmapper]
    exact responseType_fromParts_eq m (lookup_mapOf _ hkeys (by simp))

end GetPeersResponse

/-! ### All messages -/

section

variable {transId requestType : Bytes} {args : List (Bytes × Inner)}

theorem shallow_requestMap (h : ∀ e ∈ args, e.2.Shallow 2) :
    (requestMap transId requestType args).Shallow 4 := by
  apply Inner.Shallow.benMap
  simp only [forall_mem_cons]
  exact ⟨.bytes _, .bytes _, .bytes _, .benMap h, by simp⟩

theorem shallow_responseMap (h : ∀ e ∈ args, e.2.Shallow 2) : (responseMap transId args).Shallow 4 := by
  apply Inner.Shallow.benMap
  simp only [forall_mem_cons]
  exact ⟨.bytes _, .bytes _, .benMap h, by simp⟩

theorem GetPeersResponse.shallow_bencode (m : GetPeersResponse) : m.bencode.Shallow 4 := by
  apply Inner.Shallow.benMap
  simp only [forall_mem_cons]
  refine ⟨.bytes _, .bytes _, .bytes _, .benMap fun e he => ?_, by simp⟩
  rcases mem_responseArgs.mp (mem_of_mem_mapOf he) with ⟨-, heq⟩ | ⟨-, heq⟩ | ⟨-, heq⟩ | ⟨-, heq⟩
  · rw [heq]
    exact .bytes _
  · obtain ⟨token, -, heq⟩ := map_eq_some_iff.mp heq
    rw [← heq]
    exact .bytes _
  · obtain ⟨nodes, -, heq⟩ := map_eq_some_iff.mp heq
    rw [← heq]
    exact .bytes _
  · obtain ⟨values, hvalues, heq⟩ := map_eq_some_iff.mp heq
    obtain ⟨info, -, rfl⟩ := map_eq_some_iff.mp hvalues
    rw [← heq]
    refine .list fun v hv => ?_
    obtain ⟨b, rfl, -⟩ := info.compact v hv
    exact .bytes b

theorem MessageType.shallow_bencode (m : MessageType) : m.bencode.Shallow 4 := by
  cases m with
  | request m =>
    cases m with
    | ping m =>
      apply shallow_requestMap
      simp only [forall_mem_cons]
      exact ⟨.bytes _, by simp⟩
    | findNode m =>
      apply shallow_requestMap
      simp only [forall_mem_cons]
      exact ⟨.bytes _, .bytes _, by simp⟩
    | getPeers m =>
      apply shallow_requestMap
      simp only [forall_mem_cons]
      exact ⟨.bytes _, .bytes _, by simp⟩
    | announcePeer m =>
      apply shallow_requestMap
      simp only [forall_mem_cons]
      exact ⟨.bytes _, .int _, .bytes _, .int _, .bytes _, by simp⟩
  | response m =>
    cases m with
    | ping m =>
      apply shallow_responseMap
      simp only [forall_mem_cons]
      exact ⟨.bytes _, by simp⟩
    | findNode m =>
      apply shallow_responseMap
      simp only [forall_mem_cons]
      exact ⟨.bytes _, .bytes _, by simp⟩
    | getPeers m => exact m.shallow_bencode
    | announcePeer m =>
      apply shallow_responseMap
      simp only [forall_mem_cons]
      exact ⟨.bytes _, by simp⟩
  | error m =>
    apply Inner.Shallow.benMap
    simp only [forall_mem_cons]
    refine ⟨.bytes _, .bytes _, .list ?_, by simp⟩
    simp only [forall_mem_cons]
    exact ⟨.int _, .bytes _, by simp⟩

end

section

variable {transId requestType : Bytes} {args : List (Bytes × Inner)}

theorem encode_requestMap : Bencode.encode (requestMap transId requestType args) =
    dictStart :: ([(requestArgsKey, benMap args), (requestTypeKey, .bytes requestType),
      (transactionIdKey, .bytes transId), (messageTypeKey, .bytes requestTypeKey)].flatMap
        (fun e => encodeBytes e.1 ++ Bencode.encode e.2) ++ [benEnd]) := by
  rw [requestMap, encode_benMap]
  rfl

theorem GetPeersResponse.encode_bencode (m : GetPeersResponse) : m.encode =
    dictStart :: ([(requestTypeKey, .bytes getPeersTypeKey), (responseArgsKey, benMap m.responseArgs),
      (transactionIdKey, .bytes m.transId), (messageTypeKey, .bytes responseTypeKey)].flatMap
        (fun e => encodeBytes e.1 ++ Bencode.encode e.2) ++ [benEnd]) := by
  have hargs : benMap (mapOf m.responseArgs) = benMap m.responseArgs := by
    rw [benMap, mapOf_mapOf, benMap]
  rw [GetPeersResponse.encode, GetPeersResponse.bencode, hargs, encode_benMap]
  rfl

end

namespace MessageType

theorem encode_eq (m : MessageType) : m.encode = Bencode.encode m.bencode := by
  cases m with
  | request m => cases m <;> rfl
  | response m => cases m <;> rfl
  | error m => rfl

theorem new_bencode (m : MessageType) (transMapper : Bytes → ExpectedResponse)
    (hmapper : ∀ rsp, m = .response rsp → transMapper rsp.transId = rsp.expected) :
    new m.bencode transMapper = .ok m := by
  cases m with
  | request m =>
    cases m with
    | ping m => exact m.new_bencode
    | findNode m => exact m.new_bencode
    | getPeers m => exact m.new_bencode
    | announcePeer m => exact m.new_bencode
  | response m =>
    have hexpected := hmapper m rfl
    cases m with
    | ping m => exact m.new_bencode hexpected
    | findNode m => exact m.new_bencode hexpected
    | getPeers m => exact m.new_bencode hexpected
    | announcePeer m => exact m.new_bencode hexpected
  | error m => exact m.new_bencode

/-- Every message is read back from its bytes, if responses are read as what they are. -/
theorem new_decode_encode (m : MessageType) (transMapper : Bytes → ExpectedResponse)
    (hmapper : ∀ rsp, m = .response rsp → transMapper rsp.transId = rsp.expected)
    (out : Buffer) (hout : out.data = m.encode) :
    ∃ r, BencodeRef.decode out .default = .ok r ∧ new r.value transMapper = .ok m := by
  obtain ⟨r, hr, hvalue⟩ := m.shallow_bencode.decode_eq .default (by decide) (hout.trans m.encode_eq)
  exact ⟨r, hr, hvalue ▸ m.new_bencode transMapper hmapper⟩

def onePeer : GetPeersResponse :=
  ⟨ascii "aa", ⟨ascii "abcdefghij0123456789", by decide⟩, some (ascii "xx"),
    .values ⟨[.bytes (ascii "abcdef")], fun v hv => ⟨_, mem_singleton.mp hv, by decide⟩⟩⟩

theorem encode_onePeer : onePeer.encode =
    ascii "d1:q9:get_peers1:rd2:id20:abcdefghij01234567895:token2:xx6:valuesl6:abcdefee1:t2:aa1:y1:re" := by
  rw [GetPeersResponse.encode_bencode]
  simp only [flatMap_cons, flatMap_nil, encode_benMap]
  decide +kernel

theorem new_decode_encode_onePeer :
    ∃ r, BencodeRef.decode
        ⟨ascii "d1:q9:get_peers1:rd2:id20:abcdefghij01234567895:token2:xx6:valuesl6:abcdefee1:t2:aa1:y1:re",
          by decide⟩ .default = .ok r ∧
      new r.value (fun _ => .getPeers) = .ok (.response (.getPeers onePeer)) :=
  new_decode_encode (.response (.getPeers onePeer)) (fun _ => .getPeers)
    (fun rsp h => by cases h; rfl) ⟨_, by decide⟩ encode_onePeer.symm

end MessageType

end BitTorrent.Dht
