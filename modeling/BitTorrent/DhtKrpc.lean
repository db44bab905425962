import BitTorrent.DhtMessage

/-! Requests, responses and the decoder that tells them apart. -/

namespace BitTorrent.Dht

open Rust Bencode

/-! ### Validation -/

namespace RequestValidate

def validateNodeId (transId nodeId : Bytes) : Run DhtError NodeId :=
  match ShaHash.fromHash nodeId with
  | .ok id => .ok id
  | .error _ => fail (.invalidRequest ⟨transId, .protocolError,
      .ofAscii ("Node ID With Length " ++ toString nodeId.length ++ " Is Not Valid")⟩)

def validateInfoHash (transId infoHash : Bytes) : Run DhtError InfoHash :=
  match ShaHash.fromHash infoHash with
  | .ok hash => .ok hash
  | .error _ => fail (.invalidRequest ⟨transId, .protocolError,
      .ofAscii ("InfoHash With Length " ++ toString infoHash.length ++ " Is Not Valid")⟩)

theorem returns_validateNodeId (transId nodeId : Bytes) : Returns (validateNodeId transId nodeId) := by
  unfold validateNodeId
  split
  · exact .ok _
  · exact .fail _

theorem returns_validateInfoHash (transId infoHash : Bytes) :
    Returns (validateInfoHash transId infoHash) := by
  unfold validateInfoHash
  split
  · exact .ok _
  · exact .fail _

end RequestValidate

namespace ResponseValidate

def validateNodeId (transId nodeId : Bytes) : Run DhtError NodeId :=
  match ShaHash.fromHash nodeId with
  | .ok id => .ok id
  | .error _ => fail (.invalidResponse ("TID " ++ debugBytes transId ++
      " Found Node ID With Invalid Length " ++ toString nodeId.length))

def validateNodes (transId nodes : Bytes) : Run DhtError CompactNodeInfo :=
  match CompactNodeInfo.new nodes with
  | .ok info => .ok info
  | .error _ => fail (.invalidResponse ("TID " ++ debugBytes transId ++
      " Found Nodes Structure With " ++ toString nodes.length ++
      " Number Of Bytes Instead Of Correct Multiple"))

def validateValues (transId : Bytes) (values : List Inner) : Run DhtError CompactValueInfo :=
  if values.all (·.asBytes.isSome) then
    match CompactValueInfo.new values with
    | .ok info => .ok info
    | .error (.error _) => fail (.invalidResponse ("TID " ++ debugBytes transId ++
        " Found Values Structure With Wrong Number Of Bytes"))
    | .error .panic => .error .panic
    | .error .diverge => .error .diverge
  else fail (.invalidResponse ("TID " ++ debugBytes transId ++
    " Found Values Structure As Non Bytes Type"))

theorem returns_validateNodeId (transId nodeId : Bytes) : Returns (validateNodeId transId nodeId) := by
  unfold validateNodeId
  split
  · exact .ok _
  · exact .fail _

theorem returns_validateNodes (transId nodes : Bytes) : Returns (validateNodes transId nodes) := by
  unfold validateNodes
  split
  · exact .ok _
  · exact .fail _

theorem returns_validateValues (transId : Bytes) (values : List Inner) :
    Returns (validateValues transId values) := by
  unfold validateValues
  split
  · rename_i hbytes
    rcases CompactValueInfo.returns_new (List.all_eq_true.mp hbytes) with ⟨info, hnew⟩ | ⟨e, hnew⟩
    · rw [hnew]
      exact .ok info
    · rw [hnew]
      exact .fail _
  · exact .fail _

end ResponseValidate

/-! ### Requests -/

/-- What all requests look like. -/
def requestMap (transId requestType : Bytes) (args : List (Bytes × Inner)) : Inner :=
  benMap [(transactionIdKey, .bytes transId), (messageTypeKey, .bytes requestTypeKey),
    (requestTypeKey, .bytes requestType), (requestArgsKey, benMap args)]

structure PingRequest where
  transId : Bytes
  nodeId : NodeId
  deriving DecidableEq

namespace PingRequest

def fromParts (rqstRoot : List (Bytes × Inner)) (transId : Bytes) : Run DhtError PingRequest := do
  let nodeIdBytes ← lookupAndConvertBytes .bencode rqstRoot nodeIdKey
  let nodeId ← RequestValidate.validateNodeId transId nodeIdBytes
  return ⟨transId, nodeId⟩

def bencode (m : PingRequest) : Inner :=
  requestMap m.transId pingTypeKey [(nodeIdKey, .bytes m.nodeId.hash)]

def encode (m : PingRequest) : Bytes := Bencode.encode m.bencode

end PingRequest

structure FindNodeRequest where
  transId : Bytes
  nodeId : NodeId
  targetId : NodeId
  deriving DecidableEq

namespace FindNodeRequest

def fromParts (rqstRoot : List (Bytes × Inner)) (transId targetKey : Bytes) :
    Run DhtError FindNodeRequest := do
  let nodeIdBytes ← lookupAndConvertBytes .bencode rqstRoot nodeIdKey
  let nodeId ← RequestValidate.validateNodeId transId nodeIdBytes
  let targetIdBytes ← lookupAndConvertBytes .bencode rqstRoot targetKey
  let targetId ← RequestValidate.validateNodeId transId targetIdBytes
  return ⟨transId, nodeId, targetId⟩

def bencode (m : FindNodeRequest) : Inner :=
  requestMap m.transId findNodeTypeKey
    [(nodeIdKey, .bytes m.nodeId.hash), (targetIdKey, .bytes m.targetId.hash)]

def encode (m : FindNodeRequest) : Bytes := Bencode.encode m.bencode

end FindNodeRequest

structure GetPeersRequest where
  transId : Bytes
  nodeId : NodeId
  infoHash : InfoHash
  deriving DecidableEq

namespace GetPeersRequest

def fromParts (rqstRoot : List (Bytes × Inner)) (transId : Bytes) :
    Run DhtError GetPeersRequest := do
  let nodeIdBytes ← lookupAndConvertBytes .bencode rqstRoot nodeIdKey
  let nodeId ← RequestValidate.validateNodeId transId nodeIdBytes
  let infoHashBytes ← lookupAndConvertBytes .bencode rqstRoot infoHashKey
  let infoHash ← RequestValidate.validateInfoHash transId infoHashBytes
  return ⟨transId, nodeId, infoHash⟩

def bencode (m : GetPeersRequest) : Inner :=
  requestMap m.transId getPeersTypeKey
    [(nodeIdKey, .bytes m.nodeId.hash), (infoHashKey, .bytes m.infoHash.hash)]

def encode (m : GetPeersRequest) : Bytes := Bencode.encode m.bencode

end GetPeersRequest

inductive ConnectPort where
  | implied
  | explicit (port : UInt16)
  deriving DecidableEq

structure AnnouncePeerRequest where
  transId : Bytes
  nodeId : NodeId
  infoHash : InfoHash
  token : Bytes
  port : ConnectPort
  deriving DecidableEq

namespace AnnouncePeerRequest

/-- A missing port is an error only if it is needed. -/
def fromParts (rqstRoot : List (Bytes × Inner)) (transId : Bytes) :
    Run DhtError AnnouncePeerRequest := do
  let nodeIdBytes ← lookupAndConvertBytes .bencode rqstRoot nodeIdKey
  let nodeId ← RequestValidate.validateNodeId transId nodeIdBytes
  let infoHashBytes ← lookupAndConvertBytes .bencode rqstRoot infoHashKey
  let infoHash ← RequestValidate.validateInfoHash transId infoHashBytes
  let token ← lookupAndConvertBytes .bencode rqstRoot tokenKey
  let port := lookupAndConvertInt .bencode rqstRoot portKey
  let explicit : Run DhtError ConnectPort := do
    let port ← port
    return .explicit (UInt16.ofNat port.toInt.natAbs)
  let responsePort ←
    match (OrderedMap.lookup rqstRoot impliedPortKey).map Inner.asInt with
    | some (some n) => if n ≠ 0 then .ok .implied else explicit
    | _ => explicit
  return ⟨transId, nodeId, infoHash, token, responsePort⟩

/-- The port that is shown and the flag that says whether it counts. -/
def displayedPort : ConnectPort → UInt16 × Int64
  | .implied => (0, 1)
  | .explicit n => (n, 0)

def bencode (m : AnnouncePeerRequest) : Inner :=
  let (displayedPort, impliedValue) := displayedPort m.port
  requestMap m.transId announcePeerTypeKey
    [(nodeIdKey, .bytes m.nodeId.hash), (impliedPortKey, .int impliedValue),
      (infoHashKey, .bytes m.infoHash.hash), (portKey, .int (Int64.ofNat displayedPort.toNat)),
      (tokenKey, .bytes m.token)]

def encode (m : AnnouncePeerRequest) : Bytes := Bencode.encode m.bencode

end AnnouncePeerRequest

inductive RequestType where
  | ping (m : PingRequest)
  | findNode (m : FindNodeRequest)
  | getPeers (m : GetPeersRequest)
  | announcePeer (m : AnnouncePeerRequest)

/-- Unknown requests with a target id or an info hash count as requests for nodes. -/
def forwardCompatibleFindNode (rqstRoot : List (Bytes × Inner)) : Option Bytes :=
  match OrderedMap.lookup rqstRoot targetIdKey, OrderedMap.lookup rqstRoot infoHashKey with
  | some _, _ => some targetIdKey
  | none, some _ => some infoHashKey
  | none, none => none

def RequestType.fromParts (root : List (Bytes × Inner)) (transId : Bytes) (rqstType : Str) :
    Run DhtError RequestType := do
  let rqstRoot ← lookupAndConvertDict .bencode root requestArgsKey
  if rqstType.bytes = pingTypeKey then
    return .ping (← PingRequest.fromParts rqstRoot transId)
  else if rqstType.bytes = findNodeTypeKey then
    return .findNode (← FindNodeRequest.fromParts rqstRoot transId targetIdKey)
  else if rqstType.bytes = getPeersTypeKey then
    return .getPeers (← GetPeersRequest.fromParts rqstRoot transId)
  else if rqstType.bytes = announcePeerTypeKey then
    return .announcePeer (← AnnouncePeerRequest.fromParts rqstRoot transId)
  else
    match forwardCompatibleFindNode rqstRoot with
    | some targetKey => return .findNode (← FindNodeRequest.fromParts rqstRoot transId targetKey)
    | none => fail (.invalidRequest ⟨transId, .methodUnknown,
        .asciiAppend "Received Unknown Request Method: " rqstType⟩)

namespace RequestType

open RequestValidate

theorem returns_ping (rqstRoot : List (Bytes × Inner)) (trans : Bytes) :
    Returns (PingRequest.fromParts rqstRoot trans) := by
  refine (returns_lookupAndConvertBytes _ _ _).bind fun nodeIdBytes => ?_
  exact (returns_validateNodeId _ _).bind fun nodeId => .ok _

theorem returns_findNode (rqstRoot : List (Bytes × Inner)) (trans targetKey : Bytes) :
    Returns (FindNodeRequest.fromParts rqstRoot trans targetKey) := by
  refine (returns_lookupAndConvertBytes _ _ _).bind fun nodeIdBytes => ?_
  refine (returns_validateNodeId _ _).bind fun nodeId => ?_
  refine (returns_lookupAndConvertBytes _ _ _).bind fun targetIdBytes => ?_
  exact (returns_validateNodeId _ _).bind fun targetId => .ok _

theorem returns_getPeers (rqstRoot : List (Bytes × Inner)) (trans : Bytes) :
    Returns (GetPeersRequest.fromParts rqstRoot trans) := by
  refine (returns_lookupAndConvertBytes _ _ _).bind fun nodeIdBytes => ?_
  refine (returns_validateNodeId _ _).bind fun nodeId => ?_
  refine (returns_lookupAndConvertBytes _ _ _).bind fun infoHashBytes => ?_
  exact (returns_validateInfoHash _ _).bind fun infoHash => .ok _

theorem returns_announcePeer (rqstRoot : List (Bytes × Inner)) (trans : Bytes) :
    Returns (AnnouncePeerRequest.fromParts rqstRoot trans) := by
  refine (returns_lookupAndConvertBytes _ _ _).bind fun nodeIdBytes => ?_
  refine (returns_validateNodeId _ _).bind fun nodeId => ?_
  refine (returns_lookupAndConvertBytes _ _ _).bind fun infoHashBytes => ?_
  refine (returns_validateInfoHash _ _).bind fun infoHash => ?_
  refine (returns_lookupAndConvertBytes _ _ _).bind fun token => ?_
  have hexplicit : Returns (lookupAndConvertInt DhtError.bencode rqstRoot portKey >>= fun port =>
      (pure (.explicit (UInt16.ofNat port.toInt.natAbs)) : Run DhtError ConnectPort)) :=
    (returns_lookupAndConvertInt _ _ _).bind fun port => .ok _
  simp only
  split
  · split
    · exact .ok _
    · exact hexplicit.bind fun responsePort => .ok _
  · exact hexplicit.bind fun responsePort => .ok _

theorem returns_fromParts (root : List (Bytes × Inner)) (trans : Bytes) (rqstType : Str) :
    Returns (fromParts root trans rqstType) := by
  refine (returns_lookupAndConvertDict _ _ _).bind fun rqstRoot => ?_
  split
  · exact (returns_ping rqstRoot trans).bind fun m => .ok _
  · split
    · exact (returns_findNode rqstRoot trans targetIdKey).bind fun m => .ok _
    · split
      · exact (returns_getPeers rqstRoot trans).bind fun m => .ok _
      · split
        · exact (returns_announcePeer rqstRoot trans).bind fun m => .ok _
        · split
          · rename_i targetKey _
            exact (returns_findNode rqstRoot trans targetKey).bind fun m => .ok _
          · exact .fail _

end RequestType

/-! ### Responses -/

/-- What most responses look like. -/
def responseMap (transId : Bytes) (args : List (Bytes × Inner)) : Inner :=
  benMap [(transactionIdKey, .bytes transId), (messageTypeKey, .bytes responseTypeKey),
    (responseTypeKey, benMap args)]

structure PingResponse where
  transId : Bytes
  nodeId : NodeId
  deriving DecidableEq

namespace PingResponse

def fromParts (rspRoot : List (Bytes × Inner)) (transId : Bytes) : Run DhtError PingResponse := do
  let request ← PingRequest.fromParts rspRoot transId
  return ⟨request.transId, request.nodeId⟩

def bencode (m : PingResponse) : Inner := responseMap m.transId [(nodeIdKey, .bytes m.nodeId.hash)]

def encode (m : PingResponse) : Bytes := Bencode.encode m.bencode

end PingResponse

structure FindNodeResponse where
  transId : Bytes
  nodeId : NodeId
  nodes : CompactNodeInfo
  deriving DecidableEq

namespace FindNodeResponse

def new (transId : Bytes) (nodeId : NodeId) (nodes : Bytes) : Run DhtError FindNodeResponse := do
  let compactNodes ← ResponseValidate.validateNodes transId nodes
  return ⟨transId, nodeId, compactNodes⟩

def fromParts (rspRoot : List (Bytes × Inner)) (transId : Bytes) :
    Run DhtError FindNodeResponse := do
  let nodeIdBytes ← lookupAndConvertBytes .bencode rspRoot nodeIdKey
  let nodeId ← ResponseValidate.validateNodeId transId nodeIdBytes
  let nodes ← lookupAndConvertBytes .bencode rspRoot nodesKey
  new transId nodeId nodes

def bencode (m : FindNodeResponse) : Inner :=
  responseMap m.transId [(nodeIdKey, .bytes m.nodeId.hash), (nodesKey, .bytes m.nodes.nodes)]

def encode (m : FindNodeResponse) : Bytes := Bencode.encode m.bencode

end FindNodeResponse

inductive CompactInfoType where
  | nodes (nodes : CompactNodeInfo)
  | values (values : CompactValueInfo)
  | both (nodes : CompactNodeInfo) (values : CompactValueInfo)

structure GetPeersResponse where
  transId : Bytes
  nodeId : NodeId
  token : Option Bytes
  infoType : CompactInfoType

namespace GetPeersResponse

def fromParts (rspRoot : List (Bytes × Inner)) (transId : Bytes) :
    Run DhtError GetPeersResponse := do
  let nodeIdBytes ← lookupAndConvertBytes .bencode rspRoot nodeIdKey
  let nodeId ← ResponseValidate.validateNodeId transId nodeIdBytes
  let token := (lookupAndConvertBytes DhtError.bencode rspRoot tokenKey).toOption
  let maybeNodes := (lookupAndConvertBytes DhtError.bencode rspRoot nodesKey).toOption
  let maybeValues := (lookupAndConvertList DhtError.bencode rspRoot valuesKey).toOption
  let infoType ←
    match maybeNodes, maybeValues with
    | some nodes, some values => do
      let nodesInfo ← ResponseValidate.validateNodes transId nodes
      let valuesInfo ← ResponseValidate.validateValues transId values
      Except.ok (CompactInfoType.both nodesInfo valuesInfo)
    | some nodes, none => do
      let nodesInfo ← ResponseValidate.validateNodes transId nodes
      Except.ok (CompactInfoType.nodes nodesInfo)
    | none, some values => do
      let valuesInfo ← ResponseValidate.validateValues transId values
      Except.ok (CompactInfoType.values valuesInfo)
    | none, none => fail (.invalidResponse "Failed To Find nodes Or values In Node Response")
  return ⟨transId, nodeId, token, infoType⟩

/-- The entries of the arguments in the order in which they are inserted. -/
def responseArgs (m : GetPeersResponse) : List (Bytes × Inner) :=
  (nodeIdKey, .bytes m.nodeId.hash) ::
    ((match m.token with
      | some token => [(tokenKey, .bytes token)]
      | none => []) ++
    match m.infoType with
    | .nodes nodes => [(nodesKey, .bytes nodes.nodes)]
    | .values values => [(valuesKey, .list values.values)]
    | .both nodes values => [(nodesKey, .bytes nodes.nodes), (valuesKey, .list values.values)])

/-- The arguments are collected in one map and copied to another. -/
def bencode (m : GetPeersResponse) : Inner :=
  benMap [(transactionIdKey, .bytes m.transId), (messageTypeKey, .bytes responseTypeKey),
    (requestTypeKey, .bytes getPeersTypeKey), (responseArgsKey, benMap (mapOf m.responseArgs))]

def encode (m : GetPeersResponse) : Bytes := Bencode.encode m.bencode

end GetPeersResponse

structure AnnouncePeerResponse where
  transId : Bytes
  nodeId : NodeId
  deriving DecidableEq

namespace AnnouncePeerResponse

def fromParts (rqstRoot : List (Bytes × Inner)) (transId : Bytes) :
    Run DhtError AnnouncePeerResponse := do
  let nodeIdBytes ← lookupAndConvertBytes .bencode rqstRoot nodeIdKey
  let nodeId ← RequestValidate.validateNodeId transId nodeIdBytes
  return ⟨transId, nodeId⟩

def bencode (m : AnnouncePeerResponse) : Inner :=
  responseMap m.transId [(nodeIdKey, .bytes m.nodeId.hash)]

def encode (m : AnnouncePeerResponse) : Bytes := Bencode.encode m.bencode

end AnnouncePeerResponse

inductive ExpectedResponse where
  | ping
  | findNode
  | getPeers
  | announcePeer
  | getData
  | putData
  | none
  deriving DecidableEq, Repr

inductive ResponseType where
  | ping (m : PingResponse)
  | findNode (m : FindNodeResponse)
  | getPeers (m : GetPeersResponse)
  | announcePeer (m : AnnouncePeerResponse)

/-- Two kinds of responses are not implemented and panic. -/
def ResponseType.fromParts (root : List (Bytes × Inner)) (transId : Bytes)
    (rspType : ExpectedResponse) : Run DhtError ResponseType := do
  let rqstRoot ← lookupAndConvertDict .bencode root responseArgsKey
  match rspType with
  | .ping => return .ping (← PingResponse.fromParts rqstRoot transId)
  | .findNode => return .findNode (← FindNodeResponse.fromParts rqstRoot transId)
  | .getPeers => return .getPeers (← GetPeersResponse.fromParts rqstRoot transId)
  | .announcePeer => return .announcePeer (← AnnouncePeerResponse.fromParts rqstRoot transId)
  | .getData => .error .panic
  | .putData => .error .panic
  | .none => fail .unsolicitedResponse

variable {r : ResponseType}

namespace ResponseType

def transId : ResponseType → Bytes
  | .ping m => m.transId
  | .findNode m => m.transId
  | .getPeers m => m.transId
  | .announcePeer m => m.transId

/-- What the transaction id of a response was issued for. -/
def expected : ResponseType → ExpectedResponse
  | .ping _ => .ping
  | .findNode _ => .findNode
  | .getPeers _ => .getPeers
  | .announcePeer _ => .announcePeer

variable {rspRoot : List (Bytes × Inner)} {trans : Bytes}

theorem transId_ping {m : PingResponse}
    (h : PingResponse.fromParts rspRoot trans = .ok m) : m.transId = trans := by
  obtain ⟨request, hrequest, h⟩ := bind_eq_ok.mp h
  obtain ⟨bytes, -, hrequest⟩ := bind_eq_ok.mp hrequest
  obtain ⟨nodeId, -, hrequest⟩ := bind_eq_ok.mp hrequest
  cases hrequest
  cases h
  rfl

theorem transId_findNode {m : FindNodeResponse}
    (h : FindNodeResponse.fromParts rspRoot trans = .ok m) : m.transId = trans := by
  obtain ⟨bytes, -, h⟩ := bind_eq_ok.mp h
  obtain ⟨nodeId, -, h⟩ := bind_eq_ok.mp h
  obtain ⟨nodes, -, h⟩ := bind_eq_ok.mp h
  obtain ⟨compactNodes, -, h⟩ := bind_eq_ok.mp h
  cases h
  rfl

theorem transId_getPeers {m : GetPeersResponse}
    (h : GetPeersResponse.fromParts rspRoot trans = .ok m) : m.transId = trans := by
  obtain ⟨bytes, -, h⟩ := bind_eq_ok.mp h
  obtain ⟨nodeId, -, h⟩ := bind_eq_ok.mp h
  simp only at h
  split at h
  · obtain ⟨nodesInfo, -, h⟩ := bind_eq_ok.mp h
    obtain ⟨valuesInfo, -, h⟩ := bind_eq_ok.mp h
    cases h
    rfl
  · obtain ⟨nodesInfo, -, h⟩ := bind_eq_ok.mp h
    cases h
    rfl
  · obtain ⟨valuesInfo, -, h⟩ := bind_eq_ok.mp h
    cases h
    rfl
  · cases h

theorem transId_announcePeer {m : AnnouncePeerResponse}
    (h : AnnouncePeerResponse.fromParts rspRoot trans = .ok m) : m.transId = trans := by
  obtain ⟨bytes, -, h⟩ := bind_eq_ok.mp h
  obtain ⟨nodeId, -, h⟩ := bind_eq_ok.mp h
  cases h
  rfl

variable {rspType : ExpectedResponse}

theorem fromParts_spec {root : List (Bytes × Inner)} (h : fromParts root trans rspType = .ok r) :
    r.transId = trans ∧ r.expected = rspType := by
  obtain ⟨rqstRoot, -, h⟩ := bind_eq_ok.mp h
  cases rspType with
  | ping =>
    obtain ⟨m, hm, h⟩ := bind_eq_ok.mp h
    cases h
    exact ⟨transId_ping hm, rfl⟩
  | findNode =>
    obtain ⟨m, hm, h⟩ := bind_eq_ok.mp h
    cases h
    exact ⟨transId_findNode hm, rfl⟩
  | getPeers =>
    obtain ⟨m, hm, h⟩ := bind_eq_ok.mp h
    cases h
    exact ⟨transId_getPeers hm, rfl⟩
  | announcePeer =>
    obtain ⟨m, hm, h⟩ := bind_eq_ok.mp h
    cases h
    exact ⟨transId_announcePeer hm, rfl⟩
  | getData => cases h
  | putData => cases h
  | none => cases h

open ResponseValidate in
theorem returns_findNode (rspRoot : List (Bytes × Inner)) (trans : Bytes) :
    Returns (FindNodeResponse.fromParts rspRoot trans) := by
  refine (returns_lookupAndConvertBytes _ _ _).bind fun nodeIdBytes => ?_
  refine (returns_validateNodeId _ _).bind fun nodeId => ?_
  refine (returns_lookupAndConvertBytes _ _ _).bind fun nodes => ?_
  exact (returns_validateNodes _ _).bind fun compactNodes => .ok _

open ResponseValidate in
theorem returns_getPeers (rspRoot : List (Bytes × Inner)) (trans : Bytes) :
    Returns (GetPeersResponse.fromParts rspRoot trans) := by
  refine (returns_lookupAndConvertBytes _ _ _).bind fun nodeIdBytes => ?_
  refine (returns_validateNodeId _ _).bind fun nodeId => ?_
  simp only
  split
  · refine (returns_validateNodes _ _).bind fun nodesInfo => ?_
    exact (returns_validateValues _ _).bind fun valuesInfo => .ok _
  · exact (returns_validateNodes _ _).bind fun nodesInfo => .ok _
  · exact (returns_validateValues _ _).bind fun valuesInfo => .ok _
  · exact .fail _

theorem returns_fromParts (root : List (Bytes × Inner)) (trans : Bytes)
    (hkind : rspType = .findNode ∨ rspType = .getPeers ∨ rspType = .none) :
    Returns (fromParts root trans rspType) := by
  refine (returns_lookupAndConvertDict _ _ _).bind fun rqstRoot => ?_
  rcases hkind with rfl | rfl | rfl
  · exact (returns_findNode rqstRoot trans).bind fun m => .ok _
  · exact (returns_getPeers rqstRoot trans).bind fun m => .ok _
  · exact .fail _

end ResponseType

/-! ### Messages -/

inductive MessageType where
  | request (m : RequestType)
  | response (m : ResponseType)
  | error (m : ErrorMessage)

namespace MessageType

def new (message : Inner) (transMapper : Bytes → ExpectedResponse) : Run DhtError MessageType := do
  let msgRoot ← convertDict .bencode message rootIdKey
  let transId ← lookupAndConvertBytes .bencode msgRoot transactionIdKey
  let msgType ← lookupAndConvertStr .bencode msgRoot messageTypeKey
  if msgType.bytes = requestTypeKey then
    let rqstType ← lookupAndConvertStr .bencode msgRoot requestTypeKey
    return .request (← RequestType.fromParts msgRoot transId rqstType)
  else if msgType.bytes = responseTypeKey then
    return .response (← ResponseType.fromParts msgRoot transId (transMapper transId))
  else if msgType.bytes = errorTypeKey then
    return .error (← ErrorMessage.fromParts msgRoot transId)
  else fail (.invalidMessage msgType)

variable {transMapper : Bytes → ExpectedResponse}

theorem returns_new (message : Inner)
    (hkinds : ∀ trans, transMapper trans = .findNode ∨ transMapper trans = .getPeers ∨
      transMapper trans = .none) : Returns (new message transMapper) := by
  refine (returns_convert _ _ _ _ _).bind fun msgRoot => ?_
  refine (returns_lookupAndConvertBytes _ _ _).bind fun trans => ?_
  refine (returns_lookupAndConvertStr _ _ _).bind fun msgType => ?_
  split
  · refine (returns_lookupAndConvertStr _ _ _).bind fun rqstType => ?_
    exact (RequestType.returns_fromParts msgRoot trans rqstType).bind fun m => .ok _
  · split
    · exact (ResponseType.returns_fromParts msgRoot trans (hkinds trans)).bind fun m => .ok _
    · split
      · exact (ErrorMessage.returns_fromParts msgRoot trans).bind fun m => .ok _
      · exact .fail _

theorem expected_of_new {message : Inner}
    (h : new message transMapper = .ok (.response r)) : transMapper r.transId = r.expected := by
  obtain ⟨msgRoot, -, h⟩ := bind_eq_ok.mp h
  obtain ⟨transId, -, h⟩ := bind_eq_ok.mp h
  obtain ⟨msgType, -, h⟩ := bind_eq_ok.mp h
  split at h
  · obtain ⟨rqstType, -, h⟩ := bind_eq_ok.mp h
    obtain ⟨request, -, h⟩ := bind_eq_ok.mp h
    cases h
  · split at h
    · obtain ⟨response, hparts, h⟩ := bind_eq_ok.mp h
      cases h
      obtain ⟨htrans, hexpected⟩ := ResponseType.fromParts_spec hparts
      rw [htrans, hexpected]
    · split at h
      · obtain ⟨error, -, h⟩ := bind_eq_ok.mp h
        cases h
      · cases h

def bencode : MessageType → Inner
  | .request (.ping m) => m.bencode
  | .request (.findNode m) => m.bencode
  | .request (.getPeers m) => m.bencode
  | .request (.announcePeer m) => m.bencode
  | .response (.ping m) => m.bencode
  | .response (.findNode m) => m.bencode
  | .response (.getPeers m) => m.bencode
  | .response (.announcePeer m) => m.bencode
  | .error m => m.bencode

def encode : MessageType → Bytes
  | .request (.ping m) => m.encode
  | .request (.findNode m) => m.encode
  | .request (.getPeers m) => m.encode
  | .request (.announcePeer m) => m.encode
  | .response (.ping m) => m.encode
  | .response (.findNode m) => m.encode
  | .response (.getPeers m) => m.encode
  | .response (.announcePeer m) => m.encode
  | .error m => m.encode

end MessageType

end BitTorrent.Dht
