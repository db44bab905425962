import BitTorrent.BencodeReturns
import BitTorrent.DhtUnsolicited
import BitTorrent.DhtAnnounce

/-! Answering requests. Every datagram is read or refused, and pings and announces are always answered.
The answers that list nodes are another matter: the compact form of a node has room for an IPv4 address
only, and the node panics when one of the nodes it is about to list has an IPv6 address. Such a node is
in the table if a response came from an IPv6 address. -/

namespace BitTorrent.Dht

open Rust Bencode List RoutingTable

def SocketAddr.isIpv4 : SocketAddr → Bool
  | .v4 .. => true
  | .v6 .. => false

namespace RequestType

def nodeId : RequestType → NodeId
  | .ping p => p.nodeId
  | .findNode f => f.nodeId
  | .getPeers g => g.nodeId
  | .announcePeer a => a.nodeId

/-- What the nodes in the answer are to be close to, if there are any. -/
def target : RequestType → Option NodeId
  | .ping _ => none
  | .findNode f => some f.targetId
  | .getPeers g => some g.infoHash
  | .announcePeer _ => none

end RequestType

/-! ### Compact nodes -/

variable {n : Node}

theorem Node.encode_of_isIpv4 (h : n.addr.isIpv4 = true) :
    ∃ bytes, n.encode = .ok bytes ∧ bytes.length = bytesPerCompactNodeInfo := by
  obtain ⟨id, addr, cell⟩ := n
  cases addr with
  | v4 ip port =>
    refine ⟨_, rfl, ?_⟩
    rw [length_append, length_append, id.size, Vector.length_toList]
    rfl
  | v6 ip port flowinfo scopeId => cases h

theorem Node.encode_of_not_isIpv4 (h : n.addr.isIpv4 = false) : n.encode = .error .panic := by
  obtain ⟨id, addr, cell⟩ := n
  cases addr with
  | v4 ip port => cases h
  | v6 ip port flowinfo scopeId => rfl

variable {nodes : List Node}

theorem mapM_encode_of_isIpv4 (h : ∀ n ∈ nodes, n.addr.isIpv4 = true) :
    ∃ encoded, nodes.mapM Node.encode = .ok encoded ∧
      encoded.flatten.length = nodes.length * bytesPerCompactNodeInfo := by
  induction nodes with
  | nil => exact ⟨[], rfl, (Nat.zero_mul _).symm⟩
  | cons n nodes ih =>
    obtain ⟨hn, hnodes⟩ := forall_mem_cons.mp h
    obtain ⟨bytes, hbytes, hlen⟩ := Node.encode_of_isIpv4 hn
    obtain ⟨encoded, hencoded, hrest⟩ := ih hnodes
    refine ⟨bytes :: encoded, ?_, ?_⟩
    · rw [mapM_cons, hbytes, ok_bind, hencoded]
      rfl
    · rw [flatten_cons, length_append, hlen, hrest, length_cons, Nat.succ_mul, Nat.add_comm]

theorem mapM_encode_panics (h : ∃ n ∈ nodes, n.addr.isIpv4 = false) :
    nodes.mapM Node.encode = .error .panic := by
  induction nodes with
  | nil => simp at h
  | cons n nodes ih =>
    rw [mapM_cons]
    cases hn : n.addr.isIpv4 with
    | false => rw [Node.encode_of_not_isIpv4 hn]; rfl
    | true =>
      obtain ⟨bytes, hbytes, -⟩ := Node.encode_of_isIpv4 hn
      obtain ⟨m, hm, hipv4⟩ := h
      rcases mem_cons.mp hm with rfl | hm
      · rw [hn] at hipv4
        cases hipv4
      · rw [hbytes, ok_bind, ih ⟨m, hm, hipv4⟩]
        rfl

namespace DhtHandler

variable {hash : Bytes → ShaHash} {h : DhtHandler}

/-! ### Reading -/

theorem logged_of_returns {ε α : Type} {x : Run ε α} (hx : Returns x) : ∃ a, logged x = .ok a := by
  rcases hx with ⟨a, rfl⟩ | ⟨e, rfl⟩
  · exact ⟨some a, rfl⟩
  · exact ⟨none, rfl⟩

theorem parse_ok (h : DhtHandler) (buffer : Buffer) : ∃ message, h.parse buffer = .ok message := by
  obtain ⟨bencode, hdecode⟩ := logged_of_returns (BencodeRef.returns_decode buffer .default)
  rw [parse, hdecode, ok_bind]
  cases bencode with
  | none => exact ⟨none, rfl⟩
  | some bencode => exact logged_of_returns (MessageType.returns_new _ h.expectedResponse_cases)

/-! ### Answering -/

/-- The nodes that are listed in the answer to a request. -/
def answerNodes (h : DhtHandler) (request : RequestType) (addr : SocketAddr) : Run Empty (List Node) :=
  match request.target with
  | none => .ok []
  | some target => do
    return (← (h.markRemote request.nodeId addr).shared.closestNodes target).take 8

theorem contactValues_ok (contactInfoBytes : Bytes) :
    ∃ info, unwrap (CompactValueInfo.new (contactValues contactInfoBytes)) = .ok info := by
  have hvalues : ∀ v ∈ contactValues contactInfoBytes, ∃ b, v = .bytes b ∧
      b.length = bytesPerCompactIp := by
    intro v hv
    obtain ⟨chunkIndex, hindex, rfl⟩ := mem_map.mp hv
    have hlt := mem_range.mp hindex
    refine ⟨_, rfl, ?_⟩
    rw [length_take, length_drop, show bytesPerCompactIp = 6 from rfl]
    omega
  rw [CompactValueInfo.new_values ⟨contactValues contactInfoBytes, hvalues⟩]
  exact ⟨_, rfl⟩

theorem compactInfo_ok {nodes : Bytes} (hmultiple : nodes.length % bytesPerCompactNodeInfo = 0)
    (contactInfoBytes : Bytes) : ∃ info, compactInfo nodes (contactValues contactInfoBytes) = .ok info := by
  obtain ⟨values, hvalues⟩ := contactValues_ok contactInfoBytes
  rw [compactInfo, CompactNodeInfo.new, dif_pos hmultiple]
  simp only [unwrapLength, ok_bind]
  split
  · exact ⟨_, rfl⟩
  · rw [hvalues]
    exact ⟨_, rfl⟩

variable {target : NodeId}

theorem closestNodesBytes_cases (hnodes : h.shared.closestNodes target = .ok nodes) :
    ((∀ n ∈ nodes.take 8, n.addr.isIpv4 = true) ∧ ∃ bytes, h.closestNodesBytes target = .ok bytes ∧
      bytes.length % bytesPerCompactNodeInfo = 0) ∨
    ((∃ n ∈ nodes.take 8, n.addr.isIpv4 = false) ∧ h.closestNodesBytes target = .error .panic) := by
  rw [closestNodesBytes, hnodes, ok_bind]
  by_cases hipv4 : ∀ n ∈ nodes.take 8, n.addr.isIpv4 = true
  · obtain ⟨encoded, hencoded, hlen⟩ := mapM_encode_of_isIpv4 hipv4
    refine Or.inl ⟨hipv4, encoded.flatten, ?_, ?_⟩
    · rw [hencoded]
      rfl
    · rw [hlen, Nat.mul_mod_left]
  · simp only [not_forall, Bool.not_eq_true, exists_prop] at hipv4
    refine Or.inr ⟨hipv4, ?_⟩
    rw [mapM_encode_panics hipv4]
    rfl

/-- A request is answered if the bytes of the nodes can be had, and else the node panics. -/
theorem answered_iff (ht : h.shared.table.Valid) (request : RequestType)
    (htarget : request.target = some target) (addr : SocketAddr) {answer : Run Empty DhtHandler}
    (rest : Bytes → Run Empty DhtHandler)
    (hanswer : answer = (h.markRemote request.nodeId addr).closestNodesBytes target >>= rest)
    (hrest : ∀ bytes, bytes.length % bytesPerCompactNodeInfo = 0 → ∃ h', rest bytes = .ok h') :
    (∃ h', answer = .ok h') ↔
      ∃ nodes, h.answerNodes request addr = .ok nodes ∧ ∀ n ∈ nodes, n.addr.isIpv4 = true := by
  have ht' : (h.markRemote request.nodeId addr).shared.table.Valid :=
    (answers_markRemote h request.nodeId addr).table ▸ ht
  obtain ⟨nodes, hnodes, -⟩ := Shared.closestNodes_spec ht' target
  have hlisted : h.answerNodes request addr = .ok (nodes.take 8) := by
    rw [answerNodes, htarget]
    simp only
    rw [hnodes]
    rfl
  rw [hanswer, hlisted]
  rcases closestNodesBytes_cases hnodes with ⟨hipv4, bytes, hbytes, hmultiple⟩ | ⟨⟨n, hn, hipv6⟩, hpanic⟩
  · rw [hbytes, ok_bind]
    exact iff_of_true (hrest bytes hmultiple) ⟨_, rfl, hipv4⟩
  · rw [hpanic]
    refine iff_of_false (fun ⟨h', hcall⟩ => ?_) fun ⟨nodes', heq, hipv4⟩ => ?_
    · cases hcall
    · cases heq
      exact Bool.false_ne_true (hipv6.symm.trans (hipv4 n hn))

theorem findNode_answered_iff (ht : h.shared.table.Valid) (f : FindNodeRequest) (addr : SocketAddr) :
    (∃ h', h.handleFindNode f addr = .ok h') ↔
      ∃ nodes, h.answerNodes (.findNode f) addr = .ok nodes ∧ ∀ n ∈ nodes, n.addr.isIpv4 = true := by
  refine answered_iff ht (.findNode f) rfl addr _ rfl fun bytes hmultiple => ?_
  rw [FindNodeResponse.new, ResponseValidate.validateNodes, CompactNodeInfo.new, dif_pos hmultiple]
  exact ⟨_, rfl⟩

theorem answerNodes_tenGood (f : FindNodeRequest) (hasker : ∀ n ∈ tenNodes.entries, n.id ≠ f.nodeId)
    (addr : SocketAddr) : (fresh .tenGood).markRemote f.nodeId addr = fresh .tenGood ∧
      ∃ nodes, (fresh .tenGood).answerNodes (.findNode f) addr = .ok nodes ∧
        ∀ n ∈ nodes, n.addr.isIpv4 = true := by
  have hnone : (fresh .tenGood).shared.findNode (f.nodeId, addr) = none := by
    rw [Option.eq_none_iff_forall_ne_some]
    intro n hn
    obtain ⟨hmem, -, hkey⟩ := findNode_sound hn
    exact hasker n hmem (congrArg Prod.fst hkey)
  have hmark : (fresh .tenGood).markRemote f.nodeId addr = fresh .tenGood := by
    rw [markRemote, Shared.remoteRequestFrom, hnone]
  obtain ⟨nodes, hnodes, hperm, -⟩ := Shared.closestNodes_spec (s := (fresh .tenGood).shared)
    reachable_tenNodes.valid f.targetId
  have hipv4 : ∀ n ∈ tenNodes.entries, n.addr.isIpv4 = true := by decide
  refine ⟨hmark, nodes.take 8, ?_, fun n hn => ?_⟩
  · simp only [answerNodes, RequestType.target, RequestType.nodeId, hmark, hnodes]
    rfl
  · exact hipv4 n (mem_of_mem_filter (hperm.mem_iff.mp (mem_of_mem_take hn)))

theorem handleGetPeers_panics {g : GetPeersRequest} {addr : SocketAddr}
    (hnodes : (h.markRemote g.nodeId addr).shared.closestNodes g.infoHash = .ok nodes)
    (hipv6 : ∃ n ∈ nodes.take 8, n.addr.isIpv4 = false) : h.handleGetPeers hash g addr = .error .panic := by
  have hpanic : (h.markRemote g.nodeId addr).closestNodesBytes g.infoHash = .error .panic := by
    rw [closestNodesBytes, hnodes, ok_bind, mapM_encode_panics hipv6]
    rfl
  change ((h.markRemote g.nodeId addr).closestNodesBytes g.infoHash >>= _) = _
  rw [hpanic]
  rfl

theorem readOnly_afterLookup (h : DhtHandler) (infoHash : InfoHash) (status : LookupStatus) :
    (h.afterLookup infoHash status).readOnly = h.readOnly := by
  cases status <;> rfl

/-! ### A response from an IPv6 address -/

def ipv6Forger : SocketAddr := .v6 (Vector.replicate 16 0) 6881 0 0

def ipv6Node : Node := ⟨idOf 128, ipv6Forger, some 0⟩

variable {s : Shared}

/-- The table holds the sender and nobody else. -/
theorem shared_ipv6Forged (hadd : addGood lonelyLookup.shared (forged.nodeId, ipv6Forger) = .ok s) :
    s.table = tableOf (idOf 0) [ipv6Node] (by decide) ∧
      s.world = ⟨0, Function.update (fun _ => .asGood 0) 0 (.asGood 0)⟩ := by
  obtain ⟨table, htable, rfl⟩ := addNewNode_eq hadd
  have hrun : addNode ⟨0, Function.update (fun _ => .asGood 0) 0 (.asGood 0)⟩
      recursionLimit (.new (idOf 0)) ipv6Node =
        .ok (tableOf (idOf 0) [ipv6Node] (by decide)) := by decide +kernel
  change addNode ⟨0, Function.update (fun _ => .asGood 0) 0 (.asGood 0)⟩
      recursionLimit (.new (idOf 0)) ipv6Node = .ok table at htable
  exact ⟨Except.ok.inj (htable.symm.trans hrun), rfl⟩

theorem live_ipv6Forged (hadd : addGood lonelyLookup.shared (forged.nodeId, ipv6Forger) = .ok s) :
    s.table.entries.filter (Bucket.isPingable s.world) = [ipv6Node] := by
  obtain ⟨htable, hworld⟩ := shared_ipv6Forged hadd
  rw [htable, hworld]
  decide

/-- A request from another node leaves the table as it is, and is about to be answered with the sender
of the response. -/
theorem closestNodes_ipv6Forged (ht : s.table.Valid)
    (hadd : addGood lonelyLookup.shared (forged.nodeId, ipv6Forger) = .ok s) :
    (s.remoteRequestFrom (question.nodeId, peer)).closestNodes question.infoHash = .ok [ipv6Node] := by
  have hnone : s.findNode (question.nodeId, peer) = none := by
    rw [Option.eq_none_iff_forall_ne_some]
    intro n hn
    obtain ⟨hmem, hlive, hkey⟩ := findNode_sound hn
    have hnode : n ∈ s.table.entries.filter (Bucket.isPingable s.world) :=
      mem_filter.mpr ⟨hmem, hlive⟩
    rw [live_ipv6Forged hadd, mem_singleton] at hnode
    rw [hnode] at hkey
    cases hkey
  obtain ⟨nodes, hnodes, hperm, -⟩ := Shared.closestNodes_spec ht question.infoHash
  rw [live_ipv6Forged hadd, perm_singleton] at hperm
  rw [Shared.remoteRequestFrom, hnone, hnodes, hperm]

/-! ### Requests -/

/-- Every datagram is read or refused, and a request is answered exactly if the nodes that are listed in
its answer, at most eight of those closest to its target, all have IPv4 addresses. -/
theorem request_answered_iff (hreach : Reachable hash h) :
    (∀ buffer, ∃ message, h.parse buffer = .ok message) ∧
    ∀ request addr, (∃ h', h.handleRequest hash request addr = .ok h') ↔
      ∃ nodes, h.answerNodes request addr = .ok nodes ∧ ∀ n ∈ nodes, n.addr.isIpv4 = true := by
  have ht := hreach.sound.table
  refine ⟨h.parse_ok, fun request addr => ?_⟩
  cases request with
  | ping p => exact iff_of_true ⟨_, rfl⟩ ⟨[], rfl, nofun⟩
  | announcePeer a => exact iff_of_true ⟨_, rfl⟩ ⟨[], rfl, nofun⟩
  | findNode f => exact findNode_answered_iff ht f addr
  | getPeers g =>
    refine answered_iff ht (.getPeers g) rfl addr _ rfl fun bytes hmultiple => ?_
    obtain ⟨info, hinfo⟩ := compactInfo_ok hmultiple _
    exact ⟨_, bind_eq_ok.mpr ⟨info, hinfo, rfl⟩⟩

theorem request_answered_iff_tenGood :
    (∃ message, (fresh .tenGood).parse questionBuffer = .ok message) ∧
    ∃ h', (fresh .tenGood).handleRequest zeroHash (.findNode ⟨[], idOf 1, idOf 96⟩) peer = .ok h' := by
  obtain ⟨hparse, hanswered⟩ := request_answered_iff (reachable_fresh zeroHash Shared.initial_tenGood)
  exact ⟨hparse _, (hanswered _ _).mpr (answerNodes_tenGood _ (by decide) _).2⟩

/-- A node that is looking something up gets a response from an IPv6 address, and then a request. -/
theorem ipv6_response_panics : ∃ h,
    (DhtHandler.fresh .alone).run zeroHash [.task (.startLookup (idOf 16) true),
      .task (.incoming forgedBuffer ipv6Forger)] = .ok h ∧
    h.step zeroHash (.task (.incoming questionBuffer peer)) = .error .panic := by
  have hreach := reachable_lonelyLookup zeroHash
  have hfresh : TransactionID.new 0x1000007 ∉ lonelyLookup.shared.issued := fun hmem =>
    unsolicited_forged _ hmem (TransactionID.asRef_of_fromBytes fromBytes_forged)
  obtain ⟨s, hadd⟩ := addNewNode_ok hreach.sound.table (forged.nodeId, ipv6Forger) (.asGood 0)
  obtain ⟨h, hcall, hshared, hreadOnly⟩ : ∃ h,
      lonelyLookup.handleGetPeersResponse forged ipv6Forger = .ok h ∧ h.shared = s ∧
        h.readOnly = false :=
    ⟨_, handleGetPeersResponse_of_fresh hreach.sound fromBytes_forged hfresh lookup_lonelyLookup hadd,
      shared_afterLookup _ _ _, readOnly_afterLookup _ _ _⟩
  have hnodes := closestNodes_ipv6Forged (valid_of_addNewNode hreach.sound.table hadd) hadd
  refine ⟨h, ?_, ?_⟩
  · rw [← singleton_append, run_append, run_lonelyLookup, ok_bind, run_singleton]
    exact (handleIncoming_of_parse parse_forged).trans hcall
  · rw [step, handleTask, handleIncoming, parse_question, ok_bind]
    simp only [hreadOnly]
    have hlisted : (h.markRemote question.nodeId peer).shared.closestNodes question.infoHash =
        .ok [ipv6Node] := by
      rw [markRemote, hshared, hnodes]
    exact handleGetPeers_panics hlisted ⟨ipv6Node, mem_cons_self, rfl⟩

end DhtHandler

end BitTorrent.Dht
