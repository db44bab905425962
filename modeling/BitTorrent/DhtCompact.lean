import BitTorrent.DhtRequests

/-! Lists of nodes in their compact form. A node is written as 26 bytes, and the iterator over a list cuts
it into such pieces again. The iterator slices and unwraps, which panics if a piece is too short; the
length that was checked when the list was made is what keeps it from that. -/

namespace BitTorrent.Dht

open Rust Nat RoutingTable

open List hiding Vector

/-! ### One node -/

/-- `parts_from_compact_info`, with the slices and unwraps of its body. -/
def sliceParts (compactInfo : Bytes) : Run Empty (NodeId × SocketAddr) := do
  let idBytes ← slice compactInfo 0 shaHashLen
  let nodeId ← expect (ofResult (ShaHash.fromHash idBytes.bytes))
  let compactIpOffset ← addUsize shaHashLen bytesPerCompactIp
  let ipBytes ← slice compactInfo shaHashLen compactIpOffset
  let socket ← expect (ofResult (socketV4FromBytesBe ipBytes.bytes))
  .ok (nodeId, socket)

theorem sliceParts_eq {compactInfo : Bytes} (h : compactInfo.length = bytesPerCompactNodeInfo) :
    sliceParts compactInfo = .ok (partsFromCompactInfo compactInfo h) := by
  have hlength : compactInfo.length = 26 := h
  have hid : (slice compactInfo 0 shaHashLen : Run Empty Slice) = .ok ⟨0, compactInfo.take 20⟩ :=
    slice_eq_ok.mpr ⟨zero_le _, by rw [hlength]; decide, rfl⟩
  have hip : (slice compactInfo shaHashLen 26 : Run Empty Slice) = .ok ⟨20, compactInfo.drop 20⟩ := by
    rw [slice_eq_ok, ← hlength, take_length]
    exact ⟨by rw [hlength]; decide, le_rfl, rfl⟩
  have hhash : ShaHash.fromHash (compactInfo.take 20) =
      .ok ⟨compactInfo.take 20, by simp [hlength, shaHashLen]⟩ := dif_pos _
  have hsocket : socketV4FromBytesBe (compactInfo.drop 20) =
      .ok (socketV4 ⟨(compactInfo.drop 20).toArray, by simp [hlength]⟩) :=
    dif_pos (by rw [length_drop, hlength]; rfl)
  have hoffset : (addUsize shaHashLen bytesPerCompactIp : Run Empty Nat) = .ok 26 := rfl
  simp only [sliceParts, hid, ok_bind, hhash, hoffset, hip, hsocket, ofResult, expect]
  rfl

theorem port_of_bytes (port : UInt16) :
    (port >>> 8).toUInt8.toUInt16 <<< 8 ||| port.toUInt8.toUInt16 = port := by
  have hport := port.toNat_lt
  rw [← UInt16.toNat_inj, toNat_pair, UInt16.toNat_toUInt8, UInt16.toNat_toUInt8,
    UInt16.toNat_shiftRight, show (8 : UInt16).toNat % 16 = 8 by decide, shiftRight_eq_div_pow]
  omega

/-- The 26 bytes of one node. -/
structure CompactInfo where
  bytes : Bytes
  size : bytes.length = bytesPerCompactNodeInfo

variable {c : CompactInfo}

namespace CompactInfo

def parts (c : CompactInfo) : NodeId × SocketAddr := partsFromCompactInfo c.bytes c.size

theorem exists_fields (c : CompactInfo) : ∃ (id : NodeId) (p q r s high low : UInt8),
    c.bytes = id.hash ++ [p, q, r, s, high, low] := by
  have hsize : c.bytes.length = 26 := c.size
  have htake : (c.bytes.take 20).length = shaHashLen := by simp [hsize, shaHashLen]
  have hdrop : (c.bytes.drop 20).length = 6 := by simp [hsize]
  obtain ⟨p, q, r, s, high, low, hfields⟩ : ∃ p q r s high low,
      c.bytes.drop 20 = [p, q, r, s, high, low] := by
    match hlist : c.bytes.drop 20, hdrop with
    | [p, q, r, s, high, low], _ => exact ⟨p, q, r, s, high, low, rfl⟩
  refine ⟨⟨c.bytes.take 20, htake⟩, p, q, r, s, high, low, ?_⟩
  rw [← hfields]
  exact (take_append_drop 20 c.bytes).symm

theorem parts_of_fields {id : NodeId} {p q r s high low : UInt8}
    (h : c.bytes = id.hash ++ [p, q, r, s, high, low]) :
    c.parts = (id, .v4 #v[p, q, r, s] (high.toUInt16 <<< 8 ||| low.toUInt16)) := by
  obtain ⟨bytes, size⟩ := c
  obtain ⟨hash, hsize⟩ := id
  subst h
  have htake : (hash ++ [p, q, r, s, high, low]).take shaHashLen = hash := by
    rw [← hsize, take_left]
  have hdrop : (hash ++ [p, q, r, s, high, low]).drop shaHashLen = [p, q, r, s, high, low] := by
    rw [← hsize, drop_left]
  simp only [parts, partsFromCompactInfo, htake, hdrop]
  rw [socketV4, UInt16.zero_or]
  rfl

end CompactInfo

theorem Node.encode_eq_iff {n : Node} : n.encode = .ok c.bytes ↔ n.key = c.parts := by
  obtain ⟨id, p, q, r, s, high, low, hfields⟩ := c.exists_fields
  rw [CompactInfo.parts_of_fields hfields, hfields]
  obtain ⟨nid, addr, cell⟩ := n
  cases addr with
  | v6 ip port flowinfo scopeId =>
    constructor
    · intro h
      cases h
    · intro h
      cases h
  | v4 ip port =>
    obtain ⟨ip, hip⟩ := ip
    rw [Node.encode, Node.key, Except.ok.injEq, Prod.mk.injEq, append_assoc]
    constructor
    · intro h
      obtain ⟨hid, hrest⟩ := append_inj h (nid.size.trans id.size.symm)
      have hsplit : ip.toList ++ [(port >>> 8).toUInt8, port.toUInt8] =
          [p, q, r, s] ++ [high, low] := hrest
      obtain ⟨hoctets, hport⟩ := append_inj' hsplit rfl
      injection hport with hhigh hlow
      injection hlow with hlow
      have hvector : (⟨ip, hip⟩ : Vector UInt8 4) = #v[p, q, r, s] :=
        Vector.toList_inj.mp hoctets
      refine ⟨ShaHash.hash_injective hid, ?_⟩
      rw [← hhigh, ← hlow, port_of_bytes, hvector]
    · rintro ⟨rfl, haddr⟩
      injection haddr with hip hport
      rw [hip, hport, toUInt8_high, toUInt8_low]
      rfl

/-! ### The iterator -/

structure CompactNodeInfoIter where
  nodes : Bytes
  pos : Nat

namespace CompactNodeInfoIter

def next (it : CompactNodeInfoIter) :
    Run Empty (Option (NodeId × SocketAddr) × CompactNodeInfoIter) :=
  if it.pos = it.nodes.length then .ok (none, it)
  else do
    let compactInfoOffset ← addUsize it.pos bytesPerCompactNodeInfo
    let compactInfo ← slice it.nodes it.pos compactInfoOffset
    let pos ← addUsize it.pos bytesPerCompactNodeInfo
    let parts ← sliceParts compactInfo.bytes
    .ok (some parts, { it with pos := pos })

/-- The items of an iterator, as a `for` loop takes them. -/
def collect : Nat → CompactNodeInfoIter → Run Empty (List (NodeId × SocketAddr))
  | 0, _ => .error .diverge
  | fuel + 1, it => do
    match ← it.next with
    | (none, _) => .ok []
    | (some item, it) => do
      let items ← collect fuel it
      .ok (item :: items)

end CompactNodeInfoIter

def CompactNodeInfo.intoIter (c : CompactNodeInfo) : CompactNodeInfoIter := ⟨c.nodes, 0⟩

/-! ### Lists of nodes -/

def encodeAll (nodes : List Node) : Run Empty Bytes := do
  let encoded ← nodes.mapM Node.encode
  .ok encoded.flatten

def joinInfos (infos : List CompactInfo) : Bytes := infos.flatMap CompactInfo.bytes

theorem length_joinInfos (infos : List CompactInfo) :
    (joinInfos infos).length = infos.length * bytesPerCompactNodeInfo := by
  induction infos with
  | nil => exact (zero_mul _).symm
  | cons c infos ih =>
    rw [joinInfos, flatMap_cons, length_append, c.size, length_cons, succ_mul,
      add_comm, ← ih]
    rfl

theorem exists_joinInfos {bytes : Bytes} (h : bytes.length % bytesPerCompactNodeInfo = 0) :
    ∃ infos, bytes = joinInfos infos := by
  obtain ⟨k, hk⟩ := dvd_of_mod_eq_zero h
  clear h
  induction k generalizing bytes with
  | zero => exact ⟨[], length_eq_zero_iff.mp hk⟩
  | succ k ih =>
    have hlength : bytes.length = 26 * (k + 1) := hk
    have hrest : (bytes.drop 26).length = bytesPerCompactNodeInfo * k := by
      rw [List.length_drop, hlength]
      exact Nat.add_sub_cancel (n := 26 * k) (m := 26)
    obtain ⟨infos, hinfos⟩ := ih hrest
    refine ⟨⟨bytes.take 26, ?_⟩ :: infos, ?_⟩
    · rw [List.length_take, hlength, Nat.min_eq_left (by omega)]
      rfl
    · rw [joinInfos, flatMap_cons, ← joinInfos, ← hinfos]
      exact (take_append_drop 26 bytes).symm

theorem encodeAll_cons (n : Node) (nodes : List Node) :
    encodeAll (n :: nodes) =
      n.encode >>= fun bytes => encodeAll nodes >>= fun rest => .ok (bytes ++ rest) := by
  rw [encodeAll, mapM_cons, encodeAll]
  cases n.encode with
  | error e => rfl
  | ok bytes =>
    cases nodes.mapM Node.encode with
    | error e => rfl
    | ok encoded => rfl

variable {infos : List CompactInfo} {nodes : List Node}

theorem encodeAll_of_key (h : nodes.map Node.key = infos.map CompactInfo.parts) :
    encodeAll nodes = .ok (joinInfos infos) := by
  induction nodes generalizing infos with
  | nil =>
    rw [map_nil, eq_comm, map_eq_nil_iff] at h
    rw [h]
    rfl
  | cons n nodes ih =>
    cases infos with
    | nil => cases h
    | cons c infos =>
      rw [map_cons, map_cons, cons.injEq] at h
      rw [encodeAll_cons, Node.encode_eq_iff.mpr h.1, ok_bind, ih h.2]
      rfl

theorem exists_infos (h : ∀ n ∈ nodes, n.addr.isIpv4 = true) :
    ∃ infos : List CompactInfo, nodes.map Node.key = infos.map CompactInfo.parts := by
  induction nodes with
  | nil => exact ⟨[], rfl⟩
  | cons n nodes ih =>
    obtain ⟨hn, hnodes⟩ := forall_mem_cons.mp h
    obtain ⟨bytes, hbytes, hsize⟩ := Node.encode_of_isIpv4 hn
    obtain ⟨infos, hinfos⟩ := ih hnodes
    have hkey : n.key = CompactInfo.parts ⟨bytes, hsize⟩ := Node.encode_eq_iff.mp hbytes
    exact ⟨⟨bytes, hsize⟩ :: infos, by rw [map_cons, map_cons, hkey, hinfos]⟩

variable {fuel : Nat}

namespace CompactNodeInfoIter

theorem next_of_info {front rest : Bytes} (hfits : (front ++ (c.bytes ++ rest)).length ≤ isizeMax) :
    next ⟨front ++ (c.bytes ++ rest), front.length⟩ =
      .ok (some c.parts, ⟨front ++ (c.bytes ++ rest), (front ++ c.bytes).length⟩) := by
  have hsize : c.bytes.length = 26 := c.size
  have hlength : (front ++ (c.bytes ++ rest)).length = front.length + (26 + rest.length) := by
    rw [length_append, length_append, hsize]
  have hadd : (addUsize front.length bytesPerCompactNodeInfo : Run Empty Nat) =
      .ok (front ++ c.bytes).length := by
    rw [length_append, c.size]
    refine addUsize_of_le isizeMax ?_ le_rfl
    rw [hlength] at hfits
    simp only [bytesPerCompactNodeInfo]
    omega
  have hslice : (slice (front ++ (c.bytes ++ rest)) front.length (front ++ c.bytes).length :
      Run Empty Slice) = .ok ⟨front.length, c.bytes⟩ := by
    rw [slice_eq_ok, ← append_assoc, take_left, drop_left]
    refine ⟨?_, ?_, rfl⟩
    · rw [length_append]
      exact le_add_right _ _
    · rw [append_assoc, hlength, length_append, hsize]
      omega
  have hne : ¬ front.length = (front ++ (c.bytes ++ rest)).length := by omega
  rw [next, if_neg hne]
  simp only [hadd, hslice, ok_bind, sliceParts_eq c.size]
  rfl

theorem collect_joinInfos (infos : List CompactInfo) (front : Bytes)
    (hfits : (front ++ joinInfos infos).length ≤ isizeMax) (hfuel : infos.length < fuel) :
    collect fuel ⟨front ++ joinInfos infos, front.length⟩ = .ok (infos.map CompactInfo.parts) := by
  induction infos generalizing front fuel with
  | nil =>
    obtain ⟨fuel, rfl⟩ := exists_eq_succ_of_ne_zero (ne_of_gt hfuel)
    have hnext : next ⟨front ++ joinInfos [], front.length⟩ =
        .ok (none, ⟨front ++ joinInfos [], front.length⟩) :=
      if_pos (congrArg length (append_nil front)).symm
    rw [collect, hnext]
    rfl
  | cons c infos ih =>
    obtain ⟨fuel, rfl⟩ := exists_eq_succ_of_ne_zero (ne_of_gt (zero_lt_of_lt hfuel))
    have hjoin : joinInfos (c :: infos) = c.bytes ++ joinInfos infos := flatMap_cons
    rw [hjoin] at hfits ⊢
    have hrest := ih (front ++ c.bytes) (by rwa [append_assoc]) (lt_of_succ_lt_succ hfuel)
    rw [collect, next_of_info hfits, ok_bind]
    rw [append_assoc] at hrest
    simp only [hrest, ok_bind, map_cons]

end CompactNodeInfoIter

namespace CompactNodeInfo

theorem collect_eq (c : CompactNodeInfo) (hfits : c.nodes.length ≤ isizeMax)
    (hinfos : c.nodes = joinInfos infos) (hfuel : c.nodes.length / bytesPerCompactNodeInfo < fuel) :
    c.intoIter.collect fuel = .ok (infos.map CompactInfo.parts) := by
  rw [hinfos, length_joinInfos, Nat.mul_div_cancel _ (by decide)] at hfuel
  rw [hinfos] at hfits
  have hcollect := CompactNodeInfoIter.collect_joinInfos infos [] hfits hfuel
  rw [intoIter, hinfos]
  exact hcollect

/-- Lists of nodes with IPv4 addresses and byte strings of whole pieces are two forms of the same. A slice
that exists has no more bytes than `isize::MAX`, hence the buffers. -/
theorem compact_round_trip :
    (∀ nodes : List Node, (∀ n ∈ nodes, n.addr.isIpv4 = true) → ∃ text, encodeAll nodes = .ok text ∧
      ∀ bytes : Buffer, bytes.data = text → ∃ info, CompactNodeInfo.new bytes.data = .ok info ∧
        ∀ fuel, nodes.length < fuel → info.intoIter.collect fuel = .ok (nodes.map Node.key)) ∧
    (∀ bytes : Buffer, bytes.data.length % bytesPerCompactNodeInfo = 0 →
      ∃ info items, CompactNodeInfo.new bytes.data = .ok info ∧
        (∀ fuel, bytes.data.length / bytesPerCompactNodeInfo < fuel →
          info.intoIter.collect fuel = .ok items) ∧
        ∀ nodes : List Node, nodes.map Node.key = items → encodeAll nodes = .ok bytes.data) := by
  constructor
  · intro nodes hipv4
    obtain ⟨infos, hkeys⟩ := exists_infos hipv4
    refine ⟨joinInfos infos, encodeAll_of_key hkeys, fun bytes hbytes => ?_⟩
    have hmultiple : bytes.data.length % bytesPerCompactNodeInfo = 0 := by
      rw [hbytes, length_joinInfos, Nat.mul_mod_left]
    refine ⟨⟨bytes.data, hmultiple⟩, dif_pos hmultiple, fun fuel hfuel => ?_⟩
    have hcount : nodes.length = infos.length := by simpa using congrArg List.length hkeys
    rw [hkeys]
    apply collect_eq _ bytes.fits hbytes
    show bytes.data.length / bytesPerCompactNodeInfo < fuel
    rw [hbytes, length_joinInfos, Nat.mul_div_cancel _ (by decide), ← hcount]
    exact hfuel
  · intro bytes hmultiple
    obtain ⟨infos, hinfos⟩ := exists_joinInfos hmultiple
    refine ⟨⟨bytes.data, hmultiple⟩, infos.map CompactInfo.parts, dif_pos hmultiple, ?_, ?_⟩
    · intro fuel hfuel
      exact collect_eq _ bytes.fits hinfos hfuel
    · intro nodes hkeys
      rw [hinfos]
      exact encodeAll_of_key hkeys

/-- Two nodes, and the bytes of one. -/
theorem compact_round_trip_nextNodes :
    (∃ text info, encodeAll nextNodes = .ok text ∧ CompactNodeInfo.new text = .ok info ∧
      info.intoIter.collect 3 = .ok (nextNodes.map Node.key)) ∧
    ∃ info items, CompactNodeInfo.new (replicate 26 1) = .ok info ∧ info.intoIter.collect 2 = .ok items ∧
      ∀ nodes : List Node, nodes.map Node.key = items → encodeAll nodes = .ok (replicate 26 1) := by
  obtain ⟨hencode, hdecode⟩ := compact_round_trip
  constructor
  · obtain ⟨text, htext, hread⟩ := hencode nextNodes (by decide)
    have hfits : text.length ≤ isizeMax := by
      cases htext
      decide
    obtain ⟨info, hinfo, hcollect⟩ := hread ⟨text, hfits⟩ rfl
    exact ⟨text, info, htext, hinfo, hcollect 3 (by decide)⟩
  · obtain ⟨info, items, hinfo, hcollect, hitems⟩ := hdecode ⟨replicate 26 1, by decide⟩ (by decide)
    exact ⟨info, items, hinfo, hcollect 2 (by decide), hitems⟩

end CompactNodeInfo

/-! ### What a node tells others about its table -/

open Bucket CompactNodeInfo

variable {hash : Bytes → ShaHash} {h h' : DhtHandler}

namespace DhtHandler

/-- The answer to a `find_node` request reads as the first eight live nodes of the table in the order of
`closest_nodes`, or as all of them if they are fewer. Liveness is seen after the request was noted. -/
theorem findNode_answer (hreach : Reachable hash h) (f : FindNodeRequest) (addr : SocketAddr)
    (hcall : h.handleFindNode f addr = .ok h') :
    let noted := h.markRemote f.nodeId addr
    let live := h.shared.table.entries.filter (isPingable noted.shared.world)
    ∃ (rsp : FindNodeResponse) (nodes rest : List Node), h' = noted.reply (.response (.findNode rsp)) addr ∧
      rsp.transId = f.transId ∧ rsp.nodeId = h.shared.table.nodeId ∧
      (∀ fuel, 8 < fuel → rsp.nodes.intoIter.collect fuel = .ok (nodes.map Node.key)) ∧
      noted.shared.closestNodes f.targetId = .ok (nodes ++ rest) ∧ (nodes ++ rest).Perm live ∧
      nodes.Pairwise (fun x y => x.key ≠ y.key) ∧ nodes.length = min 8 live.length := by
  intro noted live
  have htable : noted.shared.table = h.shared.table := (answers_markRemote h f.nodeId addr).table
  obtain ⟨nodes, hnodes, hperm, hdistinct⟩ := Shared.closestNodes_spec (htable ▸ hreach.sound.table) f.targetId
  rw [htable] at hperm
  obtain ⟨bytes, hbytes, hcall⟩ := bind_eq_ok.mp hcall
  rcases closestNodesBytes_cases hnodes with ⟨hipv4, -⟩ | ⟨-, hpanic⟩
  · obtain ⟨infos, hinfos⟩ := exists_infos hipv4
    have hjoined : bytes = joinInfos infos := by
      rw [closestNodesBytes, hnodes, ok_bind] at hbytes
      exact Except.ok.inj (hbytes.symm.trans (encodeAll_of_key hinfos))
    have hlength : bytes.length = infos.length * bytesPerCompactNodeInfo := hjoined ▸ length_joinInfos infos
    have hmultiple : bytes.length % bytesPerCompactNodeInfo = 0 := by rw [hlength, Nat.mul_mod_left]
    have hrsp : FindNodeResponse.new f.transId noted.shared.table.nodeId bytes =
        .ok ⟨f.transId, noted.shared.table.nodeId, ⟨bytes, hmultiple⟩⟩ := by
      rw [FindNodeResponse.new, ResponseValidate.validateNodes, CompactNodeInfo.new, dif_pos hmultiple]
      rfl
    rw [hrsp] at hcall
    have hle : infos.length ≤ 8 := by
      have hlen := congrArg List.length hinfos
      simp only [length_map, length_take] at hlen
      omega
    refine ⟨_, nodes.take 8, nodes.drop 8, (Except.ok.inj hcall).symm, rfl, congrArg RoutingTable.nodeId htable,
      fun fuel hfuel => ?_, ?_, ?_, hdistinct.sublist (take_sublist 8 nodes), ?_⟩
    · rw [hinfos]
      simp only [bytesPerCompactNodeInfo] at hlength
      refine collect_eq _ ?_ hjoined ?_ <;> simp only [isizeMax, bytesPerCompactNodeInfo, hlength] <;> omega
    · rw [take_append_drop, hnodes]
    · rwa [take_append_drop]
    · rw [length_take, hperm.length_eq]
  · rw [hpanic] at hbytes
    cases hbytes

/-- A node that knows ten others is asked by a stranger, and lists eight of them. -/
theorem findNode_answer_tenGood : ∃ (h' : DhtHandler) (rsp : FindNodeResponse) (nodes rest : List Node),
    (fresh .tenGood).handleFindNode ⟨[97], idOf 1, idOf 96⟩ peer = .ok h' ∧
    h' = (fresh .tenGood).reply (.response (.findNode rsp)) peer ∧ rsp.transId = [97] ∧ rsp.nodeId = idOf 0 ∧
    rsp.nodes.intoIter.collect 9 = .ok (nodes.map Node.key) ∧
    (fresh .tenGood).shared.closestNodes (idOf 96) = .ok (nodes ++ rest) ∧
    (nodes ++ rest).Perm (eightNodes ++ nextNodes) ∧ nodes.Pairwise (fun x y => x.key ≠ y.key) ∧
    nodes.length = 8 := by
  obtain ⟨hmark, hnodes⟩ := answerNodes_tenGood ⟨[97], idOf 1, idOf 96⟩ (by decide) peer
  have hreach := reachable_fresh zeroHash Shared.initial_tenGood
  obtain ⟨h', hcall⟩ := (findNode_answered_iff hreach.sound.table _ _).mpr hnodes
  obtain ⟨rsp, nodes, rest, hreply, htrans, hid, hcollect, hclosest, hperm, hkeys, hlength⟩ :=
    findNode_answer hreach _ _ hcall
  have hlive : (fresh .tenGood).shared.table.entries.filter (isPingable (fresh .tenGood).shared.world) =
      eightNodes ++ nextNodes := by decide
  rw [hmark] at hreply hclosest hperm hlength
  rw [hlive] at hperm hlength
  exact ⟨h', rsp, nodes, rest, hcall, hreply, htrans, hid, hcollect 9 (by decide), hclosest, hperm, hkeys, hlength⟩

end DhtHandler

end BitTorrent.Dht
