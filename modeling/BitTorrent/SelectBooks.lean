import BitTorrent.SelectPeers

/-! Where the pieces of a download are. From the moment its size is known, every piece of a download is
waiting to be asked for, or asked of one peer, or received, and what is left of the download is the
number of pieces that were not received. Pieces go from one place to the next when a request is made,
when it is answered and when it is not answered in time; a download that turns out to be wrong, or is
handed out, is complete and has no request under way. -/

namespace BitTorrent.Select

open Rust Dht Peer Meta List UtMetadataModule

/-! ### Pieces -/

/-- The number of pieces of metadata of a size. -/
def numPieces (metadataSize : Int64) : Nat := (metadataSize.toInt.toNat + (maxRequestSize - 1)) / maxRequestSize

def allPieces (metadataSize : Int64) : List Int64 := (range (numPieces metadataSize)).map Int64.ofNat

theorem numPieces_le (metadataSize : Int64) : numPieces metadataSize < 2 ^ 50 := by
  have hlt := metadataSize.toInt_lt
  simp only [numPieces, maxRequestSize]
  omega

variable {metadataSize : Int64}

theorem toInt_ofNat_piece {i : Nat} (hi : i < numPieces metadataSize) : (Int64.ofNat i).toInt = i := by
  have hle := numPieces_le metadataSize
  exact Int64.toInt_ofNat_of_lt (by omega)

theorem nodup_allPieces (metadataSize : Int64) : (allPieces metadataSize).Nodup := by
  refine List.Nodup.map_on (fun i hi j hj heq => ?_) nodup_range
  rw [mem_range] at hi hj
  have htoInt := congrArg Int64.toInt heq
  rw [toInt_ofNat_piece hi, toInt_ofNat_piece hj] at htoInt
  exact Int.ofNat_inj.mp htoInt

variable {piece : Int64}

theorem mem_allPieces (h : piece ∈ allPieces metadataSize) :
    0 ≤ piece.toInt ∧ piece.toInt.toNat * maxRequestSize < metadataSize.toInt.toNat := by
  obtain ⟨i, hi, rfl⟩ := mem_map.mp h
  rw [mem_range] at hi
  rw [toInt_ofNat_piece hi, Int.toNat_natCast]
  refine ⟨Int.natCast_nonneg i, ?_⟩
  simp only [numPieces, maxRequestSize] at hi ⊢
  omega

theorem pendingInfoFromMetadataSize_spec {pending : PendingInfo}
    (h : pendingInfoFromMetadataSize metadataSize = .ok pending) :
    0 ≤ metadataSize.toInt ∧ pending.messages.map UtMetadataRequestMessage.piece = allPieces metadataSize ∧
      pending.left = numPieces metadataSize ∧ pending.bytes.data.length = metadataSize.toInt.toNat := by
  obtain ⟨size, hsize, h⟩ := bind_eq_ok.mp h
  obtain ⟨bytes, hbytes, h⟩ := bind_eq_ok.mp h
  cases h
  have hcast : 0 ≤ metadataSize.toInt ∧ size = metadataSize.toInt.toNat := by
    unfold tryUint at hsize
    split at hsize
    · rename_i hrange
      cases hsize
      exact ⟨hrange.1, rfl⟩
    · cases hsize
  obtain ⟨hnonneg, rfl⟩ := hcast
  have hcount : (if metadataSize.toInt.toNat % maxRequestSize = 0 then metadataSize.toInt.toNat / maxRequestSize
      else metadataSize.toInt.toNat / maxRequestSize + 1) = numPieces metadataSize := by
    unfold numPieces maxRequestSize
    split
    · omega
    · omega
  refine ⟨hnonneg, ?_, hcount, ?_⟩
  · rw [map_map, hcount, allPieces]
    rfl
  · unfold Buffer.zeros at hbytes
    split at hbytes
    · cases hbytes
      exact length_replicate
    · cases hbytes

/-! ### Where the pieces are -/

/-- A download of a size, and the pieces that were received of it. -/
structure Download where
  metadataSize : Int64
  received : List Int64

/-- Every piece is in one place. -/
structure Kept (d : Download) (pending : PendingInfo) (requested : List Int64) : Prop where
  nonneg : 0 ≤ d.metadataSize.toInt
  bytes : pending.bytes.data.length = d.metadataSize.toInt.toNat
  pieces : (pending.messages.map UtMetadataRequestMessage.piece ++ requested ++ d.received).Perm
    (allPieces d.metadataSize)
  left : pending.left + d.received.length = numPieces d.metadataSize

/-- What is known of a hash: nothing is under way for it, or its download is kept. -/
inductive BookedAt (requested : List Int64) : Option PendingInfo → Option Download → Prop where
  | idle (h : requested = []) : BookedAt requested none none
  | running {d : Download} {pending : PendingInfo} (h : Kept d pending requested) :
      BookedAt requested (some pending) (some d)

variable {requested' : List Int64}

namespace Kept

variable {d : Download} {pending : PendingInfo} {requested : List Int64}

theorem length_eq (h : Kept d pending requested) :
    pending.messages.length + requested.length = pending.left := by
  have hlength := h.pieces.length_eq
  have hleft := h.left
  rw [allPieces, length_map, length_range, length_append, length_append,
    length_map] at hlength
  omega

theorem requested_eq_nil (h : Kept d pending requested) (hleft : pending.left = 0) : requested = [] := by
  have hlength := h.length_eq
  exact length_eq_zero_iff.mp (by omega)

theorem new (h : pendingInfoFromMetadataSize metadataSize = .ok pending) :
    Kept ⟨metadataSize, []⟩ pending [] := by
  obtain ⟨hnonneg, hmessages, hleft, hbytes⟩ := pendingInfoFromMetadataSize_spec h
  refine ⟨hnonneg, hbytes, ?_, hleft⟩
  rw [hmessages, append_nil, append_nil]

theorem request (h : Kept d pending requested) {message : UtMetadataRequestMessage}
    (hlast : pending.messages.getLast? = some message) :
    Kept d { pending with messages := pending.messages.dropLast } (requested ++ [message.piece]) := by
  refine ⟨h.nonneg, h.bytes, ?_, h.left⟩
  have hmessages : pending.messages = pending.messages.dropLast ++ [message] :=
    (dropLast_append_getLast? message hlast).symm
  refine List.Perm.trans ?_ h.pieces
  show (pending.messages.dropLast.map UtMetadataRequestMessage.piece ++ (requested ++ [message.piece]) ++
    d.received).Perm _
  nth_rewrite 2 [hmessages]
  rw [map_append, map_singleton]
  apply List.Perm.append_right
  rw [append_assoc]
  exact perm_append_comm.append_left _

theorem expire {kept expired : List Int64} (h : Kept d pending requested)
    (hsplit : (expired ++ kept).Perm requested) {messages : List UtMetadataRequestMessage}
    (hmessages : messages.map UtMetadataRequestMessage.piece = expired) :
    Kept d { pending with messages := pending.messages ++ messages } kept := by
  refine ⟨h.nonneg, h.bytes, List.Perm.trans ?_ h.pieces, h.left⟩
  show ((pending.messages ++ messages).map UtMetadataRequestMessage.piece ++ kept ++ d.received).Perm _
  rw [map_append, hmessages, append_assoc (pending.messages.map _)]
  exact (hsplit.append_left _).append_right _

theorem receive (h : Kept d pending requested) {rest : List Int64}
    (hrest : requested.Perm (piece :: rest)) {left : Nat} (hleft : left + 1 = pending.left) {bytes : Buffer}
    (hbytes : bytes.data.length = pending.bytes.data.length) :
    Kept { d with received := d.received ++ [piece] } { pending with left := left, bytes := bytes } rest := by
  refine ⟨h.nonneg, hbytes.trans h.bytes, List.Perm.trans ?_ h.pieces, ?_⟩
  · show (pending.messages.map UtMetadataRequestMessage.piece ++ rest ++ (d.received ++ [piece])).Perm _
    have hmoved : (rest ++ (d.received ++ [piece])).Perm (requested ++ d.received) := by
      rw [← append_assoc]
      refine perm_append_comm.trans ?_
      exact (hrest.append_right d.received).symm
    rw [append_assoc, append_assoc]
    exact hmoved.append_left _
  · have hold := h.left
    show left + (d.received ++ [piece]).length = _
    rw [length_append, length_singleton, ← hold]
    omega

theorem nodup (h : Kept d pending requested) :
    (pending.messages.map UtMetadataRequestMessage.piece ++ requested ++ d.received).Nodup :=
  h.pieces.nodup_iff.mpr (nodup_allPieces d.metadataSize)

theorem count_eq_one (h : Kept d pending requested) (hpiece : piece ∈ allPieces d.metadataSize) :
    (pending.messages.map UtMetadataRequestMessage.piece).count piece + requested.count piece +
      d.received.count piece = 1 := by
  rw [← count_append, ← count_append, h.pieces.count_eq]
  exact count_eq_one_of_mem (nodup_allPieces d.metadataSize) hpiece

theorem left_eq (h : Kept d pending requested) :
    pending.left = ((allPieces d.metadataSize).filter fun piece => piece ∉ d.received).length := by
  obtain ⟨-, -, hdisjoint⟩ := nodup_append.mp h.nodup
  have hfilter := (h.pieces.filter fun piece => piece ∉ d.received).length_eq
  rw [filter_append, length_append] at hfilter
  have hopen : (pending.messages.map UtMetadataRequestMessage.piece ++ requested).filter
      (fun piece => piece ∉ d.received) = pending.messages.map UtMetadataRequestMessage.piece ++ requested := by
    refine filter_eq_self.mpr fun piece hpiece => decide_eq_true fun hreceived => ?_
    exact hdisjoint piece hpiece piece hreceived rfl
  have hreceived : d.received.filter (fun piece => piece ∉ d.received) = [] :=
    filter_eq_nil_iff.mpr fun piece hpiece => by simpa using hpiece
  rw [hopen, hreceived, length_append, length_map] at hfilter
  rw [← h.length_eq, ← hfilter]
  rfl

theorem starts_inside (h : Kept d pending requested) (hpiece : piece ∈ d.received) :
    0 ≤ piece.toInt ∧ piece.toInt.toNat * maxRequestSize < pending.bytes.data.length := by
  rw [h.bytes]
  exact mem_allPieces (h.pieces.subset (mem_append_right _ hpiece))

theorem perm (h : Kept d pending requested) (hperm : requested'.Perm requested) : Kept d pending requested' :=
  ⟨h.nonneg, h.bytes, ((hperm.append_left _).append_right _).trans h.pieces, h.left⟩

end Kept

theorem BookedAt.perm {requested : List Int64} {pending : Option PendingInfo} {d : Option Download}
    (h : BookedAt requested pending d) (hperm : requested'.Perm requested) : BookedAt requested' pending d := by
  cases h with
  | idle hnil =>
    subst hnil
    exact .idle hperm.eq_nil
  | running hkept => exact .running (hkept.perm hperm)

theorem BookedAt.eq_nil {requested : List Int64} {d : Option Download} (h : BookedAt requested none d) :
    requested = [] ∧ d = none := by
  cases h with
  | idle hnil => exact ⟨hnil, rfl⟩

theorem BookedAt.exists_kept {requested : List Int64} {pending : PendingInfo} {d : Option Download}
    (h : BookedAt requested (some pending) d) : ∃ d', d = some d' ∧ Kept d' pending requested := by
  cases h with
  | running hkept => exact ⟨_, rfl, hkept⟩

theorem BookedAt.drop {requested : List Int64} {pending : PendingInfo} {d : Option Download}
    (h : BookedAt requested (some pending) d) (hleft : pending.left = 0) : BookedAt requested none none := by
  obtain ⟨d', -, hkept⟩ := h.exists_kept
  exact .idle (hkept.requested_eq_nil hleft)

namespace UtMetadataModule

variable {m m' : UtMetadataModule}

/-! ### The requests and the downloads -/

/-- The download of a hash, once its size is known. -/
def started (m : UtMetadataModule) (h : InfoHash) : Option PendingInfo := (m.pendingMap.lookup h).join

/-- The pieces that the peers of a hash are asked for. -/
def requestsFor (m : UtMetadataModule) (h : InfoHash) : List Int64 :=
  (m.activeRequests.filter fun request => request.sentTo.hash = h).map fun request => request.message.piece

theorem started_of_pendingMap (h : m'.pendingMap = m.pendingMap) : m'.started = m.started := by
  funext key
  rw [started, started, h]

theorem requestsFor_of_activeRequests (h : m'.activeRequests = m.activeRequests) :
    m'.requestsFor = m.requestsFor := by
  funext key
  rw [requestsFor, requestsFor, h]

variable {opt : Option PendingInfo} {h : InfoHash}

theorem started_of_insert (heq : m'.pendingMap = m.pendingMap.insert h opt) (key : InfoHash) :
    m'.started key = if key = h then opt else m.started key := by
  rw [started, started, heq, HashMap.lookup_insert_eq]
  split
  · rfl
  · rfl

theorem started_of_erase (heq : m'.pendingMap = m.pendingMap.erase h) (key : InfoHash) :
    m'.started key = if key = h then none else m.started key := by
  rw [started, started, heq, HashMap.lookup_erase_eq]
  split
  · rfl
  · rfl

theorem started_of_lookup (hlookup : m.pendingMap.lookup h = some opt) : m.started h = opt := by
  rw [started, hlookup]
  rfl

theorem started_downloadMetainfo (h : InfoHash) : (m.downloadMetainfo h).started = m.started := by
  unfold downloadMetainfo
  split
  · rfl
  · rename_i hnone
    funext key
    rw [started_of_insert rfl key]
    split
    · rename_i heq
      rw [heq, started, hnone]
      rfl
    · rfl

/-- Requests are waiting again. -/
def retry (pending : PendingInfo) (requests : List ActiveRequest) : PendingInfo :=
  { pending with messages := pending.messages ++ requests.map ActiveRequest.message }

theorem started_expire (request : ActiveRequest) (h : InfoHash) :
    (m.expire request).started h =
      (m.started h).map fun pending => retry pending ([request].filter fun r => r.sentTo.hash = h) := by
  by_cases hhash : request.sentTo.hash = h
  · subst hhash
    have hfilter : ([request].filter fun r => r.sentTo.hash = request.sentTo.hash) = [request] := by simp
    rw [hfilter]
    cases hstarted : m.started request.sentTo.hash with
    | none =>
      have hpending : (m.expire request).pendingMap = m.pendingMap := by
        cases hlookup : m.pendingMap.lookup request.sentTo.hash with
        | none => simp only [expire, hlookup]
        | some opt =>
          rw [started_of_lookup hlookup] at hstarted
          simp only [expire, hlookup, hstarted]
      rw [started_of_pendingMap hpending, hstarted]
      rfl
    | some pending =>
      have hlookup : m.pendingMap.lookup request.sentTo.hash = some (some pending) :=
        Option.join_eq_some_iff.mp hstarted
      have hpending : (m.expire request).pendingMap =
          m.pendingMap.insert request.sentTo.hash (some (retry pending [request])) := by
        simp only [expire, hlookup]
        rfl
      rw [started_of_insert hpending, if_pos rfl]
      rfl
  · have hfilter : ([request].filter fun r => r.sentTo.hash = h) = [] := by simp [hhash]
    rw [hfilter]
    have hretry : ∀ pending, retry pending [] = pending := fun pending => by
      rw [retry, map_nil, append_nil]
    simp only [hretry, Option.map_id']
    unfold expire
    dsimp only
    split
    · rw [started_of_insert rfl h, if_neg (Ne.symm hhash)]
    · rfl

theorem started_applyTick (duration : Duration) (h : InfoHash) :
    (m.applyTick duration).started h = (m.started h).map fun pending =>
      retry pending ((m.activeRequests.filter fun r => r.left < duration).filter fun r => r.sentTo.hash = h) := by
  have hexpired : ∀ requests : List ActiveRequest, (requests.foldl expire m).started h =
      (m.started h).map fun pending => retry pending (requests.filter fun r => r.sentTo.hash = h) := by
    intro requests
    induction requests generalizing m with
    | nil => simp [retry]
    | cons request requests ih =>
      have happend : request :: requests = [request] ++ requests := rfl
      rw [foldl_cons, ih, started_expire, happend, filter_append, Option.map_map]
      congr 1
      funext pending
      simp only [Function.comp_apply, retry, map_append, append_assoc]
  exact (congrFun (started_of_pendingMap rfl) h).trans (hexpired _)

theorem requestsFor_applyTick (duration : Duration) (h : InfoHash) :
    (((m.activeRequests.filter fun r => r.left < duration).filter fun r => r.sentTo.hash = h).map
      (fun r => r.message.piece) ++ (m.applyTick duration).requestsFor h).Perm (m.requestsFor h) := by
  have hkept : (m.applyTick duration).requestsFor h =
      ((m.activeRequests.filter fun r => ¬ r.left < duration).filter fun r => r.sentTo.hash = h).map
        fun r => r.message.piece := by
    simp only [requestsFor, applyTick, filter_map, map_map]
    rfl
  rw [hkept, ← map_append, ← filter_append]
  have hsplit := filter_append_perm (fun r : ActiveRequest => decide (r.left < duration)) m.activeRequests
  simp only [decide_not]
  exact (hsplit.filter _).map _

/-! ### One call -/

/-- The books of a module: what is known of each hash. -/
abbrev Book := InfoHash → Option Download

/-- The peers of a hash belong to the hash. -/
def OwnPeers (h : InfoHash) (active : ActivePeers) : Prop := ∀ entry ∈ active.peers.entries, entry.2.hash = h

/-- The books are right. -/
structure Booked (m : UtMetadataModule) (book : Book) : Prop where
  peers : m.PeersHave OwnPeers
  pieces : ∀ h, BookedAt (m.requestsFor h) (m.started h) (book h)

variable {active : ActivePeers}

theorem OwnPeers.erase (key : PeerKey) (hown : OwnPeers h active) :
    OwnPeers h { active with peers := active.peers.erase key } := by
  intro entry hentry
  exact hown entry ((kerase_sublist key active.peers.entries).subset hentry)

variable {info : PeerInfo}

theorem OwnPeers.insert (hown : OwnPeers info.hash active) :
    OwnPeers info.hash { active with peers := active.peers.insert info.key info } := by
  intro entry hentry
  rw [AList.entries_insert] at hentry
  rcases mem_cons.mp hentry with rfl | hentry
  · rfl
  · exact hown entry ((kerase_sublist info.key active.peers.entries).subset hentry)

variable {book : Book}

theorem Booked.of_eq (hm : m.Booked book) (hpeers : m'.PeersHave OwnPeers)
    (hpending : m'.started = m.started) (hrequests : m'.activeRequests = m.activeRequests) : m'.Booked book := by
  refine ⟨hpeers, fun h => ?_⟩
  rw [hpending, requestsFor_of_activeRequests hrequests]
  exact hm.pieces h

theorem Booked.alike (hm : m.Booked book) (h : Alike m m') : m'.Booked book :=
  hm.of_eq (hm.peers.of_eq h.peers) (started_of_pendingMap h.pending) h.requests

theorem Booked.addPeer (hm : m.Booked book) (info : PeerInfo) (extInfo : ExtendedPeerInfo) :
    (m.addPeer info extInfo).Booked book := by
  refine hm.of_eq (hm.peers.addPeer (fun _ _ => nofun) fun _ => OwnPeers.insert)
    (started_of_pendingMap (pendingMap_addPeer info extInfo)) ?_
  unfold UtMetadataModule.addPeer
  dsimp only
  split <;> rfl

theorem Booked.removePeer (hm : m.Booked book) (info : PeerInfo) : (m.removePeer info).Booked book := by
  refine hm.of_eq (hm.peers.removePeer (fun _ _ => OwnPeers.erase) info)
    (started_of_pendingMap (pendingMap_removePeer info)) ?_
  unfold UtMetadataModule.removePeer
  split
  · rfl
  · dsimp only
    split <;> rfl

theorem Booked.downloadMetainfo (hm : m.Booked book) (h : InfoHash) : (m.downloadMetainfo h).Booked book := by
  have hrest : (m.downloadMetainfo h).activePeers = m.activePeers ∧
      (m.downloadMetainfo h).activeRequests = m.activeRequests := by
    unfold UtMetadataModule.downloadMetainfo
    split
    · exact ⟨rfl, rfl⟩
    · exact ⟨rfl, rfl⟩
  exact hm.of_eq (hm.peers.of_eq hrest.1) (started_downloadMetainfo h) hrest.2

theorem Booked.applyTick (hm : m.Booked book) (duration : Duration) : (m.applyTick duration).Booked book := by
  refine ⟨hm.peers.applyTick (fun _ _ => OwnPeers.erase) duration, fun h => ?_⟩
  have hsplit := requestsFor_applyTick (m := m) duration h
  have hpieces := hm.pieces h
  rw [started_applyTick]
  generalize m.started h = pending at hpieces ⊢
  generalize book h = d at hpieces ⊢
  cases hpieces with
  | idle hnil =>
    rw [hnil] at hsplit
    exact .idle (append_eq_nil_iff.mp hsplit.eq_nil).2
  | running hkept =>
    refine .running (hkept.expire hsplit ?_)
    rw [map_map]
    rfl

/-! ### The data a peer sends -/

/-- A peer was asked for the piece it sends. -/
def awaits (m : UtMetadataModule) (info : PeerInfo) (data : UtMetadataDataMessage) : Bool :=
  m.activeRequests.any fun request => request.sentTo.key = info.key ∧ request.message.piece = data.piece

variable {index : Nat}

theorem perm_swapRemove {α : Type} {l : List α} {x : α} (h : l[index]? = some x) :
    l.Perm (x :: swapRemove l index) := by
  obtain ⟨hindex, rfl⟩ := List.getElem?_eq_some_iff.mp h
  have hne : l ≠ [] := ne_nil_of_length_pos (by omega)
  have hset : (l.set index (l.getLast hne)).getLast? = some (l.getLast hne) := by
    rw [getLast?_eq_getElem?, length_set, getElem?_set]
    split
    · rfl
    · rw [← getLast?_eq_getElem?, getLast?_eq_some_getLast hne]
  have hswap : swapRemove l index = (l.set index (l.getLast hne)).dropLast := by
    rw [swapRemove, getLast?_eq_some_getLast hne]
  -- the element that is overwritten stands for the one that is dropped at the end
  have hrest : (l.eraseIdx index).Perm (swapRemove l index) := by
    rw [hswap]
    refine List.Perm.cons_inv (a := l.getLast hne) ?_
    refine (set_perm_cons_eraseIdx hindex (l.getLast hne)).symm.trans ?_
    nth_rewrite 1 [← dropLast_append_getLast? _ hset]
    exact perm_append_singleton _ _
  exact (getElem_cons_eraseIdx_perm hindex).symm.trans (hrest.cons _)

/-- The books after a peer sent a piece. -/
def receive (m : UtMetadataModule) (book : Book) (info : PeerInfo) (data : UtMetadataDataMessage) : Book :=
  fun h => if m.awaits info data ∧ h = info.hash then
      (book h).map fun d => { d with received := d.received ++ [data.piece] }
    else book h

theorem requestsFor_swapRemove {request : ActiveRequest} (h : m.activeRequests[index]? = some request)
    (hrequests : m'.activeRequests = swapRemove m.activeRequests index) (key : InfoHash) :
    (m.requestsFor key).Perm (if key = request.sentTo.hash then request.message.piece :: m'.requestsFor key
      else m'.requestsFor key) := by
  have hperm := ((perm_swapRemove h).filter fun r => r.sentTo.hash = key).map fun r => r.message.piece
  rw [← hrequests] at hperm
  split
  · rename_i heq
    rwa [filter_cons_of_pos (by simp [heq]), map_cons] at hperm
  · rename_i hne
    rwa [filter_cons_of_neg (by simpa using Ne.symm hne)] at hperm

variable {data : UtMetadataDataMessage}

theorem exists_of_findIdx (h : (m.activeRequests.findIdx? fun request =>
      request.sentTo.key = info.key ∧ request.message.piece = data.piece) = some index) :
    m.awaits info data = true ∧ ∃ request, m.activeRequests[index]? = some request ∧
      request.sentTo.hash = info.hash ∧ request.message.piece = data.piece := by
  obtain ⟨hindex, hrequest, -⟩ := findIdx?_eq_some_iff_getElem.mp h
  obtain ⟨hkey, hpiece⟩ := of_decide_eq_true hrequest
  have hhash : (m.activeRequests[index]).sentTo.hash = info.hash := congrArg (fun key : PeerKey => key.2.2) hkey
  refine ⟨?_, m.activeRequests[index], getElem?_eq_getElem hindex, hhash, hpiece⟩
  exact any_eq_true.mpr ⟨_, getElem_mem hindex, hrequest⟩

theorem awaits_eq_false (h : (m.activeRequests.findIdx? fun request =>
      request.sentTo.key = info.key ∧ request.message.piece = data.piece) = none) :
    m.awaits info data = false := by
  rw [awaits, any_eq_false]
  intro request hrequest
  rw [findIdx?_eq_none_iff.mp h request hrequest]
  exact Bool.false_ne_true

/-- What data does that answers a request: the request is done, and the data is written where the piece
belongs. -/
structure Answered (m m' : UtMetadataModule) (info : PeerInfo) (data : UtMetadataDataMessage)
    (index : Nat) (request : ActiveRequest) (pending : PendingInfo) (bytes : Buffer) : Prop where
  found : m.activeRequests[index]? = some request
  hash : request.sentTo.hash = info.hash
  piece : request.message.piece = data.piece
  started : m.started info.hash = some pending
  left : 1 ≤ pending.left
  fits : data.piece.toInt.toNat * maxRequestSize + data.data.length ≤ pending.bytes.data.length
  written : bytes.data = pending.bytes.data.take (data.piece.toInt.toNat * maxRequestSize) ++ data.data ++
    pending.bytes.data.drop (data.piece.toInt.toNat * maxRequestSize + data.data.length)
  state : m' = { m with
    activeRequests := swapRemove m.activeRequests index
    pendingMap := m.pendingMap.insert info.hash (some { pending with left := pending.left - 1, bytes }) }

theorem recvData_eq_ok (hm : m.Booked book)
    (h : m.recvData info data = .ok m') : (m.awaits info data = false ∧ m' = m) ∨
      (m.awaits info data = true ∧ ∃ index request pending bytes,
        Answered m m' info data index request pending bytes) := by
  unfold recvData at h
  split at h
  · rename_i hnone
    cases h
    exact .inl ⟨awaits_eq_false hnone, rfl⟩
  · rename_i index hfind
    obtain ⟨hawaits, request, hindex, hhash, hpiece⟩ := exists_of_findIdx hfind
    dsimp only at h
    -- the download the request belongs to is under way
    cases hstarted : m.started info.hash with
    | none =>
      have hpieces := hm.pieces info.hash
      rw [hstarted] at hpieces
      have hmem : request ∈ m.activeRequests.filter fun r => r.sentTo.hash = info.hash :=
        mem_filter.mpr ⟨mem_of_getElem? hindex, decide_eq_true hhash⟩
      rw [map_eq_nil_iff.mp hpieces.eq_nil.1] at hmem
      cases hmem
    | some pending =>
      have hlookup : m.pendingMap.lookup info.hash = some (some pending) := Option.join_eq_some_iff.mp hstarted
      rw [hlookup] at h
      obtain ⟨piece, hcast, h⟩ := bind_eq_ok.mp h
      obtain ⟨dataOffset, hoffset, h⟩ := bind_eq_ok.mp h
      obtain ⟨left, hleft, h⟩ := bind_eq_ok.mp h
      obtain ⟨bytes, hbytes, h⟩ := bind_eq_ok.mp h
      cases h
      obtain ⟨hpos, rfl⟩ := subUsize_eq_ok.mp hleft
      obtain ⟨hfits, hdata⟩ := Buffer.writeAllAt_eq_ok.mp hbytes
      have hdataOffset : dataOffset = data.piece.toInt.toNat * maxRequestSize := by
        unfold tryUint at hcast
        split at hcast
        · cases hcast
          unfold mulUsize at hoffset
          split at hoffset
          · cases hoffset
            rfl
          · cases hoffset
        · cases hcast
      subst hdataOffset
      exact .inr ⟨hawaits, index, request, pending, bytes, hindex, hhash, hpiece, hstarted, hpos, hfits,
        hdata, rfl⟩

theorem Booked.recvData (hm : m.Booked book)
    (h : m.recvData info data = .ok m') : m'.Booked (m.receive book info data) := by
  rcases recvData_eq_ok hm h with ⟨hawaits, rfl⟩ | ⟨hawaits, index, request, pending, bytes, hanswered⟩
  · have hbook : m'.receive book info data = book := by
      funext key
      rw [receive, hawaits, if_neg nofun]
    rwa [hbook]
  · have hhash := hanswered.hash
    have hrequests : ∀ key, (m.requestsFor key).Perm _ :=
      requestsFor_swapRemove hanswered.found (congrArg activeRequests hanswered.state)
    have hpeers : m'.activePeers = m.activePeers := by rw [hanswered.state]
    refine ⟨hm.peers.of_eq hpeers, fun key => ?_⟩
    rw [started_of_insert (congrArg pendingMap hanswered.state) key, receive, hawaits]
    have hrequest := hrequests key
    have hpieces := hm.pieces key
    by_cases hkey : key = info.hash
    · subst hkey
      rw [if_pos hhash.symm, hanswered.piece] at hrequest
      rw [if_pos rfl, if_pos ⟨rfl, rfl⟩]
      rw [hanswered.started] at hpieces
      obtain ⟨d, hd, hkept⟩ := hpieces.exists_kept
      have hleft := hanswered.left
      rw [hd]
      refine .running (hkept.receive hrequest (by omega) ?_)
      rw [hanswered.written]
      exact Buffer.length_overwrite hanswered.fits
    · rw [if_neg hkey, if_neg fun hand => hkey hand.2]
      rw [if_neg fun heq => hkey (heq.trans hhash)] at hrequest
      exact hpieces.perm hrequest.symm

/-! ### What a poll takes out -/

/-- Downloads are dropped when they are complete, and otherwise left as they are. -/
def Completes (m m' : UtMetadataModule) : Prop :=
  ∀ h, m'.started h = m.started h ∨
    (m'.started h = none ∧ ∃ pending, m.started h = some pending ∧ pending.left = 0)

theorem Completes.trans {m'' : UtMetadataModule} (h : Completes m m') (h' : Completes m' m'') :
    Completes m m'' := by
  intro key
  rcases h' key with heq | ⟨hnone, pending, hstarted, hleft⟩
  · rw [heq]
    exact h key
  · right
    refine ⟨hnone, pending, ?_, hleft⟩
    rcases h key with heq | ⟨hnone', -⟩
    · rw [← heq, hstarted]
    · rw [hnone'] at hstarted
      cases hstarted

/-- The books of the downloads that are still there. -/
def still (m : UtMetadataModule) (book : Book) : Book := fun h => (m.started h).bind fun _ => book h

theorem Booked.complete (hm : m.Booked book) (hpeers : m'.PeersHave OwnPeers) (h : Completes m m')
    (hrequests : m'.activeRequests = m.activeRequests) : m'.Booked (m'.still book) := by
  refine ⟨hpeers, fun key => ?_⟩
  have hpieces := hm.pieces key
  rw [requestsFor_of_activeRequests hrequests, still]
  rcases h key with heq | ⟨hnone, pending, hstarted, hleft⟩
  · rw [heq]
    cases hstarted : m.started key with
    | none =>
      rw [hstarted] at hpieces
      exact .idle hpieces.eq_nil.1
    | some pending =>
      rw [hstarted] at hpieces
      exact hpieces
  · rw [hnone]
    rw [hstarted] at hpieces
    exact hpieces.drop hleft

theorem completes_forget {order : List InfoHash} {completedHash : InfoHash} {completed : PendingInfo}
    (h : m.pendingMap.find order (fun _ opt => opt.any fun pending => pending.left = 0) =
      some (completedHash, some completed)) : Completes m (m.forget completedHash) := by
  intro key
  obtain ⟨hlookup, hleft⟩ := HashMap.find_eq_some h
  rw [started_of_erase rfl key]
  split_ifs with hkey
  · subst hkey
    exact .inr ⟨rfl, completed, started_of_lookup hlookup, of_decide_eq_true hleft⟩
  · exact .inl rfl

theorem completes_retrieveCompletedDownload {hash : Bytes → ShaHash} {order : List InfoHash}
    {found : Option (InfoHash × PendingInfo × Info)}
    (h : m.retrieveCompletedDownload hash order = .ok (found, m')) : Completes m m' :=
  (retrieveCompletedDownload_rule (motive := Completes m) (fun _ => .inl rfl)
    (fun _ _ _ hfind hm₁ => hm₁.trans (completes_forget hfind)) h).1

theorem Booked.retrievePieceRequest (hm : m.Booked book) (order : List InfoHash) (peer : Nat) :
    (m.retrievePieceRequest order peer).2.Booked book := by
  unfold UtMetadataModule.retrievePieceRequest
  split
  · rename_i h pending hfind
    have hlookup := (HashMap.find_eq_some hfind).1
    dsimp only
    split
    · rename_i _ selectedPeer selectedMessage hpeer hmessage
      -- the peer that is asked is one of the hash
      have hhash : selectedPeer.hash = h := by
        cases hactive : m.activePeers.lookup h with
        | none =>
          rw [hactive] at hpeer
          cases hpeer
        | some active =>
          rw [hactive] at hpeer
          exact hm.peers h active hactive _ (mem_of_getElem? hpeer)
      have hrequests : ∀ key, requestsFor { m with
            pendingMap := m.pendingMap.insert h (some { pending with messages := pending.messages.dropLast })
            activeRequests := m.activeRequests ++ [generateActiveRequest selectedMessage selectedPeer] } key =
          if key = h then m.requestsFor key ++ [selectedMessage.piece] else m.requestsFor key := by
        intro key
        simp only [requestsFor, filter_append, map_append]
        split
        · rename_i heq
          simp [generateActiveRequest, hhash, heq]
        · rename_i hne
          simp [generateActiveRequest, hhash, Ne.symm hne]
      refine ⟨hm.peers.of_eq rfl, fun key => ?_⟩
      rw [hrequests, started_of_insert rfl key]
      have hpieces := hm.pieces key
      by_cases hkey : key = h
      · subst hkey
        rw [started_of_lookup hlookup] at hpieces
        obtain ⟨d, hd, hkept⟩ := hpieces.exists_kept
        rw [if_pos rfl, if_pos rfl, hd]
        exact .running (hkept.request hmessage)
      · rw [if_neg hkey, if_neg hkey]
        exact hpieces
    · exact hm
  · exact hm

theorem Booked.still_eq (hm : m'.Booked (m.still book)) : m'.still book = m.still book := by
  funext key
  have hpieces := hm.pieces key
  rw [still]
  cases hstarted : m'.started key with
  | none =>
    rw [hstarted] at hpieces
    exact hpieces.eq_nil.2.symm
  | some pending =>
    rw [hstarted] at hpieces
    obtain ⟨d, hd, -⟩ := hpieces.exists_kept
    obtain ⟨_, -, hbook⟩ := Option.bind_eq_some_iff.mp hd
    rw [hd]
    exact hbook

section

variable {hash : Bytes → ShaHash} {order : List InfoHash} {peer : Nat}

theorem Booked.retrieve (hm : m.Booked book) {optResult : Option Retrieved}
    (h : m.retrieve hash order peer = .ok (optResult, m')) : m'.Booked (m'.still book) := by
  obtain ⟨⟨found, m₁⟩, hcompleted, h⟩ := bind_eq_ok.mp h
  have hm₁ := hm.complete (hm.peers.retrieveCompletedDownload hcompleted)
    (completes_retrieveCompletedDownload hcompleted) (requests_retrieveCompletedDownload hcompleted).1
  cases found with
  | some f =>
    cases h
    exact hm₁
  | none =>
    have hm₂ := hm₁.retrievePieceRequest order peer
    dsimp only at h
    generalize m₁.retrievePieceRequest order peer = requested at h hm₂
    obtain ⟨_ | message, m₂⟩ := requested
    · obtain ⟨⟨message, m₃⟩, hresponse, h⟩ := bind_eq_ok.mp h
      cases h
      obtain ⟨⟨message', peerRequests⟩, -, hresponse⟩ := bind_eq_ok.mp hresponse
      cases hresponse
      have hm₃ : Booked { m₂ with peerRequests } (m₁.still book) :=
        hm₂.of_eq (hm₂.peers.of_eq rfl) rfl rfl
      rw [hm₃.still_eq]
      exact hm₃
    · cases h
      rw [hm₂.still_eq]
      exact hm₂

theorem Booked.pollNext (hm : m.Booked book) {waker : Waker} {result : Poll Retrieved}
    (h : m.pollNext hash order peer waker = .ok (result, m')) : m'.Booked (m'.still book) := by
  obtain ⟨⟨optResult, m₁⟩, hretrieve, h⟩ := bind_eq_ok.mp h
  have hm₁ := hm.retrieve hretrieve
  have hsink : m₁.checkSinkUnblock.Booked (m₁.still book) := hm₁.alike (alike_checkSinkUnblock m₁)
  cases optResult with
  | some found =>
    cases h
    rw [hsink.still_eq]
    exact hsink
  | none =>
    cases h
    have hwaker : Booked { m₁.checkSinkUnblock with optStreamWaker := some waker } (m₁.still book) :=
      hsink.alike ⟨rfl, rfl, rfl, rfl⟩
    rw [hwaker.still_eq]
    exact hwaker

end

/-! ### What an update starts -/

section

variable {hash : Bytes → ShaHash} {available : Bool}

theorem completes_validateDownloaded (h : m.validateDownloaded hash = .ok (available, m')) : Completes m m' := by
  obtain ⟨pendingMap, hmap, h⟩ := bind_eq_ok.mp h
  cases h
  intro key
  rcases HashMap.updated_of_updateAll hmap key with ⟨hnone, hnone'⟩ | ⟨opt, opt', hopt, hnew, hopt'⟩
  · left
    rw [started, started, hnone, hnone']
  · rw [started_of_lookup hopt, started_of_lookup hopt']
    cases opt with
    | none =>
      cases hnew
      exact .inl rfl
    | some pending =>
      dsimp only at hnew
      split_ifs at hnew with hinvalid
      · cases hnew
        exact .inr ⟨rfl, pending, rfl, hinvalid.1⟩
      · cases hnew
        exact .inl rfl

theorem Booked.validateDownloaded (hm : m.Booked book) (h : m.validateDownloaded hash = .ok (available, m')) :
    m'.Booked (m'.still book) := by
  have hcompletes := completes_validateDownloaded h
  obtain ⟨pendingMap, -, h⟩ := bind_eq_ok.mp h
  cases h
  exact hm.complete (hm.peers.of_eq rfl) hcompletes rfl

theorem started_initializePending (h : m.initializePending = .ok (available, m')) (key : InfoHash) :
    m'.started key = m.started key ∨ m.started key = none ∧ ∃ active pending,
      m.activePeers.lookup key = some active ∧ pendingInfoFromMetadataSize active.metadataSize = .ok pending ∧
        m'.started key = some pending := by
  obtain ⟨pendingMap, hmap, h⟩ := bind_eq_ok.mp h
  cases h
  rcases HashMap.updated_of_updateAll hmap key with ⟨hnone, hnone'⟩ | ⟨opt, opt', hopt, hnew, hopt'⟩
  · left
    rw [started, started, hnone, hnone']
  · rw [started_of_lookup hopt, started_of_lookup hopt']
    dsimp only at hnew
    split at hnew
    · rename_i active hactive
      obtain ⟨pending, hpending, hnew⟩ := bind_eq_ok.mp hnew
      cases hnew
      exact .inr ⟨rfl, active, pending, hactive, hpending, rfl⟩
    · cases hnew
      exact .inl rfl

/-- The books after the downloads that could be started were: `m` is the module before, `m'` the one
after. -/
def opened (m m' : UtMetadataModule) (book : Book) : Book := fun h =>
  match m.started h with
  | some _ => book h
  | none => (m'.started h).bind fun _ =>
    (m'.activePeers.lookup h).map fun active => ⟨active.metadataSize, []⟩

theorem opened_still (m m' : UtMetadataModule) (book : Book) : opened m m' (m.still book) = opened m m' book := by
  funext key
  cases hstarted : m.started key with
  | none => simp only [opened, hstarted]
  | some pending => simp only [opened, still, hstarted, Option.bind_some]

theorem Booked.initializePending (hm : m.Booked book) (h : m.initializePending = .ok (available, m')) :
    m'.Booked (opened m m' book) := by
  have hstarted := started_initializePending h
  obtain ⟨pendingMap, -, h⟩ := bind_eq_ok.mp h
  cases h
  refine ⟨hm.peers.of_eq rfl, fun key => ?_⟩
  show BookedAt (m.requestsFor key) _ _
  have hpieces := hm.pieces key
  rcases hstarted key with hsame | ⟨hnone, active, pending, hactive, hpending, hnew⟩
  · rw [hsame, opened]
    cases hold : m.started key with
    | some pending => rwa [hold] at hpieces
    | none =>
      rw [hold] at hpieces
      rw [hsame, hold]
      exact .idle hpieces.eq_nil.1
  · -- a download that is not under way has no requests, and starts with all its pieces waiting
    rw [hnone] at hpieces
    rw [opened, hnone, hnew, hpieces.eq_nil.1]
    simp only [Option.bind_some, hactive, Option.map_some]
    exact .running (Kept.new hpending)

theorem Booked.onUpdate (hm : m.Booked book) {extended : ExtendedPeerInfo} {validated : UtMetadataModule}
    (hvalidated : (m.addPeer info extended).validateDownloaded hash = .ok (available, validated))
    (h : m.onUpdate hash info extended = .ok m') : m'.Booked (opened validated m' book) := by
  obtain ⟨_, _, tasks, initialized, hvalidated', hinitialized, halike⟩ := exists_of_onUpdate h
  cases hvalidated.symm.trans hvalidated'
  have hinitial := ((hm.addPeer info extended).validateDownloaded hvalidated).initializePending hinitialized
  rw [opened_still] at hinitial
  have hbook : opened validated m' book = opened validated initialized book := by
    funext key
    rw [opened, opened, started_of_pendingMap halike.pending, halike.peers]
  rw [hbook]
  exact hinitial.alike halike

end

/-- The books after a message. -/
def noted (m : UtMetadataModule) (book : Book) : IDiscoveryMessage → Book
  | .receivedUtMetadataMessage info (.data data) => m.receive book info data
  | _ => book

theorem Booked.startSend (hm : m.Booked book) {toBytes : Info → Run Empty Bytes} {item : IDiscoveryMessage}
    {result : Except DiscoveryError Unit} (h : m.startSend toBytes item = .ok (result, m')) :
    m'.Booked (m.noted book item) := by
  rcases item with (metainfo | metainfo | info | info | duration) | hash | ⟨info, msg | msg | msg⟩
  · exact hm.alike (alike_addTorrent h)
  · have hremove : (m.removeTorrent metainfo).2 = m' := congrArg Prod.snd (Except.ok.inj h)
    exact hm.alike (hremove ▸ alike_removeTorrent m metainfo)
  · cases h
    exact hm
  · cases h
    exact hm.removePeer info
  · cases h
    exact hm.applyTick duration
  · cases h
    exact hm.downloadMetainfo hash
  · cases h
    show (m.recvRequest info msg).Booked book
    unfold recvRequest
    split
    · exact hm.of_eq (hm.peers.of_eq rfl) rfl rfl
    · exact hm
  · obtain ⟨m'', hdata, h⟩ := bind_eq_ok.mp h
    cases h
    exact hm.recvData hdata
  · cases h
    exact hm

end UtMetadataModule

/-! ### Whole runs -/

/-- A module with its books. -/
structure TrackedModule where
  state : UtMetadataModule
  book : UtMetadataModule.Book

namespace TrackedModule

variable (hash : Bytes → ShaHash) (toBytes : Info → Run Empty Bytes)

def new : TrackedModule := ⟨.new, fun _ => none⟩

/-- A download is entered with the size its peers gave when it is started, at the end of an update. A
piece is entered when data for it arrives from the peer that was asked for it. -/
def step (w : TrackedModule) : Call → Run Empty TrackedModule
  | .onUpdate info extended => do
    let (_, validated) ← (w.state.addPeer info extended).validateDownloaded hash
    let state ← w.state.onUpdate hash info extended
    .ok ⟨state, validated.opened state w.book⟩
  | .pollReady waker => .ok { w with state := (w.state.pollReady waker).2 }
  | .startSend item => do
    let (_, state) ← w.state.startSend toBytes item
    .ok ⟨state, w.state.noted w.book item⟩
  | .pollNext order peer waker => do
    let (_, state) ← w.state.pollNext hash order peer waker
    .ok ⟨state, state.still w.book⟩

/-- A run in which no call panics. -/
def run (calls : List Call) : Run Empty TrackedModule := calls.foldlM (step hash toBytes) new

variable {hash toBytes} {w w' : TrackedModule}

theorem booked_new : new.state.Booked new.book := ⟨nofun, fun _ => .idle rfl⟩

theorem booked_step (hw : w.state.Booked w.book) {call : Call} (h : w.step hash toBytes call = .ok w') :
    w'.state.Booked w'.book := by
  cases call with
  | onUpdate info extended =>
    obtain ⟨⟨available, validated⟩, hvalidated, h⟩ := bind_eq_ok.mp h
    obtain ⟨state, hupdate, h⟩ := bind_eq_ok.mp h
    cases h
    exact hw.onUpdate hvalidated hupdate
  | pollReady waker =>
    cases h
    exact hw.alike (alike_pollReady w.state waker)
  | startSend item =>
    obtain ⟨⟨result, state⟩, hsend, h⟩ := bind_eq_ok.mp h
    cases h
    exact hw.startSend hsend
  | pollNext order peer waker =>
    obtain ⟨⟨result, state⟩, hpoll, h⟩ := bind_eq_ok.mp h
    cases h
    exact hw.pollNext hpoll

theorem booked_foldlM {calls : List Call} (hw : w.state.Booked w.book)
    (h : calls.foldlM (step hash toBytes) w = .ok w') : w'.state.Booked w'.book := by
  induction calls generalizing w with
  | nil =>
    cases h
    exact hw
  | cons call calls ih =>
    obtain ⟨mid, hmid, h⟩ := bind_eq_ok.mp h
    exact ih (booked_step hw hmid) h

/-- In every run, a hash whose download is not started has no request under way. A download that is
started has each of its pieces in one place, and the pieces that are left are those not received. -/
theorem pieces_in_one_place {calls : List Call} (h : run hash toBytes calls = .ok w) (key : InfoHash) :
    (w.state.started key = none → ∀ request ∈ w.state.activeRequests, request.sentTo.hash ≠ key) ∧
      ∀ pending, w.state.started key = some pending → ∃ d, w.book key = some d ∧
        (∀ i < numPieces d.metadataSize,
          (pending.messages.map UtMetadataRequestMessage.piece).count (Int64.ofNat i) +
            (w.state.requestsFor key).count (Int64.ofNat i) + d.received.count (Int64.ofNat i) = 1) ∧
        pending.left = ((allPieces d.metadataSize).filter fun piece => piece ∉ d.received).length ∧
        ∀ piece ∈ d.received, 0 ≤ piece.toInt ∧
          piece.toInt.toNat * maxRequestSize < pending.bytes.data.length := by
  have hpieces := (booked_foldlM booked_new h).pieces key
  constructor
  · intro hnone request hrequest hhash
    rw [hnone] at hpieces
    have hempty := map_eq_nil_iff.mp hpieces.eq_nil.1
    have hmem : request ∈ w.state.activeRequests.filter fun r => r.sentTo.hash = key :=
      mem_filter.mpr ⟨hrequest, decide_eq_true hhash⟩
    rw [hempty] at hmem
    cases hmem
  · intro pending hstarted
    rw [hstarted] at hpieces
    obtain ⟨d, hd, hkept⟩ := hpieces.exists_kept
    refine ⟨d, hd, fun i hi => ?_, hkept.left_eq, fun piece hpiece => hkept.starts_inside hpiece⟩
    exact hkept.count_eq_one (mem_map.mpr ⟨i, mem_range.mpr hi, rfl⟩)

/-- Metadata of three pieces is asked for and requested from a peer. -/
def threePieces : List Call :=
  let extended := .fromBuilder (.withExtendedType { metadataSize := some 40000 } .utMetadata (some 3))
  [.startSend (.downloadMetainfo localPeer.hash), .onUpdate localPeer ⟨some extended, some extended⟩, .pollNext [] 0 0]

theorem pieces_in_one_place_requested :
    ∃ w pending d, run (fun _ => localPeer.pid) (fun _ => .ok []) threePieces = .ok w ∧
      w.state.started localPeer.hash = some pending ∧ w.book localPeer.hash = some d ∧
      (∀ i < numPieces d.metadataSize,
        (pending.messages.map UtMetadataRequestMessage.piece).count (Int64.ofNat i) +
          (w.state.requestsFor localPeer.hash).count (Int64.ofNat i) + d.received.count (Int64.ofNat i) = 1) ∧
      pending.left = ((allPieces d.metadataSize).filter fun piece => piece ∉ d.received).length := by
  have hstarted : ((run (fun _ => localPeer.pid) (fun _ => .ok [])
      threePieces).toOption.bind fun w => w.state.started localPeer.hash).isSome = true := by
    decide +kernel
  cases hrun : run (fun _ => localPeer.pid) (fun _ => .ok []) threePieces with
  | error e =>
    rw [hrun] at hstarted
    cases hstarted
  | ok w =>
    rw [hrun] at hstarted
    obtain ⟨pending, hpending⟩ := Option.isSome_iff_exists.mp hstarted
    obtain ⟨d, hd, hcount, hleft, -⟩ := (pieces_in_one_place hrun localPeer.hash).2 pending hpending
    exact ⟨w, pending, d, rfl, hpending, hd, hcount, hleft⟩

end TrackedModule

end BitTorrent.Select
