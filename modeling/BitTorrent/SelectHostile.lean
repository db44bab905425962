import BitTorrent.MetainfoReturns
import BitTorrent.SelectBooks

/-! When no call on the metadata module panics. What a peer sends is used in a later call: the size of the
metadata when the download is started, the number of a piece when the request for it is answered, the
data when it is put in its place, and the assembled bytes when they are parsed. Each of these panics on
some values, so a run is safe if no peer sends them. The numbers the module makes itself never do: a
piece that was asked for is inside the buffer, and the download it belongs to has a piece left. -/

namespace BitTorrent.Select

open Rust Bencode Dht Peer Meta List

theorem pendingInfoFromMetadataSize_of_nonneg {metadataSize : Int64} (h : 0 ≤ metadataSize.toInt) :
    ∃ pending, pendingInfoFromMetadataSize metadataSize = .ok pending := by
  have hlt := metadataSize.toInt_lt
  obtain ⟨size, hsize⟩ := tryUint_eq_some_iff (w := 64).mpr ⟨h, by omega⟩
  have hle : size ≤ isizeMax := by
    unfold tryUint at hsize
    split at hsize
    · cases hsize
      simp only [isizeMax]
      omega
    · cases hsize
  obtain ⟨bytes, hbytes, -⟩ := Buffer.zeros_of_le (ε := Empty) hle
  refine ⟨_, bind_eq_ok.mpr ⟨size, ?_, bind_eq_ok.mpr ⟨bytes, hbytes, rfl⟩⟩⟩
  rw [hsize]
  rfl

namespace UtMetadataModule

variable (hash : Bytes → ShaHash) (toBytes : Info → Run Empty Bytes)

def call (m : UtMetadataModule) : Call → Run Empty UtMetadataModule
  | .onUpdate info extended => m.onUpdate hash info extended
  | .pollReady waker => .ok (m.pollReady waker).2
  | .startSend item => do
    let (_, m) ← m.startSend toBytes item
    .ok m
  | .pollNext order peer waker => do
    let (_, m) ← m.pollNext hash order peer waker
    .ok m

/-- The number of a piece can be converted, and the piece ends below the largest offset. -/
def InRange (piece : Int64) : Prop :=
  0 ≤ piece.toInt ∧ (piece.toInt.toNat + 1) * maxRequestSize ≤ usizeMax

/-- Data that is awaited fits into the rest of the buffer. -/
def DataFits (m : UtMetadataModule) (info : PeerInfo) (data : UtMetadataDataMessage) : Prop :=
  m.awaits info data = true → ∀ pending, m.started info.hash = some pending →
    data.piece.toInt.toNat * maxRequestSize + data.data.length ≤ pending.bytes.data.length

/-- What may be sent to a module. -/
def HarmlessItem (m : UtMetadataModule) : IDiscoveryMessage → Prop
  | .control (.addTorrent metainfo) => ∃ infoBytes, toBytes metainfo.info = .ok infoBytes
  | .receivedUtMetadataMessage _ (.request request) => InRange request.piece
  | .receivedUtMetadataMessage info (.data data) => m.DataFits info data
  | _ => True

/-- No length in a complete download is negative. -/
def CompleteUnsigned (m : UtMetadataModule) : Prop :=
  ∀ h pending, m.started h = some pending → pending.left = 0 →
    ∀ r infoDict, BencodeRef.decode pending.bytes .default = .ok r → r.value = .dict infoDict →
      UnsignedLengths infoDict

/-- A call that cannot panic. -/
def Harmless (m : UtMetadataModule) : Call → Prop
  | .onUpdate _ extended =>
    ∀ size, extended.theirs.bind ExtendedMessage.metadataSize = some size → 0 ≤ size.toInt
  | .pollReady _ => True
  | .startSend item => m.HarmlessItem toBytes item
  | .pollNext _ _ _ => m.CompleteUnsigned

/-- Each call is harmless in the state it is made in. -/
def HarmlessRun (m : UtMetadataModule) : List Call → Prop
  | [] => True
  | call :: calls =>
    m.Harmless toBytes call ∧ ∀ m', m.call hash toBytes call = .ok m' → m'.HarmlessRun calls

/-- What a run of harmless calls keeps. -/
structure Safe (m : UtMetadataModule) : Prop where
  booked : ∃ book, m.Booked book
  sizes : m.PeersHave fun _ active => 0 ≤ active.metadataSize.toInt
  requests : ∀ request ∈ m.peerRequests, InRange request.request.piece

variable {hash toBytes} {m m' : UtMetadataModule}

theorem exists_validateDownloaded (hash : Bytes → ShaHash) (m : UtMetadataModule) :
    ∃ available m', m.validateDownloaded hash = .ok (available, m') := by
  refine (HashMap.exists_updateAll (fun expectedHash optPending => ?_) m.pendingMap).elim
    fun pendingMap hmap => ⟨_, _, bind_eq_ok.mpr ⟨pendingMap, hmap, rfl⟩⟩
  split
  · split
    · exact ⟨_, rfl⟩
    · exact ⟨_, rfl⟩
  · exact ⟨_, rfl⟩

theorem exists_initializePending (h : m.PeersHave fun _ active => 0 ≤ active.metadataSize.toInt) :
    ∃ available m', m.initializePending = .ok (available, m') := by
  refine (HashMap.exists_updateAll (fun key optPending => ?_) m.pendingMap).elim
    fun pendingMap hmap => ⟨_, _, bind_eq_ok.mpr ⟨pendingMap, hmap, rfl⟩⟩
  split
  · rename_i active hactive
    obtain ⟨pending, hpending⟩ := pendingInfoFromMetadataSize_of_nonneg (h key active hactive)
    exact ⟨some pending, bind_eq_ok.mpr ⟨pending, hpending, rfl⟩⟩
  · exact ⟨_, rfl⟩

theorem tryUint_piece {piece : Int64} (h : 0 ≤ piece.toInt) : tryUint 64 piece.toInt = some piece.toInt.toNat := by
  have hlt := piece.toInt_lt
  exact if_pos ⟨h, by omega⟩

variable {info : PeerInfo}

theorem exists_recvData {book : Book} (hm : m.Booked book) {data : UtMetadataDataMessage}
    (hfits : m.DataFits info data) : ∃ m', m.recvData info data = .ok m' := by
  unfold recvData
  split
  · exact ⟨m, rfl⟩
  · rename_i index hfind
    obtain ⟨hawaits, request, hindex, hhash, hpiece⟩ := exists_of_findIdx hfind
    dsimp only
    split
    · rename_i pending hlookup
      have hstarted : m.started info.hash = some pending := started_of_lookup hlookup
      have hfits := hfits hawaits pending hstarted
      have hpieces := hm.pieces info.hash
      rw [hstarted] at hpieces
      obtain ⟨d, -, hkept⟩ := hpieces.exists_kept
      -- the piece that was asked for is one of the download
      have hmem : data.piece ∈ m.requestsFor info.hash := by
        refine mem_map.mpr ⟨request, mem_filter.mpr ⟨?_, decide_eq_true hhash⟩, hpiece⟩
        exact mem_of_getElem? hindex
      obtain ⟨hnonneg, hinside⟩ := mem_allPieces
        (hkept.pieces.subset (mem_append_left _ (mem_append_right _ hmem)))
      have hleft : 1 ≤ pending.left := by
        have hpos := length_pos_of_mem hmem
        have hlength := hkept.length_eq
        omega
      have hoffset : data.piece.toInt.toNat * maxRequestSize ≤ usizeMax := by
        have hlt := d.metadataSize.toInt_lt
        simp only [usizeMax]
        omega
      obtain ⟨bytes, hbytes⟩ : ∃ bytes, (pending.bytes.writeAllAt (data.piece.toInt.toNat * maxRequestSize)
          data.data : Run Empty Buffer) = .ok bytes := ⟨_, dif_pos hfits⟩
      have hmul : (mulUsize data.piece.toInt.toNat maxRequestSize : Run Empty Nat) =
          .ok (data.piece.toInt.toNat * maxRequestSize) := if_pos hoffset
      rw [tryUint_piece hnonneg, unwrapSome, ok_bind, hmul, ok_bind, subUsize_eq_ok.mpr ⟨hleft, rfl⟩, ok_bind,
        hbytes, ok_bind]
      exact ⟨_, rfl⟩
    · exact ⟨_, rfl⟩

theorem exists_answerRequest (completedMap : HashMap InfoHash Bytes) {request : PeerRequest}
    (h : InRange request.request.piece) : ∃ message, answerRequest completedMap request = .ok message := by
  obtain ⟨hnonneg, hstop⟩ := h
  have hsplit : (request.request.piece.toInt.toNat + 1) * maxRequestSize =
      request.request.piece.toInt.toNat * maxRequestSize + maxRequestSize := Nat.succ_mul _ _
  have hmul : (mulUsize request.request.piece.toInt.toNat maxRequestSize : Run Empty Nat) =
      .ok (request.request.piece.toInt.toNat * maxRequestSize) := if_pos (by omega)
  have hadd : (addUsize (request.request.piece.toInt.toNat * maxRequestSize) maxRequestSize : Run Empty Nat) =
      .ok (request.request.piece.toInt.toNat * maxRequestSize + maxRequestSize) := if_pos (by omega)
  unfold answerRequest
  rw [tryUint_piece hnonneg, unwrapSome, ok_bind, hmul, ok_bind, hadd, ok_bind]
  split
  · split
    · exact ⟨_, rfl⟩
    · exact ⟨_, rfl⟩
  · exact ⟨_, rfl⟩

theorem exists_pieceResponse (completedMap : HashMap InfoHash Bytes) {requests : List PeerRequest}
    (h : ∀ request ∈ requests, InRange request.request.piece) :
    ∃ message rest, pieceResponse completedMap requests = .ok (message, rest) ∧ rest ⊆ requests := by
  induction requests with
  | nil => exact ⟨none, [], rfl, List.Subset.refl _⟩
  | cons request requests ih =>
    obtain ⟨hrequest, hrequests⟩ := forall_mem_cons.mp h
    obtain ⟨message, hmessage⟩ := exists_answerRequest completedMap hrequest
    obtain ⟨message', rest, hrest, hsubset⟩ := ih hrequests
    rw [pieceResponse, hmessage, ok_bind]
    cases message with
    | some message => exact ⟨_, _, rfl, subset_cons_self request requests⟩
    | none => exact ⟨message', rest, hrest, subset_cons_of_subset request hsubset⟩

theorem exists_retrieveCompletedDownload (hash : Bytes → ShaHash) (order : List InfoHash)
    (h : m.CompleteUnsigned) : ∃ found m', m.retrieveCompletedDownload hash order = .ok (found, m') := by
  induction m using retrieveCompletedDownload.induct order with
  | case1 m completedHash completed hfind ih =>
    obtain ⟨hlookup, hleft⟩ := HashMap.find_eq_some hfind
    have hreturns : Returns (Info.fromBytes hash completed.bytes) :=
      (returns_infoFromBytes_iff hash).mpr
        (h completedHash completed (started_of_lookup hlookup) (of_decide_eq_true hleft))
    have hforget : (m.forget completedHash).CompleteUnsigned := by
      intro key pending hstarted
      rw [started_of_erase rfl key] at hstarted
      split_ifs at hstarted
      exact h key pending hstarted
    obtain ⟨r, hr⟩ : ∃ r, Info.fromBytes hash completed.bytes = ofResult r := by
      rcases hreturns with ⟨info, hinfo⟩ | ⟨e, he⟩
      · exact ⟨.ok info, hinfo⟩
      · exact ⟨.error e, he⟩
    rw [retrieveCompletedDownload_of_find hfind hr]
    cases r with
    | ok info => exact ⟨_, _, rfl⟩
    | error e => exact ih hforget
  | case2 m hnone =>
    rw [retrieveCompletedDownload]
    split
    · rename_i hfind
      exact (hnone _ _ hfind).elim
    · exact ⟨_, _, rfl⟩

variable {order : List InfoHash}

/-! ### Harmless calls -/

variable {extended : ExtendedPeerInfo}

theorem exists_onUpdate (hash : Bytes → ShaHash)
    (h : (m.addPeer info extended).PeersHave fun _ active => 0 ≤ active.metadataSize.toInt) :
    ∃ m', m.onUpdate hash info extended = .ok m' := by
  obtain ⟨downloads, validated, hvalidated⟩ := exists_validateDownloaded hash (m.addPeer info extended)
  have hvalidated' : validated.PeersHave fun _ active => 0 ≤ active.metadataSize.toInt := by
    obtain ⟨pendingMap, -, heq⟩ := bind_eq_ok.mp hvalidated
    cases heq
    exact h.of_eq rfl
  obtain ⟨tasks, initialized, hinitialized⟩ := exists_initializePending hvalidated'
  rw [onUpdate, checkStreamUnblock, hvalidated, ok_bind]
  dsimp only
  rw [hinitialized, ok_bind]
  dsimp only
  split
  · split
    · exact ⟨_, rfl⟩
    · exact ⟨_, rfl⟩
  · exact ⟨_, rfl⟩

theorem peerRequests_onUpdate
    (h : m.onUpdate hash info extended = .ok m') : m'.peerRequests = m.peerRequests := by
  obtain ⟨downloads, validated, tasks, initialized, hvalidated, hinitialized, halike⟩ := exists_of_onUpdate h
  obtain ⟨_, -, hvalidated⟩ := bind_eq_ok.mp hvalidated
  obtain ⟨_, -, hinitialized⟩ := bind_eq_ok.mp hinitialized
  cases hvalidated
  cases hinitialized
  rw [halike.queue]
  show (m.addPeer info extended).peerRequests = _
  unfold addPeer
  dsimp only
  split <;> rfl

theorem safe_onUpdate (hm : m.Safe)
    (hsize : ∀ size, extended.theirs.bind ExtendedMessage.metadataSize = some size → 0 ≤ size.toInt) :
    ∃ m', m.onUpdate hash info extended = .ok m' ∧ m'.Safe := by
  obtain ⟨book, hbook⟩ := hm.booked
  have hadded : (m.addPeer info extended).PeersHave fun _ active => 0 ≤ active.metadataSize.toInt :=
    hm.sizes.addPeer hsize fun _ hactive => hactive
  obtain ⟨m', hupdate⟩ := exists_onUpdate hash hadded
  obtain ⟨downloads, validated, hvalidated⟩ := exists_validateDownloaded hash (m.addPeer info extended)
  refine ⟨m', hupdate, ⟨_, hbook.onUpdate hvalidated hupdate⟩, hadded.onUpdate hupdate, ?_⟩
  rw [peerRequests_onUpdate hupdate]
  exact hm.requests

variable {item : IDiscoveryMessage}

theorem exists_startSend (hm : m.Safe) (hitem : m.HarmlessItem toBytes item) :
    ∃ result m', m.startSend toBytes item = .ok (result, m') := by
  rcases item with (metainfo | metainfo | info | info | duration) | h | ⟨info, msg | msg | msg⟩
  · obtain ⟨infoBytes, hbytes⟩ := hitem
    show ∃ result m', m.addTorrent toBytes metainfo = .ok (result, m')
    unfold addTorrent
    split
    · exact ⟨_, _, rfl⟩
    · rw [hbytes]
      exact ⟨_, _, rfl⟩
  · exact ⟨_, _, rfl⟩
  · exact ⟨_, _, rfl⟩
  · exact ⟨_, _, rfl⟩
  · exact ⟨_, _, rfl⟩
  · exact ⟨_, _, rfl⟩
  · exact ⟨_, _, rfl⟩
  · obtain ⟨book, hbook⟩ := hm.booked
    obtain ⟨m', hdata⟩ := exists_recvData hbook hitem
    exact ⟨_, _, bind_eq_ok.mpr ⟨m', hdata, rfl⟩⟩
  · exact ⟨_, _, rfl⟩

theorem peerRequests_applyTick (duration : Duration) : (m.applyTick duration).peerRequests = m.peerRequests := by
  have hexpired : ∀ requests : List ActiveRequest, (requests.foldl expire m).peerRequests = m.peerRequests := by
    intro requests
    induction requests generalizing m with
    | nil => rfl
    | cons request requests ih => exact ih
  exact hexpired _

theorem inRange_startSend (hm : ∀ request ∈ m.peerRequests, InRange request.request.piece)
    (hitem : m.HarmlessItem toBytes item) {result : Except DiscoveryError Unit}
    (h : m.startSend toBytes item = .ok (result, m')) :
    ∀ request ∈ m'.peerRequests, InRange request.request.piece := by
  rcases item with (metainfo | metainfo | info | info | duration) | hash | ⟨info, msg | msg | msg⟩
  · rw [(alike_addTorrent h).queue]
    exact hm
  · have hremove : (m.removeTorrent metainfo).2 = m' := congrArg Prod.snd (Except.ok.inj h)
    rw [← hremove, (alike_removeTorrent m metainfo).queue]
    exact hm
  · cases h
    exact hm
  · cases h
    have hkept : (m.removePeer info).peerRequests = m.peerRequests := by
      unfold removePeer
      split
      · rfl
      · dsimp only
        split <;> rfl
    rw [hkept]
    exact hm
  · cases h
    rw [peerRequests_applyTick]
    exact hm
  · cases h
    have hkept : (m.downloadMetainfo hash).peerRequests = m.peerRequests := by
      unfold downloadMetainfo
      split <;> rfl
    rw [hkept]
    exact hm
  · cases h
    have hrange : InRange msg.piece := hitem
    show ∀ request ∈ (m.recvRequest info msg).peerRequests, InRange request.request.piece
    unfold recvRequest
    split
    · intro request hrequest
      rcases mem_append.mp hrequest with hold | hlast
      · exact hm request hold
      · cases mem_singleton.mp hlast
        exact hrange
    · exact hm
  · obtain ⟨m'', hdata, h⟩ := bind_eq_ok.mp h
    cases h
    rw [(activePeers_recvData hdata).2]
    exact hm
  · cases h
    exact hm

theorem safe_startSend (hm : m.Safe) (hitem : m.HarmlessItem toBytes item) :
    ∃ result m', m.startSend toBytes item = .ok (result, m') ∧ m'.Safe := by
  obtain ⟨result, m', hsend⟩ := exists_startSend hm hitem
  obtain ⟨book, hbook⟩ := hm.booked
  exact ⟨result, m', hsend, ⟨_, hbook.startSend hsend⟩,
    hm.sizes.startSend (fun _ _ _ hactive => hactive) hsend, inRange_startSend hm.requests hitem hsend⟩

theorem exists_retrieve (hash : Bytes → ShaHash) (order : List InfoHash) (peer : Nat)
    (hunsigned : m.CompleteUnsigned) (hm : ∀ request ∈ m.peerRequests, InRange request.request.piece) :
    ∃ optResult m', m.retrieve hash order peer = .ok (optResult, m') ∧ m'.peerRequests ⊆ m.peerRequests := by
  obtain ⟨found, m₁, hcompleted⟩ := exists_retrieveCompletedDownload hash order hunsigned
  have hqueue := (requests_retrieveCompletedDownload hcompleted).2
  unfold retrieve
  rw [hcompleted, ok_bind]
  cases found with
  | some f => exact ⟨_, _, rfl, fun request hrequest => hqueue ▸ hrequest⟩
  | none =>
    have hqueue₂ := (activePeers_retrievePieceRequest m₁ order peer).2.trans hqueue
    dsimp only
    generalize m₁.retrievePieceRequest order peer = requested at hqueue₂ ⊢
    obtain ⟨_ | message, m₂⟩ := requested
    · have hinRange : ∀ request ∈ m₂.peerRequests, InRange request.request.piece := hqueue₂ ▸ hm
      obtain ⟨message, rest, hresponse, hsubset⟩ := exists_pieceResponse m₂.completedMap hinRange
      have hanswer : m₂.retrievePieceResponse = .ok (message, { m₂ with peerRequests := rest }) :=
        bind_eq_ok.mpr ⟨_, hresponse, rfl⟩
      refine ⟨message.map .send, { m₂ with peerRequests := rest }, ?_, ?_⟩
      · dsimp only
        rw [hanswer]
        rfl
      · exact fun request hrequest => hqueue₂ ▸ hsubset hrequest
    · exact ⟨_, _, rfl, fun request hrequest => hqueue₂ ▸ hrequest⟩

theorem safe_pollNext (hm : m.Safe) (hunsigned : m.CompleteUnsigned) (peer : Nat)
    (waker : Waker) : ∃ result m', m.pollNext hash order peer waker = .ok (result, m') ∧ m'.Safe := by
  obtain ⟨optResult, m₁, hretrieve, hqueue⟩ := exists_retrieve hash order peer hunsigned hm.requests
  have hsink := (alike_checkSinkUnblock m₁).queue
  obtain ⟨result, m', hpoll, hrest⟩ : ∃ result m', m.pollNext hash order peer waker = .ok (result, m') ∧
      m'.peerRequests = m₁.peerRequests := by
    unfold pollNext
    rw [hretrieve, ok_bind]
    cases optResult with
    | some found => exact ⟨_, _, rfl, hsink⟩
    | none => exact ⟨_, _, rfl, hsink⟩
  obtain ⟨book, hbook⟩ := hm.booked
  refine ⟨result, m', hpoll, ⟨_, hbook.pollNext hpoll⟩, hm.sizes.pollNext hpoll, fun request hrequest => ?_⟩
  rw [hrest] at hrequest
  exact hm.requests request (hqueue hrequest)

theorem safe_call (hm : m.Safe) {call : Call} (hcall : m.Harmless toBytes call) :
    ∃ m', m.call hash toBytes call = .ok m' ∧ m'.Safe := by
  cases call with
  | onUpdate info extended => exact safe_onUpdate hm hcall
  | pollReady waker =>
    have halike := alike_pollReady m waker
    obtain ⟨book, hbook⟩ := hm.booked
    exact ⟨_, rfl, ⟨book, hbook.alike halike⟩, hm.sizes.of_eq halike.peers, halike.queue ▸ hm.requests⟩
  | startSend item =>
    obtain ⟨result, m', hsend, hm'⟩ := safe_startSend hm hcall
    exact ⟨m', bind_eq_ok.mpr ⟨_, hsend, rfl⟩, hm'⟩
  | pollNext order peer waker =>
    obtain ⟨result, m', hpoll, hm'⟩ := safe_pollNext hm hcall peer waker
    exact ⟨m', bind_eq_ok.mpr ⟨_, hpoll, rfl⟩, hm'⟩

theorem safe_new : new.Safe := ⟨⟨_, TrackedModule.booked_new⟩, nofun, nofun⟩

theorem exists_foldlM_call (hm : m.Safe) {calls : List Call} (hcalls : m.HarmlessRun hash toBytes calls) :
    ∃ m', calls.foldlM (call hash toBytes) m = .ok m' := by
  induction calls generalizing m with
  | nil => exact ⟨m, rfl⟩
  | cons call calls ih =>
    obtain ⟨m₁, hcall, hm₁⟩ := safe_call hm hcalls.1
    obtain ⟨m', hm'⟩ := ih hm₁ (hcalls.2 m₁ hcall)
    exact ⟨m', bind_eq_ok.mpr ⟨m₁, hcall, hm'⟩⟩

/-- In a run of harmless calls, none panics. -/
theorem no_call_panics (hash : Bytes → ShaHash) (toBytes : Info → Run Empty Bytes) (calls : List Call)
    (h : new.HarmlessRun hash toBytes calls) : ∃ m, calls.foldlM (call hash toBytes) new = .ok m :=
  exists_foldlM_call safe_new h

/-- The metadata of a torrent is asked for, requested from a peer and sent by it, and the peer asks for a piece. -/
def honestCalls : List Call :=
  WatchedModule.forgedCalls.take 4 ++ [.startSend (.receivedUtMetadataMessage localPeer (.request (.new 0)))]

theorem completeUnsigned_of_left (m : UtMetadataModule)
    (hleft : ∀ key ∈ m.pendingMap.keys, (m.started key).all (·.left ≠ 0)) : m.CompleteUnsigned := by
  intro key pending hstarted hzero
  have hmem : key ∈ m.pendingMap := by
    by_contra hnot
    rw [started, AList.lookup_eq_none.mpr hnot] at hstarted
    cases hstarted
  have hpos := hleft key hmem
  rw [hstarted] at hpos
  exact absurd hzero (of_decide_eq_true hpos)

theorem dataFits_of_call {x : Run Empty UtMetadataModule} {info : PeerInfo} {data : UtMetadataDataMessage}
    (h : x.toOption.all fun m => (m.started info.hash).all fun pending =>
      data.piece.toInt.toNat * maxRequestSize + data.data.length ≤ pending.bytes.data.length)
    (hcall : x = .ok m) : m.DataFits info data := by
  intro _ pending hstarted
  rw [hcall, Except.toOption, Option.all_some, hstarted] at h
  exact of_decide_eq_true h

theorem no_call_panics_honest : new.HarmlessRun (fun _ => localPeer.pid) (fun _ => .ok []) honestCalls ∧
    ∃ m, honestCalls.foldlM (call (fun _ => localPeer.pid) fun _ => .ok []) new = .ok m := by
  have hharmless : new.HarmlessRun (fun _ => localPeer.pid) (fun _ => .ok []) honestCalls := by
    refine ⟨trivial, ?_⟩
    rintro _ ⟨⟩
    refine ⟨?_, ?_⟩
    · rintro size ⟨⟩
      decide
    rintro _ ⟨⟩
    refine ⟨completeUnsigned_of_left _ (by decide +kernel), ?_⟩
    exact fun m hcall => ⟨dataFits_of_call (by decide +kernel) hcall,
      fun _ _ => ⟨⟨by decide, by decide⟩, fun _ _ => trivial⟩⟩
  exact ⟨hharmless, no_call_panics _ _ _ hharmless⟩

/-- An extended message with this size of the metadata. -/
def extendedOfSize (metadataSize : Int64) : ExtendedMessage :=
  .fromBuilder (.withExtendedType { metadataSize := some metadataSize } .utMetadata (some 3))

/-- A module panics if a peer gives a negative size, asks for a negative piece, or sends more than it
was asked for. -/
theorem hostile_peer_panics :
    ([.startSend (.downloadMetainfo localPeer.hash),
        .onUpdate localPeer ⟨some (extendedOfSize (-1)), some (extendedOfSize (-1))⟩] : List Call).foldlM
      (call (fun _ => localPeer.pid) fun _ => .ok []) new = .error .panic ∧
    ([.startSend (.receivedUtMetadataMessage localPeer (.request (.new (-1)))), .pollNext [] 0 0] :
        List Call).foldlM (call (fun _ => localPeer.pid) fun _ => .ok []) new = .error .panic ∧
    ([.startSend (.downloadMetainfo localPeer.hash),
        .onUpdate localPeer ⟨some (extendedOfSize 1), some (extendedOfSize 1)⟩, .pollNext [] 0 0,
        .startSend (.receivedUtMetadataMessage localPeer (.data (.new 0 1 [0, 0])))] : List Call).foldlM
      (call (fun _ => localPeer.pid) fun _ => .ok []) new = .error .panic := by
  have hpanic : ∀ {x : Run Empty UtMetadataModule}, x.map (fun _ => ()) = .error .panic → x = .error .panic := by
    intro x h
    cases x with
    | error e =>
      cases h
      rfl
    | ok m => cases h
  refine ⟨hpanic ?_, hpanic ?_, hpanic ?_⟩
  · decide +kernel
  · decide +kernel
  · decide +kernel

end UtMetadataModule

end BitTorrent.Select
