import BitTorrent.Segments
import BitTorrent.SelectBooks

/-! Serving metadata and putting it together. A module that has a torrent answers a request for a piece
only if the whole piece is there, so the last piece is not answered unless it is full, and it gives the
length of the piece as that of the metadata. A module that asks puts what it gets in its place, and once
every piece has been received it has the bytes that were cut into pieces, whatever their number. -/

namespace BitTorrent.Select

open Rust Dht Peer Meta Segments List UtMetadataModule Nat

open TrackedModule hiding new

/-- The bytes of a piece. The last piece may be shorter than the others. -/
def pieceOf (d : Buffer) (i : Nat) : Bytes := window d.data (i * maxRequestSize) maxRequestSize

/-- The number of pieces. -/
def piecesOf (d : Buffer) : Nat := (d.len + (maxRequestSize - 1)) / maxRequestSize

/-- The message that answers a request for a piece. -/
def answerFor (d : Buffer) (i : Nat) : UtMetadataDataMessage :=
  .new (Int64.ofNat i) (Int64.ofNat d.len) (pieceOf d i)

/-- Every request for a piece of the metadata of an added torrent is answered with that piece. -/
def Served (d : Buffer) : Prop :=
  ∀ (m : UtMetadataModule) (peer : PeerInfo) (request : UtMetadataRequestMessage) (rest : List PeerRequest) (i : Nat),
    m.completedMap.lookup peer.hash = some d.data → i < piecesOf d → request.piece = Int64.ofNat i →
    m.peerRequests = ⟨peer, request⟩ :: rest →
    m.retrievePieceResponse = .ok (some (.sendUtMetadataMessage peer (.data (answerFor d i))),
      { m with peerRequests := rest })

/-- A call that tells a module the size of the metadata or answers a request for a piece of it, or that
is about other torrents. -/
def Call.From (key : InfoHash) (d : Buffer) : Call → Prop
  | .onUpdate info extended => info.hash = key →
      ∀ size, extended.theirs.bind ExtendedMessage.metadataSize = some size → size = Int64.ofNat d.len
  | .startSend (.receivedUtMetadataMessage info (.data data)) => info.hash = key →
      ∃ i < piecesOf d, data.piece = Int64.ofNat i ∧ data.data = pieceOf d i
  | _ => True

/-- A module that is told the size and has received all the pieces has the metadata. -/
def Reassembled (d : Buffer) : Prop :=
  ∀ (hash : Bytes → ShaHash) (toBytes : Info → Run Empty Bytes) (calls : List Call) (w : TrackedModule)
    (key : InfoHash), TrackedModule.run hash toBytes calls = .ok w → (∀ call ∈ calls, call.From key d) →
    ∀ pending download, w.state.started key = some pending → w.book key = some download →
      (∀ i < piecesOf d, Int64.ofNat i ∈ download.received) → pending.left = 0 ∧ pending.bytes.data = d.data

/-! ### The module that answers -/

section

variable {d : Buffer} {i : Nat}

theorem lt_of_lt_piecesOf (h : i < piecesOf d) : i * maxRequestSize < d.len := by
  simp only [piecesOf, maxRequestSize] at h ⊢
  omega

theorem toInt_ofNat_of_lt_piecesOf (h : i < piecesOf d) : (Int64.ofNat i).toInt = i := by
  have hlt := lt_of_lt_piecesOf h
  have hfits := d.fits
  simp only [isizeMax, maxRequestSize, Buffer.len] at hlt hfits
  exact Int64.toInt_ofNat_of_lt (by omega)

/-- What the answer to a request is: the piece with its own length, if the piece is full. -/
theorem answerRequest_eq {completedMap : HashMap InfoHash Bytes} {peer : PeerInfo}
    {request : UtMetadataRequestMessage} (hlookup : completedMap.lookup peer.hash = some d.data)
    (hi : i < piecesOf d) (hpiece : request.piece = Int64.ofNat i) :
    answerRequest completedMap ⟨peer, request⟩ = .ok
      (if (i + 1) * maxRequestSize ≤ d.len then some (.sendUtMetadataMessage peer (.data
        (.new (Int64.ofNat i) (Int64.ofNat maxRequestSize) (pieceOf d i)))) else none) := by
  have hlt := lt_of_lt_piecesOf hi
  have hfits := d.fits
  have htoInt := toInt_ofNat_of_lt_piecesOf hi
  have hpiece' : tryUint 64 request.piece.toInt = some i := by
    rw [hpiece, htoInt]
    refine if_pos ⟨Int.natCast_nonneg i, ?_⟩
    simp only [isizeMax, maxRequestSize, Buffer.len] at hlt hfits
    omega
  have hsucc : (i + 1) * maxRequestSize = i * maxRequestSize + maxRequestSize := succ_mul _ _
  have hmul : (mulUsize i maxRequestSize : Run Empty Nat) = .ok (i * maxRequestSize) := by
    refine if_pos ?_
    simp only [isizeMax, usizeMax, Buffer.len] at hlt hfits ⊢
    omega
  have hadd : (addUsize (i * maxRequestSize) maxRequestSize : Run Empty Nat) = .ok ((i + 1) * maxRequestSize) := by
    rw [hsucc]
    refine if_pos ?_
    simp only [isizeMax, usizeMax, maxRequestSize, Buffer.len] at hlt hfits ⊢
    omega
  unfold answerRequest
  rw [hpiece', unwrapSome, ok_bind, hmul, ok_bind, hadd, ok_bind, hlookup]
  dsimp only
  by_cases hfull : (i + 1) * maxRequestSize ≤ d.len
  · have hslice : (d.data.take ((i + 1) * maxRequestSize)).drop (i * maxRequestSize) = pieceOf d i := by
      rw [pieceOf, window, drop_take, hsucc, Nat.add_sub_cancel_left]
    have hlength : (pieceOf d i).length = maxRequestSize := length_window (hsucc ▸ hfull)
    rw [if_pos ⟨hlt.le, hfull⟩, if_pos hfull, hslice, hlength]
  · rw [if_neg fun hand => hfull hand.2, if_neg hfull]

theorem served_of_length (h : d.len = 0 ∨ d.len = maxRequestSize) : Served d := by
  intro m peer request rest i hlookup hi hpiece hqueue
  have hlt := lt_of_lt_piecesOf hi
  rcases h with hzero | hone
  · omega
  · obtain rfl : i = 0 := by
      rw [hone] at hlt
      exact lt_one_iff.mp (by simpa [maxRequestSize] using hlt)
    have hanswer := answerRequest_eq hlookup hi hpiece
    rw [if_pos (by rw [hone, zero_add, one_mul]), ← hone] at hanswer
    unfold retrievePieceResponse
    rw [hqueue, pieceResponse, hanswer]
    rfl

/-- The size of the metadata as an answer gives it. -/
def totalSize : Option ODiscoveryMessage → Int64
  | some (.sendUtMetadataMessage _ (.data data)) => data.totalSize
  | _ => 0

/-- A module that has the metadata, and a request for the first piece. -/
def firstRequest (d : Buffer) : UtMetadataModule :=
  { new with
    completedMap := AList.insert localPeer.hash d.data ∅
    peerRequests := [⟨localPeer, .new (Int64.ofNat 0)⟩] }

theorem length_of_served (h : Served d) : d.len = 0 ∨ d.len = maxRequestSize := by
  by_cases hzero : d.len = 0
  · exact .inl hzero
  right
  have hi : 0 < piecesOf d := by
    simp only [piecesOf, maxRequestSize]
    omega
  have hlookup : (firstRequest d).completedMap.lookup localPeer.hash = some d.data := AList.lookup_insert _
  have hserved := h (firstRequest d) localPeer (.new (Int64.ofNat 0)) [] 0 hlookup hi rfl rfl
  have hanswer := answerRequest_eq hlookup hi (rfl : (UtMetadataRequestMessage.new (Int64.ofNat 0)).piece = _)
  unfold retrievePieceResponse at hserved
  obtain ⟨⟨message, rest⟩, hresponse, hserved⟩ := bind_eq_ok.mp hserved
  cases hserved
  have hresponse : pieceResponse (firstRequest d).completedMap
    [⟨localPeer, .new (Int64.ofNat 0)⟩] = .ok (some _, []) := hresponse
  rw [pieceResponse, hanswer, ok_bind] at hresponse
  split at hresponse
  · rename_i message heq
    split_ifs at heq with hfull
    cases heq
    have hsize := congrArg totalSize (Prod.mk.inj (Except.ok.inj hresponse)).1
    have hfits : d.len < 2 ^ 63 := lt_succ_of_le d.fits
    have htoInt := congrArg Int64.toInt hsize
    simp only [totalSize, answerFor, UtMetadataDataMessage.new] at htoInt
    rw [Int64.toInt_ofNat_of_lt hfits, Int64.toInt_ofNat_of_lt (by decide)] at htoInt
    exact (Int.ofNat_inj.mp htoInt).symm
  · cases hresponse

end

/-! ### The module that asks -/

section

variable {d : Buffer} {key : InfoHash}

/-- A piece is where it belongs. -/
def HasPiece (d : Buffer) (bytes : Bytes) (piece : Int64) : Prop :=
  ∀ j, piece.toInt.toNat * maxRequestSize ≤ j → j < (piece.toInt.toNat + 1) * maxRequestSize →
    bytes[j]? = d.data[j]?

theorem getElem?_pieceOf {i j : Nat} (hlow : i * maxRequestSize ≤ j)
    (hhigh : j < i * maxRequestSize + (pieceOf d i).length) :
    (pieceOf d i)[j - i * maxRequestSize]? = d.data[j]? := by
  have hle : (pieceOf d i).length ≤ maxRequestSize := by
    rw [pieceOf, window, length_take]
    exact Nat.min_le_left _ _
  rw [pieceOf, getElem?_window, if_pos (by omega), Nat.add_sub_cancel' hlow]

theorem HasPiece.overwrite {bytes : Bytes} {piece : Int64} (h : HasPiece d bytes piece) {i : Nat}
    (hfits : i * maxRequestSize + (pieceOf d i).length ≤ bytes.length) :
    HasPiece d (overwrite bytes (i * maxRequestSize) (pieceOf d i)) piece := by
  intro j hlow hhigh
  rw [getElem?_overwrite hfits]
  split
  · rename_i hin
    exact getElem?_pieceOf hin.1 hin.2
  · exact h j hlow hhigh

/-- A piece that was written is there. Where it is shorter than the others, the bytes end with it. -/
theorem hasPiece_overwrite {bytes : Bytes} {i : Nat} (hi : i < piecesOf d) (hlength : bytes.length = d.len)
    (hfits : i * maxRequestSize + (pieceOf d i).length ≤ bytes.length) :
    HasPiece d (overwrite bytes (i * maxRequestSize) (pieceOf d i)) (Int64.ofNat i) := by
  intro j hlow hhigh
  rw [toInt_ofNat_of_lt_piecesOf hi, Int.toNat_natCast] at hlow hhigh
  rw [getElem?_overwrite hfits]
  split
  · rename_i hin
    exact getElem?_pieceOf hin.1 hin.2
  · rename_i hout
    have hshort : (pieceOf d i).length = min maxRequestSize (d.len - i * maxRequestSize) := by
      rw [pieceOf, window, length_take, length_drop]
      rfl
    have hsucc : (i + 1) * maxRequestSize = i * maxRequestSize + maxRequestSize := succ_mul _ _
    have hend : d.len ≤ j := by omega
    rw [getElem?_eq_none (hlength.trans_le hend), getElem?_eq_none hend]

/-- A module whose peers of one torrent tell the right size and send the right pieces. -/
structure Filled (key : InfoHash) (d : Buffer) (w : TrackedModule) : Prop where
  booked : w.state.Booked w.book
  sizes : w.state.PeersHave fun h active => h = key → active.metadataSize = Int64.ofNat d.len
  pieces : ∀ pending download, w.state.started key = some pending → w.book key = some download →
    download.metadataSize = Int64.ofNat d.len ∧
      ∀ piece ∈ download.received, HasPiece d pending.bytes.data piece

variable {w w' : TrackedModule}

/-- The download of the torrent has the same bytes, if it is still there, and the same books. -/
theorem Filled.keep (hw : Filled key d w) (hbooked : w'.state.Booked w'.book)
    (hsizes : w'.state.PeersHave fun h active => h = key → active.metadataSize = Int64.ofNat d.len)
    (hsame : ∀ pending' download, w'.state.started key = some pending' → w'.book key = some download →
      w.book key = some download ∧ ∃ pending, w.state.started key = some pending ∧ pending.bytes = pending'.bytes) :
    Filled key d w' := by
  refine ⟨hbooked, hsizes, fun pending' download hstarted hbook => ?_⟩
  obtain ⟨hbook', pending, hpending, hbytes⟩ := hsame pending' download hstarted hbook
  rw [← hbytes]
  exact hw.pieces pending download hpending hbook'

theorem downloads_of_started {m : UtMetadataModule} {pending : PendingInfo} (h : m.started key = some pending) :
    m.downloads key = some (some (pending.left, pending.bytes)) := by
  rw [downloads, Option.join_eq_some_iff.mp h]
  rfl

/-- A download that is as it was, apart from the pieces that are waiting. -/
theorem started_of_downloads {m m' : UtMetadataModule} {pending' : PendingInfo} (h : m'.started key = some pending')
    (hsame : m'.downloads key = m.downloads key) :
    ∃ pending, m.started key = some pending ∧ pending.bytes = pending'.bytes := by
  rw [downloads_of_started h, downloads] at hsame
  cases hlookup : m.pendingMap.lookup key with
  | none =>
    rw [hlookup] at hsame
    cases hsame
  | some opt =>
    rw [hlookup] at hsame
    cases opt with
    | none => cases hsame
    | some pending =>
      refine ⟨pending, started_of_lookup hlookup, ?_⟩
      have hpair := Option.some.inj (Option.some.inj hsame)
      exact (congrArg Prod.snd hpair).symm

variable {hash : Bytes → ShaHash} {toBytes : Info → Run Empty Bytes}

theorem filled_onUpdate (hw : Filled key d w) {info : PeerInfo} {extended : ExtendedPeerInfo}
    (hcall : (Call.onUpdate info extended).From key d)
    (h : w.step hash toBytes (.onUpdate info extended) = .ok w') : Filled key d w' := by
  have hbooked := booked_step hw.booked h
  obtain ⟨⟨available, validated⟩, hvalidated, h⟩ := bind_eq_ok.mp h
  obtain ⟨state, hupdate, h⟩ := bind_eq_ok.mp h
  cases h
  have hsizes : state.PeersHave fun h active => h = key → active.metadataSize = Int64.ofNat d.len :=
    (hw.sizes.addPeer (fun size hsize hhash => hcall hhash size hsize) fun _ hactive => hactive).onUpdate hupdate
  refine ⟨hbooked, hsizes, fun pending' download hstarted hbook => ?_⟩
  dsimp only [opened] at hbook
  cases hold : validated.started key with
  | some pending =>
    -- a download that was under way and is not thrown away stays as it is
    rw [hold] at hbook
    obtain ⟨_, _, tasks, initialized, hvalidated', hinitialized, halike⟩ :=
      exists_of_onUpdate hupdate
    cases hvalidated.symm.trans hvalidated'
    have hpending : w.state.started key = some pending := by
      rcases completes_validateDownloaded hvalidated key with hsame | ⟨hnone, -⟩
      · rw [← hold, hsame, started_of_pendingMap
          (pendingMap_addPeer info extended)]
      · cases hnone.symm.trans hold
    have hpending' : state.started key = some pending := by
      rw [started_of_pendingMap halike.pending]
      rcases started_initializePending hinitialized key with hsame | ⟨hnone, -⟩
      · rw [hsame, hold]
      · cases hnone.symm.trans hold
    have hsame : pending' = pending := Option.some.inj (hstarted.symm.trans hpending')
    rw [hsame]
    exact hw.pieces pending download hpending hbook
  | none =>
    rw [hold, hstarted] at hbook
    obtain ⟨active, hactive, hdownload⟩ := Option.map_eq_some_iff.mp hbook
    cases hdownload
    exact ⟨hsizes key active hactive rfl, nofun⟩

theorem filled_pollNext (hw : Filled key d w) {order : List InfoHash} {peer : Nat} {waker : Waker}
    (h : w.step hash toBytes (.pollNext order peer waker) = .ok w') : Filled key d w' := by
  have hbooked := booked_step hw.booked h
  obtain ⟨⟨result, state⟩, hpoll, h⟩ := bind_eq_ok.mp h
  cases h
  refine hw.keep hbooked (hw.sizes.pollNext hpoll) fun pending' download hstarted hbook => ?_
  dsimp only [still] at hstarted hbook
  rw [hstarted] at hbook
  refine ⟨hbook, started_of_downloads hstarted ?_⟩
  rcases (pollNext_eq_ok hpoll).1 key with hsame | hnone
  · exact hsame
  · rw [downloads_of_started hstarted] at hnone
    cases hnone

theorem filled_startSend_other (hw : Filled key d w) {item : IDiscoveryMessage} (hfeeds : key ∉ item.feeds)
    (h : w.step hash toBytes (.startSend item) = .ok w') : Filled key d w' := by
  have hbooked := booked_step hw.booked h
  obtain ⟨⟨result, state⟩, hsend, h⟩ := bind_eq_ok.mp h
  cases h
  have hsizes := hw.sizes.startSend (fun _ _ _ hactive => hactive) hsend
  refine hw.keep hbooked hsizes fun pending' download hstarted hbook => ?_
  dsimp only at hstarted hbook
  have hnoted : w.state.noted w.book item key = w.book key := by
    unfold noted
    split
    · rename_i info data
      have hne : key ≠ info.hash := fun heq => hfeeds (mem_singleton.mpr heq)
      exact if_neg fun hand => hne hand.2
    · rfl
  rw [hnoted] at hbook
  refine ⟨hbook, started_of_downloads hstarted ?_⟩
  have hdownloads := downloads_of_started hstarted
  rcases evolves_startSend hsend key with hsame | hnone | ⟨-, hasked⟩ | ⟨hfed, -⟩
  · exact hsame
  · cases hnone.symm.trans hdownloads
  · cases hasked.symm.trans hdownloads
  · exact absurd hfed hfeeds

theorem filled_recvData (hw : Filled key d w) {info : PeerInfo} {data : UtMetadataDataMessage}
    (hkey : info.hash = key) {i : Nat} (hi : i < piecesOf d) (hpiece : data.piece = Int64.ofNat i)
    (hdata : data.data = pieceOf d i)
    (h : w.step hash toBytes (.startSend (.receivedUtMetadataMessage info (.data data))) = .ok w') :
    Filled key d w' := by
  have hbooked := booked_step hw.booked h
  obtain ⟨⟨result, state⟩, hsend, h⟩ := bind_eq_ok.mp h
  cases h
  have hsizes := hw.sizes.startSend (fun _ _ _ hactive => hactive) hsend
  obtain ⟨state', hrecv, hsend⟩ := bind_eq_ok.mp hsend
  cases hsend
  subst hkey
  rcases recvData_eq_ok hw.booked hrecv with
    ⟨hawaits, rfl⟩ | ⟨hawaits, index, request, pending, bytes, hanswered⟩
  · refine hw.keep hbooked hsizes fun pending' download hstarted hbook => ?_
    dsimp only [noted, receive] at hbook
    rw [hawaits, if_neg nofun] at hbook
    exact ⟨hbook, pending', hstarted, rfl⟩
  · refine ⟨hbooked, hsizes, fun pending' download hstarted hbook => ?_⟩
    have hpieces := hw.booked.pieces info.hash
    rw [hanswered.started] at hpieces
    obtain ⟨download₀, hbook₀, hkept⟩ := hpieces.exists_kept
    obtain ⟨hsize, hreceived⟩ := hw.pieces pending download₀ hanswered.started hbook₀
    dsimp only [noted, receive] at hbook
    rw [hawaits, if_pos ⟨rfl, rfl⟩, hbook₀] at hbook
    cases hbook
    have hstarted' := started_of_insert
      (congrArg pendingMap hanswered.state) info.hash
    rw [if_pos rfl] at hstarted'
    cases hstarted.symm.trans hstarted'
    have hlength : pending.bytes.data.length = d.len := by
      have hfits : d.len < 2 ^ 63 := lt_succ_of_le d.fits
      rw [hkept.bytes, hsize, Int64.toInt_ofNat_of_lt hfits, Int.toNat_natCast]
    have hstart : data.piece.toInt.toNat = i := by
      rw [hpiece, toInt_ofNat_of_lt_piecesOf hi, Int.toNat_natCast]
    have hwritten := hanswered.written
    have hfits := hanswered.fits
    rw [hstart, hdata] at hwritten hfits
    refine ⟨hsize, fun piece hmem => ?_⟩
    have hoverwrite : bytes.data = overwrite pending.bytes.data (i * maxRequestSize) (pieceOf d i) := hwritten
    dsimp only
    rw [hoverwrite]
    rcases mem_append.mp hmem with hold | hnew
    · exact (hreceived piece hold).overwrite hfits
    · rw [mem_singleton.mp hnew, hpiece]
      exact hasPiece_overwrite hi hlength hfits

theorem filled_step (hw : Filled key d w) {call : Call} (hcall : call.From key d)
    (h : w.step hash toBytes call = .ok w') : Filled key d w' := by
  cases call with
  | onUpdate info extended => exact filled_onUpdate hw hcall h
  | pollReady waker =>
    have hbooked := booked_step hw.booked h
    cases h
    have halike := alike_pollReady w.state waker
    refine hw.keep hbooked (hw.sizes.of_eq halike.peers) fun pending' download hstarted hbook => ?_
    rw [started_of_pendingMap halike.pending] at hstarted
    exact ⟨hbook, pending', hstarted, rfl⟩
  | startSend item =>
    by_cases hfeeds : key ∈ item.feeds
    · rcases item with _ | _ | ⟨info, _ | data | _⟩
      · cases hfeeds
      · cases hfeeds
      · cases hfeeds
      · have hkey : info.hash = key := (mem_singleton.mp hfeeds).symm
        obtain ⟨i, hi, hpiece, hdata⟩ := hcall hkey
        exact filled_recvData hw hkey hi hpiece hdata h
      · cases hfeeds
    · exact filled_startSend_other hw hfeeds h
  | pollNext order peer waker => exact filled_pollNext hw h

theorem filled_foldlM {calls : List Call} (hw : Filled key d w) (hcalls : ∀ call ∈ calls, call.From key d)
    (h : calls.foldlM (step hash toBytes) w = .ok w') : Filled key d w' := by
  induction calls generalizing w with
  | nil =>
    cases h
    exact hw
  | cons call calls ih =>
    obtain ⟨mid, hmid, h⟩ := bind_eq_ok.mp h
    obtain ⟨hcall, hcalls⟩ := forall_mem_cons.mp hcalls
    exact ih (filled_step hw hcall hmid) hcalls h

theorem filled_new (key : InfoHash) (d : Buffer) : Filled key d .new :=
  ⟨booked_new, nofun, nofun⟩

theorem numPieces_ofNat_len (d : Buffer) : numPieces (Int64.ofNat d.len) = piecesOf d := by
  have hfits : d.len < 2 ^ 63 := lt_succ_of_le d.fits
  rw [numPieces, Int64.toInt_ofNat_of_lt hfits, Int.toNat_natCast, piecesOf]

theorem reassembled (d : Buffer) : Reassembled d := by
  intro hash toBytes calls w key hrun hcalls pending download hstarted hbook hall
  have hw : Filled key d w := filled_foldlM (filled_new key d) hcalls hrun
  obtain ⟨hsize, hpieces⟩ := hw.pieces pending download hstarted hbook
  have hbooked := hw.booked.pieces key
  rw [hstarted, hbook] at hbooked
  obtain ⟨_, hdownload, hkept⟩ := hbooked.exists_kept
  cases hdownload
  constructor
  · rw [hkept.left_eq, length_eq_zero_iff, filter_eq_nil_iff]
    intro piece hpiece
    obtain ⟨i, hi, rfl⟩ := mem_map.mp hpiece
    rw [hsize, numPieces_ofNat_len, mem_range] at hi
    simpa using hall i hi
  · refine ext_getElem? fun j => ?_
    have hlength : pending.bytes.data.length = d.len := by
      have hfits : d.len < 2 ^ 63 := lt_succ_of_le d.fits
      rw [hkept.bytes, hsize, Int64.toInt_ofNat_of_lt hfits, Int.toNat_natCast]
    by_cases hj : j < d.len
    · -- the byte is in the piece with this number
      have hi : j / maxRequestSize < piecesOf d := by
        simp only [piecesOf, maxRequestSize]
        omega
      refine hpieces _ (hall _ hi) j ?_ ?_
      · rw [toInt_ofNat_of_lt_piecesOf hi, Int.toNat_natCast]
        exact div_mul_le_self _ _
      · rw [toInt_ofNat_of_lt_piecesOf hi, Int.toNat_natCast]
        rw [mul_comm]
        exact Nat.lt_mul_div_succ j (by decide)
    · rw [getElem?_eq_none (by omega), getElem?_eq_none (Nat.le_of_not_lt hj)]

end

/-- Metadata is served completely, and put together from the answers, exactly if there is none or it is
one full piece. -/
theorem served_and_reassembled_iff (d : Buffer) :
    Served d ∧ Reassembled d ↔ d.len = 0 ∨ d.len = maxRequestSize :=
  ⟨fun h => length_of_served h.1, fun h => ⟨served_of_length h, reassembled d⟩⟩

/-- Metadata of one byte. -/
def oneByte : Buffer := ⟨[0], by decide⟩

/-- A request for the only piece, which is not full, is dropped. -/
theorem short_piece_not_served :
    (firstRequest oneByte).retrievePieceResponse = .ok (none, { firstRequest oneByte with peerRequests := [] }) ∧
      ¬ (Served oneByte ∧ Reassembled oneByte) := by
  refine ⟨rfl, fun h => ?_⟩
  rcases length_of_served h.1 with hzero | hone
  · exact absurd hzero (by decide)
  · exact absurd hone (by decide)

end BitTorrent.Select
