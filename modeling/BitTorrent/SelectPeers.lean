import BitTorrent.SelectDelivery

/-! What the calls on the metadata module leave alone. Most calls touch one part of the state, and a
property of the peers of each hash that removing a peer keeps is kept by all calls but the update that
adds a peer. -/

namespace BitTorrent.Select.UtMetadataModule

open Rust Dht Peer Meta

variable {m m' : UtMetadataModule}

/-! ### Calls that change no download -/

/-- Two modules have the same downloads, peers and requests: they differ in the torrents that were added
and in the wakers. -/
structure Alike (m m' : UtMetadataModule) : Prop where
  pending : m'.pendingMap = m.pendingMap
  peers : m'.activePeers = m.activePeers
  requests : m'.activeRequests = m.activeRequests
  queue : m'.peerRequests = m.peerRequests

theorem Alike.refl (m : UtMetadataModule) : Alike m m := ⟨rfl, rfl, rfl, rfl⟩

theorem alike_checkSinkUnblock (m : UtMetadataModule) : Alike m m.checkSinkUnblock := by
  unfold checkSinkUnblock
  split
  · split
    · exact ⟨rfl, rfl, rfl, rfl⟩
    · exact .refl m
  · exact .refl m

theorem alike_pollReady (m : UtMetadataModule) (waker : Waker) : Alike m (m.pollReady waker).2 := by
  unfold pollReady
  split
  · exact .refl m
  · exact ⟨rfl, rfl, rfl, rfl⟩

theorem alike_addTorrent {toBytes : Info → Run Empty Bytes} {metainfo : Metainfo}
    {result : Except DiscoveryError Unit} (h : m.addTorrent toBytes metainfo = .ok (result, m')) : Alike m m' := by
  unfold addTorrent at h
  split at h
  · cases h
    exact .refl m
  · obtain ⟨infoBytes, -, h⟩ := bind_eq_ok.mp h
    cases h
    exact ⟨rfl, rfl, rfl, rfl⟩

theorem alike_removeTorrent (m : UtMetadataModule) (metainfo : Metainfo) :
    Alike m (m.removeTorrent metainfo).2 := by
  unfold removeTorrent
  split
  · exact .refl m
  · exact ⟨rfl, rfl, rfl, rfl⟩

variable {hash : Bytes → ShaHash} {info : PeerInfo} {extended : ExtendedPeerInfo}

theorem exists_of_onUpdate
    (h : m.onUpdate hash info extended = .ok m') : ∃ downloads validated tasks initialized,
      (m.addPeer info extended).validateDownloaded hash = .ok (downloads, validated) ∧
        validated.initializePending = .ok (tasks, initialized) ∧ Alike initialized m' := by
  obtain ⟨⟨downloads, validated⟩, hvalidated, h⟩ := bind_eq_ok.mp h
  obtain ⟨⟨tasks, initialized⟩, hinitialized, h⟩ := bind_eq_ok.mp h
  refine ⟨downloads, validated, tasks, initialized, hvalidated, hinitialized, ?_⟩
  dsimp only at h
  split at h
  · split at h
    · cases h
      exact ⟨rfl, rfl, rfl, rfl⟩
    · cases h
      exact .refl _
  · cases h
    exact .refl _

/-! ### The peers of a hash -/

/-- The peers of every hash have a property. -/
def PeersHave (P : InfoHash → ActivePeers → Prop) (m : UtMetadataModule) : Prop :=
  ∀ h active, m.activePeers.lookup h = some active → P h active

variable {P : InfoHash → ActivePeers → Prop}

theorem PeersHave.of_eq (hm : m.PeersHave P) (h : m'.activePeers = m.activePeers) : m'.PeersHave P := by
  intro key active hlookup
  rw [h] at hlookup
  exact hm key active hlookup

variable {h : InfoHash}

theorem PeersHave.insert {active : ActivePeers} (hm : m.PeersHave P) (hactive : P h active)
    (heq : m'.activePeers = m.activePeers.insert h active) : m'.PeersHave P := by
  intro key active' hlookup
  rw [heq, HashMap.lookup_insert_eq] at hlookup
  split_ifs at hlookup with hkey
  · cases hlookup
    exact hkey ▸ hactive
  · exact hm key active' hlookup

theorem PeersHave.erase (hm : m.PeersHave P) (heq : m'.activePeers = m.activePeers.erase h) :
    m'.PeersHave P := by
  intro key active hlookup
  rw [heq, HashMap.lookup_erase_eq] at hlookup
  split_ifs at hlookup
  exact hm key active hlookup

theorem PeersHave.addPeer {extInfo : ExtendedPeerInfo} (hm : m.PeersHave P)
    (hnew : ∀ size, extInfo.theirs.bind ExtendedMessage.metadataSize = some size → P info.hash ⟨∅, size⟩)
    (hinsert : ∀ active : ActivePeers, P info.hash active →
      P info.hash { active with peers := active.peers.insert info.key info }) :
    (m.addPeer info extInfo).PeersHave P := by
  unfold UtMetadataModule.addPeer
  dsimp only
  split
  · rename_i size _ _ hsize
    have hactive : P info.hash ((m.activePeers.lookup info.hash).getD ⟨∅, size⟩) := by
      cases hlookup : m.activePeers.lookup info.hash with
      | none => exact hnew size hsize
      | some active => exact hm info.hash active hlookup
    refine hm.insert ?_ rfl
    split_ifs with hkey
    · exact hactive
    · exact hinsert _ hactive
  · exact hm

section

variable (herase : ∀ h (active : ActivePeers) key, P h active →
  P h { active with peers := active.peers.erase key })

include herase

theorem PeersHave.removePeer (hm : m.PeersHave P) (info : PeerInfo) : (m.removePeer info).PeersHave P := by
  unfold UtMetadataModule.removePeer
  split
  · exact hm
  · rename_i active hlookup
    dsimp only
    split
    · exact hm.erase rfl
    · exact hm.insert (herase _ _ _ (hm _ _ hlookup)) rfl

theorem PeersHave.expire (hm : m.PeersHave P) (request : ActiveRequest) : (m.expire request).PeersHave P := by
  cases hlookup : m.activePeers.lookup request.sentTo.hash with
  | none =>
    refine hm.of_eq ?_
    simp only [UtMetadataModule.expire, hlookup]
  | some active =>
    refine hm.insert (herase _ _ request.sentTo.key (hm _ _ hlookup)) ?_
    simp only [UtMetadataModule.expire, hlookup]

theorem PeersHave.applyTick (hm : m.PeersHave P) (duration : Duration) :
    (m.applyTick duration).PeersHave P := by
  have hexpired : ∀ requests : List ActiveRequest, (requests.foldl UtMetadataModule.expire m).PeersHave P := by
    intro requests
    induction requests generalizing m with
    | nil => exact hm
    | cons request requests ih => exact ih (hm.expire herase request)
  exact (hexpired _).of_eq rfl

end

/-! ### The peers in all calls -/

theorem activePeers_recvData {data : UtMetadataDataMessage} (h : m.recvData info data = .ok m') :
    m'.activePeers = m.activePeers ∧ m'.peerRequests = m.peerRequests := by
  unfold UtMetadataModule.recvData at h
  split at h
  · cases h
    exact ⟨rfl, rfl⟩
  · dsimp only at h
    split at h
    · obtain ⟨piece, -, h⟩ := bind_eq_ok.mp h
      obtain ⟨dataOffset, -, h⟩ := bind_eq_ok.mp h
      obtain ⟨left, -, h⟩ := bind_eq_ok.mp h
      obtain ⟨bytes, -, h⟩ := bind_eq_ok.mp h
      cases h
      exact ⟨rfl, rfl⟩
    · cases h
      exact ⟨rfl, rfl⟩

theorem PeersHave.onUpdate
    (hm : (m.addPeer info extended).PeersHave P) (h : m.onUpdate hash info extended = .ok m') : m'.PeersHave P := by
  obtain ⟨downloads, validated, tasks, initialized, hvalidated, hinitialized, halike⟩ := exists_of_onUpdate h
  obtain ⟨_, -, hvalidated⟩ := bind_eq_ok.mp hvalidated
  obtain ⟨_, -, hinitialized⟩ := bind_eq_ok.mp hinitialized
  cases hvalidated
  cases hinitialized
  exact hm.of_eq halike.peers

theorem PeersHave.startSend
    (herase : ∀ h (active : ActivePeers) key, P h active → P h { active with peers := active.peers.erase key })
    (hm : m.PeersHave P) {toBytes : Info → Run Empty Bytes} {item : IDiscoveryMessage}
    {result : Except DiscoveryError Unit} (h : m.startSend toBytes item = .ok (result, m')) : m'.PeersHave P := by
  rcases item with (metainfo | metainfo | info | info | duration) | hash | ⟨info, msg | msg | msg⟩
  · exact hm.of_eq (alike_addTorrent h).peers
  · have hremove : (m.removeTorrent metainfo).2 = m' := congrArg Prod.snd (Except.ok.inj h)
    exact hm.of_eq (hremove ▸ (alike_removeTorrent m metainfo).peers)
  · cases h
    exact hm
  · cases h
    exact hm.removePeer herase info
  · cases h
    exact hm.applyTick herase duration
  · cases h
    refine hm.of_eq ?_
    unfold UtMetadataModule.downloadMetainfo
    split <;> rfl
  · cases h
    refine hm.of_eq ?_
    unfold UtMetadataModule.recvRequest
    split <;> rfl
  · obtain ⟨m'', hdata, h⟩ := bind_eq_ok.mp h
    cases h
    exact hm.of_eq (activePeers_recvData hdata).1
  · cases h
    exact hm

variable {found : Option (InfoHash × PendingInfo × Info)} {order : List InfoHash}

theorem PeersHave.retrieveCompletedDownload (hm : m.PeersHave P)
    (h : m.retrieveCompletedDownload hash order = .ok (found, m')) : m'.PeersHave P :=
  (retrieveCompletedDownload_rule (motive := (·.PeersHave P)) hm
    (fun _ _ _ _ hm₁ => hm₁.erase rfl) h).1

theorem requests_retrieveCompletedDownload (h : m.retrieveCompletedDownload hash order = .ok (found, m')) :
    m'.activeRequests = m.activeRequests ∧ m'.peerRequests = m.peerRequests :=
  (retrieveCompletedDownload_rule (motive := fun m₁ => m₁.activeRequests = m.activeRequests ∧
    m₁.peerRequests = m.peerRequests) ⟨rfl, rfl⟩ (fun _ _ _ _ hm₁ => hm₁) h).1

theorem activePeers_retrievePieceRequest (m : UtMetadataModule) (order : List InfoHash) (peer : Nat) :
    (m.retrievePieceRequest order peer).2.activePeers = m.activePeers ∧
      (m.retrievePieceRequest order peer).2.peerRequests = m.peerRequests := by
  unfold UtMetadataModule.retrievePieceRequest
  split
  · dsimp only
    split
    · exact ⟨rfl, rfl⟩
    · exact ⟨rfl, rfl⟩
  · exact ⟨rfl, rfl⟩

theorem PeersHave.pollNext {peer : Nat} {waker : Waker}
    {result : Poll Retrieved} (hm : m.PeersHave P) (h : m.pollNext hash order peer waker = .ok (result, m')) :
    m'.PeersHave P := by
  obtain ⟨⟨optResult, m₁⟩, hretrieve, h⟩ := bind_eq_ok.mp h
  have hm₁ : m₁.PeersHave P := by
    obtain ⟨⟨found, m₂⟩, hcompleted, hretrieve⟩ := bind_eq_ok.mp hretrieve
    have hm₂ := hm.retrieveCompletedDownload hcompleted
    cases found with
    | some f =>
      cases hretrieve
      exact hm₂
    | none =>
      have hm₃ := hm₂.of_eq (activePeers_retrievePieceRequest m₂ order peer).1
      dsimp only at hretrieve
      generalize m₂.retrievePieceRequest order peer = requested at hretrieve hm₃
      obtain ⟨_ | message, m₃⟩ := requested
      · obtain ⟨⟨message, m₄⟩, hresponse, hretrieve⟩ := bind_eq_ok.mp hretrieve
        obtain ⟨⟨message', peerRequests⟩, -, hresponse⟩ := bind_eq_ok.mp hresponse
        cases hretrieve
        cases hresponse
        exact hm₃.of_eq rfl
      · cases hretrieve
        exact hm₃
  have hsink : m₁.checkSinkUnblock.PeersHave P := hm₁.of_eq (alike_checkSinkUnblock m₁).peers
  cases optResult with
  | some found =>
    cases h
    exact hsink
  | none =>
    cases h
    exact hsink.of_eq rfl

end BitTorrent.Select.UtMetadataModule
