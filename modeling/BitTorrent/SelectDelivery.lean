import BitTorrent.SelectUtMetadata

/-! Which metainfo the metadata module delivers. A call of `on_update` throws away every complete
download whose bytes do not have the hash that was asked for. A download that becomes complete after
that call is delivered by the next poll, whatever its bytes are. -/

namespace BitTorrent.Select

open Rust Dht Peer Meta List

inductive Call where
  | onUpdate (info : PeerInfo) (extended : ExtendedPeerInfo)
  | pollReady (waker : Waker)
  | startSend (item : IDiscoveryMessage)
  | pollNext (order : List InfoHash) (peer : Nat) (waker : Waker)

/-- A metainfo that was yielded, the bytes it came from and the hashes that had been asked for. -/
structure Delivery where
  bytes : Bytes
  metainfo : Metainfo
  requested : List InfoHash

/-- A module with the hashes asked for, those for which data arrived since the last `on_update`, and
what was delivered. -/
structure WatchedModule where
  state : UtMetadataModule
  requested : List InfoHash
  unchecked : List InfoHash
  deliveries : List Delivery

/-- The hash a message asks for. -/
def IDiscoveryMessage.asks : IDiscoveryMessage → List InfoHash
  | .downloadMetainfo hash => [hash]
  | _ => []

/-- The hash a message has data for. -/
def IDiscoveryMessage.feeds : IDiscoveryMessage → List InfoHash
  | .receivedUtMetadataMessage info (.data _) => [info.hash]
  | _ => []

namespace WatchedModule

def new : WatchedModule := ⟨.new, [], [], []⟩

section

variable (hash : Bytes → ShaHash) (toBytes : Info → Run Empty Bytes)

def deliver (w : WatchedModule) : Poll UtMetadataModule.Retrieved → List Delivery
  | .ready (.download _ completed info) => [⟨completed.bytes.data, .ofInfo info, w.requested⟩]
  | _ => []

def step (w : WatchedModule) : Call → Run Empty WatchedModule
  | .onUpdate info extended => do
    let state ← w.state.onUpdate hash info extended
    .ok { w with state, unchecked := [] }
  | .pollReady waker => .ok { w with state := (w.state.pollReady waker).2 }
  | .startSend item => do
    let (_, state) ← w.state.startSend toBytes item
    .ok { w with
          state, requested := w.requested ++ item.asks, unchecked := w.unchecked ++ item.feeds }
  | .pollNext order peer waker => do
    let (result, state) ← w.state.pollNext hash order peer waker
    .ok { w with state, deliveries := w.deliveries ++ w.deliver result }

/-- A run ends with the first call that panics. -/
def run (w : WatchedModule) : List Call → WatchedModule
  | [] => w
  | call :: calls =>
    match w.step hash toBytes call with
    | .ok w => w.run calls
    | .error _ => w

end

end WatchedModule

variable {peer : Nat} {waker : Waker}

namespace UtMetadataModule

/-- The downloads: whether a hash was asked for, and how many pieces are left and which bytes are
there once its size is known. -/
def downloads (m : UtMetadataModule) (h : InfoHash) : Option (Option (Nat × Buffer)) :=
  (m.pendingMap.lookup h).map fun opt => opt.map fun pending => (pending.left, pending.bytes)

/-- What a call other than `on_update` can do to the downloads: drop some, start those in `asked`, and
change those in `fed`. -/
def Evolves (asked fed : List InfoHash) (m m' : UtMetadataModule) : Prop :=
  ∀ h, m'.downloads h = m.downloads h ∨ m'.downloads h = none ∨
    (h ∈ asked ∧ m'.downloads h = some none) ∨ (h ∈ fed ∧ m.downloads h ≠ none)

variable {m m' : UtMetadataModule} {asked fed : List InfoHash}

theorem Evolves.of_eq (h : m'.downloads = m.downloads) : Evolves asked fed m m' :=
  fun key => .inl (congrFun h key)

theorem downloads_of_pendingMap (h : m'.pendingMap = m.pendingMap) : m'.downloads = m.downloads := by
  funext key
  rw [downloads, downloads, h]

variable {pending : PendingInfo}

theorem downloads_insert_messages {h : InfoHash}
    (hlookup : m.pendingMap.lookup h = some (some pending)) (messages : List UtMetadataRequestMessage) :
    { m with pendingMap := m.pendingMap.insert h (some { pending with messages }) }.downloads =
      m.downloads := by
  funext key
  rw [downloads, downloads, HashMap.lookup_insert_eq]
  split
  · rename_i heq
    rw [heq, hlookup]
    rfl
  · rfl

theorem pendingMap_addPeer (info : PeerInfo) (extInfo : ExtendedPeerInfo) :
    (m.addPeer info extInfo).pendingMap = m.pendingMap := by
  unfold addPeer
  dsimp only
  split <;> rfl

theorem pendingMap_removePeer (info : PeerInfo) : (m.removePeer info).pendingMap = m.pendingMap := by
  unfold removePeer
  split
  · rfl
  · dsimp only
    split <;> rfl

theorem pendingMap_removeTorrent (metainfo : Metainfo) :
    (m.removeTorrent metainfo).2.pendingMap = m.pendingMap := by
  unfold removeTorrent
  split <;> rfl

theorem pendingMap_recvRequest (info : PeerInfo) (request : UtMetadataRequestMessage) :
    (m.recvRequest info request).pendingMap = m.pendingMap := by
  unfold recvRequest
  split <;> rfl

theorem pendingMap_checkSinkUnblock : m.checkSinkUnblock.pendingMap = m.pendingMap := by
  unfold checkSinkUnblock
  split
  · split <;> rfl
  · rfl

variable {result : Except DiscoveryError Unit} {toBytes : Info → Run Empty Bytes}

theorem pendingMap_addTorrent {metainfo : Metainfo} (h : m.addTorrent toBytes metainfo = .ok (result, m')) :
    m'.pendingMap = m.pendingMap := by
  unfold addTorrent at h
  split at h
  · cases h
    rfl
  · obtain ⟨infoBytes, -, h⟩ := bind_eq_ok.mp h
    cases h
    rfl

theorem pendingMap_retrievePieceResponse {message : Option ODiscoveryMessage}
    (h : m.retrievePieceResponse = .ok (message, m')) : m'.pendingMap = m.pendingMap := by
  obtain ⟨⟨message', peerRequests⟩, -, h⟩ := bind_eq_ok.mp h
  cases h
  rfl

theorem downloads_expire (request : ActiveRequest) : (m.expire request).downloads = m.downloads := by
  unfold expire
  dsimp only
  cases hlookup : m.pendingMap.lookup request.sentTo.hash with
  | none => exact downloads_of_pendingMap rfl
  | some opt =>
    cases opt with
    | none => exact downloads_of_pendingMap rfl
    | some pending => exact downloads_insert_messages hlookup _

theorem downloads_applyTick (duration : Duration) : (m.applyTick duration).downloads = m.downloads := by
  have hexpired : ∀ requests : List ActiveRequest,
      (requests.foldl expire m).downloads = m.downloads := by
    intro requests
    induction requests generalizing m with
    | nil => rfl
    | cons request requests ih => exact ih.trans (downloads_expire request)
  exact (downloads_of_pendingMap rfl).trans (hexpired _)

theorem downloads_retrievePieceRequest (order : List InfoHash) (peer : Nat) :
    (m.retrievePieceRequest order peer).2.downloads = m.downloads := by
  unfold retrievePieceRequest
  split
  · rename_i h pending hfind
    dsimp only
    split
    · exact downloads_insert_messages (HashMap.find_eq_some hfind).1 _
    · rfl
  · rfl

theorem evolves_downloadMetainfo (h : InfoHash) : Evolves [h] fed m (m.downloadMetainfo h) := by
  unfold downloadMetainfo
  split
  · exact .of_eq rfl
  · intro key
    rw [downloads, HashMap.lookup_insert_eq]
    split
    · rename_i heq
      exact .inr (.inr (.inl ⟨mem_singleton.mpr heq, rfl⟩))
    · exact .inl rfl

variable {info : PeerInfo}

theorem evolves_recvData {data : UtMetadataDataMessage}
    (h : m.recvData info data = .ok m') : Evolves asked [info.hash] m m' := by
  unfold recvData at h
  split at h
  · cases h
    exact .of_eq rfl
  · dsimp only at h
    split at h
    · rename_i pending hlookup
      obtain ⟨piece, -, h⟩ := bind_eq_ok.mp h
      obtain ⟨dataOffset, -, h⟩ := bind_eq_ok.mp h
      obtain ⟨left, -, h⟩ := bind_eq_ok.mp h
      obtain ⟨bytes, -, h⟩ := bind_eq_ok.mp h
      cases h
      intro key
      by_cases hkey : key = info.hash
      · subst hkey
        refine .inr (.inr (.inr ⟨mem_singleton_self _, ?_⟩))
        rw [downloads, hlookup]
        exact nofun
      · left
        rw [downloads, HashMap.lookup_insert_eq, if_neg hkey]
        rfl
    · cases h
      exact .of_eq rfl

theorem evolves_startSend {item : IDiscoveryMessage} (h : m.startSend toBytes item = .ok (result, m')) :
    Evolves item.asks item.feeds m m' := by
  rcases item with (metainfo | metainfo | info | info | duration) | hash | ⟨info, msg | msg | msg⟩
  · exact .of_eq (downloads_of_pendingMap (pendingMap_addTorrent h))
  · have hsnd : (m.removeTorrent metainfo).2 = m' := congrArg Prod.snd (Except.ok.inj h)
    exact .of_eq (downloads_of_pendingMap (hsnd ▸ pendingMap_removeTorrent metainfo))
  · cases h
    exact .of_eq rfl
  · cases h
    exact .of_eq (downloads_of_pendingMap (pendingMap_removePeer info))
  · cases h
    exact .of_eq (downloads_applyTick duration)
  · cases h
    exact evolves_downloadMetainfo hash
  · cases h
    exact .of_eq (downloads_of_pendingMap (pendingMap_recvRequest info msg))
  · obtain ⟨m'', hdata, h⟩ := bind_eq_ok.mp h
    cases h
    exact evolves_recvData hdata
  · cases h
    exact .of_eq rfl

section

variable {hash : Bytes → ShaHash} {order : List InfoHash}

/-- Downloads are dropped and otherwise left as they are. -/
def Shrinks (m m' : UtMetadataModule) : Prop :=
  ∀ h, m'.downloads h = m.downloads h ∨ m'.downloads h = none

variable {m'' : UtMetadataModule}

theorem Shrinks.trans (h : Shrinks m m') (h' : Shrinks m' m'') : Shrinks m m'' := by
  intro key
  rcases h' key with hkey | hkey
  · rw [hkey]
    exact h key
  · exact .inr hkey

theorem Shrinks.of_eq (h : Shrinks m m') (heq : m''.downloads = m'.downloads) : Shrinks m m'' := by
  intro key
  rw [heq]
  exact h key

theorem Shrinks.eq_of_some (h : Shrinks m m') {key : InfoHash} {download : Option (Nat × Buffer)}
    (hkey : m'.downloads key = some download) : m.downloads key = some download := by
  rcases h key with heq | hnone
  · rw [← heq, hkey]
  · rw [hnone] at hkey
    cases hkey

theorem shrinks_forget (m : UtMetadataModule) (h : InfoHash) : Shrinks m (m.forget h) := by
  intro key
  rw [downloads, forget, HashMap.lookup_erase_eq]
  split
  · exact .inr rfl
  · exact .inl rfl

/-- A download that is handed out is complete, and its bytes are an info dictionary. -/
def Found (hash : Bytes → ShaHash) (m : UtMetadataModule) (found : InfoHash × PendingInfo × Info) : Prop :=
  m.downloads found.1 = some (some (0, found.2.1.bytes)) ∧
    Info.fromBytes hash found.2.1.bytes = .ok found.2.2

theorem downloads_of_find {completedHash : InfoHash} {completed : PendingInfo}
    (h : m.pendingMap.find order (fun _ opt => opt.any fun pending => pending.left = 0) =
      some (completedHash, some completed)) :
    m.downloads completedHash = some (some (0, completed.bytes)) := by
  obtain ⟨hlookup, hleft⟩ := HashMap.find_eq_some h
  have hleft : completed.left = 0 := of_decide_eq_true hleft
  rw [downloads, hlookup]
  simp only [Option.map_some, hleft]

theorem retrieveCompletedDownload_of_find {completedHash : InfoHash} {completed : PendingInfo}
    (hfind : m.pendingMap.find order (fun _ opt => opt.any fun pending => pending.left = 0) =
      some (completedHash, some completed)) {r : Except ParseError Info} :
    Info.fromBytes hash completed.bytes = ofResult r → m.retrieveCompletedDownload hash order =
      match r with
      | .ok info => .ok (some (completedHash, completed, info), m.forget completedHash)
      | .error _ => (m.forget completedHash).retrieveCompletedDownload hash order := by
  intro hr
  rw [retrieveCompletedDownload]
  split
  · rename_i hfind'
    cases hfind.symm.trans hfind'
    rw [result_eq_ok.mpr hr]
    rfl
  · rename_i hnone
    exact absurd hfind (hnone _ _)

/-- The downloads that are no info dictionary are forgotten, and the first one that is. What is kept
whenever a complete download is forgotten is kept by the call. -/
theorem retrieveCompletedDownload_rule {found : Option (InfoHash × PendingInfo × Info)}
    {motive : UtMetadataModule → Prop} (hm : motive m)
    (hforget : ∀ m completedHash completed,
      m.pendingMap.find order (fun _ opt => opt.any fun pending => pending.left = 0) =
        some (completedHash, some completed) → motive m → motive (m.forget completedHash))
    (h : m.retrieveCompletedDownload hash order = .ok (found, m')) :
    motive m' ∧ ∀ f, found = some f → ∃ m₁, motive m₁ ∧ Info.fromBytes hash f.2.1.bytes = .ok f.2.2 ∧
      m₁.pendingMap.find order (fun _ opt => opt.any fun pending => pending.left = 0) =
        some (f.1, some f.2.1) := by
  induction m using retrieveCompletedDownload.induct order with
  | case1 m completedHash completed hfind ih =>
    have hkept := hforget m completedHash completed hfind hm
    obtain ⟨r, hr⟩ : ∃ r, Info.fromBytes hash completed.bytes = ofResult r := by
      rw [retrieveCompletedDownload] at h
      split at h
      · rename_i hfind'
        cases hfind.symm.trans hfind'
        obtain ⟨r, hr, -⟩ := bind_eq_ok.mp h
        exact ⟨r, result_eq_ok.mp hr⟩
      · rename_i hnone
        exact absurd hfind (hnone _ _)
    rw [retrieveCompletedDownload_of_find hfind hr] at h
    cases r with
    | ok info =>
      cases h
      refine ⟨hkept, ?_⟩
      rintro _ ⟨⟩
      exact ⟨m, hm, hr, hfind⟩
    | error e => exact ih hkept h
  | case2 m hnone =>
    rw [retrieveCompletedDownload] at h
    split at h
    · rename_i hfind
      exact (hnone _ _ hfind).elim
    · cases h
      exact ⟨hm, nofun⟩

theorem retrieveCompletedDownload_eq_ok {found : Option (InfoHash × PendingInfo × Info)}
    (h : m.retrieveCompletedDownload hash order = .ok (found, m')) :
    Shrinks m m' ∧ ∀ f, found = some f → Found hash m f := by
  obtain ⟨hshrinks, hfound⟩ := retrieveCompletedDownload_rule (motive := Shrinks m) (fun _ => .inl rfl)
    (fun m₁ completedHash _ _ hm₁ => hm₁.trans (shrinks_forget m₁ completedHash)) h
  refine ⟨hshrinks, fun f hf => ?_⟩
  obtain ⟨m₁, hm₁, hinfo, hfind⟩ := hfound f hf
  exact ⟨hm₁.eq_of_some (downloads_of_find hfind), hinfo⟩

/-- A complete download that is an info dictionary is handed out if the iteration comes to it first. -/
theorem pollNext_of_found {h : InfoHash} {bytes : Buffer} {info : Info} (peer : Nat) (waker : Waker)
    (hdownload : m.downloads h = some (some (0, bytes))) (hinfo : Info.fromBytes hash bytes = .ok info) :
    ∃ completed m', m.pollNext hash [h] peer waker = .ok (.ready (.download h completed info), m') ∧
      completed.bytes = bytes := by
  obtain ⟨opt, hlookup, hopt⟩ := Option.map_eq_some_iff.mp hdownload
  obtain ⟨completed, rfl, hpair⟩ := Option.map_eq_some_iff.mp hopt
  obtain ⟨hleft, hbytes⟩ := Prod.mk.inj hpair
  have hfind : m.pendingMap.find [h] (fun _ opt => opt.any fun pending => pending.left = 0) =
      some (h, some completed) := by
    rw [HashMap.find, singleton_append, findSome?_cons, hlookup, Option.bind_some,
      if_pos (by exact decide_eq_true hleft)]
  have hretrieve := retrieveCompletedDownload_of_find (r := .ok info) hfind (hbytes ▸ hinfo)
  refine ⟨completed, (m.forget h).checkSinkUnblock, ?_, hbytes⟩
  rw [pollNext, retrieve, hretrieve]
  rfl

theorem retrieve_eq_ok {optResult : Option Retrieved} (h : m.retrieve hash order peer = .ok (optResult, m')) :
    Shrinks m m' ∧ ∀ completedHash completed info, optResult = some (.download completedHash completed info) →
        Found hash m (completedHash, completed, info) := by
  obtain ⟨⟨found, m₁⟩, hcompleted, h⟩ := bind_eq_ok.mp h
  obtain ⟨hshrinks, hfound⟩ := retrieveCompletedDownload_eq_ok hcompleted
  cases found with
  | some f =>
    cases h
    refine ⟨hshrinks, ?_⟩
    rintro _ _ _ ⟨⟩
    exact hfound _ rfl
  | none =>
    have hrequest := downloads_retrievePieceRequest (m := m₁) order peer
    dsimp only at h
    generalize m₁.retrievePieceRequest order peer = requested at h hrequest
    obtain ⟨_ | message, m₂⟩ := requested
    · obtain ⟨⟨message, m₃⟩, hresponse, h⟩ := bind_eq_ok.mp h
      cases h
      have hkept := downloads_of_pendingMap (pendingMap_retrievePieceResponse hresponse)
      refine ⟨hshrinks.of_eq (hkept.trans hrequest), fun _ _ _ hsome => ?_⟩
      cases message <;> cases hsome
    · cases h
      exact ⟨hshrinks.of_eq hrequest, by rintro _ _ _ ⟨⟩⟩

theorem pollNext_eq_ok {result : Poll Retrieved} (h : m.pollNext hash order peer waker = .ok (result, m')) :
    Shrinks m m' ∧ ∀ completedHash completed info, result = .ready (.download completedHash completed info) →
        Found hash m (completedHash, completed, info) := by
  obtain ⟨⟨optResult, m₁⟩, hretrieve, h⟩ := bind_eq_ok.mp h
  obtain ⟨hshrinks, hfound⟩ := retrieve_eq_ok hretrieve
  -- waking and storing wakers does not touch the downloads
  have hsink : m₁.checkSinkUnblock.downloads = m₁.downloads :=
    downloads_of_pendingMap pendingMap_checkSinkUnblock
  cases optResult with
  | some found =>
    cases h
    refine ⟨hshrinks.of_eq hsink, ?_⟩
    rintro completedHash completed info ⟨⟩
    exact hfound completedHash completed info rfl
  | none =>
    cases h
    exact ⟨hshrinks.of_eq hsink, by rintro _ _ _ ⟨⟩⟩

end

section

variable {hash : Bytes → ShaHash}

variable {available : Bool}

/-- After the validation a complete download has the hash that was asked for. -/
theorem downloads_validateDownloaded (h : m.validateDownloaded hash = .ok (available, m')) (key : InfoHash) :
    (m'.downloads key ≠ none → m.downloads key ≠ none) ∧
      ∀ bytes, m'.downloads key = some (some (0, bytes)) → hash bytes.data = key := by
  obtain ⟨pendingMap, hmap, h⟩ := bind_eq_ok.mp h
  cases h
  rcases HashMap.updated_of_updateAll hmap key with ⟨hnone, hnone'⟩ | ⟨opt, opt', hopt, hnew, hopt'⟩
  · rw [downloads, downloads, hnone, hnone']
    exact ⟨id, nofun⟩
  · rw [downloads, downloads, hopt, hopt']
    refine ⟨fun _ => nofun, fun bytes hbytes => ?_⟩
    cases opt with
    | none =>
      cases hnew
      cases hbytes
    | some pending =>
      dsimp only at hnew
      split_ifs at hnew with hinvalid
      · cases hnew
        cases hbytes
      · cases hnew
        have hpair : (pending.left, pending.bytes) = (0, bytes) :=
          Option.some.inj (Option.some.inj hbytes)
        have hleft : pending.left = 0 := congrArg Prod.fst hpair
        have hsame : pending.bytes = bytes := congrArg Prod.snd hpair
        by_contra hne
        exact hinvalid ⟨hleft, hsame ▸ hne⟩

theorem pendingInfoFromMetadataSize_eq_ok {metadataSize : Int64}
    (h : pendingInfoFromMetadataSize metadataSize = .ok pending) (hleft : pending.left = 0) :
    pending.bytes.data = [] := by
  obtain ⟨size, -, h⟩ := bind_eq_ok.mp h
  obtain ⟨bytes, hbytes, h⟩ := bind_eq_ok.mp h
  cases h
  have hsize : size = 0 := by
    change (if size % (16 * 1024) = 0 then size / (16 * 1024) else size / (16 * 1024) + 1) = 0 at hleft
    split_ifs at hleft with hmod
    omega
  subst hsize
  unfold Buffer.zeros at hbytes
  split at hbytes <;> cases hbytes
  rfl

theorem downloads_initializePending (h : m.initializePending = .ok (available, m')) (key : InfoHash) :
    (m'.downloads key ≠ none → m.downloads key ≠ none) ∧
      ∀ bytes, m'.downloads key = some (some (0, bytes)) →
        m.downloads key = some (some (0, bytes)) ∨ bytes.data = [] := by
  obtain ⟨pendingMap, hmap, h⟩ := bind_eq_ok.mp h
  cases h
  rcases HashMap.updated_of_updateAll hmap key with ⟨hnone, hnone'⟩ | ⟨opt, opt', hopt, hnew, hopt'⟩
  · rw [downloads, downloads, hnone, hnone']
    exact ⟨id, nofun⟩
  · rw [downloads, downloads, hopt, hopt']
    refine ⟨fun _ => nofun, fun bytes hbytes => ?_⟩
    dsimp only at hnew
    split at hnew
    · rename_i active hactive
      obtain ⟨pending, hpending, hnew⟩ := bind_eq_ok.mp hnew
      cases hnew
      have hpair : (pending.left, pending.bytes) = (0, bytes) :=
        Option.some.inj (Option.some.inj hbytes)
      right
      rw [← show pending.bytes = bytes from congrArg Prod.snd hpair]
      exact pendingInfoFromMetadataSize_eq_ok hpending (congrArg Prod.fst hpair)
    · cases hnew
      exact .inl hbytes

theorem onUpdate_eq_ok {extended : ExtendedPeerInfo}
    (h : m.onUpdate hash info extended = .ok m') (key : InfoHash) :
    (m'.downloads key ≠ none → m.downloads key ≠ none) ∧
      ∀ bytes, m'.downloads key = some (some (0, bytes)) → hash bytes.data = key ∨ bytes.data = [] := by
  obtain ⟨⟨downloadsAvailable, m₁⟩, hvalidate, h⟩ := bind_eq_ok.mp h
  obtain ⟨⟨tasksAvailable, m₂⟩, hinitialize, h⟩ := bind_eq_ok.mp h
  have hlast : m'.downloads = m₂.downloads := by
    dsimp only at h
    split at h
    · split at h
      · cases h
        exact downloads_of_pendingMap rfl
      · cases h
        rfl
    · cases h
      rfl
  obtain ⟨hkept, hvalid⟩ := downloads_validateDownloaded hvalidate key
  obtain ⟨hkept', hnew⟩ := downloads_initializePending hinitialize key
  rw [hlast]
  refine ⟨fun hsome => ?_, fun bytes hbytes => ?_⟩
  · have hfirst := hkept (hkept' hsome)
    rwa [downloads_of_pendingMap (pendingMap_addPeer info extended)] at hfirst
  · rcases hnew bytes hbytes with hold | hempty
    · exact .inl (hvalid bytes hold)
    · exact .inr hempty

end

end UtMetadataModule

namespace WatchedModule

variable {hash : Bytes → ShaHash} {toBytes : Info → Run Empty Bytes} {w w' : WatchedModule}

/-- Only hashes that were asked for are downloaded, and a complete download has its hash unless data came
in since the last `on_update`. -/
structure Inv (hash : Bytes → ShaHash) (w : WatchedModule) : Prop where
  requested : ∀ h, w.state.downloads h ≠ none → h ∈ w.requested
  checked : ∀ h bytes, w.state.downloads h = some (some (0, bytes)) → h ∉ w.unchecked →
    hash bytes.data = h ∨ bytes.data = []

theorem inv_new : Inv hash new where
  requested := fun _ h => absurd rfl h
  checked := by rintro _ _ ⟨⟩

variable {state : UtMetadataModule}

theorem Inv.evolves (h : Inv hash w) {asked fed : List InfoHash}
    (hevolves : UtMetadataModule.Evolves asked fed w.state state) :
    Inv hash { w with state, requested := w.requested ++ asked, unchecked := w.unchecked ++ fed } where
  requested key hkey := by
    rcases hevolves key with hsame | hnone | ⟨hasked, -⟩ | ⟨-, hold⟩
    · exact mem_append_left _ (h.requested key (hsame ▸ hkey))
    · exact absurd hnone hkey
    · exact mem_append_right _ hasked
    · exact mem_append_left _ (h.requested key hold)
  checked key bytes hkey hchecked := by
    rw [mem_append, not_or] at hchecked
    rcases hevolves key with hsame | hnone | ⟨-, hstarted⟩ | ⟨hfed, -⟩
    · exact h.checked key bytes (hsame ▸ hkey) hchecked.1
    · cases hnone.symm.trans hkey
    · cases hstarted.symm.trans hkey
    · exact absurd hfed hchecked.2

variable {order : List InfoHash} {result : Poll UtMetadataModule.Retrieved}

theorem inv_pollNext (h : Inv hash w)
    (hpoll : w.state.pollNext hash order peer waker = .ok (result, state)) :
    Inv hash { w with state, deliveries := w.deliveries ++ w.deliver result } := by
  have hshrinks := (UtMetadataModule.pollNext_eq_ok hpoll).1
  have hevolves : UtMetadataModule.Evolves [] [] w.state state := fun key =>
    (hshrinks key).imp id .inl
  have hinv := h.evolves hevolves
  rw [append_nil, append_nil] at hinv
  exact ⟨hinv.requested, hinv.checked⟩

/-- All complete downloads that got data since the last `on_update` and are info dictionaries have a hash
that was asked for. -/
def Settled (hash : Bytes → ShaHash) (w : WatchedModule) : Prop :=
  ∀ h bytes info, w.state.downloads h = some (some (0, bytes)) → h ∈ w.unchecked →
    Info.fromBytes hash bytes = .ok info → hash bytes.data ∈ w.requested

theorem Inv.requested_of_settled (h : Inv hash w) (hsettled : w.Settled hash) {completedHash : InfoHash}
    {completed : PendingInfo} {info : Info}
    (hfound : UtMetadataModule.Found hash w.state (completedHash, completed, info)) :
    info.infoHash ∈ w.requested := by
  obtain ⟨hcomplete, hinfo⟩ := hfound
  obtain ⟨hhash, hbytes⟩ := Info.infoHash_fromBytes hinfo
  rw [hhash]
  by_cases hunchecked : completedHash ∈ w.unchecked
  · exact hsettled completedHash _ info hcomplete hunchecked hinfo
  · rw [(h.checked completedHash _ hcomplete hunchecked).resolve_right hbytes]
    exact h.requested completedHash (by rw [hcomplete]; exact nofun)

theorem inv_step (h : Inv hash w) {call : Call} (hstep : w.step hash toBytes call = .ok w') :
    Inv hash w' := by
  cases call with
  | onUpdate info extended =>
    obtain ⟨state, hupdate, hstep⟩ := bind_eq_ok.mp hstep
    cases hstep
    have hdownloads := UtMetadataModule.onUpdate_eq_ok hupdate
    exact ⟨fun key hkey => h.requested key ((hdownloads key).1 hkey),
      fun key bytes hkey _ => (hdownloads key).2 bytes hkey⟩
  | pollReady waker =>
    cases hstep
    have hsame : (w.state.pollReady waker).2.downloads = w.state.downloads := by
      unfold UtMetadataModule.pollReady
      split <;> rfl
    have hevolves : UtMetadataModule.Evolves [] [] w.state (w.state.pollReady waker).2 := .of_eq hsame
    have hinv := h.evolves hevolves
    rwa [append_nil, append_nil] at hinv
  | startSend item =>
    obtain ⟨⟨result, state⟩, hsend, hstep⟩ := bind_eq_ok.mp hstep
    cases hstep
    exact h.evolves (UtMetadataModule.evolves_startSend hsend)
  | pollNext order peer waker =>
    obtain ⟨⟨result, state⟩, hpoll, hstep⟩ := bind_eq_ok.mp hstep
    cases hstep
    exact inv_pollNext h hpoll

theorem inv_run (h : Inv hash w) (calls : List Call) : Inv hash (w.run hash toBytes calls) := by
  induction calls generalizing w with
  | nil => exact h
  | cons call calls ih =>
    rw [run]
    split
    · rename_i w' hstep
      exact ih (inv_step h hstep)
    · exact h

/-- What a peer sends as metadata. -/
def forgedInfo : Bytes := ascii "d6:lengthi0e4:name1:a12:piece lengthi1e6:pieces0:e"

/-- The extended message of a peer with metadata of that size. -/
def forgedExtended : ExtendedMessage :=
  .fromBuilder (.withExtendedType { metadataSize := some 50 } .utMetadata (some 3))

/-- The metadata of the torrent of a peer is asked for, requested from that peer and sent by it. -/
def forgedCalls : List Call :=
  [.startSend (.downloadMetainfo localPeer.hash),
    .onUpdate localPeer ⟨some forgedExtended, some forgedExtended⟩, .pollNext [] 0 0,
    .startSend (.receivedUtMetadataMessage localPeer (.data (.new 0 50 forgedInfo))),
    .pollNext [] 0 0]

theorem requested_run (hinv : Inv hash w) (hdone : ∀ d ∈ w.deliveries, d.metainfo.info.infoHash ∈ d.requested)
    {calls : List Call} (hsettled : ∀ before order peer waker after,
      calls = before ++ .pollNext order peer waker :: after → (w.run hash toBytes before).Settled hash) :
    ∀ d ∈ (w.run hash toBytes calls).deliveries, d.metainfo.info.infoHash ∈ d.requested := by
  induction calls generalizing w with
  | nil => exact hdone
  | cons call calls ih =>
    rw [run]
    split
    · rename_i w' hstep
      refine ih (inv_step hinv hstep) ?_ fun before order peer waker after hcalls => ?_
      · cases call with
        | onUpdate info extended =>
          obtain ⟨state, -, hstep⟩ := bind_eq_ok.mp hstep
          cases hstep
          exact hdone
        | pollReady waker =>
          cases hstep
          exact hdone
        | startSend item =>
          obtain ⟨⟨result, state⟩, -, hstep⟩ := bind_eq_ok.mp hstep
          cases hstep
          exact hdone
        | pollNext order peer waker =>
          obtain ⟨⟨result, state⟩, hpoll, hstep⟩ := bind_eq_ok.mp hstep
          cases hstep
          refine forall_mem_append.mpr ⟨hdone, fun d hd => ?_⟩
          rcases result with (⟨completedHash, completed, info⟩ | message) | _
          · cases mem_singleton.mp hd
            exact hinv.requested_of_settled (hsettled [] order peer waker calls rfl)
              ((UtMetadataModule.pollNext_eq_ok hpoll).2 completedHash completed info rfl)
          · cases hd
          · cases hd
      · have hrest := hsettled (call :: before) order peer waker after (by rw [hcalls]; rfl)
        rwa [run, hstep] at hrest
    · exact hdone

/-- All metainfo delivered in a run has a hash that was asked for if, before each poll, the complete downloads
that got data since the last `on_update` have one. In any state a run comes to, this is just what
keeps a poll from delivering anything else, whatever the order of the iteration. -/
theorem delivered_requested_iff (hash : Bytes → ShaHash) (toBytes : Info → Run Empty Bytes)
    (calls : List Call) :
    ((∀ before order peer waker after, calls = before ++ .pollNext order peer waker :: after →
        (new.run hash toBytes before).Settled hash) →
      ∀ d ∈ (new.run hash toBytes calls).deliveries, d.metainfo.info.infoHash ∈ d.requested) ∧
    ((∀ order peer waker completedHash completed info state,
        (new.run hash toBytes calls).state.pollNext hash order peer waker =
          .ok (.ready (.download completedHash completed info), state) →
        info.infoHash ∈ (new.run hash toBytes calls).requested) ↔
      (new.run hash toBytes calls).Settled hash) := by
  have hinv : Inv hash (new.run hash toBytes calls) := inv_run inv_new calls
  refine ⟨requested_run inv_new nofun, fun hpolls h bytes info hdownload _ hinfo => ?_, ?_⟩
  · obtain ⟨completed, state, hpoll, -⟩ := UtMetadataModule.pollNext_of_found 0 0 hdownload hinfo
    rw [← (Info.infoHash_fromBytes hinfo).1]
    exact hpolls _ _ _ _ _ _ _ hpoll
  · intro hsettled order peer waker completedHash completed info state hpoll
    exact hinv.requested_of_settled hsettled
      ((UtMetadataModule.pollNext_eq_ok hpoll).2 completedHash completed info rfl)

/-- With a hash function that gives the metadata another hash than that of the torrent, it is delivered
all the same. -/
theorem forged_delivered :
    ∃ d ∈ (new.run (fun _ => localPeer.pid) (fun _ => .ok []) forgedCalls).deliveries,
      d.bytes = forgedInfo ∧ d.requested = [localPeer.hash] ∧ d.metainfo.info.infoHash ∉ d.requested := by
  decide +kernel

end WatchedModule

end BitTorrent.Select
