import BitTorrent.PeerBitField
import BitTorrent.SelectHonest

/-! What peers are told about our pieces. A peer that connects is sent a bitfield, if there is a piece, and
from then on a message for each piece that is found. What was announced to a peer of a torrent since it
connected are exactly the pieces accepted since the torrent was added. -/

namespace BitTorrent.Select

open Rust Dht Peer Meta List Function Option

open HonestRevealModule.PeersInfo hiding iter

/-- The peer a message goes to. -/
def ORevealMessage.peer : ORevealMessage → PeerInfo
  | .sendBitField info _ => info
  | .sendHave info _ => info

/-- The message announces a piece: its own one, or one that the iterator of its bitfield yields. -/
def ORevealMessage.Tells : ORevealMessage → Nat → Prop
  | .sendBitField _ message, i =>
    ∃ n items, message.iter.nextCalls n = .ok items ∧ ∃ item ∈ items, item.map (·.pieceIndex.toNat) = some i
  | .sendHave _ message, i => message.pieceIndex.toNat = i

variable {i : Nat}

theorem bitAt_eq_true_iff {bitfield : Bytes} : bitAt bitfield i = true ↔ IsSet bitfield i := by
  rw [bitAt, IsSet]
  cases bitfield[i / 8]? with
  | none => simp
  | some byte => simp

theorem tells_sendBitField_iff (info : PeerInfo) {message : BitFieldMessage}
    (hfits : message.bytes.length ≤ 2 ^ 29) :
    (ORevealMessage.sendBitField info message).Tells i ↔ IsSet message.bytes i := by
  have htoNat : ∀ j ∈ message.iter.left, (UInt32.ofNat j).toNat = j := by
    intro j hj
    have hlt := (BitFieldIter.mem_left_new.mp hj).lt
    have hsize : UInt32.size = 2 ^ 32 := rfl
    exact UInt32.toNat_ofNat_of_lt' (by omega)
  rw [← BitFieldIter.mem_left_new]
  constructor
  · rintro ⟨n, items, hcalls, item, hitem, hi⟩
    rw [BitFieldIter.nextCalls_eq hfits] at hcalls
    cases hcalls
    obtain ⟨k, -, rfl⟩ := mem_map.mp hitem
    cases hk : message.iter.left[k]? with
    | none =>
      rw [hk] at hi
      cases hi
    | some j =>
      rw [hk] at hi
      have hj := mem_of_getElem? hk
      rw [map_some, map_some, htoNat j hj] at hi
      cases hi
      exact hj
  · intro hi
    obtain ⟨k, hk⟩ : ∃ k : Nat, message.iter.left[k]? = some i := mem_iff_getElem?.mp hi
    refine ⟨k + 1, _, BitFieldIter.nextCalls_eq hfits (k + 1), _,
      mem_map.mpr ⟨k, mem_range.mpr (Nat.lt_succ_self k), rfl⟩, ?_⟩
    rw [hk, map_some, map_some, htoNat i hi]

/-- A module with the ledger of the calls and the messages that were polled. For each peer, how many
messages there had been and how the ledger was when it last connected. -/
structure RevealHistory where
  module : HonestRevealModule
  ledger : Ledger
  polled : List ORevealMessage
  since : PeerKey → Nat
  ledgerThen : PeerKey → Ledger

namespace RevealHistory

def new : RevealHistory := ⟨.new, ∅, [], fun _ => 0, fun _ => ∅⟩

/-- All messages, those that were yielded and those in the queue. -/
def messages (w : RevealHistory) : List ORevealMessage := w.polled ++ w.module.outQueue

/-- The announcements to a peer since it last connected. -/
def announced (w : RevealHistory) (key : PeerKey) : List ORevealMessage :=
  (w.messages.drop (w.since key)).filter fun o => o.peer.key = key

/-- A peer that connects is noted before the message is handled. -/
def noteConnected (w : RevealHistory) : IRevealMessage → RevealHistory
  | .control (.peerConnected info) =>
    { w with
      since := update w.since info.key w.messages.length
      ledgerThen := update w.ledgerThen info.key w.ledger }
  | _ => w

def step (w : RevealHistory) : RevealCall → Run Empty RevealHistory
  | .startSend order message => do
    let w := w.noteConnected message
    let (result, m) ← w.module.handleMessage order message
    .ok { w with module := m, ledger := w.ledger.afterCall message result }
  | .pollNext waker =>
    match w.module.pollNextMessage waker with
    | (.ready message, m) => .ok { w with module := m, polled := w.polled ++ [message] }
    | (.pending, m) => .ok { w with module := m }

def run (calls : List RevealCall) : Run Empty RevealHistory := calls.foldlM step new

end RevealHistory

/-- The torrents of a call have fewer than `2 ^ 32` pieces. -/
def RevealCall.Small : RevealCall → Prop
  | .startSend _ (.control (.addTorrent metainfo)) => metainfo.info.pieces.length < 2 ^ 32
  | _ => True

/-- What was announced to a peer: the pieces of the torrent, and first a bitfield, if there were pieces then. -/
structure ToldRight (t : Torrent) (foundThen : List Nat) (announced : List ORevealMessage) : Prop where
  exact : ∀ i, (∃ o ∈ announced, o.Tells i) ↔ i ∈ t.found
  first : foundThen ≠ [] → ∃ info message rest, announced = .sendBitField info message :: rest

/-- What the module keeps of the torrent `hash`, and what its peers were told. -/
structure TorrentTold (w : RevealHistory) (hash : InfoHash) (p : PeersInfo) (t : Torrent) : Prop where
  tracks : Tracks p t
  small : t.numPieces < 2 ^ 32
  own : ∀ key peer, p.peers.lookup key = some peer → peer.key = key ∧ key.2.2 = hash
  told : ∀ key ∈ p.peers,
    ToldRight t (((w.ledgerThen key).lookup hash).elim [] Torrent.found) (w.announced key)

/-- The invariant of runs. -/
structure RevealHistory.Sound (w : RevealHistory) : Prop where
  outBytes : w.module.outBytes = []
  since_le : ∀ key, w.since key ≤ w.messages.length
  torrents : ∀ hash, Option.Rel (TorrentTold w hash) (w.module.torrents.lookup hash) (w.ledger.lookup hash)

namespace RevealHistory

variable {w w' : RevealHistory} {key : PeerKey} {pushed : List ORevealMessage}

theorem announced_of_pushed (hmessages : w'.messages = w.messages ++ pushed) (hsince : w'.since key = w.since key)
    (hle : w.since key ≤ w.messages.length) :
    w'.announced key = w.announced key ++ pushed.filter fun o => o.peer.key = key := by
  rw [announced, announced, hmessages, hsince, drop_append_of_le_length hle, filter_append]

theorem announced_of_connected (hmessages : w'.messages = w.messages ++ pushed)
    (hsince : w'.since key = w.messages.length) :
    w'.announced key = pushed.filter fun o => o.peer.key = key := by
  rw [announced, hmessages, hsince, drop_left]

theorem announced_of_other (hmessages : w'.messages = w.messages ++ pushed) (hsince : w'.since key = w.since key)
    (hle : w.since key ≤ w.messages.length) (hpushed : ∀ o ∈ pushed, o.peer.key ≠ key) :
    w'.announced key = w.announced key := by
  have hnone : pushed.filter (fun o => o.peer.key = key) = [] :=
    filter_eq_nil_iff.mpr fun o ho => (by simpa using hpushed o ho)
  rw [announced_of_pushed hmessages hsince hle, hnone, append_nil]

end RevealHistory

variable {p : PeersInfo} {t : Torrent} {hash : InfoHash}

theorem TorrentTold.carry {w w' : RevealHistory}
    {pushed : List ORevealMessage} (h : TorrentTold w hash p t) (hw : w.Sound)
    (hmessages : w'.messages = w.messages ++ pushed) (hpushed : ∀ o ∈ pushed, o.peer.hash ≠ hash)
    (hsame : ∀ key : PeerKey, key.2.2 = hash →
      w'.since key = w.since key ∧ w'.ledgerThen key = w.ledgerThen key) : TorrentTold w' hash p t := by
  refine ⟨h.tracks, h.small, h.own, fun key hkey => ?_⟩
  obtain ⟨peer, hpeer⟩ := isSome_iff_exists.mp (AList.lookup_isSome.mpr hkey)
  have hhash := (h.own key peer hpeer).2
  obtain ⟨hsince, hledger⟩ := hsame key hhash
  rw [RevealHistory.announced_of_other hmessages hsince (hw.since_le key), hledger]
  · exact h.told key hkey
  · rintro o ho rfl
    exact hpushed o ho hhash

namespace RevealHistory.Sound

variable {w : RevealHistory}

theorem new : RevealHistory.new.Sound := ⟨rfl, fun _ => Nat.le_refl 0, fun _ => .none⟩

theorem exists_told (h : w.Sound) (hp : w.module.torrents.lookup hash = some p) :
    ∃ t, w.ledger.lookup hash = some t ∧ TorrentTold w hash p t := by
  have hrel := h.torrents hash
  rw [hp] at hrel
  cases ht : w.ledger.lookup hash with
  | none =>
    rw [ht] at hrel
    cases hrel
  | some t =>
    rw [ht] at hrel
    cases hrel with
    | some htold => exact ⟨t, rfl, htold⟩

/-- What is said of each torrent carries over to a history, if it carries over for the torrents there are. -/
theorem rel_map (h : w.Sound) {w' : RevealHistory}
    (hcarry : ∀ p t, w.module.torrents.lookup hash = some p → TorrentTold w hash p t → TorrentTold w' hash p t) :
    Option.Rel (TorrentTold w' hash) (w.module.torrents.lookup hash) (w.ledger.lookup hash) := by
  cases hp : w.module.torrents.lookup hash with
  | none =>
    have hrel := h.torrents hash
    rw [hp] at hrel
    cases ht : w.ledger.lookup hash with
    | none => exact .none
    | some t =>
      rw [ht] at hrel
      cases hrel
  | some p =>
    obtain ⟨t, ht, htold⟩ := h.exists_told hp
    rw [ht]
    exact .some (hcarry p t hp htold)

theorem of_quiet (h : w.Sound) {m : HonestRevealModule} (htorrents : m.torrents = w.module.torrents)
    (hqueue : m.outQueue = w.module.outQueue) (hbytes : m.outBytes = []) : { w with module := m }.Sound := by
  have hmessages : { w with module := m }.messages = w.messages ++ [] := by
    rw [messages, messages, append_nil, hqueue]
  refine ⟨hbytes, fun key => ?_, fun hash => ?_⟩
  · rw [hmessages, append_nil]
    exact h.since_le key
  · show Option.Rel _ (m.torrents.lookup hash) _
    rw [htorrents]
    exact h.rel_map fun p t _ htold => htold.carry h hmessages (fun o ho => (by cases ho)) fun key _ => ⟨rfl, rfl⟩

theorem addTorrent (h : w.Sound) {metainfo : Metainfo} (hsmall : metainfo.info.pieces.length < 2 ^ 32) :
    { w with
      module := (w.module.addTorrent metainfo).2
      ledger := w.ledger.afterCall (.control (.addTorrent metainfo)) (w.module.addTorrent metainfo).1 }.Sound := by
  unfold HonestRevealModule.addTorrent
  simp only
  split
  · exact h.of_quiet rfl rfl h.outBytes
  · refine ⟨h.outBytes, h.since_le, fun hash => ?_⟩
    simp only [Ledger.afterCall, Ledger.record, HashMap.lookup_insert_eq]
    split
    · exact .some ⟨Tracks.new _, hsmall, fun _ _ h => (by cases h), fun _ h => (by cases h)⟩
    · exact h.rel_map fun p t _ htold => ⟨htold.tracks, htold.small, htold.own, htold.told⟩

theorem removeTorrent (h : w.Sound) (metainfo : Metainfo) :
    { w with
      module := (w.module.removeTorrent metainfo).2
      ledger := w.ledger.afterCall (.control (.removeTorrent metainfo)) (w.module.removeTorrent metainfo).1 }.Sound := by
  unfold HonestRevealModule.removeTorrent
  simp only
  split
  · exact h.of_quiet rfl rfl h.outBytes
  · refine ⟨h.outBytes, h.since_le, fun hash => ?_⟩
    simp only [Ledger.afterCall, Ledger.record, HashMap.lookup_erase_eq]
    split
    · exact .none
    · exact h.rel_map fun p t _ htold => ⟨htold.tracks, htold.small, htold.own, htold.told⟩

theorem removePeer (h : w.Sound) (info : PeerInfo) :
    { w with
      module := (w.module.removePeer info).2
      ledger := w.ledger.afterCall (.control (.peerDisconnected info)) (w.module.removePeer info).1 }.Sound := by
  unfold HonestRevealModule.removePeer
  simp only
  split
  · exact h.of_quiet rfl rfl h.outBytes
  · rename_i p hp
    obtain ⟨t, ht, htold⟩ := h.exists_told hp
    refine ⟨h.outBytes, h.since_le, fun hash => ?_⟩
    simp only [Ledger.afterCall, Ledger.record, HashMap.lookup_insert_eq]
    split
    · rename_i heq
      rw [heq, ht]
      refine .some ⟨htold.tracks.peers _, htold.small, fun key peer hpeer => ?_, fun key hkey => ?_⟩
      · rw [HashMap.lookup_erase_eq] at hpeer
        split at hpeer
        · cases hpeer
        · exact htold.own key peer hpeer
      · exact htold.told key (AList.mem_erase.mp hkey).2
    · exact h.rel_map fun p t _ htold => ⟨htold.tracks, htold.small, htold.own, htold.told⟩

theorem toldRight_connected (htracks : Tracks p t) (hsmall : t.numPieces < 2 ^ 32) (info : PeerInfo) :
    ToldRight t t.found
      (if p.status.isEmpty then [] else [.sendBitField info ⟨p.status.storage.map reversedByte⟩]) := by
  split
  · rename_i hempty
    have hnone : ∀ i, i ∉ t.found := by
      intro i hi
      have hcontains := (htracks.contains i).mpr hi
      rw [(BitSet.isEmpty_iff _).mp hempty i] at hcontains
      cases hcontains
    refine ⟨fun i => ⟨fun ⟨o, ho, _⟩ => (by cases ho), fun hi => absurd hi (hnone i)⟩, fun hne => ?_⟩
    exact absurd (eq_nil_iff_forall_not_mem.mpr hnone) hne
  · have hfits : (p.status.storage.map reversedByte).length ≤ 2 ^ 29 := by
      have hle := htracks.length_le
      rw [length_map]
      omega
    refine ⟨fun i => ?_, fun _ => ⟨_, _, _, rfl⟩⟩
    rw [← htracks.bitAt_eq_true_iff i, bitAt_eq_true_iff, ← tells_sendBitField_iff info hfits]
    simp only [mem_singleton, exists_eq_left]

theorem lookup_insertPeer (p : PeersInfo) (info : PeerInfo) (key : PeerKey) :
    (insertPeer p info).peers.lookup key =
      if key = info.key then some ((p.peers.lookup key).getD info) else p.peers.lookup key := by
  unfold insertPeer
  split
  · rename_i peer hpeer
    split
    · rename_i heq
      rw [heq, hpeer]
      rfl
    · rfl
  · rename_i hnone
    rw [HashMap.lookup_insert_eq]
    split
    · rename_i heq
      rw [heq, hnone]
      rfl
    · rfl

theorem status_insertPeer (p : PeersInfo) (info : PeerInfo) :
    (insertPeer p info).status = p.status := by
  unfold insertPeer
  split <;> rfl

theorem tracks_insertPeer (h : Tracks p t) (info : PeerInfo) :
    Tracks (insertPeer p info) t := by
  unfold insertPeer
  split
  · exact h
  · exact h.peers _

theorem told_connected (h : w.Sound) {info : PeerInfo}
    (ht : w.ledger.lookup info.hash = some t) (htold : TorrentTold w info.hash p t) {w' : RevealHistory}
    (hmessages : w'.messages = w.messages ++
      if p.status.isEmpty then [] else [.sendBitField info ⟨p.status.storage.map reversedByte⟩])
    (hsince : w'.since = update w.since info.key w.messages.length)
    (hledger : w'.ledgerThen = update w.ledgerThen info.key w.ledger) :
    TorrentTold w' info.hash (insertPeer p info) t := by
  have haddressed : ∀ o ∈ (if p.status.isEmpty then []
      else [ORevealMessage.sendBitField info ⟨p.status.storage.map reversedByte⟩]), o.peer.key = info.key := by
    intro o ho
    split at ho
    · cases ho
    · rw [mem_singleton.mp ho]
      rfl
  refine ⟨tracks_insertPeer htold.tracks info, htold.small, fun key peer hpeer => ?_, fun key hkey => ?_⟩
  · rw [lookup_insertPeer] at hpeer
    split at hpeer
    · rename_i heq
      cases hlookup : p.peers.lookup key with
      | some old =>
        rw [hlookup] at hpeer
        cases hpeer
        exact htold.own key _ hlookup
      | none =>
        rw [hlookup] at hpeer
        cases hpeer
        exact ⟨heq.symm, by rw [heq]; rfl⟩
    · exact htold.own key peer hpeer
  · by_cases heq : key = info.key
    · subst heq
      rw [announced_of_connected hmessages (by rw [hsince, update_self]), hledger, update_self, ht,
        filter_eq_self.mpr fun o ho => (by simpa using haddressed o ho)]
      exact toldRight_connected htold.tracks htold.small info
    · have hmem : key ∈ p.peers := by
        rw [← AList.lookup_isSome, lookup_insertPeer, if_neg heq] at hkey
        exact AList.lookup_isSome.mp hkey
      rw [announced_of_other hmessages (by rw [hsince, update_of_ne heq]) (h.since_le key)
        (fun o ho hto => heq (hto.symm.trans (haddressed o ho))), hledger, update_of_ne heq]
      exact htold.told key hmem

theorem addPeer (h : w.Sound) (info : PeerInfo) :
    { w.noteConnected (.control (.peerConnected info)) with
      module := (w.module.addPeer info).2
      ledger := w.ledger.afterCall (.control (.peerConnected info)) (w.module.addPeer info).1 }.Sound := by
  have hother : ∀ {hash : InfoHash} {key : PeerKey}, hash ≠ info.hash → key.2.2 = hash → key ≠ info.key := by
    rintro hash key hne hkey rfl
    exact hne hkey.symm
  have hsince_le : ∀ (pushed : List ORevealMessage) (key : PeerKey),
      update w.since info.key w.messages.length key ≤ (w.messages ++ pushed).length := by
    intro pushed key
    rw [length_append]
    by_cases heq : key = info.key
    · rw [heq, update_self]
      omega
    · rw [update_of_ne heq]
      exact (h.since_le key).trans (Nat.le_add_right _ _)
  cases hp : w.module.torrents.lookup info.hash with
  | none =>
    have hcall : w.module.addPeer info = (.error (.invalidMetainfoNotExists info.hash), w.module) := by
      rw [HonestRevealModule.addPeer]
      simp only [hp]
    rw [hcall]
    have hmessages : w.messages = w.messages ++ [] := (append_nil _).symm
    refine ⟨h.outBytes, fun key => ?_, fun hash => ?_⟩
    · have hle := hsince_le [] key
      rwa [← hmessages] at hle
    · refine h.rel_map fun p t hlookup htold => htold.carry h hmessages (fun o ho => (by cases ho)) fun key hkey => ?_
      have hne : hash ≠ info.hash := by
        rintro rfl
        rw [hp] at hlookup
        cases hlookup
      exact ⟨update_of_ne (hother hne hkey) _ _, update_of_ne (hother hne hkey) _ _⟩
  | some p =>
    obtain ⟨t, ht, htold⟩ := h.exists_told hp
    obtain ⟨m, hcall, htorrents, hbytes, hqueue⟩ : ∃ m, w.module.addPeer info = (.ok (), m) ∧
        m.torrents = w.module.torrents.insert info.hash (insertPeer p info) ∧ m.outBytes = [] ∧
        m.outQueue = w.module.outQueue ++
          if p.status.isEmpty then [] else [.sendBitField info ⟨p.status.storage.map reversedByte⟩] := by
      rw [HonestRevealModule.addPeer]
      simp only [hp, status_insertPeer]
      split
      · exact ⟨_, rfl, rfl, h.outBytes, (append_nil _).symm⟩
      · refine ⟨_, rfl, by simp [HonestRevealModule.push], by simp [HonestRevealModule.push], ?_⟩
        rw [insertReversedBits_eq, h.outBytes, nil_append]
        simp [HonestRevealModule.push]
    rw [hcall]
    have hmessages : w.polled ++ m.outQueue = w.messages ++
        if p.status.isEmpty then [] else [.sendBitField info ⟨p.status.storage.map reversedByte⟩] := by
      rw [messages, hqueue, append_assoc]
    refine ⟨hbytes, fun key => ?_, fun hash => ?_⟩
    · show _ ≤ (w.polled ++ m.outQueue).length
      rw [hmessages]
      exact hsince_le _ key
    · show Option.Rel _ (m.torrents.lookup hash) (w.ledger.lookup hash)
      rw [htorrents, HashMap.lookup_insert_eq]
      split
      · rename_i heq
        subst heq
        rw [ht]
        exact .some (h.told_connected ht htold hmessages rfl rfl)
      · rename_i hne
        refine h.rel_map fun p' t' _ htold' => htold'.carry h hmessages (fun o ho hhash => ?_) fun key hkey =>
          ⟨update_of_ne (hother hne hkey) _ _, update_of_ne (hother hne hkey) _ _⟩
        split at ho
        · cases ho
        · rw [mem_singleton.mp ho] at hhash
          exact hne hhash.symm

variable {index : Nat}

theorem exists_sendHaves (hindex : index < 2 ^ 32) (peers : List PeerInfo) (m : HonestRevealModule) :
    ∃ m', m.sendHaves index peers = .ok m' := by
  induction peers generalizing m with
  | nil => exact ⟨m, rfl⟩
  | cons peer peers ih =>
    obtain ⟨m', hm'⟩ := ih (m.push (.sendHave peer ⟨UInt32.ofNat index⟩))
    refine ⟨m', ?_⟩
    rw [HonestRevealModule.sendHaves, foldlM_cons]
    refine bind_eq_ok.mpr ⟨m.push (.sendHave peer ⟨UInt32.ofNat index⟩), ?_, hm'⟩
    rw [BitFieldIter.unwrapU32_of_lt hindex]
    rfl

theorem mem_iter {order : Arrangement PeerKey} {peer : PeerInfo} :
    peer ∈ HonestRevealModule.PeersInfo.iter p order ↔ ∃ key, p.peers.lookup key = some peer := by
  rw [HonestRevealModule.PeersInfo.iter, mem_filterMap]
  constructor
  · rintro ⟨key, -, hkey⟩
    exact ⟨key, hkey⟩
  · rintro ⟨key, hkey⟩
    refine ⟨key, (order.perm _).mem_iff.mpr ?_, hkey⟩
    exact AList.mem_keys.mp (AList.lookup_isSome.mp (by rw [hkey]; rfl))

theorem toldRight_found {foundThen : List Nat} {announced haves : List ORevealMessage}
    (h : ToldRight t foundThen announced) (hhaves : haves ≠ [])
    (htells : ∀ o ∈ haves, ∀ i, o.Tells i ↔ i = index) :
    ToldRight { t with found := t.found ++ [index] } foundThen (announced ++ haves) := by
  obtain ⟨have₀, hhave₀⟩ := exists_mem_of_ne_nil haves hhaves
  refine ⟨fun i => ?_, fun hne => ?_⟩
  · rw [mem_append, mem_singleton, ← h.exact i]
    constructor
    · rintro ⟨o, ho, hi⟩
      rcases mem_append.mp ho with ho | ho
      · exact Or.inl ⟨o, ho, hi⟩
      · exact Or.inr ((htells o ho i).mp hi)
    · rintro (⟨o, ho, hi⟩ | hi)
      · exact ⟨o, mem_append_left _ ho, hi⟩
      · exact ⟨have₀, mem_append_right _ hhave₀, (htells have₀ hhave₀ i).mpr hi⟩
  · obtain ⟨info, message, rest, heq⟩ := h.first hne
    exact ⟨info, message, rest ++ haves, by rw [heq]; rfl⟩

theorem insertPiece (h : w.Sound) (order : Arrangement PeerKey) (hash : InfoHash) (index : UInt64) :
    ∃ result m, w.module.insertPiece order hash index = .ok (result, m) ∧
      { w with module := m, ledger := w.ledger.afterCall (.foundGoodPiece hash index) result }.Sound := by
  unfold HonestRevealModule.insertPiece
  cases hp : w.module.torrents.lookup hash with
  | none => exact ⟨_, _, rfl, h.of_quiet rfl rfl h.outBytes⟩
  | some p =>
    obtain ⟨t, ht, htold⟩ := h.exists_told hp
    simp only
    split
    · exact ⟨_, _, rfl, h.of_quiet rfl rfl h.outBytes⟩
    · rename_i hindex
      have hlt : index.toNat < t.numPieces := by
        rw [← htold.tracks.numPieces]
        omega
      have hword : index.toNat < 2 ^ 32 := hlt.trans htold.small
      obtain ⟨m, hm⟩ := exists_sendHaves hword (HonestRevealModule.PeersInfo.iter p order) w.module
      obtain ⟨htorrents, hbytes, hqueue⟩ := HonestRevealModule.sendHaves_eq_ok hm
      rw [hm]
      refine ⟨_, _, rfl, ?_⟩
      have hmessages : w.polled ++ m.outQueue = w.messages ++ (HonestRevealModule.PeersInfo.iter p order).map
          fun peer => .sendHave peer ⟨UInt32.ofNat index.toNat⟩ := by
        rw [hqueue, messages, append_assoc]
      refine ⟨hbytes.trans h.outBytes, fun key => ?_, fun hash' => ?_⟩
      · show w.since key ≤ (w.polled ++ m.outQueue).length
        rw [hmessages, length_append]
        exact (h.since_le key).trans (Nat.le_add_right _ _)
      · simp only [Ledger.afterCall, Ledger.record, ht, htorrents, HashMap.lookup_insert_eq]
        split
        · rename_i heq
          subst heq
          refine .some ⟨htold.tracks.insertPiece hlt, htold.small, htold.own, fun key hkey => ?_⟩
          obtain ⟨peer, hpeer⟩ := isSome_iff_exists.mp (AList.lookup_isSome.mpr hkey)
          have hannounced : ∀ w' : RevealHistory, w'.messages = w.polled ++ m.outQueue → w'.since = w.since →
              w'.announced key = w.announced key ++ ((HonestRevealModule.PeersInfo.iter p order).map
                fun peer => .sendHave peer ⟨UInt32.ofNat index.toNat⟩).filter fun o => o.peer.key = key :=
            fun w' hm hs => announced_of_pushed (hm.trans hmessages) (congrFun hs key) (h.since_le key)
          rw [hannounced]
          rotate_left
          · rfl
          · rfl
          refine toldRight_found (htold.told key hkey) (ne_nil_of_mem (mem_filter.mpr
            ⟨mem_map_of_mem (mem_iter.mpr ⟨key, hpeer⟩), ?_⟩)) fun o ho i => ?_
          · exact decide_eq_true (htold.own key peer hpeer).1
          · obtain ⟨peer', -, rfl⟩ := mem_map.mp (mem_filter.mp ho).1
            have hsize : UInt32.size = 2 ^ 32 := rfl
            rw [ORevealMessage.Tells, UInt32.toNat_ofNat_of_lt' (by omega)]
            exact eq_comm
        · rename_i hne
          refine h.rel_map fun p' t' _ htold' => htold'.carry h hmessages (fun o ho hhash => ?_)
            fun key _ => ⟨rfl, rfl⟩
          obtain ⟨peer, hpeer, rfl⟩ := mem_map.mp ho
          obtain ⟨key, hkey⟩ := mem_iter.mp hpeer
          obtain ⟨hown, hhash'⟩ := htold.own key peer hkey
          apply hne
          rw [← hhash, ← hhash', ← hown]
          rfl

theorem pollNext (h : w.Sound) (waker : Waker) : ∃ w', w.step (.pollNext waker) = .ok w' ∧ w'.Sound := by
  rw [RevealHistory.step, HonestRevealModule.pollNextMessage]
  cases hqueue : w.module.outQueue with
  | nil => exact ⟨_, rfl, h.of_quiet rfl hqueue.symm h.outBytes⟩
  | cons message outQueue =>
    refine ⟨_, rfl, ?_⟩
    have hmessages : (w.polled ++ [message]) ++ outQueue = w.messages ++ [] := by
      rw [messages, hqueue, append_nil, append_assoc]
      rfl
    refine ⟨h.outBytes, fun key => ?_, fun hash => ?_⟩
    · show w.since key ≤ ((w.polled ++ [message]) ++ outQueue).length
      rw [hmessages, append_nil]
      exact h.since_le key
    · exact h.rel_map fun p t _ htold => htold.carry h hmessages (fun o ho => (by cases ho)) fun key _ => ⟨rfl, rfl⟩

theorem exists_step (h : w.Sound) {call : RevealCall} (hsmall : call.Small) :
    ∃ w', w.step call = .ok w' ∧ w'.Sound := by
  cases call with
  | pollNext waker => exact h.pollNext waker
  | startSend order message =>
    cases message with
    | control message =>
      cases message with
      | addTorrent metainfo => exact ⟨_, rfl, h.addTorrent hsmall⟩
      | removeTorrent metainfo => exact ⟨_, rfl, h.removeTorrent metainfo⟩
      | peerConnected info => exact ⟨_, rfl, h.addPeer info⟩
      | peerDisconnected info => exact ⟨_, rfl, h.removePeer info⟩
      | tick duration => exact ⟨_, rfl, h.of_quiet rfl rfl h.outBytes⟩
    | foundGoodPiece hash index =>
      obtain ⟨result, m, hm, hsound⟩ := h.insertPiece order hash index
      refine ⟨_, ?_, hsound⟩
      show (w.module.insertPiece order hash index >>= _) = _
      rw [hm]
      rfl
    | receivedBitField info message => exact ⟨_, rfl, h.of_quiet rfl rfl h.outBytes⟩
    | receivedHave info message => exact ⟨_, rfl, h.of_quiet rfl rfl h.outBytes⟩

theorem exists_foldlM (h : w.Sound) {calls : List RevealCall} (hsmall : ∀ call ∈ calls, call.Small) :
    ∃ w', calls.foldlM RevealHistory.step w = .ok w' ∧ w'.Sound := by
  induction calls generalizing w with
  | nil => exact ⟨w, rfl, h⟩
  | cons call calls ih =>
    obtain ⟨w₁, hstep, h₁⟩ := h.exists_step (hsmall call mem_cons_self)
    obtain ⟨w', hrest, hsound⟩ := ih h₁ fun call' hcall' => hsmall call' (mem_cons_of_mem _ hcall')
    exact ⟨w', bind_eq_ok.mpr ⟨w₁, hstep, hrest⟩, hsound⟩

end RevealHistory.Sound

/-- In every run each peer of a torrent was told exactly the pieces accepted since the torrent was added, and
first of all with a bitfield if there were some when it connected. -/
theorem RevealHistory.peers_told_exactly (calls : List RevealCall) (hsmall : ∀ call ∈ calls, call.Small) :
    ∃ w, run calls = .ok w ∧ ∀ hash p, w.module.torrents.lookup hash = some p →
      ∃ t, w.ledger.lookup hash = some t ∧ ∀ key ∈ p.peers,
        (∀ i, (∃ o ∈ w.announced key, o.Tells i) ↔ i ∈ t.found) ∧
        ∀ t₀, (w.ledgerThen key).lookup hash = some t₀ → t₀.found ≠ [] →
          ∃ info message rest, w.announced key = .sendBitField info message :: rest := by
  obtain ⟨w, hrun, hsound⟩ := Sound.new.exists_foldlM hsmall
  refine ⟨w, hrun, fun hash p hp => ?_⟩
  obtain ⟨t, ht, htold⟩ := hsound.exists_told hp
  refine ⟨t, ht, fun key hkey => ⟨(htold.told key hkey).exact, fun t₀ ht₀ hne => (htold.told key hkey).first ?_⟩⟩
  rw [ht₀]
  exact hne

/-- The ninth piece is found, and a peer that comes is told so. -/
theorem RevealHistory.peers_told_exactly_ninePieces :
    ∃ w p, run (WatchedReveal.foundThenPeer 8) = .ok w ∧ w.module.torrents.lookup localPeer.hash = some p ∧
      localPeer.key ∈ p.peers ∧ (∃ o ∈ w.announced localPeer.key, o.Tells 8) ∧
      ∃ info message rest, w.announced localPeer.key = .sendBitField info message :: rest := by
  obtain ⟨w, hrun, htold⟩ := peers_told_exactly (WatchedReveal.foundThenPeer 8) fun call hcall => by
    simp only [WatchedReveal.foundThenPeer, mem_cons, not_mem_nil, or_false] at hcall
    rcases hcall with rfl | rfl | rfl
    · show 9 < 2 ^ 32
      decide
    · trivial
    · trivial
  obtain rfl : _ = w := Except.ok.inj ((show run (WatchedReveal.foundThenPeer 8) = .ok _ from rfl).symm.trans hrun)
  obtain ⟨t, ht, hpeers⟩ := htold localPeer.hash _ rfl
  cases ht
  obtain ⟨hexact, hfirst⟩ := hpeers localPeer.key (by decide)
  exact ⟨_, _, rfl, rfl, by decide, (hexact 8).mpr (by decide), hfirst _ rfl (by decide)⟩

end BitTorrent.Select
