import BitTorrent.DhtHandlerSound
import BitTorrent.DhtTokenLife

/-! Announces over whole runs. A contact is only stored for an announce with a token that validates for
the address the announce came from. If hashes of the buffers that occur do not collide, and if whoever
announces presents a token this node once returned to somebody, that somebody has the same address. -/

namespace BitTorrent.Dht

open Rust Bencode Relation List RoutingTable

/-! ### Tokens and what they are made of -/

/-- The buffer that is hashed for a token. -/
def tokenBuffer (addr : IpAddr) (secret : UInt32) : Bytes :=
  match addr with
  | .v4 v4 => ipv4ToBytesBe v4 ++ fourBytesToArray secret
  | .v6 v6 => ipv6ToBytesBe v6 ++ fourBytesToArray secret

theorem token_generateTokenFromAddr (hash : Bytes → ShaHash) (addr : IpAddr) (secret : UInt32) :
    (generateTokenFromAddr hash addr secret).token = (hash (tokenBuffer addr secret)).hash := by
  cases addr <;> rfl

theorem eq_of_hash_eq {x y : ShaHash} (h : x.hash = y.hash) : x = y := by
  cases x
  cases y
  cases h
  rfl

theorem addr_eq_of_tokenBuffer_eq {addr addr' : IpAddr} {secret secret' : UInt32}
    (h : tokenBuffer addr secret = tokenBuffer addr' secret') : addr = addr' := by
  have hlen : ∀ x : UInt32, (fourBytesToArray x).length = 4 := fun x => length_toBytesBe 4 _
  have hv4 : ∀ v4 : Ipv4Addr, (ipv4ToBytesBe v4).length = 4 := fun v4 => by simp [ipv4ToBytesBe]
  have hv6 : ∀ v6 : Ipv6Addr, (ipv6ToBytesBe v6).length = 16 := fun v6 => by simp [ipv6ToBytesBe]
  have hlength := congrArg length h
  cases addr with
  | v4 v4 =>
    cases addr' with
    | v4 v4' =>
      have hbytes := (append_inj h (by rw [hv4, hv4])).1
      exact congrArg IpAddr.v4 (Vector.toList_inj.mp hbytes)
    | v6 v6' =>
      simp only [tokenBuffer, length_append, hlen, hv4, hv6] at hlength
      omega
  | v6 v6 =>
    cases addr' with
    | v4 v4' =>
      simp only [tokenBuffer, length_append, hlen, hv4, hv6] at hlength
      omega
    | v6 v6' =>
      have hbytes := (append_inj h (by rw [hv6, hv6])).1
      rw [ipv6ToBytesBe_eq, ipv6ToBytesBe_eq] at hbytes
      exact congrArg IpAddr.v6 (Vector.toList_inj.mp hbytes)

/-- Both secrets of the store are among the values drawn. -/
def TokenStore.SecretsDrawn (value : Nat → UInt32) (state : TokenStore × Random) : Prop :=
  state.2.value = value ∧ ∀ secret, state.1.Accepts secret → ∃ k < state.2.drawn, value k = secret

theorem TokenStore.secretsDrawn_new (value : Nat → UInt32) (now : Time) :
    SecretsDrawn value (new ⟨value, 0⟩ now) := by
  refine ⟨rfl, fun secret haccepts => ?_⟩
  rcases haccepts with rfl | rfl
  · exact ⟨0, Nat.zero_lt_two, rfl⟩
  · exact ⟨1, Nat.one_lt_two, rfl⟩

theorem TokenStore.SecretsDrawn.refreshCheck {value : Nat → UInt32} {state : TokenStore × Random}
    (h : SecretsDrawn value state) (now : Time) : SecretsDrawn value (state.1.refreshCheck state.2 now) := by
  obtain ⟨rfl, hdrawn⟩ := h
  rw [TokenStore.refreshCheck]
  split
  · exact ⟨rfl, hdrawn⟩
  · refine ⟨rfl, fun secret haccepts => ?_⟩
    rcases haccepts with rfl | hlast
    · exact ⟨state.2.drawn, Nat.lt_succ_self _, rfl⟩
    · obtain ⟨k, hk, hvalue⟩ := hdrawn secret (Or.inl hlast)
      exact ⟨k, Nat.lt_succ_of_lt hk, hvalue⟩
  · refine ⟨rfl, fun secret haccepts => ?_⟩
    rcases haccepts with rfl | rfl
    · exact ⟨state.2.drawn + 1, Nat.lt_succ_self _, rfl⟩
    · exact ⟨state.2.drawn, Nat.lt_add_of_pos_right Nat.zero_lt_two, rfl⟩

namespace DhtHandler

variable {hash : Bytes → ShaHash} {h h' : DhtHandler} {addr : SocketAddr}

/-- The node returned the token in an answer to the address. -/
def Returned (h : DhtHandler) (token : Bytes) (addr : SocketAddr) : Prop :=
  ∃ g : GetPeersResponse, (.response (.getPeers g), addr) ∈ h.shared.sent ∧ g.token = some token

/-! ### What a step does to tokens and contacts -/

/-- No token is returned, and tokens and contacts are left alone. -/
structure Reserved (h h' : DhtHandler) : Prop where
  stores : h'.activeStores = h.activeStores
  tokens : h'.tokenStore = h.tokenStore
  random : h'.random = h.random
  returned : ∀ token addr, h'.Returned token addr → h.Returned token addr

theorem Reserved.refl (h : DhtHandler) : Reserved h h := ⟨rfl, rfl, rfl, fun _ _ hreturned => hreturned⟩

theorem Reserved.trans {h'' : DhtHandler} (hfirst : Reserved h h') (hrest : Reserved h' h'') :
    Reserved h h'' :=
  ⟨hrest.stores.trans hfirst.stores, hrest.tokens.trans hfirst.tokens,
    hrest.random.trans hfirst.random, fun token addr hreturned =>
      hfirst.returned token addr (hrest.returned token addr hreturned)⟩

variable {s : Shared}

theorem returned_of_works (hworks : h.shared.Works s) {token : Bytes}
    (hreturned : Returned { h with shared := s } token addr) : h.Returned token addr := by
  obtain ⟨g, hsent, htoken⟩ := hreturned
  rcases hworks.sent _ hsent with hsent | ⟨request, hrequest⟩
  · exact ⟨g, hsent, htoken⟩
  · cases hrequest

theorem reserved_of_works (hworks : h.shared.Works s) : Reserved h { h with shared := s } :=
  ⟨rfl, rfl, rfl, fun _ _ hreturned => returned_of_works hworks hreturned⟩

theorem reserved_of_does (hdoes : Does (fun _ _ => False) h h') : Reserved h h' := by
  cases hdoes with
  | add hadd =>
    obtain ⟨table, -, rfl⟩ := addNewNode_eq hadd
    exact { Reserved.refl h with }
  | request hasked => exact hasked.elim
  | act _ hkeeps => exact { reserved_of_works hkeeps.works with }
  | finish attempts' _ hkeeps => exact { reserved_of_works hkeeps.works with }
  | start actionId hbegins => exact { reserved_of_works hbegins.works with }
  | fail hkeeps => exact { reserved_of_works hkeeps.works with }
  | fire actionId index =>
    rcases h.fire_cases actionId index with heq | ⟨action, check, -, -, heq⟩
    all_goals
      rw [heq]
      exact { Reserved.refl h with }
  | _ => exact { Reserved.refl h with }

/-- What the answer to a request does: it may refresh the secrets, return a token to the sender, or
store the contact of an announce with a token that is accepted. -/
structure Serves (hash : Bytes → ShaHash) (request : RequestType) (addr : SocketAddr)
    (h h' : DhtHandler) : Prop where
  tokens : (h'.tokenStore, h'.random) = (h.tokenStore, h.random) ∨
    (h'.tokenStore, h'.random) = h.tokenStore.refreshCheck h.random h.shared.now
  returned : ∀ token addr', h'.Returned token addr' → h.Returned token addr' ∨
    addr' = addr ∧ ∃ secret, h'.tokenStore.Accepts secret ∧
      token = (generateTokenFromAddr hash (.fromSocketAddr addr) secret).token
  contacts : ∀ infoHash contact, contact ∈ h'.activeStores.contacts infoHash →
    contact ∈ h.activeStores.contacts infoHash ∨ ∃ a, request = .announcePeer a ∧
      infoHash = a.infoHash ∧ contact = connectAddr addr a.port ∧
      ∃ secret, h'.tokenStore.Accepts secret ∧
        a.token = (generateTokenFromAddr hash (.fromSocketAddr addr) secret).token

variable {request : RequestType}

theorem Reserved.serves (hreserved : Reserved h h') : Serves hash request addr h h' := by
  refine ⟨Or.inl ?_, fun token addr' hreturned => ?_, fun infoHash contact hcontact => ?_⟩
  · rw [hreserved.tokens, hreserved.random]
  · exact Or.inl (hreserved.returned token addr' hreturned)
  · rw [hreserved.stores] at hcontact
    exact Or.inl hcontact

variable {h₁ : DhtHandler}

theorem Serves.reserved (hserves : Serves hash request addr h h₁)
    (hreserved : Reserved h₁ h') : Serves hash request addr h h' := by
  refine ⟨?_, fun token addr' hreturned => ?_, fun infoHash contact hcontact => ?_⟩
  · rw [hreserved.tokens, hreserved.random]
    exact hserves.tokens
  · rw [hreserved.tokens]
    exact hserves.returned token addr' (hreserved.returned token addr' hreturned)
  · rw [hreserved.stores] at hcontact
    rw [hreserved.tokens]
    exact hserves.contacts infoHash contact hcontact

theorem reserved_markRemote (h : DhtHandler) (nodeId : NodeId) (addr : SocketAddr) :
    Reserved h (h.markRemote nodeId addr) := by
  unfold markRemote Shared.remoteRequestFrom
  split
  · unfold Shared.remoteRequest Shared.modify
    split
    all_goals exact { Reserved.refl h with }
  · exact .refl h

theorem reply_eq (h : DhtHandler) (message : MessageType) (addr : SocketAddr) :
    ∃ s events, h.reply message addr = { h with shared := s, events := events } ∧
      ∀ p ∈ s.sent, p ∈ h.shared.sent ∨ p = (message, addr) := by
  by_cases haccepts : h.shared.accepts h.shared.sends = true
  · refine ⟨(h.shared.send message addr).2, h.events, ?_, fun p hp => ?_⟩
    · simp only [reply, Shared.send, if_pos haccepts]
      rfl
    · rw [Shared.send, if_pos haccepts] at hp
      exact (mem_append.mp hp).imp id mem_singleton.mp
  · refine ⟨(h.shared.send message addr).2, h.events ++ [.shuttingDown .unspecified], ?_, fun p hp => ?_⟩
    · simp only [reply, Shared.send, if_neg haccepts]
      rfl
    · rw [Shared.send, if_neg haccepts] at hp
      exact Or.inl hp

theorem reserved_reply (h : DhtHandler) {message : MessageType}
    (hmessage : ∀ g, message ≠ .response (.getPeers g)) (addr : SocketAddr) :
    Reserved h (h.reply message addr) := by
  obtain ⟨s, events, heq, hsent⟩ := h.reply_eq message addr
  rw [heq]
  refine ⟨rfl, rfl, rfl, fun token addr' hreturned => ?_⟩
  obtain ⟨g, hg, htoken⟩ := hreturned
  rcases hsent _ hg with hg | hg
  · exact ⟨g, hg, htoken⟩
  · cases hg
    exact absurd rfl (hmessage g)

theorem serves_handleGetPeers {g : GetPeersRequest} (hcall : h.handleGetPeers hash g addr = .ok h') :
    Serves hash (.getPeers g) addr h h' := by
  have hmark := reserved_markRemote h g.nodeId addr
  have hnow := (answers_markRemote h g.nodeId addr).now
  unfold handleGetPeers at hcall
  generalize h.markRemote g.nodeId addr = h₁ at hmark hnow hcall
  obtain ⟨closest, -, hcall⟩ := bind_eq_ok.mp hcall
  obtain ⟨infoType, -, hcall⟩ := bind_eq_ok.mp hcall
  cases hcall
  generalize hanswer : MessageType.response _ = message
  obtain ⟨s, events, heq, hsent⟩ := reply_eq _ message addr
  rw [heq]
  refine ⟨Or.inr ?_, fun token addr' hreturned => ?_, fun infoHash contact hcontact => Or.inl ?_⟩
  · rw [← hmark.tokens, ← hmark.random, ← hnow]
    rfl
  · obtain ⟨rsp, hrsp, htoken⟩ := hreturned
    rcases hsent _ hrsp with hrsp | hrsp
    · exact Or.inl (hmark.returned token addr' ⟨rsp, hrsp, htoken⟩)
    · rw [← hanswer] at hrsp
      cases hrsp
      cases htoken
      exact Or.inr ⟨rfl, _, Or.inl rfl, rfl⟩
  · rw [← hmark.stores]
    exact AnnounceStorage.mem_of_mem_findItems hcontact

theorem checkin_cases (hash : Bytes → ShaHash) (h : DhtHandler) (token : Bytes) (addr : SocketAddr) :
    h.checkin hash token addr = (false, h) ∨ ∃ valid,
      h.checkin hash token addr = (valid, { h with
        tokenStore := (h.tokenStore.refreshCheck h.random h.shared.now).1
        random := (h.tokenStore.refreshCheck h.random h.shared.now).2 }) ∧
      (valid = true → ∃ secret,
        (h.tokenStore.refreshCheck h.random h.shared.now).1.Accepts secret ∧
          token = (generateTokenFromAddr hash (.fromSocketAddr addr) secret).token) := by
  unfold checkin
  split
  · rename_i t hnew
    have htoken : t.token = token := by
      unfold Token.new at hnew
      split at hnew
      · cases hnew
        rfl
      · cases hnew
    refine Or.inr ⟨_, rfl, fun hvalid => ?_⟩
    change validateTokenFromAddr hash _ t (h.tokenStore.refreshCheck h.random h.shared.now).1.currSecret
      (h.tokenStore.refreshCheck h.random h.shared.now).1.lastSecret = true at hvalid
    rcases (validateTokenFromAddr_iff hash).mp hvalid with hcurr | hlast
    · exact ⟨_, Or.inl rfl, by rw [hcurr, htoken]⟩
    · exact ⟨_, Or.inr rfl, by rw [hlast, htoken]⟩
  · exact Or.inl rfl

theorem serves_handleAnnouncePeer (h : DhtHandler) (a : AnnouncePeerRequest) (addr : SocketAddr) :
    Serves hash (.announcePeer a) addr h (h.handleAnnouncePeer hash a addr) := by
  have hmark := reserved_markRemote h a.nodeId addr
  have hnow := (answers_markRemote h a.nodeId addr).now
  unfold handleAnnouncePeer
  generalize h.markRemote a.nodeId addr = h₁ at hmark hnow
  rcases checkin_cases hash h₁ a.token addr with hcheckin | ⟨valid, hcheckin, hvalid⟩
  · simp only [hcheckin]
    exact (hmark.trans (reserved_reply _ (by simp) _)).serves
  · simp only [hcheckin]
    rw [hmark.tokens, hmark.random, hnow] at hvalid ⊢
    split
    · refine Serves.reserved ⟨Or.inr rfl, fun token addr' hreturned => ?_,
        fun infoHash contact hcontact => ?_⟩ (reserved_reply _ (by simp) addr)
      · exact Or.inl (hmark.returned token addr' hreturned)
      · rw [← hmark.stores]
        exact Or.inl hcontact
    · rename_i haccepted
      have hstored : Serves hash (.announcePeer a) addr h { h₁ with
          tokenStore := (h.tokenStore.refreshCheck h.random h.shared.now).1
          random := (h.tokenStore.refreshCheck h.random h.shared.now).2
          activeStores := (h₁.activeStores.addItem a.infoHash (connectAddr addr a.port)
            h.shared.now).2 } := by
        refine ⟨Or.inr rfl, fun token addr' hreturned => ?_, fun infoHash contact hcontact => ?_⟩
        · exact Or.inl (hmark.returned token addr' hreturned)
        · rw [← hmark.stores]
          rcases AnnounceStorage.mem_of_mem_addItem hcontact with hcontact | ⟨hhash, hcontact⟩
          · exact Or.inl hcontact
          · exact Or.inr ⟨a, rfl, hhash, hcontact, hvalid (by simpa using haccepted)⟩
      split
      · exact hstored.reserved (reserved_reply _ (by simp) addr)
      · exact hstored.reserved (reserved_reply _ (by simp) addr)

theorem serves_handleRequest
    (hcall : h.handleRequest hash request addr = .ok h') : Serves hash request addr h h' := by
  cases request with
  | ping p =>
    cases hcall
    exact ((reserved_markRemote _ _ _).trans (reserved_reply _ (by simp) _)).serves
  | findNode f =>
    obtain ⟨nodes, -, hcall⟩ := bind_eq_ok.mp hcall
    obtain ⟨rsp, -, hcall⟩ := bind_eq_ok.mp hcall
    cases hcall
    exact ((reserved_markRemote _ _ _).trans (reserved_reply _ (by simp) _)).serves
  | getPeers g => exact serves_handleGetPeers hcall
  | announcePeer a =>
    cases hcall
    exact serves_handleAnnouncePeer h a addr

variable {input : Input}

theorem serves_of_step (hfresh : ∀ f ∈ h.futureActions, f.Fresh)
    (hstep : h.step hash input = .ok h') : Reserved h h' ∨ ∃ buffer addr request,
      input = .task (.incoming buffer addr) ∧ h.parse buffer = .ok (some (.request request)) ∧
        Serves hash request addr h h' := by
  rcases step_cases (fun _ _ => False) hfresh hstep with
    ⟨buffer, addr, request, hinput, hparse, hrequest⟩ | hdoes
  · exact Or.inr ⟨buffer, addr, request, hinput, hparse, serves_handleRequest hrequest⟩
  · exact Or.inl (keeps_of_does (fun hdoes hbefore => hbefore.trans (reserved_of_does hdoes)) hdoes (.refl h))

/-! ### Runs -/

def sources (inputs : List Input) : List SocketAddr :=
  inputs.filterMap fun input =>
    match input with
    | .task (.incoming _ addr) => some addr
    | _ => none

/-- Secrets are among the values drawn, and tokens were made from them for addresses datagrams came
from. -/
structure Tokens (hash : Bytes → ShaHash) (value : Nat → UInt32) (inputs : List Input)
    (h : DhtHandler) : Prop where
  secrets : TokenStore.SecretsDrawn value (h.tokenStore, h.random)
  returned : ∀ token addr, h.Returned token addr → addr ∈ sources inputs ∧ ∃ n < h.random.drawn,
    token = (generateTokenFromAddr hash (.fromSocketAddr addr) (value n)).token

theorem sources_concat (inputs : List Input) (input : Input) :
    sources inputs ⊆ sources (inputs ++ [input]) := by
  rw [sources, sources, filterMap_append]
  exact subset_append_left _ _

theorem mem_sources_concat (inputs : List Input) (buffer : Buffer) (addr : SocketAddr) :
    addr ∈ sources (inputs ++ [.task (.incoming buffer addr)]) := by
  rw [sources, filterMap_append]
  exact mem_append_right _ mem_cons_self

theorem Serves.drawn_le (hserves : Serves hash request addr h h') : h.random.drawn ≤ h'.random.drawn := by
  rcases hserves.tokens with htokens | htokens
  · exact (congrArg (fun state : TokenStore × Random => state.2.drawn) htokens).ge
  · rw [show h'.random = (h.tokenStore.refreshCheck h.random h.shared.now).2 from
      congrArg Prod.snd htokens]
    exact (TokenStore.value_refreshCheck _ _ _).2

theorem drawn_le_of_step (hfresh : ∀ f ∈ h.futureActions, f.Fresh)
    (hstep : h.step hash input = .ok h') : h.random.drawn ≤ h'.random.drawn := by
  rcases serves_of_step hfresh hstep with hreserved | ⟨_, _, _, -, -, hserves⟩
  · rw [hreserved.random]
  · exact hserves.drawn_le

theorem Tokens.step {value : Nat → UInt32} {inputs : List Input} (htokens : Tokens hash value inputs h)
    (hfresh : ∀ f ∈ h.futureActions, f.Fresh) (hstep : h.step hash input = .ok h') :
    Tokens hash value (inputs ++ [input]) h' := by
  rcases serves_of_step hfresh hstep with hreserved | ⟨buffer, addr, request, rfl, -, hserves⟩
  · refine ⟨?_, fun token addr hreturned => ?_⟩
    · rw [hreserved.tokens, hreserved.random]
      exact htokens.secrets
    · obtain ⟨hsource, hmade⟩ := htokens.returned token addr (hreserved.returned token addr hreturned)
      rw [hreserved.random]
      exact ⟨sources_concat inputs input hsource, hmade⟩
  · have hsecrets : TokenStore.SecretsDrawn value (h'.tokenStore, h'.random) := by
      rcases hserves.tokens with heq | heq
      · rw [heq]
        exact htokens.secrets
      · rw [heq]
        exact htokens.secrets.refreshCheck h.shared.now
    refine ⟨hsecrets, fun token addr' hreturned => ?_⟩
    rcases hserves.returned token addr' hreturned with hreturned | ⟨rfl, secret, haccepts, htoken⟩
    · obtain ⟨hsource, n, hn, hmade⟩ := htokens.returned token addr' hreturned
      exact ⟨sources_concat inputs _ hsource, n, hn.trans_le hserves.drawn_le, hmade⟩
    · obtain ⟨n, hn, hvalue⟩ := hsecrets.2 secret haccepts
      exact ⟨mem_sources_concat inputs buffer addr', n, hn, by rw [htoken, hvalue]⟩

/-- The run takes, in the state `h₁`, a datagram with an announce. -/
def Announces (hash : Bytes → ShaHash) (h₀ : DhtHandler) (inputs : List Input)
    (a : AnnouncePeerRequest) (addr : SocketAddr) (h₁ : DhtHandler) : Prop :=
  ∃ before buffer after, inputs = before ++ .task (.incoming buffer addr) :: after ∧
    h₀.run hash before = .ok h₁ ∧ h₁.parse buffer = .ok (some (.request (.announcePeer a)))

variable {a : AnnouncePeerRequest}

theorem Announces.concat {h₀ : DhtHandler} {inputs : List Input}
    (hannounces : Announces hash h₀ inputs a addr h₁) (input : Input) :
    Announces hash h₀ (inputs ++ [input]) a addr h₁ := by
  obtain ⟨before, buffer, after, rfl, hrun, hparse⟩ := hannounces
  exact ⟨before, buffer, after ++ [input], by simp, hrun, hparse⟩

/-- The buffers for the given addresses and the secrets drawn so far. -/
def tokenBuffers (value : Nat → UInt32) (addrs : List SocketAddr) (drawn : Nat) : Set Bytes :=
  { buffer | ∃ addr ∈ addrs, ∃ n < drawn, buffer = tokenBuffer (.fromSocketAddr addr) (value n) }

variable {addrs : List SocketAddr} {drawn : Nat}

theorem tokenBuffers_mono {value : Nat → UInt32} {addrs' : List SocketAddr} {drawn' : Nat}
    (haddrs : addrs ⊆ addrs') (hdrawn : drawn ≤ drawn') :
    tokenBuffers value addrs drawn ⊆ tokenBuffers value addrs' drawn' := by
  rintro buffer ⟨addr, haddr, n, hn, rfl⟩
  exact ⟨addr, haddrs haddr, n, hn.trans_le hdrawn, rfl⟩

/-- Equal tokens were made for the same address. -/
theorem addr_eq_of_token_eq {value : Nat → UInt32}
    (hinj : Set.InjOn hash (tokenBuffers value addrs drawn)) {addr' : SocketAddr} (haddr : addr ∈ addrs)
    (haddr' : addr' ∈ addrs) {n n' : Nat} (hn : n < drawn) (hn' : n' < drawn)
    (htoken : (generateTokenFromAddr hash (.fromSocketAddr addr) (value n)).token =
      (generateTokenFromAddr hash (.fromSocketAddr addr') (value n')).token) :
    IpAddr.fromSocketAddr addr = .fromSocketAddr addr' := by
  rw [token_generateTokenFromAddr, token_generateTokenFromAddr] at htoken
  have hbuffer := hinj ⟨addr, haddr, n, hn, rfl⟩ ⟨addr', haddr', n', hn', rfl⟩ (eq_of_hash_eq htoken)
  exact addr_eq_of_tokenBuffer_eq hbuffer

theorem fromSocketAddr_connectAddr (addr : SocketAddr) (port : ConnectPort) :
    IpAddr.fromSocketAddr (connectAddr addr port) = .fromSocketAddr addr := by
  cases port with
  | implied => rfl
  | explicit port => cases addr <;> rfl

/-- The contact was announced in the run, from its own address, with a token that had been returned to
that address before. -/
def Authorised (hash : Bytes → ShaHash) (h₀ : DhtHandler) (inputs : List Input) (infoHash : InfoHash)
    (contact : SocketAddr) : Prop :=
  ∃ a addr h₁, Announces hash h₀ inputs a addr h₁ ∧ a.infoHash = infoHash ∧
    contact = connectAddr addr a.port ∧ IpAddr.fromSocketAddr contact = .fromSocketAddr addr ∧
    ∃ addr', h₁.Returned a.token addr' ∧ IpAddr.fromSocketAddr addr' = .fromSocketAddr addr

variable {contact : SocketAddr} {infoHash : InfoHash}

theorem Authorised.concat {h₀ : DhtHandler} {inputs : List Input}
    (hauthorised : Authorised hash h₀ inputs infoHash contact) (input : Input) :
    Authorised hash h₀ (inputs ++ [input]) infoHash contact := by
  obtain ⟨a, addr, h₁, hannounces, hrest⟩ := hauthorised
  exact ⟨a, addr, h₁, hannounces.concat input, hrest⟩

section

variable {h₀ : DhtHandler} {inputs : List Input} {value : Nat → UInt32} (hreach : Reachable hash h₀)
  (htokens : Tokens hash value [] h₀)

include hreach htokens

theorem tokens_of_run (hrun : h₀.run hash inputs = .ok h) : Tokens hash value inputs h := by
  induction inputs using reverseRecOn generalizing h with
  | nil =>
    cases hrun
    exact htokens
  | append_singleton inputs input ih =>
    rw [run_append] at hrun
    obtain ⟨h₁, hbefore, hstep⟩ := bind_eq_ok.mp hrun
    rw [run_singleton] at hstep
    exact (ih hbefore).step (hreach.of_run hbefore).fresh hstep

theorem authorised_of_run (hempty : ∀ infoHash, h₀.activeStores.contacts infoHash = [])
    (hrun : h₀.run hash inputs = .ok h)
    (hinj : Set.InjOn hash (tokenBuffers value (sources inputs) h.random.drawn))
    (hcopied : ∀ a addr h₁, Announces hash h₀ inputs a addr h₁ → ∃ addr', h₁.Returned a.token addr')
    (hcontact : contact ∈ h.activeStores.contacts infoHash) : Authorised hash h₀ inputs infoHash contact := by
  induction inputs using reverseRecOn generalizing h with
  | nil =>
    cases hrun
    rw [hempty] at hcontact
    cases hcontact
  | append_singleton inputs input ih =>
    rw [run_append] at hrun
    obtain ⟨h₁, hbefore, hstep⟩ := bind_eq_ok.mp hrun
    rw [run_singleton] at hstep
    have hfresh := (hreach.of_run hbefore).fresh
    have hdrawn := drawn_le_of_step hfresh hstep
    have hearlier : contact ∈ h₁.activeStores.contacts infoHash →
        Authorised hash h₀ (inputs ++ [input]) infoHash contact := by
      intro hcontact
      refine (ih hbefore ?_ ?_ hcontact).concat input
      · exact hinj.mono (tokenBuffers_mono (sources_concat inputs input) hdrawn)
      · exact fun a addr h₂ hannounces => hcopied a addr h₂ (hannounces.concat input)
    rcases serves_of_step hfresh hstep with hreserved | ⟨buffer, addr, request, rfl, hparse, hserves⟩
    · rw [hreserved.stores] at hcontact
      exact hearlier hcontact
    · rcases hserves.contacts infoHash contact hcontact with
        hcontact | ⟨a, rfl, hhash, hcontact, secret, haccepts, htoken⟩
      · exact hearlier hcontact
      -- The token that is accepted now is one that was returned before.
      · have hannounces : Announces hash h₀ (inputs ++ [.task (.incoming buffer addr)]) a addr h₁ :=
          ⟨inputs, buffer, [], rfl, hbefore, hparse⟩
        have htokens₁ := tokens_of_run hreach htokens hbefore
        obtain ⟨addr', hreturned⟩ := hcopied a addr h₁ hannounces
        obtain ⟨hsource', n', hn', hmade'⟩ := htokens₁.returned a.token addr' hreturned
        obtain ⟨n, hn, hvalue⟩ := (htokens₁.step hfresh hstep).secrets.2 secret haccepts
        refine ⟨a, addr, h₁, hannounces, hhash.symm, hcontact, ?_, addr', hreturned, ?_⟩
        · rw [hcontact, fromSocketAddr_connectAddr]
        · refine addr_eq_of_token_eq hinj (sources_concat inputs _ hsource')
            (mem_sources_concat inputs buffer addr) (hn'.trans_le hdrawn) hn ?_
          rw [← hmade', htoken, hvalue]

end

theorem tokens_new (hs : s.Initial) (readOnly : Bool) (value : Nat → UInt32)
    (aidShuffles : Nat → Shuffle actionIdPreallocLen) (handshakerPort : UInt16) :
    Tokens hash value [] (new s readOnly ⟨value, 0⟩ aidShuffles handshakerPort) := by
  refine ⟨TokenStore.secretsDrawn_new value _, fun token addr hreturned => ?_⟩
  obtain ⟨g, hsent, -⟩ := hreturned
  change _ ∈ s.sent at hsent
  rw [hs.sent] at hsent
  cases hsent

/-! ### An announce -/

section

open TokenStore (padHash)

def peer : SocketAddr := .v4 (octets 127 0 0 1) 6881

/-- The hash of the address and the first secret, which is zero. -/
def peerToken : Bytes := [127, 0, 0, 1, 0, 0, 0, 0, 0, 0, 0, 0, 0, 0, 0, 0, 0, 0, 0, 0]

def question : GetPeersRequest := ⟨ascii "aa", idOf 128, idOf 16⟩

def announcement : AnnouncePeerRequest :=
  ⟨ascii "ab", idOf 128, idOf 16, peerToken, .explicit 6882⟩

def questionBuffer : Buffer where
  data := ascii "d1:ad2:id20:" ++ (idOf 128).hash ++ ascii "9:info_hash20:" ++
    (idOf 16).hash ++ ascii "e1:q9:get_peers1:t2:aa1:y1:qe"
  fits := by decide +kernel

def announcementBuffer : Buffer where
  data := ascii "d1:ad2:id20:" ++ (idOf 128).hash ++
    ascii "12:implied_porti0e9:info_hash20:" ++ (idOf 16).hash ++
    ascii "4:porti6882e5:token20:" ++ peerToken ++ ascii "e1:q13:announce_peer1:t2:ab1:y1:qe"
  fits := by decide +kernel

theorem encode_question : question.encode = questionBuffer.data := by
  rw [GetPeersRequest.encode, GetPeersRequest.bencode, encode_requestMap]
  simp only [flatMap_cons, flatMap_nil, encode_benMap]
  decide +kernel

theorem encode_announcement : announcement.encode = announcementBuffer.data := by
  rw [AnnouncePeerRequest.encode, AnnouncePeerRequest.bencode, encode_requestMap]
  simp only [flatMap_cons, flatMap_nil, encode_benMap]
  decide +kernel

theorem parse_question (h : DhtHandler) :
    h.parse questionBuffer = .ok (some (.request (.getPeers question))) :=
  parse_of_encode encode_question.symm nofun

theorem parse_announcement (h : DhtHandler) :
    h.parse announcementBuffer = .ok (some (.request (.announcePeer announcement))) :=
  parse_of_encode encode_announcement.symm nofun

theorem markRemote_of_alone (htable : h.shared.table = Shared.alone.table) (nodeId : NodeId)
    (addr : SocketAddr) : h.markRemote nodeId addr = h := by
  rw [markRemote, Shared.remoteRequestFrom, Shared.findNode_alone htable]

def answered : DhtHandler :=
  (fresh .alone).reply (.response (.getPeers ⟨question.transId, idOf 0, some peerToken,
    .nodes .empty⟩)) peer

def announced : DhtHandler :=
  reply { answered with activeStores := (AnnounceStorage.new.addItem (idOf 16)
    (.v4 (octets 127 0 0 1) 6882) 0).2 }
    (.response (.announcePeer ⟨announcement.transId, idOf 0⟩)) peer

theorem step_question :
    (fresh .alone).step padHash (.task (.incoming questionBuffer peer)) = .ok answered := by
  have hbytes : (fresh .alone).closestNodesBytes question.infoHash = .ok [] := by
    rw [closestNodesBytes, Shared.closestNodes_alone (s := (fresh .alone).shared) rfl]
    rfl
  rw [step, handleTask, handleIncoming, parse_question]
  change (fresh .alone).handleGetPeers padHash question peer = _
  unfold handleGetPeers
  rw [markRemote_of_alone rfl]
  change ((fresh .alone).closestNodesBytes question.infoHash >>= _) = _
  rw [hbytes]
  rfl

theorem step_announcement :
    answered.step padHash (.task (.incoming announcementBuffer peer)) = .ok announced := by
  have hcheckin : answered.checkin padHash announcement.token peer = (true, answered) := rfl
  rw [step, handleTask, handleIncoming, parse_announcement]
  change Except.ok (answered.handleAnnouncePeer padHash announcement peer) = _
  unfold handleAnnouncePeer
  rw [markRemote_of_alone rfl]
  simp only [hcheckin]
  rfl

theorem run_announcement : (fresh .alone).run padHash
    [.task (.incoming questionBuffer peer), .task (.incoming announcementBuffer peer)] = .ok announced := by
  rw [run, foldlM_cons, step_question, ok_bind, foldlM_cons, step_announcement]
  rfl

theorem injOn_padHash : Set.InjOn padHash
    (tokenBuffers UInt32.ofNat (sources [.task (.incoming questionBuffer peer),
      .task (.incoming announcementBuffer peer)]) announced.random.drawn) := by
  have hbuffers : ∀ buffer, buffer ∈ tokenBuffers UInt32.ofNat [peer, peer] 2 →
      buffer = [127, 0, 0, 1, 0, 0, 0, 0] ∨ buffer = [127, 0, 0, 1, 0, 0, 0, 1] := by
    rintro buffer ⟨addr, haddr, n, hn, rfl⟩
    obtain rfl : addr = peer := by simpa using haddr
    interval_cases n
    · exact Or.inl (by decide)
    · exact Or.inr (by decide)
  intro x hx y hy hxy
  rcases hbuffers x hx with rfl | rfl <;> rcases hbuffers y hy with rfl | rfl
  · rfl
  · exact absurd hxy (by decide)
  · exact absurd hxy (by decide)
  · rfl

/-- Whoever announces in the run has the token of the answer before. -/
theorem copied_announcement
    (hannounces : Announces padHash (fresh .alone) [.task (.incoming questionBuffer peer),
      .task (.incoming announcementBuffer peer)] a addr h₁) : h₁.Returned a.token peer := by
  obtain ⟨before, buffer, after, hinputs, hrun, hparse⟩ := hannounces
  match before, hinputs with
  | [], hinputs =>
    cases hinputs
    rw [parse_question] at hparse
    cases hparse
  | [_], hinputs =>
    cases hinputs
    rw [parse_announcement] at hparse
    cases hparse
    rw [run_singleton, step_question] at hrun
    cases hrun
    exact ⟨_, mem_cons_self, rfl⟩
  | _ :: _ :: _, hinputs => simp at hinputs

end

/-! ### Announces are authorised -/

/-- Every contact that is stored was announced from its own address, with a token that had been returned
to that address before. -/
theorem announces_authorised {s : Shared} (hs : s.Initial) (readOnly : Bool) (value : Nat → UInt32)
    (aidShuffles : Nat → Shuffle actionIdPreallocLen) (handshakerPort : UInt16) (inputs : List Input)
    {h : DhtHandler} (hrun : (new s readOnly ⟨value, 0⟩ aidShuffles handshakerPort).run hash inputs = .ok h)
    (hinj : Set.InjOn hash (tokenBuffers value (sources inputs) h.random.drawn))
    (hcopied : ∀ a addr h₁,
      Announces hash (new s readOnly ⟨value, 0⟩ aidShuffles handshakerPort) inputs a addr h₁ →
        ∃ addr', h₁.Returned a.token addr') :
    ∀ infoHash, ∀ contact ∈ h.activeStores.contacts infoHash,
      Authorised hash (new s readOnly ⟨value, 0⟩ aidShuffles handshakerPort) inputs infoHash contact :=
  fun _ _ hcontact => authorised_of_run (.new hs readOnly value aidShuffles handshakerPort)
    (tokens_new hs readOnly value aidShuffles handshakerPort) (fun _ => rfl) hrun hinj hcopied hcontact

theorem announces_authorised_announcement :
    .v4 #v[127, 0, 0, 1] 6882 ∈ announced.activeStores.contacts (idOf 16) ∧
      Authorised TokenStore.padHash (fresh .alone) [.task (.incoming questionBuffer peer),
        .task (.incoming announcementBuffer peer)] (idOf 16) (.v4 #v[127, 0, 0, 1] 6882) := by
  have hcontact : .v4 #v[127, 0, 0, 1] 6882 ∈ announced.activeStores.contacts (idOf 16) :=
    mem_cons_self
  refine ⟨hcontact, ?_⟩
  exact announces_authorised Shared.initial_alone false UInt32.ofNat (fun _ => Generators.noShuffle _)
    6881 _ run_announcement injOn_padHash (fun _ _ _ hannounces => ⟨peer, copied_announcement hannounces⟩)
    _ _ hcontact

end DhtHandler

end BitTorrent.Dht
