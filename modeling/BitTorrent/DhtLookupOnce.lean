import BitTorrent.DhtHandlerRun

/-! Whom a lookup asks. The first round and the rounds after answers never ask a node that an earlier
round has asked, since the picks for a round are not in `requestedNodes`, which all rounds before the
endgame write. But the picks of one round may name a node twice, and the endgame goes by the flags of
`allSortedNodes`, which need not know what was asked. -/

namespace BitTorrent.Dht

open Rust List RoutingTable

/-- What happens to a lookup once it is started. Between its calls others may change all of the shared
state but the list of the queries and what the channel takes. -/
inductive LookupCall where
  | response (node : NodeKey) (transId : TransactionID) (msg : GetPeersResponse)
  | timeout (transId : TransactionID)
  | finished (handshakePort : UInt16)
  | others (s : Shared)

/-- The nodes that an answer names. -/
def GetPeersResponse.nodes (msg : GetPeersResponse) : List NodeKey :=
  match msg.infoType with
  | .nodes n => n.toList
  | .values _ => []
  | .both n _ => n.toList

def GetPeersResponse.hasOnlyValues (msg : GetPeersResponse) : Bool :=
  match msg.infoType with
  | .values _ => true
  | _ => false

namespace TableLookup

def step (l : TableLookup) (s : Shared) : LookupCall → TableLookup × Shared
  | .response node transId msg => (l.recvResponse s node transId msg).2
  | .timeout transId => (l.recvTimeout s transId).2
  | .finished handshakePort => (l.recvFinished s handshakePort).2
  | .others s' => (l, { s' with queries := s.queries, accepts := s.accepts })

def run (l : TableLookup) (s : Shared) : List LookupCall → TableLookup × Shared
  | [] => (l, s)
  | call :: calls => (l.step s call).1.run (l.step s call).2 calls

/-- The nodes with clear flags, which the endgame asks unless there were values. -/
def unflagged (l : TableLookup) : List NodeKey :=
  if l.recvValues then [] else (l.allSortedNodes.filter (!·.requested)).map SortedNode.node

/-- An endgame round asks nobody twice and nobody who was asked before. -/
def EndsFresh (l : TableLookup) : Prop :=
  l.unflagged.Nodup ∧ ∀ node ∈ l.unflagged, node ∉ l.requestedNodes

/-- The nodes of an answer that were not asked. -/
def newNodes (l : TableLookup) (msg : GetPeersResponse) : List NodeKey :=
  msg.nodes.filter fun node => node ∉ l.requestedNodes

/-- The lookup with the nodes of an answer entered, none of which is asked. -/
def heard (l : TableLookup) (msg : GetPeersResponse) : TableLookup :=
  { l with
    recvValues := l.recvValues || msg.hasOnlyValues
    allSortedNodes := msg.nodes.foldl (fun sorted node => insertSortedNode l.targetId sorted node false)
      l.allSortedNodes }

/-- The lookup before a call and the answer that comes. If a node of the answer that was not asked is closer
than the distance to beat, the picks from these nodes are all different. If none is closer and nothing else
is waited for, the nodes with clear flags are all different and were not asked. -/
def Careful (l : TableLookup) : LookupCall → Prop
  | .response _ transId msg => ∀ distToBeat, l.activeLookups.lookup transId = some distToBeat →
    l.inEndgame = false →
      if ∃ node ∈ l.newNodes msg, l.targetId.xor node.1 < distToBeat then
        (picked (pickIterateNodes (l.newNodes msg) l.targetId)).Nodup
      else (l.activeLookups.erase transId).keys.isEmpty = true → (l.heard msg).EndsFresh
  | .timeout transId => transId ∈ l.activeLookups → l.inEndgame = false →
    (l.activeLookups.erase transId).keys.isEmpty = true → l.EndsFresh
  | .finished _ => True
  | .others _ => True

/-- All calls find the lookup in such a state. -/
def CarefulRun (l : TableLookup) (s : Shared) : List LookupCall → Prop
  | [] => True
  | call :: calls => l.Careful call ∧ (l.step s call).1.CarefulRun (l.step s call).2 calls

variable {l l' : TableLookup} {s s' : Shared}

/-- The nodes that were asked, as long as there may be a further round: `requestedNodes` has them all. -/
def Known (l : TableLookup) (s : Shared) : Prop :=
  ∀ node, node ∈ l.requestedNodes ↔ node ∈ s.queries

/-- Between two states some of the nodes that were to be asked are asked, and all of them if all messages
can be sent. -/
structure Asks (s : Shared) (nodes : List NodeKey) (s' : Shared) : Prop where
  some : ∃ asked, s'.queries = s.queries ++ asked ∧ asked.Sublist nodes
  all : (∀ i, s.accepts i = true) → s'.queries = s.queries ++ nodes
  accepts : s'.accepts = s.accepts

theorem Asks.none (hqueries : s'.queries = s.queries) (haccepts : s'.accepts = s.accepts) : Asks s [] s' := by
  refine ⟨⟨[], ?_, List.Sublist.slnil⟩, fun _ => ?_, haccepts⟩
  all_goals rw [hqueries, append_nil]

theorem Asks.of_eq {nodes : List NodeKey} {s'' : Shared} (h : Asks s nodes s') (hqueries : s''.queries = s.queries)
    (haccepts : s''.accepts = s.accepts) : Asks s'' nodes s' := by
  refine ⟨?_, ?_, ?_⟩
  · rw [hqueries]
    exact h.some
  · rw [hqueries, haccepts]
    exact h.all
  · rw [haccepts]
    exact h.accepts

/-! ### Rounds -/

theorem queries_of_send {transId : TransactionID} {node : NodeKey} {taken : Bool}
    (hsend : s.send (l.getPeersMessage transId) node.2 = (taken, s')) : s'.queries = s.queries := by
  have hunlogged := s.unlogged_send (.getPeers ⟨transId.asRef, l.tableId, l.targetId⟩) node.2
  rw [show s.send (.request (.getPeers ⟨transId.asRef, l.tableId, l.targetId⟩)) node.2 = (taken, s')
    from hsend] at hunlogged
  exact hunlogged.queries

theorem queries_logQuery (s : Shared) (node : NodeKey) :
    ((s.localRequestTo node).logQuery node).queries = s.queries ++ [node] := by
  change (s.localRequestTo node).queries ++ [node] = _
  rw [(s.unlogged_localRequestTo node).queries]

theorem accepts_of_send {message : MessageType} {addr : SocketAddr} {taken : Bool}
    (hsend : s.send message addr = (taken, s')) :
    s'.accepts = s.accepts ∧ ((∀ i, s.accepts i = true) → taken = true) := by
  unfold Shared.send at hsend
  split at hsend
  · cases hsend
    exact ⟨rfl, fun _ => rfl⟩
  · rename_i hrefused
    exact ⟨(congrArg (·.2.accepts) hsend).symm, fun haccepts => absurd (haccepts _) hrefused⟩

theorem accepts_localRequestTo (s : Shared) (node : NodeKey) : (s.localRequestTo node).accepts = s.accepts := by
  unfold Shared.localRequestTo Shared.localRequest Shared.modify
  split
  · split <;> rfl
  · rfl

theorem Asks.query {transId : TransactionID} {node : NodeKey} {nodes : List NodeKey} {s'' : Shared}
    (hsend : s.send (l.getPeersMessage transId) node.2 = (true, s'))
    (hrest : Asks ((s'.localRequestTo node).logQuery node) nodes s'') :
    Asks s (node :: nodes) s'' := by
  have hqueries : ((s'.localRequestTo node).logQuery node).queries = s.queries ++ [node] := by
    rw [queries_logQuery, queries_of_send hsend]
  have haccepts : ((s'.localRequestTo node).logQuery node).accepts = s.accepts := by
    exact (accepts_localRequestTo s' node).trans (accepts_of_send hsend).1
  obtain ⟨⟨asked, hsome, hsub⟩, hall, hlast⟩ := hrest
  rw [hqueries] at hsome hall
  rw [haccepts] at hall hlast
  refine ⟨⟨node :: asked, ?_, hsub.cons_cons node⟩, fun hi => ?_, hlast⟩
  · rw [hsome, append_assoc]
    rfl
  · rw [hall hi, append_assoc]
    rfl

theorem Asks.refused {transId : TransactionID} {node : NodeKey} (nodes : List NodeKey)
    (hsend : s.send (l.getPeersMessage transId) node.2 = (false, s')) : Asks s (node :: nodes) s' := by
  have haccepts := accepts_of_send hsend
  refine ⟨⟨[], ?_, nil_sublist _⟩, fun hi => Bool.noConfusion (haccepts.2 hi), haccepts.1⟩
  rw [queries_of_send hsend, append_nil]

theorem requestNodes_spec (nodes : List (NodeKey × ShaHash)) (l : TableLookup)
    (s : Shared) : Asks s (nodes.map Prod.fst) (requestNodes nodes l s).2.2 ∧
    (Known l s → Known (requestNodes nodes l s).2.1 (requestNodes nodes l s).2.2) ∧
    ((requestNodes nodes l s).1 = true →
      (∀ transId ∈ l.activeLookups, transId ∈ (requestNodes nodes l s).2.1.activeLookups) ∧
      (nodes ≠ [] → (requestNodes nodes l s).2.1.activeLookups.keys.isEmpty = false)) := by
  induction nodes generalizing l s with
  | nil => exact ⟨.none rfl rfl, id, fun _ => ⟨fun _ hid => hid, fun hne => absurd rfl hne⟩⟩
  | cons entry nodes ih =>
    obtain ⟨node, distToBeat⟩ := entry
    rw [requestNodes]
    generalize hactivate : l.activate s distToBeat = activated
    obtain ⟨transId, l₁, s₁⟩ := activated
    obtain ⟨hqueries₁, haccepts₁, hrequested₁, hactive₁⟩ : s₁.queries = s.queries ∧ s₁.accepts = s.accepts ∧
        l₁.requestedNodes = l.requestedNodes ∧
        l₁.activeLookups = l.activeLookups.insert transId distToBeat := by
      cases hactivate
      exact ⟨rfl, rfl, rfl, rfl⟩
    simp only
    split
    · rename_i s₂ hsend
      refine ⟨(Asks.refused _ hsend).of_eq hqueries₁.symm haccepts₁.symm, fun hknown => ?_, fun h => ?_⟩
      · unfold Known
        rwa [queries_of_send hsend, hqueries₁, hrequested₁]
      · cases h
    · rename_i s₂ hsend
      obtain ⟨hasks, hknown, hactive⟩ := ih (l₁.recordRequest node transId)
        ((s₂.localRequestTo node).logQuery node)
      refine ⟨(Asks.query hsend hasks).of_eq hqueries₁.symm haccepts₁.symm, fun h => hknown ?_, fun hfine => ?_⟩
      · intro other
        rw [queries_logQuery, queries_of_send hsend, hqueries₁, mem_append, ← h other, recordRequest,
          hrequested₁, Finset.mem_insert, mem_singleton, or_comm]
      · have hkept : ∀ id ∈ l.activeLookups.insert transId distToBeat, _ := hactive₁ ▸ (hactive hfine).1
        refine ⟨fun id hid => hkept id ((AList.mem_insert _).mpr (Or.inr hid)), fun _ => ?_⟩
        have hmem := hkept transId ((AList.mem_insert _).mpr (Or.inl rfl))
        exact isEmpty_eq_false_iff.mpr (ne_nil_of_mem (AList.mem_keys.mp hmem))

theorem endgameMessages_spec (nodes : List SortedNode) (l : TableLookup) (s : Shared) :
    (endgameMessages nodes l s).1.map Prod.fst = nodes.map SortedNode.node ∧
    (endgameMessages nodes l s).2.2.queries = s.queries ∧
    (endgameMessages nodes l s).2.2.accepts = s.accepts ∧
    (endgameMessages nodes l s).2.1.inEndgame = l.inEndgame := by
  induction nodes generalizing l s with
  | nil => exact ⟨rfl, rfl, rfl, rfl⟩
  | cons n nodes ih =>
    obtain ⟨hmessages, hrest⟩ := ih (l.activate s n.dist).2.1 (l.activate s n.dist).2.2
    exact ⟨congrArg (n.node :: ·) hmessages, hrest⟩

theorem sendEndgame_spec (messages : List (NodeKey × TransactionID)) (l : TableLookup) (s : Shared) :
    Asks s (messages.map Prod.fst) (sendEndgame messages l s).2.2 ∧
      (sendEndgame messages l s).2.1.inEndgame = l.inEndgame := by
  induction messages generalizing l s with
  | nil => exact ⟨.none rfl rfl, rfl⟩
  | cons message messages ih =>
    obtain ⟨node, transId⟩ := message
    rw [sendEndgame]
    split
    · rename_i s₁ hsend
      exact ⟨.refused _ hsend, rfl⟩
    · rename_i s₁ hsend
      obtain ⟨hasks, hendgame⟩ := ih { l with allSortedNodes := markNext l.allSortedNodes }
        ((s₁.localRequestTo node).logQuery node)
      exact ⟨.query hsend hasks, hendgame⟩

theorem startEndgameRound_spec (l : TableLookup) (s : Shared) :
    Asks s l.unflagged (l.startEndgameRound s).2.2 ∧ (l.startEndgameRound s).2.1.inEndgame = true := by
  unfold startEndgameRound unflagged
  simp only
  split
  · exact ⟨.none rfl rfl, rfl⟩
  · obtain ⟨hmessages, hqueries, haccepts, hendgame⟩ := endgameMessages_spec
      (l.allSortedNodes.filter (!·.requested)) { l with inEndgame := true } s
    generalize endgameMessages _ _ s = prepared at hmessages hqueries haccepts hendgame ⊢
    obtain ⟨messages, l₁, s₁⟩ := prepared
    obtain ⟨hasks, hended⟩ := sendEndgame_spec messages l₁ s₁
    simp only at hmessages
    rw [hmessages] at hasks
    have hall := And.intro (hasks.of_eq hqueries.symm haccepts.symm) (hended.trans hendgame)
    generalize sendEndgame messages l₁ s₁ = result at hall ⊢
    obtain ⟨fine, l₂, s₂⟩ := result
    cases fine <;> exact hall

/-! ### Picks -/

theorem mem_picked_insertClosestNodes {targetId : InfoHash} {newNode node : NodeKey}
    {nodes : List (NodeKey × Bool)} (h : node ∈ picked (insertClosestNodes targetId newNode nodes)) :
    node = newNode ∨ node ∈ picked nodes := by
  induction nodes with
  | nil => exact Or.inr h
  | cons entry nodes ih =>
    obtain ⟨oldNode, used⟩ := entry
    rw [insertClosestNodes] at h
    cases used with
    | false =>
      rcases mem_cons.mp h with h | h
      · exact Or.inl h
      · exact Or.inr h
    | true =>
      rw [if_pos rfl] at h
      split at h
      · rcases mem_cons.mp h with h | h
        · exact Or.inl h
        · exact Or.inr (mem_cons_of_mem _ h)
      · rcases mem_cons.mp h with h | h
        · exact Or.inr (mem_cons.mpr (Or.inl h))
        · exact (ih h).imp id fun h => mem_cons_of_mem _ h

theorem mem_of_mem_pickIterateNodes {unsortedNodes : List NodeKey} {targetId : InfoHash} {node : NodeKey}
    (h : node ∈ picked (pickIterateNodes unsortedNodes targetId)) : node ∈ unsortedNodes := by
  rw [pickIterateNodes] at h
  induction unsortedNodes using reverseRecOn with
  | nil => cases h
  | append_singleton nodes n ih =>
    rw [foldl_append] at h
    rw [mem_append]
    rcases mem_picked_insertClosestNodes h with rfl | h
    · exact Or.inr mem_cons_self
    · exact Or.inl (ih h)

theorem insertClosestNodes_head (targetId : InfoHash) (node : NodeKey) {nodes : List (NodeKey × Bool)}
    (h : nodes ≠ []) : ∃ first rest, insertClosestNodes targetId node nodes = (first, true) :: rest := by
  obtain ⟨⟨oldNode, used⟩, rest, rfl⟩ := exists_cons_of_ne_nil h
  rw [insertClosestNodes]
  cases used with
  | false => exact ⟨_, _, rfl⟩
  | true =>
    rw [if_pos rfl]
    split
    · exact ⟨_, _, rfl⟩
    · exact ⟨_, _, rfl⟩

/-- Some node is picked if there is any. -/
theorem picked_pickIterateNodes_ne_nil (targetId : InfoHash) {unsortedNodes : List NodeKey}
    (h : unsortedNodes ≠ []) : picked (pickIterateNodes unsortedNodes targetId) ≠ [] := by
  have hne : ∀ nodes, pickIterateNodes nodes targetId ≠ [] := by
    intro nodes
    induction nodes using reverseRecOn with
    | nil => exact cons_ne_nil _ _
    | append_singleton nodes n ih =>
      obtain ⟨first, rest, heq⟩ := insertClosestNodes_head targetId n ih
      rw [pickIterateNodes, foldl_append]
      exact fun hnil => cons_ne_nil _ _ (heq.symm.trans hnil)
  obtain ⟨nodes, n, rfl⟩ := (eq_nil_or_concat' unsortedNodes).resolve_left h
  obtain ⟨first, rest, heq⟩ := insertClosestNodes_head targetId n (hne nodes)
  have hlast : pickIterateNodes (nodes ++ [n]) targetId = (first, true) :: rest := by
    rw [pickIterateNodes, foldl_append]
    exact heq
  rw [hlast]
  exact cons_ne_nil _ _

theorem foldl_closest_lt_iff (targetId : InfoHash) (nodes : List NodeKey) (distToBeat dist : ShaHash) :
    nodes.foldl (fun closest node =>
      if targetId.xor node.1 < closest then targetId.xor node.1 else closest) distToBeat < dist ↔
        distToBeat < dist ∨ ∃ node ∈ nodes, targetId.xor node.1 < dist := by
  induction nodes generalizing distToBeat with
  | nil => simp
  | cons n nodes ih =>
    simp only [foldl_cons, ih, mem_cons, exists_eq_or_imp, ← or_assoc]
    refine or_congr_left ?_
    split
    · rename_i hcloser
      refine ⟨Or.inr, fun h => h.elim (fun hlt => ?_) id⟩
      exact lt_trans (a := (targetId.xor n.1).hash) hcloser hlt
    · rename_i hfarther
      refine ⟨Or.inl, fun h => h.elim id fun hlt => ?_⟩
      exact lt_of_le_of_lt (a := distToBeat.hash) (not_lt.mp hfarther) hlt

/-- An answer is read as the list of its nodes. -/
theorem readResponse_snd (l : TableLookup) (node : NodeKey) (distToBeat : ShaHash) (msg : GetPeersResponse) :
    ∃ tokens, (l.readResponse node distToBeat msg).2 = considerNodes { l with
      announceTokens := tokens, recvValues := l.recvValues || msg.hasOnlyValues } msg.nodes distToBeat := by
  obtain ⟨tokens, htokens⟩ : ∃ tokens, l.storeToken node msg.token = { l with announceTokens := tokens } := by
    cases msg.token with
    | none => exact ⟨l.announceTokens, rfl⟩
    | some token => exact ⟨_, rfl⟩
  refine ⟨tokens, ?_⟩
  unfold readResponse GetPeersResponse.nodes GetPeersResponse.hasOnlyValues
  rw [htokens]
  generalize msg.infoType = info
  cases info with
  | nodes n => simp only [openInfo, Bool.or_false]
  | values v =>
    rw [Bool.or_true]
    exact (if_neg (lt_irrefl distToBeat.hash)).symm
  | both n v => simp only [openInfo, Bool.or_false]

theorem readResponse_spec (l : TableLookup) (node : NodeKey) (distToBeat : ShaHash) (msg : GetPeersResponse) :
    ∃ nextDistToBeat tokens sorted,
      ((∃ node ∈ l.newNodes msg, l.targetId.xor node.1 < distToBeat) → (l.readResponse node distToBeat msg).2 =
        (some (pickIterateNodes (l.newNodes msg) l.targetId), nextDistToBeat,
          { l.heard msg with announceTokens := tokens, allSortedNodes := sorted })) ∧
      ((¬ ∃ node ∈ l.newNodes msg, l.targetId.xor node.1 < distToBeat) → (l.readResponse node distToBeat msg).2 =
        (none, nextDistToBeat, { l.heard msg with announceTokens := tokens })) := by
  obtain ⟨tokens, hread⟩ := readResponse_snd l node distToBeat msg
  have hiff := (foldl_closest_lt_iff l.targetId (l.newNodes msg) distToBeat distToBeat).trans
    (or_iff_right (lt_irrefl distToBeat.hash))
  rw [hread]
  refine ⟨_, tokens, _, fun hcloser => if_pos (hiff.mpr hcloser), fun hfarther => ?_⟩
  exact if_neg fun hlt => hfarther (hiff.mp hlt)

/-! ### Calls -/

/-- As long as there may be a further round, it is known who was asked. -/
def Aware (l : TableLookup) (s : Shared) : Prop :=
  l.inEndgame = false → l.activeLookups ≠ ∅ → Known l s

/-- What a call does to a lookup: it asks some nodes, which are all different and were not asked exactly if
the call is careful. -/
structure Calls (l : TableLookup) (s : Shared) (careful : Prop) (r : TableLookup × Shared) : Prop where
  asks : ∃ nodes, Asks s nodes r.2 ∧ (nodes ≠ [] → Known l s) ∧
    (careful ↔ nodes.Nodup ∧ ∀ node ∈ nodes, node ∉ l.requestedNodes)
  aware : Aware r.1 r.2

variable {careful : Prop} {r : TableLookup × Shared}

theorem Calls.quiet (hcareful : careful) (haware : Aware r.1 r.2) (hqueries : r.2.queries = s.queries)
    (haccepts : r.2.accepts = s.accepts) : Calls l s careful r :=
  ⟨⟨[], .none hqueries haccepts, fun h => absurd rfl h, iff_of_true hcareful ⟨nodup_nil, nofun⟩⟩, haware⟩

theorem aware_of_inEndgame (h : l.inEndgame = true) : Aware l s := fun hno => by
  rw [h] at hno
  cases hno

theorem calls_endgameIfIdle (hrequested : l'.requestedNodes = l.requestedNodes) (hknown : Known l s)
    (hcareful : careful ↔ (l'.activeLookups.keys.isEmpty = true → l'.EndsFresh)) :
    Calls l s careful (l'.endgameIfIdle s).2 := by
  rw [hcareful]
  unfold endgameIfIdle
  split
  · rename_i hidle
    obtain ⟨hasks, hendgame⟩ := l'.startEndgameRound_spec s
    refine ⟨⟨_, hasks, fun _ => hknown, ?_⟩, aware_of_inEndgame hendgame⟩
    rw [imp_iff_right hidle, EndsFresh, hrequested]
  · rename_i hwaits
    refine .quiet (fun hidle => absurd hidle hwaits) (fun _ _ => ?_) rfl rfl
    rwa [Known, hrequested]

/-- After a round no endgame follows at once. -/
theorem roundsAfter_snd (l : TableLookup) (s : Shared) {nodes : List (NodeKey × Bool)} (hsome : picked nodes ≠ [])
    (distToBeat : ShaHash) : (l.roundsAfter s (some nodes) distToBeat).2 =
      (requestNodes
        ((picked nodes).map fun node => (node, distToBeat)) l s).2 := by
  obtain ⟨-, -, hactive⟩ := requestNodes_spec
    ((picked nodes).map fun node => (node, distToBeat)) l s
  rw [roundsAfter, startRequestRound]
  generalize requestNodes _ l s = result at hactive ⊢
  obtain ⟨fine, l₁, s₁⟩ := result
  cases fine with
  | false => rfl
  | true =>
    have hwaits : l₁.activeLookups.keys.isEmpty = false :=
      (hactive rfl).2 fun hnil => hsome (map_eq_nil_iff.mp hnil)
    simp only [List.isEmpty_iff, map_eq_nil_iff, hsome, if_false, endgameIfIdle, hwaits, Bool.false_eq_true]

theorem asks_requestNodes (l : TableLookup) (s : Shared) (nodes : List NodeKey)
    (dist : NodeKey → ShaHash) :
    Asks s nodes (requestNodes (nodes.map fun node => (node, dist node)) l s).2.2 := by
  have hasks := (requestNodes_spec (nodes.map fun node => (node, dist node)) l s).1
  rwa [map_map, show Prod.fst ∘ (fun node => (node, dist node)) = id from rfl, map_id] at hasks

theorem calls_roundsAfter (hrequested : l'.requestedNodes = l.requestedNodes) (hknown : Known l s)
    {nodes : List (NodeKey × Bool)} (hsome : picked nodes ≠ [])
    (hnew : ∀ node ∈ picked nodes, node ∉ l.requestedNodes) (distToBeat : ShaHash) :
    Calls l s (picked nodes).Nodup (l'.roundsAfter s (some nodes) distToBeat).2 := by
  have hknown' : Known l' s := by rwa [Known, hrequested]
  rw [roundsAfter_snd l' s hsome]
  exact ⟨⟨_, asks_requestNodes l' s _ fun _ => distToBeat, fun _ => hknown, (and_iff_left hnew).symm⟩,
    fun _ _ => (requestNodes_spec _ l' s).2.1 hknown'⟩

theorem recvResponse_snd {node : NodeKey} {transId : TransactionID} {msg : GetPeersResponse}
    {distToBeat : ShaHash} (hactive : l.activeLookups.lookup transId = some distToBeat) :
    (l.recvResponse s node transId msg).2 =
      let read := readResponse { l with activeLookups := l.activeLookups.erase transId } node distToBeat msg
      (read.2.2.2.unlessEndgame s fun l s => l.roundsAfter s read.2.1 read.2.2.1).2 := by
  rw [recvResponse, hactive]
  simp only
  generalize TableLookup.readResponse _ node distToBeat msg = result
  obtain ⟨optValues, iterateNodes, nextDistToBeat, l₁⟩ := result
  generalize TableLookup.unlessEndgame _ s _ = after
  obtain ⟨status, l₂, s₂⟩ := after
  cases status <;> cases optValues <;> rfl

theorem ne_empty_of_lookup {transId : TransactionID} {distToBeat : ShaHash}
    (h : l.activeLookups.lookup transId = some distToBeat) : l.activeLookups ≠ ∅ := fun hempty => by
  rw [hempty] at h
  cases h

theorem calls_recvResponse (haware : Aware l s) (node : NodeKey) (transId : TransactionID) (msg : GetPeersResponse) :
    Calls l s (l.Careful (.response node transId msg)) (l.recvResponse s node transId msg).2 := by
  cases hactive : l.activeLookups.lookup transId with
  | none =>
    rw [recvResponse, hactive]
    refine .quiet (fun distToBeat hsome => ?_) haware rfl rfl
    rw [hactive] at hsome
    cases hsome
  | some distToBeat =>
    have hknown := fun hno => haware hno (ne_empty_of_lookup hactive)
    obtain ⟨nextDistToBeat, tokens, sorted, hpicks, hnone⟩ := readResponse_spec
      { l with activeLookups := l.activeLookups.erase transId } node distToBeat msg
    rw [recvResponse_snd hactive, Careful, hactive]
    simp only [Option.some.injEq, forall_eq']
    by_cases hcloser : ∃ node ∈ l.newNodes msg, l.targetId.xor node.1 < distToBeat
    · simp only [if_pos hcloser, hpicks hcloser, unlessEndgame, heard]
      cases hendgame : l.inEndgame with
      | true => exact .quiet (fun hno => Bool.noConfusion hno) (aware_of_inEndgame rfl) rfl rfl
      | false =>
        simp only [Bool.false_eq_true, if_false, forall_const]
        refine calls_roundsAfter ?_ (hknown hendgame) (picked_pickIterateNodes_ne_nil _ ?_) ?_ _
        · rfl
        · obtain ⟨node, hnode, -⟩ := hcloser
          exact ne_nil_of_mem hnode
        · exact fun n hn => of_decide_eq_true (mem_filter.mp (mem_of_mem_pickIterateNodes hn)).2
    · simp only [if_neg hcloser, hnone hcloser, unlessEndgame, heard]
      cases hendgame : l.inEndgame with
      | true => exact .quiet (fun hno => Bool.noConfusion hno) (aware_of_inEndgame rfl) rfl rfl
      | false =>
        simp only [Bool.false_eq_true, if_false, forall_const]
        exact calls_endgameIfIdle rfl (hknown hendgame) Iff.rfl

theorem recvTimeout_snd {transId : TransactionID} {distToBeat : ShaHash}
    (hactive : l.activeLookups.lookup transId = some distToBeat) : (l.recvTimeout s transId).2 =
      (unlessEndgame { l with activeLookups := l.activeLookups.erase transId } s endgameIfIdle).2 := by
  rw [recvTimeout, hactive]
  simp only
  generalize TableLookup.unlessEndgame _ s _ = after
  obtain ⟨status, l₁, s₁⟩ := after
  cases status <;> rfl

theorem calls_recvTimeout (haware : Aware l s) (transId : TransactionID) :
    Calls l s (l.Careful (.timeout transId)) (l.recvTimeout s transId).2 := by
  cases hactive : l.activeLookups.lookup transId with
  | none =>
    rw [recvTimeout, hactive]
    exact .quiet (fun hmem => absurd hmem (AList.lookup_eq_none.mp hactive)) haware rfl rfl
  | some distToBeat =>
    have hmem : transId ∈ l.activeLookups := AList.lookup_isSome.mp (by rw [hactive]; rfl)
    rw [recvTimeout_snd hactive, Careful, imp_iff_right hmem, unlessEndgame]
    cases hendgame : l.inEndgame with
    | true => exact .quiet (fun hno => Bool.noConfusion hno) (aware_of_inEndgame rfl) rfl rfl
    | false =>
      simp only [Bool.false_eq_true, if_false, forall_const]
      exact calls_endgameIfIdle rfl (haware hendgame (ne_empty_of_lookup hactive)) Iff.rfl

theorem log_announceMessages (handshakePort : UInt16) (nodes : List (NodeKey × Bytes)) (l : TableLookup)
    (s : Shared) : (announceMessages handshakePort nodes l s).2.2.queries = s.queries ∧
      (announceMessages handshakePort nodes l s).2.2.accepts = s.accepts := by
  induction nodes generalizing l s with
  | nil => exact ⟨rfl, rfl⟩
  | cons entry nodes ih => exact ih _ _

theorem accepts_sendAnnounces (messages : List (NodeKey × MessageType)) (fine : Bool) (s : Shared) :
    (sendAnnounces messages fine s).2.accepts = s.accepts := by
  induction messages generalizing fine s with
  | nil => rfl
  | cons entry messages ih =>
    obtain ⟨node, message⟩ := entry
    rw [sendAnnounces]
    generalize hsend : s.send message node.2 = sent
    obtain ⟨taken, s₁⟩ := sent
    refine (ih _ _).trans (Eq.trans ?_ (accepts_of_send hsend).1)
    split
    · exact accepts_localRequestTo s₁ node
    · rfl

theorem announce_spec (l : TableLookup) (s : Shared) (handshakePort : UInt16) :
    (l.announce s handshakePort).2.2.queries = s.queries ∧
      (l.announce s handshakePort).2.2.accepts = s.accepts := by
  unfold announce
  split
  · simp only
    generalize take announcePickNum _ = nodes
    obtain ⟨-, hrequests⟩ := keeps_announceMessages handshakePort nodes l s
    obtain ⟨hqueries, haccepts⟩ := log_announceMessages handshakePort nodes l s
    exact ⟨(unlogged_sendAnnounces _ hrequests true _).queries.trans hqueries,
      (accepts_sendAnnounces _ true _).trans haccepts⟩
  · exact ⟨rfl, rfl⟩

theorem calls_recvFinished (l : TableLookup) (s : Shared) (handshakePort : UInt16) :
    Calls l s True (l.recvFinished s handshakePort).2 := by
  obtain ⟨hqueries, haccepts⟩ := l.announce_spec s handshakePort
  unfold recvFinished
  generalize l.announce s handshakePort = result at hqueries haccepts ⊢
  obtain ⟨fine, l₁, s₁⟩ := result
  have hall : Calls l s True ({ l₁ with activeLookups := ∅, inEndgame := false }, s₁) :=
    .quiet trivial (fun _ hwaits => absurd rfl hwaits) hqueries haccepts
  cases fine <;> exact hall

theorem calls_step (haware : Aware l s) (call : LookupCall) : Calls l s (l.Careful call) (l.step s call) := by
  cases call with
  | response node transId msg => exact calls_recvResponse haware node transId msg
  | timeout transId => exact calls_recvTimeout haware transId
  | finished handshakePort => exact calls_recvFinished l s handshakePort
  | others s' => exact .quiet trivial haware rfl rfl

theorem prefix_run (haware : Aware l s) (calls : List LookupCall) :
    s.queries <+: (l.run s calls).2.queries := by
  induction calls generalizing l s with
  | nil => exact prefix_rfl
  | cons call calls ih =>
    obtain ⟨⟨nodes, hasks, -⟩, haware'⟩ := calls_step haware call
    obtain ⟨asked, hasked, -⟩ := hasks.some
    exact IsPrefix.trans ⟨asked, hasked.symm⟩ (ih haware')

theorem nodup_run (haware : Aware l s) (hnodup : (s.queries).Nodup) (calls : List LookupCall) :
    (l.CarefulRun s calls → ((l.run s calls).2.queries).Nodup) ∧
      ((∀ i, s.accepts i = true) → ((l.run s calls).2.queries).Nodup → l.CarefulRun s calls) := by
  induction calls generalizing l s with
  | nil => exact ⟨fun _ => hnodup, fun _ _ => trivial⟩
  | cons call calls ih =>
    obtain ⟨⟨nodes, hasks, hknown, hcareful⟩, haware'⟩ := calls_step haware call
    have hfresh : l.Careful call ↔ (s.queries ++ nodes).Nodup := by
      rw [hcareful, nodup_append_comm, nodup_append, and_iff_right hnodup]
      refine and_congr_right fun _ => ?_
      refine forall₂_congr fun n hn => (not_congr (hknown (ne_nil_of_mem hn) n)).trans ?_
      exact ⟨fun hnot b hb heq => hnot (heq ▸ hb), fun hall hmem => hall n hmem rfl⟩
    constructor
    · intro hrun
      obtain ⟨asked, hasked, hsub⟩ := hasks.some
      refine (ih haware' ?_).1 hrun.2
      rw [hasked]
      exact (hfresh.mp hrun.1).sublist (hsub.append_left _)
    · intro haccepts hlast
      have hnodup' := hlast.sublist (prefix_run haware' calls).sublist
      refine ⟨hfresh.mpr (hasks.all haccepts ▸ hnodup'), ?_⟩
      exact (ih haware' hnodup').2 (by rwa [hasks.accepts]) hlast

/-! ### The first round -/

theorem perm_insertSortedNode (target : InfoHash) {nodes : List SortedNode} {node : NodeKey}
    (pinged : Bool) (hnew : node ∉ nodes.map SortedNode.node) :
    ((insertSortedNode target nodes node pinged).map SortedNode.node).Perm
      (node :: nodes.map SortedNode.node) := by
  have hinsert : ∀ index ≤ nodes.length,
      ((nodes.insertIdx index ⟨target.xor node.1, node, pinged⟩).map SortedNode.node).Perm
        (node :: nodes.map SortedNode.node) := by
    intro index hindex
    exact (perm_insertIdx _ _ hindex).map SortedNode.node
  unfold insertSortedNode
  simp only
  split
  · rename_i dupIndex _
    rw [if_pos]
    · exact hinsert dupIndex dupIndex.isLt.le
    · intro heq
      exact hnew (heq ▸ mem_map_of_mem (get_mem nodes dupIndex))
  · rename_i insIndex _
    exact hinsert insIndex (Nat.le_of_lt_succ insIndex.isLt)

theorem perm_insertSortedNodes (target : InfoHash) (good : List Node) (nodes : List SortedNode)
    (hnodup : (good.map Node.key ++ nodes.map SortedNode.node).Nodup) :
    ((good.foldl (fun nodes n => insertSortedNode target nodes n.key false) nodes).map
      SortedNode.node).Perm (good.map Node.key ++ nodes.map SortedNode.node) := by
  induction good generalizing nodes with
  | nil => exact .refl _
  | cons n good ih =>
    have hnew : n.key ∉ nodes.map SortedNode.node := fun hmem =>
      (nodup_cons.mp hnodup).1 (mem_append_right _ hmem)
    have hmoved : (good.map Node.key ++
        (insertSortedNode target nodes n.key false).map SortedNode.node).Perm
          (n.key :: (good.map Node.key ++ nodes.map SortedNode.node)) :=
      ((perm_insertSortedNode target false hnew).append_left _).trans perm_middle
    exact (ih _ (hmoved.nodup_iff.mpr hnodup)).trans hmoved

theorem picked_pickInitialNodes (sortedNodes : List SortedNode) :
    picked (pickInitialNodes sortedNodes).1 = (sortedNodes.take initialPickNum).map SortedNode.node := by
  have hfree : ∀ n, (replicate n (dummyNode, false)).filter (·.2) = [] := by
    intro n
    rw [filter_replicate]
    rfl
  rw [pickInitialNodes, picked, filter_append, hfree, append_nil,
    filter_eq_self.mpr ?_, map_map]
  · rfl
  · intro entry hentry
    obtain ⟨n, -, rfl⟩ := mem_map.mp hentry
    rfl

section

variable {tableId : NodeId} {targetId : InfoHash} {idGenerator : MIDGenerator} {willAnnounce : Bool}
  {status : LookupStatus}

/-- The first round asks some good nodes of the table, if there are any, and none of them twice. -/
theorem start_round (ht : s.table.Valid)
    (hstart : start tableId targetId idGenerator willAnnounce s = .ok (status, l, s')) :
    ∃ (l₀ : TableLookup) (nodes : List NodeKey), l₀.requestedNodes = ∅ ∧ nodes.Nodup ∧
      l₀.startRequestRound s (nodes.map fun node => (node, node.1.xor targetId)) = (status, l, s') := by
  obtain ⟨closest, hclosest, -, hkeys⟩ := Shared.closestNodes_spec ht targetId
  rw [start, hclosest, ok_bind] at hstart
  have hgood : (((closest.filter fun n => n.status s.world = .good).take maxBucketSize).map
      Node.key).Nodup :=
    pairwise_map.mpr (hkeys.sublist ((take_sublist _ _).trans filter_sublist))
  simp only at hstart
  generalize (closest.filter fun n => n.status s.world = .good).take maxBucketSize = good at hgood hstart
  have hsorted := perm_insertSortedNodes targetId good [] (by rwa [map_nil, append_nil])
  rw [map_nil, append_nil] at hsorted
  refine ⟨(prepare tableId targetId idGenerator willAnnounce good).2,
    picked (prepare tableId targetId idGenerator willAnnounce good).1, rfl, ?_, Except.ok.inj hstart⟩
  rw [prepare, picked_pickInitialNodes]
  exact (hsorted.nodup_iff.mpr hgood).sublist ((take_sublist _ _).map _)

theorem start_spec (ht : s.table.Valid) (hqueries : s.queries = [])
    (hstart : start tableId targetId idGenerator willAnnounce s = .ok (status, l, s')) :
    Aware l s' ∧ (s'.queries).Nodup ∧ s'.accepts = s.accepts := by
  obtain ⟨l₀, nodes, hrequested, hnodup, hround⟩ := start_round ht hstart
  have hasks := asks_requestNodes l₀ s nodes fun node => node.1.xor targetId
  have hknown := (requestNodes_spec (nodes.map fun node => (node, node.1.xor targetId)) l₀ s).2.1
  have hnone : Known l₀ s := by
    rw [Known, hrequested, hqueries]
    exact fun node => iff_of_false (Finset.notMem_empty node) not_mem_nil
  obtain ⟨hasks, hknown⟩ : Asks s nodes s' ∧ Known l s' := by
    rw [startRequestRound] at hround
    generalize requestNodes _ l₀ s = result at hround hasks hknown
    obtain ⟨fine, l₁, s₁⟩ := result
    cases fine with
    | false =>
      cases hround
      exact ⟨hasks, hknown hnone⟩
    | true =>
      simp only at hround
      split at hround
      all_goals
        cases hround
        exact ⟨hasks, hknown hnone⟩
  obtain ⟨asked, hasked, hsub⟩ := hasks.some
  refine ⟨fun _ _ => hknown, ?_, hasks.accepts⟩
  rw [hasked, hqueries]
  exact hsub.nodup hnodup

end

/-! ### Nodes that are asked twice -/

/-- Nobody is asked twice if all answers and timeouts find a lookup that they make ask new nodes only, and
only then if all messages can be sent. -/
theorem queries_nodup_iff {tableId : NodeId} {targetId : InfoHash} {idGenerator : MIDGenerator}
    {willAnnounce : Bool} {status : LookupStatus} (ht : s.table.Valid) (hqueries : s.queries = [])
    (hstart : start tableId targetId idGenerator willAnnounce s = .ok (status, l, s'))
    (calls : List LookupCall) :
    (l.CarefulRun s' calls → ((l.run s' calls).2.queries).Nodup) ∧
      ((∀ i, s.accepts i = true) → ((l.run s' calls).2.queries).Nodup → l.CarefulRun s' calls) := by
  obtain ⟨haware, hnodup, haccepts⟩ := start_spec ht hqueries hstart
  rw [← haccepts]
  exact nodup_run haware hnodup calls

/-! ### A lookup whose first answer names a node twice -/

def oneGood : Shared := .fresh oneNode (fun _ => .asGood 0) 1

def lookedFor : NodeKey := (idOf 16, .v4 (octets 10 0 0 2) 6881)

/-- The nodes of an answer that names the node that is looked for twice. -/
def namedTwice : CompactNodeInfo :=
  let bytes : Bytes := (idOf 16).hash ++ [10, 0, 0, 2, 26, 225]
  ⟨bytes ++ bytes, by decide⟩

/-- The answer of the node that is asked first. -/
def answerWith (nodes : CompactNodeInfo) : LookupCall :=
  .response (nodeOf 128 0).key (oneGood.generate (.new 0)).1 ⟨[], idOf 128, none, .nodes nodes⟩

theorem toList_namedTwice : namedTwice.toList = [lookedFor, lookedFor] := by decide +kernel

theorem start_oneGood : ∃ l s, start (idOf 0) (idOf 16) (.new 0) false oneGood = .ok (.searching, l, s) ∧
    s.queries = [(nodeOf 128 0).key] ∧ s.accepts = oneGood.accepts ∧
    l.targetId = idOf 16 ∧ l.inEndgame = false ∧ l.requestedNodes = {(nodeOf 128 0).key} ∧
    l.activeLookups.lookup (oneGood.generate (.new 0)).1 = some ((nodeOf 128 0).id.xor (idOf 16)) := by
  obtain ⟨closest, hclosest, hperm, -⟩ := Shared.closestNodes_spec (s := oneGood)
    reachable_oneNode.valid (idOf 16)
  have hlive : oneGood.table.entries.filter (Bucket.isPingable oneGood.world) =
      [nodeOf 128 0] := by decide
  obtain rfl : closest = [nodeOf 128 0] := perm_singleton.mp (hlive ▸ hperm)
  have hgood : ([nodeOf 128 0].filter fun n => n.status oneGood.world = .good).take
      maxBucketSize = [nodeOf 128 0] := by decide
  have hasks := asks_requestNodes (prepare (idOf 0) (idOf 16) (.new 0) false [nodeOf 128 0]).2 oneGood
    [(nodeOf 128 0).key] fun node => node.1.xor (idOf 16)
  obtain ⟨l, s, hrequest⟩ : ∃ l s, requestNodes
      ([(nodeOf 128 0).key].map fun node => (node, node.1.xor (idOf 16)))
      (prepare (idOf 0) (idOf 16) (.new 0) false [nodeOf 128 0]).2 oneGood = (true, l, s) := ⟨_, _, rfl⟩
  have hl : l = ((prepare (idOf 0) (idOf 16) (.new 0) false [nodeOf 128 0]).2.activate oneGood
      ((nodeOf 128 0).id.xor (idOf 16))).2.1.recordRequest (nodeOf 128 0).key (oneGood.generate (.new 0)).1 :=
    (congrArg (·.2.1) hrequest).symm
  rw [hrequest] at hasks
  have hround : (prepare (idOf 0) (idOf 16) (.new 0) false [nodeOf 128 0]).2.startRequestRound oneGood
      ([(nodeOf 128 0).key].map fun node => (node, node.1.xor (idOf 16))) = (.searching, l, s) := by
    rw [startRequestRound, hrequest]
    rfl
  refine ⟨l, s, ?_, hasks.all fun _ => rfl, hasks.accepts, ?_⟩
  · rw [start, hclosest, ok_bind, hgood]
    exact congrArg Except.ok hround
  · rw [hl]
    exact ⟨rfl, rfl, rfl, AList.lookup_insert _⟩

theorem newNodes_namedTwice (hrequested : l.requestedNodes = {(nodeOf 128 0).key}) :
    l.newNodes ⟨[], idOf 128, none, .nodes namedTwice⟩ = [lookedFor, lookedFor] := by
  simp only [newNodes, GetPeersResponse.nodes, toList_namedTwice, hrequested]
  decide

theorem closer_lookedFor (htarget : l.targetId = idOf 16) :
    ∃ node ∈ [lookedFor, lookedFor], l.targetId.xor node.1 < (nodeOf 128 0).id.xor (idOf 16) := by
  rw [htarget]
  decide

theorem queries_nodup_iff_namedTwice : ∃ l s,
    start (idOf 0) (idOf 16) (.new 0) false oneGood = .ok (.searching, l, s) ∧
    ¬ l.CarefulRun s [answerWith namedTwice] ∧
    ¬ ((l.run s [answerWith namedTwice]).2.queries).Nodup := by
  obtain ⟨l, s, hstart, -, -, htarget, hendgame, hrequested, hactive⟩ := start_oneGood
  have hcareless : ¬ l.CarefulRun s [answerWith namedTwice] := by
    rintro ⟨hcareful, -⟩
    have hpicks := hcareful _ hactive hendgame
    rw [newNodes_namedTwice hrequested, if_pos (closer_lookedFor htarget), htarget] at hpicks
    revert hpicks
    decide
  refine ⟨l, s, hstart, hcareless, fun hnodup => hcareless ?_⟩
  exact (queries_nodup_iff reachable_oneNode.valid rfl hstart _).2 (fun _ => rfl) hnodup

/-- An answer may make a lookup ask a node twice. -/
theorem namedTwice_asked_twice : ∃ l s,
    start (idOf 0) (idOf 16) (.new 0) false oneGood = .ok (.searching, l, s) ∧
    (l.run s [answerWith namedTwice]).2.queries = [(nodeOf 128 0).key, lookedFor, lookedFor] := by
  obtain ⟨l, s, hstart, hqueries, haccepts, htarget, hendgame, hrequested, hactive⟩ := start_oneGood
  refine ⟨l, s, hstart, ?_⟩
  have hpicks : picked (pickIterateNodes [lookedFor, lookedFor] l.targetId) = [lookedFor, lookedFor] := by
    rw [htarget]
    decide
  obtain ⟨nextDistToBeat, tokens, sorted, hread, -⟩ := readResponse_spec
    { l with activeLookups := l.activeLookups.erase (oneGood.generate (.new 0)).1 } (nodeOf 128 0).key
    ((nodeOf 128 0).id.xor (idOf 16)) ⟨[], idOf 128, none, .nodes namedTwice⟩
  rw [newNodes_namedTwice (by exact hrequested)] at hread
  change (l.recvResponse s _ _ _).2.2.queries = _
  rw [recvResponse_snd hactive]
  simp only [hread (closer_lookedFor htarget), unlessEndgame, heard]
  rw [if_neg (by rw [hendgame]; exact Bool.false_ne_true)]
  rw [roundsAfter_snd _ _ (by rw [hpicks]; exact cons_ne_nil _ _), hpicks,
    (asks_requestNodes _ s _ fun _ => nextDistToBeat).all fun i => haccepts ▸ rfl, hqueries]
  rfl

end TableLookup

end BitTorrent.Dht
