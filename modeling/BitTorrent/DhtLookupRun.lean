import BitTorrent.DhtLookup

/-! What the calls of a lookup keep. Whatever a lookup does, it only waits for answers to ids it has
generated. -/

namespace BitTorrent.Dht

open Rust List

namespace TableLookup

structure Keeps (l : TableLookup) (s : Shared) (l' : TableLookup) (s' : Shared) : Prop where
  works : s.Works s'
  active : (∀ transId ∈ l.activeLookups, transId ∈ s.issued) →
    ∀ transId ∈ l'.activeLookups, transId ∈ s'.issued

variable {l l' l'' : TableLookup} {s s' s'' : Shared}

theorem Keeps.trans (h : Keeps l s l' s') (h' : Keeps l' s' l'' s'') : Keeps l s l'' s'' :=
  ⟨h.works.trans h'.works, fun hl => h'.active (h.active hl)⟩

theorem Keeps.of_works (h : s.Works s')
    (hactive : ∀ transId ∈ l'.activeLookups, transId ∈ l.activeLookups ∨ transId ∈ s'.issued) :
    Keeps l s l' s' := by
  refine ⟨h, fun hl transId hid => ?_⟩
  rcases hactive transId hid with hid | hid
  · exact h.issued (hl transId hid)
  · exact hid

theorem Keeps.quiet (s : Shared)
    (hactive : ∀ transId ∈ l'.activeLookups, transId ∈ l.activeLookups) : Keeps l s l' s :=
  .of_works (.refl s) fun transId hid => Or.inl (hactive transId hid)

theorem Keeps.refl (l : TableLookup) (s : Shared) : Keeps l s l s :=
  .quiet s fun _ hid => hid

/-! ### Rounds -/

theorem keeps_activate (l : TableLookup) (s : Shared) (distToBeat : ShaHash) :
    Keeps l s (l.activate s distToBeat).2.1 (l.activate s distToBeat).2.2 := by
  refine .of_works (s.unlogged_generate l.idGenerator).toWorks fun transId hid => ?_
  rcases (AList.mem_insert _).mp hid with rfl | hid
  · exact Or.inr (s.mem_issued_generate l.idGenerator)
  · exact Or.inl hid

variable {transId : TransactionID} {node : NodeKey}

theorem keeps_query (l' : TableLookup) (hsend : s.send (l.getPeersMessage transId) node.2 = (true, s'))
    (hactive : l'.activeLookups = l.activeLookups) :
    Keeps l s l' ((s'.localRequestTo node).logQuery node) := by
  have hworks : s.Unlogged (s'.localRequestTo node) := by
    have hfirst := s.unlogged_send (.getPeers ⟨transId.asRef, l.tableId, l.targetId⟩) node.2
    rw [show s.send (.request (.getPeers ⟨transId.asRef, l.tableId, l.targetId⟩)) node.2 = (true, s')
      from hsend] at hfirst
    exact hfirst.trans (s'.unlogged_localRequestTo node)
  refine ⟨hworks.toWorks.trans (Shared.works_logQuery _ _), fun hl transId' hid => ?_⟩
  rw [hactive] at hid
  exact hworks.issued (hl transId' hid)

theorem keeps_refused (hsend : s.send (l.getPeersMessage transId) node.2 = (false, s')) : Keeps l s l s' := by
  have hworks := s.unlogged_send (.getPeers ⟨transId.asRef, l.tableId, l.targetId⟩) node.2
  rw [show s.send (.request (.getPeers ⟨transId.asRef, l.tableId, l.targetId⟩)) node.2 = (false, s')
    from hsend] at hworks
  exact .of_works hworks.toWorks fun _ hid => Or.inl hid

theorem keeps_requestNodes (nodes : List (NodeKey × ShaHash)) (l : TableLookup) (s : Shared) :
    Keeps l s (requestNodes nodes l s).2.1 (requestNodes nodes l s).2.2 := by
  induction nodes generalizing l s with
  | nil => exact .refl l s
  | cons entry nodes ih =>
    obtain ⟨node, distToBeat⟩ := entry
    have hfirst := keeps_activate l s distToBeat
    rw [requestNodes]
    split
    rename_i transId l₁ s₁ hactivate
    rw [hactivate] at hfirst
    split
    · rename_i s₂ hsend
      exact hfirst.trans (keeps_refused hsend)
    · rename_i s₂ hsend
      exact (hfirst.trans (keeps_query (l₁.recordRequest node transId) hsend rfl)).trans (ih _ _)

theorem keeps_startRequestRound (l : TableLookup) (s : Shared)
    (nodes : List (NodeKey × ShaHash)) :
    Keeps l s (l.startRequestRound s nodes).2.1 (l.startRequestRound s nodes).2.2 := by
  have hloop := keeps_requestNodes nodes l s
  unfold startRequestRound
  split
  · rename_i l₁ s₁ heq
    rw [heq] at hloop
    exact hloop
  · rename_i l₁ s₁ heq
    rw [heq] at hloop
    split
    · refine hloop.trans (.quiet s₁ fun transId hid => ?_)
      exact absurd hid (AList.notMem_empty _)
    · exact hloop

theorem keeps_endgameMessages (nodes : List SortedNode) (l : TableLookup) (s : Shared) :
    Keeps l s (endgameMessages nodes l s).2.1 (endgameMessages nodes l s).2.2 := by
  induction nodes generalizing l s with
  | nil => exact .refl l s
  | cons n nodes ih => exact (keeps_activate l s n.dist).trans (ih _ _)

theorem keeps_sendEndgame (messages : List (NodeKey × TransactionID)) (l : TableLookup) (s : Shared) :
    Keeps l s (sendEndgame messages l s).2.1 (sendEndgame messages l s).2.2 := by
  induction messages generalizing l s with
  | nil => exact .refl l s
  | cons message messages ih =>
    obtain ⟨node, transId⟩ := message
    rw [sendEndgame]
    split
    · rename_i s₁ hsend
      exact keeps_refused hsend
    · rename_i s₁ hsend
      exact (keeps_query { l with allSortedNodes := markNext l.allSortedNodes } hsend rfl).trans (ih _ _)

theorem keeps_startEndgameRound (l : TableLookup) (s : Shared) :
    Keeps l s (l.startEndgameRound s).2.1 (l.startEndgameRound s).2.2 := by
  have henter : Keeps l s { l with inEndgame := true } s := .quiet s fun _ hid => hid
  unfold startEndgameRound
  simp only
  split
  · exact henter
  · have hmessages := keeps_endgameMessages (l.allSortedNodes.filter (!·.requested))
      { l with inEndgame := true } s
    have hsend := hmessages.trans (keeps_sendEndgame (endgameMessages
      (l.allSortedNodes.filter (!·.requested)) { l with inEndgame := true } s).1 _ _)
    split
    · rename_i l₁ s₁ heq
      rw [heq] at hsend
      exact henter.trans hsend
    · rename_i l₁ s₁ heq
      rw [heq] at hsend
      exact henter.trans hsend

theorem keeps_endgameIfIdle (l : TableLookup) (s : Shared) :
    Keeps l s (l.endgameIfIdle s).2.1 (l.endgameIfIdle s).2.2 := by
  unfold endgameIfIdle
  split
  · exact keeps_startEndgameRound l s
  · exact .refl l s

theorem keeps_roundsAfter (l : TableLookup) (s : Shared)
    (iterateNodes : Option (List (NodeKey × Bool))) (distToBeat : ShaHash) :
    Keeps l s (l.roundsAfter s iterateNodes distToBeat).2.1
      (l.roundsAfter s iterateNodes distToBeat).2.2 := by
  cases iterateNodes with
  | none => exact keeps_endgameIfIdle l s
  | some nodes =>
    have hround := keeps_startRequestRound l s
      ((picked nodes).map fun node => (node, distToBeat))
    simp only [roundsAfter]
    split
    · rename_i l₁ s₁ heq
      rw [heq] at hround
      exact hround
    · rename_i l₁ s₁ _ heq
      rw [heq] at hround
      exact hround.trans (keeps_endgameIfIdle l₁ s₁)

/-! ### Calls -/

theorem readResponse_eq (l : TableLookup) (node : NodeKey) (distToBeat : ShaHash)
    (msg : GetPeersResponse) : ∃ tokens values nodes,
    (l.readResponse node distToBeat msg).2.2.2 =
      { l with announceTokens := tokens, recvValues := values, allSortedNodes := nodes } := by
  have htoken : ∃ tokens, l.storeToken node msg.token = { l with announceTokens := tokens } := by
    cases msg.token with
    | none => exact ⟨l.announceTokens, rfl⟩
    | some token => exact ⟨_, rfl⟩
  have hconsider : ∀ (l : TableLookup) (nodes : List NodeKey), ∃ sorted,
      (l.considerNodes nodes distToBeat).2.2 = { l with allSortedNodes := sorted } := by
    intro l nodes
    unfold considerNodes
    simp only
    split
    · exact ⟨_, rfl⟩
    · exact ⟨_, rfl⟩
  obtain ⟨tokens, htokens⟩ := htoken
  unfold readResponse
  simp only [htokens]
  cases msg.infoType with
  | values v => exact ⟨tokens, true, l.allSortedNodes, rfl⟩
  | nodes n =>
    obtain ⟨sorted, hsorted⟩ := hconsider { l with announceTokens := tokens } n.toList
    exact ⟨tokens, l.recvValues, sorted, hsorted⟩
  | both n v =>
    obtain ⟨sorted, hsorted⟩ := hconsider { l with announceTokens := tokens } n.toList
    exact ⟨tokens, l.recvValues, sorted, hsorted⟩

theorem keeps_erase (l : TableLookup) (s : Shared) (transId : TransactionID) :
    Keeps l s { l with activeLookups := l.activeLookups.erase transId } s :=
  .quiet s fun _ hid => (AList.mem_erase.mp hid).2

theorem keeps_unlessEndgame (rounds : TableLookup → Shared → LookupStatus × TableLookup × Shared)
    (hrounds : Keeps l s (rounds l s).2.1 (rounds l s).2.2) :
    Keeps l s (l.unlessEndgame s rounds).2.1 (l.unlessEndgame s rounds).2.2 := by
  unfold unlessEndgame
  split
  · exact .refl l s
  · exact hrounds

theorem keeps_recvResponse (l : TableLookup) (s : Shared) (node : NodeKey) (transId : TransactionID)
    (msg : GetPeersResponse) :
    Keeps l s (l.recvResponse s node transId msg).2.1 (l.recvResponse s node transId msg).2.2 := by
  unfold recvResponse
  split
  · exact .refl l s
  · rename_i distToBeat hactive
    obtain ⟨tokens, values, nodes, hread⟩ := readResponse_eq
      { l with activeLookups := l.activeLookups.erase transId } node distToBeat msg
    simp only
    generalize TableLookup.readResponse _ node distToBeat msg = result at hread ⊢
    obtain ⟨optValues, iterateNodes, nextDistToBeat, l₁⟩ := result
    have hfirst : Keeps l s l₁ s := by
      refine (keeps_erase l s transId).trans ?_
      rw [show l₁ = _ from hread]
      exact .quiet s fun _ hid => hid
    have hall := hfirst.trans (keeps_unlessEndgame
      (fun l s => l.roundsAfter s iterateNodes nextDistToBeat)
      (keeps_roundsAfter l₁ s iterateNodes nextDistToBeat))
    generalize TableLookup.unlessEndgame l₁ s _ = after at hall ⊢
    obtain ⟨status, l₂, s₂⟩ := after
    cases status <;> cases optValues <;> exact hall

theorem keeps_recvTimeout (l : TableLookup) (s : Shared) (transId : TransactionID) :
    Keeps l s (l.recvTimeout s transId).2.1 (l.recvTimeout s transId).2.2 := by
  unfold recvTimeout
  split
  · exact .refl l s
  · have hall := (keeps_erase l s transId).trans (keeps_unlessEndgame endgameIfIdle (keeps_endgameIfIdle
      { l with activeLookups := l.activeLookups.erase transId } s))
    simp only
    generalize TableLookup.unlessEndgame _ s _ = after at hall ⊢
    obtain ⟨status, l₁, s₁⟩ := after
    cases status <;> exact hall

theorem keeps_announceMessages (handshakePort : UInt16) (nodes : List (NodeKey × Bytes))
    (l : TableLookup) (s : Shared) :
    Keeps l s (announceMessages handshakePort nodes l s).2.1 (announceMessages handshakePort nodes l s).2.2 ∧
      ∀ p ∈ (announceMessages handshakePort nodes l s).1, ∃ request, p.2 = .request request := by
  induction nodes generalizing l s with
  | nil => exact ⟨.refl l s, fun p hp => absurd hp not_mem_nil⟩
  | cons entry nodes ih =>
    obtain ⟨node, token⟩ := entry
    have hfirst : Keeps l s { l with idGenerator := (s.generate l.idGenerator).2.1 }
        (s.generate l.idGenerator).2.2 :=
      .of_works (s.unlogged_generate l.idGenerator).toWorks fun _ hid => Or.inl hid
    obtain ⟨hrest, hmessages⟩ := ih { l with idGenerator := (s.generate l.idGenerator).2.1 }
      (s.generate l.idGenerator).2.2
    refine ⟨hfirst.trans hrest, forall_mem_cons.mpr ⟨⟨_, rfl⟩, hmessages⟩⟩

theorem unlogged_sendAnnounces (messages : List (NodeKey × MessageType))
    (hmessages : ∀ p ∈ messages, ∃ request, p.2 = .request request) (fine : Bool) (s : Shared) :
    s.Unlogged (sendAnnounces messages fine s).2 := by
  induction messages generalizing fine s with
  | nil => exact .refl s
  | cons entry messages ih =>
    obtain ⟨node, message⟩ := entry
    obtain ⟨⟨request, hrequest⟩, hmessages⟩ := forall_mem_cons.mp hmessages
    rw [sendAnnounces]
    simp only at hrequest ⊢
    rw [hrequest]
    refine (s.unlogged_send request node.2).trans (Shared.Unlogged.trans ?_ (ih hmessages _ _))
    split
    · exact Shared.unlogged_localRequestTo _ node
    · exact .refl _

theorem keeps_announce (l : TableLookup) (s : Shared) (handshakePort : UInt16) :
    Keeps l s (l.announce s handshakePort).2.1 (l.announce s handshakePort).2.2 := by
  unfold announce
  split
  · simp only
    generalize take announcePickNum _ = nodes
    obtain ⟨hkeeps, hrequests⟩ := keeps_announceMessages handshakePort nodes l s
    refine hkeeps.trans (.of_works (unlogged_sendAnnounces _ hrequests true _).toWorks ?_)
    exact fun _ hid => Or.inl hid
  · exact .refl l s

theorem keeps_recvFinished (l : TableLookup) (s : Shared) (handshakePort : UInt16) :
    Keeps l s (l.recvFinished s handshakePort).2.1 (l.recvFinished s handshakePort).2.2 := by
  have hannounce := keeps_announce l s handshakePort
  unfold recvFinished
  generalize l.announce s handshakePort = result at hannounce ⊢
  obtain ⟨fine, l₁, s₁⟩ := result
  have hall : Keeps l s { l₁ with activeLookups := ∅, inEndgame := false } s₁ :=
    hannounce.trans (.quiet s₁ fun transId hid => absurd hid (AList.notMem_empty transId))
  cases fine <;> exact hall

/-- A lookup that finds nobody to ask. -/
def idle (tableId : NodeId) (targetId : InfoHash) (idGenerator : MIDGenerator) (willAnnounce : Bool) :
    TableLookup :=
  ⟨tableId, targetId, false, false, idGenerator, willAnnounce, ∅, ∅, ∅, [], []⟩

variable {targetId : InfoHash}

/-- Without a good node no query is sent; the lookup is there all the same. -/
theorem new_of_no_good (tableId : NodeId) (idGenerator : MIDGenerator)
    (willAnnounce : Bool) {closest : List Node} (hclosest : s.closestNodes targetId = .ok closest)
    (hgood : closest.filter (fun n => n.status s.world = .good) = []) :
    new tableId targetId idGenerator willAnnounce s =
      .ok (some (idle tableId targetId idGenerator willAnnounce), s) := by
  unfold new start
  simp only [hclosest, ok_bind, hgood]
  rfl

theorem keeps_start {tableId : NodeId} {idGenerator : MIDGenerator}
    {willAnnounce : Bool} {status : LookupStatus}
    (h : start tableId targetId idGenerator willAnnounce s = .ok (status, l, s')) :
    ∃ l₀ : TableLookup, l₀.activeLookups = ∅ ∧ Keeps l₀ s l s' := by
  obtain ⟨closest, -, h⟩ := bind_eq_ok.mp h
  have hround := Except.ok.inj h
  refine ⟨(prepare tableId targetId idGenerator willAnnounce
    ((closest.filter fun n => n.status s.world = .good).take maxBucketSize)).2, rfl, ?_⟩
  rw [← show _ = l from congrArg (·.2.1) hround, ← show _ = s' from congrArg (·.2.2) hround]
  exact keeps_startRequestRound _ s _

end TableLookup

end BitTorrent.Dht
