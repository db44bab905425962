import BitTorrent.DhtBootstrap

/-! What the calls of a bootstrap and of a refresh keep, and when they return. The counter of buckets
goes up to the number of buckets, and a bootstrap that gets there says that it is complete; the
function for the next bucket returns exactly if the counter is below that number. -/

namespace BitTorrent.Dht

open Rust List

theorem flipIdBitAtIndex_ok (nodeId : NodeId) {index : Nat} (h : index < maxBuckets) :
    ∃ id, flipIdBitAtIndex nodeId index = .ok id := by
  have hbyte : index / 8 < nodeId.hash.length := by
    rw [nodeId.size]
    simp only [maxBuckets, shaHashLen] at *
    omega
  rw [flipIdBitAtIndex, dif_pos hbyte]
  exact ⟨_, rfl⟩

theorem flipIdBitAtIndex_panics (nodeId : NodeId) {index : Nat} (h : maxBuckets ≤ index) :
    flipIdBitAtIndex nodeId index = .error .panic := by
  have hbyte : ¬ index / 8 < nodeId.hash.length := by
    rw [nodeId.size]
    simp only [maxBuckets, shaHashLen] at *
    omega
  rw [flipIdBitAtIndex, dif_neg hbyte]

namespace TableBootstrap

structure Keeps (b : TableBootstrap) (s : Shared) (b' : TableBootstrap) (s' : Shared) : Prop where
  works : s.Works s'
  active : (∀ transId ∈ b.activeMessages, transId ∈ s.issued) →
    ∀ transId ∈ b'.activeMessages, transId ∈ s'.issued

variable {b b' b'' : TableBootstrap} {s s' s'' : Shared} {transId : TransactionID}
  {status : BootstrapStatus}

theorem Keeps.trans (h : Keeps b s b' s') (h' : Keeps b' s' b'' s'') : Keeps b s b'' s'' :=
  ⟨h.works.trans h'.works, fun hb => h'.active (h.active hb)⟩

theorem Keeps.quiet (h : s.Works s') (hactive : b'.activeMessages ⊆ b.activeMessages) : Keeps b s b' s' :=
  ⟨h, fun hb transId hid => h.issued (hb transId (hactive hid))⟩

theorem Keeps.refl (b : TableBootstrap) (s : Shared) : Keeps b s b s :=
  .quiet (.refl s) fun _ hid => hid

theorem keeps_startBootstrap (b : TableBootstrap) (s : Shared) :
    Keeps b s (b.startBootstrap s).2.1 (b.startBootstrap s).2.2 := by
  have hgenerate := s.unlogged_generate b.idGenerator
  have hissued := s.mem_issued_generate b.idGenerator
  unfold startBootstrap
  generalize s.generate b.idGenerator = generated at hgenerate hissued ⊢
  obtain ⟨transId, idGenerator, s₁⟩ := generated
  have hsend := s₁.unlogged_sendAll (.findNode ⟨transId.asRef, b.tableId, b.tableId⟩)
    (b.startingRouters ++ b.startingNodes)
  simp only [findNodeMessage]
  generalize s₁.sendAll _ _ = sending at hsend ⊢
  obtain ⟨taken, s₂⟩ := sending
  have hworks := hgenerate.trans hsend
  have hactive : ∀ transId' ∈ ({transId} : Finset TransactionID), transId' ∈ s₂.issued := by
    intro transId' hid
    rw [Finset.mem_singleton.mp hid]
    exact hsend.issued hissued
  cases taken <;> exact ⟨hworks.toWorks, fun _ => hactive⟩

theorem startBootstrap_status (b : TableBootstrap) (s : Shared) :
    (b.startBootstrap s).2.1.currBootstrapBucket = 0 ∧
      ((b.startBootstrap s).1 = .ok .bootstrapping ∨ (b.startBootstrap s).1 = .error .failed) := by
  unfold startBootstrap
  simp only
  split
  · refine ⟨rfl, Or.inl ?_⟩
    rw [currentBootstrapStatus, if_neg]
    rintro (h | h)
    · cases h
    · exact Finset.singleton_ne_empty _ h
  · exact ⟨rfl, Or.inr rfl⟩

def restarted (b : TableBootstrap) (s : Shared) : TableBootstrap :=
  { b with
    idGenerator := (s.generate b.idGenerator).2.1
    activeMessages := {(s.generate b.idGenerator).1}
    tasks := b.tasks ++ [.bootstrapTimeout (s.generate b.idGenerator).1]
    currBootstrapBucket := 0 }

theorem startBootstrap_of_nobody (hnobody : b.startingRouters ++ b.startingNodes = []) (s : Shared) :
    b.startBootstrap s = (.ok .bootstrapping, b.restarted s, (s.generate b.idGenerator).2.2) := by
  unfold startBootstrap
  simp only [hnobody, Shared.sendAll]
  rw [currentBootstrapStatus, if_neg]
  · rfl
  · rintro (h | h)
    · cases h
    · exact Finset.singleton_ne_empty _ h

theorem keeps_pingNodes (targetId : NodeId) (nodes : List Node) (b : TableBootstrap) (s : Shared) :
    Keeps b s (pingNodes targetId nodes b s).2.1 (pingNodes targetId nodes b s).2.2 ∧
      (pingNodes targetId nodes b s).2.1.currBootstrapBucket = b.currBootstrapBucket := by
  induction nodes generalizing b s with
  | nil => exact ⟨.refl b s, rfl⟩
  | cons node nodes ih =>
    have hgenerate := s.unlogged_generate b.idGenerator
    have hissued := s.mem_issued_generate b.idGenerator
    rw [pingNodes]
    generalize s.generate b.idGenerator = generated at hgenerate hissued ⊢
    obtain ⟨transId, idGenerator, s₁⟩ := generated
    have hsend := s₁.unlogged_send (.findNode ⟨transId.asRef, b.tableId, targetId⟩) node.addr
    simp only [findNodeMessage]
    generalize s₁.send _ _ = sending at hsend ⊢
    obtain ⟨taken, s₂⟩ := sending
    have hworks := hgenerate.trans hsend
    cases taken with
    | false => exact ⟨.quiet hworks.toWorks fun _ hid => hid, rfl⟩
    | true =>
      have hall := hworks.trans (s₂.unlogged_localRequest node)
      simp only
      obtain ⟨hrest, hcurr⟩ := ih _ (s₂.localRequest node)
      refine ⟨Keeps.trans ⟨hall.toWorks, ?_⟩ hrest, hcurr⟩
      intro hb transId' hid
      rcases Finset.mem_insert.mp hid with rfl | hid
      · exact (s₂.unlogged_localRequest node).issued (hsend.issued hissued)
      · exact hall.issued (hb transId' hid)

/-! ### The next bucket -/

/-- What is known when the function for the next bucket returns. -/
structure Advanced (b : TableBootstrap) (s : Shared) (status : BootstrapStatus) (b' : TableBootstrap)
    (s' : Shared) : Prop where
  keeps : Keeps b s b' s'
  below : b.currBootstrapBucket < maxBuckets
  le : b'.currBootstrapBucket ≤ maxBuckets
  completed : status = .completed ↔ b'.currBootstrapBucket = maxBuckets

theorem advanced_of_bootstrapNextBucket (fuel : Nat) (b : TableBootstrap) (s : Shared)
    (h : bootstrapNextBucket fuel b s = .ok (status, b', s')) : Advanced b s status b' s' := by
  induction fuel generalizing b s with
  | zero => cases h
  | succ fuel ih =>
    obtain ⟨targetId, hflip, h⟩ := bind_eq_ok.mp h
    obtain ⟨nodes, -, h⟩ := bind_eq_ok.mp h
    have hbelow : b.currBootstrapBucket < maxBuckets := by
      by_contra hge
      rw [flipIdBitAtIndex_panics _ (not_lt.mp hge)] at hflip
      cases hflip
    unfold sendBootstrapRequests at h
    obtain ⟨hkeeps, hcurr⟩ := keeps_pingNodes targetId (nodes.take bootstrapPingsPerBucket) b s
    simp only at h
    generalize pingNodes targetId _ b s = pinged at hkeeps hcurr h
    obtain ⟨taken, b₁, s₁⟩ := pinged
    simp only at hcurr
    cases taken with
    | false =>
      cases h
      refine ⟨hkeeps, hbelow, by omega, ⟨fun h => (by cases h), fun h => ?_⟩⟩
      omega
    | true =>
      have hnext : Keeps b s { b₁ with currBootstrapBucket := b₁.currBootstrapBucket + 1 } s₁ :=
        hkeeps.trans (.quiet (.refl s₁) fun _ hid => hid)
      simp only at h
      split at h
      · rename_i hlast
        cases h
        exact ⟨hnext, hbelow, hlast.le, iff_of_true rfl hlast⟩
      · rename_i hlast
        split at h
        · have hrest := ih _ _ h
          exact ⟨hnext.trans hrest.keeps, hbelow, hrest.le, hrest.completed⟩
        · cases h
          refine ⟨hnext, hbelow, ?_, iff_of_false (fun h => by cases h) hlast⟩
          change b₁.currBootstrapBucket + 1 ≤ maxBuckets
          omega

theorem bootstrapNextBucket_ok (fuel : Nat) (b : TableBootstrap) (s : Shared) (ht : s.table.Valid)
    (hbelow : b.currBootstrapBucket < maxBuckets) (hfuel : maxBuckets ≤ fuel + b.currBootstrapBucket) :
    ∃ result, bootstrapNextBucket fuel b s = .ok result := by
  induction fuel generalizing b s with
  | zero => omega
  | succ fuel ih =>
    obtain ⟨targetId, hflip⟩ := flipIdBitAtIndex_ok b.tableId hbelow
    obtain ⟨nodes, hnodes⟩ : ∃ nodes, b.questionableNodes s targetId = .ok nodes := by
      obtain ⟨closest, hclosest, -⟩ := Shared.closestNodes_spec ht targetId
      unfold questionableNodes
      simp only [hclosest]
      split
      · exact ⟨_, rfl⟩
      · exact ⟨_, rfl⟩
    rw [bootstrapNextBucket, hflip, ok_bind, hnodes, ok_bind, sendBootstrapRequests]
    obtain ⟨hkeeps, hcurr⟩ := keeps_pingNodes targetId (nodes.take bootstrapPingsPerBucket) b s
    simp only
    generalize pingNodes targetId _ b s = pinged at hkeeps hcurr ⊢
    obtain ⟨taken, b₁, s₁⟩ := pinged
    simp only at hcurr
    cases taken with
    | false => exact ⟨_, rfl⟩
    | true =>
      simp only
      split
      · exact ⟨_, rfl⟩
      · rename_i hlast
        split
        · refine ih _ _ (hkeeps.works.table ▸ ht) ?_ ?_
          · change b₁.currBootstrapBucket + 1 < maxBuckets
            omega
          · change maxBuckets ≤ fuel + (b₁.currBootstrapBucket + 1)
            omega
        · exact ⟨_, rfl⟩

theorem bootstrapNextBucket_panics (fuel : Nat) (b : TableBootstrap) (s : Shared)
    (h : maxBuckets ≤ b.currBootstrapBucket) : bootstrapNextBucket (fuel + 1) b s = .error .panic := by
  rw [bootstrapNextBucket, flipIdBitAtIndex_panics _ h]
  rfl

theorem bootstrapNextBucket_succ (fuel : Nat) {nodes : List Node}
    (hbelow : b.currBootstrapBucket < maxBuckets)
    (hnodes : ∀ targetId, b.questionableNodes s targetId = .ok nodes) : ∃ targetId,
    bootstrapNextBucket (fuel + 1) b s =
      sendBootstrapRequests (bootstrapNextBucket fuel) b s nodes targetId := by
  obtain ⟨targetId, hflip⟩ := flipIdBitAtIndex_ok b.tableId hbelow
  exact ⟨targetId, by rw [bootstrapNextBucket, hflip, ok_bind, hnodes, ok_bind]⟩

/-- Buckets without anyone to ask are gone through in one call. -/
theorem bootstrapNextBucket_skip (fuel k : Nat) (hbelow : b.currBootstrapBucket + k < maxBuckets)
    (hnone : ∀ n, b.currBootstrapBucket ≤ n → n < b.currBootstrapBucket + k → ∀ targetId,
      questionableNodes { b with currBootstrapBucket := n } s targetId = .ok []) :
    bootstrapNextBucket (fuel + k) b s =
      bootstrapNextBucket fuel { b with currBootstrapBucket := b.currBootstrapBucket + k } s := by
  induction k generalizing b with
  | zero => rfl
  | succ k ih =>
    obtain ⟨targetId, heq⟩ := bootstrapNextBucket_succ (fuel + k)
      (show b.currBootstrapBucket < maxBuckets by omega) (hnone _ le_rfl (by omega))
    rw [← Nat.add_assoc, heq, sendBootstrapRequests]
    simp only [take_nil, pingNodes, isEmpty_nil, if_true]
    rw [if_neg (by omega), ih]
    · congr 2
      simp only
      omega
    · simp only
      omega
    · intro n hle hlt
      exact hnone n (by simp only at hle; omega) (by simp only at hlt; omega)

/-- What is left unchanged by one message of a bootstrap, apart from the state of the node. -/
structure Pinged (s s' : Shared) (node : Node) : Prop where
  now : s'.now = s.now
  table : s'.table = s.table
  accepts : s'.accepts = s.accepts
  cells : s'.cells = (s.localRequest node).cells

/-- A bootstrap after a bucket with one message. -/
def pinged (b : TableBootstrap) (transId : TransactionID) (idGenerator : MIDGenerator) : TableBootstrap :=
  { b with
    idGenerator := idGenerator
    activeMessages := insert transId b.activeMessages
    tasks := b.tasks ++ [.bootstrapTimeout transId]
    currBootstrapBucket := b.currBootstrapBucket + 1 }

theorem bootstrapNextBucket_ping (fuel : Nat) {node : Node} {actionId : ActionID}
    (hbelow : b.currBootstrapBucket < maxBuckets)
    (hnodes : ∀ targetId, b.questionableNodes s targetId = .ok [node])
    (haccepts : ∀ k, s.accepts k = true) (hof : b.idGenerator.Of actionId) :
    ∃ transId idGenerator s', transId.actionId = actionId ∧ idGenerator.Of actionId ∧
      Pinged s s' node ∧ bootstrapNextBucket (fuel + 1) b s =
        .ok (if b.currBootstrapBucket + 1 = maxBuckets then .completed else .bootstrapping,
          b.pinged transId idGenerator, s') := by
  obtain ⟨targetId, heq⟩ := bootstrapNextBucket_succ fuel hbelow hnodes
  obtain ⟨haction, hnext⟩ := hof.generate (s.shuffles s.issued.length)
  obtain ⟨s₁, hsend, hs₁⟩ : ∃ s₁, (s.generate b.idGenerator).2.2.send
      (b.findNodeMessage (s.generate b.idGenerator).1 targetId) node.addr = (true, s₁) ∧
      s₁ = { (s.generate b.idGenerator).2.2 with
        sends := s.sends + 1
        sent := s.sent ++ [(b.findNodeMessage (s.generate b.idGenerator).1 targetId, node.addr)] } :=
    ⟨_, if_pos (haccepts s.sends), rfl⟩
  refine ⟨(s.generate b.idGenerator).1, (s.generate b.idGenerator).2.1, s₁.localRequest node, haction,
    hnext, ?_, ?_⟩
  · have hcells : s₁.localRequest node = { s₁ with cells := (s.localRequest node).cells } := by
      rw [hs₁]
      unfold Shared.localRequest Shared.modify
      cases node.cell with
      | none => rfl
      | some c => rfl
    rw [hcells, hs₁]
    exact ⟨rfl, rfl, rfl, rfl⟩
  · have hping : pingNodes targetId [node] b s = (true, { b with
        idGenerator := (s.generate b.idGenerator).2.1
        activeMessages := insert (s.generate b.idGenerator).1 b.activeMessages
        tasks := b.tasks ++ [.bootstrapTimeout (s.generate b.idGenerator).1] },
        s₁.localRequest node) := by
      have hsent : (s.generate b.idGenerator).2.2.send
          (findNodeMessage { b with idGenerator := (s.generate b.idGenerator).2.1 } (s.generate b.idGenerator).1
            targetId) node.addr = _ := hsend
      rw [pingNodes]
      simp only [hsent]
      rfl
    rw [heq, sendBootstrapRequests]
    simp only [bootstrapPingsPerBucket, take_succ_cons, take_nil, hping]
    by_cases hlast : b.currBootstrapBucket + 1 = maxBuckets
    · rw [if_pos hlast, if_pos hlast]
      rfl
    · rw [if_neg hlast, if_neg hlast]
      rfl

/-! ### Responses and timeouts -/

/-- What is known when a response or a timeout has been processed. -/
structure Received (b : TableBootstrap) (s : Shared) (status : BootstrapStatus) (b' : TableBootstrap)
    (s' : Shared) : Prop where
  keeps : Keeps b s b' s'
  le : b.currBootstrapBucket ≤ maxBuckets → b'.currBootstrapBucket ≤ maxBuckets
  completed : status = .completed → b'.currBootstrapBucket = maxBuckets
  same : status ≠ .completed →
    (b'.currBootstrapBucket = maxBuckets ↔ b.currBootstrapBucket = maxBuckets)

theorem currentBootstrapStatus_ne_completed (b : TableBootstrap) : b.currentBootstrapStatus ≠ .completed := by
  unfold currentBootstrapStatus
  split <;> exact fun h => by cases h

theorem Received.of_current (h : Keeps b s b' s') (hcurr : b'.currBootstrapBucket = b.currBootstrapBucket) :
    Received b s b'.currentBootstrapStatus b' s' :=
  ⟨h, fun hle => hcurr ▸ hle, fun hstatus => absurd hstatus (currentBootstrapStatus_ne_completed b'),
    fun _ => by rw [hcurr]⟩

theorem received_of_nextBucketIfIdle (active : Finset TransactionID) (hactive : active ⊆ b.activeMessages)
    (h : nextBucketIfIdle { b with activeMessages := active } s = .ok (status, b', s')) :
    Received b s status b' s' := by
  have hforget : Keeps b s { b with activeMessages := active } s := .quiet (.refl s) hactive
  unfold nextBucketIfIdle at h
  split at h
  · have hadvanced := advanced_of_bootstrapNextBucket _ _ _ h
    refine ⟨hforget.trans hadvanced.keeps, fun _ => hadvanced.le, hadvanced.completed.mp, ?_⟩
    intro hstatus
    exact iff_of_false (mt hadvanced.completed.mpr hstatus) hadvanced.below.ne
  · cases h
    exact .of_current hforget rfl

theorem received_of_recvTimeout (h : b.recvTimeout s transId = .ok (status, b', s')) :
    Received b s status b' s' := by
  unfold recvTimeout at h
  split at h
  · exact received_of_nextBucketIfIdle _ (Finset.erase_subset _ _) h
  · cases h
    exact .of_current (.refl b s) rfl

theorem received_of_recvResponse (h : b.recvResponse s transId = .ok (status, b', s')) :
    Received b s status b' s' := by
  unfold recvResponse at h
  split at h
  · simp only at h
    split at h
    · exact received_of_nextBucketIfIdle _ (Finset.erase_subset _ _) h
    · exact received_of_nextBucketIfIdle b.activeMessages (fun _ hid => hid) h
  · cases h
    exact .of_current (.refl b s) rfl

/-- The next bucket is out of bounds if the last one was. -/
theorem nextBucketIfIdle_returns (ht : s.table.Valid) (hle : b.currBootstrapBucket ≤ maxBuckets) :
    if b.activeMessages = ∅ ∧ b.currBootstrapBucket = maxBuckets then b.nextBucketIfIdle s = .error .panic
    else ∃ result, b.nextBucketIfIdle s = .ok result := by
  unfold nextBucketIfIdle
  by_cases hidle : b.activeMessages = ∅
  · by_cases hlast : b.currBootstrapBucket = maxBuckets
    · rw [if_pos ⟨hidle, hlast⟩, if_pos hidle]
      exact bootstrapNextBucket_panics _ b s hlast.ge
    · rw [if_neg fun h => hlast h.2, if_pos hidle]
      exact bootstrapNextBucket_ok _ b s ht (lt_of_le_of_ne hle hlast) (Nat.le_add_right _ _)
  · rw [if_neg fun h => hidle h.1, if_neg hidle]
    exact ⟨_, rfl⟩

/-- The message is the only one the bootstrap waits for, and all buckets are done. -/
def OverrunBy (b : TableBootstrap) (transId : TransactionID) : Prop :=
  b.currBootstrapBucket = maxBuckets ∧ b.activeMessages = {transId}

instance (b : TableBootstrap) (transId : TransactionID) : Decidable (b.OverrunBy transId) :=
  inferInstanceAs (Decidable (_ ∧ _))

theorem overrunBy_iff (hmem : transId ∈ b.activeMessages) :
    b.OverrunBy transId ↔ b.activeMessages.erase transId = ∅ ∧ b.currBootstrapBucket = maxBuckets := by
  rw [OverrunBy, and_comm, Finset.erase_eq_empty_iff]
  constructor
  · rintro ⟨hactive, hlast⟩
    exact ⟨Or.inr hactive, hlast⟩
  · rintro ⟨hactive | hactive, hlast⟩
    · rw [hactive] at hmem
      cases hmem
    · exact ⟨hactive, hlast⟩

theorem recvTimeout_returns (ht : s.table.Valid) (hle : b.currBootstrapBucket ≤ maxBuckets)
    (transId : TransactionID) : if b.OverrunBy transId then b.recvTimeout s transId = .error .panic
    else ∃ result, b.recvTimeout s transId = .ok result := by
  unfold recvTimeout
  by_cases hmem : transId ∈ b.activeMessages
  · simp only [if_pos hmem, overrunBy_iff hmem]
    exact nextBucketIfIdle_returns (b := { b with activeMessages := b.activeMessages.erase transId })
      ht hle
  · have hover : ¬ b.OverrunBy transId := fun h => hmem (h.2 ▸ Finset.mem_singleton_self transId)
    rw [if_neg hover, if_neg hmem]
    exact ⟨_, rfl⟩

theorem recvResponse_returns (ht : s.table.Valid) (hle : b.currBootstrapBucket ≤ maxBuckets)
    (transId : TransactionID) : if b.OverrunBy transId then b.recvResponse s transId = .error .panic
    else ∃ result, b.recvResponse s transId = .ok result := by
  unfold recvResponse
  by_cases hmem : transId ∈ b.activeMessages
  · by_cases hfirst : b.currBootstrapBucket = 0
    · have hover : ¬ b.OverrunBy transId := fun h => by
        rw [OverrunBy, hfirst] at h
        exact absurd h.1 (by decide)
      rw [if_neg hover, if_pos hmem]
      simp only [hfirst, ne_eq, not_true_eq_false, if_false]
      have hreturns := nextBucketIfIdle_returns (b := b) ht hle
      rwa [if_neg] at hreturns
      rintro ⟨hactive, -⟩
      rw [hactive] at hmem
      cases hmem
    · simp only [if_pos hmem, overrunBy_iff hmem, ne_eq, hfirst, not_false_eq_true]
      exact nextBucketIfIdle_returns (b := { b with activeMessages := b.activeMessages.erase transId })
        ht hle
  · have hover : ¬ b.OverrunBy transId := fun h => hmem (h.2 ▸ Finset.mem_singleton_self transId)
    rw [if_neg hover, if_neg hmem]
    exact ⟨_, rfl⟩

end TableBootstrap

/-! ### Refreshes -/

namespace TableRefresh

structure Keeps (r : TableRefresh) (s : Shared) (r' : TableRefresh) (s' : Shared) : Prop where
  works : s.Works s'
  bucket : r.currRefreshBucket ≤ maxBuckets → r'.currRefreshBucket ≤ maxBuckets

variable {r r' : TableRefresh} {s s' : Shared} {status : RefreshStatus}

theorem refreshBucket_lt (h : r.currRefreshBucket ≤ maxBuckets) : r.refreshBucket < maxBuckets := by
  unfold refreshBucket
  split
  · decide
  · omega

theorem pingClosest_spec (r : TableRefresh) (s : Shared) (targetId : NodeId) (closest : List Node) :
    s.Unlogged (r.pingClosest s targetId closest).2.2 ∧
      (r.pingClosest s targetId closest).2.1.currRefreshBucket = r.currRefreshBucket := by
  unfold pingClosest
  split
  · exact ⟨.refl s, rfl⟩
  · rename_i node _
    have hgenerate := s.unlogged_generate r.idGenerator
    generalize s.generate r.idGenerator = generated at hgenerate ⊢
    obtain ⟨transId, idGenerator, s₁⟩ := generated
    have hsend := s₁.unlogged_send (.findNode ⟨transId.asRef, s₁.table.nodeId, targetId⟩) node.addr
    simp only
    generalize s₁.send _ _ = sending at hsend ⊢
    obtain ⟨taken, s₂⟩ := sending
    have hworks := hgenerate.trans hsend
    cases taken with
    | false => exact ⟨hworks, rfl⟩
    | true => exact ⟨hworks.trans (s₂.unlogged_localRequest node), rfl⟩

theorem keeps_continueRefresh (h : r.continueRefresh s = .ok (status, r', s')) : Keeps r s r' s' := by
  obtain ⟨targetId, -, h⟩ := bind_eq_ok.mp h
  obtain ⟨closest, -, h⟩ := bind_eq_ok.mp h
  obtain ⟨hworks, hbucket⟩ :=
    pingClosest_spec { r with currRefreshBucket := r.refreshBucket } s targetId closest
  generalize pingClosest _ s targetId closest = pinged at hworks hbucket h
  obtain ⟨taken, r₁, s₁⟩ := pinged
  simp only at hworks hbucket
  cases taken with
  | false =>
    cases h
    refine ⟨hworks.toWorks, fun hle => ?_⟩
    rw [hbucket]
    exact (refreshBucket_lt hle).le
  | true =>
    cases h
    refine ⟨(hworks.trans (s₁.unlogged_generate _)).toWorks, fun hle => ?_⟩
    change r₁.currRefreshBucket + 1 ≤ maxBuckets
    rw [hbucket]
    exact refreshBucket_lt hle

theorem continueRefresh_ok (ht : s.table.Valid) (hle : r.currRefreshBucket ≤ maxBuckets) :
    ∃ result, r.continueRefresh s = .ok result := by
  obtain ⟨targetId, hflip⟩ := flipIdBitAtIndex_ok s.table.nodeId (refreshBucket_lt hle)
  obtain ⟨closest, hclosest, -⟩ := Shared.closestNodes_spec ht targetId
  unfold continueRefresh
  simp only [hflip, hclosest, ok_bind]
  split
  · exact ⟨_, rfl⟩
  · exact ⟨_, rfl⟩

end TableRefresh

end BitTorrent.Dht
