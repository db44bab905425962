import BitTorrent.DhtHandlerRun
import BitTorrent.DhtKrpcRoundTrip

/-! The invariant of the handler, and which of its calls return. The table stays valid, actions only wait
for answers to ids that were generated, and the counters of buckets stay in their bounds. With that, a
call returns unless it takes a bootstrap past its last bucket. -/

namespace BitTorrent.Dht

open Rust Bencode Relation

namespace TableAction

/-- What holds of an action the handler keeps. -/
def Sound (s : Shared) : TableAction → Prop
  | .lookup l => ∀ transId ∈ l.activeLookups, transId ∈ s.issued
  | .refresh r => r.currRefreshBucket ≤ maxBuckets
  | .bootstrap b attempts => (∀ transId ∈ b.activeMessages, transId ∈ s.issued) ∧ b.InStep attempts

variable {s s' : Shared} {action action' : TableAction}

theorem Sound.mono (h : action.Sound s) (hissued : s.issued ⊆ s'.issued) : action.Sound s' := by
  cases action with
  | lookup l => exact fun transId hid => hissued (h transId hid)
  | refresh r => exact h
  | bootstrap b attempts => exact ⟨fun transId hid => hissued (h.1 transId hid), h.2⟩

theorem Keeps.works (h : Keeps s s' action action') : s.Works s' := by
  cases h with
  | lookup h => exact h.works
  | refresh h => exact h.works
  | bootstrap h _ => exact h.works

theorem Keeps.sound (h : Keeps s s' action action') (hsound : action.Sound s) : action'.Sound s' := by
  cases h with
  | lookup h => exact h.active hsound
  | refresh h => exact h.bucket hsound
  | bootstrap h hstep => exact ⟨h.active hsound.1, hstep hsound.2⟩

theorem Begins.works (h : Begins s s' action) : s.Works s' := by
  cases h with
  | lookup _ h => exact h.works
  | refresh _ hs =>
    rw [hs]
    exact .refl s
  | bootstrap _ h _ => exact h.works

theorem Begins.sound (h : Begins s s' action) : action.Sound s' := by
  cases h with
  | lookup hactive h =>
    refine h.active fun transId hid => ?_
    rw [hactive] at hid
    exact absurd hid (AList.notMem_empty transId)
  | refresh hbucket _ => exact hbucket
  | bootstrap hactive h hstep =>
    refine ⟨h.active fun transId hid => ?_, hstep⟩
    rw [hactive] at hid
    exact absurd hid (Finset.notMem_empty transId)

end TableAction

namespace DhtHandler

structure Sound (h : DhtHandler) : Prop where
  table : h.shared.table.Valid
  actions : ∀ actionId action, h.tableActions.lookup actionId = some action → action.Sound h.shared
  future : ∀ f ∈ h.futureActions, f.Fresh

variable {hash : Bytes → ShaHash} {h h' : DhtHandler} {s : Shared} {actionId : ActionID}
  {action : TableAction}

theorem Sound.share (hsound : h.Sound) (ht : s.table.Valid) (hissued : h.shared.issued ⊆ s.issued) :
    Sound { h with shared := s } :=
  ⟨ht, fun actionId action haction => (hsound.actions actionId action haction).mono hissued,
    hsound.future⟩

theorem Sound.works (hsound : h.Sound) (hworks : h.shared.Works s) : Sound { h with shared := s } :=
  hsound.share (hworks.table ▸ hsound.table) hworks.issued

theorem Sound.setAction (hsound : h.Sound) (hworks : h.shared.Works s) (haction : action.Sound s) :
    (h.setAction actionId action s).Sound := by
  refine ⟨hworks.table ▸ hsound.table, fun actionId' action' hlookup => ?_, hsound.future⟩
  rw [DhtHandler.setAction, HashMap.lookup_insert_eq] at hlookup
  split at hlookup
  · cases hlookup
    exact haction
  · exact (hsound.actions actionId' action' hlookup).mono hworks.issued

theorem Sound.insertAction (hsound : h.Sound) (hworks : h.shared.Works s) (haction : action.Sound s) :
    (DhtHandler.insertAction { h with shared := s } actionId action).Sound :=
  (hsound.works hworks).setAction (.refl s) haction

theorem Sound.finish (hsound : h.Sound) (hworks : h.shared.Works s) (actionId : ActionID)
    (action : TableAction) : ((h.setAction actionId action s).removeAction actionId).Sound := by
  refine ⟨hworks.table ▸ hsound.table, fun actionId' action' hlookup => ?_, hsound.future⟩
  change ((h.tableActions.insert actionId action).erase actionId).lookup actionId' = some action'
    at hlookup
  rw [HashMap.lookup_erase_eq] at hlookup
  split at hlookup
  · cases hlookup
  · rename_i hne
    rw [HashMap.lookup_insert_eq, if_neg hne] at hlookup
    exact (hsound.actions actionId' action' hlookup).mono hworks.issued

variable {node : NodeKey}

theorem valid_of_addNewNode {s' : Shared} {state : NodeState} (ht : s.table.Valid)
    (hadd : addNewNode s node state = .ok s') : s'.table.Valid := by
  obtain ⟨table, hcall, rfl⟩ := addNewNode_eq hadd
  exact (RoutingTable.addsOrIgnores_of_call ht hcall).valid ht

theorem sound_of_does (hdoes : Does (Requested hash) h h') (hsound : h.Sound) : h'.Sound := by
  have hfuture := fresh_of_does hdoes hsound.future
  cases hdoes with
  | add hadd =>
    refine hsound.share (valid_of_addNewNode hsound.table hadd) ?_
    obtain ⟨table, -, rfl⟩ := addNewNode_eq hadd
    exact fun _ hid => hid
  | request hasked =>
    obtain ⟨request, addr, hrequest⟩ := hasked
    have hanswers := answers_handleRequest hrequest
    refine ⟨hanswers.table ▸ hsound.table, fun actionId action haction => ?_, hfuture⟩
    rw [hanswers.tableActions] at haction
    refine (hsound.actions actionId action haction).mono ?_
    rw [hanswers.issued]
    exact fun _ hid => hid
  | act haction hkeeps =>
    exact hsound.setAction hkeeps.works (hkeeps.sound (hsound.actions _ _ haction))
  | finish attempts' haction hkeeps => exact hsound.finish hkeeps.works _ _
  | start actionId hbegins => exact hsound.insertAction hbegins.works hbegins.sound
  | fail hkeeps => exact hsound.works hkeeps.works
  | fire actionId index =>
    rcases h.fire_cases actionId index with heq | ⟨action, check, haction, -, heq⟩
    · rwa [heq]
    · have haction' : (action.withTasks (action.tasks.eraseIdx index)).Sound h.shared := by
        have ha := hsound.actions actionId action haction
        cases action <;> exact ha
      rw [heq]
      have hset : (h.setAction actionId _ h.shared).Sound := hsound.setAction (.refl h.shared) haction'
      exact ⟨hset.table, hset.actions, hset.future⟩
  | _ => exact ⟨hsound.table, hsound.actions, hfuture⟩

theorem Sound.addNodes (hsound : h.Sound) {nodes : List NodeKey} {s₁ s₂ : Shared}
    (hnodes : addQuestionable h.shared nodes = .ok s₁)
    (hresponder : h.addResponder s₁ actionId node = .ok s₂) : Sound { h with shared := s₂ } := by
  have hfirst : ReflTransGen (Does (Requested fun _ => h.shared.table.nodeId)) h { h with shared := s₁ } :=
    does_addQuestionable hnodes
  have hrest : ReflTransGen (Does (Requested fun _ => h.shared.table.nodeId)) { h with shared := s₁ }
      { h with shared := s₂ } := does_addResponder (h := { h with shared := s₁ }) hresponder
  exact keeps_of_does sound_of_does (hfirst.trans hrest) hsound

theorem Reachable.sound (hreach : Reachable hash h) : h.Sound := by
  refine hreach.invariant (fun {s} hs _ _ _ _ => ?_) sound_of_does
  refine ⟨hs.table.valid, fun actionId action haction => ?_, ?_⟩
  · cases haction
  · intro f hf
    rw [List.mem_singleton.mp hf]
    exact Nat.zero_le _

/-! ### Calls that return -/

section

variable {s : Shared} (ht : s.table.Valid)

include ht

theorem addNewNode_ok (node : NodeKey) (state : NodeState) : ∃ s', addNewNode s node state = .ok s' := by
  obtain ⟨table, -, hcall⟩ := RoutingTable.addNode_run (t := s.table) ht
    (s.newNode node.1 node.2 state).2.world (s.newNode node.1 node.2 state).1
  refine ⟨{ (s.newNode node.1 node.2 state).2 with table := table }, ?_⟩
  unfold addNewNode Shared.addNode
  simp only
  exact bind_eq_ok.mpr ⟨table, hcall _ le_rfl, rfl⟩

theorem addQuestionable_ok (nodes : List NodeKey) :
    ∃ s', addQuestionable s nodes = .ok s' ∧ s'.table.Valid := by
  unfold addQuestionable
  induction nodes generalizing s with
  | nil => exact ⟨s, rfl, ht⟩
  | cons node nodes ih =>
    obtain ⟨s₁, hfirst⟩ := addNewNode_ok ht node (.asQuestionable s.now)
    obtain ⟨s₂, hrest, hvalid⟩ := ih (valid_of_addNewNode ht hfirst)
    refine ⟨s₂, ?_, hvalid⟩
    rw [List.foldlM_cons, hfirst]
    exact hrest

theorem addResponder_ok (h : DhtHandler) (actionId : ActionID) (node : NodeKey) :
    ∃ s', h.addResponder s actionId node = .ok s' ∧ s'.table.Valid := by
  obtain ⟨s₁, hadd⟩ := addNewNode_ok ht node (.asGood s.now)
  have hvalid := valid_of_addNewNode ht hadd
  unfold addResponder
  split
  · exact ⟨s₁, hadd, hvalid⟩
  · split
    · exact ⟨s, rfl, ht⟩
    · exact ⟨s₁, hadd, hvalid⟩
  · exact ⟨s, rfl, ht⟩

theorem numGoodNodes_ok : ∃ number, numGoodNodes s = .ok number := by
  obtain ⟨nodes, hnodes, -⟩ := Shared.closestNodes_spec ht s.table.nodeId
  rw [numGoodNodes, hnodes]
  exact ⟨_, rfl⟩

theorem attemptRebootstrap_ok (b : TableBootstrap) (attempts : Nat) :
    ∃ result, attemptRebootstrap b attempts s = .ok result := by
  obtain ⟨number, hnumber⟩ := numGoodNodes_ok ht
  obtain ⟨-, hstatus⟩ := b.startBootstrap_status s
  unfold attemptRebootstrap
  simp only [hnumber, ok_bind]
  generalize b.startBootstrap s = started at hstatus ⊢
  obtain ⟨status, b', s'⟩ := started
  split
  · split
    · exact ⟨_, rfl⟩
    · exact ⟨_, rfl⟩
  · rcases hstatus with hstatus | hstatus
    · simp only at hstatus
      rw [hstatus]
      exact ⟨_, rfl⟩
    · simp only at hstatus
      rw [hstatus]
      exact ⟨_, rfl⟩

theorem lookupNew_ok (tableId : NodeId) (targetId : InfoHash) (idGenerator : MIDGenerator)
    (willAnnounce : Bool) : ∃ result, TableLookup.new tableId targetId idGenerator willAnnounce s =
      .ok result := by
  obtain ⟨nodes, hnodes, -⟩ := Shared.closestNodes_spec ht targetId
  unfold TableLookup.new TableLookup.start
  simp only [hnodes, ok_bind]
  generalize TableLookup.startRequestRound _ s _ = started
  obtain ⟨status, l, s'⟩ := started
  cases status <;> exact ⟨_, rfl⟩

end

theorem handleStartBootstrap_ok (h : DhtHandler) (routers : List Router) (nodes : List SocketAddr) :
    ∃ h', h.handleStartBootstrap routers nodes = .ok h' := by
  unfold handleStartBootstrap
  simp only
  generalize TableBootstrap.new _ _ nodes _ = b
  obtain ⟨-, hstatus⟩ := b.startBootstrap_status h.generateAid.2.shared
  generalize b.startBootstrap h.generateAid.2.shared = started at hstatus ⊢
  obtain ⟨status, b', s⟩ := started
  rcases hstatus with hstatus | hstatus
  · simp only at hstatus
    rw [hstatus]
    exact ⟨_, rfl⟩
  · simp only at hstatus
    rw [hstatus]
    exact ⟨_, rfl⟩

section

variable (hsound : h.Sound)

include hsound

theorem handleStartLookup_ok (infoHash : InfoHash) (shouldAnnounce : Bool) :
    ∃ h', h.handleStartLookup infoHash shouldAnnounce = .ok h' := by
  obtain ⟨⟨lookup, s⟩, hnew⟩ := lookupNew_ok hsound.table h.shared.table.nodeId infoHash
    h.generateAid.1 shouldAnnounce
  unfold handleStartLookup
  simp only
  split
  · exact ⟨_, rfl⟩
  · change ∃ h', (TableLookup.new h.shared.table.nodeId infoHash h.generateAid.1 shouldAnnounce h.shared
      >>= _) = .ok h'
    rw [hnew, ok_bind]
    cases lookup with
    | none => exact ⟨_, rfl⟩
    | some l => exact ⟨_, rfl⟩

theorem handleCheckTableRefresh_ok (transId : TransactionID) :
    ∃ h', h.handleCheckTableRefresh transId = .ok h' := by
  unfold handleCheckTableRefresh
  split
  · rename_i r haction
    obtain ⟨⟨status, r', s⟩, hrefresh⟩ :=
      TableRefresh.continueRefresh_ok hsound.table (hsound.actions _ _ haction)
    rw [hrefresh, ok_bind]
    cases status <;> exact ⟨_, rfl⟩
  · exact ⟨h, rfl⟩

theorem startPostBootstrapAction_ok {f : PostBootstrapAction} (hf : f.Fresh) :
    ∃ h', h.startPostBootstrapAction f = .ok h' := by
  cases f with
  | lookup infoHash shouldAnnounce => exact handleStartLookup_ok hsound infoHash shouldAnnounce
  | refresh r transId =>
    have hrefresh : TableAction.Sound h.shared (.refresh r) := hf
    exact handleCheckTableRefresh_ok (hsound.insertAction (.refl h.shared) hrefresh) transId

theorem foldlM_ok (futureActions : List PostBootstrapAction) (hfresh : ∀ f ∈ futureActions, f.Fresh) :
    ∃ h', futureActions.foldlM startPostBootstrapAction h = .ok h' := by
  induction futureActions generalizing h with
  | nil => exact ⟨h, rfl⟩
  | cons f futureActions ih =>
    obtain ⟨hf, hfresh⟩ := List.forall_mem_cons.mp hfresh
    obtain ⟨h₁, hfirst⟩ := startPostBootstrapAction_ok hsound hf
    have hdoes : ReflTransGen (Does (Requested fun _ => h.shared.table.nodeId)) h h₁ :=
      does_startPostBootstrapAction hf hfirst
    obtain ⟨h₂, hrest⟩ := ih (keeps_of_does sound_of_does hdoes hsound) hfresh
    refine ⟨h₂, ?_⟩
    rw [List.foldlM_cons, hfirst]
    exact hrest

theorem broadcastBootstrapCompleted_ok (hworks : h.shared.Works s) (actionId : ActionID)
    (action : TableAction) :
    ∃ h', (h.setAction actionId action s).broadcastBootstrapCompleted actionId = .ok h' := by
  have hfinish := hsound.finish hworks actionId action
  change ∃ h', List.foldlM startPostBootstrapAction _ h.futureActions = .ok h'
  refine foldlM_ok (Sound.mk ?_ ?_ ?_) _ hsound.future
  · exact hfinish.table
  · exact hfinish.actions
  · exact fun f hf => absurd hf List.not_mem_nil

theorem afterBootstrap_ok {b b' : TableBootstrap} (attempts : Nat) {status : BootstrapStatus}
    (hreceived : b.Received h.shared status b' s) (actionId : ActionID) :
    ∃ complete h₁ h', h.afterBootstrap actionId attempts status b' s = .ok (complete, h₁) ∧
      h₁.completeIf complete actionId = .ok h' := by
  have hworks := hreceived.keeps.works
  have ht : s.table.Valid := hworks.table ▸ hsound.table
  obtain ⟨hdone, hcompleted⟩ := broadcastBootstrapCompleted_ok hsound hworks actionId
    (.bootstrap b' attempts)
  unfold afterBootstrap
  cases status with
  | idle => exact ⟨true, _, hdone, rfl, hcompleted⟩
  | bootstrapping => exact ⟨false, _, _, rfl, rfl⟩
  | failed => exact ⟨false, _, _, rfl, rfl⟩
  | completed =>
    obtain ⟨number, hnumber⟩ := numGoodNodes_ok ht
    simp only [shouldRebootstrap, hnumber, ok_bind]
    change ∃ complete h₁ h', (if decide _ = true then _ else _) = _ ∧ _
    split
    · obtain ⟨⟨result, b₂, attempts₂, s₂⟩, hattempt⟩ := attemptRebootstrap_ok ht b' attempts
      obtain ⟨hkeeps, -⟩ := attemptRebootstrap_spec (hreceived.completed rfl) hattempt
      rw [hattempt, ok_bind]
      by_cases hresult : result = some false
      · obtain ⟨h', hcomplete⟩ := broadcastBootstrapCompleted_ok hsound
          (hworks.trans hkeeps.works) actionId (.bootstrap b₂ attempts₂)
        refine ⟨true, _, h', ?_, hcomplete⟩
        simp only [hresult]
        rfl
      · refine ⟨false, h.setAction actionId (.bootstrap b₂ attempts₂) s₂, _, ?_, rfl⟩
        simp only [hresult, decide_false]
        rfl
    · exact ⟨true, _, hdone, rfl, hcompleted⟩

end

/-! ### Messages that are read -/

variable {buffer : Buffer}

theorem parse_of_decode {bencode : BencodeRef}
    (hdecode : BencodeRef.decode buffer .default = .ok bencode) (h : DhtHandler) :
    h.parse buffer = logged (MessageType.new bencode.value h.expectedResponse) := by
  rw [parse, hdecode]
  rfl

theorem parse_of_encode {m : MessageType} (hdata : buffer.data = m.encode)
    (hmapper : ∀ rsp, m = .response rsp → h.expectedResponse rsp.transId = rsp.expected) :
    h.parse buffer = .ok (some m) := by
  obtain ⟨r, hdecode, hvalue⟩ :=
    m.shallow_bencode.decode_eq .default (by decide) (hdata.trans m.encode_eq)
  rw [parse_of_decode hdecode, hvalue, m.new_bencode _ hmapper]
  rfl

theorem eq_ok_of_logged {ε α : Type} {x : Run ε α} {a : α} (hlogged : logged x = .ok (some a)) :
    x = .ok a := by
  cases x with
  | ok a' =>
    cases hlogged
    rfl
  | error fault =>
    cases fault <;> cases hlogged

theorem parse_expected {r : ResponseType} (hparse : h.parse buffer = .ok (some (.response r))) :
    h.expectedResponse r.transId = r.expected := by
  obtain ⟨bencode, -, hparse⟩ := bind_eq_ok.mp hparse
  cases bencode with
  | none => cases hparse
  | some bencode => exact MessageType.expected_of_new (eq_ok_of_logged hparse)

theorem transId_of_findNode {f : FindNodeResponse}
    (hparse : h.parse buffer = .ok (some (.response (.findNode f)))) :
    ∃ transId, TransactionID.fromBytes f.transId = some transId := by
  have hexpected : h.expectedResponse f.transId = .findNode := parse_expected hparse
  unfold expectedResponse at hexpected
  cases hid : TransactionID.fromBytes f.transId with
  | none =>
    rw [hid] at hexpected
    cases hexpected
  | some transId => exact ⟨transId, rfl⟩

end DhtHandler

end BitTorrent.Dht
