import BitTorrent.DhtHandler
import BitTorrent.DhtLookupRun
import BitTorrent.DhtBootstrapRun
import BitTorrent.DhtTransactionUnique
import Mathlib.Logic.Relation

/-! What the handler does, said once. `Does` lists the things the handler does to its state, apart from
the answers to requests, which are a parameter; every call of the handler is a sequence of them, and so
is every run. An invariant of all reachable states is one
that each of these things keeps. -/

namespace BitTorrent.Dht

open Rust Relation List RoutingTable Generators Shared

/-- The shared state a handler is created with: any routing table, and nothing done yet. -/
structure Shared.Initial (s : Shared) : Prop where
  table : s.table.Reachable
  cells : ∀ node ∈ s.table.entries, ∀ c, node.cell = some c → c < s.nextCell
  sent : s.sent = []
  issued : s.issued = []
  queries : s.queries = []
  shutdowns : s.shutdowns = []

/-- An action that is to be started later has not done anything yet. -/
def PostBootstrapAction.Fresh : PostBootstrapAction → Prop
  | .lookup _ _ => True
  | .refresh r _ => r.currRefreshBucket ≤ maxBuckets

/-- A bootstrap is kept after its last bucket only if there is no further attempt. -/
def TableBootstrap.InStep (b : TableBootstrap) (attempts : Nat) : Prop :=
  b.currBootstrapBucket ≤ maxBuckets ∧
    (b.currBootstrapBucket = maxBuckets ↔ maxBootstrapAttempts ≤ attempts)

namespace TableAction

/-- What a call makes of an action that is kept. -/
inductive Keeps (s s' : Shared) : TableAction → TableAction → Prop where
  | lookup {l l' : TableLookup} (h : l.Keeps s l' s') : Keeps s s' (.lookup l) (.lookup l')
  | refresh {r r' : TableRefresh} (h : r.Keeps s r' s') : Keeps s s' (.refresh r) (.refresh r')
  | bootstrap {b b' : TableBootstrap} {attempts attempts' : Nat} (h : b.Keeps s b' s')
      (hstep : b.InStep attempts → b'.InStep attempts') :
      Keeps s s' (.bootstrap b attempts) (.bootstrap b' attempts')

/-- How an action begins. -/
inductive Begins (s s' : Shared) : TableAction → Prop where
  | lookup {l₀ l : TableLookup} (hactive : l₀.activeLookups = ∅) (h : l₀.Keeps s l s') : Begins s s' (.lookup l)
  | refresh {r : TableRefresh} (hbucket : r.currRefreshBucket ≤ maxBuckets) (hs : s' = s) : Begins s s' (.refresh r)
  | bootstrap {b₀ b : TableBootstrap} (hactive : b₀.activeMessages = ∅) (h : b₀.Keeps s b s')
      (hstep : b.InStep 0) : Begins s s' (.bootstrap b 0)

end TableAction

namespace DhtHandler

variable (asked : DhtHandler → DhtHandler → Prop)

inductive Does : DhtHandler → DhtHandler → Prop where
  /-- It draws an action id, says something to the outside, or changes its mode. -/
  | note (h : DhtHandler) (events : List DhtEvent) (connects : List (InfoHash × SocketAddr))
      (bootstrapping : Bool) (aidGenerator : AIDGenerator) (actions : Nat) :
      Does h { h with
        events := events, connects := connects, bootstrapping := bootstrapping
        aidGenerator := aidGenerator, actions := actions }
  | plan (h : DhtHandler) (futureActions : List PostBootstrapAction)
      (hfresh : (∀ f ∈ h.futureActions, f.Fresh) → ∀ f ∈ futureActions, f.Fresh) :
      Does h { h with futureActions := futureActions }
  | add {h : DhtHandler} {node : NodeKey} {state : NodeState} {s : Shared}
      (hadd : addNewNode h.shared node state = .ok s) : Does h { h with shared := s }
  | request {h h' : DhtHandler} (hasked : asked h h') : Does h h'
  | act {h : DhtHandler} {actionId : ActionID} {action action' : TableAction} {s : Shared}
      (haction : h.tableActions.lookup actionId = some action)
      (hkeeps : TableAction.Keeps h.shared s action action') :
      Does h (h.setAction actionId action' s)
  /-- A bootstrap that is complete is dropped. -/
  | finish {h : DhtHandler} {actionId : ActionID} {b b' : TableBootstrap} {attempts : Nat} {s : Shared}
      (attempts' : Nat) (haction : h.tableActions.lookup actionId = some (.bootstrap b attempts))
      (hkeeps : b.Keeps h.shared b' s) :
      Does h ((h.setAction actionId (.bootstrap b' attempts') s).removeAction actionId)
  | start {h : DhtHandler} {action : TableAction} {s : Shared} (actionId : ActionID)
      (hbegins : TableAction.Begins h.shared s action) :
      Does h (insertAction { h with shared := s } actionId action)
  /-- A lookup that cannot send its first messages is dropped. -/
  | fail {h : DhtHandler} {l₀ l : TableLookup} {s : Shared} (hkeeps : l₀.Keeps h.shared l s) :
      Does h { h with shared := s }
  | fire (h : DhtHandler) (actionId : ActionID) (index : Nat) : Does h (h.fire actionId index)
  | deliver {h : DhtHandler} {check : ScheduledTaskCheck} {scheduledTasks : List ScheduledTaskCheck}
      (hnext : h.scheduledTasks = check :: scheduledTasks) :
      Does h { h with scheduledTasks := scheduledTasks }
  | clock (h : DhtHandler) (now : Time) (shutdowns : List ShutdownCause) :
      Does h { h with shared := { h.shared with now := now, shutdowns := shutdowns } }

/-- The answer to a request. -/
def Requested (hash : Bytes → ShaHash) (h h' : DhtHandler) : Prop :=
  ∃ request addr, h.handleRequest hash request addr = .ok h'

variable {asked} {hash : Bytes → ShaHash} {h h' : DhtHandler}

/-! ### Calls -/

theorem does_event (h : DhtHandler) (event : DhtEvent) : Does asked h (h.broadcastDhtEvent event) :=
  .note h _ _ _ _ _

theorem does_generateAid (asked : DhtHandler → DhtHandler → Prop) (h : DhtHandler) : Does asked h h.generateAid.2 :=
  .note h _ _ _ _ _

variable {infoHash : InfoHash}

theorem does_handleStartLookup {shouldAnnounce : Bool}
    (hcall : h.handleStartLookup infoHash shouldAnnounce = .ok h') : ReflTransGen (Does asked) h h' := by
  have hfirst := does_generateAid asked h
  unfold handleStartLookup at hcall
  generalize h.generateAid = generated at hfirst hcall
  obtain ⟨midGenerator, h₁⟩ := generated
  refine .head hfirst ?_
  simp only at hcall
  split at hcall
  · cases hcall
    refine .single (.plan h₁ _ fun hfresh f hf => ?_)
    rcases mem_append.mp hf with hf | hf
    · exact hfresh f hf
    · rw [mem_singleton.mp hf]
      trivial
  · obtain ⟨⟨lookup, s⟩, hnew, hcall⟩ := bind_eq_ok.mp hcall
    obtain ⟨⟨status, l, s₁⟩, hstart, hnew⟩ := bind_eq_ok.mp hnew
    obtain ⟨l₀, hactive, hkeeps⟩ := TableLookup.keeps_start hstart
    cases status with
    | failed =>
      cases hnew
      cases hcall
      exact .head (.fail hkeeps) (.single (does_event _ _))
    | _ =>
      cases hnew
      cases hcall
      exact .single (.start _ (.lookup hactive hkeeps))

theorem handleStartLookup_of_no_good {closest : List Node}
    (hidle : h.bootstrapping = false) (hclosest : h.shared.closestNodes infoHash = .ok closest)
    (hgood : closest.filter (fun n => n.status h.shared.world = .good) = []) (shouldAnnounce : Bool) :
    h.handleStartLookup infoHash shouldAnnounce = .ok (h.generateAid.2.insertAction
      h.generateAid.1.actionId (.lookup (.idle h.shared.table.nodeId infoHash h.generateAid.1
        shouldAnnounce))) := by
  have hnew := TableLookup.new_of_no_good h.shared.table.nodeId h.generateAid.1 shouldAnnounce hclosest
    hgood
  unfold handleStartLookup
  change (if h.bootstrapping then _ else _) = _
  rw [if_neg (by rw [hidle]; decide)]
  change (TableLookup.new h.shared.table.nodeId infoHash h.generateAid.1 shouldAnnounce h.shared >>= _) = _
  rw [hnew]
  rfl

variable {transId : TransactionID}

theorem does_handleCheckTableRefresh
    (hcall : h.handleCheckTableRefresh transId = .ok h') : ReflTransGen (Does asked) h h' := by
  unfold handleCheckTableRefresh at hcall
  split at hcall
  · rename_i r haction
    obtain ⟨⟨status, r', s⟩, hrefresh, hcall⟩ := bind_eq_ok.mp hcall
    have hact : Does asked h (h.setAction transId.actionId (.refresh r') s) :=
      .act haction (.refresh (TableRefresh.keeps_continueRefresh hrefresh))
    cases status with
    | refreshing =>
      cases hcall
      exact .single hact
    | failed =>
      cases hcall
      exact .head hact (.single (does_event _ _))
  · cases hcall
    exact .refl

theorem does_startPostBootstrapAction {f : PostBootstrapAction} (hfresh : f.Fresh)
    (hcall : h.startPostBootstrapAction f = .ok h') : ReflTransGen (Does asked) h h' := by
  cases f with
  | lookup infoHash shouldAnnounce => exact does_handleStartLookup hcall
  | refresh r transId =>
    exact .head (.start transId.actionId (.refresh hfresh rfl))
      (does_handleCheckTableRefresh hcall)

theorem does_foldlM {futureActions : List PostBootstrapAction} (hfresh : ∀ f ∈ futureActions, f.Fresh)
    (hcall : futureActions.foldlM startPostBootstrapAction h = .ok h') : ReflTransGen (Does asked) h h' := by
  induction futureActions generalizing h with
  | nil =>
    cases hcall
    exact .refl
  | cons f futureActions ih =>
    obtain ⟨hf, hfresh⟩ := forall_mem_cons.mp hfresh
    obtain ⟨h₁, hfirst, hrest⟩ := bind_eq_ok.mp (by rwa [foldlM_cons] at hcall)
    exact (does_startPostBootstrapAction hf hfirst).trans (ih hfresh hrest)

variable {h₁ : DhtHandler}

section

variable {actionId : ActionID} {b b' : TableBootstrap} {attempts attempts' : Nat} {s s' : Shared}
  {status : BootstrapStatus}

/-- A bootstrap is dropped and what was waiting for it is started. -/
theorem does_broadcastBootstrapCompleted (hfresh : ∀ f ∈ h.futureActions, f.Fresh)
    (haction : h.tableActions.lookup actionId = some (.bootstrap b attempts)) (hkeeps : b.Keeps h.shared b' s)
    (hcall : (h.setAction actionId (.bootstrap b' attempts') s).broadcastBootstrapCompleted actionId =
      .ok h') : ReflTransGen (Does asked) h h' := by
  refine .head (.finish attempts' haction hkeeps) ?_
  refine .head (.note _ (h.events ++ [.bootstrapCompleted]) h.connects false h.aidGenerator h.actions) ?_
  refine .head (.plan _ [] fun _ f hf => absurd hf not_mem_nil) ?_
  exact does_foldlM hfresh hcall

theorem works_shutdownEventLoop (s : Shared) (cause : ShutdownCause) : s.Works (shutdownEventLoop s cause) :=
  ⟨rfl, rfl, fun _ hid => hid, fun _ hp => Or.inl hp⟩

/-- After an attempt the bootstrap starts over, or it is done with all buckets and with all attempts. -/
theorem attemptRebootstrap_spec (hlast : b.currBootstrapBucket = maxBuckets) {result : Option Bool}
    (hcall : attemptRebootstrap b attempts s = .ok (result, b', attempts', s')) :
    b.Keeps s b' s' ∧ (result ≠ some false → b'.InStep attempts') := by
  unfold attemptRebootstrap at hcall
  simp only at hcall
  split at hcall
  · rename_i hmax
    obtain ⟨good, -, hcall⟩ := bind_eq_ok.mp hcall
    split at hcall
    · cases hcall
      refine ⟨.quiet (works_shutdownEventLoop s _) fun _ hid => hid, fun _ => ?_⟩
      exact ⟨hlast.le, iff_of_true hlast hmax⟩
    · cases hcall
      exact ⟨.refl b s, fun hresult => absurd rfl hresult⟩
  · rename_i hmax
    have hkeeps := b.keeps_startBootstrap s
    obtain ⟨hcurr, hstatus⟩ := b.startBootstrap_status s
    generalize b.startBootstrap s = started at hkeeps hcurr hstatus hcall
    obtain ⟨status, b₁, s₁⟩ := started
    have hstep : b₁.InStep (attempts + 1) := by
      rw [TableBootstrap.InStep, show b₁.currBootstrapBucket = 0 from hcurr]
      exact ⟨Nat.zero_le _, iff_of_false (by decide) hmax⟩
    rcases hstatus with hstatus | hstatus
    · simp only at hstatus
      rw [hstatus] at hcall
      cases hcall
      exact ⟨hkeeps, fun _ => hstep⟩
    · simp only at hstatus
      rw [hstatus] at hcall
      cases hcall
      exact ⟨hkeeps.trans (.quiet (works_shutdownEventLoop s₁ _) fun _ hid => hid),
        fun _ => hstep⟩

theorem does_afterBootstrap (hfresh : ∀ f ∈ h.futureActions, f.Fresh)
    (haction : h.tableActions.lookup actionId = some (.bootstrap b attempts))
    (hreceived : b.Received h.shared status b' s) {complete : Bool}
    (hafter : h.afterBootstrap actionId attempts status b' s = .ok (complete, h₁))
    (hcomplete : h₁.completeIf complete actionId = .ok h') : ReflTransGen (Does asked) h h' := by
  have hstep : status ≠ .completed → b.InStep attempts → b'.InStep attempts := by
    rintro hstatus ⟨hle, hlast⟩
    exact ⟨hreceived.le hle, (hreceived.same hstatus).trans hlast⟩
  unfold afterBootstrap at hafter
  cases status with
  | idle =>
    cases hafter
    exact does_broadcastBootstrapCompleted hfresh haction hreceived.keeps hcomplete
  | bootstrapping =>
    cases hafter
    cases hcomplete
    exact .single (.act haction (.bootstrap hreceived.keeps (hstep (by simp))))
  | failed =>
    cases hafter
    cases hcomplete
    exact .head (.act haction (.bootstrap hreceived.keeps (hstep (by simp))))
      (.single (does_event _ _))
  | completed =>
    obtain ⟨again, -, hafter⟩ := bind_eq_ok.mp hafter
    split at hafter
    · obtain ⟨⟨result, b₂, attempts₂, s₂⟩, hattempt, hafter⟩ := bind_eq_ok.mp hafter
      obtain ⟨hkeeps, hnext⟩ := attemptRebootstrap_spec (hreceived.completed rfl) hattempt
      cases hafter
      by_cases hresult : result = some false
      · rw [decide_eq_true hresult] at hcomplete
        exact does_broadcastBootstrapCompleted hfresh haction (hreceived.keeps.trans hkeeps) hcomplete
      · rw [decide_eq_false hresult] at hcomplete
        cases hcomplete
        exact .single (.act haction (.bootstrap (hreceived.keeps.trans hkeeps)
          fun _ => hnext hresult))
    · cases hafter
      exact does_broadcastBootstrapCompleted hfresh haction hreceived.keeps hcomplete

theorem does_handleCheckBootstrapTimeout (hfresh : ∀ f ∈ h.futureActions, f.Fresh)
    (hcall : h.handleCheckBootstrapTimeout transId = .ok h') : ReflTransGen (Does asked) h h' := by
  unfold handleCheckBootstrapTimeout at hcall
  split at hcall
  · rename_i b attempts haction
    obtain ⟨⟨status, b', s⟩, hrecv, hcall⟩ := bind_eq_ok.mp hcall
    obtain ⟨⟨complete, h₁⟩, hafter, hcall⟩ := bind_eq_ok.mp hcall
    exact does_afterBootstrap hfresh haction (TableBootstrap.received_of_recvTimeout hrecv) hafter hcall
  · cases hcall
    exact .refl

theorem does_handleStartBootstrap {routers : List Router} {nodes : List SocketAddr}
    (hcall : h.handleStartBootstrap routers nodes = .ok h') : ReflTransGen (Does asked) h h' := by
  have hfirst := does_generateAid asked h
  unfold handleStartBootstrap at hcall
  generalize h.generateAid = generated at hfirst hcall
  obtain ⟨midGenerator, h₁⟩ := generated
  refine .head hfirst ?_
  simp only at hcall
  generalize hb₀ : TableBootstrap.new h₁.shared.table.nodeId midGenerator nodes
    (routers.filterMap Router.ipv4Addr) = b₀ at hcall
  have hkeeps := b₀.keeps_startBootstrap h₁.shared
  obtain ⟨hcurr, hstatus⟩ := b₀.startBootstrap_status h₁.shared
  generalize b₀.startBootstrap h₁.shared = started at hkeeps hcurr hstatus hcall
  obtain ⟨status, b, s⟩ := started
  have hstep : b.InStep 0 := by
    rw [TableBootstrap.InStep, show b.currBootstrapBucket = 0 from hcurr]
    exact ⟨Nat.zero_le _, iff_of_false (by decide) (by decide)⟩
  refine .head (.note h₁ h₁.events h₁.connects true h₁.aidGenerator h₁.actions) ?_
  have hstart : Does asked { h₁ with bootstrapping := true } (insertAction
      { h₁ with bootstrapping := true, shared := s } midGenerator.actionId (.bootstrap b 0)) :=
    .start _ (.bootstrap (by rw [← hb₀]; rfl) hkeeps hstep)
  refine .head hstart ?_
  rcases hstatus with hstatus | hstatus
  · simp only at hstatus
    rw [hstatus] at hcall
    cases hcall
    exact .refl
  · simp only at hstatus
    rw [hstatus] at hcall
    cases hcall
    exact .single (does_event _ _)

end

theorem does_afterLookup (h : DhtHandler) (infoHash : InfoHash) (status : LookupStatus) :
    ReflTransGen (Does asked) h (h.afterLookup infoHash status) := by
  cases status with
  | searching => exact .refl
  | completed => exact .single (does_event _ _)
  | failed => exact .single (does_event _ _)
  | values addrs => exact .single (.note h _ _ _ _ _)

theorem does_handleCheckLookupTimeout (h : DhtHandler) (transId : TransactionID) :
    ReflTransGen (Does asked) h (h.handleCheckLookupTimeout transId) := by
  unfold handleCheckLookupTimeout
  split
  · rename_i l haction
    exact .head (.act haction (.lookup (l.keeps_recvTimeout h.shared transId)))
      (does_afterLookup _ _ _)
  · exact .refl

theorem does_handleCheckLookupEndgame (h : DhtHandler) (transId : TransactionID) :
    ReflTransGen (Does asked) h (h.handleCheckLookupEndgame transId) := by
  unfold handleCheckLookupEndgame
  split
  · rename_i l haction
    exact .head (.act haction (.lookup (l.keeps_recvFinished h.shared h.handshakerPort)))
      (does_afterLookup _ _ _)
  · exact .refl

theorem does_handleScheduledTask (hfresh : ∀ f ∈ h.futureActions, f.Fresh) {check : ScheduledTaskCheck}
    (hcall : h.handleScheduledTask check = .ok h') : ReflTransGen (Does asked) h h' := by
  cases check with
  | tableRefresh transId => exact does_handleCheckTableRefresh hcall
  | bootstrapTimeout transId => exact does_handleCheckBootstrapTimeout hfresh hcall
  | lookupTimeout transId =>
    cases hcall
    exact does_handleCheckLookupTimeout h transId
  | lookupEndGame transId =>
    cases hcall
    exact does_handleCheckLookupEndgame h transId

/-! ### Responses -/

variable {node : NodeKey}

/-- A node is added with a state of its own; nothing but the table changes otherwise. -/
theorem addNewNode_eq {s s' : Shared} {state : NodeState}
    (hadd : addNewNode s node state = .ok s') : ∃ table,
    addNode (s.newNode node.1 node.2 state).2.world recursionLimit s.table
      (s.newNode node.1 node.2 state).1 = .ok table ∧
    s' = { (s.newNode node.1 node.2 state).2 with table := table } := by
  obtain ⟨table, htable, hadd⟩ := bind_eq_ok.mp hadd
  cases hadd
  exact ⟨table, htable, rfl⟩

theorem does_addQuestionable {nodes : List NodeKey} {s : Shared}
    (hcall : addQuestionable h.shared nodes = .ok s) :
    ReflTransGen (Does asked) h { h with shared := s } := by
  induction nodes generalizing h with
  | nil =>
    cases hcall
    exact .refl
  | cons node nodes ih =>
    obtain ⟨s₁, hfirst, hrest⟩ := bind_eq_ok.mp (by rwa [addQuestionable, foldlM_cons] at hcall)
    exact .head (.add hfirst) (ih (h := { h with shared := s₁ }) hrest)

theorem does_addResponder {actionId : ActionID} {s : Shared}
    (hcall : h₁.addResponder h.shared actionId node = .ok s) :
    ReflTransGen (Does asked) h { h with shared := s } := by
  unfold addResponder at hcall
  split at hcall
  · exact .single (.add hcall)
  · split at hcall
    · cases hcall
      exact .refl
    · exact .single (.add hcall)
  · cases hcall
    exact .refl

variable {addr : SocketAddr}

theorem does_handleFindNodeResponse (hfresh : ∀ f ∈ h.futureActions, f.Fresh) {f : FindNodeResponse}
    (hcall : h.handleFindNodeResponse f addr = .ok h') : ReflTransGen (Does asked) h h' := by
  unfold handleFindNodeResponse at hcall
  split at hcall
  · cases hcall
  · rename_i transId _
    obtain ⟨s₁, hnodes, hcall⟩ := bind_eq_ok.mp hcall
    obtain ⟨s₂, hresponder, hcall⟩ := bind_eq_ok.mp hcall
    refine (does_addQuestionable hnodes).trans ?_
    refine (does_addResponder (h := { h with shared := s₁ }) hresponder).trans ?_
    simp only at hcall
    split at hcall
    · rename_i b attempts haction
      obtain ⟨⟨status, b', s⟩, hrecv, hcall⟩ := bind_eq_ok.mp hcall
      obtain ⟨⟨complete, h₁⟩, hafter, hcall⟩ := bind_eq_ok.mp hcall
      exact does_afterBootstrap (h := { h with shared := s₂ }) hfresh haction
        (TableBootstrap.received_of_recvResponse hrecv) hafter hcall
    · cases hcall
      exact .refl

theorem does_handleGetPeersResponse {g : GetPeersResponse}
    (hcall : h.handleGetPeersResponse g addr = .ok h') : ReflTransGen (Does asked) h h' := by
  unfold handleGetPeersResponse at hcall
  split at hcall
  · cases hcall
  · rename_i transId _
    obtain ⟨s₁, hnode, hcall⟩ := bind_eq_ok.mp hcall
    refine .head (.add hnode) ?_
    simp only at hcall
    split at hcall
    · rename_i l haction
      cases hcall
      exact .head (.act haction (.lookup (l.keeps_recvResponse s₁ (g.nodeId, addr) transId g)))
        (does_afterLookup _ _ _)
    · cases hcall
      exact .refl

/-- A datagram is answered if it is a request, and acted on otherwise. -/
theorem handleIncoming_cases (asked : DhtHandler → DhtHandler → Prop)
    (hfresh : ∀ f ∈ h.futureActions, f.Fresh) {buffer : Buffer}
    (hcall : h.handleIncoming hash buffer addr = .ok h') :
    (∃ request, h.parse buffer = .ok (some (.request request)) ∧
      h.handleRequest hash request addr = .ok h') ∨ ReflTransGen (Does asked) h h' := by
  obtain ⟨message, hparse, hcall⟩ := bind_eq_ok.mp hcall
  split at hcall
  · rename_i request
    split at hcall
    · cases hcall
      exact Or.inr .refl
    · exact Or.inl ⟨request, hparse, hcall⟩
  · rename_i response
    cases response with
    | findNode f => exact Or.inr (does_handleFindNodeResponse hfresh hcall)
    | getPeers g => exact Or.inr (does_handleGetPeersResponse hcall)
    | ping p =>
      cases hcall
      exact Or.inr .refl
    | announcePeer a =>
      cases hcall
      exact Or.inr .refl
  · cases hcall
    exact Or.inr .refl
  · cases hcall
    exact Or.inr .refl

/-! ### Requests -/

/-- What the answer to a request leaves alone. -/
structure Answers (h h' : DhtHandler) : Prop where
  tableActions : h'.tableActions = h.tableActions
  futureActions : h'.futureActions = h.futureActions
  now : h'.shared.now = h.shared.now
  table : h'.shared.table = h.shared.table
  nextCell : h'.shared.nextCell = h.shared.nextCell
  issued : h'.shared.issued = h.shared.issued

theorem Answers.trans {h'' : DhtHandler} (hfirst : Answers h h') (hrest : Answers h' h'') :
    Answers h h'' := by
  constructor
  · exact hrest.tableActions.trans hfirst.tableActions
  · exact hrest.futureActions.trans hfirst.futureActions
  · exact hrest.now.trans hfirst.now
  · exact hrest.table.trans hfirst.table
  · exact hrest.nextCell.trans hfirst.nextCell
  · exact hrest.issued.trans hfirst.issued

theorem answers_stores (h : DhtHandler) (tokenStore : TokenStore) (random : Random)
    (activeStores : AnnounceStorage) :
    Answers h { h with tokenStore := tokenStore, random := random, activeStores := activeStores } := by
  constructor <;> rfl

theorem answers_markRemote (h : DhtHandler) (nodeId : NodeId) (addr : SocketAddr) :
    Answers h (h.markRemote nodeId addr) := by
  unfold markRemote remoteRequestFrom
  split
  · unfold Shared.remoteRequest Shared.modify
    split
    all_goals constructor <;> rfl
  · constructor <;> rfl

theorem answers_reply (h : DhtHandler) (message : MessageType) (addr : SocketAddr) :
    Answers h (h.reply message addr) := by
  by_cases haccepts : h.shared.accepts h.shared.sends = true
  · simp only [reply, send, if_pos haccepts]
    constructor <;> rfl
  · simp only [reply, send, if_neg haccepts]
    constructor <;> rfl

theorem answers_checkin (hash : Bytes → ShaHash) (h : DhtHandler) (token : Bytes) (addr : SocketAddr) :
    Answers h (h.checkin hash token addr).2 := by
  unfold checkin
  split
  · exact answers_stores h _ _ _
  · exact answers_stores h _ _ _

theorem answers_handleAnnouncePeer (h : DhtHandler) (a : AnnouncePeerRequest) (addr : SocketAddr) :
    Answers h (h.handleAnnouncePeer hash a addr) := by
  have hfirst := (answers_markRemote h a.nodeId addr).trans
    (answers_checkin hash _ a.token addr)
  unfold handleAnnouncePeer
  simp only
  split
  · exact hfirst.trans (answers_reply _ _ _)
  · split
    · exact (hfirst.trans (answers_stores _ _ _ _)).trans (answers_reply _ _ _)
    · exact (hfirst.trans (answers_stores _ _ _ _)).trans (answers_reply _ _ _)

theorem answers_handleRequest {request : RequestType}
    (hcall : h.handleRequest hash request addr = .ok h') : Answers h h' := by
  cases request with
  | ping p =>
    cases hcall
    exact (answers_markRemote _ _ _).trans (answers_reply _ _ _)
  | findNode f =>
    obtain ⟨nodes, -, hcall⟩ := bind_eq_ok.mp hcall
    obtain ⟨rsp, -, hcall⟩ := bind_eq_ok.mp hcall
    cases hcall
    exact (answers_markRemote _ _ _).trans (answers_reply _ _ _)
  | getPeers g =>
    obtain ⟨nodes, -, hcall⟩ := bind_eq_ok.mp hcall
    obtain ⟨infoType, -, hcall⟩ := bind_eq_ok.mp hcall
    cases hcall
    exact ((answers_markRemote _ _ _).trans (answers_stores _ _ _ _)).trans (answers_reply _ _ _)
  | announcePeer a =>
    cases hcall
    exact answers_handleAnnouncePeer h a addr

/-! ### Runs -/

theorem fire_cases (h : DhtHandler) (actionId : ActionID) (index : Nat) :
    h.fire actionId index = h ∨ ∃ action check, h.tableActions.lookup actionId = some action ∧
      action.tasks[index]? = some check ∧ h.fire actionId index =
        { h.setAction actionId (action.withTasks (action.tasks.eraseIdx index)) h.shared with
          scheduledTasks := h.scheduledTasks ++ [check] } := by
  unfold fire
  split
  · exact Or.inl rfl
  · rename_i action haction
    split
    · exact Or.inl rfl
    · rename_i check hcheck
      exact Or.inr ⟨action, check, haction, hcheck, rfl⟩

variable {input : Input}

/-- A step is the answer to a request, or made of the other things the handler does. -/
theorem step_cases (asked : DhtHandler → DhtHandler → Prop) (hfresh : ∀ f ∈ h.futureActions, f.Fresh)
    (hstep : h.step hash input = .ok h') : (∃ buffer addr request, input = .task (.incoming buffer addr) ∧
      h.parse buffer = .ok (some (.request request)) ∧ h.handleRequest hash request addr = .ok h') ∨
      ReflTransGen (Does asked) h h' := by
  cases input with
  | task task =>
    cases task with
    | incoming buffer addr =>
      rcases handleIncoming_cases asked hfresh hstep with ⟨request, hparse, hrequest⟩ | hdoes
      · exact Or.inl ⟨buffer, addr, request, rfl, hparse, hrequest⟩
      · exact Or.inr hdoes
    | startBootstrap routers nodes => exact Or.inr (does_handleStartBootstrap hstep)
    | startLookup infoHash shouldAnnounce => exact Or.inr (does_handleStartLookup hstep)
    | shutdown cause =>
      cases hstep
      exact Or.inr (.single (does_event _ _))
  | ownTask =>
    simp only [step] at hstep
    split at hstep
    · cases hstep
      exact Or.inr .refl
    · rename_i cause shutdowns _
      cases hstep
      exact Or.inr (.head (.clock h h.shared.now shutdowns) (.single (does_event _ _)))
  | fire actionId index =>
    cases hstep
    exact Or.inr (.single (.fire h actionId index))
  | check =>
    simp only [step] at hstep
    split at hstep
    · cases hstep
      exact Or.inr .refl
    · rename_i check scheduledTasks hnext
      exact Or.inr (.head (.deliver hnext) (does_handleScheduledTask (by exact hfresh) hstep))
  | tick duration =>
    cases hstep
    exact Or.inr (.single (.clock h _ h.shared.shutdowns))

theorem does_step (hfresh : ∀ f ∈ h.futureActions, f.Fresh)
    (hstep : h.step hash input = .ok h') : ReflTransGen (Does (Requested hash)) h h' := by
  rcases step_cases (Requested hash) hfresh hstep with ⟨_, addr, request, -, -, hrequest⟩ | hdoes
  · exact .single (.request ⟨request, addr, hrequest⟩)
  · exact hdoes

inductive Reachable (hash : Bytes → ShaHash) : DhtHandler → Prop where
  | new {s : Shared} (hs : s.Initial) (readOnly : Bool) (value : Nat → UInt32)
      (aidShuffles : Nat → Shuffle actionIdPreallocLen) (handshakerPort : UInt16) :
      Reachable hash (new s readOnly ⟨value, 0⟩ aidShuffles handshakerPort)
  | step {h h' : DhtHandler} {input : Input} (hreach : Reachable hash h)
      (hstep : h.step hash input = .ok h') : Reachable hash h'

theorem run_append (h : DhtHandler) (inputs inputs' : List Input) :
    h.run hash (inputs ++ inputs') = h.run hash inputs >>= fun h => h.run hash inputs' :=
  foldlM_append

theorem run_singleton (h : DhtHandler) (input : Input) : h.run hash [input] = h.step hash input := by
  rw [run, foldlM_cons]
  exact bind_pure _

theorem Reachable.of_run {inputs : List Input} (hreach : Reachable hash h)
    (hrun : h.run hash inputs = .ok h') : Reachable hash h' := by
  induction inputs generalizing h with
  | nil =>
    cases hrun
    exact hreach
  | cons input inputs ih =>
    obtain ⟨h₁, hstep, hrest⟩ := bind_eq_ok.mp (by rwa [run, foldlM_cons] at hrun)
    exact ih (.step hreach hstep) hrest

variable {P : DhtHandler → Prop}

theorem keeps_of_does (hdoes : ∀ {h h'}, Does asked h h' → P h → P h')
    (hchain : ReflTransGen (Does asked) h h') (hP : P h) : P h' := by
  induction hchain with
  | refl => exact hP
  | tail _ hlast ih => exact hdoes hlast ih

theorem fresh_of_does (hdoes : Does (Requested hash) h h') (hfresh : ∀ f ∈ h.futureActions, f.Fresh) :
    ∀ f ∈ h'.futureActions, f.Fresh := by
  cases hdoes with
  | plan futureActions hplan => exact hplan hfresh
  | request hasked =>
    obtain ⟨request, addr, hrequest⟩ := hasked
    rw [(answers_handleRequest hrequest).futureActions]
    exact hfresh
  | fire actionId index =>
    rcases h.fire_cases actionId index with heq | ⟨action, check, -, -, heq⟩
    · rw [heq]
      exact hfresh
    · rw [heq]
      exact hfresh
  | _ => exact hfresh

theorem Reachable.fresh (hreach : Reachable hash h) : ∀ f ∈ h.futureActions, f.Fresh := by
  induction hreach with
  | new hs readOnly value aidShuffles handshakerPort =>
    intro f hf
    rw [mem_singleton.mp hf]
    exact Nat.zero_le _
  | step hreach hstep ih => exact keeps_of_does fresh_of_does (does_step ih hstep) ih

/-- What holds at first and is kept by all that the handler does holds in all reachable states. -/
theorem Reachable.invariant (hnew : ∀ {s : Shared}, s.Initial → ∀ readOnly value aidShuffles handshakerPort,
      P (DhtHandler.new s readOnly ⟨value, 0⟩ aidShuffles handshakerPort))
    (hdoes : ∀ {h h'}, Does (Requested hash) h h' → P h → P h') (hreach : Reachable hash h) : P h := by
  induction hreach with
  | new hs readOnly value aidShuffles handshakerPort =>
    exact hnew hs readOnly value aidShuffles handshakerPort
  | step hreach hstep ih => exact keeps_of_does hdoes (does_step hreach.fresh hstep) ih

end DhtHandler

/-! ### A node to begin with -/

/-- Stands for the hash function where it does not matter. -/
def zeroHash : Bytes → ShaHash := fun _ => idOf 0

/-- The shared state of a node with the given table, at time zero. All its messages can be sent. -/
def Shared.fresh (table : RoutingTable) (cells : Nat → NodeState) (nextCell : Nat) : Shared where
  now := 0
  cells := cells
  nextCell := nextCell
  table := table
  accepts := fun _ => true
  sends := 0
  sent := []
  shuffles := fun _ => noShuffle _
  issued := []
  queries := []
  shutdowns := []

theorem Shared.initial_fresh {table : RoutingTable} {cells : Nat → NodeState} {nextCell : Nat}
    (ht : table.Reachable) (hcells : ∀ node ∈ table.entries, ∀ c, node.cell = some c → c < nextCell) :
    (fresh table cells nextCell).Initial :=
  ⟨ht, hcells, rfl, rfl, rfl, rfl⟩

def Shared.alone : Shared := .fresh (.new (idOf 0)) (fun _ => .asGood 0) 0

def Shared.tenGood : Shared := .fresh tenNodes (fun _ => .asGood 0) 10

theorem Shared.initial_tenGood : tenGood.Initial := by
  have hcells : ∀ node ∈ tenNodes.entries, node.cell.all (· < 10) := by decide
  refine initial_fresh reachable_tenNodes fun node hnode c hc => ?_
  have hcell := hcells node hnode
  rw [hc] at hcell
  exact of_decide_eq_true hcell

theorem Shared.isPlaceholder_of_alone {node : Node} (hnode : node ∈ alone.table.entries) :
    node.IsPlaceholder :=
  Bucket.isPlaceholder_of_mem_new (by simpa [alone, fresh, entries, new] using hnode)

theorem Shared.initial_alone : alone.Initial := by
  refine initial_fresh (.new _) fun node hnode c hc => ?_
  rw [isPlaceholder_of_alone hnode] at hc
  cases hc

theorem Shared.closestNodes_alone {s : Shared} (hs : s.table = alone.table) (target : NodeId) :
    s.closestNodes target = .ok [] := by
  have ht : s.table.Valid := by
    rw [hs]
    exact (RoutingTable.Reachable.new _).valid
  obtain ⟨nodes, hnodes, hperm, -⟩ := closestNodes_spec ht target
  have hnone : nodes = [] := by
    refine eq_nil_iff_forall_not_mem.mpr fun node hnode => ?_
    obtain ⟨hmem, hlive⟩ := mem_filter.mp (hperm.mem_iff.mp hnode)
    rw [hs] at hmem
    exact Bucket.not_isPlaceholder_of_isPingable hlive (isPlaceholder_of_alone hmem)
  rw [hnodes, hnone]

theorem Shared.findNode_alone {s : Shared} (hs : s.table = alone.table) (node : NodeKey) :
    s.findNode node = none := by
  rw [Option.eq_none_iff_forall_ne_some]
  intro n hn
  obtain ⟨hmem, hlive, -⟩ := findNode_sound hn
  rw [hs] at hmem
  exact Bucket.not_isPlaceholder_of_isPingable hlive (isPlaceholder_of_alone hmem)

def DhtHandler.fresh (s : Shared) : DhtHandler :=
  .new s false ⟨UInt32.ofNat, 0⟩ (fun _ => noShuffle _) 6881

theorem DhtHandler.reachable_fresh {s : Shared} (hash : Bytes → ShaHash) (hs : s.Initial) :
    Reachable hash (fresh s) :=
  .new hs _ _ _ _

theorem DhtHandler.of_generateAid (s : Shared) :
    (fresh s).generateAid.1.Of (fresh s).generateAid.1.actionId := by
  have hrange : (fresh s).aidGenerator.InRange :=
    ((AIDGenerator.inRange_new (noShuffle _)).generate (noShuffle _)).2
  obtain ⟨⟨actionId, hof⟩, -⟩ := hrange.generate ((fresh s).aidShuffles (fresh s).actions)
  have haction : (fresh s).generateAid.1.actionId = actionId := hof.actionId_eq
  rw [haction]
  exact hof

theorem DhtHandler.issued_fresh {s : Shared} (hs : s.issued = [])
    (hshuffles : s.shuffles = fun _ => noShuffle _) : (fresh s).shared.issued = [.new 0] := by
  have hfresh : (fresh s).shared.issued = s.issued ++ [(MIDGenerator.generate
      ((AIDGenerator.new (noShuffle _)).generate (noShuffle _)).1
      (s.shuffles s.issued.length)).1] := rfl
  rw [hfresh, generate_newAids, hs, hshuffles, generate_newMids]
  rfl

theorem DhtHandler.generateAid_fresh (s : Shared) :
    (fresh s).generateAid.1 = .new (1 <<< UInt64.ofNat messageIdShift) := by
  have hfresh : (fresh s).generateAid.1 =
      (((AIDGenerator.new (noShuffle _)).generate (noShuffle _)).2.generate
        (noShuffle _)).1 := rfl
  rw [hfresh, generate_newAids, generate_nextAids]

/-- The lookup of a node that knows nobody: nothing is sent, and the lookup is kept. -/
def DhtHandler.lonelyLookup : DhtHandler :=
  (fresh .alone).generateAid.2.insertAction (fresh .alone).generateAid.1.actionId
    (.lookup (.idle (idOf 0) (idOf 16) (fresh .alone).generateAid.1 true))

theorem DhtHandler.run_lonelyLookup (hash : Bytes → ShaHash) :
    (fresh .alone).run hash [.task (.startLookup (idOf 16) true)] = .ok lonelyLookup := by
  have hclosest : (fresh .alone).shared.closestNodes (idOf 16) = .ok [] :=
    closestNodes_alone rfl _
  rw [run, foldlM_cons, step, handleTask, handleStartLookup_of_no_good rfl hclosest rfl true, ok_bind]
  rfl

theorem DhtHandler.reachable_lonelyLookup (hash : Bytes → ShaHash) : Reachable hash lonelyLookup :=
  (reachable_fresh hash initial_alone).of_run (run_lonelyLookup hash)

end BitTorrent.Dht
