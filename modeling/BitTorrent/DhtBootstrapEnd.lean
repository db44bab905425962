import BitTorrent.DhtHandlerSound

/-! The end of a bootstrap. After its last bucket a bootstrap is over, and the handler drops it or starts
it again, with one exception: after the third attempt, and without any good node, the handler asks
itself to shut down and keeps the bootstrap as it is. Messages of the last bucket may still be on their
way. When the last of them is answered or timed out, the bootstrap goes on to a bucket that is not
there. -/

namespace BitTorrent.Dht

open Rust Relation List Bucket TableBootstrap

namespace DhtHandler

variable {hash : Bytes → ShaHash} {h h' : DhtHandler} {s : Shared} {transId : TransactionID}

/-- The message with the given id is the last one a bootstrap waits for that is done with all buckets. -/
def Overruns (h : DhtHandler) (transId : TransactionID) : Prop :=
  ∃ b attempts, h.tableActions.lookup transId.actionId = some (.bootstrap b attempts) ∧
    b.OverrunBy transId

/-- A call that panics in the given case and returns in all others. -/
def PanicsIff (result : Run Empty DhtHandler) (p : Prop) : Prop :=
  (p → result = .error .panic) ∧ (¬ p → ∃ h', result = .ok h')

theorem panicsIff_of_received (hsound : h.Sound) {b : TableBootstrap} {attempts : Nat}
    (haction : h.tableActions.lookup transId.actionId = some (.bootstrap b attempts))
    {result : Run Empty (BootstrapStatus × TableBootstrap × Shared)}
    (hreturns : if b.OverrunBy transId then result = .error .panic else ∃ r, result = .ok r)
    (hreceived : ∀ {status b' s}, result = .ok (status, b', s) → b.Received h.shared status b' s) :
    PanicsIff (do
      let (status, b, s) ← result
      let (complete, h) ← h.afterBootstrap transId.actionId attempts status b s
      h.completeIf complete transId.actionId) (h.Overruns transId) := by
  have hiff : h.Overruns transId ↔ b.OverrunBy transId := by
    constructor
    · rintro ⟨b', attempts', hlookup, hover⟩
      rw [haction] at hlookup
      cases hlookup
      exact hover
    · exact fun hover => ⟨b, attempts, haction, hover⟩
  rw [PanicsIff, hiff]
  constructor
  · intro hover
    rw [if_pos hover] at hreturns
    rw [hreturns]
    rfl
  · intro hover
    rw [if_neg hover] at hreturns
    obtain ⟨⟨status, b', s⟩, hresult⟩ := hreturns
    obtain ⟨complete, h₁, h', hafter, hcomplete⟩ :=
      afterBootstrap_ok hsound attempts (hreceived hresult) transId.actionId
    refine ⟨h', ?_⟩
    rw [hresult, ok_bind]
    simp only
    rw [hafter, ok_bind]
    exact hcomplete

theorem handleCheckBootstrapTimeout_panicsIff (hsound : h.Sound) (transId : TransactionID) :
    PanicsIff (h.handleCheckBootstrapTimeout transId) (h.Overruns transId) := by
  unfold handleCheckBootstrapTimeout
  split
  · rename_i b attempts haction
    exact panicsIff_of_received hsound haction
      (recvTimeout_returns hsound.table (hsound.actions _ _ haction).2.1 transId)
      received_of_recvTimeout
  · rename_i hother
    refine ⟨fun ⟨b, attempts, haction, _⟩ => ?_, fun _ => ⟨h, rfl⟩⟩
    exact absurd haction (hother b attempts)

theorem handleFindNodeResponse_panicsIff (hsound : h.Sound) (f : FindNodeResponse) (addr : SocketAddr)
    (hid : TransactionID.fromBytes f.transId = some transId) :
    PanicsIff (h.handleFindNodeResponse f addr) (h.Overruns transId) := by
  obtain ⟨s₁, hnodes, hvalid₁⟩ := addQuestionable_ok hsound.table f.nodes.toList
  obtain ⟨s₂, hresponder, hvalid₂⟩ :=
    addResponder_ok hvalid₁ h transId.actionId (f.nodeId, addr)
  have hsound₂ : Sound { h with shared := s₂ } := hsound.addNodes hnodes hresponder
  have hsame : h.Overruns transId ↔ Overruns { h with shared := s₂ } transId := Iff.rfl
  unfold handleFindNodeResponse
  simp only [hid, hnodes, ok_bind, hresponder]
  rw [hsame]
  split
  · rename_i b attempts haction
    exact panicsIff_of_received hsound₂ haction
      (recvResponse_returns hsound₂.table (hsound₂.actions _ _ haction).2.1 transId)
      received_of_recvResponse
  · rename_i hother
    refine ⟨fun ⟨b, attempts, haction, _⟩ => ?_, fun _ => ⟨_, rfl⟩⟩
    exact absurd haction (hother b attempts)

theorem step_check_panicsIff (hsound : h.Sound) {checks : List ScheduledTaskCheck}
    (hnext : h.scheduledTasks = .bootstrapTimeout transId :: checks) :
    PanicsIff (h.step hash .check) (h.Overruns transId) := by
  rw [step, hnext]
  exact handleCheckBootstrapTimeout_panicsIff
    (h := { h with scheduledTasks := checks })
    ⟨hsound.table, hsound.actions, hsound.future⟩ transId

/-- A bootstrap goes past its last bucket exactly if the message that is answered or timed out is the
last one it waits for after all buckets are done. This is after the third attempt only. -/
theorem bootstrap_panics_iff (hreach : Reachable hash h) :
    (∀ routers nodes, ∃ h', h.step hash (.task (.startBootstrap routers nodes)) = .ok h') ∧
    (∀ buffer addr f, h.parse buffer = .ok (some (.response (.findNode f))) → ∃ transId,
      TransactionID.fromBytes f.transId = some transId ∧
        PanicsIff (h.step hash (.task (.incoming buffer addr))) (h.Overruns transId)) ∧
    (∀ transId checks, h.scheduledTasks = .bootstrapTimeout transId :: checks →
      PanicsIff (h.step hash .check) (h.Overruns transId)) ∧
    ∀ actionId b attempts, h.tableActions.lookup actionId = some (.bootstrap b attempts) →
      b.currBootstrapBucket ≤ maxBuckets ∧
        (b.currBootstrapBucket = maxBuckets ↔ maxBootstrapAttempts ≤ attempts) := by
  have hsound := hreach.sound
  refine ⟨fun routers nodes => handleStartBootstrap_ok h routers nodes, ?_, ?_, ?_⟩
  · intro buffer addr f hparse
    obtain ⟨transId, hid⟩ := transId_of_findNode hparse
    refine ⟨transId, hid, ?_⟩
    rw [step, handleTask, handleIncoming, hparse]
    exact handleFindNodeResponse_panicsIff hsound f addr hid
  · exact fun transId checks hnext => step_check_panicsIff hsound hnext
  · exact fun actionId b attempts haction => (hsound.actions _ _ haction).2

end DhtHandler

/-! ### A bootstrap that gives up -/

def nearId : NodeId := ⟨replicate 19 0 ++ [1], rfl⟩

def nearNode (port : UInt16) (cell : Nat) : Node := ⟨nearId, .v4 (octets 10 0 0 1) port, some cell⟩

/-- One id at eight addresses. -/
def nearNodes : List Node :=
  [nearNode 0 0, nearNode 1 1, nearNode 2 2, nearNode 3 3, nearNode 4 4, nearNode 5 5, nearNode 6 6,
    nearNode 7 7]

/-- A table that was split a number of times, with all its nodes in the last bucket. -/
def deepTable (splits : Nat) : RoutingTable :=
  ⟨replicate splits Bucket.new ++ [⟨nearNodes, rfl⟩], RoutingTable.idOf 0⟩

section

open RoutingTable

def nearWorld : World := worldOf [0, 1, 2, 3, 4, 5, 6, 7, 8]

theorem leadingBitCount_nearId : leadingBitCount (idOf 0) nearId = 159 := by decide +kernel

variable {splits : Nat}

theorem splitTable_deepTable (hsplits : splits < 159) :
    splitTable nearWorld (idOf 0) (replicate splits Bucket.new) ⟨nearNodes, rfl⟩ =
      deepTable (splits + 1) := by
  have hbits : ∀ node ∈ nearNodes, node.status nearWorld ≠ .bad ∧
      leadingBitCount (idOf 0) node.id = 159 := by
    have hid : ∀ node ∈ nearNodes, node.status nearWorld ≠ .bad ∧ node.id = nearId := by decide
    intro node hnode
    rw [(hid node hnode).2]
    exact ⟨(hid node hnode).1, leadingBitCount_nearId⟩
  have hnear : nearNodes.filter (isNear nearWorld (idOf 0) splits) = [] := by
    refine filter_eq_nil_iff.mpr fun node hnode => ?_
    rw [isNear, decide_eq_true_iff, (hbits node hnode).2]
    omega
  have hfar : nearNodes.filter (isFar nearWorld (idOf 0) splits) = nearNodes := by
    refine filter_eq_self.mpr fun node hnode => ?_
    rw [isFar, decide_eq_true_iff, (hbits node hnode).2]
    exact ⟨(hbits node hnode).1, hsplits⟩
  have hfill : fill nearWorld nearNodes = ⟨nearNodes, rfl⟩ := by decide +kernel
  rw [splitTable, length_replicate, hnear, hfar, hfill, deepTable, replicate_succ']
  simp [fill]

theorem home_deepTable (hsplits : splits ≤ 159) : (deepTable splits).home (nearNode 8 8) = splits ∧
      (deepTable splits).buckets[splits]? = some ⟨nearNodes, rfl⟩ := by
  constructor
  · rw [home, deepTable, length_append, length_replicate, length_singleton]
    change min (leadingBitCount (idOf 0) nearId) _ = _
    rw [leadingBitCount_nearId]
    omega
  · rw [deepTable, getElem?_append_right (by simp), length_replicate, Nat.sub_self]
    rfl

variable {t : RoutingTable}

theorem deepTable_of_adds {t' : RoutingTable} (hadds : Adds nearWorld (nearNode 8 8) t t')
    (hsplits : splits ≤ 159) (ht : t = deepTable splits) : t' = deepTable 159 := by
  have hfull : (addNode nearWorld ⟨nearNodes, rfl⟩ (nearNode 8 8)).2 = false := by
    decide +kernel
  obtain ⟨hhome, hbucket⟩ := home_deepTable hsplits
  induction hadds generalizing splits with
  | placed hb hspace =>
    rw [ht, hhome, hbucket] at hb
    cases hb
    rw [hfull] at hspace
    cases hspace
  | refused hb hspace hlimit =>
    rw [ht, hhome] at hlimit
    have hlen : (deepTable splits).buckets.length = splits + 1 := by simp [deepTable]
    rw [hlen, show maxBuckets = 160 from rfl] at hlimit
    rw [ht, show splits = 159 by omega]
  | split hhome' hspace hlimit rest ih =>
    rename_i nodeId front b t'
    obtain ⟨hbuckets, hid⟩ := RoutingTable.mk.injEq _ _ _ _ ▸ ht
    obtain ⟨hfront, hb⟩ := append_inj' hbuckets rfl
    cases hb
    rw [hfront, length_replicate, show maxBuckets = 160 from rfl] at hlimit
    have hnext : splits + 1 ≤ 159 := by omega
    obtain ⟨hhome₁, hbucket₁⟩ := home_deepTable hnext
    refine ih hnext ?_ hhome₁ hbucket₁
    rw [hfront, hid, splitTable_deepTable (by omega)]

theorem reachable_deepTable : (deepTable 159).Reachable := by
  have hfirst : (deepTable 0).Reachable :=
    .addAll (.new (idOf 0)) nearWorld nearNodes (by decide +kernel)
  obtain ⟨t, hadds, hcall⟩ := addNode_run hfirst.valid nearWorld (nearNode 8 8)
  refine .add nearWorld (nearNode 8 8) hfirst ?_
  rw [hcall _ le_rfl]
  cases hadds with
  | ignored hignored => exact absurd hignored (by decide)
  | added hlive hforeign hrun => rw [deepTable_of_adds hrun (Nat.zero_le _) rfl]

variable {p : Node → Bool}

theorem filter_buckets (hp : p placeholder = false) (n : Nat) (last : List Bucket) :
    ((replicate n Bucket.new ++ last).flatMap nodes).filter p = (last.flatMap nodes).filter p := by
  rw [flatMap_append, filter_append, filter_eq_nil_iff.mpr, nil_append]
  intro node hnode
  obtain ⟨b, hb, hmem⟩ := mem_flatMap.mp hnode
  rw [(mem_replicate.mp hb).2] at hmem
  rw [eq_of_mem_replicate hmem, hp]
  exact Bool.false_ne_true

theorem filter_entries (hp : p placeholder = false) : (deepTable 159).entries.filter p = nearNodes.filter p :=
  filter_buckets hp 159 [⟨nearNodes, rfl⟩]

theorem bucketContents_of_full (h : t.buckets.length = maxBuckets) :
    t.bucketContents = t.buckets.map BucketContents.sorted := by
  rw [bucketContents, Buckets.toList_new, Buckets.lastContents, if_pos h, append_nil]
  apply ext_getElem?
  intro i
  rw [getElem?_map, getElem?_map]
  rcases lt_or_ge i maxBuckets with hi | hi
  · rw [getElem?_range hi, getElem?_eq_getElem (h ▸ hi), Option.map_some, Option.map_some,
      Buckets.contentsAt, getElem?_eq_getElem (h ▸ hi)]
    simp only [if_pos (Or.inr h)]
  · rw [getElem?_eq_none (by simpa using hi), getElem?_eq_none (h ▸ hi)]
    rfl

variable {s : Shared} {b : TableBootstrap}

theorem filter_closest (ht : s.table = deepTable 159) (status : NodeStatus) (hstatus : status ≠ .bad)
    (targetId : NodeId) : ∃ closest, s.closestNodes targetId = .ok closest ∧
      (closest.filter fun n => n.status s.world = status).Perm
        (nearNodes.filter fun n => n.status s.world = status) := by
  have hvalid : s.table.Valid := by
    rw [ht]
    exact reachable_deepTable.valid
  obtain ⟨closest, hclosest, hperm, -⟩ := Shared.closestNodes_spec hvalid targetId
  refine ⟨closest, hclosest, (hperm.filter _).trans (List.Perm.of_eq ?_)⟩
  have hnone : decide (placeholder.status s.world = status) = false :=
    decide_eq_false fun h => hstatus h.symm
  rw [ht, filter_filter, ← filter_entries hnone]
  refine filter_congr fun node _ => ?_
  by_cases h : node.status s.world = status
  · rw [decide_eq_true h, isPingable_iff.mpr (h ▸ hstatus), Bool.and_self]
  · rw [decide_eq_false h, Bool.false_and]

/-- The nodes to ask for one of the first two buckets, if there is at most one. -/
theorem questionableNodes_first (ht : s.table = deepTable 159) {nodes : List Node}
    (hnodes : nearNodes.filter (fun n => n.status s.world = .questionable) = nodes)
    (hlen : nodes.length ≤ 1) (hbucket : b.currBootstrapBucket < 2) (targetId : NodeId) :
    b.questionableNodes s targetId = .ok nodes := by
  obtain ⟨closest, hclosest, hperm⟩ := filter_closest ht .questionable (by decide) targetId
  have heq : closest.filter (fun n => n.status s.world = .questionable) = nodes := by
    rw [hnodes] at hperm
    rcases nodes with _ | ⟨node, _ | ⟨_, _⟩⟩
    · exact hperm.eq_nil
    · exact perm_singleton.mp hperm
    · simp at hlen
  rw [questionableNodes, if_pos (by omega), hclosest, ok_bind]
  exact congrArg Except.ok heq

/-- The nodes to ask for a later bucket are those of three buckets. -/
theorem questionableNodes_later (ht : s.table = deepTable 159) (hbucket : 2 ≤ b.currBootstrapBucket)
    (targetId : NodeId) : b.questionableNodes s targetId =
      .ok ((((deepTable 159).buckets.drop (b.currBootstrapBucket - 2)).take 3).flatMap nodes
        |>.filter fun n => n.status s.world = .questionable) := by
  have hfull : (deepTable 159).buckets.length = maxBuckets := by
    rw [deepTable, length_append, length_replicate]
    rfl
  rw [questionableNodes, if_neg (by omega), ok_bind, ht, bucketContents_of_full hfull,
    ← map_drop, ← map_take, flatMap_map]
  rfl

theorem numGoodNodes_deepTable (ht : s.table = deepTable 159) :
    DhtHandler.numGoodNodes s = .ok (nearNodes.filter fun n => n.status s.world = .good).length := by
  obtain ⟨closest, hclosest, hperm⟩ := filter_closest ht .good (by decide) s.table.nodeId
  rw [DhtHandler.numGoodNodes, hclosest, ok_bind]
  exact congrArg Except.ok hperm.length_eq

theorem questionableNodes_middle (ht : s.table = deepTable 159) (hbucket : 2 ≤ b.currBootstrapBucket)
    (hlast : b.currBootstrapBucket < 159) (targetId : NodeId) : b.questionableNodes s targetId = .ok [] := by
  have hnone : decide (placeholder.status s.world = .questionable) = false := rfl
  have hbuckets : ((deepTable 159).buckets.drop (b.currBootstrapBucket - 2)).take 3 =
      replicate 3 Bucket.new ++ [] := by
    rw [deepTable, drop_append_of_le_length, take_append_of_le_length, drop_replicate,
      take_replicate, append_nil]
    · congr 1
      omega
    · rw [length_drop, length_replicate]
      omega
    · rw [length_replicate]
      omega
  rw [questionableNodes_later ht hbucket, hbuckets, filter_buckets hnone]
  rfl

theorem questionableNodes_last (ht : s.table = deepTable 159) (hlast : b.currBootstrapBucket = 159)
    (targetId : NodeId) : b.questionableNodes s targetId =
      .ok (nearNodes.filter fun n => n.status s.world = .questionable) := by
  have hnone : decide (placeholder.status s.world = .questionable) = false := rfl
  have hbuckets : ((deepTable 159).buckets.drop (159 - 2)).take 3 =
      replicate 2 Bucket.new ++ [⟨nearNodes, rfl⟩] := rfl
  rw [questionableNodes_later ht (by omega), hlast, hbuckets, filter_buckets hnone]
  rfl

end

/-- A bootstrap that waits for one message, with a timer, and that has nobody to start from. -/
structure TableBootstrap.WaitsFor (b : TableBootstrap) (actionId : ActionID) (transId : TransactionID) :
    Prop where
  action : transId.actionId = actionId
  active : b.activeMessages = {transId}
  tasks : b.tasks = [.bootstrapTimeout transId]
  generator : b.idGenerator.Of actionId
  starting : b.startingRouters ++ b.startingNodes = []

namespace DhtHandler

/-- A handler with the deep table, in the given world, and without a check in its channel. -/
structure Quiet (h : DhtHandler) (world : World) : Prop where
  channel : h.scheduledTasks = []
  table : h.shared.table = deepTable 159
  accepts : ∀ k, h.shared.accepts k = true
  world_eq : h.shared.world = world

/-- Such a handler with a bootstrap that waits for one message. -/
structure Waits (h : DhtHandler) (actionId : ActionID) (world : World) (bucket attempts : Nat) : Prop
    extends Quiet h world where
  held : ∃ b transId, h.tableActions.lookup actionId = some (.bootstrap b attempts) ∧
    b.WaitsFor actionId transId ∧ b.currBootstrapBucket = bucket

/-- The time until a timer of a bootstrap fires. -/
def bootstrapInitialTimeout : Nat := 2500000000

def timeout (actionId : ActionID) : List Input :=
  [.tick bootstrapInitialTimeout, .fire actionId 0] ++ [.check]

def later (w : World) : World := ⟨w.now + bootstrapInitialTimeout, w.cells⟩

variable {h : DhtHandler} {actionId : ActionID} {w : World} {bucket attempts : Nat}

/-- The bootstrap right before its next bucket. -/
def idleBootstrap (b : TableBootstrap) : TableBootstrap := { b with activeMessages := ∅, tasks := [] }

/-- The handler when the timer has fired and its check is taken. -/
def atTimeout (h : DhtHandler) (actionId : ActionID) (b : TableBootstrap) (attempts : Nat) : DhtHandler :=
  { h.setAction actionId (.bootstrap { b with tasks := [] } attempts)
      { h.shared with now := h.shared.now + bootstrapInitialTimeout } with
    scheduledTasks := [] }

/-- The handler when the timer has fired and its check is in the channel. -/
def atFire (h : DhtHandler) (actionId : ActionID) (b : TableBootstrap) (attempts : Nat)
    (transId : TransactionID) : DhtHandler :=
  { h.atTimeout actionId b attempts with scheduledTasks := [.bootstrapTimeout transId] }

section

variable {b : TableBootstrap} {transId : TransactionID} (hquiet : h.Quiet w)
  (haction : h.tableActions.lookup actionId = some (.bootstrap b attempts))
  (hb : b.WaitsFor actionId transId)

include hquiet haction hb

theorem run_fire (hash : Bytes → ShaHash) : h.run hash [.tick bootstrapInitialTimeout, .fire actionId 0] =
      .ok (h.atFire actionId b attempts transId) := by
  have hfire : fire { h with shared := { h.shared with now := h.shared.now + bootstrapInitialTimeout } }
      actionId 0 = h.atFire actionId b attempts transId := by
    unfold fire
    simp only [haction, TableAction.tasks, hb.tasks]
    rw [hquiet.channel]
    rfl
  rw [run, foldlM_cons, step, ok_bind, foldlM_cons, step, hfire]
  rfl

theorem run_timeout (hash : Bytes → ShaHash) :
    h.run hash (timeout actionId) = (do
      let (status, b', s) ← bootstrapNextBucket bucketLimit
        (idleBootstrap b) (h.atTimeout actionId b attempts).shared
      let (complete, h) ← (h.atTimeout actionId b attempts).afterBootstrap actionId attempts
        status b' s
      h.completeIf complete actionId) := by
  have hlookup : (h.atTimeout actionId b attempts).tableActions.lookup transId.actionId =
      some (.bootstrap { b with tasks := [] } attempts) := by
    rw [hb.action]
    exact AList.lookup_insert _
  have hrecv : recvTimeout { b with tasks := [] }
      (h.atTimeout actionId b attempts).shared transId =
      bootstrapNextBucket bucketLimit (idleBootstrap b)
        (h.atTimeout actionId b attempts).shared := by
    rw [recvTimeout, if_pos (by simp [hb.active]), nextBucketIfIdle]
    simp only [hb.active, Finset.erase_singleton, if_true]
    rfl
  have hcheck : (h.atFire actionId b attempts transId).step hash .check =
      (h.atTimeout actionId b attempts).handleCheckBootstrapTimeout transId := rfl
  rw [timeout, run_append h _ [.check], run_fire hquiet haction hb hash, ok_bind, run_singleton, hcheck,
    handleCheckBootstrapTimeout, hlookup]
  simp only
  rw [hrecv, hb.action]

end

theorem Quiet.atTimeout (hquiet : h.Quiet w) (actionId : ActionID) (b : TableBootstrap) (attempts : Nat) :
    (h.atTimeout actionId b attempts).Quiet (later w) := by
  refine ⟨rfl, hquiet.table, hquiet.accepts, ?_⟩
  rw [later, ← hquiet.world_eq]
  rfl

variable {s : Shared}

theorem Quiet.setAction {b : TableBootstrap} {transId : TransactionID}
    (hquiet : h.Quiet w) (attempts : Nat) (htable : s.table = h.shared.table) (haccepts : s.accepts = h.shared.accepts)
    (hb : b.WaitsFor actionId transId) :
    (h.setAction actionId (.bootstrap b attempts) s).Waits actionId s.world b.currBootstrapBucket
      attempts := by
  refine ⟨⟨hquiet.channel, htable.trans hquiet.table, ?_, rfl⟩, b, transId, ?_, hb, rfl⟩
  · change ∀ k, s.accepts k = true
    rw [haccepts]
    exact hquiet.accepts
  · exact AList.lookup_insert _

def asked (w : World) (c : Nat) : World :=
  ⟨w.now, Function.update w.cells c ((w.cells c).localRequest w.now)⟩

variable {c : Nat}

theorem world_of_pinged {s' : Shared} {node : Node} (hs : s.world = w)
    (hcell : node.cell = some c) (hpinged : TableBootstrap.Pinged s s' node) : s'.world = asked w c := by
  rw [Shared.world, hpinged.now, hpinged.cells, Shared.localRequest, Shared.modify, hcell, asked, ← hs]
  rfl

theorem waitsFor_pinged {b : TableBootstrap} {transId transId' : TransactionID}
    {idGenerator : MIDGenerator} (hb : b.WaitsFor actionId transId) (haction : transId'.actionId = actionId)
    (hof : idGenerator.Of actionId) (bucket : Nat) :
    (pinged { idleBootstrap b with currBootstrapBucket := bucket } transId'
      idGenerator).WaitsFor actionId transId' :=
  ⟨haction, rfl, rfl, hof, hb.starting⟩

theorem waits_of_ping (hash : Bytes → ShaHash) (hwaits : h.Waits actionId w bucket attempts)
    (hbucket : bucket < 2) (node : Node) (hcell : node.cell = some c)
    (hnodes : nearNodes.filter (fun n => n.status (later w) = .questionable) = [node]) :
    ∃ h', h.run hash (timeout actionId) = .ok h' ∧
      h'.Waits actionId (asked (later w) c) (bucket + 1) attempts := by
  obtain ⟨hquiet, b, transId, haction, hb, rfl⟩ := hwaits
  have htimeout := hquiet.atTimeout actionId b attempts
  have hquestionable : ∀ targetId, (idleBootstrap b).questionableNodes
      (h.atTimeout actionId b attempts).shared targetId = .ok [node] := by
    refine questionableNodes_first htimeout.table ?_ le_rfl hbucket
    rw [htimeout.world_eq]
    exact hnodes
  obtain ⟨transId', idGenerator, s, haction', hof, hpinged, hnext⟩ :=
    bootstrapNextBucket_ping 159 (b := idleBootstrap b)
      (show b.currBootstrapBucket < 160 by omega) hquestionable htimeout.accepts hb.generator
  have hwaits := htimeout.setAction attempts hpinged.table hpinged.accepts
    (waitsFor_pinged hb haction' hof b.currBootstrapBucket)
  rw [world_of_pinged htimeout.world_eq hcell hpinged] at hwaits
  have hmiddle : ¬ (idleBootstrap b).currBootstrapBucket + 1 = maxBuckets := by
    change ¬ b.currBootstrapBucket + 1 = 160
    omega
  rw [if_neg hmiddle] at hnext
  refine ⟨_, ?_, hwaits⟩
  rw [run_timeout hquiet haction hb hash, show bucketLimit = 159 + 1 from rfl, hnext]
  rfl

theorem bootstrapNextBucket_to_last {b : TableBootstrap} (ht : s.table = deepTable 159)
    (hbucket : b.currBootstrapBucket ≤ 159) (hnone : b.currBootstrapBucket < 2 →
      nearNodes.filter (fun n => n.status s.world = .questionable) = []) :
    bootstrapNextBucket bucketLimit b s =
      bootstrapNextBucket (b.currBootstrapBucket + 1)
        { b with currBootstrapBucket := 159 } s := by
  have hlimit : bucketLimit =
      b.currBootstrapBucket + 1 + (159 - b.currBootstrapBucket) := by
    change 160 = _
    omega
  rw [hlimit, bootstrapNextBucket_skip]
  · congr 2
    omega
  · change _ < 160
    omega
  · intro n hle hlt targetId
    rcases lt_or_ge n 2 with hfirst | hlater
    · exact questionableNodes_first ht (hnone (by omega)) (Nat.zero_le _) hfirst targetId
    · exact questionableNodes_middle ht hlater (by simp only; omega) targetId

theorem afterBootstrap_again (ht : s.table = deepTable 159) (h : DhtHandler)
    (actionId : ActionID) (attempts : Nat) (b : TableBootstrap) :
    h.afterBootstrap actionId attempts .completed b s = (do
      let (result, b, attempts, s) ← attemptRebootstrap b attempts s
      return (result = some false, h.setAction actionId (.bootstrap b attempts) s)) := by
  have hfew : (nearNodes.filter fun n => n.status s.world = .good).length ≤
      bootstrapGoodNodeThreshold := (length_filter_le _ _).trans (by decide)
  unfold afterBootstrap shouldRebootstrap
  simp only [numGoodNodes_deepTable ht, ok_bind]
  change (if decide _ = true then _ else _) = _
  rw [decide_eq_true hfew, if_pos rfl]

theorem waitsFor_restarted {b : TableBootstrap} (hof : b.idGenerator.Of actionId)
    (htasks : b.tasks = []) (hnobody : b.startingRouters ++ b.startingNodes = []) (s : Shared) :
    (b.restarted s).WaitsFor actionId (s.generate b.idGenerator).1 := by
  obtain ⟨haction, hnext⟩ := hof.generate (s.shuffles s.issued.length)
  refine ⟨haction, rfl, ?_, hnext, hnobody⟩
  rw [restarted, htasks]
  rfl

/-- A bootstrap that waits for nothing after its last bucket. -/
def overBootstrap (b : TableBootstrap) : TableBootstrap :=
  { idleBootstrap b with currBootstrapBucket := 160 }

theorem bootstrapNextBucket_over {b : TableBootstrap} (ht : s.table = deepTable 159)
    (hbucket : b.currBootstrapBucket = 0)
    (hnone : nearNodes.filter (fun n => n.status s.world = .questionable) = []) :
    bootstrapNextBucket bucketLimit (idleBootstrap b) s =
      .ok (.completed, overBootstrap b, s) := by
  obtain ⟨targetId, heq⟩ := bootstrapNextBucket_succ
    (b := { idleBootstrap b with currBootstrapBucket := 159 }) b.currBootstrapBucket
    (show 159 < 160 by decide) (questionableNodes_last ht rfl)
  have hle : (idleBootstrap b).currBootstrapBucket ≤ 159 := by
    change b.currBootstrapBucket ≤ 159
    omega
  rw [bootstrapNextBucket_to_last ht hle fun _ => hnone]
  change bootstrapNextBucket (b.currBootstrapBucket + 1) _ _ = _
  rw [heq, hnone]
  rfl

/-- An attempt that finds nobody to ask and too few good nodes is followed by the next one. -/
theorem waits_of_over (hash : Bytes → ShaHash) (hwaits : h.Waits actionId w 0 attempts)
    (hnone : nearNodes.filter (fun n => n.status (later w) = .questionable) = [])
    (hattempts : attempts + 1 < maxBootstrapAttempts) :
    ∃ h', h.run hash (timeout actionId) = .ok h' ∧ h'.Waits actionId (later w) 0 (attempts + 1) := by
  obtain ⟨hquiet, b, transId, haction, hb, hbucket⟩ := hwaits
  have htimeout := hquiet.atTimeout actionId b attempts
  have hrun := run_timeout hquiet haction hb hash
  generalize h.atTimeout actionId b attempts = h₁ at htimeout hrun
  rw [← htimeout.world_eq] at hnone
  have hagain : attemptRebootstrap (overBootstrap b) attempts h₁.shared =
      .ok (some true, (overBootstrap b).restarted h₁.shared, attempts + 1,
        (h₁.shared.generate b.idGenerator).2.2) := by
    unfold attemptRebootstrap
    simp only
    rw [if_neg (not_le.mpr hattempts),
      startBootstrap_of_nobody (b := overBootstrap b) hb.starting]
    rfl
  have hwaits := htimeout.setAction (attempts + 1)
    (s := (h₁.shared.generate b.idGenerator).2.2) rfl rfl
    (waitsFor_restarted (b := overBootstrap b) hb.generator rfl hb.starting h₁.shared)
  refine ⟨_, ?_, htimeout.world_eq ▸ hwaits⟩
  rw [hrun, bootstrapNextBucket_over htimeout.table hbucket hnone, ok_bind]
  simp only
  rw [afterBootstrap_again htimeout.table, hagain]
  rfl

/-- The last attempt ends in the last bucket with a message on its way, and without a good node. -/
theorem waits_of_give_up (hash : Bytes → ShaHash) (hwaits : h.Waits actionId w 2 2) (node : Node)
    (hcell : node.cell = some c)
    (hnodes : nearNodes.filter (fun n => n.status (later w) = .questionable) = [node])
    (hgood : nearNodes.filter (fun n => n.status (asked (later w) c) = .good) = []) :
    ∃ h', h.run hash (timeout actionId) = .ok h' ∧ h'.Waits actionId (asked (later w) c) maxBuckets 3 := by
  obtain ⟨hquiet, b, transId, haction, hb, hbucket⟩ := hwaits
  have htimeout := hquiet.atTimeout actionId b 2
  have hrun := run_timeout hquiet haction hb hash
  generalize h.atTimeout actionId b 2 = h₁ at htimeout hrun
  rw [← htimeout.world_eq] at hnodes
  have hlast : ∀ targetId, questionableNodes
      { idleBootstrap b with currBootstrapBucket := 159 } h₁.shared targetId = .ok [node] := by
    rw [← hnodes]
    exact questionableNodes_last htimeout.table rfl
  obtain ⟨transId', idGenerator, s, haction', hof, hpinged, hnext⟩ :=
    bootstrapNextBucket_ping 2 (b := { idleBootstrap b with currBootstrapBucket := 159 })
      (show 159 < 160 by decide) hlast htimeout.accepts hb.generator
  have hworld := world_of_pinged htimeout.world_eq hcell hpinged
  have hwaits := htimeout.setAction 3 (s := shutdownEventLoop s .bootstrapFailed) hpinged.table
    hpinged.accepts (waitsFor_pinged hb haction' hof 159)
  have hgiveUp : ∀ b', attemptRebootstrap b' 2 s =
      .ok (none, b', 3, shutdownEventLoop s .bootstrapFailed) := by
    intro b'
    have hnum : numGoodNodes s = .ok 0 := by
      rw [numGoodNodes_deepTable (hpinged.table.trans htimeout.table), hworld, hgood]
      rfl
    unfold attemptRebootstrap
    simp only [hnum, ok_bind]
    rfl
  have hle : (idleBootstrap b).currBootstrapBucket ≤ 159 := by
    change b.currBootstrapBucket ≤ 159
    omega
  refine ⟨_, ?_, hworld ▸ hwaits⟩
  rw [hrun, bootstrapNextBucket_to_last htimeout.table hle fun hfirst => absurd hfirst
    (by change ¬ b.currBootstrapBucket < 2; omega)]
  change (bootstrapNextBucket (b.currBootstrapBucket + 1) _ _ >>= _) = _
  rw [hbucket, hnext, if_pos (show 159 + 1 = maxBuckets from rfl), ok_bind]
  simp only
  rw [afterBootstrap_again (hpinged.table.trans htimeout.table), hgiveUp]
  rfl

/-- A node with a full table. Two of its nodes are good, for six and for eleven seconds more; the others
have been bad for long. -/
def aging : Shared :=
  .fresh (deepTable 159) (fun c =>
    if c = 0 then .asGood (6000000000 - minutes 15)
    else if c = 1 then .asGood (11000000000 - minutes 15)
    else ⟨none, some (-minutes 20), 2⟩) 9

theorem initial_aging : aging.Initial := by
  refine Shared.initial_fresh reachable_deepTable fun node hnode c hc => ?_
  have hmem : node ∈ (deepTable 159).entries.filter fun n => n.cell.isSome :=
    mem_filter.mpr ⟨hnode, by rw [hc]; rfl⟩
  rw [filter_entries rfl] at hmem
  have hcells : ∀ n ∈ nearNodes, n.cell.all (· < 9) := by decide
  have hcell := hcells node (mem_filter.mp hmem).1
  rw [hc] at hcell
  exact of_decide_eq_true hcell

theorem waits_startBootstrap (hash : Bytes → ShaHash) :
    ∃ h, (fresh aging).run hash [.task (.startBootstrap [] [])] = .ok h ∧
      h.Waits (fresh aging).generateAid.1.actionId aging.world 0 0 := by
  have hstart : startBootstrap (.new (fresh aging).generateAid.2.shared.table.nodeId (fresh aging).generateAid.1 []
      (filterMap Router.ipv4Addr [])) (fresh aging).generateAid.2.shared = _ := startBootstrap_of_nobody rfl _
  have hwaits := waitsFor_restarted
    (b := .new (RoutingTable.idOf 0) (fresh aging).generateAid.1 [] []) (of_generateAid aging) rfl rfl
    (fresh aging).shared
  have hcall : (fresh aging).handleStartBootstrap [] [] = .ok (insertAction
      { (fresh aging).generateAid.2 with
        bootstrapping := true
        shared := ((fresh aging).shared.generate (fresh aging).generateAid.1).2.2 }
      (fresh aging).generateAid.1.actionId (.bootstrap (restarted
        (.new (RoutingTable.idOf 0) (fresh aging).generateAid.1 [] []) (fresh aging).shared) 0)) := by
    unfold handleStartBootstrap
    dsimp only
    rw [hstart]
    rfl
  refine ⟨_, by rw [run_singleton, step, handleTask, hcall], ⟨rfl, rfl, fun _ => rfl, rfl⟩, _, _, ?_,
    hwaits, rfl⟩
  exact AList.lookup_insert _

/-- A bootstrap gives up after its third attempt, with a message of the last bucket on its way. -/
theorem exists_overruns :
    let actionId := (fresh aging).generateAid.1.actionId
    ∃ h transId, (fresh aging).run zeroHash ([.task (.startBootstrap [] [])] ++ timeout actionId ++
        timeout actionId ++ timeout actionId ++ timeout actionId ++ timeout actionId ++
        [.tick bootstrapInitialTimeout, .fire actionId 0]) = .ok h ∧
      h.scheduledTasks = [.bootstrapTimeout transId] ∧ h.Overruns transId := by
  intro actionId
  obtain ⟨h₀, hrun₀, hwaits₀⟩ := waits_startBootstrap zeroHash
  obtain ⟨h₁, hrun₁, hwaits₁⟩ := waits_of_over zeroHash hwaits₀ (by decide +kernel) (by decide)
  obtain ⟨h₂, hrun₂, hwaits₂⟩ := waits_of_over zeroHash hwaits₁ (by decide +kernel) (by decide)
  obtain ⟨h₃, hrun₃, hwaits₃⟩ := waits_of_ping zeroHash hwaits₂ (by decide) (nearNode 0 0) rfl
    (by decide +kernel)
  obtain ⟨h₄, hrun₄, hwaits₄⟩ := waits_of_ping zeroHash hwaits₃ (by decide) (nearNode 0 0) rfl
    (by decide +kernel)
  obtain ⟨h₅, hrun₅, hwaits₅⟩ := waits_of_give_up zeroHash hwaits₄ (nearNode 1 1) rfl
    (by decide +kernel) (by decide +kernel)
  obtain ⟨hquiet, b, transId, haction, hb, hbucket⟩ := hwaits₅
  have hrun : (fresh aging).run zeroHash ([.task (.startBootstrap [] [])] ++ timeout actionId ++
      timeout actionId ++ timeout actionId ++ timeout actionId ++ timeout actionId ++
      [.tick bootstrapInitialTimeout, .fire actionId 0]) = .ok (h₅.atFire actionId b 3 transId) := by
    rw [run_append, run_append, run_append, run_append, run_append, run_append, hrun₀, ok_bind, hrun₁,
      ok_bind, hrun₂, ok_bind, hrun₃, ok_bind, hrun₄, ok_bind, hrun₅, ok_bind,
      run_fire hquiet haction hb zeroHash]
  have hover : (h₅.atFire actionId b 3 transId).Overruns transId := by
    refine ⟨{ b with tasks := [] }, 3, ?_, hbucket, hb.active⟩
    rw [hb.action]
    exact AList.lookup_insert _
  exact ⟨_, transId, hrun, rfl, hover⟩

theorem bootstrap_panics_iff_aging : ∃ h transId, Reachable zeroHash h ∧
    h.scheduledTasks = [.bootstrapTimeout transId] ∧ h.Overruns transId ∧ h.step zeroHash .check = .error .panic := by
  obtain ⟨h, transId, hrun, hnext, hover⟩ := exists_overruns
  have hreach := (reachable_fresh zeroHash initial_aging).of_run hrun
  exact ⟨h, transId, hreach, hnext, hover, ((bootstrap_panics_iff hreach).2.2.1 transId [] hnext).1 hover⟩

/-- The timeout of that message is the end of the node. -/
theorem bootstrap_gives_up :
    let actionId := (fresh aging).generateAid.1.actionId
    aging.Initial ∧ ∃ h transId,
      (fresh aging).run zeroHash ([.task (.startBootstrap [] [])] ++ timeout actionId ++ timeout actionId ++
        timeout actionId ++ timeout actionId ++ timeout actionId ++
        [.tick bootstrapInitialTimeout, .fire actionId 0]) = .ok h ∧
      h.scheduledTasks = [.bootstrapTimeout transId] ∧ h.Overruns transId ∧
      h.step zeroHash .check = .error .panic := by
  intro actionId
  obtain ⟨h, transId, hrun, hnext, hover⟩ := exists_overruns
  have hsound := ((reachable_fresh zeroHash initial_aging).of_run hrun).sound
  exact ⟨initial_aging, h, transId, hrun, hnext, hover, (step_check_panicsIff hsound hnext).1 hover⟩

end DhtHandler

end BitTorrent.Dht
