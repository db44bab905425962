import BitTorrent.DhtHandlerSound
import BitTorrent.DhtTableChurn

/-! Responses nobody asked for. Whether a response is accepted depends on its action id alone, and the
nodes in it, or its sender, are added to the table before the action looks at the whole transaction id.
The action then ignores a response with an id it does not wait for, but the handler does not: it looks
at the status of the action, and a bootstrap that is idle counts as complete. -/

namespace BitTorrent.Dht

open Rust Bencode RoutingTable TransactionID List

/-- A datagram that holds a response with the given transaction id. -/
def IsResponse (buffer : Buffer) (trans : Bytes) : Prop :=
  ∃ bencode msgRoot msgType, BencodeRef.decode buffer .default = .ok bencode ∧
    convertDict DhtError.bencode bencode.value rootIdKey = .ok msgRoot ∧
    lookupAndConvertBytes DhtError.bencode msgRoot transactionIdKey = .ok trans ∧
    lookupAndConvertStr DhtError.bencode msgRoot messageTypeKey = .ok msgType ∧
    msgType.bytes = responseTypeKey

/-! ### Nodes that are turned away -/

namespace RoutingTable

variable {w : World} {n : Node} {t t' : RoutingTable}

/-- The table has no place for a new node: it is the local node, or its bucket has the same node with a
better status, or no node that is as bad as to give way, and the bucket is not split. -/
def TurnsAway (w : World) (t : RoutingTable) (n : Node) (status : NodeStatus) : Prop :=
  n.id = t.nodeId ∨ ∃ b, t.buckets[t.home n]? = some b ∧
    ((∃ x ∈ b.nodes, x.key = n.key ∧ status < x.status w) ∨
      (∀ x ∈ b.nodes, x.key ≠ n.key ∧ status ≤ x.status w) ∧
        (t.home n + 1 ≠ t.buckets.length ∨ t.buckets.length = maxBuckets))

theorem mem_splitTable_entries {nodeId : NodeId} {front : List Bucket} {b : Bucket} {x : Node}
    (hx : x ∈ (splitTable w nodeId front b).entries) :
    x.IsPlaceholder ∨ x ∈ entries ⟨front ++ [b], nodeId⟩ := by
  obtain ⟨c, hc, hx⟩ := mem_flatMap.mp hx
  rcases mem_splitTable hc with hc | rfl | rfl
  · exact .inr (mem_flatMap.mpr ⟨c, mem_append_left _ hc, hx⟩)
  all_goals
    refine (Bucket.mem_fill hx).imp id fun hmem => ?_
    exact mem_flatMap.mpr ⟨b, mem_append_right _ (mem_singleton_self b), mem_of_mem_filter hmem.1⟩

theorem setBucket_self {i : Nat} {b : Bucket} (hb : t.buckets[i]? = some b) : t.setBucket i b = t := by
  obtain ⟨hlt, hget⟩ := List.getElem?_eq_some_iff.mp hb
  rw [setBucket, ← hget, set_getElem_self]

/-- A call leaves the table as it is, adds a bucket or puts the node somewhere. -/
theorem Adds.change (h : Adds w n t t') :
    t.buckets.length ≤ t'.buckets.length ∧
      (t' = t ∨ t.buckets.length < t'.buckets.length ∨ n ∈ t'.entries) := by
  induction h with
  | @placed t b hb hspace =>
    refine ⟨length_set.ge, ?_⟩
    rcases (Bucket.addNode_adding w b n).exchange with hsame | ⟨l₁, y, l₂, -, hnodes, -⟩
    · left
      rw [Bucket.ext hsame, setBucket_self hb]
    · refine .inr (.inr (mem_entries.mpr ⟨_, _, getElem?_setBucket_eq hb _, ?_⟩))
      rw [hnodes]
      exact mem_append_right _ mem_cons_self
  | refused => exact ⟨le_rfl, .inl rfl⟩
  | @split nodeId front b t' _ _ _ _ ih =>
    have hlt : (front ++ [b]).length < t'.buckets.length := by
      rw [length_append]
      exact (length_splitTable w nodeId front b).ge.trans ih.1
    exact ⟨hlt.le, .inr (.inl hlt)⟩

theorem AddsOrIgnores.change (h : AddsOrIgnores w n t t') :
    t.buckets.length ≤ t'.buckets.length ∧
      (t' = t ∨ t.buckets.length < t'.buckets.length ∨ n ∈ t'.entries) := by
  cases h with
  | ignored => exact ⟨le_rfl, .inl rfl⟩
  | added _ _ hrun => exact hrun.change

theorem Adds.mem_entries_of_mem (h : Adds w n t t') {x : Node} (hx : x ∈ t'.entries) :
    x.IsPlaceholder ∨ x ∈ t.entries ∨ x = n := by
  induction h with
  | @placed t b hb hspace =>
    obtain ⟨c, hc, hx⟩ := mem_flatMap.mp hx
    rcases mem_or_eq_of_mem_set hc with hc | rfl
    · exact .inr (.inl (mem_flatMap.mpr ⟨c, hc, hx⟩))
    · refine .inr (((Bucket.addNode_adding w b n).mem_of_mem hx).imp (fun hx => ?_) And.left)
      exact mem_entries.mpr ⟨_, b, hb, hx⟩
  | refused => exact .inr (.inl hx)
  | split _ _ _ _ ih =>
    rcases ih hx with hx | hx | hx
    · exact .inl hx
    · exact (mem_splitTable_entries hx).imp id .inl
    · exact .inr (.inr hx)

variable {b : Bucket}

theorem not_turnsAway (hforeign : n.id ≠ t.nodeId) (hb : t.buckets[t.home n]? = some b) (status : NodeStatus)
    (hsame : ∀ x ∈ b.nodes, x.key = n.key → x.status w ≤ status)
    (hroom : (∃ x ∈ b.nodes, x.key = n.key ∨ x.status w < status) ∨
      t.home n + 1 = t.buckets.length ∧ t.buckets.length ≠ maxBuckets) : ¬ TurnsAway w t n status := by
  rintro (hself | ⟨b', hb', hturn⟩)
  · exact hforeign hself
  · cases hb.symm.trans hb'
    rcases hturn with ⟨x, hx, hkey, hstatus⟩ | ⟨hfull, hlimit⟩
    · exact absurd (hsame x hx hkey) (not_le.mpr hstatus)
    · rcases hroom with ⟨x, hx, hkey | hstatus⟩ | ⟨hlast, hmax⟩
      · exact (hfull x hx).1 hkey
      · exact absurd (hfull x hx).2 (not_le.mpr hstatus)
      · exact hlimit.elim (fun hne => hne hlast) hmax

/-- A bucket with space stays as it is exactly if it has the node with a better status. -/
theorem setBucket_addNode_eq_iff (ht : t.Valid) (hnew : n ∉ t.entries) (hlive : n.status w ≠ .bad)
    (hforeign : n.id ≠ t.nodeId) (hb : t.buckets[t.home n]? = some b) (hspace : (b.addNode w n).2 = true) :
    t.setBucket (t.home n) (b.addNode w n).1 = t ↔ TurnsAway w t n (n.status w) := by
  have hdistinct := ht.distinct b (mem_of_getElem? hb)
  have hput : n ∈ (b.addNode w n).1.nodes → ¬ t.setBucket (t.home n) (b.addNode w n).1 = t := fun hn heq =>
    hnew (heq ▸ mem_entries.mpr ⟨_, _, getElem?_setBucket_eq hb _, hn⟩)
  have hsame : (b.addNode w n).1.nodes = b.nodes →
      t.setBucket (t.home n) (b.addNode w n).1 = t := by
    intro hnodes
    rw [Bucket.ext hnodes, setBucket_self hb]
  have hadd := Bucket.addNode_adding w b n
  have hturns := not_turnsAway (w := w) hforeign hb (n.status w)
  have hkept : (∃ x ∈ b.nodes, x.key = n.key ∧ n.status w < x.status w) →
      TurnsAway w t n (n.status w) := fun hx => .inr ⟨b, hb, .inl hx⟩
  rw [hspace] at hadd
  generalize (b.addNode w n).1.nodes = nodes at hadd hput hsame
  generalize b.nodes = l at hadd hdistinct hsame hturns hkept
  cases hadd with
  | ignored hbad => exact absurd hbad hlive
  | @renewed l₁ l₂ x _ hbefore hkey hstatus =>
    refine iff_of_false (hput (mem_append_right _ mem_cons_self)) (hturns ?_ ?_)
    · intro y hy hykey
      rcases mem_append.mp hy with hy | hy
      · exact absurd hykey (hbefore y hy)
      · rcases mem_cons.mp hy with rfl | hy
        · exact hstatus
        · -- a second node with the key is one of those that fill up the bucket
          have hpair := (pairwise_cons.mp (pairwise_append.mp hdistinct).2.1).1 y hy
          rw [Node.status_of_isPlaceholder (hpair (hkey.trans hykey.symm)) w]
          cases n.status w <;> decide
    · exact .inl ⟨x, mem_append_right _ mem_cons_self, .inl hkey⟩
  | @kept _ x _ hx hkey hstatus => exact iff_of_true (hsame rfl) (hkept ⟨x, hx, hkey, hstatus⟩)
  | @placed l₁ l₂ x _ hother hstatus hbefore =>
    refine iff_of_false (hput (mem_append_right _ mem_cons_self)) (hturns ?_ ?_)
    · exact fun y hy hykey => absurd hykey (hother y hy)
    · exact .inl ⟨x, mem_append_right _ mem_cons_self, .inr hstatus⟩

/-- A call leaves the table as it is exactly if the table turns the node away, which is not in it. -/
theorem AddsOrIgnores.eq_iff (h : AddsOrIgnores w n t t') (ht : t.Valid) (hnew : n ∉ t.entries)
    (hlive : n.status w ≠ .bad) : t' = t ↔ TurnsAway w t n (n.status w) := by
  cases h with
  | ignored hignored => exact iff_of_true rfl (.inl (hignored.resolve_left hlive))
  | added _ hforeign hrun =>
    cases hrun with
    | placed hb hspace => exact setBucket_addNode_eq_iff ht hnew hlive hforeign hb hspace
    | refused hb hspace hlimit =>
      rename_i b
      have hadd := Bucket.addNode_adding w b n
      rw [hspace] at hadd
      obtain ⟨-, -, hother, hfull⟩ := hadd.of_no_space
      exact iff_of_true rfl (.inr ⟨b, hb, .inr ⟨fun x hx => ⟨hother x hx, hfull x hx⟩, hlimit⟩⟩)
    | @split nodeId front b t' hhome hspace hlimit rest =>
      have hlong := rest.change.1
      have hb : (front ++ [b])[home ⟨front ++ [b], nodeId⟩ n]? = some b := by rw [hhome]; simp
      have hadd := Bucket.addNode_adding w b n
      rw [hspace] at hadd
      obtain ⟨-, -, hother, -⟩ := hadd.of_no_space
      refine iff_of_false (fun heq => ?_) (not_turnsAway hforeign hb _
        (fun x hx hkey => absurd hkey (hother x hx)) (.inr ⟨?_, ?_⟩))
      · rw [heq, length_splitTable] at hlong
        exact absurd hlong (by simp)
      · rw [hhome]
        simp
      · simpa using hlimit

theorem TurnsAway.congr {w' : World} {status : NodeStatus} (hstatus : ∀ x ∈ t.entries, x.status w' = x.status w)
    (h : TurnsAway w t n status) : TurnsAway w' t n status := by
  refine h.imp id ?_
  rintro ⟨b, hb, hturn⟩
  have hentry : ∀ x ∈ b.nodes, x.status w' = x.status w := fun x hx =>
    hstatus x (mem_entries.mpr ⟨_, b, hb, hx⟩)
  refine ⟨b, hb, hturn.imp ?_ (And.imp_left fun hfull x hx => ?_)⟩
  · rintro ⟨x, hx, hkey, hlt⟩
    exact ⟨x, hx, hkey, (hentry x hx).symm ▸ hlt⟩
  · exact ⟨(hfull x hx).1, (hentry x hx).symm ▸ (hfull x hx).2⟩

end RoutingTable

namespace Shared

variable {s s' s'' : Shared} {node : NodeKey}

/-- The table has no place for a new node with the given status. -/
def TurnsAway (s : Shared) (node : NodeKey) (status : NodeStatus) : Prop :=
  s.table.TurnsAway s.world ⟨node.1, node.2, none⟩ status

/-- All nodes of the table have cells that were given out. -/
def Celled (s : Shared) : Prop := ∀ node ∈ s.table.entries, ∀ c, node.cell = some c → c < s.nextCell

/-- A table that is not the one with so many buckets and all cells below `c`: it is longer, or it has a
node with another cell. -/
def Touched (length c : Nat) (t : RoutingTable) : Prop :=
  length ≤ t.buckets.length ∧
    (length < t.buckets.length ∨ ∃ x ∈ t.entries, ∃ d, x.cell = some d ∧ c ≤ d)

theorem Celled.not_touched (h : s.Celled) : ¬ Touched s.table.buckets.length s.nextCell s.table := by
  rintro ⟨-, hlt | ⟨x, hx, d, hd, hle⟩⟩
  · exact lt_irrefl _ hlt
  · exact absurd (h x hx d hd) (not_lt.mpr hle)

theorem Celled.status_eq (h : s.Celled) (hnow : s'.now = s.now)
    (hstates : ∀ c < s.nextCell, s'.cells c = s.cells c) :
    ∀ x ∈ s.table.entries, x.status s'.world = x.status s.world := by
  intro x hx
  have hstate : x.state s'.world = x.state s.world := by
    unfold Node.state
    cases hcell : x.cell with
    | none => rfl
    | some c => exact hstates c (h x hx c hcell)
  rw [Node.status, hstate, Node.status]
  exact congrArg _ hnow

/-- What adding the nodes with the given status makes of the shared state. The table is the same exactly
if it turns all of them away. -/
structure Gains (s : Shared) (nodes : List (NodeKey × NodeStatus)) (s' : Shared) : Prop where
  valid : s'.table.Valid
  celled : s'.Celled
  now : s'.now = s.now
  nextCell : s.nextCell ≤ s'.nextCell
  states : ∀ c < s.nextCell, s'.cells c = s.cells c
  touched : ∀ length c, c ≤ s.nextCell → Touched length c s.table → Touched length c s'.table
  changed : s'.table = s.table ∨ Touched s.table.buckets.length s.nextCell s'.table
  turned : s'.table = s.table ↔ ∀ p ∈ nodes, s.TurnsAway p.1 p.2

theorem Gains.refl (ht : s.table.Valid) (hs : s.Celled) : s.Gains [] s :=
  ⟨ht, hs, rfl, le_rfl, fun _ _ => rfl, fun _ _ _ h => h, .inl rfl, iff_of_true rfl nofun⟩

theorem Gains.trans {nodes nodes' : List (NodeKey × NodeStatus)} (hs : s.Celled) (h : s.Gains nodes s')
    (h' : s'.Gains nodes' s'') : s.Gains (nodes ++ nodes') s'' where
  valid := h'.valid
  celled := h'.celled
  now := h'.now.trans h.now
  nextCell := h.nextCell.trans h'.nextCell
  states c hc := (h'.states c (hc.trans_le h.nextCell)).trans (h.states c hc)
  touched length c hc ht := h'.touched length c (hc.trans h.nextCell) (h.touched length c hc ht)
  changed := by
    rcases h.changed with hsame | htouched
    · rcases h'.changed with hsame' | ⟨hle, htouched⟩
      · exact .inl (hsame'.trans hsame)
      · rw [hsame] at hle htouched
        refine .inr ⟨hle, htouched.imp id ?_⟩
        rintro ⟨x, hx, d, hd, hcell⟩
        exact ⟨x, hx, d, hd, h.nextCell.trans hcell⟩
    · exact .inr (h'.touched _ _ h.nextCell htouched)
  turned := by
    rw [forall_mem_append, ← h.turned]
    constructor
    · intro hsame
      have hfirst : s'.table = s.table := by
        rcases h.changed with hfirst | htouched
        · exact hfirst
        · -- a table that has changed once is never the same again
          have hlast := h'.touched _ _ h.nextCell htouched
          rw [hsame] at hlast
          exact absurd hlast hs.not_touched
      refine ⟨hfirst, fun p hp => ?_⟩
      have hturned := h'.turned.mp (hsame.trans hfirst.symm) p hp
      rw [TurnsAway, hfirst] at hturned
      exact hturned.congr fun x hx => (hs.status_eq h.now h.states x hx).symm
    · rintro ⟨hfirst, hturned⟩
      refine (h'.turned.mpr fun p hp => ?_).trans hfirst
      rw [TurnsAway, hfirst]
      exact (hturned p hp).congr (hs.status_eq h.now h.states)

end Shared

namespace DhtHandler

variable {hash : Bytes → ShaHash} {h h' : DhtHandler} {s : Shared} {transId : TransactionID}
  {addr : SocketAddr}

/-- The table with the states of its nodes, the lookups, the bootstraps and the announce storage are
the same. -/
structure Inert (h h' : DhtHandler) : Prop where
  table : h'.shared.table = h.shared.table
  states : ∀ c < h.shared.nextCell, h'.shared.cells c = h.shared.cells c
  lookups : ∀ actionId l, h'.tableActions.lookup actionId = some (.lookup l) ↔
    h.tableActions.lookup actionId = some (.lookup l)
  bootstraps : ∀ actionId b attempts, h'.tableActions.lookup actionId = some (.bootstrap b attempts) ↔
    h.tableActions.lookup actionId = some (.bootstrap b attempts)
  stores : h'.activeStores = h.activeStores

/-- The sender of a response of the find_node kind, if it is added. -/
def responders (h : DhtHandler) (trans : Bytes) (node : NodeKey) : List NodeKey :=
  match (fromBytes trans).bind fun transId => h.tableActions.lookup transId.actionId with
  | some (.refresh _) => [node]
  | some (.bootstrap b _) => if b.isRouter node.2 then [] else [node]
  | _ => []

/-- The nodes that an accepted response is to add to the table, with their status. -/
def nodesOf (h : DhtHandler) (addr : SocketAddr) : ResponseType → List (NodeKey × NodeStatus)
  | .findNode f => f.nodes.toList.map (·, .questionable) ++
      (h.responders f.transId (f.nodeId, addr)).map (·, .good)
  | .getPeers g => [((g.nodeId, addr), .good)]
  | .ping _ => []
  | .announcePeer _ => []

/-- The table has no place for any node of the response, and it does not belong to an idle bootstrap. -/
def Harmless (h : DhtHandler) (addr : SocketAddr) (r : ResponseType) : Prop :=
  (∀ p ∈ h.nodesOf addr r, h.shared.TurnsAway p.1 p.2) ∧
    ∀ transId b attempts, fromBytes r.transId = some transId →
      h.tableActions.lookup transId.actionId = some (.bootstrap b attempts) →
        b.currentBootstrapStatus ≠ .idle

/-! ### Reading -/

theorem expectedResponse_cases (h : DhtHandler) (trans : Bytes) :
    h.expectedResponse trans = .findNode ∨ h.expectedResponse trans = .getPeers ∨
      h.expectedResponse trans = .none := by
  unfold expectedResponse
  split
  · exact .inr (.inr rfl)
  · split
    · exact .inr (.inr rfl)
    · exact .inr (.inl rfl)
    · exact .inl rfl
    · exact .inl rfl

theorem expectedResponse_of_lookup {trans : Bytes} (hid : fromBytes trans = some transId)
    {l : TableLookup} (haction : h.tableActions.lookup transId.actionId = some (.lookup l)) :
    h.expectedResponse trans = .getPeers := by
  simp only [expectedResponse, hid, haction]

theorem handleIncoming_of_parse {buffer : Buffer} {r : ResponseType}
    (hparse : h.parse buffer = .ok (some (.response r))) :
    h.handleIncoming hash buffer addr = h.handleResponse r addr := by
  rw [handleIncoming, hparse]
  rfl

theorem parse_of_isResponse {buffer : Buffer} {trans : Bytes} (hresponse : IsResponse buffer trans)
    (h : DhtHandler) :
    h.parse buffer = .ok none ∨ ∃ r, h.parse buffer = .ok (some (.response r)) ∧ r.transId = trans := by
  obtain ⟨bencode, msgRoot, msgType, hdecode, hroot, htrans, htype, hkey⟩ := hresponse
  have hnew : MessageType.new bencode.value h.expectedResponse =
      ResponseType.fromParts msgRoot trans (h.expectedResponse trans) >>= fun r =>
        .ok (.response r) := by
    rw [MessageType.new, hroot, ok_bind, htrans, ok_bind, htype, ok_bind, hkey, if_neg (by decide),
      if_pos rfl]
    rfl
  rw [parse_of_decode hdecode, hnew]
  rcases ResponseType.returns_fromParts msgRoot trans (h.expectedResponse_cases trans) with
    ⟨r, hparts⟩ | ⟨e, hparts⟩
  · rw [hparts]
    exact .inr ⟨r, rfl, (ResponseType.fromParts_spec hparts).1⟩
  · rw [hparts]
    exact .inl rfl

/-! ### Adding -/

theorem celled_of_addNewNode {node : NodeKey} {state : NodeState} {s' : Shared} (ht : s.table.Valid)
    (hs : s.Celled) (hadd : addNewNode s node state = .ok s') : s'.Celled := by
  obtain ⟨table, hcall, rfl⟩ := addNewNode_eq hadd
  have hold : ∀ x ∈ s.table.entries, ∀ c, x.cell = some c → c < s.nextCell + 1 := fun x hx c hc =>
    (hs x hx c hc).trans (Nat.lt_succ_self _)
  cases addsOrIgnores_of_call ht hcall with
  | ignored => exact hold
  | added _ _ hrun =>
    intro x hx c hc
    rcases hrun.mem_entries_of_mem hx with hplaceholder | hx | rfl
    · cases hplaceholder.symm.trans hc
    · exact hold x hx c hc
    · cases hc
      exact Nat.lt_succ_self _

theorem gains_addNewNode {node : NodeKey} {state : NodeState} {s' : Shared} {status : NodeStatus}
    (ht : s.table.Valid) (hs : s.Celled) (hstatus : state.status s.now = status) (hlive : status ≠ .bad)
    (hadd : addNewNode s node state = .ok s') : s.Gains [(node, status)] s' := by
  have hcelled := celled_of_addNewNode ht hs hadd
  have hvalid := valid_of_addNewNode ht hadd
  obtain ⟨table, hcall, rfl⟩ := addNewNode_eq hadd
  have hadds := addsOrIgnores_of_call ht hcall
  have hcells : ∀ c < s.nextCell, Function.update s.cells s.nextCell state c = s.cells c := fun c hc =>
    Function.update_of_ne hc.ne _ _
  have hself : (s.newNode node.1 node.2 state).1.status (s.newNode node.1 node.2 state).2.world = status := by
    rw [← hstatus]
    exact congrArg (NodeState.status · s.now) (Function.update_self _ _ _)
  have hnew : (s.newNode node.1 node.2 state).1 ∉ s.table.entries := fun hmem =>
    lt_irrefl _ (hs _ hmem s.nextCell rfl)
  refine ⟨hvalid, hcelled, rfl, Nat.le_succ _, hcells, fun length c hc htouched => ?_, ?_, ?_⟩
  · rcases hadds.change with ⟨hle, hsame | hlt | hmem⟩
    · rwa [hsame]
    · exact ⟨htouched.1.trans hle, .inl (htouched.1.trans_lt hlt)⟩
    · exact ⟨htouched.1.trans hle, .inr ⟨_, hmem, s.nextCell, rfl, hc⟩⟩
  · rcases hadds.change with ⟨hle, hsame | hlt | hmem⟩
    · exact .inl hsame
    · exact .inr ⟨hle, .inl hlt⟩
    · exact .inr ⟨hle, .inr ⟨_, hmem, s.nextCell, rfl, le_rfl⟩⟩
  · have hiff := hadds.eq_iff ht hnew (hself ▸ hlive)
    rw [hself] at hiff
    have hstatuses : ∀ x ∈ s.table.entries, x.status (s.newNode node.1 node.2 state).2.world =
        x.status s.world := hs.status_eq rfl hcells
    rw [forall_mem_singleton]
    refine hiff.trans ⟨fun h => ?_, fun h => ?_⟩
    · exact h.congr fun x hx => (hstatuses x hx).symm
    · exact h.congr hstatuses

theorem status_asGood (now : Time) : (NodeState.asGood now).status now = .good := by
  unfold NodeState.status NodeState.recentlyResponded NodeState.asGood
  simp [minutes, maxLastSeenMins]

theorem status_asQuestionable (now : Time) : (NodeState.asQuestionable now).status now = .questionable := by
  unfold NodeState.status NodeState.recentlyResponded NodeState.asQuestionable
  simp [NodeState.recentlyRequested, maxRefreshRequests]

theorem gains_addGood {node : NodeKey} {s' : Shared} (ht : s.table.Valid) (hs : s.Celled)
    (hadd : addGood s node = .ok s') : s.Gains [(node, .good)] s' :=
  gains_addNewNode ht hs (status_asGood s.now) (by decide) hadd

theorem gains_addQuestionable {s' : Shared} {nodes : List NodeKey} (ht : s.table.Valid) (hs : s.Celled)
    (hcall : addQuestionable s nodes = .ok s') : s.Gains (nodes.map (·, .questionable)) s' := by
  induction nodes generalizing s with
  | nil =>
    cases hcall
    exact .refl ht hs
  | cons node nodes ih =>
    obtain ⟨s₁, hfirst, hrest⟩ := bind_eq_ok.mp (by rwa [addQuestionable, foldlM_cons] at hcall)
    have hgains := gains_addNewNode ht hs (status_asQuestionable s.now) (by decide) hfirst
    exact hgains.trans hs (ih hgains.valid hgains.celled hrest)

theorem gains_addResponder {s' : Shared} {node : NodeKey} {trans : Bytes} (hid : fromBytes trans = some transId)
    (ht : s.table.Valid) (hs : s.Celled) (hcall : h.addResponder s transId.actionId node = .ok s') :
    s.Gains ((h.responders trans node).map (·, .good)) s' := by
  unfold responders
  rw [hid, Option.bind_some]
  unfold addResponder at hcall
  cases haction : h.tableActions.lookup transId.actionId with
  | none =>
    rw [haction] at hcall
    cases hcall
    exact .refl ht hs
  | some action =>
    rw [haction] at hcall
    cases action with
    | lookup l =>
      cases hcall
      exact .refl ht hs
    | refresh r => exact gains_addGood ht hs hcall
    | bootstrap b attempts =>
      dsimp only at hcall ⊢
      split at hcall
      · rename_i hrouter
        cases hcall
        rw [if_pos hrouter]
        exact .refl ht hs
      · rename_i hrouter
        rw [if_neg hrouter]
        exact gains_addGood ht hs hcall

theorem Reachable.celled (hreach : Reachable hash h) : h.shared.Celled := by
  refine (hreach.invariant (P := fun h => h.shared.table.Valid ∧ h.shared.Celled)
    (fun hs _ _ _ _ => ⟨hs.table.valid, hs.cells⟩) fun {h h'} hdoes hP => ?_).2
  have hworks : ∀ {s : Shared}, h.shared.Works s → s.table.Valid ∧ s.Celled := fun hworks => by
    rw [Shared.Celled, hworks.table, hworks.nextCell]
    exact hP
  cases hdoes with
  | add hadd => exact ⟨valid_of_addNewNode hP.1 hadd, celled_of_addNewNode hP.1 hP.2 hadd⟩
  | request hasked =>
    obtain ⟨request, addr, hrequest⟩ := hasked
    have hanswers := answers_handleRequest hrequest
    rw [Shared.Celled, hanswers.table, hanswers.nextCell]
    exact hP
  | act haction hkeeps => exact hworks hkeeps.works
  | finish attempts' haction hkeeps => exact hworks hkeeps.works
  | start actionId hbegins => exact hworks hbegins.works
  | fail hkeeps => exact hworks hkeeps.works
  | fire actionId index =>
    rcases h.fire_cases actionId index with heq | ⟨action, check, -, -, heq⟩
    · rwa [heq]
    · rw [heq]
      exact hP
  | _ => exact hP

/-- If an action is as before, only the table can have changed. -/
theorem inert_setAction_iff {actionId : ActionID} {action : TableAction}
    (haction : h.tableActions.lookup actionId = some action)
    (hstates : ∀ c < h.shared.nextCell, s.cells c = h.shared.cells c) :
    Inert h (h.setAction actionId action s) ↔ s.table = h.shared.table := by
  have hlookup : ∀ actionId', (h.setAction actionId action s).tableActions.lookup actionId' =
      h.tableActions.lookup actionId' := by
    intro actionId'
    rw [setAction, HashMap.lookup_insert_eq]
    split
    · rename_i heq
      rw [heq, haction]
    · rfl
  refine ⟨Inert.table, fun htable => ⟨htable, hstates, ?_, ?_, rfl⟩⟩
  · exact fun actionId' l => by rw [hlookup]
  · exact fun actionId' b attempts => by rw [hlookup]

theorem shared_afterLookup (h : DhtHandler) (infoHash : InfoHash) (status : LookupStatus) :
    (h.afterLookup infoHash status).shared = h.shared := by
  cases status <;> rfl

theorem inert_afterLookup_iff (infoHash : InfoHash) (status : LookupStatus) :
    Inert h (h'.afterLookup infoHash status) ↔ Inert h h' := by
  cases status <;> exact ⟨fun hinert => { hinert with }, fun hinert => { hinert with }⟩

/-! ### Bootstraps that end -/

/-- All bootstraps were there before. -/
def NoNewBootstrap (h h' : DhtHandler) : Prop :=
  ∀ actionId b attempts, h'.tableActions.lookup actionId = some (.bootstrap b attempts) →
    h.tableActions.lookup actionId = some (.bootstrap b attempts)

theorem NoNewBootstrap.trans {h'' : DhtHandler} (hfirst : NoNewBootstrap h h')
    (hrest : NoNewBootstrap h' h'') : NoNewBootstrap h h'' :=
  fun actionId b attempts hlookup => hfirst actionId b attempts (hrest actionId b attempts hlookup)

theorem noNewBootstrap_setAction {actionId : ActionID} {action : TableAction}
    (haction : ∀ b attempts, action ≠ .bootstrap b attempts) :
    NoNewBootstrap h (h.setAction actionId action s) := by
  intro actionId' b attempts hlookup
  rw [setAction, HashMap.lookup_insert_eq] at hlookup
  split at hlookup
  · cases hlookup
    exact absurd rfl (haction b attempts)
  · exact hlookup

theorem noNewBootstrap_handleStartLookup {infoHash : InfoHash} {shouldAnnounce : Bool}
    (hcall : h.handleStartLookup infoHash shouldAnnounce = .ok h') : NoNewBootstrap h h' := by
  unfold handleStartLookup at hcall
  simp only at hcall
  split at hcall
  · cases hcall
    exact fun _ _ _ hlookup => hlookup
  · obtain ⟨⟨lookup, s⟩, -, hcall⟩ := bind_eq_ok.mp hcall
    cases lookup with
    | none =>
      cases hcall
      exact fun _ _ _ hlookup => hlookup
    | some l =>
      cases hcall
      exact noNewBootstrap_setAction (h := { h.generateAid.2 with shared := s }) (by simp)

theorem noNewBootstrap_handleCheckTableRefresh
    (hcall : h.handleCheckTableRefresh transId = .ok h') : NoNewBootstrap h h' := by
  unfold handleCheckTableRefresh at hcall
  split at hcall
  · obtain ⟨⟨status, r, s⟩, -, hcall⟩ := bind_eq_ok.mp hcall
    cases status with
    | refreshing =>
      cases hcall
      exact noNewBootstrap_setAction (by simp)
    | failed =>
      cases hcall
      exact noNewBootstrap_setAction (s := s) (by simp)
  · cases hcall
    exact fun _ _ _ hlookup => hlookup

theorem noNewBootstrap_startPostBootstrapAction {f : PostBootstrapAction}
    (hcall : h.startPostBootstrapAction f = .ok h') : NoNewBootstrap h h' := by
  cases f with
  | lookup infoHash shouldAnnounce => exact noNewBootstrap_handleStartLookup hcall
  | refresh r transId =>
    have hinsert : NoNewBootstrap h (h.insertAction transId.actionId (.refresh r)) :=
      noNewBootstrap_setAction (by simp)
    exact hinsert.trans (noNewBootstrap_handleCheckTableRefresh hcall)

theorem noNewBootstrap_foldlM {futureActions : List PostBootstrapAction}
    (hcall : futureActions.foldlM startPostBootstrapAction h = .ok h') : NoNewBootstrap h h' := by
  induction futureActions generalizing h with
  | nil =>
    cases hcall
    exact fun _ _ _ hlookup => hlookup
  | cons f futureActions ih =>
    obtain ⟨h₁, hfirst, hrest⟩ := bind_eq_ok.mp (by rwa [foldlM_cons] at hcall)
    exact (noNewBootstrap_startPostBootstrapAction hfirst).trans (ih hrest)

/-- A bootstrap that is complete is gone. -/
theorem not_inert_of_completed {h₁ : DhtHandler} {actionId : ActionID} {b : TableBootstrap}
    {attempts : Nat} (haction : h.tableActions.lookup actionId = some (.bootstrap b attempts))
    (hcall : h₁.broadcastBootstrapCompleted actionId = .ok h') : ¬ Inert h h' := by
  intro hinert
  have hkept := (hinert.bootstraps actionId b attempts).mpr haction
  have hbefore := noNewBootstrap_foldlM hcall actionId b attempts hkept
  change (h₁.tableActions.erase actionId).lookup actionId = _ at hbefore
  rw [HashMap.lookup_erase_eq, if_pos rfl] at hbefore
  cases hbefore

/-! ### Responses with an id that was never issued -/

/-- A lookup ignores the response, but the sender is added. -/
theorem handleGetPeersResponse_of_fresh (hsound : h.Sound) {g : GetPeersResponse}
    (hid : fromBytes g.transId = some transId) (hfresh : transId ∉ h.shared.issued)
    {l : TableLookup} (haction : h.tableActions.lookup transId.actionId = some (.lookup l))
    (hadd : addGood h.shared (g.nodeId, addr) = .ok s) :
    h.handleGetPeersResponse g addr = .ok ((h.setAction transId.actionId (.lookup l) s).afterLookup
      l.infoHash l.currentLookupStatus) := by
  have hinactive : l.activeLookups.lookup transId = none := by
    refine AList.lookup_eq_none.mpr fun hactive => ?_
    exact hfresh (hsound.actions _ _ haction transId hactive)
  have hrecv : l.recvResponse s (g.nodeId, addr) transId g = (l.currentLookupStatus, l, s) := by
    rw [TableLookup.recvResponse, hinactive]
  unfold handleGetPeersResponse
  simp only [hid]
  rw [hadd, ok_bind]
  simp only [haction, hrecv]
  rfl

/-- For a response to an action, the second half of the condition is about that action only. -/
theorem harmless_iff {r : ResponseType} {action : TableAction}
    (hid : fromBytes r.transId = some transId)
    (haction : h.tableActions.lookup transId.actionId = some action)
    (hgains : h.shared.Gains (h.nodesOf addr r) s) :
    h.Harmless addr r ↔ s.table = h.shared.table ∧
      ∀ b attempts, action = .bootstrap b attempts → b.currentBootstrapStatus ≠ .idle := by
  rw [Harmless, hgains.turned]
  refine and_congr_right fun _ => ⟨fun hidle b attempts hbootstrap => ?_, ?_⟩
  · exact hidle transId b attempts hid (by rw [haction, hbootstrap])
  · intro hidle transId' b attempts hid' hbootstrap
    rw [hid, Option.some.injEq] at hid'
    rw [← hid', haction, Option.some.injEq] at hbootstrap
    exact hidle b attempts hbootstrap

theorem handleGetPeersResponse_inert_iff (hsound : h.Sound) (hcelled : h.shared.Celled) {g : GetPeersResponse}
    (hid : fromBytes g.transId = some transId) (hfresh : transId ∉ h.shared.issued)
    {l : TableLookup} (haction : h.tableActions.lookup transId.actionId = some (.lookup l)) :
    ∃ h', h.handleGetPeersResponse g addr = .ok h' ∧ (Inert h h' ↔ h.Harmless addr (.getPeers g)) := by
  obtain ⟨s, hadd⟩ := addNewNode_ok hsound.table (g.nodeId, addr) (.asGood h.shared.now)
  have hgains := gains_addGood hsound.table hcelled hadd
  refine ⟨_, handleGetPeersResponse_of_fresh hsound hid hfresh haction hadd, ?_⟩
  rw [inert_afterLookup_iff, inert_setAction_iff haction hgains.states]
  rw [harmless_iff (r := .getPeers g) hid haction hgains]
  exact (and_iff_left fun b attempts hbootstrap => (by cases hbootstrap)).symm

theorem recvResponse_of_not_mem {b : TableBootstrap} (hinactive : transId ∉ b.activeMessages) (s : Shared) :
    b.recvResponse s transId = .ok (b.currentBootstrapStatus, b, s) := by
  rw [TableBootstrap.recvResponse, if_neg hinactive]

theorem currentBootstrapStatus_cases (b : TableBootstrap) :
    b.currentBootstrapStatus = .idle ∨ b.currentBootstrapStatus = .bootstrapping := by
  unfold TableBootstrap.currentBootstrapStatus
  split
  · exact .inl rfl
  · exact .inr rfl

theorem handleFindNodeResponse_inert_iff (hsound : h.Sound) (hcelled : h.shared.Celled) {f : FindNodeResponse}
    (hid : fromBytes f.transId = some transId) (hfresh : transId ∉ h.shared.issued)
    {action : TableAction} (haction : h.tableActions.lookup transId.actionId = some action)
    (hkind : ∀ l, action ≠ .lookup l) :
    ∃ h', h.handleFindNodeResponse f addr = .ok h' ∧ (Inert h h' ↔ h.Harmless addr (.findNode f)) := by
  obtain ⟨s₁, hnodes, hvalid₁⟩ := addQuestionable_ok hsound.table f.nodes.toList
  obtain ⟨s₂, hresponder, hvalid₂⟩ := addResponder_ok hvalid₁ h transId.actionId (f.nodeId, addr)
  have hfirst := gains_addQuestionable hsound.table hcelled hnodes
  have hgains : h.shared.Gains (h.nodesOf addr (.findNode f)) s₂ :=
    hfirst.trans hcelled (gains_addResponder hid hfirst.valid hfirst.celled hresponder)
  have hstates := hgains.states
  rw [harmless_iff (r := .findNode f) hid haction hgains]
  unfold handleFindNodeResponse
  simp only [hid, hnodes, ok_bind, hresponder, haction]
  cases action with
  | lookup l => exact absurd rfl (hkind l)
  | refresh r =>
    refine ⟨_, rfl, fun hinert => ⟨hinert.table, fun b attempts hbootstrap => ?_⟩, fun htable => ?_⟩
    · cases hbootstrap
    · exact ⟨htable.1, hstates, fun _ _ => Iff.rfl, fun _ _ _ => Iff.rfl, rfl⟩
  | bootstrap b attempts =>
    have hinactive : transId ∉ b.activeMessages :=
      fun hactive => hfresh ((hsound.actions _ _ haction).1 transId hactive)
    have hrecv := recvResponse_of_not_mem hinactive s₂
    rcases currentBootstrapStatus_cases b with hstatus | hstatus
    · obtain ⟨h', hdone⟩ := broadcastBootstrapCompleted_ok (hsound.addNodes hnodes hresponder)
        (.refl s₂) transId.actionId (.bootstrap b attempts)
      refine ⟨h', ?_, iff_of_false (not_inert_of_completed haction hdone) fun hboth => ?_⟩
      · simp only [hrecv, hstatus, ok_bind]
        exact hdone
      · exact hboth.2 b attempts rfl hstatus
    · refine ⟨h.setAction transId.actionId (.bootstrap b attempts) s₂, ?_, ?_⟩
      · simp only [hrecv, hstatus, ok_bind]
        rfl
      · rw [inert_setAction_iff haction hstates]
        refine ⟨fun htable => ⟨htable, fun b' attempts' hbootstrap => ?_⟩, And.left⟩
        cases hbootstrap
        rw [hstatus]
        simp

end DhtHandler

/-! ### A forged response -/

/-- A response without any nodes, with an id the node has not used. -/
def forged : GetPeersResponse :=
  ⟨[0, 0, 0, 0, 1, 0, 0, 7], idOf 128, none, .nodes .empty⟩

def forgedBytes : Bytes :=
  ascii "d1:q9:get_peers1:rd2:id20:" ++ (idOf 128).hash ++ ascii "5:nodes0:e1:t8:" ++
    [0, 0, 0, 0, 1, 0, 0, 7] ++ ascii "1:y1:re"

theorem encode_forged : forged.encode = forgedBytes := by
  rw [GetPeersResponse.encode_bencode]
  simp only [flatMap_cons, flatMap_nil, encode_benMap]
  decide +kernel

def forgedBuffer : Buffer := ⟨forgedBytes, by decide +kernel⟩

theorem isResponse_of_encode {m : GetPeersResponse} {buffer : Buffer} (hdata : buffer.data = m.encode) :
    IsResponse buffer m.transId := by
  obtain ⟨r, hdecode, hvalue⟩ := m.shallow_bencode.decode_eq .default (by decide) hdata
  have hkeys : [transactionIdKey, messageTypeKey, requestTypeKey, responseArgsKey].Nodup := by decide
  refine ⟨r, mapOf [(transactionIdKey, .bytes m.transId), (messageTypeKey, .bytes responseTypeKey),
    (requestTypeKey, .bytes getPeersTypeKey), (responseArgsKey, benMap (mapOf m.responseArgs))],
    ⟨responseTypeKey, by decide⟩, hdecode, ?_, ?_, ?_, rfl⟩
  · rw [hvalue]
    rfl
  · exact lookupAndConvertBytes_eq (lookup_mapOf _ hkeys (by simp))
  · exact lookupAndConvertStr_eq _ (lookup_mapOf _ hkeys (by simp))

namespace DhtHandler

theorem issued_lonelyLookup : lonelyLookup.shared.issued = [.new 0] := issued_fresh rfl rfl

theorem table_lonelyLookup : lonelyLookup.shared.table = Shared.alone.table := rfl

theorem fromBytes_forged : fromBytes forged.transId = some (.new 0x1000007) := by decide

theorem lookup_lonelyLookup : lonelyLookup.tableActions.lookup (TransactionID.new 0x1000007).actionId =
    some (.lookup (.idle (idOf 0) (idOf 16) (fresh .alone).generateAid.1 true)) := by
  have haction : (fresh .alone).generateAid.1.actionId = (TransactionID.new 0x1000007).actionId := by
    rw [generateAid_fresh]
    decide
  rw [lonelyLookup, haction]
  exact AList.lookup_insert _

theorem parse_forged : lonelyLookup.parse forgedBuffer = .ok (some (.response (.getPeers forged))) := by
  refine parse_of_encode encode_forged.symm fun rsp hrsp => ?_
  cases hrsp
  exact expectedResponse_of_lookup fromBytes_forged lookup_lonelyLookup

def forger : SocketAddr := .v4 (octets 10 0 0 1) 6881

def forgerNode : Node := ⟨idOf 128, forger, some 0⟩

theorem mem_entries_forged {s : Shared} (hadd : addGood lonelyLookup.shared (forged.nodeId, forger) = .ok s) :
    forgerNode ∈ s.table.entries := by
  obtain ⟨table, htable, rfl⟩ := addNewNode_eq hadd
  have hrun : (addNode ⟨0, Function.update (fun _ => .asGood 0) 0 (.asGood 0)⟩
      recursionLimit (.new (idOf 0)) forgerNode).toOption.map
      (fun t => decide (forgerNode ∈ t.entries)) = some true := by decide +kernel
  change addNode ⟨0, Function.update (fun _ => .asGood 0) 0 (.asGood 0)⟩
      recursionLimit (.new (idOf 0)) forgerNode = .ok table at htable
  rw [htable] at hrun
  exact of_decide_eq_true (Option.some.inj hrun)

theorem unsolicited_forged : ∀ transId ∈ lonelyLookup.shared.issued, transId.asRef ≠ forged.transId := by
  rw [issued_lonelyLookup]
  decide

/-! ### Unsolicited responses -/

variable {hash : Bytes → ShaHash} {h : DhtHandler}

/-- An unsolicited response leaves the node as it is exactly if it is refused, or if the table has no place
for its nodes and its sender and it does not belong to a bootstrap that is idle. -/
theorem unsolicited_inert_iff (hreach : Reachable hash h) {buffer : Buffer} {trans : Bytes}
    (hresponse : IsResponse buffer trans)
    (hunsolicited : ∀ transId ∈ h.shared.issued, transId.asRef ≠ trans) (addr : SocketAddr) :
    ∃ h', h.handleIncoming hash buffer addr = .ok h' ∧
      (Inert h h' ↔ ∀ r, h.parse buffer = .ok (some (.response r)) → h.Harmless addr r) := by
  have hsound := hreach.sound
  have hcelled := hreach.celled
  rcases parse_of_isResponse hresponse h with hparse | ⟨r, hparse, rfl⟩
  · refine ⟨h, ?_, iff_of_true ?_ fun r hread => ?_⟩
    · rw [handleIncoming, hparse]
      rfl
    · exact ⟨rfl, fun _ _ => rfl, fun _ _ => Iff.rfl, fun _ _ _ => Iff.rfl, rfl⟩
    · rw [hparse] at hread
      cases hread
  · have hexpected := parse_expected hparse
    have honly : (∀ r', h.parse buffer = .ok (some (.response r')) → h.Harmless addr r') ↔
        h.Harmless addr r := by
      constructor
      · exact fun hall => hall r hparse
      · intro hr r' hparse'
        rw [hparse] at hparse'
        cases hparse'
        exact hr
    rw [handleIncoming_of_parse hparse, honly]
    unfold expectedResponse at hexpected
    split at hexpected
    · cases r <;> cases hexpected
    · rename_i transId hid
      have hfresh : transId ∉ h.shared.issued := fun hissued =>
        hunsolicited transId hissued (TransactionID.asRef_of_fromBytes hid)
      split at hexpected
      · cases r <;> cases hexpected
      · rename_i l haction
        cases r with
        | getPeers g => exact handleGetPeersResponse_inert_iff hsound hcelled hid hfresh haction
        | _ => cases hexpected
      · rename_i refresh haction
        cases r with
        | findNode f => exact handleFindNodeResponse_inert_iff hsound hcelled hid hfresh haction (by simp)
        | _ => cases hexpected
      · rename_i b attempts haction
        cases r with
        | findNode f => exact handleFindNodeResponse_inert_iff hsound hcelled hid hfresh haction (by simp)
        | _ => cases hexpected

theorem unsolicited_inert_iff_forged : ∃ h',
    lonelyLookup.handleIncoming zeroHash forgedBuffer forger = .ok h' ∧
      (Inert lonelyLookup h' ↔ ∀ r, lonelyLookup.parse forgedBuffer = .ok (some (.response r)) →
        lonelyLookup.Harmless forger r) :=
  unsolicited_inert_iff (reachable_lonelyLookup _) (isResponse_of_encode encode_forged.symm)
    unsolicited_forged forger

/-- The sender of a response is in the table afterwards, though nothing was ever sent to it. -/
theorem forged_adds_sender :
    Reachable zeroHash lonelyLookup ∧ IsResponse forgedBuffer forged.transId ∧
      (∀ transId ∈ lonelyLookup.shared.issued, transId.asRef ≠ forged.transId) ∧
      ∃ h', lonelyLookup.handleIncoming zeroHash forgedBuffer forger = .ok h' ∧
        forgerNode ∈ h'.shared.table.entries ∧ ¬ Inert lonelyLookup h' := by
  have hreach := reachable_lonelyLookup zeroHash
  have hfresh : TransactionID.new 0x1000007 ∉ lonelyLookup.shared.issued := fun hmem =>
    unsolicited_forged _ hmem (TransactionID.asRef_of_fromBytes fromBytes_forged)
  obtain ⟨s, hadd⟩ := addNewNode_ok hreach.sound.table (forged.nodeId, forger) (.asGood 0)
  have hnode : forgerNode ∈ s.table.entries := mem_entries_forged hadd
  obtain ⟨h', hcall, rfl⟩ : ∃ h', lonelyLookup.handleGetPeersResponse forged forger = .ok h' ∧
      h'.shared = s :=
    ⟨_, handleGetPeersResponse_of_fresh hreach.sound fromBytes_forged hfresh lookup_lonelyLookup hadd,
      shared_afterLookup _ _ _⟩
  refine ⟨hreach, isResponse_of_encode encode_forged.symm, unsolicited_forged, h', ?_, hnode,
    fun hinert => ?_⟩
  · exact (handleIncoming_of_parse parse_forged).trans hcall
  · rw [hinert.table, table_lonelyLookup] at hnode
    cases Shared.isPlaceholder_of_alone hnode

end DhtHandler

end BitTorrent.Dht
