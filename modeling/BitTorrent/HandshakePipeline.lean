import BitTorrent.HandshakeAgreement

/-! The three loops of the handshaker. One connects to the peers that were asked for, one accepts connections,
and one does the handshakes of both. Each loop ends at the first error of an item, so what it would have done
for later items does not happen. While no item has an error, what comes out for a peer does not depend on the
other peers. -/

namespace BitTorrent.Handshake

open Rust List Option

open Dht (SocketAddr InfoHash)

/-! ### The handlers -/

inductive HandshakeType where
  | initiate (sock : Conversation) (init : InitiateMessage)
  | complete (sock : Conversation) (addr : SocketAddr)

/-- A request, with what comes of connecting to the peer; nothing does if the peer refuses. -/
structure Request where
  init : InitiateMessage
  connect : Option Conversation

/-- What the listener yields: a connection or an error. -/
structure Incoming where
  accepted : Option (Conversation × SocketAddr)

def initiatorHandler (filters : List HandshakeFilter) (item : Request) : Run HandshakeError (Option HandshakeType) :=
  if shouldFilter (some item.init.addr) (some item.init.prot) none (some item.init.hash) none filters then .ok none
  else
    match item.connect with
    | some sock => .ok (some (.initiate sock item.init))
    | none => fail .transport

def listenerHandler (filters : List HandshakeFilter) (item : Incoming) : Run HandshakeError (Option HandshakeType) :=
  match item.accepted with
  | none => fail .transport
  | some (sock, addr) =>
    if shouldFilter (some addr) none none none none filters then .ok none else .ok (some (.complete sock addr))

def executeHandshake (ctx : Context) : HandshakeType → Run HandshakeError (Option CompleteMessage)
  | .initiate sock init => initiateHandshake ctx sock init
  | .complete sock addr => completeHandshake ctx sock addr

/-! ### The loops -/

/-- The pipeline, with the peer to which each item belongs. -/
structure Pipeline (κ : Type) where
  requests : List (κ × Request)
  connections : List (κ × Incoming)
  handshakes : List (κ × HandshakeType)
  done : List (κ × CompleteMessage)
  initiatorRuns : Bool
  listenerRuns : Bool
  handshakerRuns : Bool

/-- The loop that takes its next item. -/
inductive Loop where
  | initiator
  | listener
  | handshaker
  deriving DecidableEq

namespace Pipeline

variable {κ : Type}

def start (requests : List (κ × Request)) (connections : List (κ × Incoming)) : Pipeline κ :=
  ⟨requests, connections, [], [], true, true, true⟩

/-- An item for the last loop; it is lost if that loop has ended. -/
def send (s : Pipeline κ) (item : κ × HandshakeType) : Pipeline κ :=
  if s.handshakerRuns then { s with handshakes := s.handshakes ++ [item] } else s

/-- One item of one loop, if the loop runs and has one. -/
def step (ctx : Context) (s : Pipeline κ) : Loop → Option (Pipeline κ)
  | .initiator =>
    match s.initiatorRuns, s.requests with
    | true, (peer, item) :: requests =>
      match initiatorHandler ctx.filters item with
      | .ok (some result) => some ({ s with requests }.send (peer, result))
      | .ok none => some { s with requests }
      | .error _ => some { s with requests, initiatorRuns := false }
    | _, _ => none
  | .listener =>
    match s.listenerRuns, s.connections with
    | true, (peer, item) :: connections =>
      match listenerHandler ctx.filters item with
      | .ok (some result) => some ({ s with connections }.send (peer, result))
      | .ok none => some { s with connections }
      | .error _ => some { s with connections, listenerRuns := false }
    | _, _ => none
  | .handshaker =>
    match s.handshakerRuns, s.handshakes with
    | true, (peer, item) :: handshakes =>
      match executeHandshake ctx item with
      | .ok (some result) => some { s with handshakes, done := s.done ++ [(peer, result)] }
      | .ok none => some { s with handshakes }
      | .error _ => some { s with handshakes, handshakerRuns := false }
    | _, _ => none

def run (ctx : Context) (s : Pipeline κ) : List Loop → Option (Pipeline κ)
  | [] => some s
  | loop :: loops => (s.step ctx loop).bind fun s' => s'.run ctx loops

/-- No loop can go on. -/
def finished (s : Pipeline κ) : Bool :=
  (!s.initiatorRuns || s.requests.isEmpty) && (!s.listenerRuns || s.connections.isEmpty) &&
    (!s.handshakerRuns || s.handshakes.isEmpty)

end Pipeline

/-! ### Items without errors -/

section

variable (ctx : Context)

/-- The peer was filtered before, or it can be connected to and, if it answers, it answers as it was asked and is
not filtered. -/
def Request.Harmless (r : Request) : Prop :=
  shouldFilter (some r.init.addr) (some r.init.prot) none (some r.init.hash) none ctx.filters = true ∨
    r.init.prot.written.2.length ≤ 255 ∧ ∃ sock, r.connect = some sock ∧ (sock.sendTimedOut = true ∨
      ∀ msg, sock.received = some msg → msg.1.hash = r.init.hash ∧ msg.1.prot = r.init.prot ∧
        shouldFilter (some r.init.addr) (some msg.1.prot) (some msg.1.ext) (some msg.1.hash) (some msg.1.pid)
          ctx.filters = false)

/-- The connection was accepted, and the peer was filtered before or, if it sends a message, is not filtered. -/
def Incoming.Harmless (r : Incoming) : Prop :=
  ∃ sock addr, r.accepted = some (sock, addr) ∧
    (shouldFilter (some addr) none none none none ctx.filters = true ∨
      ∀ msg, sock.received = some msg →
        shouldFilter (some addr) (some msg.1.prot) (some msg.1.ext) (some msg.1.hash) (some msg.1.pid) ctx.filters =
          false)

/-- The handler passes nothing on, or something with which the handshake returns. -/
def Passes (handled : Run HandshakeError (Option HandshakeType)) : Prop :=
  ∃ passed, handled = .ok passed ∧ ∀ item, passed = some item → ∃ result, executeHandshake ctx item = .ok result

variable {ctx}

theorem Request.Harmless.passes {r : Request} (h : r.Harmless ctx) : Passes ctx (initiatorHandler ctx.filters r) := by
  unfold initiatorHandler
  split
  · exact ⟨none, rfl, fun _ hitem => (by cases hitem)⟩
  · rename_i hfilter
    obtain ⟨hshort, sock, hconnect, hanswer⟩ := h.resolve_left hfilter
    rw [hconnect]
    refine ⟨_, rfl, fun item hitem => ?_⟩
    cases hitem
    have hrequest : (ctx.request r.init : Run HandshakeError _) = .ok ⟨r.init.prot, ctx.ext, r.init.hash, ctx.pid⟩ :=
      HandshakeMessage.fromParts_of_isShort (m := ⟨r.init.prot, ctx.ext, r.init.hash, ctx.pid⟩) hshort
    rw [executeHandshake, initiateHandshake, hrequest, ok_bind]
    split
    · exact ⟨none, rfl⟩
    · rename_i htimeout
      cases hreceived : sock.received with
      | none => exact ⟨none, rfl⟩
      | some msg =>
        obtain ⟨hhash, hprot, hpass⟩ := hanswer.resolve_left htimeout msg hreceived
        refine ⟨some ⟨r.init.prot, ctx.ext.union msg.1.ext, r.init.hash, msg.1.pid, r.init.addr⟩, ?_⟩
        simp only [Context.checkAnswer, hhash, hprot, ne_eq, not_true, if_false] at hpass ⊢
        rw [hpass]
        rfl

theorem Incoming.Harmless.passes {r : Incoming} (h : r.Harmless ctx) : Passes ctx (listenerHandler ctx.filters r) := by
  obtain ⟨sock, addr, haccepted, hanswer⟩ := h
  rw [listenerHandler, haccepted]
  simp only
  split
  · exact ⟨none, rfl, fun _ hitem => (by cases hitem)⟩
  · rename_i hfilter
    refine ⟨_, rfl, fun item hitem => ?_⟩
    cases hitem
    rw [executeHandshake, completeHandshake]
    cases hreceived : sock.received with
    | none => exact ⟨none, rfl⟩
    | some msg =>
      have hpass := hanswer.resolve_left hfilter msg hreceived
      have hadmits : ctx.admits addr msg.1 =
          .ok ⟨msg.1.prot, ctx.ext.union msg.1.ext, msg.1.hash, msg.1.pid, addr⟩ := by
        rw [Context.admits, hpass]
        rfl
      have hanswer : (ctx.answer ⟨msg.1.prot, ctx.ext.union msg.1.ext, msg.1.hash, msg.1.pid, addr⟩ :
          Run HandshakeError _) = .ok ⟨msg.1.prot, ctx.ext, msg.1.hash, ctx.pid⟩ :=
        HandshakeMessage.fromParts_of_isShort (m := ⟨msg.1.prot, ctx.ext, msg.1.hash, ctx.pid⟩) msg.2
      simp only [hadmits, hanswer, ok_bind]
      split
      · exact ⟨none, rfl⟩
      · exact ⟨_, rfl⟩

end

namespace Pipeline

/-! ### What comes out -/

variable {κ : Type} (ctx : Context)

def handshakeResult (e : κ × HandshakeType) : Option (κ × CompleteMessage) :=
  match executeHandshake ctx e.2 with
  | .ok (some complete) => some (e.1, complete)
  | _ => none

def passedResult (peer : κ) : Run HandshakeError (Option HandshakeType) → Option (κ × CompleteMessage)
  | .ok (some item) => handshakeResult ctx (peer, item)
  | _ => none

def requestResult (e : κ × Request) : Option (κ × CompleteMessage) :=
  passedResult ctx e.1 (initiatorHandler ctx.filters e.2)

def incomingResult (e : κ × Incoming) : Option (κ × CompleteMessage) :=
  passedResult ctx e.1 (listenerHandler ctx.filters e.2)

/-- Everything that has come out or is still to come out. -/
def total (s : Pipeline κ) : Multiset (κ × CompleteMessage) :=
  ↑s.done + ↑(s.handshakes.filterMap (handshakeResult ctx)) + ↑(s.requests.filterMap (requestResult ctx)) +
    ↑(s.connections.filterMap (incomingResult ctx))

structure Clean (s : Pipeline κ) : Prop where
  initiatorRuns : s.initiatorRuns = true
  listenerRuns : s.listenerRuns = true
  handshakerRuns : s.handshakerRuns = true
  requests : ∀ e ∈ s.requests, e.2.Harmless ctx
  connections : ∀ e ∈ s.connections, e.2.Harmless ctx
  handshakes : ∀ e ∈ s.handshakes, ∃ result, executeHandshake ctx e.2 = .ok result

variable {ctx} {s s' : Pipeline κ}

/-- What an optional item counts for. -/
def single {α : Type} (a : Option α) : Multiset α := a.elim 0 fun a => {a}

variable {α β : Type}

theorem coe_filterMap_cons (f : α → Option β) (a : α) (l : List α) :
    (↑((a :: l).filterMap f) : Multiset β) = single (f a) + ↑(l.filterMap f) := by
  cases ha : f a with
  | none =>
    rw [filterMap_cons_none ha]
    exact (zero_add _).symm
  | some b =>
    rw [filterMap_cons_some ha]
    rfl

theorem coe_filterMap_concat (f : α → Option β) (l : List α) (a : α) :
    (↑(l ++ [a] |>.filterMap f) : Multiset β) = ↑(l.filterMap f) + single (f a) := by
  rw [filterMap_append, ← Multiset.coe_add, coe_filterMap_cons, filterMap_nil, Multiset.coe_nil, add_zero]

variable {handled : Run HandshakeError (Option HandshakeType)}

theorem Clean.pass (h : s.Clean ctx) (hpasses : Passes ctx handled) (peer : κ) :
    ∃ passed, handled = .ok passed ∧
      (passed.elim s fun item => s.send (peer, item)).Clean ctx ∧
      (passed.elim s fun item => s.send (peer, item)).total ctx = s.total ctx + single (passedResult ctx peer handled) := by
  obtain ⟨passed, rfl, hreturns⟩ := hpasses
  refine ⟨passed, rfl, ?_⟩
  cases passed with
  | none => exact ⟨h, (add_zero _).symm⟩
  | some item =>
    have hsend : s.send (peer, item) = { s with handshakes := s.handshakes ++ [(peer, item)] } := if_pos h.handshakerRuns
    refine ⟨?_, ?_⟩
    · rw [elim_some, hsend]
      refine { h with handshakes := fun e he => ?_ }
      rcases mem_append.mp he with he | he
      · exact h.handshakes e he
      · cases mem_singleton.mp he
        exact hreturns item rfl
    · rw [elim_some, hsend]
      simp only [total, coe_filterMap_concat, passedResult]
      abel

/-! ### One step of each loop -/

variable {requests : List (κ × Request)} {connections : List (κ × Incoming)}

section

variable {peer : κ}

variable {passed : Option HandshakeType}

theorem step_initiator {item : Request} (hruns : s.initiatorRuns = true)
    (hrequests : s.requests = (peer, item) :: requests)
    (hhandled : initiatorHandler ctx.filters item = .ok passed) :
    s.step ctx .initiator =
      some (passed.elim { s with requests } fun item => { s with requests }.send (peer, item)) := by
  obtain ⟨_, _, _, _, _, _, _⟩ := s
  cases hruns
  cases hrequests
  simp only [step, hhandled]
  cases passed <;> rfl

theorem step_listener {item : Incoming} (hruns : s.listenerRuns = true)
    (hconnections : s.connections = (peer, item) :: connections)
    (hhandled : listenerHandler ctx.filters item = .ok passed) :
    s.step ctx .listener =
      some (passed.elim { s with connections } fun item => { s with connections }.send (peer, item)) := by
  obtain ⟨_, _, _, _, _, _, _⟩ := s
  cases hruns
  cases hconnections
  simp only [step, hhandled]
  cases passed <;> rfl

theorem step_handshaker {item : HandshakeType} {handshakes : List (κ × HandshakeType)} (hruns : s.handshakerRuns = true)
    (hhandshakes : s.handshakes = (peer, item) :: handshakes) {result : Option CompleteMessage}
    (hresult : executeHandshake ctx item = .ok result) :
    s.step ctx .handshaker =
      some { s with handshakes, done := s.done ++ (result.map fun complete => (peer, complete)).toList } := by
  obtain ⟨_, _, _, _, _, _, _⟩ := s
  cases hruns
  cases hhandshakes
  simp only [step, hresult]
  cases result with
  | none => simp only [map_none, toList_none, append_nil]
  | some complete => rfl

end

theorem Clean.step_initiator (h : s.Clean ctx) (hstep : s.step ctx .initiator = some s') :
    s'.Clean ctx ∧ s'.total ctx = s.total ctx := by
  cases hrequests : s.requests with
  | nil =>
    rw [step, h.initiatorRuns, hrequests] at hstep
    cases hstep
  | cons e requests =>
    obtain ⟨peer, item⟩ := e
    have hall := h.requests
    rw [hrequests] at hall
    obtain ⟨hitem, hrest⟩ := forall_mem_cons.mp hall
    have hclean : Clean ctx { s with requests } := { h with requests := hrest }
    obtain ⟨passed, hhandled, hclean', htotal⟩ := hclean.pass hitem.passes peer
    rw [Pipeline.step_initiator h.initiatorRuns hrequests hhandled, some.injEq] at hstep
    rw [← hstep]
    refine ⟨hclean', htotal.trans ?_⟩
    simp only [total, hrequests, coe_filterMap_cons, requestResult]
    abel

theorem Clean.step_listener (h : s.Clean ctx) (hstep : s.step ctx .listener = some s') :
    s'.Clean ctx ∧ s'.total ctx = s.total ctx := by
  cases hconnections : s.connections with
  | nil =>
    rw [step, h.listenerRuns, hconnections] at hstep
    cases hstep
  | cons e connections =>
    obtain ⟨peer, item⟩ := e
    have hall := h.connections
    rw [hconnections] at hall
    obtain ⟨hitem, hrest⟩ := forall_mem_cons.mp hall
    have hclean : Clean ctx { s with connections } := { h with connections := hrest }
    obtain ⟨passed, hhandled, hclean', htotal⟩ := hclean.pass hitem.passes peer
    rw [Pipeline.step_listener h.listenerRuns hconnections hhandled, some.injEq] at hstep
    rw [← hstep]
    refine ⟨hclean', htotal.trans ?_⟩
    simp only [total, hconnections, coe_filterMap_cons, incomingResult]
    abel

theorem Clean.step_handshaker (h : s.Clean ctx) (hstep : s.step ctx .handshaker = some s') :
    s'.Clean ctx ∧ s'.total ctx = s.total ctx := by
  cases hhandshakes : s.handshakes with
  | nil =>
    rw [step, h.handshakerRuns, hhandshakes] at hstep
    cases hstep
  | cons e handshakes =>
    obtain ⟨peer, item⟩ := e
    have hall := h.handshakes
    rw [hhandshakes] at hall
    obtain ⟨⟨result, hresult⟩, hrest⟩ := forall_mem_cons.mp hall
    have hout : handshakeResult ctx (peer, item) = result.map fun complete => (peer, complete) := by
      rw [handshakeResult, hresult]
      cases result <;> rfl
    rw [Pipeline.step_handshaker h.handshakerRuns hhandshakes hresult, some.injEq] at hstep
    rw [← hstep]
    refine ⟨{ h with handshakes := hrest }, ?_⟩
    have hsingle : (↑(result.map fun complete => (peer, complete)).toList : Multiset (κ × CompleteMessage)) =
        single (handshakeResult ctx (peer, item)) := by
      rw [hout]
      cases result <;> rfl
    simp only [total, hhandshakes, coe_filterMap_cons, ← Multiset.coe_add, hsingle]
    abel

theorem Clean.step (h : s.Clean ctx) {loop : Loop} (hstep : s.step ctx loop = some s') :
    s'.Clean ctx ∧ s'.total ctx = s.total ctx := by
  cases loop with
  | initiator => exact h.step_initiator hstep
  | listener => exact h.step_listener hstep
  | handshaker => exact h.step_handshaker hstep

variable {loops : List Loop}

theorem Clean.run (h : s.Clean ctx) (hrun : s.run ctx loops = some s') :
    s'.Clean ctx ∧ s'.total ctx = s.total ctx := by
  induction loops generalizing s with
  | nil =>
    cases hrun
    exact ⟨h, rfl⟩
  | cons loop loops ih =>
    obtain ⟨next, hstep, hrun⟩ := bind_eq_some_iff.mp hrun
    obtain ⟨hclean, htotal⟩ := h.step hstep
    obtain ⟨hclean', htotal'⟩ := ih hclean hrun
    exact ⟨hclean', htotal'.trans htotal⟩

theorem Clean.done_eq_total (h : s.Clean ctx) (hfinished : s.finished = true) : ↑s.done = s.total ctx := by
  have hempty : s.requests = [] ∧ s.connections = [] ∧ s.handshakes = [] := by
    simpa [finished, h.initiatorRuns, h.listenerRuns, h.handshakerRuns, and_assoc] using hfinished
  simp only [total, hempty.1, hempty.2.1, hempty.2.2, filterMap_nil, Multiset.coe_nil, add_zero]

/-! ### Other peers -/

variable {r : κ × CompleteMessage}

theorem fst_of_handshakeResult {e : κ × HandshakeType} (h : handshakeResult ctx e = some r) : r.1 = e.1 := by
  unfold handshakeResult at h
  split at h <;> cases h
  rfl

theorem fst_of_passedResult {peer : κ} (h : passedResult ctx peer handled = some r) : r.1 = peer := by
  unfold passedResult at h
  split at h
  · exact fst_of_handshakeResult h
  · cases h

theorem filter_filterMap [DecidableEq κ] {f : κ × α → Option (κ × β)} (hf : ∀ e r, f e = some r → r.1 = e.1)
    (peer : κ) (l : List (κ × α)) :
    (l.filterMap f).filter (fun r => r.1 ≠ peer) = (l.filter fun e => e.1 ≠ peer).filterMap f := by
  induction l with
  | nil => rfl
  | cons e l ih =>
    cases he : f e with
    | none =>
      rw [filterMap_cons_none he, ih, filter_cons]
      split
      · rw [filterMap_cons_none he]
      · rfl
    | some r =>
      rw [filterMap_cons_some he, filter_cons, filter_cons, hf e r he, ih]
      split
      · rw [filterMap_cons_some he]
      · rfl

theorem start_clean
    (hrequests : ∀ e ∈ requests, e.2.Harmless ctx) (hconnections : ∀ e ∈ connections, e.2.Harmless ctx) :
    (start requests connections).Clean ctx :=
  ⟨rfl, rfl, rfl, hrequests, hconnections, nofun⟩

/-- In the end, the results for the other peers are those of their items. -/
theorem done_filter_perm [DecidableEq κ] (peer : κ) (hrequests : ∀ e ∈ requests, e.2.Harmless ctx)
    (hconnections : ∀ e ∈ connections, e.2.Harmless ctx) (hrun : (start requests connections).run ctx loops = some s)
    (hfinished : s.finished = true) :
    (s.done.filter fun r => r.1 ≠ peer).Perm
      ((requests.filter fun e => e.1 ≠ peer).filterMap (requestResult ctx) ++
        (connections.filter fun e => e.1 ≠ peer).filterMap (incomingResult ctx)) := by
  obtain ⟨hclean, htotal⟩ := (start_clean hrequests hconnections).run hrun
  have hall : s.done.Perm (requests.filterMap (requestResult ctx) ++ connections.filterMap (incomingResult ctx)) := by
    rw [← Multiset.coe_eq_coe, hclean.done_eq_total hfinished, htotal, ← Multiset.coe_add]
    simp only [total, start, filterMap_nil, Multiset.coe_nil, zero_add]
  have hrequest : ∀ (e : κ × Request) r, requestResult ctx e = some r → r.1 = e.1 := fun _ _ h => fst_of_passedResult h
  have hincoming : ∀ (e : κ × Incoming) r, incomingResult ctx e = some r → r.1 = e.1 := fun _ _ h => fst_of_passedResult h
  rw [← filter_filterMap hrequest, ← filter_filterMap hincoming, ← filter_append]
  exact hall.filter _

/-- Of runs in which no item has an error, those that differ in the items of one peer only have the same results
for all other peers. -/
theorem other_peers_unaffected [DecidableEq κ] (ctx : Context) (peer : κ) {requests requests' : List (κ × Request)}
    {connections connections' : List (κ × Incoming)} {loops loops' : List Loop} {s s' : Pipeline κ}
    (hrequests : requests.filter (fun e => e.1 ≠ peer) = requests'.filter fun e => e.1 ≠ peer)
    (hconnections : connections.filter (fun e => e.1 ≠ peer) = connections'.filter fun e => e.1 ≠ peer)
    (hharmless : (∀ e ∈ requests, e.2.Harmless ctx) ∧ ∀ e ∈ connections, e.2.Harmless ctx)
    (hharmless' : (∀ e ∈ requests', e.2.Harmless ctx) ∧ ∀ e ∈ connections', e.2.Harmless ctx)
    (hrun : (start requests connections).run ctx loops = some s) (hfinished : s.finished = true)
    (hrun' : (start requests' connections').run ctx loops' = some s') (hfinished' : s'.finished = true) :
    (s.done.filter fun r => r.1 ≠ peer).Perm (s'.done.filter fun r => r.1 ≠ peer) := by
  have hdone := done_filter_perm peer hharmless.1 hharmless.2 hrun hfinished
  have hdone' := done_filter_perm peer hharmless'.1 hharmless'.2 hrun' hfinished'
  rw [hrequests, hconnections] at hdone
  exact hdone.trans hdone'.symm

/-! ### A peer that refuses -/

def plainContext : Context := plainParties.initiator

def plainInitiated : CompleteMessage :=
  ⟨.bitTorrent, .new, plainParties.init.hash, plainParties.responder.pid, plainParties.init.addr⟩

def refusing : Request := ⟨⟨.bitTorrent, plainParties.init.hash, .v4 #v[10, 0, 0, 3] 6881⟩, none⟩

def silent : Request := ⟨⟨.bitTorrent, plainParties.init.hash, .v4 #v[10, 0, 0, 3] 6881⟩, some ⟨false, none⟩⟩

def answering : Request :=
  ⟨plainParties.init, some ⟨false, some ⟨plainParties.answered, by decide +kernel⟩⟩⟩

theorem silent_harmless : silent.Harmless plainContext :=
  .inr ⟨by decide +kernel, ⟨false, none⟩, rfl, .inr nofun⟩

theorem answering_harmless : answering.Harmless plainContext := by
  refine .inr ⟨by decide +kernel, _, rfl, .inr ?_⟩
  rintro msg hmsg
  cases hmsg
  exact ⟨rfl, by decide +kernel, rfl⟩

/-- The schedule in which both requests are handled in turn. -/
def inTurn : List Loop := [.initiator, .initiator, .handshaker, .handshaker]

theorem run_silent : (start [(0, silent), (1, answering)] []).run plainContext inTurn =
    some ⟨[], [], [], [(1, plainInitiated)], true, true, true⟩ := by
  rfl

theorem run_answering : (start [(0, answering), (1, answering)] []).run plainContext inTurn =
    some ⟨[], [], [], [(0, plainInitiated), (1, plainInitiated)], true, true, true⟩ := by
  rfl

theorem other_peers_unaffected_silent :
    ([(1, plainInitiated)].filter fun r => r.1 ≠ 0).Perm
      ([(0, plainInitiated), (1, plainInitiated)].filter fun r => r.1 ≠ 0) := by
  have hsilent : ∀ e ∈ [(0, silent), (1, answering)], e.2.Harmless plainContext := by
    simp [silent_harmless, answering_harmless]
  have hanswering : ∀ e ∈ [(0, answering), (1, answering)], e.2.Harmless plainContext := by
    simp [answering_harmless]
  have hrequests : [(0, silent), (1, answering)].filter (fun e => e.1 ≠ 0) =
      [(0, answering), (1, answering)].filter fun e => e.1 ≠ 0 := rfl
  have hnone : ∀ e ∈ ([] : List (Nat × Incoming)), e.2.Harmless plainContext := forall_mem_nil _
  exact other_peers_unaffected plainContext 0 hrequests rfl ⟨hsilent, hnone⟩ ⟨hanswering, hnone⟩ run_silent rfl
    run_answering rfl

/-- If the first peer refuses the connection, nothing comes out for the second one, and the loop has ended. -/
theorem refusing_peer_stops_pipeline :
    ((start [(0, refusing), (1, answering)] []).run plainContext [.initiator]).map
        (fun s => (s.finished, s.initiatorRuns, s.done)) = some (true, false, []) ∧
      ((start [(0, silent), (1, answering)] []).run plainContext inTurn).map
        (fun s => (s.finished, s.initiatorRuns, s.done)) = some (true, true, [(1, plainInitiated)]) := by
  refine ⟨rfl, ?_⟩
  rw [run_silent]
  rfl

end Pipeline

end BitTorrent.Handshake
