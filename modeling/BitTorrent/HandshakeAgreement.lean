import BitTorrent.HandshakeFramed
import BitTorrent.HandshakeHandler

/-! Both ends of a handshake over a connection that keeps bytes in order. Each end sends one message and reads
one; either may give up at any time, and its socket may fail. If both ends complete the handshake nevertheless,
they agree on what was negotiated. -/

namespace BitTorrent.Handshake

open Rust HandshakeMessage FramedHandshake

open Dht (SocketAddr InfoHash)

/-- Where `initiate_handshake` is. -/
inductive Initiator where
  | sending (framed : FramedHandshake)
  | receiving (framed : FramedHandshake)
  | returned (result : Run HandshakeError (Option CompleteMessage))
  deriving DecidableEq

/-- Where `complete_handshake` is. -/
inductive Responder where
  | receiving (framed : FramedHandshake)
  | sending (framed : FramedHandshake) (complete : CompleteMessage)
  | returned (result : Run HandshakeError (Option CompleteMessage))
  deriving DecidableEq

/-- What happens to one end: it polls its socket, or its time is up. -/
inductive PartyEvent (ε : Type) where
  | flush (poll : FlushPoll ε)
  | read (poll : SockRead ε)
  | timeout

variable {ε : Type}

namespace Initiator

def start (ctx : Context) (init : InitiateMessage) : Initiator :=
  match (ctx.request init : Run Empty HandshakeMessage) with
  | .ok msg => .sending (new.startSend msg)
  | .error _ => .returned (.error .panic)

/-- One step, with the bytes on their way in both directions. An error of the socket while sending is not looked
at. -/
def step (ctx : Context) (init : InitiateMessage) (outgoing incoming : Bytes) :
    Initiator → PartyEvent ε → Initiator × Bytes × Bytes
  | .sending framed, .flush poll =>
    match framed.pollFlush outgoing poll with
    | (.pending, framed, outgoing) => (.sending framed, outgoing, incoming)
    | (.ready _, framed, outgoing) => (.receiving framed, outgoing, incoming)
  | .receiving framed, .read poll =>
    match framed.pollNext incoming poll with
    | .ok (.pending, framed, incoming) => (.receiving framed, outgoing, incoming)
    | .ok (.ready (some (.ok msg)), _, incoming) =>
      (.returned ((ctx.checkAnswer init msg).map some), outgoing, incoming)
    | .ok (.ready _, _, incoming) => (.returned (.ok none), outgoing, incoming)
    | .error _ => (.returned (.error .panic), outgoing, incoming)
  | .sending _, .timeout => (.returned (.ok none), outgoing, incoming)
  | .receiving _, .timeout => (.returned (.ok none), outgoing, incoming)
  | s, _ => (s, outgoing, incoming)

end Initiator

namespace Responder

def step (ctx : Context) (addr : SocketAddr) (outgoing incoming : Bytes) :
    Responder → PartyEvent ε → Responder × Bytes × Bytes
  | .receiving framed, .read poll =>
    match framed.pollNext incoming poll with
    | .ok (.pending, framed, incoming) => (.receiving framed, outgoing, incoming)
    | .ok (.ready (some (.ok msg)), framed, incoming) =>
      match ctx.admits addr msg with
      | .ok complete =>
        match (ctx.answer complete : Run Empty HandshakeMessage) with
        | .ok msg => (.sending (framed.startSend msg) complete, outgoing, incoming)
        | .error _ => (.returned (.error .panic), outgoing, incoming)
      | .error e => (.returned (.error e), outgoing, incoming)
    | .ok (.ready _, _, incoming) => (.returned (.ok none), outgoing, incoming)
    | .error _ => (.returned (.error .panic), outgoing, incoming)
  | .sending framed complete, .flush poll =>
    match framed.pollFlush outgoing poll with
    | (.pending, framed, outgoing) => (.sending framed complete, outgoing, incoming)
    | (.ready _, _, outgoing) => (.returned (.ok (some complete)), outgoing, incoming)
  | .receiving _, .timeout => (.returned (.ok none), outgoing, incoming)
  | .sending _ _, .timeout => (.returned (.ok none), outgoing, incoming)
  | s, _ => (s, outgoing, incoming)

end Responder

/-- Both ends with the bytes between them. -/
structure Link where
  initiator : Initiator
  responder : Responder
  toResponder : Bytes
  toInitiator : Bytes

inductive LinkEvent (ε : Type) where
  | initiator (event : PartyEvent ε)
  | responder (event : PartyEvent ε)

/-- The two ends: each has its context; one has the request, the other the address the connection came from. -/
structure Parties where
  initiator : Context
  responder : Context
  init : InitiateMessage
  addr : SocketAddr

namespace Parties

def start (p : Parties) : Link := ⟨.start p.initiator p.init, .receiving .new, [], []⟩

def step (p : Parties) (l : Link) : LinkEvent ε → Link
  | .initiator event =>
    let (initiator, toResponder, toInitiator) :=
      l.initiator.step p.initiator p.init l.toResponder l.toInitiator event
    { l with initiator, toResponder, toInitiator }
  | .responder event =>
    let (responder, toInitiator, toResponder) :=
      l.responder.step p.responder p.addr l.toInitiator l.toResponder event
    { l with responder, toResponder, toInitiator }

def run (p : Parties) (events : List (LinkEvent ε)) : Link := events.foldl p.step p.start

end Parties

/-! ### One direction -/

/-- The reader has the first bytes of `w`; the next ones are on their way, and if the writer is still at it then
the others are with the writer. -/
def Carries (w : Bytes) (framed : FramedHandshake) (channel : Bytes) (unsent : Option Bytes) : Prop :=
  ∃ k future, framed.Reads w k ∧ channel ++ future = w.drop k ∧ ∀ left, unsent = some left → future = left

namespace Carries

variable {w channel channel' : Bytes} {framed framed' writer writer' : FramedHandshake} {unsent : Option Bytes}

theorem start (w : Bytes) : Carries w .new [] (some w) :=
  ⟨0, w, reads_waiting rfl rfl rfl, rfl, fun _ hleft => Option.some.inj hleft⟩

theorem forget (h : Carries w framed channel unsent) : Carries w framed channel none := by
  obtain ⟨k, future, hreads, hchannel, -⟩ := h
  exact ⟨k, future, hreads, hchannel, nofun⟩

variable {result : Poll (Except (FrameError ε) Unit)} {poll : FlushPoll ε}

theorem flush (h : Carries w framed channel (some writer.writeBuffer))
    (hflush : writer.pollFlush channel poll = (result, writer', channel')) :
    Carries w framed channel' (some writer'.writeBuffer) := by
  obtain ⟨k, future, hreads, hchannel, hunsent⟩ := h
  refine ⟨k, writer'.writeBuffer, hreads, ?_, fun _ hleft => Option.some.inj hleft⟩
  rw [(pollFlush_append hflush).1, ← hunsent _ rfl, hchannel]

theorem of_flush (h : Carries w framed channel unsent) {outgoing outgoing' : Bytes}
    (hflush : framed.pollFlush outgoing poll = (result, framed', outgoing')) :
    Carries w framed' channel unsent := by
  obtain ⟨k, future, hreads, hchannel, hunsent⟩ := h
  refine ⟨k, future, ?_, hchannel, hunsent⟩
  rw [(pollFlush_append hflush).2]
  exact hreads

theorem next {m : HandshakeMessage} (hm : m.IsShort) (h : Carries m.writeBytesSync framed channel unsent)
    (poll : SockRead ε) :
    ∃ out framed' channel', framed.pollNext channel poll = .ok (out, framed', channel') ∧
      Carries m.writeBytesSync framed' channel' unsent ∧ framed'.writeBuffer = framed.writeBuffer ∧
      ∀ msg, out = .ready (some (.ok msg)) → msg = m.asRead := by
  obtain ⟨k, future, hreads, hchannel, hunsent⟩ := h
  have hin : channel ++ future = m.writeBytesSync.drop k ++ [] := by rw [hchannel, List.append_nil]
  obtain ⟨out, framed', n, hnext, hn, hreads', hbuffer, hadvance, -⟩ := pollNext_spec hm hreads hin poll
  refine ⟨out, framed', channel.drop n, hnext, ⟨k + n, future, hreads', ?_, hunsent⟩, hbuffer, ?_⟩
  · rw [← List.drop_append_of_le_length hn, hchannel, List.drop_drop]
  · rintro msg rfl
    cases hadvance
    rfl

end Carries

/-! ### Both directions -/

namespace Parties

variable (p : Parties)

def requested : HandshakeMessage := ⟨p.init.prot, p.initiator.ext, p.init.hash, p.initiator.pid⟩

def answered : HandshakeMessage := ⟨p.requested.asRead.prot, p.responder.ext, p.init.hash, p.responder.pid⟩

def unsentRequest : Initiator → Option Bytes
  | .sending framed => some framed.writeBuffer
  | _ => none

def unsentAnswer : Responder → Option Bytes
  | .receiving _ => some p.answered.writeBytesSync
  | .sending framed _ => some framed.writeBuffer
  | .returned _ => none

/-- The result of the initiator for some conversation in which only the answer may have been read. -/
def Initiated (result : Run HandshakeError (Option CompleteMessage)) : Prop :=
  ∃ sock, initiateHandshake p.initiator sock p.init = result ∧ ∀ msg, sock.received = some msg → msg.1 = p.answered

/-- The result of the responder for some conversation in which only the request may have been read. -/
def Completed (result : Run HandshakeError (Option CompleteMessage)) : Prop :=
  ∃ sock, completeHandshake p.responder sock p.addr = result ∧
    ∀ msg, sock.received = some msg → msg.1 = p.requested.asRead

/-- What holds in every state. -/
structure Sound (l : Link) : Prop where
  request : ∀ framed, l.responder = .receiving framed → framed.writeBuffer = [] ∧
    Carries p.requested.writeBytesSync framed l.toResponder (unsentRequest l.initiator)
  answer : ∀ framed, l.initiator = .sending framed ∨ l.initiator = .receiving framed →
    Carries p.answered.writeBytesSync framed l.toInitiator (p.unsentAnswer l.responder)
  initiated : ∀ result, l.initiator = .returned result → p.Initiated result
  sending : ∀ framed complete, l.responder = .sending framed complete →
    p.responder.admits p.addr p.requested.asRead = .ok complete
  completed : ∀ result, l.responder = .returned result → p.Completed result

variable {p} {l : Link}

theorem answered_isShort (h : p.requested.IsShort) : p.answered.IsShort := asRead_isShort h

theorem answered_asRead : p.answered.asRead = p.answered := by
  have hname : p.answered.prot.written.2 = p.requested.prot.written.2 := written_asRead
  rw [asRead, hname]
  rfl

/-! ### Results -/

theorem request_of_isShort (hshort : p.requested.IsShort) :
    (p.initiator.request p.init : Run ε _) = .ok p.requested :=
  fromParts_of_isShort hshort

theorem initiated_none (hshort : p.requested.IsShort) : p.Initiated (.ok none) := by
  refine ⟨⟨false, none⟩, ?_, nofun⟩
  rw [initiateHandshake, request_of_isShort hshort]
  rfl

theorem initiated_answer (hshort : p.requested.IsShort) :
    p.Initiated ((p.initiator.checkAnswer p.init p.answered).map some) := by
  refine ⟨⟨false, some ⟨p.answered, answered_isShort hshort⟩⟩, ?_, ?_⟩
  · rw [initiateHandshake, request_of_isShort hshort]
    rfl
  · rintro msg hmsg
    cases hmsg
    rfl

theorem completed_none : p.Completed (.ok none) := ⟨⟨false, none⟩, rfl, nofun⟩

def readRequest (hshort : p.requested.IsShort) : ReadMessage :=
  ⟨p.requested.asRead, asRead_isShort hshort⟩

variable {complete : CompleteMessage}

theorem completed_of_admits (hshort : p.requested.IsShort)
    (hadmits : p.responder.admits p.addr p.requested.asRead = .ok complete) (sendTimedOut : Bool) :
    p.Completed (.ok (if sendTimedOut then none else some complete)) := by
  have hread : p.responder.admits p.addr (readRequest hshort).1 = .ok complete := hadmits
  refine ⟨⟨sendTimedOut, some (readRequest hshort)⟩, completeHandshake_of_admits hread sendTimedOut, ?_⟩
  rintro msg hmsg
  cases hmsg
  rfl

theorem completed_of_not_admits (hshort : p.requested.IsShort) {e : Fault HandshakeError}
    (hadmits : p.responder.admits p.addr p.requested.asRead = .error e) : p.Completed (.error e) := by
  have hread : p.responder.admits p.addr (readRequest hshort).1 = .error e := hadmits
  refine ⟨⟨false, some (readRequest hshort)⟩, completeHandshake_of_not_admits hread, ?_⟩
  rintro msg hmsg
  cases hmsg
  rfl

/-! ### Steps -/

theorem sound_start (hshort : p.requested.IsShort) : p.Sound p.start := by
  have hinitiator : p.start.initiator = .sending (new.startSend p.requested) := by
    rw [start, Initiator.start, request_of_isShort hshort]
  refine ⟨?_, ?_, ?_, ?_, ?_⟩
  · intro framed hframed
    cases hframed
    rw [hinitiator]
    exact ⟨rfl, .start _⟩
  · rintro framed (hframed | hframed) <;> rw [hinitiator] at hframed <;> cases hframed
    exact .start _
  · intro result hresult
    rw [hinitiator] at hresult
    cases hresult
  · intro framed complete hsending
    cases hsending
  · intro result hresult
    cases hresult

section

variable {initiator : Initiator} {responder : Responder} {toResponder toInitiator toResponder' toInitiator' : Bytes}
  {framed framed' : FramedHandshake} {result : Run HandshakeError (Option CompleteMessage)}

theorem Sound.initiator_returns (h : p.Sound ⟨initiator, responder, toResponder, toInitiator⟩)
    (hresult : p.Initiated result) : p.Sound ⟨.returned result, responder, toResponder, toInitiator'⟩ where
  request reader hreader := ⟨(h.request reader hreader).1, (h.request reader hreader).2.forget⟩
  answer := by rintro reader (hreader | hreader) <;> cases hreader
  initiated result' hresult' := by
    cases hresult'
    exact hresult
  sending := h.sending
  completed := h.completed

theorem Sound.initiator_receives (h : p.Sound ⟨initiator, responder, toResponder, toInitiator⟩)
    (hrequest : ∀ reader, responder = .receiving reader → Carries p.requested.writeBytesSync reader toResponder' none)
    (hanswer : Carries p.answered.writeBytesSync framed toInitiator' (p.unsentAnswer responder)) :
    p.Sound ⟨.receiving framed, responder, toResponder', toInitiator'⟩ where
  request reader hreader := ⟨(h.request reader hreader).1, hrequest reader hreader⟩
  answer := by
    rintro reader (hreader | hreader) <;> cases hreader
    exact hanswer
  initiated result hresult := by cases hresult
  sending := h.sending
  completed := h.completed

theorem Sound.initiator_flush (h : p.Sound ⟨.sending framed, responder, toResponder, toInitiator⟩) (poll : FlushPoll ε) :
    p.Sound (p.step ⟨.sending framed, responder, toResponder, toInitiator⟩ (.initiator (.flush poll))) := by
  obtain ⟨out, framed', toResponder', hflush⟩ : ∃ out framed' toResponder',
      framed.pollFlush toResponder poll = (out, framed', toResponder') := ⟨_, _, _, rfl⟩
  have hrequest : ∀ reader, responder = .receiving reader →
      Carries p.requested.writeBytesSync reader toResponder' (some framed'.writeBuffer) := fun reader hreader =>
    (h.request reader hreader).2.flush hflush
  have hanswer := (h.answer framed (.inl rfl)).of_flush hflush
  simp only [step, Initiator.step, hflush]
  cases out with
  | pending =>
    refine ⟨fun reader hreader => ⟨(h.request reader hreader).1, hrequest reader hreader⟩, ?_, ?_, h.sending,
      h.completed⟩
    · rintro reader (hreader | hreader) <;> cases hreader
      exact hanswer
    · intro result hresult
      cases hresult
  | ready sent => exact h.initiator_receives (fun reader hreader => (hrequest reader hreader).forget) hanswer

theorem Sound.initiator_read (hshort : p.requested.IsShort)
    (h : p.Sound ⟨.receiving framed, responder, toResponder, toInitiator⟩) (poll : SockRead ε) :
    p.Sound (p.step ⟨.receiving framed, responder, toResponder, toInitiator⟩ (.initiator (.read poll))) := by
  obtain ⟨out, framed', toInitiator', hnext, hcarries, -, hmessage⟩ :=
    (h.answer framed (.inr rfl)).next (answered_isShort hshort) poll
  simp only [step, Initiator.step, hnext]
  rcases out with (_ | _ | msg) | _
  · exact h.initiator_returns (initiated_none hshort)
  · exact h.initiator_returns (initiated_none hshort)
  · rw [hmessage msg rfl, answered_asRead]
    exact h.initiator_returns (initiated_answer hshort)
  · exact h.initiator_receives (fun reader hreader => (h.request reader hreader).2) hcarries

theorem Sound.initiator_step (hshort : p.requested.IsShort) (h : p.Sound l) (event : PartyEvent ε) :
    p.Sound (p.step l (.initiator event)) := by
  obtain ⟨initiator, responder, toResponder, toInitiator⟩ := l
  rcases initiator with framed | framed | result <;> rcases event with poll | poll | _
  · exact h.initiator_flush poll
  · exact h
  · exact h.initiator_returns (initiated_none hshort)
  · exact h
  · exact h.initiator_read hshort poll
  · exact h.initiator_returns (initiated_none hshort)
  · exact h
  · exact h
  · exact h

theorem Sound.responder_returns (h : p.Sound ⟨initiator, responder, toResponder, toInitiator⟩)
    (hanswer : ∀ reader, initiator = .sending reader ∨ initiator = .receiving reader →
      Carries p.answered.writeBytesSync reader toInitiator' none)
    (hresult : p.Completed result) : p.Sound ⟨initiator, .returned result, toResponder', toInitiator'⟩ where
  request reader hreader := by cases hreader
  answer := hanswer
  initiated := h.initiated
  sending framed complete hsending := by cases hsending
  completed result' hresult' := by
    cases hresult'
    exact hresult

theorem Sound.responder_sends (h : p.Sound ⟨initiator, responder, toResponder, toInitiator⟩)
    (hanswer : ∀ reader, initiator = .sending reader ∨ initiator = .receiving reader →
      Carries p.answered.writeBytesSync reader toInitiator' (some framed.writeBuffer))
    (hadmits : p.responder.admits p.addr p.requested.asRead = .ok complete) :
    p.Sound ⟨initiator, .sending framed complete, toResponder', toInitiator'⟩ where
  request reader hreader := by cases hreader
  answer := hanswer
  initiated := h.initiated
  sending framed' complete' hsending := by
    cases hsending
    exact hadmits
  completed result hresult := by cases hresult

theorem Sound.responder_read (hshort : p.requested.IsShort)
    (h : p.Sound ⟨initiator, .receiving framed, toResponder, toInitiator⟩) (poll : SockRead ε) :
    p.Sound (p.step ⟨initiator, .receiving framed, toResponder, toInitiator⟩ (.responder (.read poll))) := by
  obtain ⟨hbuffer, hrequest⟩ := h.request framed rfl
  obtain ⟨out, framed', toResponder', hnext, hcarries, hbuffer', hmessage⟩ := hrequest.next hshort poll
  have hforget : ∀ reader, initiator = .sending reader ∨ initiator = .receiving reader →
      Carries p.answered.writeBytesSync reader toInitiator none := fun reader hreader => (h.answer reader hreader).forget
  simp only [step, Responder.step, hnext]
  rcases out with (_ | _ | msg) | _
  · exact h.responder_returns hforget completed_none
  · exact h.responder_returns hforget completed_none
  · rw [hmessage msg rfl]
    cases hadmits : p.responder.admits p.addr p.requested.asRead with
    | error e =>
      simp only [hadmits]
      exact h.responder_returns hforget (completed_of_not_admits hshort hadmits)
    | ok complete =>
      have hread : p.responder.admits p.addr (readRequest hshort).1 = .ok complete := hadmits
      have hsent : (p.responder.answer complete : Run Empty _) = .ok p.answered := answer_of_admits hread
      have hunsent : (framed'.startSend p.answered).writeBuffer = p.answered.writeBytesSync := by
        rw [FramedHandshake.startSend, hbuffer', hbuffer, List.nil_append]
      simp only [hadmits, hsent]
      refine h.responder_sends (fun reader hreader => ?_) hadmits
      rw [hunsent]
      exact h.answer reader hreader
  · refine ⟨fun reader hreader => ?_, h.answer, h.initiated, ?_, ?_⟩
    · cases hreader
      exact ⟨hbuffer'.trans hbuffer, hcarries⟩
    · intro reader complete hsending
      cases hsending
    · intro result hresult
      cases hresult

theorem Sound.responder_flush (hshort : p.requested.IsShort)
    (h : p.Sound ⟨initiator, .sending framed complete, toResponder, toInitiator⟩) (poll : FlushPoll ε) :
    p.Sound (p.step ⟨initiator, .sending framed complete, toResponder, toInitiator⟩ (.responder (.flush poll))) := by
  obtain ⟨out, framed', toInitiator', hflush⟩ : ∃ out framed' toInitiator',
      framed.pollFlush toInitiator poll = (out, framed', toInitiator') := ⟨_, _, _, rfl⟩
  have hanswer : ∀ reader, initiator = .sending reader ∨ initiator = .receiving reader →
      Carries p.answered.writeBytesSync reader toInitiator' (some framed'.writeBuffer) := fun reader hreader =>
    (h.answer reader hreader).flush hflush
  have hadmits := h.sending framed complete rfl
  simp only [step, Responder.step, hflush]
  cases out with
  | pending => exact h.responder_sends hanswer hadmits
  | ready sent =>
    exact h.responder_returns (fun reader hreader => (hanswer reader hreader).forget)
      (completed_of_admits hshort hadmits false)

theorem Sound.responder_step (hshort : p.requested.IsShort) (h : p.Sound l) (event : PartyEvent ε) :
    p.Sound (p.step l (.responder event)) := by
  obtain ⟨initiator, responder, toResponder, toInitiator⟩ := l
  have hforget : ∀ reader, initiator = .sending reader ∨ initiator = .receiving reader →
      Carries p.answered.writeBytesSync reader toInitiator none := fun reader hreader => (h.answer reader hreader).forget
  rcases responder with framed | ⟨framed, complete⟩ | result <;> rcases event with poll | poll | _
  · exact h
  · exact h.responder_read hshort poll
  · exact h.responder_returns hforget completed_none
  · exact h.responder_flush hshort poll
  · exact h
  · exact h.responder_returns hforget (completed_of_admits hshort (h.sending framed complete rfl) true)
  · exact h
  · exact h
  · exact h

end

theorem sound_run (hshort : p.requested.IsShort) (events : List (LinkEvent ε)) : p.Sound (p.run events) := by
  have hfold : ∀ (events : List (LinkEvent ε)) (l : Link), p.Sound l → p.Sound (events.foldl p.step l) := by
    intro events
    induction events with
    | nil => exact fun l hl => hl
    | cons event events ih =>
      intro l hl
      cases event with
      | initiator event => exact ih _ (hl.initiator_step hshort event)
      | responder event => exact ih _ (hl.responder_step hshort event)
  exact hfold events p.start (sound_start hshort)

theorem initiator_of_long (hlong : ¬p.requested.IsShort) (events : List (LinkEvent ε)) :
    (p.run events).initiator = .returned (.error .panic) := by
  have hstart : p.start.initiator = .returned (.error .panic) := by
    rw [start, Initiator.start]
    cases hrequest : (p.initiator.request p.init : Run Empty HandshakeMessage) with
    | error e => rfl
    | ok msg =>
      obtain ⟨rfl, hshort⟩ := isShort_of_fromParts hrequest
      exact absurd hshort hlong
  have hfold : ∀ (events : List (LinkEvent ε)) (l : Link), l.initiator = .returned (.error .panic) →
      (events.foldl p.step l).initiator = .returned (.error .panic) := by
    intro events
    induction events with
    | nil => exact fun l hl => hl
    | cons event events ih =>
      intro l hl
      refine ih _ ?_
      cases event with
      | initiator event =>
        rw [step, hl]
        rfl
      | responder event => exact hl
  exact hfold events p.start hstart

end Parties

/-- If both ends complete the handshake, they have the same protocol, the info hash that was asked for and the
extensions that both support, and each has the other's peer id. -/
theorem handshake_agreement (p : Parties) (events : List (LinkEvent ε)) {a b : CompleteMessage}
    (ha : (p.run events).initiator = .returned (.ok (some a)))
    (hb : (p.run events).responder = .returned (.ok (some b))) :
    a.prot = b.prot ∧ a.hash = p.init.hash ∧ b.hash = p.init.hash ∧ a.ext = b.ext ∧
      (∀ activeBit, a.ext.contains activeBit =
        (p.initiator.ext.contains activeBit && p.responder.ext.contains activeBit)) ∧
      a.pid = p.responder.pid ∧ b.pid = p.initiator.pid := by
  by_cases hshort : p.requested.IsShort
  · have hsound := Parties.sound_run hshort events
    obtain ⟨sock, hsock, hanswered⟩ := hsound.initiated _ ha
    obtain ⟨msg, hmsg, hcheck⟩ := initiateHandshake_eq_some hsock
    obtain ⟨sock', hsock', hrequested⟩ := hsound.completed _ hb
    obtain ⟨msg', hmsg', hadmits⟩ := completeHandshake_eq_some hsock'
    obtain ⟨-, hprot, rfl⟩ := Context.checkAnswer_eq_ok hcheck
    obtain rfl := Context.admits_eq_ok hadmits
    rw [hanswered msg hmsg] at hprot ⊢
    rw [hrequested msg' hmsg']
    exact ⟨hprot.symm, rfl, rfl, Extensions.union_comm _ _, fun activeBit => Extensions.contains_union _ _ activeBit,
      rfl, rfl⟩
  · rw [Parties.initiator_of_long hshort] at ha
    cases ha

/-- Two clients without extensions and filters. -/
def plainParties : Parties where
  initiator := ⟨.new, .fill 1, []⟩
  responder := ⟨.new, .fill 2, []⟩
  init := ⟨.bitTorrent, .fill 0, .v4 (Dht.octets 10 0 0 2) 6881⟩
  addr := .v4 (Dht.octets 10 0 0 1) 50000

/-- Everything is written at once and read in two portions. -/
def promptEvents : List (LinkEvent Empty) :=
  [.initiator (.flush ⟨[.ready 100], .ready (.ok ())⟩), .responder (.read (.ready 1)), .responder (.read (.ready 100)),
    .responder (.read .pending), .responder (.flush ⟨[.ready 100], .ready (.ok ())⟩), .initiator (.read (.ready 1)),
    .initiator (.read (.ready 100)), .initiator (.read .pending)]

/-- Two clients with one extension in common. -/
def extendedParties : Parties :=
  { plainParties with
    initiator := ⟨⟨[0, 0, 0, 0, 0, 16, 0, 1], rfl⟩, .fill 1, []⟩
    responder := ⟨⟨[0, 0, 0, 0, 0, 16, 0, 4], rfl⟩, .fill 2, []⟩ }

theorem handshake_agreement_extendedParties : ∃ a b,
    (extendedParties.run promptEvents).initiator = .returned (.ok (some a)) ∧
    (extendedParties.run promptEvents).responder = .returned (.ok (some b)) ∧
    a.prot = b.prot ∧ a.hash = .fill 0 ∧ b.hash = .fill 0 ∧ a.ext = b.ext ∧ a.ext.contains 43 = true ∧
    a.pid = .fill 2 ∧ b.pid = .fill 1 := by
  have ha : (extendedParties.run promptEvents).initiator = .returned (.ok (some
      ⟨.bitTorrent, ⟨[0, 0, 0, 0, 0, 16, 0, 0], rfl⟩, .fill 0, .fill 2, extendedParties.init.addr⟩)) := by
    decide +kernel
  have hb : (extendedParties.run promptEvents).responder = .returned (.ok (some
      ⟨.bitTorrent, ⟨[0, 0, 0, 0, 0, 16, 0, 0], rfl⟩, .fill 0, .fill 1, extendedParties.addr⟩)) := by
    decide +kernel
  obtain ⟨hprot, hhash, hhash', hext, hcommon, hpid, hpid'⟩ := handshake_agreement extendedParties promptEvents ha hb
  exact ⟨_, _, ha, hb, hprot, hhash, hhash', hext, (hcommon 43).trans (by decide), hpid, hpid'⟩

end BitTorrent.Handshake
