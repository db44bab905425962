import BitTorrent.HandshakeFramed
import BitTorrent.HandshakeHandler

/-! What was sent when a handshake is completed. Sending is wrapped in a timeout, and only the timeout is looked
at: a write that failed counts as sent. So a handshake is completed without its message exactly if a write fails
while bytes are left. -/

namespace BitTorrent.Handshake

open Rust List FlushPoll

open Dht (SocketAddr)

variable {ε : Type}

def SockWrite.amount : SockWrite ε → Nat
  | .ready written => written
  | .error _ => 0

/-- A write fails, or takes nothing, while some of the given number of bytes are left. -/
def Breaks (left : Nat) : List (SockWrite ε) → Prop
  | [] => False
  | write :: writes => 0 < left ∧ (¬ write.IsQuiet ∨ Breaks (left - write.amount) writes)

theorem breaks_append {left : Nat} {front back : List (SockWrite ε)} :
    Breaks left (front ++ back) ↔ Breaks left front ∨ Breaks (left - (front.map SockWrite.amount).sum) back := by
  induction front generalizing left with
  | nil => simp [Breaks]
  | cons write front ih =>
    rw [cons_append, Breaks, Breaks, ih, map_cons, sum_cons, Nat.sub_sub]
    rcases Nat.eq_zero_or_pos left with rfl | hleft
    · cases back <;> simp [Breaks]
    · simp [hleft, or_assoc]

namespace FramedHandshake

/-- The loop is left with an error if a write fails while bytes are left, and only then with bytes in the buffer
and a result. -/
theorem writeLoop_breaks (buffer sent : Bytes) (writes : List (SockWrite ε)) :
    ∃ result buffer' sent', writeLoop buffer sent writes = (result, buffer', sent') ∧
      (Breaks buffer.length writes → (∃ e, result = some (.ready (.error e))) ∧ buffer' ≠ []) ∧
      (¬ Breaks buffer.length writes → (result = none ∧ buffer' = [] ∨ result = some .pending) ∧
        buffer'.length = buffer.length - (writes.map SockWrite.amount).sum) := by
  induction writes generalizing buffer sent with
  | nil =>
    by_cases hempty : buffer = []
    · exact ⟨_, _, _, if_pos hempty, nofun, fun _ => ⟨.inl ⟨rfl, hempty⟩, rfl⟩⟩
    · exact ⟨_, _, _, if_neg hempty, nofun, fun _ => ⟨.inr rfl, rfl⟩⟩
  | cons write writes ih =>
    by_cases hempty : buffer = []
    · subst hempty
      refine ⟨_, _, _, writeLoop_nil _ _, fun h => absurd h.1 (Nat.lt_irrefl 0), fun _ => ⟨.inl ⟨rfl, rfl⟩, ?_⟩⟩
      exact (Nat.zero_sub _).symm
    · have hpos := length_pos_iff.mpr hempty
      have hfails : ¬ write.IsQuiet → Breaks buffer.length (write :: writes) := fun h => ⟨hpos, .inl h⟩
      rcases write with (_ | written) | e
      · exact ⟨_, _, _, if_neg hempty, fun _ => ⟨⟨_, rfl⟩, hempty⟩, fun h => absurd (hfails nofun) h⟩
      · obtain ⟨result, buffer', sent', hloop, hbreaks, hgoes⟩ :=
          ih (buffer.drop (written + 1)) (sent ++ buffer.take (written + 1))
        have hiff : Breaks buffer.length (.ready (written + 1) :: writes) ↔
            Breaks (buffer.drop (written + 1)).length writes := by
          rw [Breaks, length_drop]
          simp [hpos, SockWrite.IsQuiet, SockWrite.amount]
        refine ⟨result, buffer', sent', by rw [writeLoop_ready hempty, hloop], ?_, ?_⟩
        · rwa [hiff]
        · rw [hiff, map_cons, sum_cons, SockWrite.amount, ← Nat.sub_sub, ← length_drop]
          exact hgoes
      · exact ⟨_, _, _, if_neg hempty, fun _ => ⟨⟨_, rfl⟩, hempty⟩, fun h => absurd (hfails id) h⟩

theorem flushAll_breaks (s : FramedHandshake) (sent : Bytes) (polls : List (FlushPoll ε)) :
    ∃ result s' sent', s.flushAll sent polls = (result, s', sent') ∧
      sent' ++ s'.writeBuffer = sent ++ s.writeBuffer ∧
      (Breaks s.writeBuffer.length (polls.flatMap writes) → result ≠ .pending ∧ s'.writeBuffer ≠ []) ∧
      (¬ Breaks s.writeBuffer.length (polls.flatMap writes) → result = .pending ∨ s'.writeBuffer = []) := by
  induction polls generalizing s sent with
  | nil => exact ⟨.pending, s, sent, rfl, rfl, False.elim, fun _ => .inl rfl⟩
  | cons poll polls ih =>
    obtain ⟨ended, buffer, sent₁, hloop, hbreaks, hgoes⟩ := writeLoop_breaks s.writeBuffer sent poll.writes
    have hall := writeLoop_append hloop
    obtain ⟨result, s', sent', hrest, hsame, hbreaks', hgoes'⟩ := ih { s with writeBuffer := buffer } sent₁
    rw [flatMap_cons, breaks_append, flushAll, pollFlush, hloop]
    by_cases hfails : Breaks s.writeBuffer.length poll.writes
    · obtain ⟨⟨e, rfl⟩, hne⟩ := hbreaks hfails
      exact ⟨_, _, _, rfl, hall, fun _ => ⟨fun h => (by cases h), hne⟩, fun h => absurd (.inl hfails) h⟩
    · obtain ⟨hended, hlength⟩ := hgoes hfails
      rw [← hlength, or_iff_right hfails]
      rcases hended with ⟨rfl, rfl⟩ | rfl
      · have hnever : ¬ Breaks 0 (polls.flatMap writes) := by
          cases polls.flatMap writes <;> simp [Breaks]
        rcases poll.flush with ⟨⟨⟩ | e⟩ | _ <;> simp only
        all_goals first
          | exact ⟨_, _, _, hrest, hsame.trans hall, hbreaks', hgoes'⟩
          | exact ⟨_, _, _, rfl, hall, fun h => absurd h hnever, fun _ => .inr rfl⟩
      · exact ⟨_, _, _, hrest, hsame.trans hall, hbreaks', hgoes'⟩

end FramedHandshake

/-! ### Handshakes over a socket -/

/-- Our message is sent, polled until the timeout: the result and what the socket has taken. -/
def sendMessage (m : HandshakeMessage) (polls : List (FlushPoll ε)) :
    Poll (Except (FrameError ε) Unit) × Bytes :=
  let (result, _, sent) := (FramedHandshake.new.startSend m).flushAll [] polls
  (result, sent)

/-- Only the timeout of `send` is looked at. -/
def isTimedOut : Poll (Except (FrameError ε) Unit) → Bool
  | .pending => true
  | .ready _ => false

/-- Our message is sent, and the handshake goes on with whether this took too long: the result, and what the socket
has taken. -/
def sendThen (own : Run HandshakeError HandshakeMessage) (polls : List (FlushPoll ε))
    (next : Bool → Run HandshakeError (Option CompleteMessage)) : Run HandshakeError (Option CompleteMessage) × Bytes :=
  match own with
  | .error e => (.error e, [])
  | .ok m =>
    let (result, sent) := sendMessage m polls
    (next (isTimedOut result), sent)

/-- `initiate_handshake` over a socket. -/
def initiateHandshakeOver (ctx : Context) (polls : List (FlushPoll ε)) (received : Option ReadMessage)
    (init : InitiateMessage) : Run HandshakeError (Option CompleteMessage) × Bytes :=
  sendThen (ctx.request init) polls fun sendTimedOut => initiateHandshake ctx ⟨sendTimedOut, received⟩ init

/-- The answer to a message, if it is admitted. -/
def Context.reply (ctx : Context) (addr : SocketAddr) (msg : ReadMessage) : Run HandshakeError HandshakeMessage := do
  let complete ← ctx.admits addr msg.1
  ctx.answer complete

/-- `complete_handshake` over a socket. -/
def completeHandshakeOver (ctx : Context) (polls : List (FlushPoll ε)) (received : Option ReadMessage)
    (addr : SocketAddr) : Run HandshakeError (Option CompleteMessage) × Bytes :=
  match received with
  | none => (.ok none, [])
  | some msg =>
    sendThen (ctx.reply addr msg) polls fun sendTimedOut => completeHandshake ctx ⟨sendTimedOut, received⟩ addr

theorem sendMessage_breaks (m : HandshakeMessage) (hm : m.IsShort) (polls : List (FlushPoll ε)) :
    ∃ result sent, sendMessage m polls = (result, sent) ∧
      (Breaks m.writeLen (polls.flatMap writes) → isTimedOut result = false ∧ sent ≠ m.writeBytesSync) ∧
      (¬ Breaks m.writeLen (polls.flatMap writes) → isTimedOut result = false → sent = m.writeBytesSync) := by
  obtain ⟨result, s, sent, hflush, hall, hbreaks, hgoes⟩ :=
    FramedHandshake.flushAll_breaks (FramedHandshake.new.startSend m) [] polls
  have hbuffer : (FramedHandshake.new.startSend m).writeBuffer = m.writeBytesSync := rfl
  rw [hbuffer, hm.length_writeBytesSync] at hbreaks hgoes
  rw [hbuffer, nil_append] at hall
  refine ⟨result, sent, by rw [sendMessage, hflush], fun h => ?_, fun h hdone => ?_⟩
  · obtain ⟨hresult, hne⟩ := hbreaks h
    refine ⟨by cases result <;> trivial, fun hsent => hne ?_⟩
    rwa [hsent, append_right_eq_self] at hall
  · rcases hgoes h with rfl | hempty
    · cases hdone
    · rwa [hempty, append_nil] at hall

/-- A completed handshake has sent all of its own message. -/
def SentWhole (own : Run HandshakeError HandshakeMessage)
    (ended : Run HandshakeError (Option CompleteMessage) × Bytes) : Prop :=
  ∀ complete, ended.1 = .ok (some complete) →
    ∃ m, own = .ok m ∧ ended.2 = m.writeBytesSync ∧ ended.2.length = m.writeLen

theorem sentWhole_sendThen_iff {own : Run HandshakeError HandshakeMessage} {polls : List (FlushPoll ε)}
    {next : Bool → Run HandshakeError (Option CompleteMessage)} {q : Prop}
    (hshort : ∀ m, own = .ok m → m.IsShort) (htimedOut : ∀ complete, next true ≠ .ok (some complete))
    (hnext : ∀ m, own = .ok m → ((∃ complete, next false = .ok (some complete)) ↔ q)) :
    SentWhole own (sendThen own polls next) ↔
      ∀ m, own = .ok m → q → ¬ Breaks m.writeLen (polls.flatMap writes) := by
  cases own with
  | error e => exact iff_of_true nofun nofun
  | ok m =>
    obtain ⟨result, sent, hsend, hbreaks, hgoes⟩ := sendMessage_breaks m (hshort m rfl) polls
    rw [sendThen, hsend]
    constructor
    · rintro h _ ⟨⟩ hq hfails
      obtain ⟨hdone, hne⟩ := hbreaks hfails
      obtain ⟨complete, hcomplete⟩ := (hnext m rfl).mpr hq
      obtain ⟨_, ⟨⟩, hsent, -⟩ := h complete (by rw [← hcomplete, ← hdone])
      exact hne hsent
    · intro h complete hcomplete
      change next (isTimedOut result) = _ at hcomplete
      cases hdone : isTimedOut result with
      | true =>
        rw [hdone] at hcomplete
        exact absurd hcomplete (htimedOut complete)
      | false =>
        rw [hdone] at hcomplete
        have hsent := hgoes (h m rfl ((hnext m rfl).mp ⟨complete, hcomplete⟩)) hdone
        exact ⟨m, rfl, hsent, hsent ▸ (hshort m rfl).length_writeBytesSync⟩

theorem initiateHandshake_completes_iff {ctx : Context} {init : InitiateMessage} {m : HandshakeMessage}
    (hown : (ctx.request init : Run HandshakeError _) = .ok m) (received : Option ReadMessage) :
    (∃ complete, initiateHandshake ctx ⟨false, received⟩ init = .ok (some complete)) ↔
      ∃ msg complete, received = some msg ∧ ctx.checkAnswer init msg.1 = .ok complete := by
  constructor
  · rintro ⟨complete, hcomplete⟩
    obtain ⟨msg, hreceived, hcheck⟩ := initiateHandshake_eq_some hcomplete
    exact ⟨msg, complete, hreceived, hcheck⟩
  · rintro ⟨msg, complete, rfl, hcheck⟩
    refine ⟨complete, ?_⟩
    simp only [initiateHandshake, hown, hcheck, ok_bind]
    rfl

/-- A handshake that would be completed otherwise has sent its message exactly if no write fails, or takes
nothing, while bytes of the message are left. -/
theorem completed_sentWhole_iff (ctx : Context) (polls : List (FlushPoll ε)) (received : Option ReadMessage)
    (init : InitiateMessage) (addr : SocketAddr) :
    (SentWhole (ctx.request init) (initiateHandshakeOver ctx polls received init) ↔
      ∀ m, (ctx.request init : Run HandshakeError _) = .ok m →
        (∃ msg complete, received = some msg ∧ ctx.checkAnswer init msg.1 = .ok complete) →
        ¬ Breaks m.writeLen (polls.flatMap writes)) ∧
    ∀ msg, (SentWhole (ctx.reply addr msg) (completeHandshakeOver ctx polls (some msg) addr) ↔
      ∀ m, ctx.reply addr msg = .ok m → ¬ Breaks m.writeLen (polls.flatMap writes)) := by
  constructor
  · refine sentWhole_sendThen_iff (fun m hown => (HandshakeMessage.isShort_of_fromParts hown).2)
      (fun complete hcomplete => ?_) (fun m hown => initiateHandshake_completes_iff hown received)
    obtain ⟨_, -, hnone⟩ := bind_eq_ok.mp hcomplete
    cases hnone
  · intro msg
    have hreply : ∀ m, ctx.reply addr msg = .ok m → m.IsShort ∧ ∃ complete, ctx.admits addr msg.1 = .ok complete := by
      intro m hown
      obtain ⟨complete, hadmits, hanswer⟩ := bind_eq_ok.mp hown
      rw [answer_of_admits hadmits] at hanswer
      cases hanswer
      exact ⟨msg.2, complete, hadmits⟩
    refine (sentWhole_sendThen_iff (q := True) (fun m hown => (hreply m hown).1)
      (fun complete hcomplete => ?_) (fun m hown => ?_)).trans (by simp only [true_imp_iff])
    · obtain ⟨complete', hadmits, -⟩ := bind_eq_ok.mp hcomplete
      rw [completeHandshake_of_admits hadmits] at hcomplete
      cases hcomplete
    · obtain ⟨-, complete, hadmits⟩ := hreply m hown
      exact iff_true_intro ⟨complete, completeHandshake_of_admits hadmits false⟩

/-- The socket takes nothing of our answer, and the handshake is completed. -/
theorem completed_unsent :
    let ctx : Context := ⟨.new, ⟨replicate 20 1, rfl⟩, []⟩
    let msg : ReadMessage := ⟨FramedHandshake.spelledOut, by decide⟩
    let addr : SocketAddr := .v4 #v[10, 0, 0, 1] 6881
    let ended := completeHandshakeOver ctx [(⟨[.ready 0], .pending⟩ : FlushPoll Empty)] (some msg) addr
    (∃ complete, ended.1 = .ok (some complete)) ∧ ended.2 = [] := by
  exact ⟨⟨_, rfl⟩, rfl⟩

end BitTorrent.Handshake
