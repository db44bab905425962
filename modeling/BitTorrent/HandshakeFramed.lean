import BitTorrent.HandshakeMessage
import BitTorrent.RustChannel
import BitTorrent.Segments

/-! A handshake over a socket. The writer keeps what the socket has not taken yet. The reader reads one byte,
from it the length of the message, then the rest of the message and nothing behind it, and parses it when it is
complete; whatever the socket hands over at a time, the one message comes out. -/

namespace BitTorrent.Handshake

open Rust Segments List HandshakeMessage Nat

/-! ### The socket -/

/-- The answer of a socket to `poll_read`: at most so many bytes of those that are there. -/
inductive SockRead (ε : Type) where
  | pending
  | ready (len : Nat)
  | error (e : ε)

/-- The answer of a socket to `poll_write`, other than that it is not ready: it takes at most so many of the
bytes it is given. -/
inductive SockWrite (ε : Type) where
  | ready (written : Nat)
  | error (e : ε)

/-- What a socket does in one call of `poll_flush`: the writes it takes until it is not ready, and its own
flush. -/
structure FlushPoll (ε : Type) where
  writes : List (SockWrite ε)
  flush : Poll (Except ε Unit)

inductive FrameError (ε : Type) where
  | socket (e : ε)
  | writeZero
  | invalidData (e : Nom.Err)

inductive HandshakeState where
  | waiting
  | reading
  | ready
  | finished
  | errored
  deriving DecidableEq

structure FramedHandshake where
  writeBuffer : Bytes
  readBuffer : Bytes
  readPos : Nat
  state : HandshakeState
  deriving DecidableEq

namespace FramedHandshake

def new : FramedHandshake := ⟨[], [], 0, .waiting⟩

variable {ε : Type}

/-! ### Writing -/

def startSend (s : FramedHandshake) (item : HandshakeMessage) : FramedHandshake :=
  { s with writeBuffer := s.writeBuffer ++ item.writeBytesSync }

/-- The loop of `poll_flush`, with what the socket has taken so far. It ends with a result, or with nothing
left to write. -/
def writeLoop (buffer sent : Bytes) (writes : List (SockWrite ε)) :
    Option (Poll (Except (FrameError ε) Unit)) × Bytes × Bytes :=
  if buffer = [] then (none, buffer, sent)
  else
    match writes with
    | [] => (some .pending, buffer, sent)
    | .ready 0 :: _ => (some (.ready (.error .writeZero)), buffer, sent)
    | .ready written :: writes => writeLoop (buffer.drop written) (sent ++ buffer.take written) writes
    | .error e :: _ => (some (.ready (.error (.socket e))), buffer, sent)

def pollFlush (s : FramedHandshake) (sent : Bytes) (poll : FlushPoll ε) :
    Poll (Except (FrameError ε) Unit) × FramedHandshake × Bytes :=
  let (result, buffer, sent) := writeLoop s.writeBuffer sent poll.writes
  let s := { s with writeBuffer := buffer }
  match result with
  | some result => (result, s, sent)
  | none =>
    match poll.flush with
    | .pending => (.pending, s, sent)
    | .ready (.ok ()) => (.ready (.ok ()), s, sent)
    | .ready (.error e) => (.ready (.error (.socket e)), s, sent)

/-- `send` after `start_send`, polled until it is done. -/
def flushAll (s : FramedHandshake) (sent : Bytes) :
    List (FlushPoll ε) → Poll (Except (FrameError ε) Unit) × FramedHandshake × Bytes
  | [] => (.pending, s, sent)
  | poll :: polls =>
    match s.pollFlush sent poll with
    | (.pending, s, sent) => s.flushAll sent polls
    | r => r

/-! ### Reading -/

/-- What `poll_next` returns. -/
abbrev Polled (ε : Type) := Poll (Option (Except (FrameError ε) HandshakeMessage))

def pollWaiting (s : FramedHandshake) (incoming : Bytes) (poll : SockRead ε) :
    Run Empty (Polled ε × FramedHandshake × Bytes) :=
  if s.readBuffer = [] ∧ s.readPos = 0 then
    match poll with
    | .pending => .ok (.pending, { s with readBuffer := [] }, incoming)
    | .error e => .ok (.ready (some (.error (.socket e))), { s with readBuffer := [0], state := .errored }, incoming)
    | .ready len =>
      match incoming.take (min len 1) with
      | [] => .ok (.pending, { s with readBuffer := [] }, incoming)
      | byte :: _ =>
        let length := writeLenWithProtocolLen byte
        .ok (.pending,
          { s with readBuffer := byte :: replicate (length - 1) 0, readPos := 1, state := .reading },
          incoming.drop 1)
  else .error .panic

def pollReading (s : FramedHandshake) (incoming : Bytes) (poll : SockRead ε) :
    Run Empty (Polled ε × FramedHandshake × Bytes) :=
  let length := s.readBuffer.length
  if s.readBuffer ≠ [] ∧ s.readPos ≠ 0 ∧ s.readPos < length then
    match poll with
    | .pending => .ok (.pending, s, incoming)
    | .error e => .ok (.ready (some (.error (.socket e))), { s with state := .errored }, incoming)
    | .ready len =>
      let added := incoming.take (min len (length - s.readPos))
      let filled := s.readPos + added.length
      if filled ≤ length ∧ s.readPos ≤ filled then
        .ok (.pending,
          { s with readBuffer := overwrite s.readBuffer s.readPos added, readPos := filled
                   state := if filled = length then .ready else .reading },
          incoming.drop added.length)
      else .error .panic
  else .error .panic

def pollReady (s : FramedHandshake) (incoming : Bytes) : Run Empty (Polled ε × FramedHandshake × Bytes) :=
  if s.readBuffer ≠ [] ∧ s.readPos = s.readBuffer.length then do
    let buf ← Buffer.alloc s.readBuffer
    match ← result (fromBytes buf) with
    | .ok message => .ok (.ready (some (.ok message)), { s with readBuffer := [], state := .finished }, incoming)
    | .error e =>
      .ok (.ready (some (.error (.invalidData e))), { s with readBuffer := [], state := .errored }, incoming)
  else .error .panic

/-- One poll, with the bytes that wait in the socket before and after. -/
def pollNext (s : FramedHandshake) (incoming : Bytes) (poll : SockRead ε) :
    Run Empty (Polled ε × FramedHandshake × Bytes) :=
  match s.state with
  | .waiting => s.pollWaiting incoming poll
  | .reading => s.pollReading incoming poll
  | .ready => s.pollReady incoming
  | .finished => .ok (.ready none, s, incoming)
  | .errored => .ok (.ready none, s, incoming)

/-- All that is polled, with what is left in the socket. -/
def pollAll (s : FramedHandshake) (incoming : Bytes) :
    List (SockRead ε) → Run Empty (List (Polled ε) × FramedHandshake × Bytes)
  | [] => .ok ([], s, incoming)
  | poll :: polls => do
    let (out, s, incoming) ← s.pollNext incoming poll
    let (outs, s, incoming) ← s.pollAll incoming polls
    .ok (out :: outs, s, incoming)

end FramedHandshake

/-! ### Sockets that do not fail -/

section

variable {ε : Type}

def SockRead.IsQuiet : SockRead ε → Prop
  | .error _ => False
  | _ => True

/-- The socket hands something over if there is something. -/
def SockRead.delivers : SockRead ε → Bool
  | .ready len => 0 < len
  | _ => false

def SockWrite.IsQuiet : SockWrite ε → Prop
  | .ready written => 0 < written
  | .error _ => False

structure FlushPoll.IsQuiet (poll : FlushPoll ε) : Prop where
  writes : ∀ write ∈ poll.writes, write.IsQuiet
  flush : poll.flush = .pending ∨ poll.flush = .ready (.ok ())

end

namespace FramedHandshake

variable {ε : Type}

/-! ### What is written -/

theorem writeLoop_nil (sent : Bytes) (writes : List (SockWrite ε)) :
    writeLoop [] sent writes = (none, [], sent) := by
  unfold writeLoop
  exact if_pos rfl

theorem writeLoop_ready {buffer : Bytes} (hbuffer : buffer ≠ []) (sent : Bytes) (written : Nat)
    (writes : List (SockWrite ε)) : writeLoop buffer sent (.ready (written + 1) :: writes) =
      writeLoop (buffer.drop (written + 1)) (sent ++ buffer.take (written + 1)) writes := by
  rw [writeLoop, if_neg hbuffer]
  exact succ_ne_zero written

/-- Nothing is lost or changed between the buffer and the socket. -/
theorem writeLoop_append {buffer sent buffer' sent' : Bytes} {writes : List (SockWrite ε)}
    {result : Option (Poll (Except (FrameError ε) Unit))}
    (h : writeLoop buffer sent writes = (result, buffer', sent')) : sent' ++ buffer' = sent ++ buffer := by
  induction writes generalizing buffer sent with
  | nil =>
    unfold writeLoop at h
    split at h <;> cases h <;> rfl
  | cons write writes ih =>
    by_cases hempty : buffer = []
    · subst hempty
      rw [writeLoop_nil] at h
      cases h
      rfl
    · rcases write with (_ | written) | e
      · unfold writeLoop at h
        rw [if_neg hempty] at h
        cases h
        rfl
      · rw [writeLoop_ready hempty] at h
        rw [ih h, append_assoc, take_append_drop]
      · unfold writeLoop at h
        rw [if_neg hempty] at h
        cases h
        rfl

theorem pollFlush_append {s s' : FramedHandshake} {sent sent' : Bytes} {poll : FlushPoll ε}
    {result : Poll (Except (FrameError ε) Unit)} (h : s.pollFlush sent poll = (result, s', sent')) :
    sent' ++ s'.writeBuffer = sent ++ s.writeBuffer ∧ s' = { s with writeBuffer := s'.writeBuffer } := by
  obtain ⟨ended, buffer, sent₁, hloop⟩ : ∃ ended buffer sent₁,
      writeLoop s.writeBuffer sent poll.writes = (ended, buffer, sent₁) := ⟨_, _, _, rfl⟩
  have hall := writeLoop_append hloop
  rw [pollFlush, hloop] at h
  simp only at h
  split at h
  · cases h
    exact ⟨hall, rfl⟩
  · split at h <;> cases h <;> exact ⟨hall, rfl⟩

/-- Every write makes the buffer shorter. -/
theorem writeLoop_spec {buffer sent : Bytes} {writes : List (SockWrite ε)} (h : ∀ write ∈ writes, write.IsQuiet) :
    ∃ result buffer' sent', writeLoop buffer sent writes = (result, buffer', sent') ∧
      buffer'.length ≤ buffer.length - writes.length ∧
      (result = none ∧ buffer' = [] ∨ result = some .pending) := by
  induction writes generalizing buffer sent with
  | nil =>
    by_cases hempty : buffer = []
    · exact ⟨_, _, _, if_pos hempty, le_refl _, .inl ⟨rfl, hempty⟩⟩
    · exact ⟨_, _, _, if_neg hempty, le_refl _, .inr rfl⟩
  | cons write writes ih =>
    obtain ⟨hwrite, hwrites⟩ := forall_mem_cons.mp h
    by_cases hempty : buffer = []
    · subst hempty
      exact ⟨none, [], sent, writeLoop_nil _ _, zero_le _, .inl ⟨rfl, rfl⟩⟩
    · rcases write with (_ | written) | e
      · cases hwrite
      · obtain ⟨result, buffer', sent', hloop, hleft, hresult⟩ :=
          @ih (buffer.drop (written + 1)) (sent ++ buffer.take (written + 1)) hwrites
        refine ⟨result, buffer', sent', ?_, ?_, hresult⟩
        · rw [writeLoop_ready hempty, hloop]
        · rw [length_drop] at hleft
          rw [length_cons]
          omega
      · cases hwrite

theorem pollFlush_spec {s : FramedHandshake} {sent : Bytes} {poll : FlushPoll ε} (h : poll.IsQuiet) :
    ∃ result s' sent', s.pollFlush sent poll = (result, s', sent') ∧
      s'.writeBuffer.length ≤ s.writeBuffer.length - poll.writes.length ∧
      (result = .pending ∨ result = .ready (.ok ()) ∧ s'.writeBuffer = []) := by
  obtain ⟨result, buffer, sent', hloop, hleft, hresult⟩ := @writeLoop_spec ε s.writeBuffer sent poll.writes h.writes
  rw [pollFlush, hloop]
  rcases hresult with ⟨rfl, hempty⟩ | rfl
  · rcases h.flush with hflush | hflush
    · exact ⟨.pending, { s with writeBuffer := buffer }, sent', by simp only [hflush], hleft, .inl rfl⟩
    · exact ⟨.ready (.ok ()), { s with writeBuffer := buffer }, sent', by simp only [hflush], hleft,
        .inr ⟨rfl, hempty⟩⟩
  · exact ⟨.pending, { s with writeBuffer := buffer }, sent', rfl, hleft, .inl rfl⟩

/-- All writes of a call of `send`. -/
def countWrites (polls : List (FlushPoll ε)) : Nat := (polls.map fun poll => poll.writes.length).sum

theorem flushAll_spec {s : FramedHandshake} {sent : Bytes} {polls : List (FlushPoll ε)}
    (h : ∀ poll ∈ polls, poll.IsQuiet) : ∃ result s' sent', s.flushAll sent polls = (result, s', sent') ∧
      sent' ++ s'.writeBuffer = sent ++ s.writeBuffer ∧
      s'.writeBuffer.length ≤ s.writeBuffer.length - countWrites polls ∧
      (result = .pending ∨ result = .ready (.ok ()) ∧ s'.writeBuffer = []) := by
  induction polls generalizing s sent with
  | nil => exact ⟨.pending, s, sent, rfl, rfl, le_refl _, .inl rfl⟩
  | cons poll polls ih =>
    obtain ⟨hpoll, hpolls⟩ := forall_mem_cons.mp h
    obtain ⟨result, s₁, sent₁, hflush, hleft, hresult⟩ := @pollFlush_spec ε s sent poll hpoll
    have hall := (pollFlush_append hflush).1
    rcases hresult with rfl | ⟨rfl, hempty⟩
    · obtain ⟨result, s', sent', hrest, hall', hleft', hresult⟩ := @ih s₁ sent₁ hpolls
      refine ⟨result, s', sent', ?_, hall'.trans hall, ?_, hresult⟩
      · rw [flushAll, hflush]
        exact hrest
      · have hcount : countWrites (poll :: polls) = poll.writes.length + countWrites polls := rfl
        omega
    · refine ⟨.ready (.ok ()), s₁, sent₁, ?_, hall, ?_, .inr ⟨rfl, hempty⟩⟩
      · rw [flushAll, hflush]
      · rw [hempty]
        exact zero_le _

/-! ### What is read -/

/-- The reader has `k` bytes of the message `w`. -/
def Reads (w : Bytes) (k : Nat) (s : FramedHandshake) : Prop :=
  match s.state with
  | .waiting => k = 0 ∧ s.readBuffer = [] ∧ s.readPos = 0
  | .reading => 0 < k ∧ k < w.length ∧ s.readPos = k ∧ s.readBuffer.length = w.length ∧ s.readBuffer.take k = w.take k
  | .ready => k = w.length ∧ s.readPos = k ∧ s.readBuffer = w
  | .finished => k = w.length
  | .errored => k ≤ w.length

/-- What a poll returns and where the reader then is. -/
inductive Advances (m : HandshakeMessage) (s s' : FramedHandshake) (poll : SockRead ε) : Polled ε → Prop where
  | wait (before : s.state = .waiting ∨ s.state = .reading)
      (after : s'.state = .waiting ∨ s'.state = .reading ∨ s'.state = .ready) : Advances m s s' poll .pending
  | failed {e : ε} (before : s.state = .waiting ∨ s.state = .reading) (error : poll = .error e)
      (after : s'.state = .errored) : Advances m s s' poll (.ready (some (.error (.socket e))))
  | message (before : s.state = .ready) (after : s'.state = .finished) :
      Advances m s s' poll (.ready (some (.ok m.asRead)))
  | done (before : s.state = .finished ∨ s.state = .errored) (after : s' = s) : Advances m s s' poll (.ready none)

section

variable {m : HandshakeMessage} {k : Nat} {s : FramedHandshake} {incoming future rest : Bytes}

theorem take_incoming {w : Bytes} (hin : incoming ++ future = w.drop k ++ rest) {j : Nat} (hj : j ≤ w.length - k) :
    incoming.take j = (w.drop k).take (incoming.take j).length := by
  have hlength : (incoming.take j).length ≤ (w.drop k).length := by
    rw [length_drop]
    exact (length_take_le _ _).trans hj
  calc incoming.take j = (incoming ++ future).take (incoming.take j).length := by
        rw [length_take, take_append_of_le_length (min_le_right _ _), take_eq_take_min]
    _ = (w.drop k).take (incoming.take j).length := by
        rw [hin, take_append_of_le_length hlength]

theorem reads_waiting {w : Bytes} (hstate : s.state = .waiting) (hbuffer : s.readBuffer = []) (hpos : s.readPos = 0) :
    s.Reads w 0 := by
  rw [Reads, hstate]
  exact ⟨rfl, hbuffer, hpos⟩

theorem writeLenWithProtocolLen_head (m : HandshakeMessage) :
    writeLenWithProtocolLen (UInt8.ofNat m.prot.written.1) = m.writeLen := by
  rw [writeLen, m.prot.written_fst, m.prot.writeLen_eq]

theorem one_lt_writeLen (m : HandshakeMessage) : 1 < m.writeLen := by
  rw [writeLen, writeLenWithProtocolLen, numExtensionBytes]
  omega

/-- What a poll does with the bytes that wait, of which it takes `n`. -/
def Polls (m : HandshakeMessage) (k : Nat) (s : FramedHandshake) (incoming : Bytes) (poll : SockRead ε)
    (polled : Run Empty (Polled ε × FramedHandshake × Bytes)) : Prop :=
  ∃ out s' n, polled = .ok (out, s', incoming.drop n) ∧ n ≤ incoming.length ∧
    s'.Reads m.writeBytesSync (k + n) ∧ s'.writeBuffer = s.writeBuffer ∧ Advances m s s' poll out ∧
    (s.state = .waiting ∨ s.state = .reading → poll.delivers = true → incoming ≠ [] → 0 < n)

theorem pollWaiting_spec (hm : m.IsShort) (hstate : s.state = .waiting) (h : s.Reads m.writeBytesSync k)
    (hin : incoming ++ future = m.writeBytesSync.drop k ++ rest) (poll : SockRead ε) :
    Polls m k s incoming poll (s.pollWaiting incoming poll) := by
  rw [Reads, hstate] at h
  obtain ⟨rfl, hbuffer, hpos⟩ := h
  unfold pollWaiting
  rw [if_pos ⟨hbuffer, hpos⟩]
  cases poll with
  | pending =>
    refine ⟨.pending, { s with readBuffer := [] }, 0, rfl, zero_le _, reads_waiting hstate rfl hpos, rfl, ?_, nofun⟩
    exact .wait (.inl hstate) (.inl hstate)
  | error e =>
    refine ⟨_, { s with readBuffer := [0], state := .errored }, 0, rfl, zero_le _, ?_, rfl, ?_, nofun⟩
    · exact zero_le m.writeBytesSync.length
    · exact .failed (.inl hstate) rfl rfl
  | ready len =>
    cases incoming with
    | nil =>
      refine ⟨.pending, { s with readBuffer := [] }, 0, ?_, zero_le _, reads_waiting hstate rfl hpos, rfl, ?_, ?_⟩
      · simp only [take_nil, drop_nil]
      · exact .wait (.inl hstate) (.inl hstate)
      · exact fun _ _ hne => absurd rfl hne
    | cons byte incoming =>
      rcases Nat.eq_zero_or_pos len with rfl | hlen
      · refine ⟨.pending, { s with readBuffer := [] }, 0, rfl, Nat.zero_le _, reads_waiting hstate rfl hpos, rfl, ?_, ?_⟩
        · exact .wait (.inl hstate) (.inl hstate)
        · exact fun _ hdelivers => (by cases hdelivers)
      · have hbyte : byte = UInt8.ofNat m.prot.written.1 := (cons.inj hin).1
        have hlength : writeLenWithProtocolLen byte = m.writeBytesSync.length := by
          rw [hbyte, writeLenWithProtocolLen_head, hm.length_writeBytesSync]
        have hlt : 1 < m.writeBytesSync.length := by
          rw [hm.length_writeBytesSync]
          exact one_lt_writeLen m
        refine ⟨.pending, { s with readBuffer := byte :: replicate (writeLenWithProtocolLen byte - 1) 0
                                   readPos := 1, state := .reading }, 1, ?_, ?_, ?_, rfl, ?_, ?_⟩
        · have hmin : min len 1 = 1 := min_eq_right hlen
          simp only [hmin]
          rfl
        · exact le_add_left 1 _
        · refine ⟨one_pos, hlt, rfl, ?_, ?_⟩
          · rw [length_cons, length_replicate, hlength]
            omega
          · rw [hbyte]
            rfl
        · exact .wait (.inl hstate) (.inr (.inl rfl))
        · exact fun _ _ _ => one_pos

theorem pollReading_spec (hstate : s.state = .reading) (h : s.Reads m.writeBytesSync k)
    (hin : incoming ++ future = m.writeBytesSync.drop k ++ rest) (poll : SockRead ε) :
    Polls m k s incoming poll (s.pollReading incoming poll) := by
  have hreads := h
  rw [Reads, hstate] at h
  obtain ⟨hk, hlt, hpos, hlength, htake⟩ := h
  have hne : s.readBuffer ≠ [] := by
    intro hnil
    rw [hnil, length_nil] at hlength
    omega
  unfold pollReading
  rw [if_pos ⟨hne, by omega, by omega⟩]
  cases poll with
  | pending =>
    refine ⟨.pending, s, 0, rfl, zero_le _, hreads, rfl, ?_, nofun⟩
    exact .wait (.inr hstate) (.inr (.inl hstate))
  | error e =>
    refine ⟨_, { s with state := .errored }, 0, rfl, zero_le _, ?_, rfl, ?_, nofun⟩
    · exact hlt.le
    · exact .failed (.inr hstate) rfl rfl
  | ready len =>
    have hadded := take_incoming hin (j := min len (s.readBuffer.length - s.readPos)) (by omega)
    have hmost := length_take_le (min len (s.readBuffer.length - s.readPos)) incoming
    have hthere : (incoming.take (min len (s.readBuffer.length - s.readPos))).length ≤ incoming.length :=
      length_take_le' _ _
    have hsome : 0 < len → incoming ≠ [] → 0 < (incoming.take (min len (s.readBuffer.length - s.readPos))).length := by
      intro hlen hincoming
      rw [length_take]
      have := length_pos_iff.mpr hincoming
      omega
    dsimp only
    generalize incoming.take (min len (s.readBuffer.length - s.readPos)) = added at hadded hmost hthere hsome ⊢
    have hoverwrite : (overwrite s.readBuffer s.readPos added).length = m.writeBytesSync.length := by
      rw [length_overwrite (by omega), hlength]
    have hread : (overwrite s.readBuffer s.readPos added).take (k + added.length) =
        m.writeBytesSync.take (k + added.length) := by
      rw [overwrite, hpos, htake, take_append_of_le_length, take_of_length_le, take_add]
      · rw [← hadded]
      · simp only [length_append, length_take]
        omega
      · simp only [length_append, length_take]
        omega
    refine ⟨.pending, { s with readBuffer := overwrite s.readBuffer s.readPos added
                               readPos := s.readPos + added.length
                               state := if s.readPos + added.length = s.readBuffer.length then .ready else .reading },
      added.length, ?_, hthere, ?_, rfl, ?_, ?_⟩
    · have hfilled : s.readPos + added.length ≤ s.readBuffer.length ∧ s.readPos ≤ s.readPos + added.length := by omega
      rw [if_pos hfilled]
    · by_cases hfilled : s.readPos + added.length = s.readBuffer.length
      · rw [if_pos hfilled]
        refine ⟨by omega, by rw [hpos], ?_⟩
        have hall : k + added.length = m.writeBytesSync.length := by omega
        rwa [hall, take_length, take_of_length_le hoverwrite.le] at hread
      · rw [if_neg hfilled]
        exact ⟨by omega, by omega, by rw [hpos], hoverwrite, hread⟩
    · refine .wait (.inr hstate) (.inr ?_)
      by_cases hfilled : s.readPos + added.length = s.readBuffer.length
      · exact .inr (if_pos hfilled)
      · exact .inl (if_neg hfilled)
    · intro _ hdelivers hincoming
      exact hsome (of_decide_eq_true hdelivers) hincoming

theorem pollReady_spec (hm : m.IsShort) (hstate : s.state = .ready) (h : s.Reads m.writeBytesSync k)
    (poll : SockRead ε) : Polls m k s incoming poll (s.pollReady incoming) := by
  rw [Reads, hstate] at h
  obtain ⟨rfl, hpos, hbuffer⟩ := h
  have hlength := hm.length_writeBytesSync
  have hfits : s.readBuffer.length ≤ isizeMax := by
    rw [hbuffer, hlength, writeLen, writeLenWithProtocolLen]
    have := (UInt8.ofNat m.prot.writeLen).toNat_lt
    simp only [numExtensionBytes, shaHashLen, isizeMax]
    omega
  have hne : s.readBuffer ≠ [] := by
    intro hnil
    have hlt := one_lt_writeLen m
    rw [← hlength, ← hbuffer, hnil, length_nil] at hlt
    cases hlt
  have hparsed : fromBytes ⟨s.readBuffer, hfits⟩ = .ok m.asRead :=
    hm.fromBytes_of_writeBytesSync hbuffer
  refine ⟨.ready (some (.ok m.asRead)), { s with readBuffer := [], state := .finished }, 0, ?_, zero_le _, rfl, rfl, ?_, ?_⟩
  · rw [pollReady, if_pos ⟨hne, by rw [hpos, hbuffer]⟩, Buffer.alloc, dif_pos hfits, ok_bind, hparsed]
    rfl
  · exact .message hstate rfl
  · rintro (hwaiting | hreading)
    · rw [hstate] at hwaiting
      cases hwaiting
    · rw [hstate] at hreading
      cases hreading

theorem pollNext_spec (hm : m.IsShort) (h : s.Reads m.writeBytesSync k)
    (hin : incoming ++ future = m.writeBytesSync.drop k ++ rest) (poll : SockRead ε) :
    Polls m k s incoming poll (s.pollNext incoming poll) := by
  rw [pollNext]
  cases hstate : s.state with
  | waiting => exact pollWaiting_spec hm hstate h hin poll
  | reading => exact pollReading_spec hstate h hin poll
  | ready => exact pollReady_spec hm hstate h poll
  | finished =>
    refine ⟨.ready none, s, 0, rfl, zero_le _, h, rfl, .done (.inl hstate) rfl, ?_⟩
    rw [hstate]
    rintro (hwaiting | hreading) <;> contradiction
  | errored =>
    refine ⟨.ready none, s, 0, rfl, zero_le _, h, rfl, .done (.inr hstate) rfl, ?_⟩
    rw [hstate]
    rintro (hwaiting | hreading) <;> contradiction

theorem Reads.le {w : Bytes} (h : s.Reads w k) : k ≤ w.length := by
  unfold Reads at h
  split at h
  · exact h.1 ▸ zero_le _
  · exact h.2.1.le
  · exact h.1.le
  · exact h.le
  · exact h

theorem Reads.incoming_ne_nil (hm : m.IsShort) (h : s.Reads m.writeBytesSync k)
    (hstate : s.state = .waiting ∨ s.state = .reading) (rest : Bytes) : m.writeBytesSync.drop k ++ rest ≠ [] := by
  have hlt : k < m.writeBytesSync.length := by
    rcases hstate with hstate | hstate <;> rw [Reads, hstate] at h
    · rw [h.1, hm.length_writeBytesSync]
      exact lt_trans one_pos (one_lt_writeLen m)
    · exact h.2.1
  intro hnil
  rw [append_eq_nil_iff, drop_eq_nil_iff] at hnil
  omega

/-! ### Whole runs -/

theorem pollAll_of_finished (hstate : s.state = .finished) (reads : List (SockRead ε)) :
    s.pollAll incoming reads = .ok (replicate reads.length (.ready none), s, incoming) := by
  induction reads with
  | nil => rfl
  | cons poll reads ih =>
    rw [pollAll, pollNext, hstate]
    simp only [ok_bind, ih]
    rfl

/-- What comes out of polls, and what is then left of the bytes after the message: nothing yet, or the message
and then the end. -/
inductive Outcome (m : HandshakeMessage) (rest : Bytes) : List (Polled ε) → Bytes → Prop where
  | unfinished (n k : Nat) (taken : k ≤ m.writeLen) :
      Outcome m rest (replicate n .pending) (m.writeBytesSync.drop k ++ rest)
  | finished (n ended : Nat) :
      Outcome m rest (replicate n .pending ++ .ready (some (.ok m.asRead)) :: replicate ended (.ready none)) rest

theorem Outcome.pending {outputs : List (Polled ε)} {left : Bytes} (h : Outcome m rest outputs left) :
    Outcome m rest (.pending :: outputs) left := by
  cases h with
  | unfinished n k taken => exact .unfinished (n + 1) k taken
  | finished n ended => exact .finished (n + 1) ended

theorem pollAll_spec (hm : m.IsShort) (reads : List (SockRead ε)) (hreads : ∀ read ∈ reads, read.IsQuiet)
    (h : s.Reads m.writeBytesSync k) (hstate : s.state = .waiting ∨ s.state = .reading ∨ s.state = .ready) :
    ∃ outputs s' left, s.pollAll (m.writeBytesSync.drop k ++ rest) reads = .ok (outputs, s', left) ∧
      Outcome m rest outputs left ∧
      (m.writeLen < k + reads.countP SockRead.delivers → .ready (some (.ok m.asRead)) ∈ outputs) := by
  induction reads generalizing s k with
  | nil =>
    have hle := h.le
    rw [hm.length_writeBytesSync] at hle
    refine ⟨[], s, _, rfl, .unfinished 0 k hle, ?_⟩
    rw [countP_nil]
    omega
  | cons poll reads ih =>
    obtain ⟨hpoll, hreads⟩ := forall_mem_cons.mp hreads
    obtain ⟨out, s₁, n, hnext, hn, hreads₁, -, hadvance, hdelivers⟩ :=
      pollNext_spec hm h (append_nil (m.writeBytesSync.drop k ++ rest)) poll
    cases hadvance with
    | wait hbefore hafter =>
      have hle := hreads₁.le
      have hdrop : (m.writeBytesSync.drop k ++ rest).drop n = m.writeBytesSync.drop (k + n) ++ rest := by
        rw [drop_append_of_le_length (by rw [length_drop]; omega), drop_drop]
      obtain ⟨outputs, s', left, hrest, houtcome, henough⟩ := @ih (k + n) s₁ hreads hreads₁ hafter
      refine ⟨.pending :: outputs, s', left, ?_, houtcome.pending, ?_⟩
      · rw [pollAll, hnext, ok_bind]
        simp only [hdrop, hrest, ok_bind]
      · intro hcount
        refine mem_cons_of_mem _ (henough ?_)
        by_cases hpolled : poll.delivers = true
        · have hpos := hdelivers hbefore hpolled (h.incoming_ne_nil hm hbefore rest)
          rw [countP_cons_of_pos hpolled] at hcount
          omega
        · rw [countP_cons_of_neg hpolled] at hcount
          omega
    | failed hbefore herror hafter =>
      subst herror
      cases hpoll
    | message hbefore hafter =>
      have hk : k = m.writeBytesSync.length := by
        rw [Reads, hbefore] at h
        exact h.1
      have hn : n = 0 := by
        have hle := hreads₁.le
        omega
      subst hn hk
      refine ⟨_, s₁, rest, ?_, .finished 0 reads.length, fun _ => mem_cons_self⟩
      rw [pollAll, hnext, ok_bind]
      simp only [drop_zero, drop_length, nil_append, pollAll_of_finished hafter, ok_bind]
      rfl
    | done hbefore hafter =>
      rcases hbefore with hbefore | hbefore <;>
        rw [hbefore] at hstate <;> rcases hstate with hstate | hstate | hstate <;> cases hstate

end

/-- The bytes of the message are followed by others: however they are split into reads, no assertion fails and at
most the message is taken. Once there were more reads than the message has bytes, it has come out. -/
def ReadsOnce (m : HandshakeMessage) (sent : Bytes) : Prop :=
  ∀ (rest : Bytes) (reads : List (SockRead ε)), (∀ read ∈ reads, read.IsQuiet) →
    ∃ outputs s left, new.pollAll (sent ++ rest) reads = .ok (outputs, s, left) ∧ Outcome m rest outputs left ∧
      (m.writeLen < reads.countP SockRead.delivers → .ready (some (.ok m.asRead)) ∈ outputs)

variable (ε) in
theorem handshake_transport_exact {prot : Protocol} {ext : Extensions} {hash : Dht.InfoHash} {pid : PeerId}
    {m : HandshakeMessage} (hm : (fromParts prot ext hash pid : Run Empty _) = .ok m)
    (flushes : List (FlushPoll ε)) (hflushes : ∀ poll ∈ flushes, poll.IsQuiet) :
    ∃ result s sent, (new.startSend m).flushAll [] flushes = (result, s, sent) ∧
      (result = .pending ∨ result = .ready (.ok ())) ∧
      (m.writeLen ≤ countWrites flushes → sent = m.writeBytesSync) ∧
      (result = .ready (.ok ()) → sent.length = m.writeLen ∧ ReadsOnce (ε := ε) m sent) := by
  have hshort := (isShort_of_fromParts hm).2
  have hlength := hshort.length_writeBytesSync
  obtain ⟨result, s, sent, hflush, hall, hleft, hresult⟩ := @flushAll_spec ε (new.startSend m) [] flushes hflushes
  have hstart : (new.startSend m).writeBuffer = m.writeBytesSync := rfl
  have hsent : s.writeBuffer = [] → sent = m.writeBytesSync := by
    intro hempty
    rwa [hempty, append_nil, nil_append, hstart] at hall
  refine ⟨result, s, sent, hflush, hresult.imp_right And.left, ?_, ?_⟩
  · intro hcount
    refine hsent (length_eq_zero_iff.mp ?_)
    rw [hstart, hlength] at hleft
    omega
  · intro hready
    rcases hresult with hpending | ⟨-, hempty⟩
    · rw [hpending] at hready
      cases hready
    · rw [hsent hempty]
      refine ⟨hlength, fun rest reads hreads => ?_⟩
      have hwaiting : new.Reads m.writeBytesSync 0 := reads_waiting rfl rfl rfl
      have hpolls := @pollAll_spec ε m 0 new rest hshort reads hreads hwaiting (.inl rfl)
      rwa [drop_zero, Nat.zero_add] at hpolls

/-- A message in which the usual protocol is spelled out. -/
def spelledOut : HandshakeMessage where
  prot := .custom btProtocol
  ext := .new
  hash := .fill 0
  pid := .fill 1

/-- Two writes, and the socket is not ready in between. -/
def twoWrites : List (FlushPoll Empty) := [⟨[.ready 60], .pending⟩, ⟨[.ready 60], .ready (.ok ())⟩]

theorem handshake_transport_exact_spelledOut :
    ∃ result s sent, (new.startSend spelledOut).flushAll [] twoWrites = (result, s, sent) ∧
      (result = .pending ∨ result = .ready (.ok ())) ∧
      (spelledOut.writeLen ≤ countWrites twoWrites → sent = spelledOut.writeBytesSync) ∧
      (result = .ready (.ok ()) → sent.length = spelledOut.writeLen ∧ ReadsOnce (ε := Empty) spelledOut sent) := by
  have hm : (fromParts spelledOut.prot spelledOut.ext spelledOut.hash spelledOut.pid :
      Run Empty _) = .ok spelledOut := rfl
  refine handshake_transport_exact Empty hm twoWrites ?_
  intro poll hpoll
  rcases mem_pair.mp hpoll with rfl | rfl
  · exact ⟨by simp [SockWrite.IsQuiet], .inl rfl⟩
  · exact ⟨by simp [SockWrite.IsQuiet], .inr rfl⟩

end FramedHandshake

end BitTorrent.Handshake
