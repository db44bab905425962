import BitTorrent.PeerFrames
import BitTorrent.StreamDecoder

/-! The codec of a peer connection. It asks its protocol how many bytes the next frame needs, checks
that number against the limit on payloads before the frame is complete, and gives complete frames to
the protocol. As a decoder of the stream it never looks behind the frame it takes, so messages and the
first error do not depend on how the bytes arrive. -/

namespace BitTorrent.Peer

open Rust PeerWireProtocolMessage List Nat

structure PeerProtocolCodec (S : Type) where
  protocol : S
  maxPayload : Option Nat

/-- An error of the codec or its protocol, or the error of an item. -/
inductive DecodeError (E : Type) where
  | io (err : IoError)
  | other (err : E)

section

variable {S M E : Type}

def PeerProtocolCodec.new (protocol : S) : PeerProtocolCodec S := ⟨protocol, none⟩

def maxPayloadError : DecodeError E :=
  .io (.other "PeerProtocolCodec Enforced Maximum Payload Check For Peer")

/-- The bytes needed are more than the limit. -/
def exceeds (maxPayload : Option Nat) (bytesNeeded : Nat) : Bool :=
  match maxPayload with
  | some maxPayload => maxPayload < bytesNeeded
  | none => false

/-- The item in what `parse_bytes` returned, or the error. -/
def itemOf (item : Run IoError (Except E M)) : Run (DecodeError E) M := do
  match ← mapErr .io item with
  | .ok item => .ok item
  | .error err => fail (.other err)

variable (P : PeerProtocol S M E)

def PeerProtocolCodec.decode (codec : PeerProtocolCodec S) (src : Buffer) :
    Run (DecodeError E) (Option M) × PeerProtocolCodec S × Buffer :=
  let (bytesNeeded, protocol) := P.bytesNeeded codec.protocol src
  let codec := { codec with protocol }
  match mapErr DecodeError.io bytesNeeded with
  | .error fault => (.error fault, codec, src)
  | .ok none => (.ok none, codec, src)
  | .ok (some bytesNeeded) =>
    if exceeds codec.maxPayload bytesNeeded then (fail maxPayloadError, codec, src)
    else if bytesNeeded ≤ src.len then
      let (item, protocol) := P.parseBytes codec.protocol (src.take bytesNeeded)
      ((do .ok (some (← itemOf item))), { codec with protocol }, src.drop bytesNeeded)
    else (.ok none, codec, src)

/-! ### Sessions -/

/-- A connection: the codec, the receive buffer, what the codec returned, and whether that ended with
an error. -/
structure Session (S M E : Type) where
  codec : PeerProtocolCodec S
  src : Buffer
  outputs : List (Run (DecodeError E) M)
  stopped : Bool

namespace Session

def new (codec : PeerProtocolCodec S) : Session S M E := ⟨codec, ⟨[], Nat.zero_le _⟩, [], false⟩

/-- Bytes are appended to the receive buffer, as far as an allocation can grow, or the codec is
called, unless it failed before. -/
def step (s : Session S M E) : Stream.Action UInt8 → Run Empty (Session S M E)
  | .append chunk =>
    if h : (s.src.data ++ chunk).length ≤ isizeMax then .ok { s with src := ⟨_, h⟩ }
    else .error .panic
  | .poll =>
    if s.stopped then .ok s
    else
      match s.codec.decode P s.src with
      | (.ok none, codec, src) => .ok { s with codec, src }
      | (.ok (some item), codec, src) => .ok ⟨codec, src, s.outputs ++ [.ok item], false⟩
      | (.error fault, codec, src) => .ok ⟨codec, src, s.outputs ++ [.error fault], true⟩

def run (s : Session S M E) (actions : List (Stream.Action UInt8)) : Run Empty (Session S M E) :=
  actions.foldlM (step P) s

/-- The codec failed, or has no more items. -/
def Drained (s : Session S M E) : Prop := s.stopped = true ∨ (s.codec.decode P s.src).1 = .ok none

end Session

/-! ### The codec as a decoder of the stream -/

def prefixLength (stream : Bytes) : Nat := ofBytesBe (stream.take 4)

variable {stream : Bytes}

theorem prefixLength_append (rest : Bytes) (h : 4 ≤ stream.length) :
    prefixLength (stream ++ rest) = prefixLength stream := by
  rw [prefixLength, take_append_of_le_length h, prefixLength]

theorem frame_fits (stream : Bytes) : (stream.take (4 + prefixLength stream)).length ≤ isizeMax := by
  have hlt := ofBytesBe_lt (stream.take 4)
  have hpow : 256 ^ (stream.take 4).length ≤ 256 ^ 4 :=
    Nat.pow_le_pow_right (by decide) (List.length_take_le 4 _)
  have hlength := List.length_take_le (4 + prefixLength stream) stream
  change prefixLength stream < _ at hlt
  simp only [isizeMax]
  omega

def frameOf (stream : Bytes) : Buffer := ⟨_, frame_fits stream⟩

def findFrame (maxPayload : Option Nat) (s : S) (stream : Bytes) :
    Stream.Found S (Run (DecodeError E) M) :=
  if stream.length < 4 then .wait
  else if exceeds maxPayload (4 + prefixLength stream) then .stop (fail maxPayloadError)
  else if 4 + prefixLength stream ≤ stream.length then
    match itemOf (P.parseBytes s (frameOf stream)).1 with
    | .ok item => .item (.ok item) (P.parseBytes s (frameOf stream)).2 (4 + prefixLength stream)
    | .error fault => .stop (.error fault)
  else .wait

theorem findFrame_append (maxPayload : Option Nat) (s : S) (stream rest : Bytes)
    (h : findFrame P maxPayload s stream ≠ .wait) :
    findFrame P maxPayload s (stream ++ rest) = findFrame P maxPayload s stream := by
  unfold findFrame at h ⊢
  by_cases hshort : stream.length < 4
  · exact absurd (if_pos hshort) h
  · have hlength : ¬ (stream ++ rest).length < 4 := by
      rw [length_append]
      omega
    rw [if_neg hshort] at h ⊢
    rw [if_neg hlength, prefixLength_append rest (not_lt.mp hshort)]
    split
    · rfl
    · rename_i hmax
      rw [if_neg hmax] at h
      by_cases hle : 4 + prefixLength stream ≤ stream.length
      · have hle' : 4 + prefixLength stream ≤ (stream ++ rest).length := by
          rw [length_append]
          omega
        have hframe : frameOf (stream ++ rest) = frameOf stream := by
          simp only [frameOf, prefixLength_append rest (not_lt.mp hshort),
            take_append_of_le_length hle]
        rw [if_pos hle, if_pos hle', hframe]
      · exact absurd (if_neg hle) h

variable {maxPayload : Option Nat} {n : Nat}

theorem findFrame_used {s s' : S} {out : Run (DecodeError E) M}
    (h : findFrame P maxPayload s stream = .item out s' n) : 0 < n ∧ n ≤ stream.length := by
  unfold findFrame at h
  split at h
  · cases h
  · split at h
    · cases h
    · split at h
      · rename_i hle
        split at h
        · cases h
          exact ⟨by omega, hle⟩
        · cases h
      · cases h

def frameDecoder (maxPayload : Option Nat) : Stream.Decoder S UInt8 (Run (DecodeError E) M) where
  find := findFrame P maxPayload
  stable := findFrame_append P maxPayload
  used := findFrame_used P

/-! ### Sessions follow the decoder -/

/-- A session and a reader of the same stream: they put out the same, and go on from the same state
unless they stopped. -/
structure Follows (maxPayload : Option Nat) (s : Session S M E)
    (r : Stream.Reader S UInt8 (Run (DecodeError E) M)) : Prop where
  outputs : s.outputs = r.outputs
  stopped : s.stopped = r.stopped
  limit : s.codec.maxPayload = maxPayload
  state : s.stopped = false → s.codec.protocol = r.state ∧ s.src.data = r.buffer

theorem follows_new (codec : PeerProtocolCodec S) :
    Follows codec.maxPayload (Session.new codec : Session S M E) (Stream.Reader.new codec.protocol) :=
  ⟨rfl, rfl, rfl, fun _ => ⟨rfl, rfl⟩⟩

section

variable {P}
variable (hneeded : ∀ s bytes,
  P.bytesNeeded s bytes = (.ok (bytesNeeded bytes), s))
include hneeded

variable {codec : PeerProtocolCodec S} {src : Buffer}

theorem decode_of_lt (h : src.len < 4) : codec.decode P src = (.ok none, codec, src) := by
  rw [PeerProtocolCodec.decode, hneeded, bytesNeeded_of_lt h]
  rfl

theorem decode_of_le (h : 4 ≤ src.len) : codec.decode P src =
      if exceeds codec.maxPayload (4 + frameLength src) then (fail maxPayloadError, codec, src)
      else if 4 + frameLength src ≤ src.len then
        ((do .ok (some (← itemOf (P.parseBytes codec.protocol (src.take (4 + frameLength src))).1))),
          { codec with protocol := (P.parseBytes codec.protocol (src.take (4 + frameLength src))).2 },
          src.drop (4 + frameLength src))
      else (.ok none, codec, src) := by
  rw [PeerProtocolCodec.decode, hneeded, bytesNeeded_of_le h]
  rfl

theorem maxPayload_decode (codec : PeerProtocolCodec S) (src : Buffer) :
    (codec.decode P src).2.1.maxPayload = codec.maxPayload := by
  rcases lt_or_ge src.len 4 with hlt | hle
  · rw [decode_of_lt hneeded hlt]
  · rw [decode_of_le hneeded hle]
    split
    · rfl
    · split <;> rfl

/-- A call against what is found at the front of the buffer. Only a call that ends in an error may
leave the codec and the buffer elsewhere. -/
theorem decode_findFrame (codec : PeerProtocolCodec S) (src : Buffer) :
    match findFrame P codec.maxPayload codec.protocol src.data with
    | .wait => codec.decode P src = (.ok none, codec, src)
    | .item out s n => ∃ item, out = .ok item ∧
        codec.decode P src = (.ok (some item), { codec with protocol := s }, src.drop n)
    | .stop out => ∃ fault, out = .error fault ∧ (codec.decode P src).1 = .error fault := by
  have hlength : prefixLength src.data = frameLength src := rfl
  have hframe : frameOf src.data = src.take (4 + frameLength src) := rfl
  unfold findFrame
  rw [hlength, hframe, ← Buffer.len]
  split_ifs with hlt hmax hle
  · exact decode_of_lt hneeded hlt
  · rw [decode_of_le hneeded (not_lt.mp hlt), if_pos hmax]
    exact ⟨_, rfl, rfl⟩
  · rw [decode_of_le hneeded (not_lt.mp hlt), if_neg hmax, if_pos hle]
    cases itemOf (P.parseBytes codec.protocol (src.take (4 + frameLength src))).1 with
    | ok item => exact ⟨item, rfl, rfl⟩
    | error fault => exact ⟨fault, rfl, rfl⟩
  · rw [decode_of_le hneeded (not_lt.mp hlt), if_neg hmax, if_neg hle]

variable {r : Stream.Reader S UInt8 (Run (DecodeError E) M)} {s s' : Session S M E}

theorem follows_step (h : Follows maxPayload s r)
    {action : Stream.Action UInt8} (hstep : s.step P action = .ok s') :
    Follows maxPayload s' (r.step (frameDecoder P maxPayload) action) := by
  cases action with
  | append chunk =>
    rw [Session.step] at hstep
    split at hstep
    · cases hstep
      refine ⟨h.outputs, h.stopped, h.limit, fun hrunning => ?_⟩
      exact ⟨(h.state hrunning).1, congrArg (· ++ chunk) (h.state hrunning).2⟩
    · cases hstep
  | poll =>
    rw [Session.step] at hstep
    by_cases hstopped : s.stopped = true
    · rw [if_pos hstopped] at hstep
      cases hstep
      rw [Stream.Reader.step, if_pos (h.stopped ▸ hstopped)]
      exact h
    · have hrunning : s.stopped = false := Bool.eq_false_of_not_eq_true hstopped
      obtain ⟨hstate, hbuffer⟩ := h.state hrunning
      rw [if_neg hstopped] at hstep
      rw [Stream.Reader.step, if_neg (h.stopped ▸ hstopped)]
      have hdecode := decode_findFrame hneeded s.codec s.src
      have hlimit := maxPayload_decode hneeded s.codec s.src
      have hfind : (frameDecoder P maxPayload).find r.state r.buffer =
          findFrame P s.codec.maxPayload s.codec.protocol s.src.data := by
        rw [h.limit, hstate, hbuffer]
        rfl
      rw [hfind]
      generalize findFrame P s.codec.maxPayload s.codec.protocol s.src.data = found at hdecode ⊢
      cases found with
      | wait =>
        rw [hdecode] at hstep
        cases hstep
        exact h
      | item out state n =>
        obtain ⟨item, rfl, hdecode⟩ := hdecode
        rw [hdecode] at hstep
        cases hstep
        exact ⟨congrArg (· ++ [.ok item]) h.outputs, rfl, h.limit,
          fun _ => ⟨rfl, congrArg (drop n) hbuffer⟩⟩
      | stop out =>
        obtain ⟨fault, rfl, hdecode⟩ := hdecode
        generalize s.codec.decode P s.src = called at hstep hdecode hlimit
        obtain ⟨result, codec, src⟩ := called
        cases hdecode
        cases hstep
        exact ⟨congrArg (· ++ [.error fault]) h.outputs, rfl, hlimit.trans h.limit, Bool.noConfusion⟩

variable {actions : List (Stream.Action UInt8)}

theorem follows_run (h : Follows maxPayload s r) (hrun : s.run P actions = .ok s') :
    Follows maxPayload s' (r.run (frameDecoder P maxPayload) actions) := by
  induction actions generalizing s r with
  | nil =>
    cases hrun
    exact h
  | cons action actions ih =>
    obtain ⟨mid, hstep, hrest⟩ := bind_eq_ok.mp hrun
    exact ih (follows_step hneeded h hstep) hrest

theorem Follows.drained (h : Follows maxPayload s r)
    (hdrained : s.Drained P) : r.Drained (frameDecoder P maxPayload) := by
  by_cases hstopped : s.stopped = true
  · exact .inl (h.stopped ▸ hstopped)
  · obtain ⟨hstate, hbuffer⟩ := h.state (Bool.eq_false_of_not_eq_true hstopped)
    have hnone := hdrained.resolve_left hstopped
    have hdecode := decode_findFrame hneeded s.codec s.src
    right
    change findFrame P maxPayload r.state r.buffer = .wait
    rw [← h.limit, ← hstate, ← hbuffer]
    generalize findFrame P s.codec.maxPayload s.codec.protocol s.src.data = found at hdecode ⊢
    cases found with
    | wait => rfl
    | item out state n =>
      obtain ⟨item, -, hdecode⟩ := hdecode
      rw [hdecode] at hnone
      cases hnone
    | stop out =>
      obtain ⟨fault, -, hdecode⟩ := hdecode
      rw [hdecode] at hnone
      cases hnone

/-- What a drained session put out is what the decoder puts out on the whole stream. -/
theorem outputs_of_drained (hrun : (Session.new codec).run P actions = .ok s) (hdrained : s.Drained P) :
    s.outputs = (frameDecoder P codec.maxPayload).decodeAll codec.protocol
      (Stream.Reader.appended actions) := by
  have hfollows := follows_run hneeded (follows_new codec) hrun
  rw [hfollows.outputs]
  exact Stream.Reader.outputs_run_of_drained (hfollows.drained hneeded hdrained)

variable {codec' : PeerProtocolCodec S} {src' : Buffer}

theorem decode_eq_some {item : M} (h : codec.decode P src = (.ok (some item), codec', src')) :
    4 + frameLength src ≤ src.len ∧ src' = src.drop (4 + frameLength src) := by
  rcases lt_or_ge src.len 4 with hlt | hle
  · rw [decode_of_lt hneeded hlt] at h
    cases h
  · rw [decode_of_le hneeded hle] at h
    split_ifs at h with hmax hwhole
    · cases h
    · exact ⟨hwhole, (congrArg (fun called => called.2.2) h).symm⟩
    · cases h

theorem decode_eq_none (h : codec.decode P src = (.ok none, codec', src')) : codec' = codec ∧ src' = src := by
  rcases lt_or_ge src.len 4 with hlt | hle
  · rw [decode_of_lt hneeded hlt] at h
    cases h
    exact ⟨rfl, rfl⟩
  · rw [decode_of_le hneeded hle] at h
    split_ifs at h with hmax hwhole
    · cases h
    · obtain ⟨item, -, hsome⟩ := bind_eq_ok.mp (congrArg Prod.fst h)
      cases hsome
    · cases h
      exact ⟨rfl, rfl⟩

theorem decode_of_exceeds (h : bytesNeeded src = some n) (hmax : exceeds codec.maxPayload n = true) :
    codec.decode P src = (fail maxPayloadError, codec, src) := by
  rw [PeerProtocolCodec.decode, hneeded, h]
  exact if_pos hmax

theorem exists_drained (s : Session S M E) :
    ∃ n s', s.run P (List.replicate n .poll) = .ok s' ∧ s'.Drained P := by
  induction hlen : s.src.len using Nat.strong_induction_on generalizing s with
  | _ len ih =>
    by_cases hstopped : s.stopped = true
    · exact ⟨0, s, rfl, .inl hstopped⟩
    · rcases hdecode : s.codec.decode P s.src with ⟨_ | _ | item, codec, src⟩
      · rename_i fault
        refine ⟨1, ⟨codec, src, s.outputs ++ [.error fault], true⟩, ?_, .inl rfl⟩
        change s.step P .poll >>= pure = _
        rw [Session.step, if_neg hstopped, hdecode]
        rfl
      · exact ⟨0, s, rfl, .inr (congrArg Prod.fst hdecode)⟩
      · obtain ⟨hwhole, rfl⟩ := decode_eq_some hneeded hdecode
        have hlt : (s.src.drop (4 + frameLength s.src)).len < len := by
          rw [Buffer.len_drop]
          omega
        obtain ⟨n, s', hrun, hdrained⟩ := ih _ hlt
          ⟨codec, s.src.drop (4 + frameLength s.src), s.outputs ++ [.ok item], false⟩ rfl
        refine ⟨n + 1, s', ?_, hdrained⟩
        rw [replicate_succ, Session.run, foldlM_cons, Session.step, if_neg hstopped, hdecode]
        exact hrun

/-- Any two drained sessions over the same stream put out the same items and the same error, and calls
drain every session. An item takes exactly one frame, and calls that return nothing or find the
payload too large leave the buffer as it was. -/
theorem decode_independent_of_chunks :
    (∀ (codec : PeerProtocolCodec S) actions actions' (s s' : Session S M E),
      Stream.Reader.appended actions = Stream.Reader.appended actions' →
      (Session.new codec).run P actions = .ok s → (Session.new codec).run P actions' = .ok s' →
      s.Drained P → s'.Drained P → s.outputs = s'.outputs) ∧
    (∀ s : Session S M E, ∃ n s', s.run P (List.replicate n .poll) = .ok s' ∧ s'.Drained P) ∧
    (∀ (codec codec' : PeerProtocolCodec S) src src' item,
      codec.decode P src = (.ok (some item), codec', src') →
      4 + frameLength src ≤ src.len ∧ src' = src.drop (4 + frameLength src)) ∧
    (∀ (codec codec' : PeerProtocolCodec S) src src',
      codec.decode P src = (.ok none, codec', src') → codec' = codec ∧ src' = src) ∧
    (∀ (codec : PeerProtocolCodec S) src n, bytesNeeded src = some n →
      exceeds codec.maxPayload n = true → codec.decode P src = (fail maxPayloadError, codec, src)) := by
  refine ⟨fun codec actions actions' s s' happended hrun hrun' hdrained hdrained' => ?_,
    exists_drained hneeded, fun codec codec' src src' item => decode_eq_some hneeded,
    fun codec codec' src src' => decode_eq_none hneeded,
    fun codec src n => decode_of_exceeds hneeded⟩
  rw [outputs_of_drained hneeded hrun hdrained, outputs_of_drained hneeded hrun' hdrained', happended]

end

end

/-- A keep alive that arrives in two halves, and at once. -/
theorem decode_independent_of_chunks_keepAlive :
    ∃ s s' : Session Unit (PeerWireProtocolMessage Empty IoError) Empty,
      (Session.new (.new ())).run (PeerWireProtocol.protocol (nullProtocol ExtendedMessage))
        [.append [0, 0], .poll, .append [0, 0], .poll] = .ok s ∧
      (Session.new (.new ())).run (PeerWireProtocol.protocol (nullProtocol ExtendedMessage))
        [.append [0, 0, 0, 0], .poll] = .ok s' ∧
      s.outputs = [.ok .keepAlive] ∧ s.outputs = s'.outputs :=
  ⟨_, _, rfl, rfl, rfl,
    (decode_independent_of_chunks (P := PeerWireProtocol.protocol (nullProtocol ExtendedMessage))
      fun _ _ => rfl).1 (.new ()) [.append [0, 0], .poll, .append [0, 0], .poll]
      [.append [0, 0, 0, 0], .poll] _ _ rfl rfl rfl (.inr rfl) (.inr rfl)⟩

/-! ### Conversations -/

section

open PeerWireProtocol

variable {S M E : Type} (P : NestedPeerProtocol ExtendedMessage S M E) (state : S)

theorem findFrame_of_wellFramed {frame : Bytes} (h : WellFramed frame) (rest : Bytes) :
    findFrame (protocol P) none state (frame ++ rest) = .item (.ok .keepAlive) state frame.length := by
  obtain ⟨hle, hlength⟩ := h
  have hwhole : 4 + prefixLength frame = frame.length := by
    rw [prefixLength, hlength]
    omega
  have hframe : 4 ≤ (frameOf frame).len := by
    change 4 ≤ (take _ frame).length
    rwa [hwhole, take_length]
  have hparse : (protocol P).parseBytes state (frameOf frame) = (.ok (.ok .keepAlive), state) := by
    simp only [protocol, parseBytes_of_le P.toPeerProtocol state hframe]
  have hfind : findFrame (protocol P) none state frame = .item (.ok .keepAlive) state frame.length := by
    rw [findFrame, if_neg (not_lt.mpr hle), hparse, hwhole, if_pos le_rfl]
    rfl
  rw [findFrame_append _ _ _ _ _ (by rw [hfind]; exact fun h => (by cases h)), hfind]

/-- Messages that were written one after the other and arrive in any parts are read as so many
keep-alives. -/
theorem sent_read_as_keepAlives (sent : List (PeerWireProtocolMessage M E × S × Written))
    (hsent : ∀ m ∈ sent, (∀ r, m.1 ≠ .protExtension r) ∧
      (m.1.writeBytes P.toPeerProtocol m.2.1).1 = .ok m.2.2)
    (actions : List (Stream.Action UInt8)) (s : Session S (PeerWireProtocolMessage M E) Empty)
    (happended : Stream.Reader.appended actions = sent.flatMap (·.2.2.bytes))
    (hrun : (Session.new (.new state)).run (protocol P) actions = .ok s) (hdrained : s.Drained (protocol P)) :
    s.outputs = replicate sent.length (.ok .keepAlive) := by
  rw [outputs_of_drained (fun _ _ => rfl) hrun hdrained, happended]
  clear happended
  induction sent with
  | nil => exact Stream.Decoder.decodeAll_of_wait rfl
  | cons m sent ih =>
    obtain ⟨⟨hm, hwrite⟩, hrest⟩ := forall_mem_cons.mp hsent
    have hframed := wellFramed_of_writeBytes P.toPeerProtocol hm hwrite
    rw [flatMap_cons, Stream.Decoder.decodeAll_of_item (findFrame_of_wellFramed P state hframed _), drop_left]
    exact congrArg (.ok .keepAlive :: ·) (ih hrest)

end

/-- A choke and an unchoke, cut elsewhere. -/
theorem sent_read_as_keepAlives_chokes : ∃ s,
    (Session.new (.new ())).run (PeerWireProtocol.protocol (nullProtocol ExtendedMessage))
      [.append [0, 0, 0], .poll, .append [1, 0, 0, 0], .poll, .append [0, 1, 1], .poll, .poll] = .ok s ∧
    s.outputs = [.ok .keepAlive, .ok .keepAlive] := by
  refine ⟨_, rfl, sent_read_as_keepAlives (nullProtocol ExtendedMessage) ()
    [(.choke, (), ⟨[0, 0, 0, 1, 0], 5⟩), (.unChoke, (), ⟨[0, 0, 0, 1, 1], 5⟩)] (fun m hm => ?_)
    [.append [0, 0, 0], .poll, .append [1, 0, 0, 0], .poll, .append [0, 1, 1], .poll, .poll] _ rfl rfl (.inr rfl)⟩
  simp only [mem_cons, not_mem_nil, or_false] at hm
  rcases hm with rfl | rfl <;> exact ⟨fun _ h => (by cases h), rfl⟩

end BitTorrent.Peer
