import BitTorrent.HandshakeFramed

/-! A connection that is closed early. A read of no bytes is how a socket tells that nothing will follow. The
reader takes it for a read that brought nothing yet and asks to be polled again, before the first byte and in
the middle of a message, so it comes to an end only if a whole message was there. -/

namespace BitTorrent.Handshake

open Rust Segments List

/-- The bytes start with as many as their first byte asks for. -/
def IsWhole (w : Bytes) : Prop :=
  ∃ byte rest, w = byte :: rest ∧ writeLenWithProtocolLen byte ≤ w.length

/-- Any bytes of the right number are a message. -/
theorem IsWhole.exists_message {w : Bytes} (h : IsWhole w) :
    ∃ m : HandshakeMessage, m.IsShort ∧ ∃ rest, w = m.writeBytesSync ++ rest := by
  obtain ⟨byte, rest, rfl, hlength⟩ := h
  rw [writeLenWithProtocolLen, length_cons, numExtensionBytes, shaHashLen] at hlength
  have hname : (rest.take byte.toNat).length = byte.toNat := by
    rw [length_take]
    omega
  let m : HandshakeMessage :=
    { prot := .custom (rest.take byte.toNat)
      ext := ⟨(rest.drop byte.toNat).take 8, by rw [length_take, length_drop, numExtensionBytes]; omega⟩
      hash := ⟨((rest.drop byte.toNat).drop 8).take 20, by simp only [length_take, length_drop, shaHashLen]; omega⟩
      pid := ⟨(((rest.drop byte.toNat).drop 8).drop 20).take 20,
        by simp only [length_take, length_drop, shaHashLen]; omega⟩ }
  refine ⟨m, ?_, (((rest.drop byte.toNat).drop 8).drop 20).drop 20, ?_⟩
  · have := byte.toNat_lt
    change (rest.take byte.toNat).length ≤ 255
    omega
  · have hfirst : UInt8.ofNat (rest.take byte.toNat).length = byte := by
      rw [hname, UInt8.ofNat_toNat]
    change _ = UInt8.ofNat (rest.take byte.toNat).length :: rest.take byte.toNat ++ _ ++ _ ++ _ ++ _
    rw [hfirst]
    simp only [m, cons_append, append_assoc, take_append_drop]

namespace FramedHandshake

variable {ε : Type} {s : FramedHandshake} {incoming w : Bytes} {reads : List (SockRead ε)} {len : Nat}

/-- Less than a message is there and on its way. -/
def Short (s : FramedHandshake) (incoming : Bytes) : Prop :=
  (s.state = .waiting ∧ s.readBuffer = [] ∧ s.readPos = 0 ∧ ¬ IsWhole incoming) ∨
    (s.state = .reading ∧ 0 < s.readPos ∧ s.readPos + incoming.length < s.readBuffer.length)

theorem short_pollWaiting {poll : SockRead ε} (hpoll : poll.IsQuiet) (hstate : s.state = .waiting)
    (hbuffer : s.readBuffer = []) (hpos : s.readPos = 0) (hshort : ¬ IsWhole incoming) :
    ∃ s' left, s.pollWaiting incoming poll = .ok (.pending, s', left) ∧ s'.Short left := by
  unfold pollWaiting
  rw [if_pos ⟨hbuffer, hpos⟩]
  have hstays : ({ s with readBuffer := [] } : FramedHandshake).Short incoming := .inl ⟨hstate, rfl, hpos, hshort⟩
  cases poll with
  | pending => exact ⟨_, _, rfl, hstays⟩
  | error e => cases hpoll
  | ready len =>
    dsimp only
    split
    · exact ⟨_, _, rfl, hstays⟩
    · rename_i byte more htake
      refine ⟨_, _, rfl, .inr ⟨rfl, Nat.one_pos, ?_⟩⟩
      obtain ⟨rest, rfl⟩ : ∃ rest, incoming = byte :: rest := by
        cases incoming with
        | nil => simp at htake
        | cons first rest =>
          rcases Nat.eq_zero_or_pos len with rfl | hlen
          · cases htake
          · rw [Nat.min_eq_right hlen] at htake
            exact ⟨rest, by rw [(cons.inj htake).1]⟩
      have hmissing : ¬ writeLenWithProtocolLen byte ≤ (byte :: rest).length := fun hle =>
        hshort ⟨byte, rest, rfl, hle⟩
      rw [length_cons] at hmissing
      simp only [drop_one, tail_cons, length_cons, length_replicate]
      omega

theorem short_pollReading {poll : SockRead ε} (hpoll : poll.IsQuiet) (hstate : s.state = .reading)
    (hpos : 0 < s.readPos) (hshort : s.readPos + incoming.length < s.readBuffer.length) :
    ∃ s' left, s.pollReading incoming poll = .ok (.pending, s', left) ∧ s'.Short left := by
  have hne : s.readBuffer ≠ [] := ne_nil_of_length_pos (by omega)
  unfold pollReading
  rw [if_pos ⟨hne, hpos.ne', by omega⟩]
  cases poll with
  | pending => exact ⟨_, _, rfl, .inr ⟨hstate, hpos, hshort⟩⟩
  | error e => cases hpoll
  | ready len =>
    have hthere := length_take_le' (min len (s.readBuffer.length - s.readPos)) incoming
    dsimp only
    generalize incoming.take (min len (s.readBuffer.length - s.readPos)) = added at hthere ⊢
    rw [if_pos ⟨by omega, by omega⟩, if_neg (by omega)]
    refine ⟨_, _, rfl, .inr ⟨rfl, by simp only; omega, ?_⟩⟩
    rw [length_overwrite (by omega), length_drop]
    simp only
    omega

theorem pollAll_of_short (h : s.Short incoming) (hreads : ∀ read ∈ reads, read.IsQuiet) :
    ∃ s' left, s.pollAll incoming reads = .ok (replicate reads.length .pending, s', left) := by
  induction reads generalizing s incoming with
  | nil => exact ⟨s, incoming, rfl⟩
  | cons poll reads ih =>
    obtain ⟨hpoll, hreads⟩ := forall_mem_cons.mp hreads
    obtain ⟨s₁, left₁, hnext, h₁⟩ : ∃ s' left, s.pollNext incoming poll = .ok (.pending, s', left) ∧ s'.Short left := by
      rw [pollNext]
      rcases h with ⟨hstate, hbuffer, hpos, hshort⟩ | ⟨hstate, hpos, hshort⟩ <;> rw [hstate]
      · exact short_pollWaiting hpoll hstate hbuffer hpos hshort
      · exact short_pollReading hpoll hstate hpos hshort
    obtain ⟨s', left, hrest⟩ := ih h₁ hreads
    refine ⟨s', left, ?_⟩
    rw [pollAll, hnext, ok_bind]
    simp only [hrest, ok_bind]
    rfl

/-- The bytes come in some reads, and from then on the socket is always ready: it hands over what is left and
then reads of no bytes. Some poll is answered with more than that there is nothing yet. -/
def Ends (w : Bytes) (reads : List (SockRead ε)) (len : Nat) : Prop :=
  ∃ n outputs s left, new.pollAll w (reads ++ replicate n (.ready len)) = .ok (outputs, s, left) ∧
    ∃ out ∈ outputs, out ≠ .pending

theorem quiet_append (hreads : ∀ read ∈ reads, read.IsQuiet) (n : Nat) :
    ∀ read ∈ reads ++ replicate n (.ready len), read.IsQuiet :=
  forall_mem_append.mpr ⟨hreads, fun _ hread => (eq_of_mem_replicate hread) ▸ trivial⟩

theorem not_ends_of_short (hreads : ∀ read ∈ reads, read.IsQuiet) (hshort : ¬ IsWhole w) : ¬ Ends w reads len := by
  rintro ⟨n, outputs, s, left, hrun, out, hout, hne⟩
  have hnew : new.Short w := .inl ⟨rfl, rfl, rfl, hshort⟩
  obtain ⟨s', left', hpending⟩ := pollAll_of_short hnew (quiet_append hreads n)
  rw [hpending] at hrun
  cases hrun
  exact hne (eq_of_mem_replicate hout)

theorem ends_of_whole (hreads : ∀ read ∈ reads, read.IsQuiet) (hlen : 0 < len) (h : IsWhole w) :
    Ends w reads len := by
  obtain ⟨m, hm, rest, rfl⟩ := h.exists_message
  have hwaiting : new.Reads m.writeBytesSync 0 := reads_waiting rfl rfl rfl
  obtain ⟨outputs, s, left, hrun, -, henough⟩ := @pollAll_spec ε m 0 new rest hm _
    (quiet_append hreads (m.writeLen + 1)) hwaiting (.inl rfl)
  refine ⟨m.writeLen + 1, outputs, s, left, hrun, _, henough ?_, nofun⟩
  have hdelivers : (SockRead.ready len : SockRead ε).delivers = true := decide_eq_true hlen
  rw [countP_append, countP_replicate, if_pos hdelivers]
  omega

/-- A connection that is closed ends the handshake exactly if a whole message came before. -/
theorem closed_ends_iff (w : Bytes) (hreads : ∀ read ∈ reads, read.IsQuiet) (hlen : 0 < len) :
    Ends w reads len ↔ IsWhole w := by
  refine ⟨fun hends => ?_, ends_of_whole hreads hlen⟩
  by_contra hshort
  exact not_ends_of_short hreads hshort hends

theorem closed_ends_iff_spelledOut : Ends (ε := Empty) spelledOut.writeBytesSync [.pending, .ready 1] 7 :=
  (closed_ends_iff (ε := Empty) _ (by simp [SockRead.IsQuiet]) (by decide)).mpr ⟨19, _, rfl, by decide⟩

/-- One byte, and the connection is closed. -/
theorem closed_after_length : ¬ IsWhole [19] ∧ ¬ Ends (ε := Empty) [19] [.ready 1] 1 := by
  have hshort : ¬ IsWhole [19] := by
    rintro ⟨byte, rest, heq, hle⟩
    cases heq
    exact absurd hle (by decide)
  exact ⟨hshort, not_ends_of_short (by simp [SockRead.IsQuiet]) hshort⟩

end FramedHandshake

end BitTorrent.Handshake
