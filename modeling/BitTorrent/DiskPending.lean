import BitTorrent.DiskCoverage

/-! The blocks that wait for a check. However adding and merging follow each other, the blocks of a piece cover
what the added ones cover, and there are never more of them. The order in which the map lists the pieces does
not matter, nor does it matter whether two blocks can be merged at all. -/

namespace BitTorrent.Disk

open Rust Intervals List

/-- The blocks of one list stand for those of another. -/
structure StandFor (messages added : List BlockMetadata) : Prop where
  covered : ∀ x, CoveredBy messages x ↔ CoveredBy added x
  length_le : messages.length ≤ added.length
  stops : ∀ m ∈ messages, m.blockStop ≤ usizeMax

namespace StandFor

variable {messages added : List BlockMetadata} {msg : BlockMetadata}

theorem add (h : StandFor messages added) (hstop : msg.blockStop ≤ usizeMax) :
    StandFor (messages ++ [msg]) (added ++ [msg]) := by
  refine ⟨fun x => ?_, ?_, ?_⟩
  · exact covered_append.trans ((or_congr_left (h.covered x)).trans covered_append.symm)
  · rw [length_append, length_append]
    exact Nat.add_le_add_right h.length_le _
  · intro m hm
    rcases mem_append.mp hm with hm | hm
    · exact h.stops m hm
    · exact mem_singleton.mp hm ▸ hstop

theorem length_merged_le (messages : List BlockMetadata) :
    (mergedMessages messages).length ≤ messages.length := by
  unfold mergedMessages
  split
  · exact Nat.zero_le _
  · rename_i last rest hsort
    rw [length_reverse, ← (sortByOffset_reverse hsort).1.length_eq]
    exact length_collapse_le

theorem merged (h : StandFor messages added) : StandFor (mergedMessages messages) added := by
  refine ⟨fun x => ?_, (length_merged_le messages).trans h.length_le, ?_⟩
  · rw [coveredBy_merged, h.covered]
  · refine forall_mem_merged (fun a b m hjoin ha hb => ?_) h.stops
    obtain ⟨-, -, -, hstop⟩ := joinMessages_stop hjoin
    rw [hstop]
    exact max_le ha hb

end StandFor

namespace PieceCheckerState

inductive PendingCall where
  | addPendingBlock (msg : BlockMetadata)
  | mergePieces (order : Arrangement Nat)

section

variable {τ ε : Type}

def mergePieces (order : Arrangement Nat) : Io (PieceCheckerState × τ) ε Unit := do
  let (s, _) ← Io.get
  (order.arrange s.pendingBlocks.keys).forM mergeAt

def PendingCall.call : PendingCall → Io (PieceCheckerState × τ) ε Unit
  | .addPendingBlock msg => Io.modify fun t => (t.1.addPendingBlock msg, t.2)
  | .mergePieces order => PieceCheckerState.mergePieces order

def PendingCall.added (index : Nat) : PendingCall → List BlockMetadata
  | .addPendingBlock msg => if index = msg.pieceIndex then [msg] else []
  | .mergePieces _ => []

variable {s : PieceCheckerState} {t : τ} {before : Nat → List BlockMetadata}

theorem call_standFor (c : PendingCall) (h : ∀ index, StandFor (s.pending index) (before index))
    (hstops : ∀ index, ∀ m ∈ c.added index, m.blockStop ≤ usizeMax) :
    ∃ s', c.call.run (s, t) = ((.ok () : Run ε Unit), (s', t)) ∧
      ∀ index, StandFor (s'.pending index) (before index ++ c.added index) := by
  cases c with
  | addPendingBlock msg =>
    refine ⟨s.addPendingBlock msg, rfl, fun index => ?_⟩
    have hstop := hstops index
    rw [pending_addPendingBlock]
    rw [PendingCall.added] at hstop ⊢
    split
    · rename_i hindex
      rw [if_pos hindex] at hstop
      exact (h index).add (hstop msg (mem_singleton_self msg))
    · rw [append_nil]
      exact h index
  | mergePieces order =>
    obtain ⟨s', hrun, hmerged⟩ := forM_mergeAt_keys (ε := ε) order t fun key => (h key).stops
    refine ⟨s', hrun, fun index => ?_⟩
    rw [hmerged.pending, PendingCall.added, append_nil]
    exact (h index).merged

theorem calls_standFor {calls : List PendingCall} (h : ∀ index, StandFor (s.pending index) (before index))
    (hstops : ∀ index, ∀ m ∈ calls.flatMap (PendingCall.added index), m.blockStop ≤ usizeMax) :
    ∃ s', (calls.forM PendingCall.call).run (s, t) = ((.ok () : Run ε Unit), (s', t)) ∧
      ∀ index, StandFor (s'.pending index) (before index ++ calls.flatMap (PendingCall.added index)) := by
  induction calls generalizing s before with
  | nil => exact ⟨s, rfl, fun index => by simpa using h index⟩
  | cons c calls ih =>
    simp only [flatMap_cons, forall_mem_append] at hstops
    obtain ⟨s₁, hcall, h₁⟩ := call_standFor (ε := ε) (t := t) c h fun index => (hstops index).1
    obtain ⟨s', hcalls, h'⟩ := ih h₁ fun index => (hstops index).2
    refine ⟨s', (Io.run_bind_of_ok hcall).trans hcalls, fun index => ?_⟩
    rw [flatMap_cons, ← append_assoc]
    exact h' index

/-- However adding and merging follow each other, no call fails, and the blocks of a piece cover what the added
blocks cover and nothing else. -/
theorem pending_covers_added (s : PieceCheckerState) (calls : List PendingCall) (t : τ)
    (hstops : ∀ index, ∀ m ∈ s.pending index ++ calls.flatMap (PendingCall.added index),
      m.blockStop ≤ usizeMax) :
    ∃ s', (calls.forM PendingCall.call).run (s, t) = ((.ok () : Run ε Unit), (s', t)) ∧ ∀ index,
      let added := s.pending index ++ calls.flatMap (PendingCall.added index)
      (∀ x, CoveredBy (s'.pending index) x ↔ CoveredBy added x) ∧
        (s'.pending index).length ≤ added.length ∧
        ∀ m ∈ s'.pending index, ∀ x, m.blockOffset ≤ x → x < m.blockStop → CoveredBy added x := by
  simp only [forall_mem_append] at hstops
  have hself : ∀ index, StandFor (s.pending index) (s.pending index) := fun index =>
    ⟨fun _ => Iff.rfl, le_rfl, (hstops index).1⟩
  obtain ⟨s', hrun, h⟩ := calls_standFor (ε := ε) (t := t) hself fun index => (hstops index).2
  refine ⟨s', hrun, fun index => ⟨(h index).covered, (h index).length_le, fun m hm x hstart hstop => ?_⟩⟩
  exact ((h index).covered x).mp ⟨m, hm, hstart, hstop⟩

end

/-- Two blocks with a gap between them, of which the first is nested in a third. -/
theorem pending_covers_added_nested :
    let block (offset length : Nat) : BlockMetadata := ⟨⟨replicate 20 0, rfl⟩, 0, offset, length⟩
    ∃ s', (List.forM [.addPendingBlock (block 1 2), .addPendingBlock (block 8 2), .mergePieces (.listed Nat),
        .addPendingBlock (block 0 4), .mergePieces (.listed Nat)] PendingCall.call).run (new 1 16, ()) =
          ((.ok () : Run Empty Unit), (s', ())) ∧
      (∀ x, CoveredBy (s'.pending 0) x ↔ CoveredBy [block 1 2, block 8 2, block 0 4] x) := by
  intro block
  obtain ⟨s', hrun, h⟩ := pending_covers_added (ε := Empty) (new 1 16)
    [.addPendingBlock (block 1 2), .addPendingBlock (block 8 2), .mergePieces (.listed Nat),
      .addPendingBlock (block 0 4), .mergePieces (.listed Nat)] () (by
    intro index m hm
    have hsmall : ∀ m ∈ [block 1 2, block 8 2, block 0 4], m.blockStop ≤ usizeMax := by decide
    refine hsmall m ?_
    by_cases hindex : index = 0 <;> simp_all [pending, new, PendingCall.added, block])
  exact ⟨s', hrun, (h 0).1⟩

end PieceCheckerState

end BitTorrent.Disk
