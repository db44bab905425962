import BitTorrent.MetainfoHashingEnds
import BitTorrent.MetainfoInfoSlice

/-! What the hasher threads return: under every schedule, after a bounded number of steps, the pieces in
their order. -/

namespace BitTorrent.Meta

open Rust Segments Chunks List PieceBuffer Nat WorkerPhase

/-! ### What is left to do -/

/-- A piece is taken, hashed and accepted, and its buffer returned. -/
def WorkerMessage.cost : WorkerMessage → Nat
  | .hashPiece _ _ => 4
  | .finish => 3

def WorkerPhase.cost : WorkerPhase → Nat
  | .hashing _ _ => 3
  | .returning _ => 1
  | .finishing => 2
  | _ => 0

section

variable {ε : Type}

/-- Every byte may be read alone and may be a piece. -/
def PieceAccess.cost : PieceAccess ε → Nat
  | .compute region => 6 * region.data.length + 3
  | .preComputed _ => 1

/-- The master's steps with `n` workers. -/
def MasterPhase.cost (n : Nat) : MasterPhase ε → Nat
  | .access rest => (rest.map PieceAccess.cost).sum + (4 * n + 7)
  | .beginRegion region rest => 6 * region.data.length + 2 + ((rest.map PieceAccess.cost).sum + (4 * n + 7))
  | .reading _ region rest => 6 * region.data.length + 1 + ((rest.map PieceAccess.cost).sum + (4 * n + 7))
  | .replaceBuffer region _ rest => 6 * region.data.length + 2 + ((rest.map PieceAccess.cost).sum + (4 * n + 7))
  | .finishing left => 4 * left + 2
  | .waiting _ => 1
  | .returned _ => 0

end

namespace Hasher

variable {ε : Type} {hash : Bytes → ShaHash} {n pieceLength : Nat} {s s' : Hasher ε}

def cost (n : Nat) (s : Hasher ε) : Nat :=
  s.master.cost n + (s.workQueue.map WorkerMessage.cost).sum + (s.workers.map WorkerPhase.cost).sum +
    s.masterQueue.length

theorem sum_cost_pushLast : (s.pushLast.workQueue.map WorkerMessage.cost).sum ≤
    (s.workQueue.map WorkerMessage.cost).sum + 4 := by
  unfold pushLast
  split
  · split
    · exact le_add_right _ _
    · simp only [pushPiece, sum_concat, WorkerMessage.cost, le_refl]
  · exact le_add_right _ _

theorem cost_sendMaster_lt {worker : Nat} {phase phase' : WorkerPhase} {message : MasterMessage}
    (hphase : s.workers[worker]? = some phase) (hcost : phase'.cost + 1 < phase.cost) :
    (s.sendMaster worker message phase').cost n < s.cost n := by
  unfold sendMaster
  split
  · have hset : ((s.workers.set worker .panicked).map WorkerPhase.cost).sum + phase.cost =
        (s.workers.map WorkerPhase.cost).sum + 0 := sum_map_set_add _ _ hphase
    simp only [cost, setWorker]
    omega
  · have hset := sum_map_set_add WorkerPhase.cost phase' hphase
    simp only [cost, setWorker, length_append, length_singleton]
    omega

theorem cost_lt_of_moves (hstocked : s.Stocked pieceLength) (h : s.Counted n) (hmove : s.Moves hash s') :
    s'.cost n < s.cost n := by
  cases hmove with
  | readFailed hmaster | accessFailed hmaster | allTold hmaster | sortPieces hmaster =>
    simp only [cost, hmaster, MasterPhase.cost]
    omega
  | @readWhole buffer region rest len hmaster hspace hthere hzero hwhole =>
    have hlen : len ≠ 0 := by
      rintro rfl
      rw [take_zero, writeBytes_nil, (hstocked.filled _ _ _ hmaster).isWhole_eq] at hwhole
      cases hwhole
    simp only [cost, pushPiece, hmaster, MasterPhase.cost, sum_concat, WorkerMessage.cost, length_drop]
    omega
  | readEnd hmaster =>
    simp only [cost, hmaster, MasterPhase.cost]
    omega
  | readPart hmaster hspace hthere hsome =>
    simp only [cost, hmaster, MasterPhase.cost, length_drop]
    omega
  | accessDone hmaster =>
    have hlast := @sum_cost_pushLast ε s
    simp only [cost, hmaster, MasterPhase.cost, pushLast_workers, pushLast_masterQueue, h.size, map_nil,
      sum_nil]
    omega
  | preComputed hmaster | keepBuffer hmaster | beginRegion hmaster =>
    simp only [cost, hmaster, MasterPhase.cost, PieceAccess.cost, map_cons, sum_cons]
    omega
  | checkout hmaster | replaceEnd hmaster | replace hmaster =>
    simp only [cost, hmaster, MasterPhase.cost]
    omega
  | tellFinish hmaster =>
    simp only [cost, hmaster, MasterPhase.cost, sum_concat, WorkerMessage.cost]
    omega
  | accept hmaster hleft hqueue | workerFinished hmaster hleft hqueue =>
    simp only [cost, hmaster, hqueue, MasterPhase.cost, length_cons]
    omega
  | @takePiece worker index buffer workQueue hphase hqueue =>
    have hset := sum_map_set_add WorkerPhase.cost (.hashing index buffer) hphase
    simp only [cost, setWorker, hqueue, map_cons, sum_cons, WorkerMessage.cost,
      WorkerPhase.cost] at hset ⊢
    omega
  | takeFinish hphase hqueue =>
    have hset := sum_map_set_add WorkerPhase.cost .finishing hphase
    simp only [cost, setWorker, hqueue, map_cons, sum_cons, WorkerMessage.cost,
      WorkerPhase.cost] at hset ⊢
    omega
  | sendPiece hphase => exact cost_sendMaster_lt hphase (lt_succ_self 2)
  | checkin hphase =>
    have hset := sum_map_set_add WorkerPhase.cost .idle hphase
    simp only [cost, setWorker, WorkerPhase.cost] at hset ⊢
    omega
  | sendFinished hphase => exact cost_sendMaster_lt hphase (lt_succ_self 1)

/-! ### Whole runs -/

variable (hash) (n pieceLength)

/-- What holds in every state of a run. -/
structure Sound (all : List Job) (s : Hasher ε) : Prop where
  stocked : s.Stocked pieceLength
  steady : s.Steady
  counted : s.Counted n
  onPlan : s.OnPlan hash pieceLength all

variable {hash} {n pieceLength} {all : List Job}

theorem Sound.moves (hp : 0 < pieceLength) (h : s.Sound hash n pieceLength all) (hmove : s.Moves hash s') :
    s'.Sound hash n pieceLength all where
  stocked := h.stocked.moves hp hmove
  steady := h.steady.moves h.stocked hmove
  counted := h.counted.moves h.steady hmove
  onPlan := h.onPlan.moves hp h.stocked h.steady h.counted.stopped_of_returned hmove

variable {events : List HasherStep}

theorem Sound.run (hp : 0 < pieceLength) (h : s.Sound hash n pieceLength all)
    (hrun : s.run hash events = some s') : s'.Sound hash n pieceLength all :=
  run_induction (fun _ _ hs hmove => hs.moves hp hmove) h hrun

theorem Sound.length_events_le (hp : 0 < pieceLength) (h : s.Sound hash n pieceLength all)
    (hrun : s.run hash events = some s') : events.length ≤ s.cost n := by
  induction events generalizing s with
  | nil => exact zero_le _
  | cons event events ih =>
    obtain ⟨next, hstep, hrun⟩ := Option.bind_eq_some_iff.mp hrun
    have hmove := moves_of_step hstep
    have hlt := cost_lt_of_moves h.stocked h.counted hmove
    have hle := ih (h.moves hp hmove) hrun
    rw [length_cons]
    omega

variable {result : Except ε (List (Nat × ShaHash))}

theorem Counted.masterQueue_hashes (h : s.Counted n)
    (hmaster : s.master = .returned result) : (s.masterQueue.map MasterMessage.hashes).sum = 0 := by
  refine sum_eq_zero fun x hx => ?_
  obtain ⟨message, hmessage, rfl⟩ := mem_map.mp hx
  cases message with
  | workerFinished => rfl
  | acceptPiece index given =>
    obtain ⟨front, back, hqueue⟩ := append_of_mem hmessage
    have hlt := h.order front index given back hqueue
    have hheard := h.heard
    rw [hmaster, MasterPhase.heard, hqueue, map_append, List.sum_append, map_cons, sum_cons]
      at hheard
    omega

theorem Counted.workQueue_hashes (hn : 0 < n) (h : s.Counted n) (hreturned : s.isReturned = true) :
    (s.workQueue.map (·.hashes hash)).sum = 0 := by
  have hstopped := h.stopped_of_returned hreturned
  have hends : 0 < (s.workers.map ends).sum := by
    obtain ⟨phase, hphase⟩ := length_pos_iff_exists_mem.mp (h.size.symm ▸ hn)
    refine pos_of_ne_zero fun hzero => ?_
    have hends := sum_eq_zero_iff.mp hzero _ (mem_map_of_mem hphase)
    rw [hstopped phase hphase] at hends
    cases hends
  have hdrained := h.drained hends
  refine sum_eq_zero fun x hx => ?_
  obtain ⟨message, hmessage, rfl⟩ := mem_map.mp hx
  cases message with
  | finish => rfl
  | hashPiece index buffer =>
    have hnone : WorkerMessage.holds (.hashPiece index buffer) = 0 :=
      sum_eq_zero_iff.mp hdrained _ (mem_map_of_mem hmessage)
    cases hnone

theorem Sound.result_eq (hn : 0 < n) (h : s.Sound hash n pieceLength all)
    (hmaster : s.master = .returned result) : result = .ok (numbered hash all) := by
  have hreturned : s.isReturned = true := by rw [isReturned, hmaster]
  obtain ⟨past, -, hpast, hresults⟩ := h.onPlan
  have hahead : s.aheadJobs pieceLength = [] := by
    rw [aheadJobs, carry, hmaster]
    rfl
  have hworkers : (s.workers.map (·.hashes hash)).sum = 0 := by
    refine sum_eq_zero fun x hx => ?_
    obtain ⟨phase, hphase, rfl⟩ := mem_map.mp hx
    rw [h.counted.stopped_of_returned hreturned phase hphase]
    rfl
  rw [hahead, append_nil] at hpast
  rw [results, h.counted.masterQueue_hashes hmaster, hworkers, h.counted.workQueue_hashes hn hreturned, hpast,
    add_zero, add_zero, add_zero, Multiset.coe_eq_coe] at hresults
  rw [h.steady.returned result hmaster, mergeSort_eq_numbered hresults]

end Hasher

/-! ### The start -/

section

variable {ε : Type} {pieceLength numWorkers : Nat}

theorem PieceBuffer.new_of_le (h : pieceLength ≤ isizeMax) :
    ∃ b, new pieceLength = .ok b ∧ b.buffer.length = pieceLength ∧ b.bytesRead = 0 := by
  obtain ⟨buffer, hzeros, hlength⟩ := Buffer.zeros_of_le (ε := Empty) h
  refine ⟨⟨buffer.data, 0⟩, ?_, hlength, rfl⟩
  rw [new, hzeros]
  rfl

theorem mapM_replicate_of_ok {α β : Type} {f : α → Run Empty β} {a : α} {b : β} (h : f a = .ok b) (k : Nat) :
    (replicate k a).mapM f = .ok (replicate k b) := by
  induction k with
  | zero => rfl
  | succ k ih =>
    rw [replicate_succ, mapM_cons, h, ih]
    rfl

theorem calculateTotalBuffers_of_le (h : numWorkers * 2 ≤ usizeMax) :
    calculateTotalBuffers numWorkers = .ok (numWorkers * 2) := by
  rw [calculateTotalBuffers, mulUsize, totalBuffersMultiplicative, if_pos h]
  exact if_pos h

theorem newPieceBuffers_of_le (hlength : pieceLength ≤ isizeMax) (hworkers : numWorkers * 2 ≤ usizeMax) :
    ∃ b, newPieceBuffers pieceLength numWorkers = .ok (.replicate (numWorkers * 2) b) ∧
      b.buffer.length = pieceLength ∧ b.bytesRead = 0 := by
  obtain ⟨b, hnew, hb⟩ := new_of_le hlength
  refine ⟨b, ?_, hb⟩
  rw [newPieceBuffers, calculateTotalBuffers_of_le hworkers]
  exact mapM_replicate_of_ok (f := fun _ : Unit => new pieceLength) (a := ()) hnew _

theorem newPieceBuffers_of_not (hn : 0 < numWorkers)
    (h : ¬(pieceLength ≤ isizeMax ∧ numWorkers * 2 ≤ usizeMax)) :
    newPieceBuffers pieceLength numWorkers = .error .panic := by
  by_cases hworkers : numWorkers * 2 ≤ usizeMax
  · have hnew : new pieceLength = .error .panic := by
      rw [new, Buffer.zeros_of_lt (Nat.lt_of_not_le fun hlength => h ⟨hlength, hworkers⟩)]
      rfl
    obtain ⟨k, hk⟩ := Nat.exists_eq_add_one.mpr (Nat.mul_pos hn Nat.two_pos)
    rw [newPieceBuffers, calculateTotalBuffers_of_le hworkers, ok_bind, hk, replicate_succ, mapM_cons,
      hnew]
    rfl
  · rw [newPieceBuffers, calculateTotalBuffers, mulUsize, totalBuffersMultiplicative, if_neg hworkers]
    rfl

variable {accesses : List (PieceAccess ε)}

theorem startHasherWorkers_of_not {accessError : Option ε} (hn : 0 < numWorkers)
    (h : ¬(pieceLength ≤ isizeMax ∧ numWorkers * 2 ≤ usizeMax)) :
    startHasherWorkers accesses accessError pieceLength numWorkers = .error .panic := by
  rw [startHasherWorkers, newPieceBuffers_of_not hn h]
  rfl

theorem numbered_map_data (hash : Bytes → ShaHash) (l : List Bytes) :
    numbered hash (l.map .data) = l.mapIdx fun i piece => (i, hash piece) := by
  refine ext_getElem? fun i => ?_
  rw [numbered, getElem?_mapIdx, getElem?_mapIdx, getElem?_map, Option.map_map]
  rfl

theorem startHasherWorkers_sound (hash : Bytes → ShaHash)
    (hclean : ∀ a ∈ accesses, a.error = none) (hlength : pieceLength ≤ isizeMax)
    (hworkers : numWorkers * 2 ≤ usizeMax) :
    ∃ s, startHasherWorkers accesses none pieceLength numWorkers = .ok s ∧
      s.Sound hash numWorkers pieceLength (jobs pieceLength [] accesses) ∧ s.isReturned = false := by
  obtain ⟨b, hbuffers, hb⟩ := newPieceBuffers_of_le hlength hworkers
  refine ⟨_, by rw [startHasherWorkers, hbuffers]; rfl, ⟨?_, ?_, ?_, ?_⟩, rfl⟩
  · refine ⟨fun b' hb' => ?_, nofun, fun phase hphase b' hb' => ?_, nofun, nofun⟩
    · rw [eq_of_mem_replicate hb']
      exact hb
    · rw [eq_of_mem_replicate hphase] at hb'
      cases hb'
  · exact ⟨rfl, hclean, nofun, nofun⟩
  · constructor
    · exact length_replicate
    · intro phase hphase
      rw [eq_of_mem_replicate hphase]
      nofun
    · simp [MasterPhase.untold, ends]
    · simp [MasterPhase.heard, stops]
    · intro _
      simp [MasterPhase.inHand, holds]
      omega
    · exact .nil
    · intro _
      rfl
    · intro front index given back hqueue
      cases front <;> cases hqueue
  · refine ⟨[], rfl, rfl, ?_⟩
    simp [Hasher.results, numbered]

/-- Under every schedule the threads come to an end, and what they return are the pieces of the
concatenated regions with their hashes, in their order. -/
theorem hashing_eq_sequential (hash : Bytes → ShaHash) (regions : List Bytes) (hp : 1 ≤ pieceLength)
    (hn : 1 ≤ numWorkers) (hlength : pieceLength ≤ isizeMax) (hworkers : numWorkers * 2 ≤ usizeMax) :
    ∃ start : Hasher ε,
      startHasherWorkers (regions.map fun data => .compute ⟨data, none⟩) none pieceLength numWorkers = .ok start ∧
        ∃ bound, ∀ events s, start.run hash events = some s →
          events.length ≤ bound ∧
            (∀ result, s.master = .returned result →
              result = .ok ((regions.flatten.toChunks pieceLength).mapIdx fun i piece => (i, hash piece))) ∧
            (s.isReturned = false → ∃ event s', s.step hash event = some s') := by
  have hclean : ∀ a ∈ regions.map fun data => PieceAccess.compute (ε := ε) ⟨data, none⟩, a.error = none := by
    intro a ha
    obtain ⟨data, -, rfl⟩ := mem_map.mp ha
    rfl
  obtain ⟨start, hstart, hsound, -⟩ := startHasherWorkers_sound hash hclean hlength hworkers
  have hjobs : numbered hash
      (jobs pieceLength [] (regions.map fun data => PieceAccess.compute (ε := ε) ⟨data, none⟩)) =
        (regions.flatten.toChunks pieceLength).mapIdx fun i piece => (i, hash piece) := by
    have hjobs := jobs_compute hp [] (regions.map fun data => (⟨data, none⟩ : Region ε)) hp
    have hdata : (regions.map fun data => (⟨data, none⟩ : Region ε)).flatMap Region.data = regions.flatten := by
      rw [flatMap_map]
      exact flatMap_id
    rw [map_map, nil_append, hdata] at hjobs
    rw [← numbered_map_data, ← hjobs]
    rfl
  refine ⟨start, hstart, start.cost numWorkers, fun events s hrun => ⟨?_, ?_, ?_⟩⟩
  · exact hsound.length_events_le hp hrun
  · intro result hmaster
    rw [(hsound.run hp hrun).result_eq hn hmaster, hjobs]
  · have hs := hsound.run hp hrun
    exact Hasher.exists_step hn hs.stocked hs.steady hs.counted

theorem hashing_eq_sequential_short :
    ∃ start : Hasher Empty,
      startHasherWorkers ([[1], [], [2, 3]].map fun data => .compute ⟨data, none⟩) none 2 1 = .ok start ∧
        ∃ bound, ∀ events s, start.run lengthHash events = some s →
          events.length ≤ bound ∧
            (∀ result, s.master = .returned result →
              result = .ok (([[1], [], [2, 3]].flatten.toChunks 2).mapIdx fun i piece => (i, lengthHash piece))) ∧
            (s.isReturned = false → ∃ event s', s.step lengthHash event = some s') :=
  hashing_eq_sequential lengthHash [[1], [], [2, 3]] (by decide) (by decide) (by decide) (by decide)

/-- The buffers of such pieces cannot be made. -/
theorem startHasherWorkers_panics :
    startHasherWorkers ([] : List (PieceAccess Empty)) none (2 ^ 63) 1 = .error .panic :=
  startHasherWorkers_of_not (by decide) (by decide)

end

end BitTorrent.Meta
