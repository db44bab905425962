import BitTorrent.MetainfoHashing

/-! The hasher threads come to an end. Buffers are counted over the pool, the queue and the threads, and so
are the requests to finish and the answers to them. While the master waits for a buffer, all buffers are
with the workers or in their queue; while it waits for answers, some worker has not finished. Either way a
worker can go on. Every step uses up something, so a run has an end, and its end is the result. -/

namespace BitTorrent.Meta

open Rust Segments Chunks List WorkerPhase Nat Bool

/-! ### Counting -/

def WorkerMessage.holds : WorkerMessage → Nat
  | .hashPiece _ _ => 1
  | .finish => 0

def WorkerMessage.ends : WorkerMessage → Nat
  | .hashPiece _ _ => 0
  | .finish => 1

def MasterMessage.ends : MasterMessage → Nat
  | .acceptPiece _ _ => 0
  | .workerFinished => 1

/-- The worker has a buffer. -/
def WorkerPhase.holds : WorkerPhase → Nat
  | .hashing _ _ => 1
  | .returning _ => 1
  | _ => 0

/-- The worker was told to finish. -/
def WorkerPhase.ends : WorkerPhase → Nat
  | .finishing => 1
  | .stopped => 1
  | _ => 0

/-- The worker has told the master that it is finished. -/
def WorkerPhase.stops : WorkerPhase → Nat
  | .stopped => 1
  | _ => 0

section

variable {ε : Type}

/-- The master still reads. -/
def MasterPhase.collects : MasterPhase ε → Bool
  | .finishing _ => false
  | .waiting _ => false
  | .returned _ => false
  | _ => true

/-- The workers, of which there are `n`, that were not told to finish. -/
def MasterPhase.untold (n : Nat) : MasterPhase ε → Nat
  | .finishing left => left
  | .waiting _ => 0
  | .returned _ => 0
  | _ => n

/-- The workers that the master has heard to be finished. -/
def MasterPhase.heard (n : Nat) : MasterPhase ε → Nat
  | .waiting workersFinished => workersFinished
  | .returned _ => n
  | _ => 0

/-- The buffers the master has, of which it keeps one between two regions. -/
def MasterPhase.inHand (kept : Option PieceBuffer) : MasterPhase ε → Nat
  | .access _ => if kept.isSome then 1 else 0
  | .reading _ _ _ => 1
  | _ => 0

end

namespace Hasher

variable {ε : Type} {hash : Bytes → ShaHash} {n pieceLength : Nat} {s s' : Hasher ε}

/-- No buffer, no request to finish and no answer is lost, and pieces come before the requests to finish
and before the answers. -/
structure Counted (n : Nat) (s : Hasher ε) : Prop where
  size : s.workers.length = n
  alive : ∀ phase ∈ s.workers, phase ≠ .panicked
  told : s.master.untold n + (s.workQueue.map WorkerMessage.ends).sum + (s.workers.map ends).sum = n
  heard : (s.workers.map stops).sum = (s.masterQueue.map MasterMessage.ends).sum + s.master.heard n
  buffers : s.master.collects = true →
    s.pieceQueue.length + (s.workQueue.map WorkerMessage.holds).sum + (s.workers.map holds).sum +
      s.master.inHand s.optPieceBuffer = 2 * n
  fifo : s.workQueue.Pairwise fun a b => a = .finish → b = .finish
  drained : 0 < (s.workers.map ends).sum → (s.workQueue.map WorkerMessage.holds).sum = 0
  order : ∀ front index given back, s.masterQueue = front ++ .acceptPiece index given :: back →
    (s.workers.map stops).sum < n + (back.map MasterMessage.ends).sum

theorem stops_le_one (phase : WorkerPhase) : phase.stops ≤ 1 := by
  cases phase <;> simp [stops]

theorem ends_le_one (phase : WorkerPhase) : phase.ends ≤ 1 := by
  cases phase <;> simp [ends]

variable {α : Type} {f : α → Nat}

theorem sum_map_le_length (hf : ∀ a, f a ≤ 1) (l : List α) : (l.map f).sum ≤ l.length := by
  induction l with
  | nil => exact le_refl 0
  | cons a l ih =>
    rw [map_cons, sum_cons, length_cons]
    have := hf a
    omega

theorem eq_one_of_length_le_sum (hf : ∀ a, f a ≤ 1) {l : List α}
    (h : l.length ≤ (l.map f).sum) : ∀ a ∈ l, f a = 1 := by
  induction l with
  | nil => exact fun a ha => (by cases ha)
  | cons a l ih =>
    rw [map_cons, sum_cons, length_cons] at h
    have hrest := sum_map_le_length hf l
    have hone := hf a
    exact forall_mem_cons.mpr ⟨by omega, ih (by omega)⟩

variable {a : α}

theorem sum_map_lt_length (hf : ∀ a, f a ≤ 1) {l : List α} (ha : a ∈ l)
    (hzero : f a = 0) : (l.map f).sum < l.length := by
  by_contra hge
  rw [eq_one_of_length_le_sum hf (Nat.le_of_not_lt hge) a ha] at hzero
  cases hzero

theorem exists_mem_of_sum_pos {l : List α} (h : 0 < (l.map f).sum) : ∃ a ∈ l, 0 < f a := by
  by_contra hnone
  push Not at hnone
  refine h.ne' (sum_eq_zero_iff.mpr fun k hk => ?_)
  obtain ⟨a, ha, rfl⟩ := mem_map.mp hk
  exact le_zero.mp (hnone a ha)

theorem stopped_of_stops {phase : WorkerPhase} (h : phase.stops = 1) : phase = .stopped := by
  cases phase <;> first | rfl | cases h

theorem stopped_of_sum {l : List WorkerPhase} (h : l.length ≤ (l.map stops).sum) :
    ∀ phase ∈ l, phase = .stopped := fun phase hphase =>
  stopped_of_stops (eq_one_of_length_le_sum stops_le_one h phase hphase)

theorem Counted.stopped_of_returned (h : s.Counted n) (hreturned : s.isReturned = true) :
    ∀ phase ∈ s.workers, phase = .stopped := by
  refine stopped_of_sum ?_
  have hheard := h.heard
  have hsize := h.size
  unfold isReturned at hreturned
  split at hreturned
  · rename_i result hmaster
    rw [hmaster, MasterPhase.heard] at hheard
    omega
  · cases hreturned

theorem Counted.live (h : s.Counted n) {worker : Nat} {phase : WorkerPhase}
    (hphase : s.workers[worker]? = some phase) (hne : phase ≠ .stopped) : s.isReturned = false := by
  cases hreturned : s.isReturned with
  | false => rfl
  | true => exact absurd (h.stopped_of_returned hreturned phase (mem_of_getElem? hphase)) hne

/-! ### What the steps keep -/

section

variable {worker : Nat} {phase : WorkerPhase} (hphase : s.workers[worker]? = some phase)

include hphase

theorem sum_holds_set (phase' : WorkerPhase) :
    ((s.workers.set worker phase').map holds).sum + phase.holds =
      (s.workers.map holds).sum + phase'.holds := sum_map_set_add _ _ hphase

theorem sum_ends_set (phase' : WorkerPhase) :
    ((s.workers.set worker phase').map ends).sum + phase.ends =
      (s.workers.map ends).sum + phase'.ends := sum_map_set_add _ _ hphase

theorem sum_stops_set (phase' : WorkerPhase) :
    ((s.workers.set worker phase').map stops).sum + phase.stops =
      (s.workers.map stops).sum + phase'.stops := sum_map_set_add _ _ hphase

end

theorem sum_concat (f : α → Nat) (l : List α) (a : α) : ((l ++ [a]).map f).sum = (l.map f).sum + f a := by
  rw [map_append, List.sum_append, map_singleton, sum_singleton]

variable {l : List WorkerMessage}

theorem sum_holds_of_finish (h : ∀ message ∈ l, message = .finish) : (l.map WorkerMessage.holds).sum = 0 := by
  rw [sum_eq_zero_iff]
  intro k hk
  obtain ⟨message, hmessage, rfl⟩ := mem_map.mp hk
  rw [h message hmessage]
  rfl

theorem Counted.sum_ends_of_collects (h : s.Counted n) (hcollects : s.master.untold n = n) :
    (s.workQueue.map WorkerMessage.ends).sum = 0 ∧ (s.workers.map ends).sum = 0 := by
  have htold := h.told
  omega

/-- Without requests to finish, anything may come behind a piece. -/
theorem pairwise_pushPiece (h : (l.map WorkerMessage.ends).sum = 0)
    (hfifo : l.Pairwise fun a b => a = .finish → b = .finish) (message : WorkerMessage) :
    (l ++ [message]).Pairwise fun a b => a = .finish → b = .finish := by
  refine pairwise_append.mpr ⟨hfifo, pairwise_singleton _ _, fun a ha b _ hfinish => ?_⟩
  subst hfinish
  rw [sum_eq_zero_iff] at h
  cases h _ (mem_map_of_mem ha)

theorem append_singleton_eq {l front back : List α} {b : α} (h : l ++ [b] = front ++ a :: back) :
    (back = [] ∧ b = a ∧ l = front) ∨ ∃ back', back = back' ++ [b] ∧ l = front ++ a :: back' := by
  rcases back.eq_nil_or_concat with rfl | ⟨back', last, rfl⟩
  · obtain ⟨hl, hb⟩ := append_inj' h rfl
    exact .inl ⟨rfl, (cons.inj hb).1, hl⟩
  · rw [concat_eq_append, ← cons_append, ← append_assoc] at h
    obtain ⟨hl, hb⟩ := append_inj' h rfl
    refine .inr ⟨back', ?_, hl⟩
    rw [concat_eq_append, (cons.inj hb).1]

theorem sum_stops_lt_of_live {worker : Nat} {phase : WorkerPhase} (hsize : s.workers.length = n)
    (hphase : s.workers[worker]? = some phase) (hne : phase ≠ .stopped) : (s.workers.map stops).sum < n := by
  by_contra hge
  exact hne (stopped_of_sum (by omega) phase (mem_of_getElem? hphase))

theorem pushLast_workQueue (s : Hasher ε) : s.pushLast.workQueue = s.workQueue ∨
    ∃ index buffer, s.pushLast.workQueue = s.workQueue ++ [.hashPiece index buffer] := by
  unfold pushLast
  split
  · split
    · exact .inl rfl
    · exact .inr ⟨_, _, rfl⟩
  · exact .inl rfl

variable {rest : List (PieceAccess ε)} {buffer : PieceBuffer} {region : Region ε}

theorem Steady.not_readFailed (h : s.Steady) {e : ε} (hmaster : s.master = .reading buffer region rest) :
    region.error ≠ some e := by
  have hclean := h.clean
  rw [hmaster] at hclean
  have hnone : PieceAccess.error (.compute region) = none := (forall_mem_cons.mp hclean).1
  rw [PieceAccess.error] at hnone
  rw [hnone]
  exact fun h => (by cases h)

section

variable (h : s.Counted n) (hsteady : s.Steady) (hmove : s.Moves hash s')

include h hmove

theorem Counted.moves_size : s'.workers.length = n := by
  cases hmove with
  | takePiece | takeFinish | checkin => exact (length_set).trans h.size
  | sendPiece | sendFinished =>
    unfold sendMaster
    split <;> exact (length_set).trans h.size
  | accessDone =>
    rw [pushLast_workers]
    exact h.size
  | _ => exact h.size

theorem Counted.moves_alive : ∀ phase ∈ s'.workers, phase ≠ .panicked := by
  have hset : ∀ worker phase, phase ≠ .panicked → ∀ phase' ∈ s.workers.set worker phase, phase' ≠ .panicked := by
    intro worker phase hphase phase' hphase'
    rcases mem_or_eq_of_mem_set hphase' with hold | rfl
    · exact h.alive phase' hold
    · exact hphase
  cases hmove with
  | takePiece | takeFinish | checkin => exact hset _ _ (by simp)
  | sendPiece hphase | sendFinished hphase =>
    rw [sendMaster, h.live hphase (by simp), if_neg Bool.false_ne_true]
    exact hset _ _ (by simp)
  | accessDone =>
    rw [pushLast_workers]
    exact h.alive
  | _ => exact h.alive

theorem Counted.moves_fifo : s'.workQueue.Pairwise fun a b => a = .finish → b = .finish := by
  have hfifo := h.fifo
  cases hmove with
  | readWhole hmaster =>
    exact pairwise_pushPiece (h.sum_ends_of_collects (by rw [hmaster]; rfl)).1 hfifo _
  | accessDone hmaster =>
    simp only
    rcases pushLast_workQueue s with heq | ⟨index, buffer, heq⟩
    · rw [heq]
      exact hfifo
    · rw [heq]
      exact pairwise_pushPiece (h.sum_ends_of_collects (by rw [hmaster]; rfl)).1 hfifo _
  | tellFinish =>
    refine pairwise_append.mpr ⟨hfifo, pairwise_singleton _ _, fun a _ b hb _ => ?_⟩
    exact mem_singleton.mp hb
  | takePiece _ hqueue | takeFinish _ hqueue =>
    rw [hqueue] at hfifo
    exact hfifo.of_cons
  | sendPiece | sendFinished => simpa using hfifo
  | _ => exact hfifo

theorem Counted.moves_drained (hends : 0 < (s'.workers.map ends).sum) :
    (s'.workQueue.map WorkerMessage.holds).sum = 0 := by
  have hdrained := h.drained
  cases hmove with
  | readWhole hmaster | accessDone hmaster =>
    have hnone := (h.sum_ends_of_collects (by rw [hmaster]; rfl)).2
    simp only [pushPiece, pushLast_workers] at hends
    omega
  | tellFinish =>
    rw [sum_concat, hdrained hends]
    rfl
  | @takePiece worker index buffer workQueue hphase hqueue =>
    have hset := sum_ends_set hphase (.hashing index buffer)
    rw [hqueue, map_cons, sum_cons] at hdrained
    simp only [setWorker, WorkerMessage.holds, ends] at *
    omega
  | takeFinish hphase hqueue =>
    -- the request was at the head, so there are only others behind it
    have hfifo := h.fifo
    rw [hqueue] at hfifo
    exact sum_holds_of_finish fun message hmessage => (pairwise_cons.mp hfifo).1 message hmessage rfl
  | @sendPiece worker index buffer hphase =>
    have hset := sum_ends_set hphase (.returning buffer)
    rw [sendMaster, h.live hphase (by simp), if_neg Bool.false_ne_true] at *
    simp only [setWorker, ends] at *
    omega
  | checkin hphase =>
    have hset := sum_ends_set hphase .idle
    simp only [setWorker, ends] at *
    omega
  | sendFinished hphase =>
    have hset := sum_ends_set hphase .stopped
    rw [sendMaster, h.live hphase (by simp), if_neg Bool.false_ne_true] at *
    simp only [setWorker, ends] at *
    omega
  | _ => exact hdrained hends

theorem Counted.moves_buffers (hcollects : s'.master.collects = true) :
    s'.pieceQueue.length + (s'.workQueue.map WorkerMessage.holds).sum + (s'.workers.map holds).sum +
      s'.master.inHand s'.optPieceBuffer = 2 * n := by
  have hbuffers := h.buffers
  cases hmove with
  | readFailed | accessFailed | accessDone | tellFinish | allTold | workerFinished | sortPieces => cases hcollects
  | readWhole hmaster =>
    have hcount := hbuffers (by rw [hmaster]; rfl)
    rw [hmaster] at hcount
    simp only [pushPiece, sum_concat, WorkerMessage.holds, MasterPhase.inHand] at hcount ⊢
    omega
  | readEnd hmaster | readPart hmaster | preComputed hmaster =>
    have hcount := hbuffers (by rw [hmaster]; rfl)
    rw [hmaster] at hcount
    exact hcount
  | keepBuffer hmaster hkept | beginRegion hmaster hkept =>
    have hcount := hbuffers (by rw [hmaster]; rfl)
    rw [hmaster, hkept] at hcount
    exact hcount
  | checkout hmaster hpool | replaceEnd hmaster hpool | replace hmaster hpool =>
    have hcount := hbuffers (by rw [hmaster]; rfl)
    rw [hmaster, hpool, length_cons] at hcount
    simp only [MasterPhase.inHand, Option.isSome_some, if_true] at hcount ⊢
    omega
  | accept hmaster =>
    rw [hmaster] at hcollects
    cases hcollects
  | @takePiece worker index buffer workQueue hphase hqueue =>
    have hset := sum_holds_set hphase (.hashing index buffer)
    have hcount := hbuffers hcollects
    rw [hqueue, map_cons, sum_cons] at hcount
    simp only [setWorker, WorkerMessage.holds, holds] at *
    omega
  | takeFinish hphase hqueue =>
    have hset := sum_holds_set hphase .finishing
    have hcount := hbuffers hcollects
    rw [hqueue, map_cons, sum_cons] at hcount
    simp only [setWorker, WorkerMessage.holds, holds] at *
    omega
  | @sendPiece worker index buffer hphase =>
    have hset := sum_holds_set hphase (.returning buffer)
    have hcount := hbuffers (by simpa using hcollects)
    rw [sendMaster, h.live hphase (by simp), if_neg Bool.false_ne_true]
    simp only [setWorker, holds] at *
    omega
  | @checkin worker buffer hphase =>
    have hset := sum_holds_set hphase .idle
    have hcount := hbuffers hcollects
    simp only [setWorker, length_append, length_singleton, holds] at *
    omega
  | sendFinished hphase =>
    have hset := sum_holds_set hphase .stopped
    have hcount := hbuffers (by simpa using hcollects)
    rw [sendMaster, h.live hphase (by simp), if_neg Bool.false_ne_true]
    simp only [setWorker, holds] at *
    omega

/-- A piece that is on its way to the master comes before the last answer. -/
theorem Counted.moves_order (front : List MasterMessage) (index : Nat) (given : ShaHash)
    (back : List MasterMessage) (hqueue : s'.masterQueue = front ++ .acceptPiece index given :: back) :
    (s'.workers.map stops).sum < n + (back.map MasterMessage.ends).sum := by
  have horder := h.order
  cases hmove with
  | @accept _ index' given' _ _ _ hhead =>
    exact horder (.acceptPiece index' given' :: front) index given back (hhead.trans (congrArg _ hqueue))
  | workerFinished _ _ hhead =>
    exact horder (.workerFinished :: front) index given back (hhead.trans (congrArg _ hqueue))
  | accessDone =>
    simp only [pushLast_masterQueue] at hqueue
    simpa using horder front index given back hqueue
  | @takePiece worker index' buffer workQueue hphase _ =>
    have hset := sum_stops_set hphase (.hashing index' buffer)
    have hlt := horder front index given back hqueue
    simp only [setWorker, stops] at *
    omega
  | takeFinish hphase _ =>
    have hset := sum_stops_set hphase .finishing
    have hlt := horder front index given back hqueue
    simp only [setWorker, stops] at *
    omega
  | checkin hphase =>
    have hset := sum_stops_set hphase .idle
    have hlt := horder front index given back hqueue
    simp only [setWorker, stops] at *
    omega
  | @sendPiece worker index' buffer hphase =>
    have hset := sum_stops_set hphase (.returning buffer)
    have hlt := sum_stops_lt_of_live h.size hphase (by simp)
    rw [sendMaster, h.live hphase (by simp), if_neg Bool.false_ne_true] at *
    simp only [setWorker, stops] at *
    rcases append_singleton_eq hqueue with ⟨rfl, -, -⟩ | ⟨back, rfl, hbefore⟩
    · -- the sender of the piece goes on
      rw [map_nil, sum_nil]
      omega
    · have hold := horder front index given back hbefore
      rw [sum_concat, MasterMessage.ends]
      omega
  | sendFinished hphase =>
    have hset := sum_stops_set hphase .stopped
    rw [sendMaster, h.live hphase (by simp), if_neg Bool.false_ne_true] at *
    simp only [setWorker, stops] at *
    rcases append_singleton_eq hqueue with ⟨-, hmessage, -⟩ | ⟨back, rfl, hbefore⟩
    · cases hmessage
    · have hold := horder front index given back hbefore
      rw [sum_concat, MasterMessage.ends]
      omega
  | _ => exact horder front index given back hqueue

include hsteady

theorem Counted.moves_told : s'.master.untold n + (s'.workQueue.map WorkerMessage.ends).sum +
    (s'.workers.map ends).sum = n := by
  have htold := h.told
  cases hmove with
  | readFailed hmaster herror => exact absurd herror (hsteady.not_readFailed hmaster)
  | accessFailed _ herror =>
    rw [hsteady.access] at herror
    cases herror
  | readWhole hmaster =>
    rw [hmaster] at htold
    simp only [pushPiece, sum_concat]
    exact htold
  | readEnd hmaster | readPart hmaster | preComputed hmaster | keepBuffer hmaster | beginRegion hmaster
  | checkout hmaster | replaceEnd hmaster | replace hmaster | allTold hmaster | workerFinished hmaster
  | sortPieces hmaster =>
    rw [hmaster] at htold
    exact htold
  | accessDone hmaster =>
    rw [hmaster, ← h.size] at htold
    have hends : (s.pushLast.workQueue.map WorkerMessage.ends).sum = (s.workQueue.map WorkerMessage.ends).sum := by
      rcases pushLast_workQueue s with heq | ⟨index, buffer, heq⟩
      · rw [heq]
      · rw [heq, sum_concat]
        rfl
    rw [← h.size]
    simp only [hends, pushLast_workers]
    exact htold
  | tellFinish hmaster =>
    rw [hmaster, MasterPhase.untold] at htold
    simp only [sum_concat, MasterPhase.untold, WorkerMessage.ends]
    omega
  | accept => exact htold
  | @takePiece worker index buffer workQueue hphase hqueue =>
    have hset := sum_ends_set hphase (.hashing index buffer)
    rw [hqueue, map_cons, sum_cons] at htold
    simp only [setWorker, WorkerMessage.ends, ends] at *
    omega
  | takeFinish hphase hqueue =>
    have hset := sum_ends_set hphase .finishing
    rw [hqueue, map_cons, sum_cons] at htold
    simp only [setWorker, WorkerMessage.ends, ends] at *
    omega
  | @sendPiece worker index buffer hphase =>
    have hset := sum_ends_set hphase (.returning buffer)
    rw [sendMaster, h.live hphase (by simp), if_neg Bool.false_ne_true]
    simp only [setWorker, ends] at *
    omega
  | checkin hphase =>
    have hset := sum_ends_set hphase .idle
    simp only [setWorker, ends] at *
    omega
  | sendFinished hphase =>
    have hset := sum_ends_set hphase .stopped
    rw [sendMaster, h.live hphase (by simp), if_neg Bool.false_ne_true]
    simp only [setWorker, ends] at *
    omega

theorem Counted.moves_heard : (s'.workers.map stops).sum =
    (s'.masterQueue.map MasterMessage.ends).sum + s'.master.heard n := by
  have hheard := h.heard
  cases hmove with
  | readFailed hmaster herror => exact absurd herror (hsteady.not_readFailed hmaster)
  | accessFailed _ herror =>
    rw [hsteady.access] at herror
    cases herror
  | readWhole hmaster | readEnd hmaster | readPart hmaster | preComputed hmaster | keepBuffer hmaster
  | beginRegion hmaster | checkout hmaster | replaceEnd hmaster | replace hmaster | tellFinish hmaster
  | allTold hmaster =>
    rw [hmaster] at hheard
    exact hheard
  | accessDone hmaster =>
    rw [hmaster] at hheard
    simp only [pushLast_workers, pushLast_masterQueue]
    exact hheard
  | accept hmaster _ hqueue =>
    rw [hqueue, map_cons, sum_cons, MasterMessage.ends, zero_add] at hheard
    exact hheard
  | workerFinished hmaster _ hqueue =>
    rw [hqueue, hmaster, map_cons, sum_cons, MasterMessage.ends, MasterPhase.heard] at hheard
    simp only [MasterPhase.heard]
    omega
  | sortPieces hmaster hall =>
    -- no more workers are heard than there are
    rw [hmaster, MasterPhase.heard] at hheard
    have hle := sum_map_le_length stops_le_one s.workers
    have hsize := h.size
    simp only [MasterPhase.heard]
    omega
  | @takePiece worker index buffer workQueue hphase hqueue =>
    have hset := sum_stops_set hphase (.hashing index buffer)
    simp only [setWorker, stops] at *
    omega
  | takeFinish hphase hqueue =>
    have hset := sum_stops_set hphase .finishing
    simp only [setWorker, stops] at *
    omega
  | @sendPiece worker index buffer hphase =>
    have hset := sum_stops_set hphase (.returning buffer)
    rw [sendMaster, h.live hphase (by simp), if_neg Bool.false_ne_true]
    simp only [setWorker, sum_concat, MasterMessage.ends, stops] at *
    omega
  | checkin hphase =>
    have hset := sum_stops_set hphase .idle
    simp only [setWorker, stops] at *
    omega
  | sendFinished hphase =>
    have hset := sum_stops_set hphase .stopped
    rw [sendMaster, h.live hphase (by simp), if_neg Bool.false_ne_true]
    simp only [setWorker, sum_concat, MasterMessage.ends, stops] at *
    omega

theorem Counted.moves : s'.Counted n where
  size := h.moves_size hmove
  alive := h.moves_alive hmove
  told := h.moves_told hsteady hmove
  heard := h.moves_heard hsteady hmove
  buffers := h.moves_buffers hmove
  fifo := h.moves_fifo hmove
  drained := h.moves_drained hmove
  order := h.moves_order hmove

end

/-! ### Someone can go on -/

theorem idle_of_nothing {phase : WorkerPhase} (hends : phase.ends = 0) (hholds : phase.holds = 0)
    (halive : phase ≠ .panicked) : phase = .idle := by
  cases phase <;> simp_all [ends, holds]

theorem exists_workerStep (hash : Bytes → ShaHash) {worker : Nat} {phase : WorkerPhase} (hphase : s.workers[worker]? = some phase)
    (hbusy : 0 < phase.holds ∨ phase = .finishing ∨ phase = .idle ∧ s.workQueue ≠ []) :
    ∃ s', s.step hash (.worker worker) = some s' := by
  rw [step, workerStep, hphase]
  cases phase with
  | idle =>
    rcases hbusy with hholds | hfinishing | ⟨-, hqueue⟩
    · cases hholds
    · cases hfinishing
    · obtain ⟨message, workQueue, hqueue⟩ := exists_cons_of_ne_nil hqueue
      rw [hqueue]
      cases message with
      | hashPiece index buffer => exact ⟨_, rfl⟩
      | finish => exact ⟨_, rfl⟩
  | hashing index buffer => exact ⟨_, rfl⟩
  | returning buffer => exact ⟨_, rfl⟩
  | finishing => exact ⟨_, rfl⟩
  | stopped => rcases hbusy with hholds | hfinishing | ⟨hidle, -⟩ <;> contradiction
  | panicked => rcases hbusy with hholds | hfinishing | ⟨hidle, -⟩ <;> contradiction

theorem Counted.worker_of_no_buffer (hn : 0 < n) (h : s.Counted n) (hcollects : s.master.collects = true)
    (huntold : s.master.untold n = n) (hhand : s.master.inHand s.optPieceBuffer = 0)
    (hpool : s.pieceQueue = []) : ∃ event s', s.step hash event = some s' := by
  have hcount := h.buffers hcollects
  have hnone := (h.sum_ends_of_collects huntold).2
  rw [hpool, length_nil, hhand] at hcount
  by_cases hholds : 0 < (s.workers.map holds).sum
  · obtain ⟨phase, hphase, hpos⟩ := exists_mem_of_sum_pos hholds
    obtain ⟨worker, hworker⟩ := getElem?_of_mem hphase
    obtain ⟨s', hs'⟩ := exists_workerStep hash hworker (.inl hpos)
    exact ⟨_, s', hs'⟩
  · -- all buffers are in the queue, and the first worker is idle
    have hlt : 0 < s.workers.length := by rw [h.size]; exact hn
    have hworker : s.workers[0]? = some s.workers[0] := getElem?_eq_getElem hlt
    have hmem := mem_of_getElem? hworker
    have hidle : s.workers[0] = .idle := by
      have hends := sum_eq_zero_iff.mp hnone _ (mem_map_of_mem hmem)
      have hheld := sum_eq_zero_iff.mp (Nat.eq_zero_of_not_pos hholds) _ (mem_map_of_mem hmem)
      exact idle_of_nothing hends hheld (h.alive _ hmem)
    have hqueue : s.workQueue ≠ [] := by
      intro hnil
      rw [hnil, map_nil, sum_nil] at hcount
      omega
    obtain ⟨s', hs'⟩ := exists_workerStep hash hworker (.inr (.inr ⟨hidle, hqueue⟩))
    exact ⟨_, s', hs'⟩

theorem Counted.worker_of_no_message (h : s.Counted n) {workersFinished : Nat}
    (hmaster : s.master = .waiting workersFinished) (hleft : workersFinished < n) (hqueue : s.masterQueue = []) :
    ∃ event s', s.step hash event = some s' := by
  have hheard := h.heard
  have htold := h.told
  have hsize := h.size
  rw [hmaster, hqueue, MasterPhase.heard, map_nil, sum_nil] at hheard
  rw [hmaster, MasterPhase.untold] at htold
  obtain ⟨phase, hphase, hlive⟩ : ∃ phase ∈ s.workers, phase ≠ .stopped := by
    by_contra hall
    push Not at hall
    have hstops : s.workers.map stops = replicate s.workers.length 1 :=
      eq_replicate_iff.mpr ⟨length_map _, fun k hk => by
        obtain ⟨phase, hphase, rfl⟩ := mem_map.mp hk
        rw [hall phase hphase]
        rfl⟩
    rw [hstops, sum_replicate, smul_eq_mul, mul_one] at hheard
    omega
  obtain ⟨worker, hworker⟩ := getElem?_of_mem hphase
  have hbusy : 0 < phase.holds ∨ phase = .finishing ∨ phase = .idle ∧ s.workQueue ≠ [] := by
    cases phase with
    | idle =>
      have hlt := sum_map_lt_length ends_le_one hphase rfl
      refine .inr (.inr ⟨rfl, fun hnil => ?_⟩)
      rw [hnil, map_nil, sum_nil] at htold
      omega
    | hashing index buffer => exact .inl one_pos
    | returning buffer => exact .inl one_pos
    | finishing => exact .inr (.inl rfl)
    | stopped => exact absurd rfl hlive
    | panicked => exact absurd rfl (h.alive _ hphase)
  obtain ⟨s', hs'⟩ := exists_workerStep hash hworker hbusy
  exact ⟨_, s', hs'⟩

theorem exists_read (hstocked : s.Stocked pieceLength) (hsteady : s.Steady)
    (hmaster : s.master = .reading buffer region rest) : ∃ event s', s.step hash event = some s' := by
  have hpos := (hstocked.filled _ _ _ hmaster).space_pos
  refine ⟨.read (min buffer.space region.data.length), ?_⟩
  have hlen : min buffer.space region.data.length = 0 → region.data = [] ∨ buffer.space = 0 := by
    intro hzero
    refine .inl (length_eq_zero_iff.mp ?_)
    omega
  have herror : (if region.data = [] then region.error else none) = none := by
    split
    · cases hregion : region.error with
      | none => rfl
      | some e => exact absurd hregion (hsteady.not_readFailed hmaster)
    · rfl
  rw [step, read, hmaster]
  simp only
  rw [if_pos ⟨min_le_left _ _, min_le_right _ _, hlen⟩, herror]
  simp only
  split
  · exact ⟨_, rfl⟩
  · split <;> exact ⟨_, rfl⟩

theorem exists_step (hn : 0 < n) (hstocked : s.Stocked pieceLength) (hsteady : s.Steady) (h : s.Counted n)
    (hreturned : s.isReturned = false) : ∃ event s', s.step hash event = some s' := by
  cases hmaster : s.master with
  | access rest =>
    refine ⟨.master, ?_⟩
    rw [step, masterStep, hmaster]
    rcases rest with _ | ⟨region | given, rest⟩
    · simp only [hsteady.access]
      exact ⟨_, rfl⟩
    · cases hkept : s.optPieceBuffer with
      | none => exact ⟨_, rfl⟩
      | some buffer => exact ⟨_, rfl⟩
    · exact ⟨_, rfl⟩
  | beginRegion region rest =>
    cases hpool : s.pieceQueue with
    | nil => exact h.worker_of_no_buffer hn (by rw [hmaster]; rfl) (by rw [hmaster]; rfl) (by rw [hmaster]; rfl) hpool
    | cons buffer pieceQueue =>
      refine ⟨.master, ?_⟩
      rw [step, masterStep, hmaster, hpool]
      exact ⟨_, rfl⟩
  | reading buffer region rest => exact exists_read hstocked hsteady hmaster
  | replaceBuffer region endOfRegion rest =>
    cases hpool : s.pieceQueue with
    | nil => exact h.worker_of_no_buffer hn (by rw [hmaster]; rfl) (by rw [hmaster]; rfl) (by rw [hmaster]; rfl) hpool
    | cons buffer pieceQueue =>
      refine ⟨.master, ?_⟩
      rw [step, masterStep, hmaster, hpool]
      cases endOfRegion <;> exact ⟨_, rfl⟩
  | finishing left =>
    refine ⟨.master, ?_⟩
    rw [step, masterStep, hmaster]
    cases left <;> exact ⟨_, rfl⟩
  | waiting workersFinished =>
    by_cases hleft : workersFinished < n
    · cases hqueue : s.masterQueue with
      | nil => exact h.worker_of_no_message hmaster hleft hqueue
      | cons message masterQueue =>
        refine ⟨.master, ?_⟩
        rw [step, masterStep, hmaster]
        simp only
        rw [if_pos (by rw [h.size]; exact hleft), hqueue]
        cases message <;> exact ⟨_, rfl⟩
    · refine ⟨.master, ?_⟩
      rw [step, masterStep, hmaster]
      simp only
      rw [if_neg (by rw [h.size]; exact hleft)]
      exact ⟨_, rfl⟩
  | returned result =>
    rw [isReturned, hmaster] at hreturned
    cases hreturned

end Hasher

end BitTorrent.Meta
