import BitTorrent.Chunks
import BitTorrent.MetainfoWorker

/-! What the hasher threads compute. `jobs` lists the pieces of a torrent in the order of their indices, as
a single thread would cut them from the regions. At every moment the hashes that were sent, are being
computed or are waiting in a queue are those of the first pieces, each once, and what the master has still
ahead of it are the others. So whatever the order of the steps, the sorted hashes are the sequential ones. -/

namespace BitTorrent.Meta

open Rust Segments Chunks List MasterMessage

/-! ### The sequential order -/

/-- A piece is the bytes to be hashed, or a hash that was given. -/
inductive Job where
  | data (bytes : Bytes)
  | hash (hash : ShaHash)
  deriving DecidableEq

def Job.hashed (hash : Bytes → ShaHash) : Job → ShaHash
  | .data bytes => hash bytes
  | .hash given => given

/-- The pieces of what is still to come, after `carry` was read and not handed out yet. -/
def jobs {ε : Type} (pieceLength : Nat) : Bytes → List (PieceAccess ε) → List Job
  | carry, [] => if carry = [] then [] else [.data carry]
  | carry, .preComputed given :: rest => .hash given :: jobs pieceLength carry rest
  | carry, .compute region :: rest =>
    (wholes pieceLength (carry ++ region.data)).map .data ++
      jobs pieceLength (leftover pieceLength (carry ++ region.data)) rest

/-- The pieces with their indices and hashes. -/
def numbered (hash : Bytes → ShaHash) (l : List Job) : List (Nat × ShaHash) :=
  l.mapIdx fun index job => (index, job.hashed hash)

section

variable {ε : Type} {pieceLength : Nat}

/-- Regions in a row are cut as if they were one. -/
theorem jobs_compute (hp : 0 < pieceLength) (carry : Bytes) (regions : List (Region ε))
    (hcarry : carry.length < pieceLength) : jobs pieceLength carry (regions.map .compute) =
      ((carry ++ regions.flatMap Region.data).toChunks pieceLength).map .data := by
  induction regions generalizing carry with
  | nil =>
    rw [map_nil, jobs, flatMap_nil, append_nil, toChunks_of_lt hcarry]
    split <;> rfl
  | cons region regions ih =>
    rw [map_cons, jobs, ih _ (length_leftover_lt hp _), flatMap_cons, ← append_assoc,
      toChunks_append_eq hp (carry ++ region.data), map_append]

theorem jobs_compute_nil {carry : Bytes} (hcarry : carry.length < pieceLength) {region : Region ε}
    (hregion : region.data = []) (rest : List (PieceAccess ε)) :
    jobs pieceLength carry (.compute region :: rest) = jobs pieceLength carry rest := by
  rw [jobs, hregion, append_nil, wholes_of_lt hcarry, leftover_of_lt hcarry]
  rfl

/-- What was read of a region may as well have been carried over. -/
theorem jobs_compute_congr {carry carry' : Bytes} {region region' : Region ε}
    (h : carry ++ region.data = carry' ++ region'.data) (rest : List (PieceAccess ε)) :
    jobs pieceLength carry (.compute region :: rest) = jobs pieceLength carry' (.compute region' :: rest) := by
  rw [jobs, jobs, h]

/-- A whole piece is the next one. -/
theorem jobs_compute_whole (hp : 0 < pieceLength) {carry : Bytes} (hcarry : carry.length = pieceLength)
    (region : Region ε) (rest : List (PieceAccess ε)) : jobs pieceLength carry (.compute region :: rest) =
      .data carry :: jobs pieceLength [] (.compute region :: rest) := by
  rw [jobs, wholes_append hp _ hcarry, leftover_append hp _ hcarry, jobs, nil_append, map_cons,
    cons_append]

theorem numbered_concat (hash : Bytes → ShaHash) (l : List Job) (job : Job) :
    numbered hash (l ++ [job]) = numbered hash l ++ [(l.length, job.hashed hash)] := mapIdx_concat

theorem mergeSort_eq_numbered {hash : Bytes → ShaHash} {l : List Job} {pieces : List (Nat × ShaHash)}
    (h : pieces.Perm (numbered hash l)) : pieces.mergeSort indexLe = numbered hash l := by
  have hnumbered : (numbered hash l).Pairwise fun a b => a.1 < b.1 := by
    rw [pairwise_iff_getElem]
    intro i j hi hj hij
    simpa [numbered] using hij
  have hsorted : (pieces.mergeSort indexLe).Pairwise fun a b => indexLe a b = true :=
    pairwise_mergeSort (fun a b c hab hbc => by simp only [indexLe, decide_eq_true_eq] at *; omega)
      (fun a b => by simp only [indexLe, Bool.or_eq_true, decide_eq_true_eq]; omega) pieces
  have hperm : (pieces.mergeSort indexLe).Perm (numbered hash l) := (mergeSort_perm pieces indexLe).trans h
  refine hperm.eq_of_pairwise (fun a b ha hb hab hba => ?_) hsorted (hnumbered.imp fun hlt => ?_)
  · -- equal indices are the same entry of the numbered list
    simp only [indexLe, decide_eq_true_eq] at hab hba
    obtain ⟨i, hi, rfl⟩ := mem_iff_getElem.mp (hperm.mem_iff.mp ha)
    obtain ⟨j, hj, rfl⟩ := mem_iff_getElem.mp hb
    simp only [numbered, getElem_mapIdx] at hab hba ⊢
    obtain rfl : i = j := by omega
    rfl
  · simp only [indexLe, decide_eq_true_eq]
    exact hlt.le

end

/-! ### Buffers -/

namespace PieceBuffer

variable {pieceLength : Nat} {b : PieceBuffer}

/-- A buffer that is not full. -/
def Fits (pieceLength : Nat) (b : PieceBuffer) : Prop := b.buffer.length = pieceLength ∧ b.bytesRead < pieceLength

theorem Fits.length_asSlice (h : b.Fits pieceLength) : b.asSlice.length = b.bytesRead := by
  rw [asSlice, length_take, h.1]
  exact Nat.min_eq_left h.2.le

theorem Fits.space_pos (h : b.Fits pieceLength) : 0 < b.space := by
  rw [space, h.1]
  exact Nat.sub_pos_of_lt h.2

variable {bytes : Bytes}

theorem Fits.length_writeBytes (h : b.Fits pieceLength) (hspace : bytes.length ≤ b.space) :
    (b.writeBytes bytes).buffer.length = pieceLength := by
  rw [space, h.1] at hspace
  have hlt := h.2
  rw [writeBytes, length_overwrite (by rw [h.1]; omega), h.1]

theorem Fits.asSlice_writeBytes (h : b.Fits pieceLength) :
    (b.writeBytes bytes).asSlice = b.asSlice ++ bytes := by
  have hlt := h.2
  have hlen : (b.buffer.take b.bytesRead ++ bytes).length = b.bytesRead + bytes.length := by
    rw [length_append, length_take, h.1]
    omega
  rw [asSlice, asSlice, writeBytes, overwrite, ← hlen, take_left]

theorem writeBytes_nil : b.writeBytes [] = b := by
  rw [writeBytes, overwrite_nil]
  rfl

theorem Fits.isWhole_eq (h : b.Fits pieceLength) : b.isWhole = false := by
  rw [isWhole, h.1]
  exact decide_eq_false h.2.ne

theorem Fits.write_part (h : b.Fits pieceLength) (hspace : bytes.length ≤ b.space)
    (hpart : (b.writeBytes bytes).isWhole = false) : (b.writeBytes bytes).Fits pieceLength := by
  have hlen := h.length_writeBytes hspace
  refine ⟨hlen, ?_⟩
  rw [isWhole, hlen, decide_eq_false_iff_not] at hpart
  rw [space, h.1] at hspace
  have hlt := h.2
  simp only [writeBytes] at hpart ⊢
  omega

theorem Fits.length_asSlice_whole (h : b.Fits pieceLength) (hspace : bytes.length ≤ b.space)
    (hwhole : (b.writeBytes bytes).isWhole = true) : (b.writeBytes bytes).asSlice.length = pieceLength := by
  have hlen := h.length_writeBytes hspace
  rw [isWhole, hlen, decide_eq_true_eq] at hwhole
  rw [asSlice, length_take, hlen, hwhole, Nat.min_self]

theorem asSlice_of_bytesRead (h : b.bytesRead = 0) : b.asSlice = [] := by
  rw [asSlice, h, take_zero]

theorem Fits.asSlice_eq_nil_iff (h : b.Fits pieceLength) : b.asSlice = [] ↔ b.isEmpty = true := by
  rw [← length_eq_zero_iff, h.length_asSlice, isEmpty, decide_eq_true_eq]

end PieceBuffer

/-! ### The plan and how far it got -/

def PieceAccess.error {ε : Type} : PieceAccess ε → Option ε
  | .compute region => region.error
  | .preComputed _ => none

/-- The calls of the closure that are not over. -/
def MasterPhase.ahead {ε : Type} : MasterPhase ε → List (PieceAccess ε)
  | .access rest => rest
  | .beginRegion region rest => .compute region :: rest
  | .reading _ region rest => .compute region :: rest
  | .replaceBuffer region _ rest => .compute region :: rest
  | _ => []

section

variable (hash : Bytes → ShaHash)

/-- The hash that a message to the master holds. -/
def MasterMessage.hashes : MasterMessage → Multiset (Nat × ShaHash)
  | .acceptPiece index given => {(index, given)}
  | .workerFinished => 0

/-- The hash that will come of a message to the workers. -/
def WorkerMessage.hashes : WorkerMessage → Multiset (Nat × ShaHash)
  | .hashPiece index buffer => {(index, hash buffer.asSlice)}
  | .finish => 0

def WorkerPhase.hashes : WorkerPhase → Multiset (Nat × ShaHash)
  | .hashing index buffer => {(index, hash buffer.asSlice)}
  | _ => 0

variable (index : Nat) (given : ShaHash) (buffer : PieceBuffer)

@[simp] theorem MasterMessage.hashes_acceptPiece : (acceptPiece index given).hashes = {(index, given)} := rfl

@[simp] theorem MasterMessage.hashes_workerFinished : workerFinished.hashes = 0 := rfl

@[simp] theorem WorkerMessage.hashes_hashPiece :
    (hashPiece index buffer).hashes hash = {(index, hash buffer.asSlice)} := rfl

@[simp] theorem WorkerMessage.hashes_finish : finish.hashes hash = 0 := rfl

@[simp] theorem WorkerPhase.hashes_hashing :
    (hashing index buffer).hashes hash = {(index, hash buffer.asSlice)} := rfl

@[simp] theorem WorkerPhase.hashes_idle : idle.hashes hash = 0 := rfl

@[simp] theorem WorkerPhase.hashes_returning : (returning buffer).hashes hash = 0 := rfl

end

def WorkerPhase.buffer : WorkerPhase → Option PieceBuffer
  | .hashing _ buffer => some buffer
  | .returning buffer => some buffer
  | _ => none

namespace Hasher

variable {ε : Type} (hash : Bytes → ShaHash) (pieceLength : Nat)

/-- What was read and is not handed out. -/
def carry (s : Hasher ε) : Bytes :=
  match s.master with
  | .access _ => s.optPieceBuffer.elim [] PieceBuffer.asSlice
  | .reading buffer _ _ => buffer.asSlice
  | _ => []

/-- The pieces that were not handed out. -/
def aheadJobs (s : Hasher ε) : List Job := jobs pieceLength s.carry s.master.ahead

/-- The hashes of the pieces that were handed out, wherever they are. -/
def results (s : Hasher ε) : Multiset (Nat × ShaHash) :=
  ↑s.pieces + (s.masterQueue.map hashes).sum + (s.workers.map (·.hashes hash)).sum +
    (s.workQueue.map (·.hashes hash)).sum

/-- The plan `all`, the first part of which is handed out. -/
def OnPlan (all : List Job) (s : Hasher ε) : Prop :=
  ∃ past, past.length = s.pieceIndex ∧ past ++ s.aheadJobs pieceLength = all ∧
    s.results hash = ↑(numbered hash past)

/-- Every buffer has the length of a piece; those in the pool are empty, and those of the master not
full. -/
structure Stocked (s : Hasher ε) : Prop where
  pool : ∀ b ∈ s.pieceQueue, b.buffer.length = pieceLength ∧ b.bytesRead = 0
  queued : ∀ index b, .hashPiece index b ∈ s.workQueue → b.buffer.length = pieceLength
  held : ∀ phase ∈ s.workers, ∀ b, phase.buffer = some b → b.buffer.length = pieceLength
  kept : ∀ b, s.optPieceBuffer = some b → b.Fits pieceLength
  filled : ∀ b region rest, s.master = .reading b region rest → b.Fits pieceLength

/-- No reader fails, and a region is never at its end when a piece is full. -/
structure Steady (s : Hasher ε) : Prop where
  access : s.accessError = none
  clean : ∀ a ∈ s.master.ahead, a.error = none
  replaced : ∀ region endOfRegion rest, s.master = .replaceBuffer region endOfRegion rest → endOfRegion = false
  returned : ∀ result, s.master = .returned result → result = .ok (s.pieces.mergeSort indexLe)

variable {hash} {pieceLength} {all : List Job} {s s' : Hasher ε}

theorem OnPlan.same (h : s.OnPlan hash pieceLength all) (hindex : s'.pieceIndex = s.pieceIndex)
    (hahead : s'.aheadJobs pieceLength = s.aheadJobs pieceLength)
    (hresults : s'.results hash = s.results hash) : s'.OnPlan hash pieceLength all := by
  obtain ⟨past, hlength, hall, hpast⟩ := h
  exact ⟨past, by rw [hlength, hindex], by rw [hahead, hall], by rw [hresults, hpast]⟩

theorem OnPlan.next (h : s.OnPlan hash pieceLength all) (job : Job) (hindex : s'.pieceIndex = s.pieceIndex + 1)
    (hahead : s.aheadJobs pieceLength = job :: s'.aheadJobs pieceLength)
    (hresults : s'.results hash = s.results hash + {(s.pieceIndex, job.hashed hash)}) :
    s'.OnPlan hash pieceLength all := by
  obtain ⟨past, hlength, hall, hpast⟩ := h
  refine ⟨past ++ [job], ?_, ?_, ?_⟩
  · rw [length_append, hlength, hindex]
    rfl
  · rw [← hall, hahead, append_assoc]
    rfl
  · rw [hresults, hpast, numbered_concat, hlength]
    rfl

theorem results_pushPiece (s : Hasher ε) (buffer : PieceBuffer) :
    (s.pushPiece buffer).results hash = s.results hash + {(s.pieceIndex, hash buffer.asSlice)} := by
  simp only [results, pushPiece, map_append, sum_append, map_cons, map_nil,
    sum_cons, sum_nil, WorkerMessage.hashes_hashPiece, add_zero, add_assoc]

/-! ### What the steps keep -/

theorem Stocked.moves (hp : 0 < pieceLength) (h : s.Stocked pieceLength) (hmove : s.Moves hash s') :
    s'.Stocked pieceLength := by
  have hempty : ∀ b ∈ s.pieceQueue, b.Fits pieceLength := fun b hb =>
    ⟨(h.pool b hb).1, by rw [(h.pool b hb).2]; exact hp⟩
  constructor
  · -- the pool
    cases hmove with
    | checkout _ hpool | replaceEnd _ hpool | replace _ hpool =>
      exact fun b hb => h.pool b (by rw [hpool]; exact mem_cons_of_mem _ hb)
    | @checkin worker buffer hphase =>
      intro b hb
      rcases mem_append.mp hb with hb | hb
      · exact h.pool b hb
      · cases mem_singleton.mp hb
        exact ⟨h.held _ (mem_of_getElem? hphase) buffer rfl, rfl⟩
    | accessDone => simpa using h.pool
    | sendPiece | sendFinished => simpa using h.pool
    | _ => exact h.pool
  · -- the queue of work
    cases hmove with
    | readWhole hmaster hspace hthere _ _ =>
      intro index b hb
      rcases mem_append.mp hb with hb | hb
      · exact h.queued index b hb
      · cases mem_singleton.mp hb
        exact (h.filled _ _ _ hmaster).length_writeBytes (by rw [length_take]; omega)
    | accessDone hmaster _ =>
      intro index b hb
      simp only [pushLast] at hb
      split at hb
      · rename_i buffer hkept
        split at hb
        · exact h.queued index b hb
        · rcases mem_append.mp hb with hb | hb
          · exact h.queued index b hb
          · cases mem_singleton.mp hb
            exact (h.kept _ hkept).1
      · exact h.queued index b hb
    | tellFinish =>
      intro index b hb
      rcases mem_append.mp hb with hb | hb
      · exact h.queued index b hb
      · cases mem_singleton.mp hb
    | takePiece _ hqueue | takeFinish _ hqueue =>
      exact fun index b hb => h.queued index b (by rw [hqueue]; exact mem_cons_of_mem _ hb)
    | sendPiece | sendFinished => simpa using h.queued
    | _ => exact h.queued
  · -- the workers
    have hset : ∀ worker phase, (∀ b, phase.buffer = some b → b.buffer.length = pieceLength) →
        ∀ phase' ∈ s.workers.set worker phase, ∀ b, phase'.buffer = some b → b.buffer.length = pieceLength := by
      intro worker phase hphase phase' hphase'
      rcases mem_or_eq_of_mem_set hphase' with hold | rfl
      · exact h.held phase' hold
      · exact hphase
    cases hmove with
    | takePiece hphase hqueue =>
      refine hset _ _ fun b hb => ?_
      cases hb
      exact h.queued _ _ (by rw [hqueue]; exact mem_cons_self)
    | takeFinish | checkin => exact hset _ _ fun b hb => (by cases hb)
    | sendPiece hphase =>
      unfold sendMaster
      split
      · exact hset _ _ fun b hb => (by cases hb)
      · refine hset _ _ fun b hb => ?_
        cases hb
        exact h.held _ (mem_of_getElem? hphase) _ rfl
    | sendFinished =>
      unfold sendMaster
      split
      · exact hset _ _ fun b hb => (by cases hb)
      · exact hset _ _ fun b hb => (by cases hb)
    | accessDone => simpa using h.held
    | _ => exact h.held
  · -- the buffer kept between regions
    cases hmove with
    | readEnd hmaster _ _ =>
      intro b hb
      cases hb
      rw [PieceBuffer.writeBytes_nil]
      exact h.filled _ _ _ hmaster
    | replaceEnd _ hpool =>
      intro b hb
      cases hb
      exact hempty _ (by rw [hpool]; exact mem_cons_self)
    | keepBuffer => exact fun b hb => (by cases hb)
    | accessDone => simp
    | sendPiece | sendFinished => simpa using h.kept
    | _ => exact h.kept
  · -- the buffer that is read into
    cases hmove with
    | readPart hmaster hspace hthere _ hpart =>
      intro b region rest hreading
      cases hreading
      exact (h.filled _ _ _ hmaster).write_part (by rw [length_take]; omega) hpart
    | keepBuffer _ hkept =>
      intro b region rest hreading
      cases hreading
      exact h.kept _ hkept
    | checkout _ hpool | replace _ hpool =>
      intro b region rest hreading
      cases hreading
      exact hempty _ (by rw [hpool]; exact mem_cons_self)
    | accept | takePiece | takeFinish | checkin => exact h.filled
    | sendPiece | sendFinished => simpa using h.filled
    | _ => exact fun b region rest hreading => (by cases hreading)

theorem Steady.moves (hstocked : s.Stocked pieceLength) (h : s.Steady) (hmove : s.Moves hash s') : s'.Steady := by
  constructor
  · cases hmove with
    | accessDone => simpa using h.access
    | sendPiece | sendFinished => simpa using h.access
    | _ => exact h.access
  · -- every step but those of the workers takes something off what is ahead
    have hclean := h.clean
    cases hmove with
    | readWhole hmaster | readPart hmaster =>
      rw [hmaster] at hclean
      obtain ⟨hregion, hrest⟩ := forall_mem_cons.mp hclean
      exact forall_mem_cons.mpr ⟨hregion, hrest⟩
    | readEnd hmaster | preComputed hmaster | replaceEnd hmaster =>
      rw [hmaster] at hclean
      exact (forall_mem_cons.mp hclean).2
    | keepBuffer hmaster | beginRegion hmaster | checkout hmaster | replace hmaster =>
      rw [hmaster] at hclean
      exact hclean
    | accept | takePiece | takeFinish | checkin => exact hclean
    | sendPiece | sendFinished => simpa using hclean
    | _ => exact fun a ha => (by cases ha)
  · cases hmove with
    | readWhole hmaster _ _ _ hwhole =>
      intro region endOfRegion rest hreplace
      cases hreplace
      refine beq_eq_false_iff_ne.mpr ?_
      rintro rfl
      rw [take_zero, PieceBuffer.writeBytes_nil, (hstocked.filled _ _ _ hmaster).isWhole_eq] at hwhole
      cases hwhole
    | accept | takePiece | takeFinish | checkin => exact h.replaced
    | sendPiece | sendFinished => simpa using h.replaced
    | _ => exact fun region endOfRegion rest hreplace => (by cases hreplace)
  · cases hmove with
    | readFailed hmaster herror =>
      have hclean := h.clean
      rw [hmaster] at hclean
      have hnone : PieceAccess.error (.compute _) = none := (forall_mem_cons.mp hclean).1
      rw [PieceAccess.error, herror] at hnone
      cases hnone
    | accessFailed _ herror =>
      have hnone := h.access
      rw [herror] at hnone
      cases hnone
    | sortPieces =>
      intro result hreturned
      cases hreturned
      rfl
    | takePiece | takeFinish | checkin => exact h.returned
    | sendPiece | sendFinished => simpa using h.returned
    | accept hmaster => exact fun result hreturned => (by rw [hmaster] at hreturned; cases hreturned)
    | _ => exact fun result hreturned => (by cases hreturned)

/-- Every thread's part of the results, when one worker goes on. -/
theorem sum_hashes_set {worker : Nat} {phase phase' : WorkerPhase} (hphase : s.workers[worker]? = some phase) :
    ((s.workers.set worker phase').map (·.hashes hash)).sum + phase.hashes hash =
      (s.workers.map (·.hashes hash)).sum + phase'.hashes hash := sum_map_set_add _ _ hphase

section

variable (h : s.OnPlan hash pieceLength all)

include h

theorem OnPlan.readWhole (hstocked : s.Stocked pieceLength) (hp : 0 < pieceLength) {buffer : PieceBuffer}
    {region : Region ε} {rest : List (PieceAccess ε)} {len : Nat} {endOfRegion : Bool}
    (hmaster : s.master = .reading buffer region rest) (hspace : len ≤ buffer.space)
    (hwhole : (buffer.writeBytes (region.data.take len)).isWhole = true) :
    OnPlan hash pieceLength all { s.pushPiece (buffer.writeBytes (region.data.take len)) with
      master := .replaceBuffer { region with data := region.data.drop len } endOfRegion rest } := by
  have hfits := hstocked.filled _ _ _ hmaster
  have htake : (region.data.take len).length ≤ buffer.space := (length_take_le _ _).trans hspace
  refine h.next (.data (buffer.writeBytes (region.data.take len)).asSlice) rfl ?_ ?_
  · let left : Region ε := { region with data := region.data.drop len }
    have hread : buffer.asSlice ++ region.data =
        (buffer.writeBytes (region.data.take len)).asSlice ++ left.data := by
      rw [hfits.asSlice_writeBytes, append_assoc, take_append_drop]
    have hahead : s.aheadJobs pieceLength = jobs pieceLength buffer.asSlice (.compute region :: rest) := by
      rw [aheadJobs, carry, hmaster]
      rfl
    rw [hahead, jobs_compute_congr hread, jobs_compute_whole hp (hfits.length_asSlice_whole htake hwhole)]
    rfl
  · exact results_pushPiece s _

theorem OnPlan.accessDone (hstocked : s.Stocked pieceLength) (hmaster : s.master = .access []) :
    OnPlan hash pieceLength all { s.pushLast with master := .finishing s.workers.length } := by
  have hahead : s.aheadJobs pieceLength =
      jobs (ε := ε) pieceLength (s.optPieceBuffer.elim [] PieceBuffer.asSlice) [] := by
    rw [aheadJobs, carry, hmaster]
    rfl
  rw [jobs] at hahead
  unfold pushLast
  cases hkept : s.optPieceBuffer with
  | none =>
    rw [hkept] at hahead
    exact h.same rfl hahead.symm rfl
  | some buffer =>
    have hempty := (hstocked.kept buffer hkept).asSlice_eq_nil_iff
    rw [hkept, Option.elim_some] at hahead
    simp only
    by_cases hnil : buffer.asSlice = []
    · rw [if_pos hnil] at hahead
      rw [if_pos (hempty.mp hnil)]
      exact h.same rfl hahead.symm rfl
    · rw [if_neg hnil] at hahead
      rw [if_neg fun hread => hnil (hempty.mpr hread)]
      refine h.next (.data buffer.asSlice) rfl hahead ?_
      exact results_pushPiece s buffer

theorem OnPlan.sendPiece (hlive : s.isReturned = false) {worker index : Nat} {buffer : PieceBuffer}
    (hphase : s.workers[worker]? = some (.hashing index buffer)) : OnPlan hash pieceLength all
      (s.sendMaster worker (.acceptPiece index (hash buffer.asSlice)) (.returning buffer)) := by
  rw [sendMaster, hlive, if_neg Bool.false_ne_true]
  refine h.same rfl rfl ?_
  have hset := @sum_hashes_set ε hash s worker _ (.returning buffer) hphase
  simp only [WorkerPhase.hashes_hashing, WorkerPhase.hashes_returning, add_zero] at hset
  simp only [results, setWorker, map_append, sum_append, map_cons, map_nil, sum_cons,
    sum_nil, hashes_acceptPiece, add_zero, ← hset]
  abel

theorem OnPlan.takePiece {worker index : Nat} {buffer : PieceBuffer} {workQueue : List WorkerMessage}
    (hphase : s.workers[worker]? = some .idle) (hqueue : s.workQueue = .hashPiece index buffer :: workQueue) :
    OnPlan hash pieceLength all ({ s with workQueue }.setWorker worker (.hashing index buffer)) := by
  refine h.same rfl rfl ?_
  have hset := @sum_hashes_set ε hash s worker _ (.hashing index buffer) hphase
  simp only [WorkerPhase.hashes_hashing, WorkerPhase.hashes_idle, add_zero] at hset
  simp only [results, setWorker, hset, hqueue, map_cons, sum_cons, WorkerMessage.hashes_hashPiece]
  abel

theorem OnPlan.otherWorker {worker : Nat} {phase phase' : WorkerPhase}
    (hphase : s.workers[worker]? = some phase) (hnone : phase.hashes hash = 0) (hnone' : phase'.hashes hash = 0)
    (hindex : s'.pieceIndex = s.pieceIndex) (hahead : s'.aheadJobs pieceLength = s.aheadJobs pieceLength)
    (hpieces : s'.pieces = s.pieces) (hworkers : s'.workers = s.workers.set worker phase')
    (hmessages : (s'.masterQueue.map hashes).sum = (s.masterQueue.map hashes).sum)
    (hwork : (s'.workQueue.map (·.hashes hash)).sum = (s.workQueue.map (·.hashes hash)).sum) :
    s'.OnPlan hash pieceLength all := by
  refine h.same hindex hahead ?_
  have hset := @sum_hashes_set ε hash s worker phase phase' hphase
  rw [hnone, hnone', add_zero, add_zero] at hset
  rw [results, hpieces, hworkers, hmessages, hwork, hset, results]

theorem OnPlan.moves (hp : 0 < pieceLength) (hstocked : s.Stocked pieceLength) (hsteady : s.Steady)
    (hstopped : s.isReturned = true → ∀ phase ∈ s.workers, phase = .stopped) (hmove : s.Moves hash s') :
    s'.OnPlan hash pieceLength all := by
  have hlive : ∀ {worker : Nat} {phase : WorkerPhase}, s.workers[worker]? = some phase → phase ≠ .stopped → s.isReturned = false := by
    intro worker phase hphase hne
    cases hreturned : s.isReturned with
    | false => rfl
    | true => exact absurd (hstopped hreturned phase (mem_of_getElem? hphase)) hne
  cases hmove with
  | readFailed hmaster herror =>
    have hclean := hsteady.clean
    rw [hmaster] at hclean
    have hnone : PieceAccess.error (.compute _) = none := (forall_mem_cons.mp hclean).1
    rw [PieceAccess.error, herror] at hnone
    cases hnone
  | accessFailed _ herror =>
    rw [hsteady.access] at herror
    cases herror
  | readWhole hmaster hspace _ _ hwhole => exact h.readWhole hstocked hp hmaster hspace hwhole
  | @readEnd buffer region rest hmaster hzero _ =>
    have hfits := hstocked.filled _ _ _ hmaster
    have hend := hzero.resolve_right hfits.space_pos.ne'
    have hlt : buffer.asSlice.length < pieceLength := by
      rw [hfits.length_asSlice]
      exact hfits.2
    refine h.same rfl ?_ rfl
    rw [PieceBuffer.writeBytes_nil, aheadJobs, aheadJobs, carry, carry, hmaster]
    exact (jobs_compute_nil hlt hend rest).symm
  | readPart hmaster hspace _ _ _ =>
    have hfits := hstocked.filled _ _ _ hmaster
    refine h.same rfl ?_ rfl
    rw [aheadJobs, aheadJobs, carry, carry, hmaster]
    refine jobs_compute_congr ?_ _
    simp only
    rw [hfits.asSlice_writeBytes, append_assoc, take_append_drop]
  | accessDone hmaster _ => exact h.accessDone hstocked hmaster
  | @preComputed given rest hmaster =>
    refine h.next (.hash given) rfl ?_ ?_
    · rw [aheadJobs, aheadJobs, carry, carry, hmaster]
      rfl
    · simp only [results, ← Multiset.coe_add, Multiset.coe_singleton, Job.hashed]
      abel
  | keepBuffer hmaster hkept | beginRegion hmaster hkept =>
    refine h.same rfl ?_ rfl
    rw [aheadJobs, aheadJobs, carry, carry, hmaster, hkept]
    rfl
  | checkout hmaster hpool | replace hmaster hpool =>
    have hempty := (hstocked.pool _ (by rw [hpool]; exact mem_cons_self)).2
    refine h.same rfl ?_ rfl
    rw [aheadJobs, aheadJobs, carry, carry, hmaster]
    simp only [PieceBuffer.asSlice_of_bytesRead hempty]
    rfl
  | replaceEnd hmaster _ => cases hsteady.replaced _ _ _ hmaster
  | tellFinish hmaster =>
    refine h.same rfl ?_ ?_
    · rw [aheadJobs, aheadJobs, carry, carry, hmaster]
      rfl
    · simp only [results, map_append, sum_append, map_cons, map_nil, sum_cons,
        sum_nil, WorkerMessage.hashes_finish, add_zero]
  | allTold hmaster | sortPieces hmaster =>
    refine h.same rfl ?_ rfl
    rw [aheadJobs, aheadJobs, carry, carry, hmaster]
    rfl
  | accept hmaster _ hqueue =>
    refine h.same rfl rfl ?_
    simp only [results, hqueue, map_cons, sum_cons, hashes_acceptPiece,
      ← Multiset.coe_add, Multiset.coe_singleton]
    abel
  | workerFinished hmaster _ hqueue =>
    refine h.same rfl ?_ ?_
    · rw [aheadJobs, aheadJobs, carry, carry, hmaster]
      rfl
    · simp only [results, hqueue, map_cons, sum_cons, hashes_workerFinished, zero_add]
  | takePiece hphase hqueue => exact h.takePiece hphase hqueue
  | takeFinish hphase hqueue =>
    refine h.otherWorker hphase rfl rfl rfl rfl rfl rfl rfl ?_
    simp only [setWorker, hqueue, map_cons, sum_cons, WorkerMessage.hashes_finish, zero_add]
  | sendPiece hphase => exact h.sendPiece (hlive hphase nofun) hphase
  | checkin hphase => exact h.otherWorker hphase rfl rfl rfl rfl rfl rfl rfl rfl
  | sendFinished hphase =>
    rw [sendMaster, hlive hphase nofun, if_neg Bool.false_ne_true]
    refine h.otherWorker hphase rfl rfl rfl rfl rfl rfl ?_ rfl
    simp only [setWorker, map_append, sum_append, map_cons, map_nil, sum_cons,
      sum_nil, hashes_workerFinished, add_zero]

end

end Hasher

end BitTorrent.Meta
