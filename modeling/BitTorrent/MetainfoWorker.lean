import BitTorrent.RustNom
import BitTorrent.Segments
import BitTorrent.ShaHash

/-! The threads that hash the pieces of a torrent. The master fills buffers with what it reads, region
after region, and puts full ones into a queue of work; the workers take them from there, send the hash to
the master and put the buffer back into a pool, from which the master takes the next one. The pool starts
with two buffers for each worker, and a master that finds it empty waits. Every operation on a queue is
one step, and the steps of the threads come in any order. -/

namespace BitTorrent.Meta

open Rust Segments

/-! ### Buffers -/

def totalBuffersMultiplicative : Nat := 2

def totalBuffersAdditive : Nat := 0

structure PieceBuffer where
  buffer : Bytes
  bytesRead : Nat
  deriving DecidableEq

namespace PieceBuffer

def new (pieceLength : Nat) : Run Empty PieceBuffer := do
  let buffer ← Buffer.zeros pieceLength
  .ok ⟨buffer.data, 0⟩

/-- How much can be written at most. -/
def space (b : PieceBuffer) : Nat := b.buffer.length - b.bytesRead

/-- The callback has put the bytes at the front of what was not written yet. -/
def writeBytes (b : PieceBuffer) (bytes : Bytes) : PieceBuffer :=
  ⟨overwrite b.buffer b.bytesRead bytes, b.bytesRead + bytes.length⟩

def isWhole (b : PieceBuffer) : Bool := b.bytesRead = b.buffer.length

def isEmpty (b : PieceBuffer) : Bool := b.bytesRead = 0

def asSlice (b : PieceBuffer) : Bytes := b.buffer.take b.bytesRead

/-- What `checkin` puts into the pool: the old bytes are still there. -/
def reset (b : PieceBuffer) : PieceBuffer := ⟨b.buffer, 0⟩

end PieceBuffer

def calculateTotalBuffers (numWorkers : Nat) : Run Empty Nat := do
  addUsize (← mulUsize numWorkers totalBuffersMultiplicative) totalBuffersAdditive

/-- The pool of `PieceBuffers::new`. -/
def newPieceBuffers (pieceLength numWorkers : Nat) : Run Empty (List PieceBuffer) := do
  let totalBuffers ← calculateTotalBuffers numWorkers
  (List.replicate totalBuffers ()).mapM fun _ => PieceBuffer.new pieceLength

/-! ### Threads -/

/-- What a reader delivers, in portions of any size, and whether it then fails. -/
structure Region (ε : Type) where
  data : Bytes
  error : Option ε
  deriving DecidableEq

inductive PieceAccess (ε : Type) where
  | compute (region : Region ε)
  | preComputed (hash : ShaHash)
  deriving DecidableEq

inductive MasterMessage where
  | acceptPiece (index : Nat) (hash : ShaHash)
  | workerFinished
  deriving DecidableEq

inductive WorkerMessage where
  | hashPiece (index : Nat) (buffer : PieceBuffer)
  | finish
  deriving DecidableEq

/-- Where `start_hash_worker` is. -/
inductive WorkerPhase where
  /-- About to look for work. -/
  | idle
  | hashing (index : Nat) (buffer : PieceBuffer)
  /-- The hash is sent, the buffer not yet returned. -/
  | returning (buffer : PieceBuffer)
  /-- It has been told to finish. -/
  | finishing
  | stopped
  /-- The master was gone when it had something to send. -/
  | panicked
  deriving DecidableEq

/-- Where `start_hash_master` is. -/
inductive MasterPhase (ε : Type) where
  /-- `access_pieces` is about to call the closure again. -/
  | access (rest : List (PieceAccess ε))
  /-- A region begins and there is no buffer for it yet. -/
  | beginRegion (region : Region ε) (rest : List (PieceAccess ε))
  | reading (buffer : PieceBuffer) (region : Region ε) (rest : List (PieceAccess ε))
  /-- A whole piece was handed out, and its buffer is to be replaced. -/
  | replaceBuffer (region : Region ε) (endOfRegion : Bool) (rest : List (PieceAccess ε))
  /-- So many workers are still to be told to finish. -/
  | finishing (left : Nat)
  | waiting (workersFinished : Nat)
  | returned (result : Except ε (List (Nat × ShaHash)))
  deriving DecidableEq

/-- All threads with what they share. `accessError` is the error with which `access_pieces` ends, if it
does, and `progress` are the indices sent to the thread that reports progress. -/
structure Hasher (ε : Type) where
  workQueue : List WorkerMessage
  pieceQueue : List PieceBuffer
  masterQueue : List MasterMessage
  progress : List Nat
  workers : List WorkerPhase
  master : MasterPhase ε
  accessError : Option ε
  pieces : List (Nat × ShaHash)
  pieceIndex : Nat
  optPieceBuffer : Option PieceBuffer
  deriving DecidableEq

/-- The steps: a read of the master that returns so many bytes, its other steps, and those of a worker. -/
inductive HasherStep where
  | read (len : Nat)
  | master
  | worker (worker : Nat)
  deriving DecidableEq

def startHasherWorkers {ε : Type} (accesses : List (PieceAccess ε)) (accessError : Option ε)
    (pieceLength numWorkers : Nat) : Run Empty (Hasher ε) := do
  let pieceBuffers ← newPieceBuffers pieceLength numWorkers
  .ok ⟨[], pieceBuffers, [], [], .replicate numWorkers .idle, .access accesses, accessError, [], 0, none⟩

def indexLe (a b : Nat × ShaHash) : Bool := a.1 ≤ b.1

namespace Hasher

variable {ε : Type}

def pushPiece (s : Hasher ε) (buffer : PieceBuffer) : Hasher ε :=
  { s with workQueue := s.workQueue ++ [.hashPiece s.pieceIndex buffer], pieceIndex := s.pieceIndex + 1 }

/-- One call of `read`, of `len` bytes, and what the loop does next. A reader returns nothing only if it
has nothing left or nothing was asked for. -/
def read (s : Hasher ε) (len : Nat) : Option (Hasher ε) :=
  match s.master with
  | .reading buffer region rest =>
    if len ≤ buffer.space ∧ len ≤ region.data.length ∧ (len = 0 → region.data = [] ∨ buffer.space = 0) then
      match if region.data = [] then region.error else none with
      | some e => some { s with master := .returned (.error e) }
      | none =>
        let endOfRegion := len == 0
        let buffer := buffer.writeBytes (region.data.take len)
        let region := { region with data := region.data.drop len }
        if buffer.isWhole then
          some { s.pushPiece buffer with master := .replaceBuffer region endOfRegion rest }
        else if endOfRegion then some { s with optPieceBuffer := some buffer, master := .access rest }
        else some { s with master := .reading buffer region rest }
    else none
  | _ => none

/-- The piece that is left over when everything was read. -/
def pushLast (s : Hasher ε) : Hasher ε :=
  match s.optPieceBuffer with
  | some buffer =>
    if buffer.isEmpty then { s with optPieceBuffer := none }
    else { s.pushPiece buffer with optPieceBuffer := none, progress := s.progress ++ [s.pieceIndex + 1] }
  | none => s

def masterStep (s : Hasher ε) : Option (Hasher ε) :=
  match s.master with
  | .access [] =>
    match s.accessError with
    | some e => some { s with master := .returned (.error e) }
    | none => some { s.pushLast with master := .finishing s.workers.length }
  | .access (.preComputed hash :: rest) =>
    some { s with pieces := s.pieces ++ [(s.pieceIndex, hash)], pieceIndex := s.pieceIndex + 1
                  master := .access rest }
  | .access (.compute region :: rest) =>
    match s.optPieceBuffer with
    | some buffer => some { s with optPieceBuffer := none, master := .reading buffer region rest }
    | none => some { s with master := .beginRegion region rest }
  | .beginRegion region rest =>
    match s.pieceQueue with
    | buffer :: pieceQueue => some { s with pieceQueue, master := .reading buffer region rest }
    | [] => none
  | .replaceBuffer region endOfRegion rest =>
    match s.pieceQueue with
    | buffer :: pieceQueue =>
      let s := { s with pieceQueue, progress := s.progress ++ [s.pieceIndex] }
      if endOfRegion then some { s with optPieceBuffer := some buffer, master := .access rest }
      else some { s with master := .reading buffer region rest }
    | [] => none
  | .finishing (left + 1) =>
    some { s with workQueue := s.workQueue ++ [.finish], master := .finishing left }
  | .finishing 0 => some { s with master := .waiting 0 }
  | .waiting workersFinished =>
    if workersFinished < s.workers.length then
      match s.masterQueue with
      | .acceptPiece index hash :: masterQueue =>
        some { s with masterQueue, pieces := s.pieces ++ [(index, hash)] }
      | .workerFinished :: masterQueue => some { s with masterQueue, master := .waiting (workersFinished + 1) }
      | [] => none
    else some { s with master := .returned (.ok (s.pieces.mergeSort indexLe)) }
  | .reading _ _ _ => none
  | .returned _ => none

def setWorker (s : Hasher ε) (worker : Nat) (phase : WorkerPhase) : Hasher ε :=
  { s with workers := s.workers.set worker phase }

/-- The master's end of the channel is gone. -/
def isReturned (s : Hasher ε) : Bool :=
  match s.master with
  | .returned _ => true
  | _ => false

/-- A worker sends to the master, and the send is unwrapped. -/
def sendMaster (s : Hasher ε) (worker : Nat) (message : MasterMessage) (phase : WorkerPhase) : Hasher ε :=
  if s.isReturned then s.setWorker worker .panicked
  else { s with masterQueue := s.masterQueue ++ [message] }.setWorker worker phase

section

variable (s : Hasher ε) (worker : Nat) (message : MasterMessage) (phase : WorkerPhase)

@[simp] theorem sendMaster_master : (s.sendMaster worker message phase).master = s.master := by
  unfold sendMaster
  split <;> rfl

@[simp] theorem sendMaster_workQueue : (s.sendMaster worker message phase).workQueue = s.workQueue := by
  unfold sendMaster
  split <;> rfl

@[simp] theorem sendMaster_pieceQueue : (s.sendMaster worker message phase).pieceQueue = s.pieceQueue := by
  unfold sendMaster
  split <;> rfl

@[simp] theorem sendMaster_accessError : (s.sendMaster worker message phase).accessError = s.accessError := by
  unfold sendMaster
  split <;> rfl

@[simp] theorem sendMaster_pieces : (s.sendMaster worker message phase).pieces = s.pieces := by
  unfold sendMaster
  split <;> rfl

@[simp] theorem sendMaster_optPieceBuffer :
    (s.sendMaster worker message phase).optPieceBuffer = s.optPieceBuffer := by
  unfold sendMaster
  split <;> rfl

@[simp] theorem pushLast_pieceQueue : s.pushLast.pieceQueue = s.pieceQueue := by
  unfold pushLast
  split
  · split <;> rfl
  · rfl

@[simp] theorem pushLast_masterQueue : s.pushLast.masterQueue = s.masterQueue := by
  unfold pushLast
  split
  · split <;> rfl
  · rfl

@[simp] theorem pushLast_workers : s.pushLast.workers = s.workers := by
  unfold pushLast
  split
  · split <;> rfl
  · rfl

@[simp] theorem pushLast_accessError : s.pushLast.accessError = s.accessError := by
  unfold pushLast
  split
  · split <;> rfl
  · rfl

@[simp] theorem pushLast_optPieceBuffer : s.pushLast.optPieceBuffer = none := by
  unfold pushLast
  split
  · split <;> rfl
  · assumption

end

variable (hash : Bytes → ShaHash)

def workerStep (s : Hasher ε) (worker : Nat) : Option (Hasher ε) :=
  match s.workers[worker]? with
  | some .idle =>
    match s.workQueue with
    | .hashPiece index buffer :: workQueue =>
      some ({ s with workQueue }.setWorker worker (.hashing index buffer))
    | .finish :: workQueue => some ({ s with workQueue }.setWorker worker .finishing)
    | [] => none
  | some (.hashing index buffer) =>
    some (s.sendMaster worker (.acceptPiece index (hash buffer.asSlice)) (.returning buffer))
  | some (.returning buffer) =>
    some ({ s with pieceQueue := s.pieceQueue ++ [buffer.reset] }.setWorker worker .idle)
  | some .finishing => some (s.sendMaster worker .workerFinished .stopped)
  | _ => none

/-- One step, if the thread is not waiting. -/
def step (s : Hasher ε) : HasherStep → Option (Hasher ε)
  | .read len => s.read len
  | .master => s.masterStep
  | .worker worker => s.workerStep hash worker

def run (s : Hasher ε) : List HasherStep → Option (Hasher ε)
  | [] => some s
  | event :: events => (s.step hash event).bind fun s' => s'.run events

/-! ### What a step can do -/

/-- The state after a step. -/
inductive Moves (s : Hasher ε) : Hasher ε → Prop where
  | readFailed {buffer : PieceBuffer} {region : Region ε} {rest : List (PieceAccess ε)} {e : ε}
      (master : s.master = .reading buffer region rest) (error : region.error = some e) :
      Moves s { s with master := .returned (.error e) }
  | readWhole {buffer : PieceBuffer} {region : Region ε} {rest : List (PieceAccess ε)} {len : Nat}
      (master : s.master = .reading buffer region rest) (space : len ≤ buffer.space)
      (there : len ≤ region.data.length) (zero : len = 0 → region.data = [] ∨ buffer.space = 0)
      (whole : (buffer.writeBytes (region.data.take len)).isWhole = true) :
      Moves s { s.pushPiece (buffer.writeBytes (region.data.take len)) with
        master := .replaceBuffer { region with data := region.data.drop len } (len == 0) rest }
  | readEnd {buffer : PieceBuffer} {region : Region ε} {rest : List (PieceAccess ε)}
      (master : s.master = .reading buffer region rest) (zero : region.data = [] ∨ buffer.space = 0)
      (part : (buffer.writeBytes []).isWhole = false) :
      Moves s { s with optPieceBuffer := some (buffer.writeBytes []), master := .access rest }
  | readPart {buffer : PieceBuffer} {region : Region ε} {rest : List (PieceAccess ε)} {len : Nat}
      (master : s.master = .reading buffer region rest) (space : len ≤ buffer.space)
      (there : len ≤ region.data.length) (some : len ≠ 0)
      (part : (buffer.writeBytes (region.data.take len)).isWhole = false) :
      Moves s { s with master := .reading (buffer.writeBytes (region.data.take len))
                                   { region with data := region.data.drop len } rest }
  | accessFailed {e : ε} (master : s.master = .access []) (error : s.accessError = some e) :
      Moves s { s with master := .returned (.error e) }
  | accessDone (master : s.master = .access []) (error : s.accessError = none) :
      Moves s { s.pushLast with master := .finishing s.workers.length }
  | preComputed {hash : ShaHash} {rest : List (PieceAccess ε)}
      (master : s.master = .access (.preComputed hash :: rest)) :
      Moves s { s with pieces := s.pieces ++ [(s.pieceIndex, hash)], pieceIndex := s.pieceIndex + 1
                       master := .access rest }
  | keepBuffer {region : Region ε} {rest : List (PieceAccess ε)} {buffer : PieceBuffer}
      (master : s.master = .access (.compute region :: rest)) (kept : s.optPieceBuffer = some buffer) :
      Moves s { s with optPieceBuffer := none, master := .reading buffer region rest }
  | beginRegion {region : Region ε} {rest : List (PieceAccess ε)}
      (master : s.master = .access (.compute region :: rest)) (kept : s.optPieceBuffer = none) :
      Moves s { s with master := .beginRegion region rest }
  | checkout {region : Region ε} {rest : List (PieceAccess ε)} {buffer : PieceBuffer}
      {pieceQueue : List PieceBuffer} (master : s.master = .beginRegion region rest)
      (pool : s.pieceQueue = buffer :: pieceQueue) :
      Moves s { s with pieceQueue, master := .reading buffer region rest }
  | replaceEnd {region : Region ε} {rest : List (PieceAccess ε)} {buffer : PieceBuffer}
      {pieceQueue : List PieceBuffer} (master : s.master = .replaceBuffer region true rest)
      (pool : s.pieceQueue = buffer :: pieceQueue) :
      Moves s { s with pieceQueue, progress := s.progress ++ [s.pieceIndex], optPieceBuffer := some buffer
                       master := .access rest }
  | replace {region : Region ε} {rest : List (PieceAccess ε)} {buffer : PieceBuffer}
      {pieceQueue : List PieceBuffer} (master : s.master = .replaceBuffer region false rest)
      (pool : s.pieceQueue = buffer :: pieceQueue) :
      Moves s { s with pieceQueue, progress := s.progress ++ [s.pieceIndex]
                       master := .reading buffer region rest }
  | tellFinish {left : Nat} (master : s.master = .finishing (left + 1)) :
      Moves s { s with workQueue := s.workQueue ++ [.finish], master := .finishing left }
  | allTold (master : s.master = .finishing 0) : Moves s { s with master := .waiting 0 }
  | accept {workersFinished index : Nat} {hash : ShaHash} {masterQueue : List MasterMessage}
      (master : s.master = .waiting workersFinished) (left : workersFinished < s.workers.length)
      (queue : s.masterQueue = .acceptPiece index hash :: masterQueue) :
      Moves s { s with masterQueue, pieces := s.pieces ++ [(index, hash)] }
  | workerFinished {workersFinished : Nat} {masterQueue : List MasterMessage}
      (master : s.master = .waiting workersFinished) (left : workersFinished < s.workers.length)
      (queue : s.masterQueue = .workerFinished :: masterQueue) :
      Moves s { s with masterQueue, master := .waiting (workersFinished + 1) }
  | sortPieces {workersFinished : Nat} (master : s.master = .waiting workersFinished)
      (all : s.workers.length ≤ workersFinished) :
      Moves s { s with master := .returned (.ok (s.pieces.mergeSort indexLe)) }
  | takePiece {worker index : Nat} {buffer : PieceBuffer} {workQueue : List WorkerMessage}
      (phase : s.workers[worker]? = some .idle) (queue : s.workQueue = .hashPiece index buffer :: workQueue) :
      Moves s ({ s with workQueue }.setWorker worker (.hashing index buffer))
  | takeFinish {worker : Nat} {workQueue : List WorkerMessage} (phase : s.workers[worker]? = some .idle)
      (queue : s.workQueue = .finish :: workQueue) : Moves s ({ s with workQueue }.setWorker worker .finishing)
  | sendPiece {worker index : Nat} {buffer : PieceBuffer}
      (phase : s.workers[worker]? = some (.hashing index buffer)) :
      Moves s (s.sendMaster worker (.acceptPiece index (hash buffer.asSlice)) (.returning buffer))
  | checkin {worker : Nat} {buffer : PieceBuffer} (phase : s.workers[worker]? = some (.returning buffer)) :
      Moves s ({ s with pieceQueue := s.pieceQueue ++ [buffer.reset] }.setWorker worker .idle)
  | sendFinished {worker : Nat} (phase : s.workers[worker]? = some .finishing) :
      Moves s (s.sendMaster worker .workerFinished .stopped)

variable {hash} {s s' : Hasher ε}

theorem moves_of_read {len : Nat} (h : s.read len = some s') : s.Moves hash s' := by
  unfold read at h
  split at h
  · rename_i buffer region rest hmaster
    split at h
    · rename_i hlen
      obtain ⟨hspace, hthere, hzero⟩ := hlen
      split at h
      · rename_i e herror
        cases h
        refine .readFailed hmaster (e := e) ?_
        split at herror
        · exact herror
        · cases herror
      · simp only at h
        split at h
        · rename_i hwhole
          cases h
          exact .readWhole hmaster hspace hthere hzero hwhole
        · rename_i hpart
          rw [Bool.not_eq_true] at hpart
          split at h
          · rename_i hend
            cases h
            rw [beq_iff_eq] at hend
            subst hend
            exact .readEnd hmaster (hzero rfl) hpart
          · rename_i hend
            cases h
            rw [beq_iff_eq] at hend
            exact .readPart hmaster hspace hthere hend hpart
    · cases h
  · cases h

theorem moves_of_masterStep (h : s.masterStep = some s') : s.Moves hash s' := by
  unfold masterStep at h
  split at h
  · rename_i hmaster
    split at h
    · rename_i e herror
      cases h
      exact .accessFailed hmaster herror
    · rename_i herror
      cases h
      exact .accessDone hmaster herror
  · rename_i hash' rest hmaster
    cases h
    exact .preComputed hmaster
  · rename_i region rest hmaster
    split at h
    · rename_i buffer hkept
      cases h
      exact .keepBuffer hmaster hkept
    · rename_i hkept
      cases h
      exact .beginRegion hmaster hkept
  · rename_i region rest hmaster
    split at h
    · rename_i buffer pieceQueue hpool
      cases h
      exact .checkout hmaster hpool
    · cases h
  · rename_i region endOfRegion rest hmaster
    split at h
    · rename_i buffer pieceQueue hpool
      cases endOfRegion with
      | true =>
        cases h
        exact .replaceEnd hmaster hpool
      | false =>
        cases h
        exact .replace hmaster hpool
    · cases h
  · rename_i left hmaster
    cases h
    exact .tellFinish hmaster
  · rename_i hmaster
    cases h
    exact .allTold hmaster
  · rename_i workersFinished hmaster
    split at h
    · rename_i hleft
      split at h
      · rename_i index hash' masterQueue hqueue
        cases h
        exact .accept hmaster hleft hqueue
      · rename_i masterQueue hqueue
        cases h
        exact .workerFinished hmaster hleft hqueue
      · cases h
    · rename_i hall
      cases h
      exact .sortPieces hmaster (Nat.le_of_not_lt hall)
  · cases h
  · cases h

theorem moves_of_workerStep {worker : Nat} (h : s.workerStep hash worker = some s') : s.Moves hash s' := by
  unfold workerStep at h
  split at h
  · rename_i hphase
    split at h
    · rename_i index buffer workQueue hqueue
      cases h
      exact .takePiece hphase hqueue
    · rename_i workQueue hqueue
      cases h
      exact .takeFinish hphase hqueue
    · cases h
  · rename_i index buffer hphase
    cases h
    exact .sendPiece hphase
  · rename_i buffer hphase
    cases h
    exact .checkin hphase
  · rename_i hphase
    cases h
    exact .sendFinished hphase
  · cases h

theorem moves_of_step {event : HasherStep} (h : s.step hash event = some s') : s.Moves hash s' := by
  cases event with
  | read len => exact moves_of_read h
  | master => exact moves_of_masterStep h
  | worker worker => exact moves_of_workerStep h

theorem run_induction {inv : Hasher ε → Prop} (hinv : ∀ s s', inv s → s.Moves hash s' → inv s')
    {events : List HasherStep} (hs : inv s) (hrun : s.run hash events = some s') : inv s' := by
  induction events generalizing s with
  | nil =>
    cases hrun
    exact hs
  | cons event events ih =>
    obtain ⟨next, hstep, hrun⟩ := Option.bind_eq_some_iff.mp hrun
    exact ih (hinv s next hs (moves_of_step hstep)) hrun

end Hasher

end BitTorrent.Meta
