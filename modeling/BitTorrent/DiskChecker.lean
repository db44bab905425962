import BitTorrent.RustHashMap
import BitTorrent.Intervals
import BitTorrent.DiskAccessor

/-! The state of the piece checker. Blocks that were written wait per piece. Before a check the blocks of
every piece are sorted by their offset and merged from the back until two neighbours leave a gap; a piece
is checked if one block is left and its length is that of the piece. -/

namespace BitTorrent.Disk

open Rust Intervals List Io

inductive PieceState where
  | good (index : Nat)
  | bad (index : Nat)
  deriving DecidableEq

/-- The state that a verdict about a piece is noted as. -/
def PieceState.ofVerdict (isGood : Bool) (index : Nat) : PieceState :=
  if isGood then .good index else .bad index

structure PieceCheckerState where
  newStates : List PieceState
  oldStates : Finset PieceState
  pendingBlocks : HashMap Nat (List BlockMetadata)
  totalBlocks : Nat
  lastBlockSize : Nat

def mergePieceMessages {ε : Type} (messageA messageB : BlockMetadata) :
    Run ε (Option BlockMetadata) := do
  if messageA.infoHash ≠ messageB.infoHash ∨ messageA.pieceIndex ≠ messageB.pieceIndex then
    return none
  let infoHash := messageA.infoHash
  let pieceIndex := messageA.pieceIndex
  let startA := messageA.blockOffset
  let endA ← addUsize startA messageA.blockLength
  let startB := messageB.blockOffset
  let endB ← addUsize startB messageB.blockLength
  if startA ≤ startB ∧ startB ≤ endA then
    return some ⟨infoHash, pieceIndex, startA, max endA endB - startA⟩
  else if startB ≤ startA ∧ startA ≤ endB then
    return some ⟨infoHash, pieceIndex, startB, max endA endB - startB⟩
  else return none

/-- The `while` loop of the merge, on the list with the last block first. Both blocks have been taken out
when a merge overflows. -/
def mergeBack {ε : Type} (actualLast : BlockMetadata) :
    List BlockMetadata → Run ε Unit × List BlockMetadata
  | [] => (.ok (), [actualLast])
  | secondLast :: messages =>
    match mergePieceMessages secondLast actualLast with
    | .ok (some merged) => mergeBack merged messages
    | .ok none => (.ok (), actualLast :: secondLast :: messages)
    | .error e => (.error e, messages)

/-- `sort_by_key`, which is stable. -/
def sortByOffset (messages : List BlockMetadata) : List BlockMetadata :=
  messages.insertionSort fun a b => a.blockOffset ≤ b.blockOffset

def mergeMessages {ε : Type} : Io (List BlockMetadata) ε Unit := ⟨fun messages =>
  match (sortByOffset messages).reverse with
  | [] => (.ok (), [])
  | actualLast :: rest => ((mergeBack actualLast rest).1, (mergeBack (ε := ε) actualLast rest).2.reverse)⟩

def pieceIsComplete {ε : Type} (totalBlocks lastBlockSize pieceLength : Nat)
    (messages : List BlockMetadata) : Run ε Bool := do
  let isSingleMessage := messages.length == 1
  let isPieceLength := messages.head?.any fun message => message.blockLength == pieceLength
  let isLastBlock ← match messages.head? with
    | some message => do .ok (message.pieceIndex == (← subUsize totalBlocks 1))
    | none => .ok false
  let isLastBlockLength := messages.head?.any fun message => message.blockLength == lastBlockSize
  return isSingleMessage && (isPieceLength || (isLastBlock && isLastBlockLength))

namespace PieceCheckerState

def new (totalBlocks lastBlockSize : Nat) : PieceCheckerState := ⟨[], ∅, ∅, totalBlocks, lastBlockSize⟩

def pending (s : PieceCheckerState) (index : Nat) : List BlockMetadata :=
  (s.pendingBlocks.lookup index).getD []

def setPending (s : PieceCheckerState) (index : Nat) (messages : List BlockMetadata) :
    PieceCheckerState :=
  { s with pendingBlocks := s.pendingBlocks.insert index messages }

def addPendingBlock (s : PieceCheckerState) (msg : BlockMetadata) : PieceCheckerState :=
  s.setPending msg.pieceIndex (s.pending msg.pieceIndex ++ [msg])

/-- One round of the loop of `run_with_diff`, at the first of the new states. -/
def drainOne (s : PieceCheckerState) (pieceState : PieceState) : PieceCheckerState :=
  { s with newStates := s.newStates.tail, oldStates := insert pieceState s.oldStates }

section

variable {τ ε : Type}

def runWithDiff (callback : PieceState → Io τ ε Unit) : Io (PieceCheckerState × τ) ε Unit := do
  let (s, _) ← get
  s.newStates.forM fun pieceState => do
    onDisk (callback pieceState)
    modify fun t => (t.1.drainOne pieceState, t.2)

/-- The messages of one piece are merged. -/
def mergeAt (key : Nat) : Io (PieceCheckerState × τ) ε Unit :=
  zoom (fun t => t.1.pending key) (fun messages t => (t.1.setPending key messages, t.2))
    mergeMessages

/-- The verdict about a piece is noted and its blocks are forgotten. -/
def record (s : PieceCheckerState) (key : Nat) (message : BlockMetadata) (isGood : Bool) :
    PieceCheckerState :=
  { s.setPending key [] with
    newStates := s.newStates ++ [.ofVerdict isGood message.pieceIndex] }

/-- One round of the loop over the pieces, with the two filters. -/
def checkPiece (pieceLength : Nat) (callback : BlockMetadata → Io τ ε Bool) (key : Nat) :
    Io (PieceCheckerState × τ) ε Unit := do
  let (s, _) ← get
  let messages := s.pending key
  let complete ← ofRun (pieceIsComplete s.totalBlocks s.lastBlockSize pieceLength messages)
  match messages with
  | [] => pure ()
  | message :: _ =>
    if complete ∧ .good message.pieceIndex ∉ s.oldStates then
      let isGood ← onDisk (callback message)
      modify fun t => (t.1.record key message isGood, t.2)

/-- The entries of the map are visited twice in the same order, to merge and to check. -/
def runWithWholePieces (order : Arrangement Nat) (pieceLength : Nat)
    (callback : BlockMetadata → Io τ ε Bool) : Io (PieceCheckerState × τ) ε Unit := do
  let (s, _) ← get
  let keys := order.arrange s.pendingBlocks.keys
  keys.forM mergeAt
  keys.forM (checkPiece pieceLength callback)

end

end PieceCheckerState

/-! ### Merging the blocks of one piece -/

namespace BlockMetadata

def blockStop (message : BlockMetadata) : Nat := message.blockOffset + message.blockLength

/-- The second block starts inside the first one or right behind it. -/
def Linked (a b : BlockMetadata) : Prop :=
  a.infoHash = b.infoHash ∧ a.pieceIndex = b.pieceIndex ∧ b.blockOffset ≤ a.blockStop

instance (a b : BlockMetadata) : Decidable (Linked a b) := inferInstanceAs (Decidable (_ ∧ _ ∧ _))

end BlockMetadata

open BlockMetadata in
/-- `merge_piece_messages` of blocks whose ends are words. -/
def joinMessages (a b : BlockMetadata) : Option BlockMetadata :=
  if a.infoHash ≠ b.infoHash ∨ a.pieceIndex ≠ b.pieceIndex then none
  else if a.blockOffset ≤ b.blockOffset ∧ b.blockOffset ≤ a.blockStop then
    some ⟨a.infoHash, a.pieceIndex, a.blockOffset, max a.blockStop b.blockStop - a.blockOffset⟩
  else if b.blockOffset ≤ a.blockOffset ∧ a.blockOffset ≤ b.blockStop then
    some ⟨a.infoHash, a.pieceIndex, b.blockOffset, max a.blockStop b.blockStop - b.blockOffset⟩
  else none

variable {a b : BlockMetadata}

theorem mergePieceMessages_eq {ε : Type} (ha : a.blockStop ≤ usizeMax) (hb : b.blockStop ≤ usizeMax) :
    (mergePieceMessages a b : Run ε (Option BlockMetadata)) = .ok (joinMessages a b) := by
  have hadd : ∀ m : BlockMetadata, m.blockStop ≤ usizeMax →
      (addUsize m.blockOffset m.blockLength : Run ε Nat) = .ok m.blockStop := fun m hm =>
    addUsize_eq_ok.mpr ⟨rfl, hm⟩
  unfold mergePieceMessages joinMessages
  split
  · rfl
  · simp only [hadd a ha, hadd b hb, ok_bind]
    split
    · rfl
    · split <;> rfl

theorem joinMessages_of_le (h : a.blockOffset ≤ b.blockOffset) : joinMessages a b = if a.Linked b then
      some ⟨a.infoHash, a.pieceIndex, a.blockOffset, max a.blockStop b.blockStop - a.blockOffset⟩
      else none := by
  unfold joinMessages
  by_cases hsame : a.infoHash = b.infoHash ∧ a.pieceIndex = b.pieceIndex
  · rw [if_neg (by simp [hsame])]
    by_cases hreach : b.blockOffset ≤ a.blockStop
    · rw [if_pos ⟨h, hreach⟩, if_pos ⟨hsame.1, hsame.2, hreach⟩]
    · have hgap : ¬ (b.blockOffset ≤ a.blockOffset ∧ a.blockOffset ≤ b.blockStop) := by
        simp only [BlockMetadata.blockStop] at hreach
        omega
      rw [if_neg (fun hin => hreach hin.2), if_neg hgap, if_neg (fun hlinked => hreach hlinked.2.2)]
  · rw [if_pos (by rwa [← not_and_or]), if_neg (fun hlinked => hsame ⟨hlinked.1, hlinked.2.1⟩)]

theorem joinMessages_eq_some {m : BlockMetadata} (hle : a.blockOffset ≤ b.blockOffset)
    (h : joinMessages a b = some m) : a.Linked b ∧ m.infoHash = a.infoHash ∧ m.pieceIndex = a.pieceIndex ∧
      m.blockOffset = a.blockOffset ∧ m.blockStop = max a.blockStop b.blockStop := by
  rw [joinMessages_of_le hle] at h
  split at h
  · rename_i hlinked
    cases h
    refine ⟨hlinked, rfl, rfl, rfl, ?_⟩
    simp only [BlockMetadata.blockStop]
    omega
  · cases h

theorem joins_messages :
    Joins BlockMetadata.blockOffset BlockMetadata.blockStop BlockMetadata.Linked joinMessages where
  isSome_iff hle := by
    rw [joinMessages_of_le hle]
    split <;> simp_all
  start_eq hle h := (joinMessages_eq_some hle h).2.2.2.1
  stop_eq hle h := (joinMessages_eq_some hle h).2.2.2.2
  le_stop h := h.2.2
  linked_left hle h := by
    obtain ⟨-, hhash, hindex, hoffset, -⟩ := joinMessages_eq_some hle h
    simp only [BlockMetadata.Linked, hhash, hindex, hoffset]

/-- What `merge_pieces` leaves of the blocks of a piece. -/
def mergedMessages (messages : List BlockMetadata) : List BlockMetadata :=
  match (sortByOffset messages).reverse with
  | [] => []
  | actualLast :: rest => (collapse joinMessages actualLast rest).reverse

/-- A point is covered by a list of blocks. -/
abbrev CoveredBy (messages : List BlockMetadata) (x : Nat) : Prop :=
  Covered BlockMetadata.blockOffset BlockMetadata.blockStop messages x

/-- In the order of their offsets each block is linked to the one before it. -/
def Chained (messages : List BlockMetadata) : Prop :=
  messages ≠ [] ∧ (sortByOffset messages).IsChain BlockMetadata.Linked

section

variable {messages rest : List BlockMetadata} {last : BlockMetadata}

theorem perm_sortByOffset (messages : List BlockMetadata) : (sortByOffset messages).Perm messages :=
  perm_insertionSort _ messages

theorem pairwise_sortByOffset (messages : List BlockMetadata) :
    (sortByOffset messages).Pairwise fun a b => a.blockOffset ≤ b.blockOffset := by
  have : Std.Total fun a b : BlockMetadata => a.blockOffset ≤ b.blockOffset :=
    ⟨fun a b => Nat.le_total _ _⟩
  have : IsTrans BlockMetadata fun a b => a.blockOffset ≤ b.blockOffset :=
    ⟨fun _ _ _ => Nat.le_trans⟩
  exact pairwise_insertionSort _ messages

theorem mergeBack_eq {ε : Type} (h : ∀ m ∈ last :: rest, m.blockStop ≤ usizeMax)
    (hsorted : (last :: rest).Pairwise fun b a => a.blockOffset ≤ b.blockOffset) :
    mergeBack last rest = ((.ok () : Run ε Unit), collapse joinMessages last rest) := by
  induction rest generalizing last with
  | nil => rfl
  | cons prev rest ih =>
    obtain ⟨hlast, hprev, hrest⟩ : last.blockStop ≤ usizeMax ∧ prev.blockStop ≤ usizeMax ∧
        ∀ m ∈ rest, m.blockStop ≤ usizeMax := by
      simpa only [forall_mem_cons] using h
    have hle : prev.blockOffset ≤ last.blockOffset :=
      rel_of_pairwise_cons hsorted mem_cons_self
    rw [mergeBack, mergePieceMessages_eq hprev hlast, collapse]
    cases hjoin : joinMessages prev last with
    | none => rfl
    | some merged =>
      refine ih (forall_mem_cons.mpr ⟨?_, hrest⟩) (joins_messages.sorted hsorted hjoin)
      rw [(joinMessages_eq_some hle hjoin).2.2.2.2]
      exact max_le hprev hlast

theorem sortByOffset_reverse (h : (sortByOffset messages).reverse = last :: rest) :
    (last :: rest).Perm messages ∧ (last :: rest).Pairwise fun b a => a.blockOffset ≤ b.blockOffset := by
  rw [← h]
  exact ⟨(reverse_perm _).trans (perm_sortByOffset messages),
    pairwise_reverse.mpr (pairwise_sortByOffset messages)⟩

theorem sortByOffset_reverse_nil (h : (sortByOffset messages).reverse = []) : messages = [] := by
  rw [reverse_eq_nil_iff] at h
  exact List.Perm.eq_nil (h ▸ (perm_sortByOffset messages).symm)

theorem mergeMessages_run {ε : Type} (h : ∀ m ∈ messages, m.blockStop ≤ usizeMax) :
    (mergeMessages : Io _ ε Unit).run messages = (.ok (), mergedMessages messages) := by
  simp only [mergeMessages, mergedMessages]
  split
  · rfl
  · rename_i last rest hsort
    obtain ⟨hperm, hsorted⟩ := sortByOffset_reverse hsort
    rw [mergeBack_eq (fun m hm => h m (hperm.mem_iff.mp hm)) hsorted]

theorem coveredBy_merged (messages : List BlockMetadata) (x : Nat) :
    CoveredBy (mergedMessages messages) x ↔ CoveredBy messages x := by
  unfold mergedMessages
  split
  · rename_i hsort
    rw [sortByOffset_reverse_nil hsort]
  · rename_i last rest hsort
    obtain ⟨hperm, hsorted⟩ := sortByOffset_reverse hsort
    have hcollapse := joins_messages.covered_collapse hsorted x
    simp only [Covered, mem_reverse] at hcollapse ⊢
    rw [hcollapse]
    simp only [hperm.mem_iff]

theorem mergedMessages_ne_nil (h : messages ≠ []) : mergedMessages messages ≠ [] := by
  unfold mergedMessages
  split
  · rename_i hsort
    exact absurd (sortByOffset_reverse_nil hsort) h
  · rw [ne_eq, reverse_eq_nil_iff]
    exact collapse_ne_nil

theorem length_merged_eq_one_iff : (mergedMessages messages).length = 1 ↔ Chained messages := by
  unfold mergedMessages Chained
  split
  · rename_i hsort
    simp [sortByOffset_reverse_nil hsort]
  · rename_i last rest hsort
    obtain ⟨hperm, hsorted⟩ := sortByOffset_reverse hsort
    have hne : messages ≠ [] := fun hnil => by
      rw [hnil] at hperm
      exact cons_ne_nil _ _ hperm.eq_nil
    rw [length_reverse, joins_messages.length_collapse_eq_one_iff hsorted, ← hsort, isChain_reverse]
    simp [hne]

theorem forall_mem_merged {p : BlockMetadata → Prop}
    (hjoin : ∀ a b m, joinMessages a b = some m → p a → p b → p m) (h : ∀ m ∈ messages, p m) :
    ∀ m ∈ mergedMessages messages, p m := by
  unfold mergedMessages
  split
  · exact nofun
  · rename_i last rest hsort
    obtain ⟨hperm, -⟩ := sortByOffset_reverse hsort
    intro m hm
    exact forall_mem_collapse hjoin (fun a ha => h a (hperm.mem_iff.mp ha)) m (mem_reverse.mp hm)

end

/-! ### One call over all pieces -/

namespace PieceCheckerState

variable {s : PieceCheckerState} {key index pieceLength : Nat} {messages : List BlockMetadata}

@[simp] theorem pending_setPending :
    (s.setPending key messages).pending index = if index = key then messages else s.pending index := by
  rw [pending, setPending, HashMap.lookup_insert_eq]
  split <;> rfl

variable {message : BlockMetadata}

@[simp] theorem pending_record {isGood : Bool} :
    (s.record key message isGood).pending index = if index = key then [] else s.pending index :=
  pending_setPending

theorem pending_addPendingBlock (msg : BlockMetadata) : (s.addPendingBlock msg).pending index =
      if index = msg.pieceIndex then s.pending index ++ [msg] else s.pending index := by
  rw [addPendingBlock, pending_setPending]
  split
  · rename_i h
    rw [h]
  · rfl

theorem pending_eq_nil_of_not_mem (h : key ∉ s.pendingBlocks.keys) : s.pending key = [] := by
  rw [pending, AList.lookup_eq_none.mpr fun hmem => h (AList.mem_keys.mp hmem), Option.getD_none]

/-- The state after the merge. -/
structure Merged (s s' : PieceCheckerState) : Prop where
  newStates : s'.newStates = s.newStates
  oldStates : s'.oldStates = s.oldStates
  totalBlocks : s'.totalBlocks = s.totalBlocks
  lastBlockSize : s'.lastBlockSize = s.lastBlockSize
  pending : ∀ index, s'.pending index = mergedMessages (s.pending index)

/-- The block that a call passes on for a piece whose merged blocks are given. -/
def toCheck (s : PieceCheckerState) (pieceLength : Nat) : List BlockMetadata → Option BlockMetadata
  | [message] =>
    if (message.blockLength = pieceLength ∨
        message.pieceIndex + 1 = s.totalBlocks ∧ message.blockLength = s.lastBlockSize) ∧
      .good message.pieceIndex ∉ s.oldStates then some message else none
  | _ => none

/-- The block that a call passes on for a piece. -/
def whole (s : PieceCheckerState) (pieceLength key : Nat) : Option BlockMetadata :=
  s.toCheck pieceLength (mergedMessages (s.pending key))

/-- The pieces that a call passes on, in the order of the map. -/
def wholes (s : PieceCheckerState) (order : Arrangement Nat) (pieceLength : Nat) :
    List (Nat × BlockMetadata) :=
  (order.arrange s.pendingBlocks.keys).filterMap fun key =>
    (s.whole pieceLength key).map (Prod.mk key)

theorem mem_keys_of_whole (h : s.whole pieceLength key = some message) : key ∈ s.pendingBlocks.keys := by
  by_contra hkey
  rw [whole, pending_eq_nil_of_not_mem hkey] at h
  cases h

theorem mem_wholes_iff {order : Arrangement Nat} :
    (key, message) ∈ s.wholes order pieceLength ↔ s.whole pieceLength key = some message := by
  simp only [wholes, mem_filterMap, Option.map_eq_some_iff, Prod.mk.injEq]
  constructor
  · rintro ⟨key', -, message', hwhole, rfl, rfl⟩
    exact hwhole
  · intro hwhole
    exact ⟨key, (order.perm _).mem_iff.mpr (mem_keys_of_whole hwhole), message, hwhole, rfl, rfl⟩

theorem nodup_wholes (s : PieceCheckerState) (order : Arrangement Nat) (pieceLength : Nat) :
    ((s.wholes order pieceLength).map Prod.fst).Nodup := by
  have hkeys : (order.arrange s.pendingBlocks.keys).Nodup :=
    (order.perm _).nodup_iff.mpr s.pendingBlocks.keys_nodup
  refine List.Nodup.sublist ?_ hkeys
  rw [wholes]
  induction order.arrange s.pendingBlocks.keys with
  | nil => exact List.Sublist.refl _
  | cons key keys ih =>
    rw [filterMap_cons]
    cases s.whole pieceLength key with
    | none => exact ih.cons key
    | some message => exact ih.cons_cons key

section

variable {τ ε : Type} {t : τ} {callback : BlockMetadata → Io τ ε Bool}

/-- The check of a piece whose blocks are complete. -/
def checkWhole (callback : BlockMetadata → Io τ ε Bool) (piece : Nat × BlockMetadata) :
    Io (PieceCheckerState × τ) ε Unit := do
  let isGood ← onDisk (callback piece.2)
  modify fun t => (t.1.record piece.1 piece.2 isGood, t.2)

theorem checkPiece_run (htotal : s.pending key ≠ [] → 0 < s.totalBlocks) :
    (checkPiece pieceLength callback key).run (s, t) =
      match s.toCheck pieceLength (s.pending key) with
      | none => (.ok (), (s, t))
      | some message => (checkWhole callback (key, message)).run (s, t) := by
  have hsub : s.pending key ≠ [] →
      (subUsize s.totalBlocks 1 : Run ε Nat) = .ok (s.totalBlocks - 1) := fun h => if_pos (htotal h)
  rw [checkPiece, run_get_bind]
  dsimp only
  rcases hpending : s.pending key with _ | ⟨message, _ | ⟨second, rest⟩⟩
  · rfl
  · have htotal := htotal (hpending ▸ cons_ne_nil _ _)
    have hsub := hsub (hpending ▸ cons_ne_nil _ _)
    have hlast : (message.pieceIndex == s.totalBlocks - 1) = true ↔
        message.pieceIndex + 1 = s.totalBlocks := by
      rw [beq_iff_eq]
      omega
    have hcomplete : (pieceIsComplete s.totalBlocks s.lastBlockSize pieceLength [message] :
        Run ε Bool) = .ok (message.blockLength == pieceLength ||
          (message.pieceIndex == s.totalBlocks - 1 && message.blockLength == s.lastBlockSize)) := by
      simp [pieceIsComplete, hsub]
    rw [hcomplete, ofRun_ok_bind]
    simp only [toCheck, Bool.or_eq_true, Bool.and_eq_true, hlast, beq_iff_eq]
    split <;> rfl
  · have hsub := hsub (hpending ▸ cons_ne_nil _ _)
    have hcomplete : (pieceIsComplete s.totalBlocks s.lastBlockSize pieceLength
        (message :: second :: rest) : Run ε Bool) = .ok false := by
      simp [pieceIsComplete, hsub]
    rw [hcomplete, ofRun_ok_bind]
    simp [toCheck]

variable {keys : List Nat}

/-- The loop over all pieces is a loop over those with a block to pass on. -/
theorem forM_checkPiece_run (hkeys : keys.Nodup) (htotal : ∀ key, s.pending key ≠ [] → 0 < s.totalBlocks) :
    (keys.forM (checkPiece pieceLength callback)).run (s, t) =
      ((keys.filterMap fun key => (s.toCheck pieceLength (s.pending key)).map (Prod.mk key)).forM
        (checkWhole callback)).run (s, t) := by
  induction keys generalizing s t with
  | nil => rfl
  | cons key keys ih =>
    obtain ⟨hkey, hkeys⟩ := nodup_cons.mp hkeys
    change (checkPiece pieceLength callback key >>= fun _ => _).run (s, t) = _
    have hrun : (checkPiece pieceLength callback key).run (s, t) = _ :=
      checkPiece_run (htotal key)
    rw [filterMap_cons]
    cases hcheck : s.toCheck pieceLength (s.pending key) with
    | none =>
      rw [hcheck] at hrun
      exact (run_bind_of_ok hrun).trans (ih hkeys htotal)
    | some message =>
      rw [hcheck] at hrun
      change _ = (checkWhole callback (key, message) >>= fun _ => _).run (s, t)
      rcases hcallback : (callback message).run t with ⟨e | isGood, t'⟩
      · have hwhole : (checkWhole callback (key, message)).run (s, t) = (.error e, (s, t')) :=
          run_bind_of_error (run_zoom_of_eq hcallback)
        rw [run_bind_of_error hwhole]
        exact run_bind_of_error (hrun.trans hwhole)
      · have hwhole : (checkWhole callback (key, message)).run (s, t) =
            (.ok (), (s.record key message isGood, t')) :=
          run_bind_of_ok (run_zoom_of_eq hcallback)
        have hrest : ∀ other, (s.record key message isGood).pending other ≠ [] →
            0 < s.totalBlocks := fun other hother => by
          rw [pending_record] at hother
          split at hother
          · exact absurd rfl hother
          · exact htotal other hother
        rw [run_bind_of_ok hwhole, run_bind_of_ok (hrun.trans hwhole),
          ih (s := s.record key message isGood) hkeys hrest]
        -- the other pieces have not noticed
        congr 2
        refine filterMap_congr fun other hother => ?_
        have hne : other ≠ key := fun heq => hkey (heq ▸ hother)
        rw [pending_record, if_neg hne]
        rfl

theorem forM_mergeAt_run (hkeys : keys.Nodup)
    (hstops : ∀ key ∈ keys, ∀ m ∈ s.pending key, m.blockStop ≤ usizeMax) :
    ∃ s', (keys.forM (mergeAt (τ := τ))).run (s, t) = ((.ok () : Run ε Unit), (s', t)) ∧
      s'.newStates = s.newStates ∧ s'.oldStates = s.oldStates ∧ s'.totalBlocks = s.totalBlocks ∧
      s'.lastBlockSize = s.lastBlockSize ∧ ∀ index, s'.pending index =
        if index ∈ keys then mergedMessages (s.pending index) else s.pending index := by
  induction keys generalizing s with
  | nil => exact ⟨s, rfl, rfl, rfl, rfl, rfl, fun index => by simp⟩
  | cons key keys ih =>
    obtain ⟨hkey, hkeys⟩ := nodup_cons.mp hkeys
    obtain ⟨hstop, hstops⟩ := forall_mem_cons.mp hstops
    have hmerge : (mergeAt key : Io (PieceCheckerState × τ) ε Unit).run (s, t) =
        (.ok (), (s.setPending key (mergedMessages (s.pending key)), t)) :=
      run_zoom_of_eq (mergeMessages_run hstop)
    have hne : ∀ other ∈ keys, other ≠ key := fun other hother heq => hkey (heq ▸ hother)
    obtain ⟨s', hrun, hnew, hold, htotal, hlast, hpending⟩ :=
      ih (s := s.setPending key (mergedMessages (s.pending key))) hkeys fun other hother => by
        rw [pending_setPending, if_neg (hne other hother)]
        exact hstops other hother
    refine ⟨s', (run_bind_of_ok hmerge).trans hrun, hnew, hold, htotal, hlast, fun index => ?_⟩
    rw [hpending, pending_setPending]
    by_cases heq : index = key
    · subst heq
      simp [hkey]
    · simp [heq]

/-- All pieces are merged, in the order of the map. -/
theorem forM_mergeAt_keys (order : Arrangement Nat) (t : τ)
    (hstops : ∀ key, ∀ m ∈ s.pending key, m.blockStop ≤ usizeMax) :
    ∃ s', ((order.arrange s.pendingBlocks.keys).forM mergeAt).run (s, t) =
      ((.ok () : Run ε Unit), (s', t)) ∧ Merged s s' := by
  have hkeys : (order.arrange s.pendingBlocks.keys).Nodup :=
    (order.perm _).nodup_iff.mpr s.pendingBlocks.keys_nodup
  obtain ⟨s', hrun, hnew, hold, hblocks, hlast, hpending⟩ :=
    forM_mergeAt_run (ε := ε) (t := t) hkeys fun key _ => hstops key
  refine ⟨s', hrun, hnew, hold, hblocks, hlast, fun index => ?_⟩
  rw [hpending]
  split
  · rfl
  · rename_i hmem
    rw [(order.perm _).mem_iff] at hmem
    rw [pending_eq_nil_of_not_mem hmem]
    rfl

/-- A call on blocks whose ends are words: all pieces are merged, then the pieces that are whole are
passed on, in the order of the map. -/
theorem runWithWholePieces_run (order : Arrangement Nat) (pieceLength : Nat)
    (callback : BlockMetadata → Io τ ε Bool) (t : τ) (htotal : ∀ key, s.pending key ≠ [] → 0 < s.totalBlocks)
    (hstops : ∀ key, ∀ m ∈ s.pending key, m.blockStop ≤ usizeMax) :
    ∃ s', Merged s s' ∧ (runWithWholePieces order pieceLength callback).run (s, t) =
      ((s.wholes order pieceLength).forM (checkWhole callback)).run (s', t) := by
  have hkeys : (order.arrange s.pendingBlocks.keys).Nodup :=
    (order.perm _).nodup_iff.mpr s.pendingBlocks.keys_nodup
  obtain ⟨s', hrun, hmerged⟩ := forM_mergeAt_keys (ε := ε) order t hstops
  refine ⟨s', hmerged, ?_⟩
  rw [runWithWholePieces, run_get_bind]
  refine (run_bind_of_ok hrun).trans ?_
  have hcounted : ∀ key, s'.pending key ≠ [] → 0 < s'.totalBlocks := fun key hne => by
    rw [hmerged.totalBlocks]
    refine htotal key fun hnil => hne ?_
    rw [hmerged.pending, hnil]
    rfl
  rw [forM_checkPiece_run hkeys hcounted]
  congr 2
  refine filterMap_congr fun key _ => ?_
  have hcheck : s'.toCheck pieceLength (s'.pending key) = s.whole pieceLength key := by
    rw [hmerged.pending, whole]
    unfold toCheck
    rw [hmerged.totalBlocks, hmerged.lastBlockSize, hmerged.oldStates]
  rw [hcheck]

/-- The loop over the whole pieces with a callback that always comes to a verdict. -/
theorem forM_checkWhole_run (callback : BlockMetadata → Io τ ε Bool)
    (pieces : List (Nat × BlockMetadata)) (s : PieceCheckerState) (t : τ) (inv : τ → Prop)
    (verdict : BlockMetadata → Bool)
    (hcallback : ∀ piece ∈ pieces, ∀ t, inv t →
      ∃ t', (callback piece.2).run t = (.ok (verdict piece.2), t') ∧ inv t') (ht : inv t) :
    ∃ s' t', (pieces.forM (checkWhole callback)).run (s, t) = (.ok (), (s', t')) ∧ inv t' ∧
      s'.newStates = s.newStates ++
        pieces.map (fun piece => .ofVerdict (verdict piece.2) piece.2.pieceIndex) ∧
      s'.oldStates = s.oldStates ∧ s'.totalBlocks = s.totalBlocks ∧
      s'.lastBlockSize = s.lastBlockSize ∧
      ∀ index, s'.pending index = if index ∈ pieces.map Prod.fst then [] else s.pending index := by
  induction pieces generalizing s t with
  | nil => exact ⟨s, t, rfl, ht, (append_nil _).symm, rfl, rfl, rfl, fun index => by simp⟩
  | cons piece pieces ih =>
    obtain ⟨hpiece, hpieces⟩ := forall_mem_cons.mp hcallback
    obtain ⟨t₁, hrun₁, ht₁⟩ := hpiece t ht
    have hwhole : (checkWhole callback piece).run (s, t) =
        (.ok (), (s.record piece.1 piece.2 (verdict piece.2), t₁)) :=
      run_bind_of_ok (run_zoom_of_eq hrun₁)
    obtain ⟨s', t', hrun, ht', hnew, hold, htotal, hlast, hpending⟩ :=
      ih (s.record piece.1 piece.2 (verdict piece.2)) t₁ hpieces ht₁
    refine ⟨s', t', (run_bind_of_ok hwhole).trans hrun, ht', ?_, hold, htotal, hlast,
      fun index => ?_⟩
    · rw [hnew]
      simp [record]
    · rw [hpending, pending_record, map_cons]
      by_cases hindex : index = piece.1
      · simp [hindex]
      · simp only [mem_cons, hindex, false_or, if_false]

/-- The state after all new states were sent. -/
def drained (s : PieceCheckerState) : PieceCheckerState :=
  { s with newStates := [], oldStates := s.oldStates ∪ s.newStates.toFinset }

theorem runWithDiff_run {send : PieceState → Io τ ε Unit} {sent : τ → PieceState → τ}
    (hsend : ∀ pieceState t, (send pieceState).run t = (.ok (), sent t pieceState)) :
    (runWithDiff send).run (s, t) = (.ok (), (s.drained, s.newStates.foldl sent t)) := by
  rw [runWithDiff, run_get_bind]
  dsimp only
  rcases s with ⟨newStates, oldStates, pendingBlocks, totalBlocks, lastBlockSize⟩
  dsimp only [drained]
  induction newStates generalizing oldStates t with
  | nil => simp
  | cons pieceState newStates ih =>
    have hstep : (do
        onDisk (send pieceState)
        modify fun t => (t.1.drainOne pieceState, t.2) :
          Io (PieceCheckerState × τ) ε Unit).run
          (⟨pieceState :: newStates, oldStates, pendingBlocks, totalBlocks, lastBlockSize⟩, t) =
        (.ok (), (⟨newStates, insert pieceState oldStates, pendingBlocks, totalBlocks,
          lastBlockSize⟩, sent t pieceState)) :=
      run_bind_of_ok (run_zoom_of_eq (hsend pieceState t))
    refine (run_bind_of_ok hstep).trans ?_
    rw [ih]
    simp

end

end PieceCheckerState

end BitTorrent.Disk
