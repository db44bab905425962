import BitTorrent.DiskChecker

/-! When a piece is checked. Blocks of a piece may overlap in any way and come in any order, between them
the checker may run any number of times. A call should pass a piece on exactly when the blocks since its
last check cover it. The merge looks at neighbours only, so a short block inside a longer one can hide
that the longer one reaches further, and an empty block is taken for the last piece if the pieces come
out even. -/

namespace BitTorrent.Disk

open Rust Intervals List BlockMetadata PieceCheckerState Nat

/-- The pieces of a torrent: its size, cut into pieces of one length and a rest. -/
structure Layout where
  total : Nat
  pieceLength : Nat
  positive : 0 < pieceLength
  fits : pieceLength ≤ usizeMax

namespace Layout

variable (layout : Layout)

/-- The number of pieces, the last one counted however short it is. -/
def totalBlocks : Nat := (layout.total + layout.pieceLength - 1) / layout.pieceLength

def lastBlockSize : Nat := layout.total % layout.pieceLength

def size (index : Nat) : Nat := min layout.pieceLength (layout.total - index * layout.pieceLength)

variable {layout} {index : Nat}

theorem lt_totalBlocks_iff : index < layout.totalBlocks ↔ index * layout.pieceLength < layout.total := by
  have hpos := layout.positive
  rw [totalBlocks, lt_iff_add_one_le, le_div_iff_mul_le hpos, add_mul, one_mul]
  omega

theorem size_pos (h : index < layout.totalBlocks) : 0 < layout.size index := by
  have hpos := layout.positive
  have hlt := lt_totalBlocks_iff.mp h
  rw [size]
  omega

theorem size_le (index : Nat) : layout.size index ≤ layout.pieceLength := min_le_left _ _

theorem size_of_lt (h : index + 1 < layout.totalBlocks) : layout.size index = layout.pieceLength := by
  have hlt := lt_totalBlocks_iff.mp h
  rw [add_mul, one_mul] at hlt
  rw [size]
  omega

theorem lastBlockSize_eq (h : index + 1 = layout.totalBlocks) :
    layout.lastBlockSize = layout.size index % layout.pieceLength := by
  have hlt : index * layout.pieceLength < layout.total :=
    lt_totalBlocks_iff.mp (h ▸ lt_succ_self index)
  have hle : layout.total ≤ (index + 1) * layout.pieceLength := by
    rw [← not_lt, ← lt_totalBlocks_iff, h]
    exact lt_irrefl _
  rw [add_mul, one_mul] at hle
  have hsize : layout.size index = layout.total - index * layout.pieceLength := by
    rw [size]
    omega
  have htotal : layout.total = index * layout.pieceLength + layout.size index := by omega
  rw [lastBlockSize, htotal, mul_add_mod_self_right]

/-- The block lies inside a piece of the torrent. -/
def Holds (layout : Layout) (message : BlockMetadata) : Prop :=
  message.pieceIndex < layout.totalBlocks ∧ message.blockStop ≤ layout.size message.pieceIndex

/-- The blocks cover the piece. -/
def Complete (layout : Layout) (index : Nat) (messages : List BlockMetadata) : Prop :=
  ∀ x < layout.size index, CoveredBy messages x

end Layout

theorem joinMessages_stop {a b m : BlockMetadata} (h : joinMessages a b = some m) :
    m.infoHash = a.infoHash ∧ m.pieceIndex = a.pieceIndex ∧ m.blockOffset ≤ a.blockOffset ∧
      m.blockStop = max a.blockStop b.blockStop := by
  unfold joinMessages at h
  split at h
  · cases h
  · split at h
    · cases h
      simp only [blockStop, true_and]
      omega
    · split at h
      · cases h
        simp only [blockStop, true_and]
        omega
      · cases h

section

variable {layout : Layout} {s : PieceCheckerState} {index : Nat} {messages : List BlockMetadata}
  {message : BlockMetadata}

/-- Blocks that lie inside the piece. -/
def Within (layout : Layout) (index : Nat) (messages : List BlockMetadata) : Prop :=
  ∀ m ∈ messages, m.pieceIndex = index ∧ m.blockStop ≤ layout.size index

theorem Within.merged (h : Within layout index messages) : Within layout index (mergedMessages messages) := by
  refine forall_mem_merged (fun a b m hjoin ha hb => ?_) h
  obtain ⟨-, hindex, -, hstop⟩ := joinMessages_stop hjoin
  rw [hindex, hstop]
  exact ⟨ha.1, max_le ha.2 hb.2⟩

theorem Within.stop_le (h : Within layout index messages) :
    ∀ m ∈ messages, m.blockStop ≤ usizeMax := fun m hm =>
  (h m hm).2.trans ((layout.size_le index).trans layout.fits)

theorem complete_singleton_iff (h : Within layout index [message]) (hindex : index < layout.totalBlocks) :
    layout.Complete index [message] ↔ message.blockOffset = 0 ∧ message.blockLength = layout.size index := by
  have hsize := layout.size_pos hindex
  have hstop := (h message (mem_singleton_self message)).2
  simp only [Layout.Complete, Covered, mem_singleton, exists_eq_left]
  simp only [blockStop] at hstop ⊢
  constructor
  · intro hall
    have hfirst := hall 0 hsize
    have hlast := hall (layout.size index - 1) (by omega)
    omega
  · intro hwhole x hx
    omega

/-- The state of a checker for the torrent. -/
structure Sized (layout : Layout) (s : PieceCheckerState) : Prop where
  totalBlocks : s.totalBlocks = layout.totalBlocks
  lastBlockSize : s.lastBlockSize = layout.lastBlockSize

/-- A block that is empty but has the length that is left for the last piece. -/
def EmptyLast (layout : Layout) (index : Nat) (messages : List BlockMetadata) : Prop :=
  index + 1 = layout.totalBlocks ∧ layout.lastBlockSize = 0 ∧ ∀ m ∈ messages, m.blockLength = 0

theorem whole_eq_some (hsized : Sized layout s) (hwithin : Within layout index (s.pending index))
    (hindex : index < layout.totalBlocks) (hgood : .good index ∉ s.oldStates) :
    s.whole layout.pieceLength index = some message ↔ mergedMessages (s.pending index) = [message] ∧
        (message.blockLength = layout.size index ∨ EmptyLast layout index [message]) := by
  have hsize := layout.size_pos hindex
  have hle := layout.size_le index
  have hmerged := hwithin.merged
  unfold whole
  generalize mergedMessages (s.pending index) = merged at hmerged ⊢
  rcases merged with _ | ⟨m, _ | ⟨second, rest⟩⟩
  · simp [toCheck]
  · obtain ⟨hm, hstop⟩ := hmerged m (mem_singleton_self m)
    have hlength : (m.blockLength = layout.pieceLength ∨
        m.pieceIndex + 1 = s.totalBlocks ∧ m.blockLength = s.lastBlockSize) ↔
        m.blockLength = layout.size index ∨ EmptyLast layout index [m] := by
      rw [hm, hsized.totalBlocks, hsized.lastBlockSize]
      simp only [EmptyLast, mem_singleton, forall_eq]
      simp only [blockStop] at hstop
      by_cases hlast : index + 1 = layout.totalBlocks
      · have hrest := Layout.lastBlockSize_eq hlast
        rcases lt_or_eq_of_le hle with hshort | hfull
        · rw [mod_eq_of_lt hshort] at hrest
          omega
        · rw [hfull, mod_self] at hrest
          omega
      · have hfull : layout.size index = layout.pieceLength := Layout.size_of_lt (by omega)
        simp [hlast, hfull]
    have hknown : .good m.pieceIndex ∉ s.oldStates := hm ▸ hgood
    rw [toCheck]
    by_cases hcheck : m.blockLength = layout.pieceLength ∨
        m.pieceIndex + 1 = s.totalBlocks ∧ m.blockLength = s.lastBlockSize
    · rw [if_pos ⟨hcheck, hknown⟩, Option.some.injEq, cons.injEq]
      constructor
      · rintro rfl
        exact ⟨⟨rfl, rfl⟩, hlength.mp hcheck⟩
      · exact fun h => h.1.1
    · rw [if_neg (fun h => hcheck h.1)]
      refine ⟨fun h => (by cases h), ?_⟩
      rintro ⟨hsame, hor⟩
      cases hsame
      exact absurd (hlength.mpr hor) hcheck
  · simp [toCheck]

/-- Which pieces are passed on, and as what: those whose blocks chain up and cover the piece, as the
whole piece, and those whose blocks are empty in the place of a last piece. -/
theorem whole_iff (hsized : Sized layout s) (hwithin : Within layout index (s.pending index))
    (hindex : index < layout.totalBlocks) (hgood : .good index ∉ s.oldStates) :
    (∃ m, s.whole layout.pieceLength index = some m) ↔ Chained (s.pending index) ∧
        (layout.Complete index (s.pending index) ∨ EmptyLast layout index (s.pending index)) := by
  have hcovered : ∀ x, CoveredBy (mergedMessages (s.pending index)) x ↔ CoveredBy (s.pending index) x :=
    coveredBy_merged _
  have hcomplete : layout.Complete index (s.pending index) ↔
      layout.Complete index (mergedMessages (s.pending index)) := by
    simp only [Layout.Complete, hcovered]
  have hmerged := hwithin.merged
  simp only [whole_eq_some hsized hwithin hindex hgood]
  rw [← length_merged_eq_one_iff, length_eq_one_iff, hcomplete]
  constructor
  · rintro ⟨m, hm, hwhole | hempty⟩
    · rw [hm] at hmerged ⊢
      refine ⟨⟨m, rfl⟩, .inl ((complete_singleton_iff hmerged hindex).mpr ⟨?_, hwhole⟩)⟩
      have hstop := (hmerged m (mem_singleton_self m)).2
      simp only [blockStop] at hstop
      omega
    · refine ⟨⟨m, hm⟩, .inr ⟨hempty.1, hempty.2.1, fun b hb => ?_⟩⟩
      -- a block with a byte in it would have left a byte in the merged one
      by_contra hlength
      have hself : CoveredBy (s.pending index) b.blockOffset :=
        ⟨b, hb, le_refl _, by simp only [blockStop]; omega⟩
      rw [← hcovered, hm] at hself
      obtain ⟨m', hm', hin⟩ := hself
      have hzero := hempty.2.2 m' hm'
      simp only [blockStop] at hin
      omega
  · rintro ⟨⟨m, hm⟩, hwhole | hempty⟩
    · rw [hm] at hmerged hwhole
      exact ⟨m, hm, .inl ((complete_singleton_iff hmerged hindex).mp hwhole).2⟩
    · refine ⟨m, hm, .inr ⟨hempty.1, hempty.2.1, fun b hb => ?_⟩⟩
      by_contra hlength
      have hself : CoveredBy (mergedMessages (s.pending index)) b.blockOffset :=
        ⟨b, hm ▸ hb, le_refl _, by simp only [blockStop]; omega⟩
      rw [hcovered] at hself
      obtain ⟨m', hm', hin⟩ := hself
      have hzero := hempty.2.2 m' hm'
      simp only [blockStop] at hin
      omega

end

/-! ### Runs -/

section

variable {ε : Type}

/-- A callback that notes what it is called with and gives the answer of a function. -/
def noting (answer : BlockMetadata → Except ε Bool) (message : BlockMetadata) :
    Io (List BlockMetadata) ε Bool :=
  ⟨fun passed => (ofResult (answer message), passed ++ [message])⟩

inductive CheckerOp (ε : Type) where
  | add (msg : BlockMetadata)
  | check (order : Arrangement Nat) (answer : BlockMetadata → Except ε Bool)
  | diff

/-- The checker, and the blocks that were added for one piece since it was last checked. -/
structure Watch where
  state : PieceCheckerState
  since : List BlockMetadata

/-- The messages that a call passes to its callback. -/
def passedBy (pieceLength : Nat) (order : Arrangement Nat) (answer : BlockMetadata → Except ε Bool)
    (s : PieceCheckerState) : List BlockMetadata :=
  ((runWithWholePieces order pieceLength (noting answer)).run (s, [])).2.2

/-- The callback came to an answer about the piece. -/
def Answered (index : Nat) (answer : BlockMetadata → Except ε Bool) (passed : List BlockMetadata) : Prop :=
  ∃ m ∈ passed, m.pieceIndex = index ∧ (answer m).toBool

instance (index : Nat) (answer : BlockMetadata → Except ε Bool) (passed : List BlockMetadata) :
    Decidable (Answered index answer passed) := inferInstanceAs (Decidable (∃ m ∈ passed, _))

def Watch.step (pieceLength index : Nat) (w : Watch) : CheckerOp ε → Watch
  | .add msg =>
    ⟨w.state.addPendingBlock msg, if msg.pieceIndex = index then w.since ++ [msg] else w.since⟩
  | .check order answer =>
    ⟨((runWithWholePieces order pieceLength (noting answer)).run (w.state, [])).2.1,
      if Answered index answer (passedBy pieceLength order answer w.state) then [] else w.since⟩
  | .diff =>
    ⟨((runWithDiff fun _ => (pure () : Io Unit ε Unit)).run (w.state, ())).2.1,
      w.since⟩

def Watch.run (layout : Layout) (index : Nat) (ops : List (CheckerOp ε)) : Watch :=
  ops.foldl (Watch.step layout.pieceLength index)
    ⟨.new layout.totalBlocks layout.lastBlockSize, []⟩

/-- The pieces up to the first one for which the callback fails. -/
def upToError (answer : BlockMetadata → Except ε Bool) :
    List (Nat × BlockMetadata) → List (Nat × BlockMetadata)
  | [] => []
  | piece :: pieces =>
    if (answer piece.2).toBool then piece :: upToError answer pieces else [piece]

/-- The callback fails for no piece that comes before. -/
def Reached (pieceLength : Nat) (order : Arrangement Nat) (answer : BlockMetadata → Except ε Bool)
    (s : PieceCheckerState) (index : Nat) : Prop :=
  ∀ key ∈ (order.arrange s.pendingBlocks.keys).takeWhile (· ≠ index),
    ∀ m, s.whole pieceLength key = some m → (answer m).toBool

variable {answer : BlockMetadata → Except ε Bool} {index : Nat} {message : BlockMetadata}
  {layout : Layout} {w : Watch}

theorem mem_upToError_iff {whole : Nat → Option BlockMetadata} {keys : List Nat} :
    (index, message) ∈
        upToError answer (keys.filterMap fun key => (whole key).map (Prod.mk key)) ↔
      index ∈ keys ∧ whole index = some message ∧
        ∀ key ∈ keys.takeWhile (· ≠ index), ∀ m, whole key = some m → (answer m).toBool := by
  induction keys with
  | nil => simp [upToError]
  | cons key keys ih =>
    by_cases hkey : key = index
    · subst hkey
      have hfirst : (key :: keys).takeWhile (· ≠ key) = [] := by simp
      rw [hfirst, filterMap_cons]
      cases hwhole : whole key with
      | none => simp [hwhole, ih]
      | some m =>
        rw [Option.map_some, upToError]
        constructor
        · intro h
          refine ⟨mem_cons_self, ?_, nofun⟩
          split at h
          · rcases mem_cons.mp h with heq | h
            · rw [(Prod.mk.inj heq).2]
            · exact hwhole ▸ (ih.mp h).2.1
          · rw [(Prod.mk.inj (mem_singleton.mp h)).2]
        · rintro ⟨-, heq, -⟩
          cases heq
          split <;> exact mem_cons_self
    · have hnext : (key :: keys).takeWhile (· ≠ index) = key :: keys.takeWhile (· ≠ index) :=
        takeWhile_cons_of_pos (by simpa using hkey)
      have hmem : index ∈ key :: keys ↔ index ∈ keys := by simp [Ne.symm hkey]
      rw [hnext, forall_mem_cons, filterMap_cons, hmem]
      cases hwhole : whole key with
      | none => simp [ih]
      | some m =>
        rw [Option.map_some, upToError]
        split
        · rename_i hanswer
          rw [mem_cons, ih]
          simp [hanswer, Ne.symm hkey]
        · rename_i hanswer
          simp [hanswer, Ne.symm hkey]

/-- The loop over the whole pieces with a callback that takes notes: the blocks of the pieces with an
answer are forgotten. -/
theorem forM_noting_run {pieces : List (Nat × BlockMetadata)} {s : PieceCheckerState}
    {passed : List BlockMetadata} : ∃ r s', (pieces.forM (checkWhole (noting answer))).run (s, passed) =
        (r, (s', passed ++ (upToError answer pieces).map Prod.snd)) ∧
      s'.oldStates = s.oldStates ∧ s'.totalBlocks = s.totalBlocks ∧ s'.lastBlockSize = s.lastBlockSize ∧
      ∀ key, s'.pending key =
        if ∃ piece ∈ upToError answer pieces, piece.1 = key ∧ (answer piece.2).toBool then []
        else s.pending key := by
  induction pieces generalizing s passed with
  | nil =>
    refine ⟨.ok (), s, ?_, rfl, rfl, rfl, fun key => ?_⟩
    · rw [upToError, map_nil, append_nil]
      rfl
    · simp [upToError]
  | cons piece pieces ih =>
    obtain ⟨key, m⟩ := piece
    change ∃ r s', (checkWhole (noting answer) (key, m) >>= fun _ => _).run
      (s, passed) = _ ∧ _
    cases hanswer : answer m with
    | error e =>
      have hnote : (noting answer m).run passed = (.error (.error e), passed ++ [m]) := by
        simp only [noting, hanswer]
        rfl
      have hwhole : (checkWhole (noting answer) (key, m)).run (s, passed) =
          (.error (.error e), (s, passed ++ [m])) :=
        Io.run_bind_of_error (Io.run_zoom_of_eq hnote)
      refine ⟨.error (.error e), s, ?_, rfl, rfl, rfl, fun other => ?_⟩
      · rw [Io.run_bind_of_error hwhole]
        simp only [upToError, hanswer]
        rfl
      · simp [upToError, hanswer, Except.toBool]
    | ok isGood =>
      have hnote : (noting answer m).run passed = (.ok isGood, passed ++ [m]) := by
        simp only [noting, hanswer]
        rfl
      have hwhole : (checkWhole (noting answer) (key, m)).run (s, passed) =
          (.ok (), (s.record key m isGood, passed ++ [m])) :=
        Io.run_bind_of_ok (Io.run_zoom_of_eq hnote)
      obtain ⟨r, s', hrun, hold, htotal, hlast, hpending⟩ :=
        @ih (s.record key m isGood) (passed ++ [m])
      have hup : upToError answer ((key, m) :: pieces) =
          (key, m) :: upToError answer pieces := by
        simp [upToError, hanswer, Except.toBool]
      refine ⟨r, s', ?_, hold, htotal, hlast, fun other => ?_⟩
      · rw [Io.run_bind_of_ok hwhole, hup, map_cons]
        exact hrun.trans (by rw [append_assoc, singleton_append])
      · rw [hpending, hup, pending_record]
        by_cases hother : other = key
        · have hself : ∃ piece ∈ (key, m) :: upToError answer pieces,
              piece.1 = other ∧ (answer piece.2).toBool :=
            ⟨(key, m), mem_cons_self, hother.symm, by rw [hanswer]; rfl⟩
          rw [if_pos hself, if_pos hother, ite_self]
        · have hrest : (∃ piece ∈ (key, m) :: upToError answer pieces,
              piece.1 = other ∧ (answer piece.2).toBool) ↔
              ∃ piece ∈ upToError answer pieces, piece.1 = other ∧ (answer piece.2).toBool := by
            rw [exists_mem_cons_iff]
            exact or_iff_right fun hfirst => hother hfirst.1.symm
          rw [if_neg hother]
          simp only [hrest]

theorem whole_index {s : PieceCheckerState} {pieceLength key : Nat} {m : BlockMetadata}
    (hwithin : Within layout key (s.pending key)) (h : s.whole pieceLength key = some m) :
    m.pieceIndex = key := by
  have hmerged := hwithin.merged
  unfold whole at h
  generalize mergedMessages (s.pending key) = merged at h hmerged
  rcases merged with _ | ⟨first, _ | ⟨second, rest⟩⟩
  · cases h
  · rw [toCheck] at h
    split at h
    · cases h
      exact (hmerged m (mem_singleton_self m)).1
    · cases h
  · cases h

/-- What is true of the checker, and of the blocks that were noted for a piece, at any time. -/
structure Watch.Sound (layout : Layout) (index : Nat) (w : Watch) : Prop where
  sized : Sized layout w.state
  within : ∀ key, Within layout key (w.state.pending key)
  covered : ∀ x, CoveredBy (w.state.pending index) x ↔ CoveredBy w.since x

theorem Watch.Sound.call (h : w.Sound layout index) (hindex : index < layout.totalBlocks)
    (order : Arrangement Nat) (answer : BlockMetadata → Except ε Bool) :
    (∀ key m, m ∈ passedBy layout.pieceLength order answer w.state ∧ m.pieceIndex = key ↔
        w.state.whole layout.pieceLength key = some m ∧ Reached layout.pieceLength order answer w.state key) ∧
      (w.step layout.pieceLength index (.check order answer)).Sound layout index := by
  have hpositive : 0 < w.state.totalBlocks :=
    h.sized.totalBlocks ▸ lt_of_le_of_lt (zero_le index) hindex
  obtain ⟨s', hmerged, hwhole⟩ := runWithWholePieces_run order layout.pieceLength
    (noting answer) [] (fun _ _ => hpositive) fun key => (h.within key).stop_le
  obtain ⟨r, s'', hloop, hold, htotal, hlast, hpending⟩ := forM_noting_run
  rw [hloop, nil_append] at hwhole
  have hpassed : passedBy layout.pieceLength order answer w.state = _ := congrArg (·.2.2) hwhole
  have hstate : (w.step layout.pieceLength index (.check order answer)).state = s'' :=
    congrArg (·.2.1) hwhole
  generalize hpieces : w.state.wholes order layout.pieceLength = pieces at *
  have hmem : ∀ key m, (key, m) ∈ upToError answer pieces ↔
      w.state.whole layout.pieceLength key = some m ∧
        Reached layout.pieceLength order answer w.state key := by
    intro key m
    rw [← hpieces, wholes, mem_upToError_iff]
    refine and_iff_right_of_imp fun hfound => (order.perm _).mem_iff.mpr ?_
    exact mem_keys_of_whole hfound.1
  have hindexOf : ∀ piece ∈ upToError answer pieces, piece.2.pieceIndex = piece.1 := fun piece hpiece =>
    whole_index (h.within piece.1) ((hmem piece.1 piece.2).mp hpiece).1
  have hanswered : Answered index answer (passedBy layout.pieceLength order answer w.state) ↔
      ∃ piece ∈ upToError answer pieces, piece.1 = index ∧ (answer piece.2).toBool := by
    rw [hpassed, Answered]
    constructor
    · rintro ⟨m, hm, hindex, hok⟩
      obtain ⟨piece, hpiece, rfl⟩ := mem_map.mp hm
      exact ⟨piece, hpiece, (hindexOf piece hpiece).symm.trans hindex, hok⟩
    · rintro ⟨piece, hpiece, hindex, hok⟩
      exact ⟨piece.2, mem_map_of_mem hpiece, (hindexOf piece hpiece).trans hindex, hok⟩
  constructor
  · intro key m
    rw [hpassed, ← hmem]
    constructor
    · rintro ⟨hm, rfl⟩
      obtain ⟨piece, hpiece, rfl⟩ := mem_map.mp hm
      rw [hindexOf piece hpiece]
      exact hpiece
    · intro hpiece
      exact ⟨mem_map_of_mem hpiece, hindexOf (key, m) hpiece⟩
  · constructor
    · rw [hstate]
      exact ⟨htotal.trans (hmerged.totalBlocks.trans h.sized.totalBlocks),
        hlast.trans (hmerged.lastBlockSize.trans h.sized.lastBlockSize)⟩
    · intro key
      rw [hstate, hpending]
      split
      · exact fun m hm => (by cases hm)
      · rw [hmerged.pending]
        exact (h.within key).merged
    · intro x
      rw [hstate, hpending]
      simp only [Watch.step, hanswered]
      split
      · exact Iff.rfl
      · rw [hmerged.pending, coveredBy_merged]
        exact h.covered x

theorem Watch.Sound.add (h : w.Sound layout index) {msg : BlockMetadata} (hmsg : layout.Holds msg) :
    (w.step layout.pieceLength index (.add msg : CheckerOp ε)).Sound layout index := by
  refine ⟨⟨h.sized.totalBlocks, h.sized.lastBlockSize⟩, fun key => ?_, fun x => ?_⟩
  · change Within layout key ((w.state.addPendingBlock msg).pending key)
    rw [pending_addPendingBlock]
    split
    · rename_i hkey
      refine forall_mem_append.mpr ⟨h.within key, forall_mem_singleton.mpr ?_⟩
      exact ⟨hkey.symm, hkey ▸ hmsg.2⟩
    · exact h.within key
  · change CoveredBy ((w.state.addPendingBlock msg).pending index) x ↔
      CoveredBy (if msg.pieceIndex = index then w.since ++ [msg] else w.since) x
    rw [pending_addPendingBlock]
    simp only [eq_comm (a := msg.pieceIndex)]
    split
    · exact covered_append.trans ((or_congr_left (h.covered x)).trans covered_append.symm)
    · exact h.covered x

theorem Watch.Sound.diff (h : w.Sound layout index) :
    (w.step layout.pieceLength index (.diff : CheckerOp ε)).Sound layout index := by
  have hrun : (runWithDiff fun _ => (pure () : Io Unit ε Unit)).run (w.state, ()) =
      (.ok (), (w.state.drained, w.state.newStates.foldl (fun t _ => t) ())) :=
    runWithDiff_run fun _ _ => rfl
  have hstate : (w.step layout.pieceLength index (.diff : CheckerOp ε)).state = w.state.drained :=
    congrArg (fun r => r.2.1) hrun
  refine ⟨?_, ?_, ?_⟩
  · rw [hstate]
    exact ⟨h.sized.totalBlocks, h.sized.lastBlockSize⟩
  · rw [hstate]
    exact h.within
  · rw [hstate]
    exact h.covered

theorem Watch.sound_run {ops : List (CheckerOp ε)} (hindex : index < layout.totalBlocks)
    (hops : ∀ msg, .add msg ∈ ops → layout.Holds msg) : (Watch.run layout index ops).Sound layout index := by
  induction ops using reverseRecOn with
  | nil => exact ⟨⟨rfl, rfl⟩, fun key => nofun, fun x => Iff.rfl⟩
  | append_singleton ops op ih =>
    have hsound := ih fun msg hmsg => hops msg (mem_append_left _ hmsg)
    rw [Watch.run, foldl_append]
    cases op with
    | add msg => exact hsound.add (ε := ε) (hops msg (mem_append_right _ (mem_singleton_self _)))
    | check order answer => exact (hsound.call hindex order answer).2
    | diff => exact hsound.diff

/-- The call passes the piece on exactly when the blocks since its last check cover it, and then as the
whole piece. -/
def ExactAt (layout : Layout) (index : Nat) (w : Watch) (order : Arrangement Nat)
    (answer : BlockMetadata → Except ε Bool) : Prop :=
  ((∃ m ∈ passedBy layout.pieceLength order answer w.state, m.pieceIndex = index) ↔
      layout.Complete index w.since) ∧
    ∀ m ∈ passedBy layout.pieceLength order answer w.state, m.pieceIndex = index →
      m.blockOffset = 0 ∧ m.blockLength = layout.size index

theorem EmptyLast.not_complete {messages : List BlockMetadata} (hindex : index < layout.totalBlocks)
    (h : EmptyLast layout index messages) : ¬ layout.Complete index messages := by
  intro hcomplete
  obtain ⟨m, hm, hstart, hstop⟩ := hcomplete 0 (layout.size_pos hindex)
  have hempty := h.2.2 m hm
  simp only [blockStop] at hstop
  omega

/-- A piece of ten bytes, all of them in the first block, with two short blocks behind its start. -/
def tenBytes : Layout := ⟨10, 10, by decide, by decide⟩

def twoBlocks : List (CheckerOp IoError) := [.add (.withDefaultHash 0 4 6), .add (.withDefaultHash 0 0 4)]

def alwaysGood (_ : BlockMetadata) : Except IoError Bool := .ok true

def nestedBlocks : List (CheckerOp IoError) :=
  [.add (.withDefaultHash 0 0 10), .add (.withDefaultHash 0 2 1), .add (.withDefaultHash 0 8 2)]

/-- After any blocks and calls, a call is exact for a piece that is not known to be good if and only if,
should the blocks cover it, those that wait are linked and the call comes to the piece, and it does not
come to a last piece whose blocks are all empty. -/
theorem checked_exactly_iff (layout : Layout) (index : Nat) (ops : List (CheckerOp ε))
    (order : Arrangement Nat) (answer : BlockMetadata → Except ε Bool)
    (hindex : index < layout.totalBlocks) (hops : ∀ msg, .add msg ∈ ops → layout.Holds msg)
    (hgood : .good index ∉ (Watch.run layout index ops).state.oldStates) :
    ExactAt layout index (Watch.run layout index ops) order answer ↔
      (layout.Complete index (Watch.run layout index ops).since →
        Chained ((Watch.run layout index ops).state.pending index) ∧
          Reached layout.pieceLength order answer (Watch.run layout index ops).state index) ∧
      ¬ (Chained ((Watch.run layout index ops).state.pending index) ∧
        Reached layout.pieceLength order answer (Watch.run layout index ops).state index ∧
        EmptyLast layout index ((Watch.run layout index ops).state.pending index)) := by
  have hsound := Watch.sound_run hindex hops
  generalize Watch.run layout index ops = w at hsound hgood ⊢
  have hpassed := (hsound.call hindex order answer).1 index
  have hwhole := whole_iff hsound.sized (hsound.within index) hindex hgood
  have hcomplete : layout.Complete index (w.state.pending index) ↔ layout.Complete index w.since := by
    simp only [Layout.Complete, hsound.covered]
  have hany : (∃ m ∈ passedBy layout.pieceLength order answer w.state, m.pieceIndex = index) ↔
      (Chained (w.state.pending index) ∧
        (layout.Complete index w.since ∨ EmptyLast layout index (w.state.pending index))) ∧
      Reached layout.pieceLength order answer w.state index := by
    rw [← hcomplete, ← hwhole]
    simp only [hpassed, exists_and_right]
  have hexclusive : EmptyLast layout index (w.state.pending index) →
      ¬ layout.Complete index w.since := fun hempty =>
    hcomplete.not.mp (hempty.not_complete hindex)
  constructor
  · rintro ⟨hiff, -⟩
    refine ⟨fun hcovers => ?_, fun hempty => ?_⟩
    · obtain ⟨⟨hchained, -⟩, hreached⟩ := hany.mp (hiff.mpr hcovers)
      exact ⟨hchained, hreached⟩
    · exact hexclusive hempty.2.2 (hiff.mp (hany.mpr ⟨⟨hempty.1, .inr hempty.2.2⟩, hempty.2.1⟩))
  · rintro ⟨hcovers, hempty⟩
    have hcheck : (∃ m ∈ passedBy layout.pieceLength order answer w.state, m.pieceIndex = index) ↔
        layout.Complete index w.since := by
      rw [hany]
      constructor
      · rintro ⟨⟨hchained, hor⟩, hreached⟩
        exact hor.resolve_right fun hlast => hempty ⟨hchained, hreached, hlast⟩
      · intro hfull
        exact ⟨⟨(hcovers hfull).1, .inl hfull⟩, (hcovers hfull).2⟩
    refine ⟨hcheck, fun m hm hmindex => ?_⟩
    have hfull := hcheck.mp ⟨m, hm, hmindex⟩
    obtain ⟨hfound, -⟩ := (hpassed m).mp ⟨hm, hmindex⟩
    obtain ⟨hsingle, -⟩ :=
      (whole_eq_some hsound.sized (hsound.within index) hindex hgood).mp hfound
    have hmerged := (hsound.within index).merged
    rw [hsingle] at hmerged
    refine (complete_singleton_iff hmerged hindex).mp fun x hx => ?_
    rw [← hsingle, coveredBy_merged, hsound.covered]
    exact hfull x hx

/-- Two blocks that make up the piece, the second one first, are checked as the whole piece. -/
theorem checked_exactly_twoBlocks :
    ExactAt tenBytes 0 (Watch.run tenBytes 0 twoBlocks) (.listed Nat) alwaysGood := by
  refine (checked_exactly_iff tenBytes 0 twoBlocks (.listed Nat) alwaysGood (by decide) ?_
    (by decide)).mpr ⟨fun _ => ⟨?_, ?_⟩, ?_⟩
  · intro msg hmsg
    simp only [twoBlocks, mem_cons, CheckerOp.add.injEq, not_mem_nil, or_false] at hmsg
    rcases hmsg with rfl | rfl <;> exact ⟨by decide, by decide⟩
  · exact ⟨by decide, by decide⟩
  · exact fun key hkey m hm => rfl
  · rintro ⟨-, -, hempty⟩
    exact absurd (hempty.2.2 (.withDefaultHash 0 0 4) (by decide)) (by decide)

/-- The first block alone covers the piece, and no call passes it on: after sorting, the last block
starts behind the end of the one in the middle. -/
theorem nestedBlocks_not_exact :
    (∀ msg, .add msg ∈ nestedBlocks → tenBytes.Holds msg) ∧
      ¬ ExactAt tenBytes 0 (Watch.run tenBytes 0 nestedBlocks) (.listed Nat) alwaysGood := by
  constructor
  · intro msg hmsg
    simp only [nestedBlocks, mem_cons, CheckerOp.add.injEq, not_mem_nil, or_false] at hmsg
    rcases hmsg with rfl | rfl | rfl <;> exact ⟨by decide, by decide⟩
  · rintro ⟨hiff, -⟩
    have hnone : passedBy tenBytes.pieceLength (.listed Nat) alwaysGood
        (Watch.run tenBytes 0 nestedBlocks).state = [] := by decide +kernel
    obtain ⟨m, hm, -⟩ := hiff.mpr fun x hx =>
      ⟨.withDefaultHash 0 0 10, by decide, Nat.zero_le x, hx⟩
    rw [hnone] at hm
    cases hm

end

end BitTorrent.Disk
