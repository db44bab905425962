import BitTorrent.DiskResume

/-! Adding any torrent that the parser accepts. The parser does not look at the piece length, the number
of hashes and the sizes of the files together, so the checker may divide by zero, add past a word, count
down from no pieces or look for a hash that is not there. -/

namespace BitTorrent.Disk

open Rust Segments Meta PieceCheckerState Volume Io Nat

variable {key : Nat}

namespace PieceCheckerState

variable {s : PieceCheckerState} {pieceLength : Nat} {τ ε : Type} {t : τ}
  {callback : BlockMetadata → Io τ ε Bool}

theorem forM_checkPiece_panics {keys : List Nat} (hzero : s.totalBlocks = 0)
    (h : ∃ key ∈ keys, s.pending key ≠ []) :
    (keys.forM (checkPiece pieceLength callback)).run (s, t) = (.error .panic, (s, t)) := by
  induction keys with
  | nil => exact absurd h (by simp)
  | cons key keys ih =>
    cases hpending : s.pending key with
    | nil =>
      have hrun : (checkPiece pieceLength callback key).run (s, t) = (.ok (), (s, t)) := by
        rw [checkPiece_run (fun hne => absurd hpending hne), hpending]
        rfl
      obtain ⟨other, hmem, hne⟩ := h
      rcases List.mem_cons.mp hmem with rfl | hmem
      · exact absurd hpending hne
      · exact (run_bind_of_ok hrun).trans (ih ⟨other, hmem, hne⟩)
    | cons message messages =>
      refine run_bind_of_error ?_
      rw [checkPiece, run_get_bind]
      dsimp only
      rw [hpending, hzero]
      refine run_bind_of_error ?_
      rfl

theorem runWithWholePieces_panics (order : Arrangement Nat) (pieceLength : Nat)
    (callback : BlockMetadata → Io τ ε Bool) (t : τ)
    (hstops : ∀ key, ∀ m ∈ s.pending key, m.blockStop ≤ usizeMax) (hzero : s.totalBlocks = 0)
    (hkey : s.pending key ≠ []) :
    ∃ s', (runWithWholePieces order pieceLength callback).run (s, t) = (.error .panic, (s', t)) := by
  have hkeys : (order.arrange s.pendingBlocks.keys).Nodup :=
    (order.perm _).nodup_iff.mpr s.pendingBlocks.keys_nodup
  have hmem : key ∈ order.arrange s.pendingBlocks.keys := by
    rw [(order.perm _).mem_iff]
    by_contra hnot
    exact hkey (pending_eq_nil_of_not_mem hnot)
  obtain ⟨s', hrun, -, -, hblocks, -, hpending⟩ :=
    forM_mergeAt_run (ε := ε) (t := t) hkeys fun key _ => hstops key
  have hne : s'.pending key ≠ [] := by
    rw [hpending, if_pos hmem]
    exact mergedMessages_ne_nil hkey
  refine ⟨s', ?_⟩
  rw [runWithWholePieces, run_get_bind]
  exact (run_bind_of_ok hrun).trans
    (forM_checkPiece_panics (hblocks.trans hzero) ⟨key, hmem, hne⟩)

/-- The loop over the whole pieces with a callback that comes to a verdict about some pieces and panics
for the others. -/
theorem forM_checkWhole_returns {pieces : List (Nat × BlockMetadata)} (inv : τ → Prop)
    (known : BlockMetadata → Prop) (hcallback : ∀ piece ∈ pieces, ∀ t, inv t → ∃ t', inv t' ∧
      ((∃ verdict, (callback piece.2).run t = (.ok verdict, t') ∧ known piece.2) ∨
        (callback piece.2).run t = (.error .panic, t') ∧ ¬ known piece.2)) (ht : inv t) : ∃ s' t', inv t' ∧
      ((pieces.forM (checkWhole callback)).run (s, t) = (.ok (), (s', t')) ∧
          (∀ piece ∈ pieces, known piece.2) ∨
        (pieces.forM (checkWhole callback)).run (s, t) = (.error .panic, (s', t')) ∧
          ¬ ∀ piece ∈ pieces, known piece.2) := by
  induction pieces generalizing s t with
  | nil => exact ⟨s, t, ht, .inl ⟨rfl, nofun⟩⟩
  | cons piece pieces ih =>
    obtain ⟨hpiece, hpieces⟩ := List.forall_mem_cons.mp hcallback
    rw [List.forall_mem_cons]
    obtain ⟨t₁, ht₁, ⟨verdict, hrun, hknown⟩ | ⟨hrun, hunknown⟩⟩ := hpiece t ht
    · have hwhole : (checkWhole callback piece).run (s, t) =
          (.ok (), (s.record piece.1 piece.2 verdict, t₁)) :=
        run_bind_of_ok (run_zoom_of_eq hrun)
      obtain ⟨s', t', ht', hrest⟩ := ih (s := s.record piece.1 piece.2 verdict) hpieces ht₁
      refine ⟨s', t', ht', hrest.imp ?_ ?_⟩
      · exact fun h => ⟨(run_bind_of_ok hwhole).trans h.1, hknown, h.2⟩
      · exact fun h => ⟨(run_bind_of_ok hwhole).trans h.1, fun hall => h.2 hall.2⟩
    · have hwhole : (checkWhole callback piece).run (s, t) = (.error .panic, (s, t₁)) :=
        run_bind_of_error (run_zoom_of_eq hrun)
      exact ⟨s, t₁, ht₁, .inr ⟨run_bind_of_error hwhole, fun hall => hunknown hall.1⟩⟩

end PieceCheckerState

/-! ### The first look at the pieces -/

/-- There are hashes for all full pieces, and at least one if there is anything to check. -/
def EnoughHashes (info : Info) (total : Nat) : Prop :=
  (total = 0 ∨ 0 < info.pieces.length) ∧ total / info.pieceLen.toNat ≤ info.pieces.length

instance (info : Info) (total : Nat) : Decidable (EnoughHashes info total) :=
  inferInstanceAs (Decidable (_ ∧ _))

section

variable {info : Info} {total : Nat} {v : Volume} {s : PieceCheckerState} (hash : Bytes → ShaHash)

/-- Every piece waits as one block, and none is known. -/
structure Filled (info : Info) (total : Nat) (hpos : 0 < info.pieceLen.toNat)
    (s : PieceCheckerState) : Prop where
  pending (index : Nat) : s.pending index =
    if index < (layoutOf info total hpos).totalBlocks then [wholePiece info total index] else []
  oldStates : s.oldStates = ∅
  totalBlocks : s.totalBlocks = info.pieces.length
  lastBlockSize : s.lastBlockSize = total % info.pieceLen.toNat

variable {hpos : 0 < info.pieceLen.toNat}

theorem Filled.whole_eq_some (h : Filled info total hpos s) {m : BlockMetadata} :
    s.whole info.pieceLen.toNat key = some m ↔
      m = wholePiece info total key ∧ key < (layoutOf info total hpos).totalBlocks ∧
        ((layoutOf info total hpos).size key = info.pieceLen.toNat ∨ key + 1 = info.pieces.length ∧
          (layoutOf info total hpos).size key = total % info.pieceLen.toNat) := by
  rw [whole, h.pending]
  by_cases hkey : key < (layoutOf info total hpos).totalBlocks
  · rw [if_pos hkey]
    change s.toCheck info.pieceLen.toNat [wholePiece info total key] = some m ↔ _
    rw [toCheck, h.totalBlocks, h.lastBlockSize, h.oldStates]
    by_cases hsize : (layoutOf info total hpos).size key = info.pieceLen.toNat ∨
        key + 1 = info.pieces.length ∧
          (layoutOf info total hpos).size key = total % info.pieceLen.toNat
    · rw [if_pos ⟨hsize, Finset.notMem_empty _⟩, Option.some.injEq, eq_comm]
      exact ⟨fun hm => ⟨hm, hkey, hsize⟩, fun hm => hm.1⟩
    · rw [if_neg (fun hcheck => hsize hcheck.1)]
      exact ⟨fun h => (by cases h), fun hm => absurd hm.2.2 hsize⟩
  · rw [if_neg hkey]
    exact ⟨fun h => (by cases h), fun hm => absurd hm.2.1 hkey⟩

theorem lt_div_of_size (hsize : (layoutOf info total hpos).size key = info.pieceLen.toNat) :
    key < total / info.pieceLen.toNat := by
  rw [size_layoutOf] at hsize
  rw [← add_one_le_iff, le_div_iff_mul_le hpos, add_mul, one_mul]
  omega

theorem Filled.forall_whole_iff (h : Filled info total hpos s) :
    (∀ key m, s.whole info.pieceLen.toNat key = some m → m.pieceIndex < info.pieces.length) ↔
      total / info.pieceLen.toNat ≤ info.pieces.length := by
  constructor
  · intro hall
    by_contra hlt
    have hfull := layoutOf_full hpos (Nat.lt_of_not_le hlt)
    exact Nat.lt_irrefl _ (hall _ _ (h.whole_eq_some.mpr ⟨rfl, hfull.1, .inl hfull.2⟩))
  · intro hle key m hm
    obtain ⟨rfl, -, hsize | ⟨hlast, -⟩⟩ := h.whole_eq_some.mp hm
    · exact lt_of_lt_of_le (lt_div_of_size hsize) hle
    · exact hlast ▸ lt_succ_self key

/-- A piece that is looked at can be read, and is known if it has a hash. -/
theorem Filled.pieceMatches_returns (order : Arrangement Nat) (hreadable : Readable info v info.files)
    (htotal : totalBytes info = (.ok total : Run IoError Nat)) (h : Filled info total hpos s) :
    ∀ piece ∈ s.wholes order info.pieceLen.toNat, ∀ t : Bytes × Volume,
      t.2 = v ∧ t.1.length = info.pieceLen.toNat → ∃ t', (t'.2 = v ∧ t'.1.length = info.pieceLen.toNat) ∧
        ((∃ verdict, (pieceMatches fileSystem hash info piece.2).run t = (.ok verdict, t') ∧
            piece.2.pieceIndex < info.pieces.length) ∨
          (pieceMatches fileSystem hash info piece.2).run t = (.error .panic, t') ∧
            ¬ piece.2.pieceIndex < info.pieces.length) := by
  rintro ⟨key, m⟩ hpiece ⟨buffer, v⟩ ⟨rfl, hlength⟩
  obtain ⟨rfl, hkey, -⟩ := h.whole_eq_some.mp (mem_wholes_iff.mp hpiece)
  have hlt : key * info.pieceLen.toNat < total := Layout.lt_totalBlocks_iff.mp hkey
  have hbegin : blockBegin info (wholePiece info total key) ≤ usizeMax :=
    hlt.le.trans (totalBytes_eq_ok.mp htotal).2
  have hle : (wholePiece info total key).blockLength ≤ buffer.length :=
    (min_le_left _ _).trans hlength.ge
  obtain ⟨buffer', hlength', hmatch⟩ := Disk.pieceMatches_returns hash hreadable hbegin hle
  refine ⟨(buffer', v), ⟨rfl, hlength'.trans hlength⟩, hmatch.imp_right ?_⟩
  exact fun hpanic => ⟨hpanic.1, not_lt.mpr hpanic.2⟩

theorem calculateDiff_returns (order : Arrangement Nat) (hreadable : Readable info v info.files)
    (htotal : totalBytes info = (.ok total : Run IoError Nat)) (hfits : info.pieceLen.toNat ≤ isizeMax)
    (h : Filled info total hpos s) :
    ∃ s' v', (calculateDiff fileSystem hash order info).run (s, v) = (.ok (), (s', v')) ∧
        EnoughHashes info total ∨
      (calculateDiff fileSystem hash order info).run (s, v) = (.error .panic, (s', v')) ∧
        ¬ EnoughHashes info total := by
  obtain ⟨buffer, hzeros, hbuffer⟩ := Buffer.zeros_of_le (ε := IoError) hfits
  have hstops : ∀ key, ∀ m ∈ s.pending key, m.blockStop ≤ usizeMax := by
    intro key m hm
    rw [h.pending] at hm
    split at hm
    · cases List.mem_singleton.mp hm
      exact (zero_add _).le.trans ((min_le_left _ _).trans (layoutOf info total hpos).fits)
    · cases hm
  by_cases hcounted : total = 0 ∨ 0 < info.pieces.length
  · have hblocks : ∀ key, s.pending key ≠ [] → 0 < s.totalBlocks := by
      intro key hne
      rw [h.pending] at hne
      split at hne
      · rename_i hkey
        have hlt : key * info.pieceLen.toNat < total := Layout.lt_totalBlocks_iff.mp hkey
        exact h.totalBlocks ▸ hcounted.resolve_left (by omega)
      · exact absurd rfl hne
    obtain ⟨s₁, -, hrun⟩ := runWithWholePieces_run order info.pieceLen.toNat
      (pieceMatches fileSystem hash info) (buffer.data, v) hblocks hstops
    obtain ⟨s', ⟨buffer', v'⟩, -, hloop⟩ := forM_checkWhole_returns (s := s₁)
      (t := (buffer.data, v)) (fun t : Bytes × Volume => t.2 = v ∧ t.1.length = info.pieceLen.toNat)
      (fun m => m.pieceIndex < info.pieces.length)
      (h.pieceMatches_returns hash order hreadable htotal) ⟨rfl, hbuffer⟩
    have hall : (∀ piece ∈ s.wholes order info.pieceLen.toNat,
        piece.2.pieceIndex < info.pieces.length) ↔ EnoughHashes info total := by
      rw [EnoughHashes, and_iff_right hcounted, ← h.forall_whole_iff]
      simp only [Prod.forall, mem_wholes_iff]
    rw [← hrun, hall] at hloop
    exact ⟨s', v', hloop.imp
      (fun hok => ⟨calculateDiff_of_run hash hzeros hok.1, hok.2⟩)
      fun hpanic => ⟨calculateDiff_of_run hash hzeros hpanic.1, hpanic.2⟩⟩
  · obtain ⟨hne, hnone⟩ := not_or.mp hcounted
    -- the first piece waits
    have hfirst : s.pending 0 ≠ [] := by
      have hlt : 0 < (layoutOf info total hpos).totalBlocks := by
        rw [Layout.lt_totalBlocks_iff, zero_mul]
        exact pos_of_ne_zero hne
      rw [h.pending, if_pos hlt]
      exact List.cons_ne_nil _ _
    obtain ⟨s', hrun⟩ := runWithWholePieces_panics order info.pieceLen.toNat
      (pieceMatches fileSystem hash info) (buffer.data, v) hstops (h.totalBlocks.trans (Nat.eq_zero_of_not_pos hnone)) hfirst
    exact ⟨s', v, .inr ⟨calculateDiff_of_run hash hzeros hrun, fun henough => hcounted henough.1⟩⟩

end

/-! ### The whole request -/

/-- The request is over, and the last message is one of its two responses. -/
def AddEnds (metainfo : Metainfo) (r : Run Empty Unit × DiskManagerContext Volume IoError) : Prop :=
  r.1 = .ok () ∧ ∃ before, r.2.out = before ++ [.torrentAdded metainfo.info.infoHash] ∨
    ∃ error, r.2.out = before ++ [.torrentError metainfo.info.infoHash error]

/-- The sizes add up to a word, pieces are not empty, and there are enough hashes, unless there is a file
whose path is refused or that is there with another length. -/
def AddSafe (info : Info) (v : Volume) : Prop :=
  totalSize info.files ≤ usizeMax ∧ info.pieceLen.toNat ≠ 0 ∧
    (Accepted info v info.files → EnoughHashes info (totalSize info.files))

section

variable {info : Info} {v : Volume} (hash : Bytes → ShaHash)

variable {ε : Type}

theorem totalBytes_cases (info : Info) : (∃ total, totalBytes info = (.ok total : Run ε Nat)) ∨
      totalBytes info = (.error .panic : Run ε Nat) := by
  rw [totalBytes]
  generalize 0 = start
  induction info.files generalizing start with
  | nil => exact .inl ⟨start, rfl⟩
  | cons file files ih =>
    rw [List.foldlM_cons, addUsize]
    split
    · exact ih _
    · exact .inr rfl

theorem totalBytes_panics {ε' : Type} (h : totalBytes info = (.error .panic : Run ε Nat)) :
    totalBytes info = (.error .panic : Run ε' Nat) := by
  refine (totalBytes_cases info).resolve_left ?_
  rintro ⟨total, htotal⟩
  rw [totalBytes_of_eq htotal] at h
  cases h

/-- Making the checker ends with it or with an error, or it panics. -/
theorem initState_returns (order : Arrangement Nat) (hfits : info.pieceLen.toNat ≤ isizeMax) :
    ((∃ s v', (initState fileSystem hash order info).run v = (.ok s, v')) ∨
        ∃ e v', (initState fileSystem hash order info).run v = (fail e, v')) ∧ AddSafe info v ∨
      (∃ v', (initState fileSystem hash order info).run v = (.error .panic, v')) ∧ ¬ AddSafe info v := by
  rcases totalBytes_cases (ε := IoError) info with ⟨total, htotal⟩ | htotal
  · obtain ⟨htotalSize, hmax⟩ := totalBytes_eq_ok.mp htotal
    by_cases hzero : info.pieceLen.toNat = 0
    · have hsize : (lastPieceSize info : Run (TorrentError IoError) Nat) = .error .panic := by
        rw [lastPieceSize, totalBytes_of_eq htotal, ok_bind, remUsize, if_pos hzero]
      refine .inr ⟨⟨v, ?_⟩, ?_⟩
      · rw [initState, hsize]
        rfl
      · rintro ⟨-, hpos, -⟩
        exact hpos hzero
    · have hpos := pos_of_ne_zero hzero
      have hsize : (lastPieceSize info : Run (TorrentError IoError) Nat) = _ :=
        lastPieceSize_run hpos (totalBytes_of_eq htotal)
      have hsafe : AddSafe info v ↔ (Accepted info v info.files → EnoughHashes info total) := by
        rw [AddSafe, ← htotalSize, and_iff_right hmax, and_iff_right hzero]
      rcases validateFilesSizes_returns info v with
        ⟨haccepted, v₁, hvalidate, hreadable⟩ | ⟨hnot, e, v', hvalidate⟩
      · obtain ⟨s, hfill, ⟨-, hold, hblocks, hlast⟩, hpending⟩ := fillCheckerState_run
          (ε := TorrentError IoError) (s := .new info.pieces.length (total % info.pieceLen.toNat))
          hpos (totalBytes_of_eq htotal) fun _ => rfl
        have hfilled : Filled info total hpos s := ⟨hpending, hold, hblocks, hlast⟩
        rw [hsafe, imp_iff_right haccepted, initState, hsize, ofRun_ok_bind, run_bind_of_ok hvalidate,
          hfill, ofRun_ok_bind]
        obtain ⟨s', v', ⟨hdiff, henough⟩ | ⟨hdiff, henough⟩⟩ :=
          calculateDiff_returns hash order hreadable htotal hfits hfilled
        · have hlocal : (withLocal s (calculateDiff fileSystem hash order info) :
              Io Volume (TorrentError IoError) (Except IoError Unit × PieceCheckerState)).run v₁ =
              (.ok (.ok (), s'), v') := by
            simp only [withLocal, hdiff]
            rfl
          exact .inl ⟨.inl ⟨s', v', run_bind_of_ok hlocal⟩, henough⟩
        · have hlocal : (withLocal s (calculateDiff fileSystem hash order info) :
              Io Volume (TorrentError IoError) (Except IoError Unit × PieceCheckerState)).run v₁ =
              (.error .panic, v') := by
            simp only [withLocal, hdiff]
            rfl
          exact .inr ⟨⟨v', run_bind_of_error hlocal⟩, henough⟩
      · refine .inl ⟨.inr ⟨e, v', ?_⟩, hsafe.mpr fun h => absurd h hnot⟩
        rw [initState, hsize, ofRun_ok_bind]
        exact run_bind_of_error hvalidate
  · have hsize : (lastPieceSize info : Run (TorrentError IoError) Nat) = .error .panic := by
      rw [lastPieceSize, totalBytes_panics htotal]
      rfl
    refine .inr ⟨⟨v, ?_⟩, ?_⟩
    · rw [initState, hsize]
      rfl
    · rintro ⟨hmax, -⟩
      rw [totalBytes_eq_ok.mpr ⟨rfl, hmax⟩] at htotal
      cases htotal

variable {hash} {metainfo : Metainfo} {order : Arrangement Nat} {c : DiskManagerContext Volume IoError}

variable {c' : DiskManagerContext Volume IoError}

theorem addEnds_of_returns {r : Except (TorrentError IoError) Unit}
    (h : (executeAddTorrent fileSystem hash order metainfo).run c = (ofResult r, c')) :
    AddEnds metainfo ((execute fileSystem hash order (.addTorrent metainfo)).run c) := by
  have hresult : (Io.result (executeAddTorrent fileSystem hash order metainfo) :
      Io _ Empty (Except (TorrentError IoError) Unit)).run c = (.ok r, c') := by
    simp only [Io.result, h, result_eq_ok.mpr rfl]
  cases r with
  | ok =>
    have hrun : (execute fileSystem hash order (.addTorrent metainfo)).run c =
        (.ok (), c'.send (.torrentAdded metainfo.info.infoHash)) := run_bind_of_ok hresult
    rw [hrun]
    exact ⟨rfl, c'.out, .inl rfl⟩
  | error e =>
    have hrun : (execute fileSystem hash order (.addTorrent metainfo)).run c =
        (.ok (), c'.send (.torrentError metainfo.info.infoHash e)) := run_bind_of_ok hresult
    rw [hrun]
    exact ⟨rfl, c'.out, .inr ⟨e, rfl⟩⟩

theorem not_addEnds_of_panic
    (h : (executeAddTorrent fileSystem hash order metainfo).run c = (.error .panic, c')) :
    ¬ AddEnds metainfo ((execute fileSystem hash order (.addTorrent metainfo)).run c) := by
  have hresult : (Io.result (executeAddTorrent fileSystem hash order metainfo) :
      Io _ Empty (Except (TorrentError IoError) Unit)).run c = (.error .panic, c') := by
    simp only [Io.result, h]
    rfl
  have hrun : (execute fileSystem hash order (.addTorrent metainfo)).run c =
      (.error .panic, c') := run_bind_of_error hresult
  rw [hrun]
  rintro ⟨hok, -⟩
  cases hok

def zeroPieceTorrent : Buffer where
  data := ascii "d4:infod6:lengthi1e4:name1:a12:piece lengthi0e6:pieces20:aaaaaaaaaaaaaaaaaaaaee"
  fits := by decide +kernel

def zeroPiece : Metainfo := .ofInfo
  { infoHash := ⟨List.replicate shaHashLen 82, List.length_replicate⟩
    files := [⟨1, ⟨ascii "a"⟩, none⟩]
    pieces := [Vector.replicate 20 97]
    pieceLen := 0
    isPrivate := none
    fileDirectory := none }

/-- A request to add a parsed torrent ends with a response if and only if the fields of the torrent fit
together; otherwise the task panics. -/
theorem addTorrent_ends_iff (bytes : Buffer) (order : Arrangement Nat)
    (c : DiskManagerContext Volume IoError) (hparsed : Metainfo.fromBytes hash bytes = .ok metainfo) :
    AddEnds metainfo ((execute fileSystem hash order (.addTorrent metainfo)).run c) ↔
      AddSafe metainfo.info c.disk := by
  have hfits : metainfo.info.pieceLen.toNat ≤ isizeMax := Metainfo.pieceLen_le hparsed
  rcases initState_returns (v := c.disk) hash order hfits with
    ⟨⟨s, v', hinit⟩ | ⟨e, v', hinit⟩, hsafe⟩ | ⟨⟨v', hinit⟩, hunsafe⟩
  · refine iff_of_true ?_ hsafe
    have hadd := executeAddTorrent_of_init hash hinit
    cases hlookup : c.torrents.lookup metainfo.info.infoHash with
    | none =>
      rw [hlookup] at hadd
      exact addEnds_of_returns (r := .ok ()) hadd
    | some occupied =>
      rw [hlookup] at hadd
      exact addEnds_of_returns (r := .error _) hadd
  · refine iff_of_true ?_ hsafe
    exact addEnds_of_returns (r := .error e) (run_bind_of_error (run_zoom_of_eq hinit))
  · refine iff_of_false ?_ hunsafe
    exact not_addEnds_of_panic (run_bind_of_error (run_zoom_of_eq hinit))

theorem addTorrent_ends_twoPieces :
    Metainfo.fromBytes byteSum twoPiecesTorrent = .ok twoPieces ∧
      AddEnds twoPieces ((execute fileSystem byteSum (.listed Nat) (.addTorrent twoPieces)).run
        (.new emptyVolume)) :=
  ⟨by decide +kernel, (addTorrent_ends_iff twoPiecesTorrent (.listed Nat) (.new emptyVolume)
    (by decide +kernel)).mpr ⟨by decide, by decide, fun _ => by decide⟩⟩

/-- The remainder by a piece length of zero panics. -/
theorem zeroPieceTorrent_panics :
    Metainfo.fromBytes byteSum zeroPieceTorrent = .ok zeroPiece ∧
      ((execute fileSystem byteSum (.listed Nat) (.addTorrent zeroPiece)).run
        (.new emptyVolume)).1 = .error .panic ∧
      ¬ AddEnds zeroPiece ((execute fileSystem byteSum (.listed Nat)
        (.addTorrent zeroPiece)).run (.new emptyVolume)) :=
  ⟨by decide +kernel, by decide +kernel, fun h => absurd h.1 (by decide +kernel)⟩

end

end BitTorrent.Disk
