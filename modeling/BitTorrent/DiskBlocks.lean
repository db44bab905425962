import BitTorrent.DiskTasks

/-! How much of a block is accessed. The loop over the files ends when the files do, and nothing compares
the bytes that were accessed with the length of the block: a block that reaches past the end of the torrent is
cut off there, and the access is a success. -/

namespace BitTorrent.Disk

open Rust Segments Meta Io Prod

variable {buffer : Bytes}

section

variable {σ File ε α : Type}

/-- A call of a file system, next to a meter. -/
def besideMeter (x : Io σ ε α) : Io (σ × Nat) ε α := zoom Prod.fst (fun s t => (s, t.2)) x

def addToMeter (bytes : Nat) : Io (σ × Nat) ε Unit := modify fun t => (t.1, t.2 + bytes)

/-- The file system with a meter for the bytes that are read and written. -/
def FileSystem.metered (fs : FileSystem σ File ε) : FileSystem (σ × Nat) File ε where
  openFile path := besideMeter (fs.openFile path)
  syncFile path := besideMeter (fs.syncFile path)
  fileSize file := besideMeter (fs.fileSize file)
  readFile file offset length := do
    let bytes ← besideMeter (fs.readFile file offset length)
    addToMeter bytes.length
    return bytes
  writeFile file offset buffer := do
    let bytesWritten ← besideMeter (fs.writeFile file offset buffer)
    addToMeter bytesWritten
    return bytesWritten

variable {t' t : σ × Nat} {r : Run ε α}

theorem meter_besideMeter {x : Io σ ε α} (h : (besideMeter x).run t = (r, t')) : t'.2 = t.2 := by
  cases h
  rfl

variable {fs : FileSystem σ File ε} {file : File} {offset start stop : Nat}

theorem meter_writeFile {bytesWritten : Nat}
    (h : (fs.metered.writeFile file offset buffer).run t = (.ok bytesWritten, t')) : t'.2 = t.2 + bytesWritten := by
  obtain ⟨n, t₁, hwrite, hrest⟩ := run_bind_eq_ok h
  have hsame := meter_besideMeter hwrite
  cases hrest
  exact congrArg (· + bytesWritten) hsame

theorem meter_readFile {length : Nat} {bytes : Bytes}
    (h : (fs.metered.readFile file offset length).run t = (.ok bytes, t')) : t'.2 = t.2 + bytes.length := by
  obtain ⟨read, t₁, hread, hrest⟩ := run_bind_eq_ok h
  have hsame := meter_besideMeter hread
  cases hrest
  exact congrArg (· + bytes.length) hsame

theorem assertEq_eq_ok {a b : Nat} (h : (assertEq a b : Run ε Unit) = .ok ()) : a = b := by
  unfold assertEq at h
  split at h
  · assumption
  · cases h

theorem meter_writeRegion {pieceBuffer : Bytes}
    (h : (writeRegion fs.metered pieceBuffer file offset start stop).run t = (.ok (), t')) :
    t'.2 = t.2 + (stop - start) := by
  obtain ⟨part, t₁, hslice, hrest⟩ := run_bind_eq_ok h
  obtain ⟨-, rfl⟩ := mk.inj hslice
  obtain ⟨bytesWritten, t₂, hwrite, hassert⟩ := run_bind_eq_ok hrest
  obtain ⟨hequal, rfl⟩ := mk.inj hassert
  rw [meter_writeFile hwrite, assertEq_eq_ok hequal]

theorem meter_onDisk {β : Type} {x : Io (σ × Nat) ε α} {t t' : β × σ × Nat}
    (h : (onDisk x).run t = (r, t')) : ∃ s, x.run t.2 = (r, s) ∧ t' = (t.1, s) := by
  cases h
  exact ⟨_, rfl, rfl⟩

theorem meter_readRegion {t t' : Bytes × σ × Nat}
    (h : (readRegion fs.metered file offset start stop).run t = (.ok (), t')) : t'.2.2 = t.2.2 + (stop - start) := by
  obtain ⟨buffer, t₁, hget, hrest⟩ := run_bind_eq_ok h
  cases hget
  obtain ⟨part, t₂, hslice, hrest⟩ := run_bind_eq_ok hrest
  obtain ⟨-, rfl⟩ := mk.inj hslice
  obtain ⟨bytes, t₃, hread, hrest⟩ := run_bind_eq_ok hrest
  obtain ⟨s, hfile, rfl⟩ := meter_onDisk hread
  obtain ⟨_, t₄, hmodify, hassert⟩ := run_bind_eq_ok hrest
  cases hmodify
  obtain ⟨hequal, rfl⟩ := mk.inj hassert
  show s.2 = _
  rw [meter_readFile hfile, assertEq_eq_ok hequal]

end

/-! ### The loop -/

section

variable {τ F ε : Type} {openFile : PathBuf → Io τ ε F} {directory : Option PathBuf} {total : Nat}
  {callback : F → Nat → Nat → Nat → Io τ ε Unit} {files : List Meta.File} {skip accessed : Nat} {t t' : τ}

/-- If every region counts for its length, a loop that returns has accessed what the files have of the
block, which need not be all of it. -/
theorem regionLoop_accessed (meter : τ → Nat)
    (hopen : ∀ path t file t', (openFile path).run t = (.ok file, t') → meter t' = meter t)
    (hcallback : ∀ file offset start stop t t', (callback file offset start stop).run t = (.ok (), t') →
      meter t' = meter t + (stop - start))
    (h : (regionLoop openFile directory total callback files skip accessed).run t = (.ok (), t')) :
    meter t' = meter t + min (total - accessed) (totalSize files - skip) := by
  induction files generalizing skip accessed t with
  | nil =>
    cases h
    simp [totalSize]
  | cons file files ih =>
    obtain ⟨m, hm⟩ : ∃ m, m = share file.len.toNat skip (total - accessed) := ⟨_, rfl⟩
    have hshare : m = min (total - accessed) (file.len.toNat - min skip file.len.toNat) := hm
    rw [regionLoop_cons _ _ _ _ rfl hm] at h
    rw [totalSize_cons]
    split at h
    · have hrest := ih h
      omega
    · obtain ⟨fsFile, t₁, hopened, hrest⟩ := run_bind_eq_ok h
      obtain ⟨⟨⟩, t₂, hcalled, hrest⟩ := run_bind_eq_ok hrest
      have hfirst := hopen _ _ _ _ hopened
      have hregion := hcallback _ _ _ _ _ _ hcalled
      have hrest := ih hrest
      omega

/-- If no region fails that lies in the block, the loop returns. -/
theorem regionLoop_ok (inv : τ → Prop)
    (hopen : ∀ path t, inv t → ∃ file t', (openFile path).run t = (.ok file, t') ∧ inv t')
    (hcallback : ∀ file offset start stop t, start ≤ stop → stop ≤ total → inv t →
      ∃ t', (callback file offset start stop).run t = (.ok (), t') ∧ inv t')
    (haccessed : accessed ≤ total) (ht : inv t) :
    ∃ t', (regionLoop openFile directory total callback files skip accessed).run t = (.ok (), t') := by
  induction files generalizing skip accessed t with
  | nil => exact ⟨t, rfl⟩
  | cons file files ih =>
    obtain ⟨m, hm⟩ : ∃ m, m = share file.len.toNat skip (total - accessed) := ⟨_, rfl⟩
    have hshare : m = min (total - accessed) (file.len.toNat - min skip file.len.toNat) := hm
    rw [regionLoop_cons _ _ _ _ rfl hm]
    split
    · exact ih haccessed ht
    · obtain ⟨fsFile, t₁, hopened, ht₁⟩ := hopen (buildPath directory file) t ht
      obtain ⟨t₂, hcalled, ht₂⟩ := hcallback fsFile (min skip file.len.toNat) accessed (accessed + m) t₁
        (Nat.le_add_right _ _) (by omega) ht₁
      rw [run_bind_of_ok hopened, run_bind_of_ok hcalled]
      exact ih (by omega) ht₂

end

/-! ### Blocks -/

section

variable {σ File ε : Type} {fs : FileSystem σ File ε} {info : Info} {message : BlockMetadata} {s s' : σ}
  {bytes : Nat}

variable {data : Bytes}

theorem meter_writePiece (hstart : blockBegin info message ≤ usizeMax)
    (h : (writePiece fs.metered info data message).run (s, 0) = (.ok (), (s', bytes))) :
    bytes = min message.blockLength (totalSize info.files - blockBegin info message) := by
  rw [writePiece, runWithFileRegions, blockStart_of_le hstart, ofRun_ok_bind] at h
  have hmeter := regionLoop_accessed snd (fun _ _ _ _ => meter_besideMeter)
    (fun _ _ _ _ _ _ => meter_writeRegion) h
  simpa using hmeter

theorem meter_readPiece {buffer' : Bytes} (hstart : blockBegin info message ≤ usizeMax)
    (h : (readPiece fs.metered info message).run (buffer, (s, 0)) = (.ok (), (buffer', (s', bytes)))) :
    bytes = min message.blockLength (totalSize info.files - blockBegin info message) := by
  rw [readPiece, runWithFileRegions, blockStart_of_le hstart, ofRun_ok_bind] at h
  have hmeter := regionLoop_accessed (fun t : Bytes × σ × Nat => t.2.2)
    (fun path t file t' hopened => by
      obtain ⟨s, hfile, rfl⟩ := meter_onDisk hopened
      exact meter_besideMeter hfile)
    (fun _ _ _ _ _ _ => meter_readRegion) h
  simpa using hmeter

/-- Files that take every write and read as zeros everywhere. -/
def boundless : FileSystem Unit PathBuf IoError where
  openFile path := pure path
  syncFile _ := pure ()
  fileSize _ := pure 0
  readFile _ _ length := pure (List.replicate length 0)
  writeFile _ _ buffer := pure buffer.length

theorem writeRegion_boundless {file : PathBuf} {offset start stop : Nat} {t : Unit × Nat}
    (hle : start ≤ stop) (hstop : stop ≤ data.length) :
    (writeRegion boundless.metered data file offset start stop).run t = (.ok (), (t.1, t.2 + (stop - start))) := by
  obtain ⟨m, rfl⟩ := Nat.exists_eq_add_of_le hle
  have hlength : (window data start m).length = m := length_window hstop
  have hwrite : (boundless.metered.writeFile file offset (window data start m)).run t = (.ok m, (t.1, t.2 + m)) := by
    show (Except.ok (window data start m).length, t.1, t.2 + (window data start m).length) = _
    rw [hlength]
  rw [writeRegion, slice_of_le hstop, ofRun_ok_bind, run_bind_of_ok hwrite, Nat.add_sub_cancel_left,
    assertEq_self]
  rfl

theorem writePiece_boundless (hstart : blockBegin info message ≤ usizeMax)
    (hdata : data.length = message.blockLength) :
    ∃ t, (writePiece boundless.metered info data message).run ((), 0) = (.ok (), t) := by
  rw [writePiece, runWithFileRegions, blockStart_of_le hstart, ofRun_ok_bind]
  refine regionLoop_ok (fun _ => True) (fun path t _ => ⟨path, t, rfl, trivial⟩) ?_ (Nat.zero_le _) trivial
  intro file offset start stop t hle hstop _
  exact ⟨_, writeRegion_boundless hle (hdata ▸ hstop), trivial⟩

/-- A block that is written or read without an error was accessed completely, and a block that reaches past
the end of the torrent is an error. What the tasks report follows from that. -/
structure AccessedWhole (info : Info) (message : BlockMetadata) : Prop where
  write : ∀ (σ File ε : Type) (fs : FileSystem σ File ε) (s s' : σ) (data : Bytes) (bytes : Nat),
    (writePiece fs.metered info data message).run (s, 0) = (.ok (), (s', bytes)) → bytes = message.blockLength
  read : ∀ (σ File ε : Type) (fs : FileSystem σ File ε) (s s' : σ) (buffer buffer' : Bytes) (bytes : Nat),
    (readPiece fs.metered info message).run (buffer, (s, 0)) = (.ok (), (buffer', (s', bytes))) →
      bytes = message.blockLength
  overhang : ¬ InRange info (totalSize info.files) message →
    ∀ (σ File ε : Type) (fs : FileSystem σ File ε) (s : σ) (data : Bytes),
      (∃ e, ((writePiece fs.metered info data message).run (s, 0)).1 = fail e) ∧
        ∃ e, ((readPiece fs.metered info message).run (data, (s, 0))).1 = fail e
  processed : ∀ (σ File ε : Type) (fs : FileSystem σ File ε) (hash : Bytes → ShaHash) (order : Arrangement Nat)
    (c c' : DiskManagerContext (σ × Nat) ε) (state : MetainfoState) (data : Bytes),
    c.torrents.lookup message.infoHash = some state → state.file.info = info → c.disk.2 = 0 →
    (executeProcessBlock fs.metered hash order ⟨message, data⟩).run c = (.ok (), c') →
    ∃ s', (writePiece fs.metered info data message).run c.disk = (.ok (), (s', message.blockLength))
  loaded : ∀ (σ File ε : Type) (fs : FileSystem σ File ε) (c c' : DiskManagerContext (σ × Nat) ε)
    (state : MetainfoState) (data : Bytes) (block : Block),
    c.torrents.lookup message.infoHash = some state → state.file.info = info → c.disk.2 = 0 →
    (executeLoadBlock fs.metered ⟨message, data⟩ : Io _ Empty _).run c = (.ok (.ok (), block), c') →
    c'.disk.2 = message.blockLength

theorem run_of_result_ok {ε' α : Type} {x : Io σ ε α} {c c' : σ} {a : α}
    (h : (result x : Io σ ε' (Except ε α)).run c = (.ok (.ok a), c')) : x.run c = (.ok a, c') := by
  obtain ⟨hresult, hstate⟩ := Prod.mk.inj h
  exact Prod.ext (result_eq_ok.mp hresult) hstate

variable {c' c : DiskManagerContext σ ε} {state : MetainfoState}

/-- A block is reported as processed only if it was written. -/
theorem writePiece_of_processed {hash : Bytes → ShaHash} {order : Arrangement Nat}
    (hstate : c.torrents.lookup message.infoHash = some state)
    (h : (executeProcessBlock fs hash order ⟨message, data⟩).run c = (.ok (), c')) :
    ∃ disk, (writePiece fs state.file.info data message).run c.disk = (.ok (), disk) := by
  obtain ⟨blockResult, c₁, hupdate, hmatch⟩ := run_bind_eq_ok h
  rw [updateTorrent, run_get_bind, hstate] at hupdate
  obtain ⟨answer, c₂, hanswer, hsome⟩ := run_bind_eq_ok hupdate
  cases hsome
  obtain ⟨written, c₃, hresult, hrest⟩ := run_bind_eq_ok hanswer
  obtain ⟨_, c₄, -, hreturn⟩ := run_bind_eq_ok hrest
  cases hreturn
  cases answer with
  | error err => cases hmatch
  | ok value =>
    obtain ⟨_, c₅, hwrite, -⟩ := run_bind_eq_ok (run_of_result_ok hresult)
    obtain ⟨hok, -⟩ := Prod.mk.inj hwrite
    exact ⟨_, Prod.ext hok rfl⟩

/-- A block is reported as loaded only if it was read. -/
theorem readPiece_of_loaded {block : Block} (hstate : c.torrents.lookup message.infoHash = some state)
    (h : (executeLoadBlock fs ⟨message, data⟩ : Io _ Empty _).run c = (.ok (.ok (), block), c')) :
    ∃ buffer, (readPiece fs state.file.info message).run (data, c.disk) = (.ok (), (buffer, c'.disk)) := by
  obtain ⟨accessResult, c₁, hupdate, hmatch⟩ := run_bind_eq_ok h
  rw [updateTorrent, run_get_bind, hstate] at hupdate
  obtain ⟨⟨answer, buffer⟩, c₂, hanswer, hsome⟩ := run_bind_eq_ok hupdate
  cases hsome
  cases answer with
  | error err => cases hmatch
  | ok value =>
    cases hmatch
    obtain ⟨hlocal, rfl⟩ := mk.inj hanswer
    obtain ⟨value, hresult, hpair⟩ := bind_eq_ok.mp hlocal
    cases hpair
    exact ⟨_, Prod.ext (result_eq_ok.mp hresult) rfl⟩

/-- A block is accessed completely whenever the access is a success, and one that reaches past the end of the
torrent is an error, if and only if the block ends inside the torrent. -/
theorem accessedWhole_iff (info : Info) (message : BlockMetadata)
    (hfits : blockBegin info message + message.blockLength ≤ usizeMax) :
    AccessedWhole info message ↔ InRange info (totalSize info.files) message := by
  have hstart : blockBegin info message ≤ usizeMax := by omega
  constructor
  · intro hwhole
    by_contra hrange
    obtain ⟨t, hrun⟩ := writePiece_boundless hstart (List.length_replicate (n := message.blockLength) (a := 0))
    obtain ⟨⟨e, hfail⟩, -⟩ := hwhole.overhang hrange _ _ _ boundless () (List.replicate message.blockLength 0)
    rw [hrun] at hfail
    cases hfail
  · intro hrange
    have hmin : min message.blockLength (totalSize info.files - blockBegin info message) = message.blockLength := by
      unfold InRange at hrange
      omega
    refine ⟨?_, ?_, fun hnot => absurd hrange hnot, ?_, ?_⟩
    · intro σ File ε fs s s' data bytes h
      rw [meter_writePiece hstart h, hmin]
    · intro σ File ε fs s s' buffer buffer' bytes h
      rw [meter_readPiece hstart h, hmin]
    · rintro σ File ε fs hash order ⟨⟨s, _⟩, torrents, checkers, out⟩ c' state data hstate rfl rfl h
      obtain ⟨⟨s', bytes⟩, hwrite⟩ := writePiece_of_processed hstate h
      refine ⟨s', hwrite.trans ?_⟩
      rw [meter_writePiece hstart hwrite, hmin]
    · rintro σ File ε fs ⟨⟨s, _⟩, torrents, checkers, out⟩ c' state data block hstate rfl rfl h
      obtain ⟨buffer, hread⟩ := readPiece_of_loaded hstate h
      exact (meter_readPiece hstart hread).trans hmin

/-- The last four bytes of a torrent of eight. -/
theorem accessedWhole_iff_threeFiles :
    AccessedWhole threeFiles ⟨threeFiles.infoHash, 1, 0, 4⟩ ↔
      InRange threeFiles (totalSize threeFiles.files) ⟨threeFiles.infoHash, 1, 0, 4⟩ :=
  accessedWhole_iff threeFiles ⟨threeFiles.infoHash, 1, 0, 4⟩ (by decide)

/-- A block of four bytes that begins at the seventh of eight: two bytes are written, and that is a success. -/
theorem overhang_is_success :
    ∃ v, (writePiece Volume.fileSystem.metered threeFiles [9, 9, 9, 9] ⟨threeFiles.infoHash, 1, 2, 4⟩).run
      (threeFilesVolume, 0) = (.ok (), (v, 2)) := by
  exact ⟨_, rfl⟩

end

end BitTorrent.Disk
