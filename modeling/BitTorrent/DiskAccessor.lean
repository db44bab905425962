import BitTorrent.DiskFileSystem

/-! Blocks on disk. The files of a torrent hold one run of bytes, the concatenation of the files in
the order of the torrent, and a block is a range of it. The accessor walks over the files with two
counters, the bytes that are still to be skipped and the bytes of the block that are done. -/

namespace BitTorrent.Disk

open Rust Segments Meta List Volume Nat

structure BlockMetadata where
  infoHash : ShaHash
  pieceIndex : Nat
  blockOffset : Nat
  blockLength : Nat
  deriving DecidableEq

def BlockMetadata.withDefaultHash (pieceIndex blockOffset blockLength : Nat) : BlockMetadata :=
  ⟨.fill 0, pieceIndex, blockOffset, blockLength⟩

@[simp] theorem BlockMetadata.pieceIndex_withDefaultHash (pieceIndex blockOffset blockLength : Nat) :
    (withDefaultHash pieceIndex blockOffset blockLength).pieceIndex = pieceIndex := rfl

section

variable {σ τ File ε : Type}

/-- The loop over the files. `openFile` is that of the file system, on the state of the callback. -/
def regionLoop (openFile : PathBuf → Io τ ε File) (directory : Option PathBuf)
    (totalBlockLength : Nat) (callback : File → Nat → Nat → Nat → Io τ ε Unit) :
    List Meta.File → Nat → Nat → Io τ ε Unit
  | [], _, _ => pure ()
  | file :: files, totalBytesToSkip, totalBytesAccessed => do
    let totalFileSize := file.len.toNat
    let minBytesToSkip := min totalBytesToSkip totalFileSize
    let bytesToAccess := totalFileSize - minBytesToSkip
    if 0 < bytesToAccess ∧ totalBytesAccessed < totalBlockLength then
      let fsFile ← openFile (buildPath directory file)
      let actualBytesToAccess := min (totalBlockLength - totalBytesAccessed) bytesToAccess
      callback fsFile (totalFileSize - bytesToAccess) totalBytesAccessed
        (totalBytesAccessed + actualBytesToAccess)
      regionLoop openFile directory totalBlockLength callback files
        (totalBytesToSkip - minBytesToSkip) (totalBytesAccessed + actualBytesToAccess)
    else
      regionLoop openFile directory totalBlockLength callback files
        (totalBytesToSkip - minBytesToSkip) totalBytesAccessed

def blockStart (info : Info) (message : BlockMetadata) : Run ε Nat := do
  addUsize (← mulUsize message.pieceIndex info.pieceLen.toNat) message.blockOffset

def runWithFileRegions (openFile : PathBuf → Io τ ε File) (info : Info) (message : BlockMetadata)
    (callback : File → Nat → Nat → Nat → Io τ ε Unit) : Io τ ε Unit := do
  let totalBytesToSkip ← Io.ofRun (blockStart info message)
  regionLoop openFile info.fileDirectory message.blockLength callback info.files totalBytesToSkip 0

variable (fs : FileSystem σ File ε) (info : Info)

def writeRegion (pieceBuffer : Bytes) (file : File) (offset start stop : Nat) : Io σ ε Unit := do
  let part ← Io.ofRun (slice pieceBuffer start stop)
  let bytesWritten ← fs.writeFile file offset part.bytes
  Io.ofRun (assertEq bytesWritten (stop - start))

def writePiece (pieceBuffer : Bytes) (message : BlockMetadata) : Io σ ε Unit :=
  runWithFileRegions fs.openFile info message (writeRegion fs pieceBuffer)

/-- A call of the file system, next to something else. -/
def onDisk {β α : Type} (x : Io σ ε α) : Io (β × σ) ε α := Io.zoom Prod.snd (fun s t => (t.1, s)) x

/-- The buffer is part of the state: what was read before an error stays in it. -/
def readRegion (file : File) (offset start stop : Nat) : Io (Bytes × σ) ε Unit := do
  let (pieceBuffer, _) ← Io.get
  let _ ← Io.ofRun (slice pieceBuffer start stop)
  let bytes ← onDisk (fs.readFile file offset (stop - start))
  Io.modify fun s => (overwrite s.1 start bytes, s.2)
  Io.ofRun (assertEq bytes.length (stop - start))

def readPiece (message : BlockMetadata) : Io (Bytes × σ) ε Unit :=
  runWithFileRegions (fun path => onDisk (fs.openFile path)) info message (readRegion fs)

end

/-! ### The files as one run of bytes -/

def pathOf (info : Info) (file : Meta.File) : PathBuf := buildPath info.fileDirectory file

def DistinctPaths (info : Info) : Prop := (info.files.map (pathOf info)).Nodup

instance (info : Info) : Decidable (DistinctPaths info) :=
  inferInstanceAs (Decidable (info.files.map (pathOf info)).Nodup)

/-- The file is there with its declared length, and it can be opened. -/
def LaidFile (info : Info) (v : Volume) (file : Meta.File) : Prop :=
  v.refused (pathOf info file) = false ∧
    ∃ bytes, v.files (pathOf info file) = some bytes ∧ bytes.length = file.len.toNat

def Laid (info : Info) (v : Volume) : Prop := ∀ file ∈ info.files, LaidFile info v file

def concatFiles (info : Info) (v : Volume) (files : List Meta.File) : Bytes :=
  (files.map fun file => v.bytes (pathOf info file)).flatten

def concatenation (info : Info) (v : Volume) : Bytes := concatFiles info v info.files

def totalBytes {ε : Type} (info : Info) : Run ε Nat :=
  info.files.foldlM (fun sum file => addUsize sum file.len.toNat) 0

def totalSize (files : List Meta.File) : Nat := (files.map fun file => file.len.toNat).sum

variable {start : Nat}

theorem totalSize_cons {file : Meta.File} {files : List Meta.File} :
    totalSize (file :: files) = file.len.toNat + totalSize files := by
  rw [totalSize, map_cons, sum_cons, totalSize]

theorem foldlM_addUsize_eq_ok {ε : Type} {files : List Meta.File} {total : Nat} :
    files.foldlM (fun sum file => addUsize sum file.len.toNat) start = (.ok total : Run ε Nat) ↔
      total = start + totalSize files ∧ (files ≠ [] → total ≤ usizeMax) := by
  induction files generalizing start with
  | nil =>
    rw [foldlM_nil, pure_eq_ok, Except.ok.injEq]
    simp [totalSize, eq_comm]
  | cons file files ih =>
    rw [foldlM_cons, bind_eq_ok]
    have hsize : totalSize (file :: files) = _ := totalSize_cons
    constructor
    · rintro ⟨sum, hsum, hrest⟩
      obtain ⟨rfl, hle⟩ := addUsize_eq_ok.mp hsum
      obtain ⟨rfl, hrest⟩ := ih.mp hrest
      refine ⟨by omega, fun _ => ?_⟩
      by_cases hnil : files = []
      · subst hnil
        exact hle
      · exact hrest hnil
    · rintro ⟨rfl, hle⟩
      have hle := hle (cons_ne_nil _ _)
      refine ⟨_, addUsize_eq_ok.mpr ⟨rfl, by omega⟩, ih.mpr ⟨by omega, fun _ => hle⟩⟩

theorem totalBytes_eq_ok {ε : Type} {info : Info} {total : Nat} :
    totalBytes info = (.ok total : Run ε Nat) ↔ total = totalSize info.files ∧ total ≤ usizeMax := by
  rw [totalBytes, foldlM_addUsize_eq_ok, zero_add]
  refine and_congr_right fun htotal => ⟨fun h => ?_, fun h _ => h⟩
  by_cases hnil : info.files = []
  · rw [htotal, hnil]
    exact zero_le _
  · exact h hnil

/-! ### The loop on files in memory -/

variable {v' : Volume} {data buffer : Bytes}

section

variable {info : Info} {v : Volume} {file : Meta.File} {files : List Meta.File} {bytes : Bytes}
  {skip accessed : Nat}

theorem concatFiles_cons :
    concatFiles info v (file :: files) = v.bytes (pathOf info file) ++ concatFiles info v files := by
  rw [concatFiles, map_cons, flatten_cons, concatFiles]

theorem length_concatFiles (h : ∀ file ∈ files, LaidFile info v file) :
    (concatFiles info v files).length = totalSize files := by
  induction files with
  | nil => rfl
  | cons file files ih =>
    obtain ⟨⟨-, bytes, hbytes, hlen⟩, hrest⟩ := forall_mem_cons.mp h
    rw [concatFiles_cons, totalSize_cons, length_append, bytes_of_files hbytes, hlen, ih hrest]

theorem concatFiles_congr (h : ∀ file ∈ files, v'.bytes (pathOf info file) = v.bytes (pathOf info file)) :
    concatFiles info v' files = concatFiles info v files := by
  rw [concatFiles, map_congr_left h, concatFiles]

variable {m : Nat}

/-- One round of the loop in terms of the file's share of the block. -/
theorem regionLoop_cons {τ F ε : Type} (openFile : PathBuf → Io τ ε F)
    (directory : Option PathBuf) (total : Nat) (callback : F → Nat → Nat → Nat → Io τ ε Unit)
    {n : Nat} (hn : n = file.len.toNat) (hm : m = share n skip (total - accessed)) :
    regionLoop openFile directory total callback (file :: files) skip accessed =
      if m = 0 then regionLoop openFile directory total callback files (skip - n) accessed
      else openFile (buildPath directory file) >>= fun fsFile =>
        callback fsFile (min skip n) accessed (accessed + m) >>= fun _ =>
          regionLoop openFile directory total callback files (skip - n) (accessed + m) := by
  subst hn
  unfold share at hm
  rw [regionLoop]
  have hskip : skip - min skip file.len.toNat = skip - file.len.toNat := by omega
  have hoffset : file.len.toNat - (file.len.toNat - min skip file.len.toNat) =
      min skip file.len.toNat := by omega
  simp only [hskip, hoffset, ← hm]
  by_cases haccess : 0 < file.len.toNat - min skip file.len.toNat ∧ accessed < total
  · rw [if_pos haccess, if_neg (by omega)]
  · rw [if_neg haccess, if_pos (by omega)]

variable {l : Bytes}

theorem drop_take_eq_window : (l.take (start + m)).drop start = window l start m := by
  rw [drop_take, Nat.add_sub_cancel_left, window]

theorem slice_of_le {ε : Type} (h : start + m ≤ l.length) :
    (slice l start (start + m) : Run ε Slice) = .ok ⟨start, window l start m⟩ := by
  rw [slice_eq_ok]
  exact ⟨le_add_right start m, h, by rw [drop_take_eq_window]⟩

/-- One round of a write: the file gets its share of what is left of the data. -/
theorem regionLoop_write_cons (hopen : v.refused (pathOf info file) = false)
    (hbytes : v.files (pathOf info file) = some bytes) (hlen : bytes.length = file.len.toNat)
    (haccessed : accessed ≤ data.length) (hm : m = share bytes.length skip (data.length - accessed)) :
    (regionLoop fileSystem.openFile info.fileDirectory data.length
        (writeRegion fileSystem data) (file :: files) skip accessed).run v =
      (regionLoop fileSystem.openFile info.fileDirectory data.length
        (writeRegion fileSystem data) files (skip - bytes.length) (accessed + m)).run
        (v.put (pathOf info file) (overwrite bytes (min skip bytes.length) (window data accessed m))) := by
  rw [regionLoop_cons _ _ _ _ hlen hm, ← pathOf]
  unfold share at hm
  split
  · rename_i hzero
    rw [hzero, window_zero, overwrite_nil, put_of_files hbytes, add_zero]
  · have hpart : (window data accessed m).length = m := length_window (by omega)
    have hwrite : writeBytes (v.bytes (pathOf info file)) (min skip bytes.length)
        (window data accessed m) = overwrite bytes (min skip bytes.length) (window data accessed m) := by
      rw [bytes_of_files hbytes]
      refine writeBytes_of_le ?_
      rw [hpart]
      omega
    rw [Io.run_bind_of_ok (openFile_of_files hopen hbytes)]
    refine Io.run_bind_of_ok (a := ()) ?_
    rw [writeRegion, slice_of_le (by omega), Io.ofRun_ok_bind]
    refine (Io.run_bind_of_ok rfl).trans ?_
    rw [hpart, Nat.add_sub_cancel_left, assertEq_self, hwrite]
    rfl

/-- One round of a read: the buffer gets the file's share of what is left of the block. -/
theorem regionLoop_read_cons {total : Nat} (hopen : v.refused (pathOf info file) = false)
    (hbytes : v.files (pathOf info file) = some bytes) (hlen : bytes.length = file.len.toNat)
    (hbuffer : total ≤ buffer.length) (hm : m = share bytes.length skip (total - accessed)) :
    (regionLoop (fun path => onDisk (fileSystem.openFile path)) info.fileDirectory total
        (readRegion fileSystem) (file :: files) skip accessed).run (buffer, v) =
      (regionLoop (fun path => onDisk (fileSystem.openFile path)) info.fileDirectory total
        (readRegion fileSystem) files (skip - bytes.length) (accessed + m)).run
        (overwrite buffer accessed (window bytes (min skip bytes.length) m), v) := by
  rw [regionLoop_cons _ _ _ _ hlen hm, ← pathOf]
  unfold share at hm
  split
  · rename_i hzero
    rw [hzero, window_zero, overwrite_nil, add_zero]
  · have hpart : (window bytes (min skip bytes.length) m).length = m := length_window (by omega)
    have hopened : (onDisk (fileSystem.openFile (pathOf info file)) :
        Io (Bytes × Volume) IoError PathBuf).run (buffer, v) = (.ok (pathOf info file), (buffer, v)) :=
      Io.run_zoom_of_eq (openFile_of_files hopen hbytes)
    rw [Io.run_bind_of_ok hopened]
    refine Io.run_bind_of_ok (a := ()) ?_
    rw [readRegion, Io.run_get_bind]
    dsimp only
    rw [slice_of_le (by omega), Io.ofRun_ok_bind]
    refine (Io.run_bind_of_ok (Io.run_zoom_of_eq rfl)).trans ?_
    rw [bytes_of_files hbytes, Nat.add_sub_cancel_left, Io.run_modify_bind, hpart, assertEq_self]
    rfl

/-- What a write does to the given files of a torrent: the data is in place, and nothing else has
changed. -/
structure Changed (info : Info) (v v' : Volume) (files : List Meta.File) (start : Nat)
    (data : Bytes) : Prop where
  laid : ∀ file ∈ files, LaidFile info v' file
  bytes : concatFiles info v' files = overwrite (concatFiles info v files) start data
  others : ∀ path ∉ files.map (pathOf info), v'.files path = v.files path
  refused : v'.refused = v.refused

theorem LaidFile.put (h : LaidFile info v file) {other : Meta.File}
    (hne : pathOf info file ≠ pathOf info other) : LaidFile info (v.put (pathOf info other) bytes) file := by
  obtain ⟨hopen, bytes, hbytes, hlen⟩ := h
  exact ⟨hopen, bytes, (files_put_of_ne hne).trans hbytes, hlen⟩

theorem regionLoop_write (hnodup : (files.map (pathOf info)).Nodup)
    (hlaid : ∀ file ∈ files, LaidFile info v file) (haccessed : accessed ≤ data.length)
    (hfits : skip + (data.length - accessed) ≤ totalSize files) :
    ∃ v', (regionLoop fileSystem.openFile info.fileDirectory data.length
        (writeRegion fileSystem data) files skip accessed).run v = (.ok (), v') ∧
      Changed info v v' files skip (data.drop accessed) := by
  induction files generalizing v skip accessed with
  | nil =>
    have hdone : data.drop accessed = [] := drop_eq_nil_of_le (by
      have : totalSize [] = 0 := rfl
      omega)
    exact ⟨v, rfl, hlaid, by rw [hdone, overwrite_nil], fun _ _ => rfl, rfl⟩
  | cons file files ih =>
    obtain ⟨⟨hopen, bytes, hbytes, hlen⟩, hrest⟩ := forall_mem_cons.mp hlaid
    obtain ⟨hfresh, hnodup⟩ := nodup_cons.mp hnodup
    have hne : ∀ other ∈ files, pathOf info other ≠ pathOf info file := fun other hother heq =>
      hfresh (heq ▸ mem_map_of_mem hother)
    rw [totalSize_cons, ← hlen] at hfits
    obtain ⟨m, hm⟩ : ∃ m, m = share bytes.length skip (data.length - accessed) := ⟨_, rfl⟩
    have hshare : m = min (data.length - accessed) (bytes.length - min skip bytes.length) := hm
    rw [regionLoop_write_cons hopen hbytes hlen haccessed hm]
    have hpart : (window data accessed m).length = m := length_window (by omega)
    have hleft : skip - bytes.length + (data.length - (accessed + m)) ≤ totalSize files := by omega
    obtain ⟨v', hrun, hchanged⟩ := ih hnodup
      (fun other hother => (hrest other hother).put (hne other hother))
      (by omega : accessed + m ≤ data.length) hleft
    have hsame : concatFiles info (v.put (pathOf info file)
        (overwrite bytes (min skip bytes.length) (window data accessed m))) files =
        concatFiles info v files :=
      concatFiles_congr fun other hother => bytes_put_of_ne (hne other hother)
    -- the rest of the loop does not come back to this file
    have hfile : v'.files (pathOf info file) =
        some (overwrite bytes (min skip bytes.length) (window data accessed m)) :=
      (hchanged.others _ hfresh).trans files_put_self
    have hdrop : data.drop (accessed + m) = (data.drop accessed).drop m := drop_drop.symm
    have hlength := length_concatFiles hrest
    refine ⟨v', hrun, ?_, ?_, ?_, hchanged.refused⟩
    · refine forall_mem_cons.mpr ⟨⟨?_, _, hfile, ?_⟩, hchanged.laid⟩
      · rw [hchanged.refused, refused_put]
        exact hopen
      · rw [length_overwrite (by rw [hpart]; omega), hlen]
    · calc concatFiles info v' (file :: files)
          = overwrite bytes (min skip bytes.length) (window data accessed m) ++
              overwrite (concatFiles info v files) (skip - bytes.length)
                ((data.drop accessed).drop m) := by
            rw [concatFiles_cons, bytes_of_files hfile, hchanged.bytes, hsame, hdrop]
        _ = overwrite (bytes ++ concatFiles info v files) skip (data.drop accessed) := by
            rw [overwrite_append (by rw [length_drop, hlength]; omega), length_drop, ← hm,
              window]
        _ = overwrite (concatFiles info v (file :: files)) skip (data.drop accessed) := by
            rw [concatFiles_cons, bytes_of_files hbytes]
    · intro path hpath
      obtain ⟨hpath, hpaths⟩ := not_or.mp (fun hmem => hpath (mem_cons.mpr hmem))
      exact (hchanged.others path hpaths).trans (files_put_of_ne hpath)

theorem regionLoop_read {total : Nat}
    (hlaid : ∀ file ∈ files, LaidFile info v file) (haccessed : accessed ≤ total)
    (hbuffer : total ≤ buffer.length) (hfits : skip + (total - accessed) ≤ totalSize files) :
    (regionLoop (fun path => onDisk (fileSystem.openFile path)) info.fileDirectory total
        (readRegion fileSystem) files skip accessed).run (buffer, v) =
      (.ok (), (overwrite buffer accessed (window (concatFiles info v files) skip (total - accessed)),
        v)) := by
  induction files generalizing buffer skip accessed with
  | nil =>
    have hdone : total - accessed = 0 := by
      have : totalSize [] = 0 := rfl
      omega
    rw [hdone, window_zero, overwrite_nil]
    rfl
  | cons file files ih =>
    obtain ⟨⟨hopen, bytes, hbytes, hlen⟩, hrest⟩ := forall_mem_cons.mp hlaid
    rw [totalSize_cons, ← hlen] at hfits
    obtain ⟨m, hm⟩ : ∃ m, m = share bytes.length skip (total - accessed) := ⟨_, rfl⟩
    have hshare : m = min (total - accessed) (bytes.length - min skip bytes.length) := hm
    have hpart : (window bytes (min skip bytes.length) m).length = m := length_window (by omega)
    have hlength := length_concatFiles hrest
    have hwindow : (window (concatFiles info v files) (skip - bytes.length)
        (total - (accessed + m))).length = total - (accessed + m) := length_window (by omega)
    have hwritten : (overwrite buffer accessed (window bytes (min skip bytes.length) m)).length =
        buffer.length := length_overwrite (by omega)
    rw [regionLoop_read_cons hopen hbytes hlen hbuffer hm,
      ih hrest (by omega) (hbuffer.trans hwritten.ge) (by omega)]
    have hfirst : accessed + (window bytes (min skip bytes.length) m).length +
        (window (concatFiles info v files) (skip - bytes.length) (total - (accessed + m))).length ≤
        buffer.length := by omega
    have hjoin := overwrite_append_data hfirst
    rw [hpart] at hjoin
    rw [hjoin, concatFiles_cons, bytes_of_files hbytes, window_append, ← hm, Nat.sub_sub]

end

/-! ### Whole blocks -/

section

variable {info : Info} {v : Volume} {total : Nat} {message : BlockMetadata}

def blockBegin (info : Info) (message : BlockMetadata) : Nat :=
  message.pieceIndex * info.pieceLen.toNat + message.blockOffset

def InRange (info : Info) (total : Nat) (message : BlockMetadata) : Prop :=
  blockBegin info message + message.blockLength ≤ total

instance (info : Info) (total : Nat) (message : BlockMetadata) :
    Decidable (InRange info total message) :=
  inferInstanceAs (Decidable (blockBegin info message + message.blockLength ≤ total))

theorem blockStart_of_le {ε : Type} (h : blockBegin info message ≤ usizeMax) :
    (blockStart info message : Run ε Nat) = .ok (blockBegin info message) := by
  unfold blockBegin at h
  have hmul : (mulUsize message.pieceIndex info.pieceLen.toNat : Run ε Nat) =
      .ok (message.pieceIndex * info.pieceLen.toNat) := if_pos (by omega)
  rw [blockStart, hmul, ok_bind, addUsize_eq_ok]
  exact ⟨rfl, h⟩

theorem length_concatenation {ε : Type} (hlaid : Laid info v)
    (htotal : totalBytes info = (.ok total : Run ε Nat)) : (concatenation info v).length = total := by
  rw [concatenation, length_concatFiles hlaid, (totalBytes_eq_ok.mp htotal).1]

theorem writePiece_run {ε : Type} (hdistinct : DistinctPaths info)
    (hlaid : Laid info v) (htotal : totalBytes info = (.ok total : Run ε Nat))
    (hrange : InRange info total message) (hdata : data.length = message.blockLength) :
    ∃ v', (writePiece fileSystem info data message).run v = (.ok (), v') ∧
      Changed info v v' info.files (blockBegin info message) data := by
  obtain ⟨htotal, hmax⟩ := totalBytes_eq_ok.mp htotal
  unfold InRange at hrange
  rw [writePiece, runWithFileRegions, blockStart_of_le (by omega), Io.ofRun_ok_bind, ← hdata]
  exact regionLoop_write hdistinct hlaid (zero_le _) (by omega)

theorem readPiece_run {ε : Type} (hlaid : Laid info v)
    (htotal : totalBytes info = (.ok total : Run ε Nat)) (hrange : InRange info total message)
    (hbuffer : message.blockLength ≤ buffer.length) : (readPiece fileSystem info message).run (buffer, v) =
      (.ok (), (overwrite buffer 0
        (window (concatenation info v) (blockBegin info message) message.blockLength), v)) := by
  obtain ⟨htotal, hmax⟩ := totalBytes_eq_ok.mp htotal
  unfold InRange at hrange
  rw [readPiece, runWithFileRegions, blockStart_of_le (by omega), Io.ofRun_ok_bind]
  exact regionLoop_read hlaid (zero_le _) hbuffer (by omega)

/-- A buffer of the length of the block is filled completely. -/
theorem readPiece_run_all {ε : Type} (hlaid : Laid info v)
    (htotal : totalBytes info = (.ok total : Run ε Nat)) (hrange : InRange info total message)
    (hbuffer : buffer.length = message.blockLength) : (readPiece fileSystem info message).run (buffer, v) =
      (.ok (), (window (concatenation info v) (blockBegin info message) message.blockLength, v)) := by
  have hlength := length_window (hrange.trans (length_concatenation hlaid htotal).ge)
  rw [readPiece_run hlaid htotal hrange hbuffer.ge, overwrite_all (by rw [hlength, hbuffer])]

/-- The concatenation and the lengths of the files say what each file holds. -/
theorem files_eq_of_concatFiles {files : List Meta.File}
    (hlaid : ∀ file ∈ files, LaidFile info v file) (hlaid' : ∀ file ∈ files, LaidFile info v' file)
    (hconcat : concatFiles info v files = concatFiles info v' files) :
    ∀ file ∈ files, v.files (pathOf info file) = v'.files (pathOf info file) := by
  induction files with
  | nil => exact nofun
  | cons file files ih =>
    obtain ⟨⟨-, bytes, hbytes, hlen⟩, hrest⟩ := forall_mem_cons.mp hlaid
    obtain ⟨⟨-, bytes', hbytes', hlen'⟩, hrest'⟩ := forall_mem_cons.mp hlaid'
    rw [concatFiles_cons, concatFiles_cons, bytes_of_files hbytes,
      bytes_of_files hbytes'] at hconcat
    obtain ⟨heq, hconcat⟩ := append_inj hconcat (hlen.trans hlen'.symm)
    refine forall_mem_cons.mpr ⟨?_, ih hrest hrest' hconcat⟩
    rw [hbytes, hbytes', heq]

/-- Two volumes that a torrent's files and everything else agree on are the same. -/
theorem volume_eq (hlaid : Laid info v) (hlaid' : Laid info v')
    (hconcat : concatenation info v = concatenation info v')
    (hothers : ∀ path ∉ info.files.map (pathOf info), v.files path = v'.files path)
    (hrefused : v.refused = v'.refused) : v = v' := by
  have hfiles : v.files = v'.files := by
    funext path
    by_cases hpath : path ∈ info.files.map (pathOf info)
    · obtain ⟨file, hfile, rfl⟩ := mem_map.mp hpath
      exact files_eq_of_concatFiles hlaid hlaid' hconcat file hfile
    · exact hothers path hpath
  cases v
  cases v'
  cases hfiles
  cases hrefused
  rfl

theorem writePiece_comm {ε : Type} {data' : Bytes} {message' : BlockMetadata}
    (hdistinct : DistinctPaths info) (hlaid : Laid info v)
    (htotal : totalBytes info = (.ok total : Run ε Nat))
    (hrange : InRange info total message) (hdata : data.length = message.blockLength)
    (hrange' : InRange info total message') (hdata' : data'.length = message'.blockLength)
    (hdisjoint : blockBegin info message + message.blockLength ≤ blockBegin info message' ∨
      blockBegin info message' + message'.blockLength ≤ blockBegin info message) :
    ∃ w, (do writePiece fileSystem info data message
             writePiece fileSystem info data' message').run v = (.ok (), w) ∧
      (do writePiece fileSystem info data' message'
          writePiece fileSystem info data message).run v = (.ok (), w) := by
  obtain ⟨v₁, hrun₁, h₁⟩ := writePiece_run hdistinct hlaid htotal hrange hdata
  obtain ⟨v₁₂, hrun₁₂, h₁₂⟩ := writePiece_run hdistinct h₁.laid htotal hrange' hdata'
  obtain ⟨v₂, hrun₂, h₂⟩ := writePiece_run hdistinct hlaid htotal hrange' hdata'
  obtain ⟨v₂₁, hrun₂₁, h₂₁⟩ := writePiece_run hdistinct h₂.laid htotal hrange hdata
  have hlength := length_concatenation hlaid htotal
  have hsame : v₁₂ = v₂₁ := by
    refine volume_eq h₁₂.laid h₂₁.laid ?_ ?_ ?_
    · calc concatenation info v₁₂
          = overwrite (overwrite (concatenation info v) (blockBegin info message) data)
              (blockBegin info message') data' := by rw [concatenation, h₁₂.bytes, h₁.bytes, concatenation]
        _ = overwrite (overwrite (concatenation info v) (blockBegin info message') data')
              (blockBegin info message) data := by
            apply overwrite_comm
            · rw [hlength, hdata]
              exact hrange
            · rw [hlength, hdata']
              exact hrange'
            · rw [hdata, hdata']
              exact hdisjoint
        _ = concatenation info v₂₁ := by rw [concatenation, concatenation, h₂₁.bytes, h₂.bytes]
    · intro path hpath
      rw [h₁₂.others path hpath, h₁.others path hpath, h₂₁.others path hpath, h₂.others path hpath]
    · rw [h₁₂.refused, h₁.refused, h₂₁.refused, h₂.refused]
  refine ⟨v₁₂, (Io.run_bind_of_ok hrun₁).trans hrun₁₂, ?_⟩
  rw [Io.run_bind_of_ok hrun₂, hrun₂₁, hsame]

/-- Three files, the second one empty, on which a block can span the first and the third. -/
def threeFiles : Info where
  infoHash := ⟨replicate shaHashLen 7, length_replicate⟩
  files := [⟨3, ⟨ascii "a"⟩, none⟩, ⟨0, ⟨ascii "b"⟩, none⟩, ⟨5, ⟨ascii "c"⟩, none⟩]
  pieces := [Vector.replicate 20 1, Vector.replicate 20 2]
  pieceLen := 4
  isPrivate := none
  fileDirectory := some ⟨ascii "d"⟩

def threeFilesVolume : Volume where
  files := fun path =>
    if path = ⟨ascii "d/a"⟩ then some [1, 2, 3]
    else if path = ⟨ascii "d/b"⟩ then some []
    else if path = ⟨ascii "d/c"⟩ then some [4, 5, 6, 7, 8]
    else none
  refused := fun _ => false

theorem laid_threeFiles : Laid threeFiles threeFilesVolume := by
  intro file hfile
  simp only [threeFiles, mem_cons, not_mem_nil, or_false] at hfile
  rcases hfile with rfl | rfl | rfl
  · exact ⟨rfl, [1, 2, 3], by decide, rfl⟩
  · exact ⟨rfl, [], by decide, rfl⟩
  · exact ⟨rfl, [4, 5, 6, 7, 8], by decide, rfl⟩

/-- The layout of pieces over files. A block is the range of the concatenation of the files that
starts at `blockBegin`: a write puts its data there and changes nothing else, a read returns that range,
so what was written is read back, and writes to disjoint ranges commute. -/
theorem piece_layout (info : Info) (v : Volume) (total : Nat)
    (hdistinct : DistinctPaths info) (hlaid : Laid info v)
    (htotal : totalBytes info = (.ok total : Run IoError Nat)) :
    (∀ message data, InRange info total message → data.length = message.blockLength →
      ∃ v', (writePiece fileSystem info data message).run v = (.ok (), v') ∧
        Changed info v v' info.files (blockBegin info message) data) ∧
    (∀ message buffer, InRange info total message → buffer.length = message.blockLength →
      (readPiece fileSystem info message).run (buffer, v) =
        (.ok (), (window (concatenation info v) (blockBegin info message) message.blockLength, v))) ∧
    (∀ message data buffer, InRange info total message → data.length = message.blockLength →
      buffer.length = message.blockLength →
      ∃ v', (writePiece fileSystem info data message).run v = (.ok (), v') ∧
        (readPiece fileSystem info message).run (buffer, v') = (.ok (), (data, v'))) ∧
    (∀ message message' data data', InRange info total message → InRange info total message' →
      data.length = message.blockLength → data'.length = message'.blockLength →
      (blockBegin info message + message.blockLength ≤ blockBegin info message' ∨
        blockBegin info message' + message'.blockLength ≤ blockBegin info message) →
      ∃ w, (do writePiece fileSystem info data message
               writePiece fileSystem info data' message').run v = (.ok (), w) ∧
        (do writePiece fileSystem info data' message'
            writePiece fileSystem info data message).run v = (.ok (), w)) := by
  refine ⟨fun message data hrange hdata => writePiece_run hdistinct hlaid htotal hrange hdata,
    fun message buffer hrange hbuffer => readPiece_run_all hlaid htotal hrange hbuffer,
    fun message data buffer hrange hdata hbuffer => ?_,
    fun message message' data data' hrange hrange' hdata hdata' hdisjoint =>
      writePiece_comm hdistinct hlaid htotal hrange hdata hrange' hdata' hdisjoint⟩
  obtain ⟨v', hrun, hchanged⟩ := writePiece_run hdistinct hlaid htotal hrange hdata
  refine ⟨v', hrun, ?_⟩
  have hfits : blockBegin info message + data.length ≤ (concatenation info v).length := by
    rw [length_concatenation hlaid htotal, hdata]
    exact hrange
  rw [readPiece_run_all hchanged.laid htotal hrange hbuffer, concatenation, hchanged.bytes, ← hdata]
  rw [← concatenation, window_overwrite_self hfits]

/-- The block of four bytes at the third byte ends in the third file. -/
theorem piece_layout_threeFiles :
    concatenation threeFiles threeFilesVolume = [1, 2, 3, 4, 5, 6, 7, 8] ∧
      ∃ v', (writePiece fileSystem threeFiles [9, 9, 9, 9]
          ⟨threeFiles.infoHash, 0, 2, 4⟩).run threeFilesVolume = (.ok (), v') ∧
        Changed threeFiles threeFilesVolume v' threeFiles.files 2 [9, 9, 9, 9] :=
  ⟨by decide, (piece_layout threeFiles threeFilesVolume 8 (by decide) laid_threeFiles
    (by decide)).1 ⟨threeFiles.infoHash, 0, 2, 4⟩ [9, 9, 9, 9] (by decide) rfl⟩

end

/-! ### Runs of writes

The files of a torrent are one array of bytes. After any writes, also of overlapping blocks, they hold
what an array would, and blocks are read from there. -/

def writeAll (info : Info) (writes : List (BlockMetadata × Bytes)) : Io Volume IoError Unit :=
  writes.forM fun write => writePiece fileSystem info write.2 write.1

def putBlock (info : Info) (bytes : Bytes) (write : BlockMetadata × Bytes) : Bytes :=
  overwrite bytes (blockBegin info write.1) write.2

section

variable (info : Info) (v : Volume) (total : Nat) (hdistinct : DistinctPaths info) (hlaid : Laid info v)
  (htotal : totalBytes info = (.ok total : Run IoError Nat)) (writes : List (BlockMetadata × Bytes))
  (hwrites : ∀ write ∈ writes, InRange info total write.1 ∧ write.2.length = write.1.blockLength)
include hdistinct hlaid htotal hwrites

/-- A run of writes is a run of changes to the array, and touches no other file. -/
theorem writes_refine_array : ∃ v', (writeAll info writes).run v = (.ok (), v') ∧ Laid info v' ∧
      (∀ path ∉ info.files.map (pathOf info), v'.files path = v.files path) ∧
      ∀ message buffer, InRange info total message → buffer.length = message.blockLength →
        (readPiece fileSystem info message).run (buffer, v') = (.ok (),
          (window (writes.foldl (putBlock info) (concatenation info v)) (blockBegin info message)
            message.blockLength, v')) := by
  induction writes generalizing v with
  | nil => exact ⟨v, rfl, hlaid, fun _ _ => rfl, fun _ _ => readPiece_run_all hlaid htotal⟩
  | cons write writes ih =>
    obtain ⟨⟨hrange, hdata⟩, hrest⟩ := forall_mem_cons.mp hwrites
    obtain ⟨v₁, hrun, hchanged⟩ := writePiece_run hdistinct hlaid htotal hrange hdata
    obtain ⟨v', hrun', hlaid', hothers, hread⟩ := ih v₁ hchanged.laid hrest
    rw [concatenation, hchanged.bytes, ← concatenation] at hread
    exact ⟨v', (Io.run_bind_of_ok hrun).trans hrun', hlaid',
      fun path hpath => (hothers path hpath).trans (hchanged.others path hpath), hread⟩

/-- Blocks that do not overlap leave the same files in whatever order they arrive. -/
theorem writes_any_order (writes' : List (BlockMetadata × Bytes)) (hperm : writes.Perm writes')
    (hdisjoint : writes.Pairwise fun write other =>
      blockBegin info write.1 + write.1.blockLength ≤ blockBegin info other.1 ∨
        blockBegin info other.1 + other.1.blockLength ≤ blockBegin info write.1) :
    (writeAll info writes).run v = (writeAll info writes').run v := by
  induction hperm generalizing v with
  | nil => rfl
  | cons write _ ih =>
    obtain ⟨⟨hrange, hdata⟩, hrest⟩ := forall_mem_cons.mp hwrites
    obtain ⟨v₁, hrun, hchanged⟩ := writePiece_run hdistinct hlaid htotal hrange hdata
    have hsame := ih v₁ hchanged.laid hrest hdisjoint.of_cons
    exact (Io.run_bind_of_ok hrun).trans ((Io.run_bind_of_ok hrun).trans hsame.symm).symm
  | swap write other writes =>
    obtain ⟨⟨hrange', hdata'⟩, hrest⟩ := forall_mem_cons.mp hwrites
    obtain ⟨⟨hrange, hdata⟩, -⟩ := forall_mem_cons.mp hrest
    obtain ⟨v₁, hone, -⟩ := writePiece_run hdistinct hlaid htotal hrange hdata
    obtain ⟨v₂, hother, -⟩ := writePiece_run hdistinct hlaid htotal hrange' hdata'
    obtain ⟨w, hrun', hrun⟩ := writePiece_comm hdistinct hlaid htotal hrange' hdata' hrange hdata
      (rel_of_pairwise_cons hdisjoint mem_cons_self)
    rw [Io.run_bind_of_ok hone] at hrun
    rw [Io.run_bind_of_ok hother] at hrun'
    have hleft : (writeAll info (other :: write :: writes)).run v = (writeAll info writes).run w :=
      (Io.run_bind_of_ok hother).trans (Io.run_bind_of_ok hrun')
    exact hleft.trans ((Io.run_bind_of_ok hone).trans (Io.run_bind_of_ok hrun)).symm
  | trans hfirst _ ih ih' =>
    rw [ih v hlaid hwrites hdisjoint]
    exact ih' v hlaid (fun write hwrite => hwrites write (hfirst.mem_iff.mpr hwrite))
      (hdisjoint.perm hfirst Or.symm)

end

/-- Two blocks, and one across both. -/
theorem writes_refine_array_threeFiles : ∃ v',
    (writeAll threeFiles [(⟨.fill 7, 0, 2, 2⟩, [9, 9]), (⟨.fill 7, 0, 3, 1⟩, [8])]).run threeFilesVolume =
      (.ok (), v') ∧ Laid threeFiles v' ∧
    (readPiece fileSystem threeFiles ⟨.fill 7, 0, 1, 3⟩).run ([0, 0, 0], v') = (.ok (), ([2, 9, 8], v')) := by
  obtain ⟨v', hrun, hlaid, -, hread⟩ := writes_refine_array threeFiles threeFilesVolume 8 (by decide) laid_threeFiles
    (by decide) [(⟨.fill 7, 0, 2, 2⟩, [9, 9]), (⟨.fill 7, 0, 3, 1⟩, [8])] (by decide)
  exact ⟨v', hrun, hlaid, hread _ _ (by decide) rfl⟩

theorem writes_any_order_threeFiles :
    (writeAll threeFiles [(⟨.fill 7, 0, 2, 2⟩, [9, 9]), (⟨.fill 7, 1, 0, 1⟩, [8])]).run threeFilesVolume =
      (writeAll threeFiles [(⟨.fill 7, 1, 0, 1⟩, [8]), (⟨.fill 7, 0, 2, 2⟩, [9, 9])]).run threeFilesVolume :=
  writes_any_order threeFiles _ 8 (by decide) laid_threeFiles (by decide) _ (by decide) _ (.swap ..) (by decide)

end BitTorrent.Disk
