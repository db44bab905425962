import BitTorrent.DiskTasks
import BitTorrent.DiskCoverage

/-! What a torrent finds on the disk when it is added: files that are missing or empty are filled with
zeros, a file of another length ends the attempt. Then every piece is read once and compared with its
hash. -/

namespace BitTorrent.Disk

open Rust Segments Meta List Volume

/-! ### The sizes of the files -/

/-- The bytes of a file of the given length, what is missing taken as zeros. -/
def padded (length : Nat) (bytes : Bytes) : Bytes :=
  (bytes ++ replicate (length - bytes.length) 0).take length

theorem length_padded {length : Nat} {bytes : Bytes} : (padded length bytes).length = length := by
  rw [padded, length_take, length_append, length_replicate]
  omega

theorem padded_of_length {length : Nat} {bytes : Bytes} (h : bytes.length = length) :
    padded length bytes = bytes := by
  rw [padded, ← h, Nat.sub_self, replicate_zero, append_nil, take_length]

theorem padded_nil {length : Nat} : padded length [] = replicate length 0 := by
  rw [padded, nil_append, length_nil, Nat.sub_zero, take_of_length_le]
  rw [length_replicate]

/-- The concatenation of the files of a torrent, what is missing taken as zeros. -/
def imageFiles (info : Info) (v : Volume) (files : List Meta.File) : Bytes :=
  (files.map fun file => padded file.len.toNat (v.bytes (pathOf info file))).flatten

def image (info : Info) (v : Volume) : Bytes := imageFiles info v info.files

/-- The file can be opened, and it is missing, empty or of its length. -/
def Acceptable (info : Info) (v : Volume) (file : Meta.File) : Prop :=
  v.refused (pathOf info file) = false ∧
    (v.bytes (pathOf info file) = [] ∨ (v.bytes (pathOf info file)).length = file.len.toNat)

instance (info : Info) (v : Volume) (file : Meta.File) : Decidable (Acceptable info v file) :=
  inferInstanceAs (Decidable (_ ∧ _))

section

variable {info : Info} {v : Volume} {file : Meta.File} {files : List Meta.File}

theorem writeBytes_last (length : Nat) (h : length ≠ 0) :
    writeBytes [] (length - 1) [0] = replicate length 0 := by
  have hsum : length - 1 + 1 = length := by omega
  have hwrite : writeBytes [] (length - 1) [0] = overwrite (replicate length 0) (length - 1) [0] := by
    rw [writeBytes, if_neg (cons_ne_nil _ _), length_singleton, hsum, nil_append,
      length_nil, Nat.sub_zero]
  rw [hwrite, overwrite, take_replicate, drop_replicate, length_singleton, hsum,
    Nat.sub_self, replicate_zero, append_nil, Nat.min_eq_left (Nat.sub_le _ _)]
  rw [← replicate_one, ← replicate_add, hsum]

/-- One file: what is missing is filled in, and what has another length is refused. -/
theorem validateFileSize_run :
    (Acceptable info v file ∧ (validateFileSize fileSystem info.fileDirectory file).run v =
        (.ok (), v.put (pathOf info file) (padded file.len.toNat (v.bytes (pathOf info file))))) ∨
      (¬ Acceptable info v file ∧ ∃ e v',
        (validateFileSize fileSystem info.fileDirectory file).run v = (fail e, v')) := by
  obtain ⟨path, hpath⟩ : ∃ path, path = pathOf info file := ⟨_, rfl⟩
  unfold validateFileSize
  dsimp only
  rw [← pathOf, Acceptable, ← hpath]
  cases hopen : v.refused path with
  | true =>
    refine .inr ⟨fun h => Bool.false_ne_true h.1.symm, .io (.refused path), v, ?_⟩
    refine Io.run_bind_of_error ?_
    simp only [Io.mapErr, fileSystem, hopen]
    rfl
  | false =>
    have hopened : (Io.mapErr TorrentError.io (fileSystem.openFile path)).run v =
        (.ok path, v.put path (v.bytes path)) := by
      refine Io.run_mapErr_of_ok ?_
      simp only [fileSystem, hopen]
      rfl
    have hsize : (Io.mapErr TorrentError.io (fileSystem.fileSize path)).run
        (v.put path (v.bytes path)) =
        (.ok (v.bytes path).length, v.put path (v.bytes path)) := by
      refine Io.run_mapErr_of_ok ?_
      simp only [fileSystem, bytes_put_self]
    rw [Io.run_bind_of_ok hopened, Io.run_bind_of_ok hsize]
    by_cases hlen : (v.bytes path).length = file.len.toNat
    · refine .inl ⟨⟨rfl, .inr hlen⟩, ?_⟩
      rw [if_neg (fun h => h.1 hlen), if_neg (fun h => h hlen), padded_of_length hlen]
      rfl
    · by_cases hzero : v.bytes path = []
      · refine .inl ⟨⟨rfl, .inl hzero⟩, ?_⟩
        have hne : file.len.toNat ≠ 0 := fun h => hlen (by rw [hzero, h]; rfl)
        rw [if_pos ⟨hlen, by rw [hzero]; rfl⟩, hzero, padded_nil, ← writeBytes_last _ hne]
        refine (Io.run_bind_of_ok (a := 1) ?_).trans (Io.run_pure () _)
        simp only [Io.expect, fileSystem, bytes_put_self, put_put]
        rfl
      · refine .inr ⟨fun h => h.2.elim hzero hlen, .existingFileSizeCheck path file.len.toNat
          (v.bytes path).length, v.put path (v.bytes path), ?_⟩
        rw [if_neg (fun h => hzero (length_eq_zero_iff.mp h.2)), if_pos hlen]
        rfl

/-- The files with any bytes in them are there with their lengths. -/
def Readable (info : Info) (v : Volume) (files : List Meta.File) : Prop :=
  ∀ file ∈ files, 0 < file.len.toNat → LaidFile info v file

theorem Readable.put (h : Readable info v files) (hfile : Acceptable info v file) :
    Readable info (v.put (pathOf info file) (padded file.len.toNat (v.bytes (pathOf info file))))
      (file :: files) := by
  refine forall_mem_cons.mpr ⟨fun _ => ⟨hfile.1, _, files_put_self, length_padded⟩, ?_⟩
  intro other hother hpos
  obtain ⟨hopen, bytes, hbytes, hlen⟩ := h other hother hpos
  by_cases hsame : pathOf info other = pathOf info file
  · have hne : v.bytes (pathOf info file) ≠ [] := by
      rw [← hsame, bytes_of_files hbytes]
      exact ne_nil_of_length_pos (hlen ▸ hpos)
    have hlength := hfile.2.resolve_left hne
    refine ⟨hopen, bytes, ?_, hlen⟩
    rw [hsame, files_put_self, padded_of_length hlength, ← hsame, bytes_of_files hbytes]
  · exact ⟨hopen, bytes, (files_put_of_ne hsame).trans hbytes, hlen⟩

/-- Two files at one place, the first of which is filled in first. -/
def Agree (info : Info) (file later : Meta.File) : Prop :=
  pathOf info later = pathOf info file → file.len.toNat = 0 ∨ later.len.toNat = file.len.toNat

/-- All files are acceptable as they are found, and none at the place of an earlier one has another
length. -/
def Accepted (info : Info) (v : Volume) (files : List Meta.File) : Prop :=
  (∀ file ∈ files, Acceptable info v file) ∧ files.Pairwise (Agree info)

theorem acceptable_put_iff {other : Meta.File} (hfile : Acceptable info v file) :
    Acceptable info (v.put (pathOf info file) (padded file.len.toNat (v.bytes (pathOf info file)))) other ↔
      Acceptable info v other ∧ Agree info file other := by
  obtain ⟨hopen, hlen⟩ := hfile
  by_cases hsame : pathOf info other = pathOf info file
  · rw [← length_eq_zero_iff] at hlen
    simp only [Acceptable, Agree, hsame, refused_put, hopen, bytes_put_self, ← length_eq_zero_iff,
      length_padded, true_and, forall_const]
    omega
  · rw [Acceptable, bytes_put_of_ne hsame, refused_put, ← Acceptable]
    exact (and_iff_left fun heq => absurd heq hsame).symm

theorem accepted_cons_iff (hfile : Acceptable info v file) : Accepted info v (file :: files) ↔
    Accepted info (v.put (pathOf info file) (padded file.len.toNat (v.bytes (pathOf info file)))) files := by
  rw [Accepted, Accepted, forall_mem_cons, and_iff_right hfile, pairwise_cons, ← and_assoc]
  refine and_congr_left fun _ => ?_
  simp only [acceptable_put_iff hfile, ← forall₂_and]

theorem forM_validateFileSize_returns {before : List Meta.File} (hbefore : Readable info v before) :
    (Accepted info v files ∧
        ∃ v', (files.forM (validateFileSize fileSystem info.fileDirectory)).run v = (.ok (), v') ∧
          Readable info v' files ∧ Readable info v' before) ∨
      ¬ Accepted info v files ∧
        ∃ e v', (files.forM (validateFileSize fileSystem info.fileDirectory)).run v = (fail e, v') := by
  induction files generalizing v before with
  | nil => exact .inl ⟨⟨nofun, .nil⟩, v, rfl, nofun, hbefore⟩
  | cons file files ih =>
    rcases @validateFileSize_run info v file with ⟨hfile, hrun⟩ | ⟨hnot, e, v', hrun⟩
    · rw [accepted_cons_iff hfile]
      rcases ih (hbefore.put hfile) with ⟨haccepted, v', hrest, hfiles, hdone⟩ | ⟨hnot, e, v', hrest⟩
      · obtain ⟨hself, hdone⟩ := forall_mem_cons.mp hdone
        exact .inl ⟨haccepted, v', (Io.run_bind_of_ok hrun).trans hrest,
          forall_mem_cons.mpr ⟨hself, hfiles⟩, hdone⟩
      · exact .inr ⟨hnot, e, v', (Io.run_bind_of_ok hrun).trans hrest⟩
    · exact .inr ⟨fun h => hnot (h.1 file mem_cons_self), e, v', Io.run_bind_of_error hrun⟩

/-- The validation ends with all files readable if they are accepted, and with an error otherwise. -/
theorem validateFilesSizes_returns (info : Info) (v : Volume) :
    (Accepted info v info.files ∧
        ∃ v', (validateFilesSizes fileSystem info).run v = (.ok (), v') ∧ Readable info v' info.files) ∨
      ¬ Accepted info v info.files ∧
        ∃ e v', (validateFilesSizes fileSystem info).run v = (fail e, v') := by
  have hnone : Readable info v [] := nofun
  refine (forM_validateFileSize_returns hnone).imp_left ?_
  rintro ⟨haccepted, v', hrun, hfiles, -⟩
  exact ⟨haccepted, v', hrun, hfiles⟩

theorem imageFiles_cons : imageFiles info v (file :: files) =
      padded file.len.toNat (v.bytes (pathOf info file)) ++ imageFiles info v files := by
  rw [imageFiles, map_cons, flatten_cons, imageFiles]

theorem imageFiles_congr {v' : Volume}
    (h : ∀ file ∈ files, v'.bytes (pathOf info file) = v.bytes (pathOf info file)) :
    imageFiles info v' files = imageFiles info v files := by
  rw [imageFiles, imageFiles]
  congr 1
  exact map_congr_left fun file hfile => by rw [h file hfile]

theorem imageFiles_of_laid (h : ∀ file ∈ files, LaidFile info v file) :
    imageFiles info v files = concatFiles info v files := by
  rw [imageFiles, concatFiles]
  congr 1
  refine map_congr_left fun file hfile => ?_
  obtain ⟨-, bytes, hbytes, hlen⟩ := h file hfile
  rw [bytes_of_files hbytes, padded_of_length hlen]

theorem forM_validateFileSize_run (hnodup : (files.map (pathOf info)).Nodup)
    (h : ∀ file ∈ files, Acceptable info v file) :
    ∃ v', (files.forM (validateFileSize fileSystem info.fileDirectory)).run v = (.ok (), v') ∧
      (∀ file ∈ files, LaidFile info v' file) ∧ imageFiles info v' files = imageFiles info v files ∧
      (∀ path ∉ files.map (pathOf info), v'.files path = v.files path) ∧ v'.refused = v.refused := by
  induction files generalizing v with
  | nil => exact ⟨v, rfl, nofun, rfl, fun _ _ => rfl, rfl⟩
  | cons file files ih =>
    obtain ⟨hfile, hfiles⟩ := forall_mem_cons.mp h
    obtain ⟨hfresh, hnodup⟩ := nodup_cons.mp hnodup
    have hne : ∀ other ∈ files, pathOf info other ≠ pathOf info file := fun other hother heq =>
      hfresh (heq ▸ mem_map_of_mem hother)
    rcases @validateFileSize_run info v file with ⟨-, hrun⟩ | ⟨hnot, -⟩
    · obtain ⟨bytes, hbytes⟩ : ∃ bytes, bytes = padded file.len.toNat (v.bytes (pathOf info file)) :=
        ⟨_, rfl⟩
      rw [← hbytes] at hrun
      have hkeep : ∀ other ∈ files, (v.put (pathOf info file) bytes).bytes (pathOf info other) =
          v.bytes (pathOf info other) := fun other hother => bytes_put_of_ne (hne other hother)
      have hrest : ∀ other ∈ files, Acceptable info (v.put (pathOf info file) bytes) other := by
        intro other hother
        rw [Acceptable, hkeep other hother]
        exact hfiles other hother
      obtain ⟨v', hrun', hlaid, himage, hothers, hrefused⟩ := ih hnodup hrest
      have hself : v'.files (pathOf info file) = some bytes :=
        (hothers _ hfresh).trans files_put_self
      refine ⟨v', (Io.run_bind_of_ok hrun).trans hrun', forall_mem_cons.mpr ⟨?_, hlaid⟩, ?_, ?_,
        hrefused⟩
      · rw [LaidFile, hrefused]
        exact ⟨hfile.1, bytes, hself, hbytes ▸ length_padded⟩
      · rw [imageFiles_cons, imageFiles_cons, himage, imageFiles_congr hkeep,
          bytes_of_files hself, hbytes, padded_of_length length_padded]
      · intro path hpath
        obtain ⟨hpath, hpaths⟩ := not_or.mp (fun hmem => hpath (mem_cons.mpr hmem))
        exact (hothers path hpaths).trans (files_put_of_ne hpath)
    · exact absurd hfile hnot

/-- Files that pass are acceptable as they were found. -/
theorem acceptable_of_validateFilesSizes {v' : Volume}
    (h : (validateFilesSizes fileSystem info).run v = (.ok (), v')) :
    ∀ file ∈ info.files, Acceptable info v file := by
  rcases validateFilesSizes_returns info v with ⟨haccepted, -⟩ | ⟨-, e, v₁, hfail⟩
  · exact haccepted.1
  · rw [h] at hfail
    cases hfail

/-! ### Reading a piece -/

/-- A read of readable files ends without an error, whatever part of the block lies in them. -/
theorem regionLoop_read_returns {total skip accessed : Nat} {buffer : Bytes}
    (h : Readable info v files) (hbuffer : total ≤ buffer.length) :
    ∃ buffer', (regionLoop (fun path => onDisk (fileSystem.openFile path)) info.fileDirectory
        total (readRegion fileSystem) files skip accessed).run (buffer, v) =
      (.ok (), (buffer', v)) ∧ buffer'.length = buffer.length := by
  induction files generalizing buffer skip accessed with
  | nil => exact ⟨buffer, rfl, rfl⟩
  | cons file files ih =>
    obtain ⟨hfile, hfiles⟩ := forall_mem_cons.mp h
    by_cases hpos : 0 < file.len.toNat
    · obtain ⟨hopen, bytes, hbytes, hlen⟩ := hfile hpos
      obtain ⟨m, hm⟩ : ∃ m, m = share bytes.length skip (total - accessed) := ⟨_, rfl⟩
      rw [regionLoop_read_cons hopen hbytes hlen hbuffer hm]
      have hshare : m = min (total - accessed) (bytes.length - min skip bytes.length) := hm
      by_cases hzero : m = 0
      · rw [hzero, window_zero, overwrite_nil]
        exact ih hfiles hbuffer
      · have hwindow : (window bytes (min skip bytes.length) m).length = m := length_window (by omega)
        have hwritten : (overwrite buffer accessed
            (window bytes (min skip bytes.length) m)).length = buffer.length :=
          length_overwrite (by omega)
        obtain ⟨buffer', hrun, hlength⟩ := @ih (skip - bytes.length) (accessed + m) _ hfiles
          (hbuffer.trans hwritten.ge)
        exact ⟨buffer', hrun, hlength.trans hwritten⟩
    · have hshare : share file.len.toNat skip (total - accessed) = 0 := by
        unfold share
        omega
      rw [regionLoop_cons _ _ _ _ rfl rfl, if_pos hshare]
      exact ih hfiles hbuffer

end

section

variable {info : Info} {v : Volume} {buffer front : Bytes} {message : BlockMetadata}
  {expected : ShaHash} (hash : Bytes → ShaHash)

theorem pieceMatches_of_read (hbuffer : message.blockLength ≤ buffer.length)
    (hread : (readPiece fileSystem info message).run (buffer.take message.blockLength, v) =
      (.ok (), (front, v))) (hfront : front.length = message.blockLength) :
    (pieceMatches fileSystem hash info message).run (buffer, v) =
      (unwrapSome (pieceHash info message.pieceIndex) >>= fun expected => .ok (hash front == expected),
        (front ++ buffer.drop message.blockLength, v)) := by
  have hslice : (slice buffer 0 message.blockLength : Run IoError Slice) =
      .ok ⟨0, (buffer.take message.blockLength).drop 0⟩ :=
    slice_eq_ok.mpr ⟨Nat.zero_le _, hbuffer, rfl⟩
  have hzoom : (Io.zoom (fun t => (t.1.take message.blockLength, t.2))
      (fun t t' => (t.1 ++ t'.1.drop message.blockLength, t.2))
      (readPiece fileSystem info message)).run (buffer, v) =
      (.ok (), (front ++ buffer.drop message.blockLength, v)) := by
    simp only [Io.zoom, hread]
  have htake : (front ++ buffer.drop message.blockLength).take message.blockLength = front := by
    rw [← hfront, take_left]
  rw [pieceMatches, Io.run_get_bind]
  dsimp only
  rw [hslice, Io.ofRun_ok_bind, Io.run_bind_of_ok hzoom, Io.run_get_bind]
  dsimp only
  rw [htake]
  cases pieceHash info message.pieceIndex with
  | none => rfl
  | some expected => rfl

theorem pieceMatches_run {ε : Type} {total : Nat} (hlaid : Laid info v)
    (htotal : totalBytes info = (.ok total : Run ε Nat)) (hrange : InRange info total message)
    (hbuffer : message.blockLength ≤ buffer.length)
    (hexpected : pieceHash info message.pieceIndex = some expected) :
    ∃ buffer', (pieceMatches fileSystem hash info message).run (buffer, v) =
        (.ok (hash (window (concatenation info v) (blockBegin info message) message.blockLength) ==
          expected), (buffer', v)) ∧ buffer'.length = buffer.length := by
  have htake : (buffer.take message.blockLength).length = message.blockLength := by
    rw [length_take]
    omega
  have hread := readPiece_run_all hlaid htotal hrange htake
  have hfront := length_window (hrange.trans (length_concatenation hlaid htotal).ge)
  have hrun := pieceMatches_of_read hash hbuffer hread hfront
  rw [hexpected] at hrun
  refine ⟨_, hrun, ?_⟩
  rw [length_append, hfront, length_drop]
  omega

/-- The comparison of a piece of readable files either comes to an answer or finds no hash. -/
theorem pieceMatches_returns (hreadable : Readable info v info.files)
    (hbegin : blockBegin info message ≤ usizeMax) (hbuffer : message.blockLength ≤ buffer.length) :
    ∃ buffer', buffer'.length = buffer.length ∧
      ((∃ answer, (pieceMatches fileSystem hash info message).run (buffer, v) =
          (.ok answer, (buffer', v)) ∧ message.pieceIndex < info.pieces.length) ∨
        (pieceMatches fileSystem hash info message).run (buffer, v) =
          (.error .panic, (buffer', v)) ∧ info.pieces.length ≤ message.pieceIndex) := by
  have htake : (buffer.take message.blockLength).length = message.blockLength := by
    rw [length_take]
    omega
  obtain ⟨front, hread, hfront⟩ : ∃ front, (readPiece fileSystem info message).run
      (buffer.take message.blockLength, v) = (.ok (), (front, v)) ∧
        front.length = message.blockLength := by
    obtain ⟨front, hrun, hlength⟩ := @regionLoop_read_returns info v info.files message.blockLength
      (blockBegin info message) 0 (buffer.take message.blockLength) hreadable htake.ge
    refine ⟨front, ?_, hlength.trans htake⟩
    rw [readPiece, runWithFileRegions, blockStart_of_le hbegin, Io.ofRun_ok_bind]
    exact hrun
  have hrun := pieceMatches_of_read hash hbuffer hread hfront
  refine ⟨front ++ buffer.drop message.blockLength, ?_, ?_⟩
  · rw [length_append, hfront, length_drop]
    omega
  · by_cases hindex : message.pieceIndex < info.pieces.length
    · rw [pieceHash, getElem?_eq_getElem hindex] at hrun
      exact .inl ⟨_, hrun, hindex⟩
    · rw [pieceHash, getElem?_eq_none (Nat.le_of_not_lt hindex)] at hrun
      exact .inr ⟨hrun, Nat.le_of_not_lt hindex⟩

end

end BitTorrent.Disk
