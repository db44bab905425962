import BitTorrent.BencodeReturns
import BitTorrent.MetainfoInfoSlice

/-! When parsing a metainfo file returns. The bencode decoder always does, and so does every lookup. What
panics is the cast of a negative integer to an unsigned length: of the piece length, of the length of a
single file, or of the length of a file in a list, each only if everything read before it was accepted. -/

namespace BitTorrent.Meta

open Rust Bencode OrderedMap

/-- An integer under the key is not negative. -/
def Unsigned (dict : List (Bytes × Inner)) (key : Bytes) : Prop :=
  ∀ n, lookup dict key = some (.int n) → 0 ≤ n.toInt

def textList (texts : List Str) : List Inner := texts.map fun text => .bytes text.bytes

/-- An entry of the files list with a length and a path of texts. -/
def IsFileDict (fileBencode : Inner) : Prop :=
  ∃ dict n names, fileBencode = .dict dict ∧ lookup dict lengthKey = some (.int n) ∧
    lookup dict pathKey = some (.list (textList names))

/-- No file has a negative length, up to the first entry that is no file. -/
def UnsignedFiles : List Inner → Prop
  | [] => True
  | fileBencode :: rest =>
    (∀ dict, fileBencode = .dict dict → Unsigned dict lengthKey) ∧
      (IsFileDict fileBencode → UnsignedFiles rest)

/-- The info dictionary has a piece length and whole piece hashes, which are read before any file. -/
def HasPieces (infoDict : List (Bytes × Inner)) : Prop :=
  (∃ n, lookup infoDict pieceLengthKey = some (.int n)) ∧
    ∃ pieces, lookup infoDict piecesKey = some (.bytes pieces) ∧ pieces.length % shaHashLen = 0

/-- No length of an info dictionary is negative, as far as they are read. -/
structure UnsignedLengths (infoDict : List (Bytes × Inner)) : Prop where
  pieceLength : Unsigned infoDict pieceLengthKey
  single : HasPieces infoDict → Unsigned infoDict lengthKey
  multi : HasPieces infoDict → (∀ n, lookup infoDict lengthKey ≠ some (.int n)) →
    (∃ name : Str, lookup infoDict nameKey = some (.bytes name.bytes)) →
    ∀ files, lookup infoDict filesKey = some (.list files) → UnsignedFiles files

section

variable {dict : List (Bytes × Inner)} {key : Bytes}

theorem returns_parseUnsigned_iff : Returns (parseUnsigned dict key) ↔ Unsigned dict key := by
  rw [parseUnsigned, returns_bind_iff, and_iff_right (returns_lookupAndConvertInt _ _ _)]
  refine forall_congr' fun n => ?_
  rw [lookupAndConvertInt_eq_ok]
  refine imp_congr_right fun _ => ?_
  rw [returns_bind_iff, returns_unwrapSome_iff, tryUint_eq_some_iff]
  have hlt : n.toInt < 2 ^ 64 := n.toInt_lt.trans (by decide)
  exact ⟨fun h => h.1.1, fun h => ⟨⟨h, hlt⟩, fun _ _ => .ok _⟩⟩

variable {u : UInt64}

theorem parseUnsigned_eq_ok : parseUnsigned dict key = .ok u ↔
      ∃ n, lookup dict key = some (.int n) ∧ 0 ≤ n.toInt ∧ u = UInt64.ofNat n.toInt.toNat := by
  rw [parseUnsigned, bind_eq_ok]
  refine exists_congr fun n => ?_
  rw [lookupAndConvertInt_eq_ok]
  refine and_congr_right fun _ => ?_
  have hlt : n.toInt < 2 ^ 64 := n.toInt_lt.trans (by decide)
  by_cases hn : 0 ≤ n.toInt
  · have hcast : tryUint 64 n.toInt = some n.toInt.toNat := if_pos ⟨hn, hlt⟩
    rw [hcast]
    exact ⟨fun h => ⟨hn, (Except.ok.inj h).symm⟩, fun h => congrArg _ h.2.symm⟩
  · have hcast : tryUint 64 n.toInt = none := if_neg fun h => hn h.1
    rw [hcast]
    exact ⟨fun h => (by cases h), fun h => absurd h.1 hn⟩

theorem parseUnsigned_of_no_int (h : ∀ n, lookup dict key ≠ some (.int n)) :
    ∃ e, parseUnsigned dict key = fail e := by
  rcases returns_parseUnsigned_iff.mpr fun n hn => absurd hn (h n) with ⟨u, hu⟩ | hfail
  · obtain ⟨n, hn, -⟩ := parseUnsigned_eq_ok.mp hu
    exact absurd hn (h n)
  · exact hfail

theorem returns_isMultiFileTorrent_iff : Returns (isMultiFileTorrent dict) ↔ Unsigned dict lengthKey := by
  rw [isMultiFileTorrent, returns_bind_iff, returns_result_iff, parseLength, returns_parseUnsigned_iff]
  refine and_iff_left fun r _ => ?_
  cases r with
  | ok _ => exact .ok _
  | error _ => exact .ok _

theorem isMultiFileTorrent_of_length (h : parseLength dict = .ok u) :
    isMultiFileTorrent dict = .ok false := by
  rw [isMultiFileTorrent, h]
  rfl

theorem isMultiFileTorrent_of_no_length (h : ∀ n, lookup dict lengthKey ≠ some (.int n)) :
    isMultiFileTorrent dict = .ok true := by
  obtain ⟨e, he⟩ := parseUnsigned_of_no_int h
  rw [isMultiFileTorrent, parseLength, he]
  rfl

/-- A torrent has one file if it has a length, and else a list of files. -/
theorem isMultiFileTorrent_cases (h : Unsigned dict lengthKey) :
    (∃ u, parseLength dict = .ok u ∧ isMultiFileTorrent dict = .ok false) ∨
      (∀ n, lookup dict lengthKey ≠ some (.int n)) ∧ isMultiFileTorrent dict = .ok true := by
  by_cases hlength : ∃ n, lookup dict lengthKey = some (.int n)
  · obtain ⟨n, hn⟩ := hlength
    have hu : parseLength dict = .ok (UInt64.ofNat n.toInt.toNat) := parseUnsigned_eq_ok.mpr ⟨n, hn, h n hn, rfl⟩
    exact .inl ⟨_, hu, isMultiFileTorrent_of_length hu⟩
  · rw [not_exists] at hlength
    exact .inr ⟨hlength, isMultiFileTorrent_of_no_length hlength⟩

theorem returns_allocatePieces (pieces : Bytes) : Returns (allocatePieces pieces) := by
  unfold allocatePieces
  split
  · exact .ok _
  · exact .fail _

theorem allocatePieces_eq_ok {pieces : Bytes} {buffers : List (Vector UInt8 20)} :
    allocatePieces pieces = .ok buffers ↔ pieces.length % shaHashLen = 0 ∧
      buffers = (pieces.toChunks shaHashLen).map fun chunk => .ofFn fun i => chunk.getD i 0 := by
  unfold allocatePieces
  split
  · rename_i hwhole
    exact ⟨fun h => ⟨hwhole, (Except.ok.inj h).symm⟩, fun h => congrArg _ h.2.symm⟩
  · rename_i hpart
    exact ⟨fun h => (by cases h), fun h => absurd h.1 hpart⟩

end

section

theorem returns_pathBuf (path : List Inner) (pathBuf : PathBuf) :
    Returns (path.foldlM
      (fun pathBuf pathBencode => do Except.ok (pathBuf.push (← parsePathStr pathBencode))) pathBuf :
        Run ParseError PathBuf) := by
  induction path generalizing pathBuf with
  | nil => exact .ok pathBuf
  | cons piece path ih =>
    rw [List.foldlM_cons]
    refine Returns.bind ?_ ih
    exact (returns_convert _ _ _ _ _).bind fun _ => .ok _

/-- A path of texts is pushed together, and no other path is. -/
theorem pathBuf_eq_ok {path : List Inner} {pathBuf pathBuf' : PathBuf} :
    (path.foldlM (fun pathBuf pathBencode => do Except.ok (pathBuf.push (← parsePathStr pathBencode)))
        pathBuf : Run ParseError PathBuf) = .ok pathBuf' ↔
      ∃ names, path = textList names ∧ pathBuf' = names.foldl PathBuf.push pathBuf := by
  induction path generalizing pathBuf with
  | nil =>
    constructor
    · intro h
      cases h
      exact ⟨[], rfl, rfl⟩
    · rintro ⟨names, hnames, rfl⟩
      rw [List.map_eq_nil_iff.mp hnames.symm]
      rfl
  | cons piece path ih =>
    rw [List.foldlM_cons, bind_eq_ok]
    constructor
    · rintro ⟨next, hnext, hrest⟩
      obtain ⟨name, hname, hpush⟩ := bind_eq_ok.mp hnext
      cases hpush
      obtain ⟨names, rfl, rfl⟩ := ih.mp hrest
      rw [parsePathStr, convertStr_eq_ok] at hname
      exact ⟨name :: names, by rw [hname]; rfl, rfl⟩
    · rintro ⟨names, hnames, rfl⟩
      cases names with
      | nil => cases hnames
      | cons name names =>
        rw [textList, List.map_cons, List.cons.injEq] at hnames
        obtain ⟨rfl, rfl⟩ := hnames
        refine ⟨pathBuf.push name, ?_, ih.mpr ⟨names, rfl, rfl⟩⟩
        rw [parsePathStr, convertStr_eq_ok.mpr rfl]
        rfl

variable {dict : List (Bytes × Inner)}

theorem returns_asMultiFile_iff : Returns (File.asMultiFile dict) ↔ Unsigned dict lengthKey := by
  rw [File.asMultiFile, returns_bind_iff, parseLength, returns_parseUnsigned_iff]
  refine and_iff_left fun length _ => ?_
  refine (returns_lookupAndConvertList _ _ _).bind fun path => ?_
  exact (returns_pathBuf path .new).bind fun pathBuf => .ok _

variable {file : File}

theorem asMultiFile_eq_ok : File.asMultiFile dict = .ok file ↔
      ∃ n names, lookup dict lengthKey = some (.int n) ∧ 0 ≤ n.toInt ∧
        lookup dict pathKey = some (.list (textList names)) ∧
        file = ⟨UInt64.ofNat n.toInt.toNat, names.foldl PathBuf.push .new, parseMd5sum dict⟩ := by
  constructor
  · intro h
    obtain ⟨length, hlength, h⟩ := bind_eq_ok.mp h
    obtain ⟨path, hpath, h⟩ := bind_eq_ok.mp h
    obtain ⟨pathBuf, hpathBuf, h⟩ := bind_eq_ok.mp h
    cases h
    obtain ⟨n, hn, hsign, rfl⟩ := parseUnsigned_eq_ok.mp hlength
    obtain ⟨names, rfl, rfl⟩ := pathBuf_eq_ok.mp hpathBuf
    exact ⟨n, names, hn, hsign, lookupAndConvertList_eq_ok.mp hpath, rfl⟩
  · rintro ⟨n, names, hn, hsign, hpath, rfl⟩
    have hlength : parseLength dict = .ok (UInt64.ofNat n.toInt.toNat) := parseUnsigned_eq_ok.mpr ⟨n, hn, hsign, rfl⟩
    have hlist : parsePathList dict = .ok (textList names) := lookupAndConvertList_eq hpath
    rw [File.asMultiFile, hlength, ok_bind, hlist, ok_bind, pathBuf_eq_ok.mpr ⟨names, rfl, rfl⟩, ok_bind]

def parseFile (fileBencode : Inner) : Run ParseError File := do
  File.asMultiFile (← parseFileDict fileBencode)

variable {fileBencode : Inner}

theorem returns_parseFile_iff :
    Returns (parseFile fileBencode) ↔ ∀ dict, fileBencode = .dict dict → Unsigned dict lengthKey := by
  have hdict : Returns (parseFileDict fileBencode) := returns_convert _ _ _ _ _
  rw [parseFile, returns_bind_iff, and_iff_right hdict]
  refine forall_congr' fun dict => ?_
  rw [parseFileDict, convertDict_eq_ok, returns_asMultiFile_iff]

theorem parseFile_eq_ok :
    parseFile fileBencode = .ok file ↔ ∃ dict, fileBencode = .dict dict ∧ File.asMultiFile dict = .ok file := by
  rw [parseFile, bind_eq_ok]
  refine exists_congr fun dict => ?_
  rw [parseFileDict, convertDict_eq_ok]

theorem isFileDict_iff (h : ∀ dict, fileBencode = .dict dict → Unsigned dict lengthKey) :
    (∃ file, parseFile fileBencode = .ok file) ↔ IsFileDict fileBencode := by
  constructor
  · rintro ⟨file, hfile⟩
    obtain ⟨dict, rfl, hfile⟩ := parseFile_eq_ok.mp hfile
    obtain ⟨n, names, hn, -, hpath, -⟩ := asMultiFile_eq_ok.mp hfile
    exact ⟨dict, n, names, rfl, hn, hpath⟩
  · rintro ⟨dict, n, names, rfl, hn, hpath⟩
    have hfile := asMultiFile_eq_ok.mpr ⟨n, names, hn, h dict rfl n hn, hpath, rfl⟩
    exact ⟨_, parseFile_eq_ok.mpr ⟨dict, rfl, hfile⟩⟩

theorem returns_mapM_parseFile_iff {files : List Inner} :
    Returns (files.mapM parseFile) ↔ UnsignedFiles files := by
  induction files with
  | nil => exact ⟨fun _ => trivial, fun _ => .ok []⟩
  | cons fileBencode files ih =>
    rw [List.mapM_cons, returns_bind_iff, returns_parseFile_iff, UnsignedFiles]
    refine and_congr_right fun hsign => ?_
    rw [← isFileDict_iff hsign]
    constructor
    · rintro h ⟨file, hfile⟩
      exact ih.mp (returns_bind_iff.mp (h file hfile)).1
    · intro h file hfile
      exact (ih.mpr (h ⟨file, hfile⟩)).bind fun _ => .ok _

end

section

variable (hash : Bytes → ShaHash)

/-- What is read of an info dictionary after its pieces. -/
def parseLayout (infoHash : ShaHash) (infoDict : List (Bytes × Inner)) (pieceLen : UInt64)
    (pieceBuffers : List (Vector UInt8 20)) : Run ParseError Info := do
  if ← isMultiFileTorrent infoDict then
    let fileDirectory ← parseName infoDict
    let filesBencode ← parseFilesList infoDict
    let filesList ← filesBencode.mapM parseFile
    .ok ⟨infoHash, filesList, pieceBuffers, pieceLen, parsePrivate infoDict, some (.push .new fileDirectory)⟩
  else
    let file ← File.asSingleFile infoDict
    .ok ⟨infoHash, [file], pieceBuffers, pieceLen, parsePrivate infoDict, none⟩

theorem parseInfoDictionary_eq (r : BencodeRef) :
    parseInfoDictionary hash r = (do
      let infoDict ← parseRootDict r.value
      let pieceLen ← parsePieceLength infoDict
      let pieces ← parsePieces infoDict
      let pieceBuffers ← allocatePieces pieces
      parseLayout (hash r.buffer.bytes) infoDict pieceLen pieceBuffers) := rfl

theorem returns_parseLayout_iff {infoHash : ShaHash} {infoDict : List (Bytes × Inner)} {pieceLen : UInt64}
    {pieceBuffers : List (Vector UInt8 20)} :
    Returns (parseLayout infoHash infoDict pieceLen pieceBuffers) ↔ Unsigned infoDict lengthKey ∧
      ((∀ n, lookup infoDict lengthKey ≠ some (.int n)) →
        (∃ name : Str, lookup infoDict nameKey = some (.bytes name.bytes)) →
        ∀ files, lookup infoDict filesKey = some (.list files) → UnsignedFiles files) := by
  rw [parseLayout, returns_bind_iff, returns_isMultiFileTorrent_iff]
  refine and_congr_right fun hsign => ?_
  rcases isMultiFileTorrent_cases hsign with ⟨u, hu, hsingle⟩ | ⟨hnone, hmulti⟩
  · obtain ⟨n, hn, -⟩ := parseUnsigned_eq_ok.mp hu
    refine iff_of_true (fun multi hmulti => ?_) fun hnone => absurd hn (hnone n)
    rw [hsingle] at hmulti
    cases hmulti
    refine Returns.bind ?_ fun file => .ok _
    rw [File.asSingleFile, hu, ok_bind]
    exact (returns_lookupAndConvertStr _ _ _).bind fun name => .ok _
  · rw [hmulti]
    constructor
    · intro h _ hname files hfiles
      obtain ⟨name, hname⟩ := hname
      have hreturns := (returns_bind_iff.mp (h true rfl)).2 name (lookupAndConvertStr_eq name hname)
      have hlist := (returns_bind_iff.mp hreturns).2 files (lookupAndConvertList_eq hfiles)
      exact returns_mapM_parseFile_iff.mp (returns_bind_iff.mp hlist).1
    · intro h multi heq
      cases heq
      refine (returns_lookupAndConvertStr _ _ _).bind_of_ok fun name hname => ?_
      refine (returns_lookupAndConvertList _ _ _).bind_of_ok fun files hfiles => ?_
      rw [lookupAndConvertStr_eq_ok] at hname
      rw [lookupAndConvertList_eq_ok] at hfiles
      exact (returns_mapM_parseFile_iff.mpr (h hnone ⟨name, hname⟩ files hfiles)).bind fun _ => .ok _

theorem returns_parseInfoDictionary_iff {r : BencodeRef} :
    Returns (parseInfoDictionary hash r) ↔ ∀ infoDict, r.value = .dict infoDict → UnsignedLengths infoDict := by
  have hdict : Returns (parseRootDict r.value) := returns_convert _ _ _ _ _
  rw [parseInfoDictionary_eq, returns_bind_iff, and_iff_right hdict]
  refine forall_congr' fun infoDict => ?_
  rw [parseRootDict, convertDict_eq_ok]
  refine imp_congr_right fun _ => ?_
  constructor
  · intro h
    obtain ⟨hpieceLen, h⟩ := returns_bind_iff.mp h
    have hsign := returns_parseUnsigned_iff.mp hpieceLen
    have hlayout : HasPieces infoDict → ∃ pieceLen pieceBuffers,
        Returns (parseLayout (hash r.buffer.bytes) infoDict pieceLen pieceBuffers) := by
      rintro ⟨⟨n, hn⟩, pieces, hpieces, hwhole⟩
      have hlen := h _ (parseUnsigned_eq_ok.mpr ⟨n, hn, hsign n hn, rfl⟩)
      have hbytes := (returns_bind_iff.mp hlen).2 pieces (lookupAndConvertBytes_eq hpieces)
      exact ⟨_, _, (returns_bind_iff.mp hbytes).2 _ (allocatePieces_eq_ok.mpr ⟨hwhole, rfl⟩)⟩
    refine ⟨hsign, fun hpieces => ?_, fun hpieces => ?_⟩
    · obtain ⟨pieceLen, pieceBuffers, hreturns⟩ := hlayout hpieces
      exact (returns_parseLayout_iff.mp hreturns).1
    · obtain ⟨pieceLen, pieceBuffers, hreturns⟩ := hlayout hpieces
      exact (returns_parseLayout_iff.mp hreturns).2
  · intro h
    refine (returns_parseUnsigned_iff.mpr h.pieceLength).bind_of_ok fun pieceLen hpieceLen => ?_
    refine (returns_lookupAndConvertBytes _ _ _).bind_of_ok fun pieces hpieces => ?_
    refine (returns_allocatePieces pieces).bind_of_ok fun pieceBuffers hbuffers => ?_
    obtain ⟨n, hn, -⟩ := parseUnsigned_eq_ok.mp hpieceLen
    have hhas : HasPieces infoDict :=
      ⟨⟨n, hn⟩, pieces, lookupAndConvertBytes_eq_ok.mp hpieces, (allocatePieces_eq_ok.mp hbuffers).1⟩
    exact returns_parseLayout_iff.mpr ⟨h.single hhas, h.multi hhas⟩

variable {bytes : Buffer}

theorem returns_infoFromBytes_iff : Returns (Info.fromBytes hash bytes) ↔
      ∀ r infoDict, BencodeRef.decode bytes .default = .ok r → r.value = .dict infoDict →
        UnsignedLengths infoDict := by
  rw [Info.fromBytes, returns_bind_iff, and_iff_right ((BencodeRef.returns_decode bytes _).mapErr _)]
  constructor
  · intro h r infoDict hr hdict
    exact (returns_parseInfoDictionary_iff hash).mp (h r (mapErr_eq_ok.mpr hr)) infoDict hdict
  · intro h r hr
    refine (returns_parseInfoDictionary_iff hash).mpr fun infoDict hdict => ?_
    exact h r infoDict (mapErr_eq_ok.mp hr) hdict

theorem returns_metainfoFromBytes_iff : Returns (Metainfo.fromBytes hash bytes) ↔
      ∀ rootDict slice infoBencode infoDict, BencodeRef.decode bytes .default = .ok (.dict rootDict slice) →
        lookup rootDict infoKey = some infoBencode → infoBencode.value = .dict infoDict →
        UnsignedLengths infoDict := by
  refine Iff.trans returns_decodeDict_iff ?_
  constructor
  · intro h rootDict slice infoBencode infoDict hroot hlookup
    have hreturns := h _ _ hroot rfl
    rw [parseInfoBencode_eq_ok.mpr ⟨rootDict, slice, rfl, hlookup⟩, ok_bind] at hreturns
    exact (returns_parseInfoDictionary_iff hash).mp (returns_bind_iff.mp hreturns).1 infoDict
  · intro h root d hroot hdict
    have hinfo : Returns (parseInfoBencode root) := by
      unfold parseInfoBencode
      split
      · split
        · exact .ok _
        · exact .fail _
      · exact .fail _
    refine hinfo.bind_of_ok fun infoBencode hinfoBencode => ?_
    obtain ⟨rootDict, slice, rfl, hlookup⟩ := parseInfoBencode_eq_ok.mp hinfoBencode
    refine Returns.bind ?_ fun info => .ok _
    exact (returns_parseInfoDictionary_iff hash).mpr fun infoDict hvalue =>
      h rootDict slice infoBencode infoDict hroot hlookup hvalue

/-- No length read from the bytes is negative, be they an info dictionary or a metainfo file. -/
structure LengthsUnsigned (bytes : Buffer) : Prop where
  info : ∀ r infoDict, BencodeRef.decode bytes .default = .ok r → r.value = .dict infoDict →
    UnsignedLengths infoDict
  metainfo : ∀ rootDict slice infoBencode infoDict,
    BencodeRef.decode bytes .default = .ok (.dict rootDict slice) →
    lookup rootDict infoKey = some infoBencode → infoBencode.value = .dict infoDict →
    UnsignedLengths infoDict

/-- Both parsers return, a value or an error, exactly on the bytes without a negative length. -/
theorem parsing_returns_iff (bytes : Buffer) :
    Returns (Metainfo.fromBytes hash bytes) ∧ Returns (Info.fromBytes hash bytes) ↔
      LengthsUnsigned bytes := by
  rw [returns_metainfoFromBytes_iff, returns_infoFromBytes_iff]
  exact ⟨fun h => ⟨h.2, h.1⟩, fun h => ⟨h.metainfo, h.info⟩⟩

/-- An info dictionary with nothing but a piece length of minus one. -/
def negativePieceLength : Buffer where
  data := ascii "d12:piece lengthi-1ee"
  fits := by decide +kernel

theorem parsing_panics_negative :
    Info.fromBytes lengthHash negativePieceLength = .error .panic ∧
      ¬ (Returns (Metainfo.fromBytes lengthHash negativePieceLength) ∧
        Returns (Info.fromBytes lengthHash negativePieceLength)) := by
  have hpanic : Info.fromBytes lengthHash negativePieceLength = .error .panic := by decide +kernel
  refine ⟨hpanic, fun h => ?_⟩
  rw [hpanic] at h
  exact not_returns_panic h.2

end

end BitTorrent.Meta
