import BitTorrent.BencodeAccess
import BitTorrent.BencodeBuffer
import BitTorrent.ShaHash

/-! Metainfo files and their info dictionary. The hash of a torrent is that of the bytes from which its
info dictionary was decoded. Lengths are cast to unsigned integers without a check, and a negative one
ends the program. -/

namespace BitTorrent.Meta

open Rust Bencode

/-- The errors of parsing; those of the file system occur in building only. -/
inductive ParseError where
  | bencodeConvert (error : BencodeConvertError)
  | bencodeParse (error : BencodeParseError)
  | missingData (details : String)
  deriving DecidableEq

structure File where
  len : UInt64
  path : PathBuf
  md5sum : Option Bytes
  deriving DecidableEq

structure Info where
  infoHash : ShaHash
  files : List File
  pieces : List (Vector UInt8 20)
  pieceLen : UInt64
  isPrivate : Option Bool
  fileDirectory : Option PathBuf
  deriving DecidableEq

structure Metainfo where
  comment : Option Str
  announce : Option Str
  announceList : Option (List (List Str))
  encoding : Option Str
  createdBy : Option Str
  creationDate : Option Int64
  info : Info
  deriving DecidableEq

/-- A metainfo with nothing but the info dictionary. -/
def Metainfo.ofInfo (info : Info) : Metainfo := ⟨none, none, none, none, none, none, info⟩

def rootErrorKey : Bytes := ascii "root"

def announceListKey : Bytes := ascii "announce-list"

def announceUrlKey : Bytes := ascii "announce"

def creationDateKey : Bytes := ascii "creation date"

def commentKey : Bytes := ascii "comment"

def createdByKey : Bytes := ascii "created by"

def encodingKey : Bytes := ascii "encoding"

def infoKey : Bytes := ascii "info"

def pieceLengthKey : Bytes := ascii "piece length"

def piecesKey : Bytes := ascii "pieces"

def privateKey : Bytes := ascii "private"

def nameKey : Bytes := ascii "name"

def filesKey : Bytes := ascii "files"

def lengthKey : Bytes := ascii "length"

def md5sumKey : Bytes := ascii "md5sum"

def pathKey : Bytes := ascii "path"

section

variable (dict : List (Bytes × Inner))

def parseRootDict (rootBencode : Inner) : Run ParseError (List (Bytes × Inner)) :=
  convertDict .bencodeConvert rootBencode rootErrorKey

def parseAnnounceList : Option (List Inner) :=
  (lookupAndConvertList ParseError.bencodeConvert dict announceListKey).toOption

/-- What is no list, and in a list what is no text, is skipped. -/
def convertAnnounceList (list : List Inner) : List (List Str) :=
  (list.filterMap Inner.asList).map fun entry => entry.filterMap Inner.asStr

/-- A text that may be missing, or be no text. -/
def parseText (key : Bytes) : Option Str :=
  (lookupAndConvertStr ParseError.bencodeConvert dict key).toOption

def parseAnnounceUrl : Option Str := parseText dict announceUrlKey

def parseCreationDate : Option Int64 :=
  (lookupAndConvertInt ParseError.bencodeConvert dict creationDateKey).toOption

def parseComment : Option Str := parseText dict commentKey

def parseCreatedBy : Option Str := parseText dict createdByKey

def parseEncoding : Option Str := parseText dict encodingKey

/-- The info dictionary keeps the slice it was decoded from. -/
def parseInfoBencode (rootBencode : BencodeRef) : Run ParseError BencodeRef :=
  match rootBencode with
  | .dict rootDict _ =>
    match OrderedMap.lookup rootDict infoKey with
    | some infoBencode => .ok infoBencode
    | none => fail (.bencodeConvert (.missingKey infoKey))
  | _ => fail (.bencodeConvert (.wrongType rootErrorKey "Dictionary"))

/-- An integer that is unwrapped as an unsigned one. -/
def parseUnsigned (key : Bytes) : Run ParseError UInt64 := do
  let len ← lookupAndConvertInt .bencodeConvert dict key
  .ok (UInt64.ofNat (← unwrapSome (tryUint 64 len.toInt)))

def parsePieceLength : Run ParseError UInt64 := parseUnsigned dict pieceLengthKey

def parsePieces : Run ParseError Bytes := lookupAndConvertBytes .bencodeConvert dict piecesKey

def parsePrivate : Option Bool :=
  (lookupAndConvertInt ParseError.bencodeConvert dict privateKey).toOption.map fun p => p == 1

def parseName : Run ParseError Str := lookupAndConvertStr .bencodeConvert dict nameKey

def parseFilesList : Run ParseError (List Inner) := lookupAndConvertList .bencodeConvert dict filesKey

def parseFileDict (fileBencode : Inner) : Run ParseError (List (Bytes × Inner)) :=
  convertDict .bencodeConvert fileBencode filesKey

def parseLength : Run ParseError UInt64 := parseUnsigned dict lengthKey

def parseMd5sum : Option Bytes :=
  (lookupAndConvertBytes ParseError.bencodeConvert dict md5sumKey).toOption

def parsePathList : Run ParseError (List Inner) := lookupAndConvertList .bencodeConvert dict pathKey

def parsePathStr (pathBencode : Inner) : Run ParseError Str :=
  convertStr .bencodeConvert pathBencode pathKey

end

namespace File

def asSingleFile (infoDict : List (Bytes × Inner)) : Run ParseError File := do
  let length ← parseLength infoDict
  let name ← parseName infoDict
  .ok ⟨length, ⟨name.bytes⟩, parseMd5sum infoDict⟩

def asMultiFile (fileDict : List (Bytes × Inner)) : Run ParseError File := do
  let length ← parseLength fileDict
  let pathListBencode ← parsePathList fileDict
  let pathBuf ← pathListBencode.foldlM
    (fun pathBuf pathBencode => do .ok (pathBuf.push (← parsePathStr pathBencode))) PathBuf.new
  .ok ⟨length, pathBuf, parseMd5sum fileDict⟩

end File

def isMultiFileTorrent (infoDict : List (Bytes × Inner)) : Run ParseError Bool := do
  match ← result (parseLength infoDict) with
  | .ok _ => .ok false
  | .error _ => .ok true

def allocatePieces (pieces : Bytes) : Run ParseError (List (Vector UInt8 20)) :=
  if pieces.length % shaHashLen = 0 then
    .ok ((pieces.toChunks shaHashLen).map fun chunk => .ofFn fun i => chunk.getD i 0)
  else
    let length := pieces.length
    fail (.missingData s!"Piece Hash Length Of {length} Is Invalid")

section

variable (hash : Bytes → ShaHash)

def parseInfoDictionary (infoBencode : BencodeRef) : Run ParseError Info := do
  let infoHash := hash infoBencode.buffer.bytes
  let infoDict ← parseRootDict infoBencode.value
  let pieceLen ← parsePieceLength infoDict
  let isPrivate := parsePrivate infoDict
  let pieces ← parsePieces infoDict
  let pieceBuffers ← allocatePieces pieces
  if ← isMultiFileTorrent infoDict then
    let fileDirectory ← parseName infoDict
    let filesBencode ← parseFilesList infoDict
    let filesList ← filesBencode.mapM fun fileBencode => do
      File.asMultiFile (← parseFileDict fileBencode)
    .ok ⟨infoHash, filesList, pieceBuffers, pieceLen, isPrivate, some (.push .new fileDirectory)⟩
  else
    let file ← File.asSingleFile infoDict
    .ok ⟨infoHash, [file], pieceBuffers, pieceLen, isPrivate, none⟩

namespace Info

def fromBytes (bytes : Buffer) : Run ParseError Info := do
  let infoBencode ← mapErr .bencodeParse (BencodeRef.decode bytes .default)
  parseInfoDictionary hash infoBencode

end Info

def parseMetaBytes (bytes : Buffer) : Run ParseError Metainfo := do
  let rootBencode ← mapErr .bencodeParse (BencodeRef.decode bytes .default)
  let rootDict ← parseRootDict rootBencode.value
  let announce := parseAnnounceUrl rootDict
  let announceList := (parseAnnounceList rootDict).map convertAnnounceList
  let comment := parseComment rootDict
  let encoding := parseEncoding rootDict
  let createdBy := parseCreatedBy rootDict
  let creationDate := parseCreationDate rootDict
  let infoBencode ← parseInfoBencode rootBencode
  let info ← parseInfoDictionary hash infoBencode
  .ok ⟨comment, announce, announceList, encoding, createdBy, creationDate, info⟩

namespace Metainfo

def fromBytes (bytes : Buffer) : Run ParseError Metainfo := parseMetaBytes hash bytes

end Metainfo

variable {hash}

variable {info : Info} {r : BencodeRef}

theorem parseInfoDictionary_eq_ok (h : parseInfoDictionary hash r = .ok info) :
    info.infoHash = hash r.buffer.bytes ∧ ∃ infoDict, parsePieceLength infoDict = .ok info.pieceLen := by
  obtain ⟨infoDict, -, h⟩ := bind_eq_ok.mp h
  obtain ⟨pieceLen, hpieceLen, h⟩ := bind_eq_ok.mp h
  obtain ⟨pieces, -, h⟩ := bind_eq_ok.mp h
  obtain ⟨pieceBuffers, -, h⟩ := bind_eq_ok.mp h
  obtain ⟨multi, -, h⟩ := bind_eq_ok.mp h
  cases multi with
  | false =>
    obtain ⟨file, -, h⟩ := bind_eq_ok.mp h
    cases h
    exact ⟨rfl, infoDict, hpieceLen⟩
  | true =>
    obtain ⟨fileDirectory, -, h⟩ := bind_eq_ok.mp h
    obtain ⟨filesBencode, -, h⟩ := bind_eq_ok.mp h
    obtain ⟨filesList, -, h⟩ := bind_eq_ok.mp h
    cases h
    exact ⟨rfl, infoDict, hpieceLen⟩

theorem infoHash_parseInfoDictionary
    (h : parseInfoDictionary hash r = .ok info) : info.infoHash = hash r.buffer.bytes :=
  (parseInfoDictionary_eq_ok h).1

theorem parseUnsigned_le {dict : List (Bytes × Inner)} {key : Bytes} {n : UInt64}
    (h : parseUnsigned dict key = .ok n) : n.toNat ≤ isizeMax := by
  obtain ⟨len, -, h⟩ := bind_eq_ok.mp h
  obtain ⟨k, hk, h⟩ := bind_eq_ok.mp h
  cases h
  unfold tryUint at hk
  split at hk
  · cases hk
    have hlen := len.toInt_lt
    rw [UInt64.toNat_ofNat', isizeMax]
    omega
  · cases hk

variable {bytes : Buffer}

/-- The hash of an info dictionary that was decoded on its own is that of all its bytes, and there
are some. -/
theorem Info.infoHash_fromBytes (h : Info.fromBytes hash bytes = .ok info) :
    info.infoHash = hash bytes.data ∧ bytes.data ≠ [] := by
  obtain ⟨r, hr, hinfo⟩ := bind_eq_ok.mp h
  obtain ⟨next, hread, hfull⟩ := decode_sound (mapErr_eq_ok.mp hr)
  have hlayout := hread.layout
  rw [hfull rfl, List.drop_length, List.append_nil, List.drop_zero] at hlayout
  obtain ⟨first, rest, htext, -⟩ := hread.spelled.exists_cons
  refine ⟨?_, ?_⟩
  · rw [hlayout]
    exact infoHash_parseInfoDictionary hinfo
  · rw [hlayout, htext]
    exact List.cons_ne_nil first rest

variable {metainfo : Metainfo}

theorem Metainfo.pieceLen_le
    (h : Metainfo.fromBytes hash bytes = .ok metainfo) : metainfo.info.pieceLen.toNat ≤ isizeMax := by
  obtain ⟨rootBencode, -, h⟩ := bind_eq_ok.mp h
  obtain ⟨rootDict, -, h⟩ := bind_eq_ok.mp h
  obtain ⟨infoBencode, -, h⟩ := bind_eq_ok.mp h
  obtain ⟨info, hinfo, h⟩ := bind_eq_ok.mp h
  cases h
  obtain ⟨-, infoDict, hlen⟩ := parseInfoDictionary_eq_ok hinfo
  exact parseUnsigned_le hlen

variable (hash) in
/-- A metainfo as a program can hold it: read from a metainfo file, or made from an info dictionary that
was read. -/
def Metainfo.Parsed (metainfo : Metainfo) : Prop :=
  (∃ bytes, Metainfo.fromBytes hash bytes = .ok metainfo) ∨
    ∃ bytes info, Info.fromBytes hash bytes = .ok info ∧ metainfo = .ofInfo info

theorem Metainfo.Parsed.pieceLen_le (h : metainfo.Parsed hash) : metainfo.info.pieceLen.toNat ≤ isizeMax := by
  rcases h with ⟨bytes, hbytes⟩ | ⟨bytes, info, hinfo, rfl⟩
  · exact Metainfo.pieceLen_le hbytes
  · obtain ⟨r, -, hr⟩ := bind_eq_ok.mp hinfo
    obtain ⟨-, infoDict, hlen⟩ := parseInfoDictionary_eq_ok hr
    exact parseUnsigned_le hlen

end

end BitTorrent.Meta
