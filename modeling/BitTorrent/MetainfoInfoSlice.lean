import BitTorrent.Metainfo

/-! The two ways to an info dictionary: inside a metainfo file, and on its own as peers exchange it. The
bytes that the decoder kept for the value of the info key decode on their own to the same value, and the
hash of a torrent is that of these bytes. -/

namespace BitTorrent.Meta

open Rust Bencode OrderedMap

variable {hash : Bytes → ShaHash}

theorem parseInfoDictionary_congr {r r' : BencodeRef} (h : r.Eqv r') :
    parseInfoDictionary hash r = parseInfoDictionary hash r' := by
  have hbytes : r.buffer.bytes = r'.buffer.bytes := h.text_eq
  rw [parseInfoDictionary, parseInfoDictionary, hbytes, h.value_eq]

theorem parseInfoBencode_eq_ok {root r : BencodeRef} : parseInfoBencode root = .ok r ↔
      ∃ rootDict slice, root = .dict rootDict slice ∧ lookup rootDict infoKey = some r := by
  cases root with
  | dict rootDict slice =>
    rw [parseInfoBencode]
    cases hlookup : lookup rootDict infoKey with
    | none =>
      constructor
      · intro h
        cases h
      · rintro ⟨d, s, heq, hd⟩
        cases heq
        rw [hlookup] at hd
        cases hd
    | some info =>
      constructor
      · intro h
        cases h
        exact ⟨rootDict, slice, rfl, hlookup⟩
      · rintro ⟨d, s, heq, hd⟩
        cases heq
        rw [hlookup] at hd
        cases hd
        rfl
  | _ =>
    constructor
    · intro h
      cases h
    · rintro ⟨d, s, heq, -⟩
      cases heq

/-- What is kept of an accepted metainfo file: its root, and the info dictionary found there. -/
theorem Metainfo.fromBytes_eq_ok {bytes : Buffer} {metainfo : Metainfo}
    (h : Metainfo.fromBytes hash bytes = .ok metainfo) :
    ∃ rootDict slice infoBencode, BencodeRef.decode bytes .default = .ok (.dict rootDict slice) ∧
      lookup rootDict infoKey = some infoBencode ∧
      parseInfoDictionary hash infoBencode = .ok metainfo.info := by
  obtain ⟨root, hroot, h⟩ := bind_eq_ok.mp h
  obtain ⟨rootDict, -, h⟩ := bind_eq_ok.mp h
  obtain ⟨infoBencode, hinfoBencode, h⟩ := bind_eq_ok.mp h
  obtain ⟨info, hinfo, h⟩ := bind_eq_ok.mp h
  cases h
  obtain ⟨d, slice, rfl, hlookup⟩ := parseInfoBencode_eq_ok.mp hinfoBencode
  exact ⟨d, slice, infoBencode, mapErr_eq_ok.mp hroot, hlookup, hinfo⟩

theorem decode_entry {bytes : Buffer} {opts : BDecodeOpt} {d : List (Bytes × BencodeRef)} {slice : Slice}
    {key : Bytes} {r : BencodeRef} (h : BencodeRef.decode bytes opts = .ok (.dict d slice))
    (hlookup : lookup d key = some r) : InBuffer bytes.data r.buffer ∧
      ∃ own : Buffer, own.data = r.buffer.bytes ∧ ∃ r', BencodeRef.decode own opts = .ok r' ∧ r'.Eqv r := by
  have hnested : Nested (.dict d slice) r :=
    .single (List.mem_map_of_mem (mem_of_lookup hlookup))
  obtain ⟨next, hread, -⟩ := decode_sound h
  obtain ⟨j, hj, hspelled⟩ := hread.spelled.of_nested hnested
  cases hread.located.of_nested hnested with
  | intro inBuffer _ _ _ =>
    have hfits : r.buffer.bytes.length ≤ isizeMax := by
      rw [inBuffer.2, List.length_drop, List.length_take]
      exact (Nat.sub_le _ _).trans ((Nat.min_le_right _ _).trans bytes.fits)
    obtain ⟨r', hr', heqv, -⟩ := hspelled.decode_complete ⟨r.buffer.bytes, hfits⟩ []
      (List.append_nil _).symm (fun _ => rfl) hj id
    exact ⟨inBuffer, ⟨r.buffer.bytes, hfits⟩, rfl, r', hr', heqv⟩

/-- Stands for the hash function in examples. -/
def lengthHash (bytes : Bytes) : ShaHash :=
  ⟨List.replicate shaHashLen (UInt8.ofNat bytes.length), List.length_replicate⟩

def emptyFileTorrent : Buffer where
  data := ascii "d4:infod6:lengthi0e4:name1:a12:piece lengthi4e6:pieces0:ee"
  fits := by decide +kernel

def emptyFile : Metainfo := .ofInfo
  { infoHash := ⟨List.replicate shaHashLen 50, List.length_replicate⟩
    files := [⟨0, ⟨ascii "a"⟩, none⟩]
    pieces := []
    pieceLen := 4
    isPrivate := none
    fileDirectory := none }

/-- The bytes of the info key in an accepted metainfo file are accepted on their own, as the same info
dictionary, and the hash of the torrent is theirs. -/
theorem info_slice_reread {bytes : Buffer} {metainfo : Metainfo}
    (h : Metainfo.fromBytes hash bytes = .ok metainfo) :
    ∃ rootDict slice infoBencode, BencodeRef.decode bytes .default = .ok (.dict rootDict slice) ∧
      lookup rootDict infoKey = some infoBencode ∧
      InBuffer bytes.data infoBencode.buffer ∧
      ∃ own : Buffer, own.data = infoBencode.buffer.bytes ∧
        Info.fromBytes hash own = .ok metainfo.info ∧ metainfo.info.infoHash = hash own.data := by
  obtain ⟨rootDict, slice, infoBencode, hroot, hlookup, hinfo⟩ := Metainfo.fromBytes_eq_ok h
  obtain ⟨hin, own, hown, r, hr, heqv⟩ := decode_entry hroot hlookup
  refine ⟨rootDict, slice, infoBencode, hroot, hlookup, hin, own, hown, ?_, ?_⟩
  · rw [Info.fromBytes, mapErr_eq_ok.mpr hr, ok_bind, parseInfoDictionary_congr heqv, hinfo]
  · rw [hown]
    exact infoHash_parseInfoDictionary hinfo

theorem info_slice_reread_emptyFile :
    ∃ rootDict slice infoBencode,
      BencodeRef.decode emptyFileTorrent .default = .ok (.dict rootDict slice) ∧
      lookup rootDict infoKey = some infoBencode ∧
      InBuffer emptyFileTorrent.data infoBencode.buffer ∧
      ∃ own : Buffer, own.data = infoBencode.buffer.bytes ∧
        Info.fromBytes lengthHash own = .ok emptyFile.info ∧ emptyFile.info.infoHash = lengthHash own.data := by
  have haccepted : Metainfo.fromBytes lengthHash emptyFileTorrent = .ok emptyFile := by decide +kernel
  exact info_slice_reread haccepted

end BitTorrent.Meta
