import BitTorrent.RustIo
import BitTorrent.RustNom
import BitTorrent.Segments
import BitTorrent.Metainfo

/-! File systems as the disk manager uses them, and the one that the results are about: every path has
at most one file, a file is its bytes, reads and writes are complete, and some paths cannot be
opened. -/

namespace BitTorrent.Disk

open Rust Segments

/-- The trait `FileSystem`. A read puts the bytes it returns at the front of a buffer of the given
length. -/
structure FileSystem (σ File ε : Type) where
  openFile (path : PathBuf) : Io σ ε File
  syncFile (path : PathBuf) : Io σ ε Unit
  fileSize (file : File) : Io σ ε Nat
  readFile (file : File) (offset length : Nat) : Io σ ε Bytes
  writeFile (file : File) (offset : Nat) (buffer : Bytes) : Io σ ε Nat

def buildPath (parentDirectory : Option PathBuf) (file : Meta.File) : PathBuf :=
  match parentDirectory with
  | none => file.path
  | some dir => dir.join file.path

/-! ### Files in memory -/

inductive IoError where
  | refused (path : PathBuf)
  deriving DecidableEq

structure Volume where
  files : PathBuf → Option Bytes
  refused : PathBuf → Bool

/-- The bytes of a file after a write: one past the end fills the gap with zeros, and one of nothing
changes nothing. -/
def writeBytes (bytes : Bytes) (offset : Nat) (buffer : Bytes) : Bytes :=
  if buffer = [] then bytes
  else overwrite (bytes ++ List.replicate (offset + buffer.length - bytes.length) 0) offset buffer

namespace Volume

def bytes (v : Volume) (path : PathBuf) : Bytes := (v.files path).getD []

def put (v : Volume) (path : PathBuf) (bytes : Bytes) : Volume :=
  { v with files := Function.update v.files path (some bytes) }

def fileSystem : FileSystem Volume PathBuf IoError where
  openFile path := ⟨fun v =>
    if v.refused path then (fail (.refused path), v) else (.ok path, v.put path (v.bytes path))⟩
  syncFile _ := pure ()
  fileSize path := ⟨fun v => (.ok (v.bytes path).length, v)⟩
  readFile path offset length := ⟨fun v => (.ok (window (v.bytes path) offset length), v)⟩
  writeFile path offset buffer := ⟨fun v =>
    (.ok buffer.length, v.put path (writeBytes (v.bytes path) offset buffer))⟩

variable {v : Volume} {path path' : PathBuf} {bytes : Bytes}

@[simp] theorem bytes_put_self : (v.put path bytes).bytes path = bytes := by
  simp [put, Volume.bytes]

theorem bytes_put_of_ne (h : path' ≠ path) : (v.put path bytes).bytes path' = v.bytes path' := by
  simp [put, Volume.bytes, h]

theorem files_put_of_ne (h : path' ≠ path) : (v.put path bytes).files path' = v.files path' := by
  simp [put, h]

@[simp] theorem files_put_self : (v.put path bytes).files path = some bytes := by
  simp [put]

@[simp] theorem refused_put : (v.put path bytes).refused = v.refused := rfl

theorem bytes_of_files (h : v.files path = some bytes) : v.bytes path = bytes := by
  rw [Volume.bytes, h, Option.getD_some]

theorem put_of_files (h : v.files path = some bytes) : v.put path bytes = v := by
  rw [put, ← h, Function.update_eq_self]

theorem put_put {bytes' : Bytes} : (v.put path bytes).put path bytes' = v.put path bytes' := by
  simp [put, Function.update_idem]

theorem openFile_of_files (hopen : v.refused path = false) (h : v.files path = some bytes) :
    (fileSystem.openFile path).run v = (.ok path, v) := by
  change (if v.refused path then _ else _) = _
  rw [hopen, bytes_of_files h, put_of_files h]
  rfl

end Volume

theorem writeBytes_of_le {bytes buffer : Bytes} {offset : Nat} (h : offset + buffer.length ≤ bytes.length) :
    writeBytes bytes offset buffer = overwrite bytes offset buffer := by
  unfold writeBytes
  split
  · rename_i hnil
    rw [hnil, overwrite_nil]
  · rw [Nat.sub_eq_zero_of_le h, List.replicate_zero, List.append_nil]

end BitTorrent.Disk
