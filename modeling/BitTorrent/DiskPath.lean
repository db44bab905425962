import BitTorrent.RustPath
import BitTorrent.DiskFileSystem

/-! Where the files of a torrent are opened. The names in a metainfo file are pushed onto a path, that
path is joined with the directory of the torrent, and the native file system combines the result with
its own directory. An absolute path replaces what is there in each of these places, and a `..` is passed
on in all of them, so a file lies inside the directory for every choice of it only if its path has
neither at its start. -/

namespace BitTorrent.Disk

open Rust Meta

structure NativeFileSystem where
  currentDir : PathBuf

def NativeFileSystem.withDirectory (default : PathBuf) : NativeFileSystem := ⟨default⟩

def combineUserPath (userPath currentDir : PathBuf) : PathBuf :=
  if userPath.isAbsolute then userPath
  else currentDir.pushAll userPath.iter

/-- The path that `open_file` creates or opens. -/
def NativeFileSystem.openedPath (fs : NativeFileSystem) (path : PathBuf) : PathBuf :=
  combineUserPath path fs.currentDir

theorem inside_openedPath_iff (path : PathBuf) :
    (∀ dir, PathBuf.Inside dir ((NativeFileSystem.withDirectory dir).openedPath path)) ↔ path.Confined := by
  constructor
  · intro h
    have hcur := h ⟨PathBuf.curDirName⟩
    simp only [NativeFileSystem.openedPath, combineUserPath] at hcur
    cases hrelative : path.isAbsolute with
    | true =>
      -- the path is opened as it is, and it is absolute where the directory is not
      rw [hrelative, if_pos rfl] at hcur
      exact absurd (hrelative.symm.trans hcur.1) (by decide)
    | false =>
      rw [hrelative, if_neg Bool.false_ne_true] at hcur
      refine ⟨hrelative, ?_⟩
      by_contra hstays
      exact PathBuf.not_inside_of_not_stays hrelative hstays hcur
  · intro h dir
    simp only [NativeFileSystem.openedPath, combineUserPath]
    rw [h.1, if_neg Bool.false_ne_true]
    exact PathBuf.inside_of_confined dir h

/-- A metainfo file with one path that climbs out of its directory and one that is absolute. -/
def escapingTorrent : Buffer where
  data := ascii "d4:infod5:filesld6:lengthi1e4:pathl2:..2:..1:xeed6:lengthi1e4:pathl6:/etc/xeee" ++
    ascii "4:name1:d12:piece lengthi2e6:pieces20:aaaaaaaaaaaaaaaaaaaaee"
  fits := by decide +kernel

def escapingMetainfo : Metainfo := .ofInfo
  { infoHash := .fill 0
    files := [⟨1, ⟨ascii "../../x"⟩, none⟩, ⟨1, ⟨ascii "/etc/x"⟩, none⟩]
    pieces := [Vector.replicate 20 97]
    pieceLen := 2
    isPrivate := none
    fileDirectory := some ⟨ascii "d"⟩ }

/-- The files of a torrent are opened inside the directory, whichever it is, if and only if their paths
are relative and never go above where they start. -/
theorem opened_inside_iff_confined (metainfo : Metainfo) :
    (∀ dir, ∀ file ∈ metainfo.info.files, PathBuf.Inside dir
        ((NativeFileSystem.withDirectory dir).openedPath
          (buildPath metainfo.info.fileDirectory file))) ↔
      ∀ file ∈ metainfo.info.files, (buildPath metainfo.info.fileDirectory file).Confined := by
  constructor
  · intro h file hfile
    rw [← inside_openedPath_iff]
    exact fun dir => h dir file hfile
  · intro h dir file hfile
    exact (inside_openedPath_iff _).mpr (h file hfile) dir

/-- An accepted metainfo file both of whose files are opened outside. -/
theorem escapingTorrent_not_inside :
    Metainfo.fromBytes (fun _ => escapingMetainfo.info.infoHash) escapingTorrent =
        .ok escapingMetainfo ∧
      ∀ file ∈ escapingMetainfo.info.files, ¬ PathBuf.Inside ⟨ascii "/home/downloads"⟩
        ((NativeFileSystem.withDirectory ⟨ascii "/home/downloads"⟩).openedPath
          (buildPath escapingMetainfo.info.fileDirectory file)) := by
  decide +kernel

end BitTorrent.Disk
