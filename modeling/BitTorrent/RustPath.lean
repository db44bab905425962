import BitTorrent.RustText
import Mathlib.Data.List.Basic

/-! Paths and their components. The bytes of a path are split at the separators; empty pieces are
skipped, and so is a `.` unless a relative path begins with it. Resolving a path lexically lets every
`..` take away the name before it. A path lies inside a directory if, resolved, it is that directory
followed by names only. -/

namespace BitTorrent.Rust

open List

inductive Component where
  | rootDir
  | curDir
  | parentDir
  | normal (name : Bytes)
  deriving DecidableEq

namespace PathBuf

def curDirName : Bytes := ascii "."

def parentDirName : Bytes := ascii ".."

def isAbsolute (path : PathBuf) : Bool := path.inner.head? = some separator

/-- The component of a piece that is not the first one. -/
def parsePiece (piece : Bytes) : Option Component :=
  if piece = [] ∨ piece = curDirName then none
  else if piece = parentDirName then some .parentDir
  else some (.normal piece)

/-- The components other than the root and a leading `.`. -/
def steps (path : PathBuf) : List Component := (path.inner.splitOn separator).filterMap parsePiece

def components (path : PathBuf) : List Component :=
  if path.isAbsolute then .rootDir :: path.steps
  else if (path.inner.splitOn separator).head? = some curDirName then .curDir :: path.steps
  else path.steps

end PathBuf

namespace Component

def asOsStr : Component → Bytes
  | .rootDir => [PathBuf.separator]
  | .curDir => PathBuf.curDirName
  | .parentDir => PathBuf.parentDirName
  | .normal name => name

def IsNormal : Component → Prop
  | .normal _ => True
  | _ => False

instance : DecidablePred IsNormal
  | .normal _ => isTrue trivial
  | .rootDir => isFalse id
  | .curDir => isFalse id
  | .parentDir => isFalse id

/-- One component, resolved against those before it, the last one first. The parent of the root is the
root; a relative path may begin with any number of `..`. -/
def resolve (absolute : Bool) (stack : List Component) : Component → List Component
  | .rootDir => stack
  | .curDir => stack
  | .normal name => .normal name :: stack
  | .parentDir =>
    match stack with
    | .normal _ :: rest => rest
    | [] => if absolute then [] else [.parentDir]
    | stack => .parentDir :: stack

end Component

namespace PathBuf

/-- `for piece in path` -/
def iter (path : PathBuf) : List Bytes := path.components.map Component.asOsStr

/-- The resolved components, the last one first. -/
def stack (path : PathBuf) : List Component :=
  path.components.foldl (Component.resolve path.isAbsolute) []

/-- Resolved, the path is the directory followed by names only. -/
def Inside (dir path : PathBuf) : Prop :=
  path.isAbsolute = dir.isAbsolute ∧
    dir.stack.reverse <+: path.stack.reverse ∧
    ∀ c ∈ path.stack.reverse.drop dir.stack.length, c.IsNormal

instance (dir path : PathBuf) : Decidable (Inside dir path) :=
  inferInstanceAs (Decidable (_ ∧ _ ∧ ∀ c ∈ _, _))

theorem stack_eq (path : PathBuf) : path.stack = path.steps.foldl (Component.resolve path.isAbsolute) [] := by
  rw [stack, components]
  split
  · rfl
  · split <;> rfl

/-! ### Pushing a name -/

/-- A text that is one component of a path. -/
structure IsName (name : Bytes) : Prop where
  ne_nil : name ≠ []
  no_separator : separator ∉ name

variable {name : Bytes}

theorem IsName.head?_ne (h : IsName name) : name.head? ≠ some separator := fun hhead =>
  h.no_separator (mem_of_mem_head? hhead)

theorem IsName.splitOn (h : IsName name) : name.splitOn separator = [name] :=
  splitOn_eq_singleton h.no_separator

variable {dir : PathBuf}

theorem isAbsolute_join (h : IsName name) : (dir.join ⟨name⟩).isAbsolute = dir.isAbsolute := by
  obtain ⟨inner⟩ := dir
  cases inner with
  | nil => simp [join, isAbsolute, h.head?_ne]
  | cons b rest =>
    rw [join, if_neg h.head?_ne]
    split <;> rfl

theorem join_nil : join ⟨[]⟩ ⟨name⟩ = ⟨name⟩ := by
  simp [join]

theorem join_concat {init : Bytes} {last : UInt8} (h : IsName name) : join ⟨init ++ [last]⟩ ⟨name⟩ =
      if last = separator then ⟨init ++ separator :: name⟩ else ⟨init ++ [last] ++ separator :: name⟩ := by
  rw [join, if_neg h.head?_ne]
  by_cases hlast : last = separator
  · simp [hlast]
  · simp [hlast]

theorem steps_join (h : IsName name) : (dir.join ⟨name⟩).steps = dir.steps ++ (parsePiece name).toList := by
  obtain ⟨inner⟩ := dir
  have hname : (name.splitOn separator).filterMap parsePiece = (parsePiece name).toList := by
    rw [h.splitOn]
    cases hpiece : parsePiece name <;> simp [hpiece]
  rcases inner.eq_nil_or_concat with rfl | ⟨init, last, rfl⟩
  · rw [join_nil, steps, hname]
    rfl
  · rw [concat_eq_append, join_concat h]
    split
    · rename_i hlast
      rw [hlast, steps, steps, splitOn_append_cons_self, splitOn_append_cons_self,
        filterMap_append, filterMap_append, hname, append_assoc]
      rfl
    · rw [steps, steps, splitOn_append_cons_self, filterMap_append, hname]

/-- Names pushed one after another. -/
def pushAll (dir : PathBuf) (names : List Bytes) : PathBuf :=
  names.foldl (fun buf name => buf.join ⟨name⟩) dir

theorem stack_pushAll {names : List Bytes} (h : ∀ name ∈ names, IsName name) :
    (dir.pushAll names).isAbsolute = dir.isAbsolute ∧ (dir.pushAll names).stack =
        (names.filterMap parsePiece).foldl (Component.resolve dir.isAbsolute) dir.stack := by
  induction names generalizing dir with
  | nil => exact ⟨rfl, rfl⟩
  | cons name names ih =>
    obtain ⟨hname, hnames⟩ := forall_mem_cons.mp h
    obtain ⟨habs, hstack⟩ := @ih (dir.join ⟨name⟩) hnames
    refine ⟨habs.trans (isAbsolute_join hname), ?_⟩
    rw [pushAll, foldl_cons, ← pushAll, hstack, isAbsolute_join hname, stack_eq, isAbsolute_join hname,
      steps_join hname, foldl_append, ← stack_eq]
    cases hpiece : parsePiece name with
    | none => simp [hpiece]
    | some c => simp [hpiece]

/-! ### The names of a path -/

variable {piece : Bytes}

theorem not_mem_of_mem_splitOn {l : Bytes} (h : piece ∈ l.splitOn separator) : separator ∉ piece := by
  induction hn : l.length using Nat.strong_induction_on generalizing l with
  | _ n ih =>
    by_cases hmem : separator ∈ l
    · obtain ⟨init, rest, rfl, hinit⟩ := eq_append_cons_of_mem hmem
      rw [splitOn_append_cons_self, splitOn_eq_singleton hinit, singleton_append,
        mem_cons] at h
      rcases h with rfl | h
      · exact hinit
      · refine ih rest.length ?_ h rfl
        rw [← hn, length_append, length_cons]
        omega
    · rw [splitOn_eq_singleton hmem, mem_singleton] at h
      exact h ▸ hmem

theorem parsePiece_eq_some {c : Component} (h : parsePiece piece = some c) :
    piece ≠ [] ∧ c.asOsStr = piece := by
  unfold parsePiece at h
  split at h
  · cases h
  · rename_i hskip
    refine ⟨fun hnil => hskip (.inl hnil), ?_⟩
    split at h
    · rename_i hparent
      cases h
      exact hparent.symm
    · cases h
      rfl

variable {path : PathBuf}

theorem isName_of_mem_iter (h : path.isAbsolute = false) : ∀ name ∈ path.iter, IsName name := by
  have hsteps : ∀ c ∈ path.steps, IsName c.asOsStr := by
    intro c hc
    obtain ⟨piece, hpiece, hparse⟩ := mem_filterMap.mp hc
    obtain ⟨hne, hname⟩ := parsePiece_eq_some hparse
    rw [hname]
    exact ⟨hne, not_mem_of_mem_splitOn hpiece⟩
  intro name hname
  obtain ⟨c, hc, rfl⟩ := mem_map.mp hname
  rw [components, h, if_neg Bool.false_ne_true] at hc
  split at hc
  · rcases mem_cons.mp hc with rfl | hc
    · exact ⟨by decide, by decide⟩
    · exact hsteps c hc
  · exact hsteps c hc

theorem filterMap_iter (h : path.isAbsolute = false) : path.iter.filterMap parsePiece = path.steps := by
  have hsteps : (path.steps.map Component.asOsStr).filterMap parsePiece = path.steps := by
    rw [filterMap_map]
    refine (filterMap_congr (g := some) fun c hc => ?_).trans filterMap_some
    obtain ⟨piece, hpiece, hparse⟩ := mem_filterMap.mp hc
    rw [Function.comp_apply, (parsePiece_eq_some hparse).2, hparse]
  rw [iter, components, h, if_neg Bool.false_ne_true]
  split
  · rw [map_cons, filterMap_cons, hsteps]
    rfl
  · exact hsteps

/-! ### Staying below a directory -/

/-- From a place that is `depth` names below where it started, a sequence of components never goes above
the start. -/
def Stays : Nat → List Component → Prop
  | _, [] => True
  | depth, .normal _ :: rest => Stays (depth + 1) rest
  | depth, .parentDir :: rest => 0 < depth ∧ Stays (depth - 1) rest
  | depth, _ :: rest => Stays depth rest

instance decidableStays : (depth : Nat) → (l : List Component) → Decidable (Stays depth l)
  | _, [] => isTrue trivial
  | depth, .normal _ :: rest => decidableStays (depth + 1) rest
  | depth, .parentDir :: rest =>
    have := decidableStays (depth - 1) rest
    inferInstanceAs (Decidable (0 < depth ∧ Stays (depth - 1) rest))
  | depth, .rootDir :: rest => decidableStays depth rest
  | depth, .curDir :: rest => decidableStays depth rest

/-- A relative path that never goes above where it starts. -/
def Confined (path : PathBuf) : Prop := path.isAbsolute = false ∧ Stays 0 path.steps

section

variable {cs names base top : List Component}

/-- While it stays below, what was there before is not touched. -/
theorem foldl_resolve_of_stays (absolute : Bool) (h : Stays names.length cs)
    (hnames : ∀ c ∈ names, c.IsNormal) : ∃ names', (∀ c ∈ names', c.IsNormal) ∧
      cs.foldl (Component.resolve absolute) (names ++ base) = names' ++ base := by
  induction cs generalizing names with
  | nil => exact ⟨names, hnames, rfl⟩
  | cons c cs ih =>
    cases c with
    | rootDir => exact ih h hnames
    | curDir => exact ih h hnames
    | normal name => exact @ih (.normal name :: names) h (forall_mem_cons.mpr ⟨trivial, hnames⟩)
    | parentDir =>
      cases names with
      | nil => exact absurd h.1 (Nat.lt_irrefl 0)
      | cons last names =>
        obtain ⟨hlast, hrest⟩ := forall_mem_cons.mp hnames
        cases last with
        | normal name => exact ih h.2 hrest
        | _ => exact hlast.elim

theorem foldl_resolve_parentDir :
    ∃ top', cs.foldl (Component.resolve false) (top ++ [.parentDir]) = top' ++ [.parentDir] := by
  induction cs generalizing top with
  | nil => exact ⟨top, rfl⟩
  | cons c cs ih =>
    cases c with
    | rootDir => exact ih
    | curDir => exact ih
    | normal name => exact @ih (.normal name :: top)
    | parentDir =>
      rcases top with _ | ⟨(_ | _ | _ | name), top⟩
      · exact @ih [.parentDir]
      · exact @ih (.parentDir :: .rootDir :: top)
      · exact @ih (.parentDir :: .curDir :: top)
      · exact @ih (.parentDir :: .parentDir :: top)
      · exact ih

theorem foldl_resolve_of_not_stays (h : ¬ Stays names.length cs) (hnames : ∀ c ∈ names, c.IsNormal) :
    ∃ top, cs.foldl (Component.resolve false) names = top ++ [.parentDir] := by
  induction cs generalizing names with
  | nil => exact absurd trivial h
  | cons c cs ih =>
    cases c with
    | rootDir => exact ih h hnames
    | curDir => exact ih h hnames
    | normal name => exact @ih (.normal name :: names) h (forall_mem_cons.mpr ⟨trivial, hnames⟩)
    | parentDir =>
      cases names with
      | nil => exact @foldl_resolve_parentDir cs []
      | cons last names =>
        obtain ⟨hlast, hrest⟩ := forall_mem_cons.mp hnames
        cases last with
        | normal name => exact @ih names (fun hstays => h ⟨Nat.succ_pos _, hstays⟩) hrest
        | _ => exact hlast.elim

end

theorem inside_of_confined (dir : PathBuf) (h : path.Confined) : Inside dir (dir.pushAll path.iter) := by
  obtain ⟨hrelative, hstays⟩ := h
  obtain ⟨habsolute, hstack⟩ := @stack_pushAll dir path.iter (isName_of_mem_iter hrelative)
  obtain ⟨names, hnames, hresolved⟩ :=
    @foldl_resolve_of_stays path.steps [] dir.stack dir.isAbsolute hstays nofun
  rw [filterMap_iter hrelative] at hstack
  rw [nil_append] at hresolved
  have hreverse : (dir.pushAll path.iter).stack.reverse =
      dir.stack.reverse ++ names.reverse := by
    rw [hstack, hresolved, reverse_append]
  refine ⟨habsolute, hreverse ▸ prefix_append _ _, ?_⟩
  intro c hc
  rw [hreverse, ← length_reverse, drop_left] at hc
  exact hnames c (mem_reverse.mp hc)

theorem not_inside_of_not_stays (hrelative : path.isAbsolute = false) (h : ¬ Stays 0 path.steps) :
    ¬ Inside ⟨curDirName⟩ (pushAll ⟨curDirName⟩ path.iter) := by
  obtain ⟨-, hstack⟩ := @stack_pushAll ⟨curDirName⟩ path.iter (isName_of_mem_iter hrelative)
  obtain ⟨top, htop⟩ := @foldl_resolve_of_not_stays path.steps [] h nofun
  rw [filterMap_iter hrelative] at hstack
  have hparent : (pushAll ⟨curDirName⟩ path.iter).stack =
      top ++ [.parentDir] := hstack.trans htop
  rintro ⟨-, -, hnormal⟩
  refine hnormal .parentDir ?_
  rw [hparent, reverse_append]
  exact mem_cons_self

end PathBuf

end BitTorrent.Rust
