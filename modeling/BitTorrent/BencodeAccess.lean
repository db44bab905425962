import BitTorrent.BencodeRoundTrip

/-! Building and reading bencode. Messages are built as dictionaries by inserting one entry after the
other, and read by looking up a key and casting the value found there. A dictionary built from entries
with distinct keys reads back as those entries. -/

namespace BitTorrent.Bencode

open Rust List Bencode.Inner OrderedMap

/-! ### Reading -/

namespace Inner

def asInt : Inner → Option Int64
  | .int n => some n
  | _ => none

def asBytes : Inner → Option Bytes
  | .bytes b => some b
  | _ => none

def asStr : Inner → Option Str
  | .bytes b => if h : isUtf8 b = true then some ⟨b, h⟩ else none
  | _ => none

def asList : Inner → Option (List Inner)
  | .list l => some l
  | _ => none

def asDict : Inner → Option (List (Bytes × Inner))
  | .dict d => some d
  | _ => none

end Inner

inductive BencodeConvertError where
  | missingKey (key : Bytes)
  | wrongType (key : Bytes) (expectedType : String)
  deriving DecidableEq

section

variable {ε α : Type} (handleError : BencodeConvertError → ε)

/-- The cast of a value, with the error that names the key it was found under. -/
def convert (expectedType : String) (cast : Inner → Option α) (bencode : Inner) (errorKey : Bytes) :
    Run ε α :=
  match cast bencode with
  | some a => .ok a
  | none => fail (handleError (.wrongType errorKey expectedType))

def convertInt (bencode : Inner) (errorKey : Bytes) : Run ε Int64 :=
  convert handleError "Integer" asInt bencode errorKey

def convertBytes (bencode : Inner) (errorKey : Bytes) : Run ε Bytes :=
  convert handleError "Bytes" asBytes bencode errorKey

def convertStr (bencode : Inner) (errorKey : Bytes) : Run ε Str :=
  convert handleError "UTF-8 Bytes" asStr bencode errorKey

def convertList (bencode : Inner) (errorKey : Bytes) : Run ε (List Inner) :=
  convert handleError "List" asList bencode errorKey

def convertDict (bencode : Inner) (errorKey : Bytes) : Run ε (List (Bytes × Inner)) :=
  convert handleError "Dictionary" asDict bencode errorKey

def lookup (dictionary : List (Bytes × Inner)) (key : Bytes) : Run ε Inner :=
  match OrderedMap.lookup dictionary key with
  | some value => .ok value
  | none => fail (handleError (.missingKey key))

def lookupAndConvertInt (dictionary : List (Bytes × Inner)) (key : Bytes) : Run ε Int64 := do
  convertInt handleError (← lookup handleError dictionary key) key

def lookupAndConvertBytes (dictionary : List (Bytes × Inner)) (key : Bytes) : Run ε Bytes := do
  convertBytes handleError (← lookup handleError dictionary key) key

def lookupAndConvertStr (dictionary : List (Bytes × Inner)) (key : Bytes) : Run ε Str := do
  convertStr handleError (← lookup handleError dictionary key) key

def lookupAndConvertList (dictionary : List (Bytes × Inner)) (key : Bytes) : Run ε (List Inner) := do
  convertList handleError (← lookup handleError dictionary key) key

def lookupAndConvertDict (dictionary : List (Bytes × Inner)) (key : Bytes) :
    Run ε (List (Bytes × Inner)) := do
  convertDict handleError (← lookup handleError dictionary key) key

end

variable {v : Inner} {l : List Inner}

section

variable {ε : Type} {handleError : BencodeConvertError → ε} {d : List (Bytes × Inner)} {key : Bytes}

theorem lookup_of_eq_some (h : OrderedMap.lookup d key = some v) : lookup handleError d key = .ok v := by
  rw [lookup, h]

theorem lookup_of_eq_none (h : OrderedMap.lookup d key = none) :
    lookup handleError d key = fail (handleError (.missingKey key)) := by
  rw [lookup, h]

variable {n : Int64}

theorem lookupAndConvertInt_eq (h : OrderedMap.lookup d key = some (.int n)) :
    lookupAndConvertInt handleError d key = .ok n := by
  rw [lookupAndConvertInt, lookup_of_eq_some h]
  rfl

theorem lookup_convert_eq_ok {α : Type} {expectedType : String} {cast : Inner → Option α} {a : α} :
    (lookup handleError d key >>= fun value => convert handleError expectedType cast value key) = .ok a ↔
      ∃ value, OrderedMap.lookup d key = some value ∧ cast value = some a := by
  cases hlookup : OrderedMap.lookup d key with
  | none =>
    rw [lookup_of_eq_none hlookup]
    constructor
    · intro h
      cases h
    · rintro ⟨value, hvalue, -⟩
      cases hvalue
  | some value =>
    rw [lookup_of_eq_some hlookup, ok_bind, convert]
    cases hcast : cast value with
    | none =>
      constructor
      · intro h
        cases h
      · rintro ⟨value', hvalue, ha⟩
        cases hvalue
        rw [hcast] at ha
        cases ha
    | some b =>
      constructor
      · intro h
        cases h
        exact ⟨value, rfl, hcast⟩
      · rintro ⟨value', hvalue, ha⟩
        cases hvalue
        rw [hcast] at ha
        cases ha
        rfl

theorem Inner.asInt_eq_some : v.asInt = some n ↔ v = .int n := by
  cases v <;> simp [asInt]

variable {b : Bytes}

theorem Inner.asBytes_eq_some : v.asBytes = some b ↔ v = .bytes b := by
  cases v <;> simp [asBytes]

variable {s : Str}

theorem Inner.asStr_eq_some : v.asStr = some s ↔ v = .bytes s.bytes := by
  cases v with
  | bytes b =>
    rw [asStr]
    split
    · constructor
      · intro h
        cases h
        rfl
      · intro h
        cases h
        rfl
    · rename_i hutf8
      constructor
      · intro h
        cases h
      · intro h
        cases h
        exact absurd s.utf8 hutf8
  | _ => simp [asStr]

theorem Inner.asList_eq_some : v.asList = some l ↔ v = .list l := by
  cases v <;> simp [asList]

variable {d' : List (Bytes × Inner)} {value : Inner}

theorem convertDict_eq_ok : convertDict handleError value key = .ok d' ↔ value = .dict d' := by
  cases value with
  | dict d'' => exact ⟨fun h => congrArg _ (Except.ok.inj h), fun h => congrArg _ (dict.inj h)⟩
  | _ => exact ⟨fun h => (by cases h), fun h => (by cases h)⟩

theorem convertInt_eq_ok : convertInt handleError value key = .ok n ↔ value = .int n := by
  cases value with
  | int n' => exact ⟨fun h => congrArg _ (Except.ok.inj h), fun h => congrArg _ (int.inj h)⟩
  | _ => exact ⟨fun h => (by cases h), fun h => (by cases h)⟩

theorem convertStr_eq_ok : convertStr handleError value key = .ok s ↔ value = .bytes s.bytes := by
  rw [convertStr, convert, ← asStr_eq_some]
  cases value.asStr with
  | none => exact ⟨fun h => (by cases h), fun h => (by cases h)⟩
  | some s' => exact ⟨fun h => congrArg _ (Except.ok.inj h), fun h => congrArg _ (Option.some.inj h)⟩

theorem lookupAndConvertInt_eq_ok :
    lookupAndConvertInt handleError d key = .ok n ↔ OrderedMap.lookup d key = some (.int n) := by
  refine lookup_convert_eq_ok.trans ?_
  simp only [asInt_eq_some, exists_eq_right]

theorem lookupAndConvertBytes_eq_ok :
    lookupAndConvertBytes handleError d key = .ok b ↔ OrderedMap.lookup d key = some (.bytes b) := by
  refine lookup_convert_eq_ok.trans ?_
  simp only [asBytes_eq_some, exists_eq_right]

theorem lookupAndConvertStr_eq_ok :
    lookupAndConvertStr handleError d key = .ok s ↔ OrderedMap.lookup d key = some (.bytes s.bytes) := by
  refine lookup_convert_eq_ok.trans ?_
  simp only [asStr_eq_some, exists_eq_right]

theorem lookupAndConvertList_eq_ok :
    lookupAndConvertList handleError d key = .ok l ↔ OrderedMap.lookup d key = some (.list l) := by
  refine lookup_convert_eq_ok.trans ?_
  simp only [asList_eq_some, exists_eq_right]

theorem lookupAndConvertBytes_eq (h : OrderedMap.lookup d key = some (.bytes b)) :
    lookupAndConvertBytes handleError d key = .ok b := by
  rw [lookupAndConvertBytes, lookup_of_eq_some h]
  rfl

theorem lookupAndConvertStr_eq (s : Str) (h : OrderedMap.lookup d key = some (.bytes s.bytes)) :
    lookupAndConvertStr handleError d key = .ok s := by
  rw [lookupAndConvertStr, lookup_of_eq_some h, ok_bind, convertStr, convert, asStr, dif_pos s.utf8]

theorem lookupAndConvertList_eq (h : OrderedMap.lookup d key = some (.list l)) :
    lookupAndConvertList handleError d key = .ok l := by
  rw [lookupAndConvertList, lookup_of_eq_some h]
  rfl

theorem lookupAndConvertDict_eq (h : OrderedMap.lookup d key = some (.dict d')) :
    lookupAndConvertDict handleError d key = .ok d' := by
  rw [lookupAndConvertDict, lookup_of_eq_some h]
  rfl

theorem toOption_lookupAndConvertBytes {b : Option Bytes} (h : OrderedMap.lookup d key = b.map .bytes) :
    (lookupAndConvertBytes handleError d key).toOption = b := by
  cases b with
  | none =>
    rw [lookupAndConvertBytes, lookup_of_eq_none h]
    rfl
  | some b =>
    rw [lookupAndConvertBytes_eq h]
    rfl

theorem toOption_lookupAndConvertList {l : Option (List Inner)} (h : OrderedMap.lookup d key = l.map .list) :
    (lookupAndConvertList handleError d key).toOption = l := by
  cases l with
  | none =>
    rw [lookupAndConvertList, lookup_of_eq_none h]
    rfl
  | some l =>
    rw [lookupAndConvertList_eq h]
    rfl

end

section

variable {ε α : Type} (handleError : BencodeConvertError → ε) (d : List (Bytes × Inner)) (key : Bytes)

theorem returns_lookup : Returns (lookup handleError d key) := by
  unfold lookup
  split
  · exact .ok _
  · exact .fail _

theorem returns_convert (expectedType : String) (cast : Inner → Option α) (value : Inner) :
    Returns (convert handleError expectedType cast value key) := by
  unfold convert
  split
  · exact .ok _
  · exact .fail _

theorem returns_lookupAndConvertInt : Returns (lookupAndConvertInt handleError d key) :=
  (returns_lookup handleError d key).bind fun value => returns_convert handleError key _ _ value

theorem returns_lookupAndConvertBytes : Returns (lookupAndConvertBytes handleError d key) :=
  (returns_lookup handleError d key).bind fun value => returns_convert handleError key _ _ value

theorem returns_lookupAndConvertStr : Returns (lookupAndConvertStr handleError d key) :=
  (returns_lookup handleError d key).bind fun value => returns_convert handleError key _ _ value

theorem returns_lookupAndConvertList : Returns (lookupAndConvertList handleError d key) :=
  (returns_lookup handleError d key).bind fun value => returns_convert handleError key _ _ value

theorem returns_lookupAndConvertDict : Returns (lookupAndConvertDict handleError d key) :=
  (returns_lookup handleError d key).bind fun value => returns_convert handleError key _ _ value

end

/-! ### Building -/

/-- The map that holds the entries, inserted one after the other. -/
def mapOf (entries : List (Bytes × Inner)) : List (Bytes × Inner) :=
  entries.foldl (fun map e => OrderedMap.insert e.1 e.2 map) []

def benMap (entries : List (Bytes × Inner)) : Inner := .dict (mapOf entries)

theorem mapOf_concat (entries : List (Bytes × Inner)) (e : Bytes × Inner) :
    mapOf (entries ++ [e]) = insert e.1 e.2 (mapOf entries) := by
  rw [mapOf, foldl_append]
  rfl

section

variable {entries : List (Bytes × Inner)} {key : Bytes}

theorem sorted_mapOf (entries : List (Bytes × Inner)) : OrderedMap.Sorted (mapOf entries) := by
  induction entries using reverseRecOn with
  | nil => exact List.Pairwise.nil
  | append_singleton entries e ih =>
    rw [mapOf_concat]
    exact sorted_insert ih

theorem mem_of_mem_mapOf {e : Bytes × Inner} (h : e ∈ mapOf entries) : e ∈ entries := by
  induction entries using reverseRecOn with
  | nil => exact h
  | append_singleton entries e' ih =>
    rw [mapOf_concat] at h
    rcases mem_insert h with rfl | h
    · exact mem_append_right _ mem_cons_self
    · exact mem_append_left _ (ih h)

theorem encode_benMap (entries : List (Bytes × Inner)) :
    encode (benMap entries) =
      dictStart :: ((mapOf entries).flatMap (fun e => encodeBytes e.1 ++ encode e.2) ++ [benEnd]) :=
  encode_dict_of_sorted (sorted_mapOf entries)

theorem lookup_mapOf_of_not_mem (h : key ∉ entries.map Prod.fst) :
    OrderedMap.lookup (mapOf entries) key = none := by
  induction entries using reverseRecOn with
  | nil => rfl
  | append_singleton entries e ih =>
    rw [map_append, mem_append, not_or] at h
    rw [mapOf_concat, lookup_insert, if_neg, ih h.1]
    rintro rfl
    exact h.2 mem_cons_self

theorem lookup_mapOf (entries : List (Bytes × Inner))
    (hnodup : (entries.map Prod.fst).Nodup) (h : (key, v) ∈ entries) :
    OrderedMap.lookup (mapOf entries) key = some v := by
  induction entries using reverseRecOn with
  | nil => cases h
  | append_singleton entries e ih =>
    rw [map_append, nodup_append] at hnodup
    rw [mapOf_concat, lookup_insert]
    rcases mem_append.mp h with h | h
    · rw [if_neg, ih hnodup.1 h]
      exact hnodup.2.2 key (mem_map_of_mem h) e.1 mem_cons_self
    · rw [← mem_singleton.mp h, if_pos rfl]

theorem lookup_mapOf_eq {v : Option Inner} (hnodup : (entries.map Prod.fst).Nodup)
    (h : ∀ w, (key, w) ∈ entries ↔ v = some w) : OrderedMap.lookup (mapOf entries) key = v := by
  cases v with
  | some v => exact lookup_mapOf entries hnodup ((h v).mpr rfl)
  | none =>
    apply lookup_mapOf_of_not_mem
    intro hkey
    obtain ⟨⟨k, w⟩, hmem, rfl⟩ := mem_map.mp hkey
    cases (h w).mp hmem

theorem mapOf_perm (hnodup : (entries.map Prod.fst).Nodup) : (mapOf entries).Perm entries := by
  induction entries using reverseRecOn with
  | nil => exact List.Perm.refl _
  | append_singleton entries e ih =>
    rw [map_append, nodup_append] at hnodup
    rw [mapOf_concat]
    refine (insert_perm fun e' he' => ?_).trans ?_
    · exact hnodup.2.2 e'.1 (mem_map_of_mem (mem_of_mem_mapOf he')) e.1 mem_cons_self
    · exact ((ih hnodup.1).cons e).trans (perm_append_singleton e entries).symm

theorem mapOf_mapOf (entries : List (Bytes × Inner)) : mapOf (mapOf entries) = mapOf entries := by
  have hsorted := sorted_mapOf entries
  exact (sorted_mapOf (mapOf entries)).perm_eq hsorted (mapOf_perm hsorted.nodup_keys)

end

/-! ### Trees that fit -/

/-- All dictionaries of the tree are ordered maps. -/
inductive Inner.Ordered : Inner → Prop where
  | int (n : Int64) : Ordered (.int n)
  | bytes (b : Bytes) : Ordered (.bytes b)
  | list {l : List Inner} : (∀ v ∈ l, Ordered v) → Ordered (.list l)
  | dict {d : List (Bytes × Inner)} : OrderedMap.Sorted d → (∀ e ∈ d, Ordered e.2) →
      Ordered (.dict d)

theorem length_le_encodeBytes (b : Bytes) : b.length ≤ (encodeBytes b).length := by
  rw [encodeBytes, length_append, length_cons]
  omega

theorem length_le_length_flatMap {ι : Type} (text : ι → Bytes) {l : List ι} {x : ι} (h : x ∈ l) :
    (text x).length ≤ (l.flatMap text).length := by
  obtain ⟨before, behind, rfl⟩ := append_of_mem h
  rw [flatMap_append, flatMap_cons, length_append, length_append]
  omega

theorem Inner.Ordered.valid (h : v.Ordered) (hfits : (encode v).length ≤ isizeMax) : v.Valid := by
  induction h with
  | int n => exact .int n
  | bytes b => exact .bytes ((length_le_encodeBytes b).trans hfits)
  | @list l _ ih =>
    rw [encode, length_cons, length_append, encodeList_eq] at hfits
    refine .list fun v hv => ih v hv ?_
    have hpart : (encode v).length ≤ (l.flatMap encode).length := length_le_length_flatMap _ hv
    omega
  | @dict d hsorted _ ih =>
    rw [encode_dict_of_sorted hsorted, length_cons, length_append] at hfits
    have hpart : ∀ e ∈ d, (encodeBytes e.1).length + (encode e.2).length ≤ isizeMax := by
      intro e he
      have hentry := length_le_length_flatMap (fun e => encodeBytes e.1 ++ encode e.2) he
      rw [length_append] at hentry
      omega
    refine .dict hsorted (fun e he => ?_) fun e he => ih e he ?_
    · have hkey := length_le_encodeBytes e.1
      have := hpart e he
      omega
    · have := hpart e he
      omega

theorem heightList_le {k : Nat} (h : ∀ v ∈ l, v.height ≤ k) : heightList l ≤ k := by
  induction l with
  | nil => exact Nat.zero_le k
  | cons v l ih =>
    rw [heightList]
    exact max_le (h v mem_cons_self) (ih fun v' hv' => h v' (mem_cons_of_mem v hv'))

theorem heightDict_le {d : List (Bytes × Inner)} {k : Nat} (h : ∀ e ∈ d, e.2.height ≤ k) :
    heightDict d ≤ k := by
  induction d with
  | nil => exact Nat.zero_le k
  | cons e d ih =>
    rw [heightDict]
    exact max_le (h e mem_cons_self) (ih fun e' he' => h e' (mem_cons_of_mem e he'))

/-- A tree of ordered maps that is nested at most `k` deep. -/
structure Inner.Shallow (k : Nat) (v : Inner) : Prop where
  ordered : v.Ordered
  height_le : v.height ≤ k

namespace Inner.Shallow

variable {k : Nat}

theorem int (n : Int64) : Shallow (k + 1) (.int n) := ⟨.int n, Nat.le_add_left 1 k⟩

theorem bytes (b : Bytes) : Shallow (k + 1) (.bytes b) := ⟨.bytes b, Nat.le_add_left 1 k⟩

theorem list (h : ∀ v ∈ l, Shallow k v) : Shallow (k + 1) (.list l) := by
  refine ⟨.list fun v hv => (h v hv).ordered, ?_⟩
  rw [height]
  exact Nat.succ_le_succ (heightList_le fun v hv => (h v hv).height_le)

theorem benMap {entries : List (Bytes × Inner)} (h : ∀ e ∈ entries, Shallow k e.2) :
    Shallow (k + 1) (benMap entries) := by
  refine ⟨.dict (sorted_mapOf entries) fun e he => (h e (mem_of_mem_mapOf he)).ordered, ?_⟩
  rw [Bencode.benMap, height]
  exact Nat.succ_le_succ (heightDict_le fun e he => (h e (mem_of_mem_mapOf he)).height_le)

theorem decode_eq (h : Shallow k v) (opts : BDecodeOpt) (hk : k ≤ opts.maxRecursion)
    {out : Buffer} (hout : out.data = encode v) : ∃ r, BencodeRef.decode out opts = .ok r ∧ r.value = v := by
  have hvalid : v.Valid := h.ordered.valid (hout ▸ out.fits)
  obtain ⟨r, hr, hvalue, -⟩ := hvalid.decode_eq (h.height_le.trans hk) hout
  exact ⟨r, hr, hvalue⟩

end Inner.Shallow

end BitTorrent.Bencode
