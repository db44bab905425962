import BitTorrent.BencodeTree

/-! The reference decoder. It walks one buffer by position and keeps, with every value, the slice of
the buffer the value was read from. Both container loops read values until the end marker; a loop
that made no progress would run forever, so the loops carry a bound of one iteration per byte and
running out of it is divergence. -/

namespace BitTorrent.Bencode

open Rust

inductive BencodeParseError where
  | bytesEmpty (pos : Nat)
  | invalidByte (pos : Nat)
  | invalidIntNoDelimiter (pos : Nat)
  | invalidIntNegativeZero (pos : Nat)
  | invalidIntZeroPadding (pos : Nat)
  | invalidIntParseError (pos : Nat)
  | invalidKeyOrdering (pos : Nat) (key : Bytes)
  | invalidKeyDuplicates (pos : Nat) (key : Bytes)
  | invalidLengthNegative (pos : Nat)
  | invalidLengthOverflow (pos : Nat)
  | invalidRecursionExceeded (pos : Nat) (max : Nat)
  deriving DecidableEq, Repr

abbrev BencodeParseResult (α : Type) := Run BencodeParseError α

structure BDecodeOpt where
  maxRecursion : Nat
  checkKeySort : Bool
  enforceFullDecode : Bool
  deriving DecidableEq, Repr

namespace BDecodeOpt

def defaultMaxRecursion : Nat := 50

def defaultCheckKeySort : Bool := false

def defaultEnforceFullDecode : Bool := true

def default : BDecodeOpt :=
  ⟨defaultMaxRecursion, defaultCheckKeySort, defaultEnforceFullDecode⟩

end BDecodeOpt

/-- A decoded value. The dictionary holds its entries in key order; the last argument of every
constructor is the slice of the input the value was read from. -/
inductive BencodeRef where
  | int (n : Int64) (slice : Slice)
  | bytes (b : Bytes) (slice : Slice)
  | list (l : List BencodeRef) (slice : Slice)
  | dict (d : List (Bytes × BencodeRef)) (slice : Slice)

namespace BencodeRef

def buffer : BencodeRef → Slice
  | .int _ slice => slice
  | .bytes _ slice => slice
  | .list _ slice => slice
  | .dict _ slice => slice

mutual

/-- What the access trait shows of a decoded value: `kind()`, all the way down. -/
def value : BencodeRef → Inner
  | .int n _ => .int n
  | .bytes b _ => .bytes b
  | .list l _ => .list (valueList l)
  | .dict d _ => .dict (valueDict d)

def valueList : List BencodeRef → List Inner
  | [] => []
  | r :: l => r.value :: valueList l

def valueDict : List (Bytes × BencodeRef) → List (Bytes × Inner)
  | [] => []
  | (k, r) :: d => (k, r.value) :: valueDict d

end

mutual

/-- A decoded value without the places of its slices. Rust compares slices by their bytes, so two
decoded values are equal when they agree after this. -/
def content : BencodeRef → BencodeRef
  | .int n slice => .int n ⟨0, slice.bytes⟩
  | .bytes b slice => .bytes b ⟨0, slice.bytes⟩
  | .list l slice => .list (contentList l) ⟨0, slice.bytes⟩
  | .dict d slice => .dict (contentDict d) ⟨0, slice.bytes⟩

def contentList : List BencodeRef → List BencodeRef
  | [] => []
  | r :: l => r.content :: contentList l

def contentDict : List (Bytes × BencodeRef) → List (Bytes × BencodeRef)
  | [] => []
  | (k, r) :: d => (k, r.content) :: contentDict d

end

/-- The equality of `BencodeRef`, as derived in the source. -/
def Eqv (r r' : BencodeRef) : Prop := r.content = r'.content

/-- The direct children: list elements, or dictionary values in key order. -/
def children : BencodeRef → List BencodeRef
  | .int _ _ => []
  | .bytes _ _ => []
  | .list l _ => l
  | .dict d _ => d.map Prod.snd

mutual

def decEq : (r r' : BencodeRef) → Decidable (r = r')
  | .int n s, .int n' s' => decidable_of_iff (n = n' ∧ s = s') (by rw [int.injEq])
  | .bytes b s, .bytes b' s' => decidable_of_iff (b = b' ∧ s = s') (by rw [bytes.injEq])
  | .list l s, .list l' s' =>
    have := decEqList l l'
    decidable_of_iff (l = l' ∧ s = s') (by rw [list.injEq])
  | .dict d s, .dict d' s' =>
    have := decEqDict d d'
    decidable_of_iff (d = d' ∧ s = s') (by rw [dict.injEq])
  | .int _ _, .bytes _ _ | .int _ _, .list _ _ | .int _ _, .dict _ _
  | .bytes _ _, .int _ _ | .bytes _ _, .list _ _ | .bytes _ _, .dict _ _
  | .list _ _, .int _ _ | .list _ _, .bytes _ _ | .list _ _, .dict _ _
  | .dict _ _, .int _ _ | .dict _ _, .bytes _ _ | .dict _ _, .list _ _ => isFalse nofun

def decEqList : (l l' : List BencodeRef) → Decidable (l = l')
  | [], [] => isTrue rfl
  | r :: l, r' :: l' =>
    have := decEq r r'
    have := decEqList l l'
    decidable_of_iff (r = r' ∧ l = l') (by rw [List.cons.injEq])
  | [], _ :: _ | _ :: _, [] => isFalse nofun

def decEqDict : (d d' : List (Bytes × BencodeRef)) → Decidable (d = d')
  | [], [] => isTrue rfl
  | (k, r) :: d, (k', r') :: d' =>
    have := decEq r r'
    have := decEqDict d d'
    decidable_of_iff ((k = k' ∧ r = r') ∧ d = d') (by rw [List.cons.injEq, Prod.mk.injEq])
  | [], _ :: _ | _ :: _, [] => isFalse nofun

end

instance : DecidableEq BencodeRef := decEq

end BencodeRef

/-! ### Leaves -/

def peekByte (bytes : Bytes) (pos : Nat) : BencodeParseResult UInt8 :=
  match bytes[pos]? with
  | some b => .ok b
  | none => fail (.bytesEmpty pos)

/-- The checks on the text of an integer before it is parsed. -/
def checkIntText (text : Bytes) (pos : Nat) : BencodeParseResult Unit :=
  match text with
  | 45 :: 48 :: _ => fail (.invalidIntNegativeZero pos)
  | 48 :: _ :: _ => fail (.invalidIntZeroPadding pos)
  | _ => .ok ()

def decodeInt (bytes : Bytes) (pos : Nat) (delim : UInt8) : BencodeParseResult (Int64 × Nat) := do
  let beginDecode ← splitAtTail bytes pos
  match beginDecode.findIdx? (· == delim) with
  | none => fail (.invalidIntNoDelimiter pos)
  | some relativeEndPos =>
    let intByteSlice := beginDecode.take relativeEndPos
    checkIntText intByteSlice pos
    if isUtf8 intByteSlice then
      let absoluteEndPos ← addUsize pos relativeEndPos
      let nextPos ← addUsize absoluteEndPos 1
      match parseI64 intByteSlice with
      | some n => .ok (n, nextPos)
      | none => fail (.invalidIntParseError pos)
    else fail (.invalidIntParseError pos)

/-- `usize::try_from` cannot fail on a non-negative length here; where it could, its error is the
one of the bounds check that follows. -/
def decodeBytes (bytes : Bytes) (pos : Nat) : BencodeParseResult (Bytes × Nat) := do
  let (numBytes, startPos) ← decodeInt bytes pos byteLenEnd
  if numBytes.toInt < 0 then fail (.invalidLengthNegative pos)
  else
    let tail ← slice bytes startPos bytes.length
    if numBytes.toInt.toNat > tail.bytes.length then fail (.invalidLengthOverflow pos)
    else
      let nextPos ← addUsize startPos numBytes.toInt.toNat
      let value ← slice bytes startPos nextPos
      .ok (value.bytes, nextPos)

/-! ### Containers -/

/-- The loop of both containers: run `body` at the current position until the end marker. -/
def whileNotEnd {σ : Type} (bytes : Bytes) (body : Nat → σ → BencodeParseResult (σ × Nat)) :
    Nat → Nat → σ → BencodeParseResult (σ × Nat)
  | 0, _, _ => .error .diverge
  | fuel + 1, currPos, state => do
    let currByte ← peekByte bytes currPos
    if currByte = benEnd then
      let nextPos ← addUsize currPos 1
      .ok (state, nextPos)
    else
      let (state, nextPos) ← body currPos state
      whileNotEnd bytes body fuel nextPos state

def listBody (decodeItem : Nat → BencodeParseResult (BencodeRef × Nat)) (currPos : Nat)
    (bencodeList : List BencodeRef) : BencodeParseResult (List BencodeRef × Nat) := do
  let (bencode, nextPos) ← decodeItem currPos
  .ok (bencodeList ++ [bencode], nextPos)

/-- Here and in `decodeDict`, `decodeItem` is `decodeAt` one level further down. -/
def decodeList (bytes : Bytes) (pos : Nat)
    (decodeItem : Nat → BencodeParseResult (BencodeRef × Nat)) :
    BencodeParseResult (List BencodeRef × Nat) :=
  whileNotEnd bytes (listBody decodeItem) (bytes.length + 1) pos []

/-- Keys may not come before the greatest key so far when the order is checked. -/
def checkKeyOrder (opts : BDecodeOpt) (bencodeDict : List (Bytes × BencodeRef)) (currPos : Nat)
    (keyBytes : Bytes) : BencodeParseResult Unit :=
  match OrderedMap.lastKey bencodeDict, opts.checkKeySort with
  | some lastKey, true =>
    if keyBytes < lastKey then fail (.invalidKeyOrdering currPos keyBytes) else .ok ()
  | _, _ => .ok ()

def dictBody (bytes : Bytes) (opts : BDecodeOpt)
    (decodeItem : Nat → BencodeParseResult (BencodeRef × Nat)) (currPos : Nat)
    (bencodeDict : List (Bytes × BencodeRef)) :
    BencodeParseResult (List (Bytes × BencodeRef) × Nat) := do
  let (keyBytes, valuePos) ← decodeBytes bytes currPos
  checkKeyOrder opts bencodeDict currPos keyBytes
  let (value, nextPos) ← decodeItem valuePos
  if keyBytes ∈ bencodeDict.map Prod.fst then fail (.invalidKeyDuplicates valuePos keyBytes)
  else .ok (OrderedMap.insert keyBytes value bencodeDict, nextPos)

def decodeDict (bytes : Bytes) (pos : Nat) (opts : BDecodeOpt)
    (decodeItem : Nat → BencodeParseResult (BencodeRef × Nat)) :
    BencodeParseResult (List (Bytes × BencodeRef) × Nat) :=
  whileNotEnd bytes (dictBody bytes opts decodeItem) (bytes.length + 1) pos []

/-- The depth is below the limit wherever it is increased, so that addition cannot overflow. -/
def decodeAt (bytes : Bytes) (pos : Nat) (opts : BDecodeOpt) (depth : Nat) :
    BencodeParseResult (BencodeRef × Nat) :=
  if depth ≥ opts.maxRecursion then fail (.invalidRecursionExceeded pos depth)
  else do
    let currByte ← peekByte bytes pos
    if currByte = intStart then
      let bodyPos ← addUsize pos 1
      let (bencode, nextPos) ← decodeInt bytes bodyPos benEnd
      let buffer ← slice bytes pos nextPos
      .ok (.int bencode buffer, nextPos)
    else if currByte = listStart then
      let bodyPos ← addUsize pos 1
      let (bencode, nextPos) ←
        decodeList bytes bodyPos fun itemPos => decodeAt bytes itemPos opts (depth + 1)
      let buffer ← slice bytes pos nextPos
      .ok (.list bencode buffer, nextPos)
    else if currByte = dictStart then
      let bodyPos ← addUsize pos 1
      let (bencode, nextPos) ←
        decodeDict bytes bodyPos opts fun itemPos => decodeAt bytes itemPos opts (depth + 1)
      let buffer ← slice bytes pos nextPos
      .ok (.dict bencode buffer, nextPos)
    else if byteLenLow ≤ currByte ∧ currByte ≤ byteLenHigh then
      let (bencode, nextPos) ← decodeBytes bytes pos
      let buffer ← slice bytes pos nextPos
      .ok (.bytes bencode buffer, nextPos)
    else fail (.invalidByte pos)
termination_by opts.maxRecursion - depth

/-- `BencodeRef::decode`. -/
def BencodeRef.decode (bytes : Buffer) (opts : BDecodeOpt) : BencodeParseResult BencodeRef := do
  let (bencode, endPos) ← decodeAt bytes.data 0 opts 0
  if endPos ≠ bytes.data.length ∧ opts.enforceFullDecode then fail (.bytesEmpty endPos)
  else .ok bencode

end BitTorrent.Bencode
