import BitTorrent.BencodeAccess

/-! The decoder returns on every input. Each part of it is only ever started inside the buffer, and what
it reads ends behind where it started and not behind the end of the buffer: no position is out of range,
no addition overflows, and the loops of the containers come to an end. -/

namespace BitTorrent.Bencode

open Rust BencodeRef

variable {α β : Type} {bytes : Bytes} {pos : Nat}

/-- A part of the decoder that was started at `pos` returns, and if it has read something then from
there to a later position in the buffer. -/
structure Advances (bytes : Bytes) (pos : Nat) (x : BencodeParseResult (α × Nat)) : Prop where
  returns : Returns x
  next : ∀ a next, x = .ok (a, next) → pos < next ∧ next ≤ bytes.length

namespace Advances

theorem fail (e : BencodeParseError) : Advances bytes pos (Rust.fail e : BencodeParseResult (α × Nat)) :=
  ⟨.fail e, fun a next h => absurd h (fail_ne_ok e (a, next))⟩

theorem ok (a : α) {next : Nat} (hlt : pos < next) (hle : next ≤ bytes.length) :
    Advances bytes pos (.ok (a, next)) := by
  refine ⟨.ok _, fun a' next' h => ?_⟩
  cases h
  exact ⟨hlt, hle⟩

theorem bind {x : BencodeParseResult β} {f : β → BencodeParseResult (α × Nat)} (hx : Returns x)
    (hf : ∀ b, x = .ok b → Advances bytes pos (f b)) : Advances bytes pos (x >>= f) := by
  refine ⟨hx.bind_of_ok fun b hb => (hf b hb).returns, fun a next h => ?_⟩
  obtain ⟨b, hb, h⟩ := bind_eq_ok.mp h
  exact (hf b hb).next a next h

theorem mono {pos' : Nat} {x : BencodeParseResult (α × Nat)} (h : Advances bytes pos' x)
    (hle : pos ≤ pos') : Advances bytes pos x := by
  refine ⟨h.returns, fun a next hx => ?_⟩
  obtain ⟨hlt, hend⟩ := h.next a next hx
  exact ⟨by omega, hend⟩

variable {x : BencodeParseResult (β × Nat)}

theorem andThen {f : β × Nat → BencodeParseResult (α × Nat)} (hx : Advances bytes pos x)
    (hf : ∀ b next, pos < next → next ≤ bytes.length → Advances bytes pos (f (b, next))) :
    Advances bytes pos (x >>= f) := by
  refine bind hx.returns fun b hb => ?_
  obtain ⟨hlt, hle⟩ := hx.next b.1 b.2 hb
  exact hf b.1 b.2 hlt hle

theorem withSlice (hx : Advances bytes pos x) (f : β → Slice → α) : Advances bytes pos (do
      let (b, next) ← x
      let buffer ← slice bytes pos next
      .ok (f b buffer, next)) := by
  refine hx.andThen fun b next hlt hle => ?_
  simp only
  rw [slice_eq_ok.mpr ⟨hlt.le, hle, rfl⟩, ok_bind]
  exact .ok _ hlt hle

end Advances

theorem lt_of_peekByte {b : UInt8} (h : peekByte bytes pos = .ok b) : pos < bytes.length := by
  unfold peekByte at h
  split at h
  · rename_i hget
    exact (List.getElem?_eq_some_iff.mp hget).1
  · cases h

theorem returns_peekByte (bytes : Bytes) (pos : Nat) : Returns (peekByte bytes pos) := by
  unfold peekByte
  split
  · exact .ok _
  · exact .fail _

theorem returns_checkIntText (text : Bytes) (pos : Nat) : Returns (checkIntText text pos) := by
  unfold checkIntText
  split
  · exact .fail _
  · exact .fail _
  · exact .ok ()

theorem returns_checkKeyOrder (opts : BDecodeOpt) (bencodeDict : List (Bytes × BencodeRef))
    (currPos : Nat) (keyBytes : Bytes) : Returns (checkKeyOrder opts bencodeDict currPos keyBytes) := by
  unfold checkKeyOrder
  split
  · split
    · exact .fail _
    · exact .ok ()
  · exact .ok ()

section

variable (hfits : bytes.length ≤ isizeMax)

include hfits

theorem advances_decodeInt (hpos : pos ≤ bytes.length) (delim : UInt8) :
    Advances bytes pos (decodeInt bytes pos delim) := by
  rw [decodeInt, splitAtTail_eq_ok.mpr ⟨hpos, rfl⟩, ok_bind]
  split
  · exact .fail _
  · rename_i relativeEndPos hfind
    obtain ⟨hlt, -⟩ := List.findIdx?_eq_some_iff_getElem.mp hfind
    rw [List.length_drop] at hlt
    refine .bind (returns_checkIntText _ pos) fun _ _ => ?_
    split
    · rw [addUsize_of_le bytes.length (by omega) hfits, ok_bind,
        addUsize_of_le bytes.length (by omega) hfits, ok_bind]
      split
      · exact .ok _ (by omega) (by omega)
      · exact .fail _
    · exact .fail _

theorem advances_decodeBytes (hpos : pos ≤ bytes.length) : Advances bytes pos (decodeBytes bytes pos) := by
  refine (advances_decodeInt hfits hpos byteLenEnd).andThen fun numBytes startPos hlt hle => ?_
  simp only
  split
  · exact .fail _
  · rw [slice_eq_ok.mpr ⟨hle, le_rfl, rfl⟩, ok_bind]
    split
    · exact .fail _
    · rename_i hshort
      simp only [List.take_length, List.length_drop] at hshort
      rw [addUsize_of_le bytes.length (by omega) hfits, ok_bind,
        slice_eq_ok.mpr ⟨Nat.le_add_right _ _, by omega, rfl⟩, ok_bind]
      exact .ok _ (by omega) (by omega)

/-- The loop ends, since each round reads something. -/
theorem advances_whileNotEnd {σ : Type} {body : Nat → σ → BencodeParseResult (σ × Nat)}
    (hbody : ∀ currPos state, currPos < bytes.length → Advances bytes currPos (body currPos state))
    {fuel currPos : Nat} (state : σ) (hpos : currPos ≤ bytes.length) (hfuel : bytes.length < currPos + fuel) :
    Advances bytes currPos (whileNotEnd bytes body fuel currPos state) := by
  induction fuel generalizing currPos state with
  | zero => omega
  | succ fuel ih =>
    refine .bind (returns_peekByte bytes currPos) fun currByte hpeek => ?_
    have hlt := lt_of_peekByte hpeek
    split
    · rw [addUsize_of_le bytes.length (by omega) hfits, ok_bind]
      exact .ok _ (Nat.lt_succ_self _) hlt
    · refine (hbody currPos state hlt).andThen fun state next hnext hle => ?_
      exact (ih state hle (by omega)).mono hnext.le

variable {decodeItem : Nat → BencodeParseResult (BencodeRef × Nat)}
  (hitem : ∀ pos, Advances bytes pos (decodeItem pos))

include hitem

theorem advances_decodeList (hpos : pos ≤ bytes.length) :
    Advances bytes pos (decodeList bytes pos decodeItem) := by
  refine advances_whileNotEnd hfits (fun currPos bencodeList _ => ?_) [] hpos (by omega)
  exact (hitem currPos).andThen fun bencode next hlt hle => .ok _ hlt hle

theorem advances_decodeDict (opts : BDecodeOpt) (hpos : pos ≤ bytes.length) :
    Advances bytes pos (decodeDict bytes pos opts decodeItem) := by
  refine advances_whileNotEnd hfits (fun currPos bencodeDict hcurr => ?_) [] hpos (by omega)
  refine (advances_decodeBytes hfits hcurr.le).andThen fun keyBytes valuePos hkey _ => ?_
  refine .bind (returns_checkKeyOrder opts bencodeDict currPos keyBytes) fun _ _ => ?_
  refine ((hitem valuePos).mono hkey.le).andThen fun value next hlt hle => ?_
  simp only
  split
  · exact .fail _
  · exact .ok _ hlt hle

end

theorem advances_decodeAt (hfits : bytes.length ≤ isizeMax) (opts : BDecodeOpt) (pos depth : Nat) :
    Advances bytes pos (decodeAt bytes pos opts depth) := by
  -- The induction is on the levels that are left.
  generalize hleft : opts.maxRecursion - depth = left
  induction left generalizing pos depth with
  | zero =>
    rw [decodeAt, if_pos (by omega)]
    exact .fail _
  | succ left ih =>
    have hitem : ∀ pos, Advances bytes pos (decodeAt bytes pos opts (depth + 1)) :=
      fun pos => ih pos (depth + 1) (by omega)
    rw [decodeAt, if_neg (by omega)]
    refine .bind (returns_peekByte bytes pos) fun currByte hpeek => ?_
    have hpos := lt_of_peekByte hpeek
    have hbody : (addUsize pos 1 : BencodeParseResult Nat) = .ok (pos + 1) :=
      addUsize_of_le bytes.length (by omega) hfits
    split
    · rw [hbody, ok_bind]
      exact ((advances_decodeInt hfits hpos benEnd).mono (Nat.le_succ pos)).withSlice int
    · split
      · rw [hbody, ok_bind]
        exact ((advances_decodeList hfits hitem hpos).mono (Nat.le_succ pos)).withSlice list
      · split
        · rw [hbody, ok_bind]
          exact ((advances_decodeDict hfits hitem opts hpos).mono (Nat.le_succ pos)).withSlice
            dict
        · split
          · exact (advances_decodeBytes hfits hpos.le).withSlice BencodeRef.bytes
          · exact .fail _

theorem BencodeRef.returns_decode (bytes : Buffer) (opts : BDecodeOpt) :
    Returns (decode bytes opts) := by
  refine (advances_decodeAt bytes.fits opts 0 0).returns.bind fun result => ?_
  simp only
  split
  · exact .fail _
  · exact .ok _

/-! ### The calls of the decoder -/

/-- The loop of a container comes by this position, with what it has read so far. -/
inductive LoopAt {σ : Type} (bytes : Bytes) (body : Nat → σ → BencodeParseResult (σ × Nat)) (start : Nat)
    (init : σ) : Nat → σ → Prop where
  | start : LoopAt bytes body start init start init
  | round {currPos next : Nat} {state state' : σ} {currByte : UInt8} :
      LoopAt bytes body start init currPos state → peekByte bytes currPos = .ok currByte →
      currByte ≠ benEnd → body currPos state = .ok (state', next) → LoopAt bytes body start init next state'

/-- The calls `decode(bytes, pos, opts, depth)` that decoding a buffer makes. -/
inductive Called (bytes : Bytes) (opts : BDecodeOpt) : Nat → Nat → Prop where
  | root : Called bytes opts 0 0
  | item {pos depth currPos : Nat} {bencodeList : List BencodeRef} {currByte : UInt8} :
      Called bytes opts pos depth → ¬ depth ≥ opts.maxRecursion → peekByte bytes pos = .ok listStart →
      LoopAt bytes (listBody fun itemPos => decodeAt bytes itemPos opts (depth + 1)) (pos + 1) [] currPos
        bencodeList →
      peekByte bytes currPos = .ok currByte → currByte ≠ benEnd → Called bytes opts currPos (depth + 1)
  | value {pos depth currPos valuePos : Nat} {bencodeDict : List (Bytes × BencodeRef)} {currByte : UInt8}
      {keyBytes : Bytes} :
      Called bytes opts pos depth → ¬ depth ≥ opts.maxRecursion → peekByte bytes pos = .ok dictStart →
      LoopAt bytes (dictBody bytes opts fun itemPos => decodeAt bytes itemPos opts (depth + 1)) (pos + 1) []
        currPos bencodeDict →
      peekByte bytes currPos = .ok currByte → currByte ≠ benEnd →
      decodeBytes bytes currPos = .ok (keyBytes, valuePos) →
      checkKeyOrder opts bencodeDict currPos keyBytes = .ok () → Called bytes opts valuePos (depth + 1)

variable {opts : BDecodeOpt}

theorem Called.depth_le {depth : Nat} (h : Called bytes opts pos depth) : depth ≤ opts.maxRecursion := by
  cases h with
  | root => exact Nat.zero_le _
  | item _ hdepth => exact Nat.lt_of_not_ge hdepth
  | value _ hdepth => exact Nat.lt_of_not_ge hdepth

/-- Decoding returns, with whatever options. No call goes deeper than the limit, and each one that reads
something ends behind where it started and not behind the end of the buffer. -/
theorem BencodeRef.decode_safe (bytes : Buffer) (opts : BDecodeOpt) :
    Returns (BencodeRef.decode bytes opts) ∧
      ∀ pos depth, Called bytes.data opts pos depth →
        depth ≤ opts.maxRecursion ∧ Returns (decodeAt bytes.data pos opts depth) ∧
          ∀ r next, decodeAt bytes.data pos opts depth = .ok (r, next) →
            pos < next ∧ next ≤ bytes.data.length := by
  refine ⟨BencodeRef.returns_decode bytes opts, fun pos depth hcalled => ?_⟩
  have hadvances := advances_decodeAt bytes.fits opts pos depth
  exact ⟨hcalled.depth_le, hadvances.returns, hadvances.next⟩

/-- Bytes that are decoded and taken for a dictionary: only what is done with the dictionary can fail to
return. -/
theorem returns_decodeDict_iff {ε : Type} {handleError : BencodeParseError → ε}
    {handleConvert : BencodeConvertError → ε} {bytes : Buffer} {key : Bytes}
    {f : BencodeRef → List (Bytes × Inner) → Run ε α} :
    Returns (mapErr handleError (decode bytes opts) >>= fun r =>
      convertDict handleConvert r.value key >>= f r) ↔
        ∀ r d, decode bytes opts = .ok r → r.value = .dict d → Returns (f r d) := by
  rw [returns_bind_iff, and_iff_right ((returns_decode bytes opts).mapErr _)]
  constructor
  · intro h r d hdecode hdict
    have hreturns := h r (mapErr_eq_ok.mpr hdecode)
    rwa [convertDict_eq_ok.mpr hdict, ok_bind] at hreturns
  · intro h r hdecode
    refine (returns_convert _ _ _ _ _).bind_of_ok fun d hdict => ?_
    exact h r d (mapErr_eq_ok.mp hdecode) (convertDict_eq_ok.mp hdict)

end BitTorrent.Bencode
