import BitTorrent.BencodeDecode

/-! The numbers inside bencode: which texts the decoder takes for an integer or for the length of a
byte string, and what `decodeInt` and `decodeBytes` read at a position in terms of those texts. -/

namespace BitTorrent.Bencode

open Rust List Nat

/-- A text the decoder takes for the integer `n`. -/
structure NumberText (text : Bytes) (n : Int64) : Prop where
  parse : parseI64 text = some n
  noNegativeZero : ∀ rest, text ≠ 45 :: 48 :: rest
  noZeroPadding : ∀ b rest, text ≠ 48 :: b :: rest

/-- A text the decoder takes for the byte string `b`, its length included. -/
def BytesText (text b : Bytes) : Prop :=
  ∃ length n, text = length ++ byteLenEnd :: b ∧ NumberText length n ∧ n.toInt = b.length

/-- The characters a number can be written with. -/
def isNumeric (b : UInt8) : Bool := isDigit b || b = 43 || b = 45

variable {pos : Nat}

theorem checkIntText_eq_ok {text : Bytes} : checkIntText text pos = .ok () ↔
      (∀ rest, text ≠ 45 :: 48 :: rest) ∧ ∀ b rest, text ≠ 48 :: b :: rest := by
  unfold checkIntText
  split
  · rename_i rest
    exact ⟨fun h => (by cases h), fun h => absurd rfl (h.1 rest)⟩
  · rename_i b rest
    exact ⟨fun h => (by cases h), fun h => absurd rfl (h.2 b rest)⟩
  · rename_i hneg hzero
    exact ⟨fun _ => ⟨hneg, hzero⟩, fun _ => rfl⟩

namespace NumberText

variable {text : Bytes} {n : Int64}

theorem isNumeric_of_mem (h : NumberText text n) {b : UInt8} (hb : b ∈ text) : isNumeric b = true := by
  obtain ⟨-, hdigits, -⟩ := parseI64_eq_some.mp h.parse
  unfold unsignedPart at hdigits
  split at hdigits
  · rename_i hsign
    cases text with
    | nil => cases hb
    | cons a rest =>
      rcases mem_cons.mp hb with rfl | hb
      · rcases hsign with h | h
        · rw [Option.some.inj h]
          decide
        · rw [Option.some.inj h]
          decide
      · rw [isNumeric, hdigits b hb]
        rfl
  · rw [isNumeric, hdigits b hb]
    rfl

theorem ne_nil (h : NumberText text n) : text ≠ [] := by
  rintro rfl
  exact (parseI64_eq_some.mp h.parse).1 rfl

theorem isUtf8 (h : NumberText text n) : Rust.isUtf8 text = true := by
  apply isUtf8_of_ascii
  intro b hb
  have hnum := h.isNumeric_of_mem hb
  simp only [isNumeric, Bool.or_eq_true, decide_eq_true_eq, isDigit_iff] at hnum
  rw [UInt8.lt_iff_toNat_lt]
  rcases hnum with (hdigit | rfl) | rfl
  · exact lt_of_le_of_lt hdigit.2 (by decide)
  · decide
  · decide

theorem of_decimalInt (n : Int64) : NumberText (decimalInt n.toInt) n := by
  have hlead : ∀ m b rest, decimal m ≠ 48 :: b :: rest := by
    intro m b rest hm
    have hdigits : digits 10 m ≠ [] → (decimal m).head? ≠ some 48 := by
      intro hne hhead
      have hm0 : m ≠ 0 := digits_ne_nil_iff_ne_zero.mp hne
      rw [decimal, if_neg hm0, head?_map, head?_reverse,
        getLast?_eq_some_getLast hne, Option.map_some, Option.some.injEq] at hhead
      have hlast := getLast_digit_ne_zero 10 hm0
      have hvalue := digitValue_digitByte (digits_ten_lt (getLast_mem hne))
      rw [hhead] at hvalue
      exact hlast hvalue.symm
    by_cases hm0 : m = 0
    · rw [hm0] at hm
      cases hm
    · exact hdigits (digits_ne_nil_iff_ne_zero.mpr hm0) (by rw [hm]; rfl)
  refine ⟨parseI64_decimalInt n, fun rest h => ?_, fun b rest h => ?_⟩
  · have hvalue := signedValue_decimalInt n.toInt
    unfold decimalInt at h hvalue
    split at h
    · rename_i hneg
      rw [cons.injEq] at h
      cases rest with
      | nil =>
        rw [if_pos hneg, h.2] at hvalue
        have : signedValue (45 :: [48]) = 0 := rfl
        omega
      | cons b rest => exact hlead _ b rest h.2
    · exact decimal_head_not_sign _ (Or.inr (by rw [h]; rfl))
  · unfold decimalInt at h
    split at h
    · cases h
    · exact hlead _ b rest h

end NumberText

theorem isNumeric_benEnd : isNumeric benEnd = false := by decide

theorem isNumeric_byteLenEnd : isNumeric byteLenEnd = false := by decide

/-! ### Reading an integer -/

variable {delim : UInt8}

theorem findIdx?_delim {l : Bytes} {i : Nat} (h : l.findIdx? (· == delim) = some i) :
    l = l.take i ++ delim :: l.drop (i + 1) := by
  obtain ⟨hi, heq, -⟩ := findIdx?_eq_some_iff_getElem.mp h
  have hget : l[i] = delim := by simpa using heq
  rw [← hget, getElem_cons_drop, take_append_drop]

variable {rest : Bytes}

theorem findIdx?_append_delim {text : Bytes} (h : delim ∉ text) :
    (text ++ delim :: rest).findIdx? (· == delim) = some text.length := by
  rw [findIdx?_eq_some_iff_getElem]
  refine ⟨by simp, by simp, fun j hj => ?_⟩
  rw [getElem_append_left hj]
  simp only [beq_iff_eq]
  rintro rfl
  exact h (getElem_mem hj)

variable {bytes : Bytes} {next : Nat}

theorem decodeInt_sound {n : Int64} (h : decodeInt bytes pos delim = .ok (n, next)) :
    ∃ text rest, bytes.drop pos = text ++ delim :: rest ∧ NumberText text n ∧
      next = pos + text.length + 1 := by
  rw [decodeInt, bind_eq_ok] at h
  obtain ⟨tail, htail, h⟩ := h
  obtain ⟨-, rfl⟩ := splitAtTail_eq_ok.mp htail
  split at h
  · cases h
  · rename_i i hi
    simp only [bind_eq_ok] at h
    obtain ⟨u, hcheck, h⟩ := h
    split at h
    · obtain ⟨stop, hstop, next', hnext, h⟩ := by simpa only [bind_eq_ok] using h
      obtain ⟨rfl, -⟩ := addUsize_eq_ok.mp hstop
      obtain ⟨rfl, -⟩ := addUsize_eq_ok.mp hnext
      split at h
      · rename_i hparse
        cases h
        obtain ⟨hneg, hzero⟩ := checkIntText_eq_ok.mp hcheck
        obtain ⟨hlt, -⟩ := findIdx?_eq_some_iff_getElem.mp hi
        refine ⟨_, _, findIdx?_delim hi, ⟨hparse, hneg, hzero⟩, ?_⟩
        rw [length_take, min_eq_left hlt.le]
      · cases h
    · cases h

theorem decodeInt_complete {text : Bytes} {n : Int64}
    (hfits : bytes.length ≤ isizeMax) (hdelim : isNumeric delim = false) (hn : NumberText text n)
    (h : bytes.drop pos = text ++ delim :: rest) :
    decodeInt bytes pos delim = .ok (n, pos + text.length + 1) := by
  have hlen := congrArg length h
  rw [length_drop, length_append, length_cons] at hlen
  have hmem : delim ∉ text := by
    intro hmem
    rw [hn.isNumeric_of_mem hmem] at hdelim
    cases hdelim
  rw [decodeInt, splitAtTail_eq_ok.mpr ⟨by omega, rfl⟩, ok_bind, h, findIdx?_append_delim hmem]
  simp only [take_left]
  rw [checkIntText_eq_ok.mpr ⟨hn.noNegativeZero, hn.noZeroPadding⟩, ok_bind, if_pos hn.isUtf8,
    addUsize_of_le bytes.length (by omega) hfits, ok_bind,
    addUsize_of_le bytes.length (by omega) hfits, ok_bind, hn.parse]

/-! ### Reading a byte string -/

variable {b : Bytes}

theorem decodeBytes_sound (h : decodeBytes bytes pos = .ok (b, next)) :
    ∃ text rest, bytes.drop pos = text ++ rest ∧ BytesText text b ∧ next = pos + text.length := by
  rw [decodeBytes, bind_eq_ok] at h
  obtain ⟨⟨n, start⟩, hint, h⟩ := h
  obtain ⟨length, rest, hdrop, hn, rfl⟩ := decodeInt_sound hint
  simp only at h
  split at h
  · cases h
  · rename_i hneg
    obtain ⟨tail, htail, h⟩ := bind_eq_ok.mp h
    obtain ⟨-, -, rfl⟩ := slice_eq_ok.mp htail
    split at h
    · cases h
    · rename_i hle
      obtain ⟨stop, hstop, value, hvalue, h⟩ := by simpa only [bind_eq_ok] using h
      obtain ⟨rfl, -⟩ := addUsize_eq_ok.mp hstop
      obtain ⟨-, hbound, rfl⟩ := slice_eq_ok.mp hvalue
      cases h
      have hrest : bytes.drop (pos + length.length + 1) = rest := by
        have := drop_of_drop (length ++ [byteLenEnd])
          (hdrop.trans (append_cons length byteLenEnd rest))
        rwa [length_append, length_singleton, ← add_assoc] at this
      have hvalue' : (bytes.take (pos + length.length + 1 + n.toInt.toNat)).drop
          (pos + length.length + 1) = rest.take n.toInt.toNat := by
        rw [List.drop_take, hrest, Nat.add_sub_cancel_left]
      have hlen : n.toInt.toNat ≤ rest.length := by
        rw [← hrest, List.length_drop]
        omega
      refine ⟨length ++ byteLenEnd :: rest.take n.toInt.toNat, rest.drop n.toInt.toNat, ?_, ?_, ?_⟩
      · rw [hdrop, append_assoc, cons_append, take_append_drop]
      · refine ⟨length, n, ?_, hn, ?_⟩
        · rw [hvalue']
        · rw [hvalue', length_take, min_eq_left hlen]
          omega
      · rw [length_append, length_cons, length_take, min_eq_left hlen]
        omega

theorem decodeBytes_complete {text : Bytes}
    (hfits : bytes.length ≤ isizeMax) (hb : BytesText text b) (h : bytes.drop pos = text ++ rest) :
    decodeBytes bytes pos = .ok (b, pos + text.length) := by
  obtain ⟨length, n, rfl, hn, hlen⟩ := hb
  rw [append_assoc, cons_append] at h
  have hrest : bytes.drop (pos + length.length + 1) = b ++ rest := by
    have := drop_of_drop (length ++ [byteLenEnd]) (h.trans (append_cons length byteLenEnd _))
    rwa [List.length_append, List.length_singleton, ← Nat.add_assoc] at this
  have htotal := congrArg List.length h
  rw [List.length_drop, List.length_append, List.length_cons, List.length_append] at htotal
  have hpos : pos + length.length + 1 ≤ bytes.length := by omega
  have hn0 : n.toInt.toNat = b.length := by omega
  have htail : (slice bytes (pos + length.length + 1) bytes.length :
      BencodeParseResult Slice) = .ok ⟨pos + length.length + 1, b ++ rest⟩ := by
    rw [slice_eq_ok, take_length, hrest]
    exact ⟨hpos, le_rfl, rfl⟩
  rw [decodeBytes, decodeInt_complete hfits isNumeric_byteLenEnd hn h, ok_bind]
  simp only
  rw [if_neg (by omega), htail, ok_bind, hn0, if_neg (by simp),
    addUsize_of_le bytes.length (by omega) hfits, ok_bind, slice_of_drop hpos hrest, ok_bind,
    length_append, length_cons]
  congr 2
  omega

end BitTorrent.Bencode
