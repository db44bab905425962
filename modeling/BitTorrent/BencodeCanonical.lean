import BitTorrent.BencodeAccess
import BitTorrent.BencodeBuffer

/-! Canonical spellings. The decoder rejects a negative zero and zero padding, and with the key order
checked it takes every value in one spelling only, but for one: `str::parse::<i64>` takes a leading
plus sign, which also hides zero padding. `numberTexts` finds the numbers of an input as the decoder
meets them, and the spelling is the encoder's exactly when none of them has a plus sign. -/

namespace BitTorrent.Bencode

open Rust List BencodeRef

/-- The texts of all numbers in a bencoded input, in order: integers, and lengths of byte strings
and keys. -/
def numberTexts (bytes : Bytes) : List Bytes :=
  match bytes with
  | [] => []
  | first :: rest =>
    if first = listStart ∨ first = dictStart ∨ first = benEnd then numberTexts rest
    else if first = intStart then
      let number := rest.takeWhile (· != benEnd)
      number :: numberTexts (rest.drop (number.length + 1))
    else
      let length := (first :: rest).takeWhile (· != byteLenEnd)
      length :: numberTexts (rest.drop (length.length + (signedValue length).toNat))
termination_by bytes.length

/-- No number is written with a plus sign. -/
def PlusFree (bytes : Bytes) : Prop := ∀ number ∈ numberTexts bytes, number.head? ≠ some 43

instance (bytes : Bytes) : Decidable (PlusFree bytes) :=
  inferInstanceAs (Decidable (∀ number ∈ numberTexts bytes, number.head? ≠ some 43))

/-! ### Reading the numbers -/

theorem plusFree_nil : PlusFree [] := by
  rw [PlusFree, numberTexts]
  exact fun _ h => (by cases h)

theorem plusFree_marker {first : UInt8}
    (hfirst : first = listStart ∨ first = dictStart ∨ first = benEnd) (rest : Bytes) :
    PlusFree (first :: rest) ↔ PlusFree rest := by
  rw [PlusFree, PlusFree, numberTexts, if_pos hfirst]

variable {text : Bytes} {n : Int64}

theorem takeWhile_delim {delim : UInt8} (htext : NumberText text n)
    (hdelim : isNumeric delim = false) (rest : Bytes) :
    (text ++ delim :: rest).takeWhile (· != delim) = text := by
  rw [takeWhile_append_of_pos, takeWhile_cons_of_neg, append_nil]
  · simp
  · intro b hb
    rw [bne_iff_ne]
    rintro rfl
    rw [htext.isNumeric_of_mem hb] at hdelim
    cases hdelim

theorem drop_delim (text rest : Bytes) (delim : UInt8) :
    (text ++ delim :: rest).drop (text.length + 1) = rest := by
  rw [← drop_drop, drop_left, drop_one, tail_cons]

variable {number : Bytes}

theorem plusFree_int (h : NumberText number n) (rest : Bytes) :
    PlusFree (intStart :: (number ++ benEnd :: rest)) ↔ number.head? ≠ some 43 ∧ PlusFree rest := by
  rw [PlusFree, PlusFree, numberTexts, if_neg (by decide), if_pos rfl]
  simp only
  rw [takeWhile_delim h isNumeric_benEnd, drop_delim, forall_mem_cons]

variable {b : Bytes}

theorem plusFree_bytes {length : Bytes} (h : NumberText length n) (hn : n.toInt = b.length) (rest : Bytes) :
    PlusFree (length ++ byteLenEnd :: (b ++ rest)) ↔ length.head? ≠ some 43 ∧ PlusFree rest := by
  have htake := takeWhile_delim h isNumeric_byteLenEnd (b ++ rest)
  have hvalue : (signedValue length).toNat = b.length := by
    rw [← (parseI64_eq_some.mp h.parse).2.2, hn, Int.toNat_natCast]
  have hdrop := drop_delim length (b ++ rest) byteLenEnd
  obtain ⟨first, more, rfl⟩ := exists_cons_of_ne_nil h.ne_nil
  have hfirst := h.isNumeric_of_mem mem_cons_self
  have hmarker : ∀ marker, isNumeric marker = false → first ≠ marker := by
    rintro marker hfalse rfl
    rw [hfirst] at hfalse
    cases hfalse
  have hcontainer : ¬ (first = listStart ∨ first = dictStart ∨ first = benEnd) := by
    rintro (heq | heq | heq)
    · exact hmarker listStart (by decide) heq
    · exact hmarker dictStart (by decide) heq
    · exact hmarker benEnd (by decide) heq
  rw [cons_append] at htake hdrop ⊢
  rw [PlusFree, PlusFree, numberTexts, if_neg hcontainer, if_neg (hmarker intStart (by decide))]
  simp only
  rw [htake, hvalue, forall_mem_cons, ← drop_drop]
  rw [drop_succ_cons] at hdrop
  rw [hdrop, drop_left]

/-- A spelled number without a plus sign is the number as the encoder writes it. -/
theorem NumberText.eq_decimalInt (h : NumberText number n)
    (hplus : number.head? ≠ some 43) : number = decimalInt n.toInt :=
  (decimalInt_of_parseI64 h.parse hplus h.noNegativeZero h.noZeroPadding).symm

theorem decimalInt_head (n : Int) : (decimalInt n).head? ≠ some 43 := by
  unfold decimalInt
  split
  · simp
  · exact fun h => decimal_head_not_sign _ (Or.inl h)

theorem BytesText.plusFree (h : BytesText text b) (rest : Bytes) :
    PlusFree (text ++ rest) ↔ text = encodeBytes b ∧ PlusFree rest := by
  obtain ⟨length, n, rfl, hlength, hn⟩ := h
  have hdecimal : decimalInt n.toInt = decimal b.length := by
    rw [hn]
    rfl
  rw [append_assoc, cons_append, plusFree_bytes hlength hn, encodeBytes, append_left_inj]
  refine and_congr_left' ⟨fun hplus => ?_, fun heq => ?_⟩
  · rw [hlength.eq_decimalInt hplus, hdecimal]
  · rw [heq, ← hdecimal]
    exact decimalInt_head _

/-! ### Canonical values -/

variable {rest : Bytes} {ι : Type} {g : ι → Bytes} {l : List ι}

/-- `f` spells every item of a list in the canonical way `g` if it has no plus sign. -/
theorem flatMap_canonical {f : ι → Bytes}
    (h : ∀ x ∈ l, ∀ rest, PlusFree (f x ++ rest) → f x = g x ∧ PlusFree rest)
    (hfree : PlusFree (l.flatMap f ++ rest)) : l.flatMap f = l.flatMap g ∧ PlusFree rest := by
  induction l with
  | nil => exact ⟨rfl, hfree⟩
  | cons x l ih =>
    rw [flatMap_cons, append_assoc] at hfree
    obtain ⟨hx, hfree⟩ := h x mem_cons_self _ hfree
    obtain ⟨hl, hfree⟩ := ih (fun y hy => h y (mem_cons_of_mem x hy)) hfree
    exact ⟨by rw [flatMap_cons, flatMap_cons, hx, hl], hfree⟩

theorem flatMap_plusFree
    (h : ∀ x ∈ l, ∀ rest, PlusFree rest → PlusFree (g x ++ rest)) (hrest : PlusFree rest) :
    PlusFree (l.flatMap g ++ rest) := by
  induction l with
  | nil => exact hrest
  | cons x l ih =>
    rw [flatMap_cons, append_assoc]
    exact h x mem_cons_self _ (ih fun y hy => h y (mem_cons_of_mem x hy))

variable {r : BencodeRef} {k : Nat}

theorem Spelled.canonical (h : Spelled true k r) :
    ∀ rest, PlusFree (r.text ++ rest) → r.text = encode r.value ∧ PlusFree rest := by
  induction h with
  | @int k n s number layout spelling =>
    intro rest hfree
    rw [text, buffer, layout] at hfree ⊢
    rw [cons_append, append_assoc] at hfree
    obtain ⟨hplus, hfree⟩ := (plusFree_int spelling rest).mp hfree
    refine ⟨?_, hfree⟩
    rw [spelling.eq_decimalInt hplus]
    rfl
  | bytes head digit spelling =>
    intro rest hfree
    exact (spelling.plusFree rest).mp hfree
  | @list k l s layout items ih =>
    intro rest hfree
    rw [text, buffer, layout, rowsText_listRows] at hfree ⊢
    rw [cons_append, append_assoc, plusFree_marker (by decide)] at hfree
    obtain ⟨htext, hfree⟩ := flatMap_canonical ih hfree
    refine ⟨?_, (plusFree_marker (by decide) rest).mp hfree⟩
    rw [value, encode, encodeList_eq, valueList_eq, flatMap_map, htext]
  | @dict k d s entries layout keys perm sorted order items ih =>
    intro rest hfree
    obtain rfl : entries.map Prod.snd = d := (order rfl).perm_eq sorted perm
    have hentries : ∀ e ∈ entries, ∀ rest, PlusFree (e.1 ++ e.2.2.text ++ rest) →
        e.1 ++ e.2.2.text = encodeBytes e.2.1 ++ encode e.2.2.value ∧ PlusFree rest := by
      intro e he rest hfree
      rw [append_assoc, (keys e he).plusFree] at hfree
      obtain ⟨hvalue, hrest⟩ := ih e.2 (mem_map.mpr ⟨e, he, rfl⟩) rest hfree.2
      exact ⟨by rw [hfree.1, hvalue], hrest⟩
    rw [text, buffer, layout, rowsText_dictRows] at hfree ⊢
    rw [cons_append, append_assoc, plusFree_marker (by decide)] at hfree
    obtain ⟨htext, hfree⟩ := flatMap_canonical hentries hfree
    refine ⟨?_, (plusFree_marker (by decide) rest).mp hfree⟩
    rw [value, valueDict_eq,
      encode_dict_of_sorted ((OrderedMap.sorted_map _).mpr sorted), htext, map_map,
      flatMap_map]
    rfl

theorem plusFree_encode {v : Inner} (hv : v.Valid) : ∀ rest, PlusFree rest → PlusFree (encode v ++ rest) := by
  induction hv with
  | int n =>
    intro rest hrest
    rw [encode, encodeInt, cons_append, append_assoc]
    exact (plusFree_int (NumberText.of_decimalInt n) rest).mpr ⟨decimalInt_head _, hrest⟩
  | bytes hb =>
    intro rest hrest
    exact ((bytesText_encodeBytes hb).plusFree rest).mpr ⟨rfl, hrest⟩
  | list hl ih =>
    intro rest hrest
    rw [encode, encodeList_eq, cons_append, append_assoc, plusFree_marker (by decide)]
    exact flatMap_plusFree ih ((plusFree_marker (by decide) rest).mpr hrest)
  | @dict d hd hkeys hvalues ih =>
    intro rest hrest
    rw [encode_dict_of_sorted hd, cons_append, append_assoc,
      plusFree_marker (by decide)]
    refine flatMap_plusFree ?_ ((plusFree_marker (by decide) rest).mpr hrest)
    intro e he rest hrest
    rw [append_assoc]
    exact ((bytesText_encodeBytes (hkeys e he)).plusFree _).mpr ⟨rfl, ih e he rest hrest⟩

theorem BytesText.length_le (h : BytesText text b) : b.length ≤ isizeMax := by
  obtain ⟨length, n, -, -, hn⟩ := h
  have := n.toInt_lt
  simp only [isizeMax]
  omega

variable {sort : Bool}

theorem Spelled.valid (h : Spelled sort k r) : r.value.Valid := by
  induction h with
  | int layout spelling => exact .int _
  | bytes head digit spelling => exact .bytes spelling.length_le
  | list layout items ih =>
    rw [value, valueList_eq]
    refine .list fun v hv => ?_
    obtain ⟨r, hr, rfl⟩ := mem_map.mp hv
    exact ih r hr
  | dict entries layout keys perm sorted order items ih =>
    rw [value, valueDict_eq]
    refine .dict ((OrderedMap.sorted_map _).mpr sorted) (fun e' he' => ?_) fun e' he' => ?_
    · obtain ⟨e, he, rfl⟩ := mem_map.mp he'
      obtain ⟨entry, hentry, rfl⟩ := mem_map.mp (perm.mem_iff.mpr he)
      exact (keys entry hentry).length_le
    · obtain ⟨e, he, rfl⟩ := mem_map.mp he'
      exact ih e he

theorem decode_strict_text {bytes : Buffer} {maxRecursion : Nat}
    (h : decode bytes ⟨maxRecursion, sort, true⟩ = .ok r) :
    bytes.data = r.text ∧ Spelled sort maxRecursion r := by
  obtain ⟨next, hread, hfull⟩ := decode_sound h
  have hlayout := hread.layout
  rw [hfull rfl, drop_length, append_nil] at hlayout
  exact ⟨hlayout, hread.spelled⟩

/-- Strict decoding is canonical exactly on the inputs that write no number with a plus sign. -/
theorem encode_decode_iff {maxRecursion : Nat} {bytes : Buffer} {r : BencodeRef}
    (h : decode bytes ⟨maxRecursion, true, true⟩ = .ok r) :
    (encode r.value = bytes.data ↔ PlusFree bytes.data) ∧
    ∀ (maxRecursion' : Nat) (bytes' : Buffer) (r' : BencodeRef),
      decode bytes' ⟨maxRecursion', true, true⟩ = .ok r' → r'.value = r.value →
      PlusFree bytes.data → PlusFree bytes'.data → bytes'.data = bytes.data := by
  have canonical : ∀ (maxRecursion : Nat) (bytes : Buffer) (r : BencodeRef),
      decode bytes ⟨maxRecursion, true, true⟩ = .ok r → PlusFree bytes.data →
      encode r.value = bytes.data := by
    intro maxRecursion bytes r h hfree
    obtain ⟨htext, hspelled⟩ := decode_strict_text h
    rw [htext] at hfree ⊢
    exact (hspelled.canonical [] (by rw [append_nil]; exact hfree)).1.symm
  refine ⟨⟨fun heq => ?_, canonical _ bytes r h⟩, fun _ bytes' r' h' hvalue hfree hfree' => ?_⟩
  · have hfree := plusFree_encode (decode_strict_text h).2.valid [] plusFree_nil
    rwa [append_nil, heq] at hfree
  · rw [← canonical _ bytes r h hfree, ← canonical _ bytes' r' h' hfree', hvalue]

theorem encode_decode_iff_int :
    (encode (.int 5) = [105, 53, 101] ↔ PlusFree [105, 53, 101]) ∧
    ∀ (maxRecursion' : Nat) (bytes' : Buffer) (r' : BencodeRef),
      decode bytes' ⟨maxRecursion', true, true⟩ = .ok r' → r'.value = .int 5 →
      PlusFree [105, 53, 101] → PlusFree bytes'.data → bytes'.data = [105, 53, 101] := by
  have h : decode ⟨[105, 53, 101], by decide⟩ ⟨1, true, true⟩ =
      .ok (.int 5 ⟨0, [105, 53, 101]⟩) := by decide +kernel
  exact encode_decode_iff h

/-- `i+5e` is accepted for the integer that is written `i5e`. -/
theorem decode_plus_sign :
    decode ⟨[105, 43, 53, 101], by decide⟩ ⟨1, true, true⟩ =
      .ok (.int 5 ⟨0, [105, 43, 53, 101]⟩) ∧
    decode ⟨[105, 53, 101], by decide⟩ ⟨1, true, true⟩ =
      .ok (.int 5 ⟨0, [105, 53, 101]⟩) ∧
    encode (.int 5) ≠ [105, 43, 53, 101] := by
  decide +kernel

/-! ### Encoding anew -/

open Bencode.Inner

theorem Spelled.height_le {sort : Bool} {k : Nat} {r : BencodeRef} (h : Spelled sort k r) : r.value.height ≤ k := by
  induction h with
  | int => exact Nat.le_add_left ..
  | bytes => exact Nat.le_add_left ..
  | list layout items ih =>
    rw [value, valueList_eq, height]
    exact Nat.succ_le_succ (heightList_le (forall_mem_map.mpr ih))
  | dict entries layout keys perm sorted order items ih =>
    rw [value, valueDict_eq, height]
    exact Nat.succ_le_succ (heightDict_le (forall_mem_map.mpr ih))

/-- Whatever some options accept, its value encoded anew is accepted as the same value under all options
that nest as deep, the strict ones included. -/
theorem decode_reencoded {bytes : Buffer} {opts : BDecodeOpt} {r : BencodeRef} (h : decode bytes opts = .ok r)
    (opts' : BDecodeOpt) (hdeep : opts.maxRecursion ≤ opts'.maxRecursion) (out : Buffer)
    (hout : out.data = encode r.value) :
    ∃ r', decode out opts' = .ok r' ∧ r'.value = r.value ∧ r'.buffer = ⟨0, out.data⟩ := by
  obtain ⟨next, hread, -⟩ := decode_sound h
  exact hread.spelled.valid.decode_eq (hread.spelled.height_le.trans hdeep) hout

/-- A plus sign is gone. -/
theorem decode_reencoded_plus : ∃ r, decode ⟨[105, 55, 101], by decide⟩ ⟨1, true, true⟩ = .ok r ∧ r.value = .int 7 := by
  have h : decode ⟨[105, 43, 55, 101], by decide⟩ ⟨1, false, false⟩ = .ok (.int 7 ⟨0, [105, 43, 55, 101]⟩) := by
    decide +kernel
  obtain ⟨r, hr, hvalue, -⟩ := decode_reencoded h ⟨1, true, true⟩ le_rfl ⟨[105, 55, 101], by decide⟩ (by decide +kernel)
  exact ⟨r, hr, hvalue⟩

end BitTorrent.Bencode
