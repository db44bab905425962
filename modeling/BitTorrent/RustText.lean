import BitTorrent.RustRun
import Mathlib.Data.Nat.Digits.Lemmas

/-! Text of the standard library: UTF-8 validation, the decimal text of an integer and the text
`str::parse::<i64>` reads. Parsing takes an optional sign of either kind and any number of leading
zeros; printing writes no plus sign and no leading zero. -/

namespace BitTorrent.Rust

open List Nat

/-! ### UTF-8 -/

def isContinuation (b : UInt8) : Bool := 0x80 ≤ b && b ≤ 0xBF

/-- The second byte of a three-byte sequence, which excludes overlong forms and surrogates. -/
def isSecondOfThree (a b : UInt8) : Bool :=
  if a = 0xE0 then 0xA0 ≤ b && b ≤ 0xBF
  else if a = 0xED then 0x80 ≤ b && b ≤ 0x9F
  else isContinuation b

/-- The second byte of a four-byte sequence, which keeps the code point below `0x110000`. -/
def isSecondOfFour (a b : UInt8) : Bool :=
  if a = 0xF0 then 0x90 ≤ b && b ≤ 0xBF
  else if a = 0xF4 then 0x80 ≤ b && b ≤ 0x8F
  else isContinuation b

/-- Whether `str::from_utf8` accepts the bytes. -/
def isUtf8 : Bytes → Bool
  | [] => true
  | [a] => a < 0x80
  | [a, b] =>
    if a < 0x80 then isUtf8 [b]
    else 0xC2 ≤ a && a ≤ 0xDF && isContinuation b
  | [a, b, c] =>
    if a < 0x80 then isUtf8 [b, c]
    else if a < 0xE0 then 0xC2 ≤ a && isContinuation b && isUtf8 [c]
    else a < 0xF0 && isSecondOfThree a b && isContinuation c
  | a :: b :: c :: d :: rest =>
    if a < 0x80 then isUtf8 (b :: c :: d :: rest)
    else if a < 0xE0 then 0xC2 ≤ a && isContinuation b && isUtf8 (c :: d :: rest)
    else if a < 0xF0 then isSecondOfThree a b && isContinuation c && isUtf8 (d :: rest)
    else a ≤ 0xF4 && isSecondOfFour a b && isContinuation c && isContinuation d && isUtf8 rest

theorem isUtf8_ascii_cons {a : UInt8} (rest : Bytes) (ha : a < 0x80) : isUtf8 (a :: rest) = isUtf8 rest := by
  match rest with
  | [] => simp [isUtf8, ha]
  | [b] => conv_lhs => rw [isUtf8, if_pos ha]
  | [b, c] => conv_lhs => rw [isUtf8, if_pos ha]
  | b :: c :: d :: rest => conv_lhs => rw [isUtf8, if_pos ha]

variable {text : Bytes}

theorem isUtf8_ascii_append (rest : Bytes) (h : ∀ b ∈ text, b < 0x80) :
    isUtf8 (text ++ rest) = isUtf8 rest := by
  induction text with
  | nil => rfl
  | cons a text ih =>
    rw [cons_append, isUtf8_ascii_cons _ (h a mem_cons_self)]
    exact ih fun b hb => h b (mem_cons_of_mem a hb)

theorem isUtf8_of_ascii (h : ∀ b ∈ text, b < 0x80) : isUtf8 text = true := by
  rw [← append_nil text, isUtf8_ascii_append [] h]
  rfl

/-- The bytes of a text that has only ASCII characters. -/
def ascii (text : String) : Bytes := text.toList.map fun c => UInt8.ofNat (c.toNat % 128)

variable {b : UInt8}

theorem lt_of_mem_ascii {text : String} (hb : b ∈ ascii text) : b < 0x80 := by
  obtain ⟨c, -, rfl⟩ := mem_map.mp hb
  rw [UInt8.lt_iff_toNat_lt, UInt8.toNat_ofNat']
  exact (mod_le _ _).trans_lt (mod_lt _ (by decide))

/-- A `str`. -/
structure Str where
  bytes : Bytes
  utf8 : isUtf8 bytes = true
  deriving DecidableEq

/-- `str::from_utf8`, without the error. -/
def Str.fromUtf8 (bytes : Bytes) : Option Str :=
  if h : isUtf8 bytes = true then some ⟨bytes, h⟩ else none

/-- A text that starts with ASCII characters only. -/
def Str.asciiAppend (text : String) (rest : Str) : Str :=
  ⟨ascii text ++ rest.bytes, (isUtf8_ascii_append _ fun _ => lt_of_mem_ascii).trans rest.utf8⟩

/-- A text of ASCII characters only. -/
def Str.ofAscii (text : String) : Str := ⟨ascii text, isUtf8_of_ascii fun _ => lt_of_mem_ascii⟩

/-! ### Decimal digits -/

def isDigit (b : UInt8) : Bool := 48 ≤ b && b ≤ 57

def digitByte (d : Nat) : UInt8 := UInt8.ofNat (48 + d)

def digitValue (b : UInt8) : Nat := b.toNat - 48

theorem isDigit_iff (b : UInt8) : isDigit b = true ↔ 48 ≤ b.toNat ∧ b.toNat ≤ 57 := by
  rw [isDigit, Bool.and_eq_true, decide_eq_true_eq, decide_eq_true_eq, UInt8.le_iff_toNat_le,
    UInt8.le_iff_toNat_le]
  rfl

variable {d : Nat}

theorem toNat_digitByte (hd : d < 10) : (digitByte d).toNat = 48 + d := by
  rw [digitByte, UInt8.toNat_ofNat']
  omega

theorem isDigit_digitByte (hd : d < 10) : isDigit (digitByte d) = true := by
  rw [isDigit_iff, toNat_digitByte hd]
  omega

theorem digitValue_digitByte (hd : d < 10) : digitValue (digitByte d) = d := by
  rw [digitValue, toNat_digitByte hd]
  omega

theorem digitByte_digitValue (hb : isDigit b = true) : digitByte (digitValue b) = b := by
  rw [isDigit_iff] at hb
  apply UInt8.toNat_inj.mp
  rw [toNat_digitByte (by rw [digitValue]; omega), digitValue]
  omega

theorem digitValue_lt (hb : isDigit b = true) : digitValue b < 10 := by
  rw [isDigit_iff] at hb
  rw [digitValue]
  omega

/-- The number a text of digits spells, most significant digit first. -/
def digitsValue (digits : Bytes) : Nat := Nat.ofDigits 10 (digits.reverse.map digitValue)

/-- The digit loop of `from_str_radix`, without its overflow checks: the range is checked on the
whole number, which the partial results never exceed. -/
def readDigits (acc : Nat) : Bytes → Option Nat
  | [] => some acc
  | b :: rest => if isDigit b then readDigits (acc * 10 + digitValue b) rest else none

variable {digits : Bytes} {n : Nat}

theorem readDigits_eq_some {acc : Nat} : readDigits acc digits = some n ↔
      (∀ b ∈ digits, isDigit b = true) ∧ n = digitsValue digits + 10 ^ digits.length * acc := by
  induction digits generalizing acc with
  | nil =>
    have hvalue : digitsValue [] = 0 := rfl
    simp only [readDigits, hvalue, Option.some.injEq, length_nil, pow_zero, one_mul, zero_add]
    exact ⟨fun h => ⟨fun b hb => absurd hb not_mem_nil, h.symm⟩, fun h => h.2.symm⟩
  | cons b rest ih =>
    rw [readDigits]
    by_cases hb : isDigit b = true
    · have hvalue : digitsValue (b :: rest) = digitsValue rest + 10 ^ rest.length * digitValue b := by
        rw [digitsValue, digitsValue, reverse_cons, map_append, ofDigits_append]
        simp
      rw [if_pos hb, ih, hvalue, length_cons, forall_mem_cons]
      constructor
      · rintro ⟨hrest, rfl⟩
        exact ⟨⟨hb, hrest⟩, by ring⟩
      · rintro ⟨⟨-, hrest⟩, rfl⟩
        exact ⟨hrest, by ring⟩
    · rw [if_neg hb]
      simp [hb]

/-- The text of `n.to_string()` for an unsigned integer. -/
def decimal (n : Nat) : Bytes := if n = 0 then [48] else (Nat.digits 10 n).reverse.map digitByte

theorem digits_ten_lt (h : d ∈ Nat.digits 10 n) : d < 10 :=
  Nat.digits_lt_base (by decide) h

theorem isDigit_of_mem_decimal (h : b ∈ decimal n) : isDigit b = true := by
  unfold decimal at h
  split at h
  · rw [mem_singleton] at h
    rw [h]
    decide
  · obtain ⟨d, hd, rfl⟩ := mem_map.mp h
    exact isDigit_digitByte (digits_ten_lt (mem_reverse.mp hd))

theorem decimal_ne_nil (n : Nat) : decimal n ≠ [] := by
  unfold decimal
  split
  · simp
  · rename_i hn
    simpa using digits_ne_nil_iff_ne_zero.mpr hn

theorem digitsValue_decimal (n : Nat) : digitsValue (decimal n) = n := by
  unfold decimal
  split
  · rename_i hn
    rw [hn]
    rfl
  · have hmap : (digits 10 n).map (digitValue ∘ digitByte) = digits 10 n := by
      conv_rhs => rw [← map_id (Nat.digits 10 n)]
      exact map_congr_left fun d hd => digitValue_digitByte (digits_ten_lt hd)
    rw [digitsValue, ← map_reverse, reverse_reverse, map_map, hmap, Nat.ofDigits_digits]

theorem decimal_digitsValue {rest : Bytes} (hdigits : ∀ c ∈ b :: rest, isDigit c = true)
    (hlead : b = 48 → rest = []) : decimal (digitsValue (b :: rest)) = b :: rest := by
  by_cases hb : b = 48
  · rw [hlead hb, hb]
    rfl
  · have hvalue : digitValue b ≠ 0 := by
      intro hzero
      have h := (isDigit_iff b).mp (hdigits b mem_cons_self)
      rw [digitValue] at hzero
      exact hb (UInt8.toNat_inj.mp (show b.toNat = 48 by omega))
    have hback : digits 10 (digitsValue (b :: rest)) = (b :: rest).reverse.map digitValue := by
      apply digits_ofDigits 10 (by decide)
      · intro d hd
        obtain ⟨c, hc, rfl⟩ := mem_map.mp hd
        exact digitValue_lt (hdigits c (mem_reverse.mp hc))
      · intro hne
        simpa using hvalue
    have hne : digitsValue (b :: rest) ≠ 0 := by
      intro hzero
      rw [hzero] at hback
      simp at hback
    rw [decimal, if_neg hne, hback, ← map_reverse, reverse_reverse, map_map]
    conv_rhs => rw [← map_id (b :: rest)]
    exact map_congr_left fun c hc => digitByte_digitValue (hdigits c hc)

/-! ### Signed integers -/

/-- The text of `n.to_string()` for a signed integer. -/
def decimalInt (n : Int) : Bytes := if n < 0 then 45 :: decimal n.natAbs else decimal n.natAbs

/-- The value of an `i64` expression whose mathematical result is `n`, if it is in range. -/
def checkedI64 (n : Int) : Option Int64 :=
  if -2 ^ 63 ≤ n ∧ n < 2 ^ 63 then some (Int64.ofInt n) else none

variable {i : Int64}

theorem checkedI64_eq_some {n : Int} : checkedI64 n = some i ↔ i.toInt = n := by
  unfold checkedI64
  split
  · rename_i h
    rw [Option.some.injEq]
    constructor
    · rintro rfl
      exact Int64.toInt_ofInt_of_le h.1 h.2
    · rintro rfl
      exact Int64.ofInt_toInt i
  · rename_i h
    constructor
    · intro hi
      cases hi
    · rintro rfl
      exact absurd ⟨Int64.le_toInt i, Int64.toInt_lt i⟩ h

/-- `str::parse::<i64>` on the bytes of the string. -/
def parseI64 (text : Bytes) : Option Int64 :=
  match text with
  | [] => none
  | b :: rest =>
    if b = 43 ∨ b = 45 then
      if rest = [] then none
      else (readDigits 0 rest).bind fun n => checkedI64 (if b = 45 then -(n : Int) else n)
    else (readDigits 0 (b :: rest)).bind fun n => checkedI64 n

/-- The digits of a signed text, without the sign. -/
def unsignedPart (text : Bytes) : Bytes :=
  if text.head? = some 43 ∨ text.head? = some 45 then text.tail else text

/-- The number a signed text of digits spells. -/
def signedValue (text : Bytes) : Int :=
  if text.head? = some 45 then -(digitsValue text.tail : Int) else digitsValue (unsignedPart text)

theorem readDigits_bind_checkedI64 {f : Nat → Int} :
    (readDigits 0 digits).bind (fun n => checkedI64 (f n)) = some i ↔
      (∀ b ∈ digits, isDigit b = true) ∧ i.toInt = f (digitsValue digits) := by
  rw [Option.bind_eq_some_iff]
  constructor
  · rintro ⟨n, hn, hi⟩
    obtain ⟨hdigits, rfl⟩ := readDigits_eq_some.mp hn
    rw [checkedI64_eq_some, mul_zero, add_zero] at hi
    exact ⟨hdigits, hi⟩
  · rintro ⟨hdigits, hi⟩
    exact ⟨digitsValue digits, readDigits_eq_some.mpr ⟨hdigits, by simp⟩, checkedI64_eq_some.mpr hi⟩

theorem parseI64_eq_some : parseI64 text = some i ↔ unsignedPart text ≠ [] ∧
      (∀ b ∈ unsignedPart text, isDigit b = true) ∧ i.toInt = signedValue text := by
  cases text with
  | nil => simp [parseI64, unsignedPart]
  | cons b rest =>
    rw [parseI64]
    by_cases hsign : b = 43 ∨ b = 45
    · have hpart : unsignedPart (b :: rest) = rest := by
        simp [unsignedPart, hsign]
      have hvalue : signedValue (b :: rest) =
          if b = 45 then -(digitsValue rest : Int) else digitsValue rest := by
        simp [signedValue, hpart]
      rw [if_pos hsign, hpart, hvalue]
      by_cases hrest : rest = []
      · simp [hrest]
      · rw [if_neg hrest, readDigits_bind_checkedI64 (f := fun n => if b = 45 then -(n : Int) else n)]
        simp [hrest]
    · have hpart : unsignedPart (b :: rest) = b :: rest := by
        simp [unsignedPart, hsign]
      have hvalue : signedValue (b :: rest) = digitsValue (b :: rest) := by
        rw [signedValue, hpart, if_neg]
        intro h
        exact hsign (Or.inr (Option.some.inj h))
      rw [if_neg hsign, hpart, hvalue, readDigits_bind_checkedI64 (f := fun n => (n : Int))]
      simp

theorem decimal_head_not_sign (n : Nat) : ¬ ((decimal n).head? = some 43 ∨ (decimal n).head? = some 45) := by
  rintro (h | h)
  · exact absurd (isDigit_of_mem_decimal (mem_of_mem_head? h)) (by decide)
  · exact absurd (isDigit_of_mem_decimal (mem_of_mem_head? h)) (by decide)

theorem unsignedPart_decimalInt (n : Int) : unsignedPart (decimalInt n) = decimal n.natAbs := by
  unfold decimalInt
  split
  · simp [unsignedPart]
  · rw [unsignedPart, if_neg (decimal_head_not_sign _)]

theorem signedValue_decimalInt (n : Int) : signedValue (decimalInt n) = n := by
  have hpart := unsignedPart_decimalInt n
  unfold decimalInt at hpart ⊢
  split
  · rw [signedValue, head?_cons, if_pos rfl, tail_cons, digitsValue_decimal]
    omega
  · rename_i hn
    rw [if_neg hn] at hpart
    rw [signedValue, hpart, if_neg fun h => decimal_head_not_sign _ (Or.inr h), digitsValue_decimal]
    omega

theorem parseI64_decimalInt (i : Int64) : parseI64 (decimalInt i.toInt) = some i := by
  rw [parseI64_eq_some, unsignedPart_decimalInt, signedValue_decimalInt]
  exact ⟨decimal_ne_nil _, fun b hb => isDigit_of_mem_decimal hb, rfl⟩

/-- A text without plus sign, without negative zero and without leading zero is the printed text of
the number it parses to. -/
theorem decimalInt_of_parseI64 (h : parseI64 text = some i)
    (hplus : text.head? ≠ some 43) (hneg : ∀ rest, text ≠ 45 :: 48 :: rest)
    (hzero : ∀ b rest, text ≠ 48 :: b :: rest) : decimalInt i.toInt = text := by
  obtain ⟨hne, hdigits, hvalue⟩ := parseI64_eq_some.mp h
  rw [hvalue]
  by_cases hminus : text.head? = some 45
  · obtain ⟨rest, rfl⟩ : ∃ rest, text = 45 :: rest := by
      cases text with
      | nil => simp at hminus
      | cons b rest => exact ⟨rest, by rw [Option.some.inj hminus]⟩
    have hpart : unsignedPart (45 :: rest) = rest := by simp [unsignedPart]
    rw [hpart] at hne hdigits
    cases rest with
    | nil => exact absurd rfl hne
    | cons b rest =>
      have hb : b ≠ 48 := fun hb => hneg rest (by rw [hb])
      have hback := decimal_digitsValue hdigits fun h => absurd h hb
      have hpos : digitsValue (b :: rest) ≠ 0 := by
        intro hzero'
        rw [hzero'] at hback
        exact hb (head_eq_of_cons_eq hback).symm
      rw [signedValue, if_pos hminus, tail_cons, decimalInt, if_pos (by omega), Int.natAbs_neg,
        Int.natAbs_natCast, hback]
  · have hpart : unsignedPart text = text := by
      rw [unsignedPart, if_neg]
      rintro (h | h)
      · exact hplus h
      · exact hminus h
    rw [hpart] at hne hdigits
    cases text with
    | nil => exact absurd rfl hne
    | cons b rest =>
      have hlead : b = 48 → rest = [] := by
        intro hb
        cases rest with
        | nil => rfl
        | cons c rest => exact absurd (by rw [hb]) (hzero c rest)
      rw [signedValue, if_neg hminus, hpart, decimalInt, if_neg (by omega), Int.natAbs_natCast,
        decimal_digitsValue hdigits hlead]

/-! ### Paths -/

/-- A path on Unix. -/
structure PathBuf where
  inner : Bytes
  deriving DecidableEq

namespace PathBuf

def new : PathBuf := ⟨[]⟩

def separator : UInt8 := 47

/-- An absolute path replaces what is there, another one is appended behind a separator. -/
def push (buf : PathBuf) (path : Str) : PathBuf :=
  if path.bytes.head? = some separator then ⟨path.bytes⟩
  else if buf.inner.getLast?.any fun b => b ≠ separator then ⟨buf.inner ++ separator :: path.bytes⟩
  else ⟨buf.inner ++ path.bytes⟩

/-- `Path::join`: a copy onto which the other path is pushed. -/
def join (buf path : PathBuf) : PathBuf :=
  if path.inner.head? = some separator then path
  else if buf.inner.getLast?.any fun b => b ≠ separator then ⟨buf.inner ++ separator :: path.inner⟩
  else ⟨buf.inner ++ path.inner⟩

end PathBuf

end BitTorrent.Rust
