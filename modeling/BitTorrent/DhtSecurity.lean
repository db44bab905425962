import BitTorrent.DhtNode
import BitTorrent.Convert
import Mathlib.Data.FinEnum

/-! Node ids that are bound to an address. The first 21 bits of such an id are those of a checksum of the
masked address, and the last byte is a random one that went into the checksum. The id is made from all
octets of the address, while the check always sums the last four bytes of the word the address sits in:
for an address of eight octets the two checksums are of different bytes. The results hold for any
checksum; the one of the program is `castagnoli`. -/

namespace BitTorrent.Dht

open Rust

def ipv4Mask : UInt32 := 0x030F3FFF

def crc32cArgSliceSize : Nat := 8

/-! ### The checksum -/

def crcShift (crc : UInt32) : UInt32 :=
  if crc &&& 1 = 1 then (crc >>> 1) ^^^ 0x82F63B78 else crc >>> 1

def crcByte (crc : UInt32) (b : UInt8) : UInt32 := Nat.repeat crcShift 8 (crc ^^^ b.toUInt32)

/-- `CRC_32_ISCSI`: reflected, with all bits set before and flipped after. -/
def castagnoli (bytes : Bytes) : UInt32 := bytes.foldl crcByte 0xFFFFFFFF ^^^ 0xFFFFFFFF

/-! ### Making an id -/

def maskIpv4Be (addr : Ipv4Addr) : UInt32 := UInt32.ofNat (ofBytesBe addr.toList) &&& ipv4Mask

/-- The random bytes that an id is filled up with. -/
structure Filler where
  mid : UInt8
  bytes : Vector UInt8 16

/-- The id that carries a checksum and the byte that went into it. -/
def compliantId (crc32cResult : UInt32) (rand : UInt8) (filler : Filler) : Vector UInt8 20 :=
  let crc32cResult1 := (crc32cResult >>> 16).toUInt8
  let mid := ((crc32cResult >>> 8) &&& 0xF8).toUInt8 ||| (filler.mid &&& 0x07)
  ⟨((crc32cResult >>> 24).toUInt8 :: crc32cResult1 :: mid :: (filler.bytes.toList ++ [rand])).toArray, by simp⟩

variable (checksum : Bytes → UInt32)

def generateCompliantId (maskedIpBe : UInt64) (numOctets : Nat) (rand : UInt8) (filler : Filler) :
    Run Empty (Vector UInt8 20) := do
  let r := rand &&& 0x07
  let maskedIpBytes := eightBytesToArray maskedIpBe
  let startingByte ← subUsize maskedIpBytes.length numOctets
  let first ← unwrapSome maskedIpBytes[startingByte]?
  let maskedIpBytes := maskedIpBytes.set startingByte (first ||| r <<< 5)
  let argument ← slice maskedIpBytes startingByte maskedIpBytes.length
  .ok (compliantId (checksum argument.bytes) rand filler)

def generateCompliantIdIpv4 (addr : Ipv4Addr) (rand : UInt8) (filler : Filler) :
    Run Empty (Vector UInt8 20) :=
  generateCompliantId checksum (maskIpv4Be addr).toUInt64 4 rand filler

/-! ### Checking an id -/

def isCompliantId (crc32cResult : UInt32) (idBytes : Vector UInt8 20) : Bool :=
  idBytes[0] == (crc32cResult >>> 24).toUInt8 && idBytes[1] == (crc32cResult >>> 16).toUInt8 &&
    (idBytes[2] &&& (0xF8 : UInt8)) == ((crc32cResult >>> 8).toUInt8 &&& (0xF8 : UInt8))

def isCompliantAddr (maskedIpBe : UInt64) (numOctets : Nat) (idBytes : Vector UInt8 20) :
    Run Empty Bool := do
  if ¬ numOctets ≤ crc32cArgSliceSize then .error .panic
  else do
    let rand := idBytes[19]
    let r := rand &&& 0x07
    let ipBitsUsed ← mulUsize numOctets 8
    let shift ← subUsize ipBitsUsed 3
    let randMaskedIp := maskedIpBe ||| r.toUInt64 <<< UInt64.ofNat shift
    let randMaskedIpBytes := eightBytesToArray randMaskedIp
    let _startingByte ← subUsize randMaskedIpBytes.length numOctets
    let argument ← slice randMaskedIpBytes 4 randMaskedIpBytes.length
    .ok (isCompliantId (checksum argument.bytes) idBytes)

/-- No address is exempt from the check. -/
def isSecurityCompliantIpv4Exempt (_addr : Ipv4Addr) : Bool := false

def isCompliantIpv4Addr (addr : Ipv4Addr) (idBytes : Vector UInt8 20) : Run Empty Bool :=
  if isSecurityCompliantIpv4Exempt addr then .ok true
  else isCompliantAddr checksum (maskIpv4Be addr).toUInt64 4 idBytes

/-! ### The bytes that are summed -/

theorem eightBytesToArray_or (x y : UInt64) :
    eightBytesToArray (x ||| y) = List.zipWith (· ||| ·) (eightBytesToArray x) (eightBytesToArray y) := by
  simp only [eightBytesToArray, UInt64.shiftRight_or, UInt64.toUInt8_or, List.zipWith_cons_cons,
    List.zipWith_nil_left]

theorem eightBytesToArray_low_octet : ∀ rand : UInt8,
    eightBytesToArray ((rand &&& 7).toUInt64 <<< 29) = [0, 0, 0, 0, (rand &&& 7) <<< (5 : UInt8), 0, 0, 0] := by
  decide +kernel

theorem eightBytesToArray_high_octet : ∀ rand : UInt8,
    eightBytesToArray ((rand &&& 7).toUInt64 <<< 61) = [(rand &&& 7) <<< (5 : UInt8), 0, 0, 0, 0, 0, 0, 0] := by
  decide +kernel

/-- The word of the address with the random bits in front of its octets. -/
def randMaskedIp (maskedIpBe : UInt64) (numOctets : Nat) (rand : UInt8) : UInt64 :=
  maskedIpBe ||| (rand &&& 7).toUInt64 <<< UInt64.ofNat (numOctets * 8 - 3)

variable {checksum} {maskedIpBe : UInt64} {numOctets : Nat} {rand : UInt8} {filler : Filler}

theorem generateCompliantId_eq (hoctets : numOctets = 4 ∨ numOctets = 8) :
    generateCompliantId checksum maskedIpBe numOctets rand filler =
      .ok (compliantId (checksum ((eightBytesToArray (randMaskedIp maskedIpBe numOctets rand)).drop
        (8 - numOctets))) rand filler) := by
  rcases hoctets with rfl | rfl
  · have hword : randMaskedIp maskedIpBe 4 rand = maskedIpBe ||| (rand &&& 7).toUInt64 <<< 29 := rfl
    rw [hword, eightBytesToArray_or, eightBytesToArray_low_octet]
    simp [eightBytesToArray, List.zipWith]
    rfl
  · have hword : randMaskedIp maskedIpBe 8 rand = maskedIpBe ||| (rand &&& 7).toUInt64 <<< 61 := rfl
    rw [hword, eightBytesToArray_or, eightBytesToArray_high_octet]
    simp [eightBytesToArray, List.zipWith]
    rfl

theorem isCompliantAddr_eq (hoctets : numOctets = 4 ∨ numOctets = 8) {idBytes : Vector UInt8 20} :
    isCompliantAddr checksum maskedIpBe numOctets idBytes =
      .ok (isCompliantId (checksum ((eightBytesToArray (randMaskedIp maskedIpBe numOctets idBytes[19])).drop
        4)) idBytes) := by
  rcases hoctets with rfl | rfl
  · rfl
  · rfl

theorem toNat_and_f8 : ∀ x : UInt8, (x &&& 0xF8).toNat = x.toNat / 8 * 8 := by
  decide +kernel

theorem compliantId_rand (crc : UInt32) : (compliantId crc rand filler)[19] = rand := by
  simp [compliantId]

theorem or_and_distrib (a b c : UInt8) : (a ||| b) &&& c = a &&& c ||| b &&& c := by
  rw [← UInt8.toBitVec_inj]
  exact BitVec.and_or_distrib_right

theorem compliantId_mid (crc : UInt32) :
    (compliantId crc rand filler)[2] &&& (0xF8 : UInt8) = (crc >>> 8).toUInt8 &&& 0xF8 := by
  have hbyte : (compliantId crc rand filler)[2] = ((crc >>> 8) &&& 0xF8).toUInt8 ||| (filler.mid &&& 7) := rfl
  have hlow : (filler.mid &&& 7) &&& 0xF8 = 0 := by
    rw [UInt8.and_assoc, show (7 : UInt8) &&& 0xF8 = 0 by decide, UInt8.and_zero]
  have hhigh : ((crc >>> 8) &&& 0xF8).toUInt8 = (crc >>> 8).toUInt8 &&& 0xF8 := UInt32.toUInt8_and _ _
  rw [hbyte, or_and_distrib, hlow, UInt8.or_zero, hhigh, UInt8.and_assoc, UInt8.and_self]

theorem isCompliantId_compliantId {crc crc' : UInt32} :
    isCompliantId crc (compliantId crc' rand filler) = true ↔ crc' >>> 11 = crc >>> 11 := by
  have hfirst : (compliantId crc' rand filler)[0] = (crc' >>> 24).toUInt8 := rfl
  have hsecond : (compliantId crc' rand filler)[1] = (crc' >>> 16).toUInt8 := rfl
  have hcrc := crc.toNat_lt
  have hcrc' := crc'.toNat_lt
  rw [isCompliantId, Bool.and_eq_true, Bool.and_eq_true, beq_iff_eq, beq_iff_eq, beq_iff_eq, hfirst, hsecond,
    compliantId_mid]
  simp only [← UInt8.toNat_inj, ← UInt32.toNat_inj, toNat_and_f8, UInt32.toNat_toUInt8,
    UInt32.toNat_shiftRight, Nat.shiftRight_eq_div_pow]
  simp only [UInt32.reduceToNat, Nat.reduceMod, Nat.reducePow]
  omega

/-- For an address of four octets the check passes what was made; for one of eight octets the checksums of
all bytes of the word and of its last four must begin with the same 21 bits. The check passes an id of an
IPv4 address. -/
theorem isCompliantAddr_generateCompliantId_iff (checksum : Bytes → UInt32) (rand : UInt8) (filler : Filler) :
    (∀ (maskedIpBe : UInt64) (numOctets : Nat), numOctets = 4 ∨ numOctets = 8 →
      ∃ id, generateCompliantId checksum maskedIpBe numOctets rand filler = .ok id ∧
        (isCompliantAddr checksum maskedIpBe numOctets id = .ok true ↔
          numOctets = 4 ∨
            checksum (eightBytesToArray (maskedIpBe ||| (rand &&& 7).toUInt64 <<< 61)) >>> 11 =
              checksum ((eightBytesToArray (maskedIpBe ||| (rand &&& 7).toUInt64 <<< 61)).drop 4) >>> 11)) ∧
      ∀ addr : Ipv4Addr, ∃ id, generateCompliantIdIpv4 checksum addr rand filler = .ok id ∧
        isCompliantIpv4Addr checksum addr id = .ok true := by
  have hcheck : ∀ (maskedIpBe : UInt64) (numOctets : Nat), numOctets = 4 ∨ numOctets = 8 →
      ∃ id, generateCompliantId checksum maskedIpBe numOctets rand filler = .ok id ∧
        (isCompliantAddr checksum maskedIpBe numOctets id = .ok true ↔
          checksum ((eightBytesToArray (randMaskedIp maskedIpBe numOctets rand)).drop (8 - numOctets)) >>> 11 =
            checksum ((eightBytesToArray (randMaskedIp maskedIpBe numOctets rand)).drop 4) >>> 11) := by
    intro maskedIpBe numOctets hoctets
    refine ⟨_, generateCompliantId_eq hoctets, ?_⟩
    rw [isCompliantAddr_eq hoctets, compliantId_rand, Except.ok.injEq, isCompliantId_compliantId]
  refine ⟨fun maskedIpBe numOctets hoctets => ?_, fun addr => ?_⟩
  · obtain ⟨id, hid, hiff⟩ := hcheck maskedIpBe numOctets hoctets
    refine ⟨id, hid, hiff.trans ?_⟩
    rcases hoctets with rfl | rfl
    · exact ⟨fun _ => Or.inl rfl, fun _ => rfl⟩
    · exact ⟨Or.inr, fun h => h.resolve_left (by decide)⟩
  · obtain ⟨id, hid, hiff⟩ := hcheck (maskIpv4Be addr).toUInt64 4 (Or.inl rfl)
    exact ⟨id, hid, hiff.mpr rfl⟩

/-- An address of eight octets, and an IPv4 address. -/
theorem isCompliantAddr_generateCompliantId_small :
    (∃ id, generateCompliantId castagnoli 1 8 5 ⟨0, Vector.replicate 16 0⟩ = .ok id ∧
      (isCompliantAddr castagnoli 1 8 id = .ok true ↔ False)) ∧
    ∃ id, generateCompliantIdIpv4 castagnoli #v[124, 31, 75, 21] 1 ⟨0, Vector.replicate 16 0⟩ = .ok id ∧
      isCompliantIpv4Addr castagnoli #v[124, 31, 75, 21] id = .ok true := by
  constructor
  · obtain ⟨id, hid, hiff⟩ :=
      (isCompliantAddr_generateCompliantId_iff castagnoli 5 ⟨0, Vector.replicate 16 0⟩).1 1 8 (Or.inr rfl)
    exact ⟨id, hid, hiff.trans (by decide +kernel)⟩
  · exact (isCompliantAddr_generateCompliantId_iff castagnoli 1 ⟨0, Vector.replicate 16 0⟩).2 _

example : (generateCompliantIdIpv4 castagnoli #v[124, 31, 75, 21] 1 ⟨0, Vector.replicate 16 0⟩).map
    (fun id => (id[0], id[1], id[2])) = .ok (0x5F, 0xBF, 0xB8) := by
  decide +kernel

/-- An id made for an address of eight octets fails the check of that address. -/
theorem isCompliantAddr_generateCompliantId_fails :
    ∃ id, generateCompliantId castagnoli 0x0103070F1F3F7FFF 8 5 ⟨0, Vector.replicate 16 0⟩ = .ok id ∧
      isCompliantAddr castagnoli 0x0103070F1F3F7FFF 8 id = .ok false := by
  refine ⟨_, rfl, ?_⟩
  decide +kernel

end BitTorrent.Dht
