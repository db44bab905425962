import BitTorrent.RustWord

/-! Conversions between words, addresses and bytes in network order. An address is its octets; an
`Ipv6Addr` is read through its eight segments. -/

namespace BitTorrent

open Rust

abbrev Ipv4Addr := Vector UInt8 4

abbrev Ipv6Addr := Vector UInt8 16

def fourBytesToArray (unsigned : UInt32) : Bytes := toBytesBe 4 unsigned.toNat

def eightBytesToArray (bytes : UInt64) : Bytes :=
  [(bytes >>> 56).toUInt8, (bytes >>> 48).toUInt8, (bytes >>> 40).toUInt8, (bytes >>> 32).toUInt8,
    (bytes >>> 24).toUInt8, (bytes >>> 16).toUInt8, (bytes >>> 8).toUInt8, bytes.toUInt8]

def ipv4ToBytesBe (v4Addr : Ipv4Addr) : Bytes := v4Addr.toList

/-- `Ipv6Addr::segments`. -/
def segments (v6Addr : Ipv6Addr) : Vector UInt16 8 :=
  Vector.ofFn fun i => v6Addr[2 * i.val].toUInt16 <<< 8 ||| v6Addr[2 * i.val + 1].toUInt16

def ipv6ToBytesBe (v6Addr : Ipv6Addr) : Bytes :=
  List.ofFn fun index : Fin 16 =>
    let byteShiftBits := 8 - index.val % 2 * 8
    ((segments v6Addr)[index.val / 2] >>> byteShiftBits.toUInt16).toUInt8

def bytesBeToIpv4 (bytes : Vector UInt8 4) : Ipv4Addr := #v[bytes[0], bytes[1], bytes[2], bytes[3]]

/-- `Ipv6Addr::new`. -/
def ipv6New (segments : Vector UInt16 8) : Ipv6Addr :=
  Vector.ofFn fun i => (segments[i.val / 2] >>> (8 - i.val % 2 * 8).toUInt16).toUInt8

def bytesBeToIpv6 (bytes : Vector UInt8 16) : Ipv6Addr :=
  let combine (combinedBytes : Vector UInt16 8) (index : Fin 16) : Vector UInt16 8 :=
    let value := bytes[index.val].toUInt16
    let adjustedValue := if index.val % 2 = 0 then value <<< (8 : UInt16) else value
    combinedBytes.set (index.val / 2) (combinedBytes[index.val / 2] ||| adjustedValue)
  ipv6New ((List.finRange 16).foldl combine (Vector.replicate 8 0))

theorem fourBytesToArray_injective {x y : UInt32} (h : fourBytesToArray x = fourBytesToArray y) : x = y := by
  have hnat := congrArg ofBytesBe h
  rw [fourBytesToArray, fourBytesToArray, ofBytesBe_toBytesBe x.toNat_lt,
    ofBytesBe_toBytesBe y.toNat_lt] at hnat
  exact UInt32.toNat_inj.mp hnat

theorem eightBytesToArray_eq (x : UInt64) : eightBytesToArray x = toBytesBe 8 x.toNat := by
  have hshift : ∀ s : UInt64, s.toNat < 64 →
      (x >>> s).toUInt8 = UInt8.ofNat (x.toNat / 2 ^ s.toNat) := by
    intro s hs
    rw [← UInt8.toNat_inj, UInt64.toNat_toUInt8, UInt64.toNat_shiftRight, Nat.mod_eq_of_lt hs,
      Nat.shiftRight_eq_div_pow, UInt8.toNat_ofNat']
  have hlow : x.toUInt8 = UInt8.ofNat x.toNat := by
    rw [← UInt8.toNat_inj, UInt64.toNat_toUInt8, UInt8.toNat_ofNat']
  rw [eightBytesToArray, hlow]
  iterate 7 rw [hshift _ (by decide)]
  simp only [toBytesBe, Nat.div_div_eq_div_mul]
  rfl

theorem ipv6ToBytesBe_eq (v6Addr : Ipv6Addr) : ipv6ToBytesBe v6Addr = v6Addr.toList := by
  have hoctets : v6Addr.toList = List.ofFn fun i : Fin 16 => v6Addr[i] := by
    apply List.ext_getElem
    · simp
    · intro i hi hi'
      rw [List.getElem_ofFn]
      rfl
  rw [hoctets, ipv6ToBytesBe]
  congr 1
  funext index
  have hsegment : (segments v6Addr)[index.val / 2] = v6Addr[2 * (index.val / 2)].toUInt16 <<< 8 |||
      v6Addr[2 * (index.val / 2) + 1].toUInt16 := by
    rw [segments, Vector.getElem_ofFn]
  simp only [hsegment]
  obtain hmod | hmod := Nat.mod_two_eq_zero_or_one index.val
  · have hindex : 2 * (index.val / 2) = index.val := by omega
    simp only [hmod, hindex]
    exact toUInt8_high _ _
  · have hindex : 2 * (index.val / 2) + 1 = index.val := by omega
    simp only [hmod, hindex]
    rw [show Nat.toUInt16 (8 - 1 * 8) = 0 by decide, UInt16.shiftRight_zero]
    exact toUInt8_low _ _

end BitTorrent
