import BitTorrent.RustRun

/-! Words and their bytes, most significant byte first. -/

namespace BitTorrent.Rust

open List Nat

/-- The `k` low bytes of a number. -/
def toBytesBe : Nat → Nat → Bytes
  | 0, _ => []
  | k + 1, n => toBytesBe k (n / 256) ++ [UInt8.ofNat n]

def ofBytesBe (bytes : Bytes) : Nat := bytes.foldl (fun n b => n * 256 + b.toNat) 0

@[simp] theorem length_toBytesBe (k n : Nat) : (toBytesBe k n).length = k := by
  induction k generalizing n with
  | zero => rfl
  | succ k ih => rw [toBytesBe, length_append, ih, length_singleton]

theorem ofBytesBe_concat (bytes : Bytes) (b : UInt8) :
    ofBytesBe (bytes ++ [b]) = ofBytesBe bytes * 256 + b.toNat := by
  rw [ofBytesBe, foldl_append]
  rfl

theorem ofBytesBe_lt (bytes : Bytes) : ofBytesBe bytes < 256 ^ bytes.length := by
  induction bytes using reverseRecOn with
  | nil => decide
  | append_singleton bytes b ih =>
    have hb := b.toNat_lt
    rw [ofBytesBe_concat, length_append, length_singleton, pow_succ]
    omega

theorem ofBytesBe_toBytesBe {k n : Nat} (h : n < 256 ^ k) : ofBytesBe (toBytesBe k n) = n := by
  induction k generalizing n with
  | zero =>
    rw [pow_zero] at h
    rw [toBytesBe, show n = 0 by omega]
    rfl
  | succ k ih =>
    have hdiv : n / 256 < 256 ^ k := Nat.div_lt_of_lt_mul (by rwa [pow_succ, mul_comm] at h)
    rw [toBytesBe, ofBytesBe_concat, ih hdiv, UInt8.toNat_ofNat']
    omega

theorem toBytesBe_ofBytesBe (bytes : Bytes) : toBytesBe bytes.length (ofBytesBe bytes) = bytes := by
  induction bytes using reverseRecOn with
  | nil => rfl
  | append_singleton bytes b ih =>
    have hb := b.toNat_lt
    have hlast : UInt8.ofNat (ofBytesBe bytes * 256 + b.toNat) = b := by
      rw [← UInt8.toNat_inj, UInt8.toNat_ofNat']
      omega
    rw [length_append, length_singleton, toBytesBe, ofBytesBe_concat, hlast,
      show (ofBytesBe bytes * 256 + b.toNat) / 256 = ofBytesBe bytes by omega, ih]

theorem toNat_shiftLeft_or {s : UInt64} {k : Nat} (hs : s.toNat = k) (hk : k < 64) (x y : UInt64)
    (hy : y.toNat < 2 ^ k) : (x <<< s ||| y).toNat = x.toNat * 2 ^ k % 2 ^ 64 + y.toNat := by
  have hpow : 2 ^ 64 = 2 ^ (64 - k) * 2 ^ k := by
    rw [← pow_add]
    congr 1
    omega
  have hshift : x.toNat * 2 ^ k % 2 ^ 64 = (x.toNat % 2 ^ (64 - k)) <<< k := by
    rw [hpow, mul_mod_mul_right, shiftLeft_eq]
  rw [UInt64.toNat_or, UInt64.toNat_shiftLeft, hs, mod_eq_of_lt hk, shiftLeft_eq, hshift,
    ← shiftLeft_add_eq_or_of_lt hy]

theorem toNat_pair (a b : UInt8) : (a.toUInt16 <<< 8 ||| b.toUInt16).toNat = a.toNat * 256 + b.toNat := by
  have ha := a.toNat_lt
  have hb : b.toNat < 2 ^ 8 := b.toNat_lt
  rw [UInt16.toNat_or, UInt16.toNat_shiftLeft, UInt8.toNat_toUInt16, UInt8.toNat_toUInt16]
  simp only [UInt16.toNat_ofNat]
  rw [show 8 % 2 ^ 16 % 16 = 8 by decide, mod_eq_of_lt (b := 2 ^ 16),
    ← shiftLeft_add_eq_or_of_lt hb, shiftLeft_eq]
  rw [shiftLeft_eq]
  omega

theorem toUInt8_high (a b : UInt8) : ((a.toUInt16 <<< 8 ||| b.toUInt16) >>> 8).toUInt8 = a := by
  have ha := a.toNat_lt
  have hb := b.toNat_lt
  rw [← UInt8.toNat_inj, UInt16.toNat_toUInt8, UInt16.toNat_shiftRight, toNat_pair,
    show (8 : UInt16).toNat % 16 = 8 by decide, shiftRight_eq_div_pow]
  omega

theorem toUInt8_low (a b : UInt8) : (a.toUInt16 <<< 8 ||| b.toUInt16).toUInt8 = b := by
  have hb := b.toNat_lt
  rw [← UInt8.toNat_inj, UInt16.toNat_toUInt8, toNat_pair]
  omega

end BitTorrent.Rust
