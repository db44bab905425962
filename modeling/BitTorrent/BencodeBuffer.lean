import BitTorrent.BencodeComplete

/-! The buffers of decoded values. The slice kept with a value is all the decoder ever looked at to
read it, so a value can be cut out and decoded again, or decoded in front of any other bytes. -/

namespace BitTorrent.Bencode

open Rust BencodeRef

/-- `w` is `r` or lies below it, at any depth. -/
def Nested (r w : BencodeRef) : Prop :=
  Relation.ReflTransGen (fun parent child => child ∈ children parent) r w

theorem Spelled.of_child {sort : Bool} {k : Nat} {r c : BencodeRef} (h : Spelled sort k r)
    (hc : c ∈ r.children) : ∃ j ≤ k, Spelled sort j c := by
  cases h with
  | int layout spelling => cases hc
  | bytes head digit spelling => cases hc
  | @list j l s layout items => exact ⟨j, j.le_succ, items c hc⟩
  | @dict j d s entries layout keys perm sorted order items =>
    obtain ⟨e, he, rfl⟩ := List.mem_map.mp hc
    exact ⟨j, j.le_succ, items e he⟩

theorem Spelled.of_nested {sort : Bool} {k : Nat} {r w : BencodeRef} (h : Spelled sort k r)
    (hw : Nested r w) : ∃ j ≤ k, Spelled sort j w := by
  induction hw with
  | refl => exact ⟨k, k.le_refl, h⟩
  | tail _ hc ih =>
    obtain ⟨j, hj, hspelled⟩ := ih
    obtain ⟨i, hi, hchild⟩ := hspelled.of_child hc
    exact ⟨i, hi.trans hj, hchild⟩

theorem Located.of_nested {bytes : Bytes} {r w : BencodeRef} (h : Located bytes r)
    (hw : Nested r w) : Located bytes w := by
  induction hw with
  | refl => exact h
  | tail _ hc ih =>
    cases ih with
    | intro _ _ _ children => exact children _ hc

theorem decode_sound {bytes : Buffer} {opts : BDecodeOpt} {r : BencodeRef} (h : decode bytes opts = .ok r) :
    ∃ next, ReadAt bytes.data opts.checkKeySort opts.maxRecursion 0 r next ∧
      (opts.enforceFullDecode = true → next = bytes.data.length) := by
  obtain ⟨⟨r', next⟩, hat, h⟩ := bind_eq_ok.mp h
  simp only at h
  split at h
  · cases h
  · rename_i hfull
    cases h
    refine ⟨next, decodeAt_sound bytes.data opts _ rfl hat, fun henforce => ?_⟩
    by_contra hne
    exact hfull ⟨hne, henforce⟩

/-- Every buffer in a decoded tree is a slice of the input that decodes to its value on its own, and
siblings share no byte and lie strictly inside their parent. -/
theorem buffer_locality {bytes : Buffer} {opts : BDecodeOpt} {r : BencodeRef}
    (h : decode bytes opts = .ok r) {w : BencodeRef} (hw : Nested r w) :
    InBuffer bytes.data w.buffer ∧
    (∀ own : Buffer, own.data = w.buffer.bytes →
      ∃ w', decode own opts = .ok w' ∧ w'.Eqv w) ∧
    (∀ c ∈ w.children, w.buffer.start < c.buffer.start ∧ c.buffer.stop < w.buffer.stop) ∧
    w.children.Pairwise Apart := by
  obtain ⟨next, hread, -⟩ := decode_sound h
  obtain ⟨j, hj, hspelled⟩ := hread.spelled.of_nested hw
  cases hread.located.of_nested hw with
  | intro inBuffer within apart children =>
    refine ⟨inBuffer, fun own hown => ?_, within, apart⟩
    obtain ⟨w', hw', heqv, -⟩ := hspelled.decode_complete own []
      (by rw [List.append_nil]; exact hown) (fun _ => rfl) hj id
    exact ⟨w', hw', heqv⟩

/-- `ll1:ai7eee`, a list in a list. -/
def listInList : Buffer := ⟨[108, 108, 49, 58, 97, 105, 55, 101, 101, 101], by decide⟩

def innerList : BencodeRef :=
  .list [.bytes [97] ⟨2, [49, 58, 97]⟩, .int 7 ⟨5, [105, 55, 101]⟩]
    ⟨1, [108, 49, 58, 97, 105, 55, 101, 101]⟩

theorem buffer_locality_innerList :
    InBuffer listInList.data innerList.buffer ∧
    (∀ own : Buffer, own.data = innerList.buffer.bytes →
      ∃ w', decode own .default = .ok w' ∧ w'.Eqv innerList) ∧
    (∀ c ∈ innerList.children, 1 < c.buffer.start ∧ c.buffer.stop < 9) ∧ innerList.children.Pairwise Apart :=
  buffer_locality (r := .list [innerList] ⟨0, listInList.data⟩) (by decide +kernel)
    (.single List.mem_cons_self)

/-- A value is read from its own bytes alone: any bytes may follow, and options that allow more
nesting or check less read the same value. -/
theorem decode_own_prefix {bytes : Buffer} {opts : BDecodeOpt} {r : BencodeRef}
    (h : decode bytes opts = .ok r) (tail : Bytes) {opts' : BDecodeOpt}
    (hmax : opts.maxRecursion ≤ opts'.maxRecursion)
    (hsort : opts'.checkKeySort = true → opts.checkKeySort = true)
    (hfull : opts'.enforceFullDecode = false) {bytes' : Buffer}
    (hbytes' : bytes'.data = bytes.data.take r.buffer.bytes.length ++ tail) :
    ∃ r', decode bytes' opts' = .ok r' ∧ r'.Eqv r ∧
      r'.buffer.bytes.length = r.buffer.bytes.length := by
  obtain ⟨next, hread, -⟩ := decode_sound h
  have htext : bytes.data.take r.buffer.bytes.length = r.text := by
    rw [← List.drop_zero (l := bytes.data), hread.layout]
    exact List.take_left
  obtain ⟨r', hr', heqv, hbuffer⟩ := hread.spelled.decode_complete bytes' tail
    (by rw [hbytes', htext]) (fun henforce => (by rw [hfull] at henforce; cases henforce)) hmax hsort
  exact ⟨r', hr', heqv, by rw [hbuffer]; rfl⟩

theorem decode_own_prefix_int :
    ∃ r', decode ⟨[105, 55, 101, 58, 120], by decide⟩ ⟨60, false, false⟩ = .ok r' ∧
      r'.Eqv (.int 7 ⟨0, [105, 55, 101]⟩) ∧ r'.buffer.bytes.length = 3 := by
  have h : decode ⟨[105, 55, 101], by decide⟩ .default =
      .ok (.int 7 ⟨0, [105, 55, 101]⟩) := by decide +kernel
  exact decode_own_prefix h [58, 120] (by decide) (by decide) rfl rfl

end BitTorrent.Bencode
