import BitTorrent.BencodeComplete

/-! Decoding what the encoder wrote. `spell` is the encoded tree as the decoder sees it, every value
with its own encoding for a buffer; it is spelled in key order within the height of the tree, so the
decoder reads it back under any options that allow that height. -/

namespace BitTorrent.Bencode

open Rust List BencodeRef

mutual

def spell : Inner → BencodeRef
  | .int n => .int n ⟨0, encode (.int n)⟩
  | .bytes b => .bytes b ⟨0, encode (.bytes b)⟩
  | .list l => .list (spellList l) ⟨0, encode (.list l)⟩
  | .dict d => .dict (spellDict d) ⟨0, encode (.dict d)⟩

def spellList : List Inner → List BencodeRef
  | [] => []
  | v :: l => spell v :: spellList l

def spellDict : List (Bytes × Inner) → List (Bytes × BencodeRef)
  | [] => []
  | (k, v) :: d => (k, spell v) :: spellDict d

end

theorem spellList_eq (l : List Inner) : spellList l = l.map spell := by
  induction l with
  | nil => rfl
  | cons v l ih => rw [spellList, ih, map_cons]

theorem spellDict_eq (d : List (Bytes × Inner)) : spellDict d = d.map (Prod.map id spell) := by
  induction d with
  | nil => rfl
  | cons e d ih =>
    obtain ⟨k, v⟩ := e
    rw [spellDict, ih, map_cons]
    rfl

theorem text_spell (v : Inner) : (spell v).text = encode v := by
  cases v <;> rw [spell] <;> rfl

mutual

theorem value_spell : ∀ v : Inner, (spell v).value = v
  | .int _ => rfl
  | .bytes _ => rfl
  | .list l => by rw [spell, value, valueList_spellList l]
  | .dict d => by rw [spell, value, valueDict_spellDict d]

theorem valueList_spellList : ∀ l : List Inner, valueList (spellList l) = l
  | [] => rfl
  | v :: l => by rw [spellList, valueList, value_spell v, valueList_spellList l]

theorem valueDict_spellDict : ∀ d : List (Bytes × Inner), valueDict (spellDict d) = d
  | [] => rfl
  | (_, v) :: d => by
    rw [spellDict, valueDict, value_spell v, valueDict_spellDict d]

end

theorem bytesText_encodeBytes {b : Bytes} (hb : b.length ≤ isizeMax) : BytesText (encodeBytes b) b := by
  have hint : (Int64.ofInt b.length).toInt = b.length := by
    apply Int64.toInt_ofInt_of_le
    · omega
    · simp only [isizeMax] at hb
      omega
  refine ⟨decimal b.length, Int64.ofInt b.length, rfl, ?_, hint⟩
  have h := NumberText.of_decimalInt (Int64.ofInt b.length)
  rwa [hint] at h

theorem encodeBytes_head (b : Bytes) :
    ∃ first rest, encodeBytes b = first :: rest ∧ isDigit first = true := by
  obtain ⟨first, rest, hcons⟩ := exists_cons_of_ne_nil (decimal_ne_nil b.length)
  refine ⟨first, rest ++ byteLenEnd :: b, by rw [encodeBytes, hcons]; rfl, ?_⟩
  exact isDigit_of_mem_decimal (by rw [hcons]; exact mem_cons_self)

def spellEntries (d : List (Bytes × Inner)) : List Entry :=
  d.map fun e => (encodeBytes e.1, e.1, spell e.2)

theorem rowsText_spellEntries (d : List (Bytes × Inner)) :
    rowsText (dictRows (spellEntries d)) = d.flatMap fun e => encodeBytes e.1 ++ encode e.2 := by
  rw [rowsText_dictRows, spellEntries, flatMap_map]
  simp only [text_spell]

theorem rowsText_spellList (l : List Inner) : rowsText (listRows (spellList l)) = l.flatMap encode := by
  rw [rowsText_listRows, spellList_eq, flatMap_map]
  simp only [text_spell]

theorem snd_spellEntries (d : List (Bytes × Inner)) : (spellEntries d).map Prod.snd = spellDict d := by
  rw [spellEntries, map_map, spellDict_eq]
  rfl

theorem spelled_spell {v : Inner} (hv : v.Valid) : Spelled true v.height (spell v) := by
  induction hv with
  | int n => exact .int rfl (NumberText.of_decimalInt n)
  | @bytes b hb =>
    obtain ⟨first, rest, hhead, hdigit⟩ := encodeBytes_head b
    exact .bytes hhead hdigit (bytesText_encodeBytes hb)
  | @list l hl ih =>
    refine .list ?_ ?_
    · rw [rowsText_spellList, ← encodeList_eq]
      rfl
    · intro r hr
      rw [spellList_eq] at hr
      obtain ⟨v, hv, rfl⟩ := mem_map.mp hr
      exact (ih v hv).mono (Inner.height_le_heightList hv) id
  | @dict d hd hkeys hvalues ih =>
    have hsorted : OrderedMap.Sorted (spellDict d) := by
      rw [spellDict_eq]
      exact (OrderedMap.sorted_map spell).mpr hd
    refine .dict (spellEntries d) ?_ ?_ ?_ hsorted ?_ ?_
    · rw [rowsText_spellEntries, ← encode_dict_of_sorted hd]
    · intro e' he'
      obtain ⟨e, he, rfl⟩ := mem_map.mp he'
      exact bytesText_encodeBytes (hkeys e he)
    · rw [snd_spellEntries]
    · rw [snd_spellEntries]
      exact fun _ => hsorted
    · intro e' he'
      rw [spellDict_eq] at he'
      obtain ⟨e, he, rfl⟩ := mem_map.mp he'
      exact (ih e he).mono (Inner.height_le_heightDict he) id

theorem Inner.Valid.decode_eq {v : Inner} (hv : v.Valid) {opts : BDecodeOpt}
    (hheight : v.height ≤ opts.maxRecursion) {out : Buffer} (hout : out.data = encode v) :
    ∃ r, decode out opts = .ok r ∧ r.value = v ∧ r.buffer = ⟨0, out.data⟩ := by
  have htext : (spell v).text = encode v := text_spell v
  obtain ⟨r, hr, heqv, hbuffer⟩ := (spelled_spell hv).decode_complete out []
    (by rw [htext, append_nil, hout]) (fun _ => rfl) hheight (fun _ => rfl)
  refine ⟨r, hr, ?_, ?_⟩
  · rw [heqv.value_eq, value_spell]
  · rw [hbuffer, htext, hout]

/-- Whatever a program encodes, the decoder reads back from the whole encoding. -/
theorem decode_encode (v : BencodeMut) (opts : BDecodeOpt)
    (hheight : v.inner.height ≤ opts.maxRecursion) (out : Buffer) (hout : out.data = v.encode) :
    ∃ r, decode out opts = .ok r ∧ r.value = v.inner ∧ r.buffer = ⟨0, out.data⟩ :=
  v.valid.decode_eq hheight hout

theorem decode_encode_nested :
    ∃ r, decode
        ⟨[100, 49, 58, 97, 108, 105, 45, 55, 101, 49, 58, 98, 101, 101], by decide⟩ .default = .ok r ∧
      r.value = .dict [([97], .list [.int (-7), .bytes [98]])] ∧
      r.buffer = ⟨0, [100, 49, 58, 97, 108, 105, 45, 55, 101, 49, 58, 98, 101, 101]⟩ :=
  decode_encode
    ⟨.dict [([97], .list [.int (-7), .bytes [98]])],
      .dict (pairwise_singleton _ _) (by decide) fun e he => by
        rw [mem_singleton.mp he]
        refine .list fun v hv => ?_
        rcases mem_cons.mp hv with rfl | hv
        · exact .int _
        · rw [mem_singleton.mp hv]
          exact .bytes (by decide)⟩
    .default (by decide)
    ⟨[100, 49, 58, 97, 108, 105, 45, 55, 101, 49, 58, 98, 101, 101], by decide⟩ (by decide +kernel)

end BitTorrent.Bencode
