import BitTorrent.BencodeGrammar

/-! Completeness of the decoder for its language: a spelled value is read back wherever its text is
found, whatever follows it, under any options that allow at least as much nesting and check at most
as much order. The value read has the same content; only the places of its slices depend on the
position. -/

namespace BitTorrent.Bencode

open Rust List OrderedMap BencodeRef

open Prod hiding map_map

variable {b : Bytes}

theorem BytesText.exists_cons {text : Bytes} (h : BytesText text b) :
    ∃ first rest, text = first :: rest ∧ first ≠ benEnd := by
  obtain ⟨length, n, rfl, hn, -⟩ := h
  obtain ⟨first, rest, rfl⟩ := exists_cons_of_ne_nil hn.ne_nil
  refine ⟨first, _, rfl, ?_⟩
  rintro rfl
  exact absurd (hn.isNumeric_of_mem mem_cons_self) (by decide)

variable {r : BencodeRef} {sort : Bool} {k : Nat}

theorem Spelled.exists_cons (h : Spelled sort k r) :
    ∃ first rest, r.text = first :: rest ∧ first ≠ benEnd := by
  cases h with
  | int layout spelling => exact ⟨_, _, layout, by decide⟩
  | bytes head digit spelling =>
    refine ⟨_, _, head, ?_⟩
    rintro rfl
    exact absurd digit (by decide)
  | list layout items => exact ⟨_, _, layout, by decide⟩
  | dict entries layout keys perm sorted order items => exact ⟨_, _, layout, by decide⟩

theorem Spelled.mono {sort' : Bool} {k' : Nat} (h : Spelled sort k r)
    (hk : k ≤ k') (hsort : sort' = true → sort = true) : Spelled sort' k' r := by
  induction h generalizing k' with
  | int layout spelling =>
    obtain ⟨k', rfl⟩ : ∃ j, k' = j + 1 := ⟨k' - 1, by omega⟩
    exact .int layout spelling
  | bytes head digit spelling =>
    obtain ⟨k', rfl⟩ : ∃ j, k' = j + 1 := ⟨k' - 1, by omega⟩
    exact .bytes head digit spelling
  | list layout items ih =>
    obtain ⟨k', rfl⟩ : ∃ j, k' = j + 1 := ⟨k' - 1, by omega⟩
    exact .list layout fun r hr => ih r hr (by omega)
  | dict entries layout keys perm sorted order items ih =>
    obtain ⟨k', rfl⟩ : ∃ j, k' = j + 1 := ⟨k' - 1, by omega⟩
    exact .dict entries layout keys perm sorted (fun h => order (hsort h)) fun e he =>
      ih e he (by omega)

/-! ### The container loops -/

theorem length_le_flatMap {ι : Type} {text : ι → Bytes} {l : List ι}
    (h : ∀ x ∈ l, ∃ first rest, text x = first :: rest ∧ first ≠ benEnd) :
    l.length ≤ (l.flatMap text).length := by
  induction l with
  | nil => exact Nat.le_refl 0
  | cons x l ih =>
    obtain ⟨first, rest, hx, -⟩ := h x mem_cons_self
    have := ih fun y hy => h y (mem_cons_of_mem x hy)
    rw [flatMap_cons, length_append, hx, length_cons, length_cons]
    omega

section

variable {σ ι : Type} {bytes : Bytes} {body : Nat → σ → BencodeParseResult (σ × Nat)}
  {text : ι → Bytes} (stands : σ → List ι → Prop) {full : List ι}

/-- A container loop reads the texts of a list of items one by one up to the end marker.
`stands s done` says that the state `s` stands for the items read so far. -/
theorem whileNotEnd_complete (hfits : bytes.length ≤ isizeMax)
    (hfirst : ∀ x ∈ full, ∃ first rest, text x = first :: rest ∧ first ≠ benEnd)
    (hbody : ∀ done x todo, done ++ x :: todo = full → ∀ pos s rest, stands s done →
      bytes.drop pos = text x ++ rest →
      ∃ s', body pos s = .ok (s', pos + (text x).length) ∧ stands s' (done ++ [x])) :
    ∀ {todo done : List ι} {fuel pos : Nat} {s : σ} {rest : Bytes}, done ++ todo = full →
      stands s done → bytes.drop pos = todo.flatMap text ++ benEnd :: rest → todo.length < fuel →
      ∃ s', whileNotEnd bytes body fuel pos s = .ok (s', pos + (todo.flatMap text).length + 1) ∧
        stands s' full := by
  intro todo
  induction todo with
  | nil =>
    intro done fuel pos s rest hfull hs hdrop hfuel
    obtain ⟨fuel, rfl⟩ : ∃ f, fuel = f + 1 := ⟨fuel - 1, by omega⟩
    have hdrop' : bytes.drop pos = benEnd :: rest := hdrop
    have hget : bytes[pos]? = some benEnd := by
      rw [← head?_drop, hdrop', head?_cons]
    have hlt := getElem?_lt hget
    refine ⟨s, ?_, ?_⟩
    · rw [whileNotEnd, peekByte_eq_ok.mpr hget, ok_bind, if_pos rfl,
        addUsize_of_le bytes.length (by omega) hfits]
      rfl
    · rw [← hfull, append_nil]
      exact hs
  | cons x todo ih =>
    intro done fuel pos s rest hfull hs hdrop hfuel
    obtain ⟨fuel, rfl⟩ : ∃ f, fuel = f + 1 := ⟨fuel - 1, by omega⟩
    have hmem : x ∈ full := by
      rw [← hfull]
      exact mem_append_right _ mem_cons_self
    obtain ⟨first, tail, hx, hne⟩ := hfirst x hmem
    rw [flatMap_cons, append_assoc] at hdrop
    obtain ⟨s₁, hstep, hs₁⟩ := hbody done x todo hfull pos s _ hs hdrop
    have hget : bytes[pos]? = some first := by
      rw [← head?_drop, hdrop, hx]
      rfl
    have hfull' : done ++ [x] ++ todo = full := by rw [← hfull, append_assoc]; rfl
    obtain ⟨s', hrun, hs'⟩ := ih hfull' hs₁ (drop_of_drop _ hdrop)
      (show todo.length < fuel from Nat.lt_of_succ_lt_succ hfuel)
    refine ⟨s', ?_, hs'⟩
    rw [whileNotEnd, peekByte_eq_ok.mpr hget, ok_bind, if_neg hne, hstep, ok_bind]
    simp only
    rw [hrun, flatMap_cons, length_append, Nat.add_assoc pos]

end

theorem rowsText_listRows (l : List BencodeRef) : rowsText (listRows l) = l.flatMap text := by
  rw [rowsText, listRows, flatMap_map]
  rfl

theorem rowsText_dictRows (entries : List Entry) :
    rowsText (dictRows entries) = entries.flatMap fun e => e.1 ++ e.2.2.text := by
  rw [rowsText, dictRows, flatMap_map]

/-- A decoder reads back a value at every position where its text stands. -/
def ReadsBack (bytes : Bytes) (decodeItem : Nat → BencodeParseResult (BencodeRef × Nat))
    (r : BencodeRef) : Prop :=
  ∀ pos rest, bytes.drop pos = r.text ++ rest →
    ∃ r', decodeItem pos = .ok (r', pos + r.text.length) ∧ BencodeRef.Eqv r' r

variable {l : List BencodeRef} {d : List (Bytes × BencodeRef)} {entries : List Entry}

section

variable {bytes : Bytes} {decodeItem : Nat → BencodeParseResult (BencodeRef × Nat)}

theorem decodeList_complete (hfits : bytes.length ≤ isizeMax)
    (hfirst : ∀ r ∈ l, ∃ first rest, r.text = first :: rest ∧ first ≠ benEnd)
    (hitem : ∀ r ∈ l, ReadsBack bytes decodeItem r) {pos : Nat} {rest : Bytes}
    (h : bytes.drop pos = rowsText (listRows l) ++ benEnd :: rest) :
    ∃ l', decodeList bytes pos decodeItem = .ok (l', pos + (rowsText (listRows l)).length + 1) ∧
      l'.map content = l.map content := by
  have hfuel : l.length < bytes.length + 1 := by
    have hlen := congrArg length h
    have hrows := length_le_flatMap hfirst
    rw [rowsText_listRows, length_drop, length_append, length_cons] at hlen
    omega
  rw [rowsText_listRows] at h ⊢
  refine whileNotEnd_complete
    (fun (l' done : List BencodeRef) => l'.map content = done.map content)
    hfits hfirst ?_ (nil_append l) rfl h hfuel
  intro done r todo hfull p l' rest' hl' hdrop
  have hmem : r ∈ l := by
    rw [← hfull]
    exact mem_append_right _ mem_cons_self
  obtain ⟨r', hr', hcontent⟩ := hitem r hmem p rest' hdrop
  refine ⟨l' ++ [r'], ?_, ?_⟩
  · rw [listBody, hr']
    rfl
  · rw [map_append, map_append, hl', map_singleton, map_singleton, hcontent]

/-- The map built so far stands for the entries read so far. -/
def MapStandsFor (d : List (Bytes × BencodeRef)) (done : List Entry) : Prop :=
  OrderedMap.Sorted d ∧ (d.map (Prod.map id content)).Perm
    ((done.map Prod.snd).map (Prod.map id content))

variable {done : List Entry}

theorem MapStandsFor.keys (h : MapStandsFor d done) : (d.map fst).Perm (done.map fun e => e.2.1) := by
  have hfst := h.2.map fst
  rwa [map_map, map_map, map_map] at hfst

theorem MapStandsFor.push (h : MapStandsFor d done)
    {spelling key : Bytes} {r' : BencodeRef} (hcontent : BencodeRef.Eqv r' r) (hnew : key ∉ d.map fst) :
    MapStandsFor (insert key r' d) (done ++ [(spelling, key, r)]) := by
  refine ⟨sorted_insert h.1, ?_⟩
  have hinsert : (insert key r' d).Perm ((key, r') :: d) := by
    apply insert_perm
    rintro e he rfl
    exact hnew (mem_map.mpr ⟨e, he, rfl⟩)
  refine (hinsert.map _).trans ?_
  rw [map_append, map_append, map_cons, map_singleton, map_singleton]
  refine ((h.2.cons _).trans ?_).trans perm_append_comm
  rw [map_apply, map_apply, hcontent]
  exact List.Perm.refl _

theorem decodeDict_complete (hfits : bytes.length ≤ isizeMax) {opts : BDecodeOpt}
    (hkeys : ∀ e ∈ entries, BytesText e.1 e.2.1) (hnodup : (entries.map fun e => e.2.1).Nodup)
    (horder : opts.checkKeySort = true → OrderedMap.Sorted (entries.map snd))
    (hitem : ∀ e ∈ entries, ReadsBack bytes decodeItem e.2.2) {pos : Nat} {rest : Bytes}
    (h : bytes.drop pos = rowsText (dictRows entries) ++ benEnd :: rest) :
    ∃ d', decodeDict bytes pos opts decodeItem =
        .ok (d', pos + (rowsText (dictRows entries)).length + 1) ∧ MapStandsFor d' entries := by
  have hfirst : ∀ e ∈ entries, ∃ first rest, e.1 ++ e.2.2.text = first :: rest ∧ first ≠ benEnd := by
    intro e he
    obtain ⟨first, tail, heq, hne⟩ := (hkeys e he).exists_cons
    exact ⟨first, tail ++ e.2.2.text, by rw [heq]; rfl, hne⟩
  have hfuel : entries.length < bytes.length + 1 := by
    have hlen := congrArg length h
    have hrows := length_le_flatMap hfirst
    rw [rowsText_dictRows, length_drop, length_append, length_cons] at hlen
    omega
  rw [rowsText_dictRows] at h ⊢
  refine whileNotEnd_complete MapStandsFor hfits hfirst ?_ (nil_append entries)
    ⟨List.Pairwise.nil, List.Perm.refl _⟩ h hfuel
  rintro done ⟨spelling, key, r⟩ todo hfull p d rest' hd hdrop
  have hmem : (spelling, key, r) ∈ entries := by
    rw [← hfull]
    exact mem_append_right _ mem_cons_self
  rw [append_assoc] at hdrop
  have hnew : key ∉ d.map fst := by
    rw [hd.keys.mem_iff]
    rw [← hfull, map_append, map_cons] at hnodup
    intro hin
    exact (nodup_append.mp hnodup).2.2 key hin key mem_cons_self rfl
  have hcheck : checkKeyOrder opts d p key = .ok () := by
    rw [checkKeyOrder_eq_ok]
    intro hsort last hlast
    have hsorted := horder hsort
    rw [← hfull, map_append, map_cons, OrderedMap.Sorted, pairwise_append] at hsorted
    obtain ⟨e, he, rfl⟩ : ∃ e ∈ d, e.1 = last := by
      obtain ⟨e, he, rfl⟩ := Option.map_eq_some_iff.mp hlast
      exact ⟨e, mem_of_getLast? he, rfl⟩
    obtain ⟨e', he', heq⟩ := mem_map.mp (hd.keys.mem_iff.mp (mem_map.mpr ⟨e, he, rfl⟩))
    rw [← heq]
    exact (hsorted.2.2 e'.2 (mem_map.mpr ⟨e', he', rfl⟩) (key, r) mem_cons_self).le
  obtain ⟨r', hr', hcontent⟩ := hitem _ hmem _ _ (drop_of_drop spelling hdrop)
  refine ⟨insert key r' d, ?_, hd.push hcontent hnew⟩
  rw [dictBody, decodeBytes_complete hfits (hkeys _ hmem) hdrop, ok_bind]
  simp only
  rw [hcheck, ok_bind, hr', ok_bind]
  simp only
  rw [if_neg hnew, length_append, Nat.add_assoc]

end

theorem MapStandsFor.content_eq {d' : List (Bytes × BencodeRef)}
    (h : MapStandsFor d' entries) (hsorted : OrderedMap.Sorted d) (hperm : (entries.map snd).Perm d) :
    contentDict d' = contentDict d := by
  rw [contentDict_eq, contentDict_eq]
  refine OrderedMap.Sorted.perm_eq ?_ ?_ (h.2.trans (hperm.map _))
  · exact (sorted_map _).mpr h.1
  · exact (sorted_map _).mpr hsorted

/-! ### Values -/

theorem getElem?_of_drop {bytes rest : Bytes} {pos : Nat} {b : UInt8} (h : bytes.drop pos = b :: rest) :
    bytes[pos]? = some b := by
  rw [← head?_drop, h, head?_cons]

theorem drop_succ_of_drop {bytes rest : Bytes} {pos : Nat} {b : UInt8}
    (h : bytes.drop pos = b :: rest) : bytes.drop (pos + 1) = rest := drop_of_drop [b] h

variable {marker : UInt8} {rows : Bytes}

theorem drop_rows {bytes rest text : Bytes} {pos : Nat}
    (layout : text = marker :: (rows ++ [benEnd])) (h : bytes.drop pos = text ++ rest) :
    bytes.drop pos = marker :: (rows ++ benEnd :: rest) := by
  rw [h, layout, cons_append, append_assoc]
  rfl

theorem length_rows {text : Bytes} {pos : Nat} (layout : text = marker :: (rows ++ [benEnd])) :
    pos + 1 + rows.length + 1 = pos + text.length := by
  rw [layout, length_cons, length_append, length_singleton]
  omega

section

variable {bytes : Bytes} {opts : BDecodeOpt} {depth pos : Nat} {s : Slice} {rest : Bytes}

theorem decodeAt_int (hfits : bytes.length ≤ isizeMax) (hdepth : depth < opts.maxRecursion)
    {number : Bytes} {n : Int64} (layout : s.bytes = intStart :: (number ++ [benEnd]))
    (spelling : NumberText number n) (h : bytes.drop pos = s.bytes ++ rest) :
    decodeAt bytes pos opts depth = .ok (.int n ⟨pos, s.bytes⟩, pos + s.bytes.length) := by
  have hdrop := drop_rows layout h
  have hget := getElem?_of_drop hdrop
  have hlt := getElem?_lt hget
  rw [decodeAt, if_neg (by omega), peekByte_eq_ok.mpr hget, ok_bind, if_pos rfl,
    addUsize_of_le bytes.length (by omega) hfits, ok_bind,
    decodeInt_complete hfits isNumeric_benEnd spelling (drop_succ_of_drop hdrop), ok_bind]
  simp only
  rw [length_rows layout, slice_of_drop hlt.le h, ok_bind]

theorem decodeAt_bytes (hfits : bytes.length ≤ isizeMax) (hdepth : depth < opts.maxRecursion)
    {tail : Bytes} {first : UInt8} (head : s.bytes = first :: tail)
    (digit : isDigit first = true) (spelling : BytesText s.bytes b) (h : bytes.drop pos = s.bytes ++ rest) :
    decodeAt bytes pos opts depth = .ok (.bytes b ⟨pos, s.bytes⟩, pos + s.bytes.length) := by
  have hget : bytes[pos]? = some first := getElem?_of_drop (h.trans (by rw [head]; rfl))
  have hlt := getElem?_lt hget
  rw [isDigit_iff_byteLen] at digit
  have hmarker : first ≠ intStart ∧ first ≠ listStart ∧ first ≠ dictStart := by
    refine ⟨?_, ?_, ?_⟩ <;> rintro rfl <;> exact absurd digit (by decide)
  rw [decodeAt, if_neg (by omega), peekByte_eq_ok.mpr hget, ok_bind, if_neg hmarker.1,
    if_neg hmarker.2.1, if_neg hmarker.2.2, if_pos digit, decodeBytes_complete hfits spelling h,
    ok_bind]
  simp only
  rw [slice_of_drop hlt.le h, ok_bind]

theorem decodeAt_list (hfits : bytes.length ≤ isizeMax) (hdepth : depth < opts.maxRecursion)
    (layout : s.bytes = listStart :: (rowsText (listRows l) ++ [benEnd]))
    (hfirst : ∀ r ∈ l, ∃ first rest, r.text = first :: rest ∧ first ≠ benEnd)
    (hitem : ∀ r ∈ l, ReadsBack bytes (fun pos => decodeAt bytes pos opts (depth + 1)) r)
    (h : bytes.drop pos = s.bytes ++ rest) :
    ∃ l', decodeAt bytes pos opts depth = .ok (.list l' ⟨pos, s.bytes⟩, pos + s.bytes.length) ∧
      l'.map content = l.map content := by
  have hdrop := drop_rows layout h
  have hget := getElem?_of_drop hdrop
  have hlt := getElem?_lt hget
  obtain ⟨l', hl', hcontent⟩ := decodeList_complete hfits hfirst hitem (drop_succ_of_drop hdrop)
  refine ⟨l', ?_, hcontent⟩
  rw [decodeAt, if_neg (by omega), peekByte_eq_ok.mpr hget, ok_bind, if_neg (by decide), if_pos rfl,
    addUsize_of_le bytes.length (by omega) hfits, ok_bind, hl', ok_bind]
  simp only
  rw [length_rows layout, slice_of_drop hlt.le h, ok_bind]

theorem decodeAt_dict (hfits : bytes.length ≤ isizeMax) (hdepth : depth < opts.maxRecursion)
    (layout : s.bytes = dictStart :: (rowsText (dictRows entries) ++ [benEnd]))
    (keys : ∀ e ∈ entries, BytesText e.1 e.2.1) (hnodup : (entries.map fun e => e.2.1).Nodup)
    (horder : opts.checkKeySort = true → OrderedMap.Sorted (entries.map snd))
    (hitem : ∀ e ∈ entries, ReadsBack bytes (fun pos => decodeAt bytes pos opts (depth + 1)) e.2.2)
    (h : bytes.drop pos = s.bytes ++ rest) :
    ∃ d', decodeAt bytes pos opts depth = .ok (.dict d' ⟨pos, s.bytes⟩, pos + s.bytes.length) ∧
      MapStandsFor d' entries := by
  have hdrop := drop_rows layout h
  have hget := getElem?_of_drop hdrop
  have hlt := getElem?_lt hget
  obtain ⟨d', hd', hstands⟩ :=
    decodeDict_complete hfits keys hnodup horder hitem (drop_succ_of_drop hdrop)
  refine ⟨d', ?_, hstands⟩
  rw [decodeAt, if_neg (by omega), peekByte_eq_ok.mpr hget, ok_bind, if_neg (by decide),
    if_neg (by decide), if_pos rfl, addUsize_of_le bytes.length (by omega) hfits, ok_bind, hd',
    ok_bind]
  simp only
  rw [length_rows layout, slice_of_drop hlt.le h, ok_bind]

end

theorem Spelled.decodeAt_complete (hr : Spelled sort k r)
    {bytes : Bytes} (hfits : bytes.length ≤ isizeMax) {opts : BDecodeOpt}
    (hsort : opts.checkKeySort = true → sort = true) {depth : Nat} (hdepth : k + depth ≤ opts.maxRecursion) :
    ReadsBack bytes (fun pos => decodeAt bytes pos opts depth) r := by
  induction hr generalizing depth with
  | int layout spelling =>
    intro pos rest h
    exact ⟨_, decodeAt_int hfits (by omega) layout spelling h, rfl⟩
  | bytes head digit spelling =>
    intro pos rest h
    exact ⟨_, decodeAt_bytes hfits (by omega) head digit spelling h, rfl⟩
  | list layout items ih =>
    intro pos rest h
    have hlt : depth < opts.maxRecursion := by omega
    obtain ⟨l', hl', hcontent⟩ := decodeAt_list hfits hlt layout
      (fun r hr => (items r hr).exists_cons) (fun r hr => ih r hr (by omega)) h
    refine ⟨_, hl', ?_⟩
    rw [BencodeRef.Eqv, content, content, contentList_eq,
      contentList_eq, hcontent]
  | dict entries layout keys perm sorted order items ih =>
    intro pos rest h
    have hnodup : (entries.map fun e => e.2.1).Nodup := by
      have hkeys := (perm.map fst).nodup_iff.mpr sorted.nodup_keys
      rwa [map_map] at hkeys
    have hitem : ∀ e ∈ entries,
        ReadsBack bytes (fun pos => decodeAt bytes pos opts (depth + 1)) e.2.2 :=
      fun e he => ih e.2 (perm.mem_iff.mp (mem_map.mpr ⟨e, he, rfl⟩)) (by omega)
    obtain ⟨d', hd', hstands⟩ := decodeAt_dict hfits (by omega) layout keys hnodup
      (fun h => order (hsort h)) hitem h
    refine ⟨_, hd', ?_⟩
    rw [BencodeRef.Eqv, content, content, hstands.content_eq sorted perm]

/-- A value spelled from the start of a buffer is what decoding the buffer returns. -/
theorem Spelled.decode_complete (hr : Spelled sort k r)
    (bytes : Buffer) (rest : Bytes) (htext : bytes.data = r.text ++ rest) {opts : BDecodeOpt}
    (hrest : opts.enforceFullDecode = true → rest = []) (hk : k ≤ opts.maxRecursion)
    (hsort : opts.checkKeySort = true → sort = true) :
    ∃ r', decode bytes opts = .ok r' ∧ r'.Eqv r ∧ r'.buffer = ⟨0, r.text⟩ := by
  obtain ⟨r', hat, heqv⟩ := hr.decodeAt_complete bytes.fits hsort (Nat.add_zero k ▸ hk) 0 rest htext
  simp only [Nat.zero_add] at hat
  refine ⟨r', ?_, heqv, ?_⟩
  · rw [decode, hat, ok_bind]
    simp only
    rw [if_neg]
    rintro ⟨hne, hfull⟩
    rw [htext, hrest hfull, append_nil] at hne
    exact hne rfl
  · have hstart := (decodeAt_sound bytes.data opts _ rfl hat).start
    rw [← heqv.text_eq, text, ← hstart]

end BitTorrent.Bencode
