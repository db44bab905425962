import BitTorrent.BencodeNumber

/-! The language of the decoder. `Spelled sort k r` says, of the bytes kept in `r` alone, that they
spell the value `r` within `k` levels of nesting; `Located` says where in the input the slices of `r`
lie. Decoding at a position is sound and complete for the two: it reads a spelled value from the text
at that position, and it reads every spelled value it finds there. -/

namespace BitTorrent.Bencode

open Rust List

variable {r : BencodeRef}

namespace BencodeRef

theorem valueList_eq (l : List BencodeRef) : valueList l = l.map value := by
  induction l with
  | nil => rfl
  | cons r l ih => rw [valueList, ih, map_cons]

theorem valueDict_eq (d : List (Bytes × BencodeRef)) : valueDict d = d.map (Prod.map id value) := by
  induction d with
  | nil => rfl
  | cons e d ih =>
    obtain ⟨k, r⟩ := e
    rw [valueDict, ih, map_cons]
    rfl

theorem contentList_eq (l : List BencodeRef) : contentList l = l.map content := by
  induction l with
  | nil => rfl
  | cons r l ih => rw [contentList, ih, map_cons]

theorem contentDict_eq (d : List (Bytes × BencodeRef)) : contentDict d = d.map (Prod.map id content) := by
  induction d with
  | nil => rfl
  | cons e d ih =>
    obtain ⟨k, r⟩ := e
    rw [contentDict, ih, map_cons]
    rfl

mutual

theorem value_content : ∀ r : BencodeRef, r.content.value = r.value
  | .int _ _ => rfl
  | .bytes _ _ => rfl
  | .list l _ => by rw [content, value, value, valueList_contentList l]
  | .dict d _ => by rw [content, value, value, valueDict_contentDict d]

theorem valueList_contentList : ∀ l : List BencodeRef, valueList (contentList l) = valueList l
  | [] => rfl
  | r :: l => by rw [contentList, valueList, valueList, value_content r, valueList_contentList l]

theorem valueDict_contentDict :
    ∀ d : List (Bytes × BencodeRef), valueDict (contentDict d) = valueDict d
  | [] => rfl
  | (_, r) :: d => by
    rw [contentDict, valueDict, valueDict, value_content r, valueDict_contentDict d]

end

def text (r : BencodeRef) : Bytes := r.buffer.bytes

theorem text_content (r : BencodeRef) : r.content.text = r.text := by
  cases r <;> rw [content] <;> rfl

variable {r' : BencodeRef}

theorem Eqv.value_eq (h : Eqv r r') : r.value = r'.value := by
  rw [← value_content r, ← value_content r', h]

theorem Eqv.text_eq (h : Eqv r r') : r.text = r'.text := by
  rw [← text_content r, ← text_content r', h]

end BencodeRef

/-- The text of the rows of a container: a spelled key, empty in a list, and a value each. -/
def rowsText (rows : List (Bytes × BencodeRef)) : Bytes := rows.flatMap fun e => e.1 ++ e.2.text

def listRows (l : List BencodeRef) : List (Bytes × BencodeRef) := l.map fun r => ([], r)

/-- An entry of a dictionary as written: the spelling of the key, the key, and the value. -/
abbrev Entry := Bytes × Bytes × BencodeRef

def dictRows (entries : List Entry) : List (Bytes × BencodeRef) := entries.map fun e => (e.1, e.2.2)

inductive Spelled (sort : Bool) : Nat → BencodeRef → Prop where
  | int {k : Nat} {n : Int64} {slice : Slice} {number : Bytes}
      (layout : slice.bytes = intStart :: (number ++ [benEnd])) (spelling : NumberText number n) :
      Spelled sort (k + 1) (.int n slice)
  | bytes {k : Nat} {b : Bytes} {slice : Slice} {first : UInt8} {rest : Bytes}
      (head : slice.bytes = first :: rest) (digit : isDigit first = true)
      (spelling : BytesText slice.bytes b) : Spelled sort (k + 1) (.bytes b slice)
  | list {k : Nat} {l : List BencodeRef} {slice : Slice}
      (layout : slice.bytes = listStart :: (rowsText (listRows l) ++ [benEnd]))
      (items : ∀ r ∈ l, Spelled sort k r) : Spelled sort (k + 1) (.list l slice)
  | dict {k : Nat} {d : List (Bytes × BencodeRef)} {slice : Slice} (entries : List Entry)
      (layout : slice.bytes = dictStart :: (rowsText (dictRows entries) ++ [benEnd]))
      (keys : ∀ e ∈ entries, BytesText e.1 e.2.1) (perm : (entries.map Prod.snd).Perm d)
      (sorted : OrderedMap.Sorted d)
      (order : sort = true → OrderedMap.Sorted (entries.map Prod.snd))
      (items : ∀ e ∈ d, Spelled sort k e.2) : Spelled sort (k + 1) (.dict d slice)

/-- The slice is the part of the buffer between its ends. -/
def InBuffer (bytes : Bytes) (s : Slice) : Prop :=
  s.stop ≤ bytes.length ∧ s.bytes = (bytes.take s.stop).drop s.start

/-- Two slices of one buffer that share no byte. -/
def Apart (a b : BencodeRef) : Prop :=
  a.buffer.stop ≤ b.buffer.start ∨ b.buffer.stop ≤ a.buffer.start

/-- Every slice lies in the buffer, and children strictly inside their parent and apart. -/
inductive Located (bytes : Bytes) : BencodeRef → Prop where
  | intro {r : BencodeRef} (inBuffer : InBuffer bytes r.buffer)
      (within : ∀ c ∈ r.children,
        r.buffer.start < c.buffer.start ∧ c.buffer.stop < r.buffer.stop)
      (apart : r.children.Pairwise Apart) (children : ∀ c ∈ r.children, Located bytes c) :
      Located bytes r

theorem Apart.symm {a b : BencodeRef} (h : Apart a b) : Apart b a := Or.symm h

/-! ### What was read -/

/-- A value read at `pos`, ending just before `next`. -/
structure ReadAt (bytes : Bytes) (sort : Bool) (k pos : Nat) (r : BencodeRef) (next : Nat) : Prop where
  start : r.buffer.start = pos
  stop : r.buffer.stop = next
  layout : bytes.drop pos = r.text ++ bytes.drop next
  spelled : Spelled sort k r
  located : Located bytes r

/-- The rows of a container read from `start` up to `stop`. -/
structure ReadRows (bytes : Bytes) (sort : Bool) (k start stop : Nat)
    (rows : List (Bytes × BencodeRef)) : Prop where
  layout : bytes.drop start = rowsText rows ++ bytes.drop stop
  width : stop = start + (rowsText rows).length
  spelled : ∀ e ∈ rows, Spelled sort k e.2
  located : ∀ e ∈ rows, Located bytes e.2
  within : ∀ e ∈ rows, start ≤ e.2.buffer.start ∧ e.2.buffer.stop ≤ stop
  apart : (rows.map Prod.snd).Pairwise fun a b => a.buffer.stop ≤ b.buffer.start

theorem rowsText_append (rows rows' : List (Bytes × BencodeRef)) :
    rowsText (rows ++ rows') = rowsText rows ++ rowsText rows' := flatMap_append

theorem rowsText_singleton (key : Bytes) (r : BencodeRef) : rowsText [(key, r)] = key ++ r.text :=
  flatMap_singleton _ _

theorem length_text (r : BencodeRef) : r.buffer.start + r.text.length = r.buffer.stop := rfl

variable {rest : Bytes} {first : UInt8}

namespace ReadRows

variable {bytes : Bytes} {sort : Bool} {k start stop : Nat} {rows : List (Bytes × BencodeRef)}

theorem empty (bytes : Bytes) (sort : Bool) (k start : Nat) : ReadRows bytes sort k start start [] where
  layout := rfl
  width := rfl
  spelled := fun _ he => (by cases he)
  located := fun _ he => (by cases he)
  within := fun _ he => (by cases he)
  apart := List.Pairwise.nil

theorem push (h : ReadRows bytes sort k start stop rows) (key : Bytes)
    {next : Nat} (hkey : bytes.drop stop = key ++ rest)
    (hr : ReadAt bytes sort k (stop + key.length) r next) :
    ReadRows bytes sort k start next (rows ++ [(key, r)]) := by
  have hstart := hr.start
  have hstop := hr.stop
  rw [← length_text] at hstop
  have hmem : ∀ e ∈ rows ++ [(key, r)], e ∈ rows ∨ e = (key, r) := by
    intro e he
    exact (mem_append.mp he).imp_right mem_singleton.mp
  constructor
  · rw [rowsText_append, rowsText_singleton, append_assoc, append_assoc, ← hr.layout,
      drop_of_drop key hkey, ← hkey]
    exact h.layout
  · rw [rowsText_append, rowsText_singleton, length_append, length_append, ← hstop, hstart]
    have := h.width
    omega
  · intro e he
    rcases hmem e he with he | rfl
    · exact h.spelled e he
    · exact hr.spelled
  · intro e he
    rcases hmem e he with he | rfl
    · exact h.located e he
    · exact hr.located
  · intro e he
    have hwidth := h.width
    rcases hmem e he with he | rfl
    · have := h.within e he
      omega
    · rw [hr.start, hr.stop]
      omega
  · rw [map_append, pairwise_append]
    refine ⟨h.apart, pairwise_singleton _ _, ?_⟩
    intro a ha b hb
    obtain ⟨e, he, rfl⟩ := mem_map.mp ha
    have := (h.within e he).2
    rw [map_singleton, mem_singleton] at hb
    rw [hb, hr.start]
    omega

theorem close (h : ReadRows bytes sort k (start + 1) stop rows)
    (hfirst : bytes[start]? = some first) (hend : bytes[stop]? = some benEnd) :
    bytes.drop start = first :: (rowsText rows ++ [benEnd]) ++ bytes.drop (stop + 1) := by
  obtain ⟨hlt, hget⟩ := List.getElem?_eq_some_iff.mp hfirst
  obtain ⟨hlt', hget'⟩ := List.getElem?_eq_some_iff.mp hend
  rw [drop_eq_getElem_cons hlt, hget, h.layout, drop_eq_getElem_cons hlt', hget']
  simp

end ReadRows

/-! ### Soundness -/

variable {b : UInt8}

theorem peekByte_eq_ok {bytes : Bytes} {pos : Nat} : peekByte bytes pos = .ok b ↔ bytes[pos]? = some b := by
  unfold peekByte
  split
  · rename_i b' hb
    rw [hb, Except.ok.injEq, Option.some.injEq]
  · rename_i hb
    rw [hb]
    exact ⟨fun h => (by cases h), fun h => (by cases h)⟩

/-- An invariant of the body of a container loop holds when the loop stops, which it does in front of
an end marker. -/
theorem whileNotEnd_sound {σ : Type} {bytes : Bytes} {body : Nat → σ → BencodeParseResult (σ × Nat)}
    (inv : Nat → σ → Prop) (hbody : ∀ pos s s' next, inv pos s → body pos s = .ok (s', next) → inv next s') :
    ∀ {fuel pos : Nat} {s s' : σ} {next : Nat}, inv pos s →
      whileNotEnd bytes body fuel pos s = .ok (s', next) →
      ∃ stop, inv stop s' ∧ bytes[stop]? = some benEnd ∧ next = stop + 1 := by
  intro fuel
  induction fuel with
  | zero =>
    intro pos s s' next _ h
    cases h
  | succ fuel ih =>
    intro pos s s' next hinv h
    obtain ⟨b, hb, h⟩ := bind_eq_ok.mp h
    split at h
    · rename_i hend
      obtain ⟨next', hnext, h⟩ := bind_eq_ok.mp h
      cases h
      exact ⟨pos, hinv, by rw [peekByte_eq_ok.mp hb, hend], (addUsize_eq_ok.mp hnext).1⟩
    · obtain ⟨⟨s₁, next₁⟩, hstep, h⟩ := bind_eq_ok.mp h
      exact ih (hbody pos s s₁ next₁ hinv hstep) h

variable {d : List (Bytes × BencodeRef)} {key : Bytes}

theorem checkKeyOrder_eq_ok {opts : BDecodeOpt} {pos : Nat} : checkKeyOrder opts d pos key = .ok () ↔
      (opts.checkKeySort = true → ∀ last, OrderedMap.lastKey d = some last → last ≤ key) := by
  unfold checkKeyOrder
  split
  · rename_i last hlast hsort
    split
    · rename_i hlt
      exact ⟨fun h => (by cases h), fun h => absurd (h hsort last hlast) (not_le.mpr hlt)⟩
    · rename_i hle
      refine ⟨fun _ _ last' hlast' => ?_, fun _ => rfl⟩
      rw [hlast, Option.some.injEq] at hlast'
      rw [← hlast']
      exact not_lt.mp hle
  · rename_i hneither
    refine ⟨fun _ hsort last hlast => ?_, fun _ => rfl⟩
    exact absurd hsort (hneither last hlast)

/-- A key the decoder takes comes after every key it has when the order is checked. -/
theorem forall_lt_of_checkKeyOrder {opts : BDecodeOpt} {pos : Nat}
    (hd : OrderedMap.Sorted d) (hcheck : checkKeyOrder opts d pos key = .ok ())
    (hnew : key ∉ d.map Prod.fst) (hsort : opts.checkKeySort = true) : ∀ e ∈ d, e.1 < key := by
  intro e he
  obtain ⟨last, hlast, -⟩ := OrderedMap.exists_lastKey (ne_nil_of_mem he)
  have hle := (hd.le_lastKey hlast he).trans (checkKeyOrder_eq_ok.mp hcheck hsort last hlast)
  refine lt_of_le_of_ne hle ?_
  rintro rfl
  exact hnew (mem_map.mpr ⟨e, he, rfl⟩)

variable {l : List BencodeRef}

section

variable {bytes : Bytes} {opts : BDecodeOpt} {k : Nat}
  {decodeItem : Nat → BencodeParseResult (BencodeRef × Nat)}

theorem decodeList_sound (hitem : ∀ pos r next, decodeItem pos = .ok (r, next) →
      ReadAt bytes opts.checkKeySort k pos r next)
    {pos next : Nat} (h : decodeList bytes pos decodeItem = .ok (l, next)) :
    ∃ stop, ReadRows bytes opts.checkKeySort k pos stop (listRows l) ∧
      bytes[stop]? = some benEnd ∧ next = stop + 1 := by
  refine whileNotEnd_sound (fun curr l =>
    ReadRows bytes opts.checkKeySort k pos curr (listRows l)) ?_ (ReadRows.empty _ _ _ _) h
  intro curr l l' next' hinv hbody
  obtain ⟨⟨r, next₁⟩, hr, hbody⟩ := bind_eq_ok.mp hbody
  cases hbody
  rw [listRows, map_append]
  exact hinv.push [] (nil_append _).symm (hitem curr r _ hr)

/-- The entries read so far, in the order of the text, and the map built from them. -/
def DictSoFar (bytes : Bytes) (sort : Bool) (k pos curr : Nat) (d : List (Bytes × BencodeRef)) : Prop :=
  ∃ entries : List Entry, ReadRows bytes sort k pos curr (dictRows entries) ∧
    (∀ e ∈ entries, BytesText e.1 e.2.1) ∧ (entries.map Prod.snd).Perm d ∧ OrderedMap.Sorted d ∧
    (sort = true → OrderedMap.Sorted (entries.map Prod.snd))

theorem dictBody_sound (hitem : ∀ pos r next, decodeItem pos = .ok (r, next) →
      ReadAt bytes opts.checkKeySort k pos r next) {pos curr next : Nat} {d' : List (Bytes × BencodeRef)}
    (hd : DictSoFar bytes opts.checkKeySort k pos curr d)
    (h : dictBody bytes opts decodeItem curr d = .ok (d', next)) :
    DictSoFar bytes opts.checkKeySort k pos next d' := by
  obtain ⟨entries, hrows, hkeys, hperm, hsorted, horder⟩ := hd
  obtain ⟨⟨key, valuePos⟩, hkey, h⟩ := bind_eq_ok.mp h
  obtain ⟨u, hcheck, h⟩ := bind_eq_ok.mp h
  obtain ⟨⟨r, next₁⟩, hr, h⟩ := bind_eq_ok.mp h
  obtain ⟨spelling, rest, hdrop, hspelling, rfl⟩ := decodeBytes_sound hkey
  simp only at h
  split at h
  · cases h
  · rename_i hnew
    cases h
    have hperm' : ((entries ++ [(spelling, key, r)]).map Prod.snd).Perm (OrderedMap.insert key r d) := by
      rw [map_append, map_singleton]
      refine (perm_append_comm.trans (hperm.cons (key, r))).trans
        (OrderedMap.insert_perm fun e he => ?_).symm
      rintro rfl
      exact hnew (mem_map.mpr ⟨e, he, rfl⟩)
    refine ⟨entries ++ [(spelling, key, r)], ?_, ?_, hperm', OrderedMap.sorted_insert hsorted, ?_⟩
    · rw [dictRows, map_append]
      exact hrows.push spelling hdrop (hitem _ r _ hr)
    · intro e he
      rcases mem_append.mp he with he | he
      · exact hkeys e he
      · rw [mem_singleton.mp he]
        exact hspelling
    · intro hsort
      have hlt := forall_lt_of_checkKeyOrder hsorted hcheck hnew hsort
      rw [map_append, OrderedMap.Sorted, pairwise_append]
      refine ⟨horder hsort, pairwise_singleton _ _, ?_⟩
      intro e he e' he'
      rw [map_singleton, mem_singleton] at he'
      rw [he']
      exact hlt e (hperm.mem_iff.mp he)

theorem decodeDict_sound (hitem : ∀ pos r next, decodeItem pos = .ok (r, next) →
      ReadAt bytes opts.checkKeySort k pos r next)
    {pos next : Nat} (h : decodeDict bytes pos opts decodeItem = .ok (d, next)) :
    ∃ stop, DictSoFar bytes opts.checkKeySort k pos stop d ∧
      bytes[stop]? = some benEnd ∧ next = stop + 1 := by
  refine whileNotEnd_sound _ (fun curr d d' next' hd hbody => dictBody_sound hitem hd hbody) ?_ h
  exact ⟨[], ReadRows.empty _ _ _ _, fun _ he => (by cases he), List.Perm.refl _,
    List.Pairwise.nil, fun _ => List.Pairwise.nil⟩

end

theorem inBuffer_of_drop {bytes text : Bytes} {pos : Nat} (hpos : pos ≤ bytes.length)
    (h : bytes.drop pos = text ++ rest) : InBuffer bytes ⟨pos, text⟩ := by
  obtain ⟨-, hle, heq⟩ := slice_eq_ok.mp (slice_of_drop (ε := BencodeParseError) hpos h)
  exact ⟨hle, congrArg Slice.bytes heq⟩

/-- The value a kind of `decodeAt` builds once the text of the value is known. -/
theorem readAt_of_slice {bytes : Bytes} {sort : Bool} {k pos next : Nat} {s : Slice}
    (text : Bytes) (hpos : pos ≤ bytes.length) (hnext : next = pos + text.length)
    (hdrop : bytes.drop pos = text ++ bytes.drop next)
    (hslice : (slice bytes pos next : BencodeParseResult Slice) = .ok s) (hr : r.buffer = s)
    (hspelled : s.bytes = text → Spelled sort k r)
    (hwithin : ∀ c ∈ r.children, pos < c.buffer.start ∧ c.buffer.stop < next)
    (hapart : r.children.Pairwise Apart) (hchildren : ∀ c ∈ r.children, Located bytes c) :
    ReadAt bytes sort k pos r next := by
  subst hnext
  rw [slice_of_drop hpos hdrop, Except.ok.injEq] at hslice
  have hbuffer : r.buffer = ⟨pos, text⟩ := by rw [hr, ← hslice]
  refine ⟨by rw [hbuffer], by rw [hbuffer]; rfl, ?_, hspelled (by rw [← hslice]), ?_⟩
  · rw [BencodeRef.text, hbuffer]
    exact hdrop
  · refine ⟨?_, ?_, hapart, hchildren⟩
    · rw [hbuffer]
      exact inBuffer_of_drop hpos hdrop
    · rw [hbuffer]
      exact hwithin

theorem getElem?_lt {bytes : Bytes} {pos : Nat} (h : bytes[pos]? = some b) :
    pos < bytes.length := (List.getElem?_eq_some_iff.mp h).1

theorem drop_of_getElem? {bytes : Bytes} {pos : Nat} (h : bytes[pos]? = some b) :
    bytes.drop pos = b :: bytes.drop (pos + 1) := by
  obtain ⟨hlt, hget⟩ := List.getElem?_eq_some_iff.mp h
  rw [drop_eq_getElem_cons hlt, hget]

theorem isDigit_iff_byteLen : isDigit b = true ↔ byteLenLow ≤ b ∧ b ≤ byteLenHigh := by
  rw [isDigit, Bool.and_eq_true, decide_eq_true_eq, decide_eq_true_eq]
  rfl

section

variable {bytes : Bytes} {sort : Bool} {k pos next stop : Nat} {s : Slice}

theorem readAt_int {n : Int64} (hfirst : bytes[pos]? = some intStart)
    (hint : decodeInt bytes (pos + 1) benEnd = .ok (n, next))
    (hslice : (slice bytes pos next : BencodeParseResult Slice) = .ok s) :
    ReadAt bytes sort (k + 1) pos (.int n s) next := by
  obtain ⟨number, rest, hdrop, hnumber, rfl⟩ := decodeInt_sound hint
  have hrest := drop_of_drop (number ++ [benEnd]) (hdrop.trans (append_cons number benEnd rest))
  rw [length_append, length_singleton, ← Nat.add_assoc] at hrest
  refine readAt_of_slice (intStart :: (number ++ [benEnd])) (getElem?_lt hfirst).le ?_ ?_ hslice
    rfl (fun hs => .int hs hnumber) (fun c hc => (by cases hc)) List.Pairwise.nil
    (fun c hc => (by cases hc))
  · simp
    omega
  · rw [drop_of_getElem? hfirst, hdrop, hrest]
    simp

theorem readAt_bytes {b : Bytes} (hfirst : bytes[pos]? = some first)
    (hdigit : isDigit first = true) (hbytes : decodeBytes bytes pos = .ok (b, next))
    (hslice : (slice bytes pos next : BencodeParseResult Slice) = .ok s) :
    ReadAt bytes sort (k + 1) pos (.bytes b s) next := by
  obtain ⟨text, rest, hdrop, htext, rfl⟩ := decodeBytes_sound hbytes
  have hne : text ≠ [] := by
    obtain ⟨length, n, rfl, -, -⟩ := htext
    simp
  obtain ⟨c, tail, rfl⟩ := exists_cons_of_ne_nil hne
  have hc : c = first := by
    have h := (drop_of_getElem? hfirst).symm.trans hdrop
    exact (cons.inj h).1.symm
  subst hc
  refine readAt_of_slice _ (getElem?_lt hfirst).le rfl ?_ hslice rfl ?_ (fun c hc => (by cases hc))
    List.Pairwise.nil (fun c hc => (by cases hc))
  · rw [hdrop, drop_of_drop _ hdrop]
  · intro hs
    exact .bytes hs hdigit (by rw [hs]; exact htext)

theorem readAt_list (hfirst : bytes[pos]? = some listStart)
    (hrows : ReadRows bytes sort k (pos + 1) stop (listRows l)) (hend : bytes[stop]? = some benEnd)
    (hslice : (slice bytes pos (stop + 1) : BencodeParseResult Slice) = .ok s) :
    ReadAt bytes sort (k + 1) pos (.list l s) (stop + 1) := by
  have hmem : ∀ r ∈ l, ([], r) ∈ listRows l := fun r hr => mem_map.mpr ⟨r, hr, rfl⟩
  have hvalues : (listRows l).map Prod.snd = l := by
    rw [listRows, map_map]
    exact map_id l
  refine readAt_of_slice _ (getElem?_lt hfirst).le ?_ (hrows.close hfirst hend) hslice rfl ?_ ?_ ?_ ?_
  · have := hrows.width
    simp
    omega
  · exact fun hs => .list hs fun r hr => hrows.spelled _ (hmem r hr)
  · intro r hr
    obtain ⟨hstart, hstop⟩ := hrows.within _ (hmem r hr)
    exact ⟨hstart, Nat.lt_succ_of_le hstop⟩
  · have hapart := hrows.apart
    rw [hvalues] at hapart
    exact hapart.imp Or.inl
  · exact fun r hr => hrows.located _ (hmem r hr)

theorem readAt_dict (hfirst : bytes[pos]? = some dictStart)
    (hd : DictSoFar bytes sort k (pos + 1) stop d) (hend : bytes[stop]? = some benEnd)
    (hslice : (slice bytes pos (stop + 1) : BencodeParseResult Slice) = .ok s) :
    ReadAt bytes sort (k + 1) pos (.dict d s) (stop + 1) := by
  obtain ⟨entries, hrows, hkeys, hperm, hsorted, horder⟩ := hd
  have hvalues : ((dictRows entries).map Prod.snd).Perm (d.map Prod.snd) := by
    have h := hperm.map Prod.snd
    rw [map_map] at h
    rw [dictRows, map_map]
    exact h
  have hmem : ∀ r ∈ d.map Prod.snd, ∃ e ∈ dictRows entries, e.2 = r :=
    fun r hr => mem_map.mp (hvalues.mem_iff.mpr hr)
  refine readAt_of_slice _ (getElem?_lt hfirst).le ?_ (hrows.close hfirst hend) hslice rfl ?_ ?_ ?_ ?_
  · have := hrows.width
    simp
    omega
  · intro hs
    refine .dict entries hs hkeys hperm hsorted horder fun e he => ?_
    obtain ⟨e', he', heq⟩ := hmem e.2 (mem_map.mpr ⟨e, he, rfl⟩)
    rw [← heq]
    exact hrows.spelled e' he'
  · intro r hr
    obtain ⟨e, he, rfl⟩ := hmem r hr
    have := hrows.within e he
    omega
  · exact (hvalues.pairwise_iff Apart.symm).mp (hrows.apart.imp Or.inl)
  · intro r hr
    obtain ⟨e, he, rfl⟩ := hmem r hr
    exact hrows.located e he

end

/-- Whatever decoding reads at a position is spelled and located there. -/
theorem decodeAt_sound (bytes : Bytes) (opts : BDecodeOpt) (k : Nat) :
    ∀ {depth pos : Nat} {r : BencodeRef} {next : Nat}, opts.maxRecursion - depth = k →
      decodeAt bytes pos opts depth = .ok (r, next) → ReadAt bytes opts.checkKeySort k pos r next := by
  induction k with
  | zero =>
    intro depth pos r next hk h
    rw [decodeAt, if_pos (by omega)] at h
    cases h
  | succ k ih =>
    intro depth pos r next hk h
    rw [decodeAt, if_neg (by omega)] at h
    obtain ⟨b, hb, h⟩ := bind_eq_ok.mp h
    have hfirst := peekByte_eq_ok.mp hb
    have hitem : ∀ pos r next, decodeAt bytes pos opts (depth + 1) = .ok (r, next) →
        ReadAt bytes opts.checkKeySort k pos r next := fun pos r next => ih (by omega)
    split at h
    · rename_i hkind
      obtain ⟨body, hbody, ⟨n, next'⟩, hint, s, hslice, h⟩ := by simpa only [bind_eq_ok] using h
      obtain ⟨rfl, -⟩ := addUsize_eq_ok.mp hbody
      cases h
      exact readAt_int (by rw [hfirst, hkind]) hint hslice
    · split at h
      · rename_i hkind
        obtain ⟨body, hbody, ⟨l, next'⟩, hlist, s, hslice, h⟩ := by simpa only [bind_eq_ok] using h
        obtain ⟨rfl, -⟩ := addUsize_eq_ok.mp hbody
        obtain ⟨stop, hrows, hend, rfl⟩ := decodeList_sound hitem hlist
        cases h
        exact readAt_list (by rw [hfirst, hkind]) hrows hend hslice
      · split at h
        · rename_i hkind
          obtain ⟨body, hbody, ⟨d, next'⟩, hdict, s, hslice, h⟩ := by
            simpa only [bind_eq_ok] using h
          obtain ⟨rfl, -⟩ := addUsize_eq_ok.mp hbody
          obtain ⟨stop, hrows, hend, rfl⟩ := decodeDict_sound hitem hdict
          cases h
          exact readAt_dict (by rw [hfirst, hkind]) hrows hend hslice
        · split at h
          · rename_i hkind
            obtain ⟨⟨v, next'⟩, hbytes, s, hslice, h⟩ := by simpa only [bind_eq_ok] using h
            cases h
            exact readAt_bytes hfirst (isDigit_iff_byteLen.mpr hkind) hbytes hslice
          · cases h

end BitTorrent.Bencode
