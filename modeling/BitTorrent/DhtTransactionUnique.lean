import BitTorrent.DhtTransaction

/-! All transaction ids of a node. One generator hands out generators of message ids, one for each
action, and each of those hands out transaction ids; calls come in any order. As long as neither kind
of numbers has been used up, no two transaction ids are the same, and each leads back to the generator
that made it. -/

namespace BitTorrent.Dht

open Rust IdBlocks MIDGenerator

open List hiding Vector getElem?_eq_some_iff

/-- The generator of actions, the generators it returned, and what those returned. -/
structure Generators where
  aids : AIDGenerator
  mids : List MIDGenerator
  issued : List (Nat × TransactionID)

namespace Generators

inductive Op where
  | generateAid (shuffle : Shuffle actionIdPreallocLen)
  | generateMid (index : Nat) (shuffle : Shuffle messageIdPreallocLen)

def start (shuffle : Shuffle actionIdPreallocLen) : Generators := ⟨.new shuffle, [], []⟩

def step (st : Generators) : Op → Generators
  | .generateAid shuffle =>
    let (mid, aids) := st.aids.generate shuffle
    ⟨aids, st.mids ++ [mid], st.issued⟩
  | .generateMid index shuffle =>
    match st.mids[index]? with
    | none => st
    | some g =>
      let (tid, g) := g.generate shuffle
      ⟨st.aids, st.mids.set index g, st.issued ++ [(index, tid)]⟩

def run (shuffle : Shuffle actionIdPreallocLen) (ops : List Op) : Generators :=
  ops.foldl step (start shuffle)

/-- The transaction ids made by one of the generators. -/
def issuedBy (st : Generators) (index : Nat) : List TransactionID :=
  (st.issued.filter (·.1 = index)).map Prod.snd

/-- No more numbers were drawn than there are. -/
structure Within (st : Generators) : Prop where
  aids : st.mids.length ≤ maxActionId
  mids : ∀ index, (st.issuedBy index).length ≤ maxMessageId

structure Sound (st : Generators) : Prop where
  nodup : (st.issued.map Prod.snd).Nodup
  known : ∀ p ∈ st.issued, p.1 < st.mids.length
  actions : ∃ drawn, Blocks.Handed maxActionId st.aids.actionIds drawn ∧
    st.mids.map shiftedActionId = drawn.map (· <<< UInt64.ofNat messageIdShift)
  messages : ∀ index g, st.mids[index]? = some g → ∃ drawn,
    Blocks.Handed maxMessageId g.messageIds drawn ∧
      st.issuedBy index = drawn.map fun m => .new (g.shiftedActionId ||| m)

section

variable {st : Generators}

theorem sound_start (shuffle : Shuffle actionIdPreallocLen) : Sound (start shuffle) := by
  constructor
  · exact nodup_nil
  · exact fun p hp => absurd hp not_mem_nil
  · refine ⟨[], ?_, rfl⟩
    exact (Blocks.handed_nil (Vector.replicate _ 0)).refill (by decide) (by decide)
      (drop_eq_nil_of_le (by simp)) (by decide) shuffle
  · intro index g hg
    cases hg

theorem Sound.action (h : Sound st) {index : Nat} {g : MIDGenerator} (hg : st.mids[index]? = some g) :
    ∃ a : UInt64, a.toNat < maxActionId ∧ g.shiftedActionId = a <<< UInt64.ofNat messageIdShift := by
  obtain ⟨drawn, hdrawn, hmids⟩ := h.actions
  have hmem : g.shiftedActionId ∈ st.mids.map shiftedActionId :=
    mem_map_of_mem (mem_of_getElem? hg)
  rw [hmids, mem_map] at hmem
  obtain ⟨a, ha, heq⟩ := hmem
  exact ⟨a, hdrawn.drawn_lt ha, heq.symm⟩

theorem Sound.nodup_shifted (h : Sound st) : (st.mids.map shiftedActionId).Nodup := by
  obtain ⟨drawn, hdrawn, hmids⟩ := h.actions
  rw [hmids]
  apply List.Nodup.map_on ?_ hdrawn.drawn_nodup
  intro a ha b hb heq
  have haction := congrArg ActionID.fromTransactionId heq
  rw [fromTransactionId_shifted (hdrawn.drawn_lt ha),
    fromTransactionId_shifted (hdrawn.drawn_lt hb)] at haction
  exact ActionID.mk.inj haction

theorem Sound.index_eq (h : Sound st) {i j : Nat} {g g' : MIDGenerator} (hi : st.mids[i]? = some g)
    (hj : st.mids[j]? = some g') (heq : g.shiftedActionId = g'.shiftedActionId) : i = j := by
  have hlt : i < (st.mids.map shiftedActionId).length := by
    rw [length_map]
    exact (getElem?_eq_some_iff.mp hi).1
  apply (getElem?_inj hlt h.nodup_shifted).mp
  rw [getElem?_map, getElem?_map, hi, hj, Option.map_some, Option.map_some, heq]

theorem issuedBy_of_length_le (h : Sound st) {index : Nat} (hindex : st.mids.length ≤ index) :
    st.issuedBy index = [] := by
  rw [issuedBy, filter_eq_nil_iff.mpr, map_nil]
  intro p hp
  have hlt := h.known p hp
  simp only [decide_eq_true_eq]
  omega

theorem mem_issuedBy {p : Nat × TransactionID} (hp : p ∈ st.issued) : p.2 ∈ st.issuedBy p.1 :=
  mem_map_of_mem (mem_filter.mpr ⟨hp, by simp⟩)

theorem Sound.generateAid (h : Sound st) (hroom : st.mids.length < maxActionId)
    (shuffle : Shuffle actionIdPreallocLen) : Sound (st.step (.generateAid shuffle)) := by
  obtain ⟨drawn, hdrawn, hmids⟩ := h.actions
  have hlen : drawn.length = st.mids.length := by
    have hcongr := congrArg length hmids
    rw [length_map, length_map] at hcongr
    exact hcongr.symm
  constructor
  · exact h.nodup
  · intro p hp
    exact (h.known p hp).trans_le (by simp [step])
  · refine ⟨_, hdrawn.draw (by decide) (by decide) (by omega) shuffle, ?_⟩
    rw [step, map_append, map_append, hmids]
    rfl
  · intro index g hg
    rw [step] at hg
    rcases lt_or_ge index st.mids.length with hindex | hindex
    · rw [getElem?_append_left hindex] at hg
      exact h.messages index g hg
    · rw [getElem?_append_right hindex, getElem?_singleton] at hg
      split at hg
      · rw [← Option.some.inj hg]
        exact ⟨[], Blocks.handed_nil _, issuedBy_of_length_le h hindex⟩
      · exact absurd hg (by simp)

/-- A new transaction id is none of the earlier ones: one with the same action id would come from the
same generator, which does not repeat its message ids. -/
theorem Sound.fresh (h : Sound st) {index : Nat} {g : MIDGenerator} {drawn : List UInt64} {m : UInt64}
    (hg : st.mids[index]? = some g)
    (hissued : st.issuedBy index = drawn.map fun m => .new (g.shiftedActionId ||| m))
    (hdrawn : (drawn ++ [m]).Nodup) (hlt : ∀ x ∈ drawn ++ [m], x.toNat < maxMessageId) :
    TransactionID.new (g.shiftedActionId ||| m) ∉ st.issued.map Prod.snd := by
  intro hmem
  obtain ⟨p, hp, hpair⟩ := mem_map.mp hmem
  obtain ⟨g', hg'⟩ : ∃ g', st.mids[p.1]? = some g' :=
    ⟨_, getElem?_eq_getElem (h.known p hp)⟩
  obtain ⟨drawn', hdrawn', hissued'⟩ := h.messages p.1 g' hg'
  obtain ⟨m', hm', hpair'⟩ : ∃ m' ∈ drawn', TransactionID.new (g'.shiftedActionId ||| m') = p.2 := by
    have hby := mem_issuedBy hp
    rwa [hissued', mem_map] at hby
  obtain ⟨a, ha, hshift⟩ := h.action hg
  obtain ⟨a', ha', hshift'⟩ := h.action hg'
  have hword : g'.shiftedActionId ||| m' = g.shiftedActionId ||| m :=
    congrArg TransactionID.transId (hpair'.trans hpair)
  rw [hshift, hshift'] at hword
  obtain ⟨rfl, rfl⟩ := packed_injective ha' ha (hdrawn'.drawn_lt hm')
    (hlt m (mem_append_right _ mem_cons_self)) hword
  have hindex : p.1 = index := h.index_eq hg' hg (hshift'.trans hshift.symm)
  -- so the message id was drawn from this generator before
  have hby := mem_issuedBy hp
  rw [hindex, hissued, mem_map] at hby
  obtain ⟨m, hm, hpair''⟩ := hby
  have hword' : g.shiftedActionId ||| m = g.shiftedActionId ||| m' :=
    congrArg TransactionID.transId (hpair''.trans hpair)
  rw [hshift] at hword'
  obtain ⟨-, rfl⟩ := packed_injective ha' ha' (hlt m (mem_append_left _ hm))
    (hlt m' (mem_append_right _ mem_cons_self)) hword'
  exact (nodup_append.mp hdrawn).2.2 m hm m mem_cons_self rfl

theorem issuedBy_append (st : Generators) {mids : List MIDGenerator} {aids : AIDGenerator}
    {tid : TransactionID} (index index' : Nat) : issuedBy ⟨aids, mids, st.issued ++ [(index, tid)]⟩ index' =
      if index' = index then st.issuedBy index' ++ [tid] else st.issuedBy index' := by
  rw [issuedBy, filter_append, map_append]
  by_cases hindex : index' = index
  · simp [hindex, issuedBy]
  · simp [hindex, Ne.symm hindex, issuedBy]

theorem Sound.generateMid (h : Sound st) {index : Nat} (hroom : (st.issuedBy index).length < maxMessageId)
    (shuffle : Shuffle messageIdPreallocLen) : Sound (st.step (.generateMid index shuffle)) := by
  rw [step]
  cases hg : st.mids[index]? with
  | none => exact h
  | some g =>
    obtain ⟨drawn, hdrawn, hissued⟩ := h.messages index g hg
    have hdraw := hdrawn.draw (by decide) (by decide)
      (by rwa [hissued, length_map] at hroom) shuffle
    have hindex : index < st.mids.length := (getElem?_eq_some_iff.mp hg).1
    constructor
    · rw [map_append]
      apply List.Nodup.append h.nodup (nodup_singleton _)
      rw [disjoint_singleton]
      exact h.fresh hg hissued hdraw.drawn_nodup fun x hx => hdraw.drawn_lt hx
    · intro p hp
      rw [length_set]
      rcases mem_append.mp hp with hp | hp
      · exact h.known p hp
      · rw [mem_singleton.mp hp]
        exact hindex
    · obtain ⟨actions, hactions, hmids⟩ := h.actions
      refine ⟨actions, hactions, ?_⟩
      rw [map_set, ← hmids]
      apply ext_getElem?
      intro i
      rw [getElem?_set]
      split
      · rename_i hi
        rw [← hi, getElem?_map, hg]
        simp [hindex, generate]
      · rfl
    · intro index' g' hg'
      rw [getElem?_set] at hg'
      rw [issuedBy_append]
      by_cases heq : index = index'
      · rw [if_pos heq, if_pos (heq ▸ hindex)] at hg'
        rw [if_pos heq.symm, ← heq, ← Option.some.inj hg', hissued]
        refine ⟨_, hdraw, ?_⟩
        rw [map_append]
        rfl
      · rw [if_neg heq] at hg'
        rw [if_neg (Ne.symm heq)]
        exact h.messages index' g' hg'

theorem step_mono (st : Generators) (op : Op) : st.mids.length ≤ (st.step op).mids.length ∧
      ∀ index, (st.issuedBy index).length ≤ ((st.step op).issuedBy index).length := by
  cases op with
  | generateAid shuffle =>
    refine ⟨?_, fun index => le_rfl⟩
    rw [step, length_append]
    exact Nat.le_add_right _ _
  | generateMid index shuffle =>
    rw [step]
    split
    · exact ⟨le_rfl, fun index => le_rfl⟩
    · refine ⟨(length_set ..).ge, fun index' => ?_⟩
      rw [issuedBy_append]
      split
      · rw [length_append]
        exact Nat.le_add_right _ _
      · exact le_rfl

theorem Within.of_step {op : Op} (h : (st.step op).Within) : st.Within :=
  ⟨(step_mono st op).1.trans h.aids, fun index => ((step_mono st op).2 index).trans (h.mids index)⟩

theorem Sound.step {op : Op} (h : Sound st) (hwithin : (st.step op).Within) : Sound (st.step op) := by
  cases op with
  | generateAid shuffle =>
    apply h.generateAid
    have hlen := hwithin.aids
    rw [Generators.step, length_append, length_singleton] at hlen
    exact hlen
  | generateMid index shuffle =>
    cases hg : st.mids[index]? with
    | none =>
      rw [Generators.step, hg]
      exact h
    | some g =>
      apply h.generateMid
      have hlen := hwithin.mids index
      rw [Generators.step, hg] at hlen
      simp only at hlen
      rw [issuedBy_append, if_pos rfl, length_append, length_singleton] at hlen
      exact hlen

theorem sound_run (shuffle : Shuffle actionIdPreallocLen) (ops : List Op)
    (hwithin : (run shuffle ops).Within) : Sound (run shuffle ops) := by
  induction ops using reverseRecOn with
  | nil => exact sound_start shuffle
  | append_singleton ops op ih =>
    rw [run, foldl_append, foldl_cons, foldl_nil] at hwithin ⊢
    exact (ih hwithin.of_step).step hwithin

theorem Sound.actionId_eq (h : Sound st) {index : Nat} {g : MIDGenerator}
    (hg : st.mids[index]? = some g) {tid : TransactionID} (htid : (index, tid) ∈ st.issued) :
    tid.actionId = g.actionId := by
  obtain ⟨a, ha, hshift⟩ := h.action hg
  obtain ⟨drawn, hdrawn, hissued⟩ := h.messages index g hg
  have hby := mem_issuedBy htid
  rw [hissued, mem_map] at hby
  obtain ⟨m, hm, rfl⟩ := hby
  rw [TransactionID.actionId, TransactionID.new, hshift,
    fromTransactionId_packed ha (hdrawn.drawn_lt hm), actionId, hshift,
    fromTransactionId_shifted ha]

theorem Sound.nodup_actionId (h : Sound st) : (st.mids.map actionId).Nodup := by
  have hmap : st.mids.map actionId =
      (st.mids.map shiftedActionId).map ActionID.fromTransactionId := by
    rw [map_map]
    rfl
  rw [hmap]
  apply List.Nodup.map_on ?_ h.nodup_shifted
  intro x hx y hy heq
  obtain ⟨drawn, hdrawn, hmids⟩ := h.actions
  rw [hmids, mem_map] at hx hy
  obtain ⟨a, ha, rfl⟩ := hx
  obtain ⟨b, hb, rfl⟩ := hy
  rw [fromTransactionId_shifted (hdrawn.drawn_lt ha), fromTransactionId_shifted (hdrawn.drawn_lt hb),
    ActionID.mk.injEq] at heq
  rw [heq]

end

def noShuffle (n : Nat) : Shuffle n := ⟨id, fun _ => le_rfl⟩

/-- Transaction ids are distinct and lead back to their generators, for all shuffles and all orders
of calls. -/
theorem run_transactionIDs (shuffle : Shuffle actionIdPreallocLen) (ops : List Op)
    (haids : (run shuffle ops).mids.length ≤ 2 ^ 40)
    (hmids : ∀ index, ((run shuffle ops).issuedBy index).length ≤ 2 ^ 24) :
    ((run shuffle ops).issued.map Prod.snd).Nodup ∧
      (∀ index tid, (index, tid) ∈ (run shuffle ops).issued →
        ∃ g, (run shuffle ops).mids[index]? = some g ∧ tid.actionId = g.actionId) ∧
      ((run shuffle ops).mids.map actionId).Nodup ∧
      ∀ p ∈ (run shuffle ops).issued, TransactionID.fromBytes p.2.asRef = some p.2 := by
  have hsound := sound_run shuffle ops ⟨haids, hmids⟩
  refine ⟨hsound.nodup, ?_, hsound.nodup_actionId, fun p _ => p.2.fromBytes_asRef⟩
  intro index tid htid
  have hg := List.getElem?_eq_getElem (hsound.known _ htid)
  exact ⟨_, hg, hsound.actionId_eq hg htid⟩

/-- Two transaction ids of one action. -/
theorem run_transactionIDs_two :
    ((run (noShuffle _) [.generateAid (noShuffle _), .generateMid 0 (noShuffle _),
      .generateMid 0 (noShuffle _)]).issued.map Prod.snd).Nodup :=
  (run_transactionIDs _ _ (by decide) fun index =>
    (List.length_map .. |>.trans_le (List.length_filter_le ..)).trans (by decide)).1

/-! ### Without a shuffle -/

theorem fisherShuffle_noShuffle {n : Nat} (ids : Vector UInt64 n) :
    (noShuffle n).fisherShuffle ids = ids := by
  rw [Shuffle.fisherShuffle]
  induction finRange n with
  | nil => rfl
  | cons i rest ih =>
    rw [foldl_cons, Shuffle.takeSwap_eq]
    have hself : ids.swap i i = ids := by
      ext k hk
      grind
    change foldl _ (ids.swap i i) rest = ids
    rw [hself, ih]

theorem getElem_firstBlock {bound len i : Nat} (hbound : 0 ≠ bound) (hi : i < len) :
    ((noShuffle len).fisherShuffle (allocate bound len 0).2)[i] = UInt64.ofNat i := by
  rw [fisherShuffle_noShuffle]
  simp only [Blocks.allocate_of_ne hbound, Vector.getElem_ofFn, Nat.zero_add]

theorem getElem_newAids {i : Nat} (hi : i < actionIdPreallocLen) :
    (AIDGenerator.new (noShuffle _)).actionIds.ids[i] = UInt64.ofNat i := by
  have hid : ((noShuffle actionIdPreallocLen).fisherShuffle
      (allocate maxActionId actionIdPreallocLen 0).2)[i] = UInt64.ofNat i :=
    getElem_firstBlock (by decide) hi
  simp only [AIDGenerator.new, generateAids, hid]

theorem generate_of_lt {g : AIDGenerator} {i : Nat} (hi : g.actionIds.currIndex = i)
    (hlt : i < actionIdPreallocLen) (shuffle : Shuffle actionIdPreallocLen) :
    g.generate shuffle = (.new (g.actionIds.ids[i] <<< UInt64.ofNat messageIdShift),
      ⟨{ g.actionIds with currIndex := i + 1 }⟩) := by
  subst hi
  rw [AIDGenerator.generate, Blocks.draw, dif_pos hlt]

theorem generate_newAids :
    (AIDGenerator.new (noShuffle _)).generate (noShuffle _) =
      (.new 0, ⟨{ (AIDGenerator.new (noShuffle _)).actionIds with currIndex := 1 }⟩) := by
  rw [generate_of_lt (i := 0) rfl (by decide), getElem_newAids]
  rfl

theorem generate_nextAids :
    (AIDGenerator.generate ⟨{ (AIDGenerator.new (noShuffle _)).actionIds with currIndex := 1 }⟩
      (noShuffle _)).1 = .new (1 <<< UInt64.ofNat messageIdShift) := by
  have hsecond := generate_of_lt
    (g := ⟨{ (AIDGenerator.new (noShuffle _)).actionIds with currIndex := 1 }⟩) (i := 1) rfl (by decide)
    (noShuffle _)
  rw [hsecond]
  simp only [getElem_newAids]
  rfl

theorem generate_newMids (actionId : UInt64) : ((new actionId).generate (noShuffle _)).1 = .new actionId := by
  have hmid : ((noShuffle messageIdPreallocLen).fisherShuffle
      (allocate maxMessageId messageIdPreallocLen 0).2)[0] = 0 :=
    getElem_firstBlock (by decide) (by decide)
  simp only [generate, new, Blocks.draw, lt_self_iff_false, dite_false,
    Blocks.refill, generateMids, hmid, UInt64.or_zero]

end Generators

end BitTorrent.Dht
