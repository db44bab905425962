import BitTorrent.HandshakeMessage

/-! Filters of handshakes. The decisions of all filters on one field are combined by taking the highest one,
and then those of the five fields are combined in the same way. So a filter that allows one field overrides
what others block on the other fields. -/

namespace BitTorrent.Handshake

open Rust List

open Dht (SocketAddr InfoHash)

inductive FilterDecision where
  | pass
  | block
  | needData
  | allow
  deriving DecidableEq

namespace FilterDecision

def num : FilterDecision → Nat
  | pass => 0
  | block => 1
  | needData => 2
  | allow => 3

def choose (self other : FilterDecision) : FilterDecision :=
  if self.num > other.num then self else other

end FilterDecision

/-- What a filter answers on each field, which may not be known yet. -/
structure HandshakeFilter where
  onAddr : Option SocketAddr → FilterDecision
  onProt : Option Protocol → FilterDecision
  onExt : Option Extensions → FilterDecision
  onHash : Option InfoHash → FilterDecision
  onPid : Option PeerId → FilterDecision

/-- The decisions on the five fields so far. -/
structure Decisions where
  addrFilter : FilterDecision
  protFilter : FilterDecision
  extFilter : FilterDecision
  hashFilter : FilterDecision
  pidFilter : FilterDecision

section

variable (addr : Option SocketAddr) (prot : Option Protocol) (ext : Option Extensions) (hash : Option InfoHash)
  (pid : Option PeerId)

def Decisions.choose (d : Decisions) (filter : HandshakeFilter) : Decisions where
  addrFilter := d.addrFilter.choose (filter.onAddr addr)
  protFilter := d.protFilter.choose (filter.onProt prot)
  extFilter := d.extFilter.choose (filter.onExt ext)
  hashFilter := d.hashFilter.choose (filter.onHash hash)
  pidFilter := d.pidFilter.choose (filter.onPid pid)

def shouldFilter (filters : List HandshakeFilter) : Bool :=
  let d := filters.foldl (Decisions.choose addr prot ext hash pid) ⟨.pass, .pass, .pass, .pass, .pass⟩
  ((((d.addrFilter.choose d.protFilter).choose d.extFilter).choose d.hashFilter).choose d.pidFilter) == .block

end

/-! ### Choosing -/

namespace FilterDecision

theorem num_choose (a b : FilterDecision) : (a.choose b).num = max a.num b.num := by
  unfold choose
  split <;> omega

theorem num_injective : Function.Injective num := by
  intro a b h
  cases a <;> cases b <;> first | rfl | cases h

theorem choose_assoc (a b c : FilterDecision) : (a.choose b).choose c = a.choose (b.choose c) := by
  apply num_injective
  simp only [num_choose, max_assoc]

theorem choose_eq_block {a b : FilterDecision} (ha : a ≠ needData) (hb : b ≠ needData) :
    a.choose b = block ↔ (a = block ∨ b = block) ∧ a ≠ allow ∧ b ≠ allow := by
  revert ha hb
  cases a <;> cases b <;> decide

theorem choose_ne_needData {a b : FilterDecision} (ha : a ≠ needData) (hb : b ≠ needData) :
    a.choose b ≠ needData := by
  revert ha hb
  cases a <;> cases b <;> decide

theorem choose_ne_allow {a b : FilterDecision} : a.choose b ≠ allow ↔ a ≠ allow ∧ b ≠ allow := by
  cases a <;> cases b <;> decide

end FilterDecision

def chooseAll (l : List FilterDecision) : FilterDecision := l.foldl .choose .pass

theorem pass_choose (a : FilterDecision) : FilterDecision.pass.choose a = a := by
  cases a <;> rfl

theorem foldl_choose (a : FilterDecision) (l : List FilterDecision) :
    l.foldl .choose a = a.choose (chooseAll l) := by
  induction l generalizing a with
  | nil => cases a <;> rfl
  | cons b l ih =>
    have hcons : chooseAll (b :: l) = b.choose (chooseAll l) := by
      rw [chooseAll, foldl_cons, pass_choose, ih b]
    rw [foldl_cons, ih, hcons, FilterDecision.choose_assoc]

theorem chooseAll_cons (a : FilterDecision) (l : List FilterDecision) :
    chooseAll (a :: l) = a.choose (chooseAll l) := by
  rw [chooseAll, foldl_cons, pass_choose, foldl_choose]

section

variable {l : List FilterDecision}

theorem chooseAll_ne_needData (h : .needData ∉ l) : chooseAll l ≠ .needData := by
  induction l with
  | nil => exact fun heq => by cases heq
  | cons a l ih =>
    rw [mem_cons, not_or] at h
    rw [chooseAll_cons]
    exact FilterDecision.choose_ne_needData (Ne.symm h.1) (ih h.2)

theorem chooseAll_ne_allow : chooseAll l ≠ .allow ↔ .allow ∉ l := by
  induction l with
  | nil => simp [chooseAll]
  | cons a l ih => rw [chooseAll_cons, FilterDecision.choose_ne_allow, ih, mem_cons, not_or, ne_comm]

theorem chooseAll_eq_block (h : .needData ∉ l) : chooseAll l = .block ↔ .block ∈ l ∧ .allow ∉ l := by
  induction l with
  | nil => simp [chooseAll]
  | cons a l ih =>
    rw [mem_cons, not_or] at h
    rw [chooseAll_cons, FilterDecision.choose_eq_block (Ne.symm h.1) (chooseAll_ne_needData h.2), ih h.2,
      chooseAll_ne_allow, mem_cons, mem_cons, not_or]
    constructor
    · rintro ⟨ha | ⟨hblock, -⟩, hne, hallow⟩
      · exact ⟨.inl ha.symm, hne.symm, hallow⟩
      · exact ⟨.inr hblock, hne.symm, hallow⟩
    · rintro ⟨ha | hblock, hne, hallow⟩
      · exact ⟨.inl ha.symm, Ne.symm hne, hallow⟩
      · exact ⟨.inr ⟨hblock, hallow⟩, Ne.symm hne, hallow⟩

end

/-! ### Fields -/

inductive Field where
  | addr
  | prot
  | ext
  | hash
  | pid
  deriving DecidableEq

/-- A handshake of which everything is known. -/
structure CompleteHandshake where
  addr : SocketAddr
  prot : Protocol
  ext : Extensions
  hash : InfoHash
  pid : PeerId

namespace HandshakeFilter

def answer (h : CompleteHandshake) (filter : HandshakeFilter) : Field → FilterDecision
  | .addr => filter.onAddr (some h.addr)
  | .prot => filter.onProt (some h.prot)
  | .ext => filter.onExt (some h.ext)
  | .hash => filter.onHash (some h.hash)
  | .pid => filter.onPid (some h.pid)

end HandshakeFilter

namespace CompleteHandshake

variable (h : CompleteHandshake) (filters : List HandshakeFilter)

/-- A field that some filter blocks and none allows. -/
def Blocked (field : Field) : Prop :=
  (∃ filter ∈ filters, filter.answer h field = .block) ∧ ∀ filter ∈ filters, filter.answer h field ≠ .allow

/-- No filter allows any field. -/
def NothingAllowed : Prop := ∀ filter ∈ filters, ∀ field, filter.answer h field ≠ .allow

/-- The call with everything that is known. -/
def filtered : Bool := shouldFilter (some h.addr) (some h.prot) (some h.ext) (some h.hash) (some h.pid) filters

def answers (field : Field) : List FilterDecision := filters.map (·.answer h field)

def fields : List Field := [.addr, .prot, .ext, .hash, .pid]

theorem mem_fields (field : Field) : field ∈ fields := by
  cases field <;> decide

/-- The loop keeps the decisions on the fields apart. -/
theorem foldl_choose_eq (d : Decisions) :
    filters.foldl (Decisions.choose (some h.addr) (some h.prot) (some h.ext) (some h.hash) (some h.pid)) d =
      ⟨(h.answers filters .addr).foldl .choose d.addrFilter, (h.answers filters .prot).foldl .choose d.protFilter,
        (h.answers filters .ext).foldl .choose d.extFilter, (h.answers filters .hash).foldl .choose d.hashFilter,
        (h.answers filters .pid).foldl .choose d.pidFilter⟩ := by
  induction filters generalizing d with
  | nil => rfl
  | cons filter filters ih =>
    rw [foldl_cons, ih]
    rfl

theorem filtered_eq :
    h.filtered filters = (chooseAll (fields.map fun field => chooseAll (h.answers filters field)) == .block) := by
  rw [filtered, shouldFilter, foldl_choose_eq]
  simp only [fields, map_cons, map_nil, chooseAll, foldl_cons, foldl_nil, pass_choose]

variable {h filters}

theorem filtered_iff (hdata : ∀ filter ∈ filters, ∀ field, filter.answer h field ≠ .needData) :
    h.filtered filters = true ↔
      (∃ filter ∈ filters, ∃ field, filter.answer h field = .block) ∧ h.NothingAllowed filters := by
  have hanswers : ∀ field, .needData ∉ h.answers filters field := by
    intro field hmem
    obtain ⟨filter, hfilter, hanswer⟩ := mem_map.mp hmem
    exact hdata filter hfilter field hanswer
  have hfields : .needData ∉ fields.map fun field => chooseAll (h.answers filters field) := by
    intro hmem
    obtain ⟨field, -, hfield⟩ := mem_map.mp hmem
    exact chooseAll_ne_needData (hanswers field) hfield
  rw [filtered_eq, beq_iff_eq, chooseAll_eq_block hfields]
  constructor
  · rintro ⟨hblock, hallow⟩
    obtain ⟨field, -, hfield⟩ := mem_map.mp hblock
    obtain ⟨filter, hfilter, hanswer⟩ := mem_map.mp ((chooseAll_eq_block (hanswers field)).mp hfield).1
    refine ⟨⟨filter, hfilter, field, hanswer⟩, fun filter' hfilter' field' hanswer' => hallow ?_⟩
    refine mem_map.mpr ⟨field', mem_fields field', ?_⟩
    by_contra hne
    exact chooseAll_ne_allow.mp hne (mem_map.mpr ⟨filter', hfilter', hanswer'⟩)
  · rintro ⟨⟨filter, hfilter, field, hanswer⟩, hnothing⟩
    have hallow : ∀ field', .allow ∉ h.answers filters field' := by
      intro field' hmem
      obtain ⟨filter', hfilter', hanswer'⟩ := mem_map.mp hmem
      exact hnothing filter' hfilter' field' hanswer'
    refine ⟨mem_map.mpr ⟨field, mem_fields field, ?_⟩, fun hmem => ?_⟩
    · exact (chooseAll_eq_block (hanswers field)).mpr ⟨mem_map.mpr ⟨filter, hfilter, hanswer⟩, hallow field⟩
    · obtain ⟨field', -, hfield'⟩ := mem_map.mp hmem
      exact chooseAll_ne_allow.mpr (hallow field') hfield'

/-- The filters decide field by field just when no field is blocked that none allows, or nothing at all is
allowed. -/
theorem filtered_per_field_iff (h : CompleteHandshake) (filters : List HandshakeFilter)
    (hdata : ∀ filter ∈ filters, ∀ field, filter.answer h field ≠ .needData) :
    (h.filtered filters = true ↔ ∃ field, h.Blocked filters field) ↔
      ((∃ field, h.Blocked filters field) → h.NothingAllowed filters) := by
  rw [filtered_iff hdata]
  constructor
  · intro hiff hblocked
    exact (hiff.mpr hblocked).2
  · intro hcond
    constructor
    · rintro ⟨⟨filter, hfilter, field, hanswer⟩, hnothing⟩
      exact ⟨field, ⟨filter, hfilter, hanswer⟩, fun filter' hfilter' => hnothing filter' hfilter' field⟩
    · intro hblocked
      have hnothing := hcond hblocked
      obtain ⟨field, ⟨filter, hfilter, hanswer⟩, -⟩ := hblocked
      exact ⟨⟨filter, hfilter, field, hanswer⟩, hnothing⟩

end CompleteHandshake

def blockAddresses : HandshakeFilter :=
  ⟨fun _ => .block, fun _ => .pass, fun _ => .pass, fun _ => .pass, fun _ => .pass⟩

def allowProtocols : HandshakeFilter :=
  ⟨fun _ => .pass, fun _ => .allow, fun _ => .pass, fun _ => .pass, fun _ => .pass⟩

def somePeer : CompleteHandshake where
  addr := .v4 (Dht.octets 10 0 0 1) 6881
  prot := .bitTorrent
  ext := .new
  hash := .fill 0
  pid := .fill 1

theorem filtered_per_field_blockAddresses :
    (somePeer.filtered [blockAddresses] = true ↔ ∃ field, somePeer.Blocked [blockAddresses] field) ↔
      ((∃ field, somePeer.Blocked [blockAddresses] field) → somePeer.NothingAllowed [blockAddresses]) := by
  refine CompleteHandshake.filtered_per_field_iff somePeer [blockAddresses] fun filter hfilter field => ?_
  cases mem_singleton.mp hfilter
  cases field <;> decide

/-- The address is blocked, and the peer is let in because of its protocol. -/
theorem allowed_protocol_unblocks_address :
    somePeer.Blocked [blockAddresses, allowProtocols] .addr ∧
      somePeer.filtered [blockAddresses, allowProtocols] = false := by
  refine ⟨⟨⟨blockAddresses, mem_cons_self, rfl⟩, fun filter hfilter => ?_⟩, by decide⟩
  rcases mem_pair.mp hfilter with rfl | rfl <;> decide

end BitTorrent.Handshake
