import BitTorrent.DhtNode
import BitTorrent.RustHashMap
import BitTorrent.ExpiringMap

/-! The storage of announced contacts. Contacts sit in one list per info hash, and a second list, in
the order of insertion, says when each of them expires. Equality of both kinds of entries ignores the
time. The two lists always hold the same contacts, and the second one is a queue that holds the live
part of the map from contacts to the time of their last announce. -/

namespace BitTorrent.Dht

open Rust List

def hours (n : Int) : Time := minutes (n * 60)

def maxItemsStored : Nat := 500

def expirationTimeHours : Int := 24

structure ItemExpiration where
  address : SocketAddr
  inserted : Time
  infoHash : InfoHash

namespace ItemExpiration

def new (infoHash : InfoHash) (address : SocketAddr) (now : Time) : ItemExpiration :=
  ⟨address, now, infoHash⟩

def isExpired (i : ItemExpiration) (now : Time) : Bool :=
  now - i.inserted ≥ hours expirationTimeHours

/-- `PartialEq` of expirations. -/
def eq (i other : ItemExpiration) : Bool :=
  i.address = other.address && i.infoHash = other.infoHash

def key (i : ItemExpiration) : InfoHash × SocketAddr := (i.infoHash, i.address)

theorem eq_iff {i other : ItemExpiration} : i.eq other = true ↔ i.key = other.key := by
  rw [eq, Bool.and_eq_true, decide_eq_true_eq, decide_eq_true_eq, key, key, Prod.mk.injEq, and_comm]

end ItemExpiration

structure AnnounceItem where
  expiration : ItemExpiration

namespace AnnounceItem

def new (infoHash : InfoHash) (address : SocketAddr) (now : Time) : AnnounceItem :=
  ⟨.new infoHash address now⟩

def address (item : AnnounceItem) : SocketAddr := item.expiration.address

def infoHash (item : AnnounceItem) : InfoHash := item.expiration.infoHash

def eq (item other : AnnounceItem) : Bool := item.expiration.eq other.expiration

end AnnounceItem

structure AnnounceStorage where
  storage : HashMap InfoHash (List AnnounceItem)
  expires : List ItemExpiration

namespace AnnounceStorage

def new : AnnounceStorage := ⟨∅, []⟩

/-- The body of the pruning loop. -/
def removeContact (storage : HashMap InfoHash (List AnnounceItem))
    (itemExpiration : ItemExpiration) : HashMap InfoHash (List AnnounceItem) :=
  let infoHash := itemExpiration.infoHash
  match storage.lookup infoHash with
  | none => storage
  | some items =>
    let items := items.filter fun a => !a.expiration.eq itemExpiration
    if items.isEmpty then storage.erase infoHash else storage.insert infoHash items

def removeExpiredItems (s : AnnounceStorage) (currTime : Time) : AnnounceStorage :=
  let numExpiredItems := (s.expires.takeWhile (·.isExpired currTime)).length
  ⟨(s.expires.take numExpiredItems).foldl removeContact s.storage, s.expires.drop numExpiredItems⟩

/-- Whether the contact was there already, or nothing if there was no room for it. -/
def insertContact (s : AnnounceStorage) (item : AnnounceItem) : Option Bool × AnnounceStorage :=
  let itemInfoHash := item.infoHash
  let alreadyInList :=
    match s.storage.lookup itemInfoHash with
    | some items => items.any (·.eq item)
    | none => false
  match alreadyInList, decide (s.expires.length < maxItemsStored) with
  | false, true =>
    let items :=
      match s.storage.lookup itemInfoHash with
      | some items => items ++ [item]
      | none => [item]
    (some false, ⟨s.storage.insert itemInfoHash items, s.expires⟩)
  | false, false => (none, s)
  | true, _ => (some true, s)

/-- The item is stamped with a reading `now` of the clock of its own. -/
def add (s : AnnounceStorage) (infoHash : InfoHash) (address : SocketAddr) (currTime now : Time) :
    Bool × AnnounceStorage :=
  let s := s.removeExpiredItems currTime
  let item := AnnounceItem.new infoHash address now
  let itemExpiration := item.expiration
  match s.insertContact item with
  | (some true, s) =>
    (true, ⟨s.storage, s.expires.filter (fun i => !i.eq itemExpiration) ++ [itemExpiration]⟩)
  | (some false, s) => (true, ⟨s.storage, s.expires ++ [itemExpiration]⟩)
  | (none, s) => (false, s)

def addItem (s : AnnounceStorage) (infoHash : InfoHash) (address : SocketAddr) (now : Time) :
    Bool × AnnounceStorage := s.add infoHash address now now

/-- The result lists the addresses the closure is invoked with. -/
def find (s : AnnounceStorage) (infoHash : InfoHash) (currTime : Time) :
    List SocketAddr × AnnounceStorage :=
  let s := s.removeExpiredItems currTime
  match s.storage.lookup infoHash with
  | some items => (items.map AnnounceItem.address, s)
  | none => ([], s)

def findItems (s : AnnounceStorage) (infoHash : InfoHash) (now : Time) :
    List SocketAddr × AnnounceStorage := s.find infoHash now

/-! ### The lists by info hash -/

def contactsOf (storage : HashMap InfoHash (List AnnounceItem)) (h : InfoHash) : List SocketAddr :=
  ((storage.lookup h).getD []).map AnnounceItem.address

/-- Every item is in the list of its own info hash. -/
def Filed (storage : HashMap InfoHash (List AnnounceItem)) : Prop :=
  ∀ h items, storage.lookup h = some items → ∀ item ∈ items, item.infoHash = h

variable {items : List AnnounceItem} {h' : InfoHash}

section

variable {storage : HashMap InfoHash (List AnnounceItem)} {h : InfoHash} {e : ItemExpiration}

theorem contactsOf_of_lookup (hitems : storage.lookup h = some items) :
    contactsOf storage h = items.map AnnounceItem.address := by
  rw [contactsOf, hitems, Option.getD_some]

theorem Filed.insert (hfiled : Filed storage)
    (hitems : ∀ item ∈ items, item.infoHash = h) : Filed (storage.insert h items) := by
  intro h' items' hlookup
  rw [HashMap.lookup_insert_eq] at hlookup
  split at hlookup
  · rename_i heq
    rw [heq, ← Option.some.inj hlookup]
    exact hitems
  · exact hfiled h' items' hlookup

theorem Filed.erase (hfiled : Filed storage) : Filed (storage.erase h) := by
  intro h' items' hlookup
  rw [HashMap.lookup_erase_eq] at hlookup
  split at hlookup
  · cases hlookup
  · exact hfiled h' items' hlookup

/-- Among items of one info hash, equal ones are those with the same address. -/
theorem map_address_filter (hitems : ∀ item ∈ items, item.infoHash = e.infoHash) :
    (items.filter fun a => !a.expiration.eq e).map AnnounceItem.address =
      (items.map AnnounceItem.address).filter (· ≠ e.address) := by
  rw [filter_map]
  congr 1
  refine filter_congr fun item hitem => ?_
  have hhash : item.expiration.infoHash = e.infoHash := hitems item hitem
  rw [Bool.eq_iff_iff, Bool.not_eq_true', Bool.eq_false_iff, ne_eq, ItemExpiration.eq_iff,
    ItemExpiration.key, hhash]
  simp only [ItemExpiration.key, AnnounceItem.address, Prod.mk.injEq, true_and, Function.comp_apply]
  exact decide_eq_true_iff.symm

theorem removeContact_spec (hfiled : Filed storage) (e : ItemExpiration) :
    Filed (removeContact storage e) ∧ ∀ h, contactsOf (removeContact storage e) h =
      (contactsOf storage h).filter fun a => (h, a) ≠ e.key := by
  have hother : ∀ h, h ≠ e.infoHash →
      (contactsOf storage h).filter (fun a => (h, a) ≠ e.key) = contactsOf storage h := by
    intro h hne
    refine filter_eq_self.mpr fun a _ => decide_eq_true fun heq => hne ?_
    exact congrArg Prod.fst heq
  have hself : (contactsOf storage e.infoHash).filter (fun a => (e.infoHash, a) ≠ e.key) =
      (contactsOf storage e.infoHash).filter (· ≠ e.address) := by
    refine filter_congr fun a _ => ?_
    simp [ItemExpiration.key]
  rw [removeContact]
  simp only
  cases hitems : storage.lookup e.infoHash with
  | none =>
    refine ⟨hfiled, fun h => ?_⟩
    by_cases hh : h = e.infoHash
    · rw [hh, contactsOf, hitems]
      rfl
    · exact (hother h hh).symm
  | some items =>
    have hmine := hfiled _ items hitems
    have hmap := map_address_filter hmine
    simp only
    rw [contactsOf_of_lookup hitems, ← hmap] at hself
    by_cases hempty : (items.filter fun a => !a.expiration.eq e).isEmpty = true
    · rw [if_pos hempty]
      refine ⟨hfiled.erase, fun h => ?_⟩
      rw [contactsOf, HashMap.lookup_erase_eq]
      by_cases hh : h = e.infoHash
      · rw [if_pos hh, hh, contactsOf_of_lookup hitems, hself, isEmpty_iff.mp hempty]
        rfl
      · rw [if_neg hh, hother h hh]
        rfl
    · rw [if_neg hempty]
      refine ⟨hfiled.insert fun item hitem => hmine item (mem_filter.mp hitem).1, fun h => ?_⟩
      rw [contactsOf, HashMap.lookup_insert_eq]
      by_cases hh : h = e.infoHash
      · rw [if_pos hh, hh, contactsOf_of_lookup hitems, hself]
        rfl
      · rw [if_neg hh, hother h hh]
        rfl

theorem foldl_removeContact_spec (hfiled : Filed storage) (l : List ItemExpiration) :
    Filed (l.foldl removeContact storage) ∧ ∀ h, contactsOf (l.foldl removeContact storage) h =
      (contactsOf storage h).filter fun a => (h, a) ∉ l.map ItemExpiration.key := by
  induction l generalizing storage with
  | nil =>
    refine ⟨hfiled, fun h => ?_⟩
    simp
  | cons e l ih =>
    obtain ⟨hfiled', hcontacts⟩ := removeContact_spec hfiled e
    obtain ⟨hfiled'', hrest⟩ := ih hfiled'
    refine ⟨hfiled'', fun h => ?_⟩
    rw [foldl_cons, hrest, hcontacts, filter_filter]
    refine filter_congr fun a _ => ?_
    rw [← Bool.decide_and]
    exact decide_eq_decide.mpr (by rw [map_cons, mem_cons, not_or, and_comm])

theorem mem_contactsOf_insert {a : SocketAddr} : a ∈ contactsOf (storage.insert h' items) h ↔
      if h = h' then a ∈ items.map AnnounceItem.address else a ∈ contactsOf storage h := by
  rw [contactsOf, HashMap.lookup_insert_eq]
  split
  · rw [Option.getD_some]
  · rfl

theorem mem_of_mem_removeContact {a : SocketAddr} (ha : a ∈ contactsOf (removeContact storage e) h) :
    a ∈ contactsOf storage h := by
  unfold removeContact at ha
  simp only at ha
  split at ha
  · exact ha
  · rename_i items hitems
    split at ha
    · rw [contactsOf, HashMap.lookup_erase_eq] at ha
      split at ha
      · cases ha
      · exact ha
    · rw [mem_contactsOf_insert] at ha
      split at ha
      · rename_i heq
        obtain ⟨item, hitem, rfl⟩ := mem_map.mp ha
        rw [heq, contactsOf_of_lookup hitems]
        exact mem_map_of_mem (mem_filter.mp hitem).1
      · exact ha

end

/-! ### The two lists together -/

def contacts (s : AnnounceStorage) (h : InfoHash) : List SocketAddr := contactsOf s.storage h

/-- The contacts with the time of their last announce, in the order of these times. -/
def queue (s : AnnounceStorage) : List ((InfoHash × SocketAddr) × Time) :=
  s.expires.map fun i => (i.key, i.inserted)

/-- The lists by info hash hold the contacts of the expiration list, each once. -/
structure Agrees (s : AnnounceStorage) : Prop where
  filed : Filed s.storage
  nodup : ∀ h, (s.contacts h).Nodup
  mem_iff : ∀ h a, a ∈ s.contacts h ↔ (h, a) ∈ s.expires.map ItemExpiration.key

theorem agrees_new : new.Agrees :=
  ⟨fun _ _ h => (by cases h), fun _ => nodup_nil, fun _ _ => iff_of_false nofun nofun⟩

theorem keys_queue (s : AnnounceStorage) : s.queue.map Prod.fst = s.expires.map ItemExpiration.key := by
  rw [queue, map_map]
  rfl

variable {s : AnnounceStorage} {h : InfoHash} {a : SocketAddr} {now : Time}

theorem removeExpiredItems_eq (s : AnnounceStorage) (now : Time) : s.removeExpiredItems now =
      ⟨(s.expires.takeWhile (·.isExpired now)).foldl removeContact s.storage,
        s.expires.dropWhile (·.isExpired now)⟩ := by
  have hsplit := takeWhile_append_dropWhile (p := (·.isExpired now)) (l := s.expires)
  rw [removeExpiredItems, prefix_iff_eq_take.mp ( takeWhile_prefix _) |>.symm]
  congr 1
  exact (congrArg (drop _) hsplit.symm).trans drop_left

theorem queue_removeExpiredItems (s : AnnounceStorage) (now : Time) :
    (s.removeExpiredItems now).queue = ExpiringMap.expire (hours expirationTimeHours) now s.queue := by
  rw [removeExpiredItems_eq, queue, queue, ExpiringMap.expire, dropWhile_map]
  rfl

theorem Agrees.removeExpiredItems (hs : s.Agrees) (hnodup : (s.expires.map ItemExpiration.key).Nodup)
    (now : Time) : (s.removeExpiredItems now).Agrees := by
  obtain ⟨hfiled, hcontacts⟩ :=
    foldl_removeContact_spec hs.filed (s.expires.takeWhile (·.isExpired now))
  rw [removeExpiredItems_eq]
  refine ⟨hfiled, fun h => ?_, fun h a => ?_⟩
  · rw [contacts, hcontacts]
    exact (hs.nodup h).filter _
  · have hsplit := takeWhile_append_dropWhile (p := (·.isExpired now)) (l := s.expires)
    rw [← hsplit, map_append, nodup_append] at hnodup
    have hmem := hs.mem_iff h a
    rw [← hsplit, map_append, mem_append] at hmem
    rw [contacts, hcontacts, mem_filter, decide_eq_true_eq]
    refine (and_congr_left' hmem).trans ⟨fun hin => hin.1.resolve_left hin.2, fun hin => ?_⟩
    exact ⟨Or.inr hin, fun hgone => hnodup.2.2 _ hgone _ hin rfl⟩

/-! ### Insertion -/

theorem Agrees.any_eq_iff (hs : s.Agrees) (a : SocketAddr) (now : Time)
    (hitems : s.storage.lookup h = some items) :
    items.any (·.eq (.new h a now)) = true ↔ a ∈ s.contacts h := by
  rw [contacts, contactsOf_of_lookup hitems, any_eq_true, mem_map]
  refine exists_congr fun item => and_congr_right fun hmem => ?_
  have hhash : item.expiration.infoHash = h := hs.filed h items hitems item hmem
  rw [AnnounceItem.eq, ItemExpiration.eq_iff, ItemExpiration.key, hhash]
  simp [ItemExpiration.key, AnnounceItem.new, ItemExpiration.new, AnnounceItem.address]

/-- A contact that is stored already, or for which there is no room, changes nothing. -/
theorem Agrees.insertContact_eq (hs : s.Agrees) (h : InfoHash) (a : SocketAddr) (now : Time) :
    (a ∈ s.contacts h → s.insertContact (.new h a now) = (some true, s)) ∧
    (a ∉ s.contacts h → maxItemsStored ≤ s.expires.length → s.insertContact (.new h a now) = (none, s)) ∧
    (a ∉ s.contacts h → s.expires.length < maxItemsStored →
      s.insertContact (.new h a now) = (some false, ⟨s.storage.insert h
        ((s.storage.lookup h).getD [] ++ [.new h a now]), s.expires⟩)) := by
  have hhash : (AnnounceItem.new h a now).infoHash = h := rfl
  rw [insertContact, hhash]
  simp only
  cases hitems : s.storage.lookup h with
  | none =>
    have hnil : s.contacts h = [] := by
      rw [contacts, contactsOf, hitems]
      rfl
    refine ⟨fun hin => ?_, fun _ hfull => ?_, fun _ hroom => ?_⟩
    · rw [hnil] at hin
      cases hin
    · simp only [decide_eq_false (not_lt.mpr hfull)]
    · simp only [decide_eq_true hroom]
      rfl
  | some items =>
    have hany := hs.any_eq_iff a now hitems
    refine ⟨fun hin => ?_, fun hout hfull => ?_, fun hout hroom => ?_⟩
    · simp only [hany.mpr hin]
    · simp only [Bool.eq_false_iff.mpr (mt hany.mp hout), decide_eq_false (not_lt.mpr hfull)]
    · simp only [Bool.eq_false_iff.mpr (mt hany.mp hout), decide_eq_true hroom]
      rfl

theorem Agrees.push (hs : s.Agrees) (hout : a ∉ s.contacts h) (now : Time) :
    Agrees ⟨s.storage.insert h ((s.storage.lookup h).getD [] ++ [.new h a now]),
      s.expires ++ [.new h a now]⟩ := by
  have hcontacts : ∀ h', contactsOf (s.storage.insert h
      ((s.storage.lookup h).getD [] ++ [AnnounceItem.new h a now])) h' =
        if h' = h then s.contacts h ++ [a] else s.contacts h' := by
    intro h'
    rw [contactsOf, HashMap.lookup_insert_eq]
    split
    · rw [Option.getD_some, map_append]
      rfl
    · rfl
  refine ⟨hs.filed.insert fun item hitem => ?_, fun h' => ?_, fun h' a' => ?_⟩
  · rcases mem_append.mp hitem with hitem | hitem
    · cases hitems : s.storage.lookup h with
      | none =>
        rw [hitems] at hitem
        cases hitem
      | some items =>
        rw [hitems] at hitem
        exact hs.filed h items hitems item hitem
    · rw [mem_singleton.mp hitem]
      rfl
  · rw [contacts, hcontacts]
    split
    · exact nodup_append.mpr ⟨hs.nodup h, nodup_singleton a, fun x hx y hy hxy =>
        hout (mem_singleton.mp hy ▸ hxy ▸ hx)⟩
    · exact hs.nodup h'
  · rw [contacts, hcontacts, map_append, mem_append, ← hs.mem_iff, map_singleton,
      mem_singleton]
    change _ ↔ _ ∨ (h', a') = (h, a)
    by_cases hh : h' = h
    · rw [if_pos hh, hh, mem_append, mem_singleton, Prod.mk.injEq]
      simp
    · rw [if_neg hh, Prod.mk.injEq]
      simp [hh]

theorem Agrees.renew (hs : s.Agrees) (hin : a ∈ s.contacts h) (now : Time) :
    Agrees ⟨s.storage, s.expires.filter (fun i => !i.eq (.new h a now)) ++ [.new h a now]⟩ := by
  refine ⟨hs.filed, hs.nodup, fun h' a' => ?_⟩
  change a' ∈ s.contacts h' ↔ _
  rw [hs.mem_iff, map_append, mem_append, map_singleton, mem_singleton]
  change _ ↔ _ ∨ (h', a') = (h, a)
  constructor
  · intro hmem
    obtain ⟨i, hi, hkey⟩ := mem_map.mp hmem
    by_cases heq : (h', a') = (h, a)
    · exact Or.inr heq
    · refine Or.inl (mem_map.mpr ⟨i, mem_filter.mpr ⟨hi, ?_⟩, hkey⟩)
      rw [Bool.not_eq_true', Bool.eq_false_iff, ne_eq, ItemExpiration.eq_iff, hkey]
      exact heq
  · rintro (hmem | heq)
    · obtain ⟨i, hi, hkey⟩ := mem_map.mp hmem
      exact mem_map.mpr ⟨i, (mem_filter.mp hi).1, hkey⟩
    · rw [heq]
      exact (hs.mem_iff h a).mp hin

theorem queue_renew (s : AnnounceStorage) (storage : HashMap InfoHash (List AnnounceItem)) (h : InfoHash)
    (a : SocketAddr) (now : Time) :
    queue ⟨storage, s.expires.filter (fun i => !i.eq (.new h a now)) ++ [.new h a now]⟩ =
      s.queue.filter (fun e => e.1 ≠ (h, a)) ++ [((h, a), now)] := by
  rw [queue, map_append, queue, filter_map]
  congr 2
  refine filter_congr fun i _ => ?_
  rw [Bool.eq_iff_iff, Bool.not_eq_true', Bool.eq_false_iff, ne_eq, ItemExpiration.eq_iff,
    Function.comp_apply, decide_eq_true_eq]
  rfl

/-! ### Calls -/

/-- Every contact is live for a day after its last announce. -/
abbrev Live (m : InfoHash × SocketAddr → Option Time) (now : Time) (k : InfoHash × SocketAddr) : Prop :=
  ExpiringMap.Live (hours expirationTimeHours) m now k

/-- The storage holds the live part of a map from contacts to the times of their last announces. -/
structure Stores (s : AnnounceStorage) (m : InfoHash × SocketAddr → Option Time) (now : Time) : Prop where
  agrees : s.Agrees
  holds : ExpiringMap.Holds (hours expirationTimeHours) s.queue m now
  size : s.expires.length ≤ maxItemsStored

variable {m : InfoHash × SocketAddr → Option Time} {t : Time}

theorem stores_new (t : Time) : new.Stores (fun _ => none) t :=
  ⟨agrees_new, ExpiringMap.holds_nil, Nat.zero_le _⟩

theorem Stores.nodup (hs : s.Stores m t) : (s.expires.map ItemExpiration.key).Nodup :=
  keys_queue s ▸ hs.holds.nodup

theorem Stores.prune (hs : s.Stores m t) (hle : t ≤ now) : (s.removeExpiredItems now).Stores m now := by
  refine ⟨hs.agrees.removeExpiredItems hs.nodup now, ?_, ?_⟩
  · rw [queue_removeExpiredItems]
    exact hs.holds.expire hle
  · rw [removeExpiredItems_eq]
    exact (dropWhile_sublist _).length_le.trans hs.size

theorem Stores.mem_contacts (hs : s.Stores m t) (hle : t ≤ now) :
    a ∈ (s.removeExpiredItems now).contacts h ↔ Live m now (h, a) := by
  rw [(hs.prune hle).agrees.mem_iff, ← keys_queue, queue_removeExpiredItems]
  exact hs.holds.mem_keys_expire hle

theorem Stores.encard_live (hs : s.Stores m t) (hle : t ≤ now) :
    {k | Live m now k}.encard = (s.removeExpiredItems now).expires.length := by
  rw [hs.holds.encard_live hle, ← queue_removeExpiredItems, queue, length_map]

theorem find_eq (s : AnnounceStorage) (h : InfoHash) (now : Time) :
    s.find h now = ((s.removeExpiredItems now).contacts h, s.removeExpiredItems now) := by
  rw [find, contacts, contactsOf]
  cases (s.removeExpiredItems now).storage.lookup h with
  | none => rfl
  | some items => rfl

theorem mem_of_mem_removeExpiredItems (ha : a ∈ (s.removeExpiredItems now).contacts h) :
    a ∈ s.contacts h := by
  have hfold : ∀ (l : List ItemExpiration) (storage : HashMap InfoHash (List AnnounceItem)),
      a ∈ contactsOf (l.foldl removeContact storage) h → a ∈ contactsOf storage h := by
    intro l
    induction l with
    | nil => exact fun _ hin => hin
    | cons e l ih => exact fun storage hin => mem_of_mem_removeContact (ih _ hin)
  exact hfold _ _ ha

theorem mem_of_mem_insertContact {item : AnnounceItem} (ha : a ∈ (s.insertContact item).2.contacts h) :
    a ∈ s.contacts h ∨ h = item.infoHash ∧ a = item.address := by
  unfold insertContact at ha
  simp only at ha
  split at ha
  · change a ∈ contactsOf _ h at ha
    rw [mem_contactsOf_insert] at ha
    split at ha
    · rename_i heq
      subst heq
      rw [contacts, contactsOf]
      split at ha
      · rename_i items hitems
        rw [map_append, mem_append, map_singleton, mem_singleton] at ha
        rw [hitems]
        exact ha.imp id fun ha => ⟨rfl, ha⟩
      · rw [map_singleton, mem_singleton] at ha
        exact Or.inr ⟨rfl, ha⟩
    · exact Or.inl ha
  · exact Or.inl ha
  · exact Or.inl ha

theorem mem_of_mem_addItem {a' : SocketAddr}
    (ha : a ∈ (s.addItem h' a' now).2.contacts h) : a ∈ s.contacts h ∨ h = h' ∧ a = a' := by
  have hinsert : (s.addItem h' a' now).2.storage =
      ((s.removeExpiredItems now).insertContact (.new h' a' now)).2.storage := by
    unfold addItem add
    simp only
    generalize (s.removeExpiredItems now).insertContact (.new h' a' now) = inserted
    obtain ⟨result, s'⟩ := inserted
    rcases result with _ | _ | _ <;> rfl
  rw [contacts, hinsert] at ha
  exact (mem_of_mem_insertContact ha).imp mem_of_mem_removeExpiredItems id

theorem mem_of_mem_findItems (ha : a ∈ (s.findItems h' now).2.contacts h) : a ∈ s.contacts h := by
  rw [findItems, find_eq] at ha
  exact mem_of_mem_removeExpiredItems ha

/-- The three things a call of `add` can do. -/
theorem Stores.add_cases (hs : s.Stores m t) (hle : t ≤ now) (h : InfoHash) (a : SocketAddr) :
    ((s.add h a now now).1 = true ∧ (s.add h a now now).2.Stores (Function.update m (h, a) (some now)) now ∧
      (Live m now (h, a) ∨ {k | Live m now k}.encard < maxItemsStored)) ∨
    (s.add h a now now = (false, s.removeExpiredItems now) ∧
      ¬ Live m now (h, a) ∧ {k | Live m now k}.encard = maxItemsStored) := by
  have hpruned := hs.prune hle
  obtain ⟨hrenew, hfull, hroom⟩ := hpruned.agrees.insertContact_eq h a now
  have hstamp := hpruned.holds.stamp (h, a)
  rw [← hs.mem_contacts hle, hs.encard_live hle, Nat.cast_lt, Nat.cast_inj, add]
  by_cases hin : a ∈ (s.removeExpiredItems now).contacts h
  · rw [hrenew hin]
    refine Or.inl ⟨rfl, ⟨hpruned.agrees.renew hin now, ?_, ?_⟩, Or.inl hin⟩
    · rw [← queue_renew _ (s.removeExpiredItems now).storage] at hstamp
      exact hstamp
    · have hkey := (hpruned.agrees.mem_iff h a).mp hin
      obtain ⟨i, hi, hkey⟩ := mem_map.mp hkey
      have hlt : ((s.removeExpiredItems now).expires.filter
          fun i => !i.eq (.new h a now)).length < (s.removeExpiredItems now).expires.length := by
        rw [length_filter_lt_length_iff_exists]
        refine ⟨i, hi, ?_⟩
        rw [Bool.not_eq_true, Bool.not_eq_false', ItemExpiration.eq_iff, hkey]
        rfl
      rw [length_append, length_singleton]
      exact hlt.trans_le hpruned.size
  · rcases lt_or_ge (s.removeExpiredItems now).expires.length maxItemsStored with hlt | hge
    · rw [hroom hin hlt]
      refine Or.inl ⟨rfl, ⟨hpruned.agrees.push hin now, ?_, ?_⟩, Or.inr hlt⟩
      · have hfilter : (s.removeExpiredItems now).queue.filter (fun e => e.1 ≠ (h, a)) =
            (s.removeExpiredItems now).queue := by
          refine filter_eq_self.mpr fun e he => decide_eq_true fun heq => hin ?_
          rw [hpruned.agrees.mem_iff, ← keys_queue]
          exact mem_map.mpr ⟨e, he, heq⟩
        rw [hfilter] at hstamp
        rw [queue, map_append]
        exact hstamp
      · rw [length_append, length_singleton]
        exact hlt
    · rw [hfull hin hge]
      exact Or.inr ⟨rfl, hin, le_antisymm hpruned.size hge⟩

/-- A storage after a sequence of calls at non-decreasing times, the map from contacts to the times
of their last successful `add`, and the time of the last call. -/
inductive Runs : AnnounceStorage → (InfoHash × SocketAddr → Option Time) → Time → Prop where
  | new (t : Time) : Runs new (fun _ => none) t
  | add {s : AnnounceStorage} {m : InfoHash × SocketAddr → Option Time} {t now : Time}
      (h : InfoHash) (a : SocketAddr) (hrun : Runs s m t) (hle : t ≤ now) :
      Runs (s.add h a now now).2
        (if (s.add h a now now).1 then Function.update m (h, a) (some now) else m) now
  | find {s : AnnounceStorage} {m : InfoHash × SocketAddr → Option Time} {t now : Time}
      (h : InfoHash) (hrun : Runs s m t) (hle : t ≤ now) : Runs (s.find h now).2 m now

theorem Runs.stores (hrun : Runs s m t) : s.Stores m t := by
  induction hrun with
  | new t => exact stores_new t
  | @add s m t now h a hrun hle ih =>
    rcases ih.add_cases hle h a with ⟨htrue, hstores, -⟩ | ⟨hfalse, -⟩
    · rw [if_pos htrue]
      exact hstores
    · rw [hfalse]
      exact ih.prune hle
  | @find s m t now h hrun hle ih =>
    rw [find_eq]
    exact ih.prune hle

/-- The storage behaves as the map from contacts to the times of their last announces in which every
entry expires, with room for a fixed number of live entries. -/
theorem runs_expiring_map (hrun : Runs s m t) :
    (s.expires.map ItemExpiration.key).Nodup ∧ (∀ h, (s.contacts h).Nodup) ∧
    (∀ h a, a ∈ s.contacts h ↔ (h, a) ∈ s.expires.map ItemExpiration.key) ∧
    ∀ now, t ≤ now →
      {k | Live m now k}.encard ≤ 500 ∧
      (∀ h, (s.find h now).1.Nodup ∧ ∀ a, a ∈ (s.find h now).1 ↔ Live m now (h, a)) ∧
      ∀ h a,
        ((s.add h a now now).1 = false ↔
          ¬ Live m now (h, a) ∧ {k | Live m now k}.encard = 500) ∧
        ((s.add h a now now).1 = false → (s.add h a now now).2 = s.removeExpiredItems now) := by
  have hs := hrun.stores
  refine ⟨hs.nodup, hs.agrees.nodup, hs.agrees.mem_iff, fun now hle => ⟨?_, fun h => ?_, fun h a => ?_⟩⟩
  · rw [hs.encard_live hle]
    exact_mod_cast (hs.prune hle).size
  · rw [find_eq]
    exact ⟨(hs.prune hle).agrees.nodup h, fun a => hs.mem_contacts hle⟩
  · rcases hs.add_cases hle h a with ⟨htrue, -, hlive⟩ | ⟨hfalse, hdead, hcard⟩
    · rw [htrue]
      refine ⟨⟨fun hf => (by cases hf), fun hf => ?_⟩, fun hf => (by cases hf)⟩
      rcases hlive with hlive | hlt
      · exact absurd hlive hf.1
      · exact absurd hf.2 hlt.ne
    · rw [hfalse]
      exact ⟨⟨fun _ => ⟨hdead, hcard⟩, fun _ => rfl⟩, fun _ => rfl⟩

def contactOne : InfoHash × SocketAddr := (⟨replicate 20 7, rfl⟩, .v4 #v[10, 0, 0, 1] 6881)

theorem runs_expiring_map_contactOne :
    contactOne.2 ∈ ((new.add contactOne.1 contactOne.2 0 0).2.find contactOne.1 (hours 23)).1 ∧
    contactOne.2 ∉ ((new.add contactOne.1 contactOne.2 0 0).2.find contactOne.1 (hours 24)).1 := by
  have htrue : (new.add contactOne.1 contactOne.2 0 0).1 = true := by decide
  have hrun := Runs.add contactOne.1 contactOne.2 (.new 0) (le_refl 0)
  rw [if_pos htrue] at hrun
  have hfinds := (runs_expiring_map hrun).2.2.2
  constructor
  · rw [((hfinds (hours 23) (by decide)).2.1 contactOne.1).2]
    exact ⟨0, Function.update_self _ _ _, by decide⟩
  · rw [((hfinds (hours 24) (by decide)).2.1 contactOne.1).2]
    rintro ⟨t, ht, hlive⟩
    rw [Prod.mk.eta, Function.update_self, Option.some.injEq] at ht
    rw [← ht] at hlive
    exact absurd hlive (by decide)

end AnnounceStorage

end BitTorrent.Dht
