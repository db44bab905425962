import BitTorrent.Convert
import BitTorrent.IdBlocks

/-! Transaction ids. The first five bytes of a transaction id say which action it belongs to, the last
three which message of the action. Both parts come from shuffled blocks of numbers. Allocation markers
stay at or below the exclusive maximum, so they do not overflow. -/

namespace BitTorrent.Dht

open Rust IdBlocks

def actionIdBytes : Nat := 5

def messageIdBytes : Nat := 3

def transactionIdBytes : Nat := actionIdBytes + messageIdBytes

def actionIdShift : Nat := actionIdBytes * 8

def maxActionId : Nat := 2 ^ actionIdShift

def messageIdShift : Nat := messageIdBytes * 8

def maxMessageId : Nat := 2 ^ messageIdShift

def actionIdPreallocLen : Nat := 2048

def messageIdPreallocLen : Nat := 2048

instance : NeZero actionIdPreallocLen := ⟨by decide⟩

instance : NeZero messageIdPreallocLen := ⟨by decide⟩

structure ActionID where
  actionId : UInt64
  deriving DecidableEq

def ActionID.fromTransactionId (transId : UInt64) : ActionID :=
  ⟨transId >>> UInt64.ofNat messageIdShift⟩

structure TransactionID where
  transId : UInt64
  transIdBytes : Bytes
  bytes_eq : transIdBytes = eightBytesToArray transId
  deriving DecidableEq

namespace TransactionID

def new (transId : UInt64) : TransactionID := ⟨transId, eightBytesToArray transId, rfl⟩

def fromBytes (bytes : Bytes) : Option TransactionID :=
  if bytes.length ≠ transactionIdBytes then none
  else
    let transId := bytes.foldl (fun (transId : UInt64) byte => transId <<< 8 ||| byte.toUInt64) 0
    some (.new transId)

def actionId (tid : TransactionID) : ActionID := .fromTransactionId tid.transId

def asRef (tid : TransactionID) : Bytes := tid.transIdBytes

end TransactionID

/-! ### Generators -/

structure MIDGenerator where
  /-- Already shifted. -/
  shiftedActionId : UInt64
  messageIds : Blocks messageIdPreallocLen

def generateMids (nextAlloc : Nat) : Nat × Vector UInt64 messageIdPreallocLen :=
  allocate maxMessageId messageIdPreallocLen nextAlloc

namespace MIDGenerator

/-- The first block is generated with the first message. -/
def new (actionId : UInt64) : MIDGenerator :=
  ⟨actionId, 0, messageIdPreallocLen, Vector.replicate messageIdPreallocLen 0⟩

def actionId (g : MIDGenerator) : ActionID := .fromTransactionId g.shiftedActionId

/-- The shuffle is that of the new block, if the call needs one. -/
def generate (g : MIDGenerator) (shuffle : Shuffle messageIdPreallocLen) :
    TransactionID × MIDGenerator :=
  let (messageId, messageIds) := g.messageIds.draw generateMids shuffle
  (.new (g.shiftedActionId ||| messageId), ⟨g.shiftedActionId, messageIds⟩)

end MIDGenerator

structure AIDGenerator where
  actionIds : Blocks actionIdPreallocLen

def generateAids (nextAlloc : Nat) : Nat × Vector UInt64 actionIdPreallocLen :=
  allocate maxActionId actionIdPreallocLen nextAlloc

namespace AIDGenerator

def new (shuffle : Shuffle actionIdPreallocLen) : AIDGenerator :=
  let (nextAlloc, actionIds) := generateAids 0
  ⟨nextAlloc, 0, shuffle.fisherShuffle actionIds⟩

/-- The shuffle is that of the new block, if the call needs one. -/
def generate (g : AIDGenerator) (shuffle : Shuffle actionIdPreallocLen) :
    MIDGenerator × AIDGenerator :=
  let (actionId, actionIds) := g.actionIds.draw generateAids shuffle
  (.new (actionId <<< UInt64.ofNat messageIdShift), ⟨actionIds⟩)

end AIDGenerator

/-! ### Packing -/

variable {a m : UInt64}

theorem toNat_packed (ha : a.toNat < maxActionId) (hm : m.toNat < maxMessageId) :
    (a <<< UInt64.ofNat messageIdShift ||| m).toNat = a.toNat * maxMessageId + m.toNat := by
  rw [toNat_shiftLeft_or (k := messageIdShift) rfl (by decide) a m hm, Nat.mod_eq_of_lt]
  · rfl
  · simp only [maxActionId, actionIdShift, actionIdBytes, messageIdShift, messageIdBytes] at ha ⊢
    omega

theorem fromTransactionId_packed (ha : a.toNat < maxActionId) (hm : m.toNat < maxMessageId) :
    ActionID.fromTransactionId (a <<< UInt64.ofNat messageIdShift ||| m) = ⟨a⟩ := by
  rw [ActionID.fromTransactionId, ActionID.mk.injEq, ← UInt64.toNat_inj, UInt64.toNat_shiftRight,
    toNat_packed ha hm, show (UInt64.ofNat messageIdShift).toNat % 64 = messageIdShift by decide,
    Nat.shiftRight_eq_div_pow]
  simp only [maxMessageId, messageIdShift, messageIdBytes] at hm ⊢
  omega

theorem fromTransactionId_shifted (ha : a.toNat < maxActionId) :
    ActionID.fromTransactionId (a <<< UInt64.ofNat messageIdShift) = ⟨a⟩ := by
  have hpacked := fromTransactionId_packed (m := 0) ha (by decide)
  rwa [UInt64.or_zero] at hpacked

theorem packed_injective {a' m' : UInt64} (ha : a.toNat < maxActionId)
    (ha' : a'.toNat < maxActionId) (hm : m.toNat < maxMessageId) (hm' : m'.toNat < maxMessageId)
    (h : a <<< UInt64.ofNat messageIdShift ||| m = a' <<< UInt64.ofNat messageIdShift ||| m') :
    a = a' ∧ m = m' := by
  have hnat := congrArg UInt64.toNat h
  rw [toNat_packed ha hm, toNat_packed ha' hm'] at hnat
  rw [← UInt64.toNat_inj, ← UInt64.toNat_inj]
  simp only [maxMessageId, messageIdShift, messageIdBytes] at hm hm' hnat
  omega

namespace TransactionID

variable {tid : TransactionID}

theorem ext_transId {tid' : TransactionID} (h : tid.transId = tid'.transId) : tid = tid' := by
  obtain ⟨x, bytes, rfl⟩ := tid
  obtain ⟨x', bytes', rfl⟩ := tid'
  obtain rfl : x = x' := h
  rfl

theorem toNat_foldl (bytes : Bytes) (h : bytes.length ≤ transactionIdBytes) :
    (bytes.foldl (fun (transId : UInt64) byte => transId <<< 8 ||| byte.toUInt64) 0).toNat =
      ofBytesBe bytes := by
  induction bytes using List.reverseRecOn with
  | nil => rfl
  | append_singleton bytes b ih =>
    rw [List.length_append, List.length_singleton] at h
    have hbyte : b.toUInt64.toNat < 2 ^ 8 := by
      rw [UInt8.toNat_toUInt64]
      exact b.toNat_lt
    have hlt : ofBytesBe bytes < 256 ^ 7 :=
      (ofBytesBe_lt bytes).trans_le (Nat.pow_le_pow_right (by decide) (Nat.le_of_succ_le_succ h))
    rw [List.foldl_append, List.foldl_cons, List.foldl_nil, ofBytesBe_concat,
      toNat_shiftLeft_or (k := 8) rfl (by decide) _ _ hbyte, ih (by omega), UInt8.toNat_toUInt64,
      Nat.mod_eq_of_lt]
    · rfl
    · rw [show 2 ^ 64 = 256 ^ 7 * 2 ^ 8 by decide]
      exact Nat.mul_lt_mul_of_pos_right hlt (by decide)

theorem fromBytes_asRef (tid : TransactionID) : fromBytes tid.asRef = some tid := by
  have hbytes : tid.asRef = toBytesBe 8 tid.transId.toNat := by
    rw [asRef, tid.bytes_eq, eightBytesToArray_eq]
  have hlen : tid.asRef.length = transactionIdBytes := by
    rw [hbytes, length_toBytesBe]
    rfl
  rw [fromBytes, if_neg (not_not.mpr hlen), Option.some.injEq]
  apply ext_transId
  rw [← UInt64.toNat_inj, new, toNat_foldl _ hlen.le, hbytes]
  exact ofBytesBe_toBytesBe tid.transId.toNat_lt

theorem asRef_of_fromBytes {bytes : Bytes} (h : fromBytes bytes = some tid) : tid.asRef = bytes := by
  unfold fromBytes at h
  split at h
  · cases h
  · rename_i hlen
    have hlen : bytes.length = transactionIdBytes := not_not.mp hlen
    cases h
    change eightBytesToArray _ = bytes
    rw [eightBytesToArray_eq, toNat_foldl bytes hlen.le, show 8 = transactionIdBytes from rfl, ← hlen,
      toBytesBe_ofBytesBe]

end TransactionID

/-! ### Ids lead back to their generator -/

/-- A generator for the messages of an action. -/
structure MIDGenerator.Of (g : MIDGenerator) (actionId : ActionID) : Prop where
  action_lt : actionId.actionId.toNat < maxActionId
  shifted : g.shiftedActionId = actionId.actionId <<< UInt64.ofNat messageIdShift
  messages : g.messageIds.InRange maxMessageId

variable {actionId : ActionID} {g : MIDGenerator}

theorem MIDGenerator.Of.actionId_eq (h : g.Of actionId) : g.actionId = actionId := by
  rw [MIDGenerator.actionId, h.shifted, fromTransactionId_shifted h.action_lt]

theorem MIDGenerator.Of.generate (h : g.Of actionId) (shuffle : Shuffle messageIdPreallocLen) :
    (g.generate shuffle).1.actionId = actionId ∧ (g.generate shuffle).2.Of actionId := by
  obtain ⟨hlt, hmessages⟩ := h.messages.draw (by decide) (by decide) (by decide) shuffle
  refine ⟨?_, h.action_lt, h.shifted, hmessages⟩
  change ActionID.fromTransactionId (g.shiftedActionId ||| _) = actionId
  rw [h.shifted]
  exact fromTransactionId_packed h.action_lt hlt

def AIDGenerator.InRange (g : AIDGenerator) : Prop := g.actionIds.InRange maxActionId

theorem AIDGenerator.inRange_new (shuffle : Shuffle actionIdPreallocLen) : (new shuffle).InRange :=
  ((Blocks.handed_nil (Vector.replicate _ 0)).refill (by decide) (by decide)
    (List.drop_eq_nil_of_le (by simp)) (by decide) shuffle).inRange

theorem AIDGenerator.InRange.generate {g : AIDGenerator} (h : g.InRange)
    (shuffle : Shuffle actionIdPreallocLen) :
    (∃ actionId, (g.generate shuffle).1.Of actionId) ∧ (g.generate shuffle).2.InRange := by
  obtain ⟨hlt, hrest⟩ := Blocks.InRange.draw h (by decide) (by decide) (by decide) shuffle
  refine ⟨⟨⟨_⟩, hlt, rfl, ?_⟩, hrest⟩
  exact (Blocks.handed_nil (Vector.replicate _ 0)).inRange

end BitTorrent.Dht
