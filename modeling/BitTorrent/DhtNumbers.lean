import BitTorrent.DhtKrpc

/-! Numbers in requests and errors. The decoders take the absolute value of a 64-bit integer and cut it to
the width of the field, so that a port or an error code can come from an integer other than itself. What
is decoded is exact for the messages whose integer already fits the field. -/

namespace BitTorrent.Dht

open Rust Bencode OrderedMap Except

variable {root : List (Bytes × Inner)} {transId : Bytes}

variable {bytes : Bytes}

theorem fromHash_eq_ok {hash : ShaHash} : ShaHash.fromHash bytes = .ok hash ↔ bytes = hash.hash := by
  unfold ShaHash.fromHash
  split
  · rename_i hsize
    rw [ok.injEq]
    exact ⟨fun h => congrArg ShaHash.hash h, fun h => ShaHash.hash_injective h⟩
  · rename_i hsize
    constructor
    · intro h
      cases h
    · intro h
      exact absurd (h ▸ hash.size) hsize

namespace RequestValidate

theorem validateNodeId_eq_ok {id : NodeId} : validateNodeId transId bytes = .ok id ↔ bytes = id.hash := by
  rw [← fromHash_eq_ok, validateNodeId]
  cases ShaHash.fromHash bytes with
  | ok hash => exact ⟨fun h => congrArg _ (ok.inj h), fun h => congrArg _ (ok.inj h)⟩
  | error e => exact ⟨fun h => (by cases h), fun h => (by cases h)⟩

theorem validateInfoHash_eq_ok {hash : InfoHash} :
    validateInfoHash transId bytes = .ok hash ↔ bytes = hash.hash := by
  rw [← fromHash_eq_ok, validateInfoHash]
  cases ShaHash.fromHash bytes with
  | ok hash => exact ⟨fun h => congrArg _ (ok.inj h), fun h => congrArg _ (ok.inj h)⟩
  | error e => exact ⟨fun h => (by cases h), fun h => (by cases h)⟩

end RequestValidate

variable {n : Int64}

namespace AnnouncePeerRequest

/-- The other fields are there, and the flag does not tell to use the source port. -/
structure UsesPort (root : List (Bytes × Inner)) : Prop where
  nodeId : ∃ id : NodeId, lookup root nodeIdKey = some (.bytes id.hash)
  infoHash : ∃ hash : InfoHash, lookup root infoHashKey = some (.bytes hash.hash)
  token : ∃ token, lookup root tokenKey = some (.bytes token)
  notImplied : ∀ n, lookup root impliedPortKey = some (.int n) → n = 0

/-- What the last two keys say. -/
def connectPort (root : List (Bytes × Inner)) : Run DhtError ConnectPort :=
  match (lookup root impliedPortKey).map Inner.asInt with
  | some (some n) =>
    if n ≠ 0 then .ok .implied
    else lookupAndConvertInt .bencode root portKey >>= fun port => .ok (.explicit (UInt16.ofNat port.toInt.natAbs))
  | _ => lookupAndConvertInt .bencode root portKey >>= fun port => .ok (.explicit (UInt16.ofNat port.toInt.natAbs))

theorem fromParts_eq_bind : fromParts root transId =
    lookupAndConvertBytes .bencode root nodeIdKey >>= fun nodeIdBytes =>
      RequestValidate.validateNodeId transId nodeIdBytes >>= fun nodeId =>
      lookupAndConvertBytes .bencode root infoHashKey >>= fun infoHashBytes =>
      RequestValidate.validateInfoHash transId infoHashBytes >>= fun infoHash =>
      lookupAndConvertBytes .bencode root tokenKey >>= fun token =>
      connectPort root >>= fun port => .ok ⟨transId, nodeId, infoHash, token, port⟩ := by
  rw [fromParts, connectPort]
  rcases (lookup root impliedPortKey).map Inner.asInt with _ | _ | n
  · rfl
  · rfl
  · by_cases hn : n ≠ 0
    · simp only [if_pos hn]
      rfl
    · simp only [if_neg hn]
      rfl

theorem fromParts_eq_ok {m : AnnouncePeerRequest} : fromParts root transId = .ok m ↔
      m.transId = transId ∧ lookup root nodeIdKey = some (.bytes m.nodeId.hash) ∧
        lookup root infoHashKey = some (.bytes m.infoHash.hash) ∧
        lookup root tokenKey = some (.bytes m.token) ∧ connectPort root = .ok m.port := by
  simp only [fromParts_eq_bind, bind_eq_ok, lookupAndConvertBytes_eq_ok, RequestValidate.validateNodeId_eq_ok,
    RequestValidate.validateInfoHash_eq_ok, ok.injEq]
  constructor
  · rintro ⟨-, hid, id, rfl, -, hhash, hash, rfl, token, htoken, port, hconnect, rfl⟩
    exact ⟨rfl, hid, hhash, htoken, hconnect⟩
  · rintro ⟨rfl, hid, hhash, htoken, hconnect⟩
    exact ⟨_, hid, _, rfl, _, hhash, _, rfl, _, htoken, _, hconnect, rfl⟩

variable {p : UInt16}

theorem connectPort_eq_explicit : connectPort root = .ok (.explicit p) ↔
      (∀ n, lookup root impliedPortKey = some (.int n) → n = 0) ∧
        ∃ n, lookup root portKey = some (.int n) ∧ UInt16.ofNat n.toInt.natAbs = p := by
  have hexplicit : (lookupAndConvertInt DhtError.bencode root portKey >>= fun port =>
      (.ok (.explicit (UInt16.ofNat port.toInt.natAbs)) : Run DhtError ConnectPort)) = .ok (.explicit p) ↔
        ∃ n, lookup root portKey = some (.int n) ∧ UInt16.ofNat n.toInt.natAbs = p := by
    simp only [bind_eq_ok, lookupAndConvertInt_eq_ok, ok.injEq, ConnectPort.explicit.injEq]
  unfold connectPort
  cases himplied : lookup root impliedPortKey with
  | none => exact hexplicit.trans ⟨fun h => ⟨fun n hn => (by cases hn), h⟩, fun h => h.2⟩
  | some value =>
    simp only [Option.map_some, Option.some.injEq]
    cases hvalue : value.asInt with
    | none =>
      have hint : ∀ n, value = .int n → n = 0 := by
        rintro n rfl
        cases hvalue
      exact hexplicit.trans ⟨fun h => ⟨hint, h⟩, fun h => h.2⟩
    | some n =>
      rw [Inner.asInt_eq_some] at hvalue
      subst hvalue
      simp only [Inner.int.injEq, forall_eq']
      split
      · rename_i hn
        exact ⟨fun h => (by cases h), fun h => absurd h.1 hn⟩
      · rename_i hn
        exact hexplicit.trans ⟨fun h => ⟨not_not.mp hn, h⟩, fun h => h.2⟩

theorem exists_explicit_iff : (∃ m, fromParts root transId = .ok m ∧ m.port = .explicit p) ↔
      UsesPort root ∧ ∃ n, lookup root portKey = some (.int n) ∧ UInt16.ofNat n.toInt.natAbs = p := by
  simp only [fromParts_eq_ok]
  constructor
  · rintro ⟨m, ⟨-, hid, hhash, htoken, hconnect⟩, hport⟩
    rw [hport, connectPort_eq_explicit] at hconnect
    exact ⟨⟨⟨_, hid⟩, ⟨_, hhash⟩, ⟨_, htoken⟩, hconnect.1⟩, hconnect.2⟩
  · rintro ⟨⟨⟨id, hid⟩, ⟨hash, hhash⟩, ⟨token, htoken⟩, hnot⟩, hexplicit⟩
    exact ⟨⟨transId, id, hash, token, .explicit p⟩,
      ⟨rfl, hid, hhash, htoken, connectPort_eq_explicit.mpr ⟨hnot, hexplicit⟩⟩, rfl⟩

theorem toInt_eq_port_iff :
    n.toInt = (UInt16.ofNat n.toInt.natAbs).toNat ↔ 0 ≤ n.toInt ∧ n.toInt ≤ 65535 := by
  rw [UInt16.toNat_ofNat']
  omega

/-- What is read as an explicit port is the port in the message. -/
def PortKept (root : List (Bytes × Inner)) (transId : Bytes) : Prop :=
  (∀ m p, fromParts root transId = .ok m → m.port = .explicit p →
    ∃ n, lookup root portKey = some (.int n) ∧ n.toInt = p.toNat) ∧
  ∀ n, lookup root portKey = some (.int n) → ¬ (0 ≤ n.toInt ∧ n.toInt ≤ 65535) →
    ¬ ∃ m p, fromParts root transId = .ok m ∧ m.port = .explicit p

theorem portKept_iff : PortKept root transId ↔
    (UsesPort root → ∀ n, lookup root portKey = some (.int n) → 0 ≤ n.toInt ∧ n.toInt ≤ 65535) := by
  constructor
  · rintro ⟨-, hrejected⟩ huses n hn
    by_contra hrange
    obtain ⟨m, hm⟩ := exists_explicit_iff.mpr ⟨huses, n, hn, rfl⟩
    exact hrejected n hn hrange ⟨m, _, hm⟩
  · intro hrange
    constructor
    · intro m p hm hport
      obtain ⟨huses, n, hn, rfl⟩ := exists_explicit_iff.mp ⟨m, hm, hport⟩
      exact ⟨n, hn, toInt_eq_port_iff.mpr (hrange huses n hn)⟩
    · rintro n hn hout ⟨m, p, hm⟩
      exact hout (hrange (exists_explicit_iff.mp ⟨m, hm⟩).1 n hn)

end AnnouncePeerRequest

namespace ErrorMessage

variable {b : UInt8}

theorem errorCode_new_eq_ok {code : ErrorCode} : ErrorCode.new b = .ok code ↔ b = code.toByte := by
  constructor
  · intro h
    unfold ErrorCode.new at h
    split_ifs at h with hgeneric hserver hprotocol hmethod
    · cases h
      exact hgeneric
    · cases h
      exact hserver
    · cases h
      exact hprotocol
    · cases h
      exact hmethod
    · cases h
  · rintro rfl
    cases code <;> rfl

theorem extractErrorArgs_eq_ok {args : List Inner} {code : UInt8} {message : Str} :
    extractErrorArgs args = .ok (code, message) ↔
      ∃ n, args = [.int n, .bytes message.bytes] ∧ UInt8.ofNat n.toInt.natAbs = code := by
  unfold extractErrorArgs
  split
  · rename_i hlength
    constructor
    · intro h
      cases h
    · rintro ⟨n, rfl, -⟩
      exact absurd rfl hlength
  · rename_i hlength
    obtain ⟨first, second, rfl⟩ := List.length_eq_two.mp (not_not.mp hlength)
    simp only [index, List.getElem?_cons_zero, List.getElem?_cons_succ, ok_bind, bind_eq_ok, convertInt_eq_ok,
      convertStr_eq_ok,
      pure_eq_ok, ok.injEq, Prod.mk.injEq, List.cons.injEq, and_true]
    constructor
    · rintro ⟨n, rfl, message', rfl, hcode, rfl⟩
      exact ⟨n, ⟨rfl, rfl⟩, hcode⟩
    · rintro ⟨n, ⟨rfl, rfl⟩, hcode⟩
      exact ⟨n, rfl, message, rfl, hcode, rfl⟩

theorem fromParts_eq_ok {m : ErrorMessage} : fromParts root transId = .ok m ↔ m.transId = transId ∧
      ∃ n, lookup root errorArgsKey = some (.list [.int n, .bytes m.message.bytes]) ∧
        UInt8.ofNat n.toInt.natAbs = m.code.toByte := by
  have hbind : fromParts root transId = .ok m ↔ ∃ args, lookupAndConvertList DhtError.bencode root errorArgsKey = .ok args ∧
      ∃ arg, extractErrorArgs args = .ok arg ∧ ∃ code, ErrorCode.new arg.1 = .ok code ∧
        (⟨transId, code, arg.2⟩ : ErrorMessage) = m := by
    simp only [fromParts, bind_eq_ok, pure_eq_ok, ok.injEq]
  simp only [hbind, lookupAndConvertList_eq_ok, Prod.exists, extractErrorArgs_eq_ok, errorCode_new_eq_ok]
  constructor
  · rintro ⟨args, hargs, b, message, ⟨n, rfl, rfl⟩, code, hcode, rfl⟩
    exact ⟨rfl, n, hargs, hcode⟩
  · rintro ⟨rfl, n, hargs, hcode⟩
    exact ⟨_, hargs, _, _, ⟨n, rfl, rfl⟩, m.code, hcode, rfl⟩

/-- The code that is read is the integer in the message. -/
def CodeKept (root : List (Bytes × Inner)) (transId : Bytes) : Prop :=
  (∀ m, fromParts root transId = .ok m → ∃ n b,
    lookup root errorArgsKey = some (.list [.int n, b]) ∧ n.toInt = m.code.toByte.toNat) ∧
  ∀ n b, lookup root errorArgsKey = some (.list [.int n, b]) →
    (¬ ∃ code : ErrorCode, n.toInt = code.toByte.toNat) → ¬ ∃ m, fromParts root transId = .ok m

theorem ofNat_natAbs_eq_iff : UInt8.ofNat n.toInt.natAbs = b ↔ n.toInt.natAbs % 256 = b.toNat := by
  rw [← UInt8.toNat_inj, UInt8.toNat_ofNat']

theorem codeKept_iff : CodeKept root transId ↔ ∀ n (message : Str) (code : ErrorCode),
    lookup root errorArgsKey = some (.list [.int n, .bytes message.bytes]) →
      n.toInt.natAbs % 256 = code.toByte.toNat → n.toInt = code.toByte.toNat := by
  constructor
  · rintro ⟨hkept, -⟩ n message code hargs hcode
    obtain ⟨n', b, hargs', hn⟩ := hkept ⟨transId, code, message⟩
      (fromParts_eq_ok.mpr ⟨rfl, n, hargs, ofNat_natAbs_eq_iff.mpr hcode⟩)
    rw [hargs] at hargs'
    cases hargs'
    exact hn
  · intro hexact
    have hkept : ∀ m, fromParts root transId = .ok m → ∃ n b,
        lookup root errorArgsKey = some (.list [.int n, b]) ∧ n.toInt = m.code.toByte.toNat := by
      intro m hm
      obtain ⟨-, n, hargs, hcode⟩ := fromParts_eq_ok.mp hm
      exact ⟨n, _, hargs, hexact n m.message m.code hargs (ofNat_natAbs_eq_iff.mp hcode)⟩
    refine ⟨hkept, ?_⟩
    rintro n b hargs hother ⟨m, hm⟩
    obtain ⟨n', b', hargs', hn⟩ := hkept m hm
    rw [hargs] at hargs'
    cases hargs'
    exact hother ⟨m.code, hn⟩

end ErrorMessage

/-- A request with a given port and nothing else to object to. -/
def announceWithPort (n : Int64) : List (Bytes × Inner) :=
  [(nodeIdKey, .bytes (List.replicate 20 0)), (infoHashKey, .bytes (List.replicate 20 1)), (portKey, .int n),
    (tokenKey, .bytes [])]

/-- Decoding keeps the numbers of a message if and only if a port that is used is one, and an integer that is
read as a code is that code. -/
theorem numbers_kept_iff (root : List (Bytes × Inner)) (transId : Bytes) :
    (AnnouncePeerRequest.PortKept root transId ↔ (AnnouncePeerRequest.UsesPort root →
      ∀ n, lookup root portKey = some (.int n) → 0 ≤ n.toInt ∧ n.toInt ≤ 65535)) ∧
    (ErrorMessage.CodeKept root transId ↔ ∀ n (message : Str) (code : ErrorCode),
      lookup root errorArgsKey = some (.list [.int n, .bytes message.bytes]) →
        n.toInt.natAbs % 256 = code.toByte.toNat → n.toInt = code.toByte.toNat) :=
  ⟨AnnouncePeerRequest.portKept_iff, ErrorMessage.codeKept_iff⟩

/-- A port and a code that are read as they are. -/
theorem numbers_kept_small :
    AnnouncePeerRequest.PortKept (announceWithPort 6881) [] ∧
      ErrorMessage.CodeKept [(errorArgsKey, .list [.int 203, .bytes []])] [] := by
  constructor
  · refine (numbers_kept_iff _ _).1.mpr fun _ n hn => ?_
    cases hn
    decide
  · refine (numbers_kept_iff _ _).2.mpr fun n message code hargs hcode => ?_
    have hlookup : lookup [(errorArgsKey, Inner.list [.int 203, .bytes []])] errorArgsKey =
        some (.list [.int 203, .bytes []]) := rfl
    rw [hlookup, Option.some.injEq, Inner.list.injEq, List.cons.injEq, Inner.int.injEq] at hargs
    obtain ⟨rfl, -⟩ := hargs
    exact congrArg Int.ofNat hcode

/-- The ports `-1` and `65537` are both taken for the port 1, and the code `-201` is taken for 201. -/
theorem numbers_altered :
    (∀ n : Int64, n = -1 ∨ n = 65537 →
      AnnouncePeerRequest.fromParts (announceWithPort n) [] =
        .ok ⟨[], ⟨List.replicate 20 0, rfl⟩, ⟨List.replicate 20 1, rfl⟩, [], .explicit 1⟩ ∧
      ¬ AnnouncePeerRequest.PortKept (announceWithPort n) []) ∧
    ErrorMessage.fromParts [(errorArgsKey, .list [.int (-201), .bytes []])] [] =
      .ok ⟨[], .genericError, .ofAscii ""⟩ ∧
    ¬ ErrorMessage.CodeKept [(errorArgsKey, .list [.int (-201), .bytes []])] [] := by
  have hport : ∀ n : Int64, n = -1 ∨ n = 65537 → AnnouncePeerRequest.fromParts (announceWithPort n) [] =
      .ok ⟨[], ⟨List.replicate 20 0, rfl⟩, ⟨List.replicate 20 1, rfl⟩, [], .explicit 1⟩ := by
    rintro n (rfl | rfl)
    · decide +kernel
    · decide +kernel
  have hcode : ErrorMessage.fromParts [(errorArgsKey, .list [.int (-201), .bytes []])] [] =
      .ok ⟨[], .genericError, .ofAscii ""⟩ := by decide +kernel
  refine ⟨fun n hn => ⟨hport n hn, fun hkept => ?_⟩, hcode, fun hkept => ?_⟩
  · obtain ⟨n', hn', hone⟩ := hkept.1 _ 1 (hport n hn) rfl
    have hlookup : lookup (announceWithPort n) portKey = some (.int n) := rfl
    rw [hlookup] at hn'
    cases hn'
    rcases hn with rfl | rfl
    · exact absurd hone (by decide)
    · exact absurd hone (by decide)
  · obtain ⟨n, b, hargs, hn⟩ := hkept.1 _ hcode
    cases hargs
    exact absurd hn (by decide)

end BitTorrent.Dht
