import BitTorrent.RustWord

/-! Parsers of the `nom` library on complete input. A parser takes a slice and returns the rest of it
with a value. It can also end with an error after which another alternative is tried, or with one
after which none is. The closures a parser is built from can panic, and so can the parser. -/

namespace BitTorrent.Rust

open List

namespace Buffer

variable (b : Buffer) (n : Nat)

def len : Nat := b.data.length

/-- The expression `&b[..n]` for an `n` in range. -/
def take : Buffer := ⟨b.data.take n, (List.length_take_le' n b.data).trans b.fits⟩

/-- The expression `&b[n..]` for an `n` in range. -/
def drop : Buffer := ⟨b.data.drop n, (by rw [List.length_drop]; omega : _ ≤ b.data.length).trans b.fits⟩

/-- The expression `&b[from..to]`. -/
def slice {ε : Type} (start stop : Nat) : Run ε Buffer :=
  if start ≤ stop ∧ stop ≤ b.len then .ok ((b.take stop).drop start) else .error .panic

/-- The expression `&b[from..]`. -/
def sliceFrom {ε : Type} (start : Nat) : Run ε Buffer :=
  if start ≤ b.len then .ok (b.drop start) else .error .panic

/-- `b.split_to(at)`: the bytes before `at`, and those from there on. -/
def splitTo {ε : Type} : Run ε (Buffer × Buffer) :=
  if n ≤ b.len then .ok (b.take n, b.drop n) else .error .panic

/-- The expression `vec![0u8; n]`. -/
def zeros {ε : Type} : Run ε Buffer :=
  if h : (List.replicate n (0 : UInt8)).length ≤ isizeMax then .ok ⟨_, h⟩ else .error .panic

/-- A vector of these bytes. -/
def alloc {ε : Type} (bytes : Bytes) : Run ε Buffer :=
  if h : bytes.length ≤ isizeMax then .ok ⟨bytes, h⟩ else .error .panic

variable {start : Nat} {data : Bytes}

theorem length_overwrite {bytes : Bytes} (h : start + data.length ≤ bytes.length) :
    (bytes.take start ++ data ++ bytes.drop (start + data.length)).length = bytes.length := by
  rw [length_append, length_append, length_take, length_drop]
  omega

/-- `write_all` to `&mut b[start..]`, with both results unwrapped. -/
def writeAllAt {ε : Type} (start : Nat) (data : Bytes) : Run ε Buffer :=
  if h : start + data.length ≤ b.data.length then
    .ok ⟨_, (length_overwrite h).trans_le b.fits⟩
  else .error .panic

@[simp] theorem data_drop : (b.drop n).data = b.data.drop n := rfl

theorem len_drop : (b.drop n).len = b.len - n := length_drop

variable {b n}

variable {ε : Type}

theorem sliceFrom_of_le (h : n ≤ b.len) : (b.sliceFrom n : Run ε Buffer) = .ok (b.drop n) :=
  if_pos h

theorem zeros_of_le (h : n ≤ isizeMax) :
    ∃ buffer, (Buffer.zeros n : Run ε Buffer) = .ok buffer ∧ buffer.data.length = n := by
  have hlen : (replicate n (0 : UInt8)).length ≤ isizeMax := by
    rwa [length_replicate]
  exact ⟨⟨_, hlen⟩, dif_pos hlen, length_replicate⟩

theorem zeros_of_lt (h : isizeMax < n) : (Buffer.zeros n : Run ε Buffer) = .error .panic :=
  dif_neg (by rw [length_replicate]; exact Nat.not_le_of_lt h)

variable {stop : Nat}

theorem slice_eq_ok {s : Buffer} : (b.slice start stop : Run ε Buffer) = .ok s ↔
      start ≤ stop ∧ stop ≤ b.len ∧ s = (b.take stop).drop start := by
  unfold slice
  split
  · rename_i h
    rw [Except.ok.injEq]
    exact ⟨fun heq => ⟨h.1, h.2, heq.symm⟩, fun heq => heq.2.2.symm⟩
  · rename_i h
    exact ⟨fun heq => (by cases heq), fun heq => absurd ⟨heq.1, heq.2.1⟩ h⟩

theorem returns_slice_iff : Returns (b.slice start stop : Run ε Buffer) ↔ start ≤ stop ∧ stop ≤ b.len := by
  unfold slice
  split
  · rename_i h
    exact ⟨fun _ => h, fun _ => .ok _⟩
  · rename_i h
    exact ⟨fun hreturns => absurd hreturns not_returns_panic, fun hle => absurd hle h⟩

theorem splitTo_eq_ok {r : Buffer × Buffer} :
    (b.splitTo n : Run ε _) = .ok r ↔ n ≤ b.len ∧ r = (b.take n, b.drop n) := by
  unfold splitTo
  split
  · rename_i h
    rw [Except.ok.injEq]
    exact ⟨fun heq => ⟨h, heq.symm⟩, fun heq => heq.2.symm⟩
  · rename_i h
    exact ⟨fun heq => (by cases heq), fun heq => absurd heq.1 h⟩

theorem writeAllAt_eq_ok {b' : Buffer} :
    (b.writeAllAt start data : Run ε Buffer) = .ok b' ↔ start + data.length ≤ b.data.length ∧
      b'.data = b.data.take start ++ data ++ b.data.drop (start + data.length) := by
  unfold writeAllAt
  split
  · rename_i h
    rw [Except.ok.injEq, Buffer.mk.injEq]
    exact ⟨fun heq => ⟨h, heq.symm⟩, fun heq => heq.2.symm⟩
  · rename_i h
    exact ⟨fun heq => (by cases heq), fun heq => absurd heq.1 h⟩

end Buffer

namespace Nom

inductive ErrorKind where
  | eof
  | switch
  | fail
  | mapRes
  deriving DecidableEq, Repr

inductive Err where
  | incomplete (needed : Nat)
  | error (input : Bytes) (code : ErrorKind)
  | failure (input : Bytes) (code : ErrorKind)
  deriving DecidableEq, Repr

/-- `map_input` with a function that forgets the input. -/
def Err.forgetInput : Err → Err
  | .incomplete needed => .incomplete needed
  | .error _ code => .error [] code
  | .failure _ code => .failure [] code

abbrev IResult (α : Type) := Run Err (Buffer × α)

abbrev Parser (α : Type) := Buffer → IResult α

variable {α β γ σ : Type}

def take (count : Nat) : Parser Buffer := fun input =>
  if count ≤ input.len then .ok (input.drop count, input.take count)
  else fail (.error input.data .eof)

/-- An unsigned number of `k` bytes, most significant byte first. -/
def beUint (k : Nat) : Parser Nat := fun input =>
  if k ≤ input.len then .ok (input.drop k, ofBytesBe (input.data.take k))
  else fail (.error input.data .eof)

def map (parser : Parser α) (f : α → Run Err β) (input : Buffer) : Run Err (Buffer × β) := do
  let (rest, a) ← parser input
  let b ← f a
  .ok (rest, b)

def beU8 : Parser UInt8 := map (beUint 1) fun n => .ok (UInt8.ofNat n)

def beU16 : Parser UInt16 := map (beUint 2) fun n => .ok (UInt16.ofNat n)

def beU32 : Parser UInt32 := map (beUint 4) fun n => .ok (UInt32.ofNat n)

/-- `map_res`: an error of the function is one of the parser, at its input. -/
def mapRes {δ : Type} (parser : Parser α) (f : α → Except δ β) (input : Buffer) : Run Err (Buffer × β) := do
  let (rest, a) ← parser input
  match f a with
  | .ok b => .ok (rest, b)
  | .error _ => fail (.error input.data .mapRes)

/-- `value`: what the parser returns is replaced, whatever it was. -/
def value (val : β) (parser : Parser α) : Parser β := map parser fun _ => .ok val

/-- Two parsers in a row, with both values. -/
def pair (first : Parser α) (second : Parser β) (input : Buffer) : Run Err (Buffer × α × β) := do
  let (rest, a) ← first input
  let (rest, b) ← second rest
  .ok (rest, a, b)

def preceded (first : Parser α) (second : Parser β) : Parser β :=
  map (pair first second) fun ab => .ok ab.2

def opt (parser : Parser α) : Parser (Option α) := fun input =>
  match parser input with
  | .ok (rest, a) => .ok (rest, some a)
  | .error (.error (.error _ _)) => .ok (input, none)
  | .error fault => .error fault

/-- `alt` where only the last alternative uses the state `σ`: the alternatives are tried in order,
each after an error of the one before. -/
def altMut (parsers : List (Parser α)) (last : Buffer → σ → IResult α × σ) (input : Buffer) (s : σ) :
    IResult α × σ :=
  match parsers with
  | [] => last input s
  | parser :: parsers =>
    match parser input with
    | .error (.error (.error _ _)) => altMut parsers last input s
    | r => (r, s)

def alt (parsers : List (Parser α)) (last : Parser α) : Parser α := fun input =>
  (altMut parsers (fun input s => (last input, s)) input ()).1

/-! ### Numbers -/

variable {k : Nat}

theorem beUint_of_le {input : Buffer} (h : k ≤ input.len) :
    beUint k input = .ok (input.drop k, ofBytesBe (input.data.take k)) := if_pos h

theorem beUint_of_lt {input : Buffer} (h : input.len < k) :
    beUint k input = fail (.error input.data .eof) := if_neg (Nat.not_le.mpr h)

theorem beU32_of_le {input : Buffer} (h : 4 ≤ input.len) :
    beU32 input = .ok (input.drop 4, UInt32.ofNat (ofBytesBe (input.data.take 4))) := by
  rw [beU32, map, beUint_of_le h]
  rfl

theorem beU32_of_lt {input : Buffer} (h : input.len < 4) : beU32 input = fail (.error input.data .eof) := by
  rw [beU32, map, beUint_of_lt h]
  rfl

theorem beU8_of_le {input : Buffer} (h : 1 ≤ input.len) :
    beU8 input = .ok (input.drop 1, UInt8.ofNat (ofBytesBe (input.data.take 1))) := by
  rw [beU8, map, beUint_of_le h]
  rfl

theorem beU8_of_lt {input : Buffer} (h : input.len < 1) : beU8 input = fail (.error input.data .eof) := by
  rw [beU8, map, beUint_of_lt h]
  rfl

theorem beU8_of_getElem? {input : Buffer} {b : UInt8} (h : input.data[0]? = some b) :
    beU8 input = .ok (input.drop 1, b) := by
  obtain ⟨rest, hcons⟩ : ∃ rest, input.data = b :: rest := by
    cases hdata : input.data with
    | nil =>
      rw [hdata] at h
      cases h
    | cons c rest =>
      rw [hdata] at h
      cases h
      exact ⟨rest, rfl⟩
  have hlen : 1 ≤ input.len := by
    rw [Buffer.len, hcons]
    exact Nat.le_add_left 1 _
  have hvalue : ofBytesBe (input.data.take 1) = b.toNat := by
    rw [hcons]
    exact Nat.zero_add _
  rw [beU8_of_le hlen, hvalue, UInt8.ofNat_toNat]

theorem opt_beU8 (input : Buffer) : ∃ r, opt beU8 input = .ok r := by
  rcases Nat.lt_or_ge input.len 1 with h | h
  · exact ⟨(input, none), by rw [opt, beU8_of_lt h]; rfl⟩
  · exact ⟨_, by rw [opt, beU8_of_le h]⟩

section

variable {first : Parser α} {second : Parser β} {input rest rest' : Buffer} {a : α} {b : β} {e : Err}

theorem pair_of_ok (hfirst : first input = .ok (rest, a)) (hsecond : second rest = .ok (rest', b)) :
    pair first second input = .ok (rest', a, b) := by
  simp only [pair, hfirst, hsecond, ok_bind]

theorem pair_of_fail (hfirst : first input = fail e) : pair first second input = fail e := by
  rw [pair, hfirst]
  rfl

theorem pair_of_ok_of_fail (hfirst : first input = .ok (rest, a)) (hsecond : second rest = fail e) :
    pair first second input = fail e := by
  simp only [pair, hfirst, hsecond, ok_bind]
  rfl

end

/-! ### Parsers that return -/

theorem returns_beUint (k : Nat) (input : Buffer) : Returns (beUint k input) := by
  unfold beUint
  split
  · exact .ok _
  · exact .fail _

theorem returns_take (count : Nat) (input : Buffer) : Returns (take count input) := by
  unfold take
  split
  · exact .ok _
  · exact .fail _

variable {parser : Parser α}

theorem returns_map {f : α → Run Err β} {input : Buffer}
    (hparser : Returns (parser input)) (hf : ∀ a, Returns (f a)) : Returns (map parser f input) :=
  hparser.bind fun r => (hf r.2).bind fun _ => .ok _

theorem returns_beU32 (input : Buffer) : Returns (beU32 input) :=
  returns_map (returns_beUint 4 input) fun _ => .ok _

theorem returns_pair {first : Parser α} {second : Parser β} {input : Buffer}
    (hfirst : Returns (first input)) (hsecond : ∀ rest, Returns (second rest)) :
    Returns (pair first second input) :=
  hfirst.bind fun r => (hsecond r.1).bind fun _ => .ok _

/-! ### Alternatives -/

variable {last : Buffer → σ → IResult α × σ} {parsers : List (Parser α)} {s : σ}

theorem altMut_of_ok {input : Buffer} {r : Buffer × α}
    (h : parser input = .ok r) : altMut (parser :: parsers) last input s = (.ok r, s) := by
  rw [altMut, h]

theorem altMut_of_error {input : Buffer} {at' : Bytes} {code : ErrorKind}
    (h : parser input = fail (.error at' code)) :
    altMut (parser :: parsers) last input s = altMut parsers last input s := by
  rw [altMut, h]
  rfl

theorem returns_altMut_iff {input : Buffer} (hlast : Returns (last input s).1) :
    Returns (altMut [parser] last input s).1 ↔ Returns (parser input) := by
  rcases hparser : parser input with (_ | _ | needed | ⟨rest, code⟩ | ⟨rest, code⟩) | r
  · simp only [altMut, hparser]
  · simp only [altMut, hparser]
  · simp only [altMut, hparser]
  · rw [altMut_of_error hparser]
    exact ⟨fun _ => .fail _, fun _ => hlast⟩
  · simp only [altMut, hparser]
  · simp only [altMut, hparser]

end Nom

end BitTorrent.Rust
