import BitTorrent.DhtNode
import BitTorrent.Convert

/-! Tokens of announces. A token is the hash of an address and a secret. The store keeps the current
secret and the one before, and replaces them when a call finds that one whole interval, or more, went
by since they were replaced last.

The hash function is a parameter, and so are the values `rand::random` returns. A call happens at one
point in time. -/

namespace BitTorrent.Dht

open Rust

inductive IpAddr where
  | v4 (addr : Ipv4Addr)
  | v6 (addr : Ipv6Addr)
  deriving DecidableEq

def IpAddr.fromSocketAddr : SocketAddr → IpAddr
  | .v4 ip _ => .v4 ip
  | .v6 ip _ _ _ => .v6 ip

def refreshIntervalMins : Int := 10

structure Token where
  token : Bytes
  size : token.length = shaHashLen

instance : DecidableEq Token := fun a b =>
  decidable_of_iff (a.token = b.token) (by cases a; cases b; exact Token.mk.injEq .. ▸ .rfl)

def Token.new (bytes : Bytes) : Except LengthError Token :=
  if h : bytes.length = shaHashLen then .ok ⟨bytes, h⟩
  else .error (.new .lengthExpected shaHashLen)

/-- The values `rand::random` returns, and how many of them were drawn. -/
structure Random where
  value : Nat → UInt32
  drawn : Nat

def Random.next (g : Random) : UInt32 × Random := (g.value g.drawn, ⟨g.value, g.drawn + 1⟩)

section

variable (hash : Bytes → ShaHash)

def generateTokenFromAddrV4 (v4Addr : Ipv4Addr) (secret : UInt32) : Token :=
  let buffer := ipv4ToBytesBe v4Addr ++ fourBytesToArray secret
  let hashBuffer := hash buffer
  ⟨hashBuffer.hash, hashBuffer.size⟩

def generateTokenFromAddrV6 (v6Addr : Ipv6Addr) (secret : UInt32) : Token :=
  let buffer := ipv6ToBytesBe v6Addr ++ fourBytesToArray secret
  let hashBuffer := hash buffer
  ⟨hashBuffer.hash, hashBuffer.size⟩

def generateTokenFromAddr (addr : IpAddr) (secret : UInt32) : Token :=
  match addr with
  | .v4 v4 => generateTokenFromAddrV4 hash v4 secret
  | .v6 v6 => generateTokenFromAddrV6 hash v6 secret

def validateTokenFromAddrV4 (v4Addr : Ipv4Addr) (token : Token) (secret : UInt32) : Bool :=
  generateTokenFromAddrV4 hash v4Addr secret = token

def validateTokenFromAddrV6 (v6Addr : Ipv6Addr) (token : Token) (secret : UInt32) : Bool :=
  generateTokenFromAddrV6 hash v6Addr secret = token

def validateTokenFromAddr (addr : IpAddr) (token : Token) (secretOne secretTwo : UInt32) : Bool :=
  match addr with
  | .v4 v4 => validateTokenFromAddrV4 hash v4 token secretOne ||
      validateTokenFromAddrV4 hash v4 token secretTwo
  | .v6 v6 => validateTokenFromAddrV6 hash v6 token secretOne ||
      validateTokenFromAddrV6 hash v6 token secretTwo

theorem validateTokenFromAddr_iff {addr : IpAddr} {token : Token} {one two : UInt32} :
    validateTokenFromAddr hash addr token one two = true ↔
      generateTokenFromAddr hash addr one = token ∨ generateTokenFromAddr hash addr two = token := by
  cases addr with
  | v4 v4 =>
    rw [validateTokenFromAddr, Bool.or_eq_true]
    exact or_congr decide_eq_true_iff decide_eq_true_iff
  | v6 v6 =>
    rw [validateTokenFromAddr, Bool.or_eq_true]
    exact or_congr decide_eq_true_iff decide_eq_true_iff

end

/-- `TimeDelta::num_minutes`, which rounds towards zero. -/
def numMinutes (d : Time) : Int := (d.tdiv 1000000000).tdiv 60

/-- The intervals between the last refresh and now. -/
def intervalsPassed (lastRefresh now : Time) : Int :=
  let refreshDuration := minutes refreshIntervalMins
  (numMinutes (now - lastRefresh)).tdiv (numMinutes refreshDuration)

structure TokenStore where
  currSecret : UInt32
  lastSecret : UInt32
  lastRefresh : Time

namespace TokenStore

def new (g : Random) (now : Time) : TokenStore × Random :=
  let (currSecret, g) := g.next
  let (lastSecret, g) := g.next
  (⟨currSecret, lastSecret, now⟩, g)

def refreshCheck (s : TokenStore) (g : Random) (now : Time) : TokenStore × Random :=
  match intervalsPassed s.lastRefresh now with
  | 0 => (s, g)
  | 1 =>
    let (currSecret, g) := g.next
    (⟨currSecret, s.currSecret, now⟩, g)
  | _ =>
    let (lastSecret, g) := g.next
    let (currSecret, g) := g.next
    (⟨currSecret, lastSecret, now⟩, g)

variable (hash : Bytes → ShaHash)

def checkout (s : TokenStore) (g : Random) (addr : IpAddr) (now : Time) :
    Token × TokenStore × Random :=
  let (s, g) := s.refreshCheck g now
  (generateTokenFromAddr hash addr s.currSecret, s, g)

def checkin (s : TokenStore) (g : Random) (addr : IpAddr) (token : Token) (now : Time) :
    Bool × TokenStore × Random :=
  let (s, g) := s.refreshCheck g now
  (validateTokenFromAddr hash addr token s.currSecret s.lastSecret, s, g)

end TokenStore

end BitTorrent.Dht
