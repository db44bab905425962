import Mathlib.Tactic

/-! Polling, and the two ends of a channel: a queue from which items are received in the order in which
they were sent. -/

namespace BitTorrent.Rust

/-- `Poll`. -/
inductive Poll (α : Type) where
  | ready (value : α)
  | pending
  deriving DecidableEq

variable {α : Type}

/-- What was sent and not received yet, and whether all senders are gone. -/
structure Receiver (α : Type) where
  queue : List α
  closed : Bool

namespace Receiver

def new : Receiver α := ⟨[], false⟩

def push (r : Receiver α) (item : α) : Receiver α := { r with queue := r.queue ++ [item] }

def pollNext (r : Receiver α) : Poll (Option α) × Receiver α :=
  match r.queue with
  | item :: queue => (.ready (some item), { r with queue })
  | [] => (if r.closed then .ready none else .pending, r)

end Receiver

/-- Why `start_send` refuses an item. -/
inductive SendError where
  | full
  | disconnected
  deriving DecidableEq

/-- The only sender of a channel parks with the item that goes over the buffer. -/
def startSend (buffer : Nat) (receiving : Bool) (queue : List α) (item : α) :
    Except SendError (List α) :=
  if receiving then
    if queue.length ≤ buffer then .ok (queue ++ [item]) else .error .full
  else .error .disconnected

end BitTorrent.Rust
