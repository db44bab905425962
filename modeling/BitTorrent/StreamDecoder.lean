import Mathlib.Tactic

/-! Decoders of a stream that arrives in parts. A decoder looks at the symbols that have arrived and
waits for more, takes an item off their front, or stops. If it never looks behind what it takes, then
what it puts out does not depend on how the stream was split. -/

namespace BitTorrent.Stream

open List

/-- What a decoder finds at the front of the symbols. -/
inductive Found (σ ω : Type) where
  | wait
  | item (out : ω) (state : σ) (used : Nat)
  | stop (out : ω)

structure Decoder (σ β ω : Type) where
  find : σ → List β → Found σ ω
  stable : ∀ s l m, find s l ≠ .wait → find s (l ++ m) = find s l
  used : ∀ {s l out s' n}, find s l = .item out s' n → 0 < n ∧ n ≤ l.length

variable {σ β ω : Type}

namespace Decoder

variable (d : Decoder σ β ω)

/-- All that comes out of symbols that are there at once. -/
def decodeAll (s : σ) (l : List β) : List ω :=
  match _hfind : d.find s l with
  | .wait => []
  | .item out s' n => out :: decodeAll s' (l.drop n)
  | .stop out => [out]
termination_by l.length
decreasing_by
  have := d.used _hfind
  rw [length_drop]
  omega

variable {d} {s s' : σ} {l : List β} {out : ω} {n : Nat}

theorem decodeAll_of_wait (h : d.find s l = .wait) : d.decodeAll s l = [] := by
  rw [decodeAll]
  split <;> simp_all

theorem decodeAll_of_item (h : d.find s l = .item out s' n) :
    d.decodeAll s l = out :: d.decodeAll s' (l.drop n) := by
  rw [decodeAll]
  split <;> simp_all

theorem decodeAll_of_stop (h : d.find s l = .stop out) : d.decodeAll s l = [out] := by
  rw [decodeAll]
  split <;> simp_all

end Decoder

inductive Action (β : Type) where
  | append (chunk : List β)
  | poll

/-- A decoder with the symbols that arrived and were not taken, and what it put out. It is not asked
again once it stopped. -/
structure Reader (σ β ω : Type) where
  state : σ
  buffer : List β
  outputs : List ω
  stopped : Bool

namespace Reader

def new (state : σ) : Reader σ β ω := ⟨state, [], [], false⟩

variable (d : Decoder σ β ω)

def step (r : Reader σ β ω) : Action β → Reader σ β ω
  | .append chunk => { r with buffer := r.buffer ++ chunk }
  | .poll =>
    if r.stopped then r
    else
      match d.find r.state r.buffer with
      | .wait => r
      | .item out s n => ⟨s, r.buffer.drop n, r.outputs ++ [out], false⟩
      | .stop out => { r with outputs := r.outputs ++ [out], stopped := true }

def run (r : Reader σ β ω) (actions : List (Action β)) : Reader σ β ω := actions.foldl (step d) r

/-- The symbols that the actions append. -/
def appended : List (Action β) → List β
  | [] => []
  | .append chunk :: actions => chunk ++ appended actions
  | .poll :: actions => appended actions

/-- Nothing more comes out. -/
def Drained (r : Reader σ β ω) : Prop := r.stopped = true ∨ d.find r.state r.buffer = .wait

/-- What was put out, and what will be once the symbols in `rest` have arrived. -/
def total (r : Reader σ β ω) (rest : List β) : List ω :=
  r.outputs ++ if r.stopped then [] else d.decodeAll r.state (r.buffer ++ rest)

variable {d}

theorem total_step (r : Reader σ β ω) (action : Action β) (rest : List β) :
    (r.step d action).total d rest = r.total d (appended [action] ++ rest) := by
  cases action with
  | append chunk =>
    simp only [step, total, appended, append_nil, append_assoc]
  | poll =>
    simp only [step, appended, nil_append]
    split
    · rfl
    · rename_i hrunning
      cases hfind : d.find r.state r.buffer with
      | wait => rfl
      | item out s n =>
        have hle := (d.used hfind).2
        have hfind' : d.find r.state (r.buffer ++ rest) = .item out s n :=
          (d.stable _ _ rest (by rw [hfind]; exact nofun)).trans hfind
        change r.outputs ++ [out] ++ d.decodeAll s (r.buffer.drop n ++ rest) = _
        rw [total, if_neg hrunning, Decoder.decodeAll_of_item hfind',
          drop_append_of_le_length hle, append_assoc, singleton_append]
      | stop out =>
        have hfind' : d.find r.state (r.buffer ++ rest) = .stop out :=
          (d.stable _ _ rest (by rw [hfind]; exact nofun)).trans hfind
        change r.outputs ++ [out] ++ [] = _
        rw [total, if_neg hrunning, Decoder.decodeAll_of_stop hfind', append_nil]

theorem total_run (r : Reader σ β ω) (actions : List (Action β)) (rest : List β) :
    (r.run d actions).total d rest = r.total d (appended actions ++ rest) := by
  induction actions generalizing r with
  | nil => rfl
  | cons action actions ih =>
    have hstep := total_step (d := d) r action (appended actions ++ rest)
    rw [run, foldl_cons, ← run, ih, hstep]
    cases action with
    | append chunk => simp only [appended, append_nil, append_assoc]
    | poll => rfl

theorem Drained.total_nil {r : Reader σ β ω} (h : r.Drained d) : r.total d [] = r.outputs := by
  unfold total
  rcases h with hstopped | hwait
  · rw [if_pos hstopped, append_nil]
  · split
    · exact append_nil _
    · rw [append_nil, Decoder.decodeAll_of_wait hwait, append_nil]

theorem outputs_run_of_drained {s : σ} {actions : List (Action β)} (h : ((new s).run d actions).Drained d) :
    ((new s).run d actions).outputs = d.decodeAll s (appended actions) := by
  rw [← h.total_nil, total_run, append_nil]
  rfl

end Reader

end BitTorrent.Stream
