import BitTorrent.RustRun

/-! Code that works on a state. A call ends as a `Run` does and leaves a state behind, also when it
ends early: what was done before an error or a panic stays done. -/

namespace BitTorrent.Rust

structure Io (σ ε α : Type) where
  run : σ → Run ε α × σ

namespace Io

variable {σ τ ε ε' α β : Type}

instance : Monad (Io σ ε) where
  pure a := ⟨fun s => (.ok a, s)⟩
  bind x f := ⟨fun s =>
    match x.run s with
    | (.ok a, s') => (f a).run s'
    | (.error e, s') => (.error e, s')⟩

@[simp] theorem run_pure (a : α) (s : σ) : (pure a : Io σ ε α).run s = (.ok a, s) := rfl

variable {x : Io σ ε α} {s' : σ} {a : α}

theorem run_bind_of_ok {f : α → Io σ ε β} {s : σ}
    (h : x.run s = (.ok a, s')) : (x >>= f).run s = (f a).run s' := by
  change (match x.run s with
    | (.ok a, s') => (f a).run s'
    | (.error e, s') => (.error e, s')) = _
  rw [h]

theorem run_bind_of_error {f : α → Io σ ε β} {s : σ} {e : Fault ε}
    (h : x.run s = (.error e, s')) : (x >>= f).run s = (.error e, s') := by
  change (match x.run s with
    | (.ok a, s') => (f a).run s'
    | (.error e, s') => (.error e, s')) = _
  rw [h]

theorem run_bind_eq_ok {f : α → Io σ ε β} {s s'' : σ} {b : β} (h : (x >>= f).run s = (.ok b, s'')) :
    ∃ a s', x.run s = (.ok a, s') ∧ (f a).run s' = (.ok b, s'') := by
  rcases hx : x.run s with ⟨e | a, s'⟩
  · rw [run_bind_of_error hx] at h
    cases h
  · rw [run_bind_of_ok hx] at h
    exact ⟨a, s', rfl, h⟩

/-- A call that does not look at the state. -/
def ofRun (r : Run ε α) : Io σ ε α := ⟨fun s => (r, s)⟩

@[simp] theorem run_ofRun (r : Run ε α) (s : σ) : (ofRun r : Io σ ε α).run s = (r, s) := rfl

@[simp] theorem ofRun_ok_bind (a : α) (f : α → Io σ ε β) : (ofRun (.ok a) >>= f) = f a := rfl

/-- The state as a value. -/
def get : Io σ ε σ := ⟨fun s => (.ok s, s)⟩

def modify (f : σ → σ) : Io σ ε Unit := ⟨fun s => (.ok (), f s)⟩

@[simp] theorem run_get_bind (f : σ → Io σ ε β) (s : σ) : (get >>= f).run s = (f s).run s := rfl

@[simp] theorem run_modify (g : σ → σ) (s : σ) : (modify g : Io σ ε Unit).run s = (.ok (), g s) := rfl

@[simp] theorem run_modify_bind (g : σ → σ) (f : Unit → Io σ ε β) (s : σ) :
    (modify g >>= f).run s = (f ()).run (g s) := rfl

/-- The `Result` that a call returns, as a value for its caller to look at. -/
def result (x : Io σ ε α) : Io σ ε' (Except ε α) :=
  ⟨fun s => (Rust.result (x.run s).1, (x.run s).2)⟩

/-- `Result::map_err`. -/
def mapErr (f : ε → ε') (x : Io σ ε α) : Io σ ε' α :=
  ⟨fun s => (Rust.mapErr f (x.run s).1, (x.run s).2)⟩

/-- `expect` of a `Result`. -/
def expect (x : Io σ ε α) : Io σ ε' α := ⟨fun s => (Rust.expect (x.run s).1, (x.run s).2)⟩

/-- A call that has a variable of its own next to the state. Its result comes with the last value of the
variable. -/
def withLocal (b : β) (x : Io (β × σ) ε α) : Io σ ε' (Except ε α × β) :=
  ⟨fun s => (Rust.result (x.run (b, s)).1 >>= fun r => .ok (r, (x.run (b, s)).2.1),
    (x.run (b, s)).2.2)⟩

theorem run_mapErr_of_ok {f : ε → ε'} {s : σ}
    (h : x.run s = (.ok a, s')) : (mapErr f x).run s = (.ok a, s') := by
  simp only [mapErr, h]
  rfl

theorem run_result_of_ok {s : σ} (h : x.run s = (.ok a, s')) :
    (result x : Io σ ε' (Except ε α)).run s = (.ok (.ok a), s') := by
  simp only [result, h]
  rfl

/-- A call on a part of the state. -/
def zoom (part : τ → σ) (put : σ → τ → τ) (x : Io σ ε α) : Io τ ε α :=
  ⟨fun t => ((x.run (part t)).1, put (x.run (part t)).2 t)⟩

theorem run_zoom_of_eq {part : τ → σ} {put : σ → τ → τ} {t : τ} {r : Run ε α} {s : σ}
    (h : x.run (part t) = (r, s)) : (zoom part put x).run t = (r, put s t) := by
  simp only [zoom, h]

end Io

end BitTorrent.Rust
