import BitTorrent.PeerManager

/-! The stream that yields a timeout when nothing was received for some time, on which the keep-alive
messages of an idle connection depend. It looks at the clock when it is polled and registers no timer: the
only wake-up it leaves behind is that of the inner stream. A task that was told to wait before the deadline
is never polled again if the inner stream stays silent. -/

namespace BitTorrent.Peer

open Rust

/-- In nanoseconds. -/
abbrev Instant := Nat

inductive RecurringTimeoutError (E : Type) where
  | disconnect
  | timeout
  | streamError (err : E)
  deriving DecidableEq

/-- What a poll can leave behind to have its task polled again. -/
inductive WakeUp where
  | inner
  | timer (deadline : Instant)
  deriving DecidableEq

structure RecurringTimeoutStream where
  timeout : Nat
  deadline : Instant
  deriving DecidableEq

namespace RecurringTimeoutStream

variable {T E : Type}

def new (timeout : Nat) (now : Instant) : RecurringTimeoutStream := ⟨timeout, now + timeout⟩

/-- Polling with what the inner stream returns, which registers its own wake-up if it has nothing, and with
the reading of the clock. -/
def pollNext (s : RecurringTimeoutStream) (inner : Poll (Option (Except E T))) (now : Instant) :
    Poll (Option (Except (RecurringTimeoutError E) T)) × List WakeUp × RecurringTimeoutStream :=
  match inner with
  | .pending =>
    if now > s.deadline then
      (.ready (some (.error .timeout)), [.inner], { s with deadline := now + s.timeout })
    else (.pending, [.inner], s)
  | .ready none => (.ready (some (.error .disconnect)), [], s)
  | .ready (some (.ok message)) =>
    (.ready (some (.ok message)), [], { s with deadline := now + s.timeout })
  | .ready (some (.error err)) => (.ready (some (.error (.streamError err))), [], s)

end RecurringTimeoutStream

/-- A stream under an executor: the clock, the wake-ups that were registered, and whether the task is to be
polled. -/
structure Execution where
  stream : RecurringTimeoutStream
  clock : Instant
  registered : List WakeUp
  runnable : Bool
  deriving DecidableEq

/-- Time passes, a wake-up fires, or the task is polled while the inner stream returns this. -/
inductive ExecutorEvent (T E : Type) where
  | elapse (duration : Nat)
  | fire (wakeUp : WakeUp)
  | poll (inner : Poll (Option (Except E T)))

namespace Execution

variable {T E : Type}

/-- The task is polled at once when it is spawned. -/
def start (timeout : Nat) (now : Instant) : Execution := ⟨.new timeout now, now, [], true⟩

/-- The wake-up may fire: it is registered, and a timer has run out. -/
def CanFire (e : Execution) : WakeUp → Prop
  | .inner => .inner ∈ e.registered
  | .timer deadline => .timer deadline ∈ e.registered ∧ deadline ≤ e.clock

instance (e : Execution) (wakeUp : WakeUp) : Decidable (e.CanFire wakeUp) := by
  cases wakeUp <;> unfold CanFire <;> infer_instance

/-- A task is polled again after an item, and after `Pending` only when a wake-up fired. -/
def step (e : Execution) : ExecutorEvent T E → Option Execution
  | .elapse duration => some { e with clock := e.clock + duration }
  | .fire wakeUp => if e.CanFire wakeUp then some { e with runnable := true } else none
  | .poll inner =>
    if e.runnable then
      match e.stream.pollNext inner e.clock with
      | (.ready _, registered, stream) => some { e with stream, registered := e.registered ++ registered }
      | (.pending, registered, stream) =>
        some { e with stream, registered := e.registered ++ registered, runnable := false }
    else none

def run (e : Execution) (events : List (ExecutorEvent T E)) : Option Execution := events.foldlM step e

/-- The deadline has passed, and as long as the inner stream is silent nothing leads to the poll that would
yield the timeout. -/
def Stalled (e : Execution) : Prop :=
  e.stream.deadline < e.clock ∧ e.runnable = false ∧ ∀ deadline, ¬ e.CanFire (.timer deadline)

/-- At every moment of the run, and however long the inner stream is silent from then on, a timeout that is
due has been yielded or is about to be. -/
def OnTime (timeout : Nat) (now : Instant) (events : List (ExecutorEvent T E)) : Prop :=
  ∀ before e, before <+: events → (start timeout now).run before = some e →
    ∀ duration, ¬ { e with clock := e.clock + duration }.Stalled

/-- No poll returns `Pending` with the deadline ahead without a timer for the deadline. -/
def Covered (timeout : Nat) (now : Instant) (events : List (ExecutorEvent T E)) : Prop :=
  ∀ before inner e e', before ++ [.poll inner] <+: events → (start timeout now).run before = some e →
    e.step (.poll inner) = some e' → e'.runnable = false → e.clock ≤ e.stream.deadline →
    .timer e'.stream.deadline ∈ e'.registered

/-- Every poll of the run that finds the inner stream silent is made after the deadline that stands then. -/
def AllLate (timeout : Nat) (now : Instant) (events : List (ExecutorEvent T E)) : Prop :=
  ∀ before e, before ++ [.poll .pending] <+: events → (start timeout now).run before = some e →
    e.stream.deadline < e.clock

variable {e e' : Execution} {event : ExecutorEvent T E} {events : List (ExecutorEvent T E)} {timeout : Nat}
  {now : Instant}

/-- No timer was ever registered. -/
def Timerless (e : Execution) : Prop := ∀ deadline, .timer deadline ∉ e.registered

theorem timerless_start : (start timeout now).Timerless := nofun

theorem registered_pollNext (s : RecurringTimeoutStream) (inner : Poll (Option (Except E T))) (deadline : Instant) :
    .timer deadline ∉ (s.pollNext inner now).2.1 := by
  unfold RecurringTimeoutStream.pollNext
  split
  · split <;> simp
  all_goals simp

theorem Timerless.step (h : e.Timerless) (hstep : e.step event = some e') : e'.Timerless := by
  cases event with
  | elapse duration =>
    cases hstep
    exact h
  | fire wakeUp =>
    rw [Execution.step] at hstep
    split at hstep
    · cases hstep
      exact h
    · cases hstep
  | poll inner =>
    intro deadline hmem
    have hnone : .timer deadline ∉ (e.stream.pollNext inner e.clock).2.1 := registered_pollNext _ _ _
    rw [Execution.step] at hstep
    split at hstep
    · split at hstep
      · rename_i heq
        rw [heq] at hnone
        cases hstep
        rcases List.mem_append.mp hmem with hmem | hmem
        · exact h deadline hmem
        · exact hnone hmem
      · rename_i heq
        rw [heq] at hnone
        cases hstep
        rcases List.mem_append.mp hmem with hmem | hmem
        · exact h deadline hmem
        · exact hnone hmem
    · cases hstep

theorem Timerless.run (h : e.Timerless) (hrun : e.run events = some e') : e'.Timerless := by
  induction events generalizing e with
  | nil =>
    cases hrun
    exact h
  | cons event events ih =>
    obtain ⟨e₁, hstep, hrest⟩ := Option.bind_eq_some_iff.mp hrun
    exact ih (h.step hstep) hrest

/-- A poll in silence: the timeout if the deadline has passed, and otherwise the task goes to sleep. -/
theorem step_poll_pending (hrunnable : e.runnable = true) :
    e.step (.poll (.pending : Poll (Option (Except E T)))) = if e.stream.deadline < e.clock then
        some ⟨⟨e.stream.timeout, e.clock + e.stream.timeout⟩, e.clock, e.registered ++ [.inner], e.runnable⟩
      else some ⟨e.stream, e.clock, e.registered ++ [.inner], false⟩ := by
  rw [Execution.step, if_pos hrunnable, RecurringTimeoutStream.pollNext]
  by_cases hlate : e.stream.deadline < e.clock
  · simp only [gt_iff_lt, if_pos hlate]
  · simp only [gt_iff_lt, if_neg hlate]

theorem runnable_step_poll_ready {item : Option (Except E T)} (hstep : e.step (.poll (.ready item)) = some e') :
    e'.runnable = true := by
  rw [Execution.step] at hstep
  split at hstep
  · rename_i hrunnable
    rcases item with _ | _ | _
    all_goals
      cases hstep
      exact hrunnable
  · cases hstep

variable {before : List (ExecutorEvent T E)}

theorem runnable_of_allLate (hlate : AllLate timeout now events)
    (hbefore : before <+: events) (hrun : (start timeout now).run before = some e) : e.runnable = true := by
  induction before using List.reverseRecOn generalizing e with
  | nil =>
    cases hrun
    rfl
  | append_singleton before event ih =>
    obtain ⟨e₁, hfirst, hlast⟩ := Option.bind_eq_some_iff.mp (by rwa [run, List.foldlM_append] at hrun)
    have hbefore' : before <+: events := (List.prefix_append before [event]).trans hbefore
    have hrunnable := ih hbefore' hfirst
    have hstep : e₁.step event = some e := by simpa using hlast
    cases event with
    | elapse duration =>
      cases hstep
      exact hrunnable
    | fire wakeUp =>
      rw [Execution.step] at hstep
      split at hstep
      · cases hstep
        rfl
      · cases hstep
    | poll inner =>
      cases inner with
      | ready item => exact runnable_step_poll_ready hstep
      | pending =>
        rw [step_poll_pending hrunnable, if_pos (hlate before e₁ hbefore hfirst)] at hstep
        cases hstep
        exact hrunnable

/-- The first poll that is not late puts the task to sleep, with no timer to wake it. -/
theorem asleep_of_not_late (hrun : (start timeout now).run events = some e)
    (hstep : e.step (.poll (.pending : Poll (Option (Except E T)))) = some e') (hearly : ¬ e.stream.deadline < e.clock) :
    e'.runnable = false ∧ e'.stream = e.stream ∧ e'.clock = e.clock ∧ e'.Timerless := by
  have hrunnable : e.runnable = true := by
    by_contra hne
    rw [Execution.step, if_neg hne] at hstep
    cases hstep
  have htimerless : e'.Timerless := (timerless_start.run hrun).step hstep
  rw [step_poll_pending hrunnable, if_neg hearly] at hstep
  cases hstep
  exact ⟨rfl, rfl, rfl, htimerless⟩

theorem exists_step_of_run (hrun : ∃ e, (start timeout now).run events = some e)
    (hbefore : before ++ [event] <+: events) (hfirst : (start timeout now).run before = some e) :
    ∃ e', e.step event = some e' ∧ (start timeout now).run (before ++ [event]) = some e' := by
  obtain ⟨last, hrun⟩ := hrun
  obtain ⟨after, rfl⟩ := hbefore
  rw [run, List.foldlM_append] at hrun
  obtain ⟨e', hboth, -⟩ := Option.bind_eq_some_iff.mp hrun
  have hsplit := hboth
  rw [List.foldlM_append] at hsplit
  obtain ⟨e₁, hbefore, hlast⟩ := Option.bind_eq_some_iff.mp hsplit
  cases hfirst.symm.trans hbefore
  exact ⟨e', by simpa using hlast, hboth⟩

theorem exists_asleep (hrun : ∃ e, (start timeout now).run events = some e)
    (hbefore : before ++ [.poll .pending] <+: events)
    (hfirst : (start timeout now).run before = some e) (hearly : ¬ e.stream.deadline < e.clock) :
    ∃ e', e.step (.poll (.pending : Poll (Option (Except E T)))) = some e' ∧
      (start timeout now).run (before ++ [.poll .pending]) = some e' ∧
      e'.runnable = false ∧ e'.stream = e.stream ∧ e'.clock = e.clock ∧ e'.Timerless := by
  obtain ⟨e', hstep, hafter⟩ := exists_step_of_run hrun hbefore hfirst
  exact ⟨e', hstep, hafter, asleep_of_not_late hfirst hstep hearly⟩

theorem covered_iff_allLate (hrun : ∃ e, (start timeout now).run events = some e) :
    Covered timeout now events ↔ AllLate timeout now events := by
  constructor
  · intro hcovered before e hbefore hfirst
    by_contra hearly
    obtain ⟨e', hstep, -, hasleep, -, -, htimerless⟩ := exists_asleep hrun hbefore hfirst hearly
    exact htimerless _ (hcovered before .pending e e' hbefore hfirst hstep hasleep (Nat.not_lt.mp hearly))
  · intro hlate before inner e e' hbefore hfirst hstep hasleep hahead
    cases inner with
    | ready item => exact absurd (runnable_step_poll_ready hstep) (by simp [hasleep])
    | pending => exact absurd (hlate before e hbefore hfirst) (Nat.not_lt.mpr hahead)

theorem onTime_iff_allLate (hrun : ∃ e, (start timeout now).run events = some e) :
    OnTime timeout now events ↔ AllLate timeout now events := by
  constructor
  · intro honTime before e hbefore hfirst
    by_contra hearly
    obtain ⟨e', -, hafter, hasleep, hstream, -, htimerless⟩ := exists_asleep hrun hbefore hfirst hearly
    -- wait until just after the deadline
    refine honTime _ e' hbefore hafter (e.stream.deadline + 1) ⟨?_, hasleep, fun deadline hfire =>
      htimerless deadline hfire.1⟩
    show e'.stream.deadline < e'.clock + (e.stream.deadline + 1)
    rw [hstream]
    exact Nat.lt_of_lt_of_le (Nat.lt_succ_self _) (Nat.le_add_left _ _)
  · intro hlate before e hbefore hfirst duration hstalled
    have hawake : e.runnable = true := runnable_of_allLate hlate hbefore hfirst
    have hasleep : e.runnable = false := hstalled.2.1
    rw [hawake] at hasleep
    cases hasleep

/-- In every run a timeout has been yielded or is about to be at every moment after the deadline at which the
inner stream is silent, and every poll that returns `Pending` with the deadline ahead leaves a timer for it,
if and only if no poll of the run finds the inner stream silent before the deadline has passed. -/
theorem timeout_kept_iff (timeout : Nat) (now : Instant) (events : List (ExecutorEvent T E))
    (hrun : ∃ e, (start timeout now).run events = some e) :
    (OnTime timeout now events ↔ AllLate timeout now events) ∧
      (Covered timeout now events ↔ AllLate timeout now events) :=
  ⟨onTime_iff_allLate hrun, covered_iff_allLate hrun⟩

/-- A connection with a timeout of a second that is first polled two seconds after it was set up. -/
theorem timeout_kept_iff_lateStart :
    (OnTime 1000000000 0 [(.elapse 2000000000 : ExecutorEvent Unit Unit), .poll .pending] ↔
        AllLate 1000000000 0 [(.elapse 2000000000 : ExecutorEvent Unit Unit), .poll .pending]) ∧
      (Covered 1000000000 0 [(.elapse 2000000000 : ExecutorEvent Unit Unit), .poll .pending] ↔
        AllLate 1000000000 0 [(.elapse 2000000000 : ExecutorEvent Unit Unit), .poll .pending]) :=
  timeout_kept_iff _ _ _ ⟨_, rfl⟩

/-- A stream with a timeout of a second that is polled at once: however long its task waits then, no timer
fires, the task is not polled, and no timeout is yielded. -/
theorem no_timeout_after_first_poll :
    ¬ OnTime 1000000000 0 [(.poll .pending : ExecutorEvent Unit Unit)] ∧
      ∃ e, (start 1000000000 0).run [(.poll .pending : ExecutorEvent Unit Unit)] = some e ∧
        ∀ duration, ({ e with clock := e.clock + duration } : Execution).runnable = false ∧
          ∀ deadline, ¬ ({ e with clock := e.clock + duration } : Execution).CanFire (.timer deadline) := by
  refine ⟨fun honTime => ?_, ⟨.new 1000000000 0, 0, [.inner], false⟩, rfl, fun duration => ⟨rfl, ?_⟩⟩
  · refine honTime _ _ (List.prefix_refl _) rfl 1000000001 ⟨?_, rfl, ?_⟩
    · decide
    · rintro deadline ⟨hmem, -⟩
      exact absurd (List.mem_singleton.mp hmem) (by nofun)
  · rintro deadline ⟨hmem, -⟩
    exact absurd (List.mem_singleton.mp hmem) (by nofun)

end Execution

end BitTorrent.Peer
