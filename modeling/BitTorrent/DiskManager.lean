import BitTorrent.DiskMessages

/-! The sink and the stream of the disk manager. Clones of the sink count themselves in before they know
whether there is room, and count themselves out again if there is none; the stream counts a request out
when its success comes by. All of them work on one counter and one queue of wakers, one atomic operation
at a time and in any order. -/

namespace BitTorrent.Disk

open Rust List Segments

/-- Where a clone of the sink is. -/
inductive SinkPhase where
  /-- No call is going on, and there is no grant to use. -/
  | idle
  /-- `try_submit_work` has counted itself in and found no room. -/
  | overCapacity
  /-- It has left its waker in the queue. -/
  | registered
  /-- `poll_ready` has returned `Ready`. -/
  | ready
  deriving DecidableEq

/-- The clone is counted: it is in a call, or it has a grant. -/
def SinkPhase.counts : SinkPhase → Nat
  | .idle => 0
  | _ => 1

/-- The clone is in `try_submit_work`, which is going to count it out again. -/
def SinkPhase.inCall : SinkPhase → Nat
  | .overCapacity | .registered => 1
  | _ => 0

/-- Where the stream is, with the message that it has received. -/
inductive StreamPhase (ε : Type) where
  | idle
  /-- `complete_work` is about to count the request out. -/
  | completing (task : Nat) (message : ODiskMessage ε)
  /-- It is about to wake a sink. -/
  | waking (task : Nat) (message : ODiskMessage ε)
  deriving DecidableEq

def StreamPhase.isWaking {ε : Type} : StreamPhase ε → Bool
  | .waking _ _ => true
  | _ => false

/-- The message of a poll that has not returned yet. -/
def StreamPhase.received {ε : Type} : StreamPhase ε → List (Nat × ODiskMessage ε)
  | .idle => []
  | .completing task message | .waking task message => [(task, message)]

/-- A waker is the number of its clone. A task is what it is still going to send, and a message is kept
with the number of its task. -/
structure DiskManager (ε : Type) where
  maxCapacity : Nat
  curCapacity : Nat
  wakeQueue : List Nat
  sinks : List SinkPhase
  tasks : List (List (ODiskMessage ε))
  channel : List (Nat × ODiskMessage ε)
  stream : StreamPhase ε
  yielded : List (Nat × ODiskMessage ε)
  deriving DecidableEq

/-- The atomic steps. -/
inductive ManagerStep (ε : Type) where
  | clone
  | fetchAdd (sink : Nat)
  | pushWaker (sink : Nat)
  | fetchSub (sink : Nat)
  | startSend (sink : Nat) (msg : IDiskMessage) (script : List (ODiskMessage ε))
  | emit (task : Nat)
  | receive
  | completeWork
  | wake

namespace DiskManager

variable {ε : Type}

def fromBuilder (maxCapacity : Nat) : DiskManager ε := ⟨maxCapacity, 0, [], [.idle], [], [], .idle, []⟩

def setSink (s : DiskManager ε) (sink : Nat) (phase : SinkPhase) : DiskManager ε :=
  { s with sinks := s.sinks.set sink phase }

/-- One step, if it is one that can be taken. A task may die at any time, and then sends only a first part
of what it would have sent. The channel takes a message when it has room; until then the task waits. -/
def step (s : DiskManager ε) : ManagerStep ε → Option (DiskManager ε)
  | .clone => some { s with sinks := s.sinks ++ [.idle] }
  | .fetchAdd sink =>
    if s.sinks[sink]? = some .idle then
      let cap := s.curCapacity + 1
      let counted := { s with curCapacity := cap }
      some (counted.setSink sink (if cap ≤ s.maxCapacity then .ready else .overCapacity))
    else none
  | .pushWaker sink =>
    if s.sinks[sink]? = some .overCapacity then
      some ({ s with wakeQueue := s.wakeQueue ++ [sink] }.setSink sink .registered)
    else none
  | .fetchSub sink =>
    if s.sinks[sink]? = some .registered then
      some ({ s with curCapacity := s.curCapacity - 1 }.setSink sink .idle)
    else none
  | .startSend sink msg script =>
    if s.sinks[sink]? = some .ready ∧ IsScript msg script then
      some ({ s with tasks := s.tasks ++ [script] }.setSink sink .idle)
    else none
  | .emit task =>
    match s.tasks[task]? with
    | some (message :: script) =>
      some { s with tasks := s.tasks.set task script, channel := s.channel ++ [(task, message)] }
    | _ => none
  | .receive =>
    match s.stream, s.channel with
    | .idle, (task, message) :: channel =>
      if message.completesWork then
        some { s with stream := .completing task message, channel }
      else some { s with yielded := s.yielded ++ [(task, message)], channel }
    | _, _ => none
  | .completeWork =>
    match s.stream with
    | .completing task message =>
      some { s with curCapacity := s.curCapacity - 1, stream := .waking task message }
    | _ => none
  | .wake =>
    match s.stream with
    | .waking task message =>
      some { s with wakeQueue := s.wakeQueue.tail, stream := .idle
                    yielded := s.yielded ++ [(task, message)] }
    | _ => none

def run (s : DiskManager ε) : List (ManagerStep ε) → Option (DiskManager ε)
  | [] => some s
  | event :: events => (s.step event).bind fun s' => s'.run events

/-- No `try_submit_work` and no `complete_work` is going on. -/
def Quiet (s : DiskManager ε) : Prop :=
  (∀ phase ∈ s.sinks, phase = .idle ∨ phase = .ready) ∧ s.stream = .idle

def grants (s : DiskManager ε) : Nat := s.sinks.count .ready

def answered (s : DiskManager ε) : List Nat := (s.yielded.filter fun m => m.2.isResponse).map Prod.fst

/-- The requests that were submitted and whose response was not yielded yet. -/
def outstanding (s : DiskManager ε) : Finset Nat :=
  (Finset.range s.tasks.length).filter fun task => task ∉ s.answered

/-! ### What a step can do -/

variable {script : List (ODiskMessage ε)} {msg : IDiskMessage}

section

variable {s s' : DiskManager ε} {sink task : Nat}

theorem step_fetchAdd (h : s.step (.fetchAdd sink) = some s') : s.sinks[sink]? = some .idle ∧
    s' = { s with curCapacity := s.curCapacity + 1 }.setSink sink
      (if s.curCapacity + 1 ≤ s.maxCapacity then .ready else .overCapacity) := by
  rw [step] at h
  split at h
  · rename_i hidle
    exact ⟨hidle, (Option.some.inj h).symm⟩
  · cases h

theorem step_pushWaker (h : s.step (.pushWaker sink) = some s') :
    s.sinks[sink]? = some .overCapacity ∧
      s' = { s with wakeQueue := s.wakeQueue ++ [sink] }.setSink sink .registered := by
  rw [step] at h
  split at h
  · rename_i hover
    exact ⟨hover, (Option.some.inj h).symm⟩
  · cases h

theorem step_fetchSub (h : s.step (.fetchSub sink) = some s') : s.sinks[sink]? = some .registered ∧
    s' = { s with curCapacity := s.curCapacity - 1 }.setSink sink .idle := by
  rw [step] at h
  split at h
  · rename_i hregistered
    exact ⟨hregistered, (Option.some.inj h).symm⟩
  · cases h

theorem step_startSend (h : s.step (.startSend sink msg script) = some s') :
    s.sinks[sink]? = some .ready ∧ IsScript msg script ∧
      s' = { s with tasks := s.tasks ++ [script] }.setSink sink .idle := by
  rw [step] at h
  split at h
  · rename_i hready
    exact ⟨hready.1, hready.2, (Option.some.inj h).symm⟩
  · cases h

theorem step_emit (h : s.step (.emit task) = some s') :
    ∃ message script, s.tasks[task]? = some (message :: script) ∧
      s' = { s with tasks := s.tasks.set task script, channel := s.channel ++ [(task, message)] } := by
  rw [step] at h
  split at h
  · rename_i message script htask
    exact ⟨message, script, htask, (Option.some.inj h).symm⟩
  · cases h

theorem step_receive (h : s.step .receive = some s') :
    ∃ task message channel, s.stream = .idle ∧ s.channel = (task, message) :: channel ∧
      (message.completesWork = true ∧
          s' = { s with stream := .completing task message, channel } ∨
        message.completesWork = false ∧
          s' = { s with yielded := s.yielded ++ [(task, message)], channel }) := by
  rw [step] at h
  split at h
  · rename_i task message channel hstream hchannel
    refine ⟨task, message, channel, hstream, hchannel, ?_⟩
    split at h
    · rename_i hcompletes
      exact .inl ⟨hcompletes, (Option.some.inj h).symm⟩
    · rename_i hcompletes
      exact .inr ⟨Bool.eq_false_of_not_eq_true hcompletes, (Option.some.inj h).symm⟩
  · cases h

theorem step_completeWork (h : s.step .completeWork = some s') :
    ∃ task message, s.stream = .completing task message ∧
      s' = { s with curCapacity := s.curCapacity - 1, stream := .waking task message } := by
  rw [step] at h
  split at h
  · rename_i task message hstream
    exact ⟨task, message, hstream, (Option.some.inj h).symm⟩
  · cases h

theorem step_wake (h : s.step .wake = some s') :
    ∃ task message, s.stream = .waking task message ∧
      s' = { s with wakeQueue := s.wakeQueue.tail, stream := .idle
                    yielded := s.yielded ++ [(task, message)] } := by
  rw [step] at h
  split at h
  · rename_i task message hstream
    exact ⟨task, message, hstream, (Option.some.inj h).symm⟩
  · cases h

end

/-! ### One response for each request -/

/-- All messages that were sent, those of the stream first. -/
def messages (s : DiskManager ε) : List (Nat × ODiskMessage ε) :=
  s.yielded ++ s.stream.received ++ s.channel

/-- The requests that were answered, whether or not the answer was yielded. -/
def responses (s : DiskManager ε) : List Nat := (s.messages.filter fun m => m.2.isResponse).map Prod.fst

/-- A task sends one response at most, and none after it. -/
structure Answers (s : DiskManager ε) : Prop where
  nodup : s.responses.Nodup
  spent : ∀ task ∈ s.responses, ∃ script, s.tasks[task]? = some script ∧
    ∀ message ∈ script, message.isResponse = false
  single : ∀ script ∈ s.tasks, script.countP (·.isResponse) ≤ 1

variable {event : ManagerStep ε}

section

variable {s s' : DiskManager ε}

theorem Answers.congr (h : s.Answers) (hmessages : s'.messages = s.messages)
    (htasks : s'.tasks = s.tasks) : s'.Answers := by
  have hresponses : s'.responses = s.responses := by rw [responses, hmessages, responses]
  constructor
  · rw [hresponses]
    exact h.nodup
  · rw [hresponses, htasks]
    exact h.spent
  · rw [htasks]
    exact h.single

theorem Answers.spawn (h : s.Answers) (hscript : IsScript msg script) (hmessages : s'.messages = s.messages)
    (htasks : s'.tasks = s.tasks ++ [script]) : s'.Answers := by
  have hresponses : s'.responses = s.responses := by rw [responses, hmessages, responses]
  constructor
  · rw [hresponses]
    exact h.nodup
  · rw [hresponses, htasks]
    intro task htask
    obtain ⟨script', hscript', hspent⟩ := h.spent task htask
    have hlt := (List.getElem?_eq_some_iff.mp hscript').1
    exact ⟨script', (getElem?_append_left hlt).trans hscript', hspent⟩
  · rw [htasks]
    intro script' hscript'
    rcases mem_append.mp hscript' with hold | hnew
    · exact h.single script' hold
    · cases mem_singleton.mp hnew
      exact hscript.countP_le

theorem Answers.emit (h : s.Answers) {task : Nat} {message : ODiskMessage ε}
    (htask : s.tasks[task]? = some (message :: script))
    (hmessages : s'.messages = s.messages ++ [(task, message)])
    (htasks : s'.tasks = s.tasks.set task script) : s'.Answers := by
  have hlt : task < s.tasks.length := (List.getElem?_eq_some_iff.mp htask).1
  have hsingle := h.single _ (mem_of_getElem? htask)
  rw [countP_cons] at hsingle
  have hresponses : s'.responses = s.responses ++ if message.isResponse then [task] else [] := by
    rw [responses, hmessages, filter_append, map_append, responses]
    cases hresponse : message.isResponse <;> simp [hresponse]
  have hspent : ∀ other ∈ s.responses, ∃ script', s'.tasks[other]? = some script' ∧
      ∀ message ∈ script', message.isResponse = false := by
    intro other hother
    obtain ⟨script', hscript', hnone⟩ := h.spent other hother
    rw [htasks, getElem?_set]
    split
    · rename_i heq
      subst heq
      rw [htask] at hscript'
      cases hscript'
      exact ⟨script, rfl, fun m hm => hnone m (mem_cons_of_mem _ hm)⟩
    · exact ⟨script', hscript', hnone⟩
  constructor
  · rw [hresponses]
    split
    · rename_i hresponse
      refine nodup_append.mpr ⟨h.nodup, nodup_singleton _, fun other hother _ hself => ?_⟩
      rw [mem_singleton] at hself
      rintro rfl
      subst hself
      -- the task has just sent its response, so it had not sent one before
      obtain ⟨script', hscript', hnone⟩ := h.spent _ hother
      rw [htask] at hscript'
      cases hscript'
      rw [hnone message mem_cons_self] at hresponse
      cases hresponse
    · rw [append_nil]
      exact h.nodup
  · rw [hresponses]
    intro other hother
    rcases mem_append.mp hother with hother | hother
    · exact hspent other hother
    · split at hother
      · rename_i hresponse
        cases mem_singleton.mp hother
        refine ⟨script, ?_, ?_⟩
        · rw [htasks, getElem?_set_self hlt]
        · rw [if_pos hresponse] at hsingle
          have hzero : script.countP (·.isResponse) = 0 := by omega
          intro m hm
          have := countP_eq_zero.mp hzero m hm
          simpa using this
      · cases hother
  · rw [htasks]
    intro script' hscript'
    rcases mem_or_eq_of_mem_set hscript' with hold | rfl
    · exact h.single script' hold
    · omega

theorem Answers.step (h : s.Answers) (hstep : s.step event = some s') : s'.Answers := by
  cases event with
  | clone =>
    cases hstep
    exact h.congr rfl rfl
  | fetchAdd sink =>
    obtain ⟨-, rfl⟩ := step_fetchAdd hstep
    exact h.congr rfl rfl
  | pushWaker sink =>
    obtain ⟨-, rfl⟩ := step_pushWaker hstep
    exact h.congr rfl rfl
  | fetchSub sink =>
    obtain ⟨-, rfl⟩ := step_fetchSub hstep
    exact h.congr rfl rfl
  | startSend sink msg script =>
    obtain ⟨-, hscript, rfl⟩ := step_startSend hstep
    exact h.spawn hscript rfl rfl
  | emit task =>
    obtain ⟨message, script, htask, rfl⟩ := step_emit hstep
    refine h.emit htask ?_ rfl
    simp only [messages, append_assoc]
  | receive =>
    obtain ⟨task, message, channel, hstream, hchannel, ⟨-, rfl⟩ | ⟨-, rfl⟩⟩ := step_receive hstep
    · refine h.congr ?_ rfl
      simp [messages, hstream, hchannel, StreamPhase.received]
    · refine h.congr ?_ rfl
      simp [messages, hstream, hchannel, StreamPhase.received]
  | completeWork =>
    obtain ⟨task, message, hstream, rfl⟩ := step_completeWork hstep
    refine h.congr ?_ rfl
    simp [messages, hstream, StreamPhase.received]
  | wake =>
    obtain ⟨task, message, hstream, rfl⟩ := step_wake hstep
    refine h.congr ?_ rfl
    simp [messages, hstream, StreamPhase.received]

end

/-! ### The counter -/

def counted (s : DiskManager ε) : Nat := (s.sinks.map SinkPhase.counts).sum

def released (s : DiskManager ε) : Nat :=
  s.yielded.countP (fun m => m.2.completesWork) +
    match s.stream with
    | .waking _ _ => 1
    | _ => 0

/-- The counter is the number of clones that are in a call or have a grant, and of requests that were not
counted out. -/
structure Balanced (s : DiskManager ε) : Prop where
  answers : s.Answers
  completes : ∀ m ∈ s.stream.received, m.2.completesWork = true
  counted : s.curCapacity + s.released = s.counted + s.tasks.length

section

variable {s s' : DiskManager ε}

theorem Answers.length_responses_le (h : s.Answers) : s.responses.length ≤ s.tasks.length := by
  have hsubset : s.responses.toFinset ⊆ Finset.range s.tasks.length := by
    intro task htask
    obtain ⟨script, hscript, -⟩ := h.spent task (mem_toFinset.mp htask)
    exact Finset.mem_range.mpr (List.getElem?_eq_some_iff.mp hscript).1
  calc s.responses.length = s.responses.toFinset.card := (toFinset_card_of_nodup h.nodup).symm
    _ ≤ (Finset.range s.tasks.length).card := Finset.card_le_card hsubset
    _ = s.tasks.length := Finset.card_range _

theorem Balanced.released_le (h : s.Balanced) :
    s.yielded.countP (fun m => m.2.completesWork) + s.stream.received.length ≤ s.tasks.length := by
  have hresponse : ∀ m : Nat × ODiskMessage ε, m.2.completesWork = true → m.2.isResponse = true :=
    fun m hm => by rw [ODiskMessage.isResponse, hm, Bool.true_or]
  have hyielded : s.yielded.countP (fun m => m.2.completesWork) ≤
      s.yielded.countP (fun m => m.2.isResponse) := countP_mono_left fun m _ => hresponse m
  have hreceived : s.stream.received.countP (fun m => m.2.isResponse) = s.stream.received.length :=
    countP_eq_length.mpr fun m hm => hresponse m (h.completes m hm)
  have hlength : s.responses.length = s.yielded.countP (fun m => m.2.isResponse) +
      s.stream.received.countP (fun m => m.2.isResponse) +
      s.channel.countP (fun m => m.2.isResponse) := by
    rw [responses, length_map, ← countP_eq_length_filter, messages, countP_append,
      countP_append]
  have := h.answers.length_responses_le
  omega

theorem Balanced.released_le_length (h : s.Balanced) : s.released ≤ s.tasks.length := by
  have hle := h.released_le
  rw [released]
  cases hstream : s.stream with
  | idle =>
    rw [hstream] at hle
    exact hle
  | completing task message => exact (Nat.le_add_right _ _).trans hle
  | waking task message =>
    rw [hstream] at hle
    exact hle

variable {sink : Nat} {phase : SinkPhase}

theorem counted_setSink (h : s.sinks[sink]? = some phase) (phase' : SinkPhase) :
    (s.setSink sink phase').counted + phase.counts = s.counted + phase'.counts :=
  sum_map_set_add SinkPhase.counts phase' h

theorem Balanced.step (h : s.Balanced) (hstep : s.step event = some s') : s'.Balanced := by
  have hanswers := h.answers.step hstep
  have hcounted := h.counted
  have hreleased := h.released_le
  cases event with
  | clone =>
    cases hstep
    refine ⟨hanswers, h.completes, ?_⟩
    change _ = (map SinkPhase.counts (s.sinks ++ [.idle])).sum + s.tasks.length
    rw [map_append, sum_append]
    exact hcounted
  | fetchAdd sink =>
    obtain ⟨hidle, rfl⟩ := step_fetchAdd hstep
    refine ⟨hanswers, h.completes, ?_⟩
    have hone : ∀ room : Prop, [Decidable room] →
        (if room then SinkPhase.ready else .overCapacity).counts = 1 := fun room _ => by split <;> rfl
    have henter := counted_setSink hidle (if s.curCapacity + 1 ≤ s.maxCapacity then .ready else .overCapacity)
    rw [hone, SinkPhase.counts] at henter
    change s.curCapacity + 1 + s.released = (s.setSink sink _).counted + s.tasks.length
    omega
  | pushWaker sink =>
    obtain ⟨hover, rfl⟩ := step_pushWaker hstep
    refine ⟨hanswers, h.completes, ?_⟩
    have hstay := counted_setSink hover .registered
    simp only [SinkPhase.counts] at hstay
    change s.curCapacity + s.released = (s.setSink sink .registered).counted + s.tasks.length
    omega
  | fetchSub sink =>
    obtain ⟨hregistered, rfl⟩ := step_fetchSub hstep
    refine ⟨hanswers, h.completes, ?_⟩
    have hleave := counted_setSink hregistered .idle
    simp only [SinkPhase.counts] at hleave
    have hle : s.released ≤ s.tasks.length := h.released_le_length
    change s.curCapacity - 1 + s.released = (s.setSink sink .idle).counted + s.tasks.length
    omega
  | startSend sink msg script =>
    obtain ⟨hready, -, rfl⟩ := step_startSend hstep
    refine ⟨hanswers, h.completes, ?_⟩
    have hleave := counted_setSink hready .idle
    simp only [SinkPhase.counts] at hleave
    change s.curCapacity + s.released = (s.setSink sink .idle).counted + (s.tasks ++ [script]).length
    rw [length_append, length_singleton]
    omega
  | emit task =>
    obtain ⟨message, script, -, rfl⟩ := step_emit hstep
    refine ⟨hanswers, h.completes, ?_⟩
    change s.curCapacity + s.released = s.counted + (s.tasks.set task script).length
    rw [length_set]
    exact hcounted
  | receive =>
    obtain ⟨task, message, channel, hstream, -, ⟨hmessage, rfl⟩ | ⟨hmessage, rfl⟩⟩ :=
      step_receive hstep
    · refine ⟨hanswers, ?_, ?_⟩
      · intro m hm
        cases mem_singleton.mp hm
        exact hmessage
      · rw [released, hstream] at hcounted
        exact hcounted
    · refine ⟨hanswers, h.completes, ?_⟩
      rw [released, hstream] at hcounted ⊢
      dsimp only
      rw [countP_append, countP_singleton, hmessage]
      exact hcounted
  | completeWork =>
    obtain ⟨task, message, hstream, rfl⟩ := step_completeWork hstep
    have hcompletes := h.completes
    rw [hstream] at hcompletes hreleased
    rw [released, hstream] at hcounted
    refine ⟨hanswers, hcompletes, ?_⟩
    rw [StreamPhase.received, length_singleton] at hreleased
    change s.curCapacity - 1 + (s.yielded.countP _ + 1) =
      s.counted + s.tasks.length
    dsimp only at hcounted
    omega
  | wake =>
    obtain ⟨task, message, hstream, rfl⟩ := step_wake hstep
    have hcompletes := h.completes
    rw [hstream] at hcompletes
    rw [released, hstream] at hcounted
    have hmessage := hcompletes _ (mem_singleton_self _)
    refine ⟨hanswers, nofun, ?_⟩
    rw [released]
    dsimp only at hcounted hmessage ⊢
    rw [countP_append, countP_singleton, hmessage]
    exact hcounted

theorem balanced_fromBuilder (maxCapacity : Nat) : (fromBuilder maxCapacity : DiskManager ε).Balanced :=
  ⟨⟨nodup_nil, nofun, nofun⟩, nofun, rfl⟩

theorem Balanced.run (h : s.Balanced) {events : List (ManagerStep ε)}
    (hrun : s.run events = some s') : s'.Balanced := by
  induction events generalizing s with
  | nil =>
    cases hrun
    exact h
  | cons event events ih =>
    obtain ⟨s₁, hstep, hrest⟩ := Option.bind_eq_some_iff.mp hrun
    exact ih (h.step hstep) hrest

def errors (s : DiskManager ε) : Nat := s.yielded.countP fun m => m.2.isError

theorem countP_isResponse (l : List (Nat × ODiskMessage ε)) :
    l.countP (fun m => m.2.isResponse) =
      l.countP (fun m => m.2.completesWork) + l.countP (fun m => m.2.isError) := by
  induction l with
  | nil => rfl
  | cons m l ih =>
    simp only [countP_cons, ih]
    rcases m with ⟨task, message⟩
    cases message <;> simp [ODiskMessage.isResponse, ODiskMessage.completesWork,
      ODiskMessage.isError] <;> omega

theorem Answers.card_outstanding (h : s.Answers) :
    s.outstanding.card + s.yielded.countP (fun m => m.2.isResponse) = s.tasks.length := by
  have hsublist : s.answered.Sublist s.responses := by
    refine List.Sublist.map _ (List.Sublist.filter _ ?_)
    rw [messages, append_assoc]
    exact sublist_append_left _ _
  have hsubset : s.answered.toFinset ⊆ Finset.range s.tasks.length := by
    intro task htask
    obtain ⟨script, hscript, -⟩ := h.spent task (hsublist.subset (mem_toFinset.mp htask))
    exact Finset.mem_range.mpr (List.getElem?_eq_some_iff.mp hscript).1
  have hcard : s.answered.toFinset.card = s.yielded.countP (fun m => m.2.isResponse) := by
    rw [toFinset_card_of_nodup (h.nodup.sublist hsublist), answered, length_map,
      countP_eq_length_filter]
  have hdiff : s.outstanding = Finset.range s.tasks.length \ s.answered.toFinset := by
    ext task
    simp only [outstanding, Finset.mem_filter, Finset.mem_sdiff, mem_toFinset]
  rw [hdiff, ← hcard, Finset.card_sdiff_add_card_eq_card hsubset, Finset.card_range]

/-- How many clones are in a call of `try_submit_work`. -/
def inCall (s : DiskManager ε) : Nat := (s.sinks.map SinkPhase.inCall).sum

theorem counted_eq (s : DiskManager ε) : s.counted = s.inCall + s.grants := by
  rw [counted, inCall, grants]
  induction s.sinks with
  | nil => rfl
  | cons phase sinks ih =>
    rw [map_cons, sum_cons, map_cons, sum_cons, count_cons, ih]
    cases phase <;> simp [SinkPhase.counts, SinkPhase.inCall] <;> omega

theorem Quiet.inCall_eq (h : s.Quiet) : s.inCall = 0 := by
  refine sum_eq_zero fun n hn => ?_
  obtain ⟨phase, hphase, rfl⟩ := mem_map.mp hn
  rcases h.1 phase hphase with rfl | rfl <;> rfl

/-- Between calls the counter is the number of grants, of outstanding requests and of errors that were
yielded. -/
theorem Balanced.curCapacity_eq (h : s.Balanced) (hquiet : s.Quiet) :
    s.curCapacity = s.grants + s.outstanding.card + s.errors := by
  have hcounted := h.counted
  have hcard := h.answers.card_outstanding
  rw [released, hquiet.2, counted_eq, hquiet.inCall_eq] at hcounted
  rw [countP_isResponse] at hcard
  rw [errors]
  dsimp only at hcounted
  omega

end

instance (s : DiskManager ε) : Decidable s.Quiet :=
  have : Decidable (s.stream = .idle) :=
    match s.stream with
    | .idle => isTrue rfl
    | .completing _ _ => isFalse nofun
    | .waking _ _ => isFalse nofun
  inferInstanceAs (Decidable (_ ∧ _))

def addedMessages : List (ODiskMessage IoError) :=
  [.foundGoodPiece twoPieces.info.infoHash 0, .torrentAdded twoPieces.info.infoHash]

def notFoundMessages : List (ODiskMessage IoError) :=
  [.torrentError twoPieces.info.infoHash (.infoHashNotFound twoPieces.info.infoHash)]

def addedRun : List (ManagerStep IoError) :=
  [.fetchAdd 0, .startSend 0 (.addTorrent twoPieces) addedMessages, .emit 0, .emit 0, .receive,
    .receive, .completeWork, .wake]

def failedRun : List (ManagerStep IoError) :=
  [.fetchAdd 0, .startSend 0 (.removeTorrent twoPieces.info.infoHash) notFoundMessages, .emit 0, .receive]

/-- The counter is the number of unused grants and outstanding requests if and only if no error was
yielded: the stream does not count a request out that ended with an error. -/
theorem capacity_conserved_iff (maxCapacity : Nat) (events : List (ManagerStep ε)) (s : DiskManager ε)
    (hrun : (fromBuilder maxCapacity).run events = some s) (hquiet : s.Quiet) :
    s.curCapacity = s.grants + s.outstanding.card ↔ ∀ m ∈ s.yielded, m.2.isError = false := by
  have hcapacity := ((balanced_fromBuilder maxCapacity).run hrun).curCapacity_eq hquiet
  have herrors : s.errors = 0 ↔ ∀ m ∈ s.yielded, m.2.isError = false := by
    rw [errors, countP_eq_zero]
    simp only [Bool.not_eq_true]
  rw [← herrors]
  omega

theorem capacity_conserved_addedRun :
    ∃ s : DiskManager IoError, (fromBuilder 1).run addedRun = some s ∧ s.Quiet ∧
      s.curCapacity = s.grants + s.outstanding.card :=
  ⟨_, rfl, by decide, (capacity_conserved_iff 1 addedRun _ rfl (by decide)).mpr (by decide)⟩

/-- The place of a request that failed is never given back. -/
theorem capacity_leaks_failedRun :
    ((execute Volume.fileSystem byteSum (.listed Nat) (.removeTorrent twoPieces.info.infoHash)).run
        (.new emptyVolume)).2.out = notFoundMessages ∧
      ∃ s : DiskManager IoError, (fromBuilder 1).run failedRun = some s ∧ s.Quiet ∧
        s.curCapacity = 1 ∧ s.grants = 0 ∧ s.outstanding = ∅ :=
  ⟨by decide +kernel, _, rfl, by decide, by decide, by decide, by decide⟩

/-- The only request is completed between the moment a second clone finds no room and the moment it leaves
its waker. -/
def missedRun : List (ManagerStep IoError) :=
  [.clone, .fetchAdd 0, .startSend 0 (.addTorrent twoPieces) addedMessages, .fetchAdd 1, .emit 0,
    .emit 0, .receive, .receive, .completeWork, .wake, .pushWaker 1, .fetchSub 1]

/-- Nothing is counted but clones that are going to count themselves out: all that was granted is completed. -/
def Spent (s : DiskManager ε) : Prop := s.curCapacity = s.inCall

/-- The steps that leave a waker behind, on the state before. When nothing is left to be completed, a clone
that was refused before leaves its waker, or a completion wakes only one of several clones. -/
def Strands (s : DiskManager ε) : ManagerStep ε → Prop
  | .pushWaker _ => s.Spent ∧ s.stream.isWaking = false
  | .wake => s.Spent ∧ 2 ≤ s.wakeQueue.length
  | _ => False

/-- The step is a `fetch_add` that finds room. -/
def Grant (s : DiskManager ε) : ManagerStep ε → Prop
  | .fetchAdd _ => s.curCapacity < s.maxCapacity
  | _ => False

/-- Some `fetch_add` of the steps finds room. -/
def Grants (s : DiskManager ε) : List (ManagerStep ε) → Prop
  | [] => False
  | event :: events => s.Grant event ∨ ∃ s' ∈ s.step event, s'.Grants events

/-- After each step that leaves a waker behind there is a grant. -/
def Regranted (s : DiskManager ε) : List (ManagerStep ε) → Prop
  | [] => True
  | event :: events => ∀ s' ∈ s.step event,
    (s.Strands event → s'.Grants events) ∧ s'.Regranted events

/-- A waker is there and no completion will wake it. -/
def Stuck (s : DiskManager ε) : Prop := s.wakeQueue ≠ [] ∧ s.Spent ∧ s.stream.isWaking = false

section

variable {s s' : DiskManager ε} {sink : Nat} {phase : SinkPhase}

theorem inCall_setSink (h : s.sinks[sink]? = some phase) (phase' : SinkPhase) :
    (s.setSink sink phase').inCall + phase.inCall = s.inCall + phase'.inCall :=
  sum_map_set_add SinkPhase.inCall phase' h

theorem Balanced.inCall_le (h : s.Balanced) : s.inCall + s.grants ≤ s.curCapacity := by
  have hcounted := h.counted
  have hreleased := h.released_le_length
  rw [counted_eq] at hcounted
  omega

theorem Balanced.not_spent (h : s.Balanced) {task : Nat} {message : ODiskMessage ε}
    (hstream : s.stream = .completing task message) : ¬ s.Spent := by
  intro hspent
  have hcounted := h.counted
  have hreleased := h.released_le
  rw [counted_eq, released, hstream] at hcounted
  rw [hstream, StreamPhase.received, length_singleton] at hreleased
  rw [Spent] at hspent
  dsimp only at hcounted
  omega

theorem Balanced.stuck_fetchAdd_iff (h : s.Balanced) (hstep : s.step (.fetchAdd sink) = some s') :
    s'.Stuck ↔ s.Stuck ∧ ¬ s.curCapacity < s.maxCapacity := by
  obtain ⟨hidle, rfl⟩ := step_fetchAdd hstep
  by_cases hroom : s.curCapacity + 1 ≤ s.maxCapacity
  · -- the grant is counted, and nobody is going to count it out
    refine iff_of_false (fun hstuck => ?_) fun hstuck => hstuck.2 hroom
    rw [if_pos hroom] at hstuck
    have hsame := inCall_setSink hidle .ready
    simp only [SinkPhase.inCall] at hsame
    have hle := h.inCall_le
    have hspent : s.curCapacity + 1 = (s.setSink sink .ready).inCall := hstuck.2.1
    omega
  · have hone := inCall_setSink hidle .overCapacity
    simp only [SinkPhase.inCall] at hone
    have hspent : s.curCapacity + 1 = (s.setSink sink .overCapacity).inCall ↔ s.Spent := by
      rw [Spent]
      omega
    rw [if_neg hroom]
    refine Iff.trans ?_ (and_iff_left hroom).symm
    exact and_congr_right fun _ => and_congr_left fun _ => hspent

/-- Only a step that strands a waker makes the queue stuck, and only a grant ends it. -/
theorem Balanced.stuck_step_iff (h : s.Balanced) (hstep : s.step event = some s') :
    s'.Stuck ↔ s.Strands event ∨ s.Stuck ∧ ¬ s.Grant event := by
  have hquiet : s'.wakeQueue = s.wakeQueue → (s'.Spent ↔ s.Spent) →
      s'.stream.isWaking = s.stream.isWaking → (s'.Stuck ↔ False ∨ s.Stuck ∧ ¬ False) := by
    intro hqueue hspent hstream
    rw [Stuck, Stuck, hqueue, hspent, hstream, false_or, not_false_eq_true, and_true]
  cases event with
  | clone =>
    cases hstep
    refine hquiet rfl ?_ rfl
    rw [Spent, inCall, map_append, sum_append]
    rfl
  | fetchAdd sink => exact (h.stuck_fetchAdd_iff hstep).trans ⟨.inr, fun hor => hor.resolve_left id⟩
  | pushWaker sink =>
    obtain ⟨hover, rfl⟩ := step_pushWaker hstep
    have hsame := inCall_setSink hover .registered
    simp only [SinkPhase.inCall] at hsame
    have hspent : s.curCapacity = (s.setSink sink .registered).inCall ↔ s.Spent := by
      rw [Spent]
      omega
    constructor
    · exact fun hstuck => .inl ⟨hspent.mp hstuck.2.1, hstuck.2.2⟩
    · rintro (hstrands | ⟨⟨-, hstuck⟩, -⟩)
      · exact ⟨append_ne_nil_of_right_ne_nil _ (cons_ne_nil _ _), hspent.mpr hstrands.1, hstrands.2⟩
      · exact ⟨append_ne_nil_of_right_ne_nil _ (cons_ne_nil _ _), hspent.mpr hstuck.1, hstuck.2⟩
  | fetchSub sink =>
    obtain ⟨hregistered, rfl⟩ := step_fetchSub hstep
    have hone := inCall_setSink hregistered .idle
    simp only [SinkPhase.inCall] at hone
    have hle := h.inCall_le
    refine hquiet rfl ?_ rfl
    change s.curCapacity - 1 = (s.setSink sink .idle).inCall ↔ s.curCapacity = s.inCall
    omega
  | startSend sink msg script =>
    obtain ⟨hready, -, rfl⟩ := step_startSend hstep
    have hsame := inCall_setSink hready .idle
    simp only [SinkPhase.inCall] at hsame
    refine hquiet rfl ?_ rfl
    change s.curCapacity = (s.setSink sink .idle).inCall ↔ s.curCapacity = s.inCall
    omega
  | emit task =>
    obtain ⟨message, script, -, rfl⟩ := step_emit hstep
    exact hquiet rfl Iff.rfl rfl
  | receive =>
    obtain ⟨task, message, channel, hstream, -, ⟨-, rfl⟩ | ⟨-, rfl⟩⟩ := step_receive hstep
    · exact hquiet rfl Iff.rfl (by rw [hstream]; rfl)
    · exact hquiet rfl Iff.rfl rfl
  | completeWork =>
    obtain ⟨task, message, hstream, rfl⟩ := step_completeWork hstep
    refine iff_of_false (fun hstuck => Bool.noConfusion hstuck.2.2) ?_
    rintro (hstrands | hstuck)
    · exact hstrands
    · exact h.not_spent hstream hstuck.1.2.1
  | wake =>
    obtain ⟨task, message, hstream, rfl⟩ := step_wake hstep
    have hqueue : s.wakeQueue.tail ≠ [] ↔ 2 ≤ s.wakeQueue.length := by
      rw [← length_pos_iff, length_tail]
      omega
    constructor
    · exact fun hstuck => .inl ⟨hstuck.2.1, hqueue.mp hstuck.1⟩
    · rintro (hstrands | ⟨⟨-, -, hwaking⟩, -⟩)
      · exact ⟨hqueue.mpr hstrands.2, hstrands.1, rfl⟩
      · rw [hstream] at hwaking
        cases hwaking

theorem Balanced.stuck_run_iff (h : s.Balanced) {events : List (ManagerStep ε)}
    (hrun : s.run events = some s') :
    ¬ s'.Stuck ↔ (s.Stuck → s.Grants events) ∧ s.Regranted events := by
  induction events generalizing s with
  | nil =>
    cases hrun
    exact (and_iff_left trivial).symm
  | cons event events ih =>
    obtain ⟨s₁, hstep, hrest⟩ := Option.bind_eq_some_iff.mp hrun
    have hstuck := h.stuck_step_iff hstep
    have hgrants : s.Grants (event :: events) ↔ s.Grant event ∨ s₁.Grants events := by
      rw [Grants, hstep]
      simp only [Option.mem_some_iff, exists_eq_left']
    have hregranted : s.Regranted (event :: events) ↔
        (s.Strands event → s₁.Grants events) ∧ s₁.Regranted events := by
      rw [Regranted, hstep]
      simp only [Option.mem_some_iff, forall_eq']
    rw [ih (h.step hstep) hrest, hstuck, hgrants, hregranted]
    tauto

theorem Quiet.stuck_iff (h : s.Quiet) : ¬ s.Stuck ↔ (s.wakeQueue ≠ [] → 0 < s.curCapacity) := by
  have hstream : s.stream.isWaking = false := by rw [h.2]; rfl
  rw [Stuck, Spent, h.inCall_eq, not_and, and_iff_left hstream, Nat.pos_iff_ne_zero]

end

/-- Between calls, a clone that waits finds the counter above zero if and only if in the run each step that
left a waker behind was followed by a grant. -/
theorem waker_counted_iff (maxCapacity : Nat) (events : List (ManagerStep ε)) (s : DiskManager ε)
    (hrun : (fromBuilder maxCapacity).run events = some s) (hquiet : s.Quiet) :
    (s.wakeQueue ≠ [] → 0 < s.curCapacity) ↔ (fromBuilder maxCapacity).Regranted events := by
  have hstuck : ¬ (fromBuilder maxCapacity : DiskManager ε).Stuck := fun h => h.1 rfl
  rw [← hquiet.stuck_iff, (balanced_fromBuilder maxCapacity).stuck_run_iff hrun]
  exact and_iff_right fun h => absurd h hstuck

instance (s : DiskManager ε) (event : ManagerStep ε) : Decidable (s.Strands event) := by
  unfold Strands Spent
  split <;> infer_instance

instance (s : DiskManager ε) (event : ManagerStep ε) : Decidable (s.Grant event) := by
  unfold Grant
  split <;> infer_instance

instance decidableGrants : ∀ (events : List (ManagerStep ε)) (s : DiskManager ε), Decidable (s.Grants events)
  | [], _ => isFalse id
  | event :: events, s =>
    have := decidableGrants events
    inferInstanceAs (Decidable (s.Grant event ∨ ∃ s' ∈ s.step event, s'.Grants events))

instance decidableRegranted :
    ∀ (events : List (ManagerStep ε)) (s : DiskManager ε), Decidable (s.Regranted events)
  | [], _ => isTrue trivial
  | event :: events, s =>
    have := decidableRegranted events
    inferInstanceAs (Decidable (∀ s' ∈ s.step event,
      (s.Strands event → s'.Grants events) ∧ s'.Regranted events))

/-- The first clone takes the place that the second one could have. -/
theorem waker_counted_regranted :
    ∃ s : DiskManager IoError, (fromBuilder 1).run (missedRun ++ [.fetchAdd 0]) = some s ∧ s.Quiet ∧
      s.wakeQueue = [1] ∧ 0 < s.curCapacity :=
  ⟨_, rfl, by decide, by decide, (waker_counted_iff 1 (missedRun ++ [.fetchAdd 0]) _ rfl
    (by decide)).mpr (by decide +kernel) (by decide)⟩

/-- The second clone waits, and nothing is left that could wake it. -/
theorem waker_lost_missedRun :
    ((execute Volume.fileSystem byteSum (.listed Nat) (.addTorrent twoPieces)).run
        (.new emptyVolume)).2.out = addedMessages ∧
      ∃ s : DiskManager IoError, (fromBuilder 1).run missedRun = some s ∧ s.Quiet ∧
        s.wakeQueue = [1] ∧ s.curCapacity = 0 ∧ s.grants = 0 ∧ s.outstanding = ∅ :=
  ⟨by decide +kernel, _, rfl, by decide, by decide, by decide, by decide, by decide⟩

end DiskManager

end BitTorrent.Disk
