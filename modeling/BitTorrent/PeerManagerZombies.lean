import BitTorrent.PeerManagerTask

/-! Entries of the map whose task is gone. A task that ends is to announce the removal of its peer before,
so that the stream takes the peer out of the map. A peer is abandoned by the event that ends its task when
no announcement is on its way: the task does not send one when the connection ends or nothing can be sent on
it. It is abandoned, too, by a poll that takes the announcement while a sink holds the lock. -/

namespace BitTorrent.Peer

open Rust PeerManagerStream

open List hiding getElem?_eq_some_iff

section

variable {M : Type}

/-- Receiving the item takes the peer out of the map. -/
def announces (key : PeerKey) (item : ManagerOutput M) : Bool :=
  (removedPeer item).any fun info => info.key = key

theorem announces_of_none {item : ManagerOutput M} (h : removedPeer item = none) (key : PeerKey) :
    announces key item = false := by
  rw [announces, h]
  rfl

theorem announces_of_some {item : ManagerOutput M} {info : PeerInfo} (h : removedPeer item = some info)
    (key : PeerKey) : announces key item = decide (info.key = key) := by
  rw [announces, h]
  rfl

namespace Task

/-- The event ends the task: a message cannot be sent to the connection, or the handling of an item is over
that leads to an error. -/
def EndedBy (task : Task M) : TaskEvent M → Prop
  | .peerSend false => ∃ message toManager result, task.phase = .handling ⟨some message, toManager, result⟩
  | .finish => ∃ err, task.phase = .handling ⟨none, none, .error err⟩
  | _ => False

/-- The sink does not send `AddPeer` to a task. -/
def Addressed (task : Task M) : Prop := ∀ info, .addPeer info ∉ task.inbox

variable {task : Task M}

theorem receive_spec (keepAlive : M) (task : Task M) (inbox : List (PeerManagerInputMessage M))
    {result : Except MergedError (UnifiedItem M)} (h : ∀ info, result ≠ .ok (.manager (.addPeer info))) :
    ({ task with inbox }.receive keepAlive result).info = task.info ∧
      ({ task with inbox }.receive keepAlive result).inbox = inbox ∧
      ({ task with inbox }.receive keepAlive result).running = true := by
  obtain ⟨handling, hhandling⟩ : ∃ handling, handleStreamResult keepAlive task.info result = .ok handling := by
    rcases result with (_ | err | _) | (message | (info | info | ⟨info, mid, message⟩))
    case ok.manager.addPeer => exact absurd rfl (h info)
    all_goals exact ⟨_, rfl⟩
  rw [receive, hhandling]
  exact ⟨rfl, rfl, rfl⟩

/-- What a step does: the task goes on, or it ends and sends nothing. -/
theorem step_spec (keepAlive : M) (haddressed : task.Addressed) (connected : Bool) (event : TaskEvent M) :
    (task.step keepAlive connected event).1.info = task.info ∧
      (task.step keepAlive connected event).1.inbox ⊆ task.inbox ∧
      ((¬ task.EndedBy event ∧ (task.step keepAlive connected event).1.running = task.running) ∨
        task.EndedBy event ∧ (task.step keepAlive connected event).1.running = false ∧
          (task.step keepAlive connected event).2 = none) := by
  have hreceive : ∀ {inbox : List (PeerManagerInputMessage M)} (result : Except MergedError (UnifiedItem M)),
      task.phase = .waiting → inbox ⊆ task.inbox → (∀ info, result ≠ .ok (.manager (.addPeer info))) →
      ({ task with inbox }.receive keepAlive result).info = task.info ∧
        ({ task with inbox }.receive keepAlive result).inbox ⊆ task.inbox ∧
        ({ task with inbox }.receive keepAlive result).running = task.running := by
    intro inbox result hphase hsub hresult
    obtain ⟨hinfo, hinbox, hrunning⟩ := receive_spec keepAlive task inbox hresult
    exact ⟨hinfo, by rwa [hinbox], by rw [hrunning, running, hphase]⟩
  unfold step
  split
  next item hphase =>
    obtain ⟨hinfo, hinbox, hrunning⟩ := hreceive (persistentStream item) hphase (List.Subset.refl _)
      fun info hresult => by rcases item with _ | _ | _ <;> cases hresult
    exact ⟨hinfo, hinbox, .inl ⟨id, hrunning⟩⟩
  next late hphase =>
    split
    next message inbox hinbox =>
      have hsub : inbox ⊆ task.inbox := hinbox ▸ subset_cons_self message inbox
      obtain ⟨hinfo, hinbox, hrunning⟩ := hreceive (.ok (.manager message)) hphase hsub fun info hresult => by
        cases hresult
        exact haddressed info (by rw [hinbox]; exact mem_cons_self)
      exact ⟨hinfo, hinbox, .inl ⟨id, hrunning⟩⟩
    next =>
      split_ifs
      · obtain ⟨hinfo, hinbox, hrunning⟩ := hreceive (.error .timeout) hphase (List.Subset.refl _) nofun
        exact ⟨hinfo, hinbox, .inl ⟨id, hrunning⟩⟩
      · exact ⟨rfl, List.Subset.refl _, .inl ⟨id, rfl⟩⟩
      · obtain ⟨hinfo, hinbox, hrunning⟩ := hreceive (.error .disconnect) hphase (List.Subset.refl _) nofun
        exact ⟨hinfo, hinbox, .inl ⟨id, hrunning⟩⟩
  next message toManager result sent hphase =>
    cases sent with
    | true => exact ⟨rfl, List.Subset.refl _, .inl ⟨id, by rw [running, running, hphase]; rfl⟩⟩
    | false => exact ⟨rfl, List.Subset.refl _, .inr ⟨⟨_, _, _, hphase⟩, rfl, rfl⟩⟩
  next item result hphase =>
    exact ⟨rfl, List.Subset.refl _, .inl ⟨id, by rw [running, running, hphase]⟩⟩
  next hphase =>
    refine ⟨rfl, List.Subset.refl _, .inl ⟨?_, by rw [running, running, hphase]⟩⟩
    rintro ⟨err, herr⟩
    rw [hphase] at herr
    cases herr
  next err hphase => exact ⟨rfl, List.Subset.refl _, .inr ⟨⟨err, hphase⟩, rfl, rfl⟩⟩
  next event _ _ _ _ hsend _ _ hfinish =>
    refine ⟨rfl, List.Subset.refl _, .inl ⟨fun hended => ?_, rfl⟩⟩
    cases event with
    | peerSend sent =>
      cases sent with
      | true => exact hended
      | false =>
        obtain ⟨message, toManager, result, hphase⟩ := hended
        exact hsend message toManager result false hphase rfl
    | finish =>
      obtain ⟨err, hphase⟩ := hended
      exact hfinish err hphase rfl
    | _ => exact hended

end Task

end

namespace PeerManager

variable {M : Type}

/-- An announcement for the peer is on its way to the stream, or held pending by it. -/
def Announced (s : PeerManager M) (key : PeerKey) : Prop :=
  ∃ item ∈ s.stream.optPending.toList ++ s.stream.recv.queue, announces key item = true

/-- Every peer in the map has a running task, or an announcement on its way that takes it out of the map. -/
def NoZombies (s : PeerManager M) : Prop :=
  ∀ key id, s.stream.peers.lookup key = some id →
    (∃ task, s.tasks[id]? = some task ∧ task.running = true) ∨ s.Announced key

/-- The event leaves a peer in the map without a task and without an announcement. It ends the task of a peer
in the map, or puts a peer into the map whose task has ended, and none is on its way, or it takes the only one
out of the channel while the lock is held, and the task has ended. -/
def Abandons (s : PeerManager M) : ManagerEvent M → Prop
  | .task id event => ∃ task, s.tasks[id]? = some task ∧ s.stream.peers.lookup task.info.key = some id ∧
    task.EndedBy event ∧ ¬ s.Announced task.info.key
  | .proceed => ∃ info id task, s.lock = some (.inserting info id) ∧ s.tasks[id]? = some task ∧
    task.running = false ∧ ¬ s.Announced info.key
  | .poll => ∃ message queue info id task, s.lock.isSome = true ∧ s.stream.recv.queue = message :: queue ∧
    removedPeer message = some info ∧ s.stream.peers.lookup info.key = some id ∧ s.tasks[id]? = some task ∧
    task.running = false ∧ ∀ item ∈ queue, announces info.key item = false
  | _ => False

/-- Holds in every reachable state. -/
structure Inv (s : PeerManager M) : Prop where
  pending : s.stream.optPending = none
  listed : ∀ {key id}, s.stream.peers.lookup key = some id → ∃ task, s.tasks[id]? = some task ∧ task.info.key = key
  inserting : ∀ {info id}, s.lock = some (.inserting info id) →
    ∃ task, s.tasks[id]? = some task ∧ task.info.key = info.key
  addressed : ∀ {id : Nat} {task : Task M}, s.tasks[id]? = some task → task.Addressed

variable {s s' : PeerManager M} {id : Nat} {task task' : Task M}

theorem getElem?_set_of_some (hid : s.tasks[id]? = some task) (task' : Task M) (j : Nat) :
    (s.tasks.set id task')[j]? = if j = id then some task' else s.tasks[j]? := by
  rw [getElem?_set]
  by_cases hj : j = id
  · subst hj
    rw [if_pos rfl, if_pos rfl, if_pos (getElem?_eq_some_iff.mp hid).1]
  · rw [if_neg (Ne.symm hj), if_neg hj]

/-- A task is replaced by what it has become, and an item is sent. -/
theorem Inv.set_task (h : s.Inv) (hid : s.tasks[id]? = some task) (hinfo : task'.info = task.info)
    (haddressed : task'.Addressed) (sent : Option (ManagerOutput M)) :
    ({ s with tasks := s.tasks.set id task' }.push sent).Inv := by
  have hget := getElem?_set_of_some hid task'
  have hkeep : ∀ {j : Nat} {t}, s.tasks[j]? = some t →
      ∃ t', (s.tasks.set id task')[j]? = some t' ∧ t'.info = t.info := by
    intro j t ht
    rw [hget]
    by_cases hj : j = id
    · subst hj
      cases hid.symm.trans ht
      exact ⟨task', if_pos rfl, hinfo⟩
    · exact ⟨t, (if_neg hj).trans ht, rfl⟩
  have hplaced : ∀ {j : Nat} {key}, (∃ t, s.tasks[j]? = some t ∧ t.info.key = key) →
      ∃ t, (s.tasks.set id task')[j]? = some t ∧ t.info.key = key := by
    rintro j key ⟨t, ht, rfl⟩
    obtain ⟨t', ht', hsame⟩ := hkeep ht
    exact ⟨t', ht', congrArg PeerInfo.key hsame⟩
  have haddr : ∀ {j : Nat} {t}, (s.tasks.set id task')[j]? = some t → t.Addressed := by
    intro j t ht
    rw [hget] at ht
    split_ifs at ht
    · exact Option.some.inj ht ▸ haddressed
    · exact h.addressed ht
  cases sent <;> exact ⟨h.pending, fun hkey => hplaced (h.listed hkey), fun hlock => hplaced (h.inserting hlock), haddr⟩

theorem Announced.push {key : PeerKey} (h : s.Announced key) (sent : Option (ManagerOutput M)) :
    (s.push sent).Announced key := by
  obtain ⟨item, hitem, hannounces⟩ := h
  refine ⟨item, ?_, hannounces⟩
  cases sent with
  | none => exact hitem
  | some sent =>
    rcases mem_append.mp hitem with hmem | hmem
    · exact mem_append_left _ hmem
    · exact mem_append_right _ (mem_append_left _ hmem)

/-- A task is replaced. The other peers have what they had. -/
theorem noZombies_set_iff (h : s.Inv) (hs : s.NoZombies) (hid : s.tasks[id]? = some task)
    (sent : Option (ManagerOutput M)) : ({ s with tasks := s.tasks.set id task' }.push sent).NoZombies ↔
      (s.stream.peers.lookup task.info.key = some id → task'.running = true ∨
        ({ s with tasks := s.tasks.set id task' }.push sent).Announced task.info.key) := by
  have hpeers : ({ s with tasks := s.tasks.set id task' }.push sent).stream.peers = s.stream.peers := by
    cases sent <;> rfl
  have htasks : ({ s with tasks := s.tasks.set id task' }.push sent).tasks = s.tasks.set id task' := by
    cases sent <;> rfl
  unfold NoZombies
  rw [hpeers, htasks]
  simp only [getElem?_set_of_some hid]
  constructor
  · intro hall hkey
    obtain ⟨t, ht, hrunning⟩ | hannounced := hall _ id hkey
    · rw [if_pos rfl] at ht
      exact .inl (Option.some.inj ht ▸ hrunning)
    · exact .inr hannounced
  · intro hself key j hkey
    by_cases hj : j = id
    · subst hj
      obtain ⟨t, ht, rfl⟩ := h.listed hkey
      cases hid.symm.trans ht
      exact (hself hkey).imp_left fun hrunning => ⟨task', if_pos rfl, hrunning⟩
    · rw [if_neg hj]
      exact (hs key j hkey).imp_right fun hannounced =>
        Announced.push (s := { s with tasks := s.tasks.set id task' }) hannounced sent

theorem noZombies_set (h : s.Inv) (hs : s.NoZombies) (hid : s.tasks[id]? = some task)
    (hrunning : task'.running = task.running) (sent : Option (ManagerOutput M)) :
    ({ s with tasks := s.tasks.set id task' }.push sent).NoZombies := by
  refine (noZombies_set_iff h hs hid sent).mpr fun hkey => ?_
  rcases hs _ id hkey with ⟨t, ht, ht'⟩ | hannounced
  · cases hid.symm.trans ht
    exact .inl (hrunning.trans ht')
  · exact .inr (Announced.push (s := { s with tasks := s.tasks.set id task' }) hannounced sent)

theorem step_task (keepAlive : M) (h : s.Inv) (event : TaskEvent M) :
    (s.step keepAlive (.task id event)).Inv ∧ (s.NoZombies →
      ((s.step keepAlive (.task id event)).NoZombies ↔ ¬ s.Abandons (.task id event))) := by
  rw [step]
  cases hid : s.tasks[id]? with
  | none =>
    refine ⟨h, fun hs => iff_of_true hs ?_⟩
    rintro ⟨task, htask, -⟩
    cases hid.symm.trans htask
  | some task =>
    obtain ⟨hinfo, hinbox, hcases⟩ :=
      Task.step_spec keepAlive (h.addressed hid) (s.connected id task) event
    simp only
    generalize task.step keepAlive (s.connected id task) event = result at hinfo hinbox hcases ⊢
    obtain ⟨task', sent⟩ := result
    refine ⟨h.set_task hid hinfo (fun info hmem => h.addressed hid info (hinbox hmem)) sent, fun hs => ?_⟩
    rcases hcases with ⟨hgoes, hrunning⟩ | ⟨hended, hstopped, hsent⟩
    · refine iff_of_true (noZombies_set h hs hid hrunning sent) ?_
      rintro ⟨t, ht, -, hended, -⟩
      cases hid.symm.trans ht
      exact hgoes hended
    · obtain rfl : sent = none := hsent
      rw [noZombies_set_iff h hs hid]
      constructor
      · rintro hself ⟨t, ht, hkey, -, hnone⟩
        cases hid.symm.trans ht
        rcases hself hkey with hrunning | hannounced
        · cases hstopped.symm.trans hrunning
        · exact hnone hannounced
      · exact fun hnot hkey => .inr (not_not.mp fun hnone => hnot ⟨task, hid, hkey, hended, hnone⟩)

theorem inv_lock (h : s.Inv) {lock : Option (SinkCall M)} (hlock : ∀ info id, lock ≠ some (.inserting info id)) :
    Inv { s with lock } :=
  ⟨h.pending, h.listed, fun {info id} hid => absurd hid (hlock info id), h.addressed⟩

theorem step_sendTo (h : s.Inv) {info : PeerInfo} {message : PeerManagerInputMessage M}
    (hmessage : ∀ info, message ≠ .addPeer info) :
    (s.sendTo info message).Inv ∧ (s.NoZombies → (s.sendTo info message).NoZombies) := by
  unfold sendTo
  split
  · exact ⟨inv_lock h (by rintro _ _ ⟨⟩), id⟩
  · rename_i id hlookup
    obtain ⟨task, htask, hkey⟩ := h.listed hlookup
    rw [htask]
    simp only
    split
    · rename_i inbox hsend
      have haddressed : { task with inbox }.Addressed := by
        intro info hmem
        unfold startSend at hsend
        split_ifs at hsend
        cases hsend
        rcases mem_append.mp hmem with hmem | hmem
        · exact h.addressed htask info hmem
        · exact hmessage info (mem_singleton.mp hmem).symm
      have hset : ({ s with tasks := s.tasks.set id { task with inbox } }.push none).Inv :=
        h.set_task htask (by rfl) haddressed none
      refine ⟨⟨hset.pending, hset.listed, by rintro _ _ ⟨⟩, hset.addressed⟩, fun hs => ?_⟩
      exact show ({ s with tasks := s.tasks.set id { task with inbox } }.push none).NoZombies from
        noZombies_set h hs htask (by rfl) none
    · exact ⟨inv_lock h (by rintro _ _ ⟨⟩), fun hs => hs⟩

theorem step_addPeer (h : s.Inv) (info : PeerInfo) :
    (s.addPeer info).Inv ∧ (s.NoZombies → (s.addPeer info).NoZombies) := by
  have hold : ∀ {j : Nat} {t}, s.tasks[j]? = some t → (s.tasks ++ [.new info])[j]? = some t := fun ht =>
    (getElem?_append_left (getElem?_eq_some_iff.mp ht).1).trans ht
  unfold addPeer
  split
  · exact ⟨inv_lock h (by rintro _ _ ⟨⟩), id⟩
  split
  · exact ⟨inv_lock h (by rintro _ _ ⟨⟩), id⟩
  refine ⟨⟨h.pending, fun {key id} hkey => ?_, fun {info' id} hid => ?_, fun {j t} ht => ?_⟩, fun hs key id hkey => ?_⟩
  · obtain ⟨t, ht, hinfo⟩ := h.listed hkey
    exact ⟨t, hold ht, hinfo⟩
  · cases hid
    exact ⟨_, getElem?_concat_length, rfl⟩
  · rcases mem_append.mp (mem_of_getElem? ht) with hmem | hmem
    · obtain ⟨i, hi⟩ := mem_iff_getElem?.mp hmem
      exact h.addressed hi
    · rw [mem_singleton.mp hmem]
      exact fun _ => not_mem_nil
  · rcases hs key id hkey with ⟨t, ht, hrunning⟩ | hannounced
    · exact .inl ⟨t, hold ht, hrunning⟩
    · exact .inr hannounced

theorem step_proceed (keepAlive : M) (h : s.Inv) : (s.step keepAlive .proceed).Inv ∧
    (s.NoZombies → ((s.step keepAlive .proceed).NoZombies ↔ ¬ s.Abandons .proceed)) := by
  have hcalm : ∀ {s' : PeerManager M}, (∀ info id, s.lock ≠ some (.inserting info id)) →
      s'.Inv ∧ (s.NoZombies → s'.NoZombies) →
      s'.Inv ∧ (s.NoZombies → (s'.NoZombies ↔ ¬ s.Abandons .proceed)) := by
    rintro s' hlock ⟨hinv, hzombies⟩
    refine ⟨hinv, fun hs => iff_of_true (hzombies hs) ?_⟩
    rintro ⟨info, id, task, hid, -⟩
    exact hlock info id hid
  rw [step]
  rcases hlock : s.lock with _ | ((info | info | ⟨info, mid, message⟩) | ⟨info, id⟩ | result)
  · exact hcalm (by rw [hlock]; rintro _ _ ⟨⟩) ⟨h, id⟩
  · exact hcalm (by rw [hlock]; rintro _ _ ⟨⟩) (step_addPeer h info)
  · exact hcalm (by rw [hlock]; rintro _ _ ⟨⟩) (step_sendTo h (by rintro _ ⟨⟩))
  · exact hcalm (by rw [hlock]; rintro _ _ ⟨⟩) (step_sendTo h (by rintro _ ⟨⟩))
  · obtain ⟨task, htask, hinfo⟩ := h.inserting hlock
    have hinsert : ∀ key, (s.stream.peers.insert info.key id).lookup key =
        if key = info.key then some id else s.stream.peers.lookup key := fun key => HashMap.lookup_insert_eq
    refine ⟨⟨h.pending, fun {key j} hj => ?_, by rintro _ _ ⟨⟩, h.addressed⟩, fun hs => ⟨?_, fun hnot key j hj => ?_⟩⟩
    · replace hj := (hinsert key).symm.trans hj
      split_ifs at hj with hkey
      · cases hj
        exact ⟨task, htask, hinfo.trans hkey.symm⟩
      · exact h.listed hj
    · rintro hzombies ⟨info', id', t, hid', ht, hstopped, hnone⟩
      cases hlock.symm.trans hid'
      rcases hzombies info.key id ((hinsert _).trans (if_pos rfl)) with ⟨t', ht', hrunning⟩ | hannounced
      · cases ht.symm.trans ht'
        cases hstopped.symm.trans hrunning
      · exact hnone hannounced
    · replace hj := (hinsert key).symm.trans hj
      split_ifs at hj with hkey
      · cases hj
        by_cases hrunning : task.running = true
        · exact .inl ⟨task, htask, hrunning⟩
        · refine .inr (not_not.mp fun hnone => hnot ⟨info, id, task, hlock, htask, ?_, hkey ▸ hnone⟩)
          exact Bool.eq_false_iff.mpr hrunning
      · exact hs key j hj
  · exact hcalm (by rw [hlock]; rintro _ _ ⟨⟩) ⟨inv_lock h (by rintro _ _ ⟨⟩), id⟩

/-- The stream takes an item. The peers that it does not announce have what they had. -/
theorem noZombies_taken_iff {message : ManagerOutput M} {queue : List (ManagerOutput M)}
    {peers : HashMap PeerKey Nat} (hpending : s.stream.optPending = none) (hs : s.NoZombies)
    (hqueue : s.stream.recv.queue = message :: queue)
    (hpeers : ∀ {key id}, peers.lookup key = some id → s.stream.peers.lookup key = some id) :
    NoZombies { s with stream := { s.stream with recv.queue := queue, peers } } ↔
      ∀ key id, peers.lookup key = some id → announces key message = true →
        (∃ task, s.tasks[id]? = some task ∧ task.running = true) ∨ ∃ item ∈ queue, announces key item = true := by
  have hannounced : ∀ key, Announced { s with stream := { s.stream with recv.queue := queue, peers } } key ↔
      ∃ item ∈ queue, announces key item = true := by
    intro key
    rw [Announced, show ({ s.stream with recv.queue := queue, peers } : PeerManagerStream Nat M).optPending = none
      from hpending]
    rfl
  refine ⟨fun hall key id hkey _ => (hall key id hkey).imp_right (hannounced key).mp, fun hall key id hkey => ?_⟩
  refine Or.imp_right (hannounced key).mpr ?_
  by_cases hmessage : announces key message = true
  · exact hall key id hkey hmessage
  · refine (hs key id (hpeers hkey)).imp_right fun ⟨item, hitem, hannounces⟩ => ⟨item, ?_, hannounces⟩
    rw [hpending, hqueue] at hitem
    refine (mem_cons.mp hitem).resolve_left fun heq => ?_
    exact hmessage (heq ▸ hannounces)

/-- A peer that is announced is not in the map any more, and the others are as before. -/
theorem handle_of_removed (s : PeerManagerStream Nat M) {message : ManagerOutput M} {info : PeerInfo}
    (hremoved : removedPeer message = some info) : ∃ peers : HashMap PeerKey Nat,
      (handle s false message).2 = { s with peers } ∧
      (∀ {key id}, peers.lookup key = some id → s.peers.lookup key = some id) ∧
      ∀ id, peers.lookup info.key ≠ some id := by
  cases hkey : s.peers.lookup info.key with
  | none =>
    refine ⟨s.peers, ?_, id, fun id hid => by cases hkey.symm.trans hid⟩
    have hremove : ∀ missing, (remove s false info missing).2 = s := fun missing => by
      rw [remove, hkey]
      rfl
    rcases message with (_ | _ | _ | ⟨info', err⟩) | (_ | info' | _ | _ | info') <;> cases hremoved
    all_goals exact hremove _
  | some id =>
    rw [handle_of_free hremoved hkey]
    refine ⟨_, rfl, fun {key id} hid => ?_, fun id hid => ?_⟩
    all_goals rw [HashMap.lookup_erase_eq] at hid
    · split_ifs at hid
      exact hid
    · rw [if_pos rfl] at hid
      cases hid

theorem step_poll (keepAlive : M) (h : s.Inv) : (s.step keepAlive .poll).Inv ∧
    (s.NoZombies → ((s.step keepAlive .poll).NoZombies ↔ ¬ s.Abandons .poll)) := by
  rw [step]
  cases hqueue : s.stream.recv.queue with
  | nil =>
    rw [pollNext_nil h.pending hqueue]
    refine ⟨⟨h.pending, h.listed, h.inserting, h.addressed⟩, fun hs => iff_of_true hs ?_⟩
    rintro ⟨message, queue, info, id, task, -, hcons, -⟩
    cases hqueue.symm.trans hcons
  | cons message queue =>
    rw [pollNext_cons h.pending hqueue]
    have htaken : ∀ {peers : HashMap PeerKey Nat},
        (∀ {key id}, peers.lookup key = some id → s.stream.peers.lookup key = some id) →
        Inv { s with stream := { s.stream with recv.queue := queue, peers } } := fun hpeers =>
      ⟨h.pending, fun hkey => h.listed (hpeers hkey), h.inserting, h.addressed⟩
    cases hremoved : removedPeer message with
    | none =>
      rw [handle_of_none hremoved]
      refine ⟨htaken id, fun hs => iff_of_true ((noZombies_taken_iff h.pending hs hqueue id).mpr ?_) ?_⟩
      · intro key id _ hannounces
        rw [announces_of_none hremoved] at hannounces
        cases hannounces
      · rintro ⟨message', queue', info, id, task, -, hcons, hremoved', -⟩
        cases hqueue.symm.trans hcons
        cases hremoved.symm.trans hremoved'
    | some info =>
      have hself : ∀ {key}, announces key message = true ↔ info.key = key := fun {key} => by
        rw [announces_of_some hremoved, decide_eq_true_iff]
      cases hlock : s.lock.isSome with
      | true =>
        rw [handle_of_locked hremoved]
        refine ⟨htaken id, fun hs => (noZombies_taken_iff h.pending hs hqueue id).trans ⟨?_, ?_⟩⟩
        · rintro hall ⟨message', queue', info', id, task, -, hcons, hremoved', hkey, htask, hstopped, hnone⟩
          cases hqueue.symm.trans hcons
          cases hremoved.symm.trans hremoved'
          rcases hall info.key id hkey (hself.mpr rfl) with ⟨t, ht, hrunning⟩ | ⟨item, hitem, hannounces⟩
          · cases htask.symm.trans ht
            cases hstopped.symm.trans hrunning
          · cases (hnone item hitem).symm.trans hannounces
        · intro hnot key id hkey hannounces
          obtain rfl := hself.mp hannounces
          obtain ⟨task, htask, -⟩ := h.listed hkey
          by_contra hneither
          rw [not_or, not_exists, not_exists] at hneither
          refine hnot ⟨message, queue, info, id, task, hlock, hqueue, hremoved, hkey, htask, ?_, fun item hitem => ?_⟩
          · exact Bool.eq_false_iff.mpr fun hrunning => hneither.1 task ⟨htask, hrunning⟩
          · exact Bool.eq_false_iff.mpr fun hitem' => hneither.2 item ⟨hitem, hitem'⟩
      | false =>
        obtain ⟨peers, hhandle, hpeers, hgone⟩ :=
          handle_of_removed { s.stream with recv.queue := queue } hremoved
        rw [hhandle]
        refine ⟨htaken hpeers, fun hs => iff_of_true ((noZombies_taken_iff h.pending hs hqueue hpeers).mpr ?_) ?_⟩
        · intro key id hkey hannounces
          exact absurd (hself.mp hannounces ▸ hkey) (hgone id)
        · rintro ⟨_, _, _, _, _, hheld, -⟩
          cases hlock.symm.trans hheld

theorem step_polls (h : s.Inv) (senders : List Nat)
    (poll : Nat → List (Task M) → Poll (Except PeerManagerError Unit)) :
    (s.polls senders poll).Inv ∧ (s.NoZombies → (s.polls senders poll).NoZombies) := by
  unfold polls
  split
  · exact ⟨inv_lock h (by rintro _ _ ⟨⟩), id⟩
  · exact ⟨h, id⟩

theorem inv_step (keepAlive : M) (h : s.Inv) (event : ManagerEvent M) : (s.step keepAlive event).Inv ∧
    (s.NoZombies → ((s.step keepAlive event).NoZombies ↔ ¬ s.Abandons event)) := by
  cases event with
  | call message =>
    rw [step]
    cases hlock : s.lock with
    | some call => exact ⟨h, fun hs => iff_of_true hs id⟩
    | none => exact ⟨inv_lock h (by rintro _ _ ⟨⟩), fun hs => iff_of_true hs id⟩
  | pollReady senders =>
    obtain ⟨hinv, hzombies⟩ := step_polls h senders pollReady
    exact ⟨hinv, fun hs => iff_of_true (hzombies hs) id⟩
  | pollFlush senders =>
    obtain ⟨hinv, hzombies⟩ := step_polls h senders pollFlush
    exact ⟨hinv, fun hs => iff_of_true (hzombies hs) id⟩
  | proceed => exact step_proceed keepAlive h
  | task id event => exact step_task keepAlive h event
  | poll => exact step_poll keepAlive h

theorem run_concat (s : PeerManager M) (keepAlive : M) (events : List (ManagerEvent M)) (event : ManagerEvent M) :
    s.run keepAlive (events ++ [event]) = (s.run keepAlive events).step keepAlive event :=
  foldl_append

theorem inv_run (keepAlive : M) (h : s.Inv) (events : List (ManagerEvent M)) : (s.run keepAlive events).Inv := by
  induction events using reverseRecOn with
  | nil => exact h
  | append_singleton events event ih =>
    rw [run_concat]
    exact (inv_step keepAlive ih event).1

end PeerManager

end BitTorrent.Peer
