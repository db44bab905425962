import BitTorrent.DiskResume

/-! What the task of a request sends. Verdicts about pieces may be sent at any time; the response comes
last, and it is the only message that is not a verdict. A task that panics sends no response. -/

namespace BitTorrent.Disk

open Rust IDiskMessage List

namespace ODiskMessage

variable {ε : Type}

def isNotification : ODiskMessage ε → Bool
  | .foundGoodPiece _ _ | .foundBadPiece _ _ => true
  | _ => false

/-- The messages that the stream gives a place in the sink back for. -/
def completesWork : ODiskMessage ε → Bool
  | .torrentAdded _ | .torrentRemoved _ | .torrentSynced _ | .blockLoaded _ | .blockProcessed _ => true
  | _ => false

def isError : ODiskMessage ε → Bool
  | .torrentError _ _ | .loadBlockError _ _ | .processBlockError _ _ => true
  | _ => false

/-- The response to a request, a success or an error. -/
def isResponse (message : ODiskMessage ε) : Bool := message.completesWork || message.isError

theorem isResponse_of_isNotification {message : ODiskMessage ε} (h : message.isNotification) :
    message.isResponse = false := by
  cases message <;> first | rfl | cases h

end ODiskMessage

/-- The response is one to the request. -/
def IDiskMessage.answeredBy {ε : Type} : IDiskMessage → ODiskMessage ε → Bool
  | .addTorrent metainfo, .torrentAdded hash => hash = metainfo.info.infoHash
  | .addTorrent metainfo, .torrentError hash _ => hash = metainfo.info.infoHash
  | .removeTorrent hash, .torrentRemoved hash' => hash' = hash
  | .removeTorrent hash, .torrentError hash' _ => hash' = hash
  | .syncTorrent hash, .torrentSynced hash' => hash' = hash
  | .syncTorrent hash, .torrentError hash' _ => hash' = hash
  | .loadBlock block, .blockLoaded block' => block'.metadata = block.metadata
  | .loadBlock block, .loadBlockError block' _ => block'.metadata = block.metadata
  | .processBlock block, .blockProcessed block' => block' = block
  | .processBlock block, .processBlockError block' _ => block' = block
  | _, _ => false

/-- Verdicts, and at the end the response to the request or nothing. -/
def IsScript {ε : Type} (msg : IDiskMessage) : List (ODiskMessage ε) → Prop
  | [] => True
  | message :: script =>
    message.isNotification ∧ IsScript msg script ∨ script = [] ∧ msg.answeredBy message

section

variable {ε : Type} {msg : IDiskMessage} {notes script : List (ODiskMessage ε)}
  {message : ODiskMessage ε}

instance IsScript.decidable (msg : IDiskMessage) :
    (script : List (ODiskMessage ε)) → Decidable (IsScript msg script)
  | [] => inferInstanceAs (Decidable True)
  | _ :: script =>
    have := IsScript.decidable msg script
    have : Decidable (script = []) := decidable_of_iff (script.isEmpty) List.isEmpty_iff
    inferInstanceAs (Decidable (_ ∧ _ ∨ _ ∧ _))

theorem isScript_append (hnotes : ∀ message ∈ notes, message.isNotification)
    (h : IsScript msg script) : IsScript msg (notes ++ script) := by
  induction notes with
  | nil => exact h
  | cons message notes ih =>
    obtain ⟨hmessage, hnotes⟩ := forall_mem_cons.mp hnotes
    exact .inl ⟨hmessage, ih hnotes⟩

theorem isScript_of_notifications (hnotes : ∀ message ∈ notes, message.isNotification) :
    IsScript msg notes := by
  have h : IsScript msg (notes ++ []) := isScript_append hnotes trivial
  rwa [append_nil] at h

theorem isScript_of_answer (hnotes : ∀ message ∈ notes, message.isNotification)
    (hanswer : msg.answeredBy message) : IsScript msg (notes ++ [message]) :=
  isScript_append hnotes (.inr ⟨rfl, hanswer⟩)

theorem IsScript.countP_le (h : IsScript msg script) : script.countP (·.isResponse) ≤ 1 := by
  induction script with
  | nil => exact Nat.zero_le 1
  | cons message script ih =>
    rw [countP_cons]
    rcases h with ⟨hmessage, hscript⟩ | ⟨rfl, -⟩
    · rw [ODiskMessage.isResponse_of_isNotification hmessage]
      exact ih hscript
    · split <;> simp

end

/-! ### The tasks keep to a script -/

section

variable {σ ε ε' α β : Type}

/-- The call sends verdicts only. -/
def Notifies (x : Io (DiskManagerContext σ ε) ε' α) : Prop :=
  ∀ c, ∃ notes, (x.run c).2.out = c.out ++ notes ∧ ∀ message ∈ notes, message.isNotification

variable {x : Io (DiskManagerContext σ ε) ε' α}

theorem notifies_of_out_eq (h : ∀ c, (x.run c).2.out = c.out) : Notifies x := fun c =>
  ⟨[], by rw [h, append_nil], nofun⟩

theorem Notifies.bind
    {f : α → Io (DiskManagerContext σ ε) ε' β} (hx : Notifies x) (hf : ∀ a, Notifies (f a)) :
    Notifies (x >>= f) := by
  intro c
  obtain ⟨notes, hout, hnotes⟩ := hx c
  rcases hrun : x.run c with ⟨e | a, c'⟩
  · rw [hrun] at hout
    rw [Io.run_bind_of_error hrun]
    exact ⟨notes, hout, hnotes⟩
  · rw [hrun] at hout
    rw [Io.run_bind_of_ok hrun]
    obtain ⟨notes', hout', hnotes'⟩ := hf a c'
    refine ⟨notes ++ notes', ?_, ?_⟩
    · rw [hout', hout, append_assoc]
    · intro message hmessage
      exact (mem_append.mp hmessage).elim (hnotes message) (hnotes' message)

theorem notifies_get_bind {f : DiskManagerContext σ ε → Io (DiskManagerContext σ ε) ε' β}
    (h : ∀ c, ∃ notes, ((f c).run c).2.out = c.out ++ notes ∧ ∀ message ∈ notes,
      message.isNotification) : Notifies (Io.get >>= f) := h

theorem Notifies.result {ε'' : Type} (hx : Notifies x) :
    Notifies (Io.result x : Io _ ε'' (Except ε' α)) := hx

theorem notifies_ofRun (r : Run ε' α) :
    Notifies (Io.ofRun r : Io (DiskManagerContext σ ε) ε' α) := notifies_of_out_eq fun _ => rfl

theorem notifies_pure (a : α) : Notifies (pure a : Io (DiskManagerContext σ ε) ε' α) :=
  notifies_of_out_eq fun _ => rfl

theorem notifies_onFiles (x : Io σ ε' α) : Notifies (onFiles x : Io (DiskManagerContext σ ε) ε' α) :=
  notifies_of_out_eq fun _ => rfl

theorem notifies_sendPieceDiff (checker : Nat) (hash : ShaHash) (ignoreBad : Bool) :
    Notifies (sendPieceDiff checker hash ignoreBad : Io (DiskManagerContext σ ε) ε' Unit) := by
  intro c
  rw [sendPieceDiff_run]
  refine ⟨_, rfl, fun message hmessage => ?_⟩
  obtain ⟨pieceState, -, hsent⟩ := mem_filterMap.mp hmessage
  cases pieceState with
  | good index =>
    cases hsent
    rfl
  | bad index =>
    cases ignoreBad with
    | true => cases hsent
    | false =>
      cases hsent
      rfl

end

section

variable {σ File ε : Type} (fs : FileSystem σ File ε) (hash : Bytes → ShaHash)

variable {ε' α : Type}

theorem notifies_updateTorrent (infoHash : ShaHash)
    {withState : MetainfoState → Io (DiskManagerContext σ ε) ε' α}
    (h : ∀ state, Notifies (withState state)) : Notifies (updateTorrent infoHash withState) := by
  refine notifies_get_bind fun c => ?_
  split
  · exact notifies_pure none c
  · rename_i state hstate
    exact (h state).bind (fun a => notifies_pure (some a)) c

theorem notifies_executeAddTorrent (order : Arrangement Nat) (file : Meta.Metainfo) :
    Notifies (executeAddTorrent fs hash order file) := by
  refine (notifies_onFiles _).bind fun s => notifies_get_bind fun c => ?_
  refine Notifies.bind (notifies_of_out_eq fun _ => rfl) (fun _ => ?_) c
  refine (notifies_sendPieceDiff _ _ _).bind fun _ => notifies_get_bind fun c => ?_
  simp only [DiskManagerContext.insertTorrent]
  split <;> exact ⟨[], (append_nil _).symm, fun m hm => (by cases hm)⟩

theorem notifies_executeRemoveTorrent (infoHash : ShaHash) :
    Notifies (executeRemoveTorrent infoHash : Io (DiskManagerContext σ ε) (TorrentError ε) Unit) := by
  refine notifies_get_bind fun c => ?_
  refine ⟨[], ?_, nofun⟩
  rw [append_nil]
  cases hlookup : c.torrents.lookup infoHash with
  | none =>
    simp only [DiskManagerContext.removeTorrent, hlookup]
    rfl
  | some state =>
    simp only [DiskManagerContext.removeTorrent, hlookup]
    rfl

theorem notifies_executeSyncTorrent (infoHash : ShaHash) : Notifies (executeSyncTorrent fs infoHash) := by
  refine Notifies.bind (notifies_updateTorrent infoHash fun state => notifies_onFiles _) fun result => ?_
  rcases result with _ | _ | _
  · exact notifies_ofRun _
  · exact notifies_ofRun _
  · exact notifies_pure ()

theorem notifies_executeLoadBlock (block : Block) :
    Notifies (executeLoadBlock fs block : Io (DiskManagerContext σ ε) ε' _) := by
  refine Notifies.bind (notifies_updateTorrent _ fun state => notifies_onFiles _) fun result => ?_
  rcases result with _ | ⟨_ | _, _⟩ <;> exact notifies_pure _

theorem notifies_executeProcessBlock (order : Arrangement Nat) (block : Block) :
    Notifies (executeProcessBlock fs hash order block) := by
  refine Notifies.bind (notifies_updateTorrent _ fun state => ?_) fun result => ?_
  · refine Notifies.bind (Notifies.result ?_) fun result => ?_
    · refine (notifies_onFiles _).bind fun _ => Notifies.bind ?_ fun _ => ?_
      · exact notifies_of_out_eq fun _ => rfl
      · exact notifies_of_out_eq fun _ => rfl
    · exact (notifies_sendPieceDiff _ _ _).bind fun _ => notifies_pure _
  · rcases result with _ | _ | _
    · exact notifies_ofRun _
    · exact notifies_ofRun _
    · exact notifies_pure ()

variable {fs hash} {msg : IDiskMessage} {c : DiskManagerContext σ ε}

theorem exists_script {x : Io (DiskManagerContext σ ε) Empty α}
    {f : α → Io (DiskManagerContext σ ε) Empty Unit} (answer : α → ODiskMessage ε) (hx : Notifies x)
    (hf : ∀ a, f a = Io.modify fun c => c.send (answer a))
    (hanswer : ∀ a c', x.run c = (.ok a, c') → msg.answeredBy (answer a)) :
    ∃ script, ((x >>= f).run c).2.out = c.out ++ script ∧ IsScript msg script := by
  obtain ⟨notes, hout, hnotes⟩ := hx c
  rcases hrun : x.run c with ⟨e | a, c'⟩
  · rw [hrun] at hout
    rw [Io.run_bind_of_error hrun]
    exact ⟨notes, hout, isScript_of_notifications hnotes⟩
  · rw [hrun] at hout
    rw [Io.run_bind_of_ok hrun, hf, Io.run_modify, DiskManagerContext.send]
    refine ⟨notes ++ [answer a], ?_, isScript_of_answer hnotes (hanswer a c' hrun)⟩
    rw [hout, append_assoc]

/-- The response to a request by the result of its task. -/
def respond {ε' : Type} (success : ODiskMessage ε) (failure : ε' → ODiskMessage ε) :
    Except ε' Unit → ODiskMessage ε
  | .ok () => success
  | .error error => failure error

theorem exists_script_of_respond {x : Io (DiskManagerContext σ ε) ε' Unit}
    {f : Except ε' Unit → Io (DiskManagerContext σ ε) Empty Unit} (success : ODiskMessage ε)
    (failure : ε' → ODiskMessage ε) (hx : Notifies x)
    (hf : ∀ result, f result = Io.modify fun c => c.send (respond success failure result))
    (hsuccess : msg.answeredBy success) (hfailure : ∀ error, msg.answeredBy (failure error)) :
    ∃ script, ((Io.result x >>= f).run c).2.out = c.out ++ script ∧ IsScript msg script := by
  refine exists_script (respond success failure) hx.result hf fun result _ _ => ?_
  cases result with
  | ok => exact hsuccess
  | error error => exact hfailure error

/-- The block comes back with the metadata it came with. -/
theorem metadata_executeLoadBlock {block block' : Block} {c' : DiskManagerContext σ ε}
    {result : Except (BlockError ε) Unit}
    (h : (executeLoadBlock fs block : Io _ ε' _).run c = (.ok (result, block'), c')) :
    block'.metadata = block.metadata := by
  obtain ⟨accessResult, c₁, -, hrest⟩ := Io.run_bind_eq_ok h
  rcases accessResult with _ | ⟨_ | _, blockData⟩
  · cases hrest
    rfl
  · cases hrest
    rfl
  · cases hrest
    rfl

variable (fs hash c msg)

theorem execute_isScript (order : Arrangement Nat) :
    ∃ script, ((execute fs hash order msg).run c).2.out = c.out ++ script ∧ IsScript msg script := by
  cases msg with
  | addTorrent metainfo =>
    refine exists_script_of_respond (.torrentAdded metainfo.info.infoHash)
      (.torrentError metainfo.info.infoHash) (notifies_executeAddTorrent fs hash order metainfo)
      (fun result => ?_) ?_ ?_
    · cases result <;> rfl
    · simp [answeredBy]
    · simp [answeredBy]
  | removeTorrent infoHash =>
    refine exists_script_of_respond (.torrentRemoved infoHash) (.torrentError infoHash)
      (notifies_executeRemoveTorrent infoHash) (fun result => ?_) ?_ ?_
    · cases result <;> rfl
    · simp [answeredBy]
    · simp [answeredBy]
  | syncTorrent infoHash =>
    refine exists_script_of_respond (.torrentSynced infoHash) (.torrentError infoHash)
      (notifies_executeSyncTorrent fs infoHash) (fun result => ?_) ?_ ?_
    · cases result <;> rfl
    · simp [answeredBy]
    · simp [answeredBy]
  | loadBlock block =>
    refine exists_script (fun r => respond (.blockLoaded r.2) (.loadBlockError r.2) r.1)
      (notifies_executeLoadBlock fs block) (fun r => ?_) ?_
    · rcases r with ⟨_ | _, block'⟩ <;> rfl
    · rintro ⟨_ | _, block'⟩ c' hrun
      · exact decide_eq_true (metadata_executeLoadBlock hrun)
      · exact decide_eq_true (metadata_executeLoadBlock hrun)
  | processBlock block =>
    refine exists_script_of_respond (.blockProcessed block) (.processBlockError block)
      (notifies_executeProcessBlock fs hash order block) (fun result => ?_) ?_ ?_
    · cases result <;> rfl
    · simp [answeredBy]
    · simp [answeredBy]

end

end BitTorrent.Disk
