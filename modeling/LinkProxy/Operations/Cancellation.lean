import LinkProxy.Operations.Stability

/-!
# Cancelled threads

`remove_member`, `timeout_handler` and `tap_handler` cancel the two threads of a peer that they
remove. A cancellation is deferred: it is noted, and the thread ends at its next cancellation point,
which is `poll` or `write` in the functions of `rio.c`, `connect`, or `pthread_testcancel` at the
end of a pass. There are no cleanup handlers, so a thread that ends in a critical section takes the
lock with it.

`cancelling` adds cancellations to the threads of `Operations.Stability`. The sections of
`eth_handler` and `timeout_handler` have three places at which a thread can end in them: `Quit`
writes to the members in its section, `Link_State` dials in its own, and `remove_member` returns
without `writeEnd` if the peer is not found. In runs in which none of these is reached, no thread
ends in a section (`cancelled_outside`).
-/

namespace LinkProxy.Program

open Bytes Wire Peers Gossip

/-! ## Cancellation -/

/-- Whose thread it is. -/
inductive Role
  | main
  | tap
  | eth (dm : DataModel) (pp : Ptr)
  | timeout (pp : Ptr)
  deriving DecidableEq

/-- The tasks of a thread. -/
def Role.runs : Role → Task → Bool
  | .main, .connect _ _ | .main, .accept | .tap, .tap => true
  | .eth dm p, .eth dm' p' => dm = dm' ∧ p = p'
  | .timeout p, .timeout p' => p = p'
  | _, _ => false

/-- The peer with which a thread is cancelled. -/
def Role.peer : Role → Option Ptr
  | .eth _ p | .timeout p => some p
  | .main | .tap => none

/-- The proxy, the peers that have been deleted by a thread, the cancellations that are pending, and
the threads that have ended. -/
structure Threads (ι : Type) where
  control : Control ι
  unlinked : Ptr → Bool
  pending : ι → Bool
  gone : ι → Bool

/-- A command with a call of `poll` or `write`. -/
def Command.polls : Command → Bool
  | .receive _ | .readTap | .write _ | .writeTap => true
  | _ => false

/-- A command in which a cancelled thread ends. `connectbyaddr` comes to `connect` if `socket` has
returned `0` and `setsockopt` has succeeded. -/
def Command.cancels (reply : (c : Command) → c.Reply) (c : Command) : Bool :=
  match c with
  | .dial addr port =>
    let d : Dial := reply (.dial addr port)
    decide (d.socket = 0) && d.setsockopt
  | c => c.polls

/-- A place at which a cancelled thread ends: such a command, or the end of a pass. -/
def cancellationPoint (reply : (c : Command) → c.Reply) : Proc Unit → Bool
  | .ret () => true
  | .stop _ => false
  | .call c _ => c.cancels reply

/-- What can happen next: a step of the proxy, `pthread_cancel` of a thread by another one, or the
end of a cancelled thread. -/
inductive Act (ι : Type)
  | step (e : Event ι)
  | cancel (i j : ι)
  | terminate (i : ι) (reply : (c : Command) → c.Reply)

section

variable {ι : Type} [DecidableEq ι] (role : ι → Role)

/-- The threads run what they are there for, and the signals are blocked in all but the first one.
-/
def Event.suits : Event ι → Bool
  | .start i task => (role i).runs task
  | .signal i _ => role i = .main
  | _ => true

/-- The thread is about to delete a peer, or has deleted it. -/
def Threads.removes (s : Threads ι) (i : ι) (p : Ptr) : Bool :=
  s.unlinked p || match s.control.prog i with
    | .call (.delete q) _ => q == p
    | _ => false

/-- The peers that have been deleted after an event. -/
def Threads.unlinkedAfter (s : Threads ι) : Event ι → Ptr → Bool
  | .command i _ => match s.control.prog i with
    | .call (.delete p) _ => Function.update s.unlinked p true
    | _ => s.unlinked
  | _ => s.unlinked

/-- The state after an act, if it can happen. -/
def Threads.exec (s : Threads ι) : Act ι → Option (Threads ι)
  | .step e =>
    if (e.thread.all fun i => !s.gone i) && e.suits role then
      (s.control.exec e).map fun c => { s with control := c, unlinked := s.unlinkedAfter e }
    else none
  | .cancel i j =>
    match (role j).peer with
    | none => none
    | some p =>
      if s.removes i p then some { s with pending := Function.update s.pending j true } else none
  | .terminate i reply =>
    if s.pending i && !s.gone i && s.control.free i && atRest (s.control.lock.pc i) &&
        cancellationPoint reply (s.control.prog i) then
      some { s with gone := Function.update s.gone i true }
    else none

/-- **The proxy with cancellations**, with any table at the start. -/
def cancelling : TransitionSystem (Threads ι) (Act ι) where
  init s := (proxy ι).init s.control ∧ (∀ p, s.unlinked p = false) ∧ (∀ i, s.pending i = false) ∧
    ∀ i, s.gone i = false
  step s a t := s.exec role a = some t

end

/-! ## The three places -/

/-- `Quit` behind its `writeBegin`. -/
def quitSection : Proc Unit := do
  let m ← table
  m.order.forM quitMember
  writeEnd
  .stop .exit

/-- `remove_member` behind its `writeBegin`. -/
def removeSection (p : Ptr) : Proc Unit := do
  let m ← table
  match m.find (m.key p) with
  | none => return
  | some _ =>
    deleteIfFound p
    writeEnd

/-- The condition on the acts: `Quit` finds no members in its section, `remove_member` finds the
peer, and `socket` does not return `0` to `connectbyaddr` in a thread that is cancelled. -/
def Benign {ι : Type} (s : Threads ι) : Act ι → Prop
  | .step (.command i _) =>
    (s.control.prog i = quitSection → s.control.members.order = []) ∧
      ∀ p, s.control.prog i = removeSection p →
        (s.control.members.find (s.control.members.key p)).isSome
  | .terminate i reply => ∀ addr port k, s.control.prog i = .call (.dial addr port) k →
      (reply (.dial addr port) : Dial).socket ≠ 0
  | _ => True

/-! ## What a program does at its cancellation points -/

/-- The place is not in a section, or will not be left. -/
def Section.harmless (s : Section) : Prop := s = .outside ∨ s = .blocked

/-- What the condition says about the table that a lookup finds. -/
def Permitted (p : Proc Unit) : (c : Command) → c.Reply → Prop
  | .table, m => (p = quitSection → Members.order m = []) ∧
      ∀ q, p = removeSection q → (Members.find m (Members.key m q)).isSome
  | _, _ => True

/-- Whatever the replies that the condition permits, the program comes to `poll`, `write` and its
end outside of its sections. -/
def CancelSafe : Proc Unit → Section → Prop
  | .ret _, s => s.harmless
  | .stop _, _ => True
  | .call c k, s => (c.polls = true → s.harmless) ∧
      ∀ r, Permitted (.call c k) c r → CancelSafe (k r) (s.next c)

/-- The same of a part of a program, whatever the replies. -/
abbrev Calm {α : Type} (p : Proc α) (Q : α → Section → Prop) (s : Section) : Prop :=
  p.wp (fun s c => c.polls = true → s.harmless) Section.next Q s

section

variable {α β : Type} {p : Proc α} {s : Section}

theorem safe_bind {f : α → Proc Unit} (hp : Calm p (fun a s' => CancelSafe (f a) s') s) :
    CancelSafe (p >>= f) s := by
  induction p generalizing s with
  | ret a => exact hp
  | stop e => trivial
  | call c k ih => exact ⟨hp.1, fun r _ => ih r (hp.2 r)⟩

/-- Nothing happens in a thread that is blocked. -/
theorem calm_blocked (p : Proc α) {Q : α → Section → Prop} (hQ : ∀ a, Q a .blocked) :
    Calm p Q .blocked := by
  induction p with
  | ret a => exact hQ a
  | stop e => trivial
  | call c k ih => exact ⟨fun _ => .inr rfl, ih⟩

theorem safe_blocked (p : Proc Unit) : CancelSafe p .blocked := by
  rw [← bind_pure p]
  exact safe_bind (calm_blocked p fun _ => .inr rfl)

/-- A part that stays inside the section, and what follows it. -/
theorem calm_inside_bind {f : α → Proc β} {Q : β → Section → Prop}
    (hp : Calm p (fun _ => Section.inside) .writing) (hf : ∀ a, Calm (f a) Q .writing)
    (hQ : ∀ b, Q b .blocked) : Calm (p >>= f) Q .writing := by
  apply Prog.wp_bind.2
  apply Prog.wp_mono _ hp
  rintro a s' (rfl | rfl)
  · exact hf a
  · exact calm_blocked _ hQ

/-- A command without `poll` outside of the lock. -/
theorem calm_plain {c : Command} {f : c.Reply → Proc β} {Q : β → Section → Prop}
    (hc : c.plain = true) (hpolls : c.polls = false) (hf : ∀ r, Calm (f r) Q s) :
    Calm (perform c >>= f) Q s := by
  refine Prog.wp_perform_bind.2 ⟨by simp [hpolls], fun r => ?_⟩
  rw [(Section.plain hc s).2]
  exact hf r

end

/-! ## The functions of the proxy -/

/-- A connection made inside a section ends at the lock. -/
theorem connectbyaddr_calm (addr : UInt32) (port : UInt16) :
    Calm (connectbyaddr addr port) (fun _ => Section.inside) .writing := by
  apply calm_plain rfl rfl
  intro d
  split_ifs
  · exact .inl rfl
  · exact .inl rfl
  · exact .inl rfl
  · apply calm_inside_bind
    · apply calm_plain rfl rfl
      intro ls
      split_ifs
      · split
        · trivial
        · exact calm_plain (f := fun _ => pure ()) rfl rfl fun _ => .inl rfl
      · exact .inl rfl
    · intro _
      apply calm_inside_bind
      · apply calm_plain rfl rfl
        intro ls
        exact ⟨nofun, fun _ => calm_blocked _ fun _ => .inr rfl⟩
      · intro ls
        apply calm_inside_bind
        · exact ⟨nofun, fun _ => calm_blocked _ fun _ => .inr rfl⟩
        · intro _
          exact .inl rfl
        · exact fun _ => .inr rfl
      · exact fun _ => .inr rfl
    · exact fun _ => .inr rfl

theorem receiveRecord_calm (dm : DataModel) (d : Buf) (ptr : ℕ) :
    Calm (receiveRecord dm d ptr) (fun _ => Section.inside) .writing := by
  apply calm_plain rfl rfl
  intro ls
  split_ifs
  · exact .inl rfl
  · apply calm_plain rfl rfl
    intro m
    dsimp only
    split
    · apply calm_inside_bind (connectbyaddr_calm _ _)
      · intro pp
        split
        · trivial
        · apply calm_plain rfl rfl
          intro now
          exact calm_plain (f := fun _ => pure ()) rfl rfl fun _ => .inl rfl
      · exact fun _ => .inr rfl
    · exact calm_plain (f := fun _ => pure ()) rfl rfl fun _ => .inl rfl

theorem recordLoop_calm (dm : DataModel) (d : Buf) (n ptr : ℕ) :
    Calm (recordLoop dm d n ptr) (fun _ => Section.inside) .writing := by
  induction n generalizing ptr with
  | zero => exact .inl rfl
  | succ n ih => exact calm_inside_bind (receiveRecord_calm dm d ptr) (fun _ => ih _) fun _ => .inr rfl

theorem receiveSource_calm (source : LinkState) :
    Calm (receiveSource source) (fun _ => Section.inside) .writing := by
  apply calm_plain rfl rfl
  intro m
  split
  · exact calm_inside_bind (connectbyaddr_calm _ _) (fun _ => .inl rfl) fun _ => .inr rfl
  · exact .inl rfl

theorem linkState_calm (dm : DataModel) (d : Buf) (length : UInt16) :
    Calm (linkState dm d length) (fun _ => Section.harmless) .outside := by
  unfold linkState
  dsimp only
  split_ifs
  · exact .inl rfl
  · apply calm_plain rfl rfl
    intro ls
    split_ifs
    · exact .inl rfl
    · refine ⟨nofun, fun _ => ?_⟩
      apply calm_inside_bind (receiveSource_calm _)
      · intro _
        apply calm_inside_bind (recordLoop_calm _ _ _ _)
        · intro _
          exact ⟨nofun, fun _ => .inl rfl⟩
        · exact fun _ => .inr rfl
      · exact fun _ => .inr rfl

/-- `remove_member` leaves its section if it finds the peer. -/
theorem removeMember_safe (p : Ptr) : CancelSafe (removeMember p) .outside := by
  refine ⟨nofun, fun _ _ => ?_⟩
  change CancelSafe (removeSection p) .writing
  refine ⟨nofun, fun m hm => ?_⟩
  obtain ⟨q, hq⟩ := Option.isSome_iff_exists.1 (hm.2 p rfl)
  have hfound : CancelSafe (do deleteIfFound p; writeEnd) .writing := by
    apply safe_bind
    apply calm_plain rfl rfl
    intro m'
    split
    · exact ⟨nofun, fun _ _ => .inl rfl⟩
    · exact ⟨nofun, fun _ => ⟨nofun, fun _ _ => .inl rfl⟩⟩
  change CancelSafe (match Members.find m (Members.key m p) with
    | none => pure ()
    | some _ => do deleteIfFound p; writeEnd) .writing
  rw [hq]
  exact hfound

/-- The end of a pass of `eth_handler`. -/
theorem finish_safe (pp : Ptr) (r : Int) {s : Section} (hs : s.harmless) :
    CancelSafe (if r < 0 then removeMember pp else pure ()) s := by
  rcases hs with rfl | rfl
  · split_ifs
    · exact removeMember_safe pp
    · exact .inl rfl
  · exact safe_blocked _

/-- `Quit` behind its `writeBegin` never comes back to `eth_handler`. -/
theorem quit_bind {length : UInt16} (h : length = quitLen) (f : Int → Proc Unit) :
    quit length >>= f = writeBegin >>= fun _ => quitSection := by
  rw [quit, if_neg (by simpa using h)]
  refine congrArg (Prog.call Command.writeBegin) (funext fun _ => ?_)
  refine congrArg (Prog.call Command.table) (funext fun m => ?_)
  change (m.order.forM quitMember >>= fun _ => writeEnd >>= fun _ => (.stop .exit : Proc Int)) >>= f = _
  rw [Prog.bind_assoc]
  rfl

/-- `Quit` leaves its section if there are no members. -/
theorem quit_safe (length : UInt16) (pp : Ptr) :
    CancelSafe (quit length >>= fun r => if r < 0 then removeMember pp else pure ()) .outside := by
  by_cases h : length = quitLen
  · rw [quit_bind h]
    refine ⟨nofun, fun _ _ => ⟨nofun, fun m hm => ?_⟩⟩
    change CancelSafe ((Members.order m).forM quitMember >>= fun _ => writeEnd >>= fun _ =>
      .stop .exit) .writing
    rw [hm.1 rfl]
    exact ⟨nofun, fun _ _ => trivial⟩
  · rw [quit, if_pos (by simpa using h)]
    exact finish_safe pp (-1) (.inl rfl)

theorem leave_safe (d : Buf) (pp : Ptr) :
    CancelSafe (leave d >>= fun r => if r < 0 then removeMember pp else pure ()) .outside := by
  refine ⟨nofun, fun _ _ => ⟨nofun, fun m _ => ⟨nofun, fun _ _ => ?_⟩⟩⟩
  have htail (found : Option Ptr) : CancelSafe ((match found with
      | none => (pure 0 : Proc Int)
      | some p => do
        removeMember p
        return 0) >>= fun r => if r < 0 then removeMember pp else pure ()) .outside := by
    cases found with
    | none => exact finish_safe pp 0 (.inl rfl)
    | some p =>
      have htail : ((do removeMember p; return 0 : Proc Int) >>= fun r =>
          if r < 0 then removeMember pp else pure ()) = removeMember p := by
        rw [Prog.bind_assoc]
        exact bind_pure _
      rw [htail]
      exact removeMember_safe p
  exact htail _

theorem dispatch_safe (dm : DataModel) (d : Buf) (pp : Ptr) (type : PacketType) (length : UInt16) :
    CancelSafe (dispatch dm d pp type length >>= fun r => if r < 0 then removeMember pp else pure ())
      .outside := by
  cases type with
  | leave => exact leave_safe d pp
  | quit => exact quit_safe length pp
  | linkState =>
    apply safe_bind
    apply Prog.wp_mono _ (linkState_calm dm d length)
    intro r s hs
    exact finish_safe pp r hs
  | data | bandwidthProbeRequest =>
    exact ⟨fun _ => .inl rfl, fun _ _ => finish_safe pp _ (.inl rfl)⟩
  | _ => exact finish_safe pp 0 (.inl rfl)

theorem ethPass_safe (dm : DataModel) (pp : Ptr) : CancelSafe (ethPass dm pp) .outside := by
  refine ⟨fun _ => .inl rfl, fun received _ => ?_⟩
  rcases received with _ | ⟨_ | type, length, payload⟩
  · exact removeMember_safe pp
  · exact removeMember_safe pp
  · exact dispatch_safe dm payload pp type length

theorem timeoutHandler_safe (pp : Ptr) : CancelSafe (timeoutHandler pp) .outside :=
  ⟨nofun, fun _ _ => ⟨nofun, fun _ _ => ⟨nofun, fun _ _ => .inl rfl⟩⟩⟩

/-- The tasks of the threads that are cancelled. -/
theorem Role.safe {role : Role} {task : Task} (hruns : role.runs task = true)
    (hpeer : role.peer.isSome) : CancelSafe task.program .outside := by
  cases role with
  | main | tap => cases hpeer
  | eth dm pp =>
    cases task with
    | eth dm' pp' => exact ethPass_safe dm' pp'
    | _ => cases hruns
  | timeout pp =>
    cases task with
    | timeout pp' => exact timeoutHandler_safe pp'
    | _ => cases hruns

/-! ## Runs -/

section

variable {ι : Type} [DecidableEq ι] {role : ι → Role} {s t : Threads ι}

theorem sectionOf_ne_blocked (p : Lock.PC) : sectionOf p ≠ .blocked := by
  cases p <;> decide

/-- **The invariant of the runs**: cancelled threads are those of peers, which are safe where they
are, and those that have ended have ended outside of their sections. -/
structure Threads.Inv (role : ι → Role) (s : Threads ι) : Prop where
  safe : ∀ i, (role i).peer.isSome → CancelSafe (s.control.prog i) (sectionOf (s.control.lock.pc i))
  pending : ∀ i, s.pending i = true → (role i).peer.isSome
  gone : ∀ i, s.gone i = true → ¬InSection (s.control.lock.pc i)

theorem Threads.exec_step {e : Event ι} (h : s.exec role (.step e) = some t) :
    (∀ i, e.thread = some i → s.gone i = false) ∧ e.suits role = true ∧
      ∃ c, s.control.exec e = some c ∧
        t = { s with control := c, unlinked := s.unlinkedAfter e } := by
  simp only [Threads.exec] at h
  split_ifs at h with hif
  obtain ⟨c, hc, rfl⟩ := Option.map_eq_some_iff.1 h
  obtain ⟨hgone, hsuits⟩ := Bool.and_eq_true_iff.1 hif
  refine ⟨fun i hi => ?_, hsuits, c, hc, rfl⟩
  simpa [hi] using hgone

/-- The program of one thread changes, and the others are where they were. -/
theorem safe_update {pc pc' : ι → Lock.PC} {prog : ι → Proc Unit} {i : ι} {p : Proc Unit}
    (h : ∀ j, (role j).peer.isSome → CancelSafe (prog j) (sectionOf (pc j)))
    (hpc : ∀ j, j ≠ i → pc' j = pc j) (hp : (role i).peer.isSome → CancelSafe p (sectionOf (pc' i)))
    (j : ι) (hj : (role j).peer.isSome) :
    CancelSafe (Function.update prog i p j) (sectionOf (pc' j)) := by
  by_cases hji : j = i
  · subst hji
    rw [Function.update_self]
    exact hp hj
  · rw [Function.update_of_ne hji, hpc j hji]
    exact h j hj

/-- A thread starts a task outside of its sections. -/
theorem Threads.Inv.start (h : s.Inv role) {i : ι} {task : Task} {c : Control ι}
    (hruns : (role i).runs task = true) (hc : s.control.exec (.start i task) = some c) :
    Threads.Inv role { s with control := c, unlinked := s.unlinkedAfter (.start i task) } := by
  obtain ⟨hret, -, rfl⟩ := Control.exec_start hc
  refine ⟨safe_update h.safe (fun _ _ => rfl) fun hpeer => ?_, h.pending, h.gone⟩
  have hplace := h.safe i hpeer
  rw [hret] at hplace
  rw [hplace.resolve_right (sectionOf_ne_blocked _)]
  exact (role i).safe hruns hpeer

/-- A thread takes a step of a call of the lock. -/
theorem Threads.Inv.lockStep (h : s.Inv role) {i : ι} {c : Control ι} (hi : s.gone i = false)
    (hc : s.control.exec (.lock i) = some c) :
    Threads.Inv role { s with control := c, unlinked := s.unlinkedAfter (.lock i) } := by
  obtain ⟨c, k, l, hcall, hduring, hl, rfl⟩ := Control.exec_lock hc
  obtain ⟨q, hq, rfl⟩ := Option.map_eq_some_iff.1 hl
  have hpc (j : ι) (hji : j ≠ i) : Function.update s.control.lock.pc i q.2 j = s.control.lock.pc j :=
    Function.update_of_ne hji ..
  refine ⟨safe_update h.safe hpc fun hpeer => ?_, h.pending, fun j hj => ?_⟩
  · have hplace := h.safe i hpeer
    rw [hcall] at hplace
    dsimp only
    rw [Function.update_self]
    obtain ⟨hprog, hsection⟩ | ⟨r, hprog, hsection⟩ :=
      resume_cases (k := k) hduring (Lock.next_mutex (List.mem_of_getElem? hq)).1
        (choice_of_idle hq) <;>
      rw [hprog, hsection]
    · exact hplace
    · refine hplace.2 r ?_
      cases c with
      | table => cases hduring
      | _ => trivial
  · have hji : j ≠ i := fun heq => by simp [heq, hi] at hj
    dsimp only
    rw [hpc j hji]
    exact h.gone j hj

/-- A thread performs a command. -/
theorem Threads.Inv.command (h : s.Inv role) {i : ι} {reply : (c : Command) → c.Reply}
    {c : Control ι} (hbenign : Benign s (.step (.command i reply)))
    (hc : s.control.exec (.command i reply) = some c) :
    Threads.Inv role { s with control := c, unlinked := s.unlinkedAfter (.command i reply) } := by
  obtain ⟨c, k, r, hcall, -, hr, rfl⟩ := Control.exec_command hc
  refine ⟨safe_update h.safe (fun _ _ => rfl) fun hpeer => ?_, h.pending, h.gone⟩
  have hplace := h.safe i hpeer
  rw [hcall] at hplace
  have hpermitted : Permitted (.call c k) c r.1 := by
    rw [Benign, hcall] at hbenign
    cases c with
    | table =>
      obtain rfl := Option.some.inj hr
      exact hbenign
    | _ => trivial
  have hnext := hplace.2 r.1 hpermitted
  rwa [Command.next_of_execute hr] at hnext

/-- A thread that ends does so outside of its sections. -/
theorem Threads.Inv.terminate (h : s.Inv role) {i : ι} {reply : (c : Command) → c.Reply}
    (hbenign : Benign s (.terminate i reply)) (ht : s.exec role (.terminate i reply) = some t) :
    t.Inv role := by
  simp only [Threads.exec] at ht
  split_ifs at ht with hif
  obtain rfl := Option.some.inj ht
  simp only [Bool.and_eq_true] at hif
  obtain ⟨⟨⟨⟨hpending, -⟩, -⟩, -⟩, hpoint⟩ := hif
  refine ⟨h.safe, h.pending, fun j hj => ?_⟩
  by_cases hji : j = i
  · subst hji
    have hplace := h.safe j (h.pending j hpending)
    have hharmless : (sectionOf (s.control.lock.pc j)).harmless := by
      rw [Benign] at hbenign
      cases hprog : s.control.prog j with
      | ret _ =>
        rw [hprog] at hplace
        exact hplace
      | stop e =>
        rw [hprog] at hpoint
        cases hpoint
      | call c k =>
        rw [hprog] at hplace hpoint hbenign
        cases c with
        | dial addr port =>
          have hsocket := hbenign addr port k rfl
          simp [cancellationPoint, Command.cancels, hsocket] at hpoint
        | _ => exact hplace.1 hpoint
    have houtside := hharmless.resolve_right (sectionOf_ne_blocked _)
    dsimp only
    revert houtside
    cases s.control.lock.pc j <;> simp [sectionOf, Lock.PC.phase, InSection] <;> decide
  · exact h.gone j (by simpa [hji] using hj)

/-- **One act preserves the invariant.** -/
theorem Threads.Inv.step {a : Act ι} (h : s.Inv role) (hbenign : Benign s a)
    (ht : s.exec role a = some t) : t.Inv role := by
  cases a with
  | step e =>
    obtain ⟨hgone, hsuits, c, hc, rfl⟩ := Threads.exec_step ht
    cases e with
    | start i task => exact h.start hsuits hc
    | lock i => exact h.lockStep (hgone i rfl) hc
    | command i reply => exact h.command hbenign hc
    | signal i signal =>
      obtain rfl := Control.exec_signal hc
      exact ⟨h.safe, h.pending, h.gone⟩
    | handler reply =>
      obtain ⟨j, c, k, r, -, -, rfl⟩ := Control.exec_handler hc
      exact ⟨h.safe, h.pending, h.gone⟩
    | handlerReturn =>
      obtain rfl := Control.exec_handlerReturn hc
      exact ⟨h.safe, h.pending, h.gone⟩
  | cancel i j =>
    simp only [Threads.exec] at ht
    split at ht
    · cases ht
    · next p hp =>
      split_ifs at ht
      obtain rfl := Option.some.inj ht
      refine ⟨h.safe, fun j' hj' => ?_, h.gone⟩
      by_cases hjj : j' = j
      · rw [hjj, hp]
        rfl
      · exact h.pending j' (by simpa [hjj] using hj')
  | terminate i reply => exact h.terminate hbenign ht

/-- **A cancelled thread does not take the lock with it**: in every run of any number of threads in
which `Quit` finds no members in its section, `remove_member` finds its peer, and `socket` does not
return `0` to a cancelled thread, a thread that has ended has ended outside of its sections. -/
theorem cancelled_outside (hs : ((cancelling role).guard Benign).Reachable s) {i : ι}
    (hi : s.gone i = true) : ¬InSection (s.control.lock.pc i) := by
  have hinv : s.Inv role := by
    refine hs.invariant (P := Threads.Inv role) ?_ ?_
    · rintro s ⟨⟨hlock, hprog, -⟩, -, hpending, hgone⟩
      refine ⟨fun i _ => ?_, by simp [hpending], by simp [hgone]⟩
      rw [hprog i, hlock]
      exact .inl rfl
    · exact fun s a t hinv hstep => hinv.step hstep.1 hstep.2
  exact hinv.gone i hi

end

/-! ## Two runs -/

/-- A proxy with a table, before anything has happened. -/
def threadsAt (m : Members) : Threads (Fin 2) :=
  ⟨⟨⟨Lock.RwLock.free _, fun _ => .idle⟩, fun _ => .ret (), m, none⟩, fun _ => false, fun _ => false,
    fun _ => false⟩

theorem init_threadsAt (role : Fin 2 → Role) (m : Members) : (cancelling role).init (threadsAt m) :=
  ⟨⟨rfl, fun _ => rfl, rfl⟩, fun _ => rfl, fun _ => rfl, fun _ => rfl⟩

/-- The `timeout_handler` and the `eth_handler` of the only member. -/
def threadsOfPeer : Fin 2 → Role
  | 0 => .timeout 0
  | 1 => .eth .lp64 0

/-- The `eth_handler`s of two members. -/
def ethHandlers (i : Fin 2) : Role := .eth .lp64 i

/-- A table with two members. -/
def twoMembers : Members :=
  ⟨[0, 1], by decide, fun p => ⟨⟨0, 0⟩, ⟨0, 0, .replicate 6 (.ofNat p), .replicate 6 0⟩⟩⟩

/-- The first member sends a LEAVE packet with the address of the second, and that sends a QUIT
packet. -/
def leaveAndQuit : (c : Command) → c.Reply
  | .receive 0 => some (⟨some .leave, 20, fun _ => 1⟩ : Received)
  | .receive (_ + 1) => some (⟨some .quit, 20, fun _ => 0⟩ : Received)
  | c => failing c

/-- The acts that the condition does not speak of. -/
def execOther (role : Fin 2 → Role) (s : Threads (Fin 2)) : Act (Fin 2) → Option (Threads (Fin 2))
  | .step (.command _ _) | .terminate _ _ => none
  | a => s.exec role a

theorem execOther_step {role : Fin 2 → Role} (s : Threads (Fin 2)) (a : Act (Fin 2))
    (t : Threads (Fin 2)) (h : execOther role s a = some t) :
    ∃ a, ((cancelling role).guard Benign).step s a t := by
  refine ⟨a, ?_, ?_⟩
  · rcases a with (_ | _ | _ | _ | _ | _) | _ | _ <;> trivial
  · rcases a with (_ | _ | _ | _ | _ | _) | _ | _ <;> first | exact h | cases h

/-- A timeout removes the member and cancels its `eth_handler`, which ends before its next packet.
-/
theorem cancelled_outside_timeout : ∃ s : Threads (Fin 2),
    ((cancelling threadsOfPeer).guard Benign).Reachable s ∧ s.gone 1 = true ∧
      ¬InSection (s.control.lock.pc 1) := by
  let sched : List (Act (Fin 2)) :=
    .step (.start 0 (.timeout 0)) :: List.replicate 6 (.step (.lock 0))
  have run : ∃ s t u v : Threads (Fin 2),
      sched.foldlM (execOther threadsOfPeer) (threadsAt oneMember) = some s ∧
      (∃ k, s.control.prog 0 = .call (.delete 0) k) ∧
      s.exec threadsOfPeer (.step (.command 0 failing)) = some t ∧
      t.exec threadsOfPeer (.cancel 0 1) = some u ∧ u.control.prog 1 = .ret () ∧
      u.exec threadsOfPeer (.terminate 1 failing) = some v ∧ v.gone 1 = true :=
    ⟨_, _, _, _, rfl, ⟨_, rfl⟩, rfl, rfl, rfl, rfl, rfl⟩
  obtain ⟨s, t, u, v, hs, ⟨k, hk⟩, ht, hu, hret, hv, hgone⟩ := run
  have hreach : ((cancelling threadsOfPeer).guard Benign).Reachable s :=
    TransitionSystem.Reachable.of_schedule execOther_step sched
      (.init (init_threadsAt threadsOfPeer oneMember)) hs
  have hcommand : Benign s (.step (.command 0 failing)) := by
    rw [Benign, hk]
    exact ⟨nofun, nofun⟩
  have hterminate : Benign u (.terminate 1 failing) := by
    rw [Benign, hret]
    exact nofun
  have hdeleted : ((cancelling threadsOfPeer).guard Benign).Reachable t :=
    hreach.step (a := .step (.command 0 failing)) ⟨hcommand, ht⟩
  have hcancelled : ((cancelling threadsOfPeer).guard Benign).Reachable u :=
    hdeleted.step (a := .cancel 0 1) ⟨trivial, hu⟩
  have hended : ((cancelling threadsOfPeer).guard Benign).Reachable v :=
    hcancelled.step (a := .terminate 1 failing) ⟨hterminate, hv⟩
  exact ⟨v, hended, hgone, cancelled_outside hended hgone⟩

/-- The second `eth_handler` has received a QUIT packet when the first removes its member. It enters
its section, finds the first member there, and ends in the write to it: the lock is not given back.
-/
theorem quit_cancelled_in_section : ¬∀ (role : Fin 2 → Role) (s : Threads (Fin 2)),
    (cancelling role).Reachable s → ∀ i, s.gone i = true → ¬InSection (s.control.lock.pc i) := by
  let command (i : Fin 2) : Act (Fin 2) := .step (.command i leaveAndQuit)
  let lock (i : Fin 2) (n : ℕ) : List (Act (Fin 2)) := List.replicate n (.step (.lock i))
  let sched : List (Act (Fin 2)) :=
    [.step (.start 1 (.eth .lp64 1)), command 1, .step (.start 0 (.eth .lp64 0)), command 0] ++
      -- the first reads the table, enters its section again to delete, and leaves it
      lock 0 9 ++ [command 0] ++ lock 0 11 ++ List.replicate 3 (command 0) ++ lock 0 6 ++
      lock 1 6 ++ [command 1, .cancel 0 1, .terminate 1 leaveAndQuit]
  have run : ∃ s : Threads (Fin 2),
      sched.foldlM (Threads.exec ethHandlers) (threadsAt twoMembers) = some s ∧ s.gone 1 = true ∧
      s.control.lock.pc 1 = .writing := ⟨_, rfl, rfl, rfl⟩
  obtain ⟨s, hs, hgone, hpc⟩ := run
  have hreach : (cancelling ethHandlers).Reachable s :=
    TransitionSystem.Reachable.of_schedule (fun _ a _ h => ⟨a, h⟩) sched
      (.init (init_threadsAt ethHandlers twoMembers)) hs
  intro h
  apply h ethHandlers s hreach 1 hgone
  rw [hpc]
  exact .inr (by decide)

end LinkProxy.Program
