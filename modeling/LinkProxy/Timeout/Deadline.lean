import LinkProxy.Timeout.Handler
import LinkProxy.Gossip.Reordering

/-!
# The deadlines of the timeout threads

`Link_State` and the threads of `timeout_handler` share the timestamps of the peers: `Link_State`
stores what a record says, a thread that has to wait again takes its next deadline from there. The
steps below are those of one `Link_State` after the other, record by record, and of the threads of
all peers, in any order (`timers`). A call of `Link_State` is a run of such steps
(`receiveLinkState_run`).

Link state records are not checked. As long as the nanoseconds of every record about a member are
less than a second, so are those of every deadline (`deadlines_valid`).
-/

namespace LinkProxy.Timeout

open Bytes Wire Peers Gossip

/-! ## The steps -/

/-- A call of `Link_State` in its loop: its payload, its pointer and the records that are left. -/
structure Job where
  data : Buf
  ptr : ℕ
  left : ℕ

/-- The membership list, the timeout threads and the call of `Link_State` that holds the lock. -/
structure Timers where
  members : Members
  threads : Ptr → Option Thread
  job : Option Job

/-- What happens: `Link_State` starts with a packet, processes a record or ends; a peer is added,
its thread computes its first deadline, its wait ends, it is cancelled, or the peer is removed. -/
inductive Event
  | packet (p : Packet)
  | record
  | finish
  | join (p : Ptr) (peer : Peer)
  | start (p : Ptr) (now : Timespec)
  | wake (p : Ptr) (r : WaitResult) (now : Timespec)
  | cancel (p : Ptr)
  | remove (p : Ptr)

/-- What `connectbyaddr` does, if it returns: it fails, or it has `add_member` add a new `Peer`,
whose timestamp is the time of day. -/
structure Dials (dm : DataModel) (net : Network) : Prop where
  now : Clock dm net.now
  connects : ∀ a port m pp m', net.connectbyaddr a port m = some (pp, m') →
    m' = m ∨ ∃ p hp peer, Clock dm peer.timestamp ∧ m' = m.add p hp peer

section

variable (dm : DataModel) (linkState : LinkState) (linkTimeout : UInt32)

/-- The packet is one whose records `Link_State` looks at. -/
def Processed (p : Packet) : Prop :=
  lengthOk dm (announced p.data) p.length = true ∧ (ldLinkState p.data 2).tapMAC ≠ linkState.tapMAC

/-- The loop of `Link_State` at its start. -/
def jobOf (p : Packet) : Job :=
  ⟨p.data, 2 + linkStateSourceSize,
    (announced p.data * announced p.data + announced p.data).toNat⟩

/-- The steps of `Link_State` and the timeout threads. -/
inductive TimersStep : Timers → Event → Timers → Prop
  | packet {s : Timers} {p : Packet} {net : Network} {m : Members} (hjob : s.job = none)
      (hp : Processed dm linkState p) (hnet : Dials dm net)
      (hm : receiveSource net (ldLinkState p.data 2) s.members = some m) :
      TimersStep s (.packet p) { s with members := m, job := some (jobOf p) }
  | ignored {s : Timers} {p : Packet} (hjob : s.job = none) (hp : ¬Processed dm linkState p) :
      TimersStep s (.packet p) s
  | record {s : Timers} {data : Buf} {ptr n : ℕ} {net : Network} {m : Members}
      (hjob : s.job = some ⟨data, ptr, n + 1⟩) (hnet : Dials dm net)
      (hm : receiveRecord dm linkState net data ptr s.members = some m) :
      TimersStep s .record { s with members := m, job := some ⟨data, ptr + recordSize dm, n⟩ }
  | finish {s : Timers} {data : Buf} {ptr : ℕ} (hjob : s.job = some ⟨data, ptr, 0⟩) :
      TimersStep s .finish { s with job := none }
  | join {s : Timers} {p : Ptr} {peer : Peer} (hp : p ∉ s.members.order)
      (hclock : Clock dm peer.timestamp) :
      TimersStep s (.join p peer) { s with members := s.members.add p hp peer }
  | start {s : Timers} {p : Ptr} {now : Timespec} (hthread : s.threads p = none)
      (hclock : Clock dm now) :
      TimersStep s (.start p now)
        { s with
          threads := Function.update s.threads p (some (.waiting (deadline dm linkTimeout now))) }
  | wake {s : Timers} {p : Ptr} {ts now : Timespec} {r : WaitResult}
      (hthread : s.threads p = some (.waiting ts)) (hr : r.Allowed ts now) (hclock : Clock dm now) :
      TimersStep s (.wake p r now) { s with
        threads := Function.update s.threads p
          (some (wakeup dm linkTimeout (s.members.peer p).timestamp r now)) }
  | cancel (s : Timers) (p : Ptr) :
      TimersStep s (.cancel p) { s with threads := Function.update s.threads p none }
  | remove (s : Timers) (p : Ptr) :
      TimersStep s (.remove p) { s with members := s.members.remove p }

/-- The peers have timestamps from `clock_gettime`, and no thread has started. -/
def timers : TransitionSystem Timers Event where
  init s := (∀ p, Clock dm (s.members.peer p).timestamp) ∧ (∀ p, s.threads p = none) ∧ s.job = none
  step := TimersStep dm linkState linkTimeout

/-- The condition on the steps: a record about a member has less than a second of nanoseconds. -/
def Timely (s : Timers) : Event → Prop
  | .record => ∀ j, s.job = some j → (ldRecord dm j.data j.ptr).proxy1.tapMAC ≠ linkState.tapMAC →
      (s.members.find (ldRecord dm j.data j.ptr).proxy1.tapMAC).isSome →
      (recordTime dm (ldRecord dm j.data j.ptr)).Valid
  | _ => True

end

/-! ## `Link_State` as a run -/

section

variable {dm : DataModel} {linkState : LinkState} {linkTimeout : UInt32} {net : Network}

/-- A loop over records that comes to its end is a run. -/
theorem recordLoop_run (hnet : Dials dm net) {data : Buf} (n : ℕ) {l : Loop} {s : Timers}
    (hs : (timers dm linkState linkTimeout).Reachable
      { s with members := l.members, job := some ⟨data, l.ptr, n⟩ })
    (hend : (recordLoop dm linkState net data n l).2 = true) :
    (timers dm linkState linkTimeout).Reachable
      { s with members := (recordLoop dm linkState net data n l).1.members, job := none } := by
  induction n generalizing l with
  | zero => exact .step hs (.finish rfl)
  | succ n ih =>
    rw [recordLoop] at hend ⊢
    cases hm : receiveRecord dm linkState net data l.ptr l.members with
    | none => simp [hm] at hend
    | some m =>
      simp only [hm] at hend ⊢
      exact ih (l := ⟨l.ptr + recordSize dm, m, l.visited ++ [ldRecord dm data l.ptr]⟩)
        (.step hs (.record rfl hnet hm)) hend

/-- **A call of `Link_State` that returns is a run.** -/
theorem receiveLinkState_run (hnet : Dials dm net) {p : Packet} {s : Timers} {res : Int}
    {m : Members} (hs : (timers dm linkState linkTimeout).Reachable s) (hjob : s.job = none)
    (h : receiveLinkState dm linkState net p.data p.length s.members = some (res, m)) :
    (timers dm linkState linkTimeout).Reachable { s with members := m } := by
  by_cases hp : Processed dm linkState p
  · obtain ⟨hlength, hlocal⟩ := hp
    simp only [receiveLinkState, hlength, Bool.not_true, Bool.false_eq_true, if_false, hlocal,
      Option.bind_eq_bind, Option.bind_eq_some_iff] at h
    obtain ⟨m₀, hsource, hloop⟩ := h
    split_ifs at hloop with hend
    obtain ⟨-, rfl⟩ := Prod.mk.inj (Option.some.inj hloop)
    have hrun := recordLoop_run hnet _ (l := ⟨2 + linkStateSourceSize, m₀, []⟩)
      (.step hs (.packet hjob ⟨hlength, hlocal⟩ hnet hsource)) hend
    rwa [← hjob] at hrun
  · have hm : m = s.members := by
      rw [receiveLinkState] at h
      split_ifs at h with hlength hlocal
      · exact (Prod.mk.inj (Option.some.inj h)).2.symm
      · exact (Prod.mk.inj (Option.some.inj h)).2.symm
      · exact absurd ⟨by simpa using hlength, hlocal⟩ hp
    rw [hm]
    exact hs

end

/-! ## Deadlines -/

section

variable {dm : DataModel} {linkState : LinkState} {linkTimeout : UInt32}

/-- All timestamps of a membership list have less than a second of nanoseconds. -/
def TimesValid (m : Members) : Prop := ∀ p, (m.peer p).timestamp.Valid

theorem TimesValid.setTimestamp {m : Members} (h : TimesValid m) {t : Timespec} (ht : t.Valid)
    (p : Ptr) : TimesValid (m.setTimestamp p t) := by
  intro q
  rw [Members.setTimestamp_timestamp]
  split_ifs
  · exact ht
  · exact h q

theorem TimesValid.add {m : Members} (h : TimesValid m) {p : Ptr} (hp : p ∉ m.order) {peer : Peer}
    (hpeer : Clock dm peer.timestamp) : TimesValid (m.add p hp peer) := by
  intro q
  by_cases hq : q = p
  · rw [hq, Members.add_peer_self]
    exact hpeer.valid
  · simpa [Members.add, hq] using h q

theorem TimesValid.dial {net : Network} (hnet : Dials dm net) {m m' : Members} (h : TimesValid m)
    {a : UInt32} {port : UInt16} {pp : Option Ptr}
    (hm : net.connectbyaddr a port m = some (pp, m')) : TimesValid m' := by
  rcases hnet.connects a port m pp m' hm with rfl | ⟨p, hp, peer, hpeer, rfl⟩
  · exact h
  · exact h.add hp hpeer

theorem TimesValid.source {net : Network} (hnet : Dials dm net) {m m' : Members} (h : TimesValid m)
    {source : LinkState} (hm : receiveSource net source m = some m') : TimesValid m' := by
  rw [receiveSource] at hm
  split at hm
  · obtain ⟨⟨pp, m₀⟩, hdial, rfl⟩ := Option.map_eq_some_iff.1 hm
    exact h.dial hnet hdial
  · exact Option.some.inj hm ▸ h

/-- A record about a member sets a timestamp to its time, and one about another proxy to the clock.
-/
theorem TimesValid.record {net : Network} (hnet : Dials dm net) {m m' : Members} (h : TimesValid m)
    {data : Buf} {ptr : ℕ}
    (hr : (ldRecord dm data ptr).proxy1.tapMAC ≠ linkState.tapMAC →
      (m.find (ldRecord dm data ptr).proxy1.tapMAC).isSome →
      (recordTime dm (ldRecord dm data ptr)).Valid)
    (hm : receiveRecord dm linkState net data ptr m = some m') : TimesValid m' := by
  simp only [receiveRecord] at hm
  split_ifs at hm with hlocal
  · exact Option.some.inj hm ▸ h
  · split at hm
    · simp only [Option.bind_eq_bind, Option.bind_eq_some_iff] at hm
      obtain ⟨⟨pp, m₀⟩, hdial, p, -, hset⟩ := hm
      exact Option.some.inj hset ▸ (h.dial hnet hdial).setTimestamp hnet.now.valid p
    · next pp hfind =>
      exact Option.some.inj hm ▸ h.setTimestamp (hr hlocal (by simp [hfind])) pp

/-- Timestamps and deadlines have less than a second of nanoseconds. -/
structure Timers.Inv (s : Timers) : Prop where
  times : TimesValid s.members
  deadlines : ∀ p ts, s.threads p = some (.waiting ts) → ts.Valid

/-- A thread that waits again has its deadline from the timestamp. -/
theorem wakeup_waiting {timestamp now ts : Timespec} {r : WaitResult}
    (h : wakeup dm linkTimeout timestamp r now = .waiting ts) :
    ts = deadline dm linkTimeout timestamp := by
  cases r with
  | zero => cases h
  | timedOut | invalid =>
    simp only [wakeup] at h
    split_ifs at h
    exact (Thread.waiting.inj h).symm

/-- A thread moves, to a wait with a valid deadline if it waits. -/
theorem Timers.Inv.move {s : Timers} (h : s.Inv) (p : Ptr) {th : Option Thread}
    (hth : ∀ ts, th = some (.waiting ts) → ts.Valid) :
    ({ s with threads := Function.update s.threads p th } : Timers).Inv := by
  refine ⟨h.times, fun q ts hq => ?_⟩
  by_cases hqp : q = p
  · subst hqp
    exact hth ts (by simpa using hq)
  · exact h.deadlines q ts (by simpa [hqp] using hq)

/-- What one step preserves. -/
theorem Timers.Inv.step {s s' : Timers} {e : Event} (h : s.Inv) (ht : Timely dm linkState s e)
    (hstep : TimersStep dm linkState linkTimeout s e s') : s'.Inv := by
  cases hstep with
  | packet hjob hp hnet hm => exact ⟨h.times.source hnet hm, h.deadlines⟩
  | ignored => exact h
  | record hjob hnet hm => exact ⟨h.times.record hnet (ht _ hjob) hm, h.deadlines⟩
  | finish => exact ⟨h.times, h.deadlines⟩
  | join hp hclock => exact ⟨h.times.add hp hclock, h.deadlines⟩
  | start hthread hclock =>
    refine h.move _ fun ts hts => ?_
    cases hts
    exact hclock.valid
  | wake hthread hr hclock =>
    refine h.move _ fun ts hts => ?_
    rw [wakeup_waiting (Option.some.inj hts)]
    exact h.times _
  | cancel p => exact h.move p (by simp)
  | remove p => exact ⟨h.times, h.deadlines⟩

/-- **Deadlines are valid** as long as records about members are: every absolute time that a timeout
thread waits for has less than a second of nanoseconds, whatever packets have come. -/
theorem deadlines_valid {s : Timers} {p : Ptr} {ts : Timespec}
    (hs : ((timers dm linkState linkTimeout).guard (Timely dm linkState)).Reachable s)
    (h : s.threads p = some (.waiting ts)) : ts.Valid := by
  have hinv : s.Inv := by
    refine hs.invariant (P := Timers.Inv) ?_ ?_
    · rintro s ⟨hclock, hthreads, -⟩
      exact ⟨fun p => (hclock p).valid, by simp [hthreads]⟩
    · exact fun s e t hinv hstep => hinv.step hstep.1 hstep.2
  exact hinv.deadlines p ts h

end

/-- A packet of the only member whose records are of second 1, with given nanoseconds. -/
def packetOf (nsec : Int) : Packet where
  data := bufOf (le 2 (htons 1).toNat ++ onlyPeer.bytes ++ le 2 (htons 1).toNat ++
    (Edge.record ⟨⟨1, nsec⟩, onlyPeer, onlyPeer⟩).bytes .lp64 ++
    (Edge.record ⟨⟨1, nsec⟩, onlyPeer, onlyPeer⟩).bytes .lp64) fun _ => 0
  length := 134

/-- The only member, its thread with a deadline, and `Link_State` in its loop. -/
def underway (nsec : Int) : Timers where
  members := oneMember
  threads := Function.update (fun _ => none) 0 (some (.waiting ⟨10, 0⟩))
  job := some (jobOf (packetOf nsec))

theorem dials_noNetwork (dm : DataModel) : Dials dm noNetwork :=
  ⟨clock_of_valid (by decide) (by decide) (by decide) dm, by simp [noNetwork]⟩

/-- `Link_State` looks at the records of the packet, and the first one sets the timestamp. -/
structure Refreshes (nsec : Int) : Prop where
  processed : Processed .lp64 receiver (packetOf nsec)
  left : (jobOf (packetOf nsec)).left = 2
  source : receiveSource noNetwork (ldLinkState (packetOf nsec).data 2) oneMember = some oneMember
  record : receiveRecord .lp64 receiver noNetwork (packetOf nsec).data 22 oneMember =
    some (oneMember.setTimestamp 0 ⟨1, nsec⟩)

/-- The thread of the only member starts at second 0, the first record of the packet is processed,
and the thread wakes up at its deadline. -/
theorem rearmed {C : Timers → Event → Prop} {nsec : Int} (hC : ∀ s e, e ≠ .record → C s e)
    (hrecord : C (underway nsec) .record) (h : Refreshes nsec)
    (hwake : wakeup .lp64 10 ⟨1, nsec⟩ .timedOut ⟨10, 0⟩ = .waiting ⟨11, nsec⟩) :
    ∃ s, ((timers .lp64 receiver 10).guard C).Reachable s ∧
      s.threads 0 = some (.waiting ⟨11, nsec⟩) := by
  have hzero : Clock .lp64 (⟨0, 0⟩ : Timespec) :=
    clock_of_valid (by decide) (by decide) (by decide) _
  have hjob : (underway nsec).job = some ⟨(packetOf nsec).data, 22, 1 + 1⟩ := by
    rw [show 1 + 1 = (jobOf (packetOf nsec)).left from h.left.symm]
    rfl
  have h₀ : ((timers .lp64 receiver 10).guard C).Reachable ⟨oneMember, fun _ => none, none⟩ :=
    .init ⟨fun _ => hzero, fun _ => rfl, rfl⟩
  have h₁ : ((timers .lp64 receiver 10).guard C).Reachable
      ⟨oneMember, (underway nsec).threads, none⟩ :=
    h₀.step (a := .start 0 ⟨0, 0⟩) ⟨hC _ _ (by simp), .start rfl hzero⟩
  have h₂ : ((timers .lp64 receiver 10).guard C).Reachable (underway nsec) :=
    h₁.step (a := .packet (packetOf nsec))
      ⟨hC _ _ (by simp), .packet rfl h.processed (dials_noNetwork _) h.source⟩
  have h₃ : ((timers .lp64 receiver 10).guard C).Reachable ⟨oneMember.setTimestamp 0 ⟨1, nsec⟩,
      (underway nsec).threads, some ⟨(packetOf nsec).data, 22 + recordSize .lp64, 1⟩⟩ :=
    h₂.step (a := .record) ⟨hrecord, .record hjob (dials_noNetwork _) h.record⟩
  have hten : Clock .lp64 (⟨10, 0⟩ : Timespec) :=
    clock_of_valid (by decide) (by decide) (by decide) _
  have hallowed : WaitResult.timedOut.Allowed ⟨10, 0⟩ ⟨10, 0⟩ := ⟨by decide, by decide⟩
  refine ⟨_, h₃.step (a := .wake 0 .timedOut ⟨10, 0⟩) ⟨hC _ _ (by simp), .wake rfl hallowed hten⟩, ?_⟩
  simp only [Function.update_self, Members.setTimestamp_timestamp, if_true, hwake]

theorem refreshes_of_eval {nsec : Int}
    (hp : lengthOk .lp64 (announced (packetOf nsec).data) 134 = true ∧
      (ldLinkState (packetOf nsec).data 2).tapMAC = onlyPeer.tapMAC ∧
      (jobOf (packetOf nsec)).left = 2)
    (hr : (ldRecord .lp64 (packetOf nsec).data 22).proxy1.tapMAC = onlyPeer.tapMAC ∧
      recordTime .lp64 (ldRecord .lp64 (packetOf nsec).data 22) = ⟨1, nsec⟩) : Refreshes nsec := by
  obtain ⟨hlength, hsource, hleft⟩ := hp
  obtain ⟨hmac, htime⟩ := hr
  have hfind : oneMember.find onlyPeer.tapMAC = some 0 := by decide
  have hown : onlyPeer.tapMAC ≠ receiver.tapMAC := by decide
  refine ⟨⟨hlength, by rwa [hsource]⟩, hleft, ?_, ?_⟩
  · rw [receiveSource, hsource, hfind]
  · simp only [receiveRecord, hmac, if_neg hown, hfind]
    exact congrArg (fun t => some (oneMember.setTimestamp 0 t)) htime

theorem timely_underway {nsec : Int}
    (htime : recordTime .lp64 (ldRecord .lp64 (packetOf nsec).data 22) = ⟨1, nsec⟩)
    (hvalid : Timespec.Valid ⟨1, nsec⟩) : Timely .lp64 receiver (underway nsec) .record := by
  intro j hj _ _
  obtain rfl : jobOf (packetOf nsec) = j := Option.some.inj hj
  rwa [← htime] at hvalid

/-- A record with five nanoseconds, from which the thread computes its next deadline. -/
theorem deadlines_valid_rearmed : ∃ s,
    ((timers .lp64 receiver 10).guard (Timely .lp64 receiver)).Reachable s ∧
      s.threads 0 = some (.waiting ⟨11, 5⟩) ∧ Timespec.Valid ⟨11, 5⟩ := by
  have htime : recordTime .lp64 (ldRecord .lp64 (packetOf 5).data 22) = ⟨1, 5⟩ := by
    decide +kernel
  have hrefreshes : Refreshes 5 :=
    refreshes_of_eval (by decide +kernel) ⟨by decide +kernel, htime⟩
  have hothers (s : Timers) (e : Event) (he : e ≠ .record) : Timely .lp64 receiver s e := by
    cases e with
    | record => exact absurd rfl he
    | _ => trivial
  obtain ⟨s, hs, hthread⟩ := rearmed hothers (timely_underway htime (by decide)) hrefreshes (by decide)
  exact ⟨s, hs, hthread, deadlines_valid hs hthread⟩

/-- A record with `2^32 - 1` nanoseconds: the thread passes them on to its next wait. -/
theorem record_invalidates_deadline : ¬∀ (dm : DataModel) (linkState : LinkState)
    (linkTimeout : UInt32) (s : Timers) (p : Ptr) (ts : Timespec),
      (timers dm linkState linkTimeout).Reachable s → s.threads p = some (.waiting ts) → ts.Valid := by
  intro h
  have hrefreshes : Refreshes 4294967295 :=
    refreshes_of_eval (by decide +kernel) ⟨by decide +kernel, by decide +kernel⟩
  obtain ⟨s, hs, hthread⟩ := rearmed (C := fun _ _ => True) (fun _ _ _ => trivial) trivial
    hrefreshes (by decide)
  exact absurd (h _ _ _ s 0 _ hs.of_guard hthread) (by decide)

end LinkProxy.Timeout
