import LinkProxy.Timeout.Silence

/-!
# Live peers

A peer that broadcasts its link state is heard again and again, and each time its timestamp is set
to the time that the packet gives. The records that other proxies send about it set the timestamp,
too, back to the time of an earlier broadcast or to a time of the proxy that sends them, since
`Link_State` does not compare. Time passes for the broadcasts and the thread of `timeout_handler`
together here (`timed`): a broadcast has been heard by a given delay after the time that it gives, in
which the delay of the network and the difference of the clocks are both included, what others send
gives no time before that of the broadcast a given number before the last one heard (`Recent`), and
a wait that ends reads the clock. The numbers of seconds have 64 bits.

If the broadcasts are at most a period apart, the thread does not leave its loop in any run, if and
only if the delay and as many periods as the timestamp can be behind are together less than the
timeout (`never_cut_iff`). `silent_cut` is the other side.
-/

namespace LinkProxy.Timeout

open Wire

/-- The time that two words of a record give, in nanoseconds. -/
def broadcastTime (w : UInt32 × UInt32) : ℕ := w.1.toNat * 1000000000 + w.2.toNat

/-- The times of the broadcasts of a peer that has been added at some time: the first is at most a
period later than this time, and so is each later than the one before. -/
structure Broadcasts (period : ℕ) (start : Int) (b : ℕ → UInt32 × UInt32) : Prop where
  valid : ∀ i, (b i).2.toNat < 1000000000
  first : start ≤ broadcastTime (b 0) ∧ broadcastTime (b 0) ≤ start + period
  next : ∀ i, broadcastTime (b i) ≤ broadcastTime (b (i + 1)) ∧
    broadcastTime (b (i + 1)) ≤ broadcastTime (b i) + period

/-- A peer and its thread, the time, and how many broadcasts have been heard. -/
structure Timed where
  watch : Watch
  clock : Int
  heard : ℕ

/-- What happens: time passes, the next broadcast is heard, another proxy sends a record with a time,
or the thread takes a step. -/
inductive TimedAction
  | pass (clock : Int)
  | hear
  | relay (r : UInt32 × UInt32)
  | thread (a : Action)

/-- What the record of another proxy may give after some broadcasts have been heard: any time that
is not before the peer was added, nor before a broadcast with `lag` more heard after it. It need not
be the time of a broadcast, since the record from a neighbour of a proxy to this proxy gives the
time of the proxy. -/
structure Recent (lag : ℕ) (start : Int) (b : ℕ → UInt32 × UInt32) (heard : ℕ)
    (r : UInt32 × UInt32) : Prop where
  valid : r.2.toNat < 1000000000
  added : start ≤ broadcastTime r
  behind : ∀ i, i + lag < heard → broadcastTime (b i) ≤ broadcastTime r

section

variable (linkTimeout : UInt32) (delay lag : ℕ) (start : Int) (b : ℕ → UInt32 × UInt32)

/-- The steps. Time does not pass beyond the moment by which a broadcast has to have been heard, and
no wait returns `0`. -/
inductive TimedStep : Timed → TimedAction → Timed → Prop
  | pass (s : Timed) {clock : Int} (hle : s.clock ≤ clock)
      (hheard : ∀ i, broadcastTime (b i) + delay < clock → i < s.heard) :
      TimedStep s (.pass clock) { s with clock := clock }
  | hear (s : Timed) {w : Watch}
      (hstep : Step .lp64 linkTimeout s.watch (.refresh (b s.heard).1 (b s.heard).2) w) :
      TimedStep s .hear { s with watch := w, heard := s.heard + 1 }
  | relay (s : Timed) {r : UInt32 × UInt32} {w : Watch} (hrecent : Recent lag start b s.heard r)
      (hstep : Step .lp64 linkTimeout s.watch (.refresh r.1 r.2) w) :
      TimedStep s (.relay r) { s with watch := w }
  | wake (s : Timed) {w : Watch} {r : WaitResult} {now : Timespec} (hr : r ≠ .zero)
      (hnow : nanos now = s.clock) (hstep : Step .lp64 linkTimeout s.watch (.wake r now) w) :
      TimedStep s (.thread (.wake r now)) { s with watch := w }
  | cancel (s : Timed) {w : Watch} (hstep : Step .lp64 linkTimeout s.watch .cancel w) :
      TimedStep s (.thread .cancel) { s with watch := w }
  | remove (s : Timed) {w : Watch} (hstep : Step .lp64 linkTimeout s.watch .remove w) :
      TimedStep s (.thread .remove) { s with watch := w }

/-- A peer that is added at a time. -/
def timed : TransitionSystem Timed TimedAction where
  init s := (watch .lp64 linkTimeout).init s.watch ∧ nanos s.watch.timestamp = start ∧
    s.clock = start ∧ s.heard = 0
  step := TimedStep linkTimeout delay lag start b

end

/-- The thread is still in its loop, or has been cancelled. -/
def Thread.Kept : Thread → Prop
  | .waiting _ | .cancelled => True
  | .left _ _ | .removed _ _ => False

/-- The next broadcast gives a time that is not too long after the timestamp, and it is not overdue.
-/
structure Timed.Alive (period delay lag : ℕ) (b : ℕ → UInt32 × UInt32) (s : Timed) : Prop where
  valid : s.watch.timestamp.Valid
  due : broadcastTime (b s.heard) ≤ nanos s.watch.timestamp + ((lag + 1) * period : ℕ)
  clock : s.clock ≤ broadcastTime (b s.heard) + delay
  kept : s.watch.thread.Kept

section

variable {linkTimeout : UInt32} {period delay lag : ℕ} {start : Int} {b : ℕ → UInt32 × UInt32}

/-- Some broadcasts later. -/
theorem Broadcasts.le_add (hb : Broadcasts period start b) (i n : ℕ) :
    broadcastTime (b i) ≤ broadcastTime (b (i + n)) ∧
      broadcastTime (b (i + n)) ≤ broadcastTime (b i) + n * period := by
  induction n with
  | zero => simp
  | succ n ih =>
    have hnext := hb.next (i + n)
    rw [← Nat.add_assoc, Nat.add_one_mul]
    omega

/-- The timestamp is set back by at most the periods since some broadcast. -/
theorem Recent.due {heard : ℕ} {r : UInt32 × UInt32} (hr : Recent lag start b heard r)
    (hb : Broadcasts period start b) :
    broadcastTime (b heard) ≤ broadcastTime r + (lag + 1) * period := by
  rcases Nat.lt_or_ge lag heard with hlt | hle
  · -- after the one that is `lag` before the last one heard
    obtain ⟨i, rfl⟩ := Nat.exists_eq_add_of_le hlt
    have hlater := (hb.le_add i (lag + 1)).2
    have hbehind := hr.behind i (by omega)
    rw [show lag.succ + i = i + (lag + 1) by omega]
    omega
  · -- after the peer has been added
    have hlater := (hb.le_add 0 heard).2
    have hperiods : (heard + 1) * period ≤ (lag + 1) * period := Nat.mul_le_mul_right _ (by omega)
    obtain ⟨-, hfirst⟩ := hb.first
    have hadded := hr.added
    rw [Nat.zero_add] at hlater
    rw [Nat.add_one_mul] at hperiods
    omega

/-- The times of the words, as `Link_State` stores them. -/
theorem nanos_broadcast (w : UInt32 × UInt32) :
    nanos ⟨DataModel.lp64.toLong w.1, DataModel.lp64.toLong w.2⟩ = broadcastTime w := by
  simp only [nanos, DataModel.toLong, broadcastTime]
  omega

/-- What one step preserves. -/
theorem Timed.Alive.step {s t : Timed} {a : TimedAction} (hb : Broadcasts period start b)
    (hlt : (lag + 1) * period + delay < linkTimeout.toNat * 1000000000)
    (h : s.Alive period delay lag b) (hstep : TimedStep linkTimeout delay lag start b s a t) :
    t.Alive period delay lag b := by
  obtain ⟨hvalid, hdue, hclock, hkept⟩ := h
  obtain ⟨⟨timestamp, thread⟩, clock, heard⟩ := s
  cases hstep with
  | pass hle hheard =>
    refine ⟨hvalid, hdue, ?_, hkept⟩
    by_contra hover
    exact absurd (hheard heard (not_le.1 hover)) (lt_irrefl _)
  | hear hstep =>
    obtain ⟨hmono, hgap⟩ := hb.next heard
    have hperiods : period ≤ (lag + 1) * period := Nat.le_mul_of_pos_left _ (Nat.succ_pos lag)
    cases hstep
    refine ⟨refreshed_valid _ (hb.valid heard), ?_, ?_, hkept⟩
    · dsimp only
      rw [nanos_broadcast]
      omega
    · dsimp only at hclock ⊢
      omega
  | @relay r w hrecent hstep =>
    have hdue' := hrecent.due hb
    cases hstep
    refine ⟨refreshed_valid _ hrecent.valid, ?_, hclock, hkept⟩
    dsimp only at hdue' ⊢
    rw [nanos_broadcast]
    exact_mod_cast hdue'
  | @wake w r now hr hnow hstep =>
    cases hstep with
    | wake _ hallowed hclocknow =>
      refine ⟨hvalid, hdue, hclock, ?_⟩
      -- the link has not expired, since the next broadcast is not overdue
      have hkeeps : ¬exceeds .lp64 (elapsed .lp64 now timestamp) linkTimeout := by
        have hvalid' : timestamp.Valid := hvalid
        rw [exceeds_iff_expired hclocknow.valid hvalid', expired_iff_nanos]
        dsimp only at hdue hclock hnow
        omega
      show (wakeup .lp64 linkTimeout timestamp r now).Kept
      rw [wakeup_of_ne_zero .lp64 hr, if_neg hkeeps]
      trivial
  | cancel hstep => cases hstep <;> exact ⟨hvalid, hdue, hclock, trivial⟩
  | remove hstep =>
    cases hstep
    exact absurd hkept id

/-- A peer whose broadcasts come in time is kept. -/
theorem alive_of_reachable (hb : Broadcasts period start b)
    (hlt : (lag + 1) * period + delay < linkTimeout.toNat * 1000000000) {s : Timed}
    (hs : (timed linkTimeout delay lag start b).Reachable s) : s.Alive period delay lag b := by
  refine hs.invariant (P := Timed.Alive period delay lag b) ?_
    fun s a t h hstep => h.step hb hlt hstep
  rintro s ⟨⟨hclock, now, -, hthread⟩, htimestamp, hstart, hheard⟩
  obtain ⟨hfirst, hperiod⟩ := hb.first
  have hperiods : period ≤ (lag + 1) * period := Nat.le_mul_of_pos_left _ (Nat.succ_pos lag)
  refine ⟨hclock.valid, ?_, ?_, ?_⟩
  · rw [hheard, htimestamp]
    omega
  · rw [hheard, hstart]
    omega
  · rw [hthread]
    trivial

/-- Every time of less than `2^32` seconds is that of two words. -/
theorem exists_words {x : ℕ} (hx : x < 4294967296 * 1000000000) :
    ∃ w : UInt32 × UInt32, broadcastTime w = x ∧ w.2.toNat < 1000000000 := by
  have hsec : (UInt32.ofNat (x / 1000000000)).toNat = x / 1000000000 := by
    rw [UInt32.toNat_ofNat']
    exact Nat.mod_eq_of_lt (by omega)
  have hnsec : (UInt32.ofNat (x % 1000000000)).toNat = x % 1000000000 := by
    rw [UInt32.toNat_ofNat']
    exact Nat.mod_eq_of_lt (by omega)
  refine ⟨(.ofNat (x / 1000000000), .ofNat (x % 1000000000)), ?_, ?_⟩
  · rw [broadcastTime, hsec, hnsec]
    omega
  · rw [hnsec]
    omega

/-- A run in which every broadcast is heard at the time that it gives, and the thread waits. -/
theorem reachable_heard (hb : Broadcasts period 0 b) (hfirst : broadcastTime (b 0) = 0) (n : ℕ) :
    ∃ timestamp, (timed linkTimeout delay lag 0 b).Reachable
      ⟨⟨timestamp, .waiting (deadline .lp64 linkTimeout ⟨0, 0⟩)⟩, broadcastTime (b n), n⟩ := by
  induction n with
  | zero =>
    have hstart : Clock .lp64 ⟨0, 0⟩ :=
      clock_of_valid ⟨by decide, by decide⟩ (by decide) (by decide) _
    exact ⟨⟨0, 0⟩, .init ⟨⟨hstart, ⟨0, 0⟩, hstart, rfl⟩, by simp [nanos], by simp [hfirst], rfl⟩⟩
  | succ n ih =>
    obtain ⟨timestamp, hs⟩ := ih
    have hheard := hs.step (.hear _ (.refresh _ _ _))
    have hmono : (broadcastTime (b n) : Int) ≤ broadcastTime (b (n + 1)) := by
      exact_mod_cast (hb.next n).1
    refine ⟨_, hheard.step (.pass _ hmono fun i hi => ?_)⟩
    show i < n + 1
    by_contra hle
    obtain ⟨k, rfl⟩ := Nat.exists_eq_add_of_le (not_lt.1 hle)
    have hlater := (hb.le_add (n + 1) k).1
    omega

/-- If the link can expire before a broadcast has to have been heard, the thread leaves its loop. -/
theorem exists_cut (hle : linkTimeout.toNat * 1000000000 ≤ (lag + 1) * period + delay) :
    ∃ b s, Broadcasts period 0 b ∧ (timed linkTimeout delay lag 0 b).Reachable s ∧
      ¬s.watch.thread.Kept := by
  have htimeout := linkTimeout.toNat_lt
  choose b hb hnsec using fun i : ℕ =>
    exists_words (x := min (i * period) (linkTimeout.toNat * 1000000000)) (by omega)
  have hbroadcasts : Broadcasts period 0 b := by
    refine ⟨hnsec, ?_, fun i => ?_⟩
    · rw [hb, Nat.zero_mul]
      omega
    · rw [hb, hb, Nat.add_one_mul]
      omega
  obtain ⟨timestamp, hheard⟩ : ∃ timestamp, (timed linkTimeout delay lag 0 b).Reachable
      ⟨⟨timestamp, .waiting (deadline .lp64 linkTimeout ⟨0, 0⟩)⟩,
        broadcastTime (b (lag + 1)), lag + 1⟩ :=
    reachable_heard hbroadcasts (by simp [hb]) (lag + 1)
  -- the timestamp is set back to the time of the first broadcast
  have hrecent : Recent lag 0 b (lag + 1) (b 0) := by
    refine ⟨hnsec 0, by simp, fun i hi => ?_⟩
    rw [show i = 0 by omega]
  obtain ⟨t₀, hvalid, hzero, hrelayed⟩ : ∃ t₀ : Timespec, t₀.Valid ∧ nanos t₀ = 0 ∧
      (timed linkTimeout delay lag 0 b).Reachable
        ⟨⟨t₀, .waiting (deadline .lp64 linkTimeout ⟨0, 0⟩)⟩,
          broadcastTime (b (lag + 1)), lag + 1⟩ :=
    ⟨_, refreshed_valid _ (hnsec 0), by simp [nanos_broadcast, hb],
      hheard.step (.relay _ hrecent (.refresh _ _ _))⟩
  have hnow : Clock .lp64 ⟨linkTimeout.toNat, 0⟩ := by
    refine ⟨⟨by simp, by simp⟩, ?_⟩
    simp only [IsLong]
    omega
  have hexceeds : exceeds .lp64 (elapsed .lp64 ⟨linkTimeout.toNat, 0⟩ t₀) linkTimeout := by
    rw [exceeds_iff_expired hnow.valid hvalid, expired_iff_nanos, hzero]
    simp only [nanos]
    omega
  have hleft : wakeup .lp64 linkTimeout t₀ .timedOut ⟨linkTimeout.toNat, 0⟩ =
      .left ⟨linkTimeout.toNat, 0⟩ t₀ := by
    rw [wakeup_of_ne_zero .lp64 (by simp), if_pos hexceeds]
  have hpass : TimedStep linkTimeout delay lag 0 b
      ⟨⟨t₀, .waiting (deadline .lp64 linkTimeout ⟨0, 0⟩)⟩, broadcastTime (b (lag + 1)), lag + 1⟩
      (.pass (linkTimeout.toNat * 1000000000 : ℕ))
      ⟨⟨t₀, .waiting (deadline .lp64 linkTimeout ⟨0, 0⟩)⟩,
        (linkTimeout.toNat * 1000000000 : ℕ), lag + 1⟩ := by
    have hreached := hb (lag + 1)
    refine .pass _ (by dsimp only; omega) fun i hi => ?_
    show i < lag + 1
    by_contra hlt
    obtain ⟨k, rfl⟩ := Nat.exists_eq_add_of_le (not_lt.1 hlt)
    have hlater := (hbroadcasts.le_add (lag + 1) k).1
    omega
  have hwake : Step .lp64 linkTimeout ⟨t₀, .waiting (deadline .lp64 linkTimeout ⟨0, 0⟩)⟩
      (.wake .timedOut ⟨linkTimeout.toNat, 0⟩) ⟨t₀, .left ⟨linkTimeout.toNat, 0⟩ t₀⟩ := by
    rw [← hleft]
    refine .wake _ ⟨⟨by simp [deadline], by simp [deadline]⟩, ?_⟩ hnow
    simp [Timespec.Le, deadline, toLong]
  refine ⟨b, _, hbroadcasts, (hrelayed.step hpass).step (.wake _ (by simp) ?_ hwake), id⟩
  simp [nanos]

/-- **A live peer is not cut.** However its broadcasts, at most a period apart, the records that
others send about it and the thread of `timeout_handler` interleave, the thread does not leave its
loop, if and only if the delay and one period more than the broadcasts that those records can set
the timestamp back by are together less than the timeout. -/
theorem never_cut_iff (linkTimeout : UInt32) (period delay lag : ℕ) :
    (∀ start b s, Broadcasts period start b → (timed linkTimeout delay lag start b).Reachable s →
      s.watch.thread.Kept) ↔ (lag + 1) * period + delay < linkTimeout.toNat * 1000000000 := by
  constructor
  · intro h
    by_contra hle
    obtain ⟨b, s, hb, hs, hcut⟩ := exists_cut (not_lt.1 hle)
    exact hcut (h 0 b s hb hs)
  · intro hlt start b s hb hs
    exact (alive_of_reachable hb hlt hs).kept

end

end LinkProxy.Timeout
