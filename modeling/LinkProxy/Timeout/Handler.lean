import LinkProxy.Foundations.Transition
import LinkProxy.Wire.Packets

/-!
# The timeout of a link

`timeout_handler` waits with `pthread_cond_timedwait` for the moment at which the link to its peer
expires. When the wait ends with an error, it compares the clock with the timestamp of the peer,
which `Link_State` may have refreshed in the meantime, and either leaves its loop or computes a new
deadline from the timestamp. When the wait returns `0`, which nothing but a spurious wakeup can make
it do, since nobody signals the condition, it leaves its loop at once. Behind the loop it removes
the peer.

The steps are those of one peer: refreshes of its timestamp, and wakeups of its thread with any
result that POSIX allows and any reading of the clock (`watch`). Without spurious wakeups, and with
timestamps that are times, a peer is removed only if its link has expired (`removed_expired`). Where
`long` has 32 bits, the seconds that have passed are compared as an unsigned number, so the
timestamp must not be later than the clock either.
-/

namespace LinkProxy.Timeout

open Wire

/-! ## Times -/

/-- An integer stored in a `long`. Seconds and nanoseconds do not overflow 64 bits. -/
def toLong : DataModel → Int → Int
  | .ilp32, x => wrap32 x
  | .lp64, x => x

/-- `ts.tv_sec+=config.link_timeout`. -/
def deadline (dm : DataModel) (linkTimeout : UInt32) (t : Timespec) : Timespec :=
  ⟨toLong dm (t.tvSec + linkTimeout.toNat), t.tvNsec⟩

/-- The seconds in `tscmp`, the clock minus the timestamp, after the borrow. -/
def elapsed (dm : DataModel) (now timestamp : Timespec) : Int :=
  let sec := toLong dm (now.tvSec - timestamp.tvSec)
  let nsec := toLong dm (now.tvNsec - timestamp.tvNsec)
  if nsec < 0 then toLong dm (sec - 1) else sec

/-- `tscmp.tv_sec>=config.link_timeout`, a comparison of a `long` with a `uint32_t`. -/
def exceeds (dm : DataModel) (sec : Int) (linkTimeout : UInt32) : Prop :=
  match dm with
  | .ilp32 => linkTimeout.toNat ≤ sec % 4294967296
  | .lp64 => linkTimeout.toNat ≤ sec

instance (dm : DataModel) (sec : Int) (linkTimeout : UInt32) :
    Decidable (exceeds dm sec linkTimeout) :=
  match dm with
  | .ilp32 => inferInstanceAs (Decidable (_ ≤ _))
  | .lp64 => inferInstanceAs (Decidable (_ ≤ _))

/-- The difference of two times is at least the timeout. -/
def Expired (linkTimeout : UInt32) (now timestamp : Timespec) : Prop :=
  linkTimeout.toNat * 1000000000 ≤ (now.tvSec - timestamp.tvSec) * 1000000000 +
    (now.tvNsec - timestamp.tvNsec)

instance (linkTimeout : UInt32) (now timestamp : Timespec) :
    Decidable (Expired linkTimeout now timestamp) :=
  inferInstanceAs (Decidable (_ ≤ _))

/-- A value that a field of a `timespec` can have. -/
def IsLong : DataModel → Int → Prop
  | .ilp32, x => -2147483648 ≤ x ∧ x < 2147483648
  | .lp64, x => -9223372036854775808 ≤ x ∧ x < 9223372036854775808

/-- A reading of the clock. -/
structure Clock (dm : DataModel) (t : Timespec) : Prop where
  valid : t.Valid
  sec : IsLong dm t.tvSec

/-! ## The thread -/

/-- What `pthread_cond_timedwait` returns: `0`, `ETIMEDOUT` or `EINVAL`. -/
inductive WaitResult
  | zero
  | timedOut
  | invalid
  deriving DecidableEq, Repr

/-- The results that POSIX allows for a deadline at a time. -/
def WaitResult.Allowed (ts now : Timespec) : WaitResult → Prop
  | .zero => ts.Valid
  | .timedOut => ts.Valid ∧ ts.Le now
  | .invalid => ¬ts.Valid

/-- Where a thread that runs `timeout_handler` is: in the wait with a deadline; behind its loop,
which it has left at a time, with a timestamp that it has found there; or at its end, with or
without the removal of the peer. -/
inductive Thread
  | waiting (ts : Timespec)
  | left (now timestamp : Timespec)
  | removed (now timestamp : Timespec)
  | cancelled
  deriving DecidableEq

/-- The end of a wait: the loop of `timeout_handler` once around. -/
def wakeup (dm : DataModel) (linkTimeout : UInt32) (timestamp : Timespec) (r : WaitResult)
    (now : Timespec) : Thread :=
  match r with
  | .zero => .left now timestamp
  | .timedOut | .invalid =>
    if exceeds dm (elapsed dm now timestamp) linkTimeout then .left now timestamp
    else .waiting (deadline dm linkTimeout timestamp)

/-- A peer and its thread. -/
structure Watch where
  timestamp : Timespec
  thread : Thread

/-- What happens: `Link_State` sets the timestamp from two words of a record, the wait ends, the
thread is cancelled, or it removes the peer. -/
inductive Action
  | refresh (sec nsec : UInt32)
  | wake (r : WaitResult) (now : Timespec)
  | cancel
  | remove

section

variable (dm : DataModel) (linkTimeout : UInt32)

/-- The steps of a peer and its thread. -/
inductive Step : Watch → Action → Watch → Prop
  | refresh (s : Watch) (sec nsec : UInt32) :
      Step s (.refresh sec nsec) { s with timestamp := ⟨dm.toLong sec, dm.toLong nsec⟩ }
  | wake (timestamp : Timespec) {ts now : Timespec} {r : WaitResult} (hr : r.Allowed ts now)
      (hnow : Clock dm now) : Step ⟨timestamp, .waiting ts⟩ (.wake r now)
        ⟨timestamp, wakeup dm linkTimeout timestamp r now⟩
  | cancelWaiting (timestamp ts : Timespec) :
      Step ⟨timestamp, .waiting ts⟩ .cancel ⟨timestamp, .cancelled⟩
  | cancelLeft (timestamp now t : Timespec) :
      Step ⟨timestamp, .left now t⟩ .cancel ⟨timestamp, .cancelled⟩
  | remove (timestamp now t : Timespec) :
      Step ⟨timestamp, .left now t⟩ .remove ⟨timestamp, .removed now t⟩

/-- A peer that `add_member` has added, and whose thread has just computed its first deadline. -/
def watch : TransitionSystem Watch Action where
  init s := Clock dm s.timestamp ∧
    ∃ now, Clock dm now ∧ s.thread = .waiting (deadline dm linkTimeout now)
  step := Step dm linkTimeout

/-- The condition on the steps: no wait returns `0`, and at the end of a wait the nanoseconds of the
timestamp are less than a second and, where `long` has 32 bits, the timestamp is not later than the
clock. -/
def Regular (s : Watch) : Action → Prop
  | .wake r now => r ≠ .zero ∧ s.timestamp.Valid ∧ (dm = .ilp32 → s.timestamp.Le now)
  | _ => True

end

/-! ## Removal -/

section

variable {dm : DataModel} {linkTimeout : UInt32} {now timestamp : Timespec}

/-- **A comparison that comes out in favour of removal is right**, for a timestamp that is a time
and, where `long` has 32 bits, has passed. -/
theorem expired_of_exceeds (hnow : Clock dm now) (hsec : IsLong dm timestamp.tvSec)
    (hvalid : timestamp.Valid) (hle : dm = .ilp32 → timestamp.Le now)
    (h : exceeds dm (elapsed dm now timestamp) linkTimeout) : Expired linkTimeout now timestamp := by
  obtain ⟨⟨hn₀, hn₁⟩, hnsec⟩ := hnow
  obtain ⟨ht₀, ht₁⟩ := hvalid
  unfold Expired
  cases dm with
  | lp64 =>
    simp only [exceeds, elapsed, toLong] at h
    split_ifs at h <;> omega
  | ilp32 =>
    have hpast := hle rfl
    simp only [IsLong] at hnsec hsec
    have hwrap : wrap32 (now.tvNsec - timestamp.tvNsec) = now.tvNsec - timestamp.tvNsec :=
      Int.bmod_eq_of_le (by omega) (by omega)
    simp only [exceeds, elapsed, toLong, hwrap] at h
    unfold Timespec.Le at hpast
    split_ifs at h with hborrow
    · have hsub : wrap32 (wrap32 (now.tvSec - timestamp.tvSec) - 1) % 4294967296 =
          now.tvSec - timestamp.tvSec - 1 := by
        rw [wrap32_emod, Int.sub_emod, wrap32_emod, ← Int.sub_emod]
        exact Int.emod_eq_of_lt (by omega) (by omega)
      omega
    · have hsub : wrap32 (now.tvSec - timestamp.tvSec) % 4294967296 =
          now.tvSec - timestamp.tvSec := by
        rw [wrap32_emod]
        exact Int.emod_eq_of_lt (by omega) (by omega)
      omega

theorem isLong_toLong (dm : DataModel) (x : UInt32) : IsLong dm (dm.toLong x) := by
  have hx := x.toNat_lt
  cases dm with
  | lp64 =>
    simp only [IsLong, DataModel.toLong]
    omega
  | ilp32 =>
    simp only [IsLong, DataModel.toLong, wrap32, Int.bmod_def]
    split_ifs <;> omega

/-- The seconds of the timestamp are a `long`, and a thread that is behind its loop has left it at a
time at which the link had expired. -/
structure Watch.Inv (dm : DataModel) (linkTimeout : UInt32) (s : Watch) : Prop where
  sec : IsLong dm s.timestamp.tvSec
  expired : ∀ now t, s.thread = .left now t ∨ s.thread = .removed now t → Expired linkTimeout now t

/-- Without `0` from the wait, a thread leaves its loop only if the link has expired. -/
theorem wakeup_left {r : WaitResult} {t now' : Timespec} (hr : r ≠ .zero) (hnow : Clock dm now)
    (hsec : IsLong dm timestamp.tvSec) (hvalid : timestamp.Valid)
    (hle : dm = .ilp32 → timestamp.Le now)
    (h : wakeup dm linkTimeout timestamp r now = .left now' t) : Expired linkTimeout now' t := by
  have hloop : (if exceeds dm (elapsed dm now timestamp) linkTimeout then .left now timestamp
      else .waiting (deadline dm linkTimeout timestamp)) = Thread.left now' t := by
    cases r with
    | zero => exact absurd rfl hr
    | timedOut => exact h
    | invalid => exact h
  split_ifs at hloop with hexceeds
  injection hloop with h₁ h₂
  subst h₁ h₂
  exact expired_of_exceeds hnow hsec hvalid hle hexceeds

/-- A wakeup does not remove the peer. -/
theorem wakeup_ne_removed {r : WaitResult} {t now' : Timespec} :
    wakeup dm linkTimeout timestamp r now ≠ .removed now' t := by
  intro h
  cases r with
  | zero => cases h
  | timedOut | invalid =>
    simp only [wakeup] at h
    split at h <;> cases h

/-- What one step preserves. -/
theorem Watch.Inv.step {s s' : Watch} {a : Action} (h : s.Inv dm linkTimeout)
    (hregular : Regular dm s a) (hstep : Step dm linkTimeout s a s') : s'.Inv dm linkTimeout := by
  cases hstep with
  | refresh _ sec nsec => exact ⟨isLong_toLong dm sec, h.expired⟩
  | wake timestamp hr hnow =>
    obtain ⟨hzero, hvalid, hle⟩ := hregular
    refine ⟨h.sec, fun now t ht => ?_⟩
    rcases ht with ht | ht
    · exact wakeup_left hzero hnow h.sec hvalid hle ht
    · exact absurd ht wakeup_ne_removed
  | cancelWaiting => exact ⟨h.sec, by simp⟩
  | cancelLeft => exact ⟨h.sec, by simp⟩
  | remove timestamp now t =>
    refine ⟨h.sec, fun now' t' ht => ?_⟩
    rcases ht with ht | ht
    · cases ht
    · cases ht
      exact h.expired now t (.inl rfl)

/-- **A refreshed link is not cut.** Whatever refreshes and wakeups have come before, a thread that
has left its loop, and removes the peer, has left it at a time at which the timestamp of the peer
was at least the timeout old. -/
theorem removed_expired {s : Watch} (hs : ((watch dm linkTimeout).guard (Regular dm)).Reachable s)
    (h : s.thread = .left now timestamp ∨ s.thread = .removed now timestamp) :
    Expired linkTimeout now timestamp := by
  have hinv : s.Inv dm linkTimeout := by
    refine hs.invariant (P := Watch.Inv dm linkTimeout) ?_ ?_
    · rintro s ⟨hclock, now, -, hthread⟩
      exact ⟨hclock.sec, by simp [hthread]⟩
    · exact fun s a t hinv hstep => hinv.step hstep.1 hstep.2
  exact hinv.expired now timestamp h

end

/-- A peer that has been added at second 100, with a timeout of 10 seconds. -/
def added : Watch := ⟨⟨100, 0⟩, .waiting ⟨110, 0⟩⟩

theorem clock_of_valid {t : Timespec} (hvalid : t.Valid) (h₀ : 0 ≤ t.tvSec)
    (h₁ : t.tvSec < 2147483648) (dm : DataModel) : Clock dm t := by
  refine ⟨hvalid, ?_⟩
  cases dm <;> simp only [IsLong] <;> omega

theorem init_added : (watch .lp64 10).init added :=
  ⟨clock_of_valid (by decide) (by decide) (by decide) _,
    ⟨100, 0⟩, clock_of_valid (by decide) (by decide) (by decide) _, rfl⟩

/-- The link is refreshed at second 105, so that the thread waits once more at second 110, and
removes the peer at second 116. -/
theorem removed_expired_refreshed :
    ∃ s, ((watch .lp64 10).guard (Regular .lp64)).Reachable s ∧
      s.thread = .removed ⟨116, 0⟩ ⟨105, 0⟩ ∧ Expired 10 ⟨116, 0⟩ ⟨105, 0⟩ := by
  have h₁ : ((watch .lp64 10).guard (Regular .lp64)).Reachable ⟨⟨105, 0⟩, .waiting ⟨110, 0⟩⟩ :=
    .step (a := .refresh 105 0) (.init init_added) ⟨trivial, .refresh added 105 0⟩
  have h₂ : ((watch .lp64 10).guard (Regular .lp64)).Reachable ⟨⟨105, 0⟩, .waiting ⟨115, 0⟩⟩ :=
    .step (a := .wake .timedOut ⟨110, 0⟩) h₁ ⟨⟨by decide, by decide, by decide⟩,
      .wake _ ⟨by decide, by decide⟩ (clock_of_valid (by decide) (by decide) (by decide) _)⟩
  have h₃ : ((watch .lp64 10).guard (Regular .lp64)).Reachable
      ⟨⟨105, 0⟩, .left ⟨116, 0⟩ ⟨105, 0⟩⟩ :=
    .step (a := .wake .timedOut ⟨116, 0⟩) h₂ ⟨⟨by decide, by decide, by decide⟩,
      .wake _ ⟨by decide, by decide⟩ (clock_of_valid (by decide) (by decide) (by decide) _)⟩
  have h₄ : ((watch .lp64 10).guard (Regular .lp64)).Reachable
      ⟨⟨105, 0⟩, .removed ⟨116, 0⟩ ⟨105, 0⟩⟩ :=
    .step (a := .remove) h₃ ⟨trivial, .remove _ _ _⟩
  exact ⟨_, h₄, rfl, removed_expired h₄ (.inr rfl)⟩

/-- A wait that returns `0` one second after the peer has been added: the peer is removed, with nine
seconds of its timeout left. -/
theorem spurious_wakeup_cuts : ¬∀ (dm : DataModel) (linkTimeout : UInt32) (s : Watch)
    (now timestamp : Timespec), (watch dm linkTimeout).Reachable s →
      s.thread = .removed now timestamp → Expired linkTimeout now timestamp := by
  intro h
  have h₁ : (watch .lp64 10).Reachable ⟨⟨100, 0⟩, .left ⟨101, 0⟩ ⟨100, 0⟩⟩ := by
    have hallowed : WaitResult.zero.Allowed ⟨110, 0⟩ ⟨101, 0⟩ := by
      rw [WaitResult.Allowed]
      decide
    exact .step (a := .wake .zero ⟨101, 0⟩) (.init init_added)
      (.wake _ hallowed (clock_of_valid (by decide) (by decide) (by decide) _))
  have h₂ : (watch .lp64 10).Reachable ⟨⟨100, 0⟩, .removed ⟨101, 0⟩ ⟨100, 0⟩⟩ :=
    .step (a := .remove) h₁ (.remove _ _ _)
  exact absurd (h _ _ _ _ _ h₂ rfl) (by decide)

end LinkProxy.Timeout
