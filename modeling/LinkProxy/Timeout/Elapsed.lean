import LinkProxy.Timeout.Handler

/-!
# The time that has passed

Two functions subtract times and borrow a second if the nanoseconds become negative:
`timeout_handler`, to compare the clock with the timestamp of its peer, and
`Bandwidth_Probe_Response`, to compute the round-trip time of a probe. The first one takes the
second that it has borrowed from the seconds, the second one adds it to them. So the two agree
exactly where nothing is borrowed (`agree_iff`).

On LP64 the comparison of `timeout_handler`, which leaves out the nanoseconds, is that of the exact
difference, for timestamps in the past and in the future, and a deadline that it computes lies ahead
of the clock (`pass_exact`).
-/

namespace LinkProxy.Timeout

open Wire

/-- A time in nanoseconds. -/
def nanos (t : Timespec) : Int := t.tvSec * 1000000000 + t.tvNsec

/-! ## Two subtractions -/

/-- The fields are subtracted; if the nanoseconds become negative, a second is added to them and
`borrow` to the seconds. -/
def subtract (dm : DataModel) (borrow : Int) (a b : Timespec) : Timespec :=
  let sec := toLong dm (a.tvSec - b.tvSec)
  let nsec := toLong dm (a.tvNsec - b.tvNsec)
  if nsec < 0 then ⟨toLong dm (sec + borrow), toLong dm (nsec + 1000000000)⟩ else ⟨sec, nsec⟩

/-- `tscmp` in `timeout_handler`: the clock minus the timestamp. -/
def tscmp (dm : DataModel) (now timestamp : Timespec) : Timespec := subtract dm (-1) now timestamp

/-- `ts` in `Bandwidth_Probe_Response`, from which the round-trip time is computed if the response is
that to the last probe: the clock minus the time of the probe. -/
def probeElapsed (dm : DataModel) (now tspkt : Timespec) : Timespec := subtract dm 1 now tspkt

/-- What `timeout_handler` compares are the seconds of the difference. -/
theorem elapsed_eq (dm : DataModel) (now timestamp : Timespec) :
    elapsed dm now timestamp = (tscmp dm now timestamp).tvSec := by
  unfold elapsed tscmp subtract
  dsimp only
  split_ifs <;> rfl

/-- **The two subtractions are exact and agree.** -/
structure Agree (dm : DataModel) (a b : Timespec) : Prop where
  eq : tscmp dm a b = probeElapsed dm a b
  valid : (tscmp dm a b).Valid
  diff : nanos (tscmp dm a b) = nanos a - nanos b

section

variable {dm : DataModel} {a b : Timespec}

/-- The difference of two numbers of nanoseconds is a `long`. -/
theorem toLong_nsec (ha : a.Valid) (hb : b.Valid) :
    toLong dm (a.tvNsec - b.tvNsec) = a.tvNsec - b.tvNsec := by
  obtain ⟨ha₀, ha₁⟩ := ha
  obtain ⟨hb₀, hb₁⟩ := hb
  cases dm with
  | lp64 => rfl
  | ilp32 => exact Int.bmod_eq_of_le (by omega) (by omega)

/-- Without a borrow both are the differences of the fields. -/
theorem subtract_of_le (borrow : Int) (ha : a.Valid) (hb : b.Valid) (h : b.tvNsec ≤ a.tvNsec) :
    subtract dm borrow a b = ⟨toLong dm (a.tvSec - b.tvSec), a.tvNsec - b.tvNsec⟩ := by
  rw [subtract, toLong_nsec ha hb]
  exact if_neg (by omega)

/-- With a borrow the seconds depend on it. -/
theorem subtract_of_lt (borrow : Int) (ha : a.Valid) (hb : b.Valid) (h : a.tvNsec < b.tvNsec) :
    (subtract dm borrow a b).tvSec = toLong dm (toLong dm (a.tvSec - b.tvSec) + borrow) := by
  have hneg : a.tvNsec - b.tvNsec < 0 := by omega
  simp only [subtract, toLong_nsec ha hb, if_pos hneg]

/-- The neighbours of a `long` on its two sides are not the same. -/
theorem toLong_pred_ne_succ (dm : DataModel) (x : Int) :
    toLong dm (x + -1) ≠ toLong dm (x + 1) := by
  cases dm with
  | lp64 =>
    simp only [toLong]
    omega
  | ilp32 =>
    intro h
    have hpred := wrap32_emod (x + -1)
    have hsucc := wrap32_emod (x + 1)
    simp only [toLong] at h
    rw [h] at hpred
    omega

/-- A difference is the value of its `long` if it fits. -/
theorem toLong_eq_iff (x : Int) : toLong dm x = x ↔ (dm = .ilp32 → IsLong dm x) := by
  cases dm with
  | lp64 => exact iff_of_true rfl fun h => DataModel.noConfusion h
  | ilp32 =>
    simp only [toLong, IsLong, forall_const, wrap32]
    refine ⟨fun h => ?_, fun h => Int.bmod_eq_of_le (by omega) (by omega)⟩
    have hle := Int.le_bmod (x := x) (m := 4294967296) (by omega)
    have hlt := Int.bmod_lt (x := x) (m := 4294967296) (by omega)
    omega

end

/-- **When the two elapsed times are exact and agree**: nothing is borrowed, and where `long` has 32
bits, the difference of the seconds fits it. -/
theorem agree_iff (dm : DataModel) {a b : Timespec} (ha : a.Valid) (hb : b.Valid) :
    Agree dm a b ↔ b.tvNsec ≤ a.tvNsec ∧ (dm = .ilp32 → IsLong dm (a.tvSec - b.tvSec)) := by
  rw [← toLong_eq_iff]
  constructor
  · intro h
    have hle : b.tvNsec ≤ a.tvNsec := by
      by_contra hlt
      have hsec := congrArg Timespec.tvSec h.eq
      rw [tscmp, probeElapsed, subtract_of_lt _ ha hb (by omega),
        subtract_of_lt _ ha hb (by omega)] at hsec
      exact toLong_pred_ne_succ dm _ hsec
    have hdiff := h.diff
    rw [tscmp, subtract_of_le _ ha hb hle] at hdiff
    simp only [nanos] at hdiff
    exact ⟨hle, by omega⟩
  · rintro ⟨hle, hsec⟩
    obtain ⟨ha₀, ha₁⟩ := ha
    obtain ⟨hb₀, hb₁⟩ := hb
    have hsub (borrow : Int) : subtract dm borrow a b =
        ⟨a.tvSec - b.tvSec, a.tvNsec - b.tvNsec⟩ := by
      rw [subtract_of_le borrow ⟨ha₀, ha₁⟩ ⟨hb₀, hb₁⟩ hle, hsec]
    refine ⟨(hsub _).trans (hsub _).symm, ?_, ?_⟩
    · rw [tscmp, hsub]
      simp only [Timespec.Valid]
      omega
    · rw [tscmp, hsub]
      simp only [nanos]
      omega

/-- Two seconds and five nanoseconds have passed. -/
theorem agree_two_seconds : Agree .ilp32 ⟨5, 7⟩ ⟨3, 2⟩ :=
  (agree_iff .ilp32 (by decide) (by decide)).2 ⟨by decide, fun _ => by
    simp only [IsLong]
    omega⟩

/-- The nanoseconds wrap between the probe and its echo: 999999995 nanoseconds have passed, and the
round-trip time is computed from two seconds more. -/
theorem probe_adds_borrow : Timespec.Valid ⟨2, 0⟩ ∧ Timespec.Valid ⟨1, 5⟩ ∧
    Timespec.Le ⟨1, 5⟩ ⟨2, 0⟩ ∧
    tscmp .lp64 ⟨2, 0⟩ ⟨1, 5⟩ = ⟨0, 999999995⟩ ∧ probeElapsed .lp64 ⟨2, 0⟩ ⟨1, 5⟩ = ⟨2, 999999995⟩ ∧
    ¬Agree .lp64 ⟨2, 0⟩ ⟨1, 5⟩ := by
  refine ⟨by decide, by decide, by decide, by decide, by decide, fun h => ?_⟩
  exact absurd h.eq (by decide)

/-! ## The comparison and the next deadline -/

section

variable {linkTimeout : UInt32} {now timestamp : Timespec}

theorem expired_iff_nanos : Expired linkTimeout now timestamp ↔
    linkTimeout.toNat * 1000000000 ≤ nanos now - nanos timestamp := by
  unfold Expired nanos
  omega

/-- **The comparison of the seconds is that of the exact difference.** -/
theorem exceeds_iff_expired (hnow : now.Valid) (htimestamp : timestamp.Valid) :
    exceeds .lp64 (elapsed .lp64 now timestamp) linkTimeout ↔
      Expired linkTimeout now timestamp := by
  obtain ⟨hn₀, hn₁⟩ := hnow
  obtain ⟨ht₀, ht₁⟩ := htimestamp
  rw [expired_iff_nanos]
  simp only [exceeds, elapsed, toLong, nanos]
  split_ifs <;> omega

/-- The deadline is the timeout after the timestamp. -/
theorem nanos_deadline (linkTimeout : UInt32) (timestamp : Timespec) :
    nanos (deadline .lp64 linkTimeout timestamp) =
      nanos timestamp + linkTimeout.toNat * 1000000000 := by
  simp only [nanos, deadline, toLong]
  omega

/-- What a pass of the loop does behind a wait that has not returned `0`. -/
theorem wakeup_of_ne_zero (dm : DataModel) {r : WaitResult} (hr : r ≠ .zero) :
    wakeup dm linkTimeout timestamp r now =
      if exceeds dm (elapsed dm now timestamp) linkTimeout then .left now timestamp
      else .waiting (deadline dm linkTimeout timestamp) := by
  cases r with
  | zero => exact absurd rfl hr
  | timedOut => rfl
  | invalid => rfl

/-- A pass that waits again has a deadline ahead of the clock. -/
theorem now_lt_of_waiting {r : WaitResult} {ts : Timespec} (hnow : now.Valid)
    (htimestamp : timestamp.Valid) (h : wakeup .lp64 linkTimeout timestamp r now = .waiting ts) :
    nanos now < nanos ts := by
  have hr : r ≠ .zero := by
    rintro rfl
    cases h
  rw [wakeup_of_ne_zero .lp64 hr] at h
  split_ifs at h with hexceeds
  rw [exceeds_iff_expired hnow htimestamp, expired_iff_nanos] at hexceeds
  injection h with hts
  rw [← hts, nanos_deadline]
  omega

end

/-- The nanoseconds of every record that refreshes the timestamp are less than a second. -/
def ValidRecords (_ : Watch) : Action → Prop
  | .refresh _ nsec => nsec.toNat < 1000000000
  | _ => True

/-- `Link_State` stores a time then. -/
theorem refreshed_valid {nsec : UInt32} (sec : UInt32) (h : nsec.toNat < 1000000000) :
    Timespec.Valid ⟨DataModel.lp64.toLong sec, DataModel.lp64.toLong nsec⟩ := by
  simp only [Timespec.Valid, DataModel.toLong]
  omega

/-- And the timestamp is a time in every run. -/
theorem timestamp_valid {linkTimeout : UInt32} {s : Watch}
    (hs : ((watch .lp64 linkTimeout).guard ValidRecords).Reachable s) : s.timestamp.Valid := by
  refine hs.invariant (P := fun s => s.timestamp.Valid) ?_ ?_
  · rintro s ⟨hclock, -⟩
    exact hclock.valid
  rintro s a t hvalid ⟨hrecord, hstep⟩
  cases hstep with
  | refresh _ sec nsec => exact refreshed_valid sec hrecord
  | wake => exact hvalid
  | cancelWaiting => exact hvalid
  | cancelLeft => exact hvalid
  | remove => exact hvalid

/-- **Expiry and re-arming.** With a 64-bit `time_t`, a pass of the loop behind a wait that has not
returned `0` leaves it exactly if the timeout has passed since the timestamp, to the nanosecond.
Else the new deadline is the timeout after the timestamp; it is a time, and lies ahead of the clock.
So in no run does the loop wait for a deadline that has passed when it is set. -/
theorem pass_exact (linkTimeout : UInt32) :
    (∀ (r : WaitResult) (now timestamp : Timespec), r ≠ .zero → now.Valid → timestamp.Valid →
      (wakeup .lp64 linkTimeout timestamp r now = .left now timestamp ↔
        linkTimeout.toNat * 1000000000 ≤ nanos now - nanos timestamp) ∧
      (¬linkTimeout.toNat * 1000000000 ≤ nanos now - nanos timestamp →
        ∃ ts, wakeup .lp64 linkTimeout timestamp r now = .waiting ts ∧
          nanos ts = nanos timestamp + linkTimeout.toNat * 1000000000 ∧ ts.Valid ∧
          nanos now < nanos ts)) ∧
    ∀ (s : Watch), ((watch .lp64 linkTimeout).guard ValidRecords).Reachable s →
      ∀ (r : WaitResult) (now ts : Timespec) (s' : Watch),
        (watch .lp64 linkTimeout).step s (.wake r now) s' → s'.thread = .waiting ts →
          nanos now < nanos ts := by
  constructor
  · intro r now timestamp hr hnow htimestamp
    rw [wakeup_of_ne_zero .lp64 hr, ← expired_iff_nanos, ← exceeds_iff_expired hnow htimestamp]
    refine ⟨⟨fun h => ?_, fun h => if_pos h⟩,
      fun h => ⟨_, if_neg h, nanos_deadline _ _, htimestamp, ?_⟩⟩
    · by_contra hne
      rw [if_neg hne] at h
      cases h
    · rw [exceeds_iff_expired hnow htimestamp, expired_iff_nanos] at h
      rw [nanos_deadline]
      omega
  · intro s hs r now ts s' hstep hthread
    have hvalid := timestamp_valid hs
    cases hstep with
    | wake timestamp hr hnow => exact now_lt_of_waiting hnow.valid hvalid hthread

/-- Ten seconds after the timestamp the loop is left, and a nanosecond earlier it waits again. -/
theorem pass_exact_ten_seconds :
    wakeup .lp64 10 ⟨105, 0⟩ .timedOut ⟨115, 0⟩ = .left ⟨115, 0⟩ ⟨105, 0⟩ ∧
      ∃ ts, wakeup .lp64 10 ⟨105, 1⟩ .timedOut ⟨115, 0⟩ = .waiting ts ∧
        nanos ⟨115, 0⟩ < nanos ts := by
  obtain ⟨hpass, -⟩ := pass_exact 10
  have hleft := (hpass .timedOut ⟨115, 0⟩ ⟨105, 0⟩ (by decide) (by decide) (by decide)).1
  have hwaits := (hpass .timedOut ⟨115, 0⟩ ⟨105, 1⟩ (by decide) (by decide) (by decide)).2
  obtain ⟨ts, hts, -, -, hlt⟩ := hwaits (by decide)
  exact ⟨hleft.2 (by decide), ts, hts, hlt⟩

end LinkProxy.Timeout
