import LinkProxy.Foundations.Transition
import LinkProxy.Rio.Writer

/-!
# Several writers on one descriptor

`rio_write` as it runs in several threads of the process at the same time, on one descriptor. The
atomic steps are the calls of `Lock`, `Wait` and `write`; the kernel accepts as much of what is left
of a packet as it likes. The record lock belongs to the process, so `Lock` makes no thread wait for
another one. A thread by itself does what `rioWrite` says (`rioWrite_steps`).

In every run in which bytes are accepted from a thread only while no packet of another thread has
been accepted in part, the bytes accepted are the packets one after the other whenever nobody is
writing and nobody has failed (`packets_whole`).
-/

namespace LinkProxy.Rio

/-! ## One call of `rio_write` -/

/-- Where a thread stands in `rio_write`, with its packet and the number of bytes of it that have
been accepted. -/
inductive Phase
  | idle
  | locking (packet : List UInt8)
  | looping (packet : List UInt8) (n : ℕ)
  | writing (packet : List UInt8) (n : ℕ)
  | failing (packet : List UInt8) (n : ℕ)
  deriving DecidableEq

/-- What a thread does next: it calls `rio_write`, or a call that it makes there returns. A `write`
that is interrupted accepts nothing; one that fails has no count. -/
inductive Act
  | call (packet : List UInt8)
  | lock (ok : Bool)
  | wait (ok : Bool)
  | write (count : Option ℕ)
  | unlock (ok : Bool)

/-- The descriptor and its writers: where they stand, the bytes accepted, the packets that
`rio_write` has been called for, and whether a call has failed. -/
structure Shared (ι : Type) where
  phase : ι → Phase
  accepted : List UInt8
  calls : List (List UInt8)
  failed : Bool

section

variable {ι : Type} [DecidableEq ι]

/-- A thread moves on. -/
def Shared.move (s : Shared ι) (i : ι) (p : Phase) : Shared ι :=
  { s with phase := Function.update s.phase i p }

/-- A call of `rio_write` returns. -/
def Shared.return (s : Shared ι) (i : ι) (ok : Bool) : Shared ι :=
  { s.move i .idle with failed := s.failed || !ok }

/-- The state after a step of a thread, if it can take it. -/
def Shared.exec (s : Shared ι) (i : ι) (a : Act) : Option (Shared ι) :=
  match s.phase i, a with
  | .idle, .call packet => some { s.move i (.locking packet) with calls := s.calls ++ [packet] }
  | .locking packet, .lock ok =>
    some (if ok then s.move i (.looping packet 0) else s.return i false)
  | .looping packet n, .wait ok =>
    if n < packet.length then
      some (if ok then s.move i (.writing packet n) else s.return i false)
    else none
  | .looping packet n, .unlock ok => if n < packet.length then none else some (s.return i ok)
  | .writing packet n, .write (some k) =>
    if n + k ≤ packet.length then
      some { s.move i (.looping packet (n + k)) with
        accepted := s.accepted ++ (packet.drop n).take k }
    else none
  | .writing packet n, .write none => some (s.move i (.failing packet n))
  | .failing _ _, .unlock _ => some (s.return i false)
  | _, _ => none

/-- The writers of a descriptor. -/
def sharedDescriptor (ι : Type) [DecidableEq ι] : TransitionSystem (Shared ι) (ι × Act) where
  init s := s = ⟨fun _ => .idle, [], [], false⟩
  step s a t := s.exec a.1 a.2 = some t

end

/-! ## A thread by itself -/

section

variable {ι : Type} [DecidableEq ι] {s : Shared ι} {i : ι}

/-- The steps of one thread. -/
def Steps (i : ι) (s t : Shared ι) : Prop :=
  Relation.ReflTransGen (fun s t => ∃ a, s.exec i a = some t) s t

theorem Steps.head {t u : Shared ι} {a : Act} (hstep : s.exec i a = some t) (h : Steps i t u) :
    Steps i s u := Relation.ReflTransGen.head ⟨a, hstep⟩ h

/-- What a thread has done that was at a point of `rio_write` and has returned. -/
structure Returned (s : Shared ι) (i : ι) (r : Int) (w' : Sys) (t : Shared ι) : Prop where
  steps : Steps i s t
  phase : t.phase = Function.update s.phase i .idle
  accepted : t.accepted = w'.sent
  calls : t.calls = s.calls
  failed : t.failed = (s.failed || decide (r < 0))

theorem Returned.step {t u : Shared ι} {a : Act} {p : Phase} {r : Int} {w' : Sys}
    (h : Returned t i r w' u) (hstep : s.exec i a = some t)
    (hphase : t.phase = Function.update s.phase i p) (hcalls : t.calls = s.calls)
    (hfailed : t.failed = s.failed) : Returned s i r w' u where
  steps := .head hstep h.steps
  phase := by rw [h.phase, hphase, Function.update_idem]
  accepted := h.accepted
  calls := h.calls.trans hcalls
  failed := by rw [h.failed, hfailed]

theorem returned_return {a : Act} {r : Int} {w' : Sys} {ok : Bool}
    (hstep : s.exec i a = some (s.return i ok)) (hsent : s.accepted = w'.sent)
    (hr : decide (r < 0) = !ok) : Returned s i r w' (s.return i ok) where
  steps := .head hstep .refl
  phase := rfl
  accepted := hsent
  calls := rfl
  failed := by rw [hr]; rfl

/-- The loop of `rio_write` is a run of its thread. -/
theorem rioWriteLoop_steps {packet : List UInt8} {n fuel : ℕ} {w w' : Sys} {r : Int}
    (h : rioWriteLoop packet.length fuel (packet.drop n) w = some (r, w')) (hn : n ≤ packet.length)
    (hphase : s.phase i = .looping packet n) (hsent : s.accepted = w.sent) :
    ∃ t, Returned s i r w' t := by
  induction fuel generalizing n w s with
  | zero => cases h
  | succ fuel ih =>
    rw [rioWriteLoop, List.length_drop] at h
    split_ifs at h with hleft
    · obtain ⟨⟨r₁, w₁⟩, hl, h⟩ := Option.bind_eq_some_iff.1 h
      obtain ⟨hr₁, -, -, hs₁⟩ := lock_spec hl
      have hunlock (ok : Bool) : s.exec i (.unlock ok) = some (s.return i ok) := by
        simp only [Shared.exec, hphase]
        rw [if_neg (by omega)]
      rcases hr₁ with rfl | rfl
      · cases h
        refine ⟨_, returned_return (hunlock true) (hsent.trans hs₁.symm) ?_⟩
        simp
      · cases h
        exact ⟨_, returned_return (hunlock false) (hsent.trans hs₁.symm) (by decide)⟩
    · obtain ⟨⟨r₁, w₁⟩, hw₁, h⟩ := Option.bind_eq_some_iff.1 h
      obtain ⟨hr₁, -, -, hs₁⟩ := wait_pollout hw₁
      have hwait (ok : Bool) : s.exec i (.wait ok) =
          some (if ok then s.move i (.writing packet n) else s.return i false) := by
        simp only [Shared.exec, hphase]
        rw [if_pos (by omega)]
      rcases hr₁ with rfl | rfl
      swap
      · cases h
        exact ⟨_, returned_return (hwait false) (hsent.trans hs₁.symm) (by decide)⟩
      simp only [lt_irrefl, if_false] at h
      obtain ⟨⟨res, w₂⟩, hw₂, h⟩ := Option.bind_eq_some_iff.1 h
      -- a `write` that accepts `k` bytes, and the rest of the loop
      have hgo {k : ℕ} (hk : n + k ≤ packet.length)
          (hs₂ : w₂.sent = w.sent ++ (packet.drop n).take k)
          (h : rioWriteLoop packet.length fuel (packet.drop (n + k)) w₂ = some (r, w')) :
          ∃ t, Returned s i r w' t := by
        have hwrite : (s.move i (.writing packet n)).exec i (.write (some k)) =
            some { s.move i (.looping packet (n + k)) with
              accepted := s.accepted ++ (packet.drop n).take k } := by
          simp [Shared.exec, Shared.move, hk]
        obtain ⟨t, ht⟩ := ih (s := { s.move i (.looping packet (n + k)) with
          accepted := s.accepted ++ (packet.drop n).take k }) h hk (by simp [Shared.move])
          (by simp [hsent, hs₂])
        refine ⟨t, (ht.step hwrite (p := .looping packet (n + k)) ?_ rfl rfl).step (hwait true)
          (p := .writing packet n) rfl rfl rfl⟩
        simp [Shared.move]
      obtain ⟨-, ⟨k, hk, rfl, hs₂⟩ | ⟨e, rfl, hs₂⟩⟩ := sysWrite_cases hw₂
      · rw [List.length_drop] at hk
        dsimp only at h
        rw [List.drop_drop] at h
        exact hgo (by omega) (by rw [hs₂, hs₁]) h
      · dsimp only at h
        split_ifs at h with hE
        · exact hgo (k := 0) (by omega) (by simp [hs₂, hs₁]) h
        · obtain ⟨⟨r₃, w₃⟩, hl, h⟩ := Option.bind_eq_some_iff.1 h
          obtain ⟨-, -, -, hs₃⟩ := lock_spec hl
          simp only [ite_self, Option.pure_def, Option.some.injEq, Prod.mk.injEq] at h
          obtain ⟨rfl, rfl⟩ := h
          have hwrite : (s.move i (.writing packet n)).exec i (.write none) =
              some (s.move i (.failing packet n)) := by
            simp [Shared.exec, Shared.move]
          have hunlock : (s.move i (.failing packet n)).exec i (.unlock true) =
              some ((s.move i (.failing packet n)).return i false) := by
            simp [Shared.exec, Shared.move]
          have hreturn : Returned (s.move i (.failing packet n)) i (-1) w₃ _ :=
            returned_return hunlock (by rw [hs₃, hs₂, hs₁]; exact hsent) (by decide)
          refine ⟨_, (hreturn.step hwrite (p := .failing packet n) ?_ rfl rfl).step (hwait true)
            (p := .writing packet n) rfl rfl rfl⟩
          simp [Shared.move]

/-- **A call of `rio_write` by itself is a run of its thread**, with the same bytes accepted and the
same result. -/
theorem rioWrite_steps {packet : List UInt8} {w w' : Sys} {r : Int}
    (h : rioWrite packet w = some (r, w')) (hphase : s.phase i = .idle)
    (hsent : s.accepted = w.sent) : ∃ t, Steps i s t ∧ t.phase = s.phase ∧ t.accepted = w'.sent ∧
      t.calls = s.calls ++ [packet] ∧ t.failed = (s.failed || decide (r < 0)) := by
  obtain ⟨⟨r₁, w₁⟩, hl, h⟩ := Option.bind_eq_some_iff.1 h
  obtain ⟨hr₁, -, -, hs₁⟩ := lock_spec hl
  set s₁ : Shared ι := { s.move i (.locking packet) with calls := s.calls ++ [packet] } with hs₁'
  have hcall : s.exec i (.call packet) = some s₁ := by
    simp [Shared.exec, hphase, hs₁']
  have hlock (ok : Bool) : s₁.exec i (.lock ok) =
      some (if ok then s₁.move i (.looping packet 0) else s₁.return i false) := by
    simp [Shared.exec, hs₁', Shared.move]
  have hreturned : ∃ t, Returned s₁ i r w' t := by
    rcases hr₁ with rfl | rfl
    · simp only [lt_irrefl, if_false] at h
      obtain ⟨t, ht⟩ := rioWriteLoop_steps (s := s₁.move i (.looping packet 0)) (i := i) (n := 0)
        h (Nat.zero_le _) (by simp [Shared.move]) (hsent.trans hs₁.symm)
      exact ⟨t, ht.step (hlock true) (p := .looping packet 0) rfl rfl rfl⟩
    · cases h
      exact ⟨_, returned_return (hlock false) (hsent.trans hs₁.symm) (by decide)⟩
  obtain ⟨t, ht⟩ := hreturned
  refine ⟨t, .head hcall ht.steps, ?_, ht.accepted, ht.calls, ht.failed⟩
  rw [ht.phase, hs₁', Shared.move, Function.update_idem, ← hphase, Function.update_eq_self]

end

/-! ## Packets -/

/-- The packet of a call under way, and how much of it has been accepted. -/
def Phase.job : Phase → Option (List UInt8 × ℕ)
  | .idle => none
  | .locking packet => some (packet, 0)
  | .looping packet n | .writing packet n | .failing packet n => some (packet, n)

/-- A packet that has been accepted in part. -/
def Phase.Partly (p : Phase) : Prop :=
  ∃ packet n, p.job = some (packet, n) ∧ 0 < n ∧ n < packet.length

/-- A packet that has not been accepted in whole. -/
def Phase.Unfinished (p : Phase) : Prop := ∃ packet n, p.job = some (packet, n) ∧ n < packet.length

/-- The packet of a call under way. -/
def Phase.packet (p : Phase) : List UInt8 := (p.job.map Prod.fst).getD []

/-- What has been accepted of the packet of a call under way. -/
def Phase.front (p : Phase) : List UInt8 := (p.job.map fun q => q.1.take q.2).getD []

/-- Whenever nobody is writing and nobody has failed, the bytes accepted are the packets, each of
them once and whole, in some order. -/
def Whole {ι : Type} (s : Shared ι) : Prop :=
  (∀ i, s.phase i = .idle) → s.failed = false →
    ∃ packets : List (List UInt8), packets.Perm s.calls ∧ s.accepted = packets.flatten

/-- Bytes are accepted from a thread only while no packet of another thread has been accepted in
part. -/
def OneAtATime {ι : Type} (s : Shared ι) (a : ι × Act) : Prop :=
  ∀ k, a.2 = .write (some k) → 0 < k → ∀ j, j ≠ a.1 → ¬(s.phase j).Partly

/-! ## The invariant -/

section

variable {ι : Type} {s t : Shared ι} {i : ι}

/-- **What has been accepted**: the packets that are done, and the front of the one that has been
accepted in part, if there is one. The packets that are done and those of the unfinished calls are
the packets of all calls. -/
structure Ordered (s : Shared ι) (done : List (List UInt8)) (pending : List ι) (holder : Option ι) :
    Prop where
  nodup : pending.Nodup
  mem_pending : ∀ j, j ∈ pending ↔ (s.phase j).Unfinished
  calls : s.calls.Perm (done ++ pending.map fun j => (s.phase j).packet)
  partly_iff : ∀ j, (s.phase j).Partly ↔ holder = some j
  accepted : s.accepted = done.flatten ++ (holder.map fun j => (s.phase j).front).getD []

theorem Ordered.initial : Ordered (⟨fun _ => .idle, [], [], false⟩ : Shared ι) [] [] none where
  nodup := List.nodup_nil
  mem_pending j := by simp [Phase.Unfinished, Phase.job]
  calls := .refl _
  partly_iff j := by simp [Phase.Partly, Phase.job]
  accepted := rfl

/-- When nobody is writing, only packets that are done have been accepted. -/
theorem Ordered.whole {done : List (List UInt8)} {pending : List ι} {holder : Option ι}
    (h : Ordered s done pending holder) (hidle : ∀ i, s.phase i = .idle) :
    done.Perm s.calls ∧ s.accepted = done.flatten := by
  have hpending : pending = [] := by
    apply List.eq_nil_iff_forall_not_mem.2
    intro j hj
    obtain ⟨packet, n, hjob, -⟩ := (h.mem_pending j).1 hj
    rw [hidle j] at hjob
    cases hjob
  have hholder : holder = none := by
    apply Option.eq_none_iff_forall_ne_some.2
    intro j hj
    obtain ⟨packet, n, hjob, -⟩ := (h.partly_iff j).2 hj
    rw [hidle j] at hjob
    cases hjob
  subst hpending hholder
  exact ⟨by simpa using h.calls.symm, by simpa using h.accepted⟩

/-- Only the packets and the numbers of bytes accepted matter. -/
theorem Ordered.congr {done : List (List UInt8)} {pending : List ι} {holder : Option ι}
    (h : Ordered s done pending holder) (hjob : ∀ j, (t.phase j).job = (s.phase j).job)
    (hcalls : t.calls = s.calls) (haccepted : t.accepted = s.accepted) :
    Ordered t done pending holder where
  nodup := h.nodup
  mem_pending j := by
    rw [h.mem_pending j, Phase.Unfinished, Phase.Unfinished, hjob j]
  calls := by
    have hpacket (j : ι) : (t.phase j).packet = (s.phase j).packet := by
      rw [Phase.packet, Phase.packet, hjob j]
    simpa only [hcalls, hpacket] using h.calls
  partly_iff j := by
    rw [← h.partly_iff j, Phase.Partly, Phase.Partly, hjob j]
  accepted := by
    have hfront (j : ι) : (t.phase j).front = (s.phase j).front := by
      rw [Phase.front, Phase.front, hjob j]
    simpa only [haccepted, hfront] using h.accepted

variable [DecidableEq ι]

theorem job_update {p : Phase} (hp : p.job = (s.phase i).job) (j : ι) :
    (Function.update s.phase i p j).job = (s.phase j).job := by
  by_cases hji : j = i
  · subst hji
    rw [Function.update_self, hp]
  · rw [Function.update_of_ne hji]

theorem map_packet_update {pending : List ι} (hi : i ∉ pending) (p : Phase) :
    (pending.map fun j => (Function.update s.phase i p j).packet) =
      pending.map fun j => (s.phase j).packet := by
  apply List.map_congr_left
  intro j hj
  have hji : j ≠ i := by
    rintro rfl
    exact hi hj
  rw [Function.update_of_ne hji]

section Step

variable {done : List (List UInt8)} {pending : List ι} {holder : Option ι}

omit [DecidableEq ι] in
theorem Ordered.not_mem (h : Ordered s done pending holder) (hi : ¬(s.phase i).Unfinished) :
    i ∉ pending := by
  rw [h.mem_pending i]
  exact hi

omit [DecidableEq ι] in
theorem not_unfinished_idle : ¬Phase.idle.Unfinished := by
  rintro ⟨packet, n, hjob, -⟩
  cases hjob

/-- A call of `rio_write`: an empty packet is done, and any other is pending. -/
theorem Ordered.call (h : Ordered s done pending holder) (hi : s.phase i = .idle)
    (packet : List UInt8) :
    ∃ done' pending', Ordered { s.move i (.locking packet) with calls := s.calls ++ [packet] }
      done' pending' holder := by
  have hmem : i ∉ pending := h.not_mem (by rw [hi]; exact not_unfinished_idle)
  have hpartly (j : ι) : (Function.update s.phase i (.locking packet) j).Partly ↔
      holder = some j := by
    rw [← h.partly_iff j]
    by_cases hji : j = i
    · subst hji
      rw [Function.update_self, hi]
      simp [Phase.Partly, Phase.job]
    · rw [Function.update_of_ne hji]
  have haccepted : s.accepted = done.flatten ++ (holder.map fun j =>
      (Function.update s.phase i (.locking packet) j).front).getD [] := by
    rw [h.accepted]
    cases hholder : holder with
    | none => rfl
    | some j =>
      have hji : j ≠ i := by
        rintro rfl
        obtain ⟨packet', n, hjob, -⟩ := (h.partly_iff j).2 hholder
        rw [hi] at hjob
        cases hjob
      simp [Function.update_of_ne hji]
  by_cases hempty : packet = []
  · refine ⟨done ++ [packet], pending, h.nodup, ?_, ?_, hpartly, ?_⟩
    · intro j
      rw [h.mem_pending j]
      by_cases hji : j = i
      · subst hji
        simp [Shared.move, hi, hempty, Phase.Unfinished, Phase.job]
      · simp [Shared.move, hji]
    · simp only [Shared.move, map_packet_update hmem]
      calc (s.calls ++ [packet]).Perm (done ++ pending.map (fun j => (s.phase j).packet) ++ [packet]) :=
            h.calls.append_right _
        _ = done ++ (pending.map (fun j => (s.phase j).packet) ++ [packet]) := List.append_assoc ..
        List.Perm _ (done ++ ([packet] ++ pending.map fun j => (s.phase j).packet)) :=
            List.perm_append_comm.append_left _
        _ = done ++ [packet] ++ pending.map (fun j => (s.phase j).packet) :=
            (List.append_assoc ..).symm
    · simpa [Shared.move, hempty] using haccepted
  · refine ⟨done, pending ++ [i], ?_, ?_, ?_, hpartly, haccepted⟩
    · exact List.nodup_append.2 ⟨h.nodup, by simp, by
        rintro a ha b hb rfl
        exact hmem (List.mem_singleton.1 hb ▸ ha)⟩
    · intro j
      rw [List.mem_append, h.mem_pending j, List.mem_singleton]
      by_cases hji : j = i
      · subst hji
        have hpos : 0 < packet.length := List.length_pos_of_ne_nil hempty
        simp [Shared.move, Phase.Unfinished, Phase.job, hpos]
      · simp [Shared.move, hji]
    · simp only [Shared.move, List.map_append, map_packet_update hmem]
      simpa [Phase.packet, Phase.job, ← List.append_assoc] using h.calls.append_right [packet]

theorem Phase.Partly.unfinished {p : Phase} (h : p.Partly) : p.Unfinished := by
  obtain ⟨packet, n, hjob, -, hlt⟩ := h
  exact ⟨packet, n, hjob, hlt⟩

/-- A thread that is done with its packet moves on. -/
theorem Ordered.move (h : Ordered s done pending holder) {p : Phase}
    (hi : ¬(s.phase i).Unfinished) (hp : ¬p.Unfinished) : Ordered (s.move i p) done pending holder := by
  have hne {j : ι} (hj : (s.phase j).Unfinished) : j ≠ i := by
    rintro rfl
    exact hi hj
  refine ⟨h.nodup, ?_, ?_, ?_, ?_⟩
  · intro j
    rw [h.mem_pending j, Shared.move]
    by_cases hji : j = i
    · subst hji
      simp [hi, hp]
    · simp [hji]
  · simpa only [Shared.move, map_packet_update (h.not_mem hi)] using h.calls
  · intro j
    rw [← h.partly_iff j, Shared.move]
    by_cases hji : j = i
    · subst hji
      exact iff_of_false (by simpa using fun h => hp h.unfinished) fun h => hi h.unfinished
    · simp [hji]
  · cases hholder : holder with
    | none => simpa [hholder, Shared.move] using h.accepted
    | some j =>
      have hji : j ≠ i := hne ((h.partly_iff j).2 hholder).unfinished
      simpa [hholder, Shared.move, hji] using h.accepted

/-- A thread whose packet is the only one that may have been accepted in part. -/
theorem Ordered.accepted_front (h : Ordered s done pending holder) {packet : List UInt8} {n : ℕ}
    (hi : (s.phase i).job = some (packet, n)) (hn : n < packet.length)
    (hothers : ∀ j, j ≠ i → ¬(s.phase j).Partly) : s.accepted = done.flatten ++ packet.take n := by
  rw [h.accepted]
  rcases Nat.eq_zero_or_pos n with rfl | hpos
  · have hnone : holder = none := by
      apply Option.eq_none_iff_forall_ne_some.2
      intro j hj
      have hpartly := (h.partly_iff j).2 hj
      by_cases hji : j = i
      · subst hji
        obtain ⟨packet', n', hjob, hn', -⟩ := hpartly
        rw [hi] at hjob
        cases hjob
        exact absurd hn' (lt_irrefl 0)
      · exact hothers j hji hpartly
    simp [hnone]
  · have hholder : holder = some i := (h.partly_iff i).1 ⟨packet, n, hi, hpos, hn⟩
    simp [hholder, Phase.front, hi]

/-- The kernel accepts more of a packet while no other has been accepted in part. -/
theorem Ordered.write (h : Ordered s done pending holder) {packet : List UInt8} {n k : ℕ}
    (hi : (s.phase i).job = some (packet, n)) (hk : 0 < k) (hle : n + k ≤ packet.length)
    (hothers : ∀ j, j ≠ i → ¬(s.phase j).Partly) :
    ∃ done' pending' holder', Ordered { s.move i (.looping packet (n + k)) with
      accepted := s.accepted ++ (packet.drop n).take k } done' pending' holder' := by
  have hfront := h.accepted_front hi (by omega) hothers
  have haccepted : s.accepted ++ (packet.drop n).take k = done.flatten ++ packet.take (n + k) := by
    rw [hfront, List.append_assoc, List.take_add]
  have hmem : i ∈ pending := (h.mem_pending i).2 ⟨packet, n, hi, by omega⟩
  have hpacket : (s.phase i).packet = packet := by simp [Phase.packet, hi]
  rcases Nat.lt_or_ge (n + k) packet.length with hlt | hge
  · -- a part of it is left
    refine ⟨done, pending, some i, h.nodup, ?_, ?_, ?_, ?_⟩
    · intro j
      rw [h.mem_pending j]
      by_cases hji : j = i
      · subst hji
        have hbefore : (s.phase j).Unfinished := ⟨packet, n, hi, by omega⟩
        have hafter : (Phase.looping packet (n + k)).Unfinished := ⟨packet, n + k, rfl, hlt⟩
        simp [Shared.move, hbefore, hafter]
      · simp [Shared.move, hji]
    · have hsame (j : ι) : (Function.update s.phase i (.looping packet (n + k)) j).packet =
          (s.phase j).packet := by
        by_cases hji : j = i
        · subst hji
          rw [Function.update_self, hpacket]
          rfl
        · rw [Function.update_of_ne hji]
      simpa only [Shared.move, hsame] using h.calls
    · intro j
      by_cases hji : j = i
      · subst hji
        have hafter : (Phase.looping packet (n + k)).Partly := ⟨packet, n + k, rfl, by omega, hlt⟩
        simp [Shared.move, hafter]
      · simpa [Shared.move, hji, Ne.symm hji] using hothers j hji
    · simpa [Shared.move, Phase.front, Phase.job] using haccepted
  · -- the packet is done
    have hdone : ¬(Phase.looping packet (n + k)).Unfinished := by
      rintro ⟨packet', n', ⟨⟩, hlt⟩
      omega
    refine ⟨done ++ [packet], pending.erase i, none, h.nodup.erase i, ?_, ?_, ?_, ?_⟩
    · intro j
      rw [h.nodup.mem_erase_iff, h.mem_pending j]
      by_cases hji : j = i
      · subst hji
        simp [Shared.move, hdone]
      · simp [Shared.move, hji]
    · simp only [Shared.move, map_packet_update (h.nodup.not_mem_erase)]
      have hperm := (List.perm_cons_erase hmem).map fun j => (s.phase j).packet
      rw [List.map_cons, hpacket] at hperm
      simpa [List.append_assoc] using h.calls.trans (hperm.append_left done)
    · intro j
      by_cases hji : j = i
      · subst hji
        simpa [Shared.move] using fun h => hdone h.unfinished
      · simpa [Shared.move, hji] using hothers j hji
    · rw [List.take_of_length_le hge] at haccepted
      simpa using haccepted

end Step

/-- A call that fails is remembered. -/
theorem Shared.failed_exec {a : Act} (hstep : s.exec i a = some t) (hs : s.failed = true) :
    t.failed = true := by
  unfold Shared.exec at hstep
  split at hstep <;> (try split_ifs at hstep) <;> cases hstep <;> simp [Shared.move, Shared.return, hs]

/-- A call has failed, or the packets have been accepted in order. -/
def Kept (s : Shared ι) : Prop :=
  s.failed = true ∨ ∃ done pending holder, Ordered s done pending holder

omit [DecidableEq ι] in
theorem Ordered.kept {done : List (List UInt8)} {pending : List ι} {holder : Option ι}
    (h : Ordered s done pending holder) : Kept s := .inr ⟨done, pending, holder, h⟩

theorem kept_failed : Kept (s.return i false) := .inl (by simp [Shared.return])

theorem Ordered.kept_same {done : List (List UInt8)} {pending : List ι} {holder : Option ι} {p : Phase}
    (h : Ordered s done pending holder) (hp : p.job = (s.phase i).job) : Kept (s.move i p) :=
  (h.congr (t := s.move i p) (job_update hp) rfl rfl).kept

/-- **One step keeps the packets in order**, if bytes are accepted from one thread at a time. -/
theorem Kept.step {a : Act} (h : Kept s) (hone : OneAtATime s (i, a)) (hstep : s.exec i a = some t) :
    Kept t := by
  rcases h with hfailed | ⟨done, pending, holder, h⟩
  · exact .inl (Shared.failed_exec hstep hfailed)
  unfold Shared.exec at hstep
  split at hstep
  · rename_i packet hi
    cases hstep
    obtain ⟨done', pending', h'⟩ := h.call hi packet
    exact h'.kept
  · rename_i packet ok hi
    cases hstep
    cases ok with
    | false => exact kept_failed
    | true => exact h.kept_same (by rw [hi]; rfl)
  · rename_i packet n ok hi
    split_ifs at hstep with hlt hok <;> cases hstep
    · exact h.kept_same (by rw [hi]; rfl)
    · exact kept_failed
  · rename_i packet n ok hi
    split_ifs at hstep with hlt
    cases hstep
    have hdone : ¬(s.phase i).Unfinished := by
      rw [hi]
      rintro ⟨packet', n', ⟨⟩, hlt'⟩
      exact hlt hlt'
    have hidle := h.move hdone not_unfinished_idle
    exact (hidle.congr (t := s.return i ok) (fun _ => rfl) rfl rfl).kept
  · rename_i packet n k hi
    split_ifs at hstep with hle
    cases hstep
    have hjob : (s.phase i).job = some (packet, n) := by
      rw [hi]
      rfl
    rcases Nat.eq_zero_or_pos k with rfl | hk
    · have hsame := h.congr (t := s.move i (.looping packet n)) (job_update hjob.symm) rfl rfl
      exact .inr ⟨done, pending, holder, hsame.congr (fun _ => rfl) rfl (by simp [Shared.move])⟩
    · obtain ⟨done', pending', holder', h'⟩ := h.write hjob hk hle (hone k rfl hk)
      exact h'.kept
  · rename_i packet n hi
    cases hstep
    exact h.kept_same (by rw [hi]; rfl)
  · cases hstep
    exact kept_failed
  · cases hstep

/-- **Packets are not interleaved** in a run in which bytes are accepted from a thread only while no
packet of another thread has been accepted in part: whenever nobody is writing and nobody has
failed, the bytes accepted are the packets of all calls, one after the other. -/
theorem packets_whole (hs : ((sharedDescriptor ι).guard OneAtATime).Reachable s) : Whole s := by
  have hkept : Kept s := by
    apply hs.invariant
    · rintro s rfl
      exact Ordered.initial.kept
    · rintro s ⟨i, a⟩ t h ⟨hone, hstep⟩
      exact h.step hone hstep
  intro hidle hok
  rcases hkept with hfailed | ⟨done, pending, holder, h⟩
  · rw [hok] at hfailed
    cases hfailed
  · exact ⟨done, h.whole hidle⟩

end

/-- A data packet with one byte. -/
def dataPacket : List UInt8 := [0xAB, 0xCD, 0, 1, 7]

/-- A bandwidth probe. -/
def probePacket : List UInt8 := [0xAB, 0x45, 0, 8, 0, 0, 0, 1, 0, 0, 0, 2]

instance (p : Phase) : Decidable p.Partly :=
  decidable_of_iff (∃ q ∈ p.job, 0 < q.2 ∧ q.2 < q.1.length)
    ⟨fun ⟨q, hq, h⟩ => ⟨q.1, q.2, hq, h⟩, fun ⟨packet, n, hq, h⟩ => ⟨(packet, n), hq, h⟩⟩

/-- A step in which bytes are accepted from one thread at a time. -/
def Shared.execOne (s : Shared (Fin 2)) (a : Fin 2 × Act) : Option (Shared (Fin 2)) :=
  if ∀ j, j ≠ a.1 → ¬(s.phase j).Partly then s.exec a.1 a.2 else none

theorem Shared.step_of_execOne {s t : Shared (Fin 2)} {a : Fin 2 × Act} (h : s.execOne a = some t) :
    ((sharedDescriptor (Fin 2)).guard OneAtATime).step s a t := by
  unfold Shared.execOne at h
  split_ifs at h with hone
  exact ⟨fun _ _ _ => hone, h⟩

/-- Two threads write two packets, the first in two pieces, the second when the first is finished.
-/
def serial : List (Fin 2 × Act) :=
  [(0, .call dataPacket), (1, .call probePacket), (0, .lock true), (1, .lock true), (0, .wait true),
    (0, .write (some 3)), (0, .wait true), (0, .write (some 2)), (1, .wait true),
    (1, .write (some 12)), (0, .unlock true), (1, .unlock true)]

theorem packets_whole_serial : ∃ s : Shared (Fin 2), s.failed = false ∧
    s.calls = [dataPacket, probePacket] ∧ s.accepted = dataPacket ++ probePacket ∧ Whole s := by
  have run : ∃ s : Shared (Fin 2), serial.foldlM Shared.execOne ⟨fun _ => .idle, [], [], false⟩ =
      some s ∧ s.failed = false ∧ s.calls = [dataPacket, probePacket] ∧
      s.accepted = dataPacket ++ probePacket := ⟨_, rfl, rfl, rfl, rfl⟩
  obtain ⟨s, hrun, hok, hcalls, haccepted⟩ := run
  have hs := TransitionSystem.Reachable.of_schedule
    (S := (sharedDescriptor (Fin 2)).guard OneAtATime)
    (fun _ a _ h => ⟨a, Shared.step_of_execOne h⟩) serial (.init rfl) hrun
  exact ⟨s, hok, hcalls, haccepted, packets_whole hs⟩

/-- Two threads write two packets, the first in two pieces, the second at once between the two. -/
def interleaving : List (Fin 2 × Act) :=
  [(0, .call dataPacket), (1, .call probePacket), (0, .lock true), (1, .lock true), (0, .wait true),
    (0, .write (some 3)), (1, .wait true), (1, .write (some 12)), (0, .wait true),
    (0, .write (some 2)), (0, .unlock true), (1, .unlock true)]

/-- Both calls return success, and the bytes accepted are neither packet followed by the other. -/
theorem packets_interleaved : ∃ s : Shared (Fin 2), (sharedDescriptor (Fin 2)).Reachable s ∧
    s.failed = false ∧ s.calls = [dataPacket, probePacket] ∧ ¬Whole s := by
  have run : ∃ s : Shared (Fin 2), interleaving.foldlM (fun s a => s.exec a.1 a.2)
      ⟨fun _ => .idle, [], [], false⟩ = some s ∧ (∀ i, s.phase i = .idle) ∧ s.failed = false ∧
      s.calls = [dataPacket, probePacket] ∧
      s.accepted = dataPacket.take 3 ++ probePacket ++ dataPacket.drop 3 :=
    ⟨_, rfl, by decide, rfl, rfl, rfl⟩
  obtain ⟨s, hrun, hidle, hok, hcalls, haccepted⟩ := run
  refine ⟨s, TransitionSystem.Reachable.of_schedule (fun _ a _ h => ⟨a, h⟩) interleaving (.init rfl)
    hrun, hok, hcalls, ?_⟩
  intro hwhole
  obtain ⟨packets, hperm, hflatten⟩ := hwhole hidle hok
  rw [hcalls] at hperm
  rw [haccepted] at hflatten
  -- whichever packet comes first, it is not a prefix of what has been accepted
  cases packets with
  | nil => cases hperm.nil_eq
  | cons p ps =>
    have hp : p ∈ [dataPacket, probePacket] := hperm.subset (by simp)
    simp only [List.mem_cons, List.not_mem_nil, or_false] at hp
    rcases hp with rfl | rfl <;> simp [dataPacket, probePacket] at hflatten

end LinkProxy.Rio
