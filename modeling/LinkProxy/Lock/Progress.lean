import LinkProxy.Lock.ReadersWriters

/-!
# Progress and writer preference

The readers-writers lock with any number of threads, as a whole run. `no_deadlock`: whenever a
thread is in `readBegin`, `readEnd`, `writeBegin`, `writeEnd` or a critical section, some such
thread can take a step. A thread that waits for a mutex waits for one that is held, and the
relations of `Inv` between the numbers of threads at the control points leave no room for a state in
which all of them wait.

`writer_preference`: from the step in which a writer locks `r` to the one in which the last writer
unlocks it, no reader is counted. All that has to be known of a state in between is that `r` is held
and that no reader is at a control point between its `pthread_mutex_lock` and `pthread_mutex_unlock`
of `r` (`Closed`), which every step but the unlocking of `r` by a writer preserves.
-/

namespace LinkProxy.Lock

/-! ## Deadlock -/

/-- The mutex that a control point is about to lock. -/
def PC.locks : PC → Option Mutex
  | .rbLock3 => some .mutex3
  | .rbLockR | .wbLockR => some .r
  | .rbLock1 | .reLock1 => some .mutex1
  | .rbLockW | .wbLockW => some .w
  | .wbLock2 | .weLock2 => some .mutex2
  | _ => none

section

variable {ι : Type*}

/-- A thread waits exactly at the calls that lock a mutex which is held. -/
theorem next_eq_nil_iff (l : RwLock ι) (i : ι) (p : PC) :
    next l i p = [] ↔ ∃ m, p.locks = some m ∧ l.occ m = 1 := by
  have hlock (m : Mutex) (q : PC) :
      ((l.lock m i).map (·, q)).toList = [] ↔ l.occ m = 1 := by
    unfold RwLock.lock RwLock.occ
    cases l.mutex m <;> simp
  cases p <;> simp [next, PC.locks, hlock]

variable [Fintype ι] {s : State ι}

/-- Where all threads wait, nobody is at a control point that does not lock a mutex. -/
theorem population_eq_zero (hwait : ∀ j, s.pc j ≠ .idle → next s.lock j (s.pc j) = []) {p : PC}
    (hidle : p ≠ .idle) (hp : p.locks = none) : population s.pc p = 0 := by
  apply population_eq_zero_of_forall_ne
  rintro j rfl
  obtain ⟨m, hm, -⟩ := (next_eq_nil_iff _ _ _).1 (hwait j hidle)
  rw [hp] at hm
  cases hm

/-- Where all threads wait, those that lock a mutex find it held. -/
theorem population_eq_zero_or (hwait : ∀ j, s.pc j ≠ .idle → next s.lock j (s.pc j) = []) {p : PC}
    {m : Mutex} (hp : p.locks = some m) : population s.pc p = 0 ∨ s.lock.occ m = 1 := by
  rcases Nat.eq_zero_or_pos (population s.pc p) with hzero | hpos
  · exact .inl hzero
  · right
    obtain ⟨j, rfl⟩ := exists_of_population_pos hpos
    have hidle : s.pc j ≠ .idle := by
      intro heq
      rw [heq] at hp
      cases hp
    obtain ⟨m', hm', hocc⟩ := (next_eq_nil_iff _ _ _).1 (hwait j hidle)
    rw [hp] at hm'
    cases hm'
    exact hocc

/-- If all threads wait, all of them are idle. -/
theorem Inv.idle_of_wait (h : Inv s)
    (hwait : ∀ j, s.pc j ≠ .idle → next s.lock j (s.pc j) = []) (i : ι) : s.pc i = .idle := by
  have hfree {p : PC} (hidle : p ≠ .idle) (hp : p.locks = none) : population s.pc p = 0 :=
    population_eq_zero hwait hidle hp
  have hlock {p : PC} {m : Mutex} (hp : p.locks = some m) :
      population s.pc p = 0 ∨ s.lock.occ m = 1 := population_eq_zero_or hwait hp
  obtain ⟨h1, h2, h3, h4, h5, h6, h7, h8, -, h10, -⟩ := h
  simp only [hfree (p := .rbInc) (by decide) rfl, hfree (p := .rbUnlock1) (by decide) rfl,
    hfree (p := .rbUnlockR) (by decide) rfl, hfree (p := .rbUnlock3) (by decide) rfl,
    hfree (p := .reading) (by decide) rfl, hfree (p := .reDec) (by decide) rfl,
    hfree (p := .reUnlockW) (by decide) rfl, hfree (p := .reUnlock1) (by decide) rfl,
    hfree (p := .wbInc) (by decide) rfl, hfree (p := .wbUnlock2) (by decide) rfl,
    hfree (p := .writing) (by decide) rfl, hfree (p := .weUnlockW) (by decide) rfl,
    hfree (p := .weDec) (by decide) rfl, hfree (p := .weUnlockR) (by decide) rfl,
    hfree (p := .weUnlock2) (by decide) rfl] at h1 h2 h3 h4 h5 h6 h7
  -- the first reader finds `w` free, so `mutex1` is free, and there are no counted readers
  have hrbLockW : population s.pc .rbLockW = 0 := by
    rcases hlock (p := .rbLockW) rfl with hw | hw <;> omega
  have hrbLock1 : population s.pc .rbLock1 = 0 := by
    rcases hlock (p := .rbLock1) rfl with hw | hw <;> omega
  have hreLock1 : population s.pc .reLock1 = 0 := by
    rcases hlock (p := .reLock1) rfl with hw | hw <;> omega
  have hwbLockW : population s.pc .wbLockW = 0 := by
    rcases hlock (p := .wbLockW) rfl with hw | hw <;> omega
  -- so does the first writer with `r`, and there are no counted writers
  have hwbLockR : population s.pc .wbLockR = 0 := by
    rcases hlock (p := .wbLockR) rfl with hw | hw <;> omega
  have hwbLock2 : population s.pc .wbLock2 = 0 := by
    rcases hlock (p := .wbLock2) rfl with hw | hw <;> omega
  have hweLock2 : population s.pc .weLock2 = 0 := by
    rcases hlock (p := .weLock2) rfl with hw | hw <;> omega
  have hrbLockR : population s.pc .rbLockR = 0 := by
    rcases hlock (p := .rbLockR) rfl with hw | hw <;> omega
  have hrbLock3 : population s.pc .rbLock3 = 0 := by
    rcases hlock (p := .rbLock3) rfl with hw | hw <;> omega
  by_contra hidle
  have hpos : 0 < population s.pc (s.pc i) := population_pos rfl
  cases hpc : s.pc i <;> rw [hpc] at hpos hidle
  case idle => exact hidle rfl
  case rbLock3 | rbLockR | rbLock1 | rbLockW | reLock1 | wbLock2 | wbLockR | wbLockW | weLock2 =>
    omega
  all_goals
    rw [hfree hidle rfl] at hpos
    omega

/-- **The lock does not deadlock.** In every state that any number of threads reach in any
interleaving, if a thread is not idle, one that is not idle can take a step. -/
theorem no_deadlock [DecidableEq ι] (hs : (machine ι).Reachable s) {i : ι} (hi : s.pc i ≠ .idle) :
    ∃ j t, s.pc j ≠ .idle ∧ (machine ι).step s j t := by
  by_contra hno
  refine hi ((Inv.reachable hs).idle_of_wait (fun j hj => ?_) i)
  apply List.eq_nil_iff_forall_not_mem.2
  rintro ⟨l, p⟩ hmem
  exact hno ⟨j, _, hj, l, p, hmem, rfl⟩

/-- A second writer waits for `w` and a reader for `r`, while the first writer is in its critical
section. -/
theorem no_deadlock_waiting : ∃ s : State (Fin 3), s.pc 0 = .writing ∧ s.pc 1 = .wbLockW ∧
    s.pc 2 = .rbLockR ∧ ∃ j t, s.pc j ≠ .idle ∧ (machine (Fin 3)).step s j t := by
  let sched : List (Fin 3 × ℕ) := [(0, 1), (2, 0), (0, 0), (0, 0), (0, 0), (0, 0), (1, 1), (1, 0),
    (0, 0), (1, 0), (2, 0), (1, 0)]
  have run : ∃ s : State (Fin 3), sched.foldlM (fun s a => s.exec a.1 a.2)
      ⟨RwLock.free _, fun _ => .idle⟩ = some s ∧ s.pc 0 = .writing ∧ s.pc 1 = .wbLockW ∧
        s.pc 2 = .rbLockR := ⟨_, rfl, by decide⟩
  obtain ⟨s, hrun, h0, h1, h2⟩ := run
  have hs := reachable_of_exec sched hrun
  exact ⟨s, h0, h1, h2, no_deadlock hs (by rw [h1]; decide : s.pc 1 ≠ .idle)⟩

/-! ## Writer preference -/

/-- A reader that has locked `r` and not unlocked it. -/
def PC.holdsR : Finset PC := {.rbLock1, .rbInc, .rbLockW, .rbUnlock1, .rbUnlockR}

/-- `r` is held, and not by a reader. -/
structure Closed (s : State ι) : Prop where
  r : s.lock.occ .r = 1
  readers : ∀ k, s.pc k ∉ PC.holdsR

omit [Fintype ι] in
/-- What one step of a thread can do while `r` is held and not by a reader, unless a writer unlocks
it. -/
theorem next_closed {l l' : RwLock ι} {i : ι} {p q : PC} (hmem : (l', q) ∈ next l i p)
    (hr : l.occ .r = 1) (hp : p ∉ PC.holdsR) :
    (p ≠ .weUnlockR → l'.occ .r = 1) ∧ q ∉ PC.holdsR ∧ (q = .rbUnlock3 → p = .rbUnlock3) ∧
      (q = .reading → p = .rbUnlock3) ∧ l'.readcount ≤ l.readcount := by
  cases p <;> rw [next] at hmem <;> try exact absurd hp (by decide)
  case idle =>
    simp only [List.mem_cons, Prod.mk.injEq, List.not_mem_nil, or_false] at hmem
    rcases hmem with ⟨rfl, rfl⟩ | ⟨rfl, rfl⟩
    · exact ⟨fun _ => hr, by decide, by simp, by simp, le_rfl⟩
    · exact ⟨fun _ => hr, by decide, by simp, by simp, le_rfl⟩
  case rbLockR | wbLockR =>
    -- `r` is not free
    obtain ⟨-, hfree, -⟩ := RwLock.mem_lock hmem
    omega
  case rbLock3 | reLock1 | wbLock2 | wbLockW | weLock2 =>
    obtain ⟨rfl, -, hread, -, hocc⟩ := RwLock.mem_lock hmem
    exact ⟨fun _ => by simp [hocc, hr], by decide, by simp, by simp, hread.le⟩
  case reDec | wbInc | weDec =>
    obtain ⟨rfl, rfl⟩ := mem_pair hmem
    refine ⟨fun _ => hr, ?_, ?_, ?_, by simp⟩ <;> split_ifs <;> simp [PC.holdsR]
  case rbUnlock3 | reading | reUnlockW | reUnlock1 | wbUnlock2 | writing | weUnlockW | weUnlock2 =>
    obtain ⟨rfl, rfl⟩ := mem_pair hmem
    exact ⟨fun _ => by simp [RwLock.occ_unlock, hr], by decide, by simp, by simp, by simp⟩
  case weUnlockR =>
    obtain ⟨rfl, rfl⟩ := mem_pair hmem
    exact ⟨fun hne => absurd rfl hne, by decide, by simp, by simp, by simp⟩

section Preference

variable [DecidableEq ι] {t u v : State ι} {i j : ι}

omit [Fintype ι] in
/-- One step while `r` is held and not by a reader: nobody is counted as a reader, nobody is
admitted, and a thread that returns from `readBegin` had been admitted before. -/
theorem Closed.admits (h : Closed u) (hstep : (machine ι).step u j v) :
    v.lock.readcount ≤ u.lock.readcount ∧ u.pc j ≠ .rbInc ∧
      (∀ k, v.pc k = .rbUnlock3 → u.pc k = .rbUnlock3) ∧
      (v.pc j = .reading → u.pc j = .rbUnlock3) := by
  obtain ⟨l, q, hmem, rfl⟩ := hstep
  obtain ⟨-, -, hadmit, hreturn, hcount⟩ := next_closed hmem h.r (h.readers j)
  refine ⟨hcount, ?_, ?_, ?_⟩
  · intro heq
    apply h.readers j
    rw [heq]
    decide
  · intro k hk
    by_cases hkj : k = j
    · subst hkj
      exact hadmit (by simpa using hk)
    · simpa [hkj] using hk
  · intro hj
    exact hreturn (by simpa using hj)

omit [Fintype ι] in
/-- Nothing but the unlocking of `r` by a writer opens the lock for readers. -/
theorem Closed.step (h : Closed u) (hj : u.pc j ≠ .weUnlockR) (hstep : (machine ι).step u j v) :
    Closed v := by
  obtain ⟨l, q, hmem, rfl⟩ := hstep
  obtain ⟨hr, hq, -⟩ := next_closed hmem h.r (h.readers j)
  refine ⟨hr hj, ?_⟩
  intro k
  by_cases hkj : k = j
  · simpa [hkj] using hq
  · simpa [hkj] using h.readers k

/-- When a writer locks `r`, no reader holds it. -/
theorem Inv.closed (h : Inv s) (hpc : s.pc i = .wbLockR) (hstep : (machine ι).step s i t) :
    Closed t := by
  obtain ⟨l, q, hmem, rfl⟩ := hstep
  rw [hpc, next] at hmem
  obtain ⟨rfl, hfree, -, -, hocc⟩ := RwLock.mem_lock hmem
  refine ⟨by simp [hocc], ?_⟩
  have hpos : 0 < population s.pc .wbLockR := population_pos hpc
  have occ := s.lock.occ_le_one
  obtain ⟨-, h2, -, -, -, h6, -, -, -, h10, -⟩ := h
  intro k hk
  by_cases hki : k = i
  · simp [hki, PC.holdsR] at hk
  · have hk : s.pc k ∈ PC.holdsR := by simpa [hki] using hk
    have hreader : 0 < population s.pc (s.pc k) := population_pos rfl
    simp only [PC.holdsR, Finset.mem_insert, Finset.mem_singleton] at hk
    rcases hk with hk | hk | hk | hk | hk <;> rw [hk] at hreader <;> omega

/-- The states from one on, up to the step in which a writer unlocks `r`. -/
def UntilOpened (t u : State ι) : Prop :=
  Relation.ReflTransGen (fun u v => ∃ j, u.pc j ≠ .weUnlockR ∧ (machine ι).step u j v) t u

omit [Fintype ι] in
/-- The lock stays closed, and readers that are admitted at the end were admitted at the start. -/
theorem Closed.untilOpened (h : Closed t) (hu : UntilOpened t u) :
    Closed u ∧ ∀ k, u.pc k = .rbUnlock3 → t.pc k = .rbUnlock3 := by
  induction hu with
  | refl => exact ⟨h, fun _ => id⟩
  | tail _ hstep ih =>
    obtain ⟨j, hj, hstep⟩ := hstep
    obtain ⟨hclosed, hadmitted⟩ := ih
    refine ⟨hclosed.step hj hstep, ?_⟩
    intro k hk
    exact hadmitted k ((hclosed.admits hstep).2.2.1 k hk)

/-- **Writer preference.** From the step in which a writer locks `r` to the one in which the last
writer unlocks it, no step increments `readcount`, no reader gets to the end of `readBegin`, and a
thread that returns from `readBegin` was at its end when the writer locked `r`. -/
theorem writer_preference (hs : (machine ι).Reachable s) (hpc : s.pc i = .wbLockR)
    (hlock : (machine ι).step s i t) (hu : UntilOpened t u) (hstep : (machine ι).step u j v) :
    v.lock.readcount ≤ u.lock.readcount ∧ u.pc j ≠ .rbInc ∧
      (∀ k, v.pc k = .rbUnlock3 → u.pc k = .rbUnlock3) ∧
      (v.pc j = .reading → s.pc j = .rbUnlock3) := by
  have hclosed := (Inv.reachable hs).closed hpc hlock
  obtain ⟨hclosed', hadmitted⟩ := hclosed.untilOpened hu
  obtain ⟨hcount, hinc, hadmit, hreturn⟩ := hclosed'.admits hstep
  refine ⟨hcount, hinc, hadmit, ?_⟩
  intro hj
  have ht := hadmitted j (hreturn hj)
  obtain ⟨l, q, hmem, rfl⟩ := hlock
  by_cases hji : j = i
  · subst hji
    rw [hpc, next] at hmem
    obtain ⟨rfl, -⟩ := RwLock.mem_lock hmem
    simp at ht
  · simpa [hji] using ht

/-- A reader that was admitted before returns from `readBegin` after a writer has locked `r`. -/
theorem writer_preference_admitted : ∃ s t v : State (Fin 2), s.pc 0 = .wbLockR ∧
    (machine (Fin 2)).step s 0 t ∧ (machine (Fin 2)).step t 1 v ∧ v.pc 1 = .reading ∧
    s.pc 1 = .rbUnlock3 ∧ v.lock.readcount ≤ t.lock.readcount := by
  let sched : List (Fin 2 × ℕ) := List.replicate 8 (1, 0) ++ [(0, 1), (0, 0), (0, 0)]
  have run : ∃ s t v : State (Fin 2), sched.foldlM (fun s a => s.exec a.1 a.2)
      ⟨RwLock.free _, fun _ => .idle⟩ = some s ∧ s.exec 0 0 = some t ∧ t.exec 1 0 = some v ∧
        s.pc 0 = .wbLockR ∧ v.pc 1 = .reading := ⟨_, _, _, rfl, rfl, rfl, by decide⟩
  obtain ⟨s, t, v, hrun, ht, hv, h0, h1⟩ := run
  have hpref := writer_preference (reachable_of_exec sched hrun) h0 (step_of_exec ht) .refl
    (step_of_exec hv)
  exact ⟨s, t, v, h0, step_of_exec ht, step_of_exec hv, h1, hpref.2.2.2 h1, hpref.1⟩

end Preference

end

end LinkProxy.Lock
