import LinkProxy.Foundations.Transition

/-!
# The readers-writers lock

`readBegin`, `readEnd`, `writeBegin` and `writeEnd` of `proxy.c`: five mutexes and two counters,
with preference for writers. A thread is at a control point, one for each call of
`pthread_mutex_lock` or `pthread_mutex_unlock` and each counter update, which are the atomic steps;
any number of threads take steps in any order (`machine`). A mutex is a binary semaphore that also
remembers who locked it last.

The first reader locks `w` and the last one unlocks it, the first writer locks `r` and the last one
unlocks it, so these two are held by groups. `Inv` says who holds what: each of the other mutexes is
held by the one thread in the section it protects, the counters count the threads that have
incremented and not decremented them, and `r` and `w` are held either by one thread or by the group
of counted threads, less the one that is just about to lock it, plus the one that is about to unlock
it. It is a system of linear relations between the numbers of threads at the control points, and
one step preserves it by linear arithmetic (`Inv.step`).
-/

namespace LinkProxy.Lock

/-! ## The lock -/

/-- The mutexes of the lock. -/
inductive Mutex
  | mutex1
  | mutex2
  | mutex3
  | r
  | w
  deriving DecidableEq, Repr

/-- The state of the lock: for every mutex the thread that locked it, if it is locked, and the
counters. -/
structure RwLock (ι : Type*) where
  mutex : Mutex → Option ι
  readcount : Int
  writecount : Int

/-- The lock as it is initialised. -/
def RwLock.free (ι : Type*) : RwLock ι := ⟨fun _ => none, 0, 0⟩

namespace RwLock

variable {ι : Type*} (l : RwLock ι)

/-- `pthread_mutex_lock`, where it does not block. -/
def lock (m : Mutex) (i : ι) : Option (RwLock ι) :=
  if l.mutex m = none then some { l with mutex := Function.update l.mutex m (some i) } else none

/-- `pthread_mutex_unlock`. -/
def unlock (m : Mutex) : RwLock ι := { l with mutex := Function.update l.mutex m none }

@[simp] theorem readcount_unlock (m : Mutex) : (l.unlock m).readcount = l.readcount := rfl

@[simp] theorem writecount_unlock (m : Mutex) : (l.unlock m).writecount = l.writecount := rfl

end RwLock

/-! ## Control points -/

/-- What a thread does next. `reading` and `writing` are the critical sections, between the return
of `readBegin` or `writeBegin` and the call of `readEnd` or `writeEnd`. -/
inductive PC
  | idle
  | rbLock3 | rbLockR | rbLock1 | rbInc | rbLockW | rbUnlock1 | rbUnlockR | rbUnlock3
  | reading
  | reLock1 | reDec | reUnlockW | reUnlock1
  | wbLock2 | wbInc | wbLockR | wbUnlock2 | wbLockW
  | writing
  | weUnlockW | weLock2 | weDec | weUnlockR | weUnlock2
  deriving DecidableEq, Repr

/-- Where in the use of the lock a control point lies. -/
inductive Phase
  | outside
  | readBegin
  | readSection
  | readEnd
  | writeBegin
  | writeSection
  | writeEnd
  deriving DecidableEq, Repr

/-- The function or critical section that a control point belongs to. -/
def PC.phase : PC → Phase
  | .idle => .outside
  | .rbLock3 | .rbLockR | .rbLock1 | .rbInc | .rbLockW | .rbUnlock1 | .rbUnlockR | .rbUnlock3 =>
    .readBegin
  | .reading => .readSection
  | .reLock1 | .reDec | .reUnlockW | .reUnlock1 => .readEnd
  | .wbLock2 | .wbInc | .wbLockR | .wbUnlock2 | .wbLockW => .writeBegin
  | .writing => .writeSection
  | .weUnlockW | .weLock2 | .weDec | .weUnlockR | .weUnlock2 => .writeEnd

section

variable {ι : Type*}

/-- The states of the lock and the control points that one step of thread `i` may lead to; none
when it waits for a mutex. An idle thread chooses between reading and writing. -/
def next (l : RwLock ι) (i : ι) : PC → List (RwLock ι × PC)
  | .idle => [(l, .rbLock3), (l, .wbLock2)]
  -- readBegin
  | .rbLock3 => ((l.lock .mutex3 i).map (·, PC.rbLockR)).toList
  | .rbLockR => ((l.lock .r i).map (·, PC.rbLock1)).toList
  | .rbLock1 => ((l.lock .mutex1 i).map (·, PC.rbInc)).toList
  | .rbInc => [({ l with readcount := l.readcount + 1 },
      if l.readcount + 1 = 1 then .rbLockW else .rbUnlock1)]
  | .rbLockW => ((l.lock .w i).map (·, PC.rbUnlock1)).toList
  | .rbUnlock1 => [(l.unlock .mutex1, .rbUnlockR)]
  | .rbUnlockR => [(l.unlock .r, .rbUnlock3)]
  | .rbUnlock3 => [(l.unlock .mutex3, .reading)]
  -- the critical section of a reader, and readEnd
  | .reading => [(l, .reLock1)]
  | .reLock1 => ((l.lock .mutex1 i).map (·, PC.reDec)).toList
  | .reDec => [({ l with readcount := l.readcount - 1 },
      if l.readcount - 1 = 0 then .reUnlockW else .reUnlock1)]
  | .reUnlockW => [(l.unlock .w, .reUnlock1)]
  | .reUnlock1 => [(l.unlock .mutex1, .idle)]
  -- writeBegin
  | .wbLock2 => ((l.lock .mutex2 i).map (·, PC.wbInc)).toList
  | .wbInc => [({ l with writecount := l.writecount + 1 },
      if l.writecount + 1 = 1 then .wbLockR else .wbUnlock2)]
  | .wbLockR => ((l.lock .r i).map (·, PC.wbUnlock2)).toList
  | .wbUnlock2 => [(l.unlock .mutex2, .wbLockW)]
  | .wbLockW => ((l.lock .w i).map (·, PC.writing)).toList
  -- the critical section of a writer, and writeEnd
  | .writing => [(l, .weUnlockW)]
  | .weUnlockW => [(l.unlock .w, .weLock2)]
  | .weLock2 => ((l.lock .mutex2 i).map (·, PC.weDec)).toList
  | .weDec => [({ l with writecount := l.writecount - 1 },
      if l.writecount - 1 = 0 then .weUnlockR else .weUnlock2)]
  | .weUnlockR => [(l.unlock .r, .weUnlock2)]
  | .weUnlock2 => [(l.unlock .mutex2, .idle)]

end

/-! ## Any number of threads -/

/-- The lock and the control points of all threads. -/
structure State (ι : Type*) where
  lock : RwLock ι
  pc : ι → PC

/-- The threads using the lock, in any interleaving. A step is labelled by the thread that takes
it. -/
def machine (ι : Type*) [DecidableEq ι] : TransitionSystem (State ι) ι where
  init s := s = ⟨RwLock.free ι, fun _ => .idle⟩
  step s i t := ∃ l p, (l, p) ∈ next s.lock i (s.pc i) ∧ t = ⟨l, Function.update s.pc i p⟩

section

variable {ι : Type*} [Fintype ι]

/-- `1` for a locked mutex, `0` for a free one. -/
def RwLock.occ (l : RwLock ι) (m : Mutex) : ℕ := if (l.mutex m).isSome then 1 else 0

/-- **Who holds what.** The counted writers hold `r` as a group, but not yet while the first of them
is at the call that locks it, and still when the last of them, no longer counted, is at the call
that unlocks it; so do the counted readers with `w`. -/
structure Inv (s : State ι) : Prop where
  mutex1 : population s.pc .rbInc + population s.pc .rbLockW + population s.pc .rbUnlock1 +
    population s.pc .reDec + population s.pc .reUnlockW + population s.pc .reUnlock1 =
      s.lock.occ .mutex1
  mutex2 : population s.pc .wbInc + population s.pc .wbLockR + population s.pc .wbUnlock2 +
    population s.pc .weDec + population s.pc .weUnlockR + population s.pc .weUnlock2 =
      s.lock.occ .mutex2
  mutex3 : population s.pc .rbLockR + population s.pc .rbLock1 + population s.pc .rbInc +
    population s.pc .rbLockW + population s.pc .rbUnlock1 + population s.pc .rbUnlockR +
    population s.pc .rbUnlock3 = s.lock.occ .mutex3
  readcount : s.lock.readcount = population s.pc .rbLockW + population s.pc .rbUnlock1 +
    population s.pc .rbUnlockR + population s.pc .rbUnlock3 + population s.pc .reading +
    population s.pc .reLock1 + population s.pc .reDec
  writecount : s.lock.writecount = population s.pc .wbLockR + population s.pc .wbUnlock2 +
    population s.pc .wbLockW + population s.pc .writing + population s.pc .weUnlockW +
    population s.pc .weLock2 + population s.pc .weDec
  r : population s.pc .rbLock1 + population s.pc .rbInc + population s.pc .rbLockW +
    population s.pc .rbUnlock1 + population s.pc .rbUnlockR + min 1 s.lock.writecount +
    population s.pc .weUnlockR = s.lock.occ .r + population s.pc .wbLockR
  w : population s.pc .writing + population s.pc .weUnlockW + min 1 s.lock.readcount +
    population s.pc .reUnlockW = s.lock.occ .w + population s.pc .rbLockW
  firstReader : population s.pc .rbLockW = 0 ∨ s.lock.readcount = 1
  lastReader : population s.pc .reUnlockW = 0 ∨ s.lock.readcount = 0
  firstWriter : population s.pc .wbLockR = 0 ∨ s.lock.writecount = 1
  lastWriter : population s.pc .weUnlockR = 0 ∨ s.lock.writecount = 0

theorem Inv.initial : Inv (⟨RwLock.free ι, fun _ => .idle⟩ : State ι) := by
  constructor <;> simp [population, RwLock.free, RwLock.occ]

omit [Fintype ι] in
theorem RwLock.occ_le_one (l : RwLock ι) : l.occ .mutex1 ≤ 1 ∧ l.occ .mutex2 ≤ 1 ∧
    l.occ .mutex3 ≤ 1 ∧ l.occ .r ≤ 1 ∧ l.occ .w ≤ 1 := by
  have h (m : Mutex) : l.occ m ≤ 1 := by
    unfold RwLock.occ
    split_ifs <;> omega
  exact ⟨h _, h _, h _, h _, h _⟩

omit [Fintype ι] in
/-- A `pthread_mutex_lock` that does not block. -/
theorem RwLock.mem_lock {l l' : RwLock ι} {m : Mutex} {i : ι} {p q : PC}
    (h : (l', q) ∈ ((l.lock m i).map (·, p)).toList) :
    q = p ∧ l.occ m = 0 ∧ l'.readcount = l.readcount ∧ l'.writecount = l.writecount ∧
      ∀ m', l'.occ m' = if m' = m then 1 else l.occ m' := by
  unfold RwLock.lock at h
  split_ifs at h with hm
  · simp only [Option.map_some, Option.mem_toList, Option.some.injEq, Prod.mk.injEq] at h
    obtain ⟨rfl, rfl⟩ := h
    refine ⟨rfl, by simp [RwLock.occ, hm], rfl, rfl, fun m' => ?_⟩
    by_cases h : m' = m <;> simp [RwLock.occ, h]
  · simp at h

omit [Fintype ι] in
theorem RwLock.occ_unlock (l : RwLock ι) (m m' : Mutex) :
    (l.unlock m).occ m' = if m' = m then 0 else l.occ m' := by
  by_cases h : m' = m <;> simp [RwLock.occ, RwLock.unlock, h]

/-! ## One step

A step moves one thread, so two of the numbers change by one; in each case the rest is linear
arithmetic. -/

omit [Fintype ι] in
theorem RwLock.occ_counts (l : RwLock ι) (m : Mutex) (rc wc : Int) :
    RwLock.occ ⟨l.mutex, rc, wc⟩ m = l.occ m := rfl

section Step

variable [DecidableEq ι] {s : State ι} {i : ι} {l : RwLock ι} {p : PC}

theorem moved_to {f : ι → PC} {a b : PC} (ha : f i = a) (hb : p = b) (hab : a ≠ b) :
    Moved (population f) (population (Function.update f i p)) a b := by
  subst hb
  exact moved ha hab

omit [Fintype ι] [DecidableEq ι] in
theorem mem_pair {l' : RwLock ι} {q : PC} (h : (l, p) ∈ [(l', q)]) : l = l' ∧ p = q := by
  simpa using h

/-- **One step of any thread preserves the invariant.** -/
theorem Inv.step (h : Inv s) {t : State ι} (ht : (machine ι).step s i t) : Inv t := by
  obtain ⟨l, p, hmem, rfl⟩ := ht
  have occ := s.lock.occ_le_one
  obtain ⟨h1, h2, h3, h4, h5, h6, h7, h8, h9, h10, h11⟩ := h
  -- one case for each kind of step: a lock, a counter, an unlock, and the ways in and out
  cases hpc : s.pc i <;> rw [hpc, next] at hmem
  case rbLock3 | rbLockR | rbLock1 | rbLockW | reLock1 | wbLock2 | wbLockR | wbLockW | weLock2 =>
    obtain ⟨hp, q1, q2, q3, q4⟩ := RwLock.mem_lock hmem
    obtain ⟨mFrom, mTo, mRest⟩ := moved_to hpc hp (by decide)
    constructor <;> simp (disch := decide) only [mRest, q2, q3, q4, mTo, reduceCtorEq, if_true,
      if_false] <;> first | assumption | omega
  case rbInc | reDec | wbInc | weDec =>
    obtain ⟨rfl, hp⟩ := mem_pair hmem
    split_ifs at hp <;> obtain ⟨mFrom, mTo, mRest⟩ := moved_to hpc hp (by decide) <;>
    constructor <;> simp (disch := decide) only [mRest, mTo, RwLock.occ_counts] <;>
      first | assumption | omega
  case rbUnlock1 | rbUnlockR | rbUnlock3 | reUnlockW | reUnlock1 | wbUnlock2 | weUnlockW |
      weUnlockR | weUnlock2 =>
    obtain ⟨rfl, hp⟩ := mem_pair hmem
    obtain ⟨mFrom, mTo, mRest⟩ := moved_to hpc hp (by decide)
    constructor <;> simp (disch := decide) only [mRest, mTo, RwLock.occ_unlock,
      RwLock.readcount_unlock, RwLock.writecount_unlock, reduceCtorEq, if_true, if_false] <;>
      first | assumption | omega
  case idle =>
    simp only [List.mem_cons, Prod.mk.injEq, List.not_mem_nil, or_false] at hmem
    rcases hmem with ⟨rfl, hp⟩ | ⟨rfl, hp⟩ <;>
    obtain ⟨mFrom, mTo, mRest⟩ := moved_to hpc hp (by decide) <;>
    constructor <;> simp (disch := decide) only [mRest] <;> assumption
  case reading | writing =>
    obtain ⟨rfl, hp⟩ := mem_pair hmem
    obtain ⟨mFrom, mTo, mRest⟩ := moved_to hpc hp (by decide)
    constructor <;> simp (disch := decide) only [mRest, mTo] <;> first | assumption | omega

theorem Inv.reachable (hs : (machine ι).Reachable s) : Inv s :=
  hs.invariant (fun _ h => h ▸ Inv.initial) fun _ _ _ h ht => h.step ht

end Step

/-! ## Mutual exclusion -/

/-- From the return of `readBegin` to the first step of `readEnd`. -/
def PC.readSection : Finset PC := {.reading, .reLock1}

/-- From the return of `writeBegin` to the first step of `writeEnd`. -/
def PC.writeSection : Finset PC := {.writing, .weUnlockW}

/-- The readers that have incremented `readcount` and not decremented it. -/
def PC.countedReader : Finset PC :=
  {.rbLockW, .rbUnlock1, .rbUnlockR, .rbUnlock3, .reading, .reLock1, .reDec}

/-- The writers that have incremented `writecount` and not decremented it. -/
def PC.countedWriter : Finset PC :=
  {.wbLockR, .wbUnlock2, .wbLockW, .writing, .weUnlockW, .weLock2, .weDec}

section Exclusion

variable {s : State ι}

theorem Inv.card_countedReader (h : Inv s) : s.lock.readcount =
    (Finset.univ.filter fun i => s.pc i ∈ PC.countedReader).card := by
  have hc := h.readcount
  rw [card_region]
  simp only [PC.countedReader, Finset.mem_insert, Finset.mem_singleton, reduceCtorEq, or_self,
    not_false_eq_true, Finset.sum_insert, Finset.sum_singleton]
  omega

theorem Inv.card_countedWriter (h : Inv s) : s.lock.writecount =
    (Finset.univ.filter fun i => s.pc i ∈ PC.countedWriter).card := by
  have hc := h.writecount
  rw [card_region]
  simp only [PC.countedWriter, Finset.mem_insert, Finset.mem_singleton, reduceCtorEq, or_self,
    not_false_eq_true, Finset.sum_insert, Finset.sum_singleton]
  omega

/-- A writer in its section holds `w`, and readers that hold it as a group are counted; so the
writers there and the presence of a counted reader add up to one at most. -/
theorem Inv.card_writeSection (h : Inv s) :
    (Finset.univ.filter fun i => s.pc i ∈ PC.writeSection).card ≤ 1 ∧
      ((Finset.univ.filter fun i => s.pc i ∈ PC.writeSection).card = 1 →
        (Finset.univ.filter fun i => s.pc i ∈ PC.readSection).card = 0) := by
  have occ := s.lock.occ_le_one
  obtain ⟨h1, -, -, h4, -, -, h7, h8, -, -, -⟩ := h
  rw [card_region, card_region]
  simp only [PC.writeSection, PC.readSection, Finset.mem_singleton, reduceCtorEq,
    not_false_eq_true, Finset.sum_insert, Finset.sum_singleton]
  omega

/-- **Mutual exclusion.** In every state that any number of threads reach in any interleaving, at
most one thread is between the return of `writeBegin` and the first step of `writeEnd`, while one is
no thread is between the return of `readBegin` and the first step of `readEnd`, and each counter is
the number of threads that have incremented and not decremented it, so it is never negative. -/
theorem mutual_exclusion [DecidableEq ι] (hs : (machine ι).Reachable s) :
    (∀ i j, s.pc i ∈ PC.writeSection → s.pc j ∈ PC.writeSection → i = j) ∧
    (∀ i j, s.pc i ∈ PC.writeSection → s.pc j ∉ PC.readSection) ∧
    0 ≤ s.lock.readcount ∧ 0 ≤ s.lock.writecount ∧
    s.lock.readcount = (Finset.univ.filter fun i => s.pc i ∈ PC.countedReader).card ∧
    s.lock.writecount = (Finset.univ.filter fun i => s.pc i ∈ PC.countedWriter).card := by
  have inv := Inv.reachable hs
  have hr := inv.card_countedReader
  have hw := inv.card_countedWriter
  obtain ⟨one, none⟩ := inv.card_writeSection
  refine ⟨fun i j hi hj => ?_, fun i j hi hj => ?_, by omega, by omega, hr, hw⟩
  · exact Finset.card_le_one.1 one i (by simpa using hi) j (by simpa using hj)
  · have pos : 0 < (Finset.univ.filter fun i => s.pc i ∈ PC.writeSection).card :=
      Finset.card_pos.2 ⟨i, by simpa using hi⟩
    have empty := Finset.card_eq_zero.1 (none (by omega))
    have hmem : j ∈ Finset.univ.filter fun i => s.pc i ∈ PC.readSection := by simpa using hj
    rw [empty] at hmem
    exact absurd hmem (Finset.notMem_empty j)

end Exclusion

/-- The state after the `k`-th of the steps that thread `i` may take. -/
def State.exec [DecidableEq ι] (s : State ι) (i : ι) (k : ℕ) : Option (State ι) :=
  (next s.lock i (s.pc i))[k]?.map fun q => ⟨q.1, Function.update s.pc i q.2⟩

omit [Fintype ι] in
theorem step_of_exec [DecidableEq ι] {s t : State ι} {i : ι} {k : ℕ} (h : s.exec i k = some t) :
    (machine ι).step s i t := by
  obtain ⟨q, hq, rfl⟩ := Option.map_eq_some_iff.1 h
  exact ⟨q.1, q.2, List.mem_of_getElem? hq, rfl⟩

omit [Fintype ι] in
/-- A schedule of the lock that can be executed leads to a reachable state. -/
theorem reachable_of_exec [DecidableEq ι] {t : State ι} (sched : List (ι × ℕ))
    (h : sched.foldlM (fun s a => s.exec a.1 a.2) ⟨RwLock.free ι, fun _ => .idle⟩ = some t) :
    (machine ι).Reachable t :=
  TransitionSystem.Reachable.of_schedule (fun _ a _ ha => ⟨a.1, step_of_exec ha⟩) sched (.init rfl) h

/-- A writer in its critical section, while a second one waits for `w` and a reader for `r`. -/
theorem mutual_exclusion_writing : ∃ s : State (Fin 3), s.pc 0 = .writing ∧ s.pc 1 = .wbLockW ∧
    s.pc 2 = .rbLockR ∧ s.lock.writecount = 2 ∧ ∀ j, s.pc j ∉ PC.readSection := by
  let sched : List (Fin 3 × ℕ) := [(0, 1), (2, 0), (0, 0), (0, 0), (0, 0), (0, 0), (1, 1), (1, 0),
    (0, 0), (1, 0), (2, 0), (1, 0)]
  let start : State (Fin 3) := ⟨RwLock.free _, fun _ => .idle⟩
  have run : ∃ s, sched.foldlM (fun s a => s.exec a.1 a.2) start = some s ∧ s.pc 0 = .writing ∧
      s.pc 1 = .wbLockW ∧ s.pc 2 = .rbLockR ∧ s.lock.writecount = 2 := ⟨_, rfl, by decide⟩
  obtain ⟨s, hrun, h0, h1, h2, hw⟩ := run
  have hs := reachable_of_exec sched hrun
  exact ⟨s, h0, h1, h2, hw, fun j => (mutual_exclusion hs).2.1 0 j (by rw [h0]; decide)⟩

end

end LinkProxy.Lock
