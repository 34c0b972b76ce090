import LinkProxy.Lock.Progress
import LinkProxy.Lock.Sections

/-!
# Every job is done

Threads that have a number of jobs each, to read or to write. Whatever the order in which they take
their steps, no scheduling can keep a job from being done: a run has at most 14 steps for a job that
reads and 12 for one that writes, and it can only stop when every thread has been in its critical
sections, in the order of its jobs, and the lock is free again (`workload_completes`).

Each step brings its thread nearer to the end of its jobs (`PC.left`), so runs end; and by
`Inv.idle_of_wait` they cannot end where a thread is waiting.
-/

namespace LinkProxy.Lock

/-! ## Jobs -/

/-- What a thread takes the lock for. -/
inductive Job where
  | read
  | write
  deriving DecidableEq, Repr

/-- The first step of `readBegin` or `writeBegin`. -/
def Job.start : Job → PC
  | .read => .rbLock3
  | .write => .wbLock2

/-- The most steps that a job takes. -/
def Job.cost : Job → ℕ
  | .read => 14
  | .write => 12

/-- The most steps that are left until a thread is idle. -/
def PC.left : PC → ℕ
  | .idle => 0
  | .rbLock3 => 13
  | .rbLockR => 12
  | .rbLock1 => 11
  | .rbInc => 10
  | .rbLockW => 9
  | .rbUnlock1 => 8
  | .rbUnlockR => 7
  | .rbUnlock3 => 6
  | .reading => 5
  | .reLock1 => 4
  | .reDec => 3
  | .reUnlockW => 2
  | .reUnlock1 => 1
  | .wbLock2 => 11
  | .wbInc => 10
  | .wbLockR => 9
  | .wbUnlock2 => 8
  | .wbLockW => 7
  | .writing => 6
  | .weUnlockW => 5
  | .weLock2 => 4
  | .weDec => 3
  | .weUnlockR => 2
  | .weUnlock2 => 1

/-- The job of a thread that has not come to its critical section yet. -/
def PC.ahead (p : PC) : List Job :=
  match p.phase with
  | .readBegin => [.read]
  | .writeBegin => [.write]
  | _ => []

/-- The critical section that a thread is in. -/
def PC.entered : PC → List Job
  | .reading => [.read]
  | .writing => [.write]
  | _ => []

/-- The lock, what each thread still has to do, and the critical sections it has been in. -/
structure Workload (ι : Type*) where
  state : State ι
  todo : ι → List Job
  done : ι → List Job

section

variable {ι : Type*}

/-- The threads with their jobs, before the first step. -/
def Workload.start (jobs : ι → List Job) : Workload ι where
  state := ⟨RwLock.free ι, fun _ => .idle⟩
  todo := jobs
  done _ := []

/-- All jobs are done, and the lock is as it was. -/
structure Workload.Completed (jobs : ι → List Job) (h : Workload ι) : Prop where
  idle : ∀ i, h.state.pc i = .idle
  todo : ∀ i, h.todo i = []
  done : ∀ i, h.done i = jobs i
  lock : h.state.lock = RwLock.free ι

variable [DecidableEq ι]

/-- The threads using the lock for their jobs, in any interleaving. An idle thread starts the first
of its jobs. -/
def workload (jobs : ι → List Job) : TransitionSystem (Workload ι) ι where
  init h := h = .start jobs
  step h i h' := ∃ l q rest, (l, q) ∈ next h.state.lock i (h.state.pc i) ∧
    (if h.state.pc i = .idle then ∃ j, h.todo i = j :: rest ∧ q = j.start else rest = h.todo i) ∧
    h' = { state := ⟨l, Function.update h.state.pc i q⟩
           todo := Function.update h.todo i rest
           done := Function.update h.done i (h.done i ++ q.entered) }

/-! ## One step -/

omit [DecidableEq ι] in
/-- A step of a thread that is not idle brings it nearer to the end of its job. -/
theorem next_left {l l' : RwLock ι} {i : ι} {p q : PC} (hmem : (l', q) ∈ next l i p)
    (hp : p ≠ .idle) : q.left < p.left := by
  cases p <;> rw [next] at hmem
  case idle => exact absurd rfl hp
  case rbLock3 | rbLockR | rbLock1 | rbLockW | reLock1 | wbLock2 | wbLockR | wbLockW | weLock2 =>
    obtain ⟨rfl, -⟩ := RwLock.mem_lock hmem
    decide
  case rbInc | reDec | wbInc | weDec =>
    obtain ⟨-, rfl⟩ := mem_pair hmem
    split_ifs
    · decide
    · decide
  all_goals
    obtain ⟨-, rfl⟩ := mem_pair hmem
    decide

omit [DecidableEq ι] in
/-- It enters the critical section it was heading for, and no other one. -/
theorem next_entered {l l' : RwLock ι} {i : ι} {p q : PC} (hmem : (l', q) ∈ next l i p)
    (hp : p ≠ .idle) : q.entered ++ q.ahead = p.ahead := by
  cases p <;> rw [next] at hmem
  case idle => exact absurd rfl hp
  case rbLock3 | rbLockR | rbLock1 | rbLockW | reLock1 | wbLock2 | wbLockR | wbLockW | weLock2 =>
    obtain ⟨rfl, -⟩ := RwLock.mem_lock hmem
    rfl
  case rbInc | reDec | wbInc | weDec =>
    obtain ⟨-, rfl⟩ := mem_pair hmem
    split_ifs
    · rfl
    · rfl
  all_goals
    obtain ⟨-, rfl⟩ := mem_pair hmem
    rfl

/-- The steps that a thread may still take. -/
def Workload.left (h : Workload ι) (i : ι) : ℕ :=
  (h.state.pc i).left + ((h.todo i).map Job.cost).sum

section

variable {jobs : ι → List Job} {h h' : Workload ι} {i : ι}

/-- A step is one of the lock. -/
theorem workload_machine (hstep : (workload jobs).step h i h') :
    (machine ι).step h.state i h'.state := by
  obtain ⟨l, q, rest, hmem, -, rfl⟩ := hstep
  exact ⟨l, q, hmem, rfl⟩

/-- A step takes something off what is left for its thread, and leaves the others alone. -/
theorem left_of_step (hstep : (workload jobs).step h i h') :
    h'.left i < h.left i ∧ ∀ k, k ≠ i → h'.left k = h.left k := by
  obtain ⟨l, q, rest, hmem, htodo, rfl⟩ := hstep
  constructor
  · simp only [Workload.left, Function.update_self]
    split_ifs at htodo with hidle
    · obtain ⟨j, hj, rfl⟩ := htodo
      rw [hidle, hj, List.map_cons, List.sum_cons]
      cases j <;> simp [Job.start, Job.cost, PC.left]
    · rw [htodo]
      exact Nat.add_lt_add_right (next_left hmem hidle) _
  · intro k hk
    simp [Workload.left, hk]

/-- The critical sections a thread has been in, the one it is heading for and its other jobs are
its jobs. -/
def Workload.Accounts (jobs : ι → List Job) (h : Workload ι) : Prop :=
  ∀ i, h.done i ++ ((h.state.pc i).ahead ++ h.todo i) = jobs i

theorem Workload.Accounts.step (haccounts : h.Accounts jobs) (hstep : (workload jobs).step h i h') :
    h'.Accounts jobs := by
  obtain ⟨l, q, rest, hmem, htodo, rfl⟩ := hstep
  intro k
  by_cases hki : k = i
  · subst hki
    simp only [Function.update_self]
    rw [← haccounts k, List.append_assoc]
    congr 1
    split_ifs at htodo with hidle
    · obtain ⟨j, hj, rfl⟩ := htodo
      rw [hidle, hj]
      cases j <;> rfl
    · rw [htodo, ← next_entered hmem hidle, List.append_assoc]
  · simp only [Function.update_of_ne hki]
    exact haccounts k

end

/-! ## Runs -/

variable [Fintype ι] {jobs : ι → List Job} {h h' : Workload ι}

/-- The steps that may still be taken. -/
def Workload.rank (h : Workload ι) : ℕ := ∑ i, h.left i

omit [DecidableEq ι] in
theorem rank_start (jobs : ι → List Job) :
    (Workload.start jobs).rank = ∑ i, ((jobs i).map Job.cost).sum := by
  simp only [Workload.rank, Workload.left, Workload.start, PC.left, Nat.zero_add]

theorem rank_lt_of_step {i : ι} (hstep : (workload jobs).step h i h') : h'.rank < h.rank := by
  obtain ⟨hlt, hrest⟩ := left_of_step hstep
  refine Finset.sum_lt_sum (fun k _ => ?_) ⟨i, Finset.mem_univ i, hlt⟩
  by_cases hki : k = i
  · exact hki ▸ hlt.le
  · exact (hrest k hki).le

/-- What holds in every run. -/
structure Workload.Ok (jobs : ι → List Job) (h : Workload ι) : Prop where
  inv : Inv h.state
  accounts : h.Accounts jobs

theorem Workload.Ok.step {i : ι} (hok : h.Ok jobs) (hstep : (workload jobs).step h i h') :
    h'.Ok jobs := ⟨hok.inv.step (workload_machine hstep), hok.accounts.step hstep⟩

omit [DecidableEq ι] in
theorem Workload.Ok.start (jobs : ι → List Job) : (Workload.start jobs).Ok jobs :=
  ⟨Inv.initial, fun _ => rfl⟩

omit [DecidableEq ι] in
/-- When all threads are idle, nobody holds a mutex, and nobody is counted. -/
theorem Inv.free_of_idle {s : State ι} (hinv : Inv s) (hidle : ∀ i, s.pc i = .idle) :
    s.lock = RwLock.free ι := by
  have hzero {p : PC} (hp : p ≠ .idle) : population s.pc p = 0 :=
    population_eq_zero_of_forall_ne fun i heq => hp (heq.symm.trans (hidle i))
  obtain ⟨h1, h2, h3, h4, h5, h6, h7, -, -, -, -⟩ := hinv
  simp (disch := decide) only [hzero] at h1 h2 h3 h4 h5 h6 h7
  refine RwLock.ext_mutex (by simpa [RwLock.free] using h4) (by simpa [RwLock.free] using h5)
    fun m => ?_
  have hfree (m : Mutex) (hocc : s.lock.occ m = 0) : s.lock.mutex m = none := by
    unfold RwLock.occ at hocc
    split_ifs at hocc with hsome
    simpa using hsome
  apply hfree
  cases m <;> omega

/-- **Where no step can be taken, all jobs are done.** -/
theorem Workload.Ok.completed (hok : h.Ok jobs) (hstuck : ∀ i h', ¬(workload jobs).step h i h') :
    h.Completed jobs := by
  have hidle : ∀ i, h.state.pc i = .idle := by
    refine hok.inv.idle_of_wait fun i hi => List.eq_nil_iff_forall_not_mem.2 ?_
    rintro ⟨l, q⟩ hmem
    exact hstuck i _ ⟨l, q, h.todo i, hmem, by rw [if_neg hi], rfl⟩
  have htodo (i : ι) : h.todo i = [] := by
    cases hjobs : h.todo i with
    | nil => rfl
    | cons j rest =>
      refine absurd ⟨h.state.lock, j.start, rest, ?_, ?_, rfl⟩ (hstuck i _)
      · rw [hidle i, next]
        cases j <;> simp [Job.start]
      · rw [if_pos (hidle i)]
        exact ⟨j, hjobs, rfl⟩
  refine ⟨hidle, htodo, fun i => ?_, hok.inv.free_of_idle hidle⟩
  have haccounts := hok.accounts i
  rw [hidle i, htodo i] at haccounts
  simpa [PC.ahead, PC.phase] using haccounts

/-- **Every job is done under every schedule.** A run of threads with their jobs has at most 14
steps for each job that reads and 12 for each that writes. Where it cannot go on, every thread has
been in the critical sections of its jobs, in their order, and the lock is as it was initialised;
and every run can be carried on to there. -/
theorem workload_completes {n : ℕ} (hrun : (workload jobs).Run (.start jobs) n h) :
    n ≤ ∑ i, ((jobs i).map Job.cost).sum ∧
    ((∀ i h', ¬(workload jobs).step h i h') → h.Completed jobs) ∧
    ∃ m h', (workload jobs).Run h m h' ∧ h'.Completed jobs := by
  have hok : h.Ok jobs := hrun.invariant (fun _ _ _ hok hstep => hok.step hstep) (.start jobs)
  refine ⟨?_, fun hstuck => hok.completed hstuck, ?_⟩
  · have hle := hrun.add_rank_le (I := fun h => h.Ok jobs) (fun _ _ _ hok hstep => hok.step hstep)
      (fun _ _ _ _ hstep => rank_lt_of_step hstep) (.start jobs)
    rw [rank_start] at hle
    omega
  · obtain ⟨m, h', hrest, hstuck⟩ := TransitionSystem.exists_run_stuck (I := fun h => h.Ok jobs)
      (fun _ _ _ hok hstep => hok.step hstep) (fun _ _ _ _ hstep => rank_lt_of_step hstep) h hok
    have hok' : h'.Ok jobs := hrest.invariant (fun _ _ _ hok hstep => hok.step hstep) hok
    exact ⟨m, h', hrest, hok'.completed hstuck⟩

/-- One thread writes, the other one reads and writes. -/
def twoThreads : Bool → List Job
  | false => [.write]
  | true => [.read, .write]

theorem workload_completes_two : ∃ m h', (workload twoThreads).Run (.start twoThreads) m h' ∧
    m ≤ 38 ∧ h'.done true = [.read, .write] ∧ h'.state.lock = RwLock.free _ := by
  obtain ⟨-, -, m, h', hrun, hdone⟩ := @workload_completes _ _ _ twoThreads _ _ .refl
  exact ⟨m, h', hrun, (workload_completes hrun).1, hdone.done true, hdone.lock⟩

end

end LinkProxy.Lock
