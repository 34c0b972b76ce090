import LinkProxy.Lock.Progress

/-!
# Who unlocks a mutex

POSIX lets only the thread that has locked a default mutex unlock it. `mutex1`, `mutex2` and
`mutex3` are used that way, and so are `r` by readers and `w` by writers. But `w` is also held by
the readers as a group: the first to come locks it and the last to go unlocks it; so is `r` by the
writers.

`recorded` is the machine with a record of who opened the groups, that is, brought `readcount` or
`writecount` from `0` to `1`. In every run in which the thread that opens a group is the last one to
leave it, every `pthread_mutex_unlock` is executed by the thread that locked the mutex; and where
another one is the last to leave, it goes on to unlock a mutex that it has not locked
(`unlocked_by_owner`).
-/

namespace LinkProxy.Lock

/-- The mutex that a control point is about to unlock. -/
def PC.unlocks : PC → Option Mutex
  | .rbUnlock1 | .reUnlock1 => some .mutex1
  | .wbUnlock2 | .weUnlock2 => some .mutex2
  | .rbUnlock3 => some .mutex3
  | .rbUnlockR | .weUnlockR => some .r
  | .reUnlockW | .weUnlockW => some .w
  | _ => none

/-- The control points at which a thread has a mutex that it unlocks itself. -/
def PC.owned : Mutex → Finset PC
  | .mutex1 => {.rbInc, .rbLockW, .rbUnlock1, .reDec, .reUnlockW, .reUnlock1}
  | .mutex2 => {.wbInc, .wbLockR, .wbUnlock2, .weDec, .weUnlockR, .weUnlock2}
  | .mutex3 => {.rbLockR, .rbLock1, .rbInc, .rbLockW, .rbUnlock1, .rbUnlockR, .rbUnlock3}
  | .r => insert .weUnlockR PC.holdsR
  | .w => {.writing, .weUnlockW, .reUnlockW}

theorem PC.mem_owned_of_unlocks {p : PC} {m : Mutex} (h : p.unlocks = some m) : p ∈ PC.owned m := by
  cases p <;> cases h <;> decide

theorem PC.unlocks_eq_none {p : PC} {m : Mutex} (h : p.locks = some m) : p.unlocks = none := by
  cases p <;> cases h <;> rfl

section

variable {ι : Type*}

/-- The lock, and the threads that last brought the counters from `0` to `1`. -/
structure Recorded (ι : Type*) where
  state : State ι
  firstReader : Option ι
  firstWriter : Option ι

/-- The threads using the lock, with the record. -/
def recorded (ι : Type*) [DecidableEq ι] : TransitionSystem (Recorded ι) ι where
  init h := h = ⟨⟨RwLock.free ι, fun _ => .idle⟩, none, none⟩
  step h i h' := (machine ι).step h.state i h'.state ∧
    h'.firstReader = (if h.state.pc i = .rbInc ∧ h.state.lock.readcount = 0 then some i
      else h.firstReader) ∧
    h'.firstWriter = (if h.state.pc i = .wbInc ∧ h.state.lock.writecount = 0 then some i
      else h.firstWriter)

/-- Every thread that is about to unlock a mutex is the one that locked it. -/
def UnlockedByOwner (s : State ι) : Prop :=
  ∀ i m, (s.pc i).unlocks = some m → s.lock.mutex m = some i

/-- A thread that leaves a group as the last one has opened it. -/
def FirstLeavesLast (h : Recorded ι) (i : ι) : Prop :=
  (h.state.pc i = .reDec → h.state.lock.readcount = 1 → h.firstReader = some i) ∧
    (h.state.pc i = .weDec → h.state.lock.writecount = 1 → h.firstWriter = some i)

/-! ## What a step does to the mutexes -/

/-- The control points that can follow one. -/
def PC.following : PC → Finset PC
  | .idle => {.rbLock3, .wbLock2}
  | .rbLock3 => {.rbLockR}
  | .rbLockR => {.rbLock1}
  | .rbLock1 => {.rbInc}
  | .rbInc => {.rbLockW, .rbUnlock1}
  | .rbLockW => {.rbUnlock1}
  | .rbUnlock1 => {.rbUnlockR}
  | .rbUnlockR => {.rbUnlock3}
  | .rbUnlock3 => {.reading}
  | .reading => {.reLock1}
  | .reLock1 => {.reDec}
  | .reDec => {.reUnlockW, .reUnlock1}
  | .reUnlockW => {.reUnlock1}
  | .reUnlock1 => {.idle}
  | .wbLock2 => {.wbInc}
  | .wbInc => {.wbLockR, .wbUnlock2}
  | .wbLockR => {.wbUnlock2}
  | .wbUnlock2 => {.wbLockW}
  | .wbLockW => {.writing}
  | .writing => {.weUnlockW}
  | .weUnlockW => {.weLock2}
  | .weLock2 => {.weDec}
  | .weDec => {.weUnlockR, .weUnlock2}
  | .weUnlockR => {.weUnlock2}
  | .weUnlock2 => {.idle}

/-- A `pthread_mutex_lock` that does not block finds the mutex free. -/
theorem RwLock.lock_mutex {l l' : RwLock ι} {m : Mutex} {j : ι} {p q : PC}
    (h : (l', q) ∈ ((l.lock m j).map (·, p)).toList) :
    q = p ∧ l.mutex m = none ∧ l'.mutex = Function.update l.mutex m (some j) := by
  unfold RwLock.lock at h
  split_ifs at h with hm
  · simp only [Option.map_some, Option.mem_toList, Option.some.injEq, Prod.mk.injEq] at h
    obtain ⟨rfl, rfl⟩ := h
    exact ⟨rfl, hm, rfl⟩
  · simp at h

/-- A step locks a mutex that is free, unlocks one, or leaves them all. -/
theorem next_mutex {l l' : RwLock ι} {j : ι} {p q : PC} (hmem : (l', q) ∈ next l j p) :
    q ∈ p.following ∧
      ((∃ m, p.locks = some m ∧ l.mutex m = none ∧
          l'.mutex = Function.update l.mutex m (some j)) ∨
        (∃ m, p.locks = none ∧ p.unlocks = some m ∧ l'.mutex = Function.update l.mutex m none) ∨
        (p.locks = none ∧ p.unlocks = none ∧ l'.mutex = l.mutex)) := by
  cases p <;> rw [next] at hmem
  case idle =>
    simp only [List.mem_cons, Prod.mk.injEq, List.not_mem_nil, or_false] at hmem
    rcases hmem with ⟨rfl, rfl⟩ | ⟨rfl, rfl⟩ <;> exact ⟨by decide, .inr (.inr ⟨rfl, rfl, rfl⟩)⟩
  case rbLock3 | rbLockR | rbLock1 | rbLockW | reLock1 | wbLock2 | wbLockR | wbLockW | weLock2 =>
    obtain ⟨rfl, hfree, hl⟩ := RwLock.lock_mutex hmem
    exact ⟨by decide, .inl ⟨_, rfl, hfree, hl⟩⟩
  case rbInc | reDec | wbInc | weDec =>
    obtain ⟨rfl, rfl⟩ := mem_pair hmem
    refine ⟨?_, .inr (.inr ⟨rfl, rfl, rfl⟩)⟩
    split_ifs <;> decide
  case reading | writing =>
    obtain ⟨rfl, rfl⟩ := mem_pair hmem
    exact ⟨by decide, .inr (.inr ⟨rfl, rfl, rfl⟩)⟩
  all_goals
    obtain ⟨rfl, rfl⟩ := mem_pair hmem
    exact ⟨by decide, .inr (.inl ⟨_, rfl, rfl, rfl⟩)⟩

/-- A control point at which a mutex is owned follows one that locks it or at which it is owned and
not unlocked, or it is the end of a group. -/
theorem PC.owned_following {p q : PC} (hq : q ∈ p.following) {m : Mutex} (hm : q ∈ PC.owned m) :
    p.locks = some m ∨ (p ∈ PC.owned m ∧ p.locks = none ∧ p.unlocks ≠ some m) ∨
      (p ∈ PC.owned m ∧ ∃ m', p.locks = some m' ∧ m' ≠ m) ∨
      q = .reUnlockW ∧ p = .reDec ∧ m = .w ∨ q = .weUnlockR ∧ p = .weDec ∧ m = .r := by
  cases p <;> simp only [PC.following, Finset.mem_insert, Finset.mem_singleton] at hq <;>
    first
    | (subst hq; revert m; intro m; cases m <;> decide +revert)
    | (rcases hq with rfl | rfl <;> revert m <;> intro m <;> cases m <;> decide +revert)

/-- A step leaves a mutex that is held and that it does not unlock. -/
theorem next_mutex_eq {l l' : RwLock ι} {j : ι} {p q : PC} (hmem : (l', q) ∈ next l j p) {m : Mutex}
    (hheld : l.mutex m ≠ none) (hunlock : p.unlocks ≠ some m) : l'.mutex m = l.mutex m := by
  obtain ⟨-, ⟨m', -, hfree, hl⟩ | ⟨m', -, hm', hl⟩ | ⟨-, -, hl⟩⟩ := next_mutex hmem
  · have hne : m ≠ m' := by
      rintro rfl
      exact hheld hfree
    rw [hl, Function.update_of_ne hne]
  · have hne : m ≠ m' := by
      rintro rfl
      exact hunlock hm'
    rw [hl, Function.update_of_ne hne]
  · rw [hl]

theorem RwLock.mutex_ne_none {l : RwLock ι} {m : Mutex} (h : l.occ m ≠ 0) : l.mutex m ≠ none := by
  intro hnone
  exact h (by simp [RwLock.occ, hnone])

/-- What a step does to the counters, and when it leads to the locking or unlocking of a group. -/
theorem next_counts {l l' : RwLock ι} {j : ι} {p q : PC} (hmem : (l', q) ∈ next l j p) :
    (l'.readcount = if p = .rbInc then l.readcount + 1 else
      if p = .reDec then l.readcount - 1 else l.readcount) ∧
    (l'.writecount = if p = .wbInc then l.writecount + 1 else
      if p = .weDec then l.writecount - 1 else l.writecount) ∧
    (q = .rbLockW ↔ p = .rbInc ∧ l.readcount = 0) ∧ (q = .wbLockR ↔ p = .wbInc ∧ l.writecount = 0) ∧
    (q = .reUnlockW ↔ p = .reDec ∧ l.readcount = 1) ∧
    (q = .weUnlockR ↔ p = .weDec ∧ l.writecount = 1) := by
  cases p <;> rw [next] at hmem
  case idle =>
    simp only [List.mem_cons, Prod.mk.injEq, List.not_mem_nil, or_false] at hmem
    rcases hmem with ⟨rfl, rfl⟩ | ⟨rfl, rfl⟩ <;> simp
  case rbLock3 | rbLockR | rbLock1 | rbLockW | reLock1 | wbLock2 | wbLockR | wbLockW | weLock2 =>
    obtain ⟨rfl, -, hread, hwrite, -⟩ := RwLock.mem_lock hmem
    simp [hread, hwrite]
  case rbInc | reDec | wbInc | weDec =>
    obtain ⟨rfl, rfl⟩ := mem_pair hmem
    refine ⟨by simp, by simp, ?_⟩
    split_ifs <;> simp <;> omega
  all_goals
    obtain ⟨rfl, rfl⟩ := mem_pair hmem
    simp

end

/-! ## The invariant of the runs -/

section

variable {ι : Type*}

/-- **Who has locked what.** Each thread at a control point at which it owns a mutex has locked it,
a thread that is about to lock `w` or `r` for its group is the recorded one, and otherwise a group
holds its mutex in the name of the recorded thread. -/
structure Owns (h : Recorded ι) : Prop where
  owned : ∀ i m, h.state.pc i ∈ PC.owned m → h.state.lock.mutex m = some i
  opensRead : ∀ i, h.state.pc i = .rbLockW → h.firstReader = some i
  opensWrite : ∀ i, h.state.pc i = .wbLockR → h.firstWriter = some i
  readers : 1 ≤ h.state.lock.readcount → (∀ i, h.state.pc i ≠ .rbLockW) →
    h.state.lock.mutex .w = h.firstReader
  writers : 1 ≤ h.state.lock.writecount → (∀ i, h.state.pc i ≠ .wbLockR) →
    h.state.lock.mutex .r = h.firstWriter

theorem Owns.initial : Owns (⟨⟨RwLock.free ι, fun _ => .idle⟩, none, none⟩ : Recorded ι) := by
  constructor
  · intro i m hi
    have hidle : ∀ m, PC.idle ∉ PC.owned m := fun m => by cases m <;> decide
    exact absurd hi (hidle m)
  · intro i hi
    cases hi
  · intro i hi
    cases hi
  · intro hcount
    simp [RwLock.free] at hcount
  · intro hcount
    simp [RwLock.free] at hcount

namespace Owns

variable {h h' : Recorded ι} {i j : ι}

/-- Two threads at control points at which they own the same mutex are the same. -/
theorem unique (ho : Owns h) {m : Mutex} (hi : h.state.pc i ∈ PC.owned m)
    (hj : h.state.pc j ∈ PC.owned m) : i = j := by
  have heq := (ho.owned i m hi).symm.trans (ho.owned j m hj)
  exact Option.some.inj heq

/-- What a thread owns stays its own through the steps of the others. -/
theorem owned_other (ho : Owns h) {l : RwLock ι} {q : PC} {m : Mutex}
    (hmem : (l, q) ∈ next h.state.lock j (h.state.pc j)) (hij : i ≠ j)
    (hi : h.state.pc i ∈ PC.owned m) : l.mutex m = some i := by
  have hheld := ho.owned i m hi
  rw [next_mutex_eq hmem (by simp [hheld]), hheld]
  intro hunlock
  exact hij (ho.unique hi (PC.mem_owned_of_unlocks hunlock))

/-- While a reader decrements `readcount`, no other is about to lock `w`. -/
theorem not_rbLockW (ho : Owns h) (hj : h.state.pc j = .reDec) (k : ι) :
    h.state.pc k ≠ .rbLockW := by
  intro hk
  have heq : j = k := ho.unique (m := .mutex1) (by rw [hj]; decide) (by rw [hk]; decide)
  rw [heq, hk] at hj
  cases hj

/-- While a writer decrements `writecount`, no other is about to lock `r`. -/
theorem not_wbLockR (ho : Owns h) (hj : h.state.pc j = .weDec) (k : ι) :
    h.state.pc k ≠ .wbLockR := by
  intro hk
  have heq : j = k := ho.unique (m := .mutex2) (by rw [hj]; decide) (by rw [hk]; decide)
  rw [heq, hk] at hj
  cases hj

/-- After its own step a thread owns what it should, if it leaves a group last only where it has
opened it. -/
theorem owned_self (ho : Owns h) {l : RwLock ι} {q : PC} {m : Mutex} (hlast : FirstLeavesLast h j)
    (hmem : (l, q) ∈ next h.state.lock j (h.state.pc j)) (hq : q ∈ PC.owned m) :
    l.mutex m = some j := by
  obtain ⟨hnext, hcase⟩ := next_mutex hmem
  obtain ⟨-, -, -, -, hreader, hwriter⟩ := next_counts hmem
  rcases PC.owned_following hnext hq with hm | ⟨hown, -, hm⟩ | ⟨hown, m', hm', hne⟩ |
    ⟨rfl, hp, rfl⟩ | ⟨rfl, hp, rfl⟩
  · -- it has locked the mutex in this step
    rcases hcase with ⟨m', hm', -, hl⟩ | ⟨m', hm', -⟩ | ⟨hm', -⟩
    · cases hm.symm.trans hm'
      rw [hl, Function.update_self]
    · cases hm.symm.trans hm'
    · cases hm.symm.trans hm'
  · have hheld := ho.owned j m hown
    rw [next_mutex_eq hmem (by simp [hheld]) hm, hheld]
  · have hheld := ho.owned j m hown
    rw [next_mutex_eq hmem (by simp [hheld]) (by simp [PC.unlocks_eq_none hm']), hheld]
  · -- the last reader, which has opened the group
    obtain ⟨-, hcount⟩ := hreader.1 rfl
    have hw := ho.readers (by omega) (ho.not_rbLockW hp)
    rw [hlast.1 hp hcount] at hw
    rw [next_mutex_eq hmem (by simp [hw]) (by simp [hp, PC.unlocks]), hw]
  · obtain ⟨-, hcount⟩ := hwriter.1 rfl
    have hr := ho.writers (by omega) (ho.not_wbLockR hp)
    rw [hlast.2 hp hcount] at hr
    rw [next_mutex_eq hmem (by simp [hr]) (by simp [hp, PC.unlocks]), hr]

/-- **Every unlocking is by the thread that locked the mutex.** -/
theorem unlockedByOwner (ho : Owns h) : UnlockedByOwner h.state := by
  intro i m hm
  exact ho.owned i m (PC.mem_owned_of_unlocks hm)

section Step

variable [DecidableEq ι]

/-- A thread that is about to lock `w` for its group has just been recorded, or has been before. -/
theorem opensRead_step (ho : Owns h) (hstep : (recorded ι).step h j h')
    (hi : h'.state.pc i = .rbLockW) : h'.firstReader = some i := by
  obtain ⟨⟨l, q, hmem, hs⟩, hfirst, -⟩ := hstep
  obtain ⟨-, -, hopen, -⟩ := next_counts hmem
  rw [hs] at hi
  by_cases hij : i = j
  · subst hij
    have hq : q = .rbLockW := by simpa using hi
    rw [hfirst, if_pos (hopen.1 hq)]
  · have hi : h.state.pc i = .rbLockW := by simpa [hij] using hi
    rw [hfirst, if_neg, ho.opensRead i hi]
    rintro ⟨hj, -⟩
    exact hij (ho.unique (m := .mutex1) (by rw [hi]; decide) (by rw [hj]; decide))

theorem opensWrite_step (ho : Owns h) (hstep : (recorded ι).step h j h')
    (hi : h'.state.pc i = .wbLockR) : h'.firstWriter = some i := by
  obtain ⟨⟨l, q, hmem, hs⟩, -, hfirst⟩ := hstep
  obtain ⟨-, -, -, hopen, -⟩ := next_counts hmem
  rw [hs] at hi
  by_cases hij : i = j
  · subst hij
    have hq : q = .wbLockR := by simpa using hi
    rw [hfirst, if_pos (hopen.1 hq)]
  · have hi : h.state.pc i = .wbLockR := by simpa [hij] using hi
    rw [hfirst, if_neg, ho.opensWrite i hi]
    rintro ⟨hj, -⟩
    exact hij (ho.unique (m := .mutex2) (by rw [hi]; decide) (by rw [hj]; decide))

variable [Fintype ι]

omit [Fintype ι] in
/-- A control point at which nobody is after the step of a thread that was not there. -/
theorem forall_ne_of_update {f : ι → PC} {p q : PC} (hj : f j ≠ p)
    (hno : ∀ i, Function.update f j q i ≠ p) (k : ι) : f k ≠ p := by
  intro hk
  have hkj : k ≠ j := by
    rintro rfl
    exact hj hk
  exact hno k (by rwa [Function.update_of_ne hkj])

omit [Fintype ι] [DecidableEq ι] in
/-- A counter that is positive after a step has been so before, if the step did not open a group. -/
theorem one_le_of_count {c c' : Int} {inc dec : Prop} [Decidable inc] [Decidable dec]
    (hc : c' = if inc then c + 1 else if dec then c - 1 else c) (hpos : 1 ≤ c')
    (hopen : inc → c ≠ 0) : 1 ≤ c := by
  split_ifs at hc with hinc
  · have hne := hopen hinc
    omega
  · omega
  · omega

/-- Once the first reader has locked `w`, the readers hold it in its name. -/
theorem readers_step (ho : Owns h) (inv : Inv h.state) (hstep : (recorded ι).step h j h')
    (hcount : 1 ≤ h'.state.lock.readcount) (hno : ∀ i, h'.state.pc i ≠ .rbLockW) :
    h'.state.lock.mutex .w = h'.firstReader := by
  obtain ⟨⟨l, q, hmem, hs⟩, hfirst, -⟩ := hstep
  rw [hs] at hcount hno ⊢
  obtain ⟨hread, -, hopen, -⟩ := next_counts hmem
  by_cases hp : h.state.pc j = .rbLockW
  · -- the first reader locks it now
    rw [hfirst, if_neg (by simp [hp]), ho.opensRead j hp]
    rw [hp, next] at hmem
    exact (RwLock.lock_mutex hmem).2.2 ▸ Function.update_self ..
  have hno' := forall_ne_of_update hp hno
  have hzero := population_eq_zero_of_forall_ne hno'
  have hq : q ≠ .rbLockW := by simpa using hno j
  have hnonneg := inv.readcount
  have hcount' : 1 ≤ h.state.lock.readcount :=
    one_le_of_count hread hcount fun hinc heq => hq (hopen.2 ⟨hinc, heq⟩)
  have hw := inv.w
  have occ := h.state.lock.occ_le_one
  have hheld : h.state.lock.mutex .w ≠ none := RwLock.mutex_ne_none (by omega)
  have hunlock : (h.state.pc j).unlocks ≠ some .w := by
    intro hunlock
    have hpos : 0 < population h.state.pc (h.state.pc j) := population_pos rfl
    cases hpc : h.state.pc j <;> rw [hpc] at hunlock hpos <;> cases hunlock <;> omega
  rw [hfirst, if_neg (by omega)]
  exact (next_mutex_eq hmem hheld hunlock).trans (ho.readers hcount' hno')

/-- Once the first writer has locked `r`, the writers hold it in its name. -/
theorem writers_step (ho : Owns h) (inv : Inv h.state) (hstep : (recorded ι).step h j h')
    (hcount : 1 ≤ h'.state.lock.writecount) (hno : ∀ i, h'.state.pc i ≠ .wbLockR) :
    h'.state.lock.mutex .r = h'.firstWriter := by
  obtain ⟨⟨l, q, hmem, hs⟩, -, hfirst⟩ := hstep
  rw [hs] at hcount hno ⊢
  obtain ⟨-, hwrite, -, hopen, -⟩ := next_counts hmem
  by_cases hp : h.state.pc j = .wbLockR
  · -- the first writer locks it now
    rw [hfirst, if_neg (by simp [hp]), ho.opensWrite j hp]
    rw [hp, next] at hmem
    exact (RwLock.lock_mutex hmem).2.2 ▸ Function.update_self ..
  have hno' := forall_ne_of_update hp hno
  have hzero := population_eq_zero_of_forall_ne hno'
  have hq : q ≠ .wbLockR := by simpa using hno j
  have hnonneg := inv.writecount
  have hcount' : 1 ≤ h.state.lock.writecount :=
    one_le_of_count hwrite hcount fun hinc heq => hq (hopen.2 ⟨hinc, heq⟩)
  have hr := inv.r
  have occ := h.state.lock.occ_le_one
  have hheld : h.state.lock.mutex .r ≠ none := RwLock.mutex_ne_none (by omega)
  have hunlock : (h.state.pc j).unlocks ≠ some .r := by
    intro hunlock
    have hpos : 0 < population h.state.pc (h.state.pc j) := population_pos rfl
    cases hpc : h.state.pc j <;> rw [hpc] at hunlock hpos <;> cases hunlock <;> omega
  rw [hfirst, if_neg (by omega)]
  exact (next_mutex_eq hmem hheld hunlock).trans (ho.writers hcount' hno')

/-- **One step preserves the invariant**, if a thread that leaves a group last has opened it. -/
theorem step (ho : Owns h) (inv : Inv h.state) (hlast : FirstLeavesLast h j)
    (hstep : (recorded ι).step h j h') : Owns h' := by
  refine ⟨?_, fun i => ho.opensRead_step hstep, fun i => ho.opensWrite_step hstep,
    ho.readers_step inv hstep, ho.writers_step inv hstep⟩
  obtain ⟨⟨l, q, hmem, hs⟩, -⟩ := hstep
  rw [hs]
  intro i m hi
  by_cases hij : i = j
  · subst hij
    exact ho.owned_self hlast hmem (by simpa using hi)
  · exact ho.owned_other hmem hij (by simpa [hij] using hi)

omit [Fintype ι] in
/-- A thread that leaves a group last and has not opened it is about to unlock a mutex that another
has locked. -/
theorem not_unlockedByOwner (ho : Owns h) (hstep : (recorded ι).step h j h')
    (hlast : ¬FirstLeavesLast h j) : ¬UnlockedByOwner h'.state := by
  obtain ⟨⟨l, q, hmem, hs⟩, -⟩ := hstep
  obtain ⟨-, -, -, -, hreader, hwriter⟩ := next_counts hmem
  intro hunlocked
  rw [hs] at hunlocked
  apply hlast
  constructor
  · intro hp hcount
    have hq : q = .reUnlockW := hreader.2 ⟨hp, hcount⟩
    have hw := ho.readers (by omega) (ho.not_rbLockW hp)
    have howner : l.mutex .w = some j := hunlocked j .w (by simp [hq, PC.unlocks])
    rw [hp, next] at hmem
    obtain ⟨rfl, -⟩ := mem_pair hmem
    exact hw.symm.trans howner
  · intro hp hcount
    have hq : q = .weUnlockR := hwriter.2 ⟨hp, hcount⟩
    have hr := ho.writers (by omega) (ho.not_wbLockR hp)
    have howner : l.mutex .r = some j := hunlocked j .r (by simp [hq, PC.unlocks])
    rw [hp, next] at hmem
    obtain ⟨rfl, -⟩ := mem_pair hmem
    exact hr.symm.trans howner

end Step

end Owns

variable [DecidableEq ι] {h h' : Recorded ι}

/-- The record is added to the runs of the machine and changes nothing in them. -/
theorem Recorded.reachable_state (hs : (recorded ι).Reachable h) : (machine ι).Reachable h.state := by
  induction hs with
  | init h₀ => exact .init (by rw [h₀]; rfl)
  | step _ hstep ih => exact .step ih hstep.1

/-- Every run of the machine can be recorded. -/
theorem Recorded.exists_of_reachable {s : State ι} (hs : (machine ι).Reachable s) :
    ∃ h, (recorded ι).Reachable h ∧ h.state = s := by
  induction hs with
  | init h₀ => exact ⟨⟨_, none, none⟩, .init rfl, h₀.symm⟩
  | step _ hstep ih =>
    obtain ⟨h, hh, rfl⟩ := ih
    exact ⟨⟨_, _, _⟩, .step hh ⟨hstep, rfl, rfl⟩, rfl⟩

/-- **Mutex ownership.** In every run of any number of threads in which a thread that leaves a group
as the last one has opened it, every unlocking of a mutex is by the thread that locked it; and as
soon as a thread leaves a group last that it has not opened, it goes on to unlock a mutex that it
has not locked. -/
theorem unlocked_by_owner [Fintype ι] (hs : ((recorded ι).guard FirstLeavesLast).Reachable h) :
    UnlockedByOwner h.state ∧
      ∀ i h', (recorded ι).step h i h' → ¬FirstLeavesLast h i → ¬UnlockedByOwner h'.state := by
  have howns : Owns h := by
    induction hs with
    | init h₀ => exact h₀ ▸ Owns.initial
    | step hs hstep ih =>
      exact ih.step (Inv.reachable (Recorded.reachable_state hs.of_guard)) hstep.1 hstep.2
  exact ⟨howns.unlockedByOwner, fun i h' => howns.not_unlockedByOwner⟩

instance (h : Recorded ι) (i : ι) : Decidable (FirstLeavesLast h i) :=
  inferInstanceAs (Decidable ((_ → _ → _) ∧ (_ → _ → _)))

/-- The `k`-th of the steps that thread `i` may take, where it meets the condition. -/
def Recorded.exec (h : Recorded ι) (i : ι) (k : ℕ) : Option (Recorded ι) :=
  if FirstLeavesLast h i then
    (h.state.exec i k).map fun s => ⟨s,
      if h.state.pc i = .rbInc ∧ h.state.lock.readcount = 0 then some i else h.firstReader,
      if h.state.pc i = .wbInc ∧ h.state.lock.writecount = 0 then some i else h.firstWriter⟩
  else none

theorem Recorded.step_of_exec {i : ι} {k : ℕ} (he : h.exec i k = some h') :
    ((recorded ι).guard FirstLeavesLast).step h i h' := by
  unfold Recorded.exec at he
  have hlast : FirstLeavesLast h i := by
    by_contra hlast
    rw [if_neg hlast] at he
    cases he
  rw [if_pos hlast] at he
  obtain ⟨s, hs, rfl⟩ := Option.map_eq_some_iff.1 he
  exact ⟨hlast, Lock.step_of_exec hs, rfl, rfl⟩

/-- A second reader comes and goes while the first one reads, and the first one leaves last. -/
theorem unlocked_by_owner_reader : ∃ h : Recorded (Fin 2), h.state.pc 0 = .reUnlockW ∧
    UnlockedByOwner h.state ∧ h.state.lock.mutex .w = some 0 := by
  let sched : List (Fin 2 × ℕ) := List.replicate 9 (0, 0) ++ List.replicate 12 (1, 0) ++
    List.replicate 3 (0, 0)
  have run : ∃ h : Recorded (Fin 2), sched.foldlM (fun h a => h.exec a.1 a.2)
      ⟨⟨RwLock.free _, fun _ => .idle⟩, none, none⟩ = some h ∧ h.state.pc 0 = .reUnlockW :=
    ⟨_, rfl, by decide⟩
  obtain ⟨h, hrun, h0⟩ := run
  have hs := TransitionSystem.Reachable.of_schedule (S := (recorded (Fin 2)).guard FirstLeavesLast)
    (fun _ a _ ha => ⟨a.1, Recorded.step_of_exec ha⟩) sched (.init rfl) hrun
  have howner := (unlocked_by_owner hs).1
  exact ⟨h, h0, howner, howner 0 .w (by rw [h0]; rfl)⟩

/-- Two readers overlap and the second one leaves last: it is about to unlock `w`, which the first
one has locked. -/
theorem unlocked_by_another : ∃ s : State (Fin 2), (machine (Fin 2)).Reachable s ∧
    s.pc 1 = .reUnlockW ∧ s.lock.mutex .w = some 0 ∧ ¬UnlockedByOwner s := by
  let sched : List (Fin 2 × ℕ) := List.replicate 9 (0, 0) ++ List.replicate 8 (1, 0) ++
    List.replicate 4 (0, 0) ++ List.replicate 3 (1, 0)
  have run : ∃ s : State (Fin 2), sched.foldlM (fun s a => s.exec a.1 a.2)
      ⟨RwLock.free _, fun _ => .idle⟩ = some s ∧ s.pc 1 = .reUnlockW ∧ s.lock.mutex .w = some 0 :=
    ⟨_, rfl, by decide⟩
  obtain ⟨s, hrun, h1, hw⟩ := run
  refine ⟨s, reachable_of_exec sched hrun, h1, hw, ?_⟩
  intro howner
  have h := howner 1 .w (by rw [h1]; rfl)
  rw [hw] at h
  exact absurd h (by decide)

end

end LinkProxy.Lock
