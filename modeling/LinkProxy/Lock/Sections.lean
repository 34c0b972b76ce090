import LinkProxy.Lock.ReadersWriters

/-!
# Critical sections of one thread

`readBegin`, `readEnd`, `writeBegin` and `writeEnd` as functions on the lock, for a thread that runs
alone; where it would wait for a mutex there is no result. They are the runs of the thread in
`machine` (`writeBegin_run` and the like), so the lock is the one that is safe for any number of
threads.

A section that is entered and left gives back the lock as it was (`writeEnd_writeBegin`), whatever
state it was in. A section that is entered and not left does not (`not_released_writeBegin`).
-/

namespace LinkProxy.Lock

variable {ι : Type*}

namespace RwLock

/-- Lock a mutex if a count has just become one. -/
def lockFirst (count : Int) (m : Mutex) (i : ι) (l : RwLock ι) : Option (RwLock ι) :=
  if count = 1 then l.lock m i else some l

/-- `readBegin`. -/
def readBegin (i : ι) (l : RwLock ι) : Option (RwLock ι) := do
  let l ← l.lock .mutex3 i
  let l ← l.lock .r i
  let l ← l.lock .mutex1 i
  let l := { l with readcount := l.readcount + 1 }
  let l ← l.lockFirst l.readcount .w i
  return ((l.unlock .mutex1).unlock .r).unlock .mutex3

/-- `readEnd`. -/
def readEnd (i : ι) (l : RwLock ι) : Option (RwLock ι) := do
  let l ← l.lock .mutex1 i
  let l := { l with readcount := l.readcount - 1 }
  let l := if l.readcount = 0 then l.unlock .w else l
  return l.unlock .mutex1

/-- `writeBegin`. -/
def writeBegin (i : ι) (l : RwLock ι) : Option (RwLock ι) := do
  let l ← l.lock .mutex2 i
  let l := { l with writecount := l.writecount + 1 }
  let l ← l.lockFirst l.writecount .r i
  (l.unlock .mutex2).lock .w i

/-- `writeEnd`. -/
def writeEnd (i : ι) (l : RwLock ι) : Option (RwLock ι) := do
  let l ← (l.unlock .w).lock .mutex2 i
  let l := { l with writecount := l.writecount - 1 }
  let l := if l.writecount = 0 then l.unlock .r else l
  return l.unlock .mutex2

/-- The counters are the same, and `r` and `w` are held or free as before. -/
structure Released (l l' : RwLock ι) : Prop where
  readcount : l'.readcount = l.readcount
  writecount : l'.writecount = l.writecount
  r : (l'.mutex .r).isSome = (l.mutex .r).isSome
  w : (l'.mutex .w).isSome = (l.mutex .w).isSome

theorem released_refl (l : RwLock ι) : l.Released l := ⟨rfl, rfl, rfl, rfl⟩

variable {l l' : RwLock ι} {i : ι}

/-- A mutex can be locked if it is free. -/
theorem lock_eq_some {m : Mutex} :
    l.lock m i = some l' ↔
      l.mutex m = none ∧ l' = { l with mutex := Function.update l.mutex m (some i) } := by
  unfold lock
  split_ifs with hfree
  · simp [hfree, eq_comm]
  · simp [hfree]

theorem lock_of_free {m : Mutex} (h : l.mutex m = none) :
    l.lock m i = some { l with mutex := Function.update l.mutex m (some i) } :=
  lock_eq_some.2 ⟨h, rfl⟩

theorem ext_mutex (hr : l'.readcount = l.readcount) (hw : l'.writecount = l.writecount)
    (hm : ∀ m, l'.mutex m = l.mutex m) : l' = l := by
  cases l
  cases l'
  simp only [mk.injEq]
  exact ⟨funext hm, hr, hw⟩

/-- What `writeBegin` leaves: the two mutexes that it locks and keeps, and the count. -/
theorem writeBegin_eq_some (h : l.writeBegin i = some l') :
    l.mutex .mutex2 = none ∧ l.mutex .w = none ∧ (l.writecount = 0 → l.mutex .r = none) ∧
      l' = { l with
        mutex := Function.update (if l.writecount = 0 then Function.update l.mutex .r (some i)
          else l.mutex) .w (some i)
        writecount := l.writecount + 1 } := by
  obtain ⟨l₁, h₁, h⟩ := Option.bind_eq_some_iff.1 h
  obtain ⟨h2, rfl⟩ := lock_eq_some.1 h₁
  obtain ⟨l₂, h₂, h⟩ := Option.bind_eq_some_iff.1 h
  obtain ⟨hw, rfl⟩ := lock_eq_some.1 h
  have hzero : l.writecount + 1 = 1 ↔ l.writecount = 0 := by omega
  simp only [lockFirst, hzero] at h₂
  split_ifs at h₂ with hcount
  · obtain ⟨hr, rfl⟩ := lock_eq_some.1 h₂
    refine ⟨h2, by simpa [unlock] using hw, fun _ => by simpa using hr, ?_⟩
    refine ext_mutex rfl rfl fun m => ?_
    cases m <;> simp [unlock, hcount, h2]
  · obtain rfl := Option.some.inj h₂
    refine ⟨h2, by simpa [unlock] using hw, fun hc => absurd hc hcount, ?_⟩
    refine ext_mutex rfl rfl fun m => ?_
    cases m <;> simp [unlock, hcount, h2]

/-- **A section of a writer gives the lock back as it was.** -/
theorem writeEnd_writeBegin (h : l.writeBegin i = some l') : l'.writeEnd i = some l := by
  obtain ⟨h2, hw, hr, rfl⟩ := writeBegin_eq_some h
  unfold writeEnd
  rw [lock_of_free (by by_cases hc : l.writecount = 0 <;> simp [unlock, hc, h2])]
  simp only [Option.bind_eq_bind, Option.bind_some, Option.pure_def, Option.some.injEq]
  by_cases hc : l.writecount = 0
  · refine ext_mutex (by simp [unlock, hc]) (by simp [unlock, hc]) fun m => ?_
    cases m <;> simp [unlock, hc, h2, hw, hr hc]
  · refine ext_mutex (by simp [unlock, hc]) (by simp [unlock, hc]) fun m => ?_
    cases m <;> simp [unlock, hc, h2, hw]

/-- **A section that is not left changes the count.** -/
theorem not_released_writeBegin (h : l.writeBegin i = some l') : ¬ l.Released l' := by
  obtain ⟨-, -, -, rfl⟩ := writeBegin_eq_some h
  intro hreleased
  have := hreleased.writecount
  simp at this

/-- **A section of a reader gives the lock back as it was.** -/
theorem readEnd_readBegin (h : l.readBegin i = some l') : l'.readEnd i = some l := by
  obtain ⟨l₁, h₁, h⟩ := Option.bind_eq_some_iff.1 h
  obtain ⟨h3, rfl⟩ := lock_eq_some.1 h₁
  obtain ⟨l₂, h₂, h⟩ := Option.bind_eq_some_iff.1 h
  obtain ⟨hr, rfl⟩ := lock_eq_some.1 h₂
  obtain ⟨l₃, h₃, h⟩ := Option.bind_eq_some_iff.1 h
  obtain ⟨h1, rfl⟩ := lock_eq_some.1 h₃
  obtain ⟨l₄, h₄, h⟩ := Option.bind_eq_some_iff.1 h
  obtain rfl := Option.some.inj h
  have hr : l.mutex .r = none := by simpa using hr
  have h1 : l.mutex .mutex1 = none := by simpa using h1
  have hzero : l.readcount + 1 = 1 ↔ l.readcount = 0 := by omega
  simp only [lockFirst, hzero] at h₄
  split_ifs at h₄ with hcount
  · obtain ⟨hw, rfl⟩ := lock_eq_some.1 h₄
    have hw : l.mutex .w = none := by simpa using hw
    unfold readEnd
    rw [lock_of_free (by simp [unlock])]
    simp only [Option.bind_eq_bind, Option.bind_some, Option.pure_def, Option.some.injEq]
    refine ext_mutex (by simp [unlock, hcount]) (by simp [unlock, hcount]) fun m => ?_
    cases m <;> simp [unlock, hcount, h1, h3, hr, hw]
  · obtain rfl := Option.some.inj h₄
    unfold readEnd
    rw [lock_of_free (by simp [unlock])]
    simp only [Option.bind_eq_bind, Option.bind_some, Option.pure_def, Option.some.injEq]
    refine ext_mutex (by simp [unlock, hcount]) (by simp [unlock, hcount]) fun m => ?_
    cases m <;> simp [unlock, hcount, h1, h3, hr]

end RwLock

/-! ## Runs of one thread -/

section Runs

variable [DecidableEq ι] {l l₁ l' : RwLock ι} {i : ι} {pc : ι → PC} {p q : PC}

/-- A run of the machine in which one thread takes all steps, from a control point to another. -/
def Alone (i : ι) (pc : ι → PC) (l : RwLock ι) (p : PC) (l' : RwLock ι) (q : PC) : Prop :=
  Relation.ReflTransGen (fun s t => (machine ι).step s i t) ⟨l, Function.update pc i p⟩
    ⟨l', Function.update pc i q⟩

theorem Alone.head {o : PC} (hrun : Alone i pc l₁ q l' o) (h : (l₁, q) ∈ next l i p) :
    Alone i pc l p l' o := by
  refine Relation.ReflTransGen.head ⟨l₁, q, ?_, ?_⟩ hrun
  · simpa using h
  · simp

/-- The next step does not wait. -/
theorem Alone.step {o : PC} (hnext : next l i p = [(l₁, q)]) (hrun : Alone i pc l₁ q l' o) :
    Alone i pc l p l' o :=
  hrun.head (by simp [hnext])

/-- The next step locks a mutex. -/
theorem Alone.lock {m : Mutex} {o : PC} (h : l.lock m i = some l₁)
    (hnext : next l i p = ((l.lock m i).map (·, q)).toList) (hrun : Alone i pc l₁ q l' o) :
    Alone i pc l p l' o :=
  hrun.head (by simp [hnext, h])

theorem alone_refl : Alone i pc l p l p := .refl

open RwLock

/-- `writeBegin` is the run of a writer up to its critical section. -/
theorem writeBegin_run (h : l.writeBegin i = some l') :
    Alone i pc l .wbLock2 l' .writing := by
  obtain ⟨l₁, h₁, h⟩ := Option.bind_eq_some_iff.1 h
  obtain ⟨l₂, h₂, h⟩ := Option.bind_eq_some_iff.1 h
  refine .lock h₁ rfl (.step rfl ?_)
  dsimp only at h₂ ⊢
  unfold lockFirst at h₂
  split_ifs at h₂ ⊢ with hcount
  · exact .lock h₂ rfl (.step rfl
      (.lock h rfl alone_refl))
  · obtain rfl := Option.some.inj h₂
    exact .step rfl (.lock h rfl alone_refl)

/-- `writeEnd` is the run of a writer behind its critical section. -/
theorem writeEnd_run (h : l.writeEnd i = some l') :
    Alone i pc l .writing l' .idle := by
  obtain ⟨l₁, h₁, h⟩ := Option.bind_eq_some_iff.1 h
  obtain rfl := Option.some.inj h
  refine .step rfl (.step rfl (.lock h₁ rfl
    (.step rfl ?_)))
  dsimp only
  split_ifs with hcount
  · exact .step rfl (.step rfl alone_refl)
  · exact .step rfl alone_refl

/-- `readBegin` is the run of a reader up to its critical section. -/
theorem readBegin_run (h : l.readBegin i = some l') :
    Alone i pc l .rbLock3 l' .reading := by
  obtain ⟨l₁, h₁, h⟩ := Option.bind_eq_some_iff.1 h
  obtain ⟨l₂, h₂, h⟩ := Option.bind_eq_some_iff.1 h
  obtain ⟨l₃, h₃, h⟩ := Option.bind_eq_some_iff.1 h
  obtain ⟨l₄, h₄, h⟩ := Option.bind_eq_some_iff.1 h
  obtain rfl := Option.some.inj h
  refine .lock h₁ rfl (.lock h₂ rfl
    (.lock h₃ rfl (.step rfl ?_)))
  have hrest : Alone i pc l₄ .rbUnlock1 (((l₄.unlock .mutex1).unlock .r).unlock .mutex3) .reading :=
    .step rfl (.step rfl (.step rfl alone_refl))
  dsimp only at h₄ ⊢
  unfold lockFirst at h₄
  split_ifs at h₄ ⊢ with hcount
  · exact .lock h₄ rfl hrest
  · obtain rfl := Option.some.inj h₄
    exact hrest

/-- `readEnd` is the run of a reader behind its critical section. -/
theorem readEnd_run (h : l.readEnd i = some l') :
    Alone i pc l .reading l' .idle := by
  obtain ⟨l₁, h₁, h⟩ := Option.bind_eq_some_iff.1 h
  obtain rfl := Option.some.inj h
  refine .step rfl (.lock h₁ rfl
    (.step rfl ?_))
  dsimp only
  split_ifs with hcount
  · exact .step rfl (.step rfl alone_refl)
  · exact .step rfl alone_refl

end Runs

end LinkProxy.Lock
