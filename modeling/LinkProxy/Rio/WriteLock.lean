import LinkProxy.Rio.Writer

/-!
# The lock of the writer

`rio_write` once more, with the calls that it makes and the type of lock that every `fcntl` asks for
(`rioWriteAt`); without the calls it is the function of `Rio.Writer`. The exits behind the write
lock give it back, except for one: if `Wait` fails, it returns without an unlock. And `Lock` itself
may fail after the lock has been granted, since it goes on as long as `errno` is `EINTR`.

These are the only ways to keep the lock (`writeContract_iff`). What is written is a prefix of the
buffer on every exit.
-/

namespace LinkProxy.Rio

/-- A call of the writer and its result, with the type of lock that an `fcntl` asks for. -/
structure WriteCall where
  type : Option LockType
  result : OutCall
  deriving DecidableEq

/-- The calls between two states. -/
def made (type : Option LockType) (w w' : Sys) : List WriteCall :=
  (w.out.take (w.out.length - w'.out.length)).map (WriteCall.mk type)

/-- The loop of `rio_write`, with its calls. -/
def rioWriteLoopAt (n : ℕ) : ℕ → List UInt8 → Sys → Option (List WriteCall × Int × Sys)
  | 0, _, _ => none
  | fuel + 1, rest, w =>
    if rest.length = 0 then do
      let (r, w₁) ← lock .unlck w
      if r < 0 then return (made (some .unlck) w w₁, -1, w₁)
      return (made (some .unlck) w w₁, n - rest.length, w₁)
    else do
      let (r, w₁) ← wait .pollout w
      if r < 0 then return (made none w w₁, -1, w₁)
      match ← sysWrite rest w₁ with
      | (.error e, w₂) =>
        if e = .EINTR then do
          let (cs, r, w') ← rioWriteLoopAt n fuel rest w₂
          return (made none w w₂ ++ cs, r, w')
        else do
          let (r, w₃) ← lock .unlck w₂
          if r < 0 then return (made none w w₂ ++ made (some .unlck) w₂ w₃, -1, w₃)
          return (made none w w₂ ++ made (some .unlck) w₂ w₃, -1, w₃)
      | (.ok k, w₂) => do
        let (cs, r, w') ← rioWriteLoopAt n fuel (rest.drop k) w₂
        return (made none w w₂ ++ cs, r, w')

/-- `rio_write`, with its calls. -/
def rioWriteAt (usrbuf : List UInt8) (w : Sys) : Option (List WriteCall × Int × Sys) := do
  let (r, w₁) ← lock .wrlck w
  if r < 0 then return (made (some .wrlck) w w₁, -1, w₁)
  let (cs, r, w') ← rioWriteLoopAt usrbuf.length (w₁.out.length + 1) usrbuf w₁
  return (made (some .wrlck) w w₁ ++ cs, r, w')

/-- What has been written is a prefix of the buffer, the result is the length of the buffer, and the
prefix all of it, or `-1`; and an unlock has been issued if a write lock was granted. -/
structure WriteContract (usrbuf : List UInt8) (w : Sys) (cs : List WriteCall) (r : Int) (w' : Sys) :
    Prop where
  sent : ∃ k ≤ usrbuf.length, w'.sent = w.sent ++ usrbuf.take k ∧
    (r = usrbuf.length ∧ k = usrbuf.length ∨ r = -1)
  unlocked : ⟨some .wrlck, .fcntl none⟩ ∈ cs → ∃ c ∈ cs, c.type = some .unlck

/-! ## Without the calls -/

theorem rioWriteLoopAt_map (n fuel : ℕ) (rest : List UInt8) (w : Sys) :
    (rioWriteLoopAt n fuel rest w).map Prod.snd = rioWriteLoop n fuel rest w := by
  induction fuel generalizing rest w with
  | zero => rfl
  | succ fuel ih =>
    -- a further pass, after the calls of this one
    have again (cs₁ : List WriteCall) (rest : List UInt8) (w : Sys) :
        ((rioWriteLoopAt n fuel rest w).bind fun (cs, r, w') => some (cs₁ ++ cs, r, w')).map
          Prod.snd = rioWriteLoop n fuel rest w := by
      rw [← ih, Option.map_bind, Option.map_eq_bind]
      rfl
    rw [rioWriteLoopAt, rioWriteLoop]
    split_ifs with hrest
    · rcases lock .unlck w with _ | ⟨r, w₁⟩
      · rfl
      · simp only [Option.bind_eq_bind, Option.bind_some, Option.pure_def]
        split_ifs <;> rfl
    · rcases wait .pollout w with _ | ⟨r, w₁⟩
      · rfl
      simp only [Option.bind_eq_bind, Option.bind_some, Option.pure_def]
      split_ifs with hr
      · rfl
      rcases sysWrite rest w₁ with _ | ⟨e | k, w₂⟩
      · rfl
      · simp only [Option.bind_some]
        split_ifs with he
        · exact again _ rest w₂
        · rcases lock .unlck w₂ with _ | ⟨r, w₃⟩
          · rfl
          · simp only [Option.bind_some, ite_self, Option.map_some]
      · exact again _ (rest.drop k) w₂

/-- **Without the calls it is `rio_write`.** -/
theorem rioWriteAt_map (usrbuf : List UInt8) (w : Sys) :
    (rioWriteAt usrbuf w).map Prod.snd = rioWrite usrbuf w := by
  rw [rioWriteAt, rioWrite]
  rcases lock .wrlck w with _ | ⟨r, w₁⟩
  · rfl
  simp only [Option.bind_eq_bind, Option.bind_some, Option.pure_def]
  split_ifs with hr
  · rfl
  · rw [← rioWriteLoopAt_map, Option.map_bind, Option.map_eq_bind]
    rfl

/-! ## The calls -/

section

variable {n fuel : ℕ} {rest rest' : List UInt8} {w w₁ w₂ w' : Sys} {r : Int} {type : LockType}
  {cs : List WriteCall}

theorem made_eq {type : Option LockType} {used : List OutCall} (h : w.out = used ++ w'.out) :
    made type w w' = used.map (WriteCall.mk type) := by
  rw [made, h, List.length_append, Nat.add_sub_cancel, List.take_left']
  rfl

@[simp] theorem map_result (type : Option LockType) (used : List OutCall) :
    (used.map (WriteCall.mk type)).map WriteCall.result = used := by
  rw [List.map_map]
  exact List.map_id used

theorem lock_used (h : lock type w = some (r, w')) :
    ∃ used, w.out = used ++ w'.out ∧ (∀ c ∈ used, c.ofFcntl.isSome) ∧
      RetryEnds OutCall.ofFcntl used r := by
  obtain ⟨⟨r₁, e, s⟩, hretry, h⟩ := Option.map_eq_some_iff.1 h
  obtain ⟨rfl, rfl⟩ := Prod.mk.inj h
  exact (retry_used hretry).2

theorem wait_pollout_used (h : wait .pollout w = some (r, w')) :
    ∃ used, w.out = used ++ w'.out ∧ (∀ c ∈ used, c.ofPoll.isSome) ∧
      RetryEnds OutCall.ofPoll used r := by
  obtain ⟨⟨r₁, e, s⟩, hretry, h⟩ := Option.map_eq_some_iff.1 h
  obtain ⟨rfl, rfl⟩ := Prod.mk.inj h
  exact (retry_used hretry).2

theorem sysWrite_used {res : Except Errno ℕ} (h : sysWrite rest w = some (res, w')) :
    w.out = .write res :: w'.out := by
  rw [sysWrite] at h
  split at h
  · rename_i k s hs
    split_ifs at h
    obtain ⟨rfl, rfl⟩ := Prod.mk.inj (Option.some.inj h)
    exact hs
  · rename_i e s hs
    obtain ⟨rfl, rfl⟩ := Prod.mk.inj (Option.some.inj h)
    exact hs
  · cases h

theorem ofPoll_of_ofFcntl {c : OutCall} (h : c.ofFcntl.isSome) : c.ofPoll = none := by
  cases c with
  | fcntl r => rfl
  | poll r => cases h
  | write r => cases h

theorem not_failed_of_eq_none {α : Type*} {call : α → Option (Option Errno)} {a : α}
    (h : call a = none) : ¬Failed call a := by
  rintro ⟨e, -, he⟩
  rw [h] at he
  cases he

/-- What the loop has done when it returns: an unlock is among its calls exactly if no `poll` has
failed. -/
structure LoopCalls (rest : List UInt8) (w : Sys) (cs : List WriteCall) (w' : Sys) : Prop where
  out : w.out = cs.map WriteCall.result ++ w'.out
  type_ne : ∀ c ∈ cs, c.type ≠ some .wrlck
  unlocked : (∃ c ∈ cs, c.type = some .unlck) ↔ ∀ c ∈ cs, ¬Failed OutCall.ofPoll c.result
  polled : rest ≠ [] → ∃ c ∈ cs, c.result.ofPoll ≠ none

/-- The calls of a pass that does not leave the loop. -/
structure PassCalls (w : Sys) (cs : List WriteCall) (w' : Sys) : Prop where
  out : w.out = cs.map WriteCall.result ++ w'.out
  type_eq : ∀ c ∈ cs, c.type = none
  not_failed : ∀ c ∈ cs, ¬Failed OutCall.ofPoll c.result
  polled : ∃ c ∈ cs, c.result.ofPoll ≠ none

theorem passCalls {res : Except Errno ℕ} (hwait : wait .pollout w = some (0, w₁))
    (hwrite : sysWrite rest w₁ = some (res, w₂)) : PassCalls w (made none w w₂) w₂ := by
  obtain ⟨used, hout, -, ⟨-, ⟨a, ha, hnone⟩, hfailed⟩ | ⟨hr, -⟩⟩ := wait_pollout_used hwait
  swap
  · cases hr
  have hout₂ : w.out = (used ++ [.write res]) ++ w₂.out := by
    rw [hout, sysWrite_used hwrite, List.append_assoc]
    rfl
  have hfailed₂ : ∀ c ∈ used ++ [.write res], ¬Failed OutCall.ofPoll c := by
    rw [List.forall_mem_append, List.forall_mem_singleton]
    exact ⟨hfailed, not_failed_of_eq_none rfl⟩
  rw [made_eq hout₂]
  refine ⟨?_, ?_, ?_, ⟨none, a⟩, ?_, ?_⟩
  · rw [map_result, hout₂]
  · exact List.forall_mem_map.2 fun c hc => rfl
  · exact List.forall_mem_map.2 hfailed₂
  · exact List.mem_map_of_mem (List.mem_append_left _ ha)
  · rw [hnone]
    exact nofun

/-- A pass before the rest of the loop. -/
theorem LoopCalls.of_pass {cs₁ : List WriteCall} (hpass : PassCalls w cs₁ w₁)
    (h : LoopCalls rest' w₁ cs w') : LoopCalls rest w (cs₁ ++ cs) w' where
  out := by rw [hpass.out, h.out, List.map_append, List.append_assoc]
  type_ne c hc := by
    rcases List.mem_append.1 hc with hc | hc
    · rw [hpass.type_eq c hc]
      exact nofun
    · exact h.type_ne c hc
  unlocked := by
    rw [List.forall_mem_append, ← h.unlocked]
    constructor
    · rintro ⟨c, hc, htype⟩
      refine ⟨hpass.not_failed, c, ?_, htype⟩
      rcases List.mem_append.1 hc with hc | hc
      · rw [hpass.type_eq c hc] at htype
        cases htype
      · exact hc
    · rintro ⟨-, c, hc, htype⟩
      exact ⟨c, List.mem_append_right _ hc, htype⟩
  polled _ := by
    obtain ⟨c, hc, hpoll⟩ := hpass.polled
    exact ⟨c, List.mem_append_left _ hc, hpoll⟩

/-- The exits with an unlock. -/
theorem loopCalls_unlck (h : lock .unlck w = some (r, w')) :
    LoopCalls [] w (made (some .unlck) w w') w' := by
  obtain ⟨used, hout, hused, hends⟩ := lock_used h
  obtain ⟨a, ha⟩ : ∃ a, a ∈ used := by
    rcases hends with ⟨-, ⟨a, ha, -⟩, -⟩ | ⟨-, a, ha, -⟩
    · exact ⟨a, ha⟩
    · exact ⟨a, ha⟩
  rw [made_eq hout]
  refine ⟨?_, ?_, iff_of_true ⟨⟨some .unlck, a⟩, List.mem_map_of_mem ha, rfl⟩ ?_, ?_⟩
  · rw [map_result, hout]
  · exact List.forall_mem_map.2 fun c hc => nofun
  · exact List.forall_mem_map.2 fun c hc =>
      not_failed_of_eq_none (ofPoll_of_ofFcntl (hused c hc))
  · exact fun hrest => absurd rfl hrest

/-- **The exit without an unlock**: `Wait` has failed. -/
theorem loopCalls_wait (h : wait .pollout w = some (-1, w')) :
    LoopCalls rest w (made none w w') w' := by
  obtain ⟨used, hout, hused, ⟨hr, -⟩ | ⟨-, a, ha, hfailed⟩⟩ := wait_pollout_used h
  · cases hr
  have hmem : ⟨none, a⟩ ∈ used.map (WriteCall.mk none) := List.mem_map_of_mem ha
  rw [made_eq hout]
  refine ⟨?_, ?_, iff_of_false ?_ fun hall => hall _ hmem hfailed, fun _ => ⟨_, hmem, ?_⟩⟩
  · rw [map_result, hout]
  · exact List.forall_mem_map.2 fun c hc => nofun
  · rintro ⟨c, hc, htype⟩
    obtain ⟨c, -, rfl⟩ := List.mem_map.1 hc
    cases htype
  · exact Option.isSome_iff_ne_none.1 (hused a ha)

theorem rioWriteLoopAt_calls (h : rioWriteLoopAt n fuel rest w = some (cs, r, w')) :
    LoopCalls rest w cs w' := by
  induction fuel generalizing rest w cs with
  | zero => cases h
  | succ fuel ih =>
    rw [rioWriteLoopAt] at h
    split_ifs at h with hrest
    · obtain ⟨⟨r₁, w₁⟩, hlock, h⟩ := Option.bind_eq_some_iff.1 h
      obtain rfl := List.length_eq_zero_iff.1 hrest
      have hcalls := loopCalls_unlck hlock
      dsimp only at h
      split_ifs at h
      · obtain ⟨rfl, -, rfl⟩ := by simpa using h
        exact hcalls
      · obtain ⟨rfl, -, rfl⟩ := by simpa using h
        exact hcalls
    obtain ⟨⟨r₁, w₁⟩, hwait, h⟩ := Option.bind_eq_some_iff.1 h
    rcases (wait_pollout hwait).1 with rfl | rfl
    swap
    · obtain ⟨rfl, -, rfl⟩ := by simpa using h
      exact loopCalls_wait hwait
    obtain ⟨⟨res, w₂⟩, hwrite, h⟩ := Option.bind_eq_some_iff.1 h
    have hpass := passCalls hwait hwrite
    cases res with
    | ok k =>
      obtain ⟨⟨cs₁, r₂, w₃⟩, hloop, h⟩ := Option.bind_eq_some_iff.1 h
      obtain ⟨rfl, rfl, rfl⟩ := by simpa using h
      exact .of_pass hpass (ih hloop)
    | error e =>
      dsimp only at h
      split_ifs at h with he
      · obtain ⟨⟨cs₁, r₂, w₃⟩, hloop, h⟩ := Option.bind_eq_some_iff.1 h
        obtain ⟨rfl, rfl, rfl⟩ := by simpa using h
        exact .of_pass hpass (ih hloop)
      · obtain ⟨⟨r₃, w₃⟩, hlock, h⟩ := Option.bind_eq_some_iff.1 h
        obtain ⟨rfl, -, rfl⟩ := by simpa using h
        exact .of_pass hpass (loopCalls_unlck hlock)

/-- The ways out of `rio_write`: the lock is not taken, or the loop is run. -/
theorem rioWriteAt_cases {usrbuf : List UInt8} (h : rioWriteAt usrbuf w = some (cs, r, w')) :
    ∃ used, (∀ c ∈ used, c.ofFcntl.isSome) ∧
      ((cs = used.map (WriteCall.mk (some .wrlck)) ∧ w.out = used ++ w'.out) ∨
        ∃ w₁ cs₁, cs = used.map (WriteCall.mk (some .wrlck)) ++ cs₁ ∧ w.out = used ++ w₁.out ∧
          .fcntl none ∈ used ∧ LoopCalls usrbuf w₁ cs₁ w') := by
  obtain ⟨⟨r₁, w₁⟩, hlock, h⟩ := Option.bind_eq_some_iff.1 h
  obtain ⟨used, hout, hused, ⟨rfl, ⟨a, ha, hnone⟩, -⟩ | ⟨rfl, -⟩⟩ := lock_used hlock
  · obtain ⟨⟨cs₁, r₂, w₃⟩, hloop, h⟩ := Option.bind_eq_some_iff.1 h
    obtain ⟨rfl, rfl, rfl⟩ := by simpa using h
    obtain rfl : a = .fcntl none := by
      cases a with
      | fcntl r =>
        rw [Option.some.inj hnone]
      | poll r => cases hnone
      | write r => cases hnone
    exact ⟨used, hused, .inr ⟨w₁, cs₁, by rw [made_eq hout], hout, ha, rioWriteLoopAt_calls hloop⟩⟩
  · obtain ⟨rfl, rfl, rfl⟩ := by simpa using h
    exact ⟨used, hused, .inl ⟨made_eq hout, hout⟩⟩

/-- If the lock is not taken, it has not been granted. -/
theorem unlocked_iff_of_lock {used : List OutCall} (hfcntl : ∀ c ∈ used, c.ofFcntl.isSome) :
    (⟨some .wrlck, .fcntl none⟩ ∈ used.map (WriteCall.mk (some .wrlck)) →
        ∃ c ∈ used.map (WriteCall.mk (some .wrlck)), c.type = some .unlck) ↔
      (∀ c ∈ used, ¬Failed OutCall.ofPoll c) ∧
        ((∀ c ∈ used, c.ofPoll = none) → .fcntl none ∉ used) := by
  have hpoll : ∀ c ∈ used, c.ofPoll = none := fun c hc => ofPoll_of_ofFcntl (hfcntl c hc)
  constructor
  · intro h
    refine ⟨fun c hc => not_failed_of_eq_none (hpoll c hc), fun _ hmem => ?_⟩
    obtain ⟨c, hc, htype⟩ := h (List.mem_map_of_mem hmem)
    obtain ⟨c, -, rfl⟩ := List.mem_map.1 hc
    cases htype
  · rintro ⟨-, h⟩ hmem
    obtain ⟨c, hc, heq⟩ := List.mem_map.1 hmem
    obtain rfl := (WriteCall.mk.inj heq).2
    exact absurd hc (h hpoll)

/-- If the loop has been run, it has given the lock back exactly if no `poll` has failed. -/
theorem unlocked_iff_of_loop {used : List OutCall} (hfcntl : ∀ c ∈ used, c.ofFcntl.isSome)
    (hgranted : .fcntl none ∈ used) (hrest : rest ≠ []) (h : LoopCalls rest w cs w') :
    (⟨some .wrlck, .fcntl none⟩ ∈ used.map (WriteCall.mk (some .wrlck)) ++ cs →
        ∃ c ∈ used.map (WriteCall.mk (some .wrlck)) ++ cs, c.type = some .unlck) ↔
      (∀ c ∈ used ++ cs.map WriteCall.result, ¬Failed OutCall.ofPoll c) ∧
        ((∀ c ∈ used ++ cs.map WriteCall.result, c.ofPoll = none) →
          .fcntl none ∉ used ++ cs.map WriteCall.result) := by
  have hall : (∀ c ∈ used ++ cs.map WriteCall.result, ¬Failed OutCall.ofPoll c) ↔
      ∃ c ∈ cs, c.type = some .unlck := by
    rw [h.unlocked, List.forall_mem_append, List.forall_mem_map]
    refine and_iff_right fun c hc => ?_
    exact not_failed_of_eq_none (ofPoll_of_ofFcntl (hfcntl c hc))
  rw [hall]
  constructor
  · intro hunlocked
    obtain ⟨c, hc, htype⟩ := hunlocked (List.mem_append_left _ (List.mem_map_of_mem hgranted))
    refine ⟨⟨c, ?_, htype⟩, fun hpoll => ?_⟩
    · rcases List.mem_append.1 hc with hc | hc
      · obtain ⟨c, -, rfl⟩ := List.mem_map.1 hc
        cases htype
      · exact hc
    · obtain ⟨c, hc, hne⟩ := h.polled hrest
      exact absurd (hpoll _ (List.mem_append_right _ (List.mem_map_of_mem hc))) hne
  · rintro ⟨⟨c, hc, htype⟩, -⟩ -
    exact ⟨c, List.mem_append_right _ hc, htype⟩

end

/-- **`rio_write` keeps its contract exactly if no `poll` fails other than by a signal, and `Lock`
does not fail after the lock has been granted**: if it has failed, there was no `poll`. The results
`used` are those up to the return. -/
theorem writeContract_iff (usrbuf : List UInt8) (hbuf : usrbuf ≠ []) (w w' : Sys)
    (used s : List OutCall) (r : Int)
    (hrun : rioWrite usrbuf { w with out := used ++ s } = some (r, w')) (hleft : w'.out = s) :
    ∃ cs, rioWriteAt usrbuf { w with out := used ++ s } = some (cs, r, w') ∧
      (WriteContract usrbuf w cs r w' ↔ (∀ c ∈ used, ¬Failed OutCall.ofPoll c) ∧
        ((∀ c ∈ used, c.ofPoll = none) → .fcntl none ∉ used)) := by
  have hspec := rioWrite_spec hrun
  rw [← rioWriteAt_map] at hrun
  obtain ⟨⟨cs, r', w''⟩, hat, heq⟩ := Option.map_eq_some_iff.1 hrun
  obtain ⟨rfl, rfl⟩ := Prod.mk.inj heq
  refine ⟨cs, hat, ?_⟩
  have hcontract : WriteContract usrbuf w cs r' w'' ↔
      (⟨some .wrlck, .fcntl none⟩ ∈ cs → ∃ c ∈ cs, c.type = some .unlck) :=
    ⟨fun h => h.unlocked, fun h => ⟨hspec.2.2, h⟩⟩
  rw [hcontract]
  obtain ⟨used₁, hfcntl, ⟨rfl, hout⟩ | ⟨w₁, cs₁, rfl, hout, hgranted, hloop⟩⟩ :=
    rioWriteAt_cases hat
  · obtain rfl : used = used₁ := List.append_cancel_right (hout.trans (by rw [hleft]))
    exact unlocked_iff_of_lock hfcntl
  · rw [hloop.out, ← List.append_assoc, hleft] at hout
    obtain rfl : used = used₁ ++ cs₁.map WriteCall.result := List.append_cancel_right hout
    exact unlocked_iff_of_loop hfcntl hgranted hbuf hloop

/-- Two partial writes. -/
theorem writeContract_two : ∃ cs, rioWriteAt [1, 2] ⟨.ok, [], [.fcntl none, .poll none,
      .write (.ok 1), .poll none, .write (.ok 1), .fcntl none], [], []⟩ =
        some (cs, 2, ⟨.ok, [], [], [1, 2], [.wrlck, .unlck]⟩) ∧
      WriteContract [1, 2] ⟨.ok, [], [], [], []⟩ cs 2 ⟨.ok, [], [], [1, 2], [.wrlck, .unlck]⟩ := by
  obtain ⟨cs, hat, hiff⟩ := writeContract_iff [1, 2] (by decide) ⟨.ok, [], [], [], []⟩
    ⟨.ok, [], [], [1, 2], [.wrlck, .unlck]⟩ [.fcntl none, .poll none, .write (.ok 1), .poll none,
      .write (.ok 1), .fcntl none] [] 2 rfl rfl
  refine ⟨cs, hat, hiff.2 ⟨?_, fun hpoll => ?_⟩⟩
  · simp [Failed, OutCall.ofPoll]
  · cases hpoll (.poll none) (by decide)

/-- `Wait` fails, and the lock is kept. -/
theorem not_writeContract_poll : ∃ cs w',
    rioWriteAt [1] ⟨.ok, [], [.fcntl none, .poll (some (.other 12))], [], []⟩ = some (cs, -1, w') ∧
      ¬WriteContract [1] ⟨.ok, [], [], [], []⟩ cs (-1) w' := by
  refine ⟨[⟨some .wrlck, .fcntl none⟩, ⟨none, .poll (some (.other 12))⟩],
    ⟨.other 12, [], [], [], [.wrlck]⟩, rfl, fun h => ?_⟩
  obtain ⟨c, hc, htype⟩ := h.unlocked (by decide)
  revert htype c
  decide

end LinkProxy.Rio
