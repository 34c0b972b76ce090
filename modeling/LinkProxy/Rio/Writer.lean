import LinkProxy.Rio.System

/-!
# The writer

`rio_write` takes the file lock, offers what is left of the buffer to `write` until all of it has
been accepted, and gives the lock back. Whatever it returns, the bytes accepted are a prefix of
the buffer, and the result is the length of the buffer only if that prefix is all of it
(`rioWrite_spec`).
-/

namespace LinkProxy.Rio

/-- `write(rp->fd, bufp, nleft)`, with `rest` the `nleft` bytes at `bufp`. The kernel accepts no
more than it was offered. -/
def sysWrite (rest : List UInt8) (w : Sys) : Option (Except Errno ℕ × Sys) :=
  match w.out with
  | .write (.ok k) :: s =>
    if k ≤ rest.length then some (.ok k, { w with out := s, sent := w.sent ++ rest.take k })
    else none
  | .write (.error e) :: s => some (.error e, { w with errno := e, out := s })
  | _ => none

/-- The loop of `rio_write`, with `rest` still to be written. -/
def rioWriteLoop (n : ℕ) : ℕ → List UInt8 → Sys → Option (Int × Sys)
  | 0, _, _ => none
  | fuel + 1, rest, w =>
    if rest.length = 0 then do
      let (r, w) ← lock .unlck w
      if r < 0 then return (-1, w)
      return (n - rest.length, w)
    else do
      let (r, w) ← wait .pollout w
      if r < 0 then return (-1, w)
      match ← sysWrite rest w with
      | (.error e, w) =>
        if e = .EINTR then rioWriteLoop n fuel rest w
        else do
          let (r, w) ← lock .unlck w
          if r < 0 then return (-1, w)
          return (-1, w)
      | (.ok k, w) => rioWriteLoop n fuel (rest.drop k) w

/-- `rio_write`. Every turn of the loop makes a call, so the number of results left bounds the
number of turns. -/
def rioWrite (usrbuf : List UInt8) (w : Sys) : Option (Int × Sys) := do
  let (r, w) ← lock .wrlck w
  if r < 0 then return (-1, w)
  rioWriteLoop usrbuf.length (w.out.length + 1) usrbuf w

/-! ## What is written -/

theorem lock_spec {type : LockType} {w w' : Sys} {r : Int} (h : lock type w = some (r, w')) :
    (r = 0 ∨ r = -1) ∧ w'.errno ≠ .EINTR ∧ w'.inp = w.inp ∧ w'.sent = w.sent := by
  simp only [lock, Option.map_eq_some_iff, Prod.exists, Prod.mk.injEq] at h
  obtain ⟨r', e, s, h, rfl, rfl⟩ := h
  obtain ⟨he, hr, -⟩ := retry_spec h
  exact ⟨hr, he, rfl, rfl⟩

theorem wait_pollout {w w' : Sys} {r : Int} (h : wait .pollout w = some (r, w')) :
    (r = 0 ∨ r = -1) ∧ w'.errno ≠ .EINTR ∧ w'.inp = w.inp ∧ w'.sent = w.sent := by
  simp only [wait, Option.map_eq_some_iff, Prod.exists, Prod.mk.injEq] at h
  obtain ⟨r', e, s, h, rfl, rfl⟩ := h
  obtain ⟨he, hr, -⟩ := retry_spec h
  exact ⟨hr, he, rfl, rfl⟩

/-- A `write` that returned: part of what was offered is accepted, or nothing is. -/
theorem sysWrite_cases {rest : List UInt8} {w w' : Sys} {res : Except Errno ℕ}
    (h : sysWrite rest w = some (res, w')) :
    w'.inp = w.inp ∧ ((∃ k ≤ rest.length, res = .ok k ∧ w'.sent = w.sent ++ rest.take k) ∨
      ∃ e, res = .error e ∧ w'.sent = w.sent) := by
  rw [sysWrite] at h
  split at h
  · rename_i k s hs
    split_ifs at h with hk
    simp only [Option.some.injEq, Prod.mk.injEq] at h
    obtain ⟨rfl, rfl⟩ := h
    exact ⟨rfl, .inl ⟨k, hk, rfl, rfl⟩⟩
  · rename_i e s hs
    simp only [Option.some.injEq, Prod.mk.injEq] at h
    obtain ⟨rfl, rfl⟩ := h
    exact ⟨rfl, .inr ⟨e, rfl, rfl⟩⟩
  · simp at h

/-- What `rio_write` has done when it returns `r`: it has written a prefix of `rest`, all of it
if the result is the count `n`, and it has not left `errno` at `EINTR`. -/
def WriteSpec (n : ℕ) (rest : List UInt8) (w : Sys) (r : Int) (w' : Sys) : Prop :=
  w'.inp = w.inp ∧ w'.errno ≠ .EINTR ∧ ∃ k ≤ rest.length, w'.sent = w.sent ++ rest.take k ∧
    (r = n ∧ k = rest.length ∨ r = -1)

theorem rioWriteLoop_spec {n fuel : ℕ} {rest : List UInt8} {w w' : Sys} {r : Int}
    (h : rioWriteLoop n fuel rest w = some (r, w')) : WriteSpec n rest w r w' := by
  induction fuel generalizing rest w with
  | zero => simp [rioWriteLoop] at h
  | succ fuel ih =>
    rw [rioWriteLoop] at h
    split_ifs at h with h0
    · obtain ⟨⟨r₁, w₁⟩, hl, h⟩ := Option.bind_eq_some_iff.1 h
      obtain ⟨hr, he, hin, hs⟩ := lock_spec hl
      rcases hr with rfl | rfl
      · simp only [lt_irrefl, if_false, h0, Option.pure_def, Option.some.injEq, Prod.mk.injEq] at h
        obtain ⟨rfl, rfl⟩ := h
        exact ⟨hin, he, 0, by simp, by simp [hs], .inl ⟨by simp, h0.symm⟩⟩
      · simp only [Int.reduceNeg, Int.reduceLT, if_true, Option.pure_def, Option.some.injEq,
          Prod.mk.injEq] at h
        obtain ⟨rfl, rfl⟩ := h
        exact ⟨hin, he, 0, by simp, by simp [hs], .inr rfl⟩
    obtain ⟨⟨r₁, w₁⟩, hwait, h⟩ := Option.bind_eq_some_iff.1 h
    obtain ⟨hr₁, he₁, hin₁, hs₁⟩ := wait_pollout hwait
    rcases hr₁ with rfl | rfl
    swap
    · simp only [Int.reduceNeg, Int.reduceLT, if_true, Option.pure_def, Option.some.injEq,
        Prod.mk.injEq] at h
      obtain ⟨rfl, rfl⟩ := h
      exact ⟨hin₁, he₁, 0, by simp, by simp [hs₁], .inr rfl⟩
    simp only [lt_irrefl, if_false] at h
    obtain ⟨⟨res, w₂⟩, hw, h⟩ := Option.bind_eq_some_iff.1 h
    obtain ⟨hin₂, ⟨k, hk, rfl, hs₂⟩ | ⟨e, rfl, hs₂⟩⟩ := sysWrite_cases hw
    · obtain ⟨hin, he, j, hj, hs, hr⟩ := ih h
      rw [List.length_drop] at hj hr
      refine ⟨by rw [hin, hin₂, hin₁], he, k + j, by omega, ?_, by omega⟩
      rw [hs, hs₂, hs₁, List.append_assoc, List.take_add]
    · dsimp only at h
      split_ifs at h with hE
      · obtain ⟨hin, he, j, hj, hs, hr⟩ := ih h
        exact ⟨by rw [hin, hin₂, hin₁], he, j, hj, by rw [hs, hs₂, hs₁], hr⟩
      · -- the lock is given back after a failed write, and either way the result is `-1`
        obtain ⟨⟨r₃, w₃⟩, hl, h⟩ := Option.bind_eq_some_iff.1 h
        obtain ⟨-, he, hin, hs⟩ := lock_spec hl
        simp only [ite_self, Option.pure_def, Option.some.injEq, Prod.mk.injEq] at h
        obtain ⟨rfl, rfl⟩ := h
        exact ⟨by rw [hin, hin₂, hin₁], he, 0, by simp, by simp [hs, hs₂, hs₁], .inr rfl⟩

/-- **`rio_write` writes a prefix of the buffer, and all of it if it succeeds.** -/
theorem rioWrite_spec {usrbuf : List UInt8} {w w' : Sys} {r : Int}
    (h : rioWrite usrbuf w = some (r, w')) : WriteSpec usrbuf.length usrbuf w r w' := by
  obtain ⟨⟨r₁, w₁⟩, hl, h⟩ := Option.bind_eq_some_iff.1 h
  obtain ⟨hr, he, hin, hs⟩ := lock_spec hl
  rcases hr with rfl | rfl
  · simp only [lt_irrefl, if_false] at h
    have hspec := rioWriteLoop_spec h
    unfold WriteSpec at hspec ⊢
    rwa [hin, hs] at hspec
  · simp only [Int.reduceNeg, Int.reduceLT, if_true, Option.pure_def, Option.some.injEq,
      Prod.mk.injEq] at h
    obtain ⟨rfl, rfl⟩ := h
    exact ⟨hin, he, 0, by simp, by simp [hs], .inr rfl⟩

/-- A write that returns a nonnegative count has written the whole buffer. -/
theorem rioWrite_sent {usrbuf : List UInt8} {w w' : Sys} {r : Int}
    (h : rioWrite usrbuf w = some (r, w')) (hr : 0 ≤ r) :
    r = usrbuf.length ∧ w'.sent = w.sent ++ usrbuf := by
  obtain ⟨-, -, k, -, hs, ⟨rfl, rfl⟩ | rfl⟩ := rioWrite_spec h
  · exact ⟨rfl, by rw [hs, List.take_length]⟩
  · omega

theorem lock_ready {type : LockType} {w : Sys} {s : List OutCall} (he : w.errno ≠ .EINTR)
    (h : w.out = .fcntl none :: s) :
    lock type w = some (0, { w with out := s, locks := w.locks ++ [type] }) := by
  have hfcntl : OutCall.ofFcntl (.fcntl none) = some none := rfl
  rw [lock, h, retry_ready hfcntl he]
  rfl

theorem wait_pollout_ready {w : Sys} {s : List OutCall} (he : w.errno ≠ .EINTR)
    (h : w.out = .poll none :: s) : wait .pollout w = some (0, { w with out := s }) := by
  have hpoll : OutCall.ofPoll (.poll none) = some none := rfl
  rw [wait, h, retry_ready hpoll he]
  rfl

/-- A write that succeeds at once. -/
theorem rioWrite_once {usrbuf : List UInt8} {w : Sys} (hn : usrbuf ≠ []) (he : w.errno ≠ .EINTR)
    (hout : w.out = [.fcntl none, .poll none, .write (.ok usrbuf.length), .fcntl none]) :
    rioWrite usrbuf w = some ((usrbuf.length : Int),
      { w with out := [], sent := w.sent ++ usrbuf, locks := w.locks ++ [.wrlck] ++ [.unlck] }) := by
  have hlen : usrbuf.length ≠ 0 := mt List.length_eq_zero_iff.1 hn
  have hwait (s : List OutCall) (locks : List LockType) :
      wait .pollout { w with out := .poll none :: s, locks := locks } =
        some (0, { w with out := s, locks := locks }) :=
    wait_pollout_ready he rfl
  have hunlock (s : List OutCall) (sent : List UInt8) (locks : List LockType) :
      lock .unlck { w with out := .fcntl none :: s, sent := sent, locks := locks } =
        some (0, { w with out := s, sent := sent, locks := locks ++ [.unlck] }) :=
    lock_ready he rfl
  rw [rioWrite, lock_ready he hout]
  simp only [Option.bind_eq_bind, Option.bind_some, lt_irrefl, if_false, List.length_cons]
  rw [rioWriteLoop, if_neg hlen, hwait]
  simp only [Option.bind_eq_bind, Option.bind_some, lt_irrefl, if_false, sysWrite, le_refl, if_true,
    List.take_length, List.drop_length]
  rw [rioWriteLoop, if_pos List.length_nil, hunlock]
  simp only [Option.bind_eq_bind, Option.bind_some, lt_irrefl, if_false, List.length_nil,
    Nat.cast_zero, sub_zero, Option.pure_def]

end LinkProxy.Rio
