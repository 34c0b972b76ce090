import Mathlib

/-!
# System calls, and waiting for them

The robust I/O routines of `rio.c` talk to the kernel through `poll`, `fcntl`, `read` and `write`.
What the kernel answers is data here: a `Sys` carries, for one descriptor, the results of the
calls its reading side and its writing side will make, in the order in which they are made. A
routine consumes the results of the calls it makes; one that asks for a result that is not there
has not returned (`none`). Quantifying over the two lists is quantifying over every behaviour of
the kernel and of the remote end, and their ends are the points up to which a run is observed.

`errno` is part of the state, since `Wait` and `Lock` decide by it whether to loop again. Both are
the same loop over another call (`retry`): a successful call leaves `errno` alone, and the loop
ends only when `errno` is not `EINTR`. So neither of them ever returns with `errno` at `EINTR`
(`retry_used`).
-/

namespace LinkProxy.Rio

/-- The values of `errno` that the code tells apart. -/
inductive Errno
  | ok
  | EINTR
  | EAGAIN
  | other (n : ℕ)
  deriving DecidableEq, Repr

/-- The result of a call on the reading side. A `read` of no bytes is the end of the stream. -/
inductive InCall
  | poll (r : Option Errno)
  | read (r : Except Errno (List UInt8))
  deriving DecidableEq

/-- The result of a call on the writing side. A `write` returns the number of bytes accepted. -/
inductive OutCall
  | fcntl (r : Option Errno)
  | poll (r : Option Errno)
  | write (r : Except Errno ℕ)
  deriving DecidableEq

/-- The lock types `rio_write` passes to `Lock`. -/
inductive LockType
  | wrlck
  | unlck
  deriving DecidableEq, Repr

/-- The events `Wait` is asked for. -/
inductive PollEvent
  | pollin
  | pollout
  deriving DecidableEq, Repr

/-- A thread's `errno` and one descriptor: the results its calls will have, the bytes `write`
has accepted so far, and the lock calls that have succeeded. -/
structure Sys where
  errno : Errno
  inp : List InCall
  out : List OutCall
  sent : List UInt8
  locks : List LockType
  deriving DecidableEq

/-! ## The loops of `Wait` and `Lock` -/

/-- The result of a `poll`, `none` for another call. -/
def InCall.ofPoll : InCall → Option (Option Errno)
  | .poll r => some r
  | .read _ => none

/-- The result of a `poll`, `none` for another call. -/
def OutCall.ofPoll : OutCall → Option (Option Errno)
  | .poll r => some r
  | _ => none

/-- The result of an `fcntl`, `none` for another call. -/
def OutCall.ofFcntl : OutCall → Option (Option Errno)
  | .fcntl r => some r
  | _ => none

/-- Repeat a call while `errno` is `EINTR`: the `do … while(errno==EINTR)` of `Wait` and `Lock`.
A success does not touch `errno`, so one left at `EINTR` keeps the loop going. -/
def retry {α : Type*} (call : α → Option (Option Errno)) :
    List α → Errno → Option (Int × Errno × List α)
  | [], _ => none
  | a :: s, e =>
    match call a with
    | none => none
    | some none => if e = .EINTR then retry call s e else some (0, e, s)
    | some (some e') => if e' = .EINTR then retry call s e' else some (-1, e', s)

/-- `Wait(fd, events)`. -/
def wait : PollEvent → Sys → Option (Int × Sys)
  | .pollin, w =>
    (retry InCall.ofPoll w.inp w.errno).map fun (r, e, s) => (r, { w with errno := e, inp := s })
  | .pollout, w =>
    (retry OutCall.ofPoll w.out w.errno).map fun (r, e, s) => (r, { w with errno := e, out := s })

/-- `Lock(fd, type)`. -/
def lock (type : LockType) (w : Sys) : Option (Int × Sys) :=
  (retry OutCall.ofFcntl w.out w.errno).map fun (r, e, s) =>
    (r, { w with errno := e, out := s, locks := if r = 0 then w.locks ++ [type] else w.locks })

/-- A call has failed, and not because of a signal. -/
def Failed {α : Type*} (call : α → Option (Option Errno)) (a : α) : Prop :=
  ∃ e ≠ .EINTR, call a = some (some e)

section Retry

variable {α : Type*} {call : α → Option (Option Errno)} {s s' : List α} {e e' : Errno} {r : Int}

/-- How a waiting loop ends after the results `used`: it returns `0` behind a success if no call has
failed other than by a signal, and otherwise `-1`. -/
def RetryEnds (call : α → Option (Option Errno)) (used : List α) (r : Int) : Prop :=
  (r = 0 ∧ (∃ a ∈ used, call a = some none) ∧ ∀ a ∈ used, ¬Failed call a) ∨
    r = -1 ∧ ∃ a ∈ used, Failed call a

/-- A result that lets the loop go on does not change how it ends. -/
theorem RetryEnds.cons {a : α} {used : List α} (ha : ¬Failed call a) (h : RetryEnds call used r) :
    RetryEnds call (a :: used) r := by
  rcases h with ⟨hr, ⟨b, hb, hnone⟩, hfailed⟩ | ⟨hr, b, hb, hfailed⟩
  · exact .inl ⟨hr, ⟨b, List.mem_cons_of_mem _ hb, hnone⟩, List.forall_mem_cons.2 ⟨ha, hfailed⟩⟩
  · exact .inr ⟨hr, b, List.mem_cons_of_mem _ hb, hfailed⟩

/-- The results that a waiting loop has consumed when it returns, all of its own call. **It does not
leave `errno` at `EINTR`.** -/
theorem retry_used (h : retry call s e = some (r, e', s')) :
    e' ≠ .EINTR ∧ ∃ used, s = used ++ s' ∧ (∀ a ∈ used, (call a).isSome) ∧
      RetryEnds call used r := by
  induction s generalizing e with
  | nil => cases h
  | cons a s ih =>
    -- one more turn of the loop, after a call whose result left `errno` at `EINTR`
    have again {e₀ : Errno} (ha : (call a).isSome) (hfailed : ¬Failed call a)
        (h : retry call s e₀ = some (r, e', s')) : e' ≠ .EINTR ∧ ∃ used, a :: s = used ++ s' ∧
          (∀ b ∈ used, (call b).isSome) ∧ RetryEnds call used r := by
      obtain ⟨he, used, rfl, hused, hends⟩ := ih h
      exact ⟨he, a :: used, rfl, List.forall_mem_cons.2 ⟨ha, hused⟩, hends.cons hfailed⟩
    rw [retry] at h
    split at h
    · cases h
    · rename_i hc
      have hfailed : ¬Failed call a := by
        rintro ⟨e₀, -, he₀⟩
        rw [hc] at he₀
        cases he₀
      split_ifs at h with he
      · exact again (by rw [hc]; rfl) hfailed h
      · simp only [Option.some.injEq, Prod.mk.injEq] at h
        obtain ⟨rfl, rfl, rfl⟩ := h
        exact ⟨he, [a], rfl, by simp [hc], .inl ⟨rfl, ⟨a, by simp, hc⟩, by simpa using hfailed⟩⟩
    · rename_i e'' hc
      split_ifs at h with he
      · refine again (by rw [hc]; rfl) ?_ h
        rintro ⟨e₀, hne, he₀⟩
        rw [hc, he] at he₀
        exact hne (Option.some.inj (Option.some.inj he₀)).symm
      · simp only [Option.some.injEq, Prod.mk.injEq] at h
        obtain ⟨rfl, rfl, rfl⟩ := h
        exact ⟨he, [a], rfl, by simp [hc], .inr ⟨rfl, a, by simp, e'', he, hc⟩⟩

/-- What a waiting loop does when it returns: it has consumed results of its own call, at least
one of them, it returns `0` or `-1`, and it does not leave `errno` at `EINTR`. -/
theorem retry_spec (h : retry call s e = some (r, e', s')) :
    e' ≠ .EINTR ∧ (r = 0 ∨ r = -1) ∧
      ∃ used, used ≠ [] ∧ s = used ++ s' ∧ ∀ a ∈ used, (call a).isSome := by
  obtain ⟨he, used, hs, hused, ⟨hr, ⟨a, ha, -⟩, -⟩ | ⟨hr, a, ha, -⟩⟩ := retry_used h
  · exact ⟨he, .inl hr, used, List.ne_nil_of_mem ha, hs, hused⟩
  · exact ⟨he, .inr hr, used, List.ne_nil_of_mem ha, hs, hused⟩

/-- A call that succeeds at once, with `errno` not at `EINTR`, ends the loop. -/
theorem retry_ready {a : α} (ha : call a = some none) (he : e ≠ .EINTR) :
    retry call (a :: s) e = some (0, e, s) := by
  rw [retry, ha]
  simp [he]

end Retry

end LinkProxy.Rio
