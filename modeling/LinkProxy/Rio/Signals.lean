import LinkProxy.Rio.System

/-!
# Signals in `Wait` and `Lock`

The loops of `Wait` and `Lock` are to be repeated after a signal. They test `errno`, which a call
that succeeds does not change: an `EINTR` of an interrupted call, or one from before the loop, is
still there after the call has succeeded, and the loop goes on. From then on it can only be left
with `-1` (`retry_eintr`).

So they return `0` behind the first call that succeeds exactly if no call was interrupted and
`errno` was not `EINTR` before (`survivesSignals_iff`).
-/

namespace LinkProxy.Rio

/-- The results of calls of which the first `k` are interrupted by signals and the next succeeds. -/
def interrupted {α : Type*} (result : Option Errno → α) (k : ℕ) (s : List α) : List α :=
  List.replicate k (result (some .EINTR)) ++ result none :: s

section

variable {α : Type*} {call : α → Option (Option Errno)} {result : Option Errno → α}

/-- **A loop that has seen a signal does not succeed.** -/
theorem retry_eintr {s s' : List α} {e' : Errno} {r : Int}
    (h : retry call s .EINTR = some (r, e', s')) : r = -1 := by
  induction s with
  | nil => cases h
  | cons a s ih =>
    rw [retry] at h
    split at h
    · cases h
    · rw [if_pos rfl] at h
      exact ih h
    · rename_i e hcall
      split_ifs at h with he
      · rw [he] at h
        exact ih h
      · exact (Prod.mk.inj (Option.some.inj h)).1.symm

theorem retry_interrupted_zero (hresult : call (result none) = some none) (e : Errno) (s : List α) :
    retry call (interrupted result 0 s) e =
      if e = .EINTR then retry call s e else some (0, e, s) := by
  show retry call (result none :: s) e = _
  rw [retry, hresult]

theorem retry_interrupted_succ (hresult : call (result (some .EINTR)) = some (some .EINTR))
    (e : Errno) (k : ℕ) (s : List α) : retry call (interrupted result (k + 1) s) e =
      retry call (interrupted result k s) .EINTR := by
  show retry call (result (some .EINTR) :: interrupted result k s) e = _
  rw [retry, hresult]
  rfl

/-- The loop ends behind the first call that succeeds exactly if it has not seen a signal. -/
theorem retry_interrupted_iff (hresult : ∀ r, call (result r) = some r) (e : Errno) (k : ℕ)
    (s : List α) : (∃ e', retry call (interrupted result k s) e = some (0, e', s)) ↔
      e ≠ .EINTR ∧ k = 0 := by
  cases k with
  | zero =>
    rw [retry_interrupted_zero (hresult none)]
    constructor
    · rintro ⟨e', h⟩
      refine ⟨fun he => ?_, rfl⟩
      rw [if_pos he, he] at h
      exact absurd (retry_eintr h) (by decide)
    · rintro ⟨he, -⟩
      exact ⟨e, if_neg he⟩
  | succ k =>
    rw [retry_interrupted_succ (hresult _)]
    constructor
    · rintro ⟨e', h⟩
      exact absurd (retry_eintr h) (by decide)
    · rintro ⟨-, hk⟩
      cases hk

/-- The same of a function that is such a loop: `left` is what it leaves of the results. -/
theorem map_retry_interrupted_iff (hresult : ∀ r, call (result r) = some r)
    {f : Int × Errno × List α → Int × Sys} {left : Sys → List α}
    (hf : ∀ r e s, (f (r, e, s)).1 = r ∧ left (f (r, e, s)).2 = s) (e : Errno) (k : ℕ)
    (s : List α) :
    (∃ w', (retry call (interrupted result k s) e).map f = some (0, w') ∧ left w' = s) ↔
      e ≠ .EINTR ∧ k = 0 := by
  rw [← retry_interrupted_iff hresult e k s]
  constructor
  · rintro ⟨w', h, hleft⟩
    obtain ⟨⟨r, e', s'⟩, hretry, heq⟩ := Option.map_eq_some_iff.1 h
    obtain ⟨hr, hs⟩ := hf r e' s'
    rw [heq] at hr hs
    obtain rfl : 0 = r := hr
    obtain rfl : s' = s := hs.symm.trans hleft
    exact ⟨e', hretry⟩
  · rintro ⟨e', h⟩
    obtain ⟨hr, hs⟩ := hf 0 e' s
    refine ⟨(f (0, e', s)).2, ?_, hs⟩
    rw [h, Option.map_some]
    exact congrArg some (Prod.ext hr rfl)

end

/-- **`Wait` and `Lock` return `0` behind the first call that succeeds exactly if there was no
signal**, neither in the loop nor, in `errno`, before it. -/
theorem survivesSignals_iff (w : Sys) (k : ℕ) :
    (∀ s, (∃ w', wait .pollin { w with inp := interrupted .poll k s } = some (0, w') ∧
        w'.inp = s) ↔ w.errno ≠ .EINTR ∧ k = 0) ∧
      (∀ s, (∃ w', wait .pollout { w with out := interrupted .poll k s } = some (0, w') ∧
        w'.out = s) ↔ w.errno ≠ .EINTR ∧ k = 0) ∧
      ∀ type s, (∃ w', lock type { w with out := interrupted .fcntl k s } = some (0, w') ∧
        w'.out = s) ↔ w.errno ≠ .EINTR ∧ k = 0 := by
  have hin : ∀ r, InCall.ofPoll (.poll r) = some r := fun _ => rfl
  have hout : ∀ r, OutCall.ofPoll (.poll r) = some r := fun _ => rfl
  have hfcntl : ∀ r, OutCall.ofFcntl (.fcntl r) = some r := fun _ => rfl
  refine ⟨fun s => ?_, fun s => ?_, fun type s => ?_⟩
  · exact map_retry_interrupted_iff hin (fun _ _ _ => ⟨rfl, rfl⟩) w.errno k s
  · exact map_retry_interrupted_iff hout (fun _ _ _ => ⟨rfl, rfl⟩) w.errno k s
  · exact map_retry_interrupted_iff hfcntl (fun _ _ _ => ⟨rfl, rfl⟩) w.errno k s

/-- After one signal `Wait` polls again although there is input, and does not return. -/
theorem wait_interrupted_once :
    wait .pollin ⟨.ok, interrupted .poll 1 [.poll none], [], [], []⟩ = none ∧
      ¬∃ w', wait .pollin ⟨.ok, interrupted .poll 1 [.poll none], [], [], []⟩ = some (0, w') ∧
        w'.inp = [.poll none] := by
  have hwait : wait .pollin ⟨.ok, interrupted .poll 1 [.poll none], [], [], []⟩ = none := rfl
  refine ⟨hwait, ?_⟩
  rintro ⟨w', h, -⟩
  rw [hwait] at h
  cases h

end LinkProxy.Rio
