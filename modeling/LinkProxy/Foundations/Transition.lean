import Mathlib

/-!
# Transition systems and populations

A `TransitionSystem` has initial states and labelled steps. What holds initially and is preserved by
every step from a reachable state holds in every reachable state (`Reachable.invariant`). `guard`
restricts a system to the steps that meet a condition on the state before them, so that a property
of every run whose steps meet the condition is an invariant of the restricted system. A rank that
every step decreases bounds the lengths of runs (`Run.add_rank_le`), and a potential that some steps
raise and others lower bounds how many of the latter there are (`Trace.cost_le`).

When the states of a system are threads at control points, invariants are often linear relations
between the numbers of threads at each point. `population f p` is the number of threads at `p`, and
`moved` says how these numbers change when one thread moves: the relations are then preserved by
linear arithmetic, whatever the number of threads.
-/

namespace LinkProxy

/-! ## Reachable states -/

/-- Initial states and labelled steps. -/
structure TransitionSystem (σ α : Type*) where
  init : σ → Prop
  step : σ → α → σ → Prop

namespace TransitionSystem

variable {σ α : Type*} (S : TransitionSystem σ α)

/-- The states of the runs of a system. -/
inductive Reachable : σ → Prop
  | init {s : σ} : S.init s → Reachable s
  | step {s t : σ} {a : α} : Reachable s → S.step s a t → Reachable t

/-- The system in which a step is taken only where the condition holds. -/
def guard (C : σ → α → Prop) : TransitionSystem σ α where
  init := S.init
  step s a t := C s a ∧ S.step s a t

variable {S}

/-- **The invariant rule.** -/
theorem Reachable.invariant {P : σ → Prop} (h₀ : ∀ s, S.init s → P s)
    (h₁ : ∀ s a t, P s → S.step s a t → P t) {s : σ} (hs : S.Reachable s) : P s := by
  induction hs with
  | init h => exact h₀ _ h
  | step _ h ih => exact h₁ _ _ _ ih h

/-- A run that meets the condition is a run. -/
theorem Reachable.of_guard {C : σ → α → Prop} {s : σ} (hs : (S.guard C).Reachable s) :
    S.Reachable s := by
  induction hs with
  | init h => exact .init h
  | step _ h ih => exact .step ih h.2

/-- A schedule that can be executed leads to a reachable state. -/
theorem Reachable.of_schedule {β : Type*} {f : σ → β → Option σ}
    (hf : ∀ s b t, f s b = some t → ∃ a, S.step s a t) {s t : σ} (sched : List β)
    (hs : S.Reachable s) (h : sched.foldlM f s = some t) : S.Reachable t := by
  induction sched generalizing s with
  | nil => exact Option.some.inj h ▸ hs
  | cons b sched ih =>
    obtain ⟨s', hstep, hrest⟩ := Option.bind_eq_some_iff.1 h
    obtain ⟨a, ha⟩ := hf s b s' hstep
    exact ih (.step hs ha) hrest

/-! ## Runs that come to an end -/

variable (S) in
/-- The runs from one state to another, with their numbers of steps. -/
inductive Run (s : σ) : ℕ → σ → Prop
  | refl : Run s 0 s
  | step {n : ℕ} {t u : σ} {a : α} : Run s n t → S.step t a u → Run s (n + 1) u

theorem Run.trans {s t u : σ} {m n : ℕ} (hst : S.Run s m t) (htu : S.Run t n u) :
    S.Run s (m + n) u := by
  induction htu with
  | refl => exact hst
  | step _ hstep ih => exact .step ih hstep

theorem Run.invariant {I : σ → Prop} (hI : ∀ s a t, I s → S.step s a t → I t) {s t : σ} {n : ℕ}
    (hrun : S.Run s n t) (hs : I s) : I t := by
  induction hrun with
  | refl => exact hs
  | step _ hstep ih => exact hI _ _ _ ih hstep

section Ranked

variable {I : σ → Prop} {rank : σ → ℕ} (hI : ∀ s a t, I s → S.step s a t → I t)
  (hrank : ∀ s a t, I s → S.step s a t → rank t < rank s)
include hI hrank

/-- **A rank that every step decreases bounds the runs.** -/
theorem Run.add_rank_le {s t : σ} {n : ℕ} (hrun : S.Run s n t) (hs : I s) : n + rank t ≤ rank s := by
  induction hrun with
  | refl => omega
  | step hprev hstep ih =>
    have hlt := hrank _ _ _ (hprev.invariant hI hs) hstep
    omega

/-- Every run can be carried on to one after which no step can be taken. -/
theorem exists_run_stuck (s : σ) (hs : I s) : ∃ n t, S.Run s n t ∧ ∀ a u, ¬S.step t a u := by
  induction hk : rank s using Nat.strong_induction_on generalizing s with
  | _ k ih =>
    by_cases hstuck : ∀ a u, ¬S.step s a u
    · exact ⟨0, s, .refl, hstuck⟩
    · push Not at hstuck
      obtain ⟨a, u, hstep⟩ := hstuck
      obtain ⟨n, t, hrun, ht⟩ := ih (rank u) (hk ▸ hrank s a u hs hstep) u (hI s a u hs hstep) rfl
      exact ⟨1 + n, t, (Run.step .refl hstep).trans hrun, ht⟩

end Ranked

variable (S) in
/-- The runs from one state to another, with their labels. -/
inductive Trace (s : σ) : List α → σ → Prop
  | refl : Trace s [] s
  | step {as : List α} {t u : σ} {a : α} : Trace s as t → S.step t a u → Trace s (as ++ [a]) u

theorem Trace.invariant {I : σ → Prop} (hI : ∀ s a t, I s → S.step s a t → I t) {s t : σ}
    {as : List α} (h : S.Trace s as t) (hs : I s) : I t := by
  induction h with
  | refl => exact hs
  | step _ hstep ih => exact hI _ _ _ ih hstep

end TransitionSystem

/-! ## Threads at control points -/

section Population

variable {ι π : Type*} [Fintype ι] [DecidableEq π]

/-- The number of threads at a control point. -/
def population (f : ι → π) (p : π) : ℕ := (Finset.univ.filter fun i => f i = p).card

theorem population_pos {f : ι → π} {i : ι} {p : π} (h : f i = p) : 0 < population f p :=
  Finset.card_pos.2 ⟨i, by simp [h]⟩

theorem exists_of_population_pos {f : ι → π} {p : π} (h : 0 < population f p) : ∃ i, f i = p := by
  obtain ⟨i, hi⟩ := Finset.card_pos.1 h
  exact ⟨i, by simpa using hi⟩

theorem population_eq_zero_of_forall_ne {f : ι → π} {p : π} (h : ∀ i, f i ≠ p) :
    population f p = 0 := by
  apply Nat.eq_zero_of_not_pos
  intro hpos
  obtain ⟨i, hi⟩ := exists_of_population_pos hpos
  exact h i hi

/-- The number of threads in a region is the sum over its points. -/
theorem card_region (f : ι → π) (R : Finset π) :
    (Finset.univ.filter fun i => f i ∈ R).card = ∑ p ∈ R, population f p := by
  rw [Finset.card_eq_sum_card_fiberwise (f := f) (t := R) (by intro i hi; simpa using hi)]
  refine Finset.sum_congr rfl fun p hp => ?_
  rw [population, Finset.filter_filter]
  congr 1
  ext i
  simp only [Finset.mem_filter, Finset.mem_univ, true_and, and_iff_right_iff_imp]
  rintro rfl
  exact hp

variable [DecidableEq ι]

/-- **When a thread moves from `f i` to `q`, one thread leaves the one point and one arrives at the
other.** -/
theorem population_move (f : ι → π) (i : ι) (q p : π) :
    population (Function.update f i q) p + (if f i = p then 1 else 0) =
      population f p + (if q = p then 1 else 0) := by
  -- the threads other than `i` are where they were
  have split (g : ι → π) : population g p =
      ((Finset.univ.erase i).filter fun j => g j = p).card + (if g i = p then 1 else 0) := by
    rw [population, ← Finset.insert_erase (Finset.mem_univ i), Finset.filter_insert]
    split_ifs with h
    · rw [Finset.card_insert_of_notMem (by simp)]
      simp
    · simp
  have rest : ((Finset.univ.erase i).filter fun j => Function.update f i q j = p) =
      (Finset.univ.erase i).filter fun j => f j = p :=
    Finset.filter_congr fun j hj => by rw [Function.update_of_ne (Finset.ne_of_mem_erase hj)]
  rw [split f, split (Function.update f i q), rest, Function.update_self]
  omega

/-- How the numbers change when a thread moves from `p` to `q`. -/
structure Moved (n n' : π → ℕ) (p q : π) : Prop where
  source : n' p + 1 = n p
  target : n' q = n q + 1
  rest : ∀ o, p ≠ o → q ≠ o → n' o = n o

theorem moved {f : ι → π} {i : ι} {p q : π} (h : f i = p) (hpq : p ≠ q) :
    Moved (population f) (population (Function.update f i q)) p q where
  source := by simpa [h, hpq.symm] using population_move f i q p
  target := by simpa [h, hpq] using population_move f i q q
  rest o hp hq := by simpa [h, hp, hq] using population_move f i q o

end Population

end LinkProxy
