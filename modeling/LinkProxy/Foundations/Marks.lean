import LinkProxy.Foundations.Program

/-!
# Programs that keep a record

Programs over some commands that also set marks. A mark has no effect: `erase` takes the marks out,
and what is left is the program that runs. `marks` is the list of the marks that a run sets. It is
the way to say what a run does with values that are not a part of its commands, such as what a value
was meant for.
-/

namespace LinkProxy

/-- A mark, or another command. -/
inductive Noted (M C : Type)
  | note (m : M)
  | other (c : C)

/-- There is no reply to a mark. -/
def Noted.Reply {C : Type} (M : Type) (R : C → Type) : Noted M C → Type
  | .note _ => Unit
  | .other c => R c

/-- Programs that set marks. -/
abbrev Marking {C : Type} (M : Type) (R : C → Type) (E α : Type) := Prog (Noted.Reply M R) E α

namespace Marking

variable {C M : Type} {R : C → Type} {E α β : Type}

/-- A single mark. -/
def mark (m : M) : Marking M R E Unit := Prog.perform (Noted.note m)

/-- A program without marks. -/
def embed : Prog R E α → Marking M R E α
  | .ret a => .ret a
  | .stop e => .stop e
  | .call c k => .call (.other c) fun r => embed (k r)

/-- The program without its marks. -/
def erase : Marking M R E α → Prog R E α
  | .ret a => .ret a
  | .stop e => .stop e
  | .call (.note _) k => erase (k ())
  | .call (.other c) k => .call c fun r => erase (k r)

theorem erase_bind (p : Marking M R E α) (f : α → Marking M R E β) :
    erase (p >>= f) = erase p >>= fun a => erase (f a) := by
  induction p with
  | ret a => rfl
  | stop e => rfl
  | call c k ih =>
    cases c with
    | note m => exact ih ()
    | other c =>
      rw [Prog.call_bind, erase, erase, Prog.call_bind]
      congr 1
      funext r
      exact ih r

theorem erase_embed (p : Prog R E α) : erase (embed p : Marking M R E α) = p := by
  induction p with
  | ret a => rfl
  | stop e => rfl
  | call c k ih =>
    rw [embed, erase]
    congr 1
    funext r
    exact ih r

theorem erase_embed_bind (p : Prog R E α) (f : α → Marking M R E β) :
    erase (embed p >>= f) = p >>= fun a => erase (f a) := by
  rw [erase_bind, erase_embed]

/-! ## The marks of a run -/

section Marks

variable {σ : Type} (handle : (c : C) → σ → Except E (R c × σ))

/-- The marks that a program sets when it runs alone, in order. -/
def marks : Marking M R E α → σ → List M
  | .ret _, _ => []
  | .stop _, _ => []
  | .call (.note m) k, s => m :: marks (k ()) s
  | .call (.other c) k, s => match handle c s with
    | .ok (r, s') => marks (k r) s'
    | .error _ => []

variable {handle}

theorem marks_bind (p : Marking M R E α) (f : α → Marking M R E β) (s : σ) :
    marks handle (p >>= f) s = marks handle p s ++ match (erase p).run handle s with
      | .ok (a, s') => marks handle (f a) s'
      | .error _ => [] := by
  induction p generalizing s with
  | ret a => rfl
  | stop e => rfl
  | call c k ih =>
    cases c with
    | note m => exact congrArg (m :: ·) (ih () s)
    | other c =>
      rw [Prog.call_bind, marks, marks, erase, Prog.run]
      cases handle c s with
      | error e => rfl
      | ok q => exact ih q.1 q.2

/-- A program without marks sets none. -/
theorem marks_embed (p : Prog R E α) (s : σ) :
    marks handle (embed p : Marking M R E α) s = [] := by
  induction p generalizing s with
  | ret a => rfl
  | stop e => rfl
  | call c k ih =>
    rw [embed, marks]
    cases handle c s with
    | error e => rfl
    | ok q => exact ih q.1 q.2

/-- Behind a part that returns, the rest sets its marks. -/
theorem marks_bind_of_ok {p : Marking M R E α} {f : α → Marking M R E β} {a : α} {s s' : σ}
    (hrun : (erase p).run handle s = .ok (a, s')) :
    marks handle (p >>= f) s = marks handle p s ++ marks handle (f a) s' := by
  rw [marks_bind, hrun]

/-- A part that does not return sets the last marks. -/
theorem marks_bind_of_error {p : Marking M R E α} {f : α → Marking M R E β} {e : E} {s : σ}
    (hrun : (erase p).run handle s = .error e) :
    marks handle (p >>= f) s = marks handle p s := by
  rw [marks_bind, hrun, List.append_nil]

/-- A rest that sets no marks adds none. -/
theorem marks_bind_of_silent {p : Marking M R E α} {f : α → Marking M R E β}
    (hf : ∀ a s, marks handle (f a) s = []) (s : σ) :
    marks handle (p >>= f) s = marks handle p s := by
  rw [marks_bind]
  cases (erase p).run handle s with
  | error e => exact List.append_nil _
  | ok q =>
    dsimp only
    rw [hf, List.append_nil]

/-- Behind a part without marks that returns, the marks are those of the rest. -/
theorem marks_embed_bind_of_ok {p : Prog R E α} {f : α → Marking M R E β} {a : α} {s s' : σ}
    (hrun : p.run handle s = .ok (a, s')) :
    marks handle (embed p >>= f) s = marks handle (f a) s' := by
  rw [← erase_embed p] at hrun
  rw [marks_bind_of_ok hrun, marks_embed, List.nil_append]

end Marks

end Marking

end LinkProxy
