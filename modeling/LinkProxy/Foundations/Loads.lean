import LinkProxy.Foundations.Bytes
import LinkProxy.Foundations.Program

/-!
# Programs that read a buffer

Programs over some commands that also load bytes from a buffer, as code does that is given a
pointer. The loads are commands too, so that it can be seen which bytes a program reads:

* `serve` answers the loads from a buffer; what is left is a program over the other commands;
* `reads` is the list of the offsets that a run reads; a part that returns is followed by the reads
  of the rest (`reads_bind_of_ok`);
* `within` says that, whatever the replies to the other commands, every load lies below a bound, and
  that a condition holds of the result. Then every run reads below the bound (`reads_lt_of_within`),
  and the program does not depend on what lies behind it (`serve_congr`).
-/

namespace LinkProxy

open Bytes

/-- A load of `n` bytes at an offset, or another command. -/
inductive Access (C : Type)
  | load (off n : ℕ)
  | other (c : C)

/-- A load is answered with the bytes. -/
def Access.Reply {C : Type} (R : C → Type) : Access C → Type
  | .load _ _ => List UInt8
  | .other c => R c

/-- Programs that load from a buffer. -/
abbrev Loading {C : Type} (R : C → Type) (E α : Type) := Prog (Access.Reply R) E α

namespace Loading

variable {C : Type} {R : C → Type} {E α β : Type}

/-- A single load. -/
def load (off n : ℕ) : Loading R E (List UInt8) :=
  Prog.perform (Access.load off n)

/-- A program that does not load. -/
def embed : Prog R E α → Loading R E α
  | .ret a => .ret a
  | .stop e => .stop e
  | .call c k => .call (.other c) fun r => embed (k r)

/-- The program that is left when the loads are answered from a buffer. -/
def serve (d : Buf) : Loading R E α → Prog R E α
  | .ret a => .ret a
  | .stop e => .stop e
  | .call (.load off n) k => serve d (k (slice d off n))
  | .call (.other c) k => .call c fun r => serve d (k r)

section Serve

variable {d : Buf}

theorem serve_bind (p : Loading R E α) (f : α → Loading R E β) :
    serve d (p >>= f) = serve d p >>= fun a => serve d (f a) := by
  induction p with
  | ret a => rfl
  | stop e => rfl
  | call c k ih =>
    cases c with
    | load off n => exact ih (slice d off n)
    | other c =>
      rw [Prog.call_bind, serve, serve, Prog.call_bind]
      congr 1
      funext r
      exact ih r

theorem serve_embed (p : Prog R E α) : serve d (embed p) = p := by
  induction p with
  | ret a => rfl
  | stop e => rfl
  | call c k ih =>
    rw [embed, serve]
    congr 1
    funext r
    exact ih r

theorem serve_load_bind (off n : ℕ) (f : List UInt8 → Loading R E β) :
    serve d (load off n >>= f) = serve d (f (slice d off n)) := rfl

end Serve

/-! ## The bytes that a run reads -/

section Reads

variable {σ : Type} (handle : (c : C) → σ → Except E (R c × σ)) (d : Buf)

/-- The offsets that a program reads when it runs alone, in order. -/
def reads : Loading R E α → σ → List ℕ
  | .ret _, _ => []
  | .stop _, _ => []
  | .call (.load off n) k, s => List.range' off n ++ reads (k (slice d off n)) s
  | .call (.other c) k, s => match handle c s with
    | .ok (r, s') => reads (k r) s'
    | .error _ => []

variable {handle d}

theorem reads_bind (p : Loading R E α) (f : α → Loading R E β) (s : σ) :
    reads handle d (p >>= f) s = reads handle d p s ++ match (serve d p).run handle s with
      | .ok (a, s') => reads handle d (f a) s'
      | .error _ => [] := by
  induction p generalizing s with
  | ret a => rfl
  | stop e => rfl
  | call c k ih =>
    cases c with
    | load off n =>
      have hrest := congrArg (List.range' off n ++ ·) (ih (slice d off n) s)
      rw [Prog.call_bind, reads, reads, serve, List.append_assoc]
      exact hrest
    | other c =>
      rw [Prog.call_bind, reads, reads, serve, Prog.run]
      cases handle c s with
      | error e => rfl
      | ok q => exact ih q.1 q.2

/-- What the first part reads is read. -/
theorem mem_reads_bind {p : Loading R E α} {f : α → Loading R E β} {s : σ} {i : ℕ}
    (h : i ∈ reads handle d p s) : i ∈ reads handle d (p >>= f) s := by
  rw [reads_bind]
  exact List.mem_append_left _ h

/-- Behind a part that returns, the rest is read. -/
theorem reads_bind_of_ok {p : Loading R E α} {f : α → Loading R E β} {a : α} {s s' : σ} {i : ℕ}
    (hrun : (serve d p).run handle s = .ok (a, s')) (h : i ∈ reads handle d (f a) s') :
    i ∈ reads handle d (p >>= f) s := by
  rw [reads_bind, hrun]
  exact List.mem_append_right _ h

/-- The same behind a program that does not load. -/
theorem reads_embed_bind_of_ok {p : Prog R E α} {f : α → Loading R E β} {a : α} {s s' : σ} {i : ℕ}
    (hrun : p.run handle s = .ok (a, s')) (h : i ∈ reads handle d (f a) s') :
    i ∈ reads handle d (embed p >>= f) s := by
  apply reads_bind_of_ok _ h
  rw [serve_embed]
  exact hrun

theorem mem_reads_load {off n i : ℕ} {s : σ} :
    i ∈ reads handle d (load off n : Loading R E (List UInt8)) s ↔ off ≤ i ∧ i < off + n := by
  have hreads : reads handle d (load off n : Loading R E (List UInt8)) s = List.range' off n :=
    List.append_nil _
  rw [hreads, List.mem_range'_1]

end Reads

/-! ## Loads below a bound -/

section Within

variable (d : Buf) (length : ℕ)

/-- Every load lies below the bound, and the condition holds of the result, whatever the replies to
the other commands. -/
def within : Loading R E α → (α → Prop) → Prop
  | .ret a, Q => Q a
  | .stop _, _ => True
  | .call (.load off n) k, Q => off + n ≤ length ∧ within (k (slice d off n)) Q
  | .call (.other _) k, Q => ∀ r, within (k r) Q

variable {d length}

theorem within_bind {p : Loading R E α} {f : α → Loading R E β} {Q : β → Prop} :
    within d length (p >>= f) Q ↔ within d length p fun a => within d length (f a) Q := by
  induction p with
  | ret a => exact Iff.rfl
  | stop e => exact Iff.rfl
  | call c k ih =>
    cases c with
    | load off n => exact and_congr_right fun _ => ih (slice d off n)
    | other c => exact forall_congr' fun r => ih r

theorem within_mono {p : Loading R E α} {Q Q' : α → Prop} (hQ : ∀ a, Q a → Q' a)
    (h : within d length p Q) : within d length p Q' := by
  induction p with
  | ret a => exact hQ a h
  | stop e => trivial
  | call c k ih =>
    cases c with
    | load off n => exact ⟨h.1, ih _ h.2⟩
    | other c => exact fun r => ih r (h r)

/-- A program that does not load is within every bound. -/
theorem within_embed {p : Prog R E α} {Q : α → Prop} (hQ : ∀ a, Q a) :
    within d length (embed p) Q := by
  induction p with
  | ret a => exact hQ a
  | stop e => trivial
  | call c k ih => exact fun r => ih r

/-- **A program within a bound reads below it**, in every run. -/
theorem reads_lt_of_within {σ : Type} {handle : (c : C) → σ → Except E (R c × σ)}
    {p : Loading R E α} {Q : α → Prop} (h : within d length p Q) (s : σ) :
    ∀ i ∈ reads handle d p s, i < length := by
  induction p generalizing s with
  | ret a => exact fun i hi => absurd hi List.not_mem_nil
  | stop e => exact fun i hi => absurd hi List.not_mem_nil
  | call c k ih =>
    cases c with
    | load off n =>
      intro i hi
      rw [reads, List.mem_append, List.mem_range'_1] at hi
      obtain ⟨hle, hrest⟩ := h
      rcases hi with hi | hi
      · omega
      · exact ih _ hrest s i hi
    | other c =>
      rw [reads]
      cases handle c s with
      | error e => exact fun i hi => absurd hi List.not_mem_nil
      | ok q => exact ih q.1 (h q.1) q.2

/-- **A program within a bound does not depend on the bytes behind it.** -/
theorem serve_congr {d' : Buf} (hd : ∀ i < length, d' i = d i) {p : Loading R E α} {Q : α → Prop}
    (h : within d length p Q) : serve d' p = serve d p := by
  induction p with
  | ret a => rfl
  | stop e => rfl
  | call c k ih =>
    cases c with
    | load off n =>
      obtain ⟨hle, hrest⟩ := h
      have hslice : slice d' off n = slice d off n := by
        apply congrArg List.ofFn
        funext i
        exact hd _ (by omega)
      rw [serve, serve, hslice]
      exact ih _ hrest
    | other c =>
      rw [serve, serve]
      congr 1
      funext r
      exact ih r (h r)

end Within

end Loading

end LinkProxy
