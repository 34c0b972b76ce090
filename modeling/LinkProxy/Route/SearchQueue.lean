import LinkProxy.Route.Search

/-!
# The queue of the searches

The searches keep the vertices that are still to be looked at in a list, and end when their variable
`q` is `NULL`. `enqueue` and `dequeue` get the value of `q`: the list macros in them assign to a
parameter, and the variable of the caller never changes (`queueRun_q`).

What the calls are for is the queue `fifo`. From an empty list the calls are a queue only as long as
there are none (`fifoLaw_iff`): what is enqueued is lost, and `dequeue` then follows `NULL`. From
any other list every call of `dequeue` returns the first vertex again (`queueRun_first`).
-/

namespace LinkProxy.Route

/-- A call of `enqueue`, with the address that `malloc` returns in it, or of `dequeue`. -/
inductive QueueCall
  | enqueue (newQ : QueuePtr) (peer : VertexPtr)
  | dequeue

/-- The variable of the caller, and the memory. -/
structure Caller where
  q : Option QueuePtr
  mem : QueuePtr → Option Queue

/-- A call, and the vertices that it returns. -/
def Caller.call (fuel : ℕ) (s : Caller) : QueueCall → Option (List (Option VertexPtr) × Caller)
  | .enqueue newQ peer => do
    let mem ← Route.enqueue fuel s.q newQ peer s.mem
    return ([], { s with mem := mem })
  | .dequeue => do
    let node ← Route.dequeue s.q s.mem
    return ([node], s)

/-- Calls one after the other, and the vertices that they return. -/
def queueRun (fuel : ℕ) : List QueueCall → Caller → Option (List (Option VertexPtr) × Caller)
  | [], s => some ([], s)
  | c :: cs, s => do
    let (out, s) ← s.call fuel c
    let (outs, s) ← queueRun fuel cs s
    return (out ++ outs, s)

/-- The queue that the calls stand for: the vertices that are dequeued, and those that still wait.
It is undefined if nothing waits where `dequeue` is called. -/
def fifo : List QueueCall → List VertexPtr → Option (List VertexPtr × List VertexPtr)
  | [], waiting => some ([], waiting)
  | .enqueue _ peer :: cs, waiting => fifo cs (waiting ++ [peer])
  | .dequeue :: _, [] => none
  | .dequeue :: cs, v :: waiting => do
    let (out, waiting) ← fifo cs waiting
    return (v :: out, waiting)

/-- The calls return, the vertices that they return are those of the queue, and the variable of the
caller is `NULL` exactly if nothing waits. -/
def FifoLaw (cs : List QueueCall) (s : Caller) (out waiting : List VertexPtr) : Prop :=
  ∃ fuel s', queueRun fuel cs s = some (out.map some, s') ∧ (s'.q = none ↔ waiting = [])

/-! ## What a call does -/

section

variable {fuel : ℕ} {s s' : Caller} {c : QueueCall} {cs : List QueueCall}
  {out : List (Option VertexPtr)}

/-- What a call that returns has done. -/
theorem Caller.call_cases (h : s.call fuel c = some (out, s')) :
    (∃ newQ peer mem, c = .enqueue newQ peer ∧ Route.enqueue fuel s.q newQ peer s.mem = some mem ∧
        out = [] ∧ s' = { s with mem := mem }) ∨
      ∃ p cell, c = .dequeue ∧ s.q = some p ∧ s.mem p = some cell ∧ out = [cell.node] ∧ s' = s := by
  cases c with
  | enqueue newQ peer =>
    obtain ⟨mem, hmem, h⟩ := Option.bind_eq_some_iff.1 h
    obtain ⟨rfl, rfl⟩ := Prod.mk.inj (Option.some.inj h)
    exact .inl ⟨newQ, peer, mem, rfl, hmem, rfl, rfl⟩
  | dequeue =>
    obtain ⟨node, hnode, h⟩ := Option.bind_eq_some_iff.1 h
    obtain ⟨rfl, rfl⟩ := Prod.mk.inj (Option.some.inj h)
    obtain ⟨p, hp, hnode⟩ := Option.bind_eq_some_iff.1 hnode
    obtain ⟨cell, hcell, hnode⟩ := Option.bind_eq_some_iff.1 hnode
    obtain rfl := Option.some.inj hnode
    exact .inr ⟨p, cell, rfl, hp, hcell, rfl, rfl⟩

/-- A call leaves the variable of the caller as it is. -/
theorem Caller.call_q (h : s.call fuel c = some (out, s')) : s'.q = s.q := by
  obtain ⟨_, _, _, -, -, -, rfl⟩ | ⟨_, _, -, -, -, -, rfl⟩ := Caller.call_cases h
  · rfl
  · rfl

/-- The first of the calls and the others. -/
theorem queueRun_cons (h : queueRun fuel (c :: cs) s = some (out, s')) :
    ∃ out₁ s₁ outs, s.call fuel c = some (out₁, s₁) ∧ queueRun fuel cs s₁ = some (outs, s') ∧
      out = out₁ ++ outs := by
  obtain ⟨⟨out₁, s₁⟩, hcall, h⟩ := Option.bind_eq_some_iff.1 h
  obtain ⟨⟨outs, s₂⟩, hrun, h⟩ := Option.bind_eq_some_iff.1 h
  obtain ⟨rfl, rfl⟩ := Prod.mk.inj (Option.some.inj h)
  exact ⟨out₁, s₁, outs, hcall, hrun, rfl⟩

/-- **The variable of the caller never changes.** -/
theorem queueRun_q (h : queueRun fuel cs s = some (out, s')) : s'.q = s.q := by
  induction cs generalizing s out with
  | nil =>
    obtain ⟨-, rfl⟩ := Prod.mk.inj (Option.some.inj h)
    rfl
  | cons c cs ih =>
    obtain ⟨out₁, s₁, outs, hcall, hrun, -⟩ := queueRun_cons h
    exact (ih hrun).trans (Caller.call_q hcall)

/-! ## From a list with a first cell -/

/-- `enqueue` changes the vertex in no cell but the new one. -/
theorem enqueue_node {q : Option QueuePtr} {p newQ : QueuePtr} {peer : VertexPtr}
    {mem mem' : QueuePtr → Option Queue} (hp : newQ ≠ p)
    (h : enqueue fuel q newQ peer mem = some mem') :
    (mem' p).map Queue.node = (mem p).map Queue.node := by
  have hnew : Function.update mem newQ (some ⟨some peer, none⟩) p = mem p :=
    Function.update_of_ne hp.symm _ _
  cases q with
  | none =>
    obtain rfl := Option.some.inj h
    rw [hnew]
  | some q =>
    obtain ⟨last, -, h⟩ := Option.bind_eq_some_iff.1 h
    obtain ⟨cell, hcell, h⟩ := Option.bind_eq_some_iff.1 h
    obtain rfl := Option.some.inj h
    by_cases hlast : p = last
    · rw [hlast, Function.update_self, ← hlast, ← hnew, hlast, hcell]
      rfl
    · rw [Function.update_of_ne hlast, hnew]

/-- **Every `dequeue` returns the first vertex**, if the cells of the new entries are new. -/
theorem queueRun_first {p : QueuePtr} {v : Option VertexPtr} (hq : s.q = some p)
    (hnode : (s.mem p).map Queue.node = some v)
    (hnew : ∀ newQ peer, .enqueue newQ peer ∈ cs → newQ ≠ p)
    (h : queueRun fuel cs s = some (out, s')) : ∀ x ∈ out, x = v := by
  induction cs generalizing s out with
  | nil =>
    obtain ⟨rfl, -⟩ := Prod.mk.inj (Option.some.inj h)
    exact fun x hx => absurd hx List.not_mem_nil
  | cons c cs ih =>
    obtain ⟨out₁, s₁, outs, hcall, hrun, rfl⟩ := queueRun_cons h
    have hcs : ∀ newQ peer, .enqueue newQ peer ∈ cs → newQ ≠ p :=
      fun newQ peer hmem => hnew newQ peer (List.mem_cons_of_mem _ hmem)
    obtain ⟨newQ, peer, mem, rfl, hmem, rfl, rfl⟩ | ⟨p', cell, rfl, hp', hcell, rfl, rfl⟩ :=
      Caller.call_cases hcall
    · have hne := hnew newQ peer List.mem_cons_self
      exact ih (s := { s with mem := mem }) hq ((enqueue_node hne hmem).trans hnode) hcs hrun
    · obtain rfl : p = p' := Option.some.inj (hq.symm.trans hp')
      rw [hcell] at hnode
      intro x hx
      rcases List.mem_cons.1 hx with rfl | hx
      · exact Option.some.inj hnode
      · exact ih hq (by rw [hcell, hnode]) hcs hrun x hx

/-! ## From an empty list -/

/-- Calls that return from an empty list have returned no vertex. -/
theorem queueRun_null (hq : s.q = none) (h : queueRun fuel cs s = some (out, s')) : out = [] := by
  induction cs generalizing s out with
  | nil => exact (Prod.mk.inj (Option.some.inj h)).1.symm
  | cons c cs ih =>
    obtain ⟨out₁, s₁, outs, hcall, hrun, rfl⟩ := queueRun_cons h
    obtain rfl := ih ((Caller.call_q hcall).trans hq) hrun
    obtain ⟨_, _, _, -, -, rfl, -⟩ | ⟨p, _, -, hp, -⟩ := Caller.call_cases hcall
    · rfl
    · rw [hq] at hp
      cases hp

end

/-- What has been enqueued has been dequeued or still waits. -/
theorem fifo_length {cs : List QueueCall} {waiting out waiting' : List VertexPtr}
    (h : fifo cs waiting = some (out, waiting')) :
    waiting.length ≤ out.length + waiting'.length := by
  induction cs generalizing waiting out with
  | nil =>
    obtain ⟨rfl, rfl⟩ := Prod.mk.inj (Option.some.inj h)
    exact Nat.le_add_left _ _
  | cons c cs ih =>
    cases c with
    | enqueue newQ peer =>
      have hlen := ih h
      rw [List.length_append, List.length_singleton] at hlen
      omega
    | dequeue =>
      cases waiting with
      | nil => cases h
      | cons v waiting =>
        obtain ⟨⟨outs, waiting₁⟩, hfifo, h⟩ := Option.bind_eq_some_iff.1 h
        obtain ⟨rfl, rfl⟩ := Prod.mk.inj (Option.some.inj h)
        have hlen := ih hfifo
        rw [List.length_cons, List.length_cons]
        omega

/-- After the first call something has been dequeued or waits. -/
theorem fifo_cons_ne_nil {c : QueueCall} {cs : List QueueCall} {out waiting : List VertexPtr}
    (h : fifo (c :: cs) [] = some (out, waiting)) (hout : out = []) : waiting ≠ [] := by
  cases c with
  | enqueue newQ peer =>
    have hlen := @fifo_length cs [peer] out waiting h
    rw [hout, List.length_nil, Nat.zero_add] at hlen
    exact List.ne_nil_of_length_pos hlen
  | dequeue => cases h

/-- **The calls are a queue only if there are none.** The caller starts with `NULL`, and calls
`dequeue` only where something waits. -/
theorem fifoLaw_iff (mem : QueuePtr → Option Queue) (cs : List QueueCall)
    (out waiting : List VertexPtr) (hallowed : fifo cs [] = some (out, waiting)) :
    FifoLaw cs ⟨none, mem⟩ out waiting ↔ cs = [] := by
  constructor
  · rintro ⟨fuel, s', hrun, hnull⟩
    cases cs with
    | nil => rfl
    | cons c cs =>
      have hout : out = [] := List.map_eq_nil_iff.1 (queueRun_null rfl hrun)
      exact absurd (hnull.1 (queueRun_q hrun)) (fifo_cons_ne_nil hallowed hout)
  · rintro rfl
    obtain ⟨rfl, rfl⟩ := Prod.mk.inj (Option.some.inj hallowed)
    exact ⟨0, ⟨none, mem⟩, rfl, iff_of_true rfl rfl⟩

/-- No calls at all. -/
theorem fifoLaw_nil : FifoLaw [] ⟨none, fun _ => none⟩ [] [] :=
  (fifoLaw_iff (fun _ => none) [] [] [] rfl).2 rfl

/-- One vertex is enqueued, and the variable is still `NULL`. -/
theorem not_fifoLaw_enqueue : fifo [.enqueue 1 7] [] = some ([], [7]) ∧
    ¬FifoLaw [.enqueue 1 7] ⟨none, fun _ => none⟩ [] [7] := by
  refine ⟨rfl, ?_⟩
  rintro ⟨fuel, s', hrun, hnull⟩
  exact absurd (hnull.1 (queueRun_q hrun)) (by decide)

end LinkProxy.Route
