import LinkProxy.Peers.Membership
import LinkProxy.Route.Search

/-!
# Operations under the lock

The operations of `proxy.c` and `route.c` that take the readers-writers lock, each from its first
`readBegin` or `writeBegin` to the return of the function, for a thread that runs alone: the lock,
the membership list and the network graph are the state, and an operation has no result where it
would wait for a mutex or would fault.

A section that is left on every path gives the lock back (`Lock.RwLock.writeEnd_writeBegin`). Five
functions have a path that returns without `writeEnd`; `released_iff` says exactly when they take
it.
-/

namespace LinkProxy.Operations

open Wire Lock Peers Route

/-- The lock and the data that it protects. -/
structure Proc (ι : Type) where
  lock : RwLock ι
  store : Store
  network : Network

/-- What does not change: the hash function, the data model and the local `link_state`. -/
structure Env where
  hash : MAC → UInt32
  dm : DataModel
  linkState : LinkState

section

variable {ι : Type} (env : Env) (i : ι)

/-- `add_member`. -/
def addMember (p : Ptr) (w : Proc ι) : Option (Proc ι) := do
  let l ← w.lock.writeBegin i
  let store := w.store.addMember env.hash p
  let l ← l.writeEnd i
  return { w with lock := l, store := store }

/-- `remove_member`. The first two returns leave the lock as it is. -/
def removeMember (pp : Option Ptr) (w : Proc ι) : Option (Proc ι) := do
  let l ← w.lock.writeBegin i
  match pp with
  | none => return { w with lock := l }
  | some p =>
    match w.store.find env.hash (w.store.key p) with
    | none => return { w with lock := l }
    | some _ =>
      let store ← w.store.removeMember env.hash p
      let l ← l.writeEnd i
      return { w with lock := l, store := store }

/-- `Leave`, with the address in the packet. -/
def leave (mac : MAC) (w : Proc ι) : Option (Proc ι) := do
  let l ← w.lock.readBegin i
  let pp := w.store.find env.hash mac
  let l ← l.readEnd i
  match pp with
  | none => return { w with lock := l }
  | some p => removeMember env i (some p) { w with lock := l }

/-- `evaluate_record`. -/
def evaluateRecord (lsr : LinkStateRecord) (new : Network.Fresh) (w : Proc ι) :
    Option (Proc ι) := do
  let l ← w.lock.writeBegin i
  let network := w.network.evaluateRecord env.dm lsr new
  let l ← l.writeEnd i
  return { w with lock := l, network := network }

/-- `remove_from_network`. Only `writeEnd` is under the `if`, and everything behind the `return` is
dead. -/
def removeFromNetwork (pp : VertexPtr) (w : Proc ι) : Option (Proc ι) := do
  let l ← w.lock.writeBegin i
  match w.network.find (w.network.mac pp) with
  | none =>
    let l ← l.writeEnd i
    return { w with lock := l }
  | some _ => return { w with lock := l }

/-- A call of an operation. -/
inductive Operation
  | addMember (p : Ptr)
  | removeMember (pp : Option Ptr)
  | leave (mac : MAC)
  | evaluateRecord (lsr : LinkStateRecord) (new : Network.Fresh)
  | removeFromNetwork (pp : VertexPtr)
  | shortestPath (dest : Option VertexPtr) (stack : Stack)
  | bfs (stack : Stack)
  | dijkstra (stack : Stack)

/-- The state in which a call returns. -/
def Operation.run (fuel : ℕ) (w : Proc ι) : Operation → Option (Proc ι)
  | .addMember p => Operations.addMember env i p w
  | .removeMember pp => Operations.removeMember env i pp w
  | .leave mac => Operations.leave env i mac w
  | .evaluateRecord lsr new => Operations.evaluateRecord env i lsr new w
  | .removeFromNetwork pp => Operations.removeFromNetwork i pp w
  | .shortestPath dest stack =>
    (Route.shortestPath fuel i env.linkState stack w.network dest w.lock).map
      fun l => { w with lock := l }
  | .bfs stack => (Route.bfs fuel i env.linkState stack w.network w.lock).map
      fun r => { w with lock := r.2 }
  | .dijkstra stack => (Route.dijkstra fuel i env.linkState stack w.network w.lock).map
      fun l => { w with lock := l }

/-- Whenever the call returns, it has released what it acquired. -/
def Operation.Releases (op : Operation) (s : Store) (g : Network) : Prop :=
  ∀ fuel l w', op.run env i fuel ⟨l, s, g⟩ = some w' → l.Released w'.lock

/-- The insertions of `Dijkstra` read a cell outside the part of the heap that has been filled, and
fault. -/
def InsertionFaults (stack : Stack) (g : Network) : Prop :=
  let hp := Heap.heapAlloc stack.beyond (.ofNat g.count)
  0 < hp.max ∧ hp.heap 2147483647 = none ∨ hp.max.toNat < g.count ∧ hp.heap 4294967295 = none

/-- The call does not take a path that returns without `writeEnd`. -/
def Operation.Balanced (op : Operation) (s : Store) (g : Network) : Prop :=
  match op with
  | .addMember _ | .leave _ | .evaluateRecord _ _ => True
  | .removeMember pp => ∃ p, pp = some p ∧ (s.find env.hash (s.key p)).isSome
  | .removeFromNetwork pp => g.find (g.mac pp) = none
  | .shortestPath _ _ | .bfs _ => (g.find env.linkState.tapMAC).isSome
  | .dijkstra stack => (g.find env.linkState.tapMAC).isSome ∧ InsertionFaults stack g

/-! ## Sections that are left -/

variable {env i} {s : Store} {g : Network} {l l' : RwLock ι} {w' : Proc ι} {fuel : ℕ}

/-- The lock is given back by `writeEnd`. -/
theorem released_writeEnd {l₂ : RwLock ι} (hbegin : l.writeBegin i = some l')
    (hend : l'.writeEnd i = some l₂) : l.Released l₂ := by
  obtain rfl : l = l₂ := Option.some.inj ((RwLock.writeEnd_writeBegin hbegin).symm.trans hend)
  exact RwLock.released_refl l

theorem removeMember_released {p : Ptr} (hfound : (s.find env.hash (s.key p)).isSome)
    (h : removeMember env i (some p) ⟨l, s, g⟩ = some w') : l.Released w'.lock := by
  obtain ⟨q, hq⟩ := Option.isSome_iff_exists.1 hfound
  obtain ⟨l₁, hbegin, h⟩ := Option.bind_eq_some_iff.1 h
  simp only [hq] at h
  obtain ⟨store, -, h⟩ := Option.bind_eq_some_iff.1 h
  obtain ⟨l₂, hend, h⟩ := Option.bind_eq_some_iff.1 h
  obtain rfl := Option.some.inj h
  exact released_writeEnd hbegin hend

/-- The member that `Leave` has found is found again by `remove_member`. -/
theorem leave_released {mac : MAC} (h : leave env i mac ⟨l, s, g⟩ = some w') :
    l.Released w'.lock := by
  obtain ⟨l₁, hbegin, h⟩ := Option.bind_eq_some_iff.1 h
  obtain ⟨l₂, hend, h⟩ := Option.bind_eq_some_iff.1 h
  obtain rfl : l = l₂ := Option.some.inj ((RwLock.readEnd_readBegin hbegin).symm.trans hend)
  dsimp only at h
  cases hfind : s.find env.hash mac with
  | none =>
    rw [hfind] at h
    obtain rfl := Option.some.inj h
    exact RwLock.released_refl l
  | some p =>
    rw [hfind] at h
    have hkey : s.key p = mac := Uthash.hashFind_key hfind
    exact removeMember_released (by rw [hkey, hfind]; rfl) h

/-- **A balanced call releases what it acquired.** -/
theorem Operation.Balanced.releases {op : Operation} (hop : op.Balanced env s g) :
    op.Releases env i s g := by
  intro fuel l w' h
  cases op with
  | addMember p =>
    obtain ⟨l₁, hbegin, h⟩ := Option.bind_eq_some_iff.1 h
    obtain ⟨l₂, hend, h⟩ := Option.bind_eq_some_iff.1 h
    obtain rfl := Option.some.inj h
    exact released_writeEnd hbegin hend
  | removeMember pp =>
    obtain ⟨p, rfl, hfound⟩ := hop
    exact removeMember_released hfound h
  | leave mac => exact leave_released h
  | evaluateRecord lsr new =>
    obtain ⟨l₁, hbegin, h⟩ := Option.bind_eq_some_iff.1 h
    obtain ⟨l₂, hend, h⟩ := Option.bind_eq_some_iff.1 h
    obtain rfl := Option.some.inj h
    exact released_writeEnd hbegin hend
  | removeFromNetwork pp =>
    obtain ⟨l₁, hbegin, h⟩ := Option.bind_eq_some_iff.1 h
    have hop : g.find (g.mac pp) = none := hop
    simp only [hop] at h
    obtain ⟨l₂, hend, h⟩ := Option.bind_eq_some_iff.1 h
    obtain rfl := Option.some.inj h
    exact released_writeEnd hbegin hend
  | shortestPath dest stack =>
    obtain ⟨v, hv⟩ := Option.isSome_iff_exists.1 hop
    obtain ⟨l₂, hcall, rfl⟩ := Option.map_eq_some_iff.1 h
    obtain ⟨l₁, hbegin, hrest⟩ := Option.bind_eq_some_iff.1 hcall
    simp only [hv] at hrest
    obtain ⟨-, -, hend⟩ := Option.bind_eq_some_iff.1 hrest
    exact released_writeEnd hbegin hend
  | bfs stack =>
    obtain ⟨v, hv⟩ := Option.isSome_iff_exists.1 hop
    obtain ⟨r, hcall, rfl⟩ := Option.map_eq_some_iff.1 h
    obtain ⟨l₁, hbegin, hrest⟩ := Option.bind_eq_some_iff.1 hcall
    simp only [hv] at hrest
    obtain ⟨visited, -, hrest⟩ := Option.bind_eq_some_iff.1 hrest
    obtain ⟨l₂, hend, hrest⟩ := Option.bind_eq_some_iff.1 hrest
    obtain rfl := Option.some.inj hrest
    exact released_writeEnd hbegin hend
  | dijkstra stack =>
    obtain ⟨hfound, hfaults⟩ := hop
    obtain ⟨v, hv⟩ := Option.isSome_iff_exists.1 hfound
    obtain ⟨l₂, hcall, rfl⟩ := Option.map_eq_some_iff.1 h
    obtain ⟨l₁, hbegin, hrest⟩ := Option.bind_eq_some_iff.1 hcall
    simp only [hv] at hrest
    obtain ⟨hp, hrun, -⟩ := Option.bind_eq_some_iff.1 hrest
    -- an insertion that faults does not come to its end
    obtain ⟨-, hparent, hbeyond⟩ := insertAll_filled (heapAlloc_filled ..) hrun
    exfalso
    rcases hfaults with ⟨hpos, hnone⟩ | ⟨hlt, hnone⟩
    · have hne : g.order ≠ [] := List.ne_nil_of_mem (List.mem_of_find?_eq_some hv)
      simpa [hnone] using hparent hne rfl hpos
    · simpa [hnone] using hbeyond (by simpa [Network.count, Heap.heapAlloc] using hlt)

/-! ## Sections that are not left -/

theorem writeBegin_free (i : ι) : ∃ l, (RwLock.free ι).writeBegin i = some l := ⟨_, rfl⟩

/-- **A call that is not balanced returns with the lock**, when nobody else has it. -/
theorem Operation.not_releases {op : Operation} (hop : ¬ op.Balanced env s g) :
    ∃ w', op.run env i 1 ⟨RwLock.free ι, s, g⟩ = some w' ∧
      ¬ (RwLock.free ι).Released w'.lock := by
  obtain ⟨l, hl⟩ := writeBegin_free i
  refine ⟨⟨l, s, g⟩, ?_, RwLock.not_released_writeBegin hl⟩
  cases op with
  | addMember p | leave mac | evaluateRecord lsr new => exact absurd trivial hop
  | removeMember pp =>
    rw [Operation.run, Operations.removeMember, hl]
    cases pp with
    | none => rfl
    | some p =>
      have hnone : s.find env.hash (s.key p) = none := by
        simpa [Operation.Balanced] using hop
      simp [hnone]
  | removeFromNetwork pp =>
    obtain ⟨v, hv⟩ := Option.ne_none_iff_exists'.1 hop
    rw [Operation.run, Operations.removeFromNetwork, hl]
    simp [hv]
  | shortestPath dest stack =>
    have hnone : g.find env.linkState.tapMAC = none := by simpa [Operation.Balanced] using hop
    rw [Operation.run, Route.shortestPath, hl]
    simp [hnone]
  | bfs stack =>
    have hnone : g.find env.linkState.tapMAC = none := by simpa [Operation.Balanced] using hop
    rw [Operation.run, Route.bfs, hl]
    simp [hnone]
  | dijkstra stack =>
    rw [Operation.run, Route.dijkstra, hl]
    cases hfind : g.find env.linkState.tapMAC with
    | none => simp
    | some v =>
      have hno : ¬ InsertionFaults stack g := fun hfaults => hop ⟨by rw [hfind]; rfl, hfaults⟩
      obtain ⟨hparent, hbeyond⟩ := not_or.1 hno
      obtain ⟨hp, hrun⟩ := insertAll_isSome 0 g.mac (heapAlloc_filled stack.beyond (.ofNat g.count))
        (fun _ _ hpos => Option.isSome_iff_ne_none.2 fun hnone => hparent ⟨hpos, hnone⟩)
        fun hlt => Option.isSome_iff_ne_none.2 fun hnone =>
          hbeyond ⟨by simpa [Network.count, Heap.heapAlloc] using hlt, hnone⟩
      obtain ⟨hindex, -⟩ := insertAll_filled (heapAlloc_filled ..) hrun
      simp [hrun, Heap.findIndex, hindex]

/-- **A call releases what it acquired exactly if it is balanced.** -/
theorem released_iff (op : Operation) (s : Store) (g : Network) :
    op.Releases env i s g ↔ op.Balanced env s g := by
  refine ⟨fun h => ?_, fun h => h.releases⟩
  by_contra hop
  obtain ⟨w', hrun, hnot⟩ := Operation.not_releases (i := i) hop
  exact hnot (h 1 _ w' hrun)

/-- `remove_member` of a peer that is not in the table, which is empty: it returns and keeps `w`. -/
theorem removeMember_keeps_lock : ∃ (env : Env) (g : Network) (w' : Proc Unit),
    (Operation.removeMember (some 0)).run env () 1 ⟨RwLock.free Unit, Store.empty, g⟩ = some w' ∧
      w'.lock.writecount = 1 ∧ w'.lock.mutex .w = some () ∧
      ¬ (Operation.removeMember (some 0)).Releases env () Store.empty g := by
  let ls : LinkState := ⟨0, 0, .replicate 6 1, .replicate 6 1⟩
  refine ⟨⟨fun _ => 0, .lp64, ls⟩, ⟨[], fun _ => ⟨ls, []⟩, fun _ => ⟨0, ⟨0, 0⟩⟩⟩, _, rfl, rfl, rfl,
    fun h => ?_⟩
  have := (h 1 (RwLock.free Unit) _ rfl).writecount
  exact absurd this (by decide)

end

end LinkProxy.Operations
