import LinkProxy.Lock.Sections
import LinkProxy.Route.Heap

/-!
# The searches of `route.c`

`shortest_path`, `bfs` and `Dijkstra` hold the write lock while they search the graph. Their control
flow is followed to the end: each of them returns without `writeEnd` when the local proxy is not a
vertex. Otherwise the first two loop with a queue that is never changed, since `enqueue` and
`dequeue` get a copy of the pointer, and that is not initialised; and `Dijkstra` never enters a
position in the table in which it then looks for the source.

What is not initialised, and what lies outside an array, is an argument (`Stack`). The key of a
vertex in `visited` is `sizeof(graph)` bytes from the address of a pointer on, which are compared
with the bytes of the vertex; whether they are the same is an argument, too.
-/

namespace LinkProxy.Route

open Wire Lock

/-! ## The queue -/

/-- A `Queue *` that is not `NULL`. -/
abbrev QueuePtr := ℕ

/-- `struct Queue`. -/
structure Queue where
  node : Option VertexPtr
  next : Option QueuePtr

/-- The last cell of a list, as `LL_APPEND` looks for it. -/
def llLast (mem : QueuePtr → Option Queue) : ℕ → QueuePtr → Option QueuePtr
  | 0, _ => none
  | fuel + 1, p => do
    let c ← mem p
    match c.next with
    | none => some p
    | some n => llLast mem fuel n

/-- `enqueue`. The head of an empty list is assigned to the parameter only. -/
def enqueue (fuel : ℕ) (q : Option QueuePtr) (newQ : QueuePtr) (peer : VertexPtr)
    (mem : QueuePtr → Option Queue) : Option (QueuePtr → Option Queue) :=
  let mem := Function.update mem newQ (some ⟨some peer, none⟩)
  match q with
  | none => some mem
  | some p => do
    let last ← llLast mem fuel p
    let c ← mem last
    return Function.update mem last (some { c with next := some newQ })

/-- `dequeue`. Only the parameter is advanced. -/
def dequeue (q : Option QueuePtr) (mem : QueuePtr → Option Queue) : Option (Option VertexPtr) := do
  let p ← q
  let c ← mem p
  return c.node

/-! ## Breadth first -/

/-- What the searches find on the stack, in the memory behind it and from `malloc`. -/
structure Stack where
  q : Option QueuePtr
  mem : QueuePtr → Option Queue
  newQ : QueuePtr
  /-- Whether the lookup of a vertex in `visited` finds the entry of the source. -/
  visited : VertexPtr → Bool
  /-- The memory behind the array of a heap. -/
  beyond : ℕ → Option Heapent

/-- The entry of the source in `visited`. -/
structure Visited where
  node : Option VertexPtr
  prev : Option VertexPtr
  dist : ℕ

/-- `prepare_forwarding_table`, given the entry of the previous vertex. The loop would add to a
table that is not initialised. -/
def prepareForwardingTable (v : Option Visited) : Option Unit :=
  match v with
  | none => some ()
  | some v => if v.prev = none then some () else none

/-- The neighbours of a vertex, one after the other, up to one at which the search stops. A
neighbour that was not visited becomes a `NULL` in the entry of the source, which is then followed.
-/
def scanNbrs (g : Network) (visited stop : VertexPtr → Bool) : List EdgePtr → Option Bool
  | [] => some false
  | e :: es =>
    if stop (g.edge e).node then some true
    else if visited (g.edge e).node then scanNbrs g visited stop es
    else none

/-- The loop of the searches, and whether it was left at a neighbour. -/
def searchLoop (g : Network) (visited stop : VertexPtr → Bool) (mem : QueuePtr → Option Queue)
    (q : Option QueuePtr) : ℕ → Option Bool
  | 0 => none
  | fuel + 1 =>
    match q with
    | none => some false
    | some p => do
      let node ← dequeue (some p) mem
      let tmpNode ← node
      let found ← scanNbrs g visited stop (g.vertex tmpNode).nbrs
      if found then some true else searchLoop g visited stop mem q fuel

section

variable {ι : Type} (fuel : ℕ) (i : ι) (linkState : LinkState) (stack : Stack) (g : Network)

/-- `shortest_path`, from the vertex of the local proxy on. -/
def pathSearch (dest : Option VertexPtr) (node : VertexPtr) : Option Unit := do
  let mem ← enqueue fuel stack.q stack.newQ node stack.mem
  let src ← dequeue stack.q mem
  let found ← searchLoop g stack.visited (fun v => dest = some v) mem stack.q fuel
  if found then
    prepareForwardingTable (if src.any stack.visited then some ⟨src, none, 0⟩ else none)
  else return

/-- `shortest_path`. -/
def shortestPath (dest : Option VertexPtr) (l : RwLock ι) : Option (RwLock ι) := do
  let l ← l.writeBegin i
  match g.find linkState.tapMAC with
  | none => return l
  | some node =>
    let _ ← pathSearch fuel stack g dest node
    l.writeEnd i

/-- `bfs`, from the vertex of the local proxy on, with the vertices in the table of visited ones. -/
def bfsSearch (node : VertexPtr) : Option (List (Option VertexPtr)) := do
  let src ← dequeue stack.q stack.mem
  let mem ← enqueue fuel stack.q stack.newQ node stack.mem
  let _ ← searchLoop g stack.visited (fun _ => false) mem stack.q fuel
  return [src]

/-- `bfs`. -/
def bfs (l : RwLock ι) : Option (List (Option VertexPtr) × RwLock ι) := do
  let l ← l.writeBegin i
  match g.find linkState.tapMAC with
  | none => return ([], l)
  | some node =>
    let visited ← bfsSearch fuel stack g node
    let l ← l.writeEnd i
    return (visited, l)

/-! ## `Dijkstra` -/

/-- The body of the loop of `Dijkstra` over the vertices. -/
def insertVertex (mac : VertexPtr → MAC) (hp : Heap) (node : VertexPtr) : Option Heap := do
  let (k, hp) ← hp.heapInsert mac fuel node (-1)
  let ent ← hp.heap k.toNat
  return hp.set k { ent with prev := none, visited := 0 }

/-- `Dijkstra`. Behind the loop over the vertices `node` is `NULL`, so the search ends at the first
entry that it takes. -/
def dijkstra (l : RwLock ι) : Option (RwLock ι) := do
  let l ← l.writeBegin i
  match g.find linkState.tapMAC with
  | none => return l
  | some _ =>
    let hp ← g.order.foldlM (insertVertex fuel g.mac)
      (Heap.heapAlloc stack.beyond (.ofNat g.count))
    match hp.findIndex linkState.tapMAC with
    | none => return l
    | some k =>
      let src ← hp.heap k.toNat
      let _ ← hp.heap 0
      let hp := hp.set 0 { src with dist := 0, visited := 1 }
      if hp.size = 0 then l.writeEnd i else none

end

/-! ## Inserting all vertices -/

section Insert

variable {mac : VertexPtr → MAC} {fuel : ℕ} {hp hp' : Heap}

/-- An entry with the largest distance stays where it is, if its parent can be read. -/
theorem upheap_farthest {k : UInt32} {ent : Heapent} (hent : hp.heap k.toNat = some ent)
    (hdist : ent.dist = -1) : hp.upheap mac (fuel + 1) k =
      (hp.heap ((k - 1) / 2).toNat).map fun _ => hp.setIndex (mac ent.node) k := by
  rw [Heap.upheap, hent]
  cases habove : hp.heap ((k - 1) / 2).toNat with
  | none => rfl
  | some above =>
    have hnot : ¬ ent.dist < above.dist := by
      rw [hdist, UInt32.lt_iff_toNat_lt]
      have := above.dist.toNat_lt
      simp only [show ((-1 : UInt32)).toNat = 4294967295 from rfl]
      omega
    simp [hnot]

theorem heapInsert_farthest (node : VertexPtr) (hsize : hp.size < hp.max) :
    hp.heapInsert mac (fuel + 1) node (-1) =
      ((hp.set hp.size ⟨node, none, -1, 0⟩).heap ((hp.size - 1) / 2).toNat).map fun _ =>
        (0, { (hp.set hp.size ⟨node, none, -1, 0⟩).setIndex (mac node) hp.size with
          size := hp.size + 1 }) := by
  have hent : (hp.set hp.size ⟨node, none, -1, 0⟩).heap hp.size.toNat =
      some ⟨node, none, -1, 0⟩ := by simp [Heap.set]
  rw [Heap.heapInsert, if_neg (by simpa using hsize), upheap_farthest hent rfl]
  cases (hp.set hp.size ⟨node, none, -1, 0⟩).heap ((hp.size - 1) / 2).toNat <;> rfl

/-- The cell that is read above the last position of a heap: for an empty heap it is the one with
the largest signed index. -/
theorem toNat_parent (k : UInt32) :
    ((k - 1) / 2).toNat = if k = 0 then 2147483647 else (k.toNat - 1) / 2 := by
  split_ifs with hk
  · rw [hk]
    rfl
  · have hpos : 1 ≤ k := by
      rw [UInt32.le_iff_toNat_le]
      have : k.toNat ≠ 0 := fun h => hk (UInt32.toNat_inj.1 h)
      simpa using Nat.one_le_iff_ne_zero.2 this
    rw [UInt32.toNat_div, UInt32.toNat_sub_of_le _ _ hpos]
    rfl

/-- Every cell below the size is an entry. -/
structure Filled (hp : Heap) : Prop where
  size : hp.size ≤ hp.max
  cells : ∀ j < hp.size.toNat, (hp.heap j).isSome
  index : hp.index = []

/-- What the insertion of a vertex does if there is room for it. -/
structure Inserted (hp hp' : Heap) : Prop where
  size : hp'.size = hp.size + 1
  max : hp'.max = hp.max
  index : hp'.index = []
  cells : ∀ j, (hp.heap j).isSome ∨ j = hp.size.toNat → (hp'.heap j).isSome
  others : ∀ j, j ≠ 0 → j ≠ hp.size.toNat → hp'.heap j = hp.heap j

/-- Above the last position of a filled heap there is an entry, unless the heap is empty. -/
theorem Filled.parent_isSome (h : Filled hp) (ent : Heapent) :
    ((hp.set hp.size ent).heap ((hp.size - 1) / 2).toNat).isSome ↔
      (hp.size = 0 → (hp.heap 2147483647).isSome) := by
  rw [toNat_parent]
  by_cases hzero : hp.size = 0
  · simp [Heap.set, hzero]
  · have hpos : 0 < hp.size.toNat :=
      Nat.pos_of_ne_zero fun heq => hzero (UInt32.toNat_inj.1 heq)
    have hlt : (hp.size.toNat - 1) / 2 < hp.size.toNat := by omega
    simp [Heap.set, hzero, hlt.ne, h.cells _ hlt]

theorem insertVertex_room (fuel : ℕ) (mac : VertexPtr → MAC) (node : VertexPtr)
    (h : Filled hp) (hsize : hp.size < hp.max) (hparent : hp.size = 0 → (hp.heap 2147483647).isSome) :
    ∃ hp', insertVertex (fuel + 1) mac hp node = some hp' ∧ Inserted hp hp' := by
  obtain ⟨above, habove⟩ := Option.isSome_iff_exists.1
    ((h.parent_isSome ⟨node, none, -1, 0⟩).2 hparent)
  -- position `0` is filled, at the latest by this insertion
  have hroot : ((hp.set hp.size ⟨node, none, -1, 0⟩).heap 0).isSome := by
    by_cases hzero : hp.size.toNat = 0
    · simp [Heap.set, hzero]
    · simpa [Heap.set, Ne.symm hzero] using h.cells 0 (Nat.pos_of_ne_zero hzero)
  obtain ⟨root, hroot⟩ := Option.isSome_iff_exists.1 hroot
  have hrun : insertVertex (fuel + 1) mac hp node = some (Heap.set 0
      { root with prev := none, visited := 0 }
      { (hp.set hp.size ⟨node, none, -1, 0⟩).setIndex (mac node) hp.size with
        size := hp.size + 1 }) := by
    rw [insertVertex, heapInsert_farthest node hsize, habove]
    simp only [Option.map_some, Option.bind_eq_bind, Option.bind_some, Heap.setIndex,
      UInt32.toNat_zero, hroot]
    rfl
  refine ⟨_, hrun, rfl, rfl, by simp [Heap.set, Heap.setIndex, h.index], fun j hj => ?_,
    fun j h0 hj => ?_⟩
  · by_cases h0 : j = 0
    · simp [Heap.set, h0]
    · by_cases hjs : j = hp.size.toNat
      · simp [Heap.set, Heap.setIndex, hjs ▸ h0, hjs]
      · simpa [Heap.set, Heap.setIndex, h0, hjs] using hj.resolve_right hjs
  · simp [Heap.set, Heap.setIndex, h0, hj]

/-- An insertion that comes to its end had an entry above the last position. -/
theorem insertVertex_eq_some {node : VertexPtr} (h : Filled hp) (hsize : hp.size < hp.max)
    (hrun : insertVertex fuel mac hp node = some hp') :
    (hp.size = 0 → (hp.heap 2147483647).isSome) ∧ Inserted hp hp' := by
  obtain ⟨⟨k, hp₁⟩, hins, hrest⟩ := Option.bind_eq_some_iff.1 hrun
  cases fuel with
  | zero =>
    rw [Heap.heapInsert, if_neg (by simpa using hsize)] at hins
    exact absurd hins (by simp [Heap.upheap])
  | succ fuel =>
    rw [heapInsert_farthest node hsize] at hins
    obtain ⟨above, habove, -⟩ := Option.map_eq_some_iff.1 hins
    have hparent := (h.parent_isSome ⟨node, none, -1, 0⟩).1 (by rw [habove]; rfl)
    obtain ⟨hp₂, hrun₂, hinserted⟩ := insertVertex_room fuel mac node h hsize hparent
    obtain rfl : hp₂ = hp' := Option.some.inj (hrun₂.symm.trans hrun)
    exact ⟨hparent, hinserted⟩

/-- Without room the index `-1` is used as a position. -/
theorem insertVertex_full (fuel : ℕ) (mac : VertexPtr → MAC) (node : VertexPtr)
    (hsize : hp.max ≤ hp.size) :
    insertVertex fuel mac hp node = (hp.heap 4294967295).map fun ent =>
      hp.set (-1) { ent with prev := none, visited := 0 } := by
  rw [insertVertex, Heap.heapInsert, if_pos hsize]
  simp only [Option.bind_eq_bind, Option.bind_some, show ((-1 : UInt32)).toNat = 4294967295 from rfl]
  cases hp.heap 4294967295 <;> rfl

theorem Inserted.filled (h : Filled hp) (hsize : hp.size < hp.max) (hi : Inserted hp hp') :
    Filled hp' ∧ hp'.size.toNat = hp.size.toNat + 1 := by
  have hlt : hp.size.toNat < hp.max.toNat := UInt32.lt_iff_toNat_lt.1 hsize
  have hmax := hp.max.toNat_lt
  have hsucc : hp'.size.toNat = hp.size.toNat + 1 := by
    rw [hi.size, UInt32.toNat_add]
    simp only [UInt32.toNat_one]
    omega
  refine ⟨⟨?_, fun j hj => ?_, hi.index⟩, hsucc⟩
  · rw [UInt32.le_iff_toNat_le, hsucc, hi.max]
    omega
  · rcases Nat.lt_succ_iff_lt_or_eq.1 (hsucc ▸ hj) with hlt | heq
    · exact hi.cells j (.inl (h.cells j hlt))
    · exact hi.cells j (.inr heq)

theorem heapAlloc_filled (beyond : ℕ → Option Heapent) (max : UInt32) :
    Filled (Heap.heapAlloc beyond max) where
  size := by simp [Heap.heapAlloc]
  cells j hj := absurd hj (by simp [Heap.heapAlloc])
  index := rfl

theorem Filled.set_last (h : Filled hp) (ent : Heapent) : Filled (hp.set (-1) ent) := by
  refine ⟨h.size, fun j hj => ?_, h.index⟩
  by_cases heq : j = 4294967295
  · simp [Heap.set, heq]
  · simpa [Heap.set, heq] using h.cells j hj

/-- The heap is filled when all vertices have been inserted. -/
theorem insertAll_filled {order : List VertexPtr} (h : Filled hp)
    (hrun : order.foldlM (insertVertex fuel mac) hp = some hp') :
    hp'.index = [] ∧ (order ≠ [] → hp.size = 0 → 0 < hp.max → (hp.heap 2147483647).isSome) ∧
      (hp.max.toNat - hp.size.toNat < order.length → (hp.heap 4294967295).isSome) := by
  induction order generalizing hp with
  | nil =>
    obtain rfl := Option.some.inj hrun
    exact ⟨h.index, fun hne => absurd rfl hne, by simp⟩
  | cons node order ih =>
    obtain ⟨hp₁, hstep, hrest⟩ := Option.bind_eq_some_iff.1 hrun
    have hmax := hp.max.toNat_lt
    by_cases hsize : hp.size < hp.max
    · obtain ⟨hparent, hinserted⟩ := insertVertex_eq_some h hsize hstep
      obtain ⟨hfilled, hsucc⟩ := hinserted.filled h hsize
      obtain ⟨hindex, -, hbeyond⟩ := ih hfilled hrest
      have hlt : hp.size.toNat < hp.max.toNat := UInt32.lt_iff_toNat_lt.1 hsize
      refine ⟨hindex, fun _ h0 _ => hparent h0, fun hlen => ?_⟩
      rw [← hinserted.others 4294967295 (by omega) (by omega)]
      refine hbeyond ?_
      rw [hinserted.max, hsucc]
      simp only [List.length_cons] at hlen
      omega
    · rw [insertVertex_full fuel mac node (UInt32.not_lt.1 hsize)] at hstep
      obtain ⟨ent, hent, rfl⟩ := Option.map_eq_some_iff.1 hstep
      refine ⟨(ih (h.set_last _) hrest).1, fun _ h0 hpos => ?_, fun _ => by rw [hent]; rfl⟩
      rw [h0] at hsize
      exact absurd hpos hsize

/-- All vertices can be inserted if the cells outside the heap that are read are there. -/
theorem insertAll_isSome (fuel : ℕ) (mac : VertexPtr → MAC) {order : List VertexPtr} (h : Filled hp)
    (hparent : order ≠ [] → hp.size = 0 → 0 < hp.max → (hp.heap 2147483647).isSome)
    (hbeyond : hp.max.toNat - hp.size.toNat < order.length → (hp.heap 4294967295).isSome) :
    ∃ hp', order.foldlM (insertVertex (fuel + 1) mac) hp = some hp' := by
  induction order generalizing hp with
  | nil => exact ⟨hp, rfl⟩
  | cons node order ih =>
    have hmax := hp.max.toNat_lt
    by_cases hsize : hp.size < hp.max
    · have hlt : hp.size.toNat < hp.max.toNat := UInt32.lt_iff_toNat_lt.1 hsize
      obtain ⟨hp₁, hstep, hinserted⟩ := insertVertex_room fuel mac node h hsize
        fun h0 => hparent (by simp) h0 (h0 ▸ hsize)
      obtain ⟨hfilled, hsucc⟩ := hinserted.filled h hsize
      obtain ⟨hp', hrest⟩ := ih hfilled
        (fun _ h0 => by rw [h0] at hsucc; simp at hsucc) fun hlen => by
          rw [hinserted.others 4294967295 (by omega) (by omega)]
          refine hbeyond ?_
          rw [hinserted.max, hsucc] at hlen
          simp only [List.length_cons]
          omega
      exact ⟨hp', by rw [List.foldlM_cons, hstep]; exact hrest⟩
    · have hle : hp.max.toNat ≤ hp.size.toNat := UInt32.le_iff_toNat_le.1 (UInt32.not_lt.1 hsize)
      obtain ⟨ent, hent⟩ :=
        Option.isSome_iff_exists.1 (hbeyond (by simp only [List.length_cons]; omega))
      have hstep := insertVertex_full (fuel + 1) mac node (UInt32.not_lt.1 hsize)
      rw [hent, Option.map_some] at hstep
      obtain ⟨hp', hrest⟩ := ih (h.set_last { ent with prev := none, visited := 0 })
        (fun _ h0 hpos => absurd (h0 ▸ hpos) hsize) fun _ => by simp [Heap.set]
      exact ⟨hp', by rw [List.foldlM_cons, hstep]; exact hrest⟩

end Insert

end LinkProxy.Route
