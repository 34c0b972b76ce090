import LinkProxy.Route.Network

/-!
# The heap of `route.c`

A heap of entries that are ordered by `dist`, with a table of the positions of the vertices. The
indices are 32-bit numbers, so the parent of the root is `(0-1)/2 = 2147483647`, and `upheap` looks
there before it stops. What is found outside the array, or in it before it has been written, is a
part of the model: a cell of the array is the entry that the pointer in it points to, and there is
none where the access faults.

`upheap` and `downheap` loop as long as their conditions hold, which need not end; their first
argument bounds the passes.
-/

namespace LinkProxy.Route

open Wire

/-- `heapent`. -/
structure Heapent where
  node : VertexPtr
  prev : Option VertexPtr
  dist : UInt32
  visited : UInt8

/-- `Heap`. The table of positions is the list of its keys and values. -/
structure Heap where
  size : UInt32
  max : UInt32
  heap : ℕ → Option Heapent
  index : List (MAC × UInt32)

namespace Heap

/-- `HASH_FIND(hh, hp->index, mac, ETH_ALEN, hip)`. -/
def findIndex (mac : MAC) (hp : Heap) : Option UInt32 := (hp.index.find? fun e => e.1 == mac).map (·.2)

/-- `if(hip!=NULL) hip->index=i`. -/
def setIndex (mac : MAC) (i : UInt32) (hp : Heap) : Heap :=
  { hp with index := hp.index.map fun e => if e.1 = mac then (e.1, i) else e }

/-- Assign to a cell of the array. -/
def set (i : UInt32) (ent : Heapent) (hp : Heap) : Heap :=
  { hp with heap := Function.update hp.heap i.toNat (some ent) }

/-- `heap_alloc`. `calloc` clears the cells; `beyond` is what lies behind them. -/
def heapAlloc (beyond : ℕ → Option Heapent) (max : UInt32) : Heap where
  size := 0
  max := max
  heap i := if i < max.toNat then none else beyond i
  index := []

variable (mac : VertexPtr → MAC)

/-- `upheap`. -/
def upheap : ℕ → UInt32 → Heap → Option Heap
  | 0, _, _ => none
  | fuel + 1, index, hp => do
    let parent := (index - 1) / 2
    let ent ← hp.heap index.toNat
    let above ← hp.heap parent.toNat
    if ent.dist < above.dist then
      let hp := (hp.set index above).set parent ent
      -- the entry that is now at `parent` gets this position, not the one that went down
      upheap fuel parent (hp.setIndex (mac ent.node) parent)
    else return hp.setIndex (mac ent.node) index

/-- `heap_insert`. -/
def heapInsert (fuel : ℕ) (node : VertexPtr) (dist : UInt32) (hp : Heap) : Option (UInt32 × Heap) :=
  if hp.max ≤ hp.size then some (-1, hp)
  else do
    let hp ← upheap mac fuel hp.size (hp.set hp.size ⟨node, none, dist, 0⟩)
    return (0, { hp with size := hp.size + 1 })

/-- The condition of the loop of `downheap` for one child. -/
def below (index child : UInt32) (hp : Heap) : Option Bool :=
  if child < hp.size then do
    let ent ← hp.heap index.toNat
    let c ← hp.heap child.toNat
    return c.dist < ent.dist
  else some false

/-- `downheap`, from the position `index` on. -/
def downheap : ℕ → UInt32 → UInt32 → UInt32 → Heap → Option Heap
  | 0, _, _, _, _ => none
  | fuel + 1, index, left, right, hp => do
    let l ← hp.below index left
    -- the right child is looked at only if the left one does not decide
    let goes ← if l then some true else hp.below index right
    let ent ← hp.heap index.toNat
    if goes then
      let left := if left < right then left else right
      let child ← hp.heap left.toNat
      let hp := (hp.set index child).set left ent
      downheap fuel left (2 * left + 1) (2 * left + 2) (hp.setIndex (mac ent.node) left)
    else return hp.setIndex (mac ent.node) index

/-- `heap_delete`; `NULL` for an empty heap. -/
def heapDelete (fuel : ℕ) (hp : Heap) : Option (Option Heapent × Heap) :=
  if hp.size = 0 then some (none, hp)
  else do
    let hp := { hp with size := hp.size - 1 }
    let ent := hp.heap 0
    let hp := { hp with heap := Function.update hp.heap 0 (hp.heap hp.size.toNat) }
    let hp ← downheap mac fuel 0 1 2 hp
    return (ent, hp)

end Heap

end LinkProxy.Route
