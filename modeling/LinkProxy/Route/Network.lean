import LinkProxy.Gossip.Receive

/-!
# The network graph

`network` of `route.c`: a hash table of vertices, each with a hash table of edges. Vertices and
edges are objects that are known by their addresses; an edge points to a vertex, which need not be
the one that `network` has for its address, nor any that it has. A table is the list of its elements
in the order of `HASH_ITER`, and a lookup finds the element with a key; `Uthash.Rep` is the way from
such a list to the links of `uthash.h`.

`evaluate_record` enters a link-state record, with the objects that `malloc` returns as arguments.
`remove_from_network` returns right after its lookup, whatever this has found: its `return` is not
under the `if`.
-/

namespace LinkProxy.Route

open Bytes Wire

/-- A `graph *` that is not `NULL`. -/
abbrev VertexPtr := ℕ

/-- An `edge *` that is not `NULL`. -/
abbrev EdgePtr := ℕ

/-- `struct graph`. -/
structure Vertex where
  ls : LinkState
  nbrs : List EdgePtr

/-- `struct edge`. -/
structure Edge where
  node : VertexPtr
  timestamp : Timespec

/-- `network`, and the contents of all vertices and edges. -/
structure Network where
  order : List VertexPtr
  vertex : VertexPtr → Vertex
  edge : EdgePtr → Edge

namespace Network

/-- The key of a vertex. -/
def mac (g : Network) (v : VertexPtr) : MAC := (g.vertex v).ls.tapMAC

/-- `HASH_FIND(hh, network, mac, ETH_ALEN, v)`. -/
def find (g : Network) (mac : MAC) : Option VertexPtr := g.order.find? fun v => g.mac v == mac

/-- `HASH_FIND(hh, v->nbrs, mac, ETH_ALEN, e)`. The key of an edge is in the vertex it points to. -/
def findNbr (g : Network) (v : VertexPtr) (mac : MAC) : Option EdgePtr :=
  (g.vertex v).nbrs.find? fun e => g.mac (g.edge e).node == mac

/-- `HASH_CNT(hh, network)`. -/
def count (g : Network) : ℕ := g.order.length

/-- Assign to a vertex. -/
def setVertex (v : VertexPtr) (x : Vertex) (g : Network) : Network :=
  { g with vertex := Function.update g.vertex v x }

/-- Assign to an edge. -/
def setEdge (e : EdgePtr) (x : Edge) (g : Network) : Network :=
  { g with edge := Function.update g.edge e x }

/-- `HASH_ADD(hh, v->nbrs, node->ls.tapMAC, ETH_ALEN, e)`. -/
def addNbr (v : VertexPtr) (e : EdgePtr) (g : Network) : Network :=
  g.setVertex v { g.vertex v with nbrs := (g.vertex v).nbrs ++ [e] }

/-- The objects that `malloc` returns in a call of `evaluate_record`: `v`, `e` and `e->node`. -/
structure Fresh where
  v : VertexPtr
  e : EdgePtr
  node : VertexPtr

/-- The timestamp of a record. -/
def recordTime (dm : DataModel) (lsr : LinkStateRecord) : Timespec :=
  ⟨dm.toLong (ntohl lsr.sec), dm.toLong (ntohl lsr.nsec)⟩

/-- `evaluate_record`, on the graph. A vertex that is found or allocated for the second proxy loses
its neighbours if the first proxy is new, and is not entered in `network`. -/
def evaluateRecord (dm : DataModel) (lsr : LinkStateRecord) (new : Fresh) (g : Network) : Network :=
  match g.find lsr.proxy1.tapMAC with
  | none =>
    let g := g.setVertex new.v ⟨lsr.proxy1, []⟩
    let node := (g.find lsr.proxy2.tapMAC).getD new.node
    let g := g.setVertex node ⟨lsr.proxy2, []⟩
    let g := { g with order := g.order ++ [new.v] }
    (g.setEdge new.e ⟨node, recordTime dm lsr⟩).addNbr new.v new.e
  | some v =>
    match g.findNbr v lsr.proxy2.tapMAC with
    | none =>
      let node := (g.find lsr.proxy2.tapMAC).getD new.node
      let g := g.setVertex node { g.vertex node with ls := lsr.proxy2 }
      (g.setEdge new.e ⟨node, recordTime dm lsr⟩).addNbr v new.e
    | some e => g.setEdge e { g.edge e with timestamp := recordTime dm lsr }

end Network

end LinkProxy.Route
