import LinkProxy.Peers.Members

/-!
# The link-state packet

`Link_State_Broadcast` allocates a buffer and writes a link-state packet into it through a pointer
that it advances by the sizes of the structures (`Cursor`): the header, the number `N` of
neighbours, the local `link_state`, `N` again, and then `N(N+1)` records in three passes over the
membership list. What the passes are meant to say is a list of edges (`edges`), each with the time
it is stamped with. The buffer then holds the packet of these edges (`linkStateBuffer_holds`).
-/

namespace LinkProxy.Gossip

open Bytes Wire Peers

/-! ## Writing through a pointer -/

/-- Memory and a pointer into it. -/
structure Cursor where
  mem : Buf
  ptr : ℕ

/-- Memory after bytes have been stored at an offset. -/
def store (d : Buf) (off : ℕ) (l : List UInt8) : Buf := fun i =>
  if h : off ≤ i ∧ i - off < l.length then l.get ⟨i - off, h.2⟩ else d i

theorem slice_store (d : Buf) (off : ℕ) (l : List UInt8) :
    slice (store d off l) off l.length = l := by
  simp [slice, store]

theorem slice_store_before (d : Buf) {off n : ℕ} (l : List UInt8) (h : n ≤ off) :
    slice (store d off l) 0 n = slice d 0 n := by
  unfold slice
  congr 1
  funext i
  rw [store, dif_neg (by omega)]

/-- Store at the pointer. -/
def Cursor.put (c : Cursor) (l : List UInt8) : Cursor := ⟨store c.mem c.ptr l, c.ptr⟩

/-- Advance the pointer. -/
def Cursor.advance (c : Cursor) (n : ℕ) : Cursor := ⟨c.mem, c.ptr + n⟩

/-- What has been written between the start of the buffer and the pointer. -/
structure Cursor.Wrote (c : Cursor) (l : List UInt8) : Prop where
  ptr : c.ptr = l.length
  mem : Holds c.mem 0 l

/-- A store that is not followed by an advance of the pointer leaves what was written before. -/
theorem Cursor.Wrote.put {c : Cursor} {l : List UInt8} (h : c.Wrote l) (m : List UInt8) :
    (c.put m).Wrote l :=
  ⟨h.ptr, by
    have := h.mem
    unfold Holds at *
    rw [Cursor.put, h.ptr, slice_store_before _ _ le_rfl, this]⟩

theorem Cursor.Wrote.append {c : Cursor} {l m : List UInt8} (h : c.Wrote l) {n : ℕ}
    (hn : m.length = n) : ((c.put m).advance n).Wrote (l ++ m) := by
  refine ⟨by simp [Cursor.put, Cursor.advance, h.ptr, hn], holds_append.2 ⟨(h.put m).mem, ?_⟩⟩
  unfold Holds
  rw [Nat.zero_add, ← h.ptr]
  exact slice_store c.mem c.ptr m

/-! ## Edges and records -/

/-- An edge of the network with the time its record is stamped with. -/
structure Edge where
  time : Timespec
  proxy1 : LinkState
  proxy2 : LinkState
  deriving DecidableEq

/-- The record of an edge. Its weight is `ntohl(1)` converted to `float`: `16777216.0`, which has
these bits. -/
def Edge.record (e : Edge) : LinkStateRecord where
  sec := stamp e.time.tvSec
  nsec := stamp e.time.tvNsec
  proxy1 := e.proxy1
  proxy2 := e.proxy2
  linkWeight := 0x4B800000

/-- The edges of a broadcast, in the order of their records: from the local proxy to its neighbours,
and then for every neighbour the edge back to the local proxy and those to the other neighbours. -/
def edges (linkState : LinkState) (timestamp : Timespec) (m : Members) : List Edge :=
  m.order.map (fun pp => ⟨timestamp, linkState, (m.peer pp).ls⟩) ++
    m.order.flatMap fun pp => ⟨timestamp, (m.peer pp).ls, linkState⟩ ::
      (m.order.filter (· ≠ pp)).map fun tmp =>
        ⟨(m.peer pp).timestamp, (m.peer pp).ls, (m.peer tmp).ls⟩

/-! ## The buffer -/

section

variable (dm : DataModel) (linkState : LinkState) (timestamp : Timespec) (m : Members)

/-- Write a record at the pointer and advance it. -/
def Cursor.putRecord (c : Cursor) (e : Edge) : Cursor :=
  (c.put (e.record.bytes dm)).advance (recordSize dm)

/-- Assign the fields of `ID` of the record at the pointer. -/
def Cursor.putID (c : Cursor) (t : Timespec) : Cursor :=
  c.put (le dm.longSize (stamp t.tvSec).toNat ++ le dm.longSize (stamp t.tvNsec).toNat)

/-- The number of neighbours as the packet carries it. -/
def numNbrs : UInt16 := .ofNat m.count

/-- The length in the header, truncated to 16 bits by `htons`. -/
def linkStateLength : UInt16 :=
  .ofNat (2 + linkStateSourceSize + (numNbrs m).toNat * ((numNbrs m).toNat + 1) * recordSize dm)

/-- The header, the numbers of neighbours and the local proxy. -/
def Cursor.putHead (c : Cursor) : Cursor :=
  let c := (c.put (header PacketType.linkState.code (linkStateLength dm m))).advance 4
  let c := (c.put (le 2 (htons (numNbrs m)).toNat)).advance 2
  let c := (c.put linkState.bytes).advance linkStateSize
  (c.put (le 2 (htons (numNbrs m)).toNat)).advance 2

/-- The inner loop, over the neighbours other than `pp`. -/
def Cursor.putOthers (pp : Ptr) (c : Cursor) (tmp : Ptr) : Cursor :=
  if pp = tmp then c
  else c.putRecord dm ⟨(m.peer pp).timestamp, (m.peer pp).ls, (m.peer tmp).ls⟩

/-- The body of the loop over the neighbours. The edge back to the local proxy gets the timestamp of
the neighbour first, and then that of the local proxy. -/
def Cursor.putNeighbor (c : Cursor) (pp : Ptr) : Cursor :=
  let c := c.putID dm (m.peer pp).timestamp
  let c := c.putRecord dm ⟨timestamp, (m.peer pp).ls, linkState⟩
  m.order.foldl (Cursor.putOthers dm m pp) c

/-- What `Link_State_Broadcast` writes into the buffer it has allocated, whose first contents are
`mem`; `none` when there are no neighbours. -/
def linkStateBuffer (mem : Buf) : Option Cursor :=
  if m.order = [] then none
  else
    let c := Cursor.putHead dm linkState m ⟨mem, 0⟩
    let c := m.order.foldl (fun c pp => c.putRecord dm ⟨timestamp, linkState, (m.peer pp).ls⟩) c
    some (m.order.foldl (Cursor.putNeighbor dm linkState timestamp m) c)

/-- The bytes that precede the records. -/
def linkStateHead : List UInt8 :=
  header PacketType.linkState.code (linkStateLength dm m) ++ (le 2 (htons (numNbrs m)).toNat ++
    (linkState.bytes ++ le 2 (htons (numNbrs m)).toNat))

/-- The bytes of records, one after the other. -/
def recordBytes (es : List Edge) : List UInt8 := es.flatMap fun e => e.record.bytes dm

end

section

variable (dm : DataModel) (linkState : LinkState) (timestamp : Timespec) (m : Members) {c : Cursor}
  {l : List UInt8}

theorem recordBytes_append (es fs : List Edge) :
    recordBytes dm (es ++ fs) = recordBytes dm es ++ recordBytes dm fs := List.flatMap_append

theorem Cursor.Wrote.putID (t : Timespec) (h : c.Wrote l) : (c.putID dm t).Wrote l := h.put _

theorem Cursor.Wrote.putRecord (e : Edge) (h : c.Wrote l) :
    (c.putRecord dm e).Wrote (l ++ recordBytes dm [e]) := by
  rw [recordBytes, List.flatMap_singleton]
  exact h.append (LinkStateRecord.length_bytes dm e.record)

/-- A loop that writes some edges in each of its passes writes all of them. -/
theorem Cursor.Wrote.foldl {α : Type*} {f : Cursor → α → Cursor} {g : α → List Edge}
    (hf : ∀ c l a, Cursor.Wrote c l → (f c a).Wrote (l ++ recordBytes dm (g a))) (as : List α)
    (h : c.Wrote l) : (as.foldl f c).Wrote (l ++ recordBytes dm (as.flatMap g)) := by
  induction as generalizing c l with
  | nil => simpa [recordBytes] using h
  | cons a as ih =>
    have h' := ih (hf c l a h)
    rwa [List.append_assoc, ← recordBytes_append] at h'

theorem Cursor.Wrote.putOthers (pp tmp : Ptr) (h : c.Wrote l) :
    (c.putOthers dm m pp tmp).Wrote (l ++ recordBytes dm (if tmp = pp then [] else
      [⟨(m.peer pp).timestamp, (m.peer pp).ls, (m.peer tmp).ls⟩])) := by
  unfold Cursor.putOthers
  by_cases heq : pp = tmp
  · simpa [heq, recordBytes] using h
  · simpa [heq, Ne.symm heq] using h.putRecord dm _

/-- The passes of the inner loop that write are those over the other neighbours. -/
theorem flatMap_others (pp : Ptr) (f : Ptr → Edge) (ps : List Ptr) :
    ps.flatMap (fun tmp => if tmp = pp then [] else [f tmp]) = (ps.filter (· ≠ pp)).map f := by
  induction ps with
  | nil => rfl
  | cons tmp ps ih => by_cases h : tmp = pp <;> simp [h, ih]

theorem Cursor.Wrote.putNeighbor (pp : Ptr) (h : c.Wrote l) :
    (c.putNeighbor dm linkState timestamp m pp).Wrote
      (l ++ recordBytes dm (⟨timestamp, (m.peer pp).ls, linkState⟩ ::
        (m.order.filter (· ≠ pp)).map fun tmp =>
          ⟨(m.peer pp).timestamp, (m.peer pp).ls, (m.peer tmp).ls⟩)) := by
  -- what is first assigned to `ID` is overwritten with the record
  have back := (h.putID dm (m.peer pp).timestamp).putRecord dm ⟨timestamp, (m.peer pp).ls, linkState⟩
  have others := Cursor.Wrote.foldl dm (fun c l tmp hc => hc.putOthers dm m pp tmp) m.order back
  rwa [flatMap_others, List.append_assoc, ← recordBytes_append] at others

theorem Cursor.Wrote.putHead (mem : Buf) :
    (Cursor.putHead dm linkState m ⟨mem, 0⟩).Wrote (linkStateHead dm linkState m) := by
  have start : Cursor.Wrote ⟨mem, 0⟩ [] := ⟨rfl, holds_nil mem 0⟩
  have head := start.append (length_header PacketType.linkState.code (linkStateLength dm m))
  have source := (head.append (length_le 2 (htons (numNbrs m)).toNat)).append
    (LinkState.length_bytes linkState)
  have last := source.append (length_le 2 (htons (numNbrs m)).toNat)
  rw [List.nil_append, List.append_assoc, List.append_assoc] at last
  exact last

/-- **The buffer holds the header and the records of the edges**, and the pointer stands behind
them. -/
theorem linkStateBuffer_wrote (mem : Buf) (h : linkStateBuffer dm linkState timestamp m mem = some c) :
    c.Wrote (linkStateHead dm linkState m ++ recordBytes dm (edges linkState timestamp m)) := by
  rw [linkStateBuffer] at h
  split_ifs at h
  obtain rfl := Option.some.inj h
  have first := Cursor.Wrote.foldl dm (g := fun pp => [⟨timestamp, linkState, (m.peer pp).ls⟩])
    (fun c l pp hc => hc.putRecord dm _) m.order (Cursor.Wrote.putHead dm linkState m mem)
  have second := Cursor.Wrote.foldl dm (fun c l pp hc => hc.putNeighbor dm linkState timestamp m pp)
    m.order first
  rwa [← List.map_eq_flatMap, List.append_assoc, ← recordBytes_append] at second

end

end LinkProxy.Gossip
