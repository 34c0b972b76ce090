import LinkProxy.Foundations.Transition
import LinkProxy.Gossip.Timestamps

/-!
# Broadcasts and receptions side by side

`Link_State_Broadcast` is a signal handler and takes no lock: while it goes through the membership
list, a thread of the same proxy can be in the loop of `Link_State`, and what the two share is the
timestamps. Here the two functions are cut into steps, one for each record that is written and one
for each record that is read, which take the timestamp under its mutex, and one for each `rio_write`
of the packet. `Mesh` is the state of any number of proxies that are connected by channels in order,
and its steps are those of the proxies in any order (`Mesh.exec`).

A proxy runs one broadcast at a time, for the signal is blocked in its handler, and one loop of
`Link_State` at a time, for that is between `writeBegin` and `writeEnd`. When the steps of one
function are not mixed with others they do what the function does (`linkStateBuffer_eq_foldl`,
`Mesh.exec_records`).
-/

namespace LinkProxy.Gossip

open Bytes Wire Peers

/-! ## The records of a broadcast, one by one -/

/-- A record that a broadcast writes: the edge to a member, the edge back from it, and the edge
from it to another member. -/
inductive Row where
  | out (pp : Ptr)
  | back (pp : Ptr)
  | other (pp tmp : Ptr)
  deriving DecidableEq

/-- The edge of a record, with the timestamps as they are when it is written. -/
def Row.edge (linkState : LinkState) (timestamp : Timespec) (m : Members) : Row → Edge
  | .out pp => ⟨timestamp, linkState, (m.peer pp).ls⟩
  | .back pp => ⟨timestamp, (m.peer pp).ls, linkState⟩
  | .other pp tmp => ⟨(m.peer pp).timestamp, (m.peer pp).ls, (m.peer tmp).ls⟩

/-- The records in the order of the passes over the membership list. -/
def rows (order : List Ptr) : List Row :=
  order.map Row.out ++ order.flatMap fun pp => .back pp :: (order.filter (· ≠ pp)).map (.other pp)

/-- The member that a record is about, the first one if there are two. -/
def Row.member : Row → Ptr
  | .out pp => pp
  | .back pp => pp
  | .other pp _ => pp

section

variable (dm : DataModel) (linkState : LinkState) (timestamp : Timespec) (m : Members)

/-- One pass: the record of an edge back to the local proxy gets the timestamp of the member first,
and is then overwritten. -/
def Row.write (c : Cursor) (r : Row) : Cursor :=
  let c := match r with
    | .back pp => c.putID dm (m.peer pp).timestamp
    | _ => c
  c.putRecord dm (r.edge linkState timestamp m)

theorem map_edge_rows : (rows m.order).map (Row.edge linkState timestamp m) =
    edges linkState timestamp m := by
  simp only [rows, edges, List.map_append, List.map_map, List.map_flatMap, List.map_cons]
  rfl

theorem mem_of_mem_rows {order : List Ptr} {r : Row} (hr : r ∈ rows order) : r.member ∈ order := by
  simp only [rows, List.mem_append, List.mem_map, List.mem_flatMap, List.mem_cons] at hr
  rcases hr with ⟨pp, hpp, rfl⟩ | ⟨pp, hpp, rfl | ⟨tmp, -, rfl⟩⟩
  · exact hpp
  · exact hpp
  · exact hpp

theorem foldl_putOthers (pp : Ptr) (order : List Ptr) (c : Cursor) :
    order.foldl (Cursor.putOthers dm m pp) c =
      ((order.filter (· ≠ pp)).map (Row.other pp)).foldl (Row.write dm linkState timestamp m) c := by
  induction order generalizing c with
  | nil => rfl
  | cons tmp order ih =>
    rw [List.foldl_cons, ih, Cursor.putOthers]
    by_cases h : pp = tmp
    · simp [h]
    · rw [if_neg h, List.filter_cons_of_pos (by simpa using Ne.symm h)]
      rfl

/-- **Without interference the passes write the packet of `Link_State_Broadcast`.** -/
theorem linkStateBuffer_eq_foldl (mem : Buf) (h : m.order ≠ []) :
    linkStateBuffer dm linkState timestamp m mem = some ((rows m.order).foldl
      (Row.write dm linkState timestamp m) (.putHead dm linkState m ⟨mem, 0⟩)) := by
  have hneighbor : Cursor.putNeighbor dm linkState timestamp m = fun c pp =>
      (Row.back pp :: (m.order.filter (· ≠ pp)).map (.other pp)).foldl
        (Row.write dm linkState timestamp m) c := by
    funext c pp
    rw [Cursor.putNeighbor, List.foldl_cons, foldl_putOthers dm linkState timestamp]
    rfl
  rw [linkStateBuffer, if_neg h, rows, List.foldl_append, List.foldl_map, List.foldl_flatMap,
    ← hneighbor]
  rfl

variable {dm linkState timestamp m}

/-- A pass writes the record of its edge. -/
theorem Cursor.Wrote.row {c : Cursor} {l : List UInt8} (h : c.Wrote l) (r : Row) :
    (r.write dm linkState timestamp m c).Wrote
      (l ++ recordBytes dm [r.edge linkState timestamp m]) := by
  cases r with
  | out pp => exact h.putRecord dm _
  | back pp => exact (h.putID dm _).putRecord dm _
  | other pp tmp => exact h.putRecord dm _

end

/-! ## The state of the proxies -/

/-- A broadcast in `Link_State_Broadcast`: its time, the buffer and the pointer into it, the records
that are still to be written, and the members that the packet is still to be sent to. -/
structure Round where
  timestamp : Timespec
  cursor : Cursor
  rows : List Row
  unsent : List Ptr

/-- A payload in the loop of `Link_State`: the pointer and the number of records that are left. -/
structure Reading where
  data : Buf
  ptr : ℕ
  left : ℕ

/-- A proxy. -/
structure Node where
  members : Members
  round : Option Round
  reading : Option Reading

/-- The proxies by their addresses, the packets between two of them that have not been read, the
times that the clocks of the broadcasts have shown, and the links that were closed because
`Link_State` had returned `-1`. -/
structure Mesh where
  node : MAC → Node
  channel : MAC × MAC → List (List UInt8)
  said : MAC → List Timespec
  severed : List (MAC × MAC)

/-- Change one proxy. -/
def Mesh.set (s : Mesh) (a : MAC) (x : Node) : Mesh := { s with node := Function.update s.node a x }

/-- The steps of the proxies: the alarm at a time, with an allocated buffer; a record; a `rio_write`
to a member; the end of the broadcast; the start of `Link_State` on a packet of a proxy, with an
allocated buffer; a record of it; and its end. -/
inductive Act where
  | alarm (a : MAC) (t : Timespec) (mem : Buf)
  | write (a : MAC)
  | send (a : MAC)
  | release (a : MAC)
  | accept (a b : MAC) (mem : Buf)
  | record (b : MAC)
  | finish (b : MAC)

/-- The proxy that takes a step. -/
def Act.actor : Act → MAC
  | .alarm a _ _ => a
  | .write a => a
  | .send a => a
  | .release a => a
  | .accept _ b _ => b
  | .record b => b
  | .finish b => b

section

variable (dm : DataModel) (linkState : MAC → LinkState) (net : MAC → Network)

/-- `Link_State_Broadcast` up to its loops. -/
def Mesh.alarm (s : Mesh) (a : MAC) (t : Timespec) (mem : Buf) : Option Mesh :=
  let x := s.node a
  match x.round with
  | some _ => none
  | none =>
    if x.members.order = [] then some s
    else
      let c := Cursor.putHead dm (linkState a) x.members ⟨mem, 0⟩
      some { s.set a { x with round := some ⟨t, c, Gossip.rows x.members.order, x.members.order⟩ } with
        said := Function.update s.said a (t :: s.said a) }

/-- A pass of the loops that write the records. -/
def Mesh.write (s : Mesh) (a : MAC) : Option Mesh :=
  let x := s.node a
  match x.round with
  | some ⟨t, c, r :: rs, unsent⟩ =>
    some (s.set a { x with round := some ⟨t, r.write dm (linkState a) t x.members c, rs, unsent⟩ })
  | _ => none

/-- A pass of the loop that sends the packet. -/
def Mesh.send (s : Mesh) (a : MAC) : Option Mesh :=
  let x := s.node a
  match x.round with
  | some ⟨t, c, [], pp :: unsent⟩ =>
    let link := (a, x.members.key pp)
    let packet := slice c.mem 0 (4 + (ntohs (ldProxyHeader c.mem 0).length).toNat)
    some { s.set a { x with round := some ⟨t, c, [], unsent⟩ } with
      channel := Function.update s.channel link (s.channel link ++ [packet]) }
  | _ => none

/-- The end of the broadcast. -/
def Mesh.release (s : Mesh) (a : MAC) : Option Mesh :=
  let x := s.node a
  match x.round with
  | some ⟨_, _, [], []⟩ => some (s.set a { x with round := none })
  | _ => none

/-- `Link_State` up to its loop, on the payload that `eth_handler` has read behind a header. -/
def Mesh.accept (s : Mesh) (a b : MAC) (mem : Buf) : Option Mesh :=
  let x := s.node b
  match x.reading, s.channel (a, b) with
  | none, packet :: packets =>
    let hdr := ldProxyHeader (bufOf packet mem) 0
    let length := ntohs hdr.length
    let data := bufOf ((packet.drop 4).take length.toNat) mem
    let s := { s with channel := Function.update s.channel (a, b) packets }
    if ntohs hdr.type ≠ PacketType.linkState.code then none
    else if !lengthOk dm (announced data) length then
      some { s with severed := (a, b) :: s.severed }
    else if (ldLinkState data 2).tapMAC = (linkState b).tapMAC then some s
    else do
      let m ← receiveSource (net b) (ldLinkState data 2) x.members
      let N := announced data
      some (s.set b { x with
        members := m
        reading := some ⟨data, 2 + linkStateSourceSize, (N * N + N).toNat⟩ })
  | _, _ => none

/-- A pass of the loop over the records of a payload. -/
def Mesh.record (s : Mesh) (b : MAC) : Option Mesh :=
  let x := s.node b
  match x.reading with
  | some ⟨data, ptr, n + 1⟩ => do
    let m ← receiveRecord dm (linkState b) (net b) data ptr x.members
    some (s.set b { x with members := m, reading := some ⟨data, ptr + recordSize dm, n⟩ })
  | _ => none

/-- The end of the loop. -/
def Mesh.finish (s : Mesh) (b : MAC) : Option Mesh :=
  let x := s.node b
  match x.reading with
  | some ⟨_, _, 0⟩ => some (s.set b { x with reading := none })
  | _ => none

/-- One step. -/
def Mesh.exec (s : Mesh) : Act → Option Mesh
  | .alarm a t mem => s.alarm dm linkState a t mem
  | .write a => s.write dm linkState a
  | .send a => s.send a
  | .release a => s.release a
  | .accept a b mem => s.accept dm linkState net a b mem
  | .record b => s.record dm linkState net b
  | .finish b => s.finish b

/-- Proxies whose membership lists are given, with nothing under way. -/
def Mesh.start (members : MAC → Members) : Mesh where
  node a := ⟨members a, none, none⟩
  channel _ := []
  said _ := []
  severed := []

/-- The proxies of a set take steps in any order. -/
def meshSystem (proxies : Set MAC) (members : MAC → Members) : TransitionSystem Mesh Act where
  init s := s = .start members
  step s act s' := act.actor ∈ proxies ∧ s.exec dm linkState net act = some s'

/-- **Without interference the steps of a receiver do what `Link_State` does with the records.** -/
theorem Mesh.exec_records {b : MAC} {data : Buf} (n : ℕ) {s : Mesh} {l l' : Loop}
    (hs : (s.node b).members = l.members ∧ (s.node b).reading = some ⟨data, l.ptr, n⟩)
    (hrun : recordLoop dm (linkState b) (net b) data n l = (l', true)) :
    ∃ s', (List.replicate n (.record b)).foldlM (Mesh.exec dm linkState net) s = some s' ∧
      (s'.node b).members = l'.members ∧ (s'.node b).reading = some ⟨data, l'.ptr, 0⟩ := by
  induction n generalizing s l with
  | zero =>
    obtain ⟨rfl, -⟩ := Prod.mk.inj hrun
    exact ⟨s, rfl, hs⟩
  | succ n ih =>
    obtain ⟨hmembers, hreading⟩ := hs
    rw [recordLoop] at hrun
    cases hr : receiveRecord dm (linkState b) (net b) data l.ptr l.members with
    | none => simp [hr] at hrun
    | some m =>
      simp only [hr] at hrun
      have hstep : s.exec dm linkState net (.record b) = some (s.set b { s.node b with
          members := m, reading := some ⟨data, l.ptr + recordSize dm, n⟩ }) := by
        rw [exec, record]
        simp only [hreading, hmembers, hr]
        rfl
      obtain ⟨s', hrest, hend⟩ := @ih (s.set b { s.node b with
        members := m, reading := some ⟨data, l.ptr + recordSize dm, n⟩ }) ⟨_, m, _⟩
        (by simp [Mesh.set]) hrun
      refine ⟨s', ?_, hend⟩
      rw [List.replicate_succ, List.foldlM_cons, hstep]
      exact hrest

end

end LinkProxy.Gossip
