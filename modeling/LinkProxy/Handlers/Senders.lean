import LinkProxy.Handlers.Framing
import LinkProxy.Gossip.Broadcast

/-!
# Every packet a proxy sends

The senders build their packets by hand, each with its own idea of how long the packet is: the join
exchange and `leave_handler` use the size of a structure, `Quit` and the probes a constant, and
`tap_handler` and `Link_State_Broadcast` the length they have put in the header. `Packet.write` is
the call of `rio_write` that each of them makes.

A packet delimits itself when the number of bytes written is the length in its header plus the size
of the header. This is so for all of them, except for LEAVE packets on LP64 (`selfDelimiting_iff`):
their structure contains a `struct timespec` of 16 bytes there, and the header still announces
`QUIT_LEN`.
-/

namespace LinkProxy.Handlers

open Bytes Rio Wire Peers Gossip

/-- `QUIT_LEN`. -/
def quitLen : ℕ := 20

section

variable (dm : DataModel)

/-! ## LEAVE and QUIT -/

/-- `sizeof(leave_packet)`. -/
def leavePacketSize : ℕ := 4 + (4 + 2 + 6 + dm.timespecSize)

/-- The packet that `leave_handler` sends to every member. -/
def leavePacket (linkState : LinkState) (timestamp : Timespec) : List UInt8 :=
  header PacketType.leave.code (.ofNat quitLen) ++ (le 4 linkState.ipAddr.toNat ++
    (le 2 (htons linkState.listenPort).toNat ++ (linkState.tapMAC.toList ++
      (le dm.longSize (stamp timestamp.tvSec).toNat ++ le dm.longSize (stamp timestamp.tvNsec).toNat))))

/-- The packet that `Quit` forwards to every member, if the length it has received is right. -/
def quitWrite (data : Buf) (length : UInt16) : Option Write :=
  if length.toNat ≠ quitLen then none
  else some ⟨header PacketType.quit.code (.ofNat quitLen) ++ slice data 0 quitLen,
    proxyHlen + quitLen⟩

/-! ## Probes -/

/-- The bytes between the header of a `probe_req` and its `ID`, which is aligned to a `long`. -/
def probePadding : DataModel → ℕ
  | .ilp32 => 0
  | .lp64 => 4

/-- A `probe_req`, with what happens to be in its padding. -/
def probeReq (type : PacketType) (padding : Vector UInt8 4) (ID : List UInt8) : List UInt8 :=
  header type.code 8 ++ (padding.toList.take (probePadding dm) ++ ID)

/-! ## All senders -/

/-- A packet to be sent, with the data that its sender reads. -/
inductive Packet
  | joinClient (linkState : LinkState) (numNbrs : UInt16)
  | joinServer (linkState : LinkState) (numNbrs : UInt16)
  | data (size : Int) (frame : List UInt8)
  | leave (linkState : LinkState) (timestamp : Timespec)
  | quit (data : Buf) (length : UInt16)
  | linkState (linkState : LinkState) (timestamp : Timespec) (m : Members) (mem : Buf)
  | bandwidthProbeRequest (padding : Vector UInt8 4) (probeTs : Timespec)
  | bandwidthProbeResponse (padding : Vector UInt8 4) (data : Buf)

/-- The call of `rio_write` for a packet, if its sender makes one. -/
def Packet.write : Packet → Option Write
  | .joinClient ls numNbrs => some ⟨(joinPacket ls numNbrs).bytes, initialJoinSize⟩
  | .joinServer ls numNbrs => some ⟨(joinReply ls numNbrs).bytes, initialJoinSize⟩
  | .data size frame => if size ≤ 0 then none else some (tapWrite size frame)
  | .leave ls timestamp => some ⟨leavePacket dm ls timestamp, leavePacketSize dm⟩
  | .quit payload length => quitWrite payload length
  | .linkState ls timestamp m mem =>
    (linkStateBuffer dm ls timestamp m mem).map fun c =>
      let n := proxyHlen + (linkStateLength dm m).toNat
      ⟨slice c.mem 0 n, n⟩
  | .bandwidthProbeRequest padding probeTs =>
    some ⟨probeReq dm .bandwidthProbeRequest padding (le dm.longSize (stamp probeTs.tvSec).toNat ++
      le dm.longSize (stamp probeTs.tvNsec).toNat), 12⟩
  | .bandwidthProbeResponse padding payload =>
    some ⟨probeReq dm .bandwidthProbeResponse padding (slice payload 0 dm.timespecSize), 12⟩

end

/-- The bytes written are the header and as many bytes as it announces. -/
def SelfDelimiting (w : Write) : Prop := w.n = proxyHlen + (lengthField w.buf).toNat

/-- The packets of `leave_handler`. -/
def Packet.IsLeave : Packet → Prop
  | leave _ _ => True
  | _ => False

theorem selfDelimiting_header {type length : UInt16} {payload : List UInt8} {n : ℕ} :
    SelfDelimiting ⟨header type length ++ payload, n⟩ ↔ n = 4 + length.toNat := by
  rw [SelfDelimiting, lengthField_header_append]
  rfl

theorem selfDelimiting_join (ls : LinkState) (numNbrs : UInt16) :
    SelfDelimiting ⟨(joinPacket ls numNbrs).bytes, initialJoinSize⟩ :=
  selfDelimiting_header.2 rfl

theorem selfDelimiting_tapWrite (size : Int) (frame : List UInt8) :
    SelfDelimiting (tapWrite size frame) := by
  rw [tapWrite, tapBuffer, List.append_assoc]
  exact selfDelimiting_header.2 rfl

/-- The structure of a LEAVE packet has the size that its header announces only on ILP32. -/
theorem selfDelimiting_leave (dm : DataModel) (ls : LinkState) (timestamp : Timespec) :
    SelfDelimiting ⟨leavePacket dm ls timestamp, leavePacketSize dm⟩ ↔ dm ≠ .lp64 := by
  rw [leavePacket, selfDelimiting_header]
  cases dm <;> decide

theorem selfDelimiting_probe (dm : DataModel) (type : PacketType) (padding : Vector UInt8 4)
    (ID : List UInt8) : SelfDelimiting ⟨probeReq dm type padding ID, 12⟩ :=
  selfDelimiting_header.2 rfl

theorem selfDelimiting_linkState {dm : DataModel} {ls : LinkState} {timestamp : Timespec}
    {m : Members} {mem : Buf} {c : Cursor} (hc : linkStateBuffer dm ls timestamp m mem = some c) :
    SelfDelimiting ⟨slice c.mem 0 (proxyHlen + (linkStateLength dm m).toNat),
      proxyHlen + (linkStateLength dm m).toNat⟩ := by
  have hwrote := (linkStateBuffer_wrote dm ls timestamp m mem hc).mem
  rw [linkStateHead, List.append_assoc, holds_append] at hwrote
  have hhead : slice c.mem 0 4 = header PacketType.linkState.code (linkStateLength dm m) := hwrote.1
  rw [proxyHlen, slice_add, hhead]
  exact selfDelimiting_header.2 rfl

/-- **A packet delimits itself unless it is a LEAVE packet on LP64.** -/
theorem selfDelimiting_iff (dm : DataModel) (p : Packet) {w : Write} (h : p.write dm = some w) :
    SelfDelimiting w ↔ ¬ (p.IsLeave ∧ dm = .lp64) := by
  cases p with
  | joinClient ls numNbrs =>
    obtain rfl := Option.some.inj h
    simpa [Packet.IsLeave] using selfDelimiting_join ls numNbrs
  | joinServer ls numNbrs =>
    obtain rfl := Option.some.inj h
    simpa [Packet.IsLeave, joinReply] using selfDelimiting_join _ numNbrs
  | data size frame =>
    rw [Packet.write] at h
    split_ifs at h
    obtain rfl := Option.some.inj h
    simpa [Packet.IsLeave] using selfDelimiting_tapWrite size frame
  | leave ls timestamp =>
    obtain rfl := Option.some.inj h
    simpa [Packet.IsLeave] using selfDelimiting_leave dm ls timestamp
  | quit data length =>
    rw [Packet.write, quitWrite] at h
    split_ifs at h
    obtain rfl := Option.some.inj h
    simp only [Packet.IsLeave, false_and, not_false_eq_true, iff_true]
    exact selfDelimiting_header.2 rfl
  | linkState ls timestamp m mem =>
    obtain ⟨c, hc, rfl⟩ := Option.map_eq_some_iff.1 h
    simpa [Packet.IsLeave] using selfDelimiting_linkState hc
  | bandwidthProbeRequest padding probeTs =>
    obtain rfl := Option.some.inj h
    simpa [Packet.IsLeave] using selfDelimiting_probe dm _ padding _
  | bandwidthProbeResponse padding data =>
    obtain rfl := Option.some.inj h
    simpa [Packet.IsLeave] using selfDelimiting_probe dm _ padding _

/-- A QUIT packet that is forwarded. -/
theorem selfDelimiting_iff_quit : ∃ w, (Packet.quit (fun _ => 0) 20).write .lp64 = some w ∧
    SelfDelimiting w :=
  ⟨_, rfl, (selfDelimiting_iff .lp64 (.quit (fun _ => 0) 20) rfl).2 fun h => h.1⟩

/-- The LEAVE packet of a proxy on LP64 has 32 bytes, and its header announces 20. -/
theorem leave_not_selfDelimiting : ∃ (p : Packet) (w : Write), p.write .lp64 = some w ∧ w.n = 32 ∧
    lengthField w.buf = 20 ∧ ¬ SelfDelimiting w :=
  ⟨.leave ⟨0, 0, .replicate 6 1, .replicate 6 2⟩ ⟨0, 0⟩, _, rfl, rfl,
    lengthField_header_append _ _ _, by
      rw [selfDelimiting_leave]
      decide⟩

end LinkProxy.Handlers
