import LinkProxy.Rio.Writer
import LinkProxy.Handlers.EthHandler

/-!
# Packets from one proxy to another

A proxy sends its join packet and then other packets on one connection, each by one `rio_write`;
Ethernet frames come from the tap device, one frame per `read`, and are encapsulated by
`tap_handler` (`tapPacket`). The receiving proxy consumes the join packet by `rio_readnb` and then
runs `eth_handler` on the same `rio_t`.

The bytes on the wire are the packets, one after the other (`sendAll_sent`), however `write` has
cut them; and whatever the reads at the receiver make of them, the packets dispatched there are the
packets sent.
-/

namespace LinkProxy.Handlers

open Bytes Rio Wire

/-! ## Encapsulation -/

/-- The buffer of `tap_handler` after a frame of `size` bytes has been read behind the place of the
header and the header has been copied to its front. -/
def tapBuffer (size : UInt16) (frame : List UInt8) : List UInt8 :=
  header PacketType.data.code size ++ frame ++ List.replicate (ethFrameLen - frame.length) 0

/-- What `tap_handler` passes to `rio_write` after a read of `size` bytes from the tap. -/
def tapWrite (size : Int) (frame : List UInt8) : Write :=
  let length := htons (.ofInt size)
  ⟨tapBuffer (ntohs length) frame, proxyHlen + (ntohs length).toNat⟩

/-- What `tap_handler` reads from the tap and writes; `none` in place of the packet is the `exit`
after a failed read. -/
def tapPacket (rp : RioT) (w : Sys) : Option (Option (List UInt8) × RioT × Sys) := do
  let (size, frame, rp, w) ← rioRead (proxyHlen + ethFrameLen) rp w
  if size ≤ 0 then return (none, rp, w)
  return (some (tapWrite size frame).bytes, rp, w)

/-- An Ethernet frame that the tap device delivers by one `read`. -/
structure Frame (f : List UInt8) : Prop where
  pos : 0 < f.length
  le : f.length ≤ ethFrameLen

theorem Frame.payload {f : List UInt8} (h : Frame f) : Payload f :=
  ⟨h.pos, by have := h.le; simp only [ethFrameLen] at this; omega⟩

/-- What one `read` delivers is read whole, and the reader of the tap is empty again. -/
theorem rioRead_frame {rp : RioT} {w : Sys} {f : List UInt8} {fs : List (List UInt8)}
    (hv : rp.Valid) (hcnt : rp.cnt ≤ 0) (hw : w.Delivers (f :: fs)) :
    ∃ rp' w', rioRead (proxyHlen + ethFrameLen) rp w = some ((f.length : Int), f, rp', w') ∧
      rp'.Valid ∧ rp'.cnt ≤ 0 ∧ w'.Delivers fs := by
  have hlen : w.inp.length + 1 = (w.inp.length - 1) + 2 := by
    rw [hw.inp_eq]
    simp
  have hle := (hw.size f List.mem_cons_self).2
  have hfill := rioFill_deliver hcnt hw (w.inp.length - 1)
  rw [← hlen] at hfill
  have hcopied : RioT.copied ⟨f.length, 0, f ++ rp.buf.drop f.length⟩ (proxyHlen + ethFrameLen) =
      f.length := by
    rw [bufSize] at hle
    dsimp only [RioT.copied]
    split_ifs <;> omega
  refine ⟨⟨0, 0, f ++ rp.buf.drop f.length⟩, { w with inp := deliver fs }, ?_,
    (hv.refill hle).drained le_rfl, le_rfl,
    ⟨hw.errno_ne, rfl, fun c hc => hw.size c (by simp [hc])⟩⟩
  rw [rioRead_of_filled hfill, hcopied]
  simp only [RioT.advance, sub_self, le_refl, if_true, List.drop_zero, List.take_left]

/-- The length of a frame goes into the header as it is. -/
theorem tapWrite_frame {f : List UInt8} (hf : Frame f) :
    tapWrite f.length f = ⟨tapBuffer (.ofNat f.length) f, proxyHlen + f.length⟩ := by
  have hsize : UInt16.ofInt (f.length : Int) = .ofNat f.length := by
    have hlt := hf.payload.lt
    rw [UInt16.ofInt]
    congr 1
    omega
  simp only [tapWrite, ntohs_htons, hsize, hf.payload.toNat_length]

theorem bytes_tapWrite {f : List UInt8} (hf : Frame f) :
    (tapWrite f.length f).bytes = packetBytes .data f := by
  have hpkt : (packetBytes .data f).length = proxyHlen + f.length := by
    simp [packetBytes, proxyHlen]
  rw [tapWrite_frame hf, Write.bytes, tapBuffer, ← packetBytes, List.take_left' hpkt]

/-- **A frame is sent as a DATA packet**, and the reader of the tap is empty again. -/
theorem tapPacket_frame {rp : RioT} {w : Sys} {f : List UInt8} {fs : List (List UInt8)}
    (hv : rp.Valid) (hcnt : rp.cnt ≤ 0) (hw : w.Delivers (f :: fs)) (hf : Frame f) :
    ∃ rp' w', tapPacket rp w = some (some (packetBytes .data f), rp', w') ∧ rp'.Valid ∧
      rp'.cnt ≤ 0 ∧ w'.Delivers fs := by
  obtain ⟨rp', w', hread, hrest⟩ := rioRead_frame hv hcnt hw
  have hpos := hf.pos
  refine ⟨rp', w', ?_, hrest⟩
  rw [tapPacket, hread]
  simp only [Option.bind_eq_bind, Option.bind_some, show ¬ (f.length : Int) ≤ 0 by omega, if_false,
    bytes_tapWrite hf, Option.pure_def]

/-! ## The sender -/

/-- What a proxy sends on a connection: a frame from the tap, or a packet of its own. -/
inductive Outgoing
  | frame (f : List UInt8)
  | packet (type : PacketType) (payload : List UInt8)
  deriving DecidableEq

namespace Outgoing

/-- The type and the payload of the packet that is sent. -/
def content : Outgoing → PacketType × List UInt8
  | frame f => (.data, f)
  | packet type payload => (type, payload)

/-- The frame to be read from the tap, if any. -/
def fromTap : Outgoing → List (List UInt8)
  | frame f => [f]
  | packet _ _ => []

/-- Frames are of the size the tap delivers, payloads of one that the header can announce. -/
def WellFormed : Outgoing → Prop
  | frame f => Frame f
  | packet _ payload => Payload payload

theorem WellFormed.payload {o : Outgoing} (h : o.WellFormed) : Payload o.content.2 := by
  cases o with
  | frame f => exact Frame.payload h
  | packet type payload => exact h

end Outgoing

/-- One `rio_write`, if it succeeds. -/
def send (packet : List UInt8) (w : Sys) : Option Sys := do
  let (r, w) ← rioWrite packet w
  if r ≤ 0 then none else some w

/-- Send packets one after the other, reading the frames from the tap, as long as every
`rio_write` succeeds. -/
def sendAll : List Outgoing → RioT → Sys → Sys → Option Sys
  | [], _, _, w => some w
  | .frame _ :: os, tap, wt, w =>
    match tapPacket tap wt with
    | some (some packet, tap, wt) => (send packet w).bind (sendAll os tap wt)
    | _ => none
  | .packet type payload :: os, tap, wt, w =>
    (send (packetBytes type payload) w).bind (sendAll os tap wt)

theorem send_sent {packet : List UInt8} {w w' : Sys} (h : send packet w = some w') :
    w'.sent = w.sent ++ packet := by
  obtain ⟨⟨r, w₁⟩, hr, h⟩ := Option.bind_eq_some_iff.1 h
  dsimp only at h
  split_ifs at h with h0
  obtain rfl := Option.some.inj h
  exact (rioWrite_sent hr (by omega)).2

/-- **The bytes on the wire are the packets, one after the other.** -/
theorem sendAll_sent {os : List Outgoing} {tap : RioT} {wt w w' : Sys}
    (hos : ∀ o ∈ os, o.WellFormed) (hv : tap.Valid) (hcnt : tap.cnt ≤ 0)
    (hwt : wt.Delivers (os.flatMap Outgoing.fromTap)) (h : sendAll os tap wt w = some w') :
    w'.sent = w.sent ++ (os.map fun o => packetBytes o.content.1 o.content.2).flatten := by
  induction os generalizing tap wt w with
  | nil =>
    obtain rfl := Option.some.inj h
    simp
  | cons o os ih =>
    have hos' : ∀ o' ∈ os, o'.WellFormed := fun o' ho' => hos o' (by simp [ho'])
    cases o with
    | frame f =>
      obtain ⟨tap', wt', htap, hv', hcnt', hwt'⟩ :=
        tapPacket_frame hv hcnt (by simpa [Outgoing.fromTap] using hwt) (hos (.frame f) (by simp))
      rw [sendAll, htap] at h
      obtain ⟨w₁, h₁, h⟩ := Option.bind_eq_some_iff.1 h
      rw [ih hos' hv' hcnt' hwt' h, send_sent h₁]
      simp [Outgoing.content]
    | packet type payload =>
      rw [sendAll] at h
      obtain ⟨w₁, h₁, h⟩ := Option.bind_eq_some_iff.1 h
      rw [ih hos' hv hcnt (by simpa [Outgoing.fromTap] using hwt) h, send_sent h₁]
      simp [Outgoing.content]

/-! ## End to end -/

/-- **Framing from end to end.** A proxy sends its join packet and then well-formed packets, every
`rio_write` succeeding with whatever partial writes. The receiver's reads cut the stream in any
way. It takes the join packet by `rio_readnb`, and then `eth_handler`, in its own thread with
`errno` clear and over handlers that succeed, do not leave `errno` at `EINTR` (`rio_write` never
does, `rioWrite_spec`) and do not cancel the thread, dispatches exactly the packets sent, in order,
and waits for more. -/
theorem ethHandler_dispatches_sent {σ : Type} (H : PacketHandlers σ) (st : σ) {ls : LinkState}
    {numNbrs : UInt16} {os : List Outgoing} {tap : RioT} {wt w w₁ w₂ : Sys}
    (hos : ∀ o ∈ os, o.WellFormed) (hv : tap.Valid) (hcnt : tap.cnt ≤ 0)
    (hwt : wt.Delivers (os.flatMap Outgoing.fromTap)) (hw : w.sent = [])
    (hjoin : send (joinPacket ls numNbrs).bytes w = some w₁)
    (hsend : sendAll os tap wt w₁ = some w₂)
    {chunks : List (List UInt8)} {wr : Sys} (hr : wr.Delivers chunks)
    (hchunks : chunks.flatten = w₂.sent)
    (hH : ∀ o ∈ os, ∀ s,
      (H.handle o.content.1 (.ofNat o.content.2.length) o.content.2 s).1.Succeeds) :
    ∃ rio sys, rioReadnb initialJoinSize rioReadinit wr =
        some ((initialJoinSize : Int), (joinPacket ls numNbrs).bytes, rio, sys) ∧
      ∀ prxyhdr fuel, os.length < fuel →
        (ethHandler H fuel ⟨rio, { sys with errno := .ok }, prxyhdr, st, []⟩).1 = .waiting ∧
        (ethHandler H fuel ⟨rio, { sys with errno := .ok }, prxyhdr, st, []⟩).2.trace =
          os.map fun o => .dispatch o.content.1 (.ofNat o.content.2.length) o.content.2 := by
  have hav : avail rioReadinit wr = (joinPacket ls numNbrs).bytes ++
      (os.map fun o => packetBytes o.content.1 o.content.2).flatten := by
    rw [avail, rioReadinit_pending, List.nil_append, hr.inbound_eq, hchunks,
      sendAll_sent hos hv hcnt hwt hsend, send_sent hjoin, hw, List.nil_append]
  have hlen : (joinPacket ls numNbrs).bytes.length = initialJoinSize :=
    InitialJoinPacket.length_bytes _
  obtain ⟨rio, sys, cs, h, hv', hw', hav'⟩ :=
    rioReadnb_delivers (n := initialJoinSize) rioReadinit_valid hr (by rw [hav]; simp)
  rw [hav, List.take_left' hlen] at h
  rw [hav, List.drop_left' hlen] at hav'
  refine ⟨rio, sys, h, fun prxyhdr fuel hfuel => ?_⟩
  have hsys : Sys.Delivers { sys with errno := .ok } cs := ⟨by simp, hw'.inp_eq, hw'.size⟩
  have hrun := ethHandler_packets (H := H) (t := ⟨rio, { sys with errno := .ok }, prxyhdr, st, []⟩)
    (os.map Outgoing.content) (by simpa using fun o ho => (hos o ho).payload) (by simpa using hH)
    hv' hsys
    (by simpa [avail, List.map_map, Function.comp_def] using hav') (by simpa using hfuel)
  simpa [List.map_map, Function.comp_def] using hrun

/-- Handlers that succeed and do nothing, in the thread of a member. -/
def quietHandlers : PacketHandlers Unit where
  handle _ _ _ st := (⟨0, .ok, false⟩, st)
  listed _ := true
  removeMember st := st

theorem quietHandlers_succeeds (type : PacketType) (length : UInt16) (payload : List UInt8)
    (st : Unit) : (quietHandlers.handle type length payload st).1.Succeeds :=
  ⟨le_rfl, Errno.noConfusion, rfl⟩

/-- A thread to which the bytes of a stream have come in two pieces. -/
theorem exists_receiver {σ : Type} (st : σ) (stream : List UInt8)
    (hstream : 7 < stream.length ∧ stream.length ≤ bufSize) :
    ∃ (t : EthThread σ) (cs : List (List UInt8)), t.rio.Valid ∧ t.sys.Delivers cs ∧
      avail t.rio t.sys = stream ∧ t.st = st := by
  have hdelivers : Sys.Delivers ⟨.ok, deliver [stream.take 7, stream.drop 7], [], [], []⟩
      [stream.take 7, stream.drop 7] :=
    ⟨Errno.noConfusion, rfl, by simp only [bufSize] at hstream ⊢; simp; omega⟩
  refine ⟨⟨rioReadinit, ⟨.ok, deliver [stream.take 7, stream.drop 7], [], [], []⟩, ⟨0, 0⟩, st, []⟩,
    _, rioReadinit_valid, hdelivers, ?_, rfl⟩
  rw [avail, rioReadinit_pending, hdelivers.inbound_eq]
  simp

/-- A frame of three bytes and a probe of eight: the writes take the join packet in two pieces and
the frame in three, the reads cut inside the join packet, inside the frame and inside the probe. -/
theorem ethHandler_dispatches_sent_two : ∃ (rio : RioT) (sys : Sys), ∀ fuel, 2 < fuel →
    (ethHandler quietHandlers fuel ⟨rio, { sys with errno := .ok }, ⟨0, 0⟩, (), []⟩).2.trace =
      [.dispatch .data 3 [1, 2, 3], .dispatch .bandwidthProbeRequest 8 [0, 0, 0, 9, 0, 0, 0, 7]] := by
  let ls : LinkState := ⟨0, 0, .replicate 6 1, .replicate 6 2⟩
  let probe : List UInt8 := [0, 0, 0, 9, 0, 0, 0, 7]
  let os : List Outgoing := [.frame [1, 2, 3], .packet .bandwidthProbeRequest probe]
  let script (ks : List ℕ) : List OutCall :=
    .fcntl none :: ks.flatMap (fun k => [.poll none, .write (.ok k)]) ++ [.fcntl none]
  let w : Sys := ⟨.ok, [], script [10, 16] ++ script [1, 5, 1] ++ script [12], [], []⟩
  let stream : List UInt8 := (joinPacket ls 1).bytes ++ [0xAB, 0xCD, 0, 3, 1, 2, 3] ++
    [0xAB, 0x45, 0, 8] ++ probe
  let chunks : List (List UInt8) := [stream.take 20, (stream.drop 20).take 11,
    (stream.drop 31).take 6, stream.drop 37]
  have hos : ∀ o ∈ os, o.WellFormed := by
    simp only [os, List.forall_mem_cons, List.not_mem_nil, false_implies, implies_true, and_true]
    exact ⟨⟨by decide, by decide⟩, ⟨by decide, by decide⟩⟩
  have htap : Sys.Delivers ⟨.ok, deliver [[1, 2, 3]], [], [], []⟩ (os.flatMap Outgoing.fromTap) :=
    ⟨by decide, rfl, by decide⟩
  have hrun : ((send (joinPacket ls 1).bytes w).bind fun w₁ => (sendAll os rioReadinit
      ⟨.ok, deliver [[1, 2, 3]], [], [], []⟩ w₁).map Sys.sent) = some chunks.flatten := by
    decide +kernel
  obtain ⟨w₁, h₁, hrun⟩ := Option.bind_eq_some_iff.1 hrun
  obtain ⟨w₂, h₂, hsent⟩ := Option.map_eq_some_iff.1 hrun
  have hr : Sys.Delivers ⟨.ok, deliver chunks, [], [], []⟩ chunks := ⟨by decide, rfl, by decide⟩
  obtain ⟨rio, sys, -, h⟩ := ethHandler_dispatches_sent quietHandlers () hos rioReadinit_valid
    (by decide) htap rfl h₁ h₂ hr hsent.symm
    fun _ _ => quietHandlers_succeeds _ _ _
  exact ⟨rio, sys, fun fuel hf => (h ⟨0, 0⟩ fuel hf).2⟩

end LinkProxy.Handlers
