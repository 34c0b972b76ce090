import LinkProxy.Handlers.Senders
import LinkProxy.Gossip.Timestamps

/-!
# Bandwidth probes

`Link_State_Broadcast` sends the time of a probe to every member and keeps it in `probe_ts`; the
member answers with the time it has received, and `Bandwidth_Probe_Response` compares. Both packets
are the first 12 bytes of a `probe_req`. Where `struct timespec` has 8 bytes these are the header
and the time. Where it has 16 bytes they are the header, the padding behind it and a half of the
seconds: the member answers with what was in the padding, and the time is never recognised for
certain (`recognised_iff`).
-/

namespace LinkProxy.Handlers

open Bytes Rio Wire

/-! ## The way of a probe -/

/-- The time that `Bandwidth_Probe_Response` takes from its payload, to compare it with `probe_ts`.
-/
def probeResponseTime (dm : DataModel) (data : Buf) : Timespec :=
  ⟨dm.toLong (ntohl (ldLong dm data 0)), dm.toLong (ntohl (ldLong dm data dm.longSize))⟩

/-- On a connection that delivers the bytes of a write, cut in any way, `eth_handler` dispatches a
payload. -/
def Dispatched (w : Write) (type : PacketType) (payload : List UInt8) : Prop :=
  ∃ (t : EthThread Unit) (cs : List (List UInt8)), t.rio.Valid ∧ t.sys.Delivers cs ∧
    avail t.rio t.sys = w.bytes ∧ t.trace = [] ∧
    (ethHandler quietHandlers 2 t).2.trace = [.dispatch type (.ofNat payload.length) payload]

/-- **A probe is recognised**: whatever is in the padding of the two `probe_req`s and behind the two
payloads, the time of the response is the one of the request. -/
def Recognised (dm : DataModel) (probeTs : Timespec) : Prop :=
  ∀ (padding padding' : Vector UInt8 4) (rest rest' : Buf) (w w' : Write)
    (payload payload' : List UInt8),
    (Packet.bandwidthProbeRequest padding probeTs).write dm = some w →
    Dispatched w .bandwidthProbeRequest payload →
    (Packet.bandwidthProbeResponse padding' (bufOf payload rest)).write dm = some w' →
    Dispatched w' .bandwidthProbeResponse payload' →
    probeResponseTime dm (bufOf payload' rest') = probeTs

/-! ## The payloads -/

section

variable {dm : DataModel}

/-- The payload of a probe: the first eight bytes behind the header. -/
def probePayload (dm : DataModel) (padding : Vector UInt8 4) (ID : List UInt8) : List UInt8 :=
  (padding.toList.take (probePadding dm) ++ ID).take 8

theorem length_probePayload {padding : Vector UInt8 4} {ID : List UInt8}
    (h : ID.length = dm.timespecSize) : (probePayload dm padding ID).length = 8 := by
  cases dm <;> simp [probePayload, probePadding, h, DataModel.timespecSize, DataModel.longSize]

/-- The time of a probe as it lies in the request. -/
def probeID (dm : DataModel) (probeTs : Timespec) : List UInt8 :=
  le dm.longSize (stamp probeTs.tvSec).toNat ++ le dm.longSize (stamp probeTs.tvNsec).toNat

theorem length_probeID (dm : DataModel) (probeTs : Timespec) :
    (probeID dm probeTs).length = dm.timespecSize := by
  rw [probeID, List.length_append, length_le, length_le, DataModel.timespecSize, Nat.two_mul]

/-- What is written of a `probe_req` is a packet. -/
theorem bytes_probeReq {type : PacketType} {padding : Vector UInt8 4} {ID : List UInt8}
    (h : ID.length = dm.timespecSize) : (⟨probeReq dm type padding ID, 12⟩ : Write).bytes =
      packetBytes type (probePayload dm padding ID) := by
  rw [Write.bytes, probeReq, packetBytes, length_probePayload h, List.take_append,
    List.take_of_length_le (by simp), length_header]
  rfl

/-- A packet is dispatched. -/
theorem dispatched_packet {t : EthThread Unit} {cs : List (List UInt8)} {type : PacketType}
    {payload : List UInt8} (hp : Payload payload) (hv : t.rio.Valid) (hdelivers : t.sys.Delivers cs)
    (hav : avail t.rio t.sys = packetBytes type payload) (htrace : t.trace = []) :
    (ethHandler quietHandlers 2 t).2.trace = [.dispatch type (.ofNat payload.length) payload] := by
  have hrun := (ethHandler_packets (H := quietHandlers) [(type, payload)] (by simpa using hp)
    (fun _ _ _ => quietHandlers_succeeds _ _ _ _) hv hdelivers (by simpa using hav)
    (show [(type, payload)].length < 2 by simp)).2
  rw [hrun, htrace]
  rfl

/-- The payload that is dispatched is the one that was sent. -/
theorem Dispatched.payload_eq {w : Write} {type type' : PacketType} {payload payload' : List UInt8}
    (h : Dispatched w type payload) (hw : w.bytes = packetBytes type' payload')
    (hp : Payload payload') : payload = payload' := by
  obtain ⟨t, cs, hv, hdelivers, hav, htrace, hrun⟩ := h
  have hpacket := dispatched_packet hp hv hdelivers (hav.trans hw) htrace
  rw [hrun] at hpacket
  simp only [List.cons.injEq, Event.dispatch.injEq, and_true] at hpacket
  exact hpacket.2.2

/-- A packet that one read delivers can be dispatched. -/
theorem dispatched_of_bytes {w : Write} {type : PacketType} {payload : List UInt8}
    (hw : w.bytes = packetBytes type payload) (hp : Payload payload)
    (hlen : w.bytes.length ≤ bufSize) : Dispatched w type payload := by
  have hpos : 0 < w.bytes.length := by
    rw [hw]
    simp [packetBytes]
  have hdelivers : Sys.Delivers ⟨.ok, deliver [w.bytes], [], [], []⟩ [w.bytes] :=
    ⟨Errno.noConfusion, rfl, by simpa using ⟨hpos, hlen⟩⟩
  have hav : avail rioReadinit ⟨.ok, deliver [w.bytes], [], [], []⟩ = w.bytes := by
    rw [avail, rioReadinit_pending, hdelivers.inbound_eq]
    simp
  exact ⟨⟨rioReadinit, ⟨.ok, deliver [w.bytes], [], [], []⟩, ⟨0, 0⟩, (), []⟩, [w.bytes],
    rioReadinit_valid, hdelivers, hav, rfl,
    dispatched_packet hp rioReadinit_valid hdelivers (hav.trans hw) rfl⟩

/-- **The payload of a probe arrives**, and nothing else does. -/
theorem dispatched_probeReq_iff {type : PacketType} {padding : Vector UInt8 4}
    {ID payload : List UInt8} (h : ID.length = dm.timespecSize) :
    Dispatched ⟨probeReq dm type padding ID, 12⟩ type payload ↔
      payload = probePayload dm padding ID := by
  have hp : Payload (probePayload dm padding ID) := by
    constructor <;> rw [length_probePayload h] <;> omega
  constructor
  · intro hd
    exact hd.payload_eq (bytes_probeReq h) hp
  · rintro rfl
    refine dispatched_of_bytes (bytes_probeReq h) hp ?_
    rw [bytes_probeReq h, packetBytes, List.length_append, length_header, length_probePayload h]
    decide

/-- The time of the response is determined by the padding and by the memory behind the payloads. -/
theorem recognised_iff_payload {probeTs : Timespec} : Recognised dm probeTs ↔
    ∀ (padding padding' : Vector UInt8 4) (rest rest' : Buf),
      probeResponseTime dm (bufOf (probePayload dm padding' (slice (bufOf
        (probePayload dm padding (probeID dm probeTs)) rest) 0 dm.timespecSize)) rest') = probeTs := by
  have hID := length_probeID dm probeTs
  have hdata (data : Buf) := length_slice data 0 dm.timespecSize
  constructor
  · intro h padding padding' rest rest'
    exact h padding padding' rest rest' _ _ _ _ rfl ((dispatched_probeReq_iff hID).2 rfl) rfl
      ((dispatched_probeReq_iff (hdata _)).2 rfl)
  · intro h padding padding' rest rest' w w' payload payload' hw hd hw' hd'
    obtain rfl := Option.some.inj hw
    obtain rfl := Option.some.inj hw'
    obtain rfl := (dispatched_probeReq_iff hID).1 hd
    rw [(dispatched_probeReq_iff (hdata _)).1 hd']
    exact h padding padding' rest rest'

/-- A second word behind the first eight bytes does not matter. -/
theorem ldLong_lp64_probe {a b : List UInt8} (ha : a.length = 4) (hb : b.length = 4) (rest : Buf) :
    ldLong .lp64 (bufOf (a ++ b) rest) 0 = .ofNat (leVal a) := by
  have hslice : slice (bufOf (a ++ b) rest) 0 8 = a ++ b := by
    have hlen : (a ++ b).length = 8 := by simp [ha, hb]
    exact hlen ▸ slice_bufOf (a ++ b) rest
  rw [ldLong, DataModel.longSize, hslice, leVal_append, ha]
  apply UInt32.toNat_inj.1
  simp only [UInt32.toNat_ofNat']
  omega

theorem ofInt_toLong (dm : DataModel) (x : UInt32) : UInt32.ofInt (dm.toLong x) = x := by
  have hx : x.toNat < 4294967296 := x.toNat_lt
  have hmod : dm.toLong x % 4294967296 = x.toNat := by
    have hsmall : (x.toNat : Int) % 4294967296 = x.toNat := Int.emod_eq_of_lt (by omega) (by omega)
    cases dm with
    | lp64 => rw [DataModel.toLong, hsmall]
    | ilp32 => rw [DataModel.toLong, wrap32_emod, hsmall]
  apply UInt32.toNat_inj.1
  rw [UInt32.ofInt, UInt32.toNat_ofNat', show (2 : Int) ^ 32 = 4294967296 by norm_num, hmod]
  omega

/-- Where `struct timespec` has 8 bytes, the time comes back. -/
theorem recognised_ilp32 (sec : UInt32) {nsec : Int} (h₀ : 0 ≤ nsec) (h₁ : nsec < 1000000000) :
    Recognised .ilp32 ⟨DataModel.ilp32.toLong sec, nsec⟩ := by
  rw [recognised_iff_payload]
  intro padding padding' rest rest'
  set ID := probeID .ilp32 ⟨DataModel.ilp32.toLong sec, nsec⟩ with hID
  have hpayload (padding : Vector UInt8 4) (l : List UInt8) (hl : l.length = 8) :
      probePayload .ilp32 padding l = l := by
    simp [probePayload, probePadding, hl]
  have hlen : ID.length = 8 := length_probeID ..
  have hslice : slice (bufOf ID rest) 0 DataModel.ilp32.timespecSize = ID := by
    rw [show DataModel.ilp32.timespecSize = ID.length from hlen.symm]
    exact slice_bufOf ID rest
  rw [hpayload padding ID hlen, hslice, hpayload padding' ID hlen, probeResponseTime]
  obtain ⟨hsec, hnsec⟩ := holds_append.1 (holds_bufOf ID rest')
  rw [length_le, Nat.zero_add] at hnsec
  rw [ldLong_of_holds hsec, ldLong_of_holds hnsec, stamp, stamp, ntohl_htonl, ntohl_htonl,
    ofInt_toLong, (Gossip.toLong_ofInt .ilp32 nsec).2 ⟨h₀, lt_trans h₁ (by decide)⟩]

/-- Where it has 16 bytes, the seconds of the response are the padding of the answer. -/
theorem not_recognised_lp64 (probeTs : Timespec) : ¬Recognised .lp64 probeTs := by
  rw [recognised_iff_payload]
  intro h
  -- two answers that differ in their padding cannot both have the right time
  have hsec (b : UInt8) : (UInt32.toNat (ntohl (.ofNat (leVal [b, b, b, b]))) : Int) =
      probeTs.tvSec := by
    set data := bufOf (probePayload .lp64 (.replicate 4 0) (probeID .lp64 probeTs)) fun _ => 0
    have hpayload : probePayload .lp64 (.replicate 4 b) (slice data 0 16) =
        [b, b, b, b] ++ slice data 0 4 := by
      rw [show 16 = 4 + 12 from rfl, slice_add]
      rfl
    have htime := congrArg Timespec.tvSec (h (.replicate 4 0) (.replicate 4 b) (fun _ => 0) fun _ => 0)
    rw [← htime]
    change _ = ((ntohl (ldLong .lp64 (bufOf (probePayload .lp64 (.replicate 4 b) (slice data 0 16))
      fun _ => 0) 0)).toNat : Int)
    rw [hpayload, ldLong_lp64_probe rfl (length_slice ..)]
  have h₀ := hsec 0
  have h₁ := hsec 1
  rw [← h₀] at h₁
  revert h₁
  decide

/-- **A probe is recognised if and only if `struct timespec` has 8 bytes.** -/
theorem recognised_iff (dm : DataModel) (sec : UInt32) {nsec : Int} (h₀ : 0 ≤ nsec)
    (h₁ : nsec < 1000000000) : Recognised dm ⟨dm.toLong sec, nsec⟩ ↔ dm = .ilp32 := by
  cases dm with
  | ilp32 => simpa using recognised_ilp32 sec h₀ h₁
  | lp64 => simpa using not_recognised_lp64 _

/-- A probe at second 1700000000 on ILP32. -/
theorem recognised_iff_ilp32 :
    Recognised .ilp32 ⟨DataModel.ilp32.toLong 1700000000, 999999999⟩ ∧
      ¬Recognised .lp64 ⟨DataModel.lp64.toLong 1700000000, 999999999⟩ := by
  refine ⟨(recognised_iff .ilp32 1700000000 (by decide) (by decide)).2 rfl, fun h => ?_⟩
  cases (recognised_iff .lp64 1700000000 (by decide) (by decide)).1 h

/-- A probe of second 1 on LP64, with zeros in the padding: the time of the response is zero. -/
theorem probe_not_recognised : ¬∀ (dm : DataModel) (sec : UInt32) (nsec : Int), 0 ≤ nsec →
    nsec < 1000000000 → Recognised dm ⟨dm.toLong sec, nsec⟩ := by
  intro h
  have hprobe := recognised_iff_payload.1 (h .lp64 1 2 (by decide) (by decide))
    (.replicate 4 0) (.replicate 4 0) (fun _ => 0) fun _ => 0
  exact absurd hprobe (by decide +kernel)

end

end LinkProxy.Handlers
