import LinkProxy.Rio.Reader
import LinkProxy.Wire.Packets

/-!
# The receiving thread

`eth_handler` reads a header and a payload of the announced length from its peer, again and again,
and dispatches on the type. What the packet handlers and `remove_member` do to the rest of the
process is a parameter (`PacketHandlers`); the reads, the header that is kept from one pass to the
next, and every way out of a pass are as in the source. A thread ends where it finds itself
cancelled: by its own `remove_member`, if the key of its peer is in `hash_table`, or by a packet
handler that has removed its peer. The trace of a thread is the list of what it has dispatched and
of its calls to `remove_member`.

On a connection that delivers whole packets of known types, with handlers that succeed, one pass
dispatches the next packet (`ethPass_packet`), so a run dispatches the packets in order and then
waits (`ethHandler_packets`).
-/

namespace LinkProxy.Handlers

open Bytes Rio Wire

/-- What a packet handler leaves to its caller: the result, `errno`, and whether the calling thread
has been cancelled. -/
structure Handled where
  ret : Int
  errno : Errno
  cancelled : Bool

/-- The handler has succeeded, and its caller can go on reading. -/
structure Handled.Succeeds (r : Handled) : Prop where
  ret : 0 ≤ r.ret
  errno : r.errno ≠ .EINTR
  cancelled : r.cancelled = false

/-- The rest of the process, as `eth_handler` sees it: the packet handlers, whether the key of the
thread's peer is in `hash_table`, and what `remove_member` of this peer does. -/
structure PacketHandlers (σ : Type) where
  handle : PacketType → UInt16 → List UInt8 → σ → Handled × σ
  listed : σ → Bool
  removeMember : σ → σ

/-- What `eth_handler` does that others can see. -/
inductive Event
  | dispatch (type : PacketType) (length : UInt16) (payload : List UInt8)
  | remove
  deriving DecidableEq

/-- The state of a thread running `eth_handler`. `prxyhdr` keeps its value between passes. -/
structure EthThread (σ : Type) where
  rio : RioT
  sys : Sys
  prxyhdr : ProxyHeader
  st : σ
  trace : List Event

section

variable {σ : Type} (H : PacketHandlers σ)

/-- `remove_member(pp)` followed by `pthread_testcancel()`: whether the thread goes on. If the key of
the peer is not in the table, `remove_member` returns early and cancels nobody. It keeps the lock
then, so another call waits for it, which is not modelled here but in `Program.runPasses`. -/
def EthThread.remove (t : EthThread σ) : Bool × EthThread σ :=
  (!H.listed t.st, { t with st := H.removeMember t.st, trace := t.trace ++ [.remove] })

/-- Read the header over what `prxyhdr` held, and convert it in place. -/
def EthThread.readHeader (t : EthThread σ) : Option (Int × EthThread σ) := do
  let (size, bytes, rio, sys) ← rioReadnb proxyHlen t.rio t.sys
  let hdr := ldProxyHeader (bufOf (bytes ++ t.prxyhdr.bytes.drop bytes.length) fun _ => 0) 0
  return (size, { t with rio := rio, sys := sys, prxyhdr := ⟨hdr.type, hdr.length⟩ })

/-- The `switch` on the type: whether it leads to `TYPE_ERROR`, and whether the handler has cancelled
the thread. -/
def EthThread.dispatch (t : EthThread σ) (payload : List UInt8) : (Bool × Bool) × EthThread σ :=
  match PacketType.ofCode t.prxyhdr.type with
  | none => ((true, false), t)
  | some type =>
    let (r, st) := H.handle type t.prxyhdr.length payload t.st
    ((r.ret < 0, r.cancelled), { t with
      sys := { t.sys with errno := r.errno }
      st := st
      trace := t.trace ++ [.dispatch type t.prxyhdr.length payload] })

/-- The rest of a pass from the `switch` on, and whether the thread is still there after it. -/
def EthThread.evaluate (t : EthThread σ) (payload : List UInt8) : Bool × EthThread σ :=
  let ((typeError, cancelled), t) := t.dispatch H payload
  let (alive, t) := if typeError then t.remove H else (true, t)
  (alive && !cancelled, t)

/-- The rest of a pass behind the read of the header. The payload is what was received of it. -/
def EthThread.receive (t : EthThread σ) : Option (Bool × EthThread σ) := do
  let t := { t with prxyhdr := ⟨ntohs t.prxyhdr.type, ntohs t.prxyhdr.length⟩ }
  let (size, payload, rio, sys) ← rioReadnb t.prxyhdr.length.toNat t.rio t.sys
  let t := { t with rio := rio, sys := sys }
  let (alive, t) := if size ≤ 0 then t.remove H else (true, t)
  if !alive then return (false, t)
  return t.evaluate H payload

/-- One pass of the loop of `eth_handler`, and whether the thread is still there after it. -/
def ethPass (t : EthThread σ) : Option (Bool × EthThread σ) := do
  let (size, t) ← t.readHeader
  let (alive, t) := if size ≤ 0 then t.remove H else (true, t)
  if !alive then return (false, t)
  t.receive H

/-- Where a run of `eth_handler` stands. -/
inductive Status
  | running
  | waiting
  | exited
  deriving DecidableEq, Repr

/-- At most `fuel` passes of the loop of `eth_handler`. -/
def ethHandler : ℕ → EthThread σ → Status × EthThread σ
  | 0, t => (.running, t)
  | fuel + 1, t =>
    match ethPass H t with
    | none => (.waiting, t)
    | some (false, t') => (.exited, t')
    | some (true, t') => ethHandler fuel t'

end

/-! ## Whole packets -/

/-- The bytes of a packet. -/
def packetBytes (type : PacketType) (payload : List UInt8) : List UInt8 :=
  header type.code (.ofNat payload.length) ++ payload

/-- A payload that a length field can announce. -/
structure Payload (payload : List UInt8) : Prop where
  pos : 0 < payload.length
  lt : payload.length < 65536

theorem Payload.toNat_length {payload : List UInt8} (h : Payload payload) :
    (UInt16.ofNat payload.length).toNat = payload.length := by
  rw [UInt16.toNat_ofNat']
  exact Nat.mod_eq_of_lt h.lt

section

variable {σ : Type} {H : PacketHandlers σ} {t : EthThread σ} {cs : List (List UInt8)}

theorem readHeader_packet {type length : UInt16} {rest : List UInt8} (hv : t.rio.Valid)
    (hw : t.sys.Delivers cs) (hav : avail t.rio t.sys = header type length ++ rest) :
    ∃ rio sys cs', t.readHeader =
        some (4, { t with rio := rio, sys := sys, prxyhdr := ⟨htons type, htons length⟩ }) ∧
      rio.Valid ∧ sys.Delivers cs' ∧ avail rio sys = rest := by
  obtain ⟨rio, sys, cs', h, hv', hw', hav'⟩ :=
    rioReadnb_delivers (n := proxyHlen) hv hw (by simp [hav, proxyHlen])
  have hlen : (header type length).length = proxyHlen := length_header ..
  rw [hav, List.take_left' hlen] at h
  rw [hav, List.drop_left' hlen] at hav'
  refine ⟨rio, sys, cs', ?_, hv', hw', hav'⟩
  have hhdr := ldProxyHeader_of_holds (h := ⟨htons type, htons length⟩) (holds_append.1
    (holds_bufOf (header type length ++ t.prxyhdr.bytes.drop (header type length).length)
      fun _ => 0)).1
  rw [EthThread.readHeader, h]
  simp only [Option.bind_eq_bind, Option.bind_some, hhdr]
  rfl

/-- **One pass dispatches the next packet**: its type, its length and its payload, and leaves what
follows it. The rest of the process is as the handler has left it, and the thread goes on if the
handler has not cancelled it. -/
theorem ethPass_handled {type : PacketType} {payload rest : List UInt8} (hp : Payload payload)
    {r : Handled} {st : σ}
    (hH : H.handle type (.ofNat payload.length) payload t.st = (r, st)) (hr : 0 ≤ r.ret)
    (he : r.errno ≠ .EINTR) (hv : t.rio.Valid) (hw : t.sys.Delivers cs)
    (hav : avail t.rio t.sys = packetBytes type payload ++ rest) :
    ∃ t' cs', ethPass H t = some (!r.cancelled, t') ∧ t'.rio.Valid ∧ t'.sys.Delivers cs' ∧
      avail t'.rio t'.sys = rest ∧ t'.st = st ∧
      t'.trace = t.trace ++ [.dispatch type (.ofNat payload.length) payload] := by
  rw [packetBytes, List.append_assoc] at hav
  obtain ⟨rio₁, sys₁, cs₁, h₁, hv₁, hw₁, hav₁⟩ := readHeader_packet hv hw hav
  obtain ⟨rio₂, sys₂, cs₂, h₂, hv₂, hw₂, hav₂⟩ :=
    rioReadnb_delivers (n := payload.length) hv₁ hw₁ (by simp [hav₁])
  rw [hav₁, List.take_left] at h₂
  rw [hav₁, List.drop_left] at hav₂
  have hpos := hp.pos
  refine ⟨⟨rio₂, { sys₂ with errno := r.errno }, ⟨type.code, .ofNat payload.length⟩, st,
    t.trace ++ [.dispatch type (.ofNat payload.length) payload]⟩, cs₂, ?_, hv₂,
    ⟨he, hw₂.inp_eq, hw₂.size⟩, hav₂, rfl, rfl⟩
  rw [ethPass, h₁]
  simp only [Option.bind_eq_bind, Option.bind_some, show ¬ (4 : Int) ≤ 0 by omega, if_false,
    Bool.not_true, Bool.false_eq_true, EthThread.receive, ntohs_htons, hp.toNat_length, h₂,
    show ¬ (payload.length : Int) ≤ 0 by omega, EthThread.evaluate, EthThread.dispatch,
    PacketType.ofCode_code, hH, decide_eq_false (not_lt.2 hr), Option.pure_def, Bool.true_and]

/-- One pass with a handler that succeeds in every state. -/
theorem ethPass_packet {type : PacketType} {payload rest : List UInt8} (hp : Payload payload)
    (hH : ∀ s, (H.handle type (.ofNat payload.length) payload s).1.Succeeds) (hv : t.rio.Valid)
    (hw : t.sys.Delivers cs) (hav : avail t.rio t.sys = packetBytes type payload ++ rest) :
    ∃ t' cs', ethPass H t = some (true, t') ∧ t'.rio.Valid ∧ t'.sys.Delivers cs' ∧
      avail t'.rio t'.sys = rest ∧
      t'.trace = t.trace ++ [.dispatch type (.ofNat payload.length) payload] := by
  obtain ⟨hr, he, hgo⟩ := hH t.st
  obtain ⟨t', cs', hpass, hv', hw', hav', -, htrace⟩ := ethPass_handled hp rfl hr he hv hw hav
  rw [hgo] at hpass
  exact ⟨t', cs', hpass, hv', hw', hav', htrace⟩

/-- A pass waits while nothing has arrived. -/
theorem ethPass_blocked (hv : t.rio.Valid) (hw : t.sys.Delivers cs) (hav : avail t.rio t.sys = []) :
    ethPass H t = none := by
  rw [ethPass, EthThread.readHeader, rioReadnb_blocked (by decide) hv hw hav]
  rfl

/-- **A run over whole packets dispatches them in order and then waits.** -/
theorem ethHandler_packets (packets : List (PacketType × List UInt8))
    (hp : ∀ p ∈ packets, Payload p.2)
    (hH : ∀ p ∈ packets, ∀ s, (H.handle p.1 (.ofNat p.2.length) p.2 s).1.Succeeds)
    (hv : t.rio.Valid) (hw : t.sys.Delivers cs)
    (hav : avail t.rio t.sys = (packets.map fun p => packetBytes p.1 p.2).flatten)
    {fuel : ℕ} (hfuel : packets.length < fuel) :
    (ethHandler H fuel t).1 = .waiting ∧ (ethHandler H fuel t).2.trace =
      t.trace ++ packets.map fun p => .dispatch p.1 (.ofNat p.2.length) p.2 := by
  induction packets generalizing t cs fuel with
  | nil =>
    obtain ⟨k, rfl⟩ := Nat.exists_eq_succ_of_ne_zero (Nat.ne_of_gt hfuel)
    simp [ethHandler, ethPass_blocked hv hw (by simpa using hav)]
  | cons p ps ih =>
    obtain ⟨k, rfl⟩ := Nat.exists_eq_succ_of_ne_zero (Nat.ne_of_gt (Nat.zero_lt_of_lt hfuel))
    obtain ⟨t', cs', h, hv', hw', hav', htr⟩ := ethPass_packet (hp p (by simp)) (hH p (by simp)) hv
      hw (by simpa using hav)
    have hk : ps.length < k := by simpa using hfuel
    have hrun := ih (fun q hq => hp q (by simp [hq])) (fun q hq => hH q (by simp [hq])) hv' hw' hav' hk
    rw [ethHandler, h]
    refine ⟨hrun.1, ?_⟩
    rw [hrun.2, htr, List.append_assoc]
    rfl

end

end LinkProxy.Handlers
