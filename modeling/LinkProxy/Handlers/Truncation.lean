import LinkProxy.Rio.Closing
import LinkProxy.Handlers.Framing

/-!
# Connections that end inside a packet

`eth_handler` takes a positive count of `rio_readnb` for success and does not compare it with what
it asked for. On a connection that ends (`Draining`), a cut inside a header is noticed one read
later, since the read of the payload then gets nothing. A cut inside a payload is not noticed if the
remote end has closed the connection and some bytes of the payload have come: they are passed to the
handler together with the length that the header announces.

A thread that calls `remove_member` ends if the key of its peer is in `hash_table`. Otherwise it goes
on behind the read that has failed, with a buffer that nothing was read into.

`dispatches_whole_iff` says that these are the only ways: on every other stream that ends, however
it is cut into reads, only whole packets are dispatched, and then the thread ends.
-/

namespace LinkProxy.Handlers

open Bytes Rio Wire

/-! ## The property -/

/-- The bytes of packets, one after the other. -/
def packetStream (packets : List (PacketType × List UInt8)) : List UInt8 :=
  (packets.map fun p => packetBytes p.1 p.2).flatten

/-- The calls of the packet handlers for whole packets. -/
def dispatched (packets : List (PacketType × List UInt8)) : List Event :=
  packets.map fun p => .dispatch p.1 (.ofNat p.2.length) p.2

/-- A run that has passed to packet handlers only whole packets with which `stream` begins, and has
then ended: after its own `remove_member`, or since the last handler has cancelled it. -/
def WholeThenRemoved {σ : Type} (stream : List UInt8) (before : List Event)
    (run : Status × EthThread σ) : Prop :=
  run.1 = .exited ∧ ∃ packets rest removal, (∀ p ∈ packets, Payload p.2) ∧
    stream = packetStream packets ++ rest ∧ (removal = [] ∨ removal = [.remove]) ∧
    run.2.trace = before ++ (dispatched packets ++ removal)

@[simp] theorem packetStream_nil : packetStream [] = [] := rfl

@[simp] theorem packetStream_cons (p : PacketType × List UInt8)
    (packets : List (PacketType × List UInt8)) :
    packetStream (p :: packets) = packetBytes p.1 p.2 ++ packetStream packets := rfl

@[simp] theorem dispatched_nil : dispatched [] = [] := rfl

@[simp] theorem dispatched_cons (p : PacketType × List UInt8)
    (packets : List (PacketType × List UInt8)) : dispatched (p :: packets) =
      .dispatch p.1 (.ofNat p.2.length) p.2 :: dispatched packets := rfl

/-- After whole packets, `remove_member` comes last. -/
theorem dispatched_remove_ne {ps qs : List (PacketType × List UInt8)} {e : Event}
    {es removal : List Event} (hr : removal = [] ∨ removal = [.remove]) :
    dispatched ps ++ .remove :: e :: es ≠ dispatched qs ++ removal := by
  induction ps generalizing qs with
  | nil =>
    cases qs with
    | nil => rcases hr with rfl | rfl <;> simp
    | cons q qs => simp
  | cons p ps ih =>
    cases qs with
    | nil => rcases hr with rfl | rfl <;> simp
    | cons q qs =>
      simp only [dispatched_cons, List.cons_append, ne_eq, List.cons.injEq, not_and]
      exact fun _ => ih

section

variable {σ : Type} {stream rest : List UInt8} {before : List Event} {run : Status × EthThread σ}

/-- A run that removes the peer at once. -/
theorem WholeThenRemoved.removed (h : run.1 = .exited) (htrace : run.2.trace = before ++ [.remove]) :
    WholeThenRemoved stream before run :=
  ⟨h, [], stream, [.remove], by simp, by simp, .inr rfl, htrace⟩

/-- A run that ends after one packet. -/
theorem WholeThenRemoved.last {p : PacketType × List UInt8} (hp : Payload p.2) {removal : List Event}
    (hr : removal = [] ∨ removal = [.remove]) (h : run.1 = .exited)
    (htrace : run.2.trace = before ++ (dispatched [p] ++ removal)) :
    WholeThenRemoved (packetBytes p.1 p.2 ++ rest) before run :=
  ⟨h, [p], rest, removal, by simpa using hp, by simp, hr, htrace⟩

/-- More than `remove_member` after whole packets is too much. -/
theorem not_whole_of_remove (ps : List (PacketType × List UInt8)) {e : Event} {es : List Event}
    (h : run.2.trace = before ++ (dispatched ps ++ .remove :: e :: es)) :
    ¬ WholeThenRemoved stream before run := by
  rintro ⟨-, qs, rest, removal, -, -, hr, htrace⟩
  exact dispatched_remove_ne hr (List.append_cancel_left (h.symm.trans htrace))

/-- Every payload that a run has dispatched has the length of its header. -/
theorem WholeThenRemoved.length_payload (h : WholeThenRemoved stream before run) {type : PacketType}
    {length : UInt16} {payload : List UInt8}
    (hmem : before ++ [.dispatch type length payload] <+: run.2.trace) :
    payload.length = length.toNat := by
  obtain ⟨-, packets, rest', removal, hpackets, -, hr, htrace⟩ := h
  rw [htrace, List.prefix_append_right_inj] at hmem
  have hhead : Event.dispatch type length payload ∈ dispatched packets ++ removal :=
    hmem.subset (by simp)
  rcases List.mem_append.1 hhead with hin | hin
  · obtain ⟨p, hp, heq⟩ := List.mem_map.1 hin
    obtain ⟨-, rfl, rfl⟩ := Event.dispatch.inj heq
    exact (hpackets p hp).toNat_length.symm
  · rcases hr with rfl | rfl <;> simp at hin

end

/-! ## Any four bytes are a header -/

theorem le_toNat_ofNat_leVal {bs : List UInt8} (h : bs.length = 2) :
    le 2 (UInt16.ofNat (leVal bs)).toNat = bs := by
  have hlt := leVal_lt bs
  rw [h] at hlt
  rw [UInt16.toNat_ofNat', Nat.mod_eq_of_lt (by simpa using hlt), ← h, le_leVal]

theorem exists_header (bs : List UInt8) (h : bs.length = 4) :
    ∃ type length, bs = header type length := by
  refine ⟨htons (.ofNat (leVal (bs.take 2))), htons (.ofNat (leVal (bs.drop 2))), ?_⟩
  rw [header, htons_htons, htons_htons, ProxyHeader.bytes,
    le_toNat_ofNat_leVal (by simp [h]), le_toNat_ofNat_leVal (by simp [h]), List.take_append_drop]

theorem code_of_ofCode {c : UInt16} {type : PacketType} (h : PacketType.ofCode c = some type) :
    type.code = c := by
  simpa using List.find?_some h

/-- **How a stream begins**: it is too short for a header; or with a header that nothing is
dispatched for; or with a whole packet; or it ends inside its first payload. -/
theorem stream_cases (stream : List UInt8) :
    stream.length < proxyHlen ∨
      (∃ type length rest, stream = header type length ++ rest ∧
        (PacketType.ofCode type = none ∨ length.toNat = 0 ∨ rest.length < length.toNat ∧ rest = [])) ∨
      (∃ p : PacketType × List UInt8, ∃ rest, Payload p.2 ∧ stream = packetBytes p.1 p.2 ++ rest) ∨
      ∃ type length part, stream = header (PacketType.code type) length ++ part ∧ part ≠ [] ∧
        part.length < length.toNat := by
  by_cases hlen : stream.length < proxyHlen
  · exact .inl hlen
  refine .inr ?_
  obtain ⟨type, length, hhdr⟩ := exists_header (stream.take proxyHlen)
    (by rw [List.length_take]; exact Nat.min_eq_left (not_lt.1 hlen))
  obtain ⟨rest, hav⟩ : ∃ rest, stream = header type length ++ rest :=
    ⟨stream.drop proxyHlen, by rw [← hhdr, List.take_append_drop]⟩
  cases htype : PacketType.ofCode type with
  | none => exact .inl ⟨type, length, rest, hav, .inl htype⟩
  | some ptype =>
    obtain rfl := code_of_ofCode htype
    by_cases hzero : length.toNat = 0
    · exact .inl ⟨_, length, rest, hav, .inr (.inl hzero)⟩
    by_cases hlt : rest.length < length.toNat
    · by_cases hnil : rest = []
      · exact .inl ⟨_, length, rest, hav, .inr (.inr ⟨hlt, hnil⟩)⟩
      · exact .inr (.inr ⟨ptype, length, rest, hav, hnil, hlt⟩)
    · have hsize : (rest.take length.toNat).length = length.toNat := by
        rw [List.length_take]
        omega
      have hp : Payload (rest.take length.toNat) :=
        ⟨by omega, by have := length.toNat_lt; omega⟩
      refine .inr (.inl ⟨(ptype, rest.take length.toNat), rest.drop length.toNat, hp, ?_⟩)
      rw [packetBytes, hsize, UInt16.ofNat_toNat, List.append_assoc, List.take_append_drop, hav]

/-! ## One parse -/

theorem header_append_inj {type length type' length' : UInt16} {part part' : List UInt8}
    (h : header type length ++ part = header type' length' ++ part') :
    type = type' ∧ length = length' ∧ part = part' := by
  obtain ⟨hhdr, hpart⟩ := List.append_inj h (by simp)
  have hld := ldProxyHeader_header (holds_bufOf (header type length) fun _ => 0)
  rw [hhdr] at hld
  have hld' := ldProxyHeader_header (holds_bufOf (header type' length') fun _ => 0)
  exact ⟨hld.1.symm.trans hld'.1, hld.2.symm.trans hld'.2, hpart⟩

theorem code_inj {type type' : PacketType} (h : type.code = type'.code) : type = type' := by
  have hof := congrArg PacketType.ofCode h
  rw [PacketType.ofCode_code, PacketType.ofCode_code] at hof
  exact Option.some.inj hof

/-- The packet with which a stream begins is determined. -/
theorem packetBytes_append_inj {p q : PacketType × List UInt8} {rest rest' : List UInt8}
    (hp : Payload p.2) (hq : Payload q.2)
    (h : packetBytes p.1 p.2 ++ rest = packetBytes q.1 q.2 ++ rest') : p = q ∧ rest = rest' := by
  rw [packetBytes, packetBytes, List.append_assoc, List.append_assoc] at h
  obtain ⟨hcode, hlength, hpayload⟩ := header_append_inj h
  have hsize : p.2.length = q.2.length := by
    rw [← hp.toNat_length, hlength, hq.toNat_length]
  obtain ⟨heq, hrest⟩ := List.append_inj hpayload hsize
  exact ⟨Prod.ext (code_inj hcode) heq, hrest⟩

/-- A payload that is too short does not begin with a whole one. -/
theorem packetBytes_append_ne {p : PacketType × List UInt8} {rest part : List UInt8}
    {type length : UInt16} (hp : Payload p.2) (hlt : part.length < length.toNat) :
    packetBytes p.1 p.2 ++ rest ≠ header type length ++ part := by
  intro h
  rw [packetBytes, List.append_assoc] at h
  obtain ⟨-, rfl, rfl⟩ := header_append_inj h
  rw [hp.toNat_length, List.length_append] at hlt
  omega

/-! ## The condition -/

section

variable {σ : Type} (H : PacketHandlers σ)

/-- What the handler of a whole packet does. -/
abbrev PacketHandlers.whole (p : PacketType × List UInt8) (st : σ) : Handled × σ :=
  H.handle p.1 (.ofNat p.2.length) p.2 st

/-- A stream that begins with a whole packet of a known type. -/
def StartsWhole (stream : List UInt8) : Prop :=
  ∃ p : PacketType × List UInt8, ∃ rest, Payload p.2 ∧ stream = packetBytes p.1 p.2 ++ rest

/-- The handlers take whole packets off a stream, they succeed and do not cancel the thread, and
they leave a rest of the stream and a state. -/
inductive Comes : List UInt8 → σ → List UInt8 → σ → Prop
  | here {stream : List UInt8} {st : σ} : Comes stream st stream st
  | packet {p : PacketType × List UInt8} {rest stream : List UInt8} {st st' : σ} (hp : Payload p.2)
      (hret : 0 ≤ (H.whole p st).1.ret) (hgo : (H.whole p st).1.cancelled = false)
      (h : Comes rest (H.whole p st).2 stream st') :
      Comes (packetBytes p.1 p.2 ++ rest) st stream st'

/-- Behind packets whose handlers succeed, the stream ends inside the payload of a packet of a known
type, after its first byte. -/
def CutInPayload (stream : List UInt8) (st : σ) : Prop :=
  ∃ type length part st', Comes H stream st (header (PacketType.code type) length ++ part) st' ∧
    part ≠ [] ∧ part.length < length.toNat

/-- The state in which the thread first calls `remove_member`: behind packets whose handlers succeed,
for lack of another whole packet, or after a handler that fails. -/
def Removes (stream : List UInt8) (st st' : σ) : Prop :=
  (∃ rest, Comes H stream st rest st' ∧ ¬ StartsWhole rest) ∨
    ∃ p rest s, Comes H stream st (packetBytes p.1 p.2 ++ rest) s ∧ Payload p.2 ∧
      (H.whole p s).1.ret < 0 ∧ (H.whole p s).1.cancelled = false ∧ st' = (H.whole p s).2

/-- The end of the connection is noticed: it is not closed inside a payload after its first byte, and
where the thread first calls `remove_member`, the key of its peer is in `hash_table`. -/
structure EndsWell (fin : Ending) (stream : List UInt8) (st : σ) : Prop where
  notCut : ¬ (fin = .closed ∧ CutInPayload H stream st)
  listed : ∀ st', Removes H stream st st' → H.listed st' = true

variable {H} {fin : Ending} {stream rest : List UInt8} {st : σ}

/-- A payload that is too short is not one of a whole packet. -/
theorem not_startsWhole_cut (type : UInt16) {length : UInt16} {part : List UInt8}
    (hlt : part.length < length.toNat) : ¬ StartsWhole (header type length ++ part) := by
  rintro ⟨p, rest, hp, h⟩
  exact packetBytes_append_ne hp hlt h.symm

theorem not_startsWhole_short (hlt : stream.length < proxyHlen) : ¬ StartsWhole stream := by
  rintro ⟨p, rest, -, rfl⟩
  simp only [packetBytes, List.length_append, length_header, proxyHlen] at hlt
  omega

theorem not_startsWhole_header {type length : UInt16} (hbad : PacketType.ofCode type = none ∨
    length.toNat = 0 ∨ rest.length < length.toNat ∧ rest = []) :
    ¬ StartsWhole (header type length ++ rest) := by
  rcases hbad with hnone | hzero | ⟨hlt, -⟩
  · rintro ⟨p, rest', -, h⟩
    rw [packetBytes, List.append_assoc] at h
    obtain ⟨rfl, -⟩ := header_append_inj h
    rw [PacketType.ofCode_code] at hnone
    cases hnone
  · rintro ⟨p, rest', hp, h⟩
    rw [packetBytes, List.append_assoc] at h
    obtain ⟨-, rfl, -⟩ := header_append_inj h
    have hpos := hp.pos
    rw [hp.toNat_length] at hzero
    omega
  · exact not_startsWhole_cut _ hlt

theorem comes_of_not_startsWhole (hno : ¬ StartsWhole stream) {st' : σ} :
    Comes H stream st rest st' ↔ rest = stream ∧ st' = st := by
  constructor
  · intro h
    cases h with
    | here => exact ⟨rfl, rfl⟩
    | packet hp hret hgo h => exact absurd ⟨_, _, hp, rfl⟩ hno
  · rintro ⟨rfl, rfl⟩
    exact .here

theorem comes_packet {p : PacketType × List UInt8} (hp : Payload p.2) {left : List UInt8} {st' : σ} :
    Comes H (packetBytes p.1 p.2 ++ rest) st left st' ↔
      (left = packetBytes p.1 p.2 ++ rest ∧ st' = st) ∨
      (0 ≤ (H.whole p st).1.ret ∧ (H.whole p st).1.cancelled = false ∧
        Comes H rest (H.whole p st).2 left st') := by
  constructor
  · intro h
    generalize hs : packetBytes p.1 p.2 ++ rest = stream at h
    cases h with
    | here => exact .inl ⟨rfl, rfl⟩
    | packet hq hret hgo h =>
      obtain ⟨rfl, rfl⟩ := packetBytes_append_inj hp hq hs
      exact .inr ⟨hret, hgo, h⟩
  · rintro (⟨rfl, rfl⟩ | ⟨hret, hgo, h⟩)
    · exact .here
    · exact .packet hp hret hgo h

/-- Without a whole packet, the key of the peer has to be in the table. -/
theorem endsWell_of_not_startsWhole (hno : ¬ StartsWhole stream) :
    EndsWell H fin stream st ↔ ¬ (fin = .closed ∧ ∃ type length part,
      stream = header (PacketType.code type) length ++ part ∧ part ≠ [] ∧
        part.length < length.toNat) ∧ H.listed st = true := by
  constructor
  · rintro ⟨hcut, hlisted⟩
    refine ⟨?_, hlisted st (.inl ⟨stream, .here, hno⟩)⟩
    rintro ⟨hfin, type, length, part, rfl, hpart⟩
    exact hcut ⟨hfin, type, length, part, st, .here, hpart⟩
  · rintro ⟨hcut, hlisted⟩
    refine ⟨?_, ?_⟩
    · rintro ⟨hfin, type, length, part, st', h, hpart⟩
      obtain ⟨heq, -⟩ := (comes_of_not_startsWhole hno).1 h
      exact hcut ⟨hfin, type, length, part, heq.symm, hpart⟩
    · rintro st' (⟨rest, h, -⟩ | ⟨p, rest, s, h, hp, -⟩)
      · rwa [((comes_of_not_startsWhole hno).1 h).2]
      · exact absurd ⟨p, rest, hp, ((comes_of_not_startsWhole hno).1 h).1.symm⟩ hno

/-- With a whole packet, it depends on its handler. -/
theorem endsWell_packet {p : PacketType × List UInt8} (hp : Payload p.2) :
    EndsWell H fin (packetBytes p.1 p.2 ++ rest) st ↔ ((H.whole p st).1.cancelled = false →
      if (H.whole p st).1.ret < 0 then H.listed (H.whole p st).2 = true
      else EndsWell H fin rest (H.whole p st).2) := by
  constructor
  · rintro ⟨hcut, hlisted⟩ hgo
    split_ifs with hneg
    · exact hlisted _ (.inr ⟨p, rest, st, .here, hp, hneg, hgo, rfl⟩)
    · have hstep {left : List UInt8} {s : σ} (h : Comes H rest (H.whole p st).2 left s) :
          Comes H (packetBytes p.1 p.2 ++ rest) st left s := .packet hp (not_lt.1 hneg) hgo h
      refine ⟨?_, ?_⟩
      · rintro ⟨hfin, type, length, part, s, h, hpart⟩
        exact hcut ⟨hfin, type, length, part, s, hstep h, hpart⟩
      · rintro st' (⟨left, h, hno⟩ | ⟨q, left, s, h, hq⟩)
        · exact hlisted st' (.inl ⟨left, hstep h, hno⟩)
        · exact hlisted st' (.inr ⟨q, left, s, hstep h, hq⟩)
  · intro hwell
    have hcases {left : List UInt8} {s : σ} (h : Comes H (packetBytes p.1 p.2 ++ rest) st left s) :
        (left = packetBytes p.1 p.2 ++ rest ∧ s = st) ∨
          Comes H rest (H.whole p st).2 left s ∧ EndsWell H fin rest (H.whole p st).2 := by
      refine ((comes_packet hp).1 h).imp_right fun ⟨hret, hgo, hrest⟩ => ⟨hrest, ?_⟩
      have hif := hwell hgo
      rwa [if_neg (not_lt.2 hret)] at hif
    refine ⟨?_, ?_⟩
    · rintro ⟨hfin, type, length, part, s, h, hpart, hlt⟩
      rcases hcases h with ⟨heq, -⟩ | ⟨hrest, hend⟩
      · exact packetBytes_append_ne hp hlt heq.symm
      · exact hend.notCut ⟨hfin, type, length, part, s, hrest, hpart, hlt⟩
    · rintro st' (⟨left, h, hno⟩ | ⟨q, left, s, h, hq, hneg, hgo, rfl⟩)
      · rcases hcases h with ⟨rfl, -⟩ | ⟨hrest, hend⟩
        · exact absurd ⟨p, rest, hp, rfl⟩ hno
        · exact hend.listed st' (.inl ⟨left, hrest, hno⟩)
      · rcases hcases h with ⟨heq, rfl⟩ | ⟨hrest, hend⟩
        · obtain ⟨rfl, rfl⟩ := packetBytes_append_inj hq hp heq
          have hif := hwell hgo
          rwa [if_pos hneg] at hif
        · exact hend.listed _ (.inr ⟨q, left, s, hrest, hq, hneg, hgo, rfl⟩)

end

/-! ## One pass -/

section

variable {σ : Type} {H : PacketHandlers σ} {t : EthThread σ} {fin : Ending}

/-- What is left of a pass adds to the trace. -/
theorem EthThread.evaluate_adds (t : EthThread σ) (payload : List UInt8) :
    ∃ e es, (t.evaluate H payload).2.trace = t.trace ++ e :: es := by
  rw [EthThread.evaluate, EthThread.dispatch]
  cases PacketType.ofCode t.prxyhdr.type with
  | none => exact ⟨.remove, [], rfl⟩
  | some type =>
    dsimp only
    split_ifs
    · exact ⟨_, [.remove], List.append_assoc ..⟩
    · exact ⟨_, [], rfl⟩

theorem EthThread.receive_adds {t t' : EthThread σ} {alive : Bool}
    (h : t.receive H = some (alive, t')) : ∃ e es, t'.trace = t.trace ++ e :: es := by
  obtain ⟨⟨size, payload, rio, sys⟩, -, h⟩ := Option.bind_eq_some_iff.1 h
  dsimp only at h
  generalize hu : ({ t with prxyhdr := _, rio := rio, sys := sys } : EthThread σ) = u at h
  have htrace : u.trace = t.trace := by rw [← hu]
  by_cases hs : size ≤ 0
  · rw [if_pos hs] at h
    by_cases hlisted : H.listed u.st = true
    · simp only [EthThread.remove, hlisted, Bool.not_true, Bool.not_false, if_true, Option.pure_def,
        Option.some.injEq, Prod.mk.injEq] at h
      obtain ⟨-, rfl⟩ := h
      exact ⟨.remove, [], by rw [htrace]⟩
    · simp only [EthThread.remove, hlisted, Bool.not_false, Bool.not_true, Bool.false_eq_true,
        if_false, Option.pure_def, Option.some.injEq] at h
      obtain ⟨e, es, hadds⟩ := (u.remove H).2.evaluate_adds (H := H) payload
      have h' : (u.remove H).2.evaluate H payload = (alive, t') := h
      rw [h'] at hadds
      exact ⟨.remove, e :: es, by rw [hadds, EthThread.remove, htrace, List.append_assoc]; rfl⟩
  · simp only [if_neg hs, Bool.not_true, Bool.false_eq_true, if_false, Option.pure_def,
      Option.some.injEq] at h
    obtain ⟨e, es, hadds⟩ := u.evaluate_adds (H := H) payload
    rw [h, htrace] at hadds
    exact ⟨e, es, hadds⟩

/-- A read of a header leaves the trace and the rest of the process. -/
theorem readHeader_frame {size : Int} {t' : EthThread σ} (h : t.readHeader = some (size, t')) :
    t'.trace = t.trace ∧ t'.st = t.st := by
  obtain ⟨⟨_, _, _, _⟩, -, heq⟩ := Option.bind_eq_some_iff.1 h
  simp only [Option.pure_def, Option.some.injEq, Prod.mk.injEq] at heq
  rw [← heq.2]
  exact ⟨rfl, rfl⟩

/-- Every pass adds to the trace. -/
theorem ethPass_adds {alive : Bool} {t' : EthThread σ} (h : ethPass H t = some (alive, t')) :
    ∃ e es, t'.trace = t.trace ++ e :: es := by
  obtain ⟨⟨size, t₁⟩, hhdr, h⟩ := Option.bind_eq_some_iff.1 h
  obtain ⟨htrace, -⟩ := readHeader_frame hhdr
  dsimp only at h
  by_cases hs : size ≤ 0
  · rw [if_pos hs] at h
    by_cases hlisted : H.listed t₁.st = true
    · simp only [EthThread.remove, hlisted, Bool.not_true, Bool.not_false, if_true, Option.pure_def,
        Option.some.injEq, Prod.mk.injEq] at h
      obtain ⟨-, rfl⟩ := h
      exact ⟨.remove, [], by rw [htrace]⟩
    · simp only [EthThread.remove, hlisted, Bool.not_false, Bool.not_true, Bool.false_eq_true,
        if_false] at h
      obtain ⟨e, es, hadds⟩ := EthThread.receive_adds (t := (t₁.remove H).2) h
      exact ⟨.remove, e :: es, by rw [hadds, EthThread.remove, htrace, List.append_assoc]; rfl⟩
  · simp only [if_neg hs, Bool.not_true, Bool.false_eq_true, if_false] at h
    obtain ⟨e, es, hadds⟩ := EthThread.receive_adds h
    exact ⟨e, es, by rw [hadds, htrace]⟩

/-- A pass that calls `remove_member` before anything else: the thread ends if the key of its peer is
in the table. Otherwise it goes on, or something follows before it ends. -/
structure RemovesFirst (H : PacketHandlers σ) (t : EthThread σ) : Prop where
  listed : H.listed t.st = true →
    ∃ t', ethPass H t = some (false, t') ∧ t'.trace = t.trace ++ [.remove]
  unlisted : H.listed t.st = false → ∀ alive t', ethPass H t = some (alive, t') →
    (alive = true ∧ t'.trace = t.trace ++ [.remove]) ∨
      ∃ e es, t'.trace = t.trace ++ .remove :: e :: es

/-- The read of a header that is there. -/
theorem readHeader_draining (h : Draining fin t.rio t.sys) {type length : UInt16}
    {rest : List UInt8} (hav : avail t.rio t.sys = header type length ++ rest) :
    ∃ rio sys, t.readHeader =
        some (4, { t with rio := rio, sys := sys, prxyhdr := ⟨htons type, htons length⟩ }) ∧
      Draining fin rio sys ∧ avail rio sys = rest := by
  have hlen : (header type length).length = proxyHlen := length_header ..
  have hle : proxyHlen ≤ (avail t.rio t.sys).length := by simp [hav, hlen]
  obtain ⟨r, rio, sys, hr, ⟨-, rfl, h', hav'⟩ | ⟨hlt, -⟩ | ⟨hlt, -⟩⟩ :=
    rioReadnb_draining proxyHlen h
  · rw [hav, List.take_left' hlen] at hr
    rw [hav, List.drop_left' hlen] at hav'
    refine ⟨rio, sys, ?_, h', hav'⟩
    have hld := ldProxyHeader_of_holds (h := ⟨htons type, htons length⟩) (holds_append.1
      (holds_bufOf (header type length ++ t.prxyhdr.bytes.drop (header type length).length)
        fun _ => 0)).1
    rw [EthThread.readHeader, hr]
    simp only [Option.bind_eq_bind, Option.bind_some, hld]
    rfl
  · omega
  · omega

/-- A pass that has read a header goes on with the payload. -/
theorem ethPass_of_readHeader {size : Int} {t₁ : EthThread σ} (h : t.readHeader = some (size, t₁))
    (hs : 0 < size) : ethPass H t = t₁.receive H := by
  rw [ethPass, h]
  simp only [Option.bind_eq_bind, Option.bind_some, if_neg (not_le.2 hs), Bool.not_true,
    Bool.false_eq_true, if_false]

/-- A pass that has read a header and gets nothing of a payload calls `remove_member`. -/
theorem removesFirst_of_noPayload {size r : Int} {t₁ : EthThread σ} {payload : List UInt8}
    {rio : RioT} {sys : Sys} (h : t.readHeader = some (size, t₁)) (hs : 0 < size)
    (hr : rioReadnb (ntohs t₁.prxyhdr.length).toNat t₁.rio t₁.sys = some (r, payload, rio, sys))
    (hle : r ≤ 0) : RemovesFirst H t := by
  obtain ⟨htrace, hst⟩ := readHeader_frame h
  have hpass := ethPass_of_readHeader (H := H) h hs
  rw [EthThread.receive] at hpass
  simp only [hr, Option.bind_eq_bind, Option.bind_some, if_pos hle, EthThread.remove, hst, htrace]
    at hpass
  constructor
  · intro hlisted
    simp only [hlisted, Bool.not_true, Bool.not_false, if_true, Option.pure_def] at hpass
    exact ⟨_, hpass, rfl⟩
  · intro hlisted alive t' h'
    simp only [hlisted, Bool.not_false, Bool.not_true, Bool.false_eq_true, if_false,
      Option.pure_def] at hpass
    rw [h', Option.some.injEq] at hpass
    have hadds := EthThread.evaluate_adds (H := H) ⟨rio, sys, ⟨ntohs t₁.prxyhdr.type,
      ntohs t₁.prxyhdr.length⟩, H.removeMember t.st, t.trace ++ [.remove]⟩ payload
    obtain ⟨e, es, hadds⟩ := hadds
    rw [← hpass, List.append_assoc] at hadds
    exact .inr ⟨e, es, hadds⟩

/-- With too few bytes for a header the pass calls `remove_member`: at once, or since there is nothing
for the payload that the bytes announce. -/
theorem ethPass_short (h : Draining fin t.rio t.sys)
    (hlt : (avail t.rio t.sys).length < proxyHlen) : RemovesFirst H t := by
  obtain ⟨size, rio, sys, hr, hend⟩ := rioReadnb_draining proxyHlen h
  obtain ⟨t₁, hhdr, hrio, hsys⟩ : ∃ t₁ : EthThread σ, t.readHeader = some (size, t₁) ∧ t₁.rio = rio ∧
      t₁.sys = sys := by
    rw [EthThread.readHeader, hr]
    exact ⟨_, rfl, rfl, rfl⟩
  obtain ⟨htrace, hst⟩ := readHeader_frame hhdr
  by_cases hs : size ≤ 0
  · -- nothing but the failure has come
    have hpass : ethPass H t = if H.listed t.st then some (false, (t₁.remove H).2)
        else (t₁.remove H).2.receive H := by
      rw [ethPass, hhdr]
      simp only [Option.bind_eq_bind, Option.bind_some, if_pos hs, EthThread.remove, hst]
      cases H.listed t.st <;> rfl
    constructor
    · intro hlisted
      rw [if_pos hlisted] at hpass
      exact ⟨_, hpass, by rw [EthThread.remove, htrace]⟩
    · intro hlisted alive t' h'
      rw [if_neg (by simp [hlisted]), h'] at hpass
      obtain ⟨e, es, hadds⟩ := EthThread.receive_adds hpass.symm
      exact .inr ⟨e, es, by rw [hadds, EthThread.remove, htrace, List.append_assoc]; rfl⟩
  · obtain ⟨hle, -⟩ | ⟨-, -, -, h'⟩ | ⟨-, rfl, -⟩ := hend
    · omega
    · rw [← hrio, ← hsys] at h'
      obtain ⟨r, rio', sys', hr', hle⟩ := rioReadnb_drained (ntohs t₁.prxyhdr.length).toNat h'
      exact removesFirst_of_noPayload hhdr (not_le.1 hs) hr' hle
    · exact absurd (by decide) hs

/-- A pass that has read its header and a payload, or what there was of it. -/
theorem ethPass_payload {type length : UInt16} {rio rio' : RioT} {sys sys' : Sys} {size : Int}
    {payload : List UInt8}
    (h : t.readHeader =
      some (4, { t with rio := rio, sys := sys, prxyhdr := ⟨htons type, htons length⟩ }))
    (hr : rioReadnb length.toNat rio sys = some (size, payload, rio', sys')) (hs : 0 < size) :
    ethPass H t = some (EthThread.evaluate H
      { t with rio := rio', sys := sys', prxyhdr := ⟨type, length⟩ } payload) := by
  rw [ethPass_of_readHeader h (by decide), EthThread.receive]
  simp only [ntohs_htons, hr, Option.bind_eq_bind, Option.bind_some, if_neg (not_le.2 hs),
    Bool.not_true, Bool.false_eq_true, if_false, Option.pure_def]

/-- **A whole packet of a known type is dispatched.** If the handler succeeds, the thread goes on with
what follows unless it has been cancelled; else it calls `remove_member`. -/
theorem ethPass_whole (h : Draining fin t.rio t.sys) {p : PacketType × List UInt8}
    (hp : Payload p.2) (herr : (H.whole p t.st).1.errno ≠ .EINTR) {rest : List UInt8}
    (hav : avail t.rio t.sys = packetBytes p.1 p.2 ++ rest) :
    ∃ t', (0 ≤ (H.whole p t.st).1.ret ∧ ethPass H t = some (!(H.whole p t.st).1.cancelled, t') ∧
        t'.trace = t.trace ++ dispatched [p] ∧ t'.st = (H.whole p t.st).2 ∧
        Draining fin t'.rio t'.sys ∧ avail t'.rio t'.sys = rest) ∨
      ((H.whole p t.st).1.ret < 0 ∧
        ethPass H t =
          some (!H.listed (H.whole p t.st).2 && !(H.whole p t.st).1.cancelled, t') ∧
        t'.trace = t.trace ++ (dispatched [p] ++ [.remove])) := by
  rw [packetBytes, List.append_assoc] at hav
  obtain ⟨rio, sys, hhdr, h₁, hav₁⟩ := readHeader_draining h hav
  have hpos := hp.pos
  have hn : (UInt16.ofNat p.2.length).toNat = p.2.length := hp.toNat_length
  obtain ⟨r, rio', sys', hr, ⟨-, rfl, h₂, hav₂⟩ | ⟨hlt, -⟩ | ⟨hlt, -⟩⟩ :=
    rioReadnb_draining p.2.length h₁
  · rw [hav₁, List.take_left, ← hn] at hr
    rw [hav₁, List.drop_left] at hav₂
    have hpass := ethPass_payload (H := H) hhdr hr (by omega)
    rw [EthThread.evaluate, EthThread.dispatch, PacketType.ofCode_code] at hpass
    dsimp only at hpass
    by_cases hret : (H.whole p t.st).1.ret < 0
    · rw [decide_eq_true hret, if_pos rfl] at hpass
      exact ⟨_, .inr ⟨hret, hpass, List.append_assoc ..⟩⟩
    · rw [decide_eq_false hret, if_neg (by simp)] at hpass
      exact ⟨_, .inl ⟨not_lt.1 hret, hpass, rfl, rfl, ⟨h₂.valid, herr, h₂.ends⟩, hav₂⟩⟩
  · simp [hav₁] at hlt
  · simp [hav₁] at hlt

/-- **The first bytes of a payload are dispatched as the whole of it** when the remote end has
closed the connection. -/
theorem ethPass_cut (h : Draining .closed t.rio t.sys) {type : PacketType} {length : UInt16}
    {part : List UInt8} (hav : avail t.rio t.sys = header type.code length ++ part)
    (hpart : part ≠ []) (hlt : part.length < length.toNat) :
    ∃ alive t', ethPass H t = some (alive, t') ∧
      t.trace ++ [.dispatch type length part] <+: t'.trace := by
  obtain ⟨rio, sys, hhdr, h₁, hav₁⟩ := readHeader_draining h hav
  have hpos : 0 < part.length := List.length_pos_iff.2 hpart
  obtain ⟨r, rio', sys', hr, ⟨hle, -⟩ | ⟨-, rfl, -, -⟩ | ⟨-, -, hfin⟩⟩ :=
    rioReadnb_draining length.toNat h₁
  · rw [hav₁] at hle
    omega
  · rw [hav₁, List.take_of_length_le hlt.le] at hr
    have hpass := ethPass_payload (H := H) hhdr hr (by omega)
    rw [EthThread.evaluate, EthThread.dispatch, PacketType.ofCode_code] at hpass
    dsimp only at hpass
    split_ifs at hpass
    · exact ⟨_, _, hpass, List.prefix_append ..⟩
    · exact ⟨_, _, hpass, List.prefix_rfl⟩
  · cases hfin

/-- **What is neither a whole packet nor cut in its payload is not dispatched**: the pass calls
`remove_member`. -/
theorem ethPass_rejected (h : Draining fin t.rio t.sys) {type length : UInt16}
    {rest : List UInt8} (hav : avail t.rio t.sys = header type length ++ rest)
    (hbad : PacketType.ofCode type = none ∨ length.toNat = 0 ∨
      (rest.length < length.toNat ∧ (fin = .failed ∨ rest = []))) : RemovesFirst H t := by
  obtain ⟨rio, sys, hhdr, h₁, hav₁⟩ := readHeader_draining h hav
  obtain ⟨size, rio', sys', hr, hcase⟩ := rioReadnb_draining length.toNat h₁
  by_cases hs : size ≤ 0
  · exact removesFirst_of_noPayload hhdr (by decide) (by rw [ntohs_htons]; exact hr) hs
  · have hnone : PacketType.ofCode type = none := by
      rw [hav₁] at hcase
      rcases hbad with hnone | hzero | ⟨hlt, hfin⟩
      · exact hnone
      · omega
      · rcases hcase with ⟨hle, -⟩ | ⟨-, rfl, hclosed, -⟩ | ⟨-, rfl, -⟩
        · omega
        · rcases hfin with rfl | rfl
          · cases hclosed
          · simp at hs
        · simp at hs
    have hpass := ethPass_payload (H := H) hhdr hr (not_le.1 hs)
    rw [EthThread.evaluate, EthThread.dispatch, hnone] at hpass
    dsimp only at hpass
    rw [if_pos rfl, EthThread.remove, Bool.not_false, Bool.and_true] at hpass
    constructor
    · intro hlisted
      simp only [hlisted, Bool.not_true] at hpass
      exact ⟨_, hpass, rfl⟩
    · intro hlisted alive t' h'
      simp only [hlisted, Bool.not_false] at hpass
      rw [h', Option.some.injEq, Prod.mk.injEq] at hpass
      obtain ⟨rfl, rfl⟩ := hpass
      exact .inl ⟨rfl, rfl⟩

/-! ## Runs -/

/-- A run only adds to the trace, and a run that ends has added to it. -/
theorem ethHandler_adds (fuel : ℕ) (t : EthThread σ) :
    t.trace <+: (ethHandler H fuel t).2.trace ∧ ((ethHandler H fuel t).1 = .exited →
      ∃ e es, (ethHandler H fuel t).2.trace = t.trace ++ e :: es) := by
  induction fuel generalizing t with
  | zero => exact ⟨List.prefix_rfl, fun h => Status.noConfusion h⟩
  | succ fuel ih =>
    rw [ethHandler]
    cases hpass : ethPass H t with
    | none => exact ⟨List.prefix_rfl, fun h => Status.noConfusion h⟩
    | some r =>
      obtain ⟨alive, t'⟩ := r
      obtain ⟨e, es, hadds⟩ := ethPass_adds hpass
      cases alive with
      | false => exact ⟨⟨e :: es, hadds.symm⟩, fun _ => ⟨e, es, hadds⟩⟩
      | true =>
        obtain ⟨es', hrun⟩ := (ih t').1
        have heq : (ethHandler H fuel t').2.trace = t.trace ++ e :: (es ++ es') := by
          rw [← hrun, hadds, List.append_assoc, List.cons_append]
        exact ⟨⟨_, heq.symm⟩, fun _ => ⟨e, _, heq⟩⟩

/-- A run that has called `remove_member` and gone on is not one that ends there. -/
theorem not_whole_of_goesOn {stream : List UInt8} {before : List Event}
    (ps : List (PacketType × List UInt8)) {t' : EthThread σ}
    (htrace : t'.trace = before ++ (dispatched ps ++ [.remove])) (fuel : ℕ) :
    ¬ WholeThenRemoved stream before (ethHandler H fuel t') := by
  intro hwhole
  obtain ⟨e, es, hadds⟩ := (ethHandler_adds fuel t').2 hwhole.1
  rw [htrace, List.append_assoc, List.append_assoc, List.singleton_append] at hadds
  exact not_whole_of_remove ps hadds hwhole

/-- A run whose first pass calls `remove_member` ends there exactly if the key of the peer is in the
table. -/
theorem RemovesFirst.whole_iff (h : RemovesFirst H t) (stream : List UInt8) (fuel : ℕ) :
    WholeThenRemoved stream t.trace (ethHandler H (fuel + 1) t) ↔ H.listed t.st = true := by
  rw [ethHandler]
  constructor
  · intro hwhole
    by_contra hlisted
    cases hpass : ethPass H t with
    | none =>
      rw [hpass] at hwhole
      exact Status.noConfusion hwhole.1
    | some r =>
      obtain ⟨alive, t'⟩ := r
      rw [hpass] at hwhole
      rcases h.unlisted (by simpa using hlisted) alive t' hpass with ⟨rfl, htrace⟩ | ⟨e, es, htrace⟩
      · exact not_whole_of_goesOn [] htrace fuel hwhole
      · cases alive with
        | false => exact not_whole_of_remove [] htrace hwhole
        | true =>
          obtain ⟨es', hrun⟩ := (ethHandler_adds (H := H) fuel t').1
          rw [htrace, List.append_assoc, List.cons_append, List.cons_append] at hrun
          exact not_whole_of_remove [] hrun.symm hwhole
  · intro hlisted
    obtain ⟨t', hpass, htrace⟩ := h.listed hlisted
    rw [hpass]
    exact .removed rfl htrace

/-- Behind a packet that has been dispatched, it is a question of the rest. -/
theorem whole_packet_iff {p : PacketType × List UInt8} (hp : Payload p.2) {rest : List UInt8}
    {before : List Event} {run : Status × EthThread σ}
    (htrace : before ++ dispatched [p] <+: run.2.trace) :
    WholeThenRemoved (packetBytes p.1 p.2 ++ rest) before run ↔
      WholeThenRemoved rest (before ++ dispatched [p]) run := by
  constructor
  · rintro ⟨hexit, packets, rest', removal, hpackets, hstream, hr, hrun⟩
    rw [hrun, List.prefix_append_right_inj] at htrace
    cases packets with
    | nil => rcases hr with rfl | rfl <;> simp [dispatched] at htrace
    | cons q qs =>
      rw [packetStream_cons, List.append_assoc] at hstream
      obtain ⟨rfl, rfl⟩ := packetBytes_append_inj hp (hpackets q (by simp)) hstream
      exact ⟨hexit, qs, rest', removal, fun r hr => hpackets r (by simp [hr]), rfl, hr,
        by rw [hrun, List.append_assoc]; rfl⟩
  · rintro ⟨hexit, packets, rest', removal, hpackets, rfl, hr, hrun⟩
    refine ⟨hexit, p :: packets, rest', removal, ?_, ?_, hr, ?_⟩
    · simpa [hp] using hpackets
    · rw [packetStream_cons, List.append_assoc]
    · rw [hrun, List.append_assoc]
      rfl

/-- **A stream that ends**: the run dispatches whole packets and then ends exactly if the end is
noticed. -/
theorem ethHandler_whole_iff
    (herr : ∀ type length payload st, (H.handle type length payload st).1.errno ≠ .EINTR)
    (h : Draining fin t.rio t.sys) {fuel : ℕ} (hfuel : (avail t.rio t.sys).length < fuel) :
    WholeThenRemoved (avail t.rio t.sys) t.trace (ethHandler H fuel t) ↔
      EndsWell H fin (avail t.rio t.sys) t.st := by
  induction fuel generalizing t with
  | zero => omega
  | succ fuel ih =>
    rcases stream_cases (avail t.rio t.sys) with hlen | ⟨type, length, rest, hav, hbad⟩ |
      ⟨p, rest, hp, hav⟩ | ⟨type, length, part, hav, hpart, hlt⟩
    · rw [(ethPass_short h hlen).whole_iff, endsWell_of_not_startsWhole (not_startsWhole_short hlen),
        and_iff_right]
      rintro ⟨-, type, length, part, heq, -⟩
      rw [heq, List.length_append, length_header, proxyHlen] at hlen
      omega
    · have hreject := ethPass_rejected (H := H) h hav
        (hbad.imp_right fun hb => hb.imp_right fun hcut => ⟨hcut.1, .inr hcut.2⟩)
      rw [hreject.whole_iff, hav, endsWell_of_not_startsWhole (not_startsWhole_header hbad),
        and_iff_right]
      rintro ⟨-, type', length', part, heq, hpart, hlt⟩
      obtain ⟨rfl, rfl, rfl⟩ := header_append_inj heq
      rcases hbad with hnone | hzero | ⟨-, rfl⟩
      · rw [PacketType.ofCode_code] at hnone
        cases hnone
      · omega
      · exact hpart rfl
    · obtain ⟨t', ⟨hret, hpass, htrace, hst, h', hrest⟩ | ⟨hneg, hpass, htrace⟩⟩ :=
        ethPass_whole h hp (herr _ _ _ _) hav
      · rw [ethHandler, hpass, hav, endsWell_packet hp]
        cases hgo : (H.whole p t.st).1.cancelled with
        | true =>
          refine iff_of_true (.last hp (.inl rfl) rfl ?_) fun hno => Bool.noConfusion hno
          exact htrace.trans (by rw [List.append_nil])
        | false =>
          have hlen : (avail t'.rio t'.sys).length < fuel := by
            rw [hav] at hfuel
            simp only [packetBytes, List.length_append, length_header] at hfuel
            rw [hrest]
            omega
          have hrun := ih h' hlen
          rw [hrest, htrace, hst] at hrun
          have hbegins := (ethHandler_adds (H := H) fuel t').1
          rw [htrace] at hbegins
          rw [if_neg (not_lt.2 hret), imp_iff_right rfl, ← hrun]
          exact whole_packet_iff hp hbegins
      · rw [ethHandler, hpass, hav, endsWell_packet hp, if_pos hneg]
        cases hgo : (H.whole p t.st).1.cancelled with
        | true =>
          refine iff_of_true ?_ fun hno => Bool.noConfusion hno
          rw [Bool.not_true, Bool.and_false]
          exact .last hp (.inr rfl) rfl htrace
        | false =>
          cases hlisted : H.listed (H.whole p t.st).2 with
          | true =>
            refine iff_of_true ?_ fun _ => rfl
            exact .last hp (.inr rfl) rfl htrace
          | false =>
            refine iff_of_false ?_ fun hno => Bool.noConfusion (hno rfl)
            exact not_whole_of_goesOn [p] htrace fuel
    · have hno := not_startsWhole_cut type.code hlt
      rw [endsWell_of_not_startsWhole (hav ▸ hno)]
      cases fin with
      | closed =>
        refine iff_of_false ?_ fun hwell => hwell.1 ⟨rfl, type, length, part, hav, hpart, hlt⟩
        obtain ⟨alive, t', hpass, hbegins⟩ := ethPass_cut (H := H) h hav hpart hlt
        intro hwhole
        refine hlt.ne (hwhole.length_payload (hbegins.trans ?_))
        rw [ethHandler, hpass]
        cases alive with
        | false => exact List.prefix_rfl
        | true => exact (ethHandler_adds fuel t').1
      | failed =>
        rw [(ethPass_rejected h hav (.inr (.inr ⟨hlt, .inl rfl⟩))).whole_iff, and_iff_right]
        rintro ⟨hfin, -⟩
        cases hfin

end

/-- **Truncated streams.** A connection ends, closed by the remote end or by a failing call; its
bytes come in any chunks. For all handlers that do not leave `errno` at `EINTR` (`rio_write` never
does, `rioWrite_spec`), whatever they return and do to the rest of the process, and whatever
`prxyhdr` holds: `eth_handler` dispatches only whole packets with which the stream begins and then
removes the peer, or has been cancelled, if and only if the stream is not closed inside the payload
of a packet of a known type after at least one byte of it, behind packets whose handlers succeed, and
the key of the peer is in `hash_table` where the thread first calls `remove_member`. -/
theorem dispatches_whole_iff {σ : Type} {H : PacketHandlers σ}
    (herr : ∀ type length payload st, (H.handle type length payload st).1.errno ≠ .EINTR)
    {fin : Ending} {rio : RioT} {sys : Sys} (h : Draining fin rio sys) (prxyhdr : ProxyHeader)
    (st : σ) {fuel : ℕ} (hfuel : (avail rio sys).length < fuel) :
    WholeThenRemoved (avail rio sys) [] (ethHandler H fuel ⟨rio, sys, prxyhdr, st, []⟩) ↔
      EndsWell H fin (avail rio sys) st :=
  ethHandler_whole_iff (t := ⟨rio, sys, prxyhdr, st, []⟩) herr h hfuel

/-- A DATA packet that announces three bytes, of which one is delivered before the stream ends with
the calls `fin`. -/
def dataCut (fin : List InCall) : Sys := ⟨.ok, deliver [[0xAB, 0xCD, 0, 3, 1]] ++ fin, [], [], []⟩

/-- If the connection is reset after that byte, nothing is dispatched. -/
theorem dispatches_whole_reset : WholeThenRemoved [0xAB, 0xCD, 0, 3, 1] []
    (ethHandler quietHandlers 6 ⟨rioReadinit, dataCut [.poll none, .read (.error (.other 104))],
      ⟨0, 0⟩, (), []⟩) := by
  have h : Draining .failed rioReadinit (dataCut [.poll none, .read (.error (.other 104))]) :=
    ⟨rioReadinit_valid, by decide, .chunk (by decide) (by decide)
      (.failedRead [] (by decide) (by decide))⟩
  exact (dispatches_whole_iff (fun _ _ _ _ => Errno.noConfusion) h ⟨0, 0⟩ () (by decide)).2
    ⟨by simp, fun _ _ => rfl⟩

/-- **One byte is dispatched as a payload of three** when the remote end closes after it. -/
theorem truncated_packet_dispatched :
    Draining .closed rioReadinit (dataCut (deliver [[], []])) ∧
      avail rioReadinit (dataCut (deliver [[], []])) = [0xAB, 0xCD, 0, 3, 1] ∧
      ¬ WholeThenRemoved [0xAB, 0xCD, 0, 3, 1] []
        (ethHandler quietHandlers 6 ⟨rioReadinit, dataCut (deliver [[], []]), ⟨0, 0⟩, (), []⟩) := by
  refine ⟨⟨rioReadinit_valid, by decide, .chunk (by decide) (by decide) (.closed (.eof []))⟩, rfl,
    fun h => ?_⟩
  have htrace : (ethHandler quietHandlers 6 ⟨rioReadinit, dataCut (deliver [[], []]), ⟨0, 0⟩, (),
      []⟩).2.trace = [.dispatch .data 3 [1], .remove] := by decide +kernel
  have hbegins : [] ++ [Event.dispatch .data 3 [1]] <+: (ethHandler quietHandlers 6 ⟨rioReadinit,
      dataCut (deliver [[], []]), ⟨0, 0⟩, (), []⟩).2.trace := ⟨[.remove], htrace.symm⟩
  exact absurd (h.length_payload hbegins) (by decide)

end LinkProxy.Handlers
