import LinkProxy.Handlers.Forward
import LinkProxy.Handlers.Senders
import LinkProxy.Uthash.Iteration

/-!
# What reaches the members

`tap_handler`, `Link_State_Broadcast` and `leave_handler` write to the members one after the other,
in loops over `hash_table` that remove and free a member if the write to it fails, or in any case.
Here these loops run over the links of the table, with `rio_write` on the connection of each member,
whatever the results of its system calls are.

A member that is still in the table at the end has been sent everything that was meant for it, in
order, and one that has been removed has been sent a part of it, up to some byte, and has been freed
once (`Served`, `tapHandler_served`).
-/

namespace LinkProxy.Handlers

open Bytes Rio Wire Peers Gossip Uthash

/-! ## One write -/

/-- The connections to the members, the times of the last probes, and `errno` of the thread that
writes. -/
structure Outbox where
  errno : Errno
  conn : Ptr → Sys
  probeTs : Ptr → Timespec

/-- The bytes that the connection to a member has accepted. -/
def Outbox.sent (s : Outbox) (p : Ptr) : List UInt8 := (s.conn p).sent

/-- `rio_write(&pp->rio, …)`, with the test of its result after which the member is removed. -/
def writeTo (fails : Int → Bool) (packet : List UInt8) (p : Ptr) (s : Outbox) :
    Option (Bool × Outbox) := do
  let (size, w) ← rioWrite packet { s.conn p with errno := s.errno }
  return (fails size, { s with errno := w.errno, conn := Function.update s.conn p w })

/-- A call of `rio_write` has taken a connection from one state to another. -/
def Wrote (fails : Int → Bool) (packet : List UInt8) (c : Sys) (remove : Bool) (c' : Sys) : Prop :=
  ∃ e size, rioWrite packet { c with errno := e } = some (size, c') ∧ remove = fails size

section

variable {fails : Int → Bool} {packet : List UInt8} {p : Ptr} {s s' : Outbox} {remove : Bool}

theorem writeTo_wrote (h : writeTo fails packet p s = some (remove, s')) :
    Wrote fails packet (s.conn p) remove (s'.conn p) ∧ ∀ q ≠ p, s'.conn q = s.conn q := by
  obtain ⟨⟨size, w⟩, hwrite, h⟩ := Option.bind_eq_some_iff.1 h
  obtain ⟨rfl, rfl⟩ := Prod.mk.inj (Option.some.inj h)
  exact ⟨⟨s.errno, size, by simpa using hwrite, rfl⟩, fun q hq => by simp [hq]⟩

/-- `rio_write` does not leave `errno` at `EINTR`. -/
theorem writeTo_errno (h : writeTo fails packet p s = some (remove, s')) : s'.errno ≠ .EINTR := by
  obtain ⟨⟨size, w⟩, hwrite, h⟩ := Option.bind_eq_some_iff.1 h
  obtain ⟨-, rfl⟩ := Prod.mk.inj (Option.some.inj h)
  exact (rioWrite_spec hwrite).2.1

/-- A part of the packet has been accepted, and all of it if the member is kept. -/
theorem Wrote.sent {c c' : Sys} (h : Wrote fails packet c remove c') (hfails : fails (-1) = true) :
    (∃ k, c'.sent = c.sent ++ packet.take k) ∧ (remove = false → c'.sent = c.sent ++ packet) := by
  obtain ⟨e, size, hwrite, rfl⟩ := h
  obtain ⟨-, -, k, -, hsent, hsize⟩ := rioWrite_spec hwrite
  refine ⟨⟨k, hsent⟩, fun hkept => ?_⟩
  rcases hsize with ⟨-, rfl⟩ | rfl
  · rw [hsent, List.take_length]
  · rw [hfails] at hkept
    cases hkept

end

/-! ## Loops over the members -/

section

variable {hash : MAC → UInt32} {key : Ptr → MAC} {s s₁ s' : Iter Ptr Outbox} {l l₁ l' : List Ptr}
  {stream stream' : Ptr → List UInt8}

/-- From a table of the members `l` to one of the members `l'`: these have been sent what is in
`stream` for them, those that have been removed a part of it, and each of the latter has been freed
once. Nobody is removed to whom nothing was to be sent. -/
structure Served (hash : MAC → UInt32) (key : Ptr → MAC) (stream : Ptr → List UInt8)
    (s : Iter Ptr Outbox) (l : List Ptr) (s' : Iter Ptr Outbox) (l' : List Ptr) : Prop where
  table : s'.At hash key [] l'
  sub : l'.Sublist l
  silent : ∀ p ∈ l, stream p = [] → p ∈ l'
  freed : ∃ gone, s'.freed = s.freed ++ gone ∧ gone.Nodup ∧ ∀ p, p ∈ gone ↔ p ∈ l ∧ p ∉ l'
  whole : ∀ p ∈ l', s'.st.sent p = s.st.sent p ++ stream p
  part : ∀ p ∈ l, ∃ k, s'.st.sent p = s.st.sent p ++ (stream p).take k
  rest : ∀ p ∉ l, s'.st.sent p = s.st.sent p

/-- Nothing is delivered. -/
theorem Served.refl (h : s.At hash key [] l) : Served hash key (fun _ => []) s l s l where
  table := h
  sub := List.Sublist.refl l
  silent _ hp _ := hp
  freed := ⟨[], by simp, List.nodup_nil, fun p => by simp⟩
  whole p _ := by simp
  part p _ := ⟨0, by simp⟩
  rest _ _ := rfl

/-- **One delivery after the other.** -/
theorem Served.trans (h : Served hash key stream s l s₁ l₁)
    (h' : Served hash key stream' s₁ l₁ s' l') :
    Served hash key (fun p => stream p ++ stream' p) s l s' l' := by
  obtain ⟨gone, hfreed, hnodup, hgone⟩ := h.freed
  obtain ⟨gone', hfreed', hnodup', hgone'⟩ := h'.freed
  refine ⟨h'.table, h'.sub.trans h.sub, fun p hp hnil => ?_, ⟨gone ++ gone', ?_, ?_, fun p => ?_⟩,
    fun p hp => ?_, fun p hp => ?_, fun p hp => ?_⟩
  · obtain ⟨hnil, hnil'⟩ := List.append_eq_nil_iff.1 hnil
    exact h'.silent p (h.silent p hp hnil) hnil'
  · rw [hfreed', hfreed, List.append_assoc]
  · refine List.nodup_append.2 ⟨hnodup, hnodup', ?_⟩
    rintro p hp q hq rfl
    exact ((hgone p).1 hp).2 ((hgone' p).1 hq).1
  · rw [List.mem_append, hgone, hgone']
    constructor
    · rintro (⟨hp, hp₁⟩ | ⟨hp₁, hp'⟩)
      · exact ⟨hp, fun hp' => hp₁ (h'.sub.subset hp')⟩
      · exact ⟨h.sub.subset hp₁, hp'⟩
    · rintro ⟨hp, hp'⟩
      by_cases hp₁ : p ∈ l₁
      · exact .inr ⟨hp₁, hp'⟩
      · exact .inl ⟨hp, hp₁⟩
  · rw [h'.whole p hp, h.whole p (h'.sub.subset hp), List.append_assoc]
  · by_cases hp₁ : p ∈ l₁
    · obtain ⟨k, hk⟩ := h'.part p hp₁
      refine ⟨(stream p).length + k, ?_⟩
      rw [hk, h.whole p hp₁, List.append_assoc, List.take_length_add_append]
    · -- the member was removed by the first delivery
      obtain ⟨k, hk⟩ := h.part p hp
      refine ⟨min k (stream p).length, ?_⟩
      rw [h'.rest p hp₁, hk, List.take_append_of_le_length (min_le_right _ _),
        List.take_eq_take_min]
  · rw [h'.rest p fun hp₁ => hp (h.sub.subset hp₁), h.rest p hp]

/-- Only the streams of the members matter. -/
theorem Served.congr (h : Served hash key stream s l s' l')
    (heq : ∀ p ∈ l, stream p = stream' p) : Served hash key stream' s l s' l' where
  table := h.table
  sub := h.sub
  silent p hp hnil := h.silent p hp ((heq p hp).trans hnil)
  freed := h.freed
  whole p hp := heq p (h.sub.subset hp) ▸ h.whole p hp
  part p hp := heq p hp ▸ h.part p hp
  rest := h.rest

/-- A body that writes a packet to its member, and nothing to the others. -/
def Writes (fails : Int → Bool) (packet : Ptr → List UInt8)
    (body : Ptr → Outbox → Option (Bool × Outbox)) : Prop :=
  ∀ p st remove st', body p st = some (remove, st') →
    Wrote fails (packet p) (st.conn p) remove (st'.conn p) ∧ ∀ q ≠ p, st'.conn q = st.conn q

section

variable {fails : Int → Bool} {packet : Ptr → List UInt8}
  {body : Ptr → Outbox → Option (Bool × Outbox)} {kept removed m : List Ptr}

/-- Writes to some of the members, from which those with failed writes are removed. -/
theorem served_of_visitAll (hbody : Writes fails packet body) (hfails : fails (-1) = true)
    (hpacket : ∀ p, packet p ≠ []) (h : s.At hash key [] l) (hm : m.Nodup) (hml : ∀ p ∈ m, p ∈ l)
    (hall : visitAll body m s.st = some (kept, removed, s'.st))
    (hfreed : s'.freed = s.freed ++ removed) (hrep : Rep hash key s'.table l') (hsub : l'.Sublist l)
    (hmem : ∀ p ∈ l, p ∈ l' ↔ p ∉ removed) :
    Served hash key (fun p => if p ∈ m then packet p else []) s l s' l' := by
  have hv := visitAll_visited (f := Outbox.conn) (R := fun p => Wrote fails (packet p)) hbody hm
    hall
  have hout (p : Ptr) (hp : p ∉ m) : s'.st.sent p = s.st.sent p := congrArg Sys.sent (hv.rest p hp)
  refine ⟨⟨hrep, fun p hp hmem' => ?_⟩, hsub, fun p hp hnil => ?_, ⟨removed, hfreed,
    hv.removedSub.nodup hm, fun p => ?_⟩, fun p hp => ?_, fun p _ => ?_, fun p hp => ?_⟩
  · rw [hfreed] at hmem'
    rcases List.mem_append.1 hmem' with hmem' | hmem'
    · exact h.live p (hsub.subset hp) hmem'
    · exact (hmem p (hsub.subset hp)).1 hp hmem'
  · refine (hmem p hp).2 fun hr => ?_
    simp [hv.removedSub.subset hr, hpacket] at hnil
  · constructor
    · intro hp
      have hpl := hml p (hv.removedSub.subset hp)
      exact ⟨hpl, fun hp' => (hmem p hpl).1 hp' hp⟩
    · rintro ⟨hp, hp'⟩
      by_contra hr
      exact hp' ((hmem p hp).2 hr)
  · by_cases hpm : p ∈ m
    · obtain ⟨remove, hw, -, hr⟩ := hv.turn p hpm
      have hkept : remove = false := by
        simpa [hr] using (hmem p (hsub.subset hp)).1 hp
      simpa [hpm, Outbox.sent] using (hw.sent hfails).2 hkept
    · simp [hpm, hout p hpm]
  · by_cases hpm : p ∈ m
    · obtain ⟨remove, hw, -⟩ := hv.turn p hpm
      simpa [hpm, Outbox.sent] using (hw.sent hfails).1
    · exact ⟨0, by simp [hout p hpm]⟩
  · exact hout p fun hpm => hp (hml p hpm)

/-- **A loop that writes a packet to every member.** -/
theorem served_of_hashIter (hbody : Writes fails packet body) (hfails : fails (-1) = true)
    (hpacket : ∀ p, packet p ≠ []) (h : s.At hash key [] l) (hrun : hashIter body s = some s') :
    ∃ l', Served hash key packet s l s' l' := by
  obtain ⟨kept, removed, hall, hfreed, hrep⟩ := h.of_hashIter hrun
  have hnodup : l.Nodup := h.rep.order.nodup
  have hv := visitAll_visited (f := Outbox.conn) (R := fun p => Wrote fails (packet p)) hbody
    hnodup hall
  refine ⟨kept, (served_of_visitAll hbody hfails hpacket h hnodup (fun _ hp => hp) hall hfreed hrep
    hv.keptSub fun p hp => ?_).congr fun p hp => if_pos hp⟩
  obtain ⟨remove, -, hk, hr⟩ := hv.turn p hp
  rw [hk, hr, Bool.not_eq_true]

/-- **A packet is written to one member.** -/
theorem served_of_visit (hbody : Writes fails packet body) (hfails : fails (-1) = true)
    (hpacket : ∀ p, packet p ≠ []) (h : s.At hash key [] l) {pp : Ptr} (hpp : pp ∈ l)
    (hrun : s.visit body pp = some s') :
    ∃ l', Served hash key (fun p => if p = pp then packet p else []) s l s' l' := by
  obtain ⟨kept, removed, hall, hfreed, hrep⟩ := h.of_visit hpp hrun
  refine ⟨_, (served_of_visitAll hbody hfails hpacket h (List.nodup_singleton pp) (by simpa) hall
    hfreed hrep List.filter_sublist fun p hp => by simp [hp]).congr fun p _ => by simp⟩

end

theorem writeTo_writes (fails : Int → Bool) (packet : List UInt8) :
    Writes fails (fun _ => packet) (writeTo fails packet) := fun _ _ _ _ h => writeTo_wrote h

end

/-! ## `tap_handler` -/

section

variable (hash : MAC → UInt32) (key : Ptr → MAC)

/-- What `tap_handler` does with the packet in its buffer. -/
def tapDeliver (write : Write) (s : Iter Ptr Outbox) : Option (Iter Ptr Outbox) :=
  let buffer := bufOf write.buf fun _ => 0
  let body := writeTo (fun size => size ≤ 0) write.bytes
  if ldMAC buffer proxyHlen = Program.broadcastAddr then hashIter body s
  else
    match hashFind hash key (ldLinkState buffer 0).tapMAC s.table with
    | none => some s
    | some pp => s.visit body pp

/-- The tap device and the members. -/
structure TapThread where
  rio : RioT
  sys : Sys
  out : Iter Ptr Outbox

/-- One pass of `tap_handler`. A failed read ends the process. -/
def tapHandlerPass (t : TapThread) : Option TapThread := do
  let (size, frame, rio, sys) ← rioRead (proxyHlen + ethFrameLen) t.rio t.sys
  if size ≤ 0 then none
  let out ← tapDeliver hash key (tapWrite size frame)
    { t.out with st := { t.out.st with errno := sys.errno } }
  return ⟨rio, { sys with errno := out.st.errno }, out⟩

/-- A number of passes of `tap_handler`. -/
def tapHandler : ℕ → TapThread → Option TapThread
  | 0, t => some t
  | n + 1, t => do
    let t ← tapHandlerPass hash key t
    tapHandler n t

end

/-- The frame is sent to a member with the address `mac`. -/
def addressedTo (mac : MAC) (f : List UInt8) : Bool :=
  hDest f = Program.broadcastAddr ∨ lookupKey f = mac

/-- The packets for a member with the address `mac`, out of a list of frames. -/
def tapStream (mac : MAC) (fs : List (List UInt8)) : List UInt8 :=
  (fs.filter (addressedTo mac)).flatMap (packetBytes .data)

section

variable {hash : MAC → UInt32} {key : Ptr → MAC} {s s' : Iter Ptr Outbox} {l : List Ptr}
  {f : List UInt8} {fs : List (List UInt8)} {t t' : TapThread}

theorem packetBytes_ne_nil (type : PacketType) (payload : List UInt8) :
    packetBytes type payload ≠ [] := by
  intro hnil
  have hlen := congrArg List.length hnil
  simp [packetBytes] at hlen

theorem tapStream_singleton (mac : MAC) (f : List UInt8) :
    tapStream mac [f] = if addressedTo mac f then packetBytes .data f else [] := by
  cases h : addressedTo mac f <;> simp [tapStream, h]

theorem tapStream_cons (mac : MAC) (f : List UInt8) (fs : List (List UInt8)) :
    tapStream mac (f :: fs) = tapStream mac [f] ++ tapStream mac fs := by
  simp only [tapStream, ← List.flatMap_append, ← List.filter_append, List.singleton_append]

/-- **The packet of a frame is written to the members that it is for.** -/
theorem tapDeliver_served (h : s.At hash key [] l) (hlen : 14 ≤ f.length)
    (hle : f.length ≤ ethFrameLen) (hrun : tapDeliver hash key (tapWrite f.length f) s = some s') :
    ∃ l', Served hash key (fun p => tapStream (key p) [f]) s l s' l' := by
  have hf : Frame f := ⟨by omega, hle⟩
  have hfails : (fun size : Int => decide (size ≤ 0)) (-1) = true := by decide
  have hbuf : (tapWrite f.length f).buf = tapBuffer (.ofNat f.length) f := by rw [tapWrite_frame hf]
  have hd : ldMAC (bufOf (tapBuffer (.ofNat f.length) f) fun _ => 0) proxyHlen = hDest f :=
    ldMAC_tapBuffer _ (by omega : 0 + 6 ≤ f.length)
  have hk : (ldLinkState (bufOf (tapBuffer (.ofNat f.length) f) fun _ => 0) 0).tapMAC =
      lookupKey f := ldMAC_tapBuffer _ (by omega : 2 + 6 ≤ f.length)
  simp only [tapDeliver, hbuf, bytes_tapWrite hf, hd, hk] at hrun
  split_ifs at hrun with hdest
  · -- a broadcast
    obtain ⟨l', hdel⟩ := served_of_hashIter (writeTo_writes _ (packetBytes .data f)) hfails
      (fun _ => packetBytes_ne_nil _ _) h hrun
    exact ⟨l', hdel.congr fun p _ => by simp [tapStream_singleton, addressedTo, hdest]⟩
  · have hmine (p : Ptr) : addressedTo (key p) f = decide (key p = lookupKey f) := by
      simp [addressedTo, hdest, eq_comm]
    have hrep : Rep hash key s.table l := h.rep
    split at hrun
    · -- no member has the address
      rename_i hnone
      obtain rfl := Option.some.inj hrun
      refine ⟨l, (Served.refl h).congr fun p hp => ?_⟩
      have hkey : key p ≠ lookupKey f := fun heq => by
        have hfind := (hrep.find_eq_some_iff (k := lookupKey f)).2 ⟨hp, heq⟩
        rw [hnone] at hfind
        cases hfind
      simp [tapStream_singleton, hmine, hkey]
    · rename_i pp hfind
      obtain ⟨hpp, hkey⟩ := hrep.find_eq_some_iff.1 hfind
      obtain ⟨l', hdel⟩ := served_of_visit (writeTo_writes _ (packetBytes .data f)) hfails
        (fun _ => packetBytes_ne_nil _ _) h hpp hrun
      refine ⟨l', hdel.congr fun p hp => ?_⟩
      have hiff : key p = lookupKey f ↔ p = pp :=
        ⟨fun heq => hrep.key_inj p hp pp hpp (heq.trans hkey.symm), fun heq => heq ▸ hkey⟩
      simp [tapStream_singleton, hmine, hiff]

/-- The writes to the members do not leave `errno` at `EINTR`. -/
theorem tapDeliver_errno {write : Write} (h : s.At hash key [] l) (herrno : s.st.errno ≠ .EINTR)
    (hrun : tapDeliver hash key write s = some s') : s'.st.errno ≠ .EINTR := by
  have hloop {m : List Ptr} {r : List Ptr × List Ptr × Outbox}
      (hall : visitAll (writeTo (fun size => size ≤ 0) write.bytes) m s.st = some r) :
      r.2.2.errno ≠ .EINTR :=
    visitAll_invariant (P := fun st : Outbox => st.errno ≠ .EINTR)
      (fun p st remove st' _ hw => writeTo_errno hw) herrno hall
  simp only [tapDeliver] at hrun
  split_ifs at hrun
  · obtain ⟨kept, removed, hall, -⟩ := h.of_hashIter hrun
    exact hloop hall
  · split at hrun
    · obtain rfl := Option.some.inj hrun
      exact herrno
    · rename_i pp hfind
      have hrep : Rep hash key s.table l := h.rep
      obtain ⟨hpp, -⟩ := hrep.find_eq_some_iff.1 hfind
      obtain ⟨kept, removed, hall, -⟩ := h.of_visit hpp hrun
      exact hloop hall

/-- **One pass of `tap_handler`** on the next frame. -/
theorem tapHandlerPass_served (h : t.out.At hash key [] l) (hv : t.rio.Valid)
    (hcnt : t.rio.cnt ≤ 0) (hw : t.sys.Delivers (f :: fs)) (hlen : 14 ≤ f.length)
    (hle : f.length ≤ ethFrameLen) (hrun : tapHandlerPass hash key t = some t') :
    t'.rio.Valid ∧ t'.rio.cnt ≤ 0 ∧ t'.sys.Delivers fs ∧
      ∃ l', Served hash key (fun p => tapStream (key p) [f]) t.out l t'.out l' := by
  obtain ⟨rio, sys, hread, hv', hcnt', hw'⟩ := rioRead_frame hv hcnt hw
  rw [tapHandlerPass, hread] at hrun
  simp only [Option.bind_eq_bind, Option.bind_some, show ¬ (f.length : Int) ≤ 0 by omega, if_false,
    Option.pure_def] at hrun
  obtain ⟨out, hout, hrun⟩ := Option.bind_eq_some_iff.1 hrun
  obtain rfl := Option.some.inj hrun
  -- the thread has one `errno` for all its calls
  have hat : Iter.At hash key { t.out with st := { t.out.st with errno := sys.errno } } [] l :=
    ⟨h.rep, h.live⟩
  obtain ⟨l', hdel⟩ := tapDeliver_served hat hlen hle hout
  exact ⟨hv', hcnt', ⟨tapDeliver_errno hat hw'.errno_ne hout, hw'.inp_eq, hw'.size⟩, l',
    ⟨hdel.table, hdel.sub, hdel.silent, hdel.freed, hdel.whole, hdel.part, hdel.rest⟩⟩

/-- **What `tap_handler` delivers.** The tap device delivers frames, one by every `read`, and
`tap_handler` passes them on, over a table of members that it shrinks where writes fail. Every
member that is left has been sent the packets of exactly the frames that are broadcast or are found
to be for its address, each whole, once and in the order of the tap. A member that was removed has
been sent such a stream up to some byte, and has been freed once; nobody is removed to whom no frame
was to be sent. -/
theorem tapHandler_served (h : t.out.At hash key [] l) (hv : t.rio.Valid) (hcnt : t.rio.cnt ≤ 0)
    (hw : t.sys.Delivers fs) (hfs : ∀ f ∈ fs, 14 ≤ f.length ∧ f.length ≤ ethFrameLen)
    (hrun : tapHandler hash key fs.length t = some t') :
    ∃ l', Served hash key (fun p => tapStream (key p) fs) t.out l t'.out l' := by
  induction fs generalizing t l with
  | nil =>
    obtain rfl := Option.some.inj hrun
    exact ⟨l, (Served.refl h).congr fun p _ => rfl⟩
  | cons f fs ih =>
    obtain ⟨t₁, hpass, hrun⟩ := Option.bind_eq_some_iff.1 hrun
    obtain ⟨hlen, hle⟩ := hfs f (by simp)
    obtain ⟨hv₁, hcnt₁, hw₁, l₁, hdel₁⟩ := tapHandlerPass_served h hv hcnt hw hlen hle hpass
    obtain ⟨l', hdel⟩ := ih hdel₁.table hv₁ hcnt₁ hw₁ (fun g hg => hfs g (by simp [hg])) hrun
    exact ⟨l', (hdel₁.trans hdel).congr fun p _ => (tapStream_cons (key p) f fs).symm⟩

end

end LinkProxy.Handlers
