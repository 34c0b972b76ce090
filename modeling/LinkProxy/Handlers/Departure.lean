import LinkProxy.Handlers.Tunnel
import LinkProxy.Operations.Reentry

/-!
# Leaving

A proxy that is told to terminate goes through its table, writes a LEAVE packet to every member,
takes it out of the table and frees it, whatever the write has returned. At the other ends `Leave`
looks the address of the packet up in the table and removes what it finds.

The packet is a structure of its own, which `Leave` reads as a `link_state`: the address stands at
the same offset in both. On LP64 the packet is longer than its header says, but the address is in
front. So on both data models, where the packet arrives, the proxy that has left and nobody else is
taken out of the table (`leaveHandler_removes`).
-/

namespace LinkProxy.Handlers

open Bytes Rio Wire Peers Gossip Uthash

/-! ## The packet -/

section

variable (dm : DataModel) (linkState : LinkState) (timestamp : Timespec)

/-- What a receiver takes for the payload of a LEAVE packet. -/
def leavePayload : List UInt8 := ((leavePacket dm linkState timestamp).drop proxyHlen).take quitLen

theorem leavePacket_drop : (leavePacket dm linkState timestamp).drop proxyHlen =
    le 4 linkState.ipAddr.toNat ++ (le 2 (htons linkState.listenPort).toNat ++
      (linkState.tapMAC.toList ++ (le dm.longSize (stamp timestamp.tvSec).toNat ++
        le dm.longSize (stamp timestamp.tvNsec).toNat))) :=
  List.drop_left' (length_header _ _)

theorem length_leavePayload : (leavePayload dm linkState timestamp).length = quitLen := by
  rw [leavePayload, leavePacket_drop, List.length_take]
  simp only [List.length_append, length_le, Vector.length_toList, quitLen]
  cases dm <;> decide

/-- The packet is that of its payload, and on LP64 there is more behind it. -/
theorem leavePacket_eq : leavePacket dm linkState timestamp =
    packetBytes .leave (leavePayload dm linkState timestamp) ++
      (leavePacket dm linkState timestamp).drop (proxyHlen + quitLen) := by
  rw [packetBytes, length_leavePayload, leavePayload, ← List.drop_drop, List.append_assoc,
    List.take_append_drop]
  exact (List.take_append_drop proxyHlen _).symm

/-- `Leave` reads the address of the sender. -/
theorem ldLinkState_leavePayload (rest : Buf) :
    (ldLinkState (bufOf (leavePayload dm linkState timestamp) rest) 0).tapMAC = linkState.tapMAC := by
  have hfront : ∃ tail, leavePayload dm linkState timestamp =
      le 4 linkState.ipAddr.toNat ++ (le 2 (htons linkState.listenPort).toNat ++
        (linkState.tapMAC.toList ++ tail)) := by
    rw [leavePayload, leavePacket_drop, List.take_append, List.take_append, List.take_append]
    simp only [length_le, Vector.length_toList, quitLen, Nat.reduceSub]
    exact ⟨_, by rw [List.take_of_length_le (by simp), List.take_of_length_le (by simp),
      List.take_of_length_le (by simp)]⟩
  obtain ⟨tail, htail⟩ := hfront
  have hholds := holds_bufOf (leavePayload dm linkState timestamp) rest
  rw [htail] at hholds ⊢
  have hmac := (holds_append.1 (holds_append.1 (holds_append.1 hholds).2).2).1
  exact ldMAC_of_holds (by simpa using hmac)

/-! ## The sender -/

/-- The loop of `leave_handler`. A member is removed whatever the write to it returns. -/
def leaveHandler (s : Iter Ptr Outbox) : Option (Iter Ptr Outbox) :=
  hashIter (writeTo (fun _ => true) (leavePacket dm linkState timestamp)) s

variable {dm linkState timestamp}

/-- **Everybody is told, and freed once.** -/
theorem leaveHandler_empties {hash : MAC → UInt32} {key : Ptr → MAC} {l : List Ptr}
    {s s' : Iter Ptr Outbox} (h : s.At hash key [] l)
    (hrun : leaveHandler dm linkState timestamp s = some s') :
    Rep hash key s'.table [] ∧ s'.freed = s.freed ++ l ∧
      (∀ p ∈ l, ∃ k, s'.st.sent p =
        s.st.sent p ++ (leavePacket dm linkState timestamp).take k) ∧
      ∀ p ∉ l, s'.st.sent p = s.st.sent p := by
  obtain ⟨kept, removed, hall, hfreed, hrep⟩ := h.of_hashIter hrun
  have hnodup : l.Nodup := h.rep.order.nodup
  have hv := visitAll_visited (f := Outbox.conn)
    (R := fun _ => Wrote (fun _ => true) (leavePacket dm linkState timestamp))
    (fun _ _ _ _ hbody => writeTo_wrote hbody) hnodup hall
  have hremove {p : Ptr} (hp : p ∈ l) : p ∈ removed ∧ p ∉ kept := by
    obtain ⟨remove, ⟨e, size, -, rfl⟩, hk, hr⟩ := hv.turn p hp
    exact ⟨hr.2 rfl, fun hmem => Bool.noConfusion (hk.1 hmem)⟩
  obtain rfl : kept = [] := List.eq_nil_iff_forall_not_mem.2 fun p hp =>
    (hremove (hv.keptSub.subset hp)).2 hp
  obtain rfl : removed = l := hv.removedSub.eq_of_length_le
    (hnodup.subperm fun p hp => (hremove hp).1).length_le
  refine ⟨hrep, hfreed, fun p hp => ?_, fun p hp => congrArg Sys.sent (hv.rest p hp)⟩
  obtain ⟨remove, hwrote, -⟩ := hv.turn p hp
  exact (hwrote.sent rfl).1

end

/-! ## The receiver -/

open Program in
/-- `Leave` in a process whose other threads leave the table alone. -/
theorem leave_run {w : World} {t : Thread} {d : Buf} {q : Ptr} (hout : t.inside = false)
    (hothers : ∀ m, w.others m = m) (hfind : t.members.find (ldLinkState d 0).tapMAC = some q) :
    (leave d).run (handle w) t = .ok (0, { t with members := t.members.remove q }) := by
  have hq : t.members.find (t.members.key q) = some q := by
    rw [(Members.mem_of_find hfind).2, hfind]
  have hremove : (removeMember q).run (handle w) t =
      .ok ((), { t with members := t.members.remove q }) := by
    rw [removeMember_found hout hq, hothers, ← hout]
  rw [leave_some hout hfind, hothers]
  exact Prog.run_bind_of_ok hremove

/-- The lookups after one member has been removed. -/
theorem find_remove {m : Members} (hkeys : (m.order.map m.key).Nodup) {mac : MAC} {q : Ptr}
    (hq : m.find mac = some q) (mac' : MAC) :
    (m.remove q).find mac' = if mac' = mac then none else m.find mac' := by
  obtain ⟨hmem, hkey⟩ := Members.mem_of_find hq
  obtain ⟨us, vs, horder⟩ := List.append_of_mem hmem
  have hnodup := m.nodup
  rw [horder] at hnodup
  have hus : q ∉ us := fun hus => (List.nodup_append.1 hnodup).2.2 q hus q (by simp) rfl
  have herase : (m.remove q).order = us ++ vs := by
    change m.order.erase q = _
    rw [horder, List.erase_append_right _ hus, List.erase_cons_head]
  have hfind : (m.remove q).find mac' = (us ++ vs).find? fun p => m.key p == mac' := by
    rw [Members.find, herase]
    rfl
  rw [hfind, Members.find, horder, List.find?_append, List.find?_append, List.find?_cons]
  by_cases hmac : mac' = mac
  · -- no other member has the address
    subst hmac
    rw [if_pos rfl, ← List.find?_append, List.find?_eq_none]
    intro p hp heq
    rw [horder, List.map_append, List.map_cons] at hkeys
    have hnot := (List.nodup_cons.1 (List.nodup_middle.1 hkeys)).1
    rw [hkey, ← eq_of_beq heq, ← List.map_append] at hnot
    exact hnot (List.mem_map_of_mem hp)
  · have hne : (m.key q == mac') = false := by
      rw [hkey]
      exact beq_false_of_ne (Ne.symm hmac)
    rw [if_neg hmac, hne]

/-- The packet handlers of a process with its table, on which `Leave` and `remove_member` work, for
the thread of the peer `pp`. Who takes the peer out of the table cancels the thread. There is no
table any more after a run that has not returned. -/
def withTable {σ : Type} (H : PacketHandlers σ) (w : Program.World) (pp : Ptr) :
    PacketHandlers (σ × Option Program.Thread) where
  handle type length payload st :=
    match type, st.2 with
    | .leave, some u =>
      match (Program.leave (bufOf payload fun _ => 0)).run (Program.handle w) u with
      | .ok (r, u') =>
        (⟨r, .ok, decide (pp ∈ u.members.order ∧ pp ∉ u'.members.order)⟩, (st.1, some u'))
      | .error _ => (⟨0, .ok, false⟩, (st.1, none))
    | type, _ => ((H.handle type length payload st.1).1, ((H.handle type length payload st.1).2, st.2))
  listed st := st.2.any fun u => (u.members.find (u.members.key pp)).isSome
  removeMember st := (H.removeMember st.1, st.2.bind fun u =>
    match (Program.removeMember pp).run (Program.handle w) u with
    | .ok (_, u') => some u'
    | .error _ => none)

/-- A member that is erased has gone if it is the one. -/
theorem mem_and_not_mem_erase_iff {l : List Ptr} (hl : l.Nodup) {p q : Ptr} (hq : q ∈ l) :
    (p ∈ l ∧ p ∉ l.erase q) ↔ p = q := by
  rw [hl.mem_erase_iff, not_and_or, not_not]
  constructor
  · rintro ⟨hp, hpq | hnot⟩
    · exact hpq
    · exact absurd hp hnot
  · rintro rfl
    exact ⟨hq, .inl rfl⟩

/-- **A proxy that leaves is removed, and nobody else.** Whatever the writes return, `leave_handler`
empties the table of the proxy, frees every member once, in the order of the table, and writes to
each a part of the LEAVE packet. A member to which all of it was written, whose `eth_handler` has
read everything before, dispatches it as a LEAVE packet of 20 bytes, on both data models. The thread
is outside of a section and no other thread changes the table meanwhile: where the sender is in the
table, `Leave` takes this one out and leaves all other lookups as they were, and the thread ends
exactly if the sender was its peer. -/
theorem leaveHandler_removes {σ : Type} {dm : DataModel} {linkState : LinkState}
    {timestamp : Timespec} {hash : MAC → UInt32} {key : Ptr → MAC} {l : List Ptr}
    {s s' : Iter Ptr Outbox} (H : PacketHandlers σ) (h : s.At hash key [] l)
    (hrun : leaveHandler dm linkState timestamp s = some s') :
    Rep hash key s'.table [] ∧ s'.freed = s.freed ++ l ∧
    (∀ p ∈ l, ∃ k, s'.st.sent p = s.st.sent p ++ (leavePacket dm linkState timestamp).take k) ∧
    ∀ p ∈ l, s'.st.sent p = s.st.sent p ++ leavePacket dm linkState timestamp →
      ∀ (w : Program.World) (t : EthThread (σ × Option Program.Thread)) (u : Program.Thread)
        (cs : List (List UInt8)) (pp q : Ptr),
        t.rio.Valid → t.sys.Delivers cs →
        avail t.rio t.sys = (s'.st.sent p).drop (s.st.sent p).length →
        t.st.2 = some u → u.inside = false → (∀ m, w.others m = m) →
        (u.members.order.map u.members.key).Nodup → u.members.find linkState.tapMAC = some q →
        ∃ t' u', ethPass (withTable H w pp) t = some (decide (pp ≠ q), t') ∧ t'.st.2 = some u' ∧
          t'.trace = t.trace ++ [.dispatch .leave 20 (leavePayload dm linkState timestamp)] ∧
          u'.inside = false ∧ u'.members.order = u.members.order.erase q ∧
          ∀ mac, u'.members.find mac =
            if mac = linkState.tapMAC then none else u.members.find mac := by
  obtain ⟨hrep, hfreed, hsent, -⟩ := leaveHandler_empties h hrun
  refine ⟨hrep, hfreed, hsent,
    fun p hp hwhole w t u cs pp q hv hw hav hst hout hothers hkeys hq => ?_⟩
  rw [hwhole, List.drop_left, leavePacket_eq] at hav
  have hlength := length_leavePayload dm linkState timestamp
  have hpayload : Payload (leavePayload dm linkState timestamp) :=
    ⟨by rw [hlength]; decide, by rw [hlength]; decide⟩
  have hleave := leave_run (d := bufOf (leavePayload dm linkState timestamp) fun _ => 0) hout hothers
    (by rw [ldLinkState_leavePayload]; exact hq)
  have hgone : (pp ∈ u.members.order ∧ pp ∉ (u.members.remove q).order) ↔ pp = q :=
    mem_and_not_mem_erase_iff u.members.nodup (Members.mem_of_find hq).1
  have hhandle : (withTable H w pp).handle .leave
      (.ofNat (leavePayload dm linkState timestamp).length) (leavePayload dm linkState timestamp)
      t.st = (⟨0, .ok, decide (pp = q)⟩, (t.st.1, some { u with members := u.members.remove q })) := by
    simp only [withTable, hst, hleave, hgone]
  obtain ⟨t', cs', hpass, -, -, -, hst', htrace⟩ :=
    ethPass_handled hpayload hhandle le_rfl Errno.noConfusion hv hw hav
  rw [hlength] at htrace
  rw [← decide_not] at hpass
  exact ⟨t', { u with members := u.members.remove q }, hpass, by rw [hst'], htrace, hout, rfl,
    find_remove hkeys hq⟩

/-! ## Two members -/

/-- The proxy that leaves. -/
def leaving : LinkState := ⟨1, 2, .replicate 6 3, .replicate 6 4⟩

/-- Its members. The connection to the first one cannot be locked, the second one takes the 32 bytes
of the packet in two pieces. -/
def leavingMembers : Iter Ptr Outbox :=
  { sampleThread.out with
    st := ⟨.ok, fun p => ⟨.ok, [], if p = 1 then [.fcntl (some (.other 9))] else
      [.fcntl none, .poll none, .write (.ok 4), .poll none, .write (.ok 28), .fcntl none], [], []⟩,
      fun _ => ⟨0, 0⟩⟩ }

/-- The thread of the second member for the proxy, which it has in its table beside another one. -/
def remaining : Program.Thread where
  inside := false
  members := ⟨[4, 9], by decide, fun p => ⟨⟨0, 0⟩, if p = 4 then leaving else
    ⟨5, 6, .replicate 6 7, .replicate 6 8⟩⟩⟩
  linkState := ⟨7, 8, .replicate 6 2, .replicate 6 9⟩
  replies := 0

/-- Both members are freed, and the second one keeps the other proxy only. Its thread ends. -/
theorem leaveHandler_removes_two : ∃ s' t u,
    leaveHandler .lp64 leaving ⟨7, 8⟩ leavingMembers = some s' ∧ s'.freed = [1, 2] ∧
    ((ethPass (withTable quietHandlers (.quiet ⟨0, true, true, true, none, 0, fun _ => none⟩) 4)
      t).map fun r => (r.1, r.2.st.2)) = some (false, some u) ∧ u.members.order = [9] := by
  have hrun : (leaveHandler .lp64 leaving ⟨7, 8⟩ leavingMembers).map
      (fun s => (s.st.sent 2).length) = some 32 := by
    decide +kernel
  obtain ⟨s', hs', hlength⟩ := Option.map_eq_some_iff.1 hrun
  have hat : leavingMembers.At (fun _ => 0) sampleKey [] [1, 2] :=
    ⟨sampleThread_at.rep, sampleThread_at.live⟩
  obtain ⟨-, hfreed, hsent, hreceive⟩ := leaveHandler_removes quietHandlers hat hs'
  have hwhole : s'.st.sent 2 = leavingMembers.st.sent 2 ++ leavePacket .lp64 leaving ⟨7, 8⟩ := by
    obtain ⟨k, hk⟩ := hsent 2 (by simp)
    have hnil : leavingMembers.st.sent 2 = [] := rfl
    rw [hk, hnil, List.nil_append, List.length_take] at hlength
    have hsize : (leavePacket .lp64 leaving ⟨7, 8⟩).length = 32 := by decide
    rw [hk, List.take_of_length_le (by omega)]
  have hav : (s'.st.sent 2).drop (leavingMembers.st.sent 2).length =
      leavePacket .lp64 leaving ⟨7, 8⟩ := by rw [hwhole, List.drop_left]
  obtain ⟨t, cs, hvalid, hdelivers, hstream, hst⟩ :=
    exists_receiver ((), some remaining) (leavePacket .lp64 leaving ⟨7, 8⟩) (by decide)
  obtain ⟨t', u', hpass, hu', -, -, horder, -⟩ := hreceive 2 (by simp) hwhole
    (.quiet ⟨0, true, true, true, none, 0, fun _ => none⟩) t remaining cs 4 4 hvalid hdelivers
    (hstream.trans hav.symm) (by rw [hst]) rfl (fun _ => rfl) (by decide) (by decide)
  exact ⟨s', t, u', hs', hfreed, by rw [hpass, Option.map_some, hu']; rfl, horder⟩

end LinkProxy.Handlers
