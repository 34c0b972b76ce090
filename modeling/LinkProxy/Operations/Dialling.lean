import LinkProxy.Foundations.Marks
import LinkProxy.Operations.Reentry

/-!
# The addresses that `Link_State` dials

`Link_State` calls `connectbyaddr` for a source that is not a member, and for the proxies of the
records that are not. The handler of `Operations.Program` once more, with a mark at every `connect`:
the proxy that is meant, as it stands in the packet, and the address that is dialled. Without the
marks it is the handler of `Operations.Program` (`erase_linkState`).

The port goes through `ntohs` and is stored as it is, and the address of a record is read from the
front of the record, where its time stands. `advertised_iff` says exactly for which packets and
tables every address that is dialled is the one that is meant. Only two proxies can be dialled, the
source and the first unknown one of the records: behind the latter the run does not go on.
-/

namespace LinkProxy.Dialling

open Bytes Wire Peers Gossip Marking

open Program (Command Stop Proc Thread World Dial handle start table getLinkState clock setTimestamp
  writeBegin writeEnd findAddress initialJoinClient addMember zeroed Unknown firstUnknown)

/-- `struct sockaddr_in`, with the values that it has in memory. -/
structure SockaddrIn where
  sinFamily : UInt16
  sinPort : UInt16
  sinAddr : UInt32
  deriving DecidableEq, Repr

/-- `AF_INET`. -/
def afInet : UInt16 := 2

/-- A call of `connect`: the proxy that it is for, as it stands in the packet, and the address. -/
structure Connect where
  proxy : LinkState
  peeraddr : SockaddrIn

/-- A program with a mark for every `connect`. -/
abbrev Dialler := Marking Connect Command.Reply Stop

/-! ## The handler -/

/-- `connectbyaddr` behind `connect`. -/
def join (addr : UInt32) (c : Dial) : Proc (Option Ptr) := do
  findAddress c.sockname fun _ => addr
  let ls ← initialJoinClient c
  addMember c.ptr (ls.getD zeroed)
  return some c.ptr

/-- `connectbyaddr`, called for a proxy. -/
def connectbyaddr (proxy : LinkState) (addr : UInt32) (port : UInt16) : Dialler (Option Ptr) := do
  let c ← embed (Program.dial addr port)
  if c.socket ≠ 0 then return none
  if !c.setsockopt then return none
  mark ⟨proxy, ⟨afInet, port, addr⟩⟩
  if !c.connect then return none
  embed (join addr c)

section

variable (dm : DataModel) (d : Buf)

/-- A new `Peer` gets the time of the clock. -/
def stampNew : Option Ptr → Proc Unit
  | none => .stop .fault
  | some pp => do setTimestamp pp (← clock)

/-- The record at an offset, after the lookup of its proxy. -/
def updateRecord (ptr : ℕ) : Option Ptr → Dialler Unit
  | none => do
    let ls := ldLinkState d ptr
    let pp ← connectbyaddr (ldRecord dm d ptr).proxy1 ls.ipAddr (ntohs ls.listenPort)
    embed (stampNew pp)
  | some pp =>
    let r := ldRecord dm d ptr
    embed (setTimestamp pp ⟨dm.toLong (ntohl r.sec), dm.toLong (ntohl r.nsec)⟩)

/-- The body of the loop of `Link_State`. -/
def receiveRecord (ptr : ℕ) : Dialler Unit := do
  let r := ldRecord dm d ptr
  let local_ ← embed getLinkState
  if r.proxy1.tapMAC = local_.tapMAC then return
  let m ← embed table
  updateRecord dm d ptr (m.find r.proxy1.tapMAC)

/-- The loop of `Link_State`. -/
def recordLoop : ℕ → ℕ → Dialler Unit
  | 0, _ => return
  | n + 1, ptr => do
    receiveRecord dm d ptr
    recordLoop n (ptr + recordSize dm)

/-- The source, after its lookup. -/
def connectSource (source : LinkState) : Option Ptr → Dialler Unit
  | none => do
    let _ ← connectbyaddr source source.ipAddr (ntohs source.listenPort)
    return
  | some _ => return

/-- The lookup of the source, which is dialled if it is not a member. -/
def receiveSource (source : LinkState) : Dialler Unit := do
  let m ← embed table
  connectSource source (m.find source.tapMAC)

/-- `Link_State`. -/
def linkState (length : UInt16) : Dialler Int := do
  let N := announced d
  if !lengthOk dm N length then return -1
  let source := ldLinkState d 2
  let local_ ← embed getLinkState
  if source.tapMAC = local_.tapMAC then return 0
  embed writeBegin
  receiveSource source
  recordLoop dm d (N * N + N).toNat (2 + linkStateSourceSize)
  embed writeEnd
  return 0

end

/-! ## The same program -/

section

variable {dm : DataModel} {d : Buf}

theorem erase_connectbyaddr (proxy : LinkState) (addr : UInt32) (port : UInt16) :
    erase (connectbyaddr proxy addr port) = Program.connectbyaddr addr port := by
  rw [connectbyaddr, Program.connectbyaddr, erase_embed_bind]
  congr 1
  funext c
  split_ifs
  · rfl
  · rfl
  · rfl
  · exact erase_embed (join addr c)

theorem erase_receiveRecord (ptr : ℕ) :
    erase (receiveRecord dm d ptr) = Program.receiveRecord dm d ptr := by
  rw [receiveRecord, Program.receiveRecord, erase_embed_bind]
  congr 1
  funext ls
  split_ifs
  · rfl
  rw [erase_embed_bind]
  congr 1
  funext m
  cases m.find (ldRecord dm d ptr).proxy1.tapMAC with
  | some pp => exact erase_embed _
  | none =>
    change erase (connectbyaddr _ _ _ >>= fun pp => embed (stampNew pp)) = _
    rw [erase_bind, erase_connectbyaddr]
    congr 1
    funext pp
    rw [erase_embed]
    cases pp <;> rfl

theorem erase_recordLoop (n ptr : ℕ) :
    erase (recordLoop dm d n ptr) = Program.recordLoop dm d n ptr := by
  induction n generalizing ptr with
  | zero => rfl
  | succ n ih =>
    rw [recordLoop, Program.recordLoop, erase_bind, erase_receiveRecord]
    congr 1
    funext _
    exact ih _

theorem erase_receiveSource (source : LinkState) :
    erase (receiveSource source) = Program.receiveSource source := by
  rw [receiveSource, Program.receiveSource, erase_embed_bind]
  congr 1
  funext m
  cases m.find source.tapMAC with
  | some pp => rfl
  | none =>
    change erase (connectbyaddr _ _ _ >>= fun _ => _) = _
    rw [erase_bind, erase_connectbyaddr]
    rfl

/-- **Without the marks it is the handler.** -/
theorem erase_linkState (length : UInt16) :
    erase (linkState dm d length) = Program.linkState dm d length := by
  rw [linkState, Program.linkState]
  dsimp only
  split_ifs
  · rfl
  rw [erase_embed_bind]
  congr 1
  funext ls
  split_ifs
  · rfl
  rw [erase_embed_bind]
  congr 1
  funext _
  rw [erase_bind, erase_receiveSource]
  congr 1
  funext _
  rw [erase_bind, erase_recordLoop]
  rfl

end

/-! ## The calls of `connect` -/

section

variable {w : World} {dm : DataModel} {d : Buf} {t : Thread}

/-- The `connect` of a call of `connectbyaddr`, which is made behind `socket` and `setsockopt`. -/
def connects (w : World) (k : ℕ) (proxy : LinkState) (addr : UInt32) (port : UInt16) :
    List Connect :=
  if (w.dial k addr port).socket = 0 ∧ (w.dial k addr port).setsockopt = true then
    [⟨proxy, ⟨afInet, port, addr⟩⟩]
  else []

/-- The `connect` for the source. -/
def sourceConnects (w : World) (d : Buf) (k : ℕ) : List Connect :=
  connects w k (ldLinkState d 2) (ldLinkState d 2).ipAddr (ntohs (ldLinkState d 2).listenPort)

/-- The `connect` for the record at an offset. -/
def recordConnects (w : World) (dm : DataModel) (d : Buf) (k off : ℕ) : List Connect :=
  connects w k (ldRecord dm d off).proxy1 (ldLinkState d off).ipAddr
    (ntohs (ldLinkState d off).listenPort)

theorem marks_connectbyaddr (proxy : LinkState) (addr : UInt32) (port : UInt16) :
    marks (handle w) (connectbyaddr proxy addr port) t = connects w t.replies proxy addr port := by
  rw [connectbyaddr, marks_embed_bind_of_ok (Program.dial_run addr port), connects]
  generalize w.dial t.replies addr port = c
  by_cases hsocket : c.socket = 0
  · cases hopt : c.setsockopt with
    | false => simp only [hsocket, ne_eq, not_true_eq_false, if_false, Bool.not_false, if_true,
        Bool.false_eq_true, and_false]; rfl
    | true =>
      simp only [hsocket, ne_eq, not_true_eq_false, if_false, Bool.not_true, Bool.false_eq_true,
        and_self, if_true]
      refine congrArg (_ :: ·) ?_
      change marks (handle w) (if (!c.connect) = true then _ else _) _ = []
      split_ifs
      · rfl
      · exact marks_embed _ _
  · rw [if_pos hsocket, if_neg fun h => hsocket h.1]
    rfl

/-- A record of a known proxy leads to no `connect`. -/
theorem marks_receiveRecord_known {ptr : ℕ} (hknown : ¬Unknown dm d t.members t.linkState ptr) :
    marks (handle w) (receiveRecord dm d ptr) t = [] := by
  unfold receiveRecord
  rw [marks_embed_bind_of_ok rfl]
  by_cases hlocal : (ldRecord dm d ptr).proxy1.tapMAC = t.linkState.tapMAC
  · rw [if_pos hlocal]
    rfl
  · obtain ⟨pp, hpp⟩ := Option.ne_none_iff_exists'.1 fun hnone => hknown ⟨hlocal, hnone⟩
    rw [if_neg hlocal, marks_embed_bind_of_ok rfl, hpp]
    exact marks_embed _ _

/-- An unknown proxy of a record is dialled. -/
theorem marks_receiveRecord_unknown {ptr : ℕ} (hunknown : Unknown dm d t.members t.linkState ptr) :
    marks (handle w) (receiveRecord dm d ptr) t = recordConnects w dm d t.replies ptr := by
  obtain ⟨hlocal, hnone⟩ := hunknown
  unfold receiveRecord
  rw [marks_embed_bind_of_ok rfl, if_neg hlocal, marks_embed_bind_of_ok rfl, hnone]
  change marks (handle w) (connectbyaddr _ _ _ >>= fun pp => embed (stampNew pp)) t = _
  rw [marks_bind_of_silent fun pp => marks_embed (stampNew pp), marks_connectbyaddr]
  rfl

/-- **The loop dials the first unknown proxy**, and no other. -/
theorem marks_recordLoop (hin : t.inside = true) (n ptr : ℕ) :
    marks (handle w) (recordLoop dm d n ptr) t =
      match firstUnknown dm d t.members t.linkState n ptr with
      | none => []
      | some off => recordConnects w dm d t.replies off := by
  induction n generalizing t ptr with
  | zero => rfl
  | succ n ih =>
    unfold firstUnknown recordLoop
    by_cases hunknown : Unknown dm d t.members t.linkState ptr
    · have hrun := Program.receiveRecord_unknown (w := w) hin hunknown
      rw [← erase_receiveRecord] at hrun
      rw [if_pos hunknown, marks_bind_of_error hrun]
      exact marks_receiveRecord_unknown hunknown
    · obtain ⟨m, hm, hrun⟩ := Program.receiveRecord_known (w := w) hunknown
      rw [← erase_receiveRecord] at hrun
      rw [if_neg hunknown, marks_bind_of_ok hrun, marks_receiveRecord_known hunknown,
        List.nil_append, ← Program.firstUnknown_congr hm]
      exact ih (t := { t with members := m }) hin (ptr + recordSize dm)

/-- The calls of `connect` for the records of a packet. -/
def recordsConnects (w : World) (dm : DataModel) (d : Buf) (m : Members) (ls : LinkState) (k : ℕ) :
    List Connect :=
  match firstUnknown dm d m ls (announced d * announced d + announced d).toNat
    (2 + linkStateSourceSize) with
  | none => []
  | some off => recordConnects w dm d k off

/-- What follows the lookup of the source. -/
theorem marks_records (hin : t.inside = true) :
    marks (handle w) (do
      recordLoop dm d (announced d * announced d + announced d).toNat (2 + linkStateSourceSize)
      embed writeEnd
      return (0 : Int)) t = recordsConnects w dm d t.members t.linkState t.replies := by
  rw [marks_bind_of_silent (fun _ _ => rfl), marks_recordLoop hin]
  rfl

theorem marks_receiveSource :
    marks (handle w) (receiveSource (ldLinkState d 2)) t =
      if (t.members.find (ldLinkState d 2).tapMAC).isSome then [] else
        sourceConnects w d t.replies := by
  rw [receiveSource, marks_embed_bind_of_ok rfl]
  cases t.members.find (ldLinkState d 2).tapMAC with
  | some pp => rfl
  | none =>
    change marks (handle w) (connectbyaddr _ _ _ >>= fun _ => _) t = _
    rw [marks_bind_of_silent (fun _ _ => rfl), marks_connectbyaddr]
    rfl

/-- **The calls of `connect` in a run of `Link_State`**: one for an unknown source, and one for the
first unknown proxy of the records if the run gets there. -/
theorem marks_linkState (length : UInt16) (m : Members) (ls : LinkState)
    (hlen : lengthOk dm (announced d) length = true)
    (hlocal : (ldLinkState d 2).tapMAC ≠ ls.tapMAC) :
    marks (handle w) (linkState dm d length) (start m ls) =
      if (m.find (ldLinkState d 2).tapMAC).isSome then recordsConnects w dm d m ls 0
      else sourceConnects w d 0 ++ match Program.reachedAt w d ls 0 2 with
        | .null => recordsConnects w dm d m ls 1
        | .exits => []
        | .joins => [] := by
  have hsource := Program.receiveSource_inside (w := w) (d := d)
    (t := { start m ls with inside := true }) rfl
  unfold linkState
  simp only [hlen, Bool.not_true, Bool.false_eq_true, if_false]
  rw [marks_embed_bind_of_ok rfl]
  change marks (handle w) (if (ldLinkState d 2).tapMAC = ls.tapMAC then _ else _) _ = _
  rw [if_neg hlocal, marks_embed_bind_of_ok (Program.begin_outside rfl).2, marks_bind,
    marks_receiveSource, erase_receiveSource, hsource]
  cases hfind : (m.find (ldLinkState d 2).tapMAC).isSome with
  | true =>
    simp only [start, hfind, if_true]
    exact marks_records (t := { start m ls with inside := true }) rfl
  | false =>
    simp only [start, hfind, Bool.false_eq_true, if_false]
    congr 1
    cases Program.reachedAt w d ls 0 2 with
    | null => exact marks_records (t := { start m ls with inside := true, replies := 1 }) rfl
    | exits => rfl
    | joins => rfl

end

/-! ## The addresses -/

/-- **The address that is dialled is the one that is meant**: the address and the port have the
bytes that they have in the packet. -/
def Connect.Advertised (e : Connect) : Prop :=
  e.peeraddr.sinAddr = e.proxy.ipAddr ∧ e.peeraddr.sinPort = e.proxy.listenPort

/-- The port of an unknown source has two equal bytes, and at the front of the record of the first
unknown proxy stand its address and its port, with the bytes of the latter exchanged. -/
def Matching (dm : DataModel) (d : Buf) (m : Members) (ls : LinkState) : Prop :=
  (m.find (ldLinkState d 2).tapMAC = none →
    ntohs (ldLinkState d 2).listenPort = (ldLinkState d 2).listenPort) ∧
  ∀ off, firstUnknown dm d m ls (announced d * announced d + announced d).toNat
      (2 + linkStateSourceSize) = some off →
    (ldLinkState d off).ipAddr = (ldRecord dm d off).proxy1.ipAddr ∧
      ntohs (ldLinkState d off).listenPort = (ldRecord dm d off).proxy1.listenPort

theorem mem_connects {w : World} {k : ℕ} {proxy : LinkState} {addr : UInt32} {port : UInt16}
    {e : Connect} (h : e ∈ connects w k proxy addr port) : e = ⟨proxy, ⟨afInet, port, addr⟩⟩ := by
  rw [connects] at h
  split_ifs at h
  · exact List.mem_singleton.1 h
  · cases h

/-- The `connect` for an unknown source. -/
def toSource (d : Buf) : Connect :=
  ⟨ldLinkState d 2, ⟨afInet, ntohs (ldLinkState d 2).listenPort, (ldLinkState d 2).ipAddr⟩⟩

/-- The `connect` for an unknown proxy of the record at an offset. -/
def toRecord (dm : DataModel) (d : Buf) (off : ℕ) : Connect :=
  ⟨(ldRecord dm d off).proxy1,
    ⟨afInet, ntohs (ldLinkState d off).listenPort, (ldLinkState d off).ipAddr⟩⟩

section

variable {w : World} {dm : DataModel} {d : Buf} {length : UInt16} {m : Members} {ls : LinkState}
  {e : Connect}

theorem mem_recordsConnects {k : ℕ} (h : e ∈ recordsConnects w dm d m ls k) :
    ∃ off, firstUnknown dm d m ls (announced d * announced d + announced d).toNat
      (2 + linkStateSourceSize) = some off ∧ e = toRecord dm d off := by
  rw [recordsConnects] at h
  split at h
  · cases h
  · rename_i off hoff
    exact ⟨off, hoff, mem_connects h⟩

/-- A packet that is not accepted, or that is one of the proxy itself, leads to no `connect`. -/
theorem accepted_of_mem_marks (h : e ∈ marks (handle w) (linkState dm d length) (start m ls)) :
    lengthOk dm (announced d) length = true ∧ (ldLinkState d 2).tapMAC ≠ ls.tapMAC := by
  unfold linkState at h
  cases hlen : lengthOk dm (announced d) length with
  | false =>
    simp only [hlen, Bool.not_false, if_true] at h
    cases h
  | true =>
    refine ⟨rfl, fun (hlocal : _ = (start m ls).linkState.tapMAC) => ?_⟩
    simp only [hlen, Bool.not_true, Bool.false_eq_true, if_false] at h
    rw [marks_embed_bind_of_ok rfl, if_pos hlocal] at h
    cases h

/-- Only the source and the first unknown proxy of the records are dialled. -/
theorem mem_marks_linkState (h : e ∈ marks (handle w) (linkState dm d length) (start m ls)) :
    (m.find (ldLinkState d 2).tapMAC = none ∧ e = toSource d) ∨
      ∃ off, firstUnknown dm d m ls (announced d * announced d + announced d).toNat
        (2 + linkStateSourceSize) = some off ∧ e = toRecord dm d off := by
  obtain ⟨hlen, hlocal⟩ := accepted_of_mem_marks h
  rw [marks_linkState length m ls hlen hlocal] at h
  cases hfind : m.find (ldLinkState d 2).tapMAC with
  | some pp =>
    rw [hfind] at h
    exact .inr (mem_recordsConnects h)
  | none =>
    rw [hfind] at h
    rcases List.mem_append.1 h with h | h
    · exact .inl ⟨rfl, mem_connects h⟩
    · refine .inr ?_
      split at h
      · exact mem_recordsConnects h
      · cases h
      · cases h

/-- Every address is refused. -/
def refusing : World := .quiet ⟨0, true, true, false, none, 0, fun _ => none⟩

/-- Where every address is refused, all of them are dialled. -/
theorem marks_refusing (hlen : lengthOk dm (announced d) length = true)
    (hlocal : (ldLinkState d 2).tapMAC ≠ ls.tapMAC) :
    marks (handle refusing) (linkState dm d length) (start m ls) =
      (if (m.find (ldLinkState d 2).tapMAC).isSome then [] else [toSource d]) ++
        match firstUnknown dm d m ls (announced d * announced d + announced d).toNat
          (2 + linkStateSourceSize) with
        | none => []
        | some off => [toRecord dm d off] := by
  rw [marks_linkState length m ls hlen hlocal]
  split_ifs
  · rfl
  · rfl

end

/-- **The advertised address is the one dialled**, in every run, exactly if the packet is not
accepted, is one of the proxy itself, or has matching addresses for the table. -/
theorem advertised_iff (dm : DataModel) (d : Buf) (length : UInt16) (m : Members) (ls : LinkState) :
    (∀ w, ∀ e ∈ marks (handle w) (linkState dm d length) (start m ls), e.Advertised) ↔
      (lengthOk dm (announced d) length = true → (ldLinkState d 2).tapMAC ≠ ls.tapMAC →
        Matching dm d m ls) := by
  constructor
  · intro h hlen hlocal
    have hall := h refusing
    rw [marks_refusing hlen hlocal] at hall
    refine ⟨fun hnone => ?_, fun off hoff => ?_⟩
    · rw [hnone] at hall
      exact (hall (toSource d) (List.mem_append_left _ (List.mem_singleton_self _))).2
    · rw [hoff] at hall
      exact hall (toRecord dm d off) (List.mem_append_right _ (List.mem_singleton_self _))
  · intro h w e he
    obtain ⟨hlen, hlocal⟩ := accepted_of_mem_marks he
    obtain ⟨hsource, hrecord⟩ := h hlen hlocal
    rcases mem_marks_linkState he with ⟨hnone, rfl⟩ | ⟨off, hoff, rfl⟩
    · exact ⟨rfl, hsource hnone⟩
    · exact hrecord off hoff

/-- A packet without records from a proxy that listens on port 8080: port 36895 is dialled. -/
theorem dials_exchanged_port :
    let d := bufOf ([0, 0] ++ [127, 0, 0, 1, 0x1F, 0x90]) fun _ => 0
    lengthOk .lp64 (announced d) 22 = true ∧
      ¬∀ w, ∀ e ∈ marks (handle w) (linkState .lp64 d 22)
        (start Program.noMembers { zeroed with tapMAC := .replicate 6 1 }), e.Advertised := by
  intro d
  have hlen : lengthOk .lp64 (announced d) 22 = true := by decide
  refine ⟨hlen, fun h => ?_⟩
  have hall := h refusing
  rw [marks_refusing hlen (by decide)] at hall
  have hport := (hall (toSource d) (List.mem_append_left _ (List.mem_singleton_self _))).2
  exact absurd hport (by decide)

end LinkProxy.Dialling
