import LinkProxy.Foundations.Loads
import LinkProxy.Operations.Reentry

/-!
# The bytes that the packet handlers read

`eth_handler` passes a handler a pointer to the payload and its length. The handlers of
`Operations.Program` once more, with every byte that they read of the payload as a load: `memcmp`,
`memcpy`, `HASH_FIND` and the accesses through casts of the pointer. Answered from a buffer they are
the handlers of `Operations.Program` (`serve_dispatch`).

Apart from `Quit`, no handler compares the length with what it reads, and `Link_State` does so only
after it has read the number of neighbours, in arithmetic that wraps. `reads_received_iff` says
exactly for which packets all bytes that are read have been received.
-/

namespace LinkProxy.Extents

open Bytes Wire Peers Gossip Loading

open Program (Command Stop Proc Thread World handle start readBegin readEnd writeBegin writeEnd table
  getLinkState clock setTimestamp removeMember connectbyaddr quitMember quitLen)

/-- A packet handler with its loads from the payload. -/
abbrev Handler := Loading Command.Reply Stop

/-! ## Values in the payload -/

/-- A value that is made of the `n` bytes at an offset. -/
def loadAs {β : Type} (n : ℕ) (ld : Buf → ℕ → β) (off : ℕ) : Handler β := do
  return ld (bufOf (← load off n) fun _ => 0) 0

/-- `ETH_ALEN` bytes at an offset. -/
def loadMAC (off : ℕ) : Handler MAC := loadAs 6 ldMAC off

/-- A `uint16_t`. -/
def load16 (off : ℕ) : Handler UInt16 := loadAs 2 ld16 off

/-- A `uint32_t`. -/
def load32 (off : ℕ) : Handler UInt32 := loadAs 4 ld32 off

/-- A `long`. -/
def loadLong (dm : DataModel) (off : ℕ) : Handler UInt32 := loadAs dm.longSize (ldLong dm) off

/-- `HASH_FIND` with the key at an offset. The key of an empty table is not read. -/
def hashFind (off : ℕ) : Handler (Option Ptr) := do
  let m ← embed table
  if m.order = [] then return none
  return m.find (← loadMAC off)

/-! ## The handlers -/

/-- `Data`: `rio_write` takes `length` bytes. -/
def data (length : UInt16) : Handler Int := do
  let _ ← load 0 length.toNat
  embed Program.data

/-- `Leave`, after its read section. -/
def leaveFound : Option Ptr → Proc Int
  | none => return 0
  | some p => do
    removeMember p
    return 0

/-- `Leave`. -/
def leave : Handler Int := do
  embed readBegin
  let pp ← hashFind 6
  embed readEnd
  embed (leaveFound pp)

/-- `Quit`, after its check. -/
def quitAll : Proc Int := do
  writeBegin
  let m ← table
  m.order.forM quitMember
  writeEnd
  .stop .exit

/-- `Quit`. -/
def quit (length : UInt16) : Handler Int := do
  if length ≠ quitLen then return -1
  let _ ← load 0 quitLen.toNat
  embed quitAll

section

variable (dm : DataModel)

/-- A call of `connectbyaddr` with the `link_state` at an offset. -/
def connectAt (off : ℕ) : Handler (Option Ptr) := do
  let addr ← load32 off
  let port ← load16 (off + 4)
  embed (connectbyaddr addr (ntohs port))

/-- A new `Peer` gets the time of the clock. -/
def stampNew : Option Ptr → Proc Unit
  | none => .stop .fault
  | some pp => do setTimestamp pp (← clock)

/-- The record at an offset, after the lookup of its proxy. -/
def updateRecord (ptr : ℕ) : Option Ptr → Handler Unit
  | none => do
    let pp ← connectAt ptr
    embed (stampNew pp)
  | some pp => do
    let sec ← loadLong dm ptr
    let nsec ← loadLong dm (ptr + dm.longSize)
    embed (setTimestamp pp ⟨dm.toLong (ntohl sec), dm.toLong (ntohl nsec)⟩)

/-- The body of the loop of `Link_State`, with the loads for the line that is printed. -/
def receiveRecord (ptr : ℕ) : Handler Unit := do
  let proxy1 := ptr + dm.longSize + dm.longSize
  let mac ← loadMAC (proxy1 + 6)
  let local_ ← embed getLinkState
  if mac = local_.tapMAC then return
  let _ ← load32 proxy1
  let _ ← loadLong dm ptr
  let _ ← loadLong dm (ptr + dm.longSize)
  let pp ← hashFind (proxy1 + 6)
  updateRecord dm ptr pp

/-- The loop of `Link_State`. -/
def recordLoop : ℕ → ℕ → Handler Unit
  | 0, _ => return
  | n + 1, ptr => do
    receiveRecord dm ptr
    recordLoop n (ptr + recordSize dm)

/-- The source, after its lookup. -/
def connectSource : Option Ptr → Handler Unit
  | none => do
    let _ ← connectAt 2
    return
  | some _ => return

/-- The lookup of the source, which is dialled if it is not a member. -/
def receiveSource : Handler Unit := do
  let pp ← hashFind (2 + 6)
  connectSource pp

/-- `Link_State`. -/
def linkState (length : UInt16) : Handler Int := do
  let N := ntohs (← load16 0)
  if !lengthOk dm N length then return -1
  let mac ← loadMAC (2 + 6)
  let local_ ← embed getLinkState
  if mac = local_.tapMAC then return 0
  embed writeBegin
  receiveSource
  recordLoop dm (N * N + N).toNat (2 + linkStateSourceSize)
  embed writeEnd
  return 0

/-- `Bandwidth_Probe_Request` copies a `struct timespec`. -/
def bandwidthProbeRequest (pp : Ptr) : Handler Int := do
  let _ ← load 0 dm.timespecSize
  embed (Program.bandwidthProbeRequest pp)

/-- `Bandwidth_Probe_Response` reads the two fields of a `struct timespec`. -/
def bandwidthProbeResponse : Handler Int := do
  let _ ← loadLong dm 0
  let _ ← loadLong dm dm.longSize
  return 0

/-- The `switch` of `eth_handler`. -/
def dispatch (pp : Ptr) (type : PacketType) (length : UInt16) : Handler Int :=
  match type with
  | .data => data length
  | .leave => leave
  | .quit => quit length
  | .linkState => linkState dm length
  | .bandwidthProbeRequest => bandwidthProbeRequest dm pp
  | .bandwidthProbeResponse => bandwidthProbeResponse dm
  | .rttProbeRequest | .rttProbeResponse | .proxyPublicKey | .signedData | .proxySecretKey
  | .encryptedData | .encryptedLinkState | .signedLinkState => return 0

end

/-! ## The same programs -/

section

variable {d : Buf} {dm : DataModel} {α β : Type}

theorem slice_bufOf_slice (d : Buf) (off n : ℕ) :
    slice (bufOf (slice d off n) fun _ => 0) 0 n = slice d off n := by
  have h := slice_bufOf (slice d off n) fun _ => 0
  rwa [length_slice] at h

theorem serve_loadAs_bind {n : ℕ} {ld : Buf → ℕ → β}
    (hld : ∀ d d' off off', slice d off n = slice d' off' n → ld d off = ld d' off') (off : ℕ)
    (f : β → Handler α) : serve d (loadAs n ld off >>= f) = serve d (f (ld d off)) := by
  rw [← hld _ _ _ _ (slice_bufOf_slice d off n)]
  rfl

theorem serve_loadMAC_bind (off : ℕ) (f : MAC → Handler α) :
    serve d (loadMAC off >>= f) = serve d (f (ldMAC d off)) := by
  apply serve_loadAs_bind
  intro d d' off off' h
  simp only [ldMAC, h]

theorem serve_load16_bind (off : ℕ) (f : UInt16 → Handler α) :
    serve d (load16 off >>= f) = serve d (f (ld16 d off)) := by
  apply serve_loadAs_bind
  intro d d' off off' h
  simp only [ld16, h]

theorem serve_load32_bind (off : ℕ) (f : UInt32 → Handler α) :
    serve d (load32 off >>= f) = serve d (f (ld32 d off)) := by
  apply serve_loadAs_bind
  intro d d' off off' h
  simp only [ld32, h]

theorem serve_loadLong_bind (off : ℕ) (f : UInt32 → Handler α) :
    serve d (loadLong dm off >>= f) = serve d (f (ldLong dm d off)) := by
  apply serve_loadAs_bind
  intro d d' off off' h
  simp only [ldLong, h]

theorem serve_embed_bind (p : Proc β) (f : β → Handler α) :
    serve d (embed p >>= f) = p >>= fun b => serve d (f b) := by
  rw [serve_bind, serve_embed]

theorem serve_hashFind_bind (off : ℕ) (f : Option Ptr → Handler α) :
    serve d (hashFind off >>= f) = table >>= fun m => serve d (f (m.find (ldMAC d off))) := by
  have hfind : serve d (hashFind off) = table >>= fun m => Prog.ret (m.find (ldMAC d off)) := by
    rw [hashFind, serve_embed_bind]
    congr 1
    funext m
    split_ifs with hm
    · have hnone : m.find (ldMAC d off) = none := by simp [Members.find, hm]
      rw [hnone]
      rfl
    · exact serve_loadMAC_bind off _
  rw [serve_bind, hfind]
  rfl

theorem serve_connectAt (off : ℕ) : serve d (connectAt off) =
    connectbyaddr (ldLinkState d off).ipAddr (ntohs (ldLinkState d off).listenPort) := by
  rw [connectAt, serve_load32_bind, serve_load16_bind, serve_embed]
  rfl

theorem serve_leave : serve d leave = Program.leave d := by
  rw [leave, serve_embed_bind, serve_hashFind_bind, Program.leave]
  congr 1
  funext _
  congr 1
  funext m
  rw [serve_embed_bind, serve_embed]
  rfl

theorem serve_quit (length : UInt16) : serve d (quit length) = Program.quit length := by
  rw [quit, Program.quit]
  split_ifs with hlen
  · rfl
  · rw [serve_load_bind, serve_embed]
    rfl

theorem serve_receiveRecord (ptr : ℕ) :
    serve d (receiveRecord dm ptr) = Program.receiveRecord dm d ptr := by
  rw [receiveRecord, Program.receiveRecord]
  dsimp only
  rw [serve_loadMAC_bind, serve_embed_bind]
  congr 1
  funext ls
  change serve d (if (ldRecord dm d ptr).proxy1.tapMAC = ls.tapMAC then _ else _) = _
  split_ifs with hlocal
  · rfl
  rw [serve_load32_bind, serve_loadLong_bind, serve_loadLong_bind, serve_hashFind_bind]
  congr 1
  funext m
  change serve d (updateRecord dm ptr (m.find (ldRecord dm d ptr).proxy1.tapMAC)) = _
  cases m.find (ldRecord dm d ptr).proxy1.tapMAC with
  | none =>
    rw [updateRecord, serve_bind, serve_connectAt]
    congr 1
    funext pp
    rw [serve_embed]
    cases pp with
    | none => rfl
    | some pp => rfl
  | some pp =>
    rw [updateRecord, serve_loadLong_bind, serve_loadLong_bind, serve_embed]
    rfl

theorem serve_recordLoop (n ptr : ℕ) :
    serve d (recordLoop dm n ptr) = Program.recordLoop dm d n ptr := by
  induction n generalizing ptr with
  | zero => rfl
  | succ n ih =>
    rw [recordLoop, serve_bind, serve_receiveRecord, Program.recordLoop]
    congr 1
    funext _
    exact ih _

theorem serve_receiveSource : serve d receiveSource = Program.receiveSource (ldLinkState d 2) := by
  rw [receiveSource, serve_hashFind_bind, Program.receiveSource]
  congr 1
  funext m
  change serve d (connectSource (m.find (ldLinkState d 2).tapMAC)) = _
  cases m.find (ldLinkState d 2).tapMAC with
  | none =>
    rw [connectSource, serve_bind, serve_connectAt]
    rfl
  | some pp => rfl

theorem serve_linkState (length : UInt16) :
    serve d (linkState dm length) = Program.linkState dm d length := by
  rw [linkState, Program.linkState, serve_load16_bind]
  change serve d (if (!lengthOk dm (announced d) length) = true then _ else _) = _
  split_ifs with hlen
  · rfl
  rw [serve_loadMAC_bind, serve_embed_bind]
  congr 1
  funext ls
  change serve d (if (ldLinkState d 2).tapMAC = ls.tapMAC then _ else _) = _
  split_ifs with hlocal
  · rfl
  rw [serve_embed_bind, serve_bind, serve_receiveSource]
  congr 1
  funext _
  congr 1
  funext _
  rw [serve_bind, serve_recordLoop]
  rfl

/-- **The handlers with their loads are the handlers.** -/
theorem serve_dispatch (pp : Ptr) (type : PacketType) (length : UInt16) :
    serve d (dispatch dm pp type length) = Program.dispatch dm d pp type length := by
  cases type with
  | data => exact serve_embed _
  | leave => exact serve_leave
  | quit => exact serve_quit length
  | linkState => exact serve_linkState length
  | bandwidthProbeRequest => exact serve_embed _
  | _ => rfl

end

/-! ## What has to be received -/

/-- The end of what `Link_State` reads of a packet that it accepts: the hardware address of the
source, and the one of the first proxy in the last record. -/
def linkStateExtent (dm : DataModel) (N : UInt16) : ℕ :=
  if (N * N + N).toNat = 0 then 2 + 12
  else 2 + linkStateSourceSize + ((N * N + N).toNat - 1) * recordSize dm + dm.timespecSize + 12

/-- The condition under which a handler reads only what has been received: the payload reaches to
the end of the hardware address in a LEAVE packet, and of the `struct timespec` in a bandwidth
probe; in a link-state packet it contains the number of neighbours and, if its length is accepted,
the last record up to the end of the address that is compared. -/
def Covered (dm : DataModel) (d : Buf) (type : PacketType) (length : UInt16) : Prop :=
  match type with
  | .leave => 12 ≤ length.toNat
  | .linkState => 2 ≤ length.toNat ∧ (lengthOk dm (announced d) length = true →
      linkStateExtent dm (announced d) ≤ length.toNat)
  | .bandwidthProbeRequest | .bandwidthProbeResponse => dm.timespecSize ≤ length.toNat
  | _ => True

section

variable {d : Buf} {dm : DataModel} {L : ℕ} {α β : Type}

theorem within_loadAs_bind {n off : ℕ} {ld : Buf → ℕ → β} {f : β → Handler α} {Q : α → Prop}
    (hle : off + n ≤ L) (hf : ∀ b, within d L (f b) Q) :
    within d L (loadAs n ld off >>= f) Q :=
  ⟨hle, hf _⟩

theorem within_embed_bind {p : Proc β} {f : β → Handler α} {Q : α → Prop}
    (hf : ∀ b, within d L (f b) Q) : within d L (embed p >>= f) Q :=
  within_bind.2 (within_embed hf)

theorem within_hashFind_bind {off : ℕ} {f : Option Ptr → Handler α} {Q : α → Prop}
    (hle : off + 6 ≤ L) (hf : ∀ pp, within d L (f pp) Q) : within d L (hashFind off >>= f) Q := by
  apply within_bind.2
  apply within_embed_bind
  intro m
  split_ifs
  · exact hf none
  · exact within_loadAs_bind hle fun mac => hf _

theorem within_connectAt_bind {off : ℕ} {f : Option Ptr → Handler α} {Q : α → Prop}
    (hle : off + 6 ≤ L) (hf : ∀ pp, within d L (f pp) Q) : within d L (connectAt off >>= f) Q := by
  apply within_bind.2
  apply within_loadAs_bind (by omega)
  intro addr
  apply within_loadAs_bind (by omega)
  intro port
  exact within_embed hf

theorem within_leave (h : 12 ≤ L) : within d L leave fun _ => True := by
  apply within_embed_bind
  intro _
  apply within_hashFind_bind (by omega)
  intro pp
  apply within_embed_bind
  intro _
  exact within_embed fun _ => trivial

/-- A record is read up to the end of the first hardware address. -/
theorem within_receiveRecord {ptr : ℕ} (h : ptr + dm.timespecSize + 12 ≤ L) :
    within d L (receiveRecord dm ptr) fun _ => True := by
  have hlong := dm.four_le_longSize
  rw [DataModel.timespecSize] at h
  apply within_loadAs_bind (by omega)
  intro mac
  apply within_embed_bind
  intro ls
  split_ifs
  · trivial
  apply within_loadAs_bind (by omega)
  intro _
  apply within_loadAs_bind (by omega)
  intro _
  apply within_loadAs_bind (by omega)
  intro _
  apply within_hashFind_bind (by omega)
  intro pp
  cases pp with
  | none =>
    apply within_connectAt_bind (by omega)
    intro pp
    exact within_embed fun _ => trivial
  | some pp =>
    apply within_loadAs_bind (by omega)
    intro sec
    apply within_loadAs_bind (by omega)
    intro nsec
    exact within_embed fun _ => trivial

/-- The loop reads up to the end of the first hardware address in the last record. -/
theorem within_recordLoop {n ptr : ℕ}
    (h : n = 0 ∨ ptr + (n - 1) * recordSize dm + dm.timespecSize + 12 ≤ L) :
    within d L (recordLoop dm n ptr) fun _ => True := by
  induction n generalizing ptr with
  | zero => trivial
  | succ n ih =>
    have hle : ptr + n * recordSize dm + dm.timespecSize + 12 ≤ L := by
      rcases h with h | h
      · cases h
      · exact h
    apply within_bind.2
    apply within_mono _ (within_receiveRecord (by omega))
    intro _ _
    apply ih
    cases n with
    | zero => exact .inl rfl
    | succ n =>
      refine .inr ?_
      rw [Nat.add_sub_cancel]
      rw [Nat.add_mul] at hle
      omega

theorem within_receiveSource (h : 2 + 12 ≤ L) : within d L receiveSource fun _ => True := by
  apply within_hashFind_bind (by omega)
  intro pp
  cases pp with
  | none =>
    apply within_connectAt_bind (by omega)
    intro _
    trivial
  | some pp => trivial

theorem within_linkState {length : UInt16} (h : Covered dm d .linkState length) :
    within d length.toNat (linkState dm length) fun _ => True := by
  obtain ⟨htwo, hextent⟩ := h
  apply within_bind.2
  refine ⟨by omega, ?_⟩
  -- the number of neighbours that is loaded is the one that the payload announces
  have hN : ntohs (ld16 (bufOf (slice d 0 2) fun _ => 0) 0) = announced d := by
    simp only [announced, ld16, slice_bufOf_slice]
  change within d _ (if (!lengthOk dm (ntohs (ld16 (bufOf (slice d 0 2) fun _ => 0) 0)) length) = true
    then _ else _) _
  rw [hN]
  split_ifs with hlen
  · trivial
  have hle := hextent (by simpa using hlen)
  rw [linkStateExtent] at hle
  have hsource : 2 + 12 ≤ length.toNat := by
    simp only [linkStateSourceSize, linkStateSize] at hle
    split_ifs at hle <;> omega
  apply within_loadAs_bind (by omega)
  intro mac
  apply within_embed_bind
  intro ls
  split_ifs
  · trivial
  apply within_embed_bind
  intro _
  apply within_bind.2
  apply within_mono _ (within_receiveSource hsource)
  intro _ _
  apply within_bind.2
  apply within_mono _ (within_recordLoop ?_)
  · intro _ _
    exact within_embed_bind fun _ => trivial
  · split_ifs at hle with hzero
    · exact .inl hzero
    · exact .inr hle

/-- **A covered packet is within its length.** -/
theorem within_dispatch {pp : Ptr} {type : PacketType} {length : UInt16}
    (h : Covered dm d type length) :
    within d length.toNat (dispatch dm pp type length) fun _ => True := by
  cases type with
  | data => exact ⟨by omega, within_embed fun _ => trivial⟩
  | leave => exact within_leave h
  | quit =>
    change within d _ (quit length) _
    rw [quit]
    split_ifs with hlen
    · trivial
    · rw [not_not.1 hlen]
      exact ⟨le_rfl, within_embed fun _ => trivial⟩
  | linkState => exact within_linkState h
  | bandwidthProbeRequest =>
    have hle : dm.timespecSize ≤ length.toNat := h
    exact ⟨by omega, within_embed fun _ => trivial⟩
  | bandwidthProbeResponse =>
    have hle : 2 * dm.longSize ≤ length.toNat := h
    apply within_loadAs_bind (by omega)
    intro _
    apply within_loadAs_bind (by omega)
    intro _
    trivial
  | _ => trivial

/-- **The rest of memory does not matter** for a covered packet. -/
theorem dispatch_congr {d' : Buf} {pp : Ptr} {type : PacketType} {length : UInt16}
    (h : Covered dm d type length) (hd : ∀ i < length.toNat, d' i = d i) :
    Program.dispatch dm d' pp type length = Program.dispatch dm d pp type length := by
  rw [← serve_dispatch, ← serve_dispatch]
  exact serve_congr hd (within_dispatch h)

end

/-! ## What is read -/

/-- A table with a member for every address of a list. -/
def tableOf (macs : List MAC) : Members where
  order := List.range macs.length
  nodup := List.nodup_range
  peer p := ⟨⟨0, 0⟩, { Program.zeroed with tapMAC := macs.getD p (.replicate 6 0) }⟩

theorem find_tableOf {macs : List MAC} {mac : MAC} (h : mac ∈ macs) :
    ((tableOf macs).find mac).isSome := by
  obtain ⟨p, hp, hmac⟩ := List.getElem_of_mem h
  refine Members.find_isSome.2 ⟨p, List.mem_range.2 hp, ?_⟩
  simp [Members.key, tableOf, hp, hmac]

/-- The addresses in a link-state packet: the one of the source and the first one of every record.
-/
def addresses (dm : DataModel) (d : Buf) : List MAC :=
  (ldLinkState d 2).tapMAC :: (List.range (announced d * announced d + announced d).toNat).map
    fun k => (ldRecord dm d (2 + linkStateSourceSize + k * recordSize dm)).proxy1.tapMAC

/-- There is another hardware address. -/
theorem exists_ne_mac (mac : MAC) : ∃ mac' : MAC, mac ≠ mac' := by
  by_cases h : mac = .replicate 6 0
  · exact ⟨.replicate 6 1, by rw [h]; decide⟩
  · exact ⟨_, h⟩

section

variable {d : Buf} {dm : DataModel} {w : World} {t : Thread} {β : Type}

theorem mem_reads_loadAs {n off i : ℕ} {ld : Buf → ℕ → β} (h : off ≤ i ∧ i < off + n) :
    i ∈ reads (handle w) d (loadAs n ld off) t :=
  mem_reads_bind (mem_reads_load.2 h)

/-- The key of a lookup is read if there is a member. -/
theorem mem_reads_hashFind {off i : ℕ} (hm : t.members.order ≠ []) (h : off ≤ i ∧ i < off + 6) :
    i ∈ reads (handle w) d (hashFind off) t := by
  have hrun : table.run (handle w) t = .ok (t.members, t) := rfl
  apply reads_embed_bind_of_ok hrun
  rw [if_neg hm]
  exact mem_reads_bind (mem_reads_loadAs h)

/-- The address in the last record is read if the proxies of the records before it are known. -/
theorem mem_reads_recordLoop {n ptr i : ℕ}
    (hknown : ∀ k < n, ¬Program.Unknown dm d t.members t.linkState (ptr + k * recordSize dm))
    (hi : ptr + n * recordSize dm + dm.timespecSize + 6 ≤ i ∧
      i < ptr + n * recordSize dm + dm.timespecSize + 12) :
    i ∈ reads (handle w) d (recordLoop dm (n + 1) ptr) t := by
  induction n generalizing t ptr with
  | zero =>
    rw [DataModel.timespecSize] at hi
    apply mem_reads_bind
    apply mem_reads_bind
    exact mem_reads_loadAs (by omega)
  | succ n ih =>
    have hfirst := hknown 0 (Nat.zero_lt_succ n)
    rw [Nat.zero_mul, Nat.add_zero] at hfirst
    obtain ⟨m, hm, hrun⟩ := Program.receiveRecord_known (w := w) hfirst
    rw [recordLoop]
    apply reads_bind_of_ok
    · rw [serve_receiveRecord]
      exact hrun
    · apply ih (t := { t with members := m })
      · intro k hk
        have hrec := hknown (k + 1) (by omega)
        rw [Nat.add_mul, Nat.one_mul, Nat.add_comm (k * _), ← Nat.add_assoc] at hrec
        rwa [Program.Unknown, hm]
      · rw [Nat.add_mul, Nat.one_mul] at hi
        omega

/-- The number of neighbours is always read. -/
theorem mem_reads_count {length : UInt16} {i : ℕ} (hi : i < 2) :
    i ∈ reads (handle w) d (linkState dm length) t :=
  mem_reads_bind (mem_reads_loadAs (by omega))

/-- Behind the check of the length, the address of the source is read. -/
theorem reads_linkState {length : UInt16} (hlen : lengthOk dm (announced d) length = true) {i : ℕ}
    (h : i ∈ reads (handle w) d (loadMAC (2 + 6) >>= fun mac => do
      let local_ ← embed getLinkState
      if mac = local_.tapMAC then return 0
      embed writeBegin
      receiveSource
      recordLoop dm (announced d * announced d + announced d).toNat (2 + linkStateSourceSize)
      embed writeEnd
      return (0 : Int)) t) :
    i ∈ reads (handle w) d (linkState dm length) t := by
  have hrun : (serve d (load16 0)).run (handle w) t = .ok (ld16 d 0, t) := by
    have hN : ld16 (bufOf (slice d 0 2) fun _ => 0) 0 = ld16 d 0 := by
      simp only [ld16, slice_bufOf_slice]
    rw [← hN]
    rfl
  apply reads_bind_of_ok hrun
  change i ∈ reads (handle w) d (if (!lengthOk dm (announced d) length) = true then _ else _) t
  rw [hlen, Bool.not_true, if_neg Bool.false_ne_true]
  exact h

/-- The records of an accepted packet from another proxy are read if the source and the proxies of
the records are members. -/
theorem mem_reads_records {length : UInt16} {ls : LinkState} {n i : ℕ}
    (hlen : lengthOk dm (announced d) length = true) (hls : (ldLinkState d 2).tapMAC ≠ ls.tapMAC)
    (hn : (announced d * announced d + announced d).toNat = n + 1)
    (hi : 2 + linkStateSourceSize + n * recordSize dm + dm.timespecSize + 6 ≤ i ∧
      i < 2 + linkStateSourceSize + n * recordSize dm + dm.timespecSize + 12) :
    i ∈ reads (handle w) d (linkState dm length) (start (tableOf (addresses dm d)) ls) := by
  set m := tableOf (addresses dm d) with hm
  apply reads_linkState hlen
  have hmac : (serve d (loadMAC (2 + 6))).run (handle w) (start m ls) =
      .ok ((ldLinkState d 2).tapMAC, start m ls) := by
    have hN : ldMAC (bufOf (slice d (2 + 6) 6) fun _ => 0) 0 = (ldLinkState d 2).tapMAC := by
      simp only [ldLinkState, ldMAC, slice_bufOf_slice]
    rw [← hN]
    rfl
  apply reads_bind_of_ok hmac
  have hget : getLinkState.run (handle w) (start m ls) = .ok (ls, start m ls) := rfl
  apply reads_embed_bind_of_ok hget
  rw [if_neg hls]
  apply reads_embed_bind_of_ok (Program.begin_outside rfl).2
  have hsource : (serve d receiveSource).run (handle w) { start m ls with inside := true } =
      .ok ((), { start m ls with inside := true }) := by
    rw [serve_receiveSource, Program.receiveSource_inside rfl, if_pos]
    exact find_tableOf (List.mem_cons_self ..)
  apply reads_bind_of_ok hsource
  apply mem_reads_bind
  rw [hn]
  apply mem_reads_recordLoop _ hi
  rintro k hk ⟨-, hnone⟩
  have hmem : (ldRecord dm d (2 + linkStateSourceSize + k * recordSize dm)).proxy1.tapMAC ∈
      addresses dm d :=
    List.mem_cons_of_mem _ (List.mem_map.2 ⟨k, List.mem_range.2 (by omega), rfl⟩)
  have hsome := find_tableOf hmem
  rw [← hm, show m.find _ = none from hnone] at hsome
  cases hsome

end

/-- No connection is made, and there are no other threads. -/
def silent : World := .quiet ⟨-1, true, true, true, none, 0, fun _ => none⟩

/-- **Handlers read only what was received**, for all tables, all local addresses and all results of
the system calls, exactly if the packet is covered. -/
theorem reads_received_iff (dm : DataModel) (d : Buf) (pp : Ptr) (type : PacketType)
    (length : UInt16) :
    (∀ w m ls, ∀ i ∈ reads (handle w) d (dispatch dm pp type length) (start m ls),
      i < length.toNat) ↔ Covered dm d type length := by
  constructor
  · intro h
    cases type with
    | leave =>
      have hlt := h silent (tableOf [.replicate 6 0]) Program.zeroed 11 ?_
      · exact hlt
      · apply reads_embed_bind_of_ok (Program.begin_outside rfl).1
        apply mem_reads_bind
        exact mem_reads_hashFind (List.cons_ne_nil 0 []) (by omega)
    | linkState =>
      obtain ⟨mac, hmac⟩ := exists_ne_mac (ldLinkState d 2).tapMAC
      have hread := h silent (tableOf (addresses dm d)) { Program.zeroed with tapMAC := mac }
      refine ⟨hread 1 (mem_reads_count (by omega)), fun hlen => ?_⟩
      rw [linkStateExtent]
      split_ifs with hzero
      · have hlt := hread 13 (reads_linkState hlen (mem_reads_bind (mem_reads_loadAs (by omega))))
        omega
      · obtain ⟨n, hn⟩ := Nat.exists_eq_succ_of_ne_zero hzero
        have hlt := hread (2 + linkStateSourceSize + n * recordSize dm + dm.timespecSize + 11)
          (mem_reads_records hlen hmac hn (by omega))
        rw [hn, Nat.succ_eq_add_one, Nat.add_sub_cancel]
        omega
    | bandwidthProbeRequest =>
      have hlong := dm.four_le_longSize
      have hlt := h silent (tableOf []) Program.zeroed (dm.timespecSize - 1)
        (mem_reads_bind (mem_reads_load.2 (by rw [DataModel.timespecSize]; omega)))
      change dm.timespecSize ≤ _
      omega
    | bandwidthProbeResponse =>
      have hlong := dm.four_le_longSize
      have hlt := h silent (tableOf []) Program.zeroed (dm.timespecSize - 1) ?_
      · change dm.timespecSize ≤ _
        omega
      · have hfirst : (serve d (loadLong dm 0)).run (handle silent)
            (start (tableOf []) Program.zeroed) = .ok (_, start (tableOf []) Program.zeroed) := rfl
        apply reads_bind_of_ok hfirst
        apply mem_reads_bind
        exact mem_reads_loadAs (by rw [DataModel.timespecSize]; omega)
    | _ => trivial
  · intro h w m ls
    exact reads_lt_of_within (within_dispatch h) (start m ls)

theorem toNat_recordCount (N : UInt16) :
    (N * N + N).toNat = (N.toNat * N.toNat + N.toNat) % 65536 := by
  rw [UInt16.toNat_add, UInt16.toNat_mul]
  omega

/-- Where `long` has 64 bits, the only length that `Link_State` accepts is the length of the
records. -/
theorem length_of_lengthOk_lp64 {N length : UInt16} (h : lengthOk .lp64 N length = true) :
    22 + 56 * (N.toNat * N.toNat + N.toNat) = length.toNat := by
  have hN : N.toNat < 65536 := N.toNat_lt
  have hlength : length.toNat < 65536 := length.toNat_lt
  have hx : N.toNat * N.toNat + N.toNat < 4294967296 := by
    have hmul : N.toNat * N.toNat ≤ 65535 * N.toNat := Nat.mul_le_mul_right _ (by omega)
    omega
  have hsize : (2 * 2 + 18 + wrap32 ((N.toNat * N.toNat + N.toNat : ℕ) : Int) * 56) %
      18446744073709551616 = length.toNat := by
    rw [Nat.cast_add, Nat.cast_mul]
    exact beq_iff_eq.1 h
  generalize N.toNat * N.toNat + N.toNat = x at hx hsize ⊢
  -- the `int` is the number itself, or negative, which is no length
  have hwrap : wrap32 (x : Int) = x ∨ wrap32 (x : Int) = x - 4294967296 := by
    rw [wrap32, Int.bmod_def]
    split_ifs <;> omega
  generalize wrap32 (x : Int) = b at hwrap hsize
  rcases hwrap with rfl | rfl <;> omega

/-- Hence only payloads of one byte are not covered there. -/
theorem covered_linkState_lp64 (d : Buf) (length : UInt16) :
    Covered .lp64 d .linkState length ↔ 2 ≤ length.toNat := by
  refine ⟨fun h => h.1, fun h => ⟨h, fun hlen => ?_⟩⟩
  have hlength : length.toNat < 65536 := length.toNat_lt
  have hsize := length_of_lengthOk_lp64 hlen
  rw [linkStateExtent, toNat_recordCount, Nat.mod_eq_of_lt (by omega)]
  generalize (announced d).toNat * (announced d).toNat + (announced d).toNat = x at hsize ⊢
  have hrecord : recordSize .lp64 = 56 := rfl
  have htime : DataModel.timespecSize .lp64 = 16 := rfl
  have hsource : linkStateSourceSize = 20 := rfl
  rw [hrecord, htime, hsource]
  split_ifs <;> omega

/-- Where `long` has 32 bits, the product in the check wraps, and a packet that is too short by far
is accepted. -/
example : lengthOk .ilp32 13377 25718 = true ∧ 25718 < linkStateExtent .ilp32 13377 := by decide

/-- A LEAVE packet of one byte: the handler reads up to the twelfth. -/
theorem leave_reads_behind : ∃ (w : World) (m : Members) (ls : LinkState), 11 ∈ reads (handle w)
    (fun _ => 0) (dispatch .lp64 0 .leave 1) (start m ls) ∧ ¬ 11 < (1 : UInt16).toNat :=
  ⟨silent, tableOf [.replicate 6 0], Program.zeroed, by decide, by decide⟩

end LinkProxy.Extents
