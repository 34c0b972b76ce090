import LinkProxy.Handlers.Framing
import LinkProxy.Operations.Program

/-!
# Frames to one member

`tap_handler` reads a frame behind the place of the proxy header and sends the packet to all members
if the frame is for the broadcast address, and else to the member that it finds in `hash_table`. The
first test looks behind the header, at `h_dest`. The lookup takes the buffer for a `link_state`,
whose `tapMAC` is six bytes into it: these are the last four bytes of `h_dest` and the first two of
`h_source`.

So a frame goes to the member with its destination if and only if these six bytes are the
destination (`unicast_iff`), unless neither of the two addresses is that of a member.
-/

namespace LinkProxy.Handlers

open Bytes Rio Wire Peers Program

/-! ## The members that are chosen -/

/-- The members to which `tap_handler` writes its buffer. -/
def targets (m : Members) (buffer : Buf) : List Ptr :=
  if ldMAC buffer proxyHlen = broadcastAddr then m.order
  else (m.find (ldLinkState buffer 0).tapMAC).toList

/-- One pass of `tap_handler`: the calls of `rio_write`, with the member and the bytes. `none` in
place of them is the `exit` after a failed read. -/
def tapForward (m : Members) (rp : RioT) (w : Sys) :
    Option (Option (List (Ptr × List UInt8)) × RioT × Sys) := do
  let (size, frame, rp, w) ← rioRead (proxyHlen + ethFrameLen) rp w
  if size ≤ 0 then return (none, rp, w)
  let write := tapWrite size frame
  return (some ((targets m (bufOf write.buf fun _ => 0)).map fun p => (p, write.bytes)), rp, w)

/-- The program of `tap_handler` sends to these members. -/
theorem forward_eq (buffer : Buf) :
    forward buffer = table >>= fun m => (targets m buffer).forM sendFrame := by
  rw [forward]
  congr 1
  funext m
  rw [targets, proxyHlen]
  split_ifs with hbroadcast
  · rfl
  · cases m.find (ldLinkState buffer 0).tapMAC with
    | none => rfl
    | some p => exact (bind_pure (sendFrame p)).symm

/-! ## The property -/

/-- `h_dest` of a frame. -/
def hDest (f : List UInt8) : MAC := ldMAC (bufOf f fun _ => 0) 0

/-- The address that `tap_handler` looks up for a frame. -/
def lookupKey (f : List UInt8) : MAC := ldMAC (bufOf f fun _ => 0) 2

/-- The address `mac` is not that of a member. -/
def Unknown (m : Members) (mac : MAC) : Prop := ∀ p ∈ m.order, m.key p ≠ mac

/-- **The frame is written to the member with its destination**, if there is one, and to no other.
-/
def Unicast (m : Members) (f : List UInt8) (writes : List (Ptr × List UInt8)) : Prop :=
  (∃ p ∈ m.order, m.key p = hDest f ∧ writes = [(p, packetBytes .data f)]) ∨
    Unknown m (hDest f) ∧ writes = []

/-! ## The addresses in the buffer -/

/-- An address inside the frame stands behind the header in the buffer. -/
theorem ldMAC_tapBuffer (size : UInt16) {f : List UInt8} {i : ℕ} (hi : i + 6 ≤ f.length) :
    ldMAC (bufOf (tapBuffer size f) fun _ => 0) (proxyHlen + i) = ldMAC (bufOf f fun _ => 0) i := by
  apply Vector.toList_inj.1
  have hslice : slice (bufOf (tapBuffer size f) fun _ => 0) (proxyHlen + i) 6 =
      slice (bufOf f fun _ => 0) i 6 := by
    rw [slice, slice]
    congr 1
    funext j
    have hj : i + j < f.length := by omega
    rw [Nat.add_assoc, tapBuffer]
    exact bufOf_middle (header PacketType.data.code size) f _ _ _ hj
  simp only [ldMAC, Vector.toList_mk]
  exact hslice

section

variable {m : Members} {f : List UInt8}

/-- The members that are chosen for a frame that is not a broadcast. -/
theorem targets_tapBuffer (size : UInt16) (hlen : 14 ≤ f.length) (hdest : hDest f ≠ broadcastAddr) :
    targets m (bufOf (tapBuffer size f) fun _ => 0) = (m.find (lookupKey f)).toList := by
  have hd : ldMAC (bufOf (tapBuffer size f) fun _ => 0) proxyHlen = hDest f :=
    ldMAC_tapBuffer size (by omega : 0 + 6 ≤ f.length)
  have hk : (ldLinkState (bufOf (tapBuffer size f) fun _ => 0) 0).tapMAC = lookupKey f :=
    ldMAC_tapBuffer size (by omega : 2 + 6 ≤ f.length)
  rw [targets, hd, if_neg hdest, hk]

/-- **A pass of `tap_handler`**: the packet goes to the member that is found, and the tap can be
read again. -/
theorem tapForward_frame {rp : RioT} {w : Sys} {fs : List (List UInt8)} (m : Members) (hv : rp.Valid)
    (hcnt : rp.cnt ≤ 0) (hw : w.Delivers (f :: fs)) (hlen : 14 ≤ f.length)
    (hle : f.length ≤ ethFrameLen) (hdest : hDest f ≠ broadcastAddr) :
    ∃ rp' w', tapForward m rp w = some (some ((m.find (lookupKey f)).toList.map fun p =>
      (p, packetBytes .data f)), rp', w') ∧ rp'.Valid ∧ rp'.cnt ≤ 0 ∧ w'.Delivers fs := by
  have hf : Frame f := ⟨by omega, hle⟩
  obtain ⟨rp', w', hread, hrest⟩ := rioRead_frame hv hcnt hw
  refine ⟨rp', w', ?_, hrest⟩
  have hbuf : (tapWrite f.length f).buf = tapBuffer (.ofNat f.length) f := by rw [tapWrite_frame hf]
  rw [tapForward, hread]
  simp only [Option.bind_eq_bind, Option.bind_some, show ¬ (f.length : Int) ≤ 0 by omega, if_false,
    bytes_tapWrite hf, hbuf, targets_tapBuffer _ hlen hdest, Option.pure_def]

theorem unknown_iff {mac : MAC} : Unknown m mac ↔ m.find mac = none := by
  simp [Unknown, Members.find]

/-- What is found under another address is right only if nothing is found and nobody is missed. -/
theorem unicast_find_iff {key : MAC} :
    Unicast m f ((m.find key).toList.map fun p => (p, packetBytes .data f)) ↔
      key = hDest f ∨ Unknown m (hDest f) ∧ Unknown m key := by
  cases hfind : m.find key with
  | none =>
    have hkey : Unknown m key := unknown_iff.2 hfind
    constructor
    · rintro (⟨p, -, -, h⟩ | ⟨hdest, -⟩)
      · simp at h
      · exact .inr ⟨hdest, hkey⟩
    · rintro (rfl | ⟨hdest, -⟩)
      · exact .inr ⟨hkey, rfl⟩
      · exact .inr ⟨hdest, rfl⟩
  | some p =>
    obtain ⟨hmem, hkey⟩ := Members.mem_of_find hfind
    constructor
    · rintro (⟨q, -, hq, h⟩ | ⟨-, h⟩)
      · obtain rfl : p = q := by simpa using h
        exact .inl (hkey.symm.trans hq)
      · simp at h
    · rintro (rfl | ⟨-, hunknown⟩)
      · exact .inl ⟨p, hmem, hkey, rfl⟩
      · exact absurd hkey (hunknown p hmem)

end

/-- **When a frame goes to the member with its destination**: the six bytes from the third on are
the destination too, or neither these nor the destination are the address of a member. -/
theorem unicast_iff (m : Members) (rp : RioT) (w : Sys) (f : List UInt8) (fs : List (List UInt8))
    (hv : rp.Valid) (hcnt : rp.cnt ≤ 0) (hw : w.Delivers (f :: fs)) (hlen : 14 ≤ f.length)
    (hle : f.length ≤ ethFrameLen) (hdest : hDest f ≠ broadcastAddr) :
    (∃ writes rp' w', tapForward m rp w = some (some writes, rp', w') ∧ Unicast m f writes) ↔
      lookupKey f = hDest f ∨ Unknown m (hDest f) ∧ Unknown m (lookupKey f) := by
  obtain ⟨rp', w', hpass, -⟩ := tapForward_frame m hv hcnt hw hlen hle hdest
  rw [← unicast_find_iff]
  constructor
  · rintro ⟨writes, rp₁, w₁, hpass₁, hunicast⟩
    obtain rfl : _ = writes := by
      have heq := hpass.symm.trans hpass₁
      simp only [Option.some.injEq, Prod.mk.injEq] at heq
      exact heq.1
    exact hunicast
  · intro hunicast
    exact ⟨_, rp', w', hpass, hunicast⟩

/-- A table with one member. -/
def oneMember (mac : MAC) : Members := .single 1 ⟨⟨0, 0⟩, ⟨0, 0, mac, .replicate 6 0⟩⟩

/-- A frame for the address `02:00:02:00:02:00` from the address `02:00:00:00:00:07`. -/
def evenFrame : List UInt8 := [2, 0, 2, 0, 2, 0, 2, 0, 0, 0, 0, 7, 8, 0]

/-- A frame for the address `02:00:00:00:00:01` from the address `02:00:00:00:00:07`. -/
def oddFrame : List UInt8 := [2, 0, 0, 0, 0, 1, 2, 0, 0, 0, 0, 7, 8, 0]

/-- An address with a period of two bytes is found where it is looked for. -/
theorem unicast_iff_even : hDest evenFrame ≠ broadcastAddr ∧ ∃ writes rp' w',
    tapForward (oneMember (hDest evenFrame)) rioReadinit ⟨.ok, deliver [evenFrame], [], [], []⟩ =
      some (some writes, rp', w') ∧ Unicast (oneMember (hDest evenFrame)) evenFrame writes := by
  refine ⟨by decide, ?_⟩
  refine (unicast_iff (oneMember (hDest evenFrame)) rioReadinit _ evenFrame [] rioReadinit_valid
    (by decide) ⟨by decide, rfl, by decide⟩ (by decide) (by decide) (by decide)).2 ?_
  exact .inl (by decide)

/-- A frame for the only member is not sent to it. -/
theorem unicast_dropped : hDest oddFrame ≠ broadcastAddr ∧ 14 ≤ oddFrame.length ∧ ¬∃ writes rp' w',
    tapForward (oneMember (hDest oddFrame)) rioReadinit ⟨.ok, deliver [oddFrame], [], [], []⟩ =
      some (some writes, rp', w') ∧ Unicast (oneMember (hDest oddFrame)) oddFrame writes := by
  refine ⟨by decide, by decide, ?_⟩
  rintro ⟨writes, rp', w', hpass, hunicast⟩
  have hdelivers : Sys.Delivers ⟨.ok, deliver [oddFrame], [], [], []⟩ [oddFrame] :=
    ⟨by decide, rfl, by decide⟩
  obtain ⟨rp₁, w₁, hpass₁, -⟩ := tapForward_frame (oneMember (hDest oddFrame)) rioReadinit_valid
    (by decide) hdelivers (by decide) (by decide) (by decide)
  have hwrites : writes = [] := by
    have heq := hpass.symm.trans hpass₁
    simp only [Option.some.injEq, Prod.mk.injEq] at heq
    exact heq.1.trans (by decide)
  obtain ⟨p, -, -, h⟩ | ⟨hunknown, -⟩ := hunicast
  · rw [hwrites] at h
    cases h
  · exact hunknown 1 (by decide) rfl

end LinkProxy.Handlers
