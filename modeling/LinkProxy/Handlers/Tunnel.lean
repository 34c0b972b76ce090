import LinkProxy.Handlers.Delivery
import LinkProxy.Uthash.Runs

/-!
# From one tap device to the others

The purpose of the proxy: an Ethernet frame that the kernel sends into the tap device of one host
comes out of the tap devices of the hosts that it is for. At the one end `tap_handler` writes it to
members of its table, at the other ends `eth_handler` calls `Data`, which writes the payload to the
local tap device (`withTap`).

`tunnel_delivers` puts the two ends together. A member that the sender still has at the end writes
to its tap device the frames that were broadcast or found to be for its address, each one whole and
once, and in the order in which they were read at the other end, whatever becomes of the other
members and however the streams are cut.
-/

namespace LinkProxy.Handlers

open Bytes Rio Wire Peers Uthash

/-! ## `Data` -/

/-- `Data`: what it returns, what it leaves in `errno`, and the tap device after the write; `none`
if `rio_write` has not returned. -/
def handleData (payload : List UInt8) (length : UInt16) (tap : Sys) : Option (Handled × Sys) := do
  let (size, tap) ← rioWrite (payload.take length.toNat) tap
  return (⟨if size ≤ 0 then -1 else 0, tap.errno, false⟩, tap)

/-- The packet handlers of a process with its tap device, to which `Data` writes. There is no device
any more after a write that has not returned. -/
def withTap {σ : Type} (H : PacketHandlers σ) : PacketHandlers (σ × Option Sys) where
  handle type length payload st :=
    match type with
    | .data =>
      match st.2.bind (handleData payload length) with
      | none => (⟨0, .ok, false⟩, (st.1, none))
      | some (r, tap) => (r, (st.1, some tap))
    | type => ((H.handle type length payload st.1).1, ((H.handle type length payload st.1).2, st.2))
  listed st := H.listed st.1
  removeMember st := (H.removeMember st.1, st.2)

/-- Frames are written to a tap device, as long as the writes succeed. -/
def writeFrames : List (List UInt8) → Sys → Option Sys
  | [], tap => some tap
  | f :: fs, tap => (send f tap).bind (writeFrames fs)

/-- A `Data` whose write succeeds. -/
theorem handleData_of_send {f : List UInt8} {tap tap' : Sys} (hf : Payload f)
    (h : send f tap = some tap') :
    handleData f (.ofNat f.length) tap = some (⟨0, tap'.errno, false⟩, tap') ∧ tap'.errno ≠ .EINTR ∧
      tap'.sent = tap.sent ++ f := by
  have hsent := send_sent h
  obtain ⟨⟨size, w⟩, hwrite, h⟩ := Option.bind_eq_some_iff.1 h
  dsimp only at h
  split_ifs at h with hsize
  obtain rfl := Option.some.inj h
  refine ⟨?_, (rioWrite_spec hwrite).2.1, hsent⟩
  rw [handleData, hf.toNat_length, List.take_length, hwrite]
  simp only [Option.bind_eq_bind, Option.bind_some, if_neg hsize, Option.pure_def]

section

variable {σ : Type} {H : PacketHandlers σ} {t : EthThread (σ × Option Sys)} {cs : List (List UInt8)}
  {fs : List (List UInt8)} {tap tap' : Sys}

/-- **A run of `eth_handler` over DATA packets** writes their payloads to the tap device, in order,
and waits for more. -/
theorem ethHandler_frames (hfs : ∀ f ∈ fs, Payload f) (hv : t.rio.Valid) (hw : t.sys.Delivers cs)
    (hav : avail t.rio t.sys = fs.flatMap (packetBytes .data)) (htap : t.st.2 = some tap)
    (hwrite : writeFrames fs tap = some tap') {fuel : ℕ} (hfuel : fs.length < fuel) :
    (ethHandler (withTap H) fuel t).1 = .waiting ∧
      (ethHandler (withTap H) fuel t).2.st.2 = some tap' ∧ tap'.sent = tap.sent ++ fs.flatten ∧
      (ethHandler (withTap H) fuel t).2.trace =
        t.trace ++ fs.map fun f => .dispatch .data (.ofNat f.length) f := by
  induction fs generalizing t cs tap fuel with
  | nil =>
    obtain rfl := Option.some.inj hwrite
    obtain ⟨fuel, rfl⟩ := Nat.exists_eq_succ_of_ne_zero (Nat.ne_of_gt hfuel)
    simp [ethHandler, ethPass_blocked hv hw (by simpa using hav), htap]
  | cons f fs ih =>
    obtain ⟨fuel, rfl⟩ := Nat.exists_eq_succ_of_ne_zero (Nat.ne_of_gt (Nat.zero_lt_of_lt hfuel))
    obtain ⟨tap₁, hsend, hrest⟩ := Option.bind_eq_some_iff.1 hwrite
    obtain ⟨hdata, herrno, hsent⟩ := handleData_of_send (hfs f (by simp)) hsend
    have hhandle : (withTap H).handle .data (.ofNat f.length) f t.st =
        (⟨0, tap₁.errno, false⟩, (t.st.1, some tap₁)) := by
      simp only [withTap, htap, Option.bind_some, hdata]
    obtain ⟨t₁, cs₁, hpass, hv₁, hw₁, hav₁, hst₁, htrace₁⟩ :=
      ethPass_handled (hfs f (by simp)) hhandle le_rfl herrno hv hw (by simpa using hav)
    obtain ⟨hwait, htap', hsent', htrace⟩ := ih (fun g hg => hfs g (by simp [hg])) hv₁ hw₁ hav₁
      (by rw [hst₁]) hrest (by simpa using hfuel)
    replace hpass : ethPass (withTap H) t = some (true, t₁) := hpass
    rw [ethHandler, hpass]
    refine ⟨hwait, htap', ?_, ?_⟩
    · rw [hsent', hsent, List.flatten_cons, List.append_assoc]
    · rw [htrace, htrace₁, List.append_assoc]
      rfl

/-- **From the tap device of one proxy to those of its members.** The tap delivers frames, one by
every `read`, and `tap_handler` passes them on, over a table that it shrinks where writes fail. What
the members are sent is as in `Served`: those left at the end have got all packets for them, the
others a part, and each of these has been freed once. A member that is left, whose `eth_handler` has
read everything before and whose tap device takes what is written to it, writes to this device
exactly the frames that were broadcast or found to be for its address, in the order of the tap at
the other end. -/
theorem tunnel_delivers (H : PacketHandlers σ) {hash : MAC → UInt32} {key : Ptr → MAC}
    {l : List Ptr} {s s' : TapThread} (h : s.out.At hash key [] l) (hv : s.rio.Valid)
    (hcnt : s.rio.cnt ≤ 0) (hw : s.sys.Delivers fs)
    (hfs : ∀ f ∈ fs, 14 ≤ f.length ∧ f.length ≤ ethFrameLen)
    (hrun : tapHandler hash key fs.length s = some s') :
    ∃ l', Served hash key (fun p => tapStream (key p) fs) s.out l s'.out l' ∧
      ∀ p ∈ l', ∀ (t : EthThread (σ × Option Sys)) (cs : List (List UInt8)) (tap tap' : Sys)
        (fuel : ℕ), t.rio.Valid → t.sys.Delivers cs →
        avail t.rio t.sys = (s'.out.st.sent p).drop (s.out.st.sent p).length →
        t.st.2 = some tap → writeFrames (fs.filter (addressedTo (key p))) tap = some tap' →
        fs.length < fuel →
        (ethHandler (withTap H) fuel t).1 = .waiting ∧
          (ethHandler (withTap H) fuel t).2.st.2 = some tap' ∧
          tap'.sent = tap.sent ++ (fs.filter (addressedTo (key p))).flatten ∧
          (ethHandler (withTap H) fuel t).2.trace = t.trace ++
            (fs.filter (addressedTo (key p))).map fun f => .dispatch .data (.ofNat f.length) f := by
  obtain ⟨l', hserved⟩ := tapHandler_served h hv hcnt hw hfs hrun
  refine ⟨l', hserved, fun p hp t cs tap tap' fuel htv htw hav htap hwrite hfuel => ?_⟩
  rw [hserved.whole p hp, List.drop_left] at hav
  refine ethHandler_frames (fun f hf => ?_) htv htw hav htap hwrite ?_
  · obtain ⟨hlen, hle⟩ := hfs f (List.mem_filter.1 hf).1
    exact Frame.payload ⟨by omega, hle⟩
  · exact lt_of_le_of_lt (List.length_filter_le _ _) hfuel

end

/-! ## Two members -/

/-- The addresses of the members of an example. -/
def sampleKey (p : Ptr) : MAC := .replicate 6 (.ofNat p)

/-- A broadcast, and a frame in which the address of the second member stands where it is looked
for. -/
def sampleFrames : List (List UInt8) :=
  [List.replicate 6 0xFF ++ [7, 7, 7, 7, 7, 7, 8, 0], [9, 9, 2, 2, 2, 2, 2, 2, 7, 7, 7, 7, 8, 0]]

/-- Two members. The connection to the first one cannot be locked, the second one takes two packets
of 18 bytes, the first of them in two pieces. -/
def sampleThread : TapThread where
  rio := rioReadinit
  sys := ⟨.ok, deliver sampleFrames, [], [], []⟩
  out :=
    { table := hashAdd (fun _ => 0) (sampleKey 2) 2
        (hashAdd (fun _ => 0) (sampleKey 1) 1 (Hash.empty Ptr))
      freed := []
      st := ⟨.ok, fun p => ⟨.ok, [], if p = 1 then [.fcntl (some (.other 9))] else
        [.fcntl none, .poll none, .write (.ok 4), .poll none, .write (.ok 14), .fcntl none,
          .fcntl none, .poll none, .write (.ok 18), .fcntl none], [], []⟩, fun _ => ⟨0, 0⟩⟩ }

theorem sampleThread_at : sampleThread.out.At (fun _ => 0) sampleKey [] [1, 2] := by
  have hone : Rep (fun _ => 0) sampleKey (hashAdd (fun _ => 0) (sampleKey 1) 1 (Hash.empty Ptr))
      ([] ++ [1]) := (rep_nil rfl).add (by simp) (by simp)
  have htwo := hone.add (p := 2) (by decide) (by decide)
  exact ⟨htwo, fun _ _ => List.not_mem_nil⟩

/-- The first member is removed, and the second one writes both frames to its tap device. -/
theorem tunnel_delivers_two : ∃ s' t, tapHandler (fun _ => 0) sampleKey 2 sampleThread = some s' ∧
    elements s'.out.table = [2] ∧ s'.out.freed = [1] ∧
    avail t.rio t.sys = s'.out.st.sent 2 ∧ ∃ tap, (ethHandler (withTap quietHandlers) 3 t).2.st =
      ((), some tap) ∧ tap.sent = sampleFrames.flatten := by
  have hrun : (tapHandler (fun _ => 0) sampleKey sampleFrames.length sampleThread).map
      (fun s => (elements s.out.table, s.out.freed)) = some ([2], [1]) := by
    decide +kernel
  obtain ⟨s', hs', hmembers⟩ := Option.map_eq_some_iff.1 hrun
  obtain ⟨hmembers, hfreed⟩ := Prod.mk.inj hmembers
  obtain ⟨l', hserved, hleft⟩ := tunnel_delivers quietHandlers sampleThread_at rioReadinit_valid
    (by decide) ⟨by decide, rfl, by decide⟩ (by decide) hs'
  have hrep : Rep _ _ s'.out.table l' := hserved.table.rep
  obtain rfl : l' = [2] := hrep.elements.symm.trans hmembers
  have hsent : s'.out.st.sent 2 = tapStream (sampleKey 2) sampleFrames :=
    hserved.whole 2 (by simp)
  have hfilter : sampleFrames.filter (addressedTo (sampleKey 2)) = sampleFrames := by decide
  obtain ⟨tap, tap', hwrite, hempty⟩ : ∃ tap tap', writeFrames sampleFrames tap = some tap' ∧
      tap.sent = [] := by
    obtain ⟨tap', htap'⟩ := Option.isSome_iff_exists.1 (by decide +kernel :
      (writeFrames sampleFrames ⟨.ok, [], [.fcntl none, .poll none, .write (.ok 14), .fcntl none,
        .fcntl none, .poll none, .write (.ok 14), .fcntl none], [], []⟩).isSome = true)
    exact ⟨_, tap', htap', rfl⟩
  obtain ⟨t, cs, hvalid, hdelivers, hav, hst⟩ :=
    exists_receiver ((), some tap) (tapStream (sampleKey 2) sampleFrames) (by decide)
  rw [← hsent] at hav
  rw [← hfilter] at hwrite
  obtain ⟨-, htap, hout, -⟩ := hleft 2 (by simp) t cs tap tap' 3 hvalid hdelivers hav (by rw [hst])
    hwrite (by decide)
  refine ⟨s', t, hs', hmembers, hfreed, hav, tap', Prod.ext rfl htap, ?_⟩
  rw [hout, hfilter, hempty, List.nil_append]

end LinkProxy.Handlers
