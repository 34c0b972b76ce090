import LinkProxy.Handlers.Forward
import LinkProxy.Rio.Stream

/-!
# The buffer of `tap_handler`

`tap_handler` reads from the tap to the place behind the header in a buffer that has room for a
header and a frame. It asks `rio_read` for as many bytes as the whole buffer has, and so does
`rio_read` ask the kernel: what one `read` returns is copied, at an offset of `PROXY_HLEN`.

Everything stays in the buffer exactly if no `read` returns more than `ETH_FRAME_LEN` bytes
(`inBuffer_iff`). The next four lengths are still within the size that is asked for.
-/

namespace LinkProxy.Handlers

open Bytes Rio Wire Peers

/-- `sizeof(buffer)` in `tap_handler`. -/
def tapBufferSize : ℕ := ethFrameLen + proxyHlen

/-- A pass of `tap_handler`: the bytes that `rio_read` has copied to `buffer+PROXY_HLEN`, and the
calls of `rio_write`. `none` in place of them is the `exit` after a failed read. -/
structure TapPass where
  frame : List UInt8
  writes : Option (List (Ptr × Write))

/-- The bytes that are copied and the bytes that are sent lie in the buffer. -/
def TapPass.InBuffer (p : TapPass) : Prop :=
  proxyHlen + p.frame.length ≤ tapBufferSize ∧
    ∀ writes ∈ p.writes, ∀ x ∈ writes, x.2.n ≤ tapBufferSize

/-- `tapForward`, with the arguments of the calls. -/
def tapPass (m : Members) (rp : RioT) (w : Sys) : Option (TapPass × RioT × Sys) := do
  let (size, frame, rp, w) ← rioRead (proxyHlen + ethFrameLen) rp w
  if size ≤ 0 then return (⟨frame, none⟩, rp, w)
  let write := tapWrite size frame
  return (⟨frame, some ((targets m (bufOf write.buf fun _ => 0)).map fun p => (p, write))⟩, rp, w)

/-- Passes of `tap_handler`, each with the members that it finds, up to an `exit`. -/
def tapRun : List Members → RioT → Sys → Option (List TapPass × RioT × Sys)
  | [], rp, w => some ([], rp, w)
  | m :: ms, rp, w => do
    let (p, rp, w) ← tapPass m rp w
    if p.writes.isNone then return ([p], rp, w)
    let (ps, rp, w) ← tapRun ms rp w
    return (p :: ps, rp, w)

/-- With the bytes of the calls it is `tapForward`. -/
theorem tapPass_map (m : Members) (rp : RioT) (w : Sys) :
    ((tapPass m rp w).map fun (p, rp, w) =>
      (p.writes.map (·.map fun x => (x.1, x.2.bytes)), rp, w)) = tapForward m rp w := by
  rw [tapPass, tapForward]
  rcases rioRead (proxyHlen + ethFrameLen) rp w with _ | ⟨size, frame, rp, w⟩
  · rfl
  simp only [Option.bind_eq_bind, Option.bind_some, Option.pure_def]
  split_ifs with hsize
  · rfl
  · simp only [Option.map_some, List.map_map, Function.comp_def]

/-! ## What a pass reads -/

/-- The bytes of every `read` that has succeeded. -/
def delivered (used : List InCall) : List (List UInt8) :=
  used.filterMap fun
    | .read (.ok c) => some c
    | _ => none

@[simp] theorem delivered_append (u v : List InCall) :
    delivered (u ++ v) = delivered u ++ delivered v :=
  List.filterMap_append

theorem mem_delivered {used : List InCall} {c : List UInt8} :
    c ∈ delivered used ↔ .read (.ok c) ∈ used := by
  rw [delivered, List.mem_filterMap]
  constructor
  · rintro ⟨a, ha, hc⟩
    cases a with
    | poll r => cases hc
    | read r =>
      cases r with
      | error e => cases hc
      | ok c' =>
        obtain rfl := Option.some.inj hc
        exact ha
  · exact fun hmem => ⟨_, hmem, rfl⟩

theorem delivered_of_polls {used : List InCall} (h : ∀ a ∈ used, (InCall.ofPoll a).isSome) :
    delivered used = [] := by
  refine List.filterMap_eq_nil_iff.2 fun a ha => ?_
  cases a with
  | poll r => rfl
  | read r => cases h _ ha

section

variable {fuel : ℕ} {rp rp' : RioT} {w w' : Sys} {o : Option Int} {r : Int} {frame : List UInt8}
  {m : Members} {ms : List Members} {p : TapPass} {ps : List TapPass}

/-- The results `used` contain the bytes `frame` and nothing else. -/
def Delivered (used : List InCall) (frame : List UInt8) : Prop :=
  delivered used = [frame] ∨ delivered used = [] ∧ frame = []

/-- A wait and a read, before the results `used`. -/
theorem delivered_of_wait {c : InCall} {e : Errno} {s s' used : List InCall}
    (hwait : retry InCall.ofPoll w.inp w.errno = some (r, e, c :: s)) (hs : s = used ++ s')
    (h : Delivered (c :: used) frame) : ∃ used₁, w.inp = used₁ ++ s' ∧ Delivered used₁ frame := by
  obtain ⟨-, u, hu, hpolls, -⟩ := retry_used hwait
  refine ⟨u ++ c :: used, ?_, ?_⟩
  · rw [hu, hs, List.append_assoc]
    rfl
  · rw [Delivered, delivered_append, delivered_of_polls hpolls, List.nil_append]
    exact h

/-- The refill loop ends with the first bytes. -/
theorem fills_delivered (h : Fills rp w o rp' w') (hcnt : rp.cnt ≤ 0) :
    ∃ used, w.inp = used ++ w'.inp ∧ Delivered used rp'.pending := by
  induction h with
  | ready hpos => exact absurd hcnt (not_le.2 hpos)
  | waitFails hcnt hwait =>
    obtain ⟨-, u, hu, hpolls, -⟩ := retry_used hwait
    exact ⟨u, hu, .inr ⟨delivered_of_polls hpolls, RioT.pending_of_nonpos hcnt⟩⟩
  | endOfStream hcnt hwait => exact delivered_of_wait hwait (List.nil_append _).symm (.inl rfl)
  | refill hcnt hwait hpos hle =>
    rw [RioT.pending_refill]
    exact delivered_of_wait hwait (List.nil_append _).symm (.inl rfl)
  | @readFails rp _ _ _ _ hcnt hwait he =>
    have hempty : RioT.pending { rp with cnt := -1 } = [] := RioT.pending_of_nonpos (by simp)
    exact delivered_of_wait hwait (List.nil_append _).symm (.inr ⟨rfl, hempty⟩)
  | again hcnt hwait he hrest ih =>
    obtain ⟨used, hs, hused⟩ := ih (by simp)
    exact delivered_of_wait hwait hs hused

/-- **What a pass reads**: the bytes of one `read`, and the reader is empty again. -/
theorem rioRead_delivered (hv : rp.Valid) (hcnt : rp.cnt ≤ 0)
    (h : rioRead (proxyHlen + ethFrameLen) rp w = some (r, frame, rp', w')) :
    rp'.Valid ∧ rp'.cnt ≤ 0 ∧ (0 < r → r = frame.length) ∧
      ∃ used, w.inp = used ++ w'.inp ∧ Delivered used frame := by
  have hpos : 0 < proxyHlen + ethFrameLen := by decide
  obtain ⟨o, rp₁, hfill, hcases⟩ := rioRead_cases hpos hv h
  obtain ⟨hv₁, hspec⟩ := rioFill_spec hv hfill
  obtain ⟨used, hused, hdelivered⟩ := fills_delivered (fills hfill) hcnt
  rcases hcases with ⟨rfl, rfl, rfl⟩ | ⟨k, rfl, rfl, hk0, hmin, hframe, hlen, rfl⟩
  · obtain ⟨hnone, -⟩ | ⟨r₁, hsome, hr, -, hcnt'⟩ := hspec
    · cases hnone
    obtain rfl := Option.some.inj hsome
    rw [RioT.pending_of_nonpos hcnt'] at hdelivered
    exact ⟨hv₁, hcnt', fun hlt => by omega, used, hused, hdelivered⟩
  · -- the buffer of the reader is not larger than the request
    have hk : k = rp₁.cnt.toNat := by
      have hrange := hv₁.range
      rw [bufSize] at hrange
      omega
    refine ⟨hv₁.advance hk.le, ?_, fun _ => by rw [hlen], used, hused, ?_⟩
    · show rp₁.cnt - k ≤ 0
      omega
    · rw [hframe, hk]
      exact hdelivered

/-! ## The extents -/

theorem fits_iff (n : ℕ) : proxyHlen + n ≤ tapBufferSize ↔ n ≤ ethFrameLen := by
  rw [tapBufferSize]
  omega

/-- The packet is sent from the buffer if the frame has been read into it. -/
theorem inBuffer_iff_of_writes {ts : List Ptr} (hpos : 0 < frame.length) :
    TapPass.InBuffer ⟨frame, some (ts.map fun t => (t, tapWrite frame.length frame))⟩ ↔
      frame.length ≤ ethFrameLen := by
  rw [TapPass.InBuffer, fits_iff]
  refine and_iff_left_of_imp fun hle writes hwrites x hx => ?_
  obtain rfl := Option.some.inj hwrites
  obtain ⟨t, -, rfl⟩ := List.mem_map.1 hx
  rw [tapWrite_frame ⟨hpos, hle⟩, fits_iff]
  exact hle

/-- **What a pass does**: it stays in the buffer exactly if it has read no more than a frame. -/
theorem tapPass_inBuffer_iff (hv : rp.Valid) (hcnt : rp.cnt ≤ 0)
    (h : tapPass m rp w = some (p, rp', w')) :
    rp'.Valid ∧ rp'.cnt ≤ 0 ∧ (p.InBuffer ↔ p.frame.length ≤ ethFrameLen) ∧
      ∃ used, w.inp = used ++ w'.inp ∧ Delivered used p.frame := by
  obtain ⟨⟨size, frame, rp₁, w₁⟩, hread, h⟩ := Option.bind_eq_some_iff.1 h
  obtain ⟨hv', hcnt', hsize, hused⟩ := rioRead_delivered hv hcnt hread
  dsimp only at h
  split_ifs at h with hle
  · obtain ⟨rfl, rfl, rfl⟩ := by simpa using h
    refine ⟨hv', hcnt', ?_, hused⟩
    rw [TapPass.InBuffer, fits_iff]
    exact and_iff_left nofun
  · obtain ⟨rfl, rfl, rfl⟩ := by simpa using h
    obtain rfl := hsize (not_le.1 hle)
    exact ⟨hv', hcnt', inBuffer_iff_of_writes (by omega), hused⟩

theorem Delivered.forall_iff {used : List InCall} (h : Delivered used frame) :
    (∀ c ∈ delivered used, c.length ≤ ethFrameLen) ↔ frame.length ≤ ethFrameLen := by
  rcases h with h | ⟨h, rfl⟩
  · rw [h, List.forall_mem_singleton]
  · rw [h]
    exact iff_of_true nofun (Nat.zero_le _)

/-- **What all passes do.** -/
theorem tapRun_inBuffer_iff (hv : rp.Valid) (hcnt : rp.cnt ≤ 0)
    (h : tapRun ms rp w = some (ps, rp', w')) : ∃ used, w.inp = used ++ w'.inp ∧
      ((∀ p ∈ ps, p.InBuffer) ↔ ∀ c ∈ delivered used, c.length ≤ ethFrameLen) := by
  induction ms generalizing rp w ps with
  | nil =>
    obtain ⟨rfl, rfl, rfl⟩ := by simpa [tapRun] using h
    exact ⟨[], rfl, iff_of_true nofun nofun⟩
  | cons m ms ih =>
    obtain ⟨⟨p, rp₁, w₁⟩, hpass, h⟩ := Option.bind_eq_some_iff.1 h
    obtain ⟨hv₁, hcnt₁, hiff, used, hinp, hused⟩ := tapPass_inBuffer_iff hv hcnt hpass
    rw [← hused.forall_iff] at hiff
    dsimp only at h
    split_ifs at h with hexit
    · obtain ⟨rfl, rfl, rfl⟩ := by simpa using h
      exact ⟨used, hinp, by rw [List.forall_mem_singleton, hiff]⟩
    · obtain ⟨⟨ps₁, rp₂, w₂⟩, hrun, h⟩ := Option.bind_eq_some_iff.1 h
      obtain ⟨rfl, rfl, rfl⟩ := by simpa using h
      obtain ⟨used', hinp', hiff'⟩ := ih hv₁ hcnt₁ hrun
      refine ⟨used ++ used', by rw [hinp, hinp', List.append_assoc], ?_⟩
      rw [List.forall_mem_cons, hiff, hiff', delivered_append, List.forall_mem_append]

/-- Undisturbed, every pass reads what the next `read` delivers. -/
theorem tapRun_delivers {cs : List (List UInt8)} (ms : List Members) (hv : rp.Valid)
    (hcnt : rp.cnt ≤ 0) (hw : w.Delivers cs) (hlen : ms.length = cs.length) :
    ∃ ps rp' w', tapRun ms rp w = some (ps, rp', w') ∧ ps.map TapPass.frame = cs ∧ w'.inp = [] := by
  induction ms generalizing rp w cs with
  | nil =>
    obtain rfl := List.length_eq_zero_iff.1 hlen.symm
    exact ⟨[], rp, w, rfl, rfl, hw.inp_eq⟩
  | cons m ms ih =>
    obtain ⟨c, cs, rfl⟩ := List.exists_cons_of_length_eq_add_one hlen.symm
    obtain ⟨rp₁, w₁, hread, hv₁, hcnt₁, hw₁⟩ := rioRead_frame hv hcnt hw
    obtain ⟨ps, rp', w', hrun, hps, hleft⟩ := ih hv₁ hcnt₁ hw₁ (Nat.succ.inj hlen)
    have hpos := (hw.size c List.mem_cons_self).1
    have hpass : ∃ ws, tapPass m rp w = some (⟨c, some ws⟩, rp₁, w₁) := by
      rw [tapPass, hread]
      exact ⟨_, if_neg (by omega)⟩
    obtain ⟨ws, hpass⟩ := hpass
    refine ⟨⟨c, some ws⟩ :: ps, rp', w', ?_, by rw [List.map_cons, hps], hleft⟩
    rw [tapRun, hpass]
    simp only [Option.bind_eq_bind, Option.bind_some, Option.isNone_some, Bool.false_eq_true,
      if_false, hrun, Option.pure_def]

end

/-- **`tap_handler` stays in its buffer exactly if no `read` returns more than `ETH_FRAME_LEN`
bytes.** The results `used` are those of its calls on the tap, in as many passes as there are
tables of members. -/
theorem inBuffer_iff (ms : List Members) (w w' : Sys) (used s : List InCall) (ps : List TapPass)
    (rp : RioT) (hrun : tapRun ms rioReadinit { w with inp := used ++ s } = some (ps, rp, w'))
    (hleft : w'.inp = s) :
    (∀ p ∈ ps, p.InBuffer) ↔ ∀ c, .read (.ok c) ∈ used → c.length ≤ ethFrameLen := by
  obtain ⟨used', hinp, hiff⟩ := tapRun_inBuffer_iff rioReadinit_valid le_rfl hrun
  obtain rfl : used = used' := List.append_cancel_right (hinp.trans (by rw [hleft]))
  rw [hiff]
  exact forall_congr' fun c => imp_congr_left mem_delivered

/-- A frame of 14 bytes. -/
theorem inBuffer_even : ∃ ps rp w', tapRun [oneMember (hDest evenFrame)] rioReadinit
    ⟨.ok, deliver [evenFrame], [], [], []⟩ = some (ps, rp, w') ∧ ps.length = 1 ∧
      ∀ p ∈ ps, p.InBuffer := by
  have hw : Sys.Delivers ⟨.ok, deliver [evenFrame], [], [], []⟩ [evenFrame] :=
    ⟨by decide, rfl, by decide⟩
  obtain ⟨ps, rp, w', hrun, hps, hleft⟩ := tapRun_delivers [oneMember (hDest evenFrame)]
    rioReadinit_valid le_rfl hw rfl
  refine ⟨ps, rp, w', hrun, by rw [← List.length_map, hps]; rfl, ?_⟩
  refine (inBuffer_iff [oneMember (hDest evenFrame)] ⟨.ok, [], [], [], []⟩ w' (deliver [evenFrame])
    [] ps rp hrun hleft).2 fun c hc => ?_
  obtain rfl : c = evenFrame := by simpa [deliver] using hc
  decide

/-- A `read` of 1515 bytes, which `rio_read` asks for, is copied beyond the end of the buffer. -/
theorem not_inBuffer_long : ∃ ps rp w', tapRun [oneMember (hDest evenFrame)] rioReadinit
    ⟨.ok, deliver [List.replicate 1515 0], [], [], []⟩ = some (ps, rp, w') ∧
      ¬∀ p ∈ ps, p.InBuffer := by
  have hlen : (List.replicate 1515 (0 : UInt8)).length = 1515 := List.length_replicate
  have hw : Sys.Delivers ⟨.ok, deliver [List.replicate 1515 0], [], [], []⟩
      [List.replicate 1515 0] := by
    refine ⟨by decide, rfl, List.forall_mem_singleton.2 ?_⟩
    rw [hlen]
    decide
  obtain ⟨ps, rp, w', hrun, hps, -⟩ := tapRun_delivers [oneMember (hDest evenFrame)]
    rioReadinit_valid le_rfl hw rfl
  refine ⟨ps, rp, w', hrun, fun hall => ?_⟩
  obtain ⟨p, hp, hframe⟩ := List.mem_map.1 (hps ▸ List.mem_singleton_self (List.replicate 1515 0))
  have hfits := (hall p hp).1
  rw [hframe, hlen] at hfits
  exact absurd hfits (by decide)

end LinkProxy.Handlers
