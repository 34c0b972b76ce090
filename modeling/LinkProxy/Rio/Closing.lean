import LinkProxy.Rio.Reader

/-!
# A connection that ends

The reading side of a connection that ends delivers its bytes in some chunks, and then either `read`
returns no bytes, as it does from then on, or a call fails. The signals that the program handles are
blocked in the threads that read, so no call is interrupted; `read` may still find nothing
(`EAGAIN`) after a `poll` that has succeeded.

On such a connection `rio_readnb` always returns (`rioReadnb_draining`): with all it was asked for,
while there is enough; with the rest, when the remote end has closed; with `-1`, when a call has
failed. What it returns at the end of a closed connection is a positive short count if the end comes
in the middle of the request, and only the request after that gets no bytes (`rioReadnb_drained`).
-/

namespace LinkProxy.Rio

/-- How a connection ends: the remote end has closed it, or a call on it fails. -/
inductive Ending
  | closed
  | failed
  deriving DecidableEq, Repr

/-- After the last byte: the next call fails, or the next `read` returns no bytes. -/
inductive Over : List InCall → Prop
  | eof (s : List InCall) : Over (.poll none :: .read (.ok []) :: s)
  | failedRead {e : Errno} (s : List InCall) (hintr : e ≠ .EINTR) (hagain : e ≠ .EAGAIN) :
      Over (.poll none :: .read (.error e) :: s)
  | failedPoll {e : Errno} (s : List InCall) (hintr : e ≠ .EINTR) : Over (.poll (some e) :: s)

/-- The results on the reading side of a connection that ends. What follows the end stays the end;
nothing is asked after a failure. -/
inductive Ends : Ending → List InCall → Prop
  | chunk {fin : Ending} {c : List UInt8} {s : List InCall} (hc : 0 < c.length)
      (hsize : c.length ≤ bufSize) (h : Ends fin s) : Ends fin (.poll none :: .read (.ok c) :: s)
  | again {fin : Ending} {s : List InCall} (h : Ends fin s) :
      Ends fin (.poll none :: .read (.error .EAGAIN) :: s)
  | closed {s : List InCall} (h : Over s) : Ends .closed (.poll none :: .read (.ok []) :: s)
  | failedRead {e : Errno} (s : List InCall) (hintr : e ≠ .EINTR) (hagain : e ≠ .EAGAIN) :
      Ends .failed (.poll none :: .read (.error e) :: s)
  | failedPoll {e : Errno} (s : List InCall) (hintr : e ≠ .EINTR) :
      Ends .failed (.poll (some e) :: s)

/-- A reader of a connection that ends. -/
structure Draining (fin : Ending) (rp : RioT) (w : Sys) : Prop where
  valid : rp.Valid
  errno_ne : w.errno ≠ .EINTR
  ends : Ends fin w.inp

/-- A reader that has met the end of its connection. -/
structure Drained (rp : RioT) (w : Sys) : Prop where
  valid : rp.Valid
  errno_ne : w.errno ≠ .EINTR
  cnt : rp.cnt ≤ 0
  inp_over : Over w.inp

/-! ## The calls -/

theorem wait_failed {w : Sys} {s : List InCall} {e : Errno} (he : e ≠ .EINTR)
    (h : w.inp = .poll (some e) :: s) :
    wait .pollin w = some (-1, { w with errno := e, inp := s }) := by
  rw [wait, h, retry]
  simp [InCall.ofPoll, he]

/-- A failed `poll` ends the refill loop. -/
theorem rioFill_failedPoll {rp : RioT} {w : Sys} {s : List InCall} {e : Errno} (hcnt : rp.cnt ≤ 0)
    (he : e ≠ .EINTR) (h : w.inp = .poll (some e) :: s) (fuel : ℕ) :
    rioFill (fuel + 1) rp w = some (some (-1), rp, { w with errno := e, inp := s }) := by
  rw [rioFill, if_pos hcnt, wait_failed he h]
  rfl

/-- A failed `read` ends the refill loop. -/
theorem rioFill_failedRead {rp : RioT} {w : Sys} {s : List InCall} {e : Errno} (hcnt : rp.cnt ≤ 0)
    (he : w.errno ≠ .EINTR) (hintr : e ≠ .EINTR) (hagain : e ≠ .EAGAIN)
    (h : w.inp = .poll none :: .read (.error e) :: s) (fuel : ℕ) :
    rioFill (fuel + 1) rp w =
      some (some (-1), { rp with cnt := -1 }, { w with errno := e, inp := s }) := by
  rw [rioFill, if_pos hcnt, wait_ready he h]
  simp [sysRead, hintr, hagain]

/-- A `read` of no bytes ends the refill loop. -/
theorem rioFill_eof {rp : RioT} {w : Sys} {s : List InCall} (hcnt : rp.cnt ≤ 0)
    (he : w.errno ≠ .EINTR) (h : w.inp = .poll none :: .read (.ok []) :: s) (fuel : ℕ) :
    rioFill (fuel + 1) rp w = some (some 0, { rp with cnt := 0 }, { w with inp := s }) := by
  rw [rioFill, if_pos hcnt, wait_ready he h]
  simp [sysRead]

/-- A `read` that finds nothing is made again. -/
theorem rioFill_again {rp : RioT} {w : Sys} {s : List InCall} (hcnt : rp.cnt ≤ 0)
    (he : w.errno ≠ .EINTR) (h : w.inp = .poll none :: .read (.error .EAGAIN) :: s) (fuel : ℕ) :
    rioFill (fuel + 1) rp w =
      rioFill fuel { rp with cnt := -1 } { w with errno := .EAGAIN, inp := s } := by
  rw [rioFill, if_pos hcnt, wait_ready he h]
  simp [sysRead]

/-! ## `rio_read` -/

/-- The refill loop over a connection that ends: there are bytes, or the end has been met. -/
theorem rioFill_draining {fin : Ending} {rp : RioT} {w : Sys} {fuel : ℕ} (h : Draining fin rp w)
    (hfuel : w.inp.length < fuel) :
    ∃ o rp' w', rioFill fuel rp w = some (o, rp', w') ∧
      ((o = none ∧ Draining fin rp' w') ∨ (o = some 0 ∧ fin = .closed ∧ Drained rp' w') ∨
        (o = some (-1) ∧ fin = .failed)) := by
  obtain ⟨hv, he, hends⟩ := h
  obtain ⟨fuel, rfl⟩ := Nat.exists_eq_succ_of_ne_zero (Nat.ne_of_gt (Nat.zero_lt_of_lt hfuel))
  by_cases hcnt : rp.cnt ≤ 0
  swap
  · exact ⟨none, rp, w, by rw [rioFill, if_neg hcnt]; rfl, .inl ⟨rfl, hv, he, hends⟩⟩
  generalize hs : w.inp = s at hends hfuel
  induction hends generalizing rp w fuel with
  | chunk hc hsize h =>
    obtain ⟨fuel, rfl⟩ : ∃ k, fuel = k + 1 := ⟨fuel - 1, by simp at hfuel; omega⟩
    exact ⟨_, _, _, rioFill_chunk hcnt he hc hsize hs fuel, .inl ⟨rfl, hv.refill hsize, he, h⟩⟩
  | again h ih =>
    obtain ⟨fuel, rfl⟩ : ∃ k, fuel = k + 1 := ⟨fuel - 1, by simp at hfuel; omega⟩
    rw [rioFill_again hcnt he hs]
    exact ih (hv.drained (by simp)) (by simp) fuel (by simp) rfl (by simp at hfuel; omega)
  | closed h =>
    exact ⟨_, _, _, rioFill_eof hcnt he hs fuel, .inr (.inl ⟨rfl, rfl, hv.drained le_rfl, he,
      le_rfl, h⟩)⟩
  | failedRead s hintr hagain =>
    exact ⟨_, _, _, rioFill_failedRead hcnt he hintr hagain hs fuel, .inr (.inr ⟨rfl, rfl⟩)⟩
  | failedPoll s hintr =>
    exact ⟨_, _, _, rioFill_failedPoll hcnt hintr hs fuel, .inr (.inr ⟨rfl, rfl⟩)⟩

theorem rioRead_draining {fin : Ending} {n : ℕ} (hn : 0 < n) {rp : RioT} {w : Sys}
    (h : Draining fin rp w) :
    ∃ r bytes rp' w', rioRead n rp w = some (r, bytes, rp', w') ∧
      ((0 < r ∧ Draining fin rp' w') ∨ (r = 0 ∧ fin = .closed ∧ Drained rp' w') ∨
        (r = -1 ∧ fin = .failed)) := by
  obtain ⟨o, rp₁, w₁, hf, hcase⟩ := rioFill_draining h (Nat.lt_succ_self w.inp.length)
  rcases hcase with ⟨rfl, h₁⟩ | ⟨rfl, hfin, h₁⟩ | ⟨rfl, hfin⟩
  · -- the bytes are copied, and the rest of the connection is as it was
    have hr := @rioRead_of_filled n _ _ _ _ hf
    have hcnt := (rioFill_spec h.valid hf).2
    obtain ⟨hv', ⟨hlen, hb, -, -⟩ | ⟨-, -, hav⟩⟩ := rioRead_avail hn h.valid hr
    · exact ⟨_, _, _, _, hr, .inl ⟨by omega, hv', h₁.errno_ne, h₁.ends⟩⟩
    · obtain ⟨-, hpos, hav'⟩ | ⟨r, hr, -⟩ := hcnt
      · have hlen := h₁.valid.length_pending
        rw [hav, avail, List.append_eq_nil_iff] at hav'
        rw [hav'.1, List.length_nil] at hlen
        omega
      · cases hr
  · exact ⟨0, [], rp₁, w₁, by rw [rioRead, hf]; rfl, .inr (.inl ⟨rfl, hfin, h₁⟩)⟩
  · exact ⟨-1, [], rp₁, w₁, by rw [rioRead, hf]; rfl, .inr (.inr ⟨rfl, hfin⟩)⟩

/-- At the end, `rio_read` returns no bytes or fails, and `errno` is not left at `EINTR`. -/
theorem rioRead_drained {n : ℕ} {rp : RioT} {w : Sys} (h : Drained rp w) :
    ∃ r rp' w', rioRead n rp w = some (r, [], rp', w') ∧ (r = 0 ∨ r = -1 ∧ w'.errno ≠ .EINTR) := by
  obtain ⟨-, he, hcnt, hover⟩ := h
  generalize hs : w.inp = s at hover
  cases hover with
  | eof s => exact ⟨_, _, _, by rw [rioRead, rioFill_eof hcnt he hs]; rfl, .inl rfl⟩
  | failedRead s hintr hagain =>
    exact ⟨_, _, _, by rw [rioRead, rioFill_failedRead hcnt he hintr hagain hs]; rfl,
      .inr ⟨rfl, hintr⟩⟩
  | failedPoll s hintr =>
    exact ⟨_, _, _, by rw [rioRead, rioFill_failedPoll hcnt hintr hs]; rfl, .inr ⟨rfl, hintr⟩⟩

/-! ## `rio_readnb` -/

theorem rioReadnbLoop_draining {fin : Ending} {n fuel nleft : ℕ} (got : List UInt8) {rp : RioT}
    {w : Sys} (h : Draining fin rp w) (hfuel : nleft < fuel) :
    ∃ r bytes rp' w', rioReadnbLoop n fuel nleft got rp w = some (r, bytes, rp', w') ∧
      ((nleft ≤ (avail rp w).length ∧ Draining fin rp' w') ∨
        ((avail rp w).length < nleft ∧ r = n - nleft + (avail rp w).length ∧ fin = .closed ∧
          Drained rp' w') ∨
        ((avail rp w).length < nleft ∧ r = -1 ∧ fin = .failed)) := by
  induction fuel generalizing nleft got rp w with
  | zero => omega
  | succ fuel ih =>
    rw [rioReadnbLoop]
    split_ifs with h0
    · exact ⟨_, _, _, _, rfl, .inl ⟨by omega, h⟩⟩
    obtain ⟨nread, b, rp₁, w₁, hr, hcase⟩ := rioRead_draining (Nat.pos_of_ne_zero h0) h
    obtain ⟨hv₁, hbytes⟩ := rioRead_avail (Nat.pos_of_ne_zero h0) h.valid hr
    rw [hr]
    simp only [Option.bind_eq_bind, Option.bind_some]
    rcases hcase with ⟨hpos, h₁⟩ | ⟨rfl, hfin, h₁⟩ | ⟨rfl, hfin⟩
    · obtain ⟨rfl, hb0, hbn, hav⟩ | ⟨hret, -, -⟩ := hbytes
      · -- the request shrinks by the bytes that were handed out
        rw [if_neg (by omega), if_neg (by omega), Int.toNat_natCast]
        have hlt : nleft - b.length < fuel := by omega
        obtain ⟨r, bytes, rp', w', hrun, hend⟩ := ih (got ++ b) h₁ hlt
        refine ⟨r, bytes, rp', w', hrun, ?_⟩
        rw [hav, List.length_append]
        rcases hend with ⟨hle, h'⟩ | ⟨hlt, hr', hfin, h'⟩ | ⟨hlt, hr', hfin⟩
        · exact .inl ⟨by omega, h'⟩
        · exact .inr (.inl ⟨by omega, by omega, hfin, h'⟩)
        · exact .inr (.inr ⟨by omega, hr', hfin⟩)
      · omega
    · obtain ⟨hnil, hb0, -⟩ | ⟨-, -, hav⟩ := hbytes
      · omega
      · simp only [lt_irrefl, if_false, if_true, hav, List.length_nil]
        exact ⟨_, _, _, _, rfl, .inr (.inl ⟨by omega, by simp, hfin, h₁⟩)⟩
    · obtain ⟨hnil, -⟩ | ⟨hret, -, hav⟩ := hbytes
      · omega
      · have he : w₁.errno ≠ .EINTR := by
          rcases hret with hret | ⟨-, he⟩
          · cases hret
          · exact he
        simp only [Int.reduceNeg, Int.reduceLT, if_true, if_neg he, hav, List.length_nil]
        exact ⟨_, _, _, _, rfl, .inr (.inr ⟨by omega, rfl, hfin⟩)⟩

/-- **`rio_readnb` on a connection that ends.** A request that what is left can meet is met. One
that it cannot meet gets what is left: as a short count when the remote end has closed, with `-1`
when a call has failed. -/
theorem rioReadnb_draining {fin : Ending} (n : ℕ) {rp : RioT} {w : Sys} (h : Draining fin rp w) :
    ∃ r rp' w', rioReadnb n rp w = some (r, (avail rp w).take n, rp', w') ∧
      ((n ≤ (avail rp w).length ∧ r = n ∧ Draining fin rp' w' ∧
          avail rp' w' = (avail rp w).drop n) ∨
        ((avail rp w).length < n ∧ r = (avail rp w).length ∧ fin = .closed ∧ Drained rp' w') ∨
        ((avail rp w).length < n ∧ r = -1 ∧ fin = .failed)) := by
  obtain ⟨r, bytes, rp', w', hrun, hend⟩ :=
    rioReadnbLoop_draining (n := n) [] h (Nat.lt_succ_self n)
  obtain ⟨-, rfl, hr, hdrop⟩ := rioReadnb_avail h.valid hrun
  refine ⟨r, rp', w', hrun, ?_⟩
  rcases hend with ⟨hle, h'⟩ | ⟨hlt, rfl, hfin, h'⟩ | ⟨hlt, rfl, hfin⟩
  · rw [List.length_take] at hr
    exact .inl ⟨hle, by omega, h', hdrop hle⟩
  · exact .inr (.inl ⟨hlt, by omega, hfin, h'⟩)
  · exact .inr (.inr ⟨hlt, rfl, hfin⟩)

/-- A request after the end of the connection gets no bytes. -/
theorem rioReadnb_drained (n : ℕ) {rp : RioT} {w : Sys} (h : Drained rp w) :
    ∃ r rp' w', rioReadnb n rp w = some (r, [], rp', w') ∧ r ≤ 0 := by
  rw [rioReadnb, rioReadnbLoop]
  split_ifs with h0
  · exact ⟨_, _, _, rfl, by simp [h0]⟩
  obtain ⟨r, rp', w', hr, rfl | ⟨rfl, he⟩⟩ := rioRead_drained (n := n) h
  · rw [hr]
    exact ⟨_, _, _, rfl, by simp⟩
  · rw [hr]
    simp only [Option.bind_eq_bind, Option.bind_some, Int.reduceNeg, Int.reduceLT, if_true, if_neg he]
    exact ⟨_, _, _, rfl, by simp⟩

end LinkProxy.Rio
