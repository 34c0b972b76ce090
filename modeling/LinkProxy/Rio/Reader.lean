import LinkProxy.Rio.System

/-!
# The buffered reader

`rio_read` hands out bytes from the buffer of a `rio_t`, refilling it by one `read` when it is
empty; `rio_readnb` calls it until the request is met or the stream ends. A partly consumed buffer
is carried from one call to the next.

What a caller can still get is `avail rp w`: the unread bytes of the buffer, then the bytes the
descriptor delivers before its stream ends or fails (`inbound`). A call hands out a prefix of it
and leaves the rest (`rioRead_avail`, `rioReadnb_avail`), however the stream is cut into reads.
-/

namespace LinkProxy.Rio

/-- `ETH_FRAME_LEN` of `linux/if_ether.h`. -/
def ethFrameLen : ℕ := 1514

/-- `PROXY_HLEN`. -/
def proxyHlen : ℕ := 4

/-- `sizeof(rp->buf)`. -/
def bufSize : ℕ := ethFrameLen + proxyHlen

/-- `rio_t`, with `bufp` as an offset into `buf`. The descriptor is the `Sys` it is used with. -/
structure RioT where
  cnt : Int
  bufp : ℕ
  buf : List UInt8
  deriving DecidableEq

/-- `rio_readinit`. -/
def rioReadinit : RioT := ⟨0, 0, List.replicate bufSize 0⟩

/-- `read(rp->fd, rp->buf, sizeof(rp->buf))`. -/
def sysRead (w : Sys) : Option (Except Errno (List UInt8) × Sys) :=
  match w.inp with
  | .read (.ok c) :: s => if c.length ≤ bufSize then some (.ok c, { w with inp := s }) else none
  | .read (.error e) :: s => some (.error e, { w with errno := e, inp := s })
  | _ => none

/-- The refill loop of `rio_read`. It ends with the value that `rio_read` returns at once, or with
`none` when there are bytes in the buffer. -/
def rioFill : ℕ → RioT → Sys → Option (Option Int × RioT × Sys)
  | 0, _, _ => none
  | fuel + 1, rp, w =>
    if rp.cnt ≤ 0 then do
      let (r, w) ← wait .pollin w
      if r < 0 then return (some (-1), rp, w)
      match ← sysRead w with
      | (.error e, w) =>
        if e ≠ .EINTR ∧ e ≠ .EAGAIN then return (some (-1), { rp with cnt := -1 }, w)
        else rioFill fuel { rp with cnt := -1 } w
      | (.ok [], w) => return (some 0, { rp with cnt := 0 }, w)
      | (.ok c, w) =>
        rioFill fuel { cnt := c.length, bufp := 0, buf := c ++ rp.buf.drop c.length } w
    else return (none, rp, w)

/-- `rio_read`: the returned value and the bytes copied to the caller. Every turn of the refill
loop makes a call, so the number of results left bounds the number of turns. -/
def rioRead (n : ℕ) (rp : RioT) (w : Sys) : Option (Int × List UInt8 × RioT × Sys) := do
  match ← rioFill (w.inp.length + 1) rp w with
  | (some r, rp, w) => return (r, [], rp, w)
  | (none, rp, w) =>
    let cnt : ℕ := if rp.cnt < n then rp.cnt.toNat else n
    let bytes := (rp.buf.drop rp.bufp).take cnt
    if rp.cnt - cnt ≤ 0 then return (cnt, bytes, { rp with cnt := rp.cnt - cnt, bufp := 0 }, w)
    else return (cnt, bytes, { rp with cnt := rp.cnt - cnt, bufp := rp.bufp + cnt }, w)

/-- The loop of `rio_readnb`, with `nleft` bytes to go and `got` already in the caller's buffer. -/
def rioReadnbLoop (n : ℕ) : ℕ → ℕ → List UInt8 → RioT → Sys → Option (Int × List UInt8 × RioT × Sys)
  | 0, _, _, _, _ => none
  | fuel + 1, nleft, got, rp, w =>
    if nleft = 0 then return (n - nleft, got, rp, w)
    else do
      let (nread, bytes, rp, w) ← rioRead nleft rp w
      if nread < 0 then
        if w.errno = .EINTR then rioReadnbLoop n fuel nleft got rp w
        else return (-1, got, rp, w)
      else if nread = 0 then return (n - nleft, got, rp, w)
      else rioReadnbLoop n fuel (nleft - nread.toNat) (got ++ bytes) rp w

/-- `rio_readnb`: the returned value and the bytes that were stored in the caller's buffer. -/
def rioReadnb (n : ℕ) (rp : RioT) (w : Sys) : Option (Int × List UInt8 × RioT × Sys) :=
  rioReadnbLoop n (n + 1) n [] rp w

/-! ## The buffer -/

/-- The range described by `bufp` and `cnt` lies inside the buffer. -/
structure RioT.Valid (rp : RioT) : Prop where
  length_buf : rp.buf.length = bufSize
  range : rp.bufp + rp.cnt.toNat ≤ bufSize

theorem rioReadinit_valid : rioReadinit.Valid := ⟨List.length_replicate, by decide⟩

/-- The `cnt` unread bytes at `bufp`. -/
def RioT.pending (rp : RioT) : List UInt8 := (rp.buf.drop rp.bufp).take rp.cnt.toNat

@[simp] theorem rioReadinit_pending : rioReadinit.pending = [] := rfl

theorem RioT.Valid.length_pending {rp : RioT} (h : rp.Valid) :
    rp.pending.length = rp.cnt.toNat := by
  have := h.length_buf
  have := h.range
  rw [RioT.pending, List.length_take, List.length_drop]
  omega

theorem RioT.pending_of_nonpos {rp : RioT} (h : rp.cnt ≤ 0) : rp.pending = [] := by
  rw [RioT.pending, Int.toNat_of_nonpos h, List.take_zero]

/-- A refilled buffer holds exactly the bytes of the read. -/
theorem RioT.pending_refill (c b : List UInt8) : RioT.pending ⟨c.length, 0, c ++ b⟩ = c := by
  simp [RioT.pending]

/-! ## What the descriptor delivers -/

/-- The bytes delivered before the stream ends or fails. -/
def inbound : List InCall → List UInt8
  | [] => []
  | .poll none :: s => inbound s
  | .poll (some e) :: s => if e = .EINTR then inbound s else []
  | .read (.ok []) :: _ => []
  | .read (.ok c) :: s => c ++ inbound s
  | .read (.error e) :: s => if e = .EINTR ∨ e = .EAGAIN then inbound s else []

/-- What a caller can still get from a reader. -/
def avail (rp : RioT) (w : Sys) : List UInt8 := rp.pending ++ inbound w.inp

/-- A wait for input that succeeds has not lost any byte; one that fails has come to the end. -/
theorem retry_inbound {s s' : List InCall} {e e' : Errno} {r : Int}
    (h : retry InCall.ofPoll s e = some (r, e', s')) :
    (r = 0 ∧ inbound s = inbound s') ∨ (r = -1 ∧ inbound s = []) := by
  induction s generalizing e with
  | nil => simp [retry] at h
  | cons a s ih =>
    rcases a with (_ | e₀) | _
    · simp only [retry, InCall.ofPoll] at h
      split_ifs at h with he
      · simpa [inbound] using ih h
      · simp only [Option.some.injEq, Prod.mk.injEq] at h
        obtain ⟨rfl, -, rfl⟩ := h
        exact .inl ⟨rfl, rfl⟩
    · simp only [retry, InCall.ofPoll] at h
      split_ifs at h with he
      · simpa [inbound, he] using ih h
      · simp only [Option.some.injEq, Prod.mk.injEq] at h
        obtain ⟨rfl, -, rfl⟩ := h
        exact .inr ⟨rfl, by simp [inbound, he]⟩
    · simp [retry, InCall.ofPoll] at h

theorem wait_pollin {w w' : Sys} {r : Int} (h : wait .pollin w = some (r, w')) :
    ∃ e s, retry InCall.ofPoll w.inp w.errno = some (r, e, s) ∧
      w' = { w with errno := e, inp := s } := by
  simp only [wait, Option.map_eq_some_iff, Prod.exists, Prod.mk.injEq] at h
  obtain ⟨r', e, s, h, rfl, rfl⟩ := h
  exact ⟨e, s, h, rfl⟩

theorem wait_ready {w : Sys} {s : List InCall} (he : w.errno ≠ .EINTR)
    (h : w.inp = .poll none :: s) : wait .pollin w = some (0, { w with inp := s }) := by
  have hpoll : InCall.ofPoll (.poll none) = some none := rfl
  rw [wait, h, retry_ready hpoll he]
  rfl

/-- A `read` that returned: bytes that fit in the buffer, or an error left in `errno`. -/
theorem sysRead_cases {w w' : Sys} {res : Except Errno (List UInt8)}
    (h : sysRead w = some (res, w')) :
    (∃ c s, w.inp = .read (.ok c) :: s ∧ c.length ≤ bufSize ∧ res = .ok c ∧
        w' = { w with inp := s }) ∨
      ∃ e s, w.inp = .read (.error e) :: s ∧ res = .error e ∧
        w' = { w with errno := e, inp := s } := by
  rw [sysRead] at h
  split at h
  · rename_i c s hs
    split_ifs at h with hc
    simp only [Option.some.injEq, Prod.mk.injEq] at h
    exact .inl ⟨c, s, hs, hc, h.1.symm, h.2.symm⟩
  · rename_i e s hs
    simp only [Option.some.injEq, Prod.mk.injEq] at h
    exact .inr ⟨e, s, hs, h.1.symm, h.2.symm⟩
  · simp at h

theorem avail_refill (c b : List UInt8) (w : Sys) :
    avail ⟨c.length, 0, c ++ b⟩ w = c ++ inbound w.inp := by
  rw [avail, RioT.pending_refill]

theorem avail_of_nonpos (rp : RioT) (h : rp.cnt ≤ 0) (w : Sys) : avail rp w = inbound w.inp := by
  rw [avail, RioT.pending_of_nonpos h, List.nil_append]

/-- Behind a wait for input, nothing has been lost. -/
theorem avail_of_wait {rp : RioT} {w : Sys} {e : Errno} {s : List InCall} (hcnt : rp.cnt ≤ 0)
    (hwait : retry InCall.ofPoll w.inp w.errno = some (0, e, s)) : avail rp w = inbound s := by
  obtain ⟨-, hin⟩ | ⟨hr, -⟩ := retry_inbound hwait
  · rw [avail_of_nonpos rp hcnt, hin]
  · cases hr

/-- A buffer without unread bytes may be given any smaller count. -/
theorem RioT.Valid.drained {rp : RioT} (h : rp.Valid) {k : Int} (hk : k ≤ 0) :
    RioT.Valid { rp with cnt := k } :=
  ⟨h.length_buf, by have := h.range; simp only [Int.toNat_of_nonpos hk]; omega⟩

theorem RioT.Valid.refill {rp : RioT} (h : rp.Valid) {c : List UInt8} (hc : c.length ≤ bufSize) :
    RioT.Valid ⟨c.length, 0, c ++ rp.buf.drop c.length⟩ := by
  have := h.length_buf
  exact ⟨by rw [List.length_append, List.length_drop]; omega, by simpa using hc⟩

/-! ## `rio_read` -/

/-- **The ways through the refill loop**, with the results of its calls. -/
inductive Fills : RioT → Sys → Option Int → RioT → Sys → Prop
  /-- There are unread bytes. -/
  | ready {rp : RioT} {w : Sys} (hcnt : 0 < rp.cnt) : Fills rp w none rp w
  | waitFails {rp : RioT} {w : Sys} {e : Errno} {s : List InCall} (hcnt : rp.cnt ≤ 0)
      (hwait : retry InCall.ofPoll w.inp w.errno = some (-1, e, s)) :
      Fills rp w (some (-1)) rp { w with errno := e, inp := s }
  | endOfStream {rp : RioT} {w : Sys} {e : Errno} {s : List InCall} (hcnt : rp.cnt ≤ 0)
      (hwait : retry InCall.ofPoll w.inp w.errno = some (0, e, .read (.ok []) :: s)) :
      Fills rp w (some 0) { rp with cnt := 0 } { w with errno := e, inp := s }
  | refill {rp : RioT} {w : Sys} {e : Errno} {s : List InCall} {c : List UInt8} (hcnt : rp.cnt ≤ 0)
      (hwait : retry InCall.ofPoll w.inp w.errno = some (0, e, .read (.ok c) :: s))
      (hpos : 0 < c.length) (hle : c.length ≤ bufSize) :
      Fills rp w none ⟨c.length, 0, c ++ rp.buf.drop c.length⟩ { w with errno := e, inp := s }
  | readFails {rp : RioT} {w : Sys} {e e' : Errno} {s : List InCall} (hcnt : rp.cnt ≤ 0)
      (hwait : retry InCall.ofPoll w.inp w.errno = some (0, e, .read (.error e') :: s))
      (he : e' ≠ .EINTR ∧ e' ≠ .EAGAIN) :
      Fills rp w (some (-1)) { rp with cnt := -1 } { w with errno := e', inp := s }
  /-- A failed read is repeated after a signal. -/
  | again {rp rp' : RioT} {w w' : Sys} {o : Option Int} {e e' : Errno} {s : List InCall}
      (hcnt : rp.cnt ≤ 0)
      (hwait : retry InCall.ofPoll w.inp w.errno = some (0, e, .read (.error e') :: s))
      (he : e' = .EINTR ∨ e' = .EAGAIN)
      (hrest : Fills { rp with cnt := -1 } { w with errno := e', inp := s } o rp' w') :
      Fills rp w o rp' w'

theorem Fills.eq_of_pos {rp rp' : RioT} {w w' : Sys} {o : Option Int} (h : Fills rp w o rp' w')
    (hcnt : 0 < rp.cnt) : o = none ∧ rp' = rp ∧ w' = w := by
  cases h with
  | ready => exact ⟨rfl, rfl, rfl⟩
  | waitFails hle | endOfStream hle | refill hle | readFails hle | again hle =>
    exact absurd hle (not_le.2 hcnt)

theorem fills {fuel : ℕ} {rp rp' : RioT} {w w' : Sys} {o : Option Int}
    (h : rioFill fuel rp w = some (o, rp', w')) : Fills rp w o rp' w' := by
  induction fuel generalizing rp w with
  | zero => cases h
  | succ fuel ih =>
    rw [rioFill] at h
    split_ifs at h with hcnt
    swap
    · obtain ⟨rfl, rfl, rfl⟩ := by simpa using h
      exact .ready (not_le.1 hcnt)
    obtain ⟨⟨r, w₁⟩, hwait, h⟩ := Option.bind_eq_some_iff.1 h
    obtain ⟨e, s, hretry, rfl⟩ := wait_pollin hwait
    rcases (retry_spec hretry).2.1 with rfl | rfl
    swap
    · obtain ⟨rfl, rfl, rfl⟩ := by simpa using h
      exact .waitFails hcnt hretry
    obtain ⟨⟨res, w₂⟩, hsys, h⟩ := Option.bind_eq_some_iff.1 h
    rcases sysRead_cases hsys with ⟨c, s', rfl, hc, rfl, rfl⟩ | ⟨e', s', rfl, rfl, rfl⟩
    · rcases c with _ | ⟨b, c⟩
      · obtain ⟨rfl, rfl, rfl⟩ := by simpa using h
        exact .endOfStream hcnt hretry
      · -- the loop ends, since there are bytes now
        have hpos : 0 < (b :: c).length := Nat.succ_pos _
        obtain ⟨rfl, rfl, rfl⟩ := (ih h).eq_of_pos (Int.natCast_pos.2 hpos)
        exact .refill hcnt hretry hpos hc
    · dsimp only at h
      split_ifs at h with he
      · obtain ⟨rfl, rfl, rfl⟩ := by simpa using h
        exact .readFails hcnt hretry he
      · exact .again hcnt hretry (by tauto) (ih h)

/-- How the refill loop ends: with bytes in the buffer and nothing lost, or at the end of what is
available. After a failure `errno` is not `EINTR`. -/
def FillSpec (rp : RioT) (w : Sys) (o : Option Int) (rp' : RioT) (w' : Sys) : Prop :=
  (o = none ∧ 0 < rp'.cnt ∧ avail rp' w' = avail rp w) ∨
    ∃ r, o = some r ∧ (r = 0 ∨ r = -1 ∧ w'.errno ≠ .EINTR) ∧ avail rp w = [] ∧ rp'.cnt ≤ 0

theorem Fills.spec {rp rp' : RioT} {w w' : Sys} {o : Option Int} (h : Fills rp w o rp' w')
    (hv : rp.Valid) : rp'.Valid ∧ FillSpec rp w o rp' w' := by
  induction h with
  | ready hcnt => exact ⟨hv, .inl ⟨rfl, hcnt, rfl⟩⟩
  | @waitFails rp w _ _ hcnt hwait =>
    have hav : avail rp w = [] := by
      obtain ⟨hr, -⟩ | ⟨-, hin⟩ := retry_inbound hwait
      · cases hr
      · rw [avail_of_nonpos rp hcnt, hin]
    exact ⟨hv, .inr ⟨-1, rfl, .inr ⟨rfl, (retry_spec hwait).1⟩, hav, hcnt⟩⟩
  | @endOfStream rp w _ _ hcnt hwait =>
    have hav : avail rp w = [] := by rw [avail_of_wait hcnt hwait, inbound]
    exact ⟨hv.drained le_rfl, .inr ⟨0, rfl, .inl rfl, hav, le_rfl⟩⟩
  | @refill rp w e s c hcnt hwait hpos hle =>
    refine ⟨hv.refill hle, .inl ⟨rfl, Int.natCast_pos.2 hpos, ?_⟩⟩
    obtain ⟨b, c, rfl⟩ := List.exists_cons_of_length_pos hpos
    rw [avail_refill, avail_of_wait hcnt hwait, inbound]
    exact nofun
  | @readFails rp w _ _ _ hcnt hwait he =>
    have hav : avail rp w = [] := by
      rw [avail_of_wait hcnt hwait, inbound, if_neg (not_or.2 he)]
    exact ⟨hv.drained (by decide), .inr ⟨-1, rfl, .inr ⟨rfl, he.1⟩, hav, by simp⟩⟩
  | @again rp rp' w w' o e e' s hcnt hwait he _ ih =>
    obtain ⟨hv', hspec⟩ := ih (hv.drained (by decide))
    have hav : avail { rp with cnt := -1 } { w with errno := e', inp := s } = avail rp w := by
      rw [avail_of_wait hcnt hwait, inbound, if_pos he]
      exact avail_of_nonpos { rp with cnt := -1 } (by simp) _
    rw [FillSpec, hav] at hspec
    exact ⟨hv', hspec⟩

theorem rioFill_spec {fuel : ℕ} {rp rp' : RioT} {w w' : Sys} {o : Option Int} (hv : rp.Valid)
    (h : rioFill fuel rp w = some (o, rp', w')) : rp'.Valid ∧ FillSpec rp w o rp' w' :=
  (fills h).spec hv

/-- The unread bytes are the first `k` of them and the others. -/
theorem RioT.pending_eq_append {rp : RioT} {k : ℕ} (hk : k ≤ rp.cnt.toNat) :
    rp.pending = (rp.buf.drop rp.bufp).take k ++
      (rp.buf.drop (rp.bufp + k)).take (rp.cnt.toNat - k) := by
  rw [RioT.pending, ← List.drop_drop, ← List.take_add, Nat.add_sub_cancel' hk]

/-- The buffer behind a copy of `k` bytes. -/
def RioT.advance (rp : RioT) (k : ℕ) : RioT :=
  { rp with cnt := rp.cnt - k, bufp := if rp.cnt - k ≤ 0 then 0 else rp.bufp + k }

theorem RioT.pending_advance {rp : RioT} {k : ℕ} (hk : k ≤ rp.cnt.toNat) :
    rp.pending = (rp.buf.drop rp.bufp).take k ++ (rp.advance k).pending := by
  rw [pending_eq_append hk]
  by_cases hz : rp.cnt - k ≤ 0
  · have hzero : rp.cnt.toNat - k = 0 := by omega
    have hnone : (rp.advance k).pending = [] := RioT.pending_of_nonpos hz
    rw [hzero, List.take_zero, hnone]
  · have hcnt : (rp.cnt - k).toNat = rp.cnt.toNat - k := by omega
    rw [RioT.pending, RioT.advance, if_neg hz, hcnt]

theorem RioT.Valid.advance {rp : RioT} (h : rp.Valid) {k : ℕ} (hk : k ≤ rp.cnt.toNat) :
    (rp.advance k).Valid := by
  have hrange := h.range
  refine ⟨h.length_buf, ?_⟩
  rw [RioT.advance]
  split_ifs <;> dsimp only <;> omega

/-- The number of bytes that are copied for a request of `n` bytes. -/
def RioT.copied (rp : RioT) (n : ℕ) : ℕ := if rp.cnt < n then rp.cnt.toNat else n

theorem RioT.copied_eq_min {rp : RioT} (n : ℕ) (h : 0 < rp.cnt) :
    rp.copied n = min rp.cnt.toNat n := by
  rw [RioT.copied]
  split_ifs <;> omega

/-- `rio_read` is the refill loop, and then a copy. -/
theorem rioRead_eq (n : ℕ) (rp : RioT) (w : Sys) :
    rioRead n rp w = (rioFill (w.inp.length + 1) rp w).map fun
      | (some r, rp, w) => (r, [], rp, w)
      | (none, rp, w) => ((rp.copied n : Int), (rp.buf.drop rp.bufp).take (rp.copied n),
          rp.advance (rp.copied n), w) := by
  rw [rioRead]
  rcases rioFill (w.inp.length + 1) rp w with _ | ⟨_ | r, rp₁, w₁⟩
  · rfl
  · simp only [Option.bind_eq_bind, Option.bind_some, Option.map_some, Option.pure_def,
      RioT.advance]
    rw [RioT.copied]
    split_ifs <;> rfl
  · rfl

theorem rioRead_of_filled {n : ℕ} {rp rp₁ : RioT} {w w₁ : Sys}
    (h : rioFill (w.inp.length + 1) rp w = some (none, rp₁, w₁)) :
    rioRead n rp w = some ((rp₁.copied n : Int), (rp₁.buf.drop rp₁.bufp).take (rp₁.copied n),
      rp₁.advance (rp₁.copied n), w₁) := by
  rw [rioRead_eq, h]
  rfl

/-- What a `rio_read` that returned has done: the refill loop has ended it, or some of the unread
bytes have been copied. -/
theorem rioRead_cases {n : ℕ} (hn : 0 < n) {rp rp' : RioT} {w w' : Sys} {r : Int}
    {bytes : List UInt8} (hv : rp.Valid) (h : rioRead n rp w = some (r, bytes, rp', w')) :
    ∃ o rp₁, rioFill (w.inp.length + 1) rp w = some (o, rp₁, w') ∧
      ((o = some r ∧ bytes = [] ∧ rp' = rp₁) ∨
        ∃ k : ℕ, o = none ∧ r = k ∧ 0 < k ∧ k = min rp₁.cnt.toNat n ∧
          bytes = (rp₁.buf.drop rp₁.bufp).take k ∧ bytes.length = k ∧ rp' = rp₁.advance k) := by
  rw [rioRead_eq] at h
  obtain ⟨⟨_ | r₁, rp₁, w₁⟩, hfill, heq⟩ := Option.map_eq_some_iff.1 h
  · obtain ⟨rfl, rfl, rfl, rfl⟩ := by simpa using heq
    obtain ⟨hv₁, ⟨-, hcnt, -⟩ | ⟨r₁, hsome, -⟩⟩ := rioFill_spec hv hfill
    · have hmin := rp₁.copied_eq_min n hcnt
      have hb := hv₁.length_buf
      have hrange := hv₁.range
      refine ⟨none, rp₁, hfill, .inr ⟨_, rfl, rfl, by omega, hmin, rfl, ?_, rfl⟩⟩
      rw [List.length_take, List.length_drop]
      omega
    · cases hsome
  · obtain ⟨rfl, rfl, rfl, rfl⟩ := by simpa using heq
    exact ⟨_, _, hfill, .inl ⟨rfl, rfl, rfl⟩⟩

/-- **`rio_read` hands out a nonempty prefix of what is available and leaves the rest**, or there
is nothing left; a failure does not leave `errno` at `EINTR`. -/
theorem rioRead_avail {n : ℕ} (hn : 0 < n) {rp rp' : RioT} {w w' : Sys} {r : Int}
    {bytes : List UInt8} (hv : rp.Valid) (h : rioRead n rp w = some (r, bytes, rp', w')) :
    rp'.Valid ∧ ((r = bytes.length ∧ 0 < bytes.length ∧ bytes.length ≤ n ∧
        avail rp w = bytes ++ avail rp' w') ∨
      ((r = 0 ∨ r = -1 ∧ w'.errno ≠ .EINTR) ∧ bytes = [] ∧ avail rp w = [])) := by
  obtain ⟨o, rp₁, hfill, hcases⟩ := rioRead_cases hn hv h
  obtain ⟨hv₁, hspec⟩ := rioFill_spec hv hfill
  rcases hcases with ⟨rfl, rfl, rfl⟩ | ⟨k, rfl, rfl, hk0, hmin, hbytes, hlen, rfl⟩
  · obtain ⟨hnone, -⟩ | ⟨r₁, hsome, hr, hav, -⟩ := hspec
    · cases hnone
    · obtain rfl := Option.some.inj hsome
      exact ⟨hv₁, .inr ⟨hr, rfl, hav⟩⟩
  · have hkc : k ≤ rp₁.cnt.toNat := hmin.trans_le (Nat.min_le_left _ _)
    obtain ⟨-, -, hav⟩ | ⟨r₁, hsome, -⟩ := hspec
    · refine ⟨hv₁.advance hkc, .inl ⟨by rw [hlen], by omega, by omega, ?_⟩⟩
      rw [← hav, avail, RioT.pending_advance hkc, ← hbytes, List.append_assoc]
      rfl
    · cases hsome

/-! ## `rio_readnb` -/

theorem rioReadnbLoop_avail {n fuel nleft : ℕ} {got bytes : List UInt8} {rp rp' : RioT} {w w' : Sys}
    {r : Int} (hv : rp.Valid) (hn : got.length + nleft = n)
    (h : rioReadnbLoop n fuel nleft got rp w = some (r, bytes, rp', w')) :
    rp'.Valid ∧ bytes = got ++ (avail rp w).take nleft ∧
      (r = bytes.length ∨ r = -1 ∧ (avail rp w).length < nleft) ∧
      (nleft ≤ (avail rp w).length → avail rp' w' = (avail rp w).drop nleft) := by
  induction fuel generalizing nleft got rp w with
  | zero => simp [rioReadnbLoop] at h
  | succ fuel ih =>
    rw [rioReadnbLoop] at h
    split_ifs at h with h0
    · simp only [Option.pure_def, Option.some.injEq, Prod.mk.injEq] at h
      obtain ⟨rfl, rfl, rfl, rfl⟩ := h
      subst h0
      exact ⟨hv, by simp, .inl (by omega), by simp⟩
    obtain ⟨⟨nread, b, rp₁, w₁⟩, hr, h⟩ := Option.bind_eq_some_iff.1 h
    obtain ⟨hv₁, ⟨rfl, hb0, hbn, hav⟩ | ⟨hret, rfl, hav⟩⟩ :=
      rioRead_avail (Nat.pos_of_ne_zero h0) hv hr
    · -- the request shrinks by the bytes that were handed out
      dsimp only at h
      rw [if_neg (by omega), if_neg (by omega), Int.toNat_natCast] at h
      obtain ⟨hv', rfl, hr', hd⟩ := ih hv₁ (by rw [List.length_append]; omega) h
      have htake : (avail rp w).take nleft = b ++ (avail rp₁ w₁).take (nleft - b.length) := by
        rw [hav, List.take_append, List.take_of_length_le hbn]
      refine ⟨hv', by rw [htake, List.append_assoc], ?_, fun hle => ?_⟩
      · rcases hr' with rfl | ⟨rfl, hlt⟩
        · exact .inl rfl
        · exact .inr ⟨rfl, by rw [hav, List.length_append]; omega⟩
      · rw [hav, List.length_append] at hle
        rw [hd (by omega), hav, List.drop_append, List.drop_of_length_le hbn, List.nil_append]
    · -- nothing left: the end of the stream, or a failure
      rcases hret with rfl | ⟨rfl, he⟩
      · simp only [lt_irrefl, if_false, if_true, Option.pure_def, Option.some.injEq,
          Prod.mk.injEq] at h
        obtain ⟨rfl, rfl, rfl, rfl⟩ := h
        refine ⟨hv₁, by simp [hav], .inl (by omega), fun hle => ?_⟩
        rw [hav] at hle
        exact absurd hle (by simpa using h0)
      · simp only [Int.reduceNeg, Int.reduceLT, if_true, if_neg he, Option.pure_def,
          Option.some.injEq, Prod.mk.injEq] at h
        obtain ⟨rfl, rfl, rfl, rfl⟩ := h
        refine ⟨hv₁, by simp [hav], .inr ⟨rfl, by rw [hav]; exact Nat.pos_of_ne_zero h0⟩,
          fun hle => ?_⟩
        rw [hav] at hle
        exact absurd hle (by simpa using h0)

/-- **`rio_readnb` stores the first `n` bytes of what is available** and leaves the rest; when fewer
are available it stores those, and returns their number or `-1`. -/
theorem rioReadnb_avail {n : ℕ} {bytes : List UInt8} {rp rp' : RioT} {w w' : Sys} {r : Int}
    (hv : rp.Valid) (h : rioReadnb n rp w = some (r, bytes, rp', w')) :
    rp'.Valid ∧ bytes = (avail rp w).take n ∧
      (r = bytes.length ∨ r = -1 ∧ (avail rp w).length < n) ∧
      (n ≤ (avail rp w).length → avail rp' w' = (avail rp w).drop n) := by
  simpa using rioReadnbLoop_avail hv (by simp) h

/-! ## Reading does not write -/

/-- Reading leaves the writing side as it is. -/
def SameOut (w w' : Sys) : Prop := w'.out = w.out ∧ w'.sent = w.sent

theorem Fills.sameOut {rp rp' : RioT} {w w' : Sys} {o : Option Int} (h : Fills rp w o rp' w') :
    SameOut w w' := by
  induction h with
  | ready | waitFails | endOfStream | refill | readFails => exact ⟨rfl, rfl⟩
  | again _ _ _ _ ih => exact ih

theorem rioRead_sameOut {n : ℕ} {rp rp' : RioT} {w w' : Sys} {r : Int} {bytes : List UInt8}
    (h : rioRead n rp w = some (r, bytes, rp', w')) : SameOut w w' := by
  rw [rioRead_eq] at h
  obtain ⟨⟨o, rp₁, w₁⟩, hfill, heq⟩ := Option.map_eq_some_iff.1 h
  obtain rfl : w₁ = w' := by cases o <;> exact congrArg (fun x => x.2.2.2) heq
  exact (fills hfill).sameOut

theorem rioReadnbLoop_sameOut {n fuel nleft : ℕ} {got bytes : List UInt8} {rp rp' : RioT}
    {w w' : Sys} {r : Int} (h : rioReadnbLoop n fuel nleft got rp w = some (r, bytes, rp', w')) :
    SameOut w w' := by
  induction fuel generalizing nleft got rp w with
  | zero => simp [rioReadnbLoop] at h
  | succ fuel ih =>
    rw [rioReadnbLoop] at h
    split_ifs at h
    · simp only [Option.pure_def, Option.some.injEq, Prod.mk.injEq] at h
      obtain ⟨-, -, -, rfl⟩ := h
      exact ⟨rfl, rfl⟩
    obtain ⟨⟨nread, b, rp₁, w₁⟩, hr, h⟩ := Option.bind_eq_some_iff.1 h
    obtain ⟨hout, hsent⟩ := rioRead_sameOut hr
    have again (hrest : SameOut w₁ w') : SameOut w w' :=
      ⟨hrest.1.trans hout, hrest.2.trans hsent⟩
    dsimp only at h
    split_ifs at h
    · exact again (ih h)
    · simp only [Option.pure_def, Option.some.injEq, Prod.mk.injEq] at h
      obtain ⟨-, -, -, rfl⟩ := h
      exact ⟨hout, hsent⟩
    · simp only [Option.pure_def, Option.some.injEq, Prod.mk.injEq] at h
      obtain ⟨-, -, -, rfl⟩ := h
      exact ⟨hout, hsent⟩
    · exact again (ih h)

theorem rioReadnb_sameOut {n : ℕ} {rp rp' : RioT} {w w' : Sys} {r : Int} {bytes : List UInt8}
    (h : rioReadnb n rp w = some (r, bytes, rp', w')) : SameOut w w' := rioReadnbLoop_sameOut h

/-! ## Undisturbed reading

The descriptor delivers `chunks` one after the other and no call fails. Then a request that the
available bytes can meet is met, and a reader that has used everything up waits. -/

/-- The results of reads that deliver `chunks`, each read after a successful `poll`. -/
def deliver (chunks : List (List UInt8)) : List InCall :=
  chunks.flatMap fun c => [.poll none, .read (.ok c)]

/-- The reading side delivers `chunks`, each a possible result of one `read`, without failures. -/
structure Sys.Delivers (w : Sys) (chunks : List (List UInt8)) : Prop where
  errno_ne : w.errno ≠ .EINTR
  inp_eq : w.inp = deliver chunks
  size : ∀ c ∈ chunks, 0 < c.length ∧ c.length ≤ bufSize

@[simp] theorem deliver_nil : deliver [] = [] := rfl

@[simp] theorem deliver_cons (c : List UInt8) (cs : List (List UInt8)) :
    deliver (c :: cs) = .poll none :: .read (.ok c) :: deliver cs := rfl

theorem inbound_deliver {chunks : List (List UInt8)} (h : ∀ c ∈ chunks, 0 < c.length) :
    inbound (deliver chunks) = chunks.flatten := by
  induction chunks with
  | nil => rfl
  | cons c cs ih =>
    have hc := h c (by simp)
    rw [deliver_cons, inbound, inbound, ih fun d hd => h d (by simp [hd]), List.flatten_cons]
    rintro rfl
    simp at hc

theorem Sys.Delivers.inbound_eq {w : Sys} {chunks : List (List UInt8)} (h : w.Delivers chunks) :
    inbound w.inp = chunks.flatten := by
  rw [h.inp_eq, inbound_deliver fun c hc => (h.size c hc).1]

/-- A `read` that delivers fills the buffer. -/
theorem rioFill_chunk {rp : RioT} {w : Sys} {c : List UInt8} {s : List InCall} (hcnt : rp.cnt ≤ 0)
    (he : w.errno ≠ .EINTR) (hc : 0 < c.length) (hsize : c.length ≤ bufSize)
    (h : w.inp = .poll none :: .read (.ok c) :: s) (fuel : ℕ) :
    rioFill (fuel + 2) rp w =
      some (none, ⟨c.length, 0, c ++ rp.buf.drop c.length⟩, { w with inp := s }) := by
  have hread : sysRead { w with inp := .read (.ok c) :: s } = some (.ok c, { w with inp := s }) := by
    simp [sysRead, hsize]
  rw [rioFill, if_pos hcnt, wait_ready he h]
  obtain ⟨b, c, rfl⟩ := List.exists_cons_of_length_pos hc
  simp only [Option.bind_eq_bind, Option.bind_some, lt_irrefl, if_false, hread]
  rw [rioFill, if_neg (by simp)]
  rfl

/-- The refill loop takes the next chunk. -/
theorem rioFill_deliver {rp : RioT} {w : Sys} {c : List UInt8} {cs : List (List UInt8)}
    (hcnt : rp.cnt ≤ 0) (hw : w.Delivers (c :: cs)) (fuel : ℕ) :
    rioFill (fuel + 2) rp w =
      some (none, ⟨c.length, 0, c ++ rp.buf.drop c.length⟩, { w with inp := deliver cs }) := by
  obtain ⟨hc, hsize⟩ := hw.size c List.mem_cons_self
  exact rioFill_chunk hcnt hw.errno_ne hc hsize (hw.inp_eq.trans (deliver_cons c cs)) fuel

theorem rioRead_delivers {n : ℕ} {rp : RioT} {w : Sys} {cs : List (List UInt8)}
    (hw : w.Delivers cs) (hav : avail rp w ≠ []) :
    ∃ r bytes rp' cs' w', rioRead n rp w = some (r, bytes, rp', w') ∧ w'.Delivers cs' := by
  by_cases hcnt : rp.cnt ≤ 0
  · rcases cs with _ | ⟨c, cs⟩
    · exact absurd (by rw [avail_of_nonpos rp hcnt, hw.inbound_eq]; rfl) hav
    · have hlen : w.inp.length + 1 = (w.inp.length - 1) + 2 := by
        rw [hw.inp_eq]
        simp
      have hfill := rioFill_deliver hcnt hw (w.inp.length - 1)
      rw [← hlen] at hfill
      exact ⟨_, _, _, cs, _, rioRead_of_filled hfill, hw.errno_ne, rfl,
        fun d hd => hw.size d (by simp [hd])⟩
  · have hfill : rioFill (w.inp.length + 1) rp w = some (none, rp, w) := by
      rw [rioFill, if_neg hcnt]
      rfl
    exact ⟨_, _, _, cs, _, rioRead_of_filled hfill, hw⟩

theorem rioReadnbLoop_delivers {n fuel nleft : ℕ} (got : List UInt8) {rp : RioT} {w : Sys}
    {cs : List (List UInt8)} (hv : rp.Valid) (hw : w.Delivers cs) (hfuel : nleft < fuel)
    (hn : nleft ≤ (avail rp w).length) :
    ∃ r bytes rp' cs' w', rioReadnbLoop n fuel nleft got rp w = some (r, bytes, rp', w') ∧
      w'.Delivers cs' := by
  induction fuel generalizing nleft got rp w cs with
  | zero => omega
  | succ fuel ih =>
    rw [rioReadnbLoop]
    split_ifs with h0
    · exact ⟨_, _, _, cs, _, rfl, hw⟩
    have hne : avail rp w ≠ [] := by
      rw [← List.length_pos_iff]
      omega
    obtain ⟨r, b, rp₁, cs₁, w₁, hr, hw₁⟩ := rioRead_delivers (n := nleft) hw hne
    rw [hr]
    simp only [Option.bind_eq_bind, Option.bind_some]
    obtain ⟨hv₁, ⟨rfl, hb0, hbn, hav⟩ | ⟨-, -, hav⟩⟩ :=
      rioRead_avail (Nat.pos_of_ne_zero h0) hv hr
    · rw [if_neg (by omega), if_neg (by omega), Int.toNat_natCast]
      refine ih _ hv₁ hw₁ (by omega) ?_
      rw [hav, List.length_append] at hn
      omega
    · exact absurd hav hne

/-- **A request that the delivered bytes can meet is met**, and the rest stays available. -/
theorem rioReadnb_delivers {n : ℕ} {rp : RioT} {w : Sys} {cs : List (List UInt8)} (hv : rp.Valid)
    (hw : w.Delivers cs) (hn : n ≤ (avail rp w).length) :
    ∃ rp' w' cs', rioReadnb n rp w = some ((n : Int), (avail rp w).take n, rp', w') ∧ rp'.Valid ∧
      w'.Delivers cs' ∧ avail rp' w' = (avail rp w).drop n := by
  obtain ⟨r, bytes, rp', cs', w', h, hw'⟩ :=
    rioReadnbLoop_delivers (n := n) [] hv hw (Nat.lt_succ_self n) hn
  obtain ⟨hv', rfl, hr, hd⟩ := rioReadnb_avail hv h
  refine ⟨rp', w', cs', ?_, hv', hw', hd hn⟩
  rcases hr with rfl | ⟨-, hlt⟩
  · rwa [List.length_take, Nat.min_eq_left hn] at h
  · omega

/-- With nothing left to deliver, a request waits. -/
theorem rioReadnb_blocked {n : ℕ} (hn : 0 < n) {rp : RioT} {w : Sys} {cs : List (List UInt8)}
    (hv : rp.Valid) (hw : w.Delivers cs) (hav : avail rp w = []) : rioReadnb n rp w = none := by
  obtain ⟨hp, hin⟩ := List.append_eq_nil_iff.1 hav
  have hcnt : rp.cnt ≤ 0 := by
    have := hv.length_pending
    rw [hp, List.length_nil] at this
    omega
  have hcs : cs = [] := by
    rcases cs with _ | ⟨c, cs⟩
    · rfl
    · have := (hw.size c (by simp)).1
      rw [hw.inbound_eq, List.flatten_cons, List.append_eq_nil_iff] at hin
      simp [hin.1] at this
  subst hcs
  have hwait : wait .pollin w = none := by
    rw [wait, hw.inp_eq]
    rfl
  rw [rioReadnb, rioReadnbLoop, if_neg (by omega), rioRead, rioFill, if_pos hcnt, hwait]
  rfl

end LinkProxy.Rio
