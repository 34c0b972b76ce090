import LinkProxy.Rio.Reader

/-!
# The reader as a stream

A sequence of requests `rio_read` and `rio_readnb` to one reader, in any order and of any sizes.
What has been handed out and what still lies in the buffer is together what has been read from the
descriptor, in order (`serveAll_stream`): nothing is lost, repeated or exchanged, however the
stream is cut into reads and however many of these fail in between. A request that `rio_readnb`
does not meet has come to the end of the stream, and has been given all that was left.
-/

namespace LinkProxy.Rio

/-- The bytes of the results that have been consumed. -/
def streamed (used : List InCall) : List UInt8 :=
  used.flatMap fun
    | .read (.ok c) => c
    | _ => []

/-- A request, with the number of bytes that is asked for. -/
inductive Request
  | read (n : ℕ)
  | readnb (n : ℕ)

namespace Request

def size : Request → ℕ
  | .read n => n
  | .readnb n => n

/-- The call of the reader. -/
def serve : Request → RioT → Sys → Option (Int × List UInt8 × RioT × Sys)
  | .read n => rioRead n
  | .readnb n => rioReadnb n

end Request

/-- Requests one after the other, and all the bytes that they return. It is undefined if one of them
fails or does not return. -/
def serveAll : List Request → RioT → Sys → Option (List UInt8 × RioT × Sys)
  | [], rp, w => some ([], rp, w)
  | q :: qs, rp, w => do
    let (r, got, rp, w) ← q.serve rp w
    if r < 0 then none
    else
      let (bytes, rp, w) ← serveAll qs rp w
      return (got ++ bytes, rp, w)

/-! ## What is consumed and what is handed out -/

/-- After the results `used`, the bytes `got` have been handed out. -/
structure Reads (used : List InCall) (got : List UInt8) (rp : RioT) (w : Sys) (rp' : RioT)
    (w' : Sys) : Prop where
  inp : w.inp = used ++ w'.inp
  bytes : rp.pending ++ streamed used = got ++ rp'.pending

/-- The last of the results is the end of the stream. -/
def EndOfStream (used : List InCall) : Prop := ∃ u, used = u ++ [.read (.ok [])]

@[simp] theorem streamed_append (u v : List InCall) :
    streamed (u ++ v) = streamed u ++ streamed v :=
  List.flatMap_append

@[simp] theorem streamed_read (c : List UInt8) : streamed [.read (.ok c)] = c :=
  List.append_nil c

/-- Waiting reads nothing. -/
theorem streamed_of_polls {used : List InCall} (h : ∀ a ∈ used, (InCall.ofPoll a).isSome) :
    streamed used = [] := by
  refine List.flatMap_eq_nil_iff.2 fun a ha => ?_
  cases a with
  | poll r => rfl
  | read r => cases h _ ha

theorem EndOfStream.append {used : List InCall} (h : EndOfStream used) (u : List InCall) :
    EndOfStream (u ++ used) := by
  obtain ⟨v, rfl⟩ := h
  exact ⟨u ++ v, (List.append_assoc u v _).symm⟩

section

variable {n fuel nleft : ℕ} {used used' : List InCall} {got got' bytes : List UInt8}
  {rp rp₁ rp' : RioT} {w w₁ w' : Sys} {r : Int} {o : Option Int}

theorem Reads.refl (rp : RioT) (w : Sys) : Reads [] [] rp w rp w :=
  ⟨rfl, List.append_nil _⟩

theorem Reads.trans (h : Reads used got rp w rp₁ w₁) (h' : Reads used' got' rp₁ w₁ rp' w') :
    Reads (used ++ used') (got ++ got') rp w rp' w' where
  inp := by rw [h.inp, h'.inp, List.append_assoc]
  bytes := by
    rw [streamed_append, ← List.append_assoc, h.bytes, List.append_assoc, h'.bytes,
      List.append_assoc]

/-! ## The refill loop -/

/-- A wait and a read. -/
theorem reads_of_wait {c : InCall} {e e' : Errno} {s : List InCall}
    (hwait : retry InCall.ofPoll w.inp w.errno = some (r, e, c :: s))
    (hbytes : rp.pending ++ streamed [c] = rp'.pending) :
    ∃ u, Reads (u ++ [c]) [] rp w rp' { w with errno := e', inp := s } := by
  obtain ⟨-, u, hu, hpolls, -⟩ := retry_used hwait
  refine ⟨u, ?_, ?_⟩
  · rw [hu, List.append_assoc]
    rfl
  · rw [streamed_append, streamed_of_polls hpolls]
    exact hbytes

/-- The refill loop hands out nothing, and what it reads is unread then. -/
theorem Fills.reads (h : Fills rp w o rp' w') (ho : o ≠ some (-1)) :
    ∃ used, Reads used [] rp w rp' w' ∧ (o = some 0 → rp'.cnt = 0 ∧ EndOfStream used) := by
  induction h with
  | ready hcnt => exact ⟨[], .refl _ _, nofun⟩
  | waitFails | readFails => exact absurd rfl ho
  | @endOfStream rp w e s hcnt hwait =>
    have hbytes : rp.pending ++ streamed [.read (.ok [])] = RioT.pending { rp with cnt := 0 } := by
      rw [RioT.pending_of_nonpos hcnt]
      rfl
    obtain ⟨u, hu⟩ := @reads_of_wait _ _ _ _ _ _ e _ hwait hbytes
    exact ⟨_, hu, fun _ => ⟨rfl, u, rfl⟩⟩
  | @refill rp w e s c hcnt hwait hpos hle =>
    have hbytes : rp.pending ++ streamed [.read (.ok c)] =
        RioT.pending ⟨c.length, 0, c ++ rp.buf.drop c.length⟩ := by
      rw [RioT.pending_of_nonpos hcnt, streamed_read, RioT.pending_refill]
      rfl
    obtain ⟨u, hu⟩ := @reads_of_wait _ _ _ _ _ _ e _ hwait hbytes
    exact ⟨_, hu, nofun⟩
  | @again rp rp' w w' o e e' s hcnt hwait he hrest ih =>
    have hbytes : rp.pending ++ streamed [.read (.error e')] =
        RioT.pending { rp with cnt := -1 } := by
      rw [RioT.pending_of_nonpos hcnt]
      rfl
    obtain ⟨u, hu⟩ := @reads_of_wait _ _ _ _ _ _ e' _ hwait hbytes
    obtain ⟨used, hused, hend⟩ := ih ho
    exact ⟨_, hu.trans hused, fun hzero => ⟨(hend hzero).1, (hend hzero).2.append _⟩⟩

/-! ## The requests -/

theorem rioRead_reads (hn : 0 < n) (hv : rp.Valid) (h : rioRead n rp w = some (r, got, rp', w'))
    (hr : 0 ≤ r) : ∃ used, Reads used got rp w rp' w' ∧ 0 ≤ rp'.cnt ∧
      (r = 0 → rp'.pending = [] ∧ EndOfStream used) := by
  obtain ⟨o, rp₁, hfill, hcases⟩ := rioRead_cases hn hv h
  rcases hcases with ⟨rfl, rfl, rfl⟩ | ⟨k, rfl, rfl, hk0, hmin, hgot, -, rfl⟩
  · obtain ⟨used, hused, hend⟩ := (fills hfill).reads fun ho => by
      rw [Option.some.inj ho] at hr
      exact absurd hr (by decide)
    obtain ⟨-, ⟨hnone, -⟩ | ⟨r₁, hsome, hr₁, -, -⟩⟩ := rioFill_spec hv hfill
    · cases hnone
    obtain rfl := Option.some.inj hsome
    obtain rfl : r = 0 := by omega
    obtain ⟨hcnt, hend⟩ := hend rfl
    exact ⟨used, hused, hcnt.ge, fun _ => ⟨RioT.pending_of_nonpos hcnt.le, hend⟩⟩
  · have hkc : k ≤ rp₁.cnt.toNat := hmin.trans_le (Nat.min_le_left _ _)
    obtain ⟨used, hused, -⟩ := (fills hfill).reads nofun
    have hcopy : Reads [] got rp₁ w' (rp₁.advance k) w' := by
      refine ⟨rfl, ?_⟩
      rw [hgot]
      exact (List.append_nil _).trans (RioT.pending_advance hkc)
    refine ⟨used ++ [], hused.trans hcopy, ?_, fun hzero => ?_⟩
    · show 0 ≤ rp₁.cnt - k
      omega
    · omega

theorem rioReadnbLoop_reads (hv : rp.Valid) (hcnt : 0 ≤ rp.cnt) (hn : got.length + nleft = n)
    (h : rioReadnbLoop n fuel nleft got rp w = some (r, bytes, rp', w')) (hr : 0 ≤ r) :
    ∃ used new, bytes = got ++ new ∧ Reads used new rp w rp' w' ∧ 0 ≤ rp'.cnt ∧
      (r = n ∨ r < n ∧ rp'.pending = [] ∧ EndOfStream used) := by
  induction fuel generalizing nleft got rp w with
  | zero => cases h
  | succ fuel ih =>
    rw [rioReadnbLoop] at h
    split_ifs at h with hzero
    · obtain ⟨rfl, rfl, rfl, rfl⟩ := by simpa using h
      exact ⟨[], [], (List.append_nil _).symm, .refl _ _, hcnt, .inl (by omega)⟩
    obtain ⟨⟨nread, b, rp₁, w₁⟩, hread, h⟩ := Option.bind_eq_some_iff.1 h
    have hnleft := Nat.pos_of_ne_zero hzero
    obtain ⟨hv₁, ⟨rfl, hb0, hbn, -⟩ | ⟨rfl | ⟨rfl, he⟩, rfl, -⟩⟩ := rioRead_avail hnleft hv hread
    · obtain ⟨used, hused, hcnt₁, -⟩ := rioRead_reads hnleft hv hread (Int.natCast_nonneg _)
      dsimp only at h
      rw [if_neg (by omega), if_neg (by omega), Int.toNat_natCast] at h
      obtain ⟨used', new, rfl, hused', hcnt', hend⟩ :=
        ih hv₁ hcnt₁ (by rw [List.length_append]; omega) h
      refine ⟨_, b ++ new, List.append_assoc _ _ _, hused.trans hused', hcnt', ?_⟩
      rcases hend with hall | ⟨hlt, hpending, hend⟩
      · exact .inl hall
      · exact .inr ⟨hlt, hpending, hend.append _⟩
    · obtain ⟨used, hused, hcnt₁, hend⟩ := rioRead_reads hnleft hv hread le_rfl
      obtain ⟨hpending, hend⟩ := hend rfl
      simp only [lt_irrefl, if_false, if_true, Option.pure_def, Option.some.injEq,
        Prod.mk.injEq] at h
      obtain ⟨rfl, rfl, rfl, rfl⟩ := h
      have hlt : (n : Int) - nleft < n := by omega
      exact ⟨used, [], (List.append_nil _).symm, hused, hcnt₁, .inr ⟨hlt, hpending, hend⟩⟩
    · -- `errno` is not `EINTR`, so the failure is returned
      simp only [Int.reduceNeg, Int.reduceLT, if_true, if_neg he, Option.pure_def,
        Option.some.injEq, Prod.mk.injEq] at h
      obtain ⟨rfl, -⟩ := h
      cases hr

theorem rioReadnb_reads (hv : rp.Valid) (hcnt : 0 ≤ rp.cnt)
    (h : rioReadnb n rp w = some (r, got, rp', w')) (hr : 0 ≤ r) :
    ∃ used, Reads used got rp w rp' w' ∧ 0 ≤ rp'.cnt ∧
      (r = n ∨ r < n ∧ rp'.pending = [] ∧ EndOfStream used) := by
  obtain ⟨used, new, rfl, hreads⟩ := rioReadnbLoop_reads hv hcnt (Nat.zero_add n) h hr
  exact ⟨used, hreads⟩

/-- **What one request does.** -/
theorem Request.serve_reads (q : Request) (hq : 0 < q.size) (hv : rp.Valid) (hcnt : 0 ≤ rp.cnt)
    (h : q.serve rp w = some (r, got, rp', w')) (hr : 0 ≤ r) :
    rp'.Valid ∧ 0 ≤ rp'.cnt ∧ ∃ used, Reads used got rp w rp' w' := by
  cases q with
  | read n =>
    obtain ⟨used, hused, hcnt', -⟩ := rioRead_reads hq hv h hr
    exact ⟨(rioRead_avail hq hv h).1, hcnt', used, hused⟩
  | readnb n =>
    obtain ⟨used, hused, hcnt', -⟩ := rioReadnb_reads hv hcnt h hr
    exact ⟨(rioReadnb_avail hv h).1, hcnt', used, hused⟩

/-- **What any sequence of requests does.** -/
theorem serveAll_reads {qs : List Request} (hqs : ∀ q ∈ qs, 0 < q.size) (hv : rp.Valid)
    (hcnt : 0 ≤ rp.cnt) (h : serveAll qs rp w = some (bytes, rp', w')) :
    rp'.Valid ∧ 0 ≤ rp'.cnt ∧ ∃ used, Reads used bytes rp w rp' w' := by
  induction qs generalizing rp w bytes with
  | nil =>
    obtain ⟨rfl, rfl, rfl⟩ := by simpa [serveAll] using h
    exact ⟨hv, hcnt, [], .refl _ _⟩
  | cons q qs ih =>
    rw [List.forall_mem_cons] at hqs
    obtain ⟨⟨r, got, rp₁, w₁⟩, hserve, h⟩ := Option.bind_eq_some_iff.1 h
    dsimp only at h
    split_ifs at h with hr
    obtain ⟨⟨bytes₁, rp₂, w₂⟩, hall, h⟩ := Option.bind_eq_some_iff.1 h
    obtain ⟨rfl, rfl, rfl⟩ := by simpa using h
    obtain ⟨hv₁, hcnt₁, used, hused⟩ := q.serve_reads hqs.1 hv hcnt hserve (not_lt.1 hr)
    obtain ⟨hv', hcnt', used', hused'⟩ := ih hqs.2 hv₁ hcnt₁ hall
    exact ⟨hv', hcnt', used ++ used', hused.trans hused'⟩

end

/-- **The reader is a faithful stream.** After any sequence of requests from `rio_readinit` on, what
has been returned and then what is unread is what has been read from the descriptor, and the unread
bytes are a range of the buffer. And a `rio_readnb` then returns as many bytes as it is asked for,
or the end of the stream has come and it returns all that was left. -/
theorem serveAll_stream (qs : List Request) (hqs : ∀ q ∈ qs, 0 < q.size) (w w' : Sys)
    (bytes : List UInt8) (rp : RioT)
    (hrun : serveAll qs rioReadinit w = some (bytes, rp, w')) :
    (∃ used, w.inp = used ++ w'.inp ∧ bytes ++ rp.pending = streamed used) ∧
      (rp.Valid ∧ 0 ≤ rp.cnt) ∧
      ∀ n > 0, ∀ r got rp' w'', rioReadnb n rp w' = some (r, got, rp', w'') → 0 ≤ r →
        r = got.length ∧ (r = n ∨ r < n ∧ ∃ u, w'.inp = u ++ .read (.ok []) :: w''.inp ∧
          got = rp.pending ++ streamed u) := by
  obtain ⟨hv, hcnt, used, hused⟩ := serveAll_reads hqs rioReadinit_valid le_rfl hrun
  refine ⟨⟨used, hused.inp, hused.bytes.symm⟩, ⟨hv, hcnt⟩, ?_⟩
  intro n hn r got rp' w'' h hr
  obtain ⟨used', hused', -, hend⟩ := rioReadnb_reads hv hcnt h hr
  obtain ⟨-, -, hlen, -⟩ := rioReadnb_avail hv h
  refine ⟨hlen.resolve_right fun hfail => by omega, hend.imp_right ?_⟩
  rintro ⟨hlt, hpending, u, rfl⟩
  refine ⟨hlt, u, ?_, ?_⟩
  · rw [hused'.inp, List.append_assoc]
    rfl
  · have hbytes := hused'.bytes
    rw [hpending, streamed_append, streamed_read, List.append_nil, List.append_nil] at hbytes
    exact hbytes.symm


/-- Three bytes, a failure, another byte and the end of the stream: two bytes are read, and then
three are asked for. -/
theorem serveAll_stream_five : ∃ bytes rp w', serveAll [.read 2, .readnb 3] rioReadinit ⟨.ok,
      [.poll none, .read (.ok [1, 2, 3]), .poll none, .read (.error .EAGAIN), .poll none,
        .read (.ok [4]), .poll none, .read (.ok [])], [], [], []⟩ = some (bytes, rp, w') ∧
    bytes = [1, 2, 3, 4] ∧ rp.Valid ∧ ∃ used, bytes ++ rp.pending = streamed used := by
  have hrun : ∃ bytes rp w', serveAll [.read 2, .readnb 3] rioReadinit ⟨.ok,
      [.poll none, .read (.ok [1, 2, 3]), .poll none, .read (.error .EAGAIN), .poll none,
        .read (.ok [4]), .poll none, .read (.ok [])], [], [], []⟩ = some (bytes, rp, w') ∧
          bytes = [1, 2, 3, 4] :=
    ⟨_, _, _, rfl, rfl⟩
  obtain ⟨bytes, rp, w', hrun, hbytes⟩ := hrun
  obtain ⟨⟨used, -, hused⟩, ⟨hv, -⟩, -⟩ :=
    serveAll_stream [.read 2, .readnb 3] (by decide) _ w' bytes rp hrun
  exact ⟨bytes, rp, w', hrun, hbytes, hv, used, hused⟩

end LinkProxy.Rio
