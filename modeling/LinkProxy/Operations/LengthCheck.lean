import LinkProxy.Operations.Extents

/-!
# The length check of `Link_State`

`Link_State` compares the length of a payload with `22+(N*N+N)*sizeof(link_state_record)`, where `N`
comes from the network. The product `N*N+N` is an `int`, the other one a `size_t`, and the loop
counts in 16 bits.

On LP64 a product that does not fit an `int` becomes a `size_t` that is no length, and the check is
exact. On ILP32 the sum is only known modulo `2^32`. If it wraps `k` times, then `N*N+N` lies in an
interval that is narrower than the distance of two such numbers, so that there is one candidate for
`N` (`pronicRoot`); of the 47 candidates three give a length.
-/

namespace LinkProxy.Extents

open Bytes Wire Gossip Loading

open Program (Thread World handle)

/-! ## Products of two consecutive numbers -/

/-- The largest number of 16 bits with `r*(r+1)` at most `c`. -/
def pronicRoot (c : ℕ) : ℕ :=
  (List.range 16).foldr (fun b r => if (r + 2 ^ b) * (r + 2 ^ b + 1) ≤ c then r + 2 ^ b else r) 0

theorem pronic_mono {a b : ℕ} (h : a ≤ b) : a * (a + 1) ≤ b * (b + 1) :=
  Nat.mul_le_mul h (by omega)

/-- The only candidate for a sum that wraps `k` times to a number of 16 bits. -/
def candidate (k : ℕ) : ℕ := pronicRoot ((k * 4294967296 + 65513) / 48)

/-- The counts and lengths that ILP32 takes for each other. -/
def mistaken : List (ℕ × ℕ) := [(13377, 25718), (23170, 55606), (35393, 50294)]

/-- The neighbours of a candidate are too small and too large, and so are most candidates. -/
theorem candidates : ∀ k < 48, 0 < k →
    22 + 48 * ((candidate k - 1) * (candidate k - 1 + 1)) < k * 4294967296 ∧
    k * 4294967296 + 65536 ≤ 22 + 48 * ((candidate k + 1) * (candidate k + 1 + 1)) ∧
    (22 + 48 * (candidate k * (candidate k + 1)) < k * 4294967296 ∨
      k * 4294967296 + 65536 ≤ 22 + 48 * (candidate k * (candidate k + 1)) ∨
      (candidate k, 22 + 48 * (candidate k * (candidate k + 1)) - k * 4294967296) ∈ mistaken) := by
  decide +kernel

/-- A sum that wraps to a length is one of the three. -/
theorem mem_mistaken_of_wraps {N v k : ℕ} (hk : 0 < k) (hk' : k < 48) (hv : v < 65536)
    (h : 22 + 48 * (N * (N + 1)) = k * 4294967296 + v) : (N, v) ∈ mistaken := by
  obtain ⟨hbelow, habove, hcandidate⟩ := candidates k hk' hk
  have hN : N = candidate k := by
    apply le_antisymm
    · by_contra hlt
      have hmono := pronic_mono (show candidate k + 1 ≤ N by omega)
      omega
    · by_contra hlt
      have hmono := pronic_mono (show N ≤ candidate k - 1 by omega)
      omega
  rw [← hN] at hcandidate
  rcases hcandidate with hlt | hle | hmem
  · omega
  · omega
  · have hsub : 22 + 48 * (N * (N + 1)) - k * 4294967296 = v := by omega
    rwa [hsub] at hmem

/-- The three sums do wrap. -/
theorem wraps_of_mem_mistaken : ∀ e ∈ mistaken,
    e.2 = (22 + 48 * (e.1 * (e.1 + 1))) % 4294967296 ∧ e.2 ≠ 22 + e.1 * (e.1 + 1) * 48 := by
  decide

/-! ## The check -/

theorem pronic_lt (N : UInt16) : N.toNat * (N.toNat + 1) < 4294967296 :=
  lt_of_le_of_lt (pronic_mono (Nat.le_of_lt_succ N.toNat_lt)) (by decide)

theorem lengthOk_iff (dm : DataModel) (N length : UInt16) : lengthOk dm N length = true ↔
    dm.toSize (22 + wrap32 ((N.toNat * (N.toNat + 1) : ℕ) : Int) * recordSize dm) =
      length.toNat := by
  rw [lengthOk, beq_iff_eq, Nat.mul_add_one, Nat.cast_add, Nat.cast_mul]
  rfl

/-- **On LP64 the check is exact.** -/
theorem lengthOk_lp64_iff (N length : UInt16) : lengthOk .lp64 N length = true ↔
    length.toNat = 22 + N.toNat * (N.toNat + 1) * 56 := by
  have hlength : length.toNat < 65536 := length.toNat_lt
  rw [Nat.mul_add_one N.toNat N.toNat]
  refine ⟨fun h => ?_, fun h => ?_⟩
  · have hsize := length_of_lengthOk_lp64 h
    omega
  · rw [lengthOk_iff, Nat.mul_add_one N.toNat N.toNat]
    generalize N.toNat * N.toNat + N.toNat = x at h
    have hwrap : wrap32 (x : Int) = x := by
      rw [wrap32, Int.bmod_def]
      split_ifs <;> omega
    change (22 + wrap32 x * 56) % 18446744073709551616 = _
    rw [hwrap]
    omega

/-- On ILP32 it holds modulo `2^32`. -/
theorem lengthOk_ilp32_iff (N length : UInt16) : lengthOk .ilp32 N length = true ↔
    length.toNat = (22 + 48 * (N.toNat * (N.toNat + 1))) % 4294967296 := by
  have hwrap := wrap32_emod ((N.toNat * (N.toNat + 1) : ℕ) : Int)
  rw [lengthOk_iff]
  change (22 + wrap32 _ * 48) % 4294967296 = _ ↔ _
  generalize wrap32 ((N.toNat * (N.toNat + 1) : ℕ) : Int) = y at hwrap
  generalize N.toNat * (N.toNat + 1) = x at hwrap
  omega

theorem lengthOk_ilp32_cases {N length : UInt16} (h : lengthOk .ilp32 N length = true) :
    length.toNat = 22 + N.toNat * (N.toNat + 1) * 48 ∨ (N.toNat, length.toNat) ∈ mistaken := by
  have hlength : length.toNat < 65536 := length.toNat_lt
  have hx := pronic_lt N
  have hmod := (lengthOk_ilp32_iff N length).1 h
  have hdiv := Nat.div_add_mod (22 + 48 * (N.toNat * (N.toNat + 1))) 4294967296
  rw [← hmod] at hdiv
  rcases Nat.eq_zero_or_pos ((22 + 48 * (N.toNat * (N.toNat + 1))) / 4294967296) with hk | hk
  · rw [hk] at hdiv
    omega
  · refine .inr (mem_mistaken_of_wraps hk ?_ hlength ?_)
    · exact Nat.div_lt_of_lt_mul (by omega)
    · rw [Nat.mul_comm _ 4294967296, hdiv]

/-! ## The loop behind the check -/

/-- The records of an accepted payload fit it. -/
theorem within_records {dm : DataModel} {d : Buf} {N length : ℕ}
    (h : length = 22 + N * (N + 1) * recordSize dm) :
    within d length (recordLoop dm (N * (N + 1)) (2 + linkStateSourceSize)) fun _ => True := by
  apply within_recordLoop
  have hrecord : recordSize dm = dm.timespecSize + 40 := rfl
  rcases Nat.eq_zero_or_pos (N * (N + 1)) with hzero | hpos
  · exact .inl hzero
  · refine .inr ?_
    have hsource : linkStateSourceSize = 20 := rfl
    rw [hsource, h]
    generalize N * (N + 1) = x at hpos
    obtain ⟨n, rfl⟩ := Nat.exists_eq_succ_of_ne_zero (Nat.ne_of_gt hpos)
    rw [Nat.succ_eq_add_one, Nat.add_sub_cancel, Nat.add_mul]
    omega

/-- **What the check is for**: it accepts the length of the records and no other, and behind it the
counter is the number of the records and the loop reads only what was received, in every state. -/
structure Guards (dm : DataModel) (d : Buf) (length : UInt16) : Prop where
  accepts : lengthOk dm (announced d) length = true ↔
    length.toNat = 22 + (announced d).toNat * ((announced d).toNat + 1) * recordSize dm
  counter : lengthOk dm (announced d) length = true →
    (announced d * announced d + announced d).toNat =
      (announced d).toNat * ((announced d).toNat + 1)
  reads : lengthOk dm (announced d) length = true → ∀ (w : World) (t : Thread),
    ∀ i ∈ reads (handle w) d
      (recordLoop dm (announced d * announced d + announced d).toNat (2 + linkStateSourceSize)) t,
      i < length.toNat

/-- An exact check guards the loop. -/
theorem guards_of_accepts {dm : DataModel} {d : Buf} {length : UInt16}
    (h : lengthOk dm (announced d) length = true ↔
      length.toNat = 22 + (announced d).toNat * ((announced d).toNat + 1) * recordSize dm) :
    Guards dm d length := by
  have hcounter : lengthOk dm (announced d) length = true →
      (announced d * announced d + announced d).toNat =
        (announced d).toNat * ((announced d).toNat + 1) := by
    intro hok
    have hlength : length.toNat < 65536 := length.toNat_lt
    have hsize := h.1 hok
    have hrecord : (announced d).toNat * ((announced d).toNat + 1) ≤
        (announced d).toNat * ((announced d).toNat + 1) * recordSize dm :=
      Nat.le_mul_of_pos_right _ (by rw [recordSize]; omega)
    rw [toNat_recordCount, ← Nat.mul_add_one]
    exact Nat.mod_eq_of_lt (by omega)
  refine ⟨h, hcounter, fun hok w t => ?_⟩
  rw [hcounter hok]
  exact reads_lt_of_within (within_records (h.1 hok)) t

/-- **The check of `Link_State` guards its loop** exactly for the packets that are not among the
three that ILP32 mistakes. -/
theorem guards_iff (dm : DataModel) (d : Buf) (length : UInt16) :
    Guards dm d length ↔
      ¬(dm = .ilp32 ∧ ((announced d).toNat, length.toNat) ∈ mistaken) := by
  cases dm with
  | lp64 => exact ⟨fun _ h => DataModel.noConfusion h.1,
      fun _ => guards_of_accepts (lengthOk_lp64_iff (announced d) length)⟩
  | ilp32 =>
    constructor
    · rintro h ⟨-, hmem⟩
      obtain ⟨hmod, hne⟩ := wraps_of_mem_mistaken _ hmem
      exact hne (h.accepts.1 ((lengthOk_ilp32_iff _ _).2 hmod))
    · intro h
      have hnot : ((announced d).toNat, length.toNat) ∉ mistaken := fun hmem => h ⟨rfl, hmem⟩
      refine guards_of_accepts ⟨fun hok => (lengthOk_ilp32_cases hok).resolve_right hnot, ?_⟩
      intro hsize
      have hlength : length.toNat < 65536 := length.toNat_lt
      have hrecord : recordSize .ilp32 = 48 := rfl
      rw [hrecord] at hsize
      rw [lengthOk_ilp32_iff, Nat.mod_eq_of_lt] <;> omega

/-- A payload that announces 13377 neighbours on ILP32: 25718 bytes are taken for the length of
178957506 records. -/
theorem not_guards_wrapped : ¬Guards .ilp32 (bufOf [0x34, 0x41] fun _ => 0) 25718 := by
  intro h
  have hN : announced (bufOf [0x34, 0x41] fun _ => 0) = 13377 := by decide
  have hok := h.accepts
  rw [hN] at hok
  exact absurd (hok.1 (by decide)) (by decide)

end LinkProxy.Extents
