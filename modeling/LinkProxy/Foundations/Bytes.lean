import Mathlib

/-!
# Bytes in memory

Unsigned integers as they lie in memory, and memory itself seen from a pointer.

* `le n v` and `be n v` are the `n` low bytes of `v`, least and most significant byte first, and
  `leVal` is the number that a list of bytes denotes, least significant byte first. The two are
  inverse to each other (`leVal_le`, `le_leVal`).
* `bswap n v` reverses the `n` bytes of `v`. Stored on a little-endian machine it is `v` in
  network byte order (`le_bswap`), and it undoes itself (`bswap_bswap`).
* A `Buf` is what a pointer points to: a byte at every offset. `Holds d off l` says that the
  bytes at offset `off` are `l`; it splits along appends (`holds_append`), which is how a reader
  follows a writer that lays one field after the other.
-/

namespace LinkProxy.Bytes

/-! ## Integers -/

/-- The `n` low bytes of `v`, least significant first. -/
def le : ℕ → ℕ → List UInt8
  | 0, _ => []
  | n + 1, v => UInt8.ofNat v :: le n (v / 256)

/-- The `n` low bytes of `v`, most significant first. -/
def be (n v : ℕ) : List UInt8 := (le n v).reverse

/-- The number denoted by a list of bytes, least significant first. -/
def leVal : List UInt8 → ℕ
  | [] => 0
  | b :: bs => b.toNat + 256 * leVal bs

/-- The number whose `n` bytes are those of `v`, reversed. -/
def bswap (n v : ℕ) : ℕ := leVal (be n v)

@[simp] theorem length_le (n v : ℕ) : (le n v).length = n := by
  induction n generalizing v with
  | zero => rfl
  | succ n ih => simp [le, ih]

@[simp] theorem length_be (n v : ℕ) : (be n v).length = n := by simp [be]

theorem leVal_le (n v : ℕ) : leVal (le n v) = v % 256 ^ n := by
  induction n generalizing v with
  | zero => simp [le, leVal, Nat.mod_one]
  | succ n ih =>
    have hb : (UInt8.ofNat v).toNat = v % 256 := by simp
    rw [le, leVal, ih, hb, pow_succ', Nat.mod_mul]

theorem leVal_lt (bs : List UInt8) : leVal bs < 256 ^ bs.length := by
  induction bs with
  | nil => simp [leVal]
  | cons b bs ih =>
    have hb := b.toNat_lt
    rw [leVal, List.length_cons, pow_succ']
    omega

theorem le_leVal (bs : List UInt8) : le bs.length (leVal bs) = bs := by
  induction bs with
  | nil => rfl
  | cons b bs ih =>
    have hb := b.toNat_lt
    rw [List.length_cons, leVal, le, show (b.toNat + 256 * leVal bs) / 256 = leVal bs by omega, ih]
    congr 1
    apply UInt8.toNat_inj.1
    rw [UInt8.toNat_ofNat']
    omega

theorem leVal_append (bs cs : List UInt8) :
    leVal (bs ++ cs) = leVal bs + 256 ^ bs.length * leVal cs := by
  induction bs with
  | nil => simp [leVal]
  | cons b bs ih =>
    simp only [List.cons_append, leVal, ih, List.length_cons]
    ring

theorem bswap_lt (n v : ℕ) : bswap n v < 256 ^ n := by
  have h := leVal_lt (be n v)
  rwa [length_be] at h

/-- **Stored little-endian, a swapped number is in network byte order.** -/
@[simp] theorem le_bswap (n v : ℕ) : le n (bswap n v) = be n v := by
  have h := le_leVal (be n v)
  rwa [length_be] at h

theorem bswap_bswap (n v : ℕ) : bswap n (bswap n v) = v % 256 ^ n := by
  rw [bswap, be, le_bswap, be, List.reverse_reverse, leVal_le]

/-! ## Memory seen from a pointer -/

/-- The bytes a pointer points to, one at every offset. -/
abbrev Buf := ℕ → UInt8

/-- The `n` bytes of `d` from offset `off` on. -/
def slice (d : Buf) (off n : ℕ) : List UInt8 := List.ofFn fun i : Fin n => d (off + i)

/-- A buffer that starts with `l` and goes on with `rest`. -/
def bufOf (l : List UInt8) (rest : Buf) : Buf := fun i =>
  if h : i < l.length then l.get ⟨i, h⟩ else rest (i - l.length)

/-- The bytes of `d` at offset `off` are `l`. -/
def Holds (d : Buf) (off : ℕ) (l : List UInt8) : Prop := slice d off l.length = l

@[simp] theorem length_slice (d : Buf) (off n : ℕ) : (slice d off n).length = n := by
  simp [slice]

theorem slice_add (d : Buf) (off m n : ℕ) :
    slice d off (m + n) = slice d off m ++ slice d (off + m) n := by
  simp only [slice, List.ofFn_add, Fin.val_castLE, Fin.val_natAdd, Nat.add_assoc]

theorem slice_bufOf (l : List UInt8) (rest : Buf) : slice (bufOf l rest) 0 l.length = l := by
  simp [slice, bufOf]

theorem holds_bufOf (l : List UInt8) (rest : Buf) : Holds (bufOf l rest) 0 l := slice_bufOf l rest

/-- The bytes of a list stand in a longer one behind those before them. -/
theorem bufOf_middle (l m n : List UInt8) (rest rest' : Buf) {i : ℕ} (hi : i < m.length) :
    bufOf (l ++ m ++ n) rest (l.length + i) = bufOf m rest' i := by
  have hlt : l.length + i < (l ++ m ++ n).length := by
    simp only [List.length_append]
    omega
  rw [bufOf, dif_pos hlt, bufOf, dif_pos hi]
  simp [hi]

@[simp] theorem holds_nil (d : Buf) (off : ℕ) : Holds d off [] := rfl

theorem holds_append {d : Buf} {off : ℕ} {l m : List UInt8} :
    Holds d off (l ++ m) ↔ Holds d off l ∧ Holds d (off + l.length) m := by
  unfold Holds
  rw [List.length_append, slice_add]
  constructor
  · intro h
    exact List.append_inj h (by simp)
  · rintro ⟨h₁, h₂⟩
    rw [h₁, h₂]

/-- A buffer that holds the bytes of a number yields the number. -/
theorem Holds.leVal_eq {d : Buf} {off n v : ℕ} (h : Holds d off (le n v)) :
    leVal (slice d off n) = v % 256 ^ n := by
  unfold Holds at h
  rw [length_le] at h
  rw [h, leVal_le]

end LinkProxy.Bytes
