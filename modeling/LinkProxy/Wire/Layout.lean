import LinkProxy.Foundations.Bytes

/-!
# The structures of `proxy.h` in memory

The packets of the proxy are C structures copied byte for byte, on a little-endian host. A value
of a structure has its bytes (`LinkState.bytes`, `LinkStateRecord.bytes`, …), and a pointer cast to
the structure reads the value back (`ldLinkState`, `ldRecord`, …): a buffer that holds the bytes of
a value yields that value (`ldLinkState_of_holds`, `ldRecord_of_holds`).

The size of `struct timespec` depends on the data model: two 4-byte fields on ILP32, two 8-byte
fields on LP64. Everything else has the same layout on both.
-/

namespace LinkProxy.Wire

open Bytes

/-! ## Byte order -/

/-- `htons` on a little-endian host. -/
def htons (x : UInt16) : UInt16 := .ofNat (bswap 2 x.toNat)

/-- `ntohs` is the same exchange of bytes. -/
def ntohs (x : UInt16) : UInt16 := htons x

/-- `htonl` on a little-endian host. -/
def htonl (x : UInt32) : UInt32 := .ofNat (bswap 4 x.toNat)

/-- `ntohl` is the same exchange of bytes. -/
def ntohl (x : UInt32) : UInt32 := htonl x

theorem toNat_htons (x : UInt16) : (htons x).toNat = bswap 2 x.toNat := by
  rw [htons, UInt16.toNat_ofNat']
  exact Nat.mod_eq_of_lt (bswap_lt 2 _)

theorem toNat_htonl (x : UInt32) : (htonl x).toNat = bswap 4 x.toNat := by
  rw [htonl, UInt32.toNat_ofNat']
  exact Nat.mod_eq_of_lt (bswap_lt 4 _)

@[simp] theorem htons_htons (x : UInt16) : htons (htons x) = x := by
  apply UInt16.toNat_inj.1
  rw [toNat_htons, toNat_htons, bswap_bswap]
  exact Nat.mod_eq_of_lt x.toNat_lt

@[simp] theorem ntohs_htons (x : UInt16) : ntohs (htons x) = x := htons_htons x

@[simp] theorem ntohl_htonl (x : UInt32) : ntohl (htonl x) = x := by
  apply UInt32.toNat_inj.1
  rw [ntohl, toNat_htonl, toNat_htonl, bswap_bswap]
  exact Nat.mod_eq_of_lt x.toNat_lt

/-! ## Scalars -/

/-- The two data models: `long` and `time_t` of 4 bytes, and of 8 bytes. -/
inductive DataModel
  | ilp32
  | lp64
  deriving DecidableEq, Repr

/-- `sizeof(time_t)`, which is `sizeof(long)`. -/
def DataModel.longSize : DataModel → ℕ
  | .ilp32 => 4
  | .lp64 => 8

/-- `sizeof(struct timespec)`. -/
def DataModel.timespecSize (dm : DataModel) : ℕ := 2 * dm.longSize

/-- Two's complement in 32 bits. -/
def wrap32 (x : Int) : Int := x.bmod 4294967296

theorem wrap32_emod (x : Int) : wrap32 x % 4294967296 = x % 4294967296 := Int.bmod_emod

/-- A `uint32_t` assigned to a `long`. -/
def DataModel.toLong : DataModel → UInt32 → Int
  | .ilp32, x => wrap32 x.toNat
  | .lp64, x => x.toNat

/-- An `int` or `size_t` converted to `size_t`. -/
def DataModel.toSize : DataModel → Int → Int
  | .ilp32, x => x % 4294967296
  | .lp64, x => x % 18446744073709551616

theorem DataModel.toSize_of_lt (dm : DataModel) {x : Int} (h : 0 ≤ x) (h' : x < 4294967296) :
    dm.toSize x = x := by
  cases dm with
  | ilp32 => exact Int.emod_eq_of_lt h h'
  | lp64 => exact Int.emod_eq_of_lt h (by omega)

theorem DataModel.four_le_longSize (dm : DataModel) : 4 ≤ dm.longSize := by
  cases dm <;> decide

/-- The `uint16_t` at an offset. -/
def ld16 (d : Buf) (off : ℕ) : UInt16 := .ofNat (leVal (slice d off 2))

/-- The `uint32_t` at an offset. -/
def ld32 (d : Buf) (off : ℕ) : UInt32 := .ofNat (leVal (slice d off 4))

/-- The `long` at an offset, converted to `uint32_t`. -/
def ldLong (dm : DataModel) (d : Buf) (off : ℕ) : UInt32 := .ofNat (leVal (slice d off dm.longSize))

theorem ld16_of_holds {d : Buf} {off : ℕ} {x : UInt16} (h : Holds d off (le 2 x.toNat)) :
    ld16 d off = x := by
  have hx : x.toNat < 256 ^ 2 := x.toNat_lt
  rw [ld16, h.leVal_eq, Nat.mod_eq_of_lt hx, UInt16.ofNat_toNat]

theorem ld32_of_holds {d : Buf} {off : ℕ} {x : UInt32} (h : Holds d off (le 4 x.toNat)) :
    ld32 d off = x := by
  have hx : x.toNat < 256 ^ 4 := x.toNat_lt
  rw [ld32, h.leVal_eq, Nat.mod_eq_of_lt hx, UInt32.ofNat_toNat]

/-- A `uint32_t` stored in a `long` of either size and read back. -/
theorem ldLong_of_holds {dm : DataModel} {d : Buf} {off : ℕ} {x : UInt32}
    (h : Holds d off (le dm.longSize x.toNat)) : ldLong dm d off = x := by
  have hx : x.toNat < 256 ^ dm.longSize :=
    lt_of_lt_of_le (b := 256 ^ 4) x.toNat_lt (Nat.pow_le_pow_right (by omega) dm.four_le_longSize)
  rw [ldLong, h.leVal_eq, Nat.mod_eq_of_lt hx, UInt32.ofNat_toNat]

/-! ## `link_state` -/

/-- A hardware address, `unsigned char[ETH_ALEN]`. -/
abbrev MAC := Vector UInt8 6

/-- The hardware address at an offset. -/
def ldMAC (d : Buf) (off : ℕ) : MAC := ⟨(slice d off 6).toArray, by simp⟩

theorem ldMAC_of_holds {d : Buf} {off : ℕ} {m : MAC} (h : Holds d off m.toList) :
    ldMAC d off = m := by
  unfold Holds at h
  rw [Vector.length_toList] at h
  apply Vector.toList_inj.1
  rw [← h]
  rfl

/-- `link_state`. The fields have the values they have in memory, in whichever byte order the
code has put them. -/
structure LinkState where
  ipAddr : UInt32
  listenPort : UInt16
  tapMAC : MAC
  ethMAC : MAC
  deriving DecidableEq

/-- The bytes of a `link_state`. -/
def LinkState.bytes (ls : LinkState) : List UInt8 :=
  le 4 ls.ipAddr.toNat ++ (le 2 ls.listenPort.toNat ++ (ls.tapMAC.toList ++ ls.ethMAC.toList))

/-- `sizeof(link_state)`. -/
def linkStateSize : ℕ := 18

@[simp] theorem LinkState.length_bytes (ls : LinkState) : ls.bytes.length = linkStateSize := by
  simp [LinkState.bytes, linkStateSize]

/-- The `link_state` at an offset. -/
def ldLinkState (d : Buf) (off : ℕ) : LinkState where
  ipAddr := ld32 d off
  listenPort := ld16 d (off + 4)
  tapMAC := ldMAC d (off + 6)
  ethMAC := ldMAC d (off + 12)

theorem ldLinkState_of_holds {d : Buf} {off : ℕ} {ls : LinkState} (h : Holds d off ls.bytes) :
    ldLinkState d off = ls := by
  simp only [LinkState.bytes, holds_append, length_le, Vector.length_toList] at h
  obtain ⟨h₁, h₂, h₃, h₄⟩ := h
  rw [ldLinkState, ld32_of_holds h₁, ld16_of_holds h₂, ldMAC_of_holds h₃, ldMAC_of_holds h₄]

/-! ## `link_state_record` -/

/-- `link_state_record`. The two fields of `ID` are assigned the results of `htonl`, and read
through `ntohl`: 32-bit words in fields of `sizeof(long)` bytes. `linkWeight` is the bit pattern of
the `float`. -/
structure LinkStateRecord where
  sec : UInt32
  nsec : UInt32
  proxy1 : LinkState
  proxy2 : LinkState
  linkWeight : UInt32
  deriving DecidableEq

/-- The bytes of a `link_state_record`. -/
def LinkStateRecord.bytes (dm : DataModel) (r : LinkStateRecord) : List UInt8 :=
  le dm.longSize r.sec.toNat ++ (le dm.longSize r.nsec.toNat ++
    (r.proxy1.bytes ++ (r.proxy2.bytes ++ le 4 r.linkWeight.toNat)))

/-- `sizeof(link_state_record)`. -/
def recordSize (dm : DataModel) : ℕ := dm.timespecSize + 2 * linkStateSize + 4

@[simp] theorem LinkStateRecord.length_bytes (dm : DataModel) (r : LinkStateRecord) :
    (r.bytes dm).length = recordSize dm := by
  simp only [LinkStateRecord.bytes, recordSize, DataModel.timespecSize, List.length_append,
    length_le, LinkState.length_bytes]
  omega

/-- The `link_state_record` at an offset. -/
def ldRecord (dm : DataModel) (d : Buf) (off : ℕ) : LinkStateRecord where
  sec := ldLong dm d off
  nsec := ldLong dm d (off + dm.longSize)
  proxy1 := ldLinkState d (off + dm.longSize + dm.longSize)
  proxy2 := ldLinkState d (off + dm.longSize + dm.longSize + linkStateSize)
  linkWeight := ld32 d (off + dm.longSize + dm.longSize + linkStateSize + linkStateSize)

theorem ldRecord_of_holds {dm : DataModel} {d : Buf} {off : ℕ} {r : LinkStateRecord}
    (h : Holds d off (r.bytes dm)) : ldRecord dm d off = r := by
  simp only [LinkStateRecord.bytes, holds_append, length_le, LinkState.length_bytes] at h
  obtain ⟨h₁, h₂, h₃, h₄, h₅⟩ := h
  rw [ldRecord, ldLong_of_holds h₁, ldLong_of_holds h₂, ldLinkState_of_holds h₃,
    ldLinkState_of_holds h₄, ld32_of_holds h₅]

/-! ## Headers -/

/-- `proxy_header`, with its fields as they lie in memory. -/
structure ProxyHeader where
  type : UInt16
  length : UInt16
  deriving DecidableEq

/-- The bytes of a `proxy_header`. -/
def ProxyHeader.bytes (h : ProxyHeader) : List UInt8 := le 2 h.type.toNat ++ le 2 h.length.toNat

@[simp] theorem ProxyHeader.length_bytes (h : ProxyHeader) : h.bytes.length = 4 := by
  simp [ProxyHeader.bytes]

/-- The `proxy_header` at an offset. -/
def ldProxyHeader (d : Buf) (off : ℕ) : ProxyHeader := ⟨ld16 d off, ld16 d (off + 2)⟩

theorem ldProxyHeader_of_holds {d : Buf} {off : ℕ} {h : ProxyHeader} (hd : Holds d off h.bytes) :
    ldProxyHeader d off = h := by
  simp only [ProxyHeader.bytes, holds_append, length_le] at hd
  rw [ldProxyHeader, ld16_of_holds hd.1, ld16_of_holds hd.2]

end LinkProxy.Wire
