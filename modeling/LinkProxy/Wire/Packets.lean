import LinkProxy.Wire.Layout

/-!
# Packet types and the packets of fixed shape

Every packet starts with a `proxy_header`, its type and the length of its payload in network byte
order (`header`). `PacketType.ofCode` is the `switch` of `eth_handler`: the fourteen types it has a
case for. The packets below are the ones a proxy builds by hand from a structure; the link-state
packet, whose size depends on the membership list, is in `Gossip.Broadcast`.
-/

namespace LinkProxy.Wire

open Bytes

/-! ## Types -/

/-- The packet types of `proxy.h`. -/
inductive PacketType
  | data
  | leave
  | quit
  | linkState
  | rttProbeRequest
  | rttProbeResponse
  | proxyPublicKey
  | signedData
  | proxySecretKey
  | encryptedData
  | encryptedLinkState
  | signedLinkState
  | bandwidthProbeRequest
  | bandwidthProbeResponse
  deriving DecidableEq, Repr

namespace PacketType

/-- The number of a packet type. -/
def code : PacketType → UInt16
  | data => 0xABCD
  | leave => 0xAB01
  | quit => 0xAB12
  | linkState => 0xABAC
  | rttProbeRequest => 0xAB34
  | rttProbeResponse => 0xAB35
  | proxyPublicKey => 0xAB21
  | signedData => 0xABC1
  | proxySecretKey => 0xAB2
  | encryptedData => 0xABC2
  | encryptedLinkState => 0xABAB
  | signedLinkState => 0xABAD
  | bandwidthProbeRequest => 0xAB45
  | bandwidthProbeResponse => 0xAB46

/-- The cases of the `switch` in `eth_handler`, in order. -/
def cases : List PacketType :=
  [data, leave, quit, linkState, rttProbeRequest, rttProbeResponse, proxyPublicKey, signedData,
    proxySecretKey, encryptedData, encryptedLinkState, signedLinkState, bandwidthProbeRequest,
    bandwidthProbeResponse]

/-- The case of the `switch` that a type number selects, `none` for `default`. -/
def ofCode (c : UInt16) : Option PacketType := cases.find? fun t => t.code == c

@[simp] theorem ofCode_code (t : PacketType) : ofCode t.code = some t := by
  cases t <;> decide

end PacketType

/-! ## Headers -/

/-- The header of a packet on the wire. -/
def header (type length : UInt16) : List UInt8 := ProxyHeader.bytes ⟨htons type, htons length⟩

@[simp] theorem length_header (type length : UInt16) : (header type length).length = 4 :=
  ProxyHeader.length_bytes _

/-- The length field of a packet, as its receiver reads it. -/
def lengthField (packet : List UInt8) : UInt16 := ntohs (ld16 (bufOf packet fun _ => 0) 2)

/-- The header that a receiver reads is the one that was written. -/
theorem ldProxyHeader_header {d : Buf} {type length : UInt16}
    (h : Holds d 0 (header type length)) :
    ntohs (ldProxyHeader d 0).type = type ∧ ntohs (ldProxyHeader d 0).length = length := by
  rw [ldProxyHeader_of_holds h]
  exact ⟨ntohs_htons type, ntohs_htons length⟩

@[simp] theorem lengthField_header_append (type length : UInt16) (payload : List UInt8) :
    lengthField (header type length ++ payload) = length :=
  (ldProxyHeader_header (holds_append.1 (holds_bufOf (header type length ++ payload) _)).1).2

/-- A call of `rio_write`: the buffer, and the number of bytes that are to be taken from it. -/
structure Write where
  buf : List UInt8
  n : ℕ

/-- The bytes to be written. -/
def Write.bytes (w : Write) : List UInt8 := w.buf.take w.n

/-! ## `initial_join_packet` -/

/-- `initial_join_packet`. -/
structure InitialJoinPacket where
  prxyhdr : ProxyHeader
  numNbrs1 : UInt16
  ls : LinkState
  numNbrs2 : UInt16
  deriving DecidableEq

/-- `sizeof(link_state_source)`. -/
def linkStateSourceSize : ℕ := linkStateSize + 2

/-- `sizeof(initial_join_packet)`. -/
def initialJoinSize : ℕ := 26

namespace InitialJoinPacket

/-- The bytes of an `initial_join_packet`. -/
def bytes (p : InitialJoinPacket) : List UInt8 :=
  p.prxyhdr.bytes ++ (le 2 p.numNbrs1.toNat ++ (p.ls.bytes ++ le 2 p.numNbrs2.toNat))

@[simp] theorem length_bytes (p : InitialJoinPacket) : p.bytes.length = initialJoinSize := by
  simp [bytes, initialJoinSize, linkStateSize]

/-- The `initial_join_packet` at a pointer. -/
def ld (d : Buf) : InitialJoinPacket where
  prxyhdr := ldProxyHeader d 0
  numNbrs1 := ld16 d 4
  ls := ldLinkState d 6
  numNbrs2 := ld16 d (6 + linkStateSize)

theorem ld_of_holds {d : Buf} {p : InitialJoinPacket} (h : Holds d 0 p.bytes) : ld d = p := by
  simp only [bytes, holds_append, ProxyHeader.length_bytes, length_le, LinkState.length_bytes] at h
  obtain ⟨h₁, h₂, h₃, h₄⟩ := h
  rw [ld, ldProxyHeader_of_holds h₁, ld16_of_holds h₂, ldLinkState_of_holds h₃, ld16_of_holds h₄]

end InitialJoinPacket

/-- The packet that `initial_join_client` sends. -/
def joinPacket (linkState : LinkState) (numNbrs : UInt16) : InitialJoinPacket where
  prxyhdr := ⟨htons PacketType.linkState.code, htons (.ofNat (2 + linkStateSourceSize))⟩
  numNbrs1 := htons numNbrs
  ls := linkState
  numNbrs2 := htons numNbrs

/-- The packet that `initial_join_server` answers with: it applies `htons` to the port once more. -/
def joinReply (linkState : LinkState) (numNbrs : UInt16) : InitialJoinPacket :=
  joinPacket { linkState with listenPort := htons linkState.listenPort } numNbrs

/-! ## Times -/

/-- `struct timespec`. -/
structure Timespec where
  tvSec : Int
  tvNsec : Int
  deriving DecidableEq, Repr

/-- Times are ordered by their seconds and then by their nanoseconds. -/
def Timespec.Le (s t : Timespec) : Prop :=
  s.tvSec < t.tvSec ∨ s.tvSec = t.tvSec ∧ s.tvNsec ≤ t.tvNsec

instance (s t : Timespec) : Decidable (s.Le t) := inferInstanceAs (Decidable (_ ∨ _))

/-- The nanoseconds are less than a second. -/
def Timespec.Valid (t : Timespec) : Prop := 0 ≤ t.tvNsec ∧ t.tvNsec < 1000000000

instance (t : Timespec) : Decidable t.Valid := inferInstanceAs (Decidable (_ ∧ _))

/-- A field of a `timespec` converted to `uint32_t` and put in network byte order. -/
def stamp (t : Int) : UInt32 := htonl (.ofInt t)

end LinkProxy.Wire
