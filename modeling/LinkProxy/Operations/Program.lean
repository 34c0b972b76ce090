import LinkProxy.Foundations.Program
import LinkProxy.Gossip.Receive

/-!
# The functions that use the membership list

What the threads and the signal handlers of the proxy do with `hash_table` and its lock, function by
function, as programs: the four functions of the lock, every look at the table and every change of
it, and the system calls with all their results, are commands. The programs say nothing about the
meaning of a command. `Operations.Reentry` runs one of them alone, and `Operations.Stability` runs
any number of them at the same time.

A loop over the members goes through the list that it finds at its start; the bodies remove nobody
but the member that they are given.
-/

namespace LinkProxy.Program

open Bytes Wire Peers Gossip

/-! ## Commands -/

/-- What an attempt to connect meets: the result of `socket`, whether `setsockopt`, `getaddrinfo`
and `connect` succeed, the local address that `getsockname` finds, the object that is allocated, and
what the join exchange copies into it, given the packet that is sent. -/
structure Dial where
  socket : Int
  setsockopt : Bool
  getaddrinfo : Bool
  connect : Bool
  sockname : Option UInt32
  ptr : Ptr
  exchange : InitialJoinPacket → Option LinkState

/-- What the accept loop meets: the result of `accept`, the local address that `getsockname` finds,
the object that is allocated, and what a join packet from the other end puts into it. -/
structure Incoming where
  connfd : Int
  sockname : Option UInt32
  ptr : Ptr
  request : Option LinkState

/-- What arrives from a peer: the case of the `switch` that the type selects, the length and the
payload. -/
structure Received where
  type : Option PacketType
  length : UInt16
  payload : Buf

/-- What a thread does that others may see, and what it asks of the system. -/
inductive Command
  | readBegin
  | readEnd
  | writeBegin
  | writeEnd
  | table
  | insert (p : Ptr) (peer : Peer)
  | delete (p : Ptr)
  | stamp (p : Ptr) (ts : Timespec)
  | linkState
  | setAddress (addr : UInt32)
  | clock
  | dial (addr : UInt32) (port : UInt16)
  | dialName (hostname port : String)
  | accept
  | receive (p : Ptr)
  | readTap
  | writeTap
  | write (p : Ptr)

/-- The reply to a command. Nothing is received from a peer or read from the tap device if the
descriptor is at its end or has failed. -/
def Command.Reply : Command → Type
  | .table => Members
  | .linkState => LinkState
  | .clock => Timespec
  | .dial _ _ | .dialName _ _ => Dial
  | .accept => Incoming
  | .receive _ => Option Received
  | .readTap => Option Buf
  | .writeTap | .write _ => Int
  | .readBegin | .readEnd | .writeBegin | .writeEnd | .insert _ _ | .delete _ | .stamp _ _
  | .setAddress _ => Unit

/-- Why a program ends before it returns: it enters the lock inside its own section, it uses a
`NULL`, or the process exits. -/
inductive Stop
  | reentry
  | fault
  | exit
  deriving DecidableEq, Repr

/-- A program of the proxy. -/
abbrev Proc := Prog Command.Reply Stop

/-- A single command. -/
def perform (c : Command) : Proc c.Reply := Prog.perform c

def readBegin : Proc Unit := perform .readBegin

def readEnd : Proc Unit := perform .readEnd

def writeBegin : Proc Unit := perform .writeBegin

def writeEnd : Proc Unit := perform .writeEnd

def table : Proc Members := perform .table

def getLinkState : Proc LinkState := perform .linkState

def clock : Proc Timespec := perform .clock

/-- `HASH_ADD`. -/
def hashAdd (p : Ptr) (peer : Peer) : Proc Unit := perform (.insert p peer)

/-- `HASH_DEL`. -/
def hashDel (p : Ptr) : Proc Unit := perform (.delete p)

/-- `pp->timestamp=ts`. -/
def setTimestamp (p : Ptr) (ts : Timespec) : Proc Unit := perform (.stamp p ts)

/-- `rio_write(&pp->rio, …)`. -/
def rioWrite (p : Ptr) : Proc Int := perform (.write p)

/-- `rio_write(&rio_tap, …)`. -/
def rioWriteTap : Proc Int := perform .writeTap

/-- `rio_read(&rio_tap, …)` behind the header in the buffer. -/
def rioReadTap : Proc (Option Buf) := perform .readTap

/-- The header and the payload of a packet from a peer. -/
def receivePacket (p : Ptr) : Proc (Option Received) := perform (.receive p)

/-- The system calls of `connectbyaddr`. -/
def dial (addr : UInt32) (port : UInt16) : Proc Dial := perform (.dial addr port)

/-- The system calls of `connectbyname`. -/
def dialName (hostname port : String) : Proc Dial := perform (.dialName hostname port)

/-- The system calls of the accept loop. -/
def accept : Proc Incoming := perform .accept

/-- `linkState.IPaddr.s_addr=addr`. -/
def setAddress (addr : UInt32) : Proc Unit := perform (.setAddress addr)

/-! ## Members -/

/-- A `link_state` cleared by `memset`. -/
def zeroed : LinkState := ⟨0, 0, .replicate 6 0, .replicate 6 0⟩

/-- `HASH_ADD` if there is no member with the same key. -/
def addIfNew (p : Ptr) (ls : LinkState) : Proc Unit := do
  let m ← table
  match m.find ls.tapMAC with
  | none => hashAdd p ⟨⟨0, 0⟩, ls⟩
  | some _ => return

/-- `add_member` of an object with the given `link_state`. -/
def addMember (p : Ptr) (ls : LinkState) : Proc Unit := do
  writeBegin
  addIfNew p ls
  setTimestamp p (← clock)
  writeEnd

/-- `HASH_DEL` if the member is found. -/
def deleteIfFound (p : Ptr) : Proc Unit := do
  let m ← table
  match m.find (m.key p) with
  | none => return
  | some _ => hashDel p

/-- `remove_member`. A member that is not found leaves the section open. -/
def removeMember (p : Ptr) : Proc Unit := do
  writeBegin
  let m ← table
  match m.find (m.key p) with
  | none => return
  | some _ =>
    deleteIfFound p
    writeEnd

/-! ## Connections -/

/-- `initial_join_client`, with the `link_state` that it has copied. -/
def initialJoinClient (d : Dial) : Proc (Option LinkState) := do
  let ls ← getLinkState
  readBegin
  let m ← table
  readEnd
  return d.exchange (joinPacket ls (.ofNat m.count))

/-- `initial_join_server`, with the `link_state` that it has copied. -/
def initialJoinServer (c : Incoming) : Proc (Option LinkState) := do
  match c.request with
  | none => return none
  | some ls =>
    readBegin
    let _ ← table
    readEnd
    let _ ← rioWrite c.ptr
    return some ls

/-- The local address is taken from the first connection. -/
def findAddress (sockname : Option UInt32) (addr : UInt32 → UInt32) : Proc Unit := do
  let ls ← getLinkState
  if ls.ipAddr = 0xFFFFFFFF then
    match sockname with
    | none => .stop .exit
    | some a => setAddress (addr a)

/-- `connectbyaddr`. Every result of `socket` but `0` is taken for an error, the local address is
set to the one that is dialled, and the result of the exchange is not looked at. -/
def connectbyaddr (addr : UInt32) (port : UInt16) : Proc (Option Ptr) := do
  let d ← dial addr port
  if d.socket ≠ 0 then return none
  if !d.setsockopt then return none
  if !d.connect then return none
  findAddress d.sockname fun _ => addr
  let ls ← initialJoinClient d
  addMember d.ptr (ls.getD zeroed)
  return some d.ptr

/-- `connectbyname`. -/
def connectbyname (hostname port : String) : Proc (Option Ptr) := do
  let d ← dialName hostname port
  if d.socket < 0 then return none
  if !d.setsockopt then return none
  if !d.getaddrinfo then return none
  if !d.connect then return none
  findAddress d.sockname id
  let ls ← initialJoinClient d
  addMember d.ptr (ls.getD zeroed)
  return some d.ptr

/-- One pass of the loop of `main` over the peers in its configuration. -/
def connectPass (hostname port : String) : Proc Unit := do
  match ← connectbyname hostname port with
  | none => .stop .exit
  | some _ => return

/-- One pass of the accept loop of `main`. -/
def acceptPass : Proc Unit := do
  let c ← accept
  if c.connfd < 0 then .stop .exit
  else
    findAddress c.sockname id
    let ls ← initialJoinServer c
    addMember c.ptr (ls.getD zeroed)

/-! ## Packet handlers -/

/-- `Data`. -/
def data : Proc Int := do
  let size ← rioWriteTap
  return if size ≤ 0 then -1 else 0

/-- `Leave`. -/
def leave (d : Buf) : Proc Int := do
  readBegin
  let m ← table
  readEnd
  match m.find (ldLinkState d 0).tapMAC with
  | none => return 0
  | some p =>
    removeMember p
    return 0

/-- `QUIT_LEN`. -/
def quitLen : UInt16 := 20

/-- The body of the loop of `Quit`. -/
def quitMember (p : Ptr) : Proc Unit := do
  let _ ← rioWrite p
  removeMember p

/-- `Quit`. -/
def quit (length : UInt16) : Proc Int := do
  if length ≠ quitLen then return -1
  writeBegin
  let m ← table
  m.order.forM quitMember
  writeEnd
  .stop .exit

section

variable (dm : DataModel) (d : Buf)

/-- The body of the loop of `Link_State`. -/
def receiveRecord (ptr : ℕ) : Proc Unit := do
  let r := ldRecord dm d ptr
  let local_ ← getLinkState
  if r.proxy1.tapMAC = local_.tapMAC then return
  let m ← table
  match m.find r.proxy1.tapMAC with
  | none =>
    let ls := ldLinkState d ptr
    match ← connectbyaddr ls.ipAddr (ntohs ls.listenPort) with
    | none => .stop .fault
    | some pp => setTimestamp pp (← clock)
  | some pp => setTimestamp pp ⟨dm.toLong (ntohl r.sec), dm.toLong (ntohl r.nsec)⟩

/-- The loop of `Link_State`. -/
def recordLoop : ℕ → ℕ → Proc Unit
  | 0, _ => return
  | n + 1, ptr => do
    receiveRecord dm d ptr
    recordLoop n (ptr + recordSize dm)

/-- The lookup of the source, which is dialled if it is not a member. -/
def receiveSource (source : LinkState) : Proc Unit := do
  let m ← table
  match m.find source.tapMAC with
  | none =>
    let _ ← connectbyaddr source.ipAddr (ntohs source.listenPort)
  | some _ => return

/-- `Link_State`. -/
def linkState (length : UInt16) : Proc Int := do
  let N := announced d
  if !lengthOk dm N length then return -1
  let source := ldLinkState d 2
  let local_ ← getLinkState
  if source.tapMAC = local_.tapMAC then return 0
  writeBegin
  receiveSource source
  recordLoop dm d (N * N + N).toNat (2 + linkStateSourceSize)
  writeEnd
  return 0

/-- `Bandwidth_Probe_Request`. -/
def bandwidthProbeRequest (pp : Ptr) : Proc Int := do
  let size ← rioWrite pp
  return if size < 0 then -1 else 0

/-- The `switch` of `eth_handler`. -/
def dispatch (pp : Ptr) (type : PacketType) (length : UInt16) : Proc Int :=
  match type with
  | .data => data
  | .leave => leave d
  | .quit => quit length
  | .linkState => linkState dm d length
  | .bandwidthProbeRequest => bandwidthProbeRequest pp
  | .rttProbeRequest | .rttProbeResponse | .proxyPublicKey | .signedData | .proxySecretKey
  | .encryptedData | .encryptedLinkState | .signedLinkState | .bandwidthProbeResponse => return 0

end

/-! ## Threads -/

/-- One pass of `eth_handler`. -/
def ethPass (dm : DataModel) (pp : Ptr) : Proc Unit := do
  match ← receivePacket pp with
  | none | some ⟨none, _, _⟩ => removeMember pp
  | some ⟨some type, length, payload⟩ =>
    let r ← dispatch dm payload pp type length
    if r < 0 then removeMember pp

/-- `BROADCAST_ADDR`. -/
def broadcastAddr : MAC := .replicate 6 0xFF

/-- A frame is sent to a member, which is removed if the write fails. -/
def sendFrame (p : Ptr) : Proc Unit := do
  let size ← rioWrite p
  if size ≤ 0 then hashDel p

/-- A frame is sent on: to all members if it is for the broadcast address, and else to the member
with the address six bytes into the buffer. The destination of the frame stands behind the header.
-/
def forward (buffer : Buf) : Proc Unit := do
  let m ← table
  if ldMAC buffer 4 = broadcastAddr then m.order.forM sendFrame
  else match m.find (ldLinkState buffer 0).tapMAC with
    | none => return
    | some p => sendFrame p

/-- One pass of `tap_handler`. -/
def tapPass : Proc Unit := do
  match ← rioReadTap with
  | none => .stop .exit
  | some buffer =>
    writeBegin
    forward buffer
    writeEnd

/-- `timeout_handler`, from the end of its wait on. -/
def timeoutHandler (pp : Ptr) : Proc Unit := do
  writeBegin
  hashDel pp
  writeEnd

/-! ## Signal handlers -/

/-- A packet is sent to a member by `Link_State_Broadcast`, which removes it if the write fails. -/
def sendOrDelete (p : Ptr) : Proc Unit := do
  let size ← rioWrite p
  if size < 0 then hashDel p

/-- `Link_State_Broadcast`: the link-state packet and then the bandwidth probe. -/
def linkStateBroadcast : Proc Unit := do
  let _ ← clock
  let m ← table
  if m.order = [] then return
  m.order.forM sendOrDelete
  let m ← table
  m.order.forM sendOrDelete

/-- The body of the loop of `leave_handler`. -/
def leaveMember (p : Ptr) : Proc Unit := do
  let _ ← rioWrite p
  hashDel p

/-- `leave_handler`. -/
def leaveHandler : Proc Unit := do
  let m ← table
  m.order.forM leaveMember
  .stop .exit

end LinkProxy.Program
