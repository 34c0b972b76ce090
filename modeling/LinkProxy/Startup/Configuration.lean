import LinkProxy.Foundations.Text
import LinkProxy.Startup.PeerList
import LinkProxy.Wire.Layout

/-!
# The configuration file

`main` reads its configuration line by line, with `fgets`, `strncmp` and `sscanf`. A number is
stored as soon as its line has been read, and so are the listening socket and the tap device opened;
the peers are put into a list and dialled when the whole file has been read (`readConfig`,
`startup`).

The functions follow the C library, with its limits: a line that is longer than the buffer is read
in pieces, a number that is missing leaves the old one, and a word that does not fit its array is a
fault. What the host answers (the socket, the device and the files of its addresses) is a parameter.
-/

namespace LinkProxy.Startup

open Wire Text

/-! ## State -/

/-- The fields of `Config` that are used. -/
structure Config where
  listenPort : UInt16
  linkPeriod : UInt32
  linkTimeout : UInt32
  quitTimer : UInt32
  deriving DecidableEq, Repr

/-- `hostname` and `port` of an `llnode`, up to their `NUL`s. -/
structure PeerName where
  hostname : List UInt8
  port : List UInt8
  deriving DecidableEq, Repr

/-- What the host does for `main`: the results of `open_listenfd` and `allocate_tunnel`, the latter
with the name of the device it has opened; the files with the addresses of the devices; and the
nodes that `malloc` returns, one after the other, with what happens to be in them. -/
structure Host where
  dm : DataModel
  openListenfd : UInt16 → Int
  allocateTunnel : List UInt8 → Int × List UInt8
  address : List UInt8 → Option (List UInt8)
  malloc : ℕ → ℕ
  garbage : ℕ → Cell ℕ PeerName

/-- The variables of `main`, and how many nodes it has allocated. -/
structure Setup where
  config : Config
  linkState : LinkState
  listenfd : Option Int
  tapfd : Int
  peers : LlList ℕ PeerName
  allocated : ℕ

/-- Before the loop: `config` and `linkState` have been filled by `memset`. -/
def Setup.start : Setup where
  config := ⟨0xFFFF, 0xFFFFFFFF, 0xFFFFFFFF, 0xFFFFFFFF⟩
  linkState := ⟨0xFFFFFFFF, 0xFFFF, .replicate 6 0xFF, .replicate 6 0xFF⟩
  listenfd := none
  tapfd := -1
  peers := ⟨fun _ => none, none⟩
  allocated := 0

/-! ## `getMAC` -/

/-- `ULONG_MAX`. -/
def ulongMax (dm : DataModel) : ℕ := 256 ^ dm.longSize - 1

/-- `sscanf` with `%hhX` so many times and a colon between two of them: the bytes it stores. -/
def scanBytes (dm : DataModel) : ℕ → List UInt8 → List UInt8
  | 0, _ => []
  | n + 1, s => match scanUnsigned 16 (ulongMax dm) s with
    | none => []
    | some (v, 58 :: s) => .ofNat v :: scanBytes dm n s
    | some (v, _) => [.ofNat v]

/-- The name of the file with the address of a device. -/
def addressFile (dev : List UInt8) : List UInt8 :=
  ascii "/sys/class/net/" ++ dev ++ ascii "/address"

section

variable (host : Host)

/-- `getMAC`. A file that is not there is a fault, and so is a name that is too long; from an empty
file nothing is read. -/
def getMAC (dev : List UInt8) (localMac : MAC) : Except Stop MAC :=
  if 64 ≤ (addressFile dev).length then .error .fault
  else match host.address dev with
    | none => .error .fault
    | some file =>
      let line := (fgets 63 file).1
      let buffer := if line = [] then addressFile dev else line
      let bytes := scanBytes host.dm 6 (cString buffer)
      .ok (.ofFn fun i => bytes.getD i localMac[i])

/-! ## Lines -/

/-- `!strncmp(buf, keyword, …)`. -/
def startsWith (buf : List UInt8) (keyword : String) : Bool := (ascii keyword).isPrefixOf buf

/-- `sscanf(buf, "%*s %u\n", …)`. -/
def scanNumber (buf : List UInt8) : Option ℕ := do
  let (_, s) ← scanWord buf
  let (v, _) ← scanUnsigned 10 (ulongMax host.dm) s
  return v

/-- `sscanf(buf, "%*s %u\n", …)` into a field of `config`. -/
def scanField (buf : List UInt8) (old : UInt32) : UInt32 :=
  ((scanNumber host buf).map .ofNat).getD old

/-- `sscanf(buf, "%*s %s %s\n", &add->hostname, &add->port)`. -/
def scanPeer (buf : List UInt8) (add : PeerName) : Except Stop PeerName :=
  match (scanWord buf).bind fun w => scanWord w.2 with
  | none => .ok add
  | some (hostname, s) =>
    if 64 ≤ hostname.length then .error .fault
    else match scanWord s with
      | none => .ok { add with hostname := hostname }
      | some (port, _) => if 8 ≤ port.length then .error .fault else .ok ⟨hostname, port⟩

/-- A listening socket. -/
def listen (port : UInt16) (s : Setup) : Except Stop Setup :=
  let listenfd := host.openListenfd port
  if listenfd < 0 then .error .exit
  else .ok { s with
    config := { s.config with listenPort := port }
    listenfd := some listenfd
    linkState := { s.linkState with listenPort := htons port } }

/-- The tap device. -/
def openTap (buf1 : List UInt8) (s : Setup) : Except Stop Setup :=
  let (tapfd, dev) := host.allocateTunnel buf1
  if tapfd < 0 then .error .exit
  else do
    let tapMAC ← getMAC host dev s.linkState.tapMAC
    let ethMAC ← getMAC host (ascii "eth0") s.linkState.ethMAC
    return { s with
      tapfd := tapfd
      linkState := { s.linkState with tapMAC := tapMAC, ethMAC := ethMAC } }

/-- A node with a peer, put in front of the list. -/
def addPeer (name : PeerName) (s : Setup) : Except Stop Setup :=
  let add := host.malloc s.allocated
  let c : Cell ℕ PeerName := { host.garbage s.allocated with val := name }
  match llPrepend ⟨Function.update s.peers.heap add (some c), s.peers.head⟩ add with
  | none => .error .fault
  | some peers => .ok { s with peers := peers, allocated := s.allocated + 1 }

/-- A line with a port to listen to. -/
def readListenPort (buf : List UInt8) (s : Setup) : Except Stop Setup :=
  listen host (((scanNumber host buf).map .ofNat).getD s.config.listenPort) s

/-- A line with a peer. -/
def readPeer (buf : List UInt8) (s : Setup) : Except Stop Setup := do
  let name ← scanPeer buf (host.garbage s.allocated).val
  addPeer host name s

/-- A line with the tap device. Its name is put into an array that nothing has filled before. -/
def readTapDevice (buf : List UInt8) (s : Setup) : Except Stop Setup :=
  match (scanWord buf).bind fun w => scanWord w.2 with
  | none => .error .fault
  | some (buf1, _) => if 64 ≤ buf1.length then .error .fault else openTap host buf1 s

/-- The body of the loop of `main`. -/
def readLine (buf : List UInt8) (s : Setup) : Except Stop Setup :=
  let buf := cString buf
  if startsWith buf "listenPort" then readListenPort host buf s
  else if startsWith buf "linkPeriod" then
    .ok { s with config := { s.config with linkPeriod := scanField host buf s.config.linkPeriod } }
  else if startsWith buf "linkTimeout" then
    .ok { s with config := { s.config with linkTimeout := scanField host buf s.config.linkTimeout } }
  else if startsWith buf "peer" then readPeer host buf s
  else if startsWith buf "quitAfter" then
    .ok { s with config := { s.config with quitTimer := scanField host buf s.config.quitTimer } }
  else if startsWith buf "tapDevice" then readTapDevice host buf s
  else .ok s

/-- The loop of `main` over the file. -/
def readLoop : ℕ → List UInt8 → Setup → Except Stop Setup
  | 0, _, _ => .error .running
  | n + 1, file, s =>
    let (buf, rest, eof) := fgets 255 file
    if buf = [] then .ok s
    else do
      let s ← readLine host buf s
      if eof then return s else readLoop n rest s

/-- `main` up to `fclose(fp)`. -/
def readConfig (file : List UInt8) : Except Stop Setup :=
  readLoop host (file.length + 1) file .start

/-- `main` up to its threads. -/
def startup {σ : Type} (connect : σ → PeerName → Option σ) (file : List UInt8) (st : σ) :
    Except Stop (Setup × σ) := do
  let s ← readConfig host file
  let (peers, st) ← dialLoop connect s.allocated s.peers.head s.peers st
  return ({ s with peers := peers }, st)

end

end LinkProxy.Startup
