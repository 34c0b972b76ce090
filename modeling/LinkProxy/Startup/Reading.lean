import LinkProxy.Operations.Reentry
import LinkProxy.Startup.Directives

/-!
# From the configuration to the connections

On a host that does what it is asked, `main` reads every configuration of lines that say something,
and has in its variables what they say: of every number the last one, or all bits where there is
none, and the peers in a list, the last one first (`After`, `Listed`). So it dials the peers from
the end of the file to its beginning (`startup_eq`), each of them once, and exits at the first that
it cannot reach; if it reaches all of them, no node of the list is left. The loop over the file ends
for every file, whatever is in it.

`startup_connectPass` puts the passes of `Operations.Program` in the place of the connections.
-/

namespace LinkProxy.Startup

open Wire Text

/-! ## The loop over the file -/

/-- The text of a file, given its lines. -/
def text (ls : List (List UInt8)) : List UInt8 := ls.flatMap fun l => l ++ [10]

section

variable {host : Host}

theorem readLoop_of_nil {n : ℕ} {file : List UInt8} {s : Setup} (h : (fgets 255 file).1 = []) :
    readLoop host (n + 1) file s = .ok s := by
  simp only [readLoop, h, if_true]

theorem bind_ne_running {α β : Type} {x : Except Stop α} {f : α → Except Stop β}
    (hx : x ≠ .error .running) (hf : ∀ a, f a ≠ .error .running) : x >>= f ≠ .error .running := by
  cases x with
  | error e => exact fun h => hx (congrArg Except.error (Except.error.inj h))
  | ok a => exact hf a

theorem getMAC_ne_running (dev : List UInt8) (old : MAC) :
    getMAC host dev old ≠ .error .running := by
  unfold getMAC
  split_ifs
  · simp
  · split <;> simp

/-- The body of the loop comes to its end. -/
theorem readLine_ne_running (buf : List UInt8) (s : Setup) :
    readLine host buf s ≠ .error .running := by
  unfold readLine
  dsimp only
  split_ifs
  · unfold readListenPort listen
    dsimp only
    split_ifs <;> simp
  · simp
  · simp
  · unfold readPeer
    refine bind_ne_running ?_ fun name => ?_
    · unfold scanPeer
      split
      · simp
      · split_ifs
        · simp
        · split
          · simp
          · split_ifs <;> simp
    · unfold addPeer
      dsimp only
      split <;> simp
  · simp
  · unfold readTapDevice
    split
    · simp
    · split_ifs
      · simp
      · unfold openTap
        dsimp only
        split_ifs
        · simp
        · refine bind_ne_running (getMAC_ne_running _ _) fun tapMAC => ?_
          exact bind_ne_running (getMAC_ne_running _ _) fun ethMAC => by simp [pure, Except.pure]
  · simp

/-- **The loop ends.** Every pass but the last takes something from the file. -/
theorem readLoop_ne_running {n : ℕ} {file : List UInt8} (hn : file.length < n) (s : Setup) :
    readLoop host n file s ≠ .error .running := by
  induction n generalizing file s with
  | zero => omega
  | succ n ih =>
    have happend := fgets_append 255 file
    rcases hfgets : fgets 255 file with ⟨buf, rest, eof⟩
    rw [hfgets] at happend
    dsimp only at happend
    simp only [readLoop, hfgets]
    by_cases hbuf : buf = []
    · simp [hbuf]
    · have hlen := congrArg List.length happend
      have hpos := List.length_pos_iff.2 hbuf
      rw [List.length_append] at hlen
      rw [if_neg hbuf]
      refine bind_ne_running (readLine_ne_running _ _) fun s' => ?_
      split_ifs
      · simp [pure, Except.pure]
      · exact ih (by omega) s'

theorem readLoop_text {ds : List Directive} {ls : List (List UInt8)} (h : List.Forall₂ Writes ds ls)
    (hlength : ∀ l ∈ ls, l.length < 255) {n : ℕ} (hn : (text ls).length < n) (s : Setup) :
    readLoop host n (text ls) s = ds.foldlM (fun s d => d.apply host s) s := by
  obtain ⟨n, rfl⟩ := Nat.exists_eq_add_one_of_ne_zero (by omega : n ≠ 0)
  induction h generalizing n s with
  | nil => exact readLoop_of_nil rfl
  | @cons d l ds ls hwrites _ ih =>
    have hfgets : fgets 255 (text (l :: ls)) = (l ++ [10], text ls, false) := by
      rw [text, List.flatMap_cons, List.append_assoc]
      exact fgets_line hwrites.clean.1 (hlength l (by simp)) _
    have hlen : (text (l :: ls)).length = l.length + 1 + (text ls).length := by
      simp only [text, List.flatMap_cons, List.length_append, List.length_cons, List.length_nil]
    obtain ⟨n, rfl⟩ := Nat.exists_eq_add_one_of_ne_zero (by omega : n ≠ 0)
    rw [readLoop]
    simp only [hfgets, List.foldlM_cons, readLine_writes hwrites]
    rw [if_neg (by simp)]
    refine bind_congr fun s' => ?_
    exact ih (fun l hl => hlength l (by simp [hl])) s' n (by omega)

theorem readConfig_text {ds : List Directive} {ls : List (List UInt8)}
    (h : List.Forall₂ Writes ds ls) (hlength : ∀ l ∈ ls, l.length < 255) :
    readConfig host (text ls) = ds.foldlM (fun s d => d.apply host s) .start :=
  readLoop_text h hlength (by omega) _

/-! ## What has been read -/

/-- The last of the lines that have a value, or the old value. -/
def lastOf {α : Type} (f : Directive → Option α) (ds : List Directive) (old : α) : α :=
  (ds.filterMap f).getLast?.getD old

def portOf : Directive → Option UInt16
  | .listenPort n => some n
  | _ => none

def periodOf : Directive → Option UInt32
  | .linkPeriod n => some n
  | _ => none

def timeoutOf : Directive → Option UInt32
  | .linkTimeout n => some n
  | _ => none

def quitOf : Directive → Option UInt32
  | .quitAfter n => some n
  | _ => none

def peerOf : Directive → Option PeerName
  | .peer name => some name
  | _ => none

def deviceOf : Directive → Option (List UInt8)
  | .tapDevice dev => some dev
  | _ => none

/-- The host does what the configuration asks for, and its devices have the given addresses. -/
structure Host.Serves (host : Host) (mac : List UInt8 → MAC) (ds : List Directive) : Prop where
  listens : ∀ n, .listenPort n ∈ ds → 0 ≤ host.openListenfd n
  opens : ∀ dev, .tapDevice dev ∈ ds → 0 ≤ (host.allocateTunnel dev).1
  name : ∀ dev, .tapDevice dev ∈ ds → (host.allocateTunnel dev).2.length < 16
  tap : ∀ dev, .tapDevice dev ∈ ds → host.address (host.allocateTunnel dev).2 =
    some (macText (mac (host.allocateTunnel dev).2).toList)
  eth : host.address (ascii "eth0") = some (macText (mac (ascii "eth0")).toList)

/-- What the variables have become. -/
structure After (host : Host) (mac : List UInt8 → MAC) (ds : List Directive) (s s' : Setup) :
    Prop where
  listenPort : s'.config.listenPort = lastOf portOf ds s.config.listenPort
  linkPeriod : s'.config.linkPeriod = lastOf periodOf ds s.config.linkPeriod
  linkTimeout : s'.config.linkTimeout = lastOf timeoutOf ds s.config.linkTimeout
  quitTimer : s'.config.quitTimer = lastOf quitOf ds s.config.quitTimer
  ipAddr : s'.linkState.ipAddr = s.linkState.ipAddr
  port : s'.linkState.listenPort =
    lastOf (fun d => (portOf d).map htons) ds s.linkState.listenPort
  tapMAC : s'.linkState.tapMAC =
    lastOf (fun d => (deviceOf d).map fun dev => mac (host.allocateTunnel dev).2) ds
      s.linkState.tapMAC
  ethMAC : s'.linkState.ethMAC =
    lastOf (fun d => (deviceOf d).map fun _ => mac (ascii "eth0")) ds s.linkState.ethMAC

/-- The peers are in the list, the last one first, and their nodes are those that have been
allocated. -/
def Listed (host : Host) (s : Setup) (names : List PeerName) : Prop :=
  ∃ l, s.peers.Holds l ∧ l.map Prod.snd = names ∧ l.length = s.allocated ∧
    (∀ p ∈ l.map Prod.fst, ∃ i < s.allocated, p = host.malloc i) ∧
    ∀ p ∉ l.map Prod.fst, s.peers.heap p = none

section

variable {host : Host} {mac : List UInt8 → MAC} {ds : List Directive} {d : Directive}
  {s s' : Setup} {names : List PeerName}

theorem lastOf_cons {α : Type} (f : Directive → Option α) (d : Directive) (ds : List Directive)
    (old : α) : lastOf f (d :: ds) old = lastOf f ds (lastOf f [d] old) := by
  cases h : f d with
  | none => simp [lastOf, h]
  | some a => simp [lastOf, h, List.getLast?_cons]

theorem After.cons {s'' : Setup} (h : After host mac [d] s s') (h' : After host mac ds s' s'') :
    After host mac (d :: ds) s s'' where
  listenPort := by rw [h'.listenPort, h.listenPort, ← lastOf_cons]
  linkPeriod := by rw [h'.linkPeriod, h.linkPeriod, ← lastOf_cons]
  linkTimeout := by rw [h'.linkTimeout, h.linkTimeout, ← lastOf_cons]
  quitTimer := by rw [h'.quitTimer, h.quitTimer, ← lastOf_cons]
  ipAddr := by rw [h'.ipAddr, h.ipAddr]
  port := by rw [h'.port, h.port, ← lastOf_cons]
  tapMAC := by rw [h'.tapMAC, h.tapMAC, ← lastOf_cons]
  ethMAC := by rw [h'.ethMAC, h.ethMAC, ← lastOf_cons]

/-- A new node in front of the list. -/
theorem addPeer_listed (hmalloc : Function.Injective host.malloc) (h : Listed host s names)
    (name : PeerName) :
    ∃ peers, addPeer host name s = .ok { s with peers := peers, allocated := s.allocated + 1 } ∧
      Listed host { s with peers := peers, allocated := s.allocated + 1 } (name :: names) := by
  obtain ⟨l, hl, hnames, hlength, hptrs, hother⟩ := h
  have hfresh : host.malloc s.allocated ∉ l.map Prod.fst := by
    intro hmem
    obtain ⟨i, hi, heq⟩ := hptrs _ hmem
    have := hmalloc heq
    omega
  let c : Cell ℕ PeerName := { host.garbage s.allocated with val := name }
  have halloc : (LlList.mk (Function.update s.peers.heap (host.malloc s.allocated) (some c))
      s.peers.head).Holds l := ⟨hl.linked.update hfresh _, hl.nodup⟩
  obtain ⟨peers, hpeers, hholds, hframe⟩ :=
    llPrepend_spec halloc (Function.update_self ..) hfresh
  refine ⟨peers, ?_, _, hholds, by simp [hnames, c], by simp [hlength], ?_, ?_⟩
  · simp only [addPeer]
    rw [hpeers]
  · intro p hp
    rcases List.mem_cons.1 hp with rfl | hp
    · exact ⟨s.allocated, by simp, rfl⟩
    · obtain ⟨i, hi, heq⟩ := hptrs p hp
      exact ⟨i, lt_trans hi (Nat.lt_succ_self _), heq⟩
  · intro p hp
    simp only [List.map_cons, List.mem_cons, not_or] at hp
    rw [hframe p hp.1]
    simp only [Function.update_of_ne hp.1]
    exact hother p hp.2

/-- **What one line does.** -/
theorem apply_spec (hmalloc : Function.Injective host.malloc) (hserves : host.Serves mac [d])
    (h : Listed host s names) :
    ∃ s', d.apply host s = .ok s' ∧ After host mac [d] s s' ∧
      Listed host s' ((peerOf d).toList ++ names) := by
  cases d with
  | listenPort n =>
    have hfd := hserves.listens n (by simp)
    refine ⟨_, if_neg (by omega), ⟨rfl, rfl, rfl, rfl, rfl, rfl, rfl, rfl⟩, h⟩
  | linkPeriod n => exact ⟨_, rfl, ⟨rfl, rfl, rfl, rfl, rfl, rfl, rfl, rfl⟩, h⟩
  | linkTimeout n => exact ⟨_, rfl, ⟨rfl, rfl, rfl, rfl, rfl, rfl, rfl, rfl⟩, h⟩
  | peer name =>
    obtain ⟨peers, heq, hlisted⟩ := addPeer_listed hmalloc h name
    exact ⟨_, heq, ⟨rfl, rfl, rfl, rfl, rfl, rfl, rfl, rfl⟩, hlisted⟩
  | quitAfter n => exact ⟨_, rfl, ⟨rfl, rfl, rfl, rfl, rfl, rfl, rfl, rfl⟩, h⟩
  | tapDevice dev =>
    have hfd := hserves.opens dev (by simp)
    have hname := hserves.name dev (by simp)
    have hfile : (addressFile (host.allocateTunnel dev).2).length < 64 := by
      simp only [addressFile, List.length_append]
      have h₁ : (ascii "/sys/class/net/").length = 15 := rfl
      have h₂ : (ascii "/address").length = 8 := rfl
      omega
    have htap := getMAC_text hfile (hserves.tap dev (by simp)) s.linkState.tapMAC
    have heth := getMAC_text (by decide) hserves.eth s.linkState.ethMAC
    refine ⟨{ s with
        tapfd := (host.allocateTunnel dev).1
        linkState := { s.linkState with
          tapMAC := mac (host.allocateTunnel dev).2
          ethMAC := mac (ascii "eth0") } }, ?_, ⟨rfl, rfl, rfl, rfl, rfl, rfl, rfl, rfl⟩, h⟩
    refine (if_neg (not_lt.2 hfd)).trans ?_
    rw [htap, heth]
    rfl
  | other => exact ⟨_, rfl, ⟨rfl, rfl, rfl, rfl, rfl, rfl, rfl, rfl⟩, h⟩

end

theorem Host.Serves.head (h : host.Serves mac (d :: ds)) : host.Serves mac [d] where
  listens n hn := h.listens n (List.mem_cons.2 (.inl (List.mem_singleton.1 hn)))
  opens dev hdev := h.opens dev (List.mem_cons.2 (.inl (List.mem_singleton.1 hdev)))
  name dev hdev := h.name dev (List.mem_cons.2 (.inl (List.mem_singleton.1 hdev)))
  tap dev hdev := h.tap dev (List.mem_cons.2 (.inl (List.mem_singleton.1 hdev)))
  eth := h.eth

theorem Host.Serves.tail (h : host.Serves mac (d :: ds)) : host.Serves mac ds where
  listens n hn := h.listens n (by simp [hn])
  opens dev hdev := h.opens dev (by simp [hdev])
  name dev hdev := h.name dev (by simp [hdev])
  tap dev hdev := h.tap dev (by simp [hdev])
  eth := h.eth

/-- What a configuration does. -/
theorem foldlM_apply_spec (hmalloc : Function.Injective host.malloc) (hserves : host.Serves mac ds)
    (h : Listed host s names) :
    ∃ s', ds.foldlM (fun s d => d.apply host s) s = .ok s' ∧ After host mac ds s s' ∧
      Listed host s' ((ds.filterMap peerOf).reverse ++ names) := by
  induction ds generalizing s names with
  | nil => exact ⟨s, rfl, ⟨rfl, rfl, rfl, rfl, rfl, rfl, rfl, rfl⟩, h⟩
  | cons d ds ih =>
    obtain ⟨s₁, h₁, hafter₁, hlisted₁⟩ := apply_spec hmalloc hserves.head h
    obtain ⟨s₂, h₂, hafter₂, hlisted₂⟩ := ih hserves.tail hlisted₁
    refine ⟨s₂, ?_, hafter₁.cons hafter₂, ?_⟩
    · rw [List.foldlM_cons, h₁]
      exact h₂
    · cases hpeer : peerOf d with
      | none => simpa [hpeer] using hlisted₂
      | some name => simpa [hpeer] using hlisted₂

/-- What `main` does up to its threads, with any way to connect. -/
theorem startup_eq {σ : Type} (connect : σ → PeerName → Option σ) {ls : List (List UInt8)}
    (h : List.Forall₂ Writes ds ls) (hlength : ∀ l ∈ ls, l.length < 255)
    (hmalloc : Function.Injective host.malloc) (hserves : host.Serves mac ds) (st : σ) :
    ∃ s, readConfig host (text ls) = .ok s ∧ After host mac ds .start s ∧
      startup host connect (text ls) st =
        match (ds.filterMap peerOf).reverse.foldlM connect st with
        | none => .error .exit
        | some st' => .ok ({ s with peers := ⟨fun _ => none, none⟩ }, st') := by
  have hstart : Listed host .start [] :=
    ⟨[], ⟨rfl, List.nodup_nil⟩, rfl, rfl, by simp, fun _ _ => rfl⟩
  obtain ⟨s, hs, hafter, l, hl, hnames, hlen, -, hother⟩ :=
    foldlM_apply_spec hmalloc hserves hstart
  have hread : readConfig host (text ls) = .ok s := (readConfig_text h hlength).trans hs
  refine ⟨s, hread, hafter, ?_⟩
  have hheap : (fun p => if p ∈ l.map Prod.fst then none else s.peers.heap p) =
      fun _ => (none : Option (Cell ℕ PeerName)) := by
    ext p : 1
    by_cases hp : p ∈ l.map Prod.fst
    · exact if_pos hp
    · exact (if_neg hp).trans (hother p hp)
  rw [List.append_nil] at hnames
  have hdial : dialLoop connect s.allocated s.peers.head s.peers st =
      match (l.map Prod.snd).foldlM connect st with
      | none => .error .exit
      | some st' =>
        .ok (⟨fun p => if p ∈ l.map Prod.fst then none else s.peers.heap p, none⟩, st') :=
    dialLoop_eq hl hlen.le st
  rw [hnames, hheap] at hdial
  rw [startup, hread]
  simp only [bind, Except.bind, hdial]
  cases (ds.filterMap peerOf).reverse.foldlM connect st with
  | none => rfl
  | some st' => rfl

end

/-! ## The passes of the loop -/

section

open Program

variable {σ : Type} (handle : (c : Command) → σ → Except Program.Stop (c.Reply × σ))

/-- The bytes of a word as a string. -/
def asString (w : List UInt8) : String := .ofList (w.map fun b => .ofNat b.toNat)

/-- The pass of the loop for a peer. -/
def dial (name : PeerName) : Proc Unit :=
  connectPass (asString name.hostname) (asString name.port)

/-- The pass for a peer as a function on what it works on. Nothing comes behind one that stops, and
every way to stop is the same `none` here, which the loop over the peers takes for the exit of the
process. -/
def connected (st : σ) (name : PeerName) : Option σ :=
  match (dial name).run handle st with
  | .ok (_, st') => some st'
  | .error _ => none

theorem foldlM_connected (names : List PeerName) (st : σ) :
    names.foldlM (connected handle) st = match (names.forM dial).run handle st with
      | .ok (_, st') => some st'
      | .error _ => none := by
  induction names generalizing st with
  | nil => rfl
  | cons name names ih =>
    have hforM : (name :: names).forM dial = dial name >>= fun _ => names.forM dial := rfl
    rw [List.foldlM_cons, hforM, Prog.run_bind, connected]
    cases hrun : (dial name).run handle st with
    | error e => rfl
    | ok r =>
      obtain ⟨-, st'⟩ := r
      exact ih st'

/-- **Startup.** On a host that serves it, a configuration with lines that fit the buffer is read as
what it says. Then the peers are dialled, from the last in the file to the first, up to the first
that cannot be reached; if there is none, the list is empty, and all its nodes have been freed. And
no file keeps the loop over it running for ever. -/
theorem startup_dials {host : Host} {mac : List UInt8 → MAC} {ds : List Directive}
    {ls : List (List UInt8)} (h : List.Forall₂ Writes ds ls) (hlength : ∀ l ∈ ls, l.length < 255)
    (hmalloc : Function.Injective host.malloc) (hserves : host.Serves mac ds) (st : σ) :
    (∃ s, readConfig host (text ls) = .ok s ∧ After host mac ds .start s ∧
      startup host (connected handle) (text ls) st =
        match ((ds.filterMap peerOf).reverse.forM dial).run handle st with
        | .error _ => .error .exit
        | .ok (_, st') => .ok ({ s with peers := ⟨fun _ => none, none⟩ }, st')) ∧
      ∀ file, readConfig host file ≠ .error .running := by
  obtain ⟨s, hread, hafter, heq⟩ := startup_eq (connected handle) h hlength hmalloc hserves st
  refine ⟨⟨s, hread, hafter, ?_⟩, fun file => readLoop_ne_running (by omega) _⟩
  rw [heq, foldlM_connected]
  cases ((ds.filterMap peerOf).reverse.forM dial).run handle st with
  | error e => rfl
  | ok r => rfl

end

/-- A host on which everything is there. -/
def Host.plain : Host where
  dm := .lp64
  openListenfd _ := 3
  allocateTunnel dev := (4, dev)
  address _ := some (macText (.replicate 6 0x0A))
  malloc := id
  garbage _ := ⟨⟨[], []⟩, none⟩

/-- A configuration with two peers, both of which answer: the port is read, the address of the tap
device is found, and the one that answers first is a member. -/
theorem startup_dials_two : ∃ s st',
    startup .plain (connected (Program.handle (.quiet ⟨5, true, true, true, some 9, 0, fun _ =>
        some Program.zeroed⟩)))
      (ascii "listenPort 2000\npeer a 1\npeer b 2\ntapDevice tap2\n")
      (Program.start Program.noMembers (Setup.start.linkState)) = .ok (s, st') ∧
    s.config.listenPort = 2000 ∧ s.config.linkTimeout = 0xFFFFFFFF ∧
    s.linkState.tapMAC = .replicate 6 0x0A ∧ s.peers.head = none ∧ st'.members.order = [0] := by
  have hspace : Blanks [32] := ⟨by simp, by simp [isSpace], by simp⟩
  have hname {b c : UInt8} (hb : isSpace b = false ∧ b ≠ 0) (hc : isSpace c = false ∧ c ≠ 0) :
      Fits [b] 64 ∧ Fits [c] 8 :=
    ⟨⟨⟨by simp, by simp [hb.1]⟩, by simp [hb.2.symm], by simp⟩,
      ⟨⟨by simp, by simp [hc.1]⟩, by simp [hc.2.symm], by simp⟩⟩
  obtain ⟨ha, ha'⟩ := hname (b := 97) (c := 49) (by decide) (by decide)
  obtain ⟨hb, hb'⟩ := hname (b := 98) (c := 50) (by decide) (by decide)
  have htap : Fits [116, 97, 112, 50] 64 := ⟨⟨by simp, by simp [isSpace]⟩, by simp, by simp⟩
  have hwrites : List.Forall₂ Writes [.listenPort 2000, .peer ⟨[97], [49]⟩, .peer ⟨[98], [50]⟩,
      .tapDevice [116, 97, 112, 50]] _ :=
    .cons (.listenPort hspace 2000) (.cons (.peer hspace hspace ha ha')
      (.cons (.peer hspace hspace hb hb') (.cons (.tapDevice hspace htap) .nil)))
  have hserves : Host.plain.Serves (fun _ => .replicate 6 0x0A) [.listenPort 2000,
      .peer ⟨[97], [49]⟩, .peer ⟨[98], [50]⟩, .tapDevice [116, 97, 112, 50]] :=
    ⟨by simp [Host.plain], by simp [Host.plain], by simp [Host.plain], fun _ _ => rfl, rfl⟩
  obtain ⟨⟨s, -, hafter, heq⟩, -⟩ := startup_dials (Program.handle (.quiet ⟨5, true, true, true,
    some 9, 0, fun _ => some Program.zeroed⟩)) hwrites (by simp [ascii, printNumber])
    Function.injective_id hserves (Program.start Program.noMembers (Setup.start.linkState))
  have htext : text [ascii "listenPort" ++ ([32] ++ printNumber 10 (2000 : UInt16).toNat),
      ascii "peer" ++ ([32] ++ ([97] ++ ([32] ++ [49]))),
      ascii "peer" ++ ([32] ++ ([98] ++ ([32] ++ [50]))),
      ascii "tapDevice" ++ ([32] ++ [116, 97, 112, 50])] =
      ascii "listenPort 2000\npeer a 1\npeer b 2\ntapDevice tap2\n" := by
    simp [text, ascii, printNumber, digitByte]
  rw [htext] at heq
  exact ⟨_, _, heq.trans rfl, hafter.listenPort, hafter.linkTimeout, hafter.tapMAC, rfl, rfl⟩

end LinkProxy.Startup
