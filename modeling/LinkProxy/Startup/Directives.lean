import LinkProxy.Startup.Configuration

/-!
# What a configuration says

A line of the configuration is a keyword with one or two words behind it, or begins with no keyword
(`Directive`, `Writes`). It says what `main` does with it (`Directive.apply`), and `main` does that:
`readLine_writes` is the case of one line, and `readConfig_eq` that of a file.

The numbers come back from their decimal digits, the words from between their blanks, and the
addresses from the text in which the kernel prints them (`getMAC_text`).
-/

namespace LinkProxy.Startup

open Wire Text

/-! ## The addresses of the devices -/

/-- A byte in two hexadecimal digits. -/
def hexPair (b : UInt8) : List UInt8 := [digitByte (b.toNat / 16), digitByte (b.toNat % 16)]

/-- The bytes of an address with colons between them, and the end of the line. -/
def macText : List UInt8 → List UInt8
  | [] => [10]
  | [b] => hexPair b ++ [10]
  | b :: c :: bs => hexPair b ++ 58 :: macText (c :: bs)

theorem le_ulongMax (dm : DataModel) : 4294967295 ≤ ulongMax dm := by
  cases dm <;> decide

section

variable {dm : DataModel}

/-- A byte is read back up to the colon or the end of the line. -/
theorem scanUnsigned_hexPair (b : UInt8) {c : UInt8} (hc : c = 58 ∨ c = 10) (s : List UInt8) :
    scanUnsigned 16 (ulongMax dm) (hexPair b ++ c :: s) = some (b.toNat, c :: s) := by
  have hb := b.toNat_lt
  have hval : ofDigits 16 (hexPair b) = b.toNat := by
    simp only [ofDigits, hexPair, List.foldl_cons, List.foldl_nil]
    rw [digitValue_digitByte (by omega), digitValue_digitByte (by omega)]
    omega
  have hdigits : ∀ d ∈ hexPair b, isDigit 16 d = true := by
    intro d hd
    simp only [hexPair, List.mem_cons, List.not_mem_nil, or_false] at hd
    rcases hd with rfl | rfl <;> refine decide_eq_true ?_ <;>
      rw [digitValue_digitByte (by omega)] <;> omega
  have hmax := le_ulongMax dm
  have hend : isDigit 16 c = false ∧ c ≠ 120 ∧ c ≠ 88 := by
    rcases hc with rfl | rfl <;> decide
  have hscan : scanUnsigned 16 (ulongMax dm) ([] ++ (hexPair b ++ c :: s)) =
      some (ofDigits 16 (hexPair b), c :: s) :=
    scanUnsigned_digits (by omega) (by simp) (by simp [hexPair]) hdigits hend.1 hend.2 (by omega)
  rwa [List.nil_append, hval] at hscan

theorem scanBytes_macText (bs : List UInt8) :
    scanBytes dm bs.length (macText bs) = bs := by
  induction bs with
  | nil => rfl
  | cons b bs ih =>
    cases bs with
    | nil =>
      rw [macText, List.length_singleton, scanBytes, scanUnsigned_hexPair b (.inr rfl)]
      simp
    | cons c bs =>
      rw [macText, List.length_cons, scanBytes, scanUnsigned_hexPair b (.inl rfl)]
      simp only [UInt8.ofNat_toNat]
      exact congrArg (b :: ·) ih

/-- The text of an address is a line without a `NUL`. -/
theorem exists_macText (bs : List UInt8) :
    ∃ l, macText bs = l ++ [10] ∧ 10 ∉ l ∧ 0 ∉ l ∧ l.length ≤ 3 * bs.length := by
  have hbyte {d : ℕ} (hd : d < 16) : digitByte d ≠ 10 ∧ digitByte d ≠ 0 := by
    revert hd d
    decide
  have hpair (b : UInt8) : 10 ∉ hexPair b ∧ 0 ∉ hexPair b := by
    have hb := b.toNat_lt
    obtain ⟨h₁, h₂⟩ := hbyte (by omega : b.toNat / 16 < 16)
    obtain ⟨h₃, h₄⟩ := hbyte (by omega : b.toNat % 16 < 16)
    simp only [hexPair, List.mem_cons, List.not_mem_nil, or_false, not_or]
    exact ⟨⟨h₁.symm, h₃.symm⟩, h₂.symm, h₄.symm⟩
  induction bs with
  | nil => exact ⟨[], rfl, by simp, by simp, by simp⟩
  | cons b bs ih =>
    obtain ⟨hnl, hnul⟩ := hpair b
    cases bs with
    | nil => exact ⟨hexPair b, rfl, hnl, hnul, by simp [hexPair]⟩
    | cons c bs =>
      obtain ⟨l, hl, hnl', hnul', hlen⟩ := ih
      refine ⟨hexPair b ++ 58 :: l, by simp [macText, hl], by simp [hnl, hnl'],
        by simp [hnul, hnul'], ?_⟩
      simp only [List.length_append, List.length_cons, hexPair, List.length_nil] at hlen ⊢
      omega

theorem cString_line {l : List UInt8} (h : 0 ∉ l) : cString (l ++ [10]) = l ++ [10] := by
  rw [cString, List.takeWhile_eq_self_iff]
  intro b hb
  rw [bne_iff_ne]
  rintro rfl
  simp [h] at hb

end

/-- **An address is read back from the text of its file.** -/
theorem getMAC_text {host : Host} {dev : List UInt8} {mac : MAC}
    (hdev : (addressFile dev).length < 64) (hfile : host.address dev = some (macText mac.toList))
    (old : MAC) : getMAC host dev old = .ok mac := by
  obtain ⟨l, hl, hnl, hnul, hlen⟩ := exists_macText mac.toList
  have hline : fgets 63 (macText mac.toList) = (macText mac.toList, [], false) := by
    rw [hl]
    refine fgets_line hnl ?_ []
    rw [Vector.length_toList] at hlen
    omega
  have hscan : scanBytes host.dm 6 (cString (macText mac.toList)) = mac.toList := by
    have h : scanBytes host.dm mac.toList.length (macText mac.toList) = mac.toList :=
      scanBytes_macText _
    rw [Vector.length_toList] at h
    rw [hl, cString_line hnul, ← hl, h]
  have hne : macText mac.toList ≠ [] := by simp [hl]
  rw [getMAC, if_neg (by omega), hfile]
  simp only [hline, if_neg hne, hscan]
  congr 1
  ext i hi
  simp

/-! ## Lines -/

/-- What a line says. -/
inductive Directive
  | listenPort (n : UInt16)
  | linkPeriod (n : UInt32)
  | linkTimeout (n : UInt32)
  | peer (name : PeerName)
  | quitAfter (n : UInt32)
  | tapDevice (dev : List UInt8)
  | other
  deriving DecidableEq

/-- Blanks within a line. -/
structure Blanks (s : List UInt8) : Prop where
  ne_nil : s ≠ []
  space : ∀ b ∈ s, isSpace b = true
  noNewline : 10 ∉ s

/-- A word that fits an array. -/
structure Fits (w : List UInt8) (size : ℕ) : Prop where
  word : IsWord w
  noNul : 0 ∉ w
  length : w.length < size

/-- The keywords. -/
def keywords : List String :=
  ["listenPort", "linkPeriod", "linkTimeout", "peer", "quitAfter", "tapDevice"]

/-- The lines, without their ends, that say something. -/
inductive Writes : Directive → List UInt8 → Prop
  | listenPort {sep : List UInt8} (hsep : Blanks sep) (n : UInt16) :
      Writes (.listenPort n) (ascii "listenPort" ++ (sep ++ printNumber 10 n.toNat))
  | linkPeriod {sep : List UInt8} (hsep : Blanks sep) (n : UInt32) :
      Writes (.linkPeriod n) (ascii "linkPeriod" ++ (sep ++ printNumber 10 n.toNat))
  | linkTimeout {sep : List UInt8} (hsep : Blanks sep) (n : UInt32) :
      Writes (.linkTimeout n) (ascii "linkTimeout" ++ (sep ++ printNumber 10 n.toNat))
  | peer {sep sep' : List UInt8} {name : PeerName} (hsep : Blanks sep) (hsep' : Blanks sep')
      (hhostname : Fits name.hostname 64) (hport : Fits name.port 8) :
      Writes (.peer name) (ascii "peer" ++ (sep ++ (name.hostname ++ (sep' ++ name.port))))
  | quitAfter {sep : List UInt8} (hsep : Blanks sep) (n : UInt32) :
      Writes (.quitAfter n) (ascii "quitAfter" ++ (sep ++ printNumber 10 n.toNat))
  | tapDevice {sep dev : List UInt8} (hsep : Blanks sep) (hdev : Fits dev 64) :
      Writes (.tapDevice dev) (ascii "tapDevice" ++ (sep ++ dev))
  | other {l : List UInt8} (hkeyword : ∀ k ∈ keywords, startsWith (l ++ [10]) k = false)
      (hnl : 10 ∉ l) (hnul : 0 ∉ l) : Writes .other l

/-- What `main` is to do with a line. -/
def Directive.apply (host : Host) : Directive → Setup → Except Stop Setup
  | .listenPort n, s => listen host n s
  | .linkPeriod n, s => .ok { s with config := { s.config with linkPeriod := n } }
  | .linkTimeout n, s => .ok { s with config := { s.config with linkTimeout := n } }
  | .peer name, s => addPeer host name s
  | .quitAfter n, s => .ok { s with config := { s.config with quitTimer := n } }
  | .tapDevice dev, s => openTap host dev s
  | .other, s => .ok s

section

variable {sep k w s : List UInt8} {host : Host}

theorem keyword_spec : ∀ k ∈ keywords, ascii k ≠ [] ∧ (∀ b ∈ ascii k, isSpace b = false) ∧
    10 ∉ ascii k ∧ 0 ∉ ascii k := by
  intro k hk
  simp only [keywords, List.mem_cons, List.not_mem_nil, or_false] at hk
  rcases hk with rfl | rfl | rfl | rfl | rfl | rfl <;> simp [ascii, isSpace]

theorem isWord_keyword {k : String} (hk : k ∈ keywords) : IsWord (ascii k) :=
  ⟨(keyword_spec k hk).1, (keyword_spec k hk).2.1⟩

theorem Blanks.noNul (hsep : Blanks sep) : 0 ∉ sep := by
  intro h
  exact absurd (hsep.space 0 h) (by decide)

theorem printNumber_clean (n : ℕ) : 10 ∉ printNumber 10 n ∧ 0 ∉ printNumber 10 n := by
  refine ⟨fun h => ?_, fun h => ?_⟩
  · exact absurd (isDigit_of_mem_printNumber (by omega) (by omega) h) (by decide)
  · exact absurd (isDigit_of_mem_printNumber (by omega) (by omega) h) (by decide)

/-- No line has an end or a `NUL` in it. -/
theorem Writes.clean {d : Directive} {l : List UInt8} (h : Writes d l) : 10 ∉ l ∧ 0 ∉ l := by
  have hnumber {k : String} {sep : List UInt8} (hk : k ∈ keywords) (hsep : Blanks sep) (n : ℕ) :
      10 ∉ ascii k ++ (sep ++ printNumber 10 n) ∧ 0 ∉ ascii k ++ (sep ++ printNumber 10 n) := by
    obtain ⟨-, -, h₁, h₂⟩ := keyword_spec k hk
    obtain ⟨h₃, h₄⟩ := printNumber_clean n
    simp [h₁, h₂, h₃, h₄, hsep.noNewline, hsep.noNul]
  cases h with
  | listenPort hsep n | linkPeriod hsep n | linkTimeout hsep n | quitAfter hsep n =>
    exact hnumber (by decide) hsep _
  | peer hsep hsep' hhostname hport =>
    obtain ⟨-, -, h₁, h₂⟩ := keyword_spec "peer" (by decide)
    simp [h₁, h₂, hsep.noNewline, hsep.noNul, hsep'.noNewline, hsep'.noNul, hhostname.noNul,
      hhostname.word.noNewline, hport.noNul, hport.word.noNewline]
  | tapDevice hsep hdev =>
    obtain ⟨-, -, h₁, h₂⟩ := keyword_spec "tapDevice" (by decide)
    simp [h₁, h₂, hsep.noNewline, hsep.noNul, hdev.noNul, hdev.word.noNewline]
  | other hkeyword hnl hnul => exact ⟨hnl, hnul⟩

/-- A word is read up to the blanks behind it. -/
theorem scanWord_blanks {sep' : List UInt8} (hsep' : ∀ b ∈ sep', isSpace b = true) (hw : IsWord w)
    (hsep : Blanks sep) : scanWord (sep' ++ (w ++ (sep ++ s))) = some (w, sep ++ s) := by
  obtain ⟨b, sep, rfl⟩ := List.exists_cons_of_ne_nil hsep.ne_nil
  exact scanWord_word hsep' hw (hsep.space b (by simp))

/-- The number behind a keyword. -/
theorem scanNumber_line {n : ℕ} (hw : IsWord w) (hsep : Blanks sep) (hn : n ≤ ulongMax host.dm) :
    scanNumber host (w ++ (sep ++ (printNumber 10 n ++ [10]))) = some n := by
  have hword : scanWord ([] ++ (w ++ (sep ++ (printNumber 10 n ++ [10])))) =
      some (w, sep ++ (printNumber 10 n ++ [10])) :=
    scanWord_blanks (by simp) hw hsep
  rw [List.nil_append] at hword
  rw [scanNumber, hword]
  simp only [Option.bind_eq_bind, Option.bind_some]
  rw [scanUnsigned_printNumber (by omega) (by omega) hsep.space (by decide) (by decide) hn]
  rfl

theorem scanField_line (hw : IsWord w) (hsep : Blanks sep) (n old : UInt32) :
    scanField host (w ++ (sep ++ (printNumber 10 n.toNat ++ [10]))) old = n := by
  have hmax := le_ulongMax host.dm
  have hn := n.toNat_lt
  rw [scanField, scanNumber_line hw hsep (by omega)]
  simp

/-- The word behind a keyword. -/
theorem scanSecond_line {v : List UInt8} {b : UInt8} (hw : IsWord w) (hsep : Blanks sep)
    (hv : IsWord v) (hb : isSpace b = true) :
    ((scanWord (w ++ (sep ++ (v ++ b :: s)))).bind fun p => scanWord p.2) = some (v, b :: s) := by
  have hword : scanWord ([] ++ (w ++ (sep ++ (v ++ b :: s)))) = some (w, sep ++ (v ++ b :: s)) :=
    scanWord_blanks (by simp) hw hsep
  rw [List.nil_append] at hword
  rw [hword, Option.bind_some]
  exact scanWord_word hsep.space hv hb

/-- The name and the port of a peer. -/
theorem scanPeer_line {sep' : List UInt8} {name : PeerName} (hw : IsWord w) (hsep : Blanks sep)
    (hsep' : Blanks sep') (hhostname : Fits name.hostname 64) (hport : Fits name.port 8)
    (add : PeerName) :
    scanPeer (w ++ (sep ++ (name.hostname ++ (sep' ++ (name.port ++ [10]))))) add = .ok name := by
  have h₁ := hhostname.length
  have h₂ := hport.length
  obtain ⟨b, sep', rfl⟩ := List.exists_cons_of_ne_nil hsep'.ne_nil
  rw [scanPeer, List.cons_append, scanSecond_line hw hsep hhostname.word (hsep'.space b (by simp))]
  dsimp only
  rw [if_neg (by omega), ← List.cons_append,
    scanWord_word hsep'.space hport.word (by decide : isSpace 10 = true)]
  exact if_neg (by omega)

/-- **`main` does with a line what it says.** -/
theorem readLine_writes {d : Directive} {l : List UInt8} (h : Writes d l) (s : Setup) :
    readLine host (l ++ [10]) s = d.apply host s := by
  have hline := cString_line h.clean.2
  have hmax := le_ulongMax host.dm
  cases h with
  | @listenPort sep hsep n =>
    have hn := n.toNat_lt
    rw [readLine, hline]
    simp only [List.append_assoc]
    refine (if_pos rfl).trans ?_
    rw [readListenPort, scanNumber_line (isWord_keyword (by decide)) hsep (by omega)]
    simp [Directive.apply]
  | @linkPeriod sep hsep n =>
    rw [readLine, hline]
    simp only [List.append_assoc]
    refine (if_neg Bool.false_ne_true).trans ((if_pos rfl).trans ?_)
    rw [scanField_line (isWord_keyword (by decide)) hsep]
    rfl
  | @linkTimeout sep hsep n =>
    rw [readLine, hline]
    simp only [List.append_assoc]
    refine (if_neg Bool.false_ne_true).trans ((if_neg Bool.false_ne_true).trans
      ((if_pos rfl).trans ?_))
    rw [scanField_line (isWord_keyword (by decide)) hsep]
    rfl
  | @peer sep sep' name hsep hsep' hhostname hport =>
    rw [readLine, hline]
    simp only [List.append_assoc]
    refine (if_neg Bool.false_ne_true).trans ((if_neg Bool.false_ne_true).trans
      ((if_neg Bool.false_ne_true).trans ((if_pos rfl).trans ?_)))
    rw [readPeer, scanPeer_line (isWord_keyword (by decide)) hsep hsep' hhostname hport]
    rfl
  | @quitAfter sep hsep n =>
    rw [readLine, hline]
    simp only [List.append_assoc]
    refine (if_neg Bool.false_ne_true).trans ((if_neg Bool.false_ne_true).trans
      ((if_neg Bool.false_ne_true).trans ((if_neg Bool.false_ne_true).trans
        ((if_pos rfl).trans ?_))))
    rw [scanField_line (isWord_keyword (by decide)) hsep]
    rfl
  | @tapDevice sep dev hsep hdev =>
    rw [readLine, hline]
    simp only [List.append_assoc]
    refine (if_neg Bool.false_ne_true).trans ((if_neg Bool.false_ne_true).trans
      ((if_neg Bool.false_ne_true).trans ((if_neg Bool.false_ne_true).trans
        ((if_neg Bool.false_ne_true).trans ((if_pos rfl).trans ?_)))))
    have hlength := hdev.length
    rw [readTapDevice, scanSecond_line (isWord_keyword (by decide)) hsep hdev.word (by decide)]
    exact if_neg (by omega)
  | other hkeyword hnl hnul =>
    rw [readLine, hline]
    simp only [keywords, List.forall_mem_cons] at hkeyword
    obtain ⟨h₁, h₂, h₃, h₄, h₅, h₆, -⟩ := hkeyword
    simp only [h₁, h₂, h₃, h₄, h₅, h₆]
    rfl

end

end LinkProxy.Startup
