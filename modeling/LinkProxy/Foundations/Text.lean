import Mathlib

/-!
# Lines, words and numbers

What the functions of the C library do that read text, on lists of bytes in the `C` locale: `fgets`
takes a line, up to the size of its buffer; the conversions of `sscanf` skip blanks and take a word
(`scanWord`) or an unsigned number (`scanUnsigned`), which is that of `strtoul` and so saturates and
may have a sign.

Reading is the inverse of writing: a line is read back from the front of a file (`fgets_line`), a
word from behind blanks (`scanWord_word`), and so is every number from its digits in a base
(`scanUnsigned_printNumber`), as long as what follows is not part of it.
-/

namespace LinkProxy.Text

/-- The bytes of a string literal. -/
def ascii (s : String) : List UInt8 := s.toList.map fun c => .ofNat c.toNat

/-- The string in a buffer: the bytes before the first `NUL`. -/
def cString (buf : List UInt8) : List UInt8 := buf.takeWhile fun b => b != 0

/-- `isspace`. -/
def isSpace (b : UInt8) : Bool := b == 32 || (9 ≤ b && b ≤ 13)

/-! ## Lines -/

/-- `fgets` with room for so many bytes: what it puts into the buffer, what is left of the file, and
whether it has met the end of the file. -/
def fgets : ℕ → List UInt8 → List UInt8 × List UInt8 × Bool
  | 0, s => ([], s, false)
  | _ + 1, [] => ([], [], true)
  | n + 1, b :: s =>
    if b = 10 then ([b], s, false)
    else
      let (l, rest, eof) := fgets n s
      (b :: l, rest, eof)

/-- **A line that fits is read as a whole.** -/
theorem fgets_line {n : ℕ} {l : List UInt8} (hl : 10 ∉ l) (hn : l.length < n) (rest : List UInt8) :
    fgets n (l ++ 10 :: rest) = (l ++ [10], rest, false) := by
  induction l generalizing n with
  | nil =>
    obtain ⟨n, rfl⟩ := Nat.exists_eq_add_one_of_ne_zero (by omega : n ≠ 0)
    rfl
  | cons b l ih =>
    obtain ⟨n, rfl⟩ := Nat.exists_eq_add_one_of_ne_zero (by omega : n ≠ 0)
    simp only [List.mem_cons, not_or] at hl
    rw [List.cons_append, fgets, if_neg (Ne.symm hl.1), ih hl.2 (by simpa using hn)]
    rfl

/-- What has been read and what is left are the file. -/
theorem fgets_append (n : ℕ) (s : List UInt8) : (fgets n s).1 ++ (fgets n s).2.1 = s := by
  induction n generalizing s with
  | zero => rfl
  | succ n ih =>
    cases s with
    | nil => rfl
    | cons b s =>
      rw [fgets]
      split_ifs with h
      · rfl
      · exact congrArg (b :: ·) (ih s)

/-! ## Words -/

/-- `%s`: a word behind blanks, and what follows it. -/
def scanWord (s : List UInt8) : Option (List UInt8 × List UInt8) :=
  let s := s.dropWhile isSpace
  let w := s.takeWhile fun b => !isSpace b
  if w = [] then none else some (w, s.dropWhile fun b => !isSpace b)

/-- Bytes that are a word. -/
structure IsWord (w : List UInt8) : Prop where
  ne_nil : w ≠ []
  noSpace : ∀ b ∈ w, isSpace b = false

theorem IsWord.noNewline {w : List UInt8} (hw : IsWord w) : 10 ∉ w := by
  intro h
  exact absurd (hw.noSpace 10 h) (by decide)

section

variable {p : UInt8 → Bool} {w s : List UInt8} {b : UInt8}

theorem takeWhile_append_cons (hw : ∀ c ∈ w, p c = true) (hb : p b = false) :
    (w ++ b :: s).takeWhile p = w := by
  rw [List.takeWhile_append_of_pos hw, List.takeWhile_cons_of_neg (by simp [hb]), List.append_nil]

theorem dropWhile_append_cons (hw : ∀ c ∈ w, p c = true) (hb : p b = false) :
    (w ++ b :: s).dropWhile p = b :: s := by
  rw [List.dropWhile_append_of_pos hw, List.dropWhile_cons_of_neg (by simp [hb])]

end

section

variable {sep w s : List UInt8} {b : UInt8}

/-- **A word is read up to the next blank.** -/
theorem scanWord_word (hsep : ∀ c ∈ sep, isSpace c = true) (hw : IsWord w)
    (hb : isSpace b = true) : scanWord (sep ++ (w ++ b :: s)) = some (w, b :: s) := by
  obtain ⟨hne, hno⟩ := hw
  have hskip : (sep ++ (w ++ b :: s)).dropWhile isSpace = w ++ b :: s := by
    obtain ⟨c, w, rfl⟩ := List.exists_cons_of_ne_nil hne
    exact dropWhile_append_cons hsep (hno c (by simp))
  have hin : ∀ c ∈ w, (!isSpace c) = true := fun c hc => by rw [hno c hc]; rfl
  have hout : (!isSpace b) = false := by rw [hb]; rfl
  simp only [scanWord, hskip, takeWhile_append_cons hin hout, dropWhile_append_cons hin hout]
  exact if_neg hne

end

/-! ## Numbers -/

/-- The value of a digit; 36 for other bytes. -/
def digitValue (b : UInt8) : ℕ :=
  if 48 ≤ b ∧ b ≤ 57 then b.toNat - 48
  else if 65 ≤ b ∧ b ≤ 90 then b.toNat - 55
  else if 97 ≤ b ∧ b ≤ 122 then b.toNat - 87
  else 36

def isDigit (base : ℕ) (b : UInt8) : Bool := digitValue b < base

/-- The number with the given digits. -/
def ofDigits (base : ℕ) (ds : List UInt8) : ℕ := ds.foldl (fun v b => v * base + digitValue b) 0

/-- A sign: whether it is a minus, and what follows it. -/
def scanSign : List UInt8 → Bool × List UInt8
  | 45 :: s => (true, s)
  | 43 :: s => (false, s)
  | s => (false, s)

/-- The `0x` that may stand before hexadecimal digits. -/
def skipPrefix (base : ℕ) : List UInt8 → List UInt8
  | 48 :: x :: s => if base = 16 ∧ (x = 120 ∨ x = 88) then s else 48 :: x :: s
  | s => s

/-- `%u` and `%X`: an unsigned number behind blanks, as `strtoul` returns it, and what follows it.
-/
def scanUnsigned (base ulongMax : ℕ) (s : List UInt8) : Option (ℕ × List UInt8) :=
  let (neg, s) := scanSign (s.dropWhile isSpace)
  let s := skipPrefix base s
  let ds := s.takeWhile (isDigit base)
  let v := ofDigits base ds
  if ds = [] then none
  else some (if ulongMax < v then ulongMax else if neg then (ulongMax + 1 - v) % (ulongMax + 1) else v,
    s.dropWhile (isDigit base))

/-- The digit with the given value. -/
def digitByte (d : ℕ) : UInt8 := .ofNat (if d < 10 then 48 + d else 87 + d)

/-- The digits of a number. -/
def printNumber (base n : ℕ) : List UInt8 :=
  if n = 0 then [48] else ((Nat.digits base n).map digitByte).reverse

theorem digitValue_digitByte : ∀ {d : ℕ}, d < 36 → digitValue (digitByte d) = d := by
  decide

section

variable {base ulongMax : ℕ} {sep ds s : List UInt8} {b : UInt8}

theorem digitValue_of_isSpace (h : isSpace b = true) : digitValue b = 36 := by
  simp only [isSpace, Bool.or_eq_true, beq_iff_eq, Bool.and_eq_true, decide_eq_true_eq,
    UInt8.le_iff_toNat_le, ← UInt8.toNat_inj, UInt8.reduceToNat] at h
  simp only [digitValue, UInt8.le_iff_toNat_le, UInt8.reduceToNat]
  rw [if_neg (by omega), if_neg (by omega), if_neg (by omega)]

/-- A digit is neither a blank nor a sign. -/
theorem isDigit_cases (hbase : base ≤ 36) (h : isDigit base b = true) :
    isSpace b = false ∧ b ≠ 45 ∧ b ≠ 43 := by
  have hlt : digitValue b < 36 := lt_of_lt_of_le (of_decide_eq_true h) hbase
  refine ⟨?_, ?_, ?_⟩
  · by_contra hspace
    have h36 := digitValue_of_isSpace (Bool.not_eq_false _ ▸ hspace)
    omega
  · rintro rfl
    exact absurd hlt (by decide)
  · rintro rfl
    exact absurd hlt (by decide)

theorem ofDigits_printNumber (h₁ : 1 < base) (h₂ : base ≤ 36) (n : ℕ) :
    ofDigits base (printNumber base n) = n := by
  have hfold (ds : List ℕ) (hds : ∀ d ∈ ds, d < base) :
      ofDigits base (ds.map digitByte).reverse = Nat.ofDigits base ds := by
    rw [ofDigits, List.foldl_reverse]
    induction ds with
    | nil => rfl
    | cons d ds ih =>
      have hd := hds d (by simp)
      rw [List.map_cons, List.foldr_cons, ih fun c hc => hds c (by simp [hc]),
        digitValue_digitByte (by omega), Nat.ofDigits_cons, Nat.mul_comm, Nat.add_comm]
  rw [printNumber]
  split_ifs with hn
  · simp [hn, ofDigits, digitValue]
  · rw [hfold _ fun d hd => Nat.digits_lt_base h₁ hd, Nat.ofDigits_digits]

theorem printNumber_ne_nil (base n : ℕ) : printNumber base n ≠ [] := by
  rw [printNumber]
  split_ifs with hn
  · simp
  · simpa [Nat.digits_ne_nil_iff_ne_zero] using hn

theorem isDigit_of_mem_printNumber (h₁ : 1 < base) (h₂ : base ≤ 36) {n : ℕ}
    (hb : b ∈ printNumber base n) : isDigit base b = true := by
  rw [printNumber] at hb
  split_ifs at hb with hn
  · obtain rfl := List.mem_singleton.1 hb
    exact decide_eq_true (lt_trans (by decide : digitValue 48 < 1) h₁)
  · obtain ⟨d, hd, rfl⟩ := List.mem_map.1 (List.mem_reverse.1 hb)
    have hlt := Nat.digits_lt_base h₁ hd
    exact decide_eq_true (by rwa [digitValue_digitByte (by omega)])

/-- **The digits of a number are read up to the first byte that is none.** -/
theorem scanUnsigned_digits (hbase : base ≤ 33) (hsep : ∀ c ∈ sep, isSpace c = true)
    (hne : ds ≠ []) (hds : ∀ c ∈ ds, isDigit base c = true) (hb : isDigit base b = false)
    (hx : b ≠ 120 ∧ b ≠ 88) (hmax : ofDigits base ds ≤ ulongMax) :
    scanUnsigned base ulongMax (sep ++ (ds ++ b :: s)) = some (ofDigits base ds, b :: s) := by
  obtain ⟨c, ds, rfl⟩ := List.exists_cons_of_ne_nil hne
  obtain ⟨hspace, hminus, hplus⟩ := isDigit_cases (by omega) (hds c (by simp))
  have hskip : (sep ++ (c :: ds ++ b :: s)).dropWhile isSpace = c :: ds ++ b :: s :=
    dropWhile_append_cons hsep hspace
  have hsign : scanSign (c :: ds ++ b :: s) = (false, c :: ds ++ b :: s) := by
    rw [List.cons_append]
    unfold scanSign
    split
    · next h => exact absurd (List.cons.inj h).1 hminus
    · next h => exact absurd (List.cons.inj h).1 hplus
    · rfl
  have hprefix : skipPrefix base (c :: ds ++ b :: s) = c :: ds ++ b :: s := by
    rw [List.cons_append]
    unfold skipPrefix
    split
    · next x t h =>
      rw [h]
      apply if_neg
      rintro ⟨-, hxs⟩
      -- the byte behind the first digit is a digit or the one behind the number
      cases ds with
      | nil =>
        obtain ⟨-, h⟩ := List.cons.inj h
        obtain ⟨rfl, -⟩ := List.cons.inj h
        exact hxs.elim hx.1 hx.2
      | cons d ds =>
        obtain ⟨-, h⟩ := List.cons.inj h
        obtain ⟨rfl, -⟩ := List.cons.inj h
        have hd : digitValue d < base := of_decide_eq_true (hds d (by simp))
        have h33 : digitValue d = 33 := by rcases hxs with rfl | rfl <;> decide
        omega
    · rfl
  simp only [scanUnsigned, hskip, hsign, hprefix, takeWhile_append_cons hds hb,
    dropWhile_append_cons hds hb]
  rw [if_neg hne, if_neg (by omega)]
  rfl

/-- **A number is read back from its digits.** -/
theorem scanUnsigned_printNumber {n : ℕ} (h₁ : 1 < base) (h₂ : base ≤ 33)
    (hsep : ∀ c ∈ sep, isSpace c = true) (hb : isDigit base b = false) (hx : b ≠ 120 ∧ b ≠ 88)
    (hmax : n ≤ ulongMax) :
    scanUnsigned base ulongMax (sep ++ (printNumber base n ++ b :: s)) = some (n, b :: s) := by
  have hval := ofDigits_printNumber h₁ (by omega) n
  rw [scanUnsigned_digits h₂ hsep (printNumber_ne_nil base n)
    (fun c hc => isDigit_of_mem_printNumber h₁ (by omega) hc) hb hx (by omega), hval]

end

end LinkProxy.Text
