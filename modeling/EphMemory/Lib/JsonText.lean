import Mathlib

/-!
# Flat JSON objects as text

Objects whose members are null, booleans, unsigned integers or strings, and
the compact text the common JSON libraries print for them: no blanks, numbers
in decimal, control characters escaped.

* `printObject` — the text, `length_printObject` its length;
* `PlainField` — a member that needs no escape; a printed object of such
  members is ASCII and has no line end (`printable_printObject`);
* `scanObject` — a reader of such texts, `scanObject_print` that it reads back
  what is printed.
-/

namespace EphMemory.Lib

inductive Scalar where
  | null
  | bool (b : Bool)
  | num (n : Nat)
  | str (s : String)
  deriving DecidableEq, Repr

abbrev Field := String × Scalar

-- ---------------------------------------------------------------------------
-- Printing
-- ---------------------------------------------------------------------------

def escape (c : Char) : List Char :=
  if c = '"' then ['\\', '"']
  else if c = '\\' then ['\\', '\\']
  else if c = '\n' then ['\\', 'n']
  else if c = '\r' then ['\\', 'r']
  else if c = '\t' then ['\\', 't']
  else if c.toNat = 8 then ['\\', 'b']
  else if c.toNat = 12 then ['\\', 'f']
  else if c.toNat < 32 then
    ['\\', 'u', '0', '0', (c.toNat / 16).digitChar, (c.toNat % 16).digitChar]
  else [c]

def quoted (s : String) : List Char := '"' :: (s.toList.flatMap escape ++ ['"'])

def printScalar : Scalar → List Char
  | .null => ['n', 'u', 'l', 'l']
  | .bool true => ['t', 'r', 'u', 'e']
  | .bool false => ['f', 'a', 'l', 's', 'e']
  | .num n => Nat.toDigits 10 n
  | .str s => quoted s

def printField (f : Field) : List Char := quoted f.1 ++ ':' :: printScalar f.2

/-- The members after the first, each behind its comma, and the end. -/
def printRest : List Field → List Char
  | [] => ['}']
  | f :: rest => ',' :: (printField f ++ printRest rest)

def printObject : List Field → List Char
  | [] => ['{', '}']
  | f :: rest => '{' :: (printField f ++ printRest rest)

-- ---------------------------------------------------------------------------
-- Plain text
-- ---------------------------------------------------------------------------

/-- A character that JSON text prints as it is. -/
def PlainChar (c : Char) : Prop := 32 ≤ c.toNat ∧ c.toNat < 127 ∧ c ≠ '"' ∧ c ≠ '\\'

instance (c : Char) : Decidable (PlainChar c) := inferInstanceAs (Decidable (_ ∧ _))

def PlainString (s : String) : Prop := ∀ c ∈ s.toList, PlainChar c

instance (s : String) : Decidable (PlainString s) := List.decidableBAll PlainChar s.toList

def PlainScalar : Scalar → Prop
  | .str s => PlainString s
  | _ => True

def PlainField (f : Field) : Prop := PlainString f.1 ∧ PlainScalar f.2

/-- A printable ASCII character. -/
def Printable (c : Char) : Prop := 32 ≤ c.toNat ∧ c.toNat < 127

instance (c : Char) : Decidable (Printable c) := inferInstanceAs (Decidable (_ ∧ _))

/-- Printable text. -/
def PrintableText (cs : List Char) : Prop := ∀ c ∈ cs, Printable c

instance (cs : List Char) : Decidable (PrintableText cs) := List.decidableBAll Printable cs

/-- A plain character stands for itself. -/
theorem escape_plain {c : Char} (h : PlainChar c) : escape c = [c] := by
  obtain ⟨hLow, -, hQuote, hBackslash⟩ := h
  have hNe : ∀ d : Char, d.toNat < 32 → c ≠ d := by
    rintro d hd rfl
    exact absurd hd (Nat.not_lt_of_le hLow)
  unfold escape
  rw [if_neg hQuote, if_neg hBackslash, if_neg (hNe '\n' (by decide)),
    if_neg (hNe '\r' (by decide)), if_neg (hNe '\t' (by decide)), if_neg (by omega),
    if_neg (by omega), if_neg (Nat.not_lt_of_le hLow)]

/-- A plain string is printed as it is, between quotes. -/
theorem quoted_plain {s : String} (h : PlainString s) :
    quoted s = '"' :: (s.toList ++ ['"']) := by
  have hFlat : ∀ l : List Char, (∀ c ∈ l, PlainChar c) → l.flatMap escape = l := by
    intro l hl
    induction l with
    | nil => rfl
    | cons c rest ih =>
      rw [List.flatMap_cons, escape_plain (hl c (List.mem_cons_self ..)),
        ih fun d hd => hl d (List.mem_cons_of_mem _ hd)]
      rfl
  rw [quoted, hFlat _ h]

theorem PlainChar.printable {c : Char} (h : PlainChar c) : Printable c := ⟨h.1, h.2.1⟩

/-- What a plain string is printed as has no line break in it. -/
theorem printable_quoted {s : String} (h : PlainString s) : PrintableText (quoted s) := by
  intro c hc
  rw [quoted_plain h] at hc
  rcases List.mem_cons.mp hc with rfl | hc
  · decide
  · rcases List.mem_append.mp hc with hc | hc
    · exact (h c hc).printable
    · rw [List.mem_singleton.mp hc]
      decide

theorem printable_of_isDigit {c : Char} (h : c.isDigit = true) : Printable c := by
  rw [Char.isDigit, Bool.and_eq_true] at h
  have hLow : '0'.toNat ≤ c.toNat := UInt32.le_iff_toNat_le.mp (of_decide_eq_true h.1)
  have hHigh : c.toNat ≤ '9'.toNat := UInt32.le_iff_toNat_le.mp (of_decide_eq_true h.2)
  have h0 : '0'.toNat = 48 := rfl
  have h9 : '9'.toNat = 57 := rfl
  exact ⟨by omega, by omega⟩

/-- A plain scalar is printed on one line. -/
theorem printable_scalar {v : Scalar} (h : PlainScalar v) : PrintableText (printScalar v) := by
  cases v with
  | null => decide
  | bool b => cases b <;> decide
  | num n =>
    exact fun c hc =>
      printable_of_isDigit (Nat.isDigit_of_mem_toDigits (by decide) (by decide) hc)
  | str s => exact printable_quoted h

/-- A field whose key and value are plain is printed on one line. -/
theorem printable_field {f : Field} (h : PlainField f) : PrintableText (printField f) := by
  intro c hc
  rcases List.mem_append.mp hc with hc | hc
  · exact printable_quoted h.1 c hc
  · rcases List.mem_cons.mp hc with rfl | hc
    · decide
    · exact printable_scalar h.2 c hc

theorem printable_rest {fs : List Field} (h : ∀ f ∈ fs, PlainField f) :
    PrintableText (printRest fs) := by
  induction fs with
  | nil => decide
  | cons f rest ih =>
    intro c hc
    rcases List.mem_cons.mp hc with rfl | hc
    · decide
    · rcases List.mem_append.mp hc with hc | hc
      · exact printable_field (h f (List.mem_cons_self ..)) c hc
      · exact ih (fun g hg => h g (List.mem_cons_of_mem _ hg)) c hc

/-- An object of plain fields is printed on one line. -/
theorem printable_printObject {fs : List Field} (h : ∀ f ∈ fs, PlainField f) :
    PrintableText (printObject fs) := by
  cases fs with
  | nil => decide
  | cons f rest =>
    intro c hc
    rcases List.mem_cons.mp hc with rfl | hc
    · decide
    · rcases List.mem_append.mp hc with hc | hc
      · exact printable_field (h f (List.mem_cons_self ..)) c hc
      · exact printable_rest (fun g hg => h g (List.mem_cons_of_mem _ hg)) c hc

theorem length_printRest {fs : List Field} {n : Nat} (h : ∀ f ∈ fs, (printField f).length ≤ n) :
    (printRest fs).length ≤ fs.length * (n + 1) + 1 := by
  induction fs with
  | nil => simp [printRest]
  | cons f rest ih =>
    have hHead := h f (List.mem_cons_self ..)
    have hTail := ih fun g hg => h g (List.mem_cons_of_mem _ hg)
    rw [printRest, List.length_cons, List.length_append, List.length_cons, Nat.succ_mul]
    omega

/-- Members of at most `n` characters. -/
theorem length_printObject {fs : List Field} {n : Nat}
    (h : ∀ f ∈ fs, (printField f).length ≤ n) :
    (printObject fs).length ≤ fs.length * (n + 1) + 2 := by
  cases fs with
  | nil => simp [printObject]
  | cons f rest =>
    have hHead := h f (List.mem_cons_self ..)
    have hTail := length_printRest fun g hg => h g (List.mem_cons_of_mem _ hg)
    rw [printObject, List.length_cons, List.length_append, List.length_cons, Nat.succ_mul]
    omega

-- ---------------------------------------------------------------------------
-- Reading it back
-- ---------------------------------------------------------------------------

/-- A string up to its closing quote. Escapes are not read. -/
def scanString (cs : List Char) : Option (String × List Char) :=
  match cs.dropWhile (fun c => decide (c ≠ '"')) with
  | [] => none
  | _ :: rest => some (String.ofList (cs.takeWhile fun c => decide (c ≠ '"')), rest)

def scanNumber (cs : List Char) : Option (Scalar × List Char) :=
  if cs.takeWhile Char.isDigit = [] then none
  else
    some (.num (Nat.ofDigitChars 10 (cs.takeWhile Char.isDigit) 0), cs.dropWhile Char.isDigit)

def scanScalar : List Char → Option (Scalar × List Char)
  | '"' :: rest => (scanString rest).map fun p => (.str p.1, p.2)
  | 't' :: 'r' :: 'u' :: 'e' :: rest => some (.bool true, rest)
  | 'f' :: 'a' :: 'l' :: 's' :: 'e' :: rest => some (.bool false, rest)
  | 'n' :: 'u' :: 'l' :: 'l' :: rest => some (.null, rest)
  | cs => scanNumber cs

def scanField : List Char → Option (Field × List Char)
  | '"' :: rest =>
    match scanString rest with
    | some (key, ':' :: rest) => (scanScalar rest).map fun p => ((key, p.1), p.2)
    | _ => none
  | _ => none

/-- The members after the first. -/
def scanRest : Nat → List Char → Option (List Field × List Char)
  | 0, _ => none
  | _ + 1, '}' :: rest => some ([], rest)
  | fuel + 1, ',' :: rest =>
    match scanField rest with
    | none => none
    | some (f, rest) => (scanRest fuel rest).map fun p => (f :: p.1, p.2)
  | _ + 1, _ => none

/-- An object and what is behind it. -/
def scanMembers (cs : List Char) : Option (List Field × List Char) :=
  match cs with
  | '{' :: '}' :: rest => some ([], rest)
  | '{' :: rest =>
    match scanField rest with
    | none => none
    | some (f, rest) => (scanRest rest.length rest).map fun p => (f :: p.1, p.2)
  | _ => none

/-- An object with nothing but blanks behind it. -/
def scanObject (cs : List Char) : Option (List Field) :=
  match scanMembers cs with
  | none => none
  | some (fs, rest) => if rest.all Char.isWhitespace then some fs else none

/-- Cutting at the first character that fails a test finds the seam of two texts. -/
theorem span_append {p : Char → Bool} (l rest : List Char) (hAll : ∀ c ∈ l, p c = true)
    (hStop : ∀ c, rest.head? = some c → p c = false) :
    (l ++ rest).takeWhile p = l ∧ (l ++ rest).dropWhile p = rest := by
  have hRest : rest.takeWhile p = [] ∧ rest.dropWhile p = rest := by
    cases rest with
    | nil => exact ⟨rfl, rfl⟩
    | cons c rest =>
      have hc := hStop c rfl
      exact ⟨List.takeWhile_cons_of_neg (by rw [hc]; exact Bool.false_ne_true),
        List.dropWhile_cons_of_neg (by rw [hc]; exact Bool.false_ne_true)⟩
  rw [List.takeWhile_append_of_pos hAll, List.dropWhile_append_of_pos hAll, hRest.1, hRest.2,
    List.append_nil]
  exact ⟨rfl, rfl⟩

/-- A plain string is read back up to its closing quote. -/
theorem scanString_plain {s : String} (h : PlainString s) (rest : List Char) :
    scanString (s.toList ++ '"' :: rest) = some (s, rest) := by
  obtain ⟨hTake, hDrop⟩ := span_append (p := fun c => decide (c ≠ '"')) s.toList
    ('"' :: rest) (fun c hc => decide_eq_true (h c hc).2.2.1)
    (fun c hc => by rw [← Option.some.inj hc]; decide)
  rw [scanString, hTake, hDrop]
  simp only [String.ofList_toList]

theorem quoted_append {s : String} (h : PlainString s) (rest : List Char) :
    quoted s ++ rest = '"' :: (s.toList ++ '"' :: rest) := by
  rw [quoted_plain h]
  simp

/-- What may come after a scalar: not a digit. -/
def Stops (rest : List Char) : Prop := ∀ c, rest.head? = some c → c.isDigit = false

/-- A number is read back up to the first character that is no digit. -/
theorem scanNumber_print (n : Nat) {rest : List Char} (hStop : Stops rest) :
    scanNumber (Nat.toDigits 10 n ++ rest) = some (.num n, rest) := by
  obtain ⟨hTake, hDrop⟩ := span_append (p := Char.isDigit) (Nat.toDigits 10 n) rest
    (fun c hc => Nat.isDigit_of_mem_toDigits (by decide) (by decide) hc) hStop
  rw [scanNumber, hTake, hDrop, if_neg Nat.toDigits_ne_nil, Nat.ofDigitChars_ten_toDigits]

/-- What begins with a digit is read as a number. -/
theorem scanScalar_number {cs : List Char} {c : Char} (hc : cs.head? = some c)
    (hDigit : c.isDigit = true) : scanScalar cs = scanNumber cs := by
  unfold scanScalar
  split
  · cases hc
    exact absurd hDigit (by decide)
  · cases hc
    exact absurd hDigit (by decide)
  · cases hc
    exact absurd hDigit (by decide)
  · cases hc
    exact absurd hDigit (by decide)
  · rfl

/-- **Round trip of a value.** What a scalar is printed as reads as that scalar. -/
theorem scanScalar_print {v : Scalar} (h : PlainScalar v) {rest : List Char} (hStop : Stops rest) :
    scanScalar (printScalar v ++ rest) = some (v, rest) := by
  cases v with
  | null => rfl
  | bool b => cases b <;> rfl
  | num n =>
    obtain ⟨c, hc⟩ : ∃ c, (Nat.toDigits 10 n).head? = some c := by
      cases hDigits : Nat.toDigits 10 n with
      | nil => exact absurd hDigits Nat.toDigits_ne_nil
      | cons c rest => exact ⟨c, rfl⟩
    have hDigit := Nat.isDigit_of_mem_toDigits (b := 10) (n := n) (by decide) (by decide)
      (List.mem_of_mem_head? hc)
    have hHead : (Nat.toDigits 10 n ++ rest).head? = some c := by
      rw [List.head?_append, hc]
      rfl
    rw [printScalar, scanScalar_number hHead hDigit, scanNumber_print n hStop]
  | str s =>
    rw [printScalar, quoted_append h, scanScalar, scanString_plain h]
    rfl

/-- A printed field reads as that field: its key, the colon and its value. -/
theorem scanField_print {f : Field} (h : PlainField f) {rest : List Char} (hStop : Stops rest) :
    scanField (printField f ++ rest) = some (f, rest) := by
  rw [printField, List.append_assoc, quoted_append h.1, List.cons_append, scanField,
    scanString_plain h.1]
  simp only
  rw [scanScalar_print h.2 hStop]
  rfl

/-- After a field there is a comma or the closing brace, where every scalar stops. -/
theorem stops_printRest (fs : List Field) (rest : List Char) : Stops (printRest fs ++ rest) := by
  intro c hc
  cases fs with
  | nil =>
    rw [← Option.some.inj hc]
    decide
  | cons f fs =>
    rw [← Option.some.inj hc]
    decide

/-- The fields are read back one by one; the fuel is the number of fields and one more. -/
theorem scanRest_print {fs : List Field} (h : ∀ f ∈ fs, PlainField f) (rest : List Char)
    {fuel : Nat} (hFuel : fs.length < fuel) :
    scanRest fuel (printRest fs ++ rest) = some (fs, rest) := by
  induction fs generalizing fuel with
  | nil =>
    obtain ⟨fuel, rfl⟩ := Nat.exists_eq_succ_of_ne_zero (Nat.ne_of_gt hFuel)
    rfl
  | cons f fs ih =>
    obtain ⟨fuel, rfl⟩ := Nat.exists_eq_succ_of_ne_zero (Nat.ne_of_gt (Nat.zero_lt_of_lt hFuel))
    rw [printRest, List.cons_append, List.append_assoc, scanRest,
      scanField_print (h f (List.mem_cons_self ..)) (stops_printRest fs rest)]
    simp only
    rw [ih (fun g hg => h g (List.mem_cons_of_mem _ hg)) (Nat.lt_of_succ_lt_succ hFuel)]
    rfl

/-- A text is longer than the number of its fields, so its length is enough fuel. -/
theorem length_le_printRest (fs : List Field) : fs.length < (printRest fs).length := by
  induction fs with
  | nil => exact Nat.zero_lt_one
  | cons f fs ih =>
    rw [printRest, List.length_cons, List.length_cons, List.length_append]
    omega

/-- **Round trip.** The reader gives back the members of what is printed. -/
theorem scanObject_print {fs : List Field} (h : ∀ f ∈ fs, PlainField f) {blanks : List Char}
    (hBlanks : blanks.all Char.isWhitespace = true) :
    scanObject (printObject fs ++ blanks) = some fs := by
  have hMembers : scanMembers (printObject fs ++ blanks) = some (fs, blanks) := by
    cases fs with
    | nil => rfl
    | cons f fs =>
      have hField := scanField_print (h f (List.mem_cons_self ..)) (stops_printRest fs blanks)
      have hFuel : fs.length < (printRest fs ++ blanks).length := by
        have := length_le_printRest fs
        rw [List.length_append]
        omega
      have hRest := scanRest_print (fun g hg => h g (List.mem_cons_of_mem _ hg)) blanks hFuel
      rw [printObject, List.cons_append, List.append_assoc, scanMembers]
      · rw [hField]
        simp only
        rw [hRest]
        rfl
      · intro rest hEq
        rw [printField, List.append_assoc, quoted_append (h f (List.mem_cons_self ..)).1] at hEq
        cases hEq
  rw [scanObject, hMembers]
  simp only [hBlanks, if_true]

end EphMemory.Lib
