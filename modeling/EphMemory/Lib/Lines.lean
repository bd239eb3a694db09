import EphMemory.Lib.JsonText

/-!
# Lines of a byte stream

Text sent as UTF-8 with a line end behind each message, and the loop that reads
it back: a line of at most `limit` bytes at a time, up to the end of the
stream.

* `utf8`, `decodeUtf8` — text as bytes;
* `takeLine` — `read_line` on a reader with a cap;
* `readLines` — the loop, with what is done with a line as a parameter;
* `readLines_sent` — it gives each of the messages that were sent, in order,
  and then meets the end of the stream.
-/

namespace EphMemory.Lib

-- ---------------------------------------------------------------------------
-- Text as bytes
-- ---------------------------------------------------------------------------

def utf8 (cs : List Char) : List UInt8 := cs.flatMap String.utf8EncodeChar

def decodeUtf8 (bytes : List UInt8) : Option (List Char) :=
  bytes.toByteArray.utf8Decode?.map Array.toList

/-- Text survives UTF-8. -/
theorem decodeUtf8_utf8 (cs : List Char) : decodeUtf8 (utf8 cs) = some cs := by
  have h := List.utf8Decode?_utf8Encode (l := cs)
  rw [List.utf8Encode] at h
  rw [decodeUtf8, utf8, h]
  simp

theorem utf8_append (cs ds : List Char) : utf8 (cs ++ ds) = utf8 cs ++ utf8 ds :=
  List.flatMap_append ..

/-- The byte of the line end. -/
def lineEnd : UInt8 := 10

/-- The line break is one byte. -/
theorem utf8_newline : utf8 ['\n'] = [lineEnd] := by decide

/-- A printable character is one byte, which is not the line break. -/
theorem utf8_printable {c : Char} (h : Printable c) :
    ∃ b, String.utf8EncodeChar c = [b] ∧ b ≠ lineEnd := by
  obtain ⟨hLow, hHigh⟩ := h
  have hVal : c.val.toNat = c.toNat := rfl
  refine ⟨c.val.toUInt8, ?_, fun hEq => ?_⟩
  · refine String.utf8EncodeChar_eq_singleton ?_
    have hOne : c.val ≤ 127 := UInt32.le_iff_toNat_le.mpr (Nat.le_of_lt hHigh)
    rw [Char.utf8Size]
    exact if_pos hOne
  · have hNat := congrArg UInt8.toNat hEq
    rw [UInt32.toNat_toUInt8, hVal] at hNat
    have hTen : lineEnd.toNat = 10 := rfl
    omega

/-- Printable text is one byte a character and has no line end. -/
theorem utf8_plain {cs : List Char} (h : PrintableText cs) :
    (utf8 cs).length = cs.length ∧ lineEnd ∉ utf8 cs := by
  induction cs with
  | nil => exact ⟨rfl, List.not_mem_nil⟩
  | cons c rest ih =>
    obtain ⟨b, hb, hNe⟩ := utf8_printable (h c (List.mem_cons_self ..))
    obtain ⟨hLength, hNot⟩ := ih fun d hd => h d (List.mem_cons_of_mem _ hd)
    have hUtf8 : utf8 (c :: rest) = b :: utf8 rest := by
      rw [utf8, List.flatMap_cons, hb]
      rfl
    rw [hUtf8]
    refine ⟨by rw [List.length_cons, List.length_cons, hLength], fun hMem => ?_⟩
    rcases List.mem_cons.mp hMem with hEq | hMem
    · exact hNe hEq.symm
    · exact hNot hMem

-- ---------------------------------------------------------------------------
-- One line
-- ---------------------------------------------------------------------------

/-- The bytes up to the first line end, at most `limit` of them, and the rest of
the stream. -/
def takeLine : Nat → List UInt8 → List UInt8 × List UInt8
  | 0, stream => ([], stream)
  | _ + 1, [] => ([], [])
  | limit + 1, b :: stream =>
    if b = lineEnd then ([b], stream)
    else (b :: (takeLine limit stream).1, (takeLine limit stream).2)

/-- Taking a line loses nothing. -/
theorem takeLine_append (limit : Nat) (stream : List UInt8) :
    (takeLine limit stream).1 ++ (takeLine limit stream).2 = stream := by
  induction limit generalizing stream with
  | zero => rfl
  | succ limit ih =>
    cases stream with
    | nil => rfl
    | cons b stream =>
      rw [takeLine]
      split
      · rfl
      · rw [List.cons_append, ih]

theorem length_takeLine_lt {limit : Nat} {stream : List UInt8}
    (h : (takeLine limit stream).1 ≠ []) : (takeLine limit stream).2.length < stream.length := by
  have hLength := congrArg List.length (takeLine_append limit stream)
  have hPos := List.length_pos_of_ne_nil h
  rw [List.length_append] at hLength
  omega

/-- A line that fits is taken whole, with its line break. -/
theorem takeLine_line {limit : Nat} {line : List UInt8} (hNot : lineEnd ∉ line)
    (hFits : line.length < limit) (rest : List UInt8) :
    takeLine limit (line ++ lineEnd :: rest) = (line ++ [lineEnd], rest) := by
  induction line generalizing limit with
  | nil =>
    obtain ⟨limit, rfl⟩ := Nat.exists_eq_succ_of_ne_zero (Nat.ne_of_gt hFits)
    rw [List.nil_append, takeLine, if_pos rfl]
    rfl
  | cons b line ih =>
    obtain ⟨limit, rfl⟩ := Nat.exists_eq_succ_of_ne_zero (Nat.ne_of_gt (Nat.zero_lt_of_lt hFits))
    have hb : b ≠ lineEnd := fun hEq => hNot (hEq ▸ List.mem_cons_self ..)
    have hRest := ih (fun hMem => hNot (List.mem_cons_of_mem _ hMem))
      (Nat.lt_of_succ_lt_succ hFits)
    rw [List.cons_append, takeLine, if_neg hb, hRest]
    rfl

-- ---------------------------------------------------------------------------
-- The loop
-- ---------------------------------------------------------------------------

/-- What is done with a line: nothing, something, or the loop stops. -/
inductive Handled (α ε : Type) where
  | skip
  | take (a : α)
  | stop (e : ε)

section Loop

variable {α ε : Type}

/-- What was taken, and how the loop ended: none at the end of the stream.
`cut` tells the end after a line without its line end, given its bytes, `bad`
after one that is not UTF-8. -/
def readLines (limit : Nat) (handle : List Char → Handled α ε) (cut : Nat → ε) (bad : ε)
    (stream : List UInt8) : List α × Option ε :=
  if h : (takeLine limit stream).1 = [] then ([], none)
  else
    have : (takeLine limit stream).2.length < stream.length := length_takeLine_lt h
    match decodeUtf8 (takeLine limit stream).1 with
    | none => ([], some bad)
    | some line =>
      if line.getLast? = some '\n' then
        match handle line with
        | .skip => readLines limit handle cut bad (takeLine limit stream).2
        | .take a =>
          (a :: (readLines limit handle cut bad (takeLine limit stream).2).1,
            (readLines limit handle cut bad (takeLine limit stream).2).2)
        | .stop e => ([], some e)
      else ([], some (cut (takeLine limit stream).1.length))
termination_by stream.length

/-- A message on the wire. -/
def sent (text : List Char) : List UInt8 := utf8 (text ++ ['\n'])

variable {limit : Nat} {handle : List Char → Handled α ε} {cut : Nat → ε} {bad : ε}

/-- At the end of the stream there are no more lines. -/
theorem readLines_end : readLines limit handle cut bad [] = ([], none) := by
  have hNil : (takeLine limit []).1 = [] := by cases limit <;> rfl
  rw [readLines, dif_pos hNil]

/-- **One line.** A printed text at the head of the stream is handled, and
reading goes on behind it. -/
theorem readLines_cons {text : List Char} {a : α} (hText : PrintableText text)
    (hFits : text.length < limit) (hTake : handle (text ++ ['\n']) = .take a)
    (rest : List UInt8) :
    readLines limit handle cut bad (sent text ++ rest) =
      (a :: (readLines limit handle cut bad rest).1, (readLines limit handle cut bad rest).2) := by
  obtain ⟨hLength, hNot⟩ := utf8_plain hText
  have hSent : sent text = utf8 text ++ [lineEnd] := by
    rw [sent, utf8_append, utf8_newline]
  have hLine : takeLine limit (sent text ++ rest) = (sent text, rest) := by
    rw [hSent, List.append_assoc, List.singleton_append, takeLine_line hNot (by omega)]
  have hSome : sent text ≠ [] := by
    rw [hSent]
    exact List.append_ne_nil_of_right_ne_nil _ (List.cons_ne_nil _ _)
  have hDecode : decodeUtf8 (sent text) = some (text ++ ['\n']) := decodeUtf8_utf8 _
  have hLast : (text ++ ['\n']).getLast? = some '\n' := List.getLast?_concat
  have hSome' : (takeLine limit (sent text ++ rest)).1 ≠ [] := by rw [hLine]; exact hSome
  rw [readLines, dif_neg hSome']
  simp only [hLine, hDecode, hLast, if_true, hTake]

/-- **Framing.** Printable messages that fit are read back one by one. -/
theorem readLines_sent {μ : Type} {text : μ → List Char} {got : μ → α} {msgs : List μ}
    (hText : ∀ m ∈ msgs, PrintableText (text m) ∧ (text m).length < limit ∧
      handle (text m ++ ['\n']) = .take (got m)) :
    readLines limit handle cut bad (msgs.flatMap fun m => sent (text m)) =
      (msgs.map got, none) := by
  induction msgs with
  | nil => exact readLines_end
  | cons m rest ih =>
    obtain ⟨hPlain, hFits, hTake⟩ := hText m (List.mem_cons_self ..)
    rw [List.flatMap_cons, readLines_cons hPlain hFits hTake,
      ih fun m' hm' => hText m' (List.mem_cons_of_mem _ hm')]
    rfl

end Loop

end EphMemory.Lib
