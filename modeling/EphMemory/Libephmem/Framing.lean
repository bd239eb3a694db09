import Mathlib

/-!
# Libephmem — framing

How `libephmem_send` and `libephmem_recv` move messages over the socket. The
kernel decides how many bytes each `send` and each `recv` moves, and interrupts
them as it likes; what arrives depends on neither.

* `libephmemRecv`, `libephmemSend` — the loops, one round of the kernel's
  answers at a time; a write past the buffer is an outcome of its own;
* `libephmemRecv_framed` — what the receive loop leaves, by the prefix of the
  stream it has read;
* `libephmemSend_prefix` — what the send loop has put on the wire;
* `framing_independent_of_chunking` — both, for every schedule.
-/

namespace EphMemory.Libephmem

abbrev Byte := UInt8

def newline : Byte := 10

-- ---------------------------------------------------------------------------
-- libephmem_recv
-- ---------------------------------------------------------------------------

/-- What `poll` or `recv` say when nothing is left of the stream. -/
inductive StreamEnd where
  | pollFailed
  | timeout
  | unexpectedEvent
  | recvFailed
  | closed
  deriving DecidableEq, Repr

/-- What the loop returns then. -/
def StreamEnd.result : StreamEnd → Int
  | .pollFailed => -1
  | .timeout => -1
  | .unexpectedEvent => -1
  | .recvFailed => -1
  | .closed => -1

/-- What the kernel does in one round of the loop. -/
inductive RecvRound where
  | pollInterrupted
  | recvInterrupted
  | got (n : Nat)
  deriving DecidableEq, Repr

/-- What `recv` gets when it asks for `remaining` bytes: at least one and at
most those. -/
def received (stream : List Byte) (remaining n : Nat) : List Byte :=
  stream.take (min (max n 1) remaining)

/-- Write into the buffer, none when that would leave it. -/
def write (buf : List Byte) (pos : Nat) (bytes : List Byte) : Option (List Byte) :=
  if pos + bytes.length ≤ buf.length then
    some (buf.take pos ++ bytes ++ buf.drop (pos + bytes.length))
  else none

inductive RecvOutcome where
  /-- The loop waits for the kernel. -/
  | blocked
  | overrun
  | returned (ret : Int) (buf : List Byte)
  deriving DecidableEq, Repr

def libephmemRecv (bufSize : Nat) (streamEnd : StreamEnd) :
    List RecvRound → List Byte → List Byte → Nat → RecvOutcome
  | [], _, buf, total => if total < bufSize - 1 then .blocked else .returned (-1) buf
  | round :: rounds, stream, buf, total =>
    if total < bufSize - 1 then
      match round with
      | .pollInterrupted => libephmemRecv bufSize streamEnd rounds stream buf total
      | .recvInterrupted => libephmemRecv bufSize streamEnd rounds stream buf total
      | .got n =>
        if stream = [] then .returned streamEnd.result buf
        else
          let bytes := received stream (bufSize - 1 - total) n
          match write buf total bytes with
          | none => .overrun
          | some buf =>
            match bytes.findIdx? (fun b => decide (b = newline)) with
            | some i =>
              match write buf (total + i) [0] with
              | none => .overrun
              | some buf => .returned 0 buf
            | none =>
              libephmemRecv bufSize streamEnd rounds (stream.drop bytes.length) buf
                (total + bytes.length)
    else .returned (-1) buf

-- ---------------------------------------------------------------------------
-- libephmem_send
-- ---------------------------------------------------------------------------

inductive SendRound where
  | interrupted
  | failed
  | sent (n : Nat)
  deriving DecidableEq, Repr

/-- The send loop, with the bytes on the wire so far; no result while it waits
for the kernel. -/
def libephmemSend (req : List Byte) :
    List SendRound → Nat → Nat → List Byte → Option Int × List Byte
  | [], toSend, _, wire => (if toSend = 0 then some 0 else none, wire)
  | round :: rounds, toSend, total, wire =>
    if toSend = 0 then (some 0, wire)
    else
      match round with
      | .interrupted => libephmemSend req rounds toSend total wire
      | .failed => (some (-1), wire)
      | .sent n =>
        let sent := min n toSend
        libephmemSend req rounds (toSend - sent) (total + sent)
          (wire ++ (req.drop total).take sent)

-- ---------------------------------------------------------------------------
-- The buffer
-- ---------------------------------------------------------------------------

/-- What is written where it fits is read back, and nothing before it changes. -/
theorem write_fits {buf bytes : List Byte} {pos : Nat} (h : pos + bytes.length ≤ buf.length) :
    ∃ buf', write buf pos bytes = some buf' ∧ buf'.length = buf.length ∧
      buf'.take (pos + bytes.length) = buf.take pos ++ bytes := by
  have hPos : (buf.take pos).length = pos := List.length_take_of_le (by omega)
  refine ⟨_, if_pos h, ?_, ?_⟩
  · simp only [List.length_append, List.length_drop, hPos]
    omega
  · have hLength : pos + bytes.length = (buf.take pos ++ bytes).length := by
      rw [List.length_append, hPos]
    rw [hLength, List.take_left]

/-- The newline search finds the first one. -/
theorem findIdx?_newline {bytes : List Byte} {i : Nat}
    (h : bytes.findIdx? (fun b => decide (b = newline)) = some i) :
    ∃ rest, bytes = bytes.take i ++ newline :: rest ∧ newline ∉ bytes.take i ∧ i < bytes.length := by
  obtain ⟨hLt, hAt, hBefore⟩ := List.findIdx?_eq_some_iff_getElem.mp h
  have hEq : bytes[i] = newline := of_decide_eq_true hAt
  refine ⟨bytes.drop (i + 1), ?_, fun hMem => ?_, hLt⟩
  · rw [← hEq, List.getElem_cons_drop, List.take_append_drop]
  · obtain ⟨j, hj, hEq'⟩ := List.getElem_of_mem hMem
    rw [List.length_take] at hj
    rw [List.getElem_take] at hEq'
    exact hBefore j (by omega) (decide_eq_true hEq')

-- ---------------------------------------------------------------------------
-- What the loops leave
-- ---------------------------------------------------------------------------

/-- The first line of the stream is in the buffer, or there is none among the
bytes that fit. -/
def Framed (bufSize : Nat) (stream : List Byte) (ret : Int) (buf : List Byte) : Prop :=
  (ret = 0 ∧ ∃ line rest, stream = line ++ newline :: rest ∧ newline ∉ line ∧
    line.length < bufSize - 1 ∧ buf.take (line.length + 1) = line ++ [0]) ∨
  (ret = -1 ∧ newline ∉ stream.take (bufSize - 1))

/-- From a round in which `pre` is in the buffer and holds no newline. -/
theorem libephmemRecv_framed {bufSize : Nat} (streamEnd : StreamEnd) (rounds : List RecvRound) :
    ∀ (stream pre buf : List Byte), buf.length = bufSize → pre.length ≤ bufSize - 1 →
      buf.take pre.length = pre → newline ∉ pre →
      match libephmemRecv bufSize streamEnd rounds stream buf pre.length with
      | .blocked => True
      | .overrun => False
      | .returned ret buf' => buf'.length = bufSize ∧ Framed bufSize (pre ++ stream) ret buf' := by
  -- the buffer is full, and what is in it holds no newline
  have hFull : ∀ stream pre : List Byte, pre.length ≤ bufSize - 1 → ¬ pre.length < bufSize - 1 →
      newline ∉ pre → newline ∉ (pre ++ stream).take (bufSize - 1) := by
    intro stream pre hRoom hLt hNone
    have hEq : bufSize - 1 = pre.length := by omega
    rw [hEq, List.take_left]
    exact hNone
  induction rounds with
  | nil =>
    intro stream pre buf hSize hRoom hBuf hNone
    by_cases hLt : pre.length < bufSize - 1
    · simp only [libephmemRecv, if_pos hLt]
    · simp only [libephmemRecv, if_neg hLt]
      exact ⟨hSize, Or.inr ⟨rfl, hFull stream pre hRoom hLt hNone⟩⟩
  | cons round rounds ih =>
    intro stream pre buf hSize hRoom hBuf hNone
    by_cases hLt : pre.length < bufSize - 1
    · cases round with
      | pollInterrupted =>
        simp only [libephmemRecv, if_pos hLt]
        exact ih stream pre buf hSize hRoom hBuf hNone
      | recvInterrupted =>
        simp only [libephmemRecv, if_pos hLt]
        exact ih stream pre buf hSize hRoom hBuf hNone
      | got n =>
        simp only [libephmemRecv, if_pos hLt]
        by_cases hEmpty : stream = []
        · -- the stream has ended
          subst hEmpty
          rw [if_pos rfl, List.append_nil]
          refine ⟨hSize, Or.inr ⟨by cases streamEnd <;> rfl, fun hMem => ?_⟩⟩
          exact hNone (List.mem_of_mem_take hMem)
        · rw [if_neg hEmpty]
          generalize hBytes : received stream (bufSize - 1 - pre.length) n = bytes
          have hSplit : bytes ++ stream.drop bytes.length = stream := by
            obtain ⟨rest, hRest⟩ : bytes <+: stream := hBytes ▸ List.take_prefix _ _
            rw [← hRest, List.drop_left]
          have hFits : bytes.length ≤ bufSize - 1 - pre.length := by
            rw [← hBytes, received, List.length_take]
            omega
          have hInside : pre.length + bytes.length ≤ buf.length := by omega
          obtain ⟨buf', hWrite, hSize', hBuf'⟩ := write_fits hInside
          rw [hBuf] at hBuf'
          rw [hWrite]
          simp only
          cases hFind : bytes.findIdx? (fun b => decide (b = newline)) with
          | some i =>
            obtain ⟨rest, hCut, hFirst, hi⟩ := findIdx?_newline hFind
            have hLine : (pre ++ bytes.take i).length = pre.length + i := by
              rw [List.length_append, List.length_take_of_le (Nat.le_of_lt hi)]
            have hInside' : pre.length + i + [(0 : Byte)].length ≤ buf'.length := by
              rw [List.length_singleton]
              omega
            obtain ⟨buf'', hEnd, hSize'', hBuf''⟩ := write_fits hInside'
            simp only [hEnd]
            refine ⟨by rw [hSize'', hSize', hSize], Or.inl ⟨rfl, pre ++ bytes.take i,
              rest ++ stream.drop bytes.length, ?_, ?_, by omega, ?_⟩⟩
            · calc pre ++ stream = pre ++ (bytes ++ stream.drop bytes.length) := by rw [hSplit]
                _ = pre ++ ((bytes.take i ++ newline :: rest) ++ stream.drop bytes.length) := by
                  rw [← hCut]
                _ = pre ++ bytes.take i ++ newline :: (rest ++ stream.drop bytes.length) := by
                  simp only [List.append_assoc, List.cons_append]
            · rw [List.mem_append, not_or]
              exact ⟨hNone, hFirst⟩
            · have hOld : buf'.take (pre.length + i) = pre ++ bytes.take i := by
                have hTake := congrArg (List.take (pre.length + i)) hBuf'
                rw [List.take_take, Nat.min_eq_left (by omega)] at hTake
                rw [hTake, List.take_append, List.take_of_length_le (by omega),
                  Nat.add_sub_cancel_left]
              rw [hLine, ← List.length_singleton (a := (0 : Byte)), hBuf'', hOld]
          | none =>
            have hNew : newline ∉ bytes := by
              intro hMem
              have hFalse := List.findIdx?_eq_none_iff.mp hFind newline hMem
              simp at hFalse
            have hPre : (pre ++ bytes).length = pre.length + bytes.length := List.length_append
            have hNext := ih (stream.drop bytes.length) (pre ++ bytes) buf' (hSize'.trans hSize)
              (by omega) (by rw [hPre, hBuf']) (by rw [List.mem_append, not_or]; exact ⟨hNone, hNew⟩)
            rw [List.append_assoc, hSplit, hPre] at hNext
            exact hNext
    · have hOver : libephmemRecv bufSize streamEnd (round :: rounds) stream buf pre.length =
          .returned (-1) buf := by cases round <;> simp only [libephmemRecv, if_neg hLt]
      rw [hOver]
      exact ⟨hSize, Or.inr ⟨rfl, hFull stream pre hRoom hLt hNone⟩⟩

/-- The loop goes on as long as nothing has come. -/
theorem libephmemRecv_returns {bufSize : Nat} {streamEnd : StreamEnd} (rounds : List RecvRound) :
    ∀ (stream buf : List Byte) (total : Nat),
      min stream.length (bufSize - 1 - total) < rounds.countP (fun r => r matches .got _) →
      libephmemRecv bufSize streamEnd rounds stream buf total ≠ .blocked := by
  induction rounds with
  | nil =>
    intro stream buf total hMany
    cases hMany
  | cons round rounds ih =>
    intro stream buf total hMany
    by_cases hLt : total < bufSize - 1
    · cases round with
      | pollInterrupted =>
        simp only [libephmemRecv, if_pos hLt]
        exact ih stream buf total (by simpa using hMany)
      | recvInterrupted =>
        simp only [libephmemRecv, if_pos hLt]
        exact ih stream buf total (by simpa using hMany)
      | got n =>
        simp only [libephmemRecv, if_pos hLt]
        by_cases hEmpty : stream = []
        · rw [if_pos hEmpty]
          nofun
        · rw [if_neg hEmpty]
          have hSome : 0 < stream.length := List.length_pos_of_ne_nil hEmpty
          have hLength : (received stream (bufSize - 1 - total) n).length =
              min (min (max n 1) (bufSize - 1 - total)) stream.length := List.length_take
          generalize received stream (bufSize - 1 - total) n = bytes at hLength
          rw [List.countP_cons_of_pos (by rfl)] at hMany
          cases write buf total bytes with
          | none => nofun
          | some buf' =>
            cases bytes.findIdx? (fun b => decide (b = newline)) with
            | some i =>
              simp only
              cases write buf' (total + i) [0] <;> nofun
            | none =>
              refine ih _ buf' _ ?_
              rw [List.length_drop]
              omega
    · have hOver : libephmemRecv bufSize streamEnd (round :: rounds) stream buf total =
          .returned (-1) buf := by cases round <;> simp only [libephmemRecv, if_neg hLt]
      rw [hOver]
      nofun

/-- From a round in which the first `total` bytes are on the wire. -/
theorem libephmemSend_prefix (req : List Byte) (rounds : List SendRound) :
    ∀ toSend total, total + toSend = req.length →
      ∃ n, (libephmemSend req rounds toSend total (req.take total)).2 = req.take n ∧
        ((libephmemSend req rounds toSend total (req.take total)).1 = some 0 → req.take n = req) := by
  have hAll : ∀ toSend total, total + toSend = req.length → toSend = 0 → req.take total = req := by
    intro toSend total hSize hZero
    exact List.take_of_length_le (by omega)
  induction rounds with
  | nil =>
    intro toSend total hSize
    refine ⟨total, rfl, fun hRet => ?_⟩
    by_cases hZero : toSend = 0
    · exact hAll toSend total hSize hZero
    · simp only [libephmemSend, if_neg hZero] at hRet
      cases hRet
  | cons round rounds ih =>
    intro toSend total hSize
    by_cases hZero : toSend = 0
    · have hDone : libephmemSend req (round :: rounds) toSend total (req.take total) =
          (some 0, req.take total) := by cases round <;> simp only [libephmemSend, if_pos hZero]
      rw [hDone]
      exact ⟨total, rfl, fun _ => hAll toSend total hSize hZero⟩
    · cases round with
      | interrupted =>
        simp only [libephmemSend, if_neg hZero]
        exact ih toSend total hSize
      | failed =>
        simp only [libephmemSend, if_neg hZero]
        exact ⟨total, rfl, nofun⟩
      | sent n =>
        simp only [libephmemSend, if_neg hZero]
        have hTake : req.take total ++ (req.drop total).take (min n toSend) =
            req.take (total + min n toSend) := (List.take_add ..).symm
        rw [hTake]
        exact ih _ _ (by omega)

-- ---------------------------------------------------------------------------
-- Every schedule
-- ---------------------------------------------------------------------------

/-- **Framing is independent of chunking.** For every stream, every way the
kernel splits and interrupts it, and every buffer of at least two bytes, once
the kernel has answered often enough `libephmem_recv` returns; it returns 0
exactly when there is a newline among the first `bufSize - 1` bytes of the
stream, and then the buffer holds the bytes before the first one and a NUL; it
never writes outside the buffer. Whenever `libephmem_send` returns 0, the
request has been sent, once and in order. -/
theorem framing_independent_of_chunking :
    (∀ (bufSize : Nat) (buf stream : List Byte) (streamEnd : StreamEnd) (rounds : List RecvRound),
      2 ≤ bufSize → buf.length = bufSize →
        libephmemRecv bufSize streamEnd rounds stream buf 0 ≠ .overrun ∧
        (min stream.length (bufSize - 1) < rounds.countP (fun r => r matches .got _) →
          libephmemRecv bufSize streamEnd rounds stream buf 0 ≠ .blocked) ∧
        ∀ ret buf', libephmemRecv bufSize streamEnd rounds stream buf 0 = .returned ret buf' →
          buf'.length = bufSize ∧ (ret = 0 ∨ ret = -1) ∧
          (ret = 0 ↔ newline ∈ stream.take (bufSize - 1)) ∧
          (ret = 0 → ∃ line rest, stream = line ++ newline :: rest ∧ newline ∉ line ∧
            buf'.take (line.length + 1) = line ++ [0])) ∧
      ∀ (req : List Byte) (rounds : List SendRound),
        (libephmemSend req rounds req.length 0 []).2 <+: req ∧
        ((libephmemSend req rounds req.length 0 []).1 = some 0 →
          (libephmemSend req rounds req.length 0 []).2 = req) := by
  refine ⟨fun bufSize buf stream streamEnd rounds hTwo hSize => ?_, fun req rounds => ?_⟩
  · have hFramed := libephmemRecv_framed streamEnd rounds stream [] buf hSize
      (Nat.zero_le _) rfl List.not_mem_nil
    rw [List.length_nil, List.nil_append] at hFramed
    refine ⟨fun hOver => ?_, libephmemRecv_returns rounds stream buf 0, fun ret buf' hRet => ?_⟩
    · rw [hOver] at hFramed
      exact hFramed
    · rw [hRet] at hFramed
      obtain ⟨hSize', ⟨rfl, line, rest, rfl, hFirst, hFits, hBuf⟩ | ⟨rfl, hNone⟩⟩ := hFramed
      · refine ⟨hSize', Or.inl rfl, ⟨fun _ => ?_, fun _ => rfl⟩,
          fun _ => ⟨line, rest, rfl, hFirst, hBuf⟩⟩
        rw [List.mem_take_iff_getElem]
        exact ⟨line.length, by simp; omega, by simp⟩
      · exact ⟨hSize', Or.inr rfl, ⟨nofun, fun hMem => absurd hMem hNone⟩, nofun⟩
  · obtain ⟨n, hWire, hAll⟩ := libephmemSend_prefix req rounds req.length 0 (Nat.zero_add _)
    rw [List.take_zero] at hWire hAll
    refine ⟨?_, fun hRet => ?_⟩
    · rw [hWire]
      exact List.take_prefix n req
    · rw [hWire]
      exact hAll hRet

/-- "hi" and a newline in two pieces, the second after an interruption. -/
theorem framing_independent_of_chunking_demo :
    libephmemRecv 4 .closed [.got 1, .pollInterrupted, .got 5] [104, 105, newline, 33]
      [7, 7, 7, 7] 0 = .returned 0 [104, 105, 0, 7] ∧
    libephmemRecv 4 .closed [.got 1, .pollInterrupted, .got 5] [104, 105, newline, 33]
      [7, 7, 7, 7] 0 ≠ .overrun :=
  ⟨by decide, (framing_independent_of_chunking.1 4 [7, 7, 7, 7] [104, 105, newline, 33] .closed
    [.got 1, .pollInterrupted, .got 5] (by decide) rfl).1⟩

end EphMemory.Libephmem
