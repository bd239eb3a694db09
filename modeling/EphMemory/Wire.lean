import EphMemory.Lib.Lines
import EphMemory.Lib.OrdMap
import EphMemory.Libephmem.Reserve

/-!
# The wire format

How commands become lines of JSON on a socket and commands again. Three
programs print them: the orchestrator from the fields of the struct
(`ConsumerCommand.send`), the daemon from a JSON value, whose members are in
key order (`Connection.send`), and libephmem from an object of its own. Two
loops read them, `consumer_thread` and `read_loop`, each with a cap on the
length of a line.

The JSON reader of `serde_json` is the parameter `parse`; what it has to do is
to read what is printed.

* `fromFields_fields`, `fromValue_toValue` — the derived decoders undo the
  derived encoder;
* `printable_toJson`, `length_toJson` — a command is one short line;
* `wire_round_trip` — every sequence of commands arrives as it was sent.
-/

namespace EphMemory

open EphMemory.Lib

-- ---------------------------------------------------------------------------
-- Encoding
-- ---------------------------------------------------------------------------

/-- The names `rename_all = "kebab-case"` gives the variants. -/
def ConsumerFunction.name : ConsumerFunction → String
  | .ephMemRequest => "eph-mem-request"
  | .ephMemResponse => "eph-mem-response"

def ConsumerFunction.ofName? (s : String) : Option ConsumerFunction :=
  if s = "eph-mem-request" then some .ephMemRequest
  else if s = "eph-mem-response" then some .ephMemResponse
  else none

/-- A member, left out when it is none. -/
def member {α : Type} (key : String) (f : α → Scalar) : Option α → List Field
  | none => []
  | some a => [(key, f a)]

/-- `serde_json::Value`, of an object: its members in key order. -/
abbrev Value := OrdMap String Scalar

def Value.ofFields (fs : List Field) : Value := OrdMap.empty.insertAll fs

namespace ConsumerCommand

/-- The members of the derived `Serialize`, in the order of the struct. -/
def fields (cmd : ConsumerCommand) : List Field :=
  ("function", .str cmd.function.name) ::
    (member "size" .num cmd.size ++ member "offset" .num cmd.offset ++
      member "id" .num cmd.id ++ member "more" .bool cmd.more)

def toJson (cmd : ConsumerCommand) : List Char := printObject cmd.fields

def send (cmd : ConsumerCommand) : List UInt8 := sent cmd.toJson

/-- `serde_json::to_value`. -/
def toValue (cmd : ConsumerCommand) : Value := .ofFields cmd.fields

end ConsumerCommand

/-- `Display` of a value. -/
def Value.print (v : Value) : List Char := printObject v.entries

/-- `Connection::send`. -/
def connectionSend (v : Value) : List UInt8 := sent v.print

/-- The request of `libephmem_reserve`; `nlohmann::json` keeps the members in
key order too. -/
def Libephmem.requestObject (amount : BitVec 64) : Value :=
  .ofFields [("function", .str "eph-mem-request"), ("size", .num amount.toNat)]

-- ---------------------------------------------------------------------------
-- Decoding
-- ---------------------------------------------------------------------------

/-- An `Option<u64>` of the derived `Deserialize`: the outer none is an error. -/
def asU64 : Option Scalar → Option (Option Nat)
  | none => some none
  | some .null => some none
  | some (.num n) => if n < 2 ^ 64 then some (some n) else none
  | some _ => none

def asBool : Option Scalar → Option (Option Bool)
  | none => some none
  | some .null => some none
  | some (.bool b) => some (some b)
  | some _ => none

def asFunction : Option Scalar → Option ConsumerFunction
  | some (.str s) => ConsumerFunction.ofName? s
  | _ => none

namespace ConsumerCommand

/-- The derived `Deserialize`, given the member of each name. -/
def decode (get : String → Option Scalar) : Option ConsumerCommand :=
  match asFunction (get "function"), asU64 (get "size"), asU64 (get "offset"), asU64 (get "id"),
    asBool (get "more") with
  | some function, some size, some offset, some id, some more =>
    some ⟨function, size, offset, id, more⟩
  | _, _, _, _, _ => none

/-- The names of the struct's fields. -/
def names : List String := ["function", "size", "offset", "id", "more"]

/-- From the members of an object: a field that is there twice is an error. -/
def fromFields (fs : List Field) : Option ConsumerCommand :=
  if ((fs.map Prod.fst).filter fun key => decide (key ∈ names)).Nodup then
    decode fun key => fs.lookup key
  else none

/-- `serde_json::from_value`. -/
def fromValue (v : Value) : Option ConsumerCommand := decode v.get?

end ConsumerCommand

-- ---------------------------------------------------------------------------
-- The loops
-- ---------------------------------------------------------------------------

/-- `MAX_LINE_LEN` of the orchestrator, `MAX_LINE_LENGTH` of the daemon. -/
def maxLineLength : Nat := 4096

/-- Why `consumer_thread` closes the connection. -/
inductive ThreadEnd where
  /-- A line longer than the cap, or a last line without its end. -/
  | unterminated
  | readError
  deriving DecidableEq, Repr

/-- Why `read_loop` returns an error. -/
inductive LoopError where
  | invalidJson
  | exceedsMaximumLength
  | closedBeforeEnd
  | readError
  deriving DecidableEq, Repr

/-- The whitespace `str::trim` removes. -/
def isWhitespace (c : Char) : Bool :=
  decide ((9 ≤ c.toNat ∧ c.toNat ≤ 13) ∨ c.toNat ∈
    [32, 0x85, 0xa0, 0x1680, 0x2000, 0x2001, 0x2002, 0x2003, 0x2004, 0x2005, 0x2006, 0x2007,
      0x2008, 0x2009, 0x200a, 0x2028, 0x2029, 0x202f, 0x205f, 0x3000])

section Loops

variable (parse : List Char → Option (List Field))

/-- `ConsumerCommand::from_str`. -/
def ConsumerCommand.fromStr (line : List Char) : Option ConsumerCommand :=
  match parse line with
  | none => none
  | some fs => ConsumerCommand.fromFields fs

/-- The loop of `consumer_thread`: for each line the command it dispatches, none
when the line does not parse, which it reports and passes over. -/
def consumerThread : List UInt8 → List (Option ConsumerCommand) × Option ThreadEnd :=
  readLines maxLineLength (fun line => .take (ConsumerCommand.fromStr parse line))
    (fun _ => .unterminated) .readError

/-- One line of `read_loop`. -/
def readLoopLine (line : List Char) : Handled Value LoopError :=
  if line.all isWhitespace then .skip
  else
    match parse line with
    | none => .stop .invalidJson
    | some fs => .take (.ofFields fs)

/-- `read_loop`: the values it hands to the message handler. -/
def readLoop : List UInt8 → List Value × Option LoopError :=
  readLines maxLineLength (readLoopLine parse)
    (fun len => if len = maxLineLength then .exceedsMaximumLength else .closedBeforeEnd)
    .readError

end Loops

-- ---------------------------------------------------------------------------
-- Decoding what was encoded
-- ---------------------------------------------------------------------------

/-- The numbers of a command are `u64`s. -/
structure ConsumerCommand.Fits (cmd : ConsumerCommand) : Prop where
  size : ∀ n, cmd.size = some n → n < 2 ^ 64
  offset : ∀ n, cmd.offset = some n → n < 2 ^ 64
  id : ∀ n, cmd.id = some n → n < 2 ^ 64

/-- The name of a function names that function. -/
theorem ConsumerFunction.ofName?_name (f : ConsumerFunction) : ofName? f.name = some f := by
  cases f <;> decide

/-- A number below `2^64` reads as itself, and a member that is absent as absent. -/
theorem asU64_num {n : Option Nat} (h : ∀ m, n = some m → m < 2 ^ 64) :
    asU64 (n.map .num) = some n := by
  cases n with
  | none => rfl
  | some m => exact if_pos (h m rfl)

/-- A boolean reads as itself. -/
theorem asBool_bool (b : Option Bool) : asBool (b.map .bool) = some b := by
  cases b <;> rfl

namespace ConsumerCommand

variable {cmd : ConsumerCommand}

/-- A reader that finds the members of a command. -/
structure Describes (get : String → Option Scalar) (cmd : ConsumerCommand) : Prop where
  function : get "function" = some (.str cmd.function.name)
  size : get "size" = cmd.size.map .num
  offset : get "offset" = cmd.offset.map .num
  id : get "id" = cmd.id.map .num
  more : get "more" = cmd.more.map .bool

/-- Members that describe a command decode to it. -/
theorem Describes.decode {get : String → Option Scalar} (h : Describes get cmd)
    (hFits : cmd.Fits) : decode get = some cmd := by
  have hName : asFunction (some (.str cmd.function.name)) = some cmd.function :=
    ConsumerFunction.ofName?_name cmd.function
  unfold ConsumerCommand.decode
  rw [h.function, h.size, h.offset, h.id, h.more, hName, asU64_num hFits.size,
    asU64_num hFits.offset, asU64_num hFits.id, asBool_bool]

theorem lookup_member {α : Type} {key : String} {f : α → Scalar} {o : Option α} (k : String) :
    (member key f o).lookup k = if k = key then o.map f else none := by
  cases o with
  | none =>
    rw [member, List.lookup_nil]
    split <;> rfl
  | some a =>
    rw [member, List.lookup_cons]
    by_cases hk : k = key
    · rw [if_pos hk, beq_iff_eq.mpr hk]
      rfl
    · rw [if_neg hk, beq_eq_false_iff_ne.mpr hk]
      rfl

/-- The members that are printed describe the command. -/
theorem describes_fields (cmd : ConsumerCommand) :
    Describes (fun key => cmd.fields.lookup key) cmd := by
  have hRest : ∀ key, key ≠ "function" → cmd.fields.lookup key =
      (member "size" Scalar.num cmd.size ++ member "offset" .num cmd.offset ++
        member "id" .num cmd.id ++ member "more" .bool cmd.more).lookup key := by
    intro key hKey
    rw [fields, List.lookup_cons, beq_eq_false_iff_ne.mpr hKey]
  constructor
  · rfl
  · simp only [hRest "size" (by decide), List.lookup_append, lookup_member]
    simp
  · simp only [hRest "offset" (by decide), List.lookup_append, lookup_member]
    simp
  · simp only [hRest "id" (by decide), List.lookup_append, lookup_member]
    simp
  · simp only [hRest "more" (by decide), List.lookup_append, lookup_member]
    simp

theorem keys_member {α : Type} {key : String} {f : α → Scalar} (o : Option α) :
    ((member key f o).map Prod.fst).Sublist [key] := by
  cases o with
  | none => exact List.nil_sublist _
  | some a => exact List.Sublist.refl _

/-- The members come in the order of the struct, so no key comes twice. -/
theorem keys_fields (cmd : ConsumerCommand) : (cmd.fields.map Prod.fst).Sublist names := by
  have h : (cmd.fields.map Prod.fst).Sublist
      ("function" :: (["size"] ++ ["offset"] ++ ["id"] ++ ["more"])) := by
    simp only [fields, List.map_cons, List.map_append]
    exact ((((keys_member _).append (keys_member _)).append (keys_member _)).append
      (keys_member _)).cons_cons _
  exact h

-- ---------------------------------------------------------------------------
-- A command in a line
-- ---------------------------------------------------------------------------

/-- A member that prints as plain text of at most 32 characters. -/
structure Short (f : Field) : Prop where
  plain : PlainField f
  u64 : ∀ n, f.2 = .num n → n < 2 ^ 64
  length : (printField f).length ≤ 32

theorem length_quoted {s : String} (h : PlainString s) :
    (quoted s).length = s.toList.length + 2 := by
  rw [quoted_plain h]
  simp

/-- A number below `2^64` has at most 20 digits, which leaves room for its key. -/
theorem short_num {key : String} (hKey : PlainString key) (hLength : key.toList.length ≤ 8)
    {n : Nat} (hn : n < 2 ^ 64) : Short (key, .num n) := by
  refine ⟨⟨hKey, trivial⟩, fun m hm => by cases hm; exact hn, ?_⟩
  have hDigits : (Nat.toDigits 10 n).length ≤ 20 :=
    (Nat.length_toDigits_le_iff (by decide) (by decide)).mpr (by omega)
  rw [printField, List.length_append, List.length_cons, length_quoted hKey]
  simp only [printScalar]
  omega

/-- Every member of a command that fits is short. -/
theorem short_fields (hFits : cmd.Fits) : ∀ f ∈ cmd.fields, Short f := by
  have hNum : ∀ {key : String} {o : Option Nat}, PlainString key → key.toList.length ≤ 8 →
      (∀ n, o = some n → n < 2 ^ 64) → ∀ f ∈ member key .num o, Short f := by
    intro key o hKey hLength ho f hf
    cases o with
    | none => cases hf
    | some n =>
      rw [List.mem_singleton.mp hf]
      exact short_num hKey hLength (ho n rfl)
  intro f hf
  rcases List.mem_cons.mp hf with rfl | hf
  · cases cmd.function with
    | ephMemRequest =>
      exact ⟨⟨by decide, (by decide : PlainString "eph-mem-request")⟩, fun _ h => (nomatch h),
        by decide⟩
    | ephMemResponse =>
      exact ⟨⟨by decide, (by decide : PlainString "eph-mem-response")⟩, fun _ h => (nomatch h),
        by decide⟩
  · rcases List.mem_append.mp hf with hf | hf
    · rcases List.mem_append.mp hf with hf | hf
      · rcases List.mem_append.mp hf with hf | hf
        · exact hNum (by decide) (by decide) hFits.size f hf
        · exact hNum (by decide) (by decide) hFits.offset f hf
      · exact hNum (by decide) (by decide) hFits.id f hf
    · cases hMore : cmd.more with
      | none =>
        rw [hMore] at hf
        cases hf
      | some b =>
        rw [hMore] at hf
        rw [List.mem_singleton.mp hf]
        refine ⟨⟨(by decide : PlainString "more"), trivial⟩, fun _ h => (nomatch h), ?_⟩
        cases b <;> decide

/-- The members of an object that stand for a command, in whatever order. -/
structure Encodes (fs : List Field) (cmd : ConsumerCommand) : Prop where
  nodup : (fs.map Prod.fst).Nodup
  describes : Describes (fun key => fs.lookup key) cmd
  short : ∀ f ∈ fs, Short f
  few : fs.length ≤ 5

/-- The members in the order of the struct encode the command. -/
theorem encodes_fields (hFits : cmd.Fits) : Encodes cmd.fields cmd where
  nodup := (keys_fields cmd).nodup (by decide)
  describes := describes_fields cmd
  short := short_fields hFits
  few := by
    have h := (keys_fields cmd).length_le
    rw [List.length_map] at h
    exact h

/-- A JSON object has a value under the keys of its entries. -/
theorem lookup_entries (v : Value) (key : String) : v.entries.lookup key = v.get? key := by
  obtain ⟨l, hl⟩ := v
  rw [OrdMap.get?]
  induction l with
  | nil => rfl
  | cons e rest ih =>
    obtain ⟨k, a⟩ := e
    rw [List.lookup_cons, List.find?_cons]
    by_cases hk : key = k
    · rw [beq_iff_eq.mpr hk, decide_eq_true hk.symm]
      rfl
    · rw [beq_eq_false_iff_ne.mpr hk, decide_eq_false fun h => hk h.symm]
      exact ih (List.pairwise_cons.mp hl).2

theorem nodup_entries (v : Value) : (v.entries.map Prod.fst).Nodup :=
  List.pairwise_map.mpr (v.sorted.imp ne_of_lt)

theorem get?_ofFields {fs : List Field} (hNodup : (fs.map Prod.fst).Nodup) (key : String) :
    (Value.ofFields fs).get? key = fs.lookup key := by
  rw [Value.ofFields, OrdMap.get?_insertAll hNodup]
  cases fs.lookup key <;> rfl

/-- In key order the members still stand for the command. -/
theorem Encodes.ofFields {fs : List Field} (h : Encodes fs cmd) :
    Encodes (Value.ofFields fs).entries cmd where
  nodup := nodup_entries _
  describes := by
    have hLookup : (fun key => (Value.ofFields fs).entries.lookup key) =
        fun key => fs.lookup key :=
      funext fun key => by rw [lookup_entries, get?_ofFields h.nodup]
    rw [hLookup]
    exact h.describes
  short f hf := by
    have hGet := OrdMap.mem_entries_iff.mp hf
    rcases (OrdMap.get?_insertAll_eq_some h.nodup).mp hGet with hMem | ⟨-, hNone⟩
    · exact h.short f hMem
    · cases hNone
  few := Nat.le_trans (OrdMap.size_insertAll_le _ _) (by rw [Nat.add_comm]; exact h.few)

/-- The daemon reads the command from its members, in whatever order they are printed. -/
theorem Encodes.fromFields {fs : List Field} (h : Encodes fs cmd) (hFits : cmd.Fits) :
    fromFields fs = some cmd := by
  unfold ConsumerCommand.fromFields
  rw [if_pos (h.nodup.filter _)]
  exact h.describes.decode hFits

/-- The orchestrator reads it from the JSON value they make. -/
theorem Encodes.fromValue {fs : List Field} (h : Encodes fs cmd) (hFits : cmd.Fits) :
    fromValue (.ofFields fs) = some cmd := by
  have hGet : (Value.ofFields fs).get? = fun key => fs.lookup key :=
    funext fun key => get?_ofFields h.nodup key
  rw [ConsumerCommand.fromValue, hGet]
  exact h.describes.decode hFits

/-- What is printed has no line break in it. -/
theorem Encodes.printable {fs : List Field} (h : Encodes fs cmd) :
    PrintableText (printObject fs) :=
  printable_printObject fun f hf => (h.short f hf).plain

/-- What is printed fits in the buffer of a line. -/
theorem Encodes.length_lt {fs : List Field} (h : Encodes fs cmd) :
    (printObject fs).length < maxLineLength := by
  have hLength := length_printObject fun f hf => (h.short f hf).length
  have hFew := h.few
  have hMax : maxLineLength = 4096 := rfl
  omega

end ConsumerCommand

-- ---------------------------------------------------------------------------
-- There and back
-- ---------------------------------------------------------------------------

/-- What a JSON reader has to do: read an object of plain members and `u64`s
that was printed, with a line end behind it. -/
def ReadsPrinted (parse : List Char → Option (List Field)) : Prop :=
  ∀ fs, (∀ f ∈ fs, PlainField f ∧ ∀ n, f.2 = .num n → n < 2 ^ 64) →
    parse (printObject fs ++ ['\n']) = some fs

/-- The two ways to send a command. -/
inductive Sender where
  | command
  | connection
  deriving DecidableEq, Repr

def Sender.send : Sender → ConsumerCommand → List UInt8
  | .command, cmd => cmd.send
  | .connection, cmd => connectionSend cmd.toValue

/-- The members it prints. -/
def Sender.members : Sender → ConsumerCommand → List Field
  | .command, cmd => cmd.fields
  | .connection, cmd => cmd.toValue.entries

/-- A sender writes the object and a line break. -/
theorem Sender.send_eq (how : Sender) (cmd : ConsumerCommand) :
    how.send cmd = sent (printObject (how.members cmd)) := by
  cases how <;> rfl

/-- Every sender prints members that encode the command. -/
theorem Sender.encodes (how : Sender) {cmd : ConsumerCommand} (hFits : cmd.Fits) :
    ConsumerCommand.Encodes (how.members cmd) cmd := by
  cases how with
  | command => exact ConsumerCommand.encodes_fields hFits
  | connection => exact (ConsumerCommand.encodes_fields hFits).ofFields

section RoundTrip

variable {parse : List Char → Option (List Field)} (hParse : ReadsPrinted parse)

include hParse

/-- The JSON reader takes the members from the line as they were printed. -/
theorem parse_encodes {fs : List Field} {cmd : ConsumerCommand}
    (h : ConsumerCommand.Encodes fs cmd) : parse (printObject fs ++ ['\n']) = some fs :=
  hParse fs fun f hf => ⟨(h.short f hf).plain, (h.short f hf).u64⟩

/-- The daemon's thread takes one command from each line, and ends when the stream does. -/
theorem consumerThread_sent {msgs : List (Sender × ConsumerCommand)}
    (hFits : ∀ m ∈ msgs, m.2.Fits) :
    consumerThread parse (msgs.flatMap fun m => m.1.send m.2) =
      (msgs.map fun m => some m.2, none) := by
  simp only [Sender.send_eq]
  refine readLines_sent fun m hm => ?_
  have hEnc := m.1.encodes (hFits m hm)
  refine ⟨hEnc.printable, hEnc.length_lt, ?_⟩
  simp only [ConsumerCommand.fromStr, parse_encodes hParse hEnc, hEnc.fromFields (hFits m hm)]

/-- A printed object is not a blank line. -/
theorem readLoopLine_printed {fs : List Field} {cmd : ConsumerCommand}
    (h : ConsumerCommand.Encodes fs cmd) :
    readLoopLine parse (printObject fs ++ ['\n']) = .take (.ofFields fs) := by
  have hBrace : '{' ∈ printObject fs ++ ['\n'] := by
    cases fs <;> exact List.mem_cons_self ..
  have hInk : ¬(printObject fs ++ ['\n']).all isWhitespace = true := fun hAll =>
    absurd (List.all_eq_true.mp hAll '{' hBrace) (by decide)
  rw [readLoopLine, if_neg hInk, parse_encodes hParse h]

/-- The orchestrator's thread takes one value from each line, and ends when the
stream does. -/
theorem readLoop_sent {msgs : List (Sender × ConsumerCommand)} (hFits : ∀ m ∈ msgs, m.2.Fits) :
    readLoop parse (msgs.flatMap fun m => m.1.send m.2) =
      (msgs.map fun m => .ofFields (m.1.members m.2), none) := by
  simp only [Sender.send_eq]
  refine readLines_sent fun m hm => ?_
  have hEnc := m.1.encodes (hFits m hm)
  exact ⟨hEnc.printable, hEnc.length_lt, readLoopLine_printed hParse hEnc⟩

/-- **Wire format.** Whatever commands are sent on a connection, each in either
way, `consumer_thread` dispatches exactly these in this order and then meets
the end of the stream; so does the message handler of `read_loop`. The request
of `libephmem_reserve` is one line that decodes to a request of that size and
nothing else. -/
theorem wire_round_trip :
    (∀ msgs : List (Sender × ConsumerCommand), (∀ m ∈ msgs, m.2.Fits) →
      consumerThread parse (msgs.flatMap fun m => m.1.send m.2) =
        (msgs.map fun m => some m.2, none) ∧
      ∃ values, readLoop parse (msgs.flatMap fun m => m.1.send m.2) = (values, none) ∧
        values.map ConsumerCommand.fromValue = msgs.map fun m => some m.2) ∧
    ∀ amount : BitVec 64, ∃ value,
      readLoop parse (sent (Libephmem.requestObject amount).print) = ([value], none) ∧
        ConsumerCommand.fromValue value =
          some ⟨.ephMemRequest, some amount.toNat, none, none, none⟩ := by
  refine ⟨fun msgs hFits => ⟨consumerThread_sent hParse hFits, _, readLoop_sent hParse hFits, ?_⟩,
    fun amount => ?_⟩
  · rw [List.map_map]
    refine List.map_congr_left fun m hm => ?_
    exact (m.1.encodes (hFits m hm)).fromValue (hFits m hm)
  · have hFits : ConsumerCommand.Fits ⟨.ephMemRequest, some amount.toNat, none, none, none⟩ :=
      ⟨fun n hn => by cases hn; exact amount.isLt, fun _ h => (nomatch h), fun _ h => (nomatch h)⟩
    have hAll : ∀ m ∈ [((.connection, ⟨.ephMemRequest, some amount.toNat, none, none, none⟩) :
        Sender × ConsumerCommand)], m.2.Fits := fun m hm => by
      rw [List.mem_singleton.mp hm]
      exact hFits
    have hOne := readLoop_sent hParse hAll
    rw [List.flatMap_singleton] at hOne
    exact ⟨_, hOne, (Sender.encodes .connection hFits).fromValue hFits⟩

end RoundTrip

/-- The library's reader of flat objects is one. -/
theorem scanObject_readsPrinted : ReadsPrinted scanObject :=
  fun _ h => scanObject_print (fun f hf => (h f hf).1) (by decide)

/-- A response over `send` and a request over a connection, with the largest
numbers there are. -/
theorem wire_round_trip_demo :
    consumerThread scanObject
        (ConsumerCommand.send ⟨.ephMemResponse, some (2 ^ 64 - 1), some 0, some 7, some false⟩ ++
          connectionSend (ConsumerCommand.toValue
            ⟨.ephMemRequest, some granularity, none, some (2 ^ 64 - 1), none⟩)) =
      ([some ⟨.ephMemResponse, some (2 ^ 64 - 1), some 0, some 7, some false⟩,
        some ⟨.ephMemRequest, some granularity, none, some (2 ^ 64 - 1), none⟩], none) := by
  have hFirst : ConsumerCommand.Fits
      ⟨.ephMemResponse, some (2 ^ 64 - 1), some 0, some 7, some false⟩ :=
    ⟨fun n hn => by cases hn; decide, fun n hn => by cases hn; decide,
      fun n hn => by cases hn; decide⟩
  have hSecond : ConsumerCommand.Fits
      ⟨.ephMemRequest, some granularity, none, some (2 ^ 64 - 1), none⟩ :=
    ⟨fun n hn => by cases hn; decide, fun _ h => (nomatch h), fun n hn => by cases hn; decide⟩
  have hBoth := ((wire_round_trip scanObject_readsPrinted).1
    [(.command, ⟨.ephMemResponse, some (2 ^ 64 - 1), some 0, some 7, some false⟩),
      (.connection, ⟨.ephMemRequest, some granularity, none, some (2 ^ 64 - 1), none⟩)]
    (List.forall_mem_cons.mpr ⟨hFirst, List.forall_mem_singleton.mpr hSecond⟩)).1
  rw [List.flatMap_cons, List.flatMap_singleton] at hBoth
  exact hBoth

end EphMemory
