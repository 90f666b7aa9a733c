import Octf.Foundation.ByteMemory
import Octf.Foundation.Run
import Octf.Storage.ProtoConverter
import Mathlib.Algebra.BigOperators.Group.List.Basic
import Mathlib.Algebra.Ring.Nat

/-! Messages stored in a file as JSON. The descriptor for writing stays open and keeps its offset
when the file is truncated, so a message is only found again if it was the first one written. -/
namespace Octf.Utils
open Foundation

/-- How messages are printed and parsed. -/
structure Json (M : Type*) where
  print : M → List UInt8
  parse : List UInt8 → Option M

/-- Printing and parsing are inverse, and no JSON text is empty or begins with a zero byte. -/
structure Json.Lawful {M : Type*} (json : Json M) : Prop where
  inverse : ∀ message, json.parse (json.print message) = some message
  empty : json.parse [] = none
  zero : ∀ bytes, json.parse (0 :: bytes) = none

theorem Json.Lawful.print_ne_nil {M : Type*} {json : Json M} (hjson : json.Lawful) (message : M) :
    json.print message ≠ [] := by
  intro hnil
  have hparse := hjson.inverse message
  rw [hnil, hjson.empty] at hparse
  cases hparse

/-- A file with the offsets of its descriptors, which are closed at first. All operations on files
succeed. -/
structure ProtobufReaderWriter where
  /-- The content of the file, if it exists. -/
  file : Option (List UInt8)
  readFd : Option ℕ
  writeFd : Option ℕ
  deriving DecidableEq

namespace ProtobufReaderWriter

variable {M : Type*}

/-- A new object for a file that may exist already. -/
def new (file : Option (List UInt8)) : ProtobufReaderWriter := ⟨file, none, none⟩

/-- Only a file that exists is opened. -/
def openFileToRead (rw : ProtobufReaderWriter) : ProtobufReaderWriter :=
  if rw.readFd.isSome ∨ rw.file = none then rw else { rw with readFd := some 0 }

/-- A missing file is created, and what one holds is kept. -/
def openFileToWrite (rw : ProtobufReaderWriter) : ProtobufReaderWriter :=
  if rw.writeFd.isSome then rw
  else { rw with file := some (rw.file.getD []), writeFd := some 0 }

/-- `::ftruncate(m_writeFd, 0)` -/
def ftruncate (rw : ProtobufReaderWriter) : ProtobufReaderWriter := { rw with file := some [] }

/-- `::write(m_writeFd, …)`; what is skipped reads as zeros. -/
def writeBytes (str : List UInt8) (rw : ProtobufReaderWriter) : ProtobufReaderWriter :=
  let offset := rw.writeFd.getD 0
  { rw with
    file := some (writeAt (rw.file.getD []) offset str)
    writeFd := some (offset + str.length) }

section Calls

variable (json : Json M)

/-- The result, and the message if it was parsed. -/
def read (rw : ProtobufReaderWriter) : Option M × ProtobufReaderWriter :=
  let rw := rw.openFileToRead
  match rw.readFd with
  | none => (none, rw)
  | some _ =>
    let fileContent := rw.file.getD []
    (json.parse fileContent, { rw with readFd := some fileContent.length })

def write (message : M) (rw : ProtobufReaderWriter) : Bool × ProtobufReaderWriter :=
  let rw := rw.openFileToWrite
  let str := json.print message
  let rw := rw.ftruncate.writeBytes str
  let written := Storage.toInt32 str.length
  if written < 0 then (false, rw)
  else if written.toNat ≠ str.length then (false, rw)
  else (true, rw)

def clear (rw : ProtobufReaderWriter) : Bool × ProtobufReaderWriter :=
  let rw := rw.openFileToWrite
  (true, rw.ftruncate)

inductive Call (M : Type*) where
  | write (message : M)
  | clear
  | read

def Call.step : Call M → ProtobufReaderWriter → ProtobufReaderWriter
  | .write message, rw => (rw.write json message).2
  | .clear, rw => rw.clear.2
  | .read, rw => (rw.read json).2

end Calls

/-! ### Histories -/

/-- The messages of the writes, and whether the file was cleared behind the last one. -/
structure History (M : Type*) where
  messages : List M
  cleared : Bool

def Call.record : Call M → History M → History M
  | .write message, h => ⟨h.messages ++ [message], false⟩
  | .clear, h => ⟨h.messages, true⟩
  | .read, h => h

def history (calls : List (Call M)) : History M := run Call.record calls ⟨[], false⟩

variable {json : Json M} {h : History M} {rw : ProtobufReaderWriter}

/-- The bytes that have gone through the descriptor. -/
def written (json : Json M) (messages : List M) : ℕ :=
  (messages.map fun message => (json.print message).length).sum

/-- The last message lies behind as many zeros as bytes were written before it. -/
structure Stored (json : Json M) (h : History M) (rw : ProtobufReaderWriter) : Prop where
  offset : rw.writeFd.getD 0 = written json h.messages
  content : ∀ earlier message, h.messages = earlier ++ [message] → rw.file = some
    (if h.cleared then [] else List.replicate (written json earlier) 0 ++ json.print message)

theorem stored_new (json : Json M) (file : Option (List UInt8)) :
    Stored json ⟨[], false⟩ (new file) where
  offset := rfl
  content := fun earlier message hnil => absurd hnil (by simp)

theorem writeFd_openFileToWrite (rw : ProtobufReaderWriter) :
    rw.openFileToWrite.writeFd = some (rw.writeFd.getD 0) := by
  unfold openFileToWrite
  cases hfd : rw.writeFd <;> simp [hfd]

theorem openFileToRead_keeps (rw : ProtobufReaderWriter) :
    rw.openFileToRead.file = rw.file ∧ rw.openFileToRead.writeFd = rw.writeFd := by
  unfold openFileToRead
  split_ifs <;> exact ⟨rfl, rfl⟩

theorem read_keeps (json : Json M) (rw : ProtobufReaderWriter) :
    (rw.read json).2.file = rw.file ∧ (rw.read json).2.writeFd = rw.writeFd := by
  obtain ⟨hfile, hwriteFd⟩ := openFileToRead_keeps rw
  unfold read
  cases hfd : rw.openFileToRead.readFd <;> simp [hfd, hfile, hwriteFd]

theorem write_state (json : Json M) (message : M) (rw : ProtobufReaderWriter) :
    (rw.write json message).2 =
      rw.openFileToWrite.ftruncate.writeBytes (json.print message) := by
  unfold write
  simp only
  split_ifs <;> rfl

theorem Stored.step (hs : Stored json h rw) (call : Call M) :
    Stored json (call.record h) (call.step json rw) := by
  cases call with
  | write message =>
    have hoffset : rw.openFileToWrite.ftruncate.writeFd.getD 0 = written json h.messages := by
      change rw.openFileToWrite.writeFd.getD 0 = _
      rw [writeFd_openFileToWrite]
      exact hs.offset
    constructor
    · change (rw.write json message).2.writeFd.getD 0 = written json (h.messages ++ [message])
      rw [write_state, writeBytes, hoffset]
      simp [written]
    · intro earlier last hmessages
      obtain ⟨rfl, hlast⟩ := List.append_inj' hmessages rfl
      obtain rfl : message = last := List.singleton_inj.mp hlast
      change (rw.write json message).2.file = _
      rw [write_state, writeBytes, hoffset]
      exact congrArg some (writeAt_nil _ _)
  | clear =>
    constructor
    · change rw.openFileToWrite.writeFd.getD 0 = _
      rw [writeFd_openFileToWrite]
      exact hs.offset
    · intro earlier message hmessages
      rfl
  | read =>
    obtain ⟨hfile, hwriteFd⟩ := read_keeps json rw
    exact ⟨hwriteFd.symm ▸ hs.offset, hfile.symm ▸ hs.content⟩

theorem stored_run (json : Json M) (file : Option (List UInt8)) (calls : List (Call M)) :
    Stored json (history calls) (run (Call.step json) calls (new file)) := by
  induction calls using List.reverseRecOn with
  | nil => exact stored_new json file
  | append_singleton calls call ih =>
    unfold history at ih ⊢
    rw [run_append, run_append]
    exact ih.step call

/-! ### Reading back -/

theorem written_eq_zero (hjson : json.Lawful) {messages : List M} :
    written json messages = 0 ↔ messages = [] := by
  cases messages with
  | nil => exact ⟨fun _ => rfl, fun _ => rfl⟩
  | cons message messages =>
    have hpos := List.length_pos_of_ne_nil (hjson.print_ne_nil message)
    unfold written
    rw [List.map_cons, List.sum_cons]
    exact ⟨fun hzero => absurd hzero (by omega), fun hnil => (nomatch hnil)⟩

/-- What a read finds behind the zeros. -/
theorem Stored.read_iff (hs : Stored json h rw) (hjson : json.Lawful) {message : M}
    (hlast : h.messages.getLast? = some message) :
    (rw.read json).1 = some message ↔ h = ⟨[message], false⟩ := by
  obtain ⟨earlier, hmessages⟩ := List.getLast?_eq_some_iff.mp hlast
  have hfile := hs.content earlier message hmessages
  have hread : (rw.read json).1 = json.parse (if h.cleared then [] else
      List.replicate (written json earlier) 0 ++ json.print message) := by
    have hopened : rw.openFileToRead.readFd.isSome := by
      unfold openFileToRead
      split_ifs with hopen
      · exact hopen.resolve_right (by rw [hfile]; exact Option.some_ne_none _)
      · rfl
    obtain ⟨offset, hoffset⟩ := Option.isSome_iff_exists.mp hopened
    unfold read
    simp only [hoffset, (openFileToRead_keeps rw).1, hfile, Option.getD_some]
  rcases h with ⟨messages, cleared⟩
  obtain rfl : messages = earlier ++ [message] := hmessages
  rw [hread, History.mk.injEq]
  cases cleared with
  | true =>
    rw [if_pos rfl, hjson.empty]
    exact ⟨fun hnone => (nomatch hnone), fun heq => (nomatch heq.2)⟩
  | false =>
    rw [if_neg Bool.false_ne_true]
    constructor
    · intro hparse
      cases hzeros : written json earlier with
      | zero =>
        obtain rfl := (written_eq_zero hjson).mp hzeros
        exact ⟨rfl, rfl⟩
      | succ zeros =>
        rw [hzeros, List.replicate_succ, List.cons_append, hjson.zero] at hparse
        cases hparse
    · rintro ⟨heq, -⟩
      obtain rfl : earlier = [] := by simpa using heq
      exact hjson.inverse message

/-- Every read behind a write finds the message of the last one. -/
def ReadsBack (json : Json M) (file : Option (List UInt8)) (calls : List (Call M)) : Prop :=
  ∀ before after message, calls = before ++ .read :: after →
    (history before).messages.getLast? = some message →
      ((run (Call.step json) before (new file)).read json).1 = some message

/-- It does so exactly when that write was the first one, with no clear behind it. -/
theorem readsBack_iff (hjson : json.Lawful) (file : Option (List UInt8)) (calls : List (Call M)) :
    ReadsBack json file calls ↔ ∀ before after message, calls = before ++ .read :: after →
      (history before).messages.getLast? = some message → history before = ⟨[message], false⟩ :=
  forall₅_congr fun before _ _ _ hlast => (stored_run json file before).read_iff hjson hlast

/-- The texts `true` and `false` of a message that wraps a truth value. -/
def boolValue : Json Bool where
  print value := if value then [0x74, 0x72, 0x75, 0x65] else [0x66, 0x61, 0x6C, 0x73, 0x65]
  parse bytes :=
    if bytes = [0x74, 0x72, 0x75, 0x65] then some true
    else if bytes = [0x66, 0x61, 0x6C, 0x73, 0x65] then some false
    else none

theorem lawful_boolValue : boolValue.Lawful where
  inverse := by decide
  empty := rfl
  zero bytes := by simp [boolValue]

/-- A file of an earlier object, written and read. -/
theorem readsBack_iff_once :
    ReadsBack boolValue (some [0x66, 0x61, 0x6C, 0x73, 0x65])
      [.read, .clear, .write true, .read] := by
  refine (readsBack_iff lawful_boolValue _ _).mpr fun before after message hcalls hlast => ?_
  rcases before with _ | ⟨c₁, _ | ⟨c₂, _ | ⟨c₃, _ | ⟨c₄, before⟩⟩⟩⟩ <;> simp at hcalls
  · simp [history] at hlast
  · obtain ⟨rfl, rfl, rfl, -⟩ := hcalls
    simp [history, Call.record] at hlast ⊢
    exact hlast

/-- The second write leaves zeros before its text. -/
theorem not_readsBack_twice : ¬ ReadsBack boolValue none [.write true, .write false, .read] := by
  intro hback
  exact absurd (hback [.write true, .write false] [] false rfl rfl) (by decide)

end ProtobufReaderWriter

end Octf.Utils
