import Octf.Storage.ProtoConverter

/-! The reader of one trace file. -/
namespace Octf.Storage
open Foundation

/-- The bytes from `m_addr` on, `m_size` in number, and whether reading has failed. -/
structure TraceFileReader where
  data : List UInt8
  error : Bool
  deriving DecidableEq

/-- How reading or parsing to the end came out. -/
inductive Outcome where
  | finished
  | exception (message : String)
  /-- The rounds did not suffice. -/
  | running
  deriving DecidableEq

namespace TraceFileReader

/-- A reader that has opened the file. -/
def init (file : List UInt8) : TraceFileReader := ⟨file, false⟩

def isFinished (r : TraceFileReader) : Bool := r.data.isEmpty

section Messages

variable {Msg : Type*} (parse : List UInt8 → Option Msg)

/-- The bytes of the next message and the reader behind them; `parse` stands for
`ParseFromArray`. -/
def readTraceEvent (r : TraceFileReader) : Except String Msg × TraceFileReader :=
  if r.error then (.error "Attempted to read from parser which had failed", r)
  else if r.isFinished then (.error "Attempted to read from fully parsed file", r)
  else
    let (bytesRead, value) := ProtoConverter.decodeVarint32 r.data
    let messageLength := value.getD 0
    if bytesRead = 0 ∨ r.data.length < bytesRead then
      (.error "Couldn't parse size of trace event", { r with error := true })
    else
      let data := r.data.drop bytesRead
      if data.length < messageLength ∨ messageLength < 0 then
        (.error "Couldn't parse valid trace event", ⟨data, true⟩)
      else
        match parse (data.take messageLength.toNat) with
        | none => (.error "Couldn't parse valid trace event", ⟨data, true⟩)
        | some message => (.ok message, { r with data := data.drop messageLength.toNat })

/-- Read until the reader is finished, in at most the given rounds. -/
def readAll : (rounds : ℕ) → TraceFileReader → List Msg × Outcome
  | 0, _ => ([], .running)
  | rounds + 1, r =>
    if r.isFinished then ([], .finished)
    else
      match r.readTraceEvent parse with
      | (.error message, _) => ([], .exception message)
      | (.ok message, r) =>
        let (messages, outcome) := readAll rounds r
        (message :: messages, outcome)

end Messages

end TraceFileReader

section Frames

variable {Msg : Type*} (encode : Msg → List UInt8)

/-- A stored message: its length and its bytes. -/
def frame (message : Msg) : List UInt8 := varint (encode message).length ++ encode message

/-- The bytes of a trace file with the given messages. -/
def frames (messages : List Msg) : List UInt8 := messages.flatMap (frame encode)

@[simp] theorem frames_nil : frames encode [] = [] := rfl

@[simp] theorem frames_cons (message : Msg) (messages : List Msg) :
    frames encode (message :: messages) = frame encode message ++ frames encode messages := rfl

variable {encode} {parse : List UInt8 → Option Msg} {message : Msg} {messages : List Msg}

theorem length_le_frames : messages.length ≤ (frames encode messages).length := by
  induction messages with
  | nil => exact le_rfl
  | cons message messages ih =>
    have hpos := length_varint_pos (encode message).length
    simp only [frames_cons, frame, List.length_append, List.length_cons]
    omega

/-- A stored message is read back, and the reader is behind it. -/
theorem readTraceEvent_frame (hparse : parse (encode message) = some message)
    (hlen : (encode message).length < 2 ^ 31) (rest : List UInt8) :
    TraceFileReader.readTraceEvent parse ⟨frame encode message ++ rest, false⟩ =
      (.ok message, ⟨rest, false⟩) := by
  have hpos := length_varint_pos (encode message).length
  have hdecode := ProtoConverter.decodeVarint32_eq (encode message ++ rest) hlen
  have hdata : frame encode message ++ rest =
      varint (encode message).length ++ (encode message ++ rest) := List.append_assoc ..
  have hnot : TraceFileReader.isFinished ⟨frame encode message ++ rest, false⟩ = false := by
    rw [TraceFileReader.isFinished, List.isEmpty_eq_false_iff, hdata]
    exact List.append_ne_nil_of_left_ne_nil (List.ne_nil_of_length_pos hpos) _
  unfold TraceFileReader.readTraceEvent
  simp only [hnot, Bool.false_eq_true, if_false]
  rw [hdata, hdecode]
  have hfit : ¬ ((varint (encode message).length).length = 0 ∨
      (varint (encode message).length ++ (encode message ++ rest)).length <
        (varint (encode message).length).length) := by
    rw [List.length_append]
    omega
  have hbody : ¬ (((encode message ++ rest).length : ℤ) < (encode message).length ∨
      ((encode message).length : ℤ) < 0) := by
    rw [List.length_append]
    omega
  simp only [if_neg hfit, List.drop_left, Option.getD_some, if_neg hbody, Int.toNat_natCast,
    List.take_left, hparse]

/-- A file of stored messages is read to its end and gives these messages. -/
theorem readAll_frames_of_mem
    (hparse : ∀ message ∈ messages, parse (encode message) = some message)
    (hlen : ∀ message ∈ messages, (encode message).length < 2 ^ 31) {rounds : ℕ}
    (hrounds : messages.length < rounds) :
    TraceFileReader.readAll parse rounds (TraceFileReader.init (frames encode messages)) =
      (messages, .finished) := by
  unfold TraceFileReader.init
  induction messages generalizing rounds with
  | nil =>
    obtain ⟨rounds, rfl⟩ := Nat.exists_eq_succ_of_ne_zero (Nat.ne_of_gt hrounds)
    rfl
  | cons message messages ih =>
    obtain ⟨rounds, rfl⟩ := Nat.exists_eq_succ_of_ne_zero
      (Nat.ne_of_gt (Nat.lt_of_le_of_lt (Nat.zero_le _) hrounds))
    have hnot : TraceFileReader.isFinished ⟨frames encode (message :: messages), false⟩ =
      false := by
      rw [TraceFileReader.isFinished, List.isEmpty_eq_false_iff, frames_cons, frame]
      apply List.append_ne_nil_of_left_ne_nil
      exact List.append_ne_nil_of_left_ne_nil (List.ne_nil_of_length_pos (length_varint_pos _)) _
    have hread := readTraceEvent_frame (hparse message (List.mem_cons_self ..))
      (hlen message (List.mem_cons_self ..)) (frames encode messages)
    have hrest := ih (fun m hm => hparse m (List.mem_cons_of_mem message hm))
      (fun m hm => hlen m (List.mem_cons_of_mem message hm))
      (Nat.lt_of_succ_lt_succ hrounds)
    simp only [TraceFileReader.readAll, hnot, Bool.false_eq_true, if_false]
    rw [frames_cons, hread]
    simp only [hrest]

theorem readAll_frames (hparse : ∀ message, parse (encode message) = some message)
    (hlen : ∀ message ∈ messages, (encode message).length < 2 ^ 31) {rounds : ℕ}
    (hrounds : messages.length < rounds) :
    TraceFileReader.readAll parse rounds (TraceFileReader.init (frames encode messages)) =
      (messages, .finished) := readAll_frames_of_mem (fun message _ => hparse message) hlen hrounds

end Frames

end Octf.Storage
