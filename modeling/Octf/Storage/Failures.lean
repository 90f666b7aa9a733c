import Octf.Foundation.Run
import Octf.Storage.RoundTrip

/-! Serializing while the operating system refuses windows: a message whose length could not be
written leaves no trace, one whose bytes could not be written leaves its length behind. -/
namespace Octf.Storage
open Foundation

namespace FileTraceSerializer

variable {Msg : Type*} {encode : Msg → List UInt8} {ops : FileOps} {s : FileTraceSerializer}

/-- The serializer when it asks for the buffer of the bytes of a message, if it has got one for
their length. -/
def behindLength (encode : Msg → List UInt8) (ops : FileOps) (message : Msg)
    (s : FileTraceSerializer) : FileTraceSerializer :=
  let (buffer, s) := s.getBuffer ops ProtoConverter.MAX_VARINT32_BYTES
  let (bytes, bytesWritten) := ProtoConverter.encodeVarint32 ProtoConverter.MAX_VARINT32_BYTES
    (toInt32 (encode message).length)
  (s.write (buffer.toOption.getD 0) bytes).moveDataPointer bytesWritten

/-- A call that gets a buffer for the length of the message gets one for its bytes as well, and
these are few enough to be written. -/
def WholeRecord (encode : Msg → List UInt8) (ops : FileOps) (message : Msg)
    (s : FileTraceSerializer) : Prop :=
  ¬ s.Refused ops ProtoConverter.MAX_VARINT32_BYTES →
    (encode message).length < 2 ^ 31 ∧
      ¬ (s.behindLength encode ops message).Refused ops (encode message).length

instance (encode : Msg → List UInt8) (ops : FileOps) (message : Msg) (s : FileTraceSerializer) :
    Decidable (WholeRecord encode ops message s) :=
  inferInstanceAs (Decidable (¬ _ → _ ∧ ¬ _))

/-- The messages whose calls have reported success. -/
def accepted : List Msg → List (Except String Bool) → List Msg
  | message :: messages, .ok true :: results => message :: accepted messages results
  | _ :: messages, _ :: results => accepted messages results
  | _, _ => []

/-- The bytes are appended to the data. -/
theorem serializeBytes_granted (hs : s.Valid) {message : Msg}
    (hlen : (encode message).length < 2 ^ 31)
    (hgranted : ¬ s.Refused ops (encode message).length) :
    ∃ s', s.serializeBytes encode ops message = (.ok true, s') ∧ s'.Valid ∧
      s'.file.bytes.load 0 s'.dataOffset = s.file.bytes.load 0 s.dataOffset ++ encode message := by
  obtain ⟨s₁, hget, hs₁, hcovers, hoffset, -, -, hload⟩ := getBuffer_granted hs hlen hgranted
  rw [← hoffset] at hcovers
  obtain ⟨hvalid, hend, hdata⟩ := append_spec hs₁ hcovers
  refine ⟨_, ?_, hvalid, ?_⟩
  · simp only [serializeBytes, hget, hlen, if_true, hoffset]
  · rw [hend, hdata, hoffset, hload]

/-- A call that gets a buffer for the length of its message goes on behind the length. -/
theorem serialize_behind (hs : s.Valid) {message : Msg} (hlen : (encode message).length < 2 ^ 31)
    (hgranted : ¬ s.Refused ops ProtoConverter.MAX_VARINT32_BYTES) :
    s.serialize encode ops message =
        (s.behindLength encode ops message).serializeBytes encode ops message ∧
      (s.behindLength encode ops message).Valid ∧
      (s.behindLength encode ops message).file.bytes.load 0
        (s.behindLength encode ops message).dataOffset =
          s.file.bytes.load 0 s.dataOffset ++ varint (encode message).length := by
  have hpos := length_varint_pos (encode message).length
  have hprefix := ProtoConverter.length_varint_le_max hlen
  have hint := ProtoConverter.toInt32_of_lt hlen
  have hencode := ProtoConverter.encodeVarint32_eq hlen
  obtain ⟨s', hget, hs', hcovers, hoffset, -, -, hload⟩ :=
    getBuffer_granted hs (by decide) hgranted
  rw [← hoffset] at hcovers
  have hplace : s'.Covers s'.dataOffset (varint (encode message).length).length :=
    ⟨hcovers.mapped, hcovers.begin, le_trans (by omega) hcovers.within⟩
  obtain ⟨hvalid, hend, hdata⟩ := append_spec hs' hplace
  have hbehind : s.behindLength encode ops message =
      (s'.write (s'.dataOffset - s'.fileOffset) (varint (encode message).length)).moveDataPointer
        (varint (encode message).length).length := by
    simp only [behindLength, hget, hint, hencode, hoffset]
    rfl
  rw [serialize_eq, hbehind]
  refine ⟨?_, hvalid, ?_⟩
  · simp only [hget, hint, hencode, hpos, if_true, hoffset]
  · rw [hend, hdata, hoffset, hload]

/-- A call appends the frame of its message and reports success, or fails and appends nothing. -/
theorem serialize_whole (hs : s.Valid) {message : Msg} (hwhole : WholeRecord encode ops message s) :
    ∃ result s', s.serialize encode ops message = (result, s') ∧ s'.Valid ∧
      (result = .ok true ∧ (encode message).length < 2 ^ 31 ∧
        s'.file.bytes.load 0 s'.dataOffset =
          s.file.bytes.load 0 s.dataOffset ++ frame encode message ∨
        result ≠ .ok true ∧
          s'.file.bytes.load 0 s'.dataOffset = s.file.bytes.load 0 s.dataOffset) := by
  by_cases hrefused : s.Refused ops ProtoConverter.MAX_VARINT32_BYTES
  · obtain ⟨error, s', hget, hs', hoffset, -, hload⟩ := getBuffer_refused hs hrefused
    rw [serialize_eq, hget]
    exact ⟨.error error, s', rfl, hs', .inr ⟨by simp, by rw [hoffset, hload]⟩⟩
  · obtain ⟨hlen, hgranted⟩ := hwhole hrefused
    obtain ⟨hserialize, hs₁, hprefix⟩ := serialize_behind hs hlen hrefused
    obtain ⟨s₂, hbytes, hs₂, hdata⟩ := serializeBytes_granted hs₁ hlen hgranted
    refine ⟨.ok true, s₂, hserialize.trans hbytes, hs₂, .inl ⟨rfl, hlen, ?_⟩⟩
    rw [hdata, hprefix, frame, List.append_assoc]

/-- A call that is refused a buffer for the bytes of its message leaves the length behind. -/
theorem serialize_half (hs : s.Valid) {message : Msg} (hlen : (encode message).length < 2 ^ 31)
    (hgranted : ¬ s.Refused ops ProtoConverter.MAX_VARINT32_BYTES)
    (hrefused : (s.behindLength encode ops message).Refused ops (encode message).length) :
    ∃ error s', s.serialize encode ops message = (.error error, s') ∧ s'.Valid ∧
      s'.file.bytes.load 0 s'.dataOffset =
        s.file.bytes.load 0 s.dataOffset ++ varint (encode message).length := by
  obtain ⟨hserialize, hs₁, hprefix⟩ := serialize_behind hs hlen hgranted
  obtain ⟨error, s', hget, hs', hoffset, -, hload⟩ := getBuffer_refused hs₁ hrefused
  refine ⟨error, s', ?_, hs', ?_⟩
  · rw [hserialize]
    simp only [serializeBytes, hget]
  · rw [hoffset, hload, hprefix]

/-- The data are the frames of the accepted messages. -/
theorem serializeAll_whole (hs : s.Valid) {messages : List Msg}
    (hwhole : Meets (fun message s => (s.serialize encode ops message).2)
      (WholeRecord encode ops) messages s) :
    (s.serializeAll encode ops messages).2.Valid ∧
      (∀ message ∈ accepted messages (s.serializeAll encode ops messages).1,
        (encode message).length < 2 ^ 31) ∧
      (s.serializeAll encode ops messages).2.file.bytes.load 0
        (s.serializeAll encode ops messages).2.dataOffset =
          s.file.bytes.load 0 s.dataOffset ++
            frames encode (accepted messages (s.serializeAll encode ops messages).1) := by
  induction messages generalizing s with
  | nil => exact ⟨hs, by simp [accepted], by simp [serializeAll, accepted]⟩
  | cons message messages ih =>
    obtain ⟨hcall, hrest⟩ := hwhole
    obtain ⟨result, s', hstep, hs', hresult⟩ := serialize_whole hs hcall
    simp only [hstep] at hrest
    obtain ⟨hvalid, hlens, hdata⟩ := ih hs' hrest
    simp only [serializeAll, hstep]
    rcases hresult with ⟨rfl, hlen, hload⟩ | ⟨hfailed, hload⟩
    · refine ⟨hvalid, fun other hother => ?_, ?_⟩
      · rw [accepted] at hother
        rcases List.mem_cons.mp hother with rfl | hother
        · exact hlen
        · exact hlens other hother
      · rw [hdata, hload, accepted, frames_cons, List.append_assoc]
    · have hskip : accepted (message :: messages)
          (result :: (s'.serializeAll encode ops messages).1) =
            accepted messages (s'.serializeAll encode ops messages).1 := by
        rw [accepted]
        exact fun h => hfailed h
      rw [hskip, hdata, hload]
      exact ⟨hvalid, hlens, rfl⟩

theorem length_accepted_le (messages : List Msg) (results : List (Except String Bool)) :
    (accepted messages results).length ≤ messages.length := by
  induction messages, results using accepted.induct with
  | case1 message messages results ih =>
    rw [accepted, List.length_cons, List.length_cons]
    exact Nat.succ_le_succ ih
  | case2 message messages result results hfailed ih =>
    rw [accepted]
    · exact ih.trans (Nat.le_succ _)
    · exact hfailed
  | case3 messages results h1 h2 =>
    rw [accepted]
    · exact Nat.zero_le _
    · exact h1
    · exact h2

/-- Closing cuts the file to the data, whatever has failed before. -/
theorem contents_close (hs : s.Valid) (htruncate : ops.ftruncate = true) :
    (s.close ops).2.file.contents = s.file.bytes.load 0 s.dataOffset := by
  have hdata := hs.data
  have hfile := hs.dataInFile
  have htruncated : (decide (0 ≤ toInt64 s.dataOffset) && ops.ftruncate) = true := by
    rw [toInt64_of_lt hdata, htruncate, Bool.and_true, decide_eq_true_eq]
    omega
  unfold close
  simp only [hs.isOpen, htruncated, if_true, File.contents, File.truncate]
  apply Memory.load_congr
  intro i hi
  rw [if_pos (by omega)]

/-- If every call that gets a buffer for the length of its message gets one for its bytes as
well, the reader finds in the closed file exactly the messages whose calls reported success. -/
theorem readAll_accepted (encode : Msg → List UInt8) (parse : List UInt8 → Option Msg)
    (hparse : ∀ message, parse (encode message) = some message) (messages : List Msg)
    (ops : FileOps) (htruncate : ops.ftruncate = true) (outputFileName : String) (pageSize : ℕ)
    (hpage : 0 < pageSize ∧ pageSize < 2 ^ 64) (file : File)
    (hwhole : Meets (fun message s => (s.serialize encode ops message).2)
      (WholeRecord encode ops) messages (opened outputFileName pageSize file)) :
    TraceFileReader.readAll parse (messages.length + 1) (TraceFileReader.init
        ((opened outputFileName pageSize file).writeFile encode ops messages).2.2.file.contents) =
      (accepted messages
        ((opened outputFileName pageSize file).writeFile encode ops messages).1, .finished) := by
  obtain ⟨hvalid, hlen, hdata⟩ :=
    serializeAll_whole (opened_valid outputFileName hpage file) hwhole
  unfold writeFile
  simp only
  rw [contents_close hvalid htruncate, hdata]
  exact readAll_frames hparse hlen (Nat.lt_succ_of_le (length_accepted_le _ _))

/-- An operating system that refuses to map the window with the given number. -/
def unwilling (window : ℕ) : FileOps :=
  { willing with mmap := fun n => decide (n ≠ window) }

/-- The first of three calls gets no window at all; the others are read back. -/
theorem readAll_accepted_first :
    let written := (opened "octf.trace.0" 4096 ⟨fun _ => 255, 9⟩).writeFile encodeSid
      (unwilling 0) [5, 0, 7]
    TraceFileReader.readAll parseSid 4 (TraceFileReader.init written.2.2.file.contents) =
      (accepted [5, 0, 7] written.1, .finished) :=
  readAll_accepted encodeSid parseSid (by decide) [5, 0, 7] (unwilling 0) rfl
    "octf.trace.0" 4096 (by decide) ⟨fun _ => 255, 9⟩ (by decide)

/-- A message of 2 MiB that gets no window for its bytes: its length stays in the file. -/
theorem writeFile_half {large : Msg} (hlarge : (encode large).length = 2097152) :
    let written := (opened "octf.trace.0" 4096 ⟨fun _ => 255, 9⟩).writeFile encode (unwilling 1)
      [large]
    accepted [large] written.1 = [] ∧ written.2.2.file.contents = [128, 128, 128, 1] := by
  have hrefused : ((opened "octf.trace.0" 4096 ⟨fun _ => 255, 9⟩).behindLength encode (unwilling 1)
      large).Refused (unwilling 1) (encode large).length := by
    simp only [behindLength, hlarge]
    decide
  obtain ⟨error, s', hserialize, hs', hdata⟩ :=
    serialize_half (opened_valid "octf.trace.0" (by decide) ⟨fun _ => 255, 9⟩)
      (by rw [hlarge]; decide) (by decide) hrefused
  have hvarint : varint 2097152 = [128, 128, 128, 1] := by
    simp [varint_of_ge, varint_of_lt]
  have hcontents : (s'.close (unwilling 1)).2.file.contents = [128, 128, 128, 1] := by
    rw [contents_close hs' rfl, hdata, hlarge, hvarint]
    rfl
  simp only [writeFile, serializeAll, hserialize, hcontents]
  exact ⟨rfl, trivial⟩

/-- A blob of zeros. -/
def blob (n : ℕ) : List UInt8 := List.replicate n 0

theorem length_blob (n : ℕ) : (blob n).length = n := List.length_replicate

/-- The reader does not come to the end of the file in which a message has lost its bytes. -/
theorem not_accepted_half :
    accepted [2097152] ((opened "octf.trace.0" 4096 ⟨fun _ => 255, 9⟩).writeFile blob
        (unwilling 1) [2097152]).1 = [] ∧
      TraceFileReader.readAll (fun bytes => some bytes.length) 2
          (TraceFileReader.init ((opened "octf.trace.0" 4096 ⟨fun _ => 255, 9⟩).writeFile blob
            (unwilling 1) [2097152]).2.2.file.contents) =
        ([], .exception "Couldn't parse valid trace event") := by
  obtain ⟨hresults, hcontents⟩ := writeFile_half (length_blob 2097152)
  refine ⟨hresults, ?_⟩
  rw [hcontents]
  decide

end FileTraceSerializer

end Octf.Storage
