import Octf.Storage.TraceFileReader
import Octf.Storage.Window

/-! What the serializer writes, the reader reads. -/
namespace Octf.Storage
open Foundation

namespace FileTraceSerializer

variable {Msg : Type*} {encode : Msg → List UInt8} {s : FileTraceSerializer}

/-- The second half of `serialize`: the bytes of the message. -/
def serializeBytes (encode : Msg → List UInt8) (ops : FileOps) (message : Msg)
    (s : FileTraceSerializer) : Except String Bool × FileTraceSerializer :=
  match s.getBuffer ops (encode message).length with
  | (.error message, s) => (.error message, s)
  | (.ok buffer, s) =>
    if (encode message).length < 2 ^ 31 then
      (.ok true, (s.write buffer (encode message)).moveDataPointer (encode message).length)
    else (.ok false, s)

theorem serialize_eq (ops : FileOps) (message : Msg) :
    s.serialize encode ops message =
      match s.getBuffer ops ProtoConverter.MAX_VARINT32_BYTES with
      | (.error message, s) => (.error message, s)
      | (.ok buffer, s) =>
        let written := ProtoConverter.encodeVarint32 ProtoConverter.MAX_VARINT32_BYTES
          (toInt32 (encode message).length)
        if 0 < written.2 then
          serializeBytes encode ops message
            ((s.write buffer written.1).moveDataPointer written.2)
        else (.ok false, s.write buffer written.1) := rfl

section Failure

variable (ops : FileOps)

theorem failed_remap (h : s.failed = true) (offset size : ℕ) :
    (s.remap ops offset size).2.failed = true := by
  unfold remap
  simp only
  split_ifs <;> first | rfl | exact h

theorem failed_getBuffer (h : s.failed = true) (size : ℕ) :
    (s.getBuffer ops size).2.failed = true := by
  unfold getBuffer
  simp only
  split_ifs
  · have hremap := failed_remap ops h s.dataOffset (max (MiBToBytes 1) size)
    generalize s.remap ops s.dataOffset (max (MiBToBytes 1) size) = result at *
    obtain ⟨_ | _, _⟩ := result <;> exact hremap
  · exact h

theorem failed_serializeBytes {message : Msg}
    (h : (s.getBuffer ops (encode message).length).2.failed = true) :
    (s.serializeBytes encode ops message).2.failed = true := by
  unfold serializeBytes
  generalize s.getBuffer ops (encode message).length = result at *
  obtain ⟨_ | buffer, s'⟩ := result
  · exact h
  · simp only
    split_ifs <;> exact h

theorem failed_serialize {message : Msg}
    (h : (s.getBuffer ops ProtoConverter.MAX_VARINT32_BYTES).2.failed = true) :
    (s.serialize encode ops message).2.failed = true := by
  rw [serialize_eq]
  generalize s.getBuffer ops ProtoConverter.MAX_VARINT32_BYTES = result at *
  obtain ⟨_ | buffer, s'⟩ := result
  · exact h
  · simp only
    split_ifs
    · apply failed_serializeBytes
      apply failed_getBuffer
      exact h
    · exact h

/-- A failure is never forgotten. -/
theorem failed_serializeAll (h : s.failed = true) (messages : List Msg) :
    (s.serializeAll encode ops messages).2.failed = true := by
  induction messages generalizing s with
  | nil => exact h
  | cons message messages ih =>
    exact ih (failed_serialize ops (failed_getBuffer ops h _))

/-- No failure goes with a buffer. -/
theorem failed_of_remap_ok {offset size : ℕ} {s' : FileTraceSerializer}
    (h : s.remap ops offset size = (.ok (), s')) : s'.failed = s.failed := by
  unfold remap at h
  simp only at h
  split_ifs at h <;> cases h
  rfl

theorem failed_of_getBuffer_ok {size buffer : ℕ} {s' : FileTraceSerializer}
    (h : s.getBuffer ops size = (.ok buffer, s')) : s'.failed = s.failed := by
  unfold getBuffer at h
  simp only at h
  split_ifs at h
  · rcases hremap : s.remap ops s.dataOffset (max (MiBToBytes 1) size) with ⟨_ | _, s₁⟩ <;>
      rw [hremap] at h <;> cases h
    exact failed_of_remap_ok ops hremap
  · cases h
    rfl

theorem failed_of_serialize_ok {message : Msg} {success : Bool} {s' : FileTraceSerializer}
    (h : s.serialize encode ops message = (.ok success, s')) : s'.failed = s.failed := by
  rw [serialize_eq] at h
  rcases hget : s.getBuffer ops ProtoConverter.MAX_VARINT32_BYTES with ⟨_ | buffer, s₁⟩ <;>
    rw [hget] at h
  · cases h
  · simp only at h
    have hfirst := failed_of_getBuffer_ok ops hget
    split_ifs at h
    · rw [← hfirst]
      unfold serializeBytes at h
      generalize hplace : (s₁.write buffer _).moveDataPointer _ = s₂ at h
      have hsame : s₂.failed = s₁.failed := by rw [← hplace]; rfl
      rcases hget₂ : s₂.getBuffer ops (encode message).length with ⟨_ | buffer₂, s₃⟩ <;>
        rw [hget₂] at h
      · cases h
      · have hsecond := failed_of_getBuffer_ok ops hget₂
        simp only at h
        split_ifs at h <;> cases h <;> exact hsecond.trans hsame
    · cases h
      exact hfirst

end Failure

/-- The bytes of a message are appended to the data. -/
theorem serializeBytes_spec (ops : FileOps) (hs : s.Valid) {message : Msg}
    (hlen : (encode message).length < 2 ^ 31) :
    ((s.serializeBytes encode ops message).2.failed = true ∧ ¬ s.Roomy ops 0) ∨
      ∃ s', s.serializeBytes encode ops message = (.ok true, s') ∧ s'.Valid ∧
        s'.pageSize = s.pageSize ∧ s'.failed = s.failed ∧
        s'.file.bytes.load 0 s'.dataOffset = s.file.bytes.load 0 s.dataOffset ++
          encode message := by
  rcases getBuffer_spec ops hs hlen with
    ⟨hfail, hroom⟩ | ⟨s₁, hget, hs₁, hcovers, hoffset, hpage, hfailed, hload⟩
  · exact .inl ⟨failed_serializeBytes ops hfail, hroom⟩
  · rw [← hoffset] at hcovers
    obtain ⟨hvalid, hend, hdata⟩ := append_spec hs₁ hcovers
    refine .inr ⟨_, ?_, hvalid, hpage, hfailed, ?_⟩
    · simp only [serializeBytes, hget, hlen, if_true, hoffset]
    · rw [hend, hdata, hoffset, hload]

/-- A message is appended to the data as one frame. -/
theorem serialize_spec (ops : FileOps) (hs : s.Valid) {message : Msg}
    (hlen : (encode message).length < 2 ^ 31) :
    ((s.serialize encode ops message).2.failed = true ∧
        ¬ s.Roomy ops (frame encode message).length) ∨
      ∃ s', s.serialize encode ops message = (.ok true, s') ∧ s'.Valid ∧
        s'.pageSize = s.pageSize ∧ s'.failed = s.failed ∧
        s'.file.bytes.load 0 s'.dataOffset =
          s.file.bytes.load 0 s.dataOffset ++ frame encode message := by
  have hpos := length_varint_pos (encode message).length
  have hprefix := ProtoConverter.length_varint_le_max hlen
  have hint := ProtoConverter.toInt32_of_lt hlen
  have hencode := ProtoConverter.encodeVarint32_eq hlen
  have hfive : ProtoConverter.MAX_VARINT32_BYTES < 2 ^ 31 := by decide
  have hframe : (frame encode message).length =
      (varint (encode message).length).length + (encode message).length := List.length_append
  rcases getBuffer_spec ops hs hfive with
    ⟨hfail, hroom⟩ | ⟨s₁, hget, hs₁, hcovers, hoffset, hpage, hfailed, hload⟩
  · refine .inl ⟨failed_serialize ops hfail, ?_⟩
    rintro ⟨hops, hnot, hbound⟩
    exact hroom ⟨hops, hnot, by omega⟩
  · rw [← hoffset] at hcovers
    have hplace : s₁.Covers s₁.dataOffset (varint (encode message).length).length :=
      ⟨hcovers.mapped, hcovers.begin, le_trans (by omega) hcovers.within⟩
    obtain ⟨hs₂, hend, hdata⟩ := append_spec hs₁ hplace
    rw [serialize_eq, hget]
    simp only [hint, hencode, hpos, if_true, ← hoffset]
    rcases serializeBytes_spec ops hs₂ hlen with
      ⟨hfail, hroom⟩ | ⟨s₃, hrest, hs₃, hpage₃, hfailed₃, hdata₃⟩
    · refine .inl ⟨hfail, ?_⟩
      rintro ⟨hops, hnot, hbound⟩
      refine hroom ⟨hops, hfailed.trans hnot, ?_⟩
      have hpage₂ : ((s₁.write (s₁.dataOffset - s₁.fileOffset)
          (varint (encode message).length)).moveDataPointer
          (varint (encode message).length).length).pageSize = s.pageSize := hpage
      rw [hend, hpage₂]
      omega
    · refine .inr ⟨s₃, hrest, hs₃, hpage₃.trans hpage, hfailed₃.trans hfailed, ?_⟩
      rw [hdata₃, hend, hdata, hoffset, hload, frame, List.append_assoc]

/-- Serializing messages appends their frames, unless a file operation fails. -/
theorem serializeAll_spec (ops : FileOps) (hs : s.Valid) {messages : List Msg}
    (hlen : ∀ message ∈ messages, (encode message).length < 2 ^ 31) :
    ((s.serializeAll encode ops messages).2.failed = true ∧
        ¬ s.Roomy ops (frames encode messages).length) ∨
      (∀ result ∈ (s.serializeAll encode ops messages).1, result = .ok true) ∧
        (s.serializeAll encode ops messages).2.Valid ∧
        (s.serializeAll encode ops messages).2.failed = s.failed ∧
        (s.serializeAll encode ops messages).2.file.bytes.load 0
          (s.serializeAll encode ops messages).2.dataOffset =
            s.file.bytes.load 0 s.dataOffset ++ frames encode messages := by
  induction messages generalizing s with
  | nil => exact .inr ⟨by simp [serializeAll], hs, rfl, by simp [serializeAll]⟩
  | cons message messages ih =>
    have hframes : (frames encode (message :: messages)).length =
        (frame encode message).length + (frames encode messages).length := List.length_append
    rcases serialize_spec ops hs (hlen message (List.mem_cons_self ..)) with
      ⟨hfail, hroom⟩ | ⟨s', hstep, hs', hpage, hfailed, hdata⟩
    · refine .inl ⟨failed_serializeAll ops hfail messages, ?_⟩
      rintro ⟨hops, hnot, hbound⟩
      exact hroom ⟨hops, hnot, by omega⟩
    · have hoffset : s'.dataOffset = s.dataOffset + (frame encode message).length := by
        have hcount := congrArg List.length hdata
        simpa using hcount
      simp only [serializeAll, hstep]
      rcases ih hs' (fun m hm => hlen m (List.mem_cons_of_mem message hm)) with
        ⟨hfail, hroom⟩ | ⟨hresults, hvalid, hfailed', hrest⟩
      · refine .inl ⟨hfail, ?_⟩
        rintro ⟨hops, hnot, hbound⟩
        exact hroom ⟨hops, hfailed.trans hnot, by rw [hoffset, hpage]; omega⟩
      · refine .inr ⟨?_, hvalid, hfailed'.trans hfailed, ?_⟩
        · intro result hresult
          rcases List.mem_cons.mp hresult with rfl | hresult
          · rfl
          · exact hresults result hresult
        · rw [hrest, hdata, frames_cons, List.append_assoc]

theorem opened_valid (outputFileName : String) {pageSize : ℕ}
    (hpage : 0 < pageSize ∧ pageSize < 2 ^ 64) (file : File) :
    (opened outputFileName pageSize file).Valid where
  isOpen := rfl
  pageSize := hpage
  window := fun hmapped => absurd hmapped (by simp [opened])
  data := Nat.two_pow_pos 63
  dataInFile := Nat.zero_le _
  writes := by simp [opened]

theorem failed_of_close (ops : FileOps) (h : (s.close ops).2.failed = false) :
    s.failed = false := by
  unfold close at h
  split_ifs at h
  · exact (Bool.or_eq_false_iff.mp h).1
  · exact h

theorem writes_close (ops : FileOps) : (s.close ops).2.writes = s.writes := by
  unfold close
  split_ifs <;> rfl

/-- Closing without a failure leaves exactly the data. -/
theorem close_spec (ops : FileOps) (hs : s.Valid) (hok : (s.close ops).2.failed = false) :
    (s.close ops).1 = true ∧
      (s.close ops).2.file.contents = s.file.bytes.load 0 s.dataOffset := by
  unfold close at hok ⊢
  simp only [hs.isOpen, if_true, Bool.or_eq_false_iff, Bool.not_eq_false'] at hok ⊢
  refine ⟨hok.2, ?_⟩
  have htruncated : (decide (0 ≤ toInt64 s.dataOffset) && ops.ftruncate) = true := by
    simp only [Bool.and_eq_true] at hok ⊢
    exact hok.2.1.1.1
  simp only [htruncated, if_true, File.contents, File.truncate]
  apply Memory.load_congr
  intro i hi
  have hfile := hs.dataInFile
  rw [if_pos (by omega)]

/-- The messages are serialized and the file is closed. -/
def writeFile (encode : Msg → List UInt8) (ops : FileOps) (messages : List Msg)
    (s : FileTraceSerializer) : List (Except String Bool) × Bool × FileTraceSerializer :=
  let (results, s) := s.serializeAll encode ops messages
  let (closed, s) := s.close ops
  (results, closed, s)

/-- When no file operation fails, every call reports success, every write is inside the
window of its time, the file is the sequence of the messages behind their lengths, and the
reader gives them back. -/
theorem serialize_roundTrip (encode : Msg → List UInt8) (parse : List UInt8 → Option Msg)
    (hparse : ∀ message, parse (encode message) = some message) (messages : List Msg)
    (hlen : ∀ message ∈ messages, (encode message).length < 2 ^ 31) (ops : FileOps)
    (outputFileName : String) (pageSize : ℕ) (hpage : 0 < pageSize ∧ pageSize < 2 ^ 64)
    (file : File) (results : List (Except String Bool)) (closed : Bool)
    (hrun : (opened outputFileName pageSize file).writeFile encode ops messages =
      (results, closed, s))
    (hok : s.failed = false) :
    (∀ result ∈ results, result = .ok true) ∧ closed = true ∧ (∀ w ∈ s.writes, w.Inside) ∧
      s.file.contents = messages.flatMap (fun message =>
        varint (encode message).length ++ encode message) ∧
      TraceFileReader.readAll parse (messages.length + 1) (TraceFileReader.init s.file.contents) =
        (messages, .finished) := by
  have hall := serializeAll_spec ops (opened_valid outputFileName hpage file) hlen
  unfold writeFile at hrun
  generalize (opened outputFileName pageSize file).serializeAll encode ops messages = written at *
  obtain ⟨results', s'⟩ := written
  simp only [Prod.mk.injEq] at hrun hall
  obtain ⟨rfl, rfl, rfl⟩ := hrun
  obtain ⟨hresults, hvalid, _, hdata⟩ := hall.resolve_left fun hfail => by
    rw [failed_of_close ops hok] at hfail
    exact absurd hfail.1 Bool.false_ne_true
  obtain ⟨hclose, hcontents⟩ := close_spec ops hvalid hok
  have hframes : (s'.close ops).2.file.contents = frames encode messages := by
    rw [hcontents, hdata]
    rfl
  refine ⟨hresults, hclose, ?_, hframes, ?_⟩
  · rw [writes_close]
    exact hvalid.writes
  · rw [hframes]
    exact readAll_frames hparse hlen (Nat.lt_succ_self _)

/-- The stored form of an event header that has only a sequence id below 128: nothing for
zero, a tag and one byte otherwise. -/
def encodeSid (sid : Fin 128) : List UInt8 := if sid = 0 then [] else [8, UInt8.ofNat sid]

def parseSid : List UInt8 → Option (Fin 128)
  | [] => some 0
  | [8, byte] => if h : byte.toNat < 128 then some ⟨byte.toNat, h⟩ else none
  | _ => none

/-- An operating system that refuses nothing. -/
def willing : FileOps := ⟨fun _ => true, fun _ => true, true, true, true, true⟩

/-- Three messages, one of them empty, over an older file. -/
theorem serialize_roundTrip_small :
    let run := (opened "octf.trace.0" 4096 ⟨fun _ => 255, 9⟩).writeFile encodeSid willing [5, 0, 7]
    (∀ result ∈ run.1, result = .ok true) ∧ run.2.1 = true ∧
      (∀ w ∈ run.2.2.writes, w.Inside) ∧
      run.2.2.file.contents = [5, 0, 7].flatMap (fun message =>
        varint (encodeSid message).length ++ encodeSid message) ∧
      TraceFileReader.readAll parseSid 4 (TraceFileReader.init run.2.2.file.contents) =
        ([5, 0, 7], .finished) :=
  serialize_roundTrip encodeSid parseSid (by decide) [5, 0, 7] (by decide) willing
    "octf.trace.0" 4096 (by decide) ⟨fun _ => 255, 9⟩ _ _ rfl rfl

end FileTraceSerializer

end Octf.Storage
