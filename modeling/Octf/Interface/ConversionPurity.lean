import Octf.Foundation.Run
import Octf.Interface.TraceConverter

/-! What the conversion of a raw event depends on: the bytes of its buffer, as long as its names
are terminated, and of all earlier events only the type of a file event. -/
namespace Octf.Interface
open Foundation Octf.Parser

/-! ### The kinds of raw events -/

inductive Kind where
  | deviceDesc | io | ioCmpl | fsMeta | fsFileName | fsFileEvent
  deriving DecidableEq

def Kind.size : Kind → ℕ
  | .deviceDesc => iotraceEventDeviceDescSize
  | .io => iotraceEventSize
  | .ioCmpl => iotraceEventCompletionSize
  | .fsMeta => iotraceEventFsMetaSize
  | .fsFileName => iotraceEventFsFileNameSize
  | .fsFileEvent => iotraceEventFsFileEventSize

def kindOfType : ℕ → Option Kind
  | 0 => some .deviceDesc
  | 1 => some .io
  | 2 => some .ioCmpl
  | 3 => some .fsMeta
  | 4 => some .fsFileName
  | 5 => some .fsFileEvent
  | _ => none

/-- The kind of a raw event that has the size of its kind. -/
def RawEvent.kind (raw : RawEvent) : Option Kind :=
  if raw.size < iotraceEventHdrSize then none
  else (kindOfType (hdrType raw.memory)).filter fun kind => raw.size = kind.size

theorem RawEvent.size_of_kind {raw : RawEvent} {kind : Kind} (h : raw.kind = some kind) :
    raw.size = kind.size := by
  unfold RawEvent.kind at h
  split_ifs at h
  exact of_decide_eq_true (Option.filter_eq_some_iff.mp h).2

namespace TraceConverter

def convertKind (t : TraceConverter) (raw : RawEvent) : Kind → Conversion × TraceConverter
  | .deviceDesc => t.convertDesc raw
  | .io => t.convertIo raw
  | .ioCmpl => t.convertIoCmpl raw
  | .fsMeta => t.convertFsMeta raw
  | .fsFileName => t.convertFsFileName raw
  | .fsFileEvent => t.convertFsFileEvent raw

theorem convertTrace_eq (t : TraceConverter) (raw : RawEvent) :
    t.convertTrace raw =
      (raw.kind.map (t.convertKind raw)).getD (nullptr, t) := by
  have hkind (kind : Kind) : (if raw.size ≠ kind.size then (nullptr, t)
      else t.convertKind raw kind) = (((some kind).filter fun kind => raw.size = kind.size).map
        (t.convertKind raw)).getD (nullptr, t) := by
    by_cases hsize : raw.size = kind.size <;> simp [Option.filter, hsize]
  unfold convertTrace RawEvent.kind
  by_cases hsmall : raw.size < iotraceEventHdrSize
  · rw [if_pos hsmall, if_pos hsmall]
    rfl
  · rw [if_neg hsmall, if_neg hsmall]
    generalize hdrType raw.memory = type
    match type with
    | 0 => exact hkind .deviceDesc
    | 1 => exact hkind .io
    | 2 => exact hkind .ioCmpl
    | 3 => exact hkind .fsMeta
    | 4 => exact hkind .fsFileName
    | 5 => exact hkind .fsFileEvent
    | n + 6 => rfl

/-! ### What is left of earlier events -/

/-- The fields of the kept messages that a conversion does not set. -/
structure Residue where
  ioClass : ℕ
  refSid : ℕ
  fsEventType : FsEventType

def residue (t : TraceConverter) : Residue :=
  ⟨(mutableIo t.evIo).ioClass, (mutableFilesystemMeta t.evFsMeta).refSid,
    (mutableFilesystemFileEvent t.evFsFileEvent).fsEventType⟩

/-- Two converters whose next message is the same for this raw event. -/
structure SameResidue (t t' : TraceConverter) (raw : RawEvent) : Prop where
  ioClass : t.residue.ioClass = t'.residue.ioClass
  refSid : t.residue.refSid = t'.residue.refSid
  fsEventType : raw.kind = some .fsFileEvent →
    fsEventTypeOf (fsEventType raw.memory) t.residue.fsEventType =
      fsEventTypeOf (fsEventType raw.memory) t'.residue.fsEventType

/-- The conversion depends on the earlier ones through the residue only. -/
theorem convertTrace_congr {t t' : TraceConverter} {raw : RawEvent} (h : SameResidue t t' raw) :
    (t.convertTrace raw).1 = (t'.convertTrace raw).1 := by
  obtain ⟨hio, hmeta, hevent⟩ := h
  simp only [residue] at hio hmeta hevent
  rw [convertTrace_eq, convertTrace_eq]
  rcases hkind : raw.kind with _ | kind
  · rfl
  · change (t.convertKind raw kind).1 = (t'.convertKind raw kind).1
    cases kind with
    | deviceDesc =>
      simp only [convertKind, convertDesc, setHeader]
      generalize raw.readName 40 256 = name, raw.readName 296 256 = model
      obtain ⟨_ | name, nameRead⟩ := name
      · rfl
      · obtain ⟨_ | model, modelRead⟩ := model <;> rfl
    | io =>
      simp only [convertKind, convertIo, mutableIo_setHeader]
      cases operation raw.memory with
      | none => rfl
      | some operation => simp only [hio, setHeader]
    | ioCmpl => simp only [convertKind, convertIoCmpl, setHeader]
    | fsMeta =>
      simp only [convertKind, convertFsMeta, mutableFilesystemMeta_setHeader, hmeta]
      simp only [setHeader]
    | fsFileName =>
      simp only [convertKind, convertFsFileName, setHeader]
      generalize raw.readName 80 64 = name
      obtain ⟨_ | name, nameRead⟩ := name <;> rfl
    | fsFileEvent =>
      simp only [convertKind, convertFsFileEvent, mutableFilesystemFileEvent_setHeader,
        hevent hkind]
      simp only [setHeader]

/-- What a conversion leaves: the type of a file event, if it is one of the four. -/
theorem residue_convertKind (t : TraceConverter) (raw : RawEvent) (kind : Kind) :
    (t.convertKind raw kind).2.residue = { t.residue with
      fsEventType := if kind = .fsFileEvent then
        fsEventTypeOf (fsEventType raw.memory) t.residue.fsEventType
        else t.residue.fsEventType } := by
  cases kind with
  | deviceDesc =>
    simp only [convertKind, convertDesc]
    generalize raw.readName 40 256 = name, raw.readName 296 256 = model
    obtain ⟨_ | name, nameRead⟩ := name
    · rfl
    · obtain ⟨_ | model, modelRead⟩ := model <;> rfl
  | io =>
    simp only [convertKind, convertIo]
    cases operation raw.memory <;> rfl
  | ioCmpl => rfl
  | fsMeta => rfl
  | fsFileName =>
    simp only [convertKind, convertFsFileName]
    generalize raw.readName 80 64 = name
    obtain ⟨_ | name, nameRead⟩ := name <;> rfl
  | fsFileEvent => rfl

theorem residue_convertTrace (t : TraceConverter) (raw : RawEvent) :
    (t.convertTrace raw).2.residue = { t.residue with
      fsEventType := if raw.kind = some .fsFileEvent then
        fsEventTypeOf (fsEventType raw.memory) t.residue.fsEventType
        else t.residue.fsEventType } := by
  rw [convertTrace_eq]
  cases raw.kind with
  | none => rfl
  | some kind =>
    simp only [Option.map_some, Option.getD_some, Option.some.injEq]
    exact residue_convertKind t raw kind

end TraceConverter

/-- A file event with one of the four types. -/
def RawEvent.KnownFileEvent (raw : RawEvent) : Prop :=
  raw.kind = some .fsFileEvent ∧ fsEventType raw.memory < 4

instance (raw : RawEvent) : Decidable raw.KnownFileEvent := inferInstanceAs (Decidable (_ ∧ _))

theorem fsEventTypeOf_of_ge {type : ℕ} (h : 4 ≤ type) (previous : FsEventType) :
    TraceConverter.fsEventTypeOf type previous = previous := by
  match type with
  | n + 4 => rfl

theorem fsEventTypeOf_known {type : ℕ} (h : type < 4) (previous previous' : FsEventType) :
    TraceConverter.fsEventTypeOf type previous = TraceConverter.fsEventTypeOf type previous' ∧
      TraceConverter.fsEventTypeOf type previous ≠ .UnknownFsEventType := by
  match type with
  | 0 | 1 | 2 | 3 => exact ⟨rfl, nofun⟩

/-- The converter after some earlier calls. -/
def after (history : List RawEvent) : TraceConverter :=
  run (fun raw t => (TraceConverter.convertTrace t raw).2) history .new

/-- Only a known file event leaves anything behind. -/
theorem residue_after (history : List RawEvent) :
    (after history).residue.ioClass = 0 ∧ (after history).residue.refSid = 0 ∧
      ((after history).residue.fsEventType = .UnknownFsEventType ↔
        ∀ raw ∈ history, ¬ raw.KnownFileEvent) := by
  induction history using List.reverseRecOn with
  | nil => exact ⟨rfl, rfl, by simp; rfl⟩
  | append_singleton history raw ih =>
    obtain ⟨hclass, hsid, htype⟩ := ih
    have hstep : after (history ++ [raw]) = ((after history).convertTrace raw).2 := by
      rw [after, run_append]
      rfl
    rw [hstep, TraceConverter.residue_convertTrace]
    refine ⟨hclass, hsid, ?_⟩
    simp only [List.forall_mem_append, List.forall_mem_singleton, ← htype]
    by_cases hkind : raw.kind = some .fsFileEvent
    · by_cases hknown : fsEventType raw.memory < 4
      · have hne := (fsEventTypeOf_known hknown (after history).residue.fsEventType .Create).2
        simp [hkind, hne, RawEvent.KnownFileEvent, hknown]
      · simp [hkind, fsEventTypeOf_of_ge (not_lt.mp hknown), RawEvent.KnownFileEvent, hknown]
    · simp [hkind, RawEvent.KnownFileEvent]

/-! ### Names -/

/-- Some byte of the field is zero. -/
def Terminated (m : Memory) (offset fieldSize : ℕ) : Prop := ∃ i < fieldSize, m (offset + i) = 0

instance (m : Memory) (offset fieldSize : ℕ) : Decidable (Terminated m offset fieldSize) :=
  inferInstanceAs (Decidable (∃ i < fieldSize, _))

def NamesTerminated (m : Memory) : Kind → Prop
  | .deviceDesc => Terminated m 40 256 ∧ Terminated m 296 256
  | .fsFileName => Terminated m 80 64
  | _ => True

theorem strlen_eq_some {m : Memory} {p fuel n : ℕ} :
    strlen m p fuel = some n ↔ n < fuel ∧ m (p + n) = 0 ∧ ∀ i < n, m (p + i) ≠ 0 := by
  induction fuel generalizing p n with
  | zero => simp [strlen]
  | succ fuel ih =>
    rw [strlen]
    split_ifs with hzero
    · constructor
      · rintro ⟨⟩
        exact ⟨Nat.succ_pos _, hzero, nofun⟩
      · rintro ⟨-, -, hbefore⟩
        rcases Nat.eq_zero_or_pos n with rfl | hpos
        · rfl
        · exact absurd hzero (hbefore 0 hpos)
    · cases n with
      | zero => simp [hzero]
      | succ n =>
        simp only [Option.map_eq_some_iff, Nat.add_right_cancel_iff, exists_eq_right, ih,
          Nat.add_lt_add_iff_right, Nat.add_assoc, Nat.add_comm 1]
        refine and_congr_right fun _ => and_congr_right fun _ => ⟨fun hbefore i hi => ?_,
          fun hbefore i hi => hbefore (i + 1) (by omega)⟩
        cases i with
        | zero => exact hzero
        | succ i => exact hbefore i (by omega)

/-- The name of a terminated field is read inside it. -/
theorem readName_of_terminated {raw : RawEvent} {offset fieldSize : ℕ}
    (hin : offset + fieldSize ≤ raw.extent) (h : Terminated raw.memory offset fieldSize) :
    ∃ n < fieldSize, strlen raw.memory offset (raw.extent - offset) = some n ∧
      raw.readName offset fieldSize =
        (some (text (raw.memory.load offset n)), ⟨offset, fieldSize, n + 1⟩) := by
  obtain ⟨n, ⟨hn, hzero⟩, hleast⟩ : ∃ n, (n < fieldSize ∧ raw.memory (offset + n) = 0) ∧
      ∀ i < n, ¬ (i < fieldSize ∧ raw.memory (offset + i) = 0) :=
    ⟨Nat.find h, Nat.find_spec h, fun i hi => Nat.find_min h hi⟩
  have hlen : strlen raw.memory offset (raw.extent - offset) = some n :=
    strlen_eq_some.mpr ⟨by omega, hzero, fun i hi hz => hleast i hi ⟨by omega, hz⟩⟩
  refine ⟨n, hn, hlen, ?_⟩
  unfold RawEvent.readName
  rw [hlen]

/-- Only a field with a terminator is read without its neighbours. -/
theorem count_readName {raw : RawEvent} {offset fieldSize : ℕ}
    (hin : offset + fieldSize ≤ raw.extent) :
    (raw.readName offset fieldSize).2.count ≤ (raw.readName offset fieldSize).2.fieldSize ↔
      Terminated raw.memory offset fieldSize := by
  constructor
  · intro hcount
    unfold RawEvent.readName at hcount
    rcases hlen : strlen raw.memory offset (raw.extent - offset) with _ | n
    · simp only [hlen] at hcount
      omega
    · simp only [hlen] at hcount
      exact ⟨n, hcount, (strlen_eq_some.mp hlen).2.1⟩
  · intro h
    obtain ⟨n, hn, -, hread⟩ := readName_of_terminated hin h
    rw [hread]
    exact hn

theorem nameReads_iff {t : TraceConverter} {raw : RawEvent} {kind : Kind}
    (hin : kind.size ≤ raw.extent) :
    (∀ read ∈ (t.convertKind raw kind).1.nameReads, read.count ≤ read.fieldSize) ↔
      NamesTerminated raw.memory kind := by
  cases kind with
  | deviceDesc =>
    have hname : Terminated raw.memory 40 256 ↔ _ :=
      (count_readName (hin.trans' (by decide : 40 + 256 ≤ 552))).symm
    have hmodel : Terminated raw.memory 296 256 ↔ _ :=
      (count_readName (hin.trans' (by decide : 296 + 256 ≤ 552))).symm
    have hfull := @readName_of_terminated raw 40 256 (hin.trans' (by decide : 40 + 256 ≤ 552))
    simp only [TraceConverter.convertKind, TraceConverter.convertDesc, NamesTerminated]
    rcases hread : raw.readName 40 256 with ⟨_ | name, nameRead⟩
    · -- a name that is not there was not terminated either
      rw [hread] at hname
      simp only [List.forall_mem_singleton, ← hname]
      refine ⟨fun hterm => ?_, And.left⟩
      obtain ⟨n, -, -, hsome⟩ := hfull hterm
      rw [hsome] at hread
      simp at hread
    · rw [hread] at hname
      rw [hname, hmodel]
      generalize raw.readName 296 256 = model
      obtain ⟨_ | model, modelRead⟩ := model <;> simp
  | fsFileName =>
    have hname := @count_readName raw 80 64 (hin.trans' (by decide : 80 + 64 ≤ 144))
    simp only [TraceConverter.convertKind, TraceConverter.convertFsFileName, NamesTerminated,
      ← hname]
    generalize raw.readName 80 64 = name
    obtain ⟨_ | name, nameRead⟩ := name <;> simp
  | io =>
    simp only [TraceConverter.convertKind, TraceConverter.convertIo, NamesTerminated]
    cases TraceConverter.operation raw.memory <;> simp [TraceConverter.nullptr]
  | ioCmpl => simp [TraceConverter.convertKind, TraceConverter.convertIoCmpl, NamesTerminated]
  | fsMeta => simp [TraceConverter.convertKind, TraceConverter.convertFsMeta, NamesTerminated]
  | fsFileEvent =>
    simp [TraceConverter.convertKind, TraceConverter.convertFsFileEvent, NamesTerminated]

/-! ### The bytes of the buffer -/

/-- The first bytes are the same. -/
def Agree (size : ℕ) (m m' : Memory) : Prop := ∀ i < size, m i = m' i

namespace Agree

variable {size p : ℕ} {m m' : Memory}

theorem u8 (h : Agree size m m') (hp : p < size) : Interface.u8 m p = Interface.u8 m' p := by
  rw [Interface.u8, h p hp, Interface.u8]

theorem load (h : Agree size m m') {n : ℕ} (hp : p + n ≤ size) : m.load p n = m'.load p n :=
  Memory.load_congr fun i hi => h (p + i) (by omega)

theorem u32 (h : Agree size m m') (hp : p + 4 ≤ size) :
    Interface.u32 m p = Interface.u32 m' p := by
  rw [Interface.u32, h.load hp, Interface.u32]

theorem u64 (h : Agree size m m') (hp : p + 8 ≤ size) :
    Interface.u64 m p = Interface.u64 m' p := by
  rw [Interface.u64, h.load hp, Interface.u64]

theorem s32 (h : Agree size m m') (hp : p + 4 ≤ size) :
    Interface.s32 m p = Interface.s32 m' p := by
  unfold Interface.s32
  rw [h.u32 hp]

theorem s64 (h : Agree size m m') (hp : p + 8 ≤ size) :
    Interface.s64 m p = Interface.s64 m' p := by
  unfold Interface.s64
  rw [h.u64 hp]

theorem setFileId (h : Agree size m m') (hp : p + 24 ≤ size) (partition : ℕ) :
    Interface.setFileId partition m p = Interface.setFileId partition m' p := by
  rw [Interface.setFileId, h.u64 (by omega), h.s64 (by omega), h.s64 (by omega),
    Interface.setFileId]

theorem setHeader (h : Agree size m m') (hsize : iotraceEventHdrSize ≤ size) (e : Event) :
    Interface.setHeader m e = Interface.setHeader m' e := by
  unfold iotraceEventHdrSize at hsize
  rw [Interface.setHeader, h.u64 (by omega), h.u64 (by omega), Interface.setHeader]

theorem operation (h : Agree size m m') (hsize : iotraceEventSize ≤ size) :
    TraceConverter.operation m = TraceConverter.operation m' := by
  unfold iotraceEventSize at hsize
  unfold TraceConverter.operation
  rw [h.u8 (by omega)]

theorem readName {raw raw' : RawEvent} {offset fieldSize : ℕ}
    (h : Agree size raw.memory raw'.memory) (hin : offset + fieldSize ≤ size)
    (hext : size ≤ raw.extent) (hext' : size ≤ raw'.extent)
    (hterm : Terminated raw.memory offset fieldSize) :
    raw.readName offset fieldSize = raw'.readName offset fieldSize := by
  obtain ⟨n, hn, hlen, hread⟩ := readName_of_terminated (by omega) hterm
  have hagree : ∀ i ≤ n, raw.memory (offset + i) = raw'.memory (offset + i) :=
    fun i hi => h (offset + i) (by omega)
  obtain ⟨-, hzero, hbefore⟩ := strlen_eq_some.mp hlen
  have hlen' : strlen raw'.memory offset (raw'.extent - offset) = some n := by
    refine strlen_eq_some.mpr ⟨by omega, ?_, fun i hi => ?_⟩
    · rw [← hagree n le_rfl]
      exact hzero
    · rw [← hagree i hi.le]
      exact hbefore i hi
  rw [hread, h.load (by omega)]
  unfold RawEvent.readName
  rw [hlen']

end Agree

/-- The kind is read from the header. -/
theorem kind_of_agree {raw raw' : RawEvent} (hsize : raw'.size = raw.size)
    (h : Agree raw.size raw.memory raw'.memory) : raw'.kind = raw.kind := by
  unfold RawEvent.kind
  rw [hsize]
  split_ifs with hsmall
  · rfl
  · unfold iotraceEventHdrSize at hsmall
    unfold hdrType
    rw [h.u32 (by omega)]

/-- With terminated names the conversion depends on nothing behind the buffer. -/
theorem convertKind_of_agree (t : TraceConverter) {raw raw' : RawEvent} {kind : Kind}
    (h : Agree kind.size raw.memory raw'.memory) (hext : kind.size ≤ raw.extent)
    (hext' : kind.size ≤ raw'.extent) (hterm : NamesTerminated raw.memory kind) :
    t.convertKind raw kind = t.convertKind raw' kind := by
  have hheader (e : Event) := h.setHeader (by cases kind <;> decide) e
  cases kind with
  | deviceDesc =>
    simp only [TraceConverter.convertKind, TraceConverter.convertDesc, hheader,
      h.readName (by decide : 40 + 256 ≤ 552) hext hext' hterm.1,
      h.readName (by decide : 296 + 256 ≤ 552) hext hext' hterm.2,
      h.u64 (by decide : 24 + 8 ≤ 552), h.u64 (by decide : 32 + 8 ≤ 552)]
  | io =>
    simp only [TraceConverter.convertKind, TraceConverter.convertIo, hheader,
      h.operation le_rfl, h.u32 (by decide : 52 + 4 ≤ 64), h.u64 (by decide : 32 + 8 ≤ 64),
      h.u32 (by decide : 40 + 4 ≤ 64), h.u32 (by decide : 48 + 4 ≤ 64),
      h.u8 (by decide : 57 < 64), h.u64 (by decide : 24 + 8 ≤ 64)]
  | ioCmpl =>
    simp only [TraceConverter.convertKind, TraceConverter.convertIoCmpl, hheader,
      h.u64 (by decide : 32 + 8 ≤ 56), h.u32 (by decide : 40 + 4 ≤ 56),
      h.s32 (by decide : 44 + 4 ≤ 56), h.u32 (by decide : 48 + 4 ≤ 56),
      h.u64 (by decide : 24 + 8 ≤ 56)]
  | fsMeta =>
    simp only [TraceConverter.convertKind, TraceConverter.convertFsMeta, hheader,
      h.u64 (by decide : 24 + 8 ≤ 80), h.u64 (by decide : 56 + 8 ≤ 80),
      h.u64 (by decide : 64 + 8 ≤ 80), h.u64 (by decide : 72 + 8 ≤ 80),
      h.setFileId (by decide : 32 + 24 ≤ 80)]
  | fsFileName =>
    simp only [TraceConverter.convertKind, TraceConverter.convertFsFileName, hheader,
      h.readName (by decide : 80 + 64 ≤ 144) hext hext' hterm,
      h.u64 (by decide : 24 + 8 ≤ 144), h.setFileId (by decide : 32 + 24 ≤ 144),
      h.setFileId (by decide : 56 + 24 ≤ 144)]
  | fsFileEvent =>
    simp only [TraceConverter.convertKind, TraceConverter.convertFsFileEvent, hheader, fsEventType,
      h.u64 (by decide : 24 + 8 ≤ 64), h.u32 (by decide : 56 + 4 ≤ 64),
      h.setFileId (by decide : 32 + 24 ≤ 64)]

/-! ### Purity -/

/-- The conversion after some earlier ones is that of a fresh converter, depends on the bytes of
the buffer only, and reads its names inside their fields. -/
structure Pure (history : List RawEvent) (raw : RawEvent) : Prop where
  fresh : ((after history).convertTrace raw).1.message =
    (TraceConverter.new.convertTrace raw).1.message
  bytes : ∀ raw' : RawEvent, raw'.size = raw.size → raw'.size ≤ raw'.extent →
    Agree raw.size raw.memory raw'.memory →
    ((after history).convertTrace raw').1.message = ((after history).convertTrace raw).1.message
  names : ∀ read ∈ ((after history).convertTrace raw).1.nameReads, read.count ≤ read.fieldSize

/-- The names are terminated, and a file event of a type that is not known comes before all file
events of a known one. -/
structure Regular (history : List RawEvent) (raw : RawEvent) : Prop where
  names : ∀ kind, raw.kind = some kind → NamesTerminated raw.memory kind
  first : raw.kind = some .fsFileEvent → 4 ≤ fsEventType raw.memory →
    ∀ earlier ∈ history, ¬ earlier.KnownFileEvent

theorem fresh_iff (history : List RawEvent) (raw : RawEvent) :
    ((after history).convertTrace raw).1.message =
        (TraceConverter.new.convertTrace raw).1.message ↔
      (raw.kind = some .fsFileEvent → 4 ≤ fsEventType raw.memory →
        ∀ earlier ∈ history, ¬ earlier.KnownFileEvent) := by
  obtain ⟨hclass, hsid, htype⟩ := residue_after history
  rw [← htype]
  constructor
  · intro hfresh hkind hge
    rw [TraceConverter.convertTrace_eq, TraceConverter.convertTrace_eq, hkind] at hfresh
    simp only [Option.map_some, Option.getD_some, TraceConverter.convertKind,
      TraceConverter.convertFsFileEvent, mutableFilesystemFileEvent_setHeader,
      fsEventTypeOf_of_ge hge, Option.some.injEq, Event.mk.injEq,
      EventType.filesystemFileEvent.injEq, EventIoFilesystemFileEvent.mk.injEq] at hfresh
    exact hfresh.2.2
  · intro hfirst
    refine congrArg Conversion.message (TraceConverter.convertTrace_congr ⟨hclass, hsid, ?_⟩)
    intro hkind
    rcases Nat.lt_or_ge (fsEventType raw.memory) 4 with hlt | hge
    · exact (fsEventTypeOf_known hlt _ _).1
    · rw [hfirst hkind hge]
      rfl

/-- A conversion is pure exactly when it is regular. -/
theorem conversion_pure_iff (history : List RawEvent) (raw : RawEvent)
    (hin : raw.size ≤ raw.extent) : Pure history raw ↔ Regular history raw := by
  have hnames (kind : Kind) (hkind : raw.kind = some kind) :
      (∀ read ∈ ((after history).convertTrace raw).1.nameReads, read.count ≤ read.fieldSize) ↔
        NamesTerminated raw.memory kind := by
    rw [TraceConverter.convertTrace_eq, hkind]
    exact nameReads_iff (by rw [← raw.size_of_kind hkind]; exact hin)
  constructor
  · intro hpure
    exact ⟨fun kind hkind => (hnames kind hkind).mp hpure.names,
      (fresh_iff history raw).mp hpure.fresh⟩
  · intro hregular
    refine ⟨(fresh_iff history raw).mpr hregular.first, fun raw' hsize hin' hagree => ?_, ?_⟩
    · rw [TraceConverter.convertTrace_eq, TraceConverter.convertTrace_eq,
        kind_of_agree hsize hagree]
      rcases hkind : raw.kind with _ | kind
      · rfl
      · have hks := raw.size_of_kind hkind
        rw [hks] at hagree hin hsize
        rw [hsize] at hin'
        simp only [Option.map_some, Option.getD_some]
        rw [convertKind_of_agree _ hagree hin hin' (hregular.names kind hkind)]
    · rcases hkind : raw.kind with _ | kind
      · rw [TraceConverter.convertTrace_eq, hkind]
        exact nofun
      · exact (hnames kind hkind).mpr (hregular.names kind hkind)

/-- A file event whose bytes are zero, but for its types. -/
def fileEvent (type : UInt8) : RawEvent :=
  ⟨fun i => if i = 16 then 5 else if i = 56 then type else 0, 64, 64⟩

/-- A file name of 64 bytes, with one more behind the buffer. -/
def longName : RawEvent :=
  ⟨fun i => if i = 16 then 4 else if 80 ≤ i ∧ i < 145 then 97 else 0, 146, 144⟩

theorem conversion_pure_iff_small :
    Pure [fileEvent 0] (fileEvent 1) ↔ Regular [fileEvent 0] (fileEvent 1) :=
  conversion_pure_iff [fileEvent 0] (fileEvent 1) (by decide)

/-- A file event of no known type is taken for a creation because one came before it, and of a
name without a terminator 66 bytes are read from its 64. -/
theorem conversion_impure :
    ¬ Pure [fileEvent 0] (fileEvent 4) ∧ ¬ Pure [] longName ∧
      ((after []).convertTrace longName).1.nameReads = [⟨80, 64, 66⟩] := by
  have hreads : ((after []).convertTrace longName).1.nameReads = [⟨80, 64, 66⟩] := by
    decide +kernel
  refine ⟨fun hpure => ?_, fun hpure => ?_, hreads⟩
  · have hfirst := (fresh_iff _ _).mp hpure.fresh (by decide +kernel) (by decide +kernel)
    exact hfirst (fileEvent 0) List.mem_cons_self (by decide +kernel)
  · have hinside := hpure.names
    rw [hreads] at hinside
    exact absurd (hinside _ List.mem_cons_self) (by decide)

end Octf.Interface
