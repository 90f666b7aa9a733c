import Octf.Analytics.TraceStatistics
import Octf.Extension.Printout
import Octf.Trace.TraceCacheLocal

/-! The services that keep their results in the cache of the trace: an answer is what was computed
for its query, and a result that is cached is not computed again. -/
namespace Octf.Interface
open Foundation Octf.Trace
open Octf.Extension (OutputFormat)
open Octf.Analytics.ParsedIoTraceEventHandlerStatistics (DEFAULT_LBA_HIT_MAP_RANGE_SIZE)

structure GetLbaHistogramRequest where
  tracePath : String
  format : OutputFormat
  bucketSize : ℕ
  subrangeStart : ℤ
  subrangeEnd : ℤ
  deriving DecidableEq

/-- What is asked for: six requests of the interface, and three values that handlers need. -/
inductive Query where
  | getTraceStatistics
  | getLatencyHistogram
  | getLbaHistogram (request : GetLbaHistogramRequest)
  | getSizeHistogram
  | getQueueDepthHistogram
  | getFileSystemStatistics
  | getDevicesSize
  | getWorkingSetSize
  | createBuilders
  deriving DecidableEq

/-- What a handler computes when it processes the events of the trace. -/
inductive Work where
  | statistics
  | latencyHistogram
  | lbaHistogram (bucketSize : ℕ) (subrangeStart subrangeEnd : ℤ)
  | sizeHistogram
  | queueDepthHistogram
  | filesystemStatistics
  | devicesSize
  | workset

/-- `SimpleKey`, or the request itself. -/
inductive CacheKey where
  | simple (name : String)
  | request (request : GetLbaHistogramRequest)
  deriving DecidableEq

namespace Query

def work : Query → Work
  | .getTraceStatistics => .statistics
  | .getLatencyHistogram => .latencyHistogram
  | .getLbaHistogram request =>
    .lbaHistogram
      (if request.bucketSize ≠ 0 then request.bucketSize else DEFAULT_LBA_HIT_MAP_RANGE_SIZE)
      request.subrangeStart request.subrangeEnd
  | .getSizeHistogram => .sizeHistogram
  | .getQueueDepthHistogram => .queueDepthHistogram
  | .getFileSystemStatistics => .filesystemStatistics
  | .getDevicesSize => .devicesSize
  | .getWorkingSetSize => .workset
  | .createBuilders => .workset

def key : Query → CacheKey
  | .getTraceStatistics => .simple "Statistics"
  | .getLatencyHistogram => .simple "LatencyHistogram"
  | .getLbaHistogram request => .request request
  | .getSizeHistogram => .simple "SizeHistogram"
  | .getQueueDepthHistogram => .simple "QueueDepthHistogram"
  | .getFileSystemStatistics => .simple "FileSystemStatistics"
  | .getDevicesSize => .simple "DevicesSize"
  | .getWorkingSetSize => .simple "WorkingSetSize"
  | .createBuilders => .simple "BuildExtensionsWorkset"

theorem key_injective : Function.Injective key := by
  intro q q' h
  cases q <;> cases q' <;> simp_all [key]

/-- What is thrown before the cache is read. -/
def exception : Query → Option String
  | .getLbaHistogram request =>
    if (request.subrangeStart ≠ 0 ∨ request.subrangeEnd ≠ 0) ∧
        ¬ (request.subrangeStart < request.subrangeEnd ∧ 0 ≤ request.subrangeStart) then
      some "Invalid values given for subrange"
    else none
  | _ => none

end Query

/-- The messages that are packed, and what handlers compute under a version of the framework. The
events of the trace do not change any more; what its extensions store can be read instead of them,
and is changed by those that build an extension. -/
structure Services (Msg Any Ty Stored : Type*) where
  ops : AnyOps Msg Any Ty
  message : CacheKey → Msg
  /-- The type of the result. -/
  response : Query → Ty
  compute : String → Work → Stored → Except String Msg × Stored

namespace Services

variable {Msg Any Ty Stored : Type*} (services : Services Msg Any Ty Stored)

/-- A result, and what it was computed for. -/
structure Computation (Msg : Type*) where
  version : String
  query : Query
  result : Msg

/-- The file of the cache, what the extensions store, the results that were computed since the cache
was last cleared, and the answers so far. -/
structure State (Msg Any Stored : Type*) where
  file : Option (TraceCache Any)
  stored : Stored
  computed : List (Computation Msg)
  answers : List (Except String Msg)

variable [DecidableEq Any]

def serve (version : String) (q : Query) (s : State Msg Any Stored) : State Msg Any Stored :=
  match q.exception with
  | some message => { s with answers := s.answers ++ [.error message] }
  | none =>
    let key := services.message q.key
    match TraceCacheLocal.read services.ops version (services.response q) key s.file with
    | (some value, file) => { s with file := file, answers := s.answers ++ [.ok value] }
    | (none, file) =>
      match services.compute version q.work s.stored with
      | (.error message, stored) => ⟨file, stored, s.computed, s.answers ++ [.error message]⟩
      | (.ok value, stored) =>
        ⟨(TraceCacheLocal.write services.ops version key value file).2, stored,
          s.computed ++ [⟨version, q, value⟩], s.answers ++ [.ok value]⟩

inductive Action (Stored : Type*) where
  /-- a query, under the version of the framework at its time -/
  | query (version : String) (q : Query)
  | clear
  /-- others build or remove extensions -/
  | extend (stored : Stored)

def step (action : Action Stored) (s : State Msg Any Stored) : State Msg Any Stored :=
  match action with
  | .query version q => services.serve version q s
  | .clear => { s with file := none, computed := [] }
  | .extend stored => { s with stored := stored }

def init (stored : Stored) : State Msg Any Stored := ⟨none, stored, [], []⟩

/-- What may be answered: the exception of the query, a result that was computed for it under the
same version since the cache was last cleared, or what is computed now. -/
inductive Answer (version : String) (q : Query) (s : State Msg Any Stored) :
    Except String Msg → Prop
  | exception {message : String} (h : q.exception = some message) :
      Answer version q s (.error message)
  | cached {value : Msg} (h : q.exception = none) (hmem : ⟨version, q, value⟩ ∈ s.computed) :
    Answer version q s (.ok value)
  | computed (h : q.exception = none) :
    Answer version q s (services.compute version q.work s.stored).1

/-- A query is given one answer, which is among the computed ones behind it unless it is an
exception. -/
def Answers (action : Action Stored) (s : State Msg Any Stored) : Prop :=
  ∀ version q, action = .query version q → ∃ answer, services.Answer version q s answer ∧
    (services.step action s).answers = s.answers ++ [answer] ∧
    ∀ value, answer = .ok value → ⟨version, q, value⟩ ∈ (services.step action s).computed

/-- Different keys are packed differently, and what is unpacked is what was packed. -/
structure Lawful : Prop where
  keys : ∀ key key' pKey, services.ops.packFrom (services.message key) = some pKey →
    services.ops.packFrom (services.message key') = some pKey → key = key'
  unpacks : ∀ message pMessage type unpacked, services.ops.packFrom message = some pMessage →
    services.ops.unpackTo type pMessage = some unpacked → unpacked = message

/-- The entry holds a result that was computed for its key under its version. -/
def Traced (computed : List (Computation Msg)) (entry : TraceCache.Entry Any) : Prop :=
  ∃ c ∈ computed, c.version = entry.version ∧
    services.ops.packFrom (services.message c.query.key) = some entry.key ∧
    services.ops.packFrom c.result = some entry.value

/-- Every entry of the file can be traced back. -/
def Trusted (computed : List (Computation Msg)) (file : Option (TraceCache Any)) : Prop :=
  ∀ entry ∈ (file.getD ⟨[]⟩).entires, services.Traced computed entry

variable {services} {file : Option (TraceCache Any)} {version : String} {q : Query}
  {computed : List (Computation Msg)} {s : State Msg Any Stored}

theorem mem_of_lookup {pKey : Any} {entry : TraceCache.Entry Any}
    (h : TraceCacheLocal.lookup file pKey = some entry) :
    entry ∈ (file.getD ⟨[]⟩).entires ∧ entry.key = pKey :=
  ⟨List.mem_of_find?_eq_some h, by simpa using List.find?_some h⟩

/-- A read leaves only entries that were there. -/
theorem mem_read {type : Ty} {key : Msg} {entry : TraceCache.Entry Any}
    (h : entry ∈ ((TraceCacheLocal.read services.ops version type key file).2.getD ⟨[]⟩).entires) :
    entry ∈ (file.getD ⟨[]⟩).entires := by
  unfold TraceCacheLocal.read at h
  cases hkey : services.ops.packFrom key with
  | none =>
    rw [hkey] at h
    exact h
  | some pKey =>
    simp only [hkey] at h
    cases hfind : TraceCacheLocal.find (file.getD ⟨[]⟩) pKey with
    | none =>
      rw [hfind] at h
      exact h
    | some found =>
      simp only [hfind] at h
      generalize (if TraceCacheLocal.isCacheEntryValid version found.1 then
        services.ops.unpackTo type found.1.value else none).isNone = erased at h
      cases erased with
      | false => exact h
      | true =>
        rw [TraceCacheLocal.key_of_mem_erase h]
        exact List.fst_mem_of_mem_zipIdx (List.mem_of_find?_eq_some hfind)

/-- A write adds one entry. -/
theorem mem_write {key value : Msg} {pKey pValue : Any}
    (hkey : services.ops.packFrom key = some pKey)
    (hvalue : services.ops.packFrom value = some pValue) {entry : TraceCache.Entry Any}
    (h : entry ∈ ((TraceCacheLocal.write services.ops version key value file).2.getD
      ⟨[]⟩).entires) : entry ∈ (file.getD ⟨[]⟩).entires ∨ entry = ⟨pKey, pValue, version⟩ := by
  unfold TraceCacheLocal.write at h
  simp only [hkey, hvalue] at h
  cases hfind : TraceCacheLocal.find (file.getD ⟨[]⟩) pKey with
  | none =>
    rw [hfind] at h
    simpa using h
  | some found =>
    rw [hfind] at h
    rcases List.mem_or_eq_of_mem_set h with hmem | rfl
    · exact Or.inl hmem
    · rw [TraceCacheLocal.key_of_find hfind]
      exact Or.inr rfl

/-! ### The answers -/

omit [DecidableEq Any] in
theorem Traced.mono {entry : TraceCache.Entry Any} (h : services.Traced computed entry)
    (more : List (Computation Msg)) : services.Traced (computed ++ more) entry := by
  obtain ⟨c, hmem, hentry⟩ := h
  exact ⟨c, List.mem_append_left _ hmem, hentry⟩

theorem Trusted.read (h : services.Trusted computed file) (type : Ty) (key : Msg) :
    services.Trusted computed (TraceCacheLocal.read services.ops version type key file).2 :=
  fun entry hentry => h entry (mem_read hentry)

/-- A computed result is written under its key and its version. -/
theorem Trusted.write (h : services.Trusted computed file) (value : Msg) :
    services.Trusted (computed ++ [⟨version, q, value⟩])
      (TraceCacheLocal.write services.ops version (services.message q.key) value file).2 := by
  have hold : services.Trusted (computed ++ [⟨version, q, value⟩]) file :=
    fun entry hentry => (h entry hentry).mono _
  cases hkey : services.ops.packFrom (services.message q.key) with
  | none => rwa [TraceCacheLocal.write, hkey]
  | some pKey =>
    cases hvalue : services.ops.packFrom value with
    | none =>
      unfold TraceCacheLocal.write
      simpa only [hkey, hvalue] using hold
    | some pValue =>
      intro entry hentry
      rcases mem_write hkey hvalue hentry with hmem | rfl
      · exact hold entry hmem
      · exact ⟨⟨version, q, value⟩, by simp, rfl, hkey, hvalue⟩

/-- What a read finds was computed for its query. -/
theorem Trusted.found (h : services.Trusted computed file) (hlawful : services.Lawful) {value : Msg}
    (hread : (TraceCacheLocal.read services.ops version (services.response q)
      (services.message q.key) file).1 = some value) : ⟨version, q, value⟩ ∈ computed := by
  cases hkey : services.ops.packFrom (services.message q.key) with
  | none =>
    rw [TraceCacheLocal.read, hkey] at hread
    cases hread
  | some pKey =>
    rw [TraceCacheLocal.read_fst hkey, Option.bind_eq_some_iff] at hread
    obtain ⟨entry, hlookup, husable⟩ := hread
    obtain ⟨hmem, hentry⟩ := mem_of_lookup hlookup
    obtain ⟨⟨version', q', result⟩, hc, hversion, hpacked, hresult⟩ := h entry hmem
    unfold TraceCacheLocal.usable at husable
    split_ifs at husable with hvalid
    obtain rfl : version' = version := hversion.trans hvalid
    obtain rfl : q = q' := Query.key_injective (hlawful.keys _ _ _ hkey (hentry ▸ hpacked))
    rwa [hlawful.unpacks _ _ _ _ hresult husable]

/-- A query keeps what can be traced back, and is answered as it may be. -/
theorem serve_spec (hlawful : services.Lawful) (h : services.Trusted s.computed s.file)
    (version : String) (q : Query) :
    services.Trusted (services.serve version q s).computed (services.serve version q s).file ∧
      services.Answers (.query version q) s := by
  suffices hserve : services.Trusted (services.serve version q s).computed
      (services.serve version q s).file ∧ ∃ answer, services.Answer version q s answer ∧
      (services.serve version q s).answers = s.answers ++ [answer] ∧
      ∀ value, answer = .ok value → ⟨version, q, value⟩ ∈ (services.serve version q s).computed by
    refine ⟨hserve.1, fun version' q' heq => ?_⟩
    cases heq
    exact hserve.2
  unfold serve
  cases hexception : q.exception with
  | some message => exact ⟨h, _, .exception hexception, rfl, by simp⟩
  | none =>
    obtain ⟨found, hfound⟩ : ∃ found, TraceCacheLocal.read services.ops version
      (services.response q) (services.message q.key) s.file = found := ⟨_, rfl⟩
    have hfile : services.Trusted s.computed found.2 := hfound ▸ h.read _ _
    have hvalue : ∀ value, found.1 = some value → ⟨version, q, value⟩ ∈ s.computed :=
      fun value hvalue => h.found hlawful (hfound ▸ hvalue)
    simp only [hfound]
    obtain ⟨_ | value, file⟩ := found
    · have hnow : services.Answer version q s (services.compute version q.work s.stored).1 :=
        .computed hexception
      simp only
      obtain ⟨result, hresult⟩ : ∃ result, services.compute version q.work s.stored = result :=
        ⟨_, rfl⟩
      rw [hresult] at hnow ⊢
      obtain ⟨message | value, stored⟩ := result
      · exact ⟨hfile, _, hnow, rfl, by simp⟩
      · refine ⟨hfile.write value, _, hnow, rfl, fun value' heq => ?_⟩
        cases heq
        simp
    · refine ⟨hfile, _, .cached hexception (hvalue value rfl), rfl, fun value' heq => ?_⟩
      cases heq
      exact hvalue value rfl

theorem step_spec (hlawful : services.Lawful) (action : Action Stored)
    (h : services.Trusted s.computed s.file) :
    services.Trusted (services.step action s).computed (services.step action s).file ∧
      services.Answers action s := by
  cases action with
  | query version q => exact serve_spec hlawful h version q
  | clear =>
    refine ⟨fun entry hentry => absurd hentry List.not_mem_nil, fun version q heq => ?_⟩
    cases heq
  | extend stored =>
    refine ⟨h, fun version q heq => ?_⟩
    cases heq

/-! ### The computations -/

/-- Messages can be packed, and a result can be unpacked. -/
structure Total (services : Services Msg Any Ty Stored) (version : String) : Prop where
  packs : ∀ message, ∃ pMessage, services.ops.packFrom message = some pMessage
  unpacks : ∀ q stored value pValue, (services.compute version q.work stored).1 = .ok value →
    services.ops.packFrom value = some pValue →
      services.ops.unpackTo (services.response q) pValue = some value

/-- Under one version, what was computed is in the file, and was computed once. -/
structure Keeps (services : Services Msg Any Ty Stored) (version : String)
    (s : State Msg Any Stored) : Prop where
  trusted : services.Trusted s.computed s.file
  current : ∀ c ∈ s.computed, c.version = version ∧
    ∃ stored, (services.compute version c.query.work stored).1 = .ok c.result
  cached : ∀ c ∈ s.computed, ∀ pKey,
    services.ops.packFrom (services.message c.query.key) = some pKey →
      TraceCacheLocal.lookup s.file pKey ≠ none
  once : (s.computed.map Computation.query).Nodup

/-- Every entry that is found is worth something, so a read leaves the file as it is. -/
theorem Keeps.read (h : services.Keeps version s) (hlawful : services.Lawful)
    (htotal : services.Total version) {pKey : Any}
    (hkey : services.ops.packFrom (services.message q.key) = some pKey) :
    (TraceCacheLocal.read services.ops version (services.response q) (services.message q.key)
        s.file).2 = s.file ∧
      ((TraceCacheLocal.read services.ops version (services.response q) (services.message q.key)
        s.file).1 = none → TraceCacheLocal.lookup s.file pKey = none) := by
  have husable : ∀ entry, TraceCacheLocal.lookup s.file pKey = some entry →
      TraceCacheLocal.usable services.ops version (services.response q) entry ≠ none := by
    intro entry hlookup
    obtain ⟨hmem, hentry⟩ := mem_of_lookup hlookup
    obtain ⟨⟨version', q', result⟩, hc, hversion, hpacked, hresult⟩ := h.trusted entry hmem
    obtain ⟨hcurrent, stored, hcompute⟩ := h.current _ hc
    obtain rfl : q = q' := Query.key_injective (hlawful.keys _ _ _ hkey (hentry ▸ hpacked))
    rw [TraceCacheLocal.usable, if_pos (hversion.symm.trans hcurrent),
      htotal.unpacks q stored result entry.value hcompute hresult]
    exact Option.some_ne_none result
  refine ⟨TraceCacheLocal.read_snd hkey husable, fun hnone => ?_⟩
  rw [TraceCacheLocal.read_fst hkey] at hnone
  cases hlookup : TraceCacheLocal.lookup s.file pKey with
  | none => rfl
  | some entry =>
    rw [hlookup] at hnone
    exact absurd hnone (husable entry hlookup)

/-- A result that is computed has not been computed before. -/
theorem Keeps.serve (h : services.Keeps version s) (hlawful : services.Lawful)
    (htotal : services.Total version) (q : Query) :
    services.Keeps version (services.serve version q s) := by
  have htrusted := (serve_spec hlawful h.trusted version q).1
  unfold Services.serve at htrusted ⊢
  cases hexception : q.exception with
  | some message => exact ⟨h.trusted, h.current, h.cached, h.once⟩
  | none =>
    obtain ⟨pKey, hkey⟩ := htotal.packs (services.message q.key)
    obtain ⟨hfile, hmiss⟩ := h.read (q := q) hlawful htotal hkey
    simp only [hexception] at htrusted ⊢
    obtain ⟨found, hfound⟩ : ∃ found, TraceCacheLocal.read services.ops version
      (services.response q) (services.message q.key) s.file = found := ⟨_, rfl⟩
    rw [hfound] at hfile hmiss
    simp only [hfound] at htrusted ⊢
    obtain ⟨_ | value, file⟩ := found
    · obtain rfl : file = s.file := hfile
      have hlookup := hmiss rfl
      simp only at htrusted ⊢
      obtain ⟨result, hresult⟩ : ∃ result, services.compute version q.work s.stored = result :=
        ⟨_, rfl⟩
      rw [hresult] at htrusted ⊢
      obtain ⟨message | value, stored⟩ := result
      · exact ⟨h.trusted, h.current, h.cached, h.once⟩
      · obtain ⟨pValue, hpValue⟩ := htotal.packs value
        have hnew : q ∉ s.computed.map Computation.query := by
          intro hmem
          obtain ⟨c, hc, rfl⟩ := List.mem_map.mp hmem
          exact h.cached c hc pKey hkey hlookup
        refine ⟨htrusted, fun c hc => ?_, fun c hc pKey' hkey' => ?_, ?_⟩
        · rcases List.mem_append.mp hc with hc | hc
          · exact h.current c hc
          · rw [List.mem_singleton.mp hc]
            exact ⟨rfl, s.stored, by rw [hresult]⟩
        · rw [TraceCacheLocal.lookup_write services.ops version hkey hpValue]
          split_ifs with hsame
          · exact Option.some_ne_none _
          · rcases List.mem_append.mp hc with hc | hc
            · exact h.cached c hc pKey' hkey'
            · rw [List.mem_singleton.mp hc, hkey] at hkey'
              exact absurd (Option.some.inj hkey').symm hsame
        · rw [List.map_append]
          refine List.nodup_append.mpr ⟨h.once, List.nodup_singleton q, fun a ha b hb heq => ?_⟩
          have hquery : b = q := List.mem_singleton.mp hb
          exact hnew (hquery ▸ heq ▸ ha)
    · obtain rfl : file = s.file := hfile
      exact ⟨h.trusted, h.current, h.cached, h.once⟩

theorem keeps_run (hlawful : services.Lawful) (htotal : services.Total version)
    (queries : List Query) (h : services.Keeps version s) :
    services.Keeps version (run services.step (queries.map (.query version)) s) := by
  induction queries generalizing s with
  | nil => exact h
  | cons q queries ih => exact ih (h.serve hlawful htotal q)

/-- Keys and results that are packed as they are. What was computed first lets other numbers come
out later, as the extension of parsed events does for a device without an IO. -/
def numbers : Services (CacheKey ⊕ ℕ) (CacheKey ⊕ ℕ) Unit Bool where
  ops := ⟨some, fun _ message => if message.isRight then some message else none⟩
  message := .inl
  response _ := ()
  compute
    | _, .workset, ready => (.ok (.inr 3), ready)
    | _, _, ready => (.ok (.inr (if ready then 4 else 5)), true)

theorem lawful_numbers : numbers.Lawful where
  keys key key' pKey h h' := Sum.inl_injective (Option.some.inj (h.trans h'.symm))
  unpacks message pMessage type unpacked hpack hunpack := by
    obtain rfl := Option.some.inj hpack
    simp only [numbers] at hunpack
    split_ifs at hunpack
    exact (Option.some.inj hunpack).symm

theorem total_numbers (version : String) : numbers.Total version where
  packs message := ⟨message, rfl⟩
  unpacks q stored value pValue hvalue hpack := by
    obtain rfl := Option.some.inj hpack
    cases q <;> cases hvalue <;> rfl

/-- An update of the framework between queries of two keys, a clearing, and an extension that is
removed. -/
def mixedActions : List (Action Bool) :=
  [.query "1.0" .getTraceStatistics, .query "1.0" .getWorkingSetSize,
    .query "2.0" .getTraceStatistics, .query "2.0" .getWorkingSetSize, .clear, .extend false,
    .query "2.0" (.getLbaHistogram ⟨"trace", .CSV, 0, 5, 3⟩)]

def repeatedQueries : List Query :=
  [.getTraceStatistics, .getSizeHistogram, .getTraceStatistics, .getSizeHistogram]

end Services

end Octf.Interface
