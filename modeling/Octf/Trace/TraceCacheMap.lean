import Octf.Trace.TraceCacheLocal

/-! The cache as a map from keys to what was last written for them. It is one as long as no read
rebuilds the file while it holds entries of other keys. -/
namespace Octf.Trace
open Foundation

namespace TraceCacheLocal

variable {Msg Any Ty : Type*} [DecidableEq Any]

/-! ### The map behind the calls -/

/-- What was last written for each key and under which version, and whether a read has since
found it worth nothing. -/
structure History (Msg Any : Type*) where
  written : Any → Option (Msg × String)
  invalidated : Any → Bool

namespace History

def init : History Msg Any := ⟨fun _ => none, fun _ => false⟩

/-- The message last written for the key, if it was written under the version and unpacks into the
type. -/
def expected (ops : AnyOps Msg Any Ty) (version : String) (type : Ty) (pKey : Any)
    (history : History Msg Any) : Option Msg :=
  (history.written pKey).bind fun last =>
    if last.2 = version ∧ ((ops.packFrom last.1).bind (ops.unpackTo type)).isSome then some last.1
    else none

def step (ops : AnyOps Msg Any Ty) (call : Call Msg Ty) (history : History Msg Any) :
    History Msg Any :=
  match call with
  | .read version type key =>
    match ops.packFrom key with
    | none => history
    | some pKey =>
      if (history.written pKey).isSome ∧ history.expected ops version type pKey = none then
        { history with invalidated := Function.update history.invalidated pKey true }
      else history
  | .write version key value =>
    match ops.packFrom key, ops.packFrom value with
    | some pKey, some _ =>
      ⟨Function.update history.written pKey (some (value, version)),
        Function.update history.invalidated pKey false⟩
    | _, _ => history

end History

/-- The file together with what was written. -/
abbrev Session (Msg Any : Type*) := Option (TraceCache Any) × History Msg Any

def Session.init : Session Msg Any := (none, .init)

def Session.step (ops : AnyOps Msg Any Ty) (call : Call Msg Ty) (s : Session Msg Any) :
    Session Msg Any :=
  (TraceCacheLocal.step ops call s.1, s.2.step ops call)

def Call.key : Call Msg Ty → Msg
  | .read _ _ key => key
  | .write _ key _ => key

/-- A read returns what it is expected to, and the call changes no read of another key. -/
def BehavesAsMap (ops : AnyOps Msg Any Ty) (call : Call Msg Ty) (s : Session Msg Any) : Prop :=
  (match call with
    | .read version type key =>
      (read ops version type key s.1).1 = (ops.packFrom key).bind (s.2.expected ops version type)
    | .write _ _ _ => True) ∧
  ∀ version type other, ops.packFrom other ≠ ops.packFrom call.key →
    (read ops version type other (TraceCacheLocal.step ops call s.1)).1 =
      (read ops version type other s.1).1

/-- A read that finds its entry worth nothing finds no entry of another key in the file; and what
such a read has erased is not asked for again under a version and a type it is good for. -/
def Unspoilt (ops : AnyOps Msg Any Ty) (call : Call Msg Ty) (s : Session Msg Any) : Prop :=
  match call with
  | .read version type key => ∀ pKey, ops.packFrom key = some pKey →
      (∀ entry, lookup s.1 pKey = some entry → usable ops version type entry = none →
        ∀ other ∈ (s.1.getD ⟨[]⟩).entires, other.key = pKey) ∧
      (s.2.invalidated pKey = true → s.2.expected ops version type pKey = none)
  | .write _ _ _ => True

/-- What a key finds is what was last written for it, unless a read has erased it. -/
def Session.Faithful (ops : AnyOps Msg Any Ty) (s : Session Msg Any) : Prop :=
  ∀ pKey, match lookup s.1 pKey with
    | some entry => ∃ value, s.2.written pKey = some (value, entry.version) ∧
        ops.packFrom value = some entry.value
    | none => s.2.written pKey = none ∨ s.2.invalidated pKey = true

/-- Unpacking gives back what was packed, if it succeeds. -/
def Unpacks (ops : AnyOps Msg Any Ty) : Prop :=
  ∀ message pMessage type unpacked, ops.packFrom message = some pMessage →
    ops.unpackTo type pMessage = some unpacked → unpacked = message

section Step

variable {ops : AnyOps Msg Any Ty} {s : Session Msg Any} {call : Call Msg Ty}

omit [DecidableEq Any] in
/-- An entry that holds what was last written is worth what is expected. -/
theorem usable_eq_expected (hops : Unpacks ops) {entry : TraceCache.Entry Any}
    {history : History Msg Any} {pKey : Any} {value : Msg}
    (hwritten : history.written pKey = some (value, entry.version))
    (hvalue : ops.packFrom value = some entry.value) (version : String) (type : Ty) :
    usable ops version type entry = history.expected ops version type pKey := by
  unfold usable History.expected
  simp only [hwritten, hvalue, Option.bind_some]
  cases hunpack : ops.unpackTo type entry.value with
  | none => simp
  | some unpacked =>
    rw [hops value entry.value type unpacked hvalue hunpack]
    simp

/-- A call changes what its own key finds and nothing else. -/
theorem lookup_step (h : Unspoilt ops call s) {other : Any}
    (hother : ops.packFrom call.key ≠ some other) :
    lookup (TraceCacheLocal.step ops call s.1) other = lookup s.1 other := by
  cases call with
  | write version key value =>
    cases hkey : ops.packFrom key with
    | none => simp only [TraceCacheLocal.step, write, hkey]
    | some pKey =>
      have hne : other ≠ pKey := fun heq => hother (heq ▸ hkey)
      cases hvalue : ops.packFrom value with
      | none => simp only [TraceCacheLocal.step, write, hkey, hvalue]
      | some pValue =>
        change lookup (write ops version key value s.1).2 other = _
        rw [lookup_write ops version hkey hvalue, if_neg hne]
  | read version type key =>
    cases hkey : ops.packFrom key with
    | none => simp only [TraceCacheLocal.step, read, hkey]
    | some pKey =>
      have hne : other ≠ pKey := fun heq => hother (heq ▸ hkey)
      change lookup (read ops version type key s.1).2 other = _
      by_cases hspoilt : ∃ entry, lookup s.1 pKey = some entry ∧
        usable ops version type entry = none
      · obtain ⟨entry, hentry, hnone⟩ := hspoilt
        have hbefore : lookup s.1 other = none := by
          refine List.find?_eq_none.mpr fun found hfound => ?_
          rw [(h pKey hkey).1 entry hentry hnone found hfound]
          simpa using hne.symm
        rw [hbefore, lookup_read_of_none hkey hne hbefore]
      · rw [read_snd hkey fun entry hentry hnone => hspoilt ⟨entry, hentry, hnone⟩]

/-- What the history remembers of a read. -/
theorem History.step_read (history : History Msg Any) {version : String} {type : Ty} {key : Msg}
    {pKey : Any} (hkey : ops.packFrom key = some pKey) :
    (history.step ops (.read version type key)).written = history.written ∧
      (∀ other, history.invalidated other = true →
        (history.step ops (.read version type key)).invalidated other = true) ∧
      (history.written pKey ≠ none → history.expected ops version type pKey = none →
        (history.step ops (.read version type key)).invalidated pKey = true) := by
  unfold History.step
  simp only [hkey]
  split_ifs with hworthless
  · refine ⟨rfl, fun other hother => ?_, fun _ _ => Function.update_self ..⟩
    simp only [Function.update_apply]
    split_ifs
    · rfl
    · exact hother
  · refine ⟨rfl, fun _ hother => hother, fun hsome hnone => ?_⟩
    exact absurd ⟨Option.isSome_iff_ne_none.mpr hsome, hnone⟩ hworthless

theorem Session.Faithful.write (h : s.Faithful ops) (version : String) (key value : Msg) :
    (s.step ops (.write version key value)).Faithful ops := by
  cases hkey : ops.packFrom key with
  | none =>
    simpa only [Session.step, TraceCacheLocal.step, TraceCacheLocal.write, History.step, hkey]
      using h
  | some pKey =>
    cases hvalue : ops.packFrom value with
    | none =>
      simpa only [Session.step, TraceCacheLocal.step, TraceCacheLocal.write, History.step, hkey,
        hvalue] using h
    | some pValue =>
      intro other
      have hlookup := lookup_write ops version hkey hvalue s.1 other
      change match lookup (TraceCacheLocal.write ops version key value s.1).2 other with
        | some entry => ∃ value', (s.2.step ops (.write version key value)).written other =
            some (value', entry.version) ∧ ops.packFrom value' = some entry.value
        | none => (s.2.step ops (.write version key value)).written other = none ∨
            (s.2.step ops (.write version key value)).invalidated other = true
      rw [hlookup]
      simp only [History.step, hkey, hvalue, Function.update_apply]
      split_ifs
      · exact ⟨value, rfl, hvalue⟩
      · exact h other

theorem Session.Faithful.read (h : s.Faithful ops) (hops : Unpacks ops) {version : String}
    {type : Ty} {key : Msg} (hun : Unspoilt ops (.read version type key) s) :
    (s.step ops (.read version type key)).Faithful ops := by
  cases hkey : ops.packFrom key with
  | none =>
    simpa only [Session.step, TraceCacheLocal.step, TraceCacheLocal.read, History.step, hkey]
      using h
  | some pKey =>
    obtain ⟨hwritten, hkeeps, hmarks⟩ := History.step_read s.2 hkey
    intro other
    have hold := h other
    change match lookup (TraceCacheLocal.read ops version type key s.1).2 other with
      | some entry => ∃ value, (s.2.step ops (.read version type key)).written other =
          some (value, entry.version) ∧ ops.packFrom value = some entry.value
      | none => (s.2.step ops (.read version type key)).written other = none ∨
          (s.2.step ops (.read version type key)).invalidated other = true
    rw [hwritten]
    by_cases hother : other = pKey
    · rw [hother] at hold ⊢
      cases hafter : lookup (TraceCacheLocal.read ops version type key s.1).2 pKey with
      | some copy =>
        rw [lookup_of_read hkey hafter] at hold
        exact hold
      | none =>
        cases hbefore : lookup s.1 pKey with
        | none =>
          rw [hbefore] at hold
          exact hold.imp_right (hkeeps pKey)
        | some entry =>
          rw [hbefore] at hold
          obtain ⟨value, hlast, hvalue⟩ := hold
          refine Or.inr (hmarks (by simp [hlast]) ?_)
          rw [← usable_eq_expected hops hlast hvalue version type]
          -- an entry that is worth something would still be there
          by_contra hworth
          have hsame : (TraceCacheLocal.read ops version type key s.1).2 = s.1 := by
            refine read_snd hkey fun found hfound => ?_
            rw [hbefore] at hfound
            obtain rfl := Option.some.inj hfound
            exact hworth
          rw [hsame, hbefore] at hafter
          cases hafter
    · have hsame : lookup (TraceCacheLocal.read ops version type key s.1).2 other =
          lookup s.1 other := by
        refine lookup_step hun fun heq => hother ?_
        exact (Option.some.inj (hkey.symm.trans heq)).symm
      rw [hsame]
      cases hbefore : lookup s.1 other with
      | some entry =>
        rw [hbefore] at hold
        exact hold
      | none =>
        rw [hbefore] at hold
        exact hold.imp_right (hkeeps other)

theorem behavesAsMap (h : s.Faithful ops) (hops : Unpacks ops) (hun : Unspoilt ops call s) :
    BehavesAsMap ops call s := by
  constructor
  · cases call with
    | write => trivial
    | read version type key =>
      cases hkey : ops.packFrom key with
      | none => simp [TraceCacheLocal.read, hkey]
      | some pKey =>
        change (TraceCacheLocal.read ops version type key s.1).1 = (ops.packFrom key).bind _
        rw [read_fst hkey, hkey, Option.bind_some]
        have hpKey := h pKey
        cases hlookup : lookup s.1 pKey with
        | some entry =>
          rw [hlookup] at hpKey
          obtain ⟨value, hwritten, hvalue⟩ := hpKey
          exact usable_eq_expected hops hwritten hvalue version type
        | none =>
          rw [hlookup] at hpKey
          rcases hpKey with hwritten | hinvalid
          · simp [History.expected, hwritten]
          · exact ((hun pKey hkey).2 hinvalid).symm
  · intro version type other hne
    cases hother : ops.packFrom other with
    | none => simp only [TraceCacheLocal.read, hother]
    | some pOther =>
      rw [hother] at hne
      rw [read_fst hother, read_fst hother, lookup_step hun hne.symm]

theorem Session.Faithful.step (h : s.Faithful ops) (hops : Unpacks ops)
    (hun : Unspoilt ops call s) : (s.step ops call).Faithful ops := by
  cases call with
  | read version type key => exact h.read hops hun
  | write version key value => exact h.write version key value

end Step

theorem faithful_init (ops : AnyOps Msg Any Ty) :
    (Session.init : Session Msg Any).Faithful ops := fun _ => Or.inl rfl

/-- In every run without a read that spoils the file, the cache is the map of what was last
written. -/
theorem behavesAsMap_of_unspoilt (ops : AnyOps Msg Any Ty) (hops : Unpacks ops)
    (calls : List (Call Msg Ty)) (hcalls : Meets (Session.step ops) (Unspoilt ops) calls .init) :
    Meets (Session.step ops) (BehavesAsMap ops) calls .init :=
  hcalls.imp_of_invariant (I := fun s => Session.Faithful ops s) (fun _ _ hun h => h.step hops hun)
    (fun _ _ hun h => behavesAsMap h hops hun) (faithful_init ops)

/-! ### Runs over the messages of the cache file -/

instance (ops : AnyOps Msg Any Ty) (call : Call Msg Ty) (s : Session Msg Any) :
    Decidable (Unspoilt ops call s) :=
  match call with
  | .write _ _ _ => .isTrue trivial
  | .read version type key =>
    match hkey : ops.packFrom key with
    | none => .isTrue (by simp [Unspoilt, hkey])
    | some pKey =>
      decidable_of_iff
        ((∀ entry ∈ lookup s.1 pKey, usable ops version type entry = none →
            ∀ other ∈ (s.1.getD ⟨[]⟩).entires, other.key = pKey) ∧
          (s.2.invalidated pKey = true → s.2.expected ops version type pKey = none))
        (by simp [Unspoilt, hkey])

/-- `SimpleKey` and `SimpleValue` -/
inductive Simple where
  | key (name : String)
  | value (value : ℕ)
  deriving DecidableEq

inductive SimpleType where
  | key
  | value

/-- A packed message keeps its type, and is unpacked into this type alone. -/
def simpleOps : AnyOps Simple Simple SimpleType where
  packFrom message := some message
  unpackTo type message :=
    match type, message with
    | .key, .key name => some (.key name)
    | .value, .value value => some (.value value)
    | _, _ => none

theorem simpleOps_unpacks : Unpacks simpleOps := by
  intro message pMessage type unpacked hpack hunpack
  obtain rfl := Option.some.inj hpack
  cases type <;> cases message <;> first | cases hunpack; rfl | cases hunpack

/-- One key alone is invalidated by an update and written again, then another is added. -/
def updatedCache : List (Call Simple SimpleType) :=
  [.write "1.0" (.key "wss") (.value 3), .read "2.0" .value (.key "wss"),
    .write "2.0" (.key "wss") (.value 4), .write "2.0" (.key "lba") (.value 5),
    .read "2.0" .value (.key "wss"), .read "2.0" .value (.key "lba"), .read "2.0" .value (.key "q")]

theorem behavesAsMap_updatedCache :
    Meets (Session.step simpleOps) (BehavesAsMap simpleOps) updatedCache .init :=
  behavesAsMap_of_unspoilt simpleOps simpleOps_unpacks updatedCache (by decide)

/-- After an update one of two keys is written again, and the other is read. -/
def spoiltCache : List (Call Simple SimpleType) :=
  [.write "1.0" (.key "wss") (.value 3), .write "1.0" (.key "lba") (.value 5),
    .write "2.0" (.key "lba") (.value 6), .read "2.0" .value (.key "wss")]

theorem not_behavesAsMap_spoiltCache :
    ¬ Meets (Session.step simpleOps) (BehavesAsMap simpleOps)
      (spoiltCache ++ [.read "2.0" .value (.key "lba")]) .init := by
  intro h
  have hread := h.append.2.1.1
  have hcode : (read simpleOps "2.0" .value (.key "lba")
      (run (Session.step simpleOps) spoiltCache .init).1).1 = none := by decide
  have hmap : (run (Session.step simpleOps) spoiltCache .init).2.expected simpleOps "2.0" .value
      (.key "lba") = some (.value 6) := by decide
  have hread' : none = (some (Simple.value 6)) := hcode.symm.trans (hread.trans hmap)
  cases hread'

end TraceCacheLocal

end Octf.Trace
