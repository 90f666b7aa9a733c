import Octf.Foundation.SimplePaths
import Octf.Utils.MessageDescriptor

/-! The scan of a message descriptor, which tells a visitor of every field. A message type is not
scanned again inside itself. -/
namespace Octf.Utils.Protobuf
open Foundation

structure Reflection (M : Type) where
  /-- `m_path`: the paths of the fields the scan is in, the current one at the end -/
  path : List (List UInt8)
  /-- `m_level` -/
  level : UInt32
  /-- `m_msgs` -/
  msgs : List M

/-- What ends a scan early. -/
inductive ScanError where
  | outOfFuel
  | exception (message : String)

/-- `IVisitorMessageDescriptor`, with what it keeps between its calls. It is not given the scan to
change it. -/
structure Visitor (M σ : Type) where
  field : Reflection M → FieldDescriptor M → σ → σ
  message : Reflection M → FieldDescriptor M → M → σ → σ

variable {M σ : Type}

/-- An element of a path: the name of a field with marks for its items. -/
def FieldDescriptor.element (fDesc : FieldDescriptor M) : List UInt8 :=
  fDesc.name ++ (if fDesc.isRepeated then "[index]".toUTF8.toList else []) ++
    if fDesc.isMap then "[key]".toUTF8.toList else []

namespace Reflection

def new : Reflection M := ⟨[], 0, []⟩

def getPath (r : Reflection M) : List UInt8 := r.path.getLast?.getD []

/-- The first element of a path gets no marks. -/
def pushPath (fDesc : FieldDescriptor M) (r : Reflection M) : Reflection M :=
  if r.path = [] then { r with path := [fDesc.name] }
  else { r with path := r.path ++ [r.getPath ++ dot :: fDesc.element] }

def popPath (r : Reflection M) : Reflection M := { r with path := r.path.dropLast }

variable [DecidableEq M]

def pushMessage (msg : M) (r : Reflection M) : Bool × Reflection M :=
  if msg ∈ r.msgs then (false, r)
  else (true, { r with level := r.level + 1, msgs := r.msgs ++ [msg] })

omit [DecidableEq M] in
def popMessage (r : Reflection M) : Except ScanError (Reflection M) :=
  if r.msgs = [] then .error (.exception "Message scanning ERROR, nested message missing")
  else .ok { r with level := r.level - 1, msgs := r.msgs.dropLast }

def fieldMessage (scan : M → Reflection M × σ → Except ScanError (Reflection M × σ))
    (visitor : Visitor M σ) (fDesc : FieldDescriptor M) (mDesc : M) (s : Reflection M × σ) :
    Except ScanError (Reflection M × σ) := do
  let (pushed, r) := s.1.pushMessage mDesc
  let v := visitor.message r fDesc mDesc s.2
  if pushed then
    let (r, v) ← scan mDesc (r, v)
    return (← r.popMessage, v)
  else return (r, v)

/-- The body of the loop over the fields. -/
def scanField (scan : M → Reflection M × σ → Except ScanError (Reflection M × σ))
    (visitor : Visitor M σ) (fDesc : FieldDescriptor M) (s : Reflection M × σ) :
    Except ScanError (Reflection M × σ) := do
  let r := s.1.pushPath fDesc
  let (r, v) ← match fDesc.messageType with
    | some mDesc => fieldMessage scan visitor fDesc mDesc (r, s.2)
    | none => .ok (r, visitor.field r fDesc s.2)
  return (r.popPath, v)

/-- `Reflection::scan`, with a bound on its depth. -/
def scan (schema : Schema M) (visitor : Visitor M σ) :
    ℕ → M → Reflection M × σ → Except ScanError (Reflection M × σ)
  | 0, _, _ => .error .outOfFuel
  | fuel + 1, desc, s =>
    (schema.fields desc).foldlM (fun s fDesc =>
      scanField (scan schema visitor fuel) visitor fDesc s) s

/-! ### The scan as a visit of field paths -/

/-- The state of the scan at a field, behind the path that leads to it. -/
def descend (r : Reflection M) (p : List (FieldDescriptor M)) : Reflection M :=
  p.foldl (fun r fDesc => match fDesc.messageType with
    | some mDesc => ((r.pushPath fDesc).pushMessage mDesc).2
    | none => r.pushPath fDesc) r

/-- The call of a visitor for the last field of a path. -/
def visit (visitor : Visitor M σ) (r : Reflection M) (p : List (FieldDescriptor M)) (v : σ) : σ :=
  match p.getLast? with
  | none => v
  | some fDesc => match fDesc.messageType with
    | some mDesc => visitor.message (r.descend p) fDesc mDesc v
    | none => visitor.field (r.descend p) fDesc v

/-- The field paths that enter no message type twice and none that is entered already. -/
def Visits (schema : Schema M) (r : Reflection M) (root : M) (p : List (FieldDescriptor M)) :
    Prop :=
  p ≠ [] ∧ EdgePath schema.fields (·.messageType) root p ∧ (entered (·.messageType) p).Nodup ∧
    ∀ m ∈ entered (·.messageType) p, m ∉ r.msgs

/-- The names of the fields of a path between dots, those behind the first with marks for items. -/
def pathName : List (FieldDescriptor M) → List UInt8
  | [] => []
  | fDesc :: p => [dot].intercalate (fDesc.name :: p.map (·.element))

variable {r : Reflection M} {v : σ} {fDesc : FieldDescriptor M} {p : List (FieldDescriptor M)}

omit [DecidableEq M] in
theorem popPath_pushPath (fDesc : FieldDescriptor M) (r : Reflection M) :
    (r.pushPath fDesc).popPath = r := by
  unfold pushPath popPath
  split_ifs with hpath
  · rw [List.dropLast_singleton, ← hpath]
  · simp

omit [DecidableEq M] in
theorem msgs_pushPath (fDesc : FieldDescriptor M) (r : Reflection M) :
    (r.pushPath fDesc).msgs = r.msgs := by
  unfold pushPath
  split_ifs <;> rfl

omit [DecidableEq M] in
theorem popMessage_pushed (msg : M) (r : Reflection M) :
    popMessage { r with level := r.level + 1, msgs := r.msgs ++ [msg] } = .ok r := by
  simp [popMessage]

theorem pushMessage_of_mem {msg : M} (h : msg ∈ r.msgs) : r.pushMessage msg = (false, r) := if_pos h

theorem pushMessage_of_notMem {msg : M} (h : msg ∉ r.msgs) :
    r.pushMessage msg = (true, { r with level := r.level + 1, msgs := r.msgs ++ [msg] }) := if_neg h

/-- Behind a message field that is entered the scan goes on from its state. -/
theorem visit_cons {mDesc : M} (hp : p ≠ []) (hmessage : fDesc.messageType = some mDesc)
    (visitor : Visitor M σ) (v : σ) :
    visit visitor r (fDesc :: p) v = visit visitor
      ((r.pushPath fDesc).pushMessage mDesc).2 p v := by
  have hdescend : r.descend (fDesc :: p) =
    (((r.pushPath fDesc).pushMessage mDesc).2).descend p := by
    simp only [descend, List.foldl_cons, hmessage]
  obtain ⟨g, p, rfl⟩ := List.exists_cons_of_ne_nil hp
  rw [visit, visit, List.getLast?_cons_cons, hdescend]

variable {schema : Schema M} {visitor : Visitor M σ} {n : ℕ}

/-- What `scan` does below a state, with a bound on its depth. -/
def Scans (schema : Schema M) (visitor : Visitor M σ) (n : ℕ) : Prop :=
  ∀ (r : Reflection M) (m : M) (v : σ), {x | x ∉ r.msgs}.ncard < n →
    scan schema visitor n m (r, v) =
      .ok (r, (simplePaths schema.fields (·.messageType) n r.msgs m).foldl
        (fun v p => visit visitor r p v) v)

/-- The paths behind a field: those of its message type, if that is new. -/
def pathsBehind (schema : Schema M) (n : ℕ) (msgs : List M) (fDesc : FieldDescriptor M) :
    List (List (FieldDescriptor M)) :=
  (fDesc.messageType.toList.filter (· ∉ msgs)).flatMap fun m =>
    simplePaths schema.fields (·.messageType) n (msgs ++ [m]) m

/-- A message field is visited, and then the fields of its type if that is new. -/
theorem fieldMessage_eq [Finite M] (hscan : Scans schema visitor n) {mDesc : M}
    (hmessage : fDesc.messageType = some mDesc) (hcard : {x | x ∉ r.msgs}.ncard < n + 1) :
    fieldMessage (scan schema visitor n) visitor fDesc mDesc (r.pushPath fDesc, v) =
      .ok (r.pushPath fDesc, ((pathsBehind schema n r.msgs fDesc).map (fDesc :: ·)).foldl
        (fun v p => visit visitor r p v) (visit visitor r [fDesc] v)) := by
  have hvisit : visit visitor r [fDesc] v =
      visitor.message ((r.pushPath fDesc).pushMessage mDesc).2 fDesc mDesc v := by
    simp [visit, descend, hmessage]
  have hmsgs := msgs_pushPath fDesc r
  by_cases hmem : mDesc ∈ r.msgs
  · have hpush : (r.pushPath fDesc).pushMessage mDesc = _ := pushMessage_of_mem (by rwa [hmsgs])
    simp only [fieldMessage, hpush, hvisit, pathsBehind, hmessage, Option.toList_some,
      List.filter_singleton, hmem]
    rfl
  · have hpush : (r.pushPath fDesc).pushMessage mDesc = _ := pushMessage_of_notMem (by rwa [hmsgs])
    have hleft := ncard_notMem_append hmem
    have hrun := hscan ((r.pushPath fDesc).pushMessage mDesc).2 mDesc
      (visit visitor r [fDesc] v) (by
        rw [hpush, hmsgs]
        change {x | x ∉ r.msgs ++ [mDesc]}.ncard < n
        omega)
    have hpaths : pathsBehind schema n r.msgs fDesc =
        simplePaths schema.fields (·.messageType) n (r.msgs ++ [mDesc]) mDesc := by
      simp [pathsBehind, hmessage, hmem]
    -- behind the field the visits are those of its type
    have hfold : ∀ (ps : List (List (FieldDescriptor M))) (v : σ), (∀ p ∈ ps, p ≠ []) →
        (ps.map (fDesc :: ·)).foldl (fun v p => visit visitor r p v) v =
          ps.foldl (fun v p => visit visitor ((r.pushPath fDesc).pushMessage mDesc).2 p v) v := by
      intro ps v hps
      induction ps generalizing v with
      | nil => rfl
      | cons p ps ih =>
        rw [List.map_cons, List.foldl_cons, List.foldl_cons, visit_cons (hps p (by simp)) hmessage,
          ih _ fun q hq => hps q (by simp [hq])]
    rw [hpaths, hfold _ _ fun p hp => ne_nil_of_mem_simplePaths hp]
    simp only [hpush, hmsgs] at hrun hvisit ⊢
    simp only [fieldMessage, hpush, hmsgs, if_true, ← hvisit, hrun]
    have hpop := popMessage_pushed mDesc (r.pushPath fDesc)
    rw [hmsgs] at hpop
    change (do return (← popMessage _, _)) = _
    rw [hpop]
    rfl

/-- A field is visited, and then the paths behind it. -/
theorem scanField_eq [Finite M] (hscan : Scans schema visitor n)
    (hcard : {x | x ∉ r.msgs}.ncard < n + 1) :
    scanField (scan schema visitor n) visitor fDesc (r, v) =
      .ok (r, ([fDesc] :: (pathsBehind schema n r.msgs fDesc).map (fDesc :: ·)).foldl
        (fun v p => visit visitor r p v) v) := by
  cases hmessage : fDesc.messageType with
  | none =>
    have hvisit : visit visitor r [fDesc] v = visitor.field (r.pushPath fDesc) fDesc v := by
      simp [visit, descend, hmessage]
    simp only [scanField, hmessage, pathsBehind, Option.toList_none, List.filter_nil,
      List.flatMap_nil, List.map_nil, List.foldl_cons, List.foldl_nil, hvisit]
    exact congrArg (fun r' => Except.ok (r', _)) (popPath_pushPath fDesc r)
  | some mDesc =>
    simp only [scanField, hmessage, fieldMessage_eq hscan hmessage hcard, List.foldl_cons]
    exact congrArg (fun r' => Except.ok (r', _)) (popPath_pushPath fDesc r)

/-- With a bound above the number of types that are not entered, the scan is the visit of the listed
paths, one after another. -/
theorem scans [Finite M] (schema : Schema M) (visitor : Visitor M σ) (n : ℕ) :
    Scans schema visitor n := by
  induction n with
  | zero => exact fun r m v hcard => absurd hcard (Nat.not_lt_zero _)
  | succ n ih =>
    intro r m v hcard
    rw [scan, simplePaths]
    generalize schema.fields m = fields
    induction fields generalizing v with
    | nil => rfl
    | cons fDesc fields ihfields =>
      rw [List.foldlM_cons, scanField_eq ih hcard, List.flatMap_cons, List.foldl_append]
      exact ihfields _

omit [DecidableEq M] in
theorem path_pushPath_ne (fDesc : FieldDescriptor M) (r : Reflection M) :
    (r.pushPath fDesc).path ≠ [] := by
  unfold pushPath
  split_ifs <;> simp

omit [DecidableEq M] in
/-- Behind the first element the path grows by the name and its marks. -/
theorem getPath_pushPath (hpath : r.path ≠ []) :
    (r.pushPath fDesc).getPath = r.getPath ++ dot :: fDesc.element := by
  simp [pushPath, hpath, getPath]

theorem path_pushMessage (m : M) (r : Reflection M) : (r.pushMessage m).2.path = r.path := by
  unfold pushMessage
  split_ifs <;> rfl

/-- To go down a path changes the current path by its first field, and then by the others. -/
theorem descend_cons (r : Reflection M) (fDesc : FieldDescriptor M) (p : List (FieldDescriptor M)) :
    ∃ r' : Reflection M, r'.path = (r.pushPath fDesc).path ∧
      r.descend (fDesc :: p) = r'.descend p := by
  cases hmessage : fDesc.messageType with
  | none => exact ⟨r.pushPath fDesc, rfl, by simp only [descend, List.foldl_cons, hmessage]⟩
  | some m =>
    exact ⟨((r.pushPath fDesc).pushMessage m).2, path_pushMessage m _,
      by simp only [descend, List.foldl_cons, hmessage]⟩

theorem getPath_descend_of_ne (hpath : r.path ≠ []) (p : List (FieldDescriptor M)) :
    (r.descend p).getPath = r.getPath ++ p.flatMap fun fDesc => dot :: fDesc.element := by
  induction p generalizing r with
  | nil => simp [descend]
  | cons fDesc p ih =>
    obtain ⟨r', hr', hdescend⟩ := descend_cons r fDesc p
    have hget : r'.getPath = r.getPath ++ dot :: fDesc.element := by
      rw [← getPath_pushPath hpath, getPath, getPath, hr']
    rw [hdescend, ih (hr' ▸ path_pushPath_ne fDesc r), hget, List.flatMap_cons, List.append_assoc]

omit [DecidableEq M] in
theorem intercalate_elements (first : List UInt8) (p : List (FieldDescriptor M)) :
    [dot].intercalate (first :: p.map (·.element)) =
      first ++ p.flatMap fun fDesc => dot :: fDesc.element := by
  induction p generalizing first with
  | nil => simp
  | cons fDesc p ih =>
    rw [List.map_cons, List.intercalate_cons_cons, ih, List.flatMap_cons]
    simp

/-- The current path at a field is made of the names. -/
theorem getPath_descend (hpath : r.path = []) (p : List (FieldDescriptor M)) :
    (r.descend p).getPath = pathName p := by
  cases p with
  | nil => simp [descend, getPath, hpath, pathName]
  | cons fDesc p =>
    obtain ⟨r', hr', hdescend⟩ := descend_cons r fDesc p
    have hget : r'.getPath = fDesc.name := by
      rw [getPath, hr', pushPath, if_pos hpath]
      rfl
    rw [hdescend, getPath_descend_of_ne (hr' ▸ path_pushPath_ne fDesc r), hget, pathName,
      intercalate_elements]

/-- Every scan ends as it began, and calls the visitor once for each field path that enters no
message type twice, in the state and with the current path that belong to it. -/
theorem scan_visits [Finite M] (schema : Schema M) (visitor : Visitor M σ) (root : M)
    (r : Reflection M) (v : σ) :
    ∃ fuel, ∃ paths : List (List (FieldDescriptor M)), scan schema visitor fuel root (r, v) =
        .ok (r, paths.foldl (fun v p => visit visitor r p v) v) ∧
      paths.Nodup ∧ (∀ p, p ∈ paths ↔ Visits schema r root p) ∧
      (r.path = [] → ∀ p ∈ paths, (r.descend p).getPath = pathName p) := by
  refine ⟨{x | x ∉ r.msgs}.ncard + 1, _, scans schema visitor _ r root v (Nat.lt_succ_self _),
    nodup_simplePaths schema.nodup_fields _ _ _, fun p => mem_simplePaths (Nat.lt_succ_self _),
    fun hpath p _ => getPath_descend hpath p⟩

/-- A message that holds another of its own type, and one with a list of words. -/
def entry : Schema Bool where
  fields
    | false => [⟨"self".toUTF8.toList, false, false, none, some false⟩,
        ⟨"tags".toUTF8.toList, false, false, none, some true⟩]
    | true => [⟨"words".toUTF8.toList, true, false, none, none⟩]
  names := by decide +kernel

/-- A visitor that keeps the current paths. -/
def keepPaths : Visitor M (List (List UInt8)) where
  field r _ v := v ++ [r.getPath]
  message r _ _ v := v ++ [r.getPath]

theorem scan_visits_entry : ∃ fuel, ∃ paths : List (List (FieldDescriptor Bool)),
    scan entry keepPaths fuel false (new, []) =
        .ok (new, paths.foldl (fun v p => visit keepPaths new p v) []) ∧
      paths.Nodup ∧ (∀ p, p ∈ paths ↔ Visits entry new false p) ∧
      ((new : Reflection Bool).path = [] → ∀ p ∈ paths, (descend new p).getPath = pathName p) :=
  scan_visits entry keepPaths false new []

example : (scan entry keepPaths 4 false (new, [])).toOption.map (·.2) =
    some (["self", "self.self", "self.tags", "self.tags.words[index]", "tags", "tags.words[index]",
      ].map (·.toUTF8.toList)) := by decide +kernel

/-- A list of words below a message has a mark in its path, which is no name. -/
theorem not_scan_visits_names : ¬ ∃ fuel, ∃ paths : List (List (FieldDescriptor Bool)),
    scan entry keepPaths fuel false (new, []) =
        .ok (new, paths.foldl (fun v p => visit keepPaths new p v) []) ∧
      paths.Nodup ∧ (∀ p, p ∈ paths ↔ Visits entry new false p) ∧
      ∀ p ∈ paths, (descend new p).getPath = [dot].intercalate (p.map (·.name)) := by
  rintro ⟨fuel, paths, -, -, hpaths, hnames⟩
  have hvisit : Visits entry new false
      [⟨"tags".toUTF8.toList, false, false, none, some true⟩,
        ⟨"words".toUTF8.toList, true, false, none, none⟩] :=
    ⟨by simp, ⟨by simp [entry], Or.inr ⟨true, rfl, by simp [entry], Or.inl rfl⟩⟩, by simp [entered],
      by simp [new]⟩
  exact absurd (hnames _ ((hpaths _).mpr hvisit)) (by decide +kernel)

end Reflection

end Octf.Utils.Protobuf
