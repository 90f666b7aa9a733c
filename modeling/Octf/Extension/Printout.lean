import Octf.Extension.ExtensionMerge

/-! The printout of built extensions: one message is filled from the records of a sequence id,
printed as a line when the id is complete, and cleared. -/
namespace Octf.Extension
open Foundation

inductive OutputFormat where
  | JSON
  | CSV
  -- a number that the enumeration does not name
  | unknown
  deriving DecidableEq

variable {R : Type}

/-- `proto::trace::TraceExtension`. A feature is `none` when no kind of result is set in it. -/
structure Line (R : Type) where
  sid : ℕ
  feature : String → Option (Option R)

namespace Line

/-- `msg.Clear()` -/
def clear : Line R := ⟨0, fun _ => none⟩

/-- `(*msg.mutable_feature())[name] = value` -/
def setFeature (name : String) (value : Option R) (msg : Line R) : Line R :=
  { msg with feature := Function.update msg.feature name (some value) }

/-- The result printed for a name. -/
def result (msg : Line R) (name : String) : Option R := (msg.feature name).join

/-- A record that has been read is put into the message. -/
def fill (name : String) (sid : ℕ) (feature : Option R) (msg : Line R) : Line R :=
  let msg := { msg with sid := sid }
  if feature.isSome then msg.setFeature name feature else msg

end Line

/-- An extension that has been built and the prototype of its builder's results. -/
structure Handler (R : Type) where
  ext : Built (Option R)
  prototype : Option R

/-- The message behind the header: in CSV it holds every prototype, to name the columns. -/
def headerMessage (format : OutputFormat) (handlers : List (Handler R)) : Line R :=
  match format with
  | .CSV => handlers.foldl (fun msg hndlr => msg.setFeature hndlr.ext.name hndlr.prototype) .clear
  | _ => .clear

namespace TraceExtensionSet

/-- `!eSet.hasNext() || eSet.getNextSid() != sid` -/
def timeToPrint (sid : ℕ) (s : TraceExtensionSet (Option R)) :
    Except String (Bool × TraceExtensionSet (Option R)) :=
  if s.hasNext then do
    let (nextSid, s) ← s.getNextSid
    .ok (decide (nextSid ≠ sid), s)
  else .ok (true, s)

/-- The loop that prints, in at most the given rounds. -/
def print (format : OutputFormat) : (rounds : ℕ) → Line R → TraceExtensionSet (Option R) →
    Except String (List (Line R))
  | 0, _, _ => .error "running"
  | rounds + 1, msg, s =>
    if s.hasNext then do
      let name ← s.getName
      let (sid, feature, s) ← s.read
      let msg := msg.fill name sid feature
      let (time, s) ← s.timeToPrint sid
      if time then
        if format = .unknown then .error "Invalid output format"
        else do
          let lines ← print format rounds .clear s
          .ok (msg :: lines)
      else print format rounds msg s
    else .ok []

end TraceExtensionSet

/-- `BuildExtensions` behind the run of the handlers: the printed lines. -/
def buildExtensions (rounds : ℕ) (format : OutputFormat) (handlers : List (Handler R)) :
    Except String (List (Line R)) := do
  let eSet ← TraceExtensionSet.addAll (handlers.map fun hndlr => hndlr.ext.open')
  eSet.print format rounds (headerMessage format handlers)

/-! ### The lines of the rows -/

/-- The lines printed for the rows, behind a message that has been filled before. -/
def linesOf : Line R → List (Row (Option R)) → List (Line R)
  | _, [] => []
  | msg, row :: rows =>
    let msg := msg.fill row.name row.sid row.ext
    if rows.head?.all fun next => decide (next.announced ≠ row.sid) then
      msg :: linesOf .clear rows
    else linesOf msg rows

section Peek
variable {E : Type}

theorem Reader.getNextSid_again {r r' : Reader E} {sid : ℕ} (h : r.getNextSid = .ok (sid, r')) :
    r'.getNextSid = .ok (sid, r') := by
  cases hhas : r.hasSid with
  | true =>
    have hsame : (r.sid, r) = (sid, r') := by simpa [Reader.getNextSid, hhas] using h
    obtain ⟨rfl, rfl⟩ := Prod.mk.inj hsame
    exact h
  | false =>
    cases hfile : r.file with
    | nil => simp [Reader.getNextSid, hhas, hfile] at h
    | cons message file =>
      cases message with
      | content ext => simp [Reader.getNextSid, hhas, hfile] at h
      | sid value =>
        have hsame : (value, (⟨file, value, true⟩ : Reader E)) = (sid, r') := by
          simpa [Reader.getNextSid, hhas, hfile] using h
        obtain ⟨rfl, rfl⟩ := Prod.mk.inj hsame
        rfl

/-- Announcing an id ahead changes nothing that is read. -/
theorem getNextSid_spec {s s' : TraceExtensionSet E} {sid : ℕ}
    (h : s.getNextSid = .ok (sid, s')) :
    s'.getNextSid = .ok (sid, s') ∧ s'.read = s.read ∧ s'.getName = s.getName ∧
      s'.hasNext = s.hasNext := by
  obtain ⟨set⟩ := s
  cases set with
  | nil => cases h
  | cons entry set =>
    cases hread : entry.ext.reader.getNextSid with
    | error message => simp [TraceExtensionSet.getNextSid, hread, bind, Except.bind] at h
    | ok result =>
      obtain ⟨sid', reader⟩ := result
      have hagain := Reader.getNextSid_again hread
      rw [TraceExtensionSet.getNextSid] at h
      simp only [hread, bind_ok, Except.ok.injEq, Prod.mk.injEq] at h
      obtain ⟨rfl, rfl⟩ := h
      refine ⟨?_, ?_, rfl, rfl⟩
      · simp only [TraceExtensionSet.getNextSid, hagain, bind_ok]
      · simp only [TraceExtensionSet.read, Reader.read, hread, hagain, bind_ok]

theorem next_spec {s s' : TraceExtensionSet E} {row : Row E} (h : s.next = .ok (row, s')) :
    s.getName = .ok row.name ∧ s.read = .ok (row.sid, row.ext, s') ∧
      ∃ s₁, s.getNextSid = .ok (row.announced, s₁) ∧ s₁.next = .ok (row, s') := by
  cases hname : s.getName with
  | error message => simp [TraceExtensionSet.next, hname, bind, Except.bind] at h
  | ok name =>
    cases hsid : s.getNextSid with
    | error message => simp [TraceExtensionSet.next, hname, hsid, bind, Except.bind] at h
    | ok result =>
      obtain ⟨announced, s₁⟩ := result
      obtain ⟨hagain, hread, hname₁, -⟩ := getNextSid_spec hsid
      rw [TraceExtensionSet.next, hname, bind_ok, hsid, bind_ok] at h
      cases hread₁ : s₁.read with
      | error message => simp [hread₁, bind, Except.bind] at h
      | ok result =>
        obtain ⟨sid, ext, s₂⟩ := result
        simp only [hread₁, bind_ok, Except.ok.injEq, Prod.mk.injEq] at h
        obtain ⟨rfl, rfl⟩ := h
        refine ⟨rfl, hread.symm.trans hread₁, s₁, rfl, ?_⟩
        rw [TraceExtensionSet.next, hname₁.trans hname, bind_ok, hagain, bind_ok]
        simp only [hread₁, bind_ok]

theorem Reads.peek {s : TraceExtensionSet E} {row : Row E} {rows : List (Row E)}
    (h : Reads s (row :: rows)) :
    ∃ s₁, s.getNextSid = .ok (row.announced, s₁) ∧ Reads s₁ (row :: rows) := by
  cases h with
  | next hmore hnext hrest =>
    obtain ⟨-, -, s₁, hsid, hnext₁⟩ := next_spec hnext
    obtain ⟨-, -, -, hmore₁⟩ := getNextSid_spec hsid
    exact ⟨s₁, hsid, .next (hmore₁.trans hmore) hnext₁ hrest⟩

end Peek

theorem Reads.timeToPrint {s : TraceExtensionSet (Option R)} {rows : List (Row (Option R))}
    (h : Reads s rows) (sid : ℕ) : ∃ s₁, Reads s₁ rows ∧
      s.timeToPrint sid = .ok (rows.head?.all fun next => decide (next.announced ≠ sid), s₁) := by
  cases rows with
  | nil =>
    cases h with
    | done hend => exact ⟨s, .done hend, by simp [TraceExtensionSet.timeToPrint, hend]⟩
  | cons row rows =>
    obtain ⟨s₁, hsid, hreads⟩ := h.peek
    cases h with
    | next hmore hnext hrest =>
      refine ⟨s₁, hreads, ?_⟩
      rw [TraceExtensionSet.timeToPrint, if_pos hmore, hsid]
      rfl

/-- With enough rounds the loop prints the lines of the rows. -/
theorem Reads.print {format : OutputFormat} (hformat : format ≠ .unknown)
    {s : TraceExtensionSet (Option R)} {rows : List (Row (Option R))} (h : Reads s rows)
    (msg : Line R) : ∀ rounds, rows.length < rounds →
      s.print format rounds msg = .ok (linesOf msg rows) := by
  induction rows generalizing s msg with
  | nil =>
    intro rounds hrounds
    obtain ⟨rounds, rfl⟩ := Nat.exists_eq_succ_of_ne_zero (Nat.ne_zero_of_lt hrounds)
    cases h with
    | done hend => simp [TraceExtensionSet.print, hend, linesOf]
  | cons row rows ih =>
    intro rounds hrounds
    obtain ⟨rounds, rfl⟩ := Nat.exists_eq_succ_of_ne_zero (Nat.ne_zero_of_lt hrounds)
    have hrounds' : rows.length < rounds := Nat.lt_of_succ_lt_succ hrounds
    cases h with
    | next hmore hnext hrest =>
      obtain ⟨hname, hread, -⟩ := next_spec hnext
      obtain ⟨s₁, hreads₁, htime⟩ := hrest.timeToPrint row.sid
      rw [TraceExtensionSet.print, if_pos hmore, hname, bind_ok, hread]
      simp only [bind_ok, htime, linesOf, hformat, if_false]
      split_ifs with htime'
      · simp only [ih hreads₁ .clear rounds hrounds', bind_ok]
      · exact ih hreads₁ _ rounds hrounds'

end Octf.Extension
