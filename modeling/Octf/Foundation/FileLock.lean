import Mathlib.Logic.Function.Basic
import Mathlib.Tactic.Common

/-! Locks of files among processes and their threads: a mutex for each process and file, and one
record lock for each file, which a process loses when it closes any of its descriptors. -/
namespace Foundation

variable {P O F : Type} [DecidableEq P] [DecidableEq F]

/-- The owner of each process's mutex, and the process that has the record lock. -/
structure FileLocks (P O F : Type) where
  mutex : P → F → Option O
  record : F → Option P

namespace FileLocks

def init : FileLocks P O F := ⟨fun _ _ => none, fun _ => none⟩

/-- A process can take both locks of a file. -/
def Free (p : P) (f : F) (l : FileLocks P O F) : Prop :=
  l.mutex p f = none ∧ (l.record f = none ∨ l.record f = some p)

instance [DecidableEq O] (p : P) (f : F) (l : FileLocks P O F) : Decidable (l.Free p f) :=
  inferInstanceAs (Decidable (_ ∧ (_ ∨ _)))

def acquire (p : P) (o : O) (f : F) (l : FileLocks P O F) : FileLocks P O F where
  mutex := Function.update l.mutex p (Function.update (l.mutex p) f (some o))
  record := Function.update l.record f (some p)

/-- A process closes a descriptor of the file. -/
def close (p : P) (f : F) (l : FileLocks P O F) : FileLocks P O F :=
  if l.record f = some p then { l with record := Function.update l.record f none } else l

/-- A process closes the descriptor it has locked the file with. -/
def release (p : P) (f : F) (l : FileLocks P O F) : FileLocks P O F :=
  let l := l.close p f
  { l with mutex := Function.update l.mutex p (Function.update (l.mutex p) f none) }

/-- A process dies. -/
def die (p : P) (l : FileLocks P O F) : FileLocks P O F where
  mutex := Function.update l.mutex p fun _ => none
  record f := if l.record f = some p then none else l.record f

@[simp] theorem close_mutex (p : P) (f : F) (l : FileLocks P O F) :
    (l.close p f).mutex = l.mutex := by
  unfold close
  split_ifs <;> rfl

/-- A record lock that is left was there before, and is not the one that has been closed. -/
theorem record_of_close {p p' : P} {f f' : F} {l : FileLocks P O F}
    (h : (l.close p f).record f' = some p') : l.record f' = some p' ∧ (f' = f → p' ≠ p) := by
  unfold close at h
  split_ifs at h with hrecord
  · by_cases hf : f' = f
    · subst hf
      simp at h
    · simp only [Function.update_of_ne hf] at h
      exact ⟨h, fun heq => absurd heq hf⟩
  · refine ⟨h, ?_⟩
    rintro rfl rfl
    exact hrecord h

/-- An owner has the mutex of its process, and the process still has the record lock. -/
structure Held (process : O → P) (l : FileLocks P O F) (o : O) (f : F) : Prop where
  mutex : l.mutex (process o) f = some o
  record : l.record f = some (process o)

namespace Held

variable {process : O → P} {l : FileLocks P O F} {o o' : O} {f f' : F} {p : P}

omit [DecidableEq P] [DecidableEq F] in
theorem unique (h : Held process l o f) (h' : Held process l o' f) : o = o' := by
  have hprocess : process o = process o' := Option.some.inj (h.record.symm.trans h'.record)
  have hmutex := h.mutex
  rw [hprocess, h'.mutex] at hmutex
  exact (Option.some.inj hmutex).symm

omit [DecidableEq P] [DecidableEq F] in
theorem not_free (h : Held process l o f) (p : P) : ¬ l.Free p f := by
  rintro ⟨hmutex, hrecord⟩
  rw [h.record] at hrecord
  rcases hrecord with hrecord | hrecord
  · cases hrecord
  · obtain rfl := Option.some.inj hrecord
    rw [h.mutex] at hmutex
    cases hmutex

theorem acquired : Held process (l.acquire (process o) o f) o f := by
  constructor <;> simp [acquire]

/-- Who acquires a free lock takes it from nobody. -/
theorem acquire (h : Held process l o f) (hfree : l.Free p f') :
    Held process (l.acquire p o' f') o f := by
  have hne : f ≠ f' := by
    rintro rfl
    exact h.not_free p hfree
  constructor
  · by_cases hp : process o = p
    · subst hp
      simp [FileLocks.acquire, Function.update_of_ne hne, h.mutex]
    · simp [FileLocks.acquire, Function.update_of_ne hp, h.mutex]
  · simp [FileLocks.acquire, Function.update_of_ne hne, h.record]

/-- The descriptor that is closed is of another file, or of a process that has not locked it. -/
theorem close {g : F} (h : Held process l o f) (hne : f = g → process o ≠ p) :
    Held process (l.close p g) o f := by
  unfold FileLocks.close
  split_ifs with hrecord
  · refine ⟨h.mutex, ?_⟩
    by_cases hf : f = g
    · subst hf
      exact absurd (Option.some.inj (h.record.symm.trans hrecord)) (hne rfl)
    · simp [Function.update_of_ne hf, h.record]
  · exact h

/-- The lock of one owner is released, that of another one stays. -/
theorem release (h : Held process l o f) (h' : Held process l o' f') (hne : o ≠ o') :
    Held process (l.release (process o') f') o f := by
  have hf : f ≠ f' := by
    rintro rfl
    exact hne (h.unique h')
  have hclose := h.close (p := process o') (g := f') fun heq => absurd heq hf
  refine ⟨?_, hclose.record⟩
  unfold FileLocks.release
  by_cases hp : process o = process o'
  · rw [← hp]
    simp [Function.update_of_ne hf, h.mutex]
  · simp [Function.update_of_ne hp, h.mutex]

omit [DecidableEq F] in
theorem die (h : Held process l o f) (hne : process o ≠ p) : Held process (l.die p) o f := by
  refine ⟨?_, ?_⟩
  · simp [FileLocks.die, Function.update_of_ne hne, h.mutex]
  · have hrecord : l.record f ≠ some p := fun heq =>
      hne (Option.some.inj (h.record.symm.trans heq))
    simp [FileLocks.die, h.record, hne]

end Held

end FileLocks

end Foundation
