import Octf.Foundation.Lines
import Octf.Utils.CsvParser

/-! The elements of a command line and the keys they can be. -/
namespace Octf.Cli
open Octf.Utils (Bytes)

/-! ### Validation of options -/

def SHORT_KEY_PREFIX : Bytes := [45]
def LONG_KEY_PREFIX : Bytes := [45, 45]

def isalpha (c : UInt8) : Bool := (65 ≤ c && c ≤ 90) || (97 ≤ c && c ≤ 122)
def isalnum (c : UInt8) : Bool := isalpha c || (48 ≤ c && c ≤ 57)
def isprint (c : UInt8) : Bool := 32 ≤ c && c ≤ 126

/-- No short key is a valid one. -/
def isShortKeyValid : Bytes → Bool
  | [] => true
  | [c] => isalpha c
  | _ => false

/-- Hyphens are allowed behind the first character, which may be a digit. -/
def isLongKeyValid : Bytes → Bool
  | [] => false
  | c :: cs => isalnum c && cs.all fun c => isalnum c || c == 45

def isDescValid (desc : Bytes) : Bool := !desc.isEmpty && desc.all isprint

/-! ### Elements -/

inductive CliType where
  | Raw | ShortKey | LongKey | Other
  deriving DecidableEq

structure CLIElement where
  value : Bytes
  type : CliType := .Raw
  deriving DecidableEq

namespace CLIElement

def hasPrefix (text pre : Bytes) : Bool :=
  if (text.isEmpty && !pre.isEmpty) || decide (text.length < pre.length) then false
  else text.take pre.length == pre

def parseKey (key pre : Bytes) : Bytes :=
  if hasPrefix key pre then key.drop pre.length else []

/-- The element with its type, and the key without what marks it as one. -/
def getKeyName (e : CLIElement) : Bytes × CLIElement :=
  let key := parseKey e.value LONG_KEY_PREFIX
  if key ≠ [] then (key, { e with type := .LongKey })
  else
    let key := parseKey e.value SHORT_KEY_PREFIX
    if key = [] then (key, { e with type := .Other }) else (key, { e with type := .ShortKey })

def isValidKey (key : Bytes) : CliType → Bool
  | .ShortKey => isShortKeyValid key
  | .LongKey => isLongKeyValid key
  | _ => false

def getValidKeyName (e : CLIElement) : Bytes :=
  let (key, e) := e.getKeyName
  if key.isEmpty || !isValidKey key e.type then [] else key

end CLIElement

/-- `CLIList`, from its iterator on. -/
abbrev CLIList := List CLIElement

namespace CLIList

/-- The name of the program is left out. -/
def create (arguments : List Bytes) : CLIList := arguments.tail.map fun value => { value }

/-- The keys of `ParamHelp`. -/
def helpLongKey : Bytes := [104, 101, 108, 112]
def helpShortKey : Bytes := [72]

def hasHelp : CLIList → Bool
  | [] => false
  | e :: _ => e.getValidKeyName == helpLongKey || e.getValidKeyName == helpShortKey

end CLIList

/-! ### The keys that elements give -/

theorem isShortKeyValid_iff {key : Bytes} (hkey : key ≠ []) :
    isShortKeyValid key ↔ ∃ c, isalpha c ∧ key = [c] := by
  match key with
  | [] => exact absurd rfl hkey
  | [c] => simp [isShortKeyValid]
  | c :: c' :: cs => simp [isShortKeyValid]

namespace CLIElement

theorem hasPrefix_iff {text pre : Bytes} : hasPrefix text pre ↔ pre <+: text := by
  unfold hasPrefix
  split_ifs with h
  · simp only [false_iff]
    rintro ⟨rest, rfl⟩
    cases pre with
    | nil => simp at h
    | cons c pre =>
      have hle : (c :: pre).length ≤ (c :: pre ++ rest).length := by
        rw [List.length_append]
        exact Nat.le_add_right _ _
      have hlt : (c :: pre ++ rest).length < (c :: pre).length := by
        simpa only [List.cons_append, List.isEmpty_cons, Bool.false_and, Bool.false_or,
          decide_eq_true_eq] using h
      exact absurd hlt (not_lt.mpr hle)
  · rw [beq_iff_eq, List.prefix_iff_eq_take, eq_comm]

theorem parseKey_append (pre rest : Bytes) : parseKey (pre ++ rest) pre = rest := by
  rw [parseKey, if_pos (hasPrefix_iff.mpr (List.prefix_append pre rest)), List.drop_left]

theorem parseKey_eq_iff {text pre key : Bytes} (hkey : key ≠ []) :
    parseKey text pre = key ↔ text = pre ++ key := by
  constructor
  · intro h
    unfold parseKey at h
    split_ifs at h with hpre
    · obtain ⟨rest, rfl⟩ := hasPrefix_iff.mp hpre
      rw [List.drop_left] at h
      rw [h]
    · exact absurd h.symm hkey
  · rintro rfl
    exact parseKey_append pre key

/-- An element gives a key when it is two hyphens and a long key, or one hyphen and a letter. -/
theorem getValidKeyName_eq_iff {e : CLIElement} {key : Bytes} (hkey : key ≠ []) :
    e.getValidKeyName = key ↔
      (e.value = LONG_KEY_PREFIX ++ key ∧ isLongKeyValid key) ∨
        e.value = SHORT_KEY_PREFIX ++ key ∧ isShortKeyValid key := by
  by_cases hlong : parseKey e.value LONG_KEY_PREFIX = []
  · -- what is no long key can be a short one
    have hnot : e.value ≠ LONG_KEY_PREFIX ++ key := fun h => by
      rw [h, parseKey_append] at hlong
      exact hkey hlong
    by_cases hshort : parseKey e.value SHORT_KEY_PREFIX = []
    · have hnot' : e.value ≠ SHORT_KEY_PREFIX ++ key := fun h => by
        rw [h, parseKey_append] at hshort
        exact hkey hshort
      simp [getValidKeyName, getKeyName, hlong, hshort, hnot, hnot', hkey.symm]
    · simp only [getValidKeyName, getKeyName, hlong, hshort, hnot, isValidKey, ne_eq,
        not_true_eq_false, if_false, false_and, false_or, List.isEmpty_iff, Bool.or_eq_true,
        Bool.not_eq_true']
      constructor
      · intro h
        split_ifs at h with hvalid
        · exact absurd h.symm hkey
        · rw [← parseKey_eq_iff hkey, ← h]
          exact ⟨rfl, by simpa using hvalid⟩
      · rintro ⟨h, hvalid⟩
        rw [(parseKey_eq_iff hkey).mpr h, hvalid]
        simp
  · have hvalue := (parseKey_eq_iff hlong).mp rfl
    -- behind two hyphens, one hyphen leaves what is not a letter
    have hnot : ¬ (e.value = SHORT_KEY_PREFIX ++ key ∧ isShortKeyValid key) := by
      rintro ⟨h, hvalid⟩
      obtain ⟨c, hc, rfl⟩ := (isShortKeyValid_iff hkey).mp hvalid
      rw [h] at hvalue
      simp only [SHORT_KEY_PREFIX, LONG_KEY_PREFIX, List.cons_append, List.nil_append,
        List.cons.injEq, true_and] at hvalue
      exact absurd hc (by rw [hvalue.1]; decide)
    simp only [getValidKeyName, getKeyName, hlong, isValidKey, ne_eq, not_false_eq_true, if_true,
      hnot, or_false, List.isEmpty_iff, Bool.or_eq_true, Bool.not_eq_true', false_or]
    constructor
    · intro h
      split_ifs at h with hvalid
      · exact absurd h.symm hkey
      · rw [← parseKey_eq_iff hkey, ← h]
        exact ⟨rfl, by simpa using hvalid⟩
    · rintro ⟨h, hvalid⟩
      rw [(parseKey_eq_iff hkey).mpr h, hvalid]
      simp

end CLIElement

end Octf.Cli
