import Octf.Foundation.Lines
import Octf.Foundation.Word
import Octf.Storage.ProtoConverter

/-! The base name of a path, with the integer types of the source. -/
namespace Octf.Utils.fsutils
open Foundation
open Octf.Storage (toInt32)

def slash : UInt8 := 47

/-- A `std::string`, which is never longer than `max_size`. -/
structure StdString where
  bytes : List UInt8
  bounded : bytes.length < 2 ^ 63

/-- `std::string::rfind` of one character, from a position back to the first. -/
def rfind (c : UInt8) (bytes : List UInt8) : ℕ → Option ℕ
  | 0 => if bytes[0]? = some c then some 0 else none
  | pos + 1 => if bytes[pos + 1]? = some c then some (pos + 1) else rfind c bytes pos

/-- `std::string::substr`, or nothing when it throws `std::out_of_range`. -/
def substr (bytes : List UInt8) (pos count : ℕ) : Option (List UInt8) :=
  if pos ≤ bytes.length then some ((bytes.drop pos).take count) else none

/-- An unsigned index, and whether it has wrapped. -/
structure Index where
  value : ℕ
  wrapped : Bool

def Index.decrement (i : Index) : Index :=
  if i.value = 0 then ⟨2 ^ 64 - 1, true⟩ else ⟨i.value - 1, i.wrapped⟩

/-- How a call ends: its result, which an exception leaves out, and the parameter it sets. -/
structure Outcome where
  result : Option Bool
  basename : List UInt8
  wrapped : Bool
  deriving DecidableEq

/-- The loop in front of the search; the flag says that it has returned. The character it looks at
is the last one of the whole path. -/
def stripSlashes (path : List UInt8) : ℕ → Index → Option (Bool × Index)
  | 0, _ => none
  | fuel + 1, last =>
    if path.getLast? = some slash then
      let last := last.decrement
      if last.value = 0 then some (true, last) else stripSlashes path fuel last
    else some (false, last)

/-- Where the base name begins. The position is an `int`. -/
def firstIndex (path : List UInt8) (last : ℕ) : ℕ :=
  match rfind slash path last with
  | some pos => (toInt32 (pos + 1) % 2 ^ 64).toNat
  | none => 0

/-- What follows the loop. -/
def cutBaseName (path old : List UInt8) (last : Index) : Outcome :=
  let first := firstIndex path last.value
  match substr path first (add64 (sub64 last.value first) 1) with
  | some name => ⟨some true, name, last.wrapped⟩
  | none => ⟨none, old, last.wrapped⟩

/-- `fsutils::basename`; `old` is what the parameter holds before the call. -/
def basename (fuel : ℕ) (path old : List UInt8) : Option Outcome :=
  if path = [] then some ⟨some false, old, false⟩
  else
    (stripSlashes path fuel ⟨path.length - 1, false⟩).map fun (returned, last) =>
      -- the text that is returned here is converted to `true`
      if returned then ⟨some true, old, last.wrapped⟩ else cutBaseName path old last

/-- The last component that is not empty, or a slash if there is none. -/
def baseName (path : List UInt8) : List UInt8 :=
  ((getlines slash path).filter (· ≠ [])).getLast?.getD [slash]

/-- Whatever the parameter holds before, the call returns and sets it to the base name, and its
index does not wrap. -/
def FindsBaseName (path : List UInt8) : Prop :=
  ∀ old, ∃ fuel, basename fuel path old = some ⟨some true, baseName path, false⟩

variable {c : UInt8} {path old : List UInt8} {pos n : ℕ}

/-- What is found is the last occurrence. -/
theorem rfind_eq_some (h : rfind c path n = some pos) :
    pos ≤ n ∧ path[pos]? = some c ∧ ∀ i, pos < i → i ≤ n → path[i]? ≠ some c := by
  induction n with
  | zero =>
    unfold rfind at h
    split_ifs at h with hc
    obtain rfl := Option.some.inj h
    exact ⟨le_rfl, hc, fun i hpos hi => absurd hpos (by omega)⟩
  | succ n ih =>
    unfold rfind at h
    split_ifs at h with hc
    · obtain rfl := Option.some.inj h
      exact ⟨le_rfl, hc, fun i hpos hi => absurd hpos (by omega)⟩
    · obtain ⟨hle, hpos, hlast⟩ := ih h
      refine ⟨Nat.le_succ_of_le hle, hpos, fun i hlt hi => ?_⟩
      rcases Nat.le_succ_iff.mp hi with hi | rfl
      · exact hlast i hlt hi
      · exact hc

theorem rfind_eq_none (h : rfind c path n = none) : ∀ i ≤ n, path[i]? ≠ some c := by
  induction n with
  | zero =>
    unfold rfind at h
    split_ifs at h with hc
    intro i hi
    rwa [Nat.le_zero.mp hi]
  | succ n ih =>
    unfold rfind at h
    split_ifs at h with hc
    intro i hi
    rcases Nat.le_succ_iff.mp hi with hi | rfl
    · exact ih h i hi
    · exact hc

/-- Where the base name begins, without the conversions of the position. -/
def start (path : List UInt8) : ℕ := (rfind slash path (path.length - 1)).elim 0 (· + 1)

/-- A path that does not end with a slash, in two parts at its last one. -/
structure Split (path : List UInt8) : Prop where
  lt : start path < path.length
  front : endsOpen slash (path.take (start path)) = true
  base : slash ∉ path.drop (start path)
  /-- every slash stands before the base name -/
  before : ∀ pos, path[pos]? = some slash → pos < start path
  /-- and one of them right before it -/
  atSlash : start path = 0 ∨ path[start path - 1]? = some slash

theorem split_path (hne : path ≠ []) (hlast : path.getLast? ≠ some slash) : Split path := by
  have hpos : 0 < path.length := List.length_pos_iff.mpr hne
  rw [List.getLast?_eq_getElem?] at hlast
  have hbase : (∀ i, start path ≤ i → i ≤ path.length - 1 → path[i]? ≠ some slash) →
      slash ∉ path.drop (start path) := by
    intro hall hmem
    obtain ⟨i, hi⟩ := List.mem_iff_getElem?.mp hmem
    rw [List.getElem?_drop] at hi
    have hlt := (List.getElem?_eq_some_iff.mp hi).1
    exact hall _ (Nat.le_add_right ..) (by omega) hi
  have hbefore : (∀ i, start path ≤ i → i ≤ path.length - 1 → path[i]? ≠ some slash) →
      ∀ pos, path[pos]? = some slash → pos < start path := by
    intro hall pos hslash
    by_contra hnot
    have hlt := (List.getElem?_eq_some_iff.mp hslash).1
    exact hall pos (by omega) (by omega) hslash
  cases hfind : rfind slash path (path.length - 1) with
  | none =>
    have hstart : start path = 0 := by rw [start, hfind]; rfl
    have hnone := rfind_eq_none hfind
    have hall : ∀ i, start path ≤ i → i ≤ path.length - 1 → path[i]? ≠ some slash :=
      fun i _ hi => hnone i hi
    refine ⟨by omega, ?_, hbase hall, hbefore hall, Or.inl hstart⟩
    rw [hstart, List.take_zero]
    rfl
  | some pos =>
    have hstart : start path = pos + 1 := by rw [start, hfind]; rfl
    obtain ⟨hle, hslash, hafter⟩ := rfind_eq_some hfind
    have hall : ∀ i, start path ≤ i → i ≤ path.length - 1 → path[i]? ≠ some slash :=
      fun i hi => hafter i (by omega)
    have hlt : start path < path.length := by
      have hne' : pos ≠ path.length - 1 := by
        rintro rfl
        exact hlast hslash
      omega
    refine ⟨hlt, ?_, hbase hall, hbefore hall, Or.inr (by rwa [hstart])⟩
    have hget : (path.take (start path)).getLast? = some slash := by
      rw [List.getLast?_eq_getElem?, List.length_take, min_eq_left hlt.le, hstart,
        Nat.add_sub_cancel, List.getElem?_take, if_pos (Nat.lt_succ_self pos), hslash]
    rw [endsOpen, hget]
    simp

/-- The base name is all that stands behind the last slash. -/
theorem Split.baseName_eq (h : Split path) : baseName path = path.drop (start path) := by
  have hne : path.drop (start path) ≠ [] := by simpa using h.lt
  have hlines : getlines slash path =
      getlines slash (path.take (start path)) ++ [path.drop (start path)] := by
    conv_lhs => rw [← List.take_append_drop (start path) path]
    exact getlines_append_of_notMem h.front h.base hne
  rw [baseName, hlines, List.filter_append, List.filter_singleton, decide_eq_true hne]
  simp

/-- Behind a slash at the end the loop runs until it returns. -/
theorem stripSlashes_of_slash {fuel : ℕ} {last last' : Index} {returned : Bool}
    (h : path.getLast? = some slash) (hrun : stripSlashes path fuel last = some (returned, last')) :
    returned = true := by
  induction fuel generalizing last with
  | zero => cases hrun
  | succ fuel ih =>
    simp only [stripSlashes, if_pos h] at hrun
    split_ifs at hrun with hzero
    · exact (Prod.mk.inj (Option.some.inj hrun)).1.symm
    · exact ih hrun

/-- Then the parameter is not set. -/
theorem basename_of_slash {fuel : ℕ} {outcome : Outcome} (hne : path ≠ [])
    (h : path.getLast? = some slash) (hrun : basename fuel path old = some outcome) :
    outcome.basename = old := by
  simp only [basename, if_neg hne, Option.map_eq_some_iff] at hrun
  obtain ⟨⟨returned, last⟩, hloop, rfl⟩ := hrun
  simp only [if_pos (stripSlashes_of_slash h hloop)]

/-- Without a slash at the end the loop is left at once. -/
theorem basename_of_not_slash (hne : path ≠ []) (h : path.getLast? ≠ some slash) (fuel : ℕ) :
    basename (fuel + 1) path old = some (cutBaseName path old ⟨path.length - 1, false⟩) := by
  simp [basename, hne, stripSlashes, h]

/-- The position that the substring is taken from. -/
theorem firstIndex_eq (path : List UInt8) : firstIndex path (path.length - 1) =
    if start path = 0 then 0 else (toInt32 (start path) % 2 ^ 64).toNat := by
  unfold firstIndex start
  cases rfind slash path (path.length - 1) <;> simp

/-- A position that an `int` holds is the begin of the base name. -/
theorem cutBaseName_of_lt (hsplit : Split path) (hlength : path.length < 2 ^ 63)
    (h : start path < 2 ^ 31) :
    cutBaseName path old ⟨path.length - 1, false⟩ = ⟨some true, baseName path, false⟩ := by
  have hlt := hsplit.lt
  have hfirst : firstIndex path (path.length - 1) = start path := by
    rw [firstIndex_eq, Octf.Storage.ProtoConverter.toInt32_of_lt h]
    split_ifs <;> omega
  have hcount : add64 (sub64 (path.length - 1) (start path)) 1 = path.length - start path := by
    rw [sub64_of_le (by omega) (by omega), add64_of_lt (by omega)]
    omega
  have hall : (path.drop (start path)).take (path.length - start path) = path.drop (start path) :=
    List.take_of_length_le (by rw [List.length_drop])
  simp only [cutBaseName, hfirst, hcount, substr, if_pos hlt.le, hall, hsplit.baseName_eq]

/-- Behind any other one the call throws, or takes more than the base name. -/
theorem cutBaseName_of_ge (hsplit : Split path) (hlength : path.length < 2 ^ 63)
    (h : 2 ^ 31 ≤ start path) :
    cutBaseName path old ⟨path.length - 1, false⟩ ≠ ⟨some true, baseName path, false⟩ := by
  have hlt := hsplit.lt
  have hfirst := firstIndex_eq path
  rw [if_neg (by omega), toInt32] at hfirst
  intro heq
  simp only [cutBaseName] at heq
  by_cases hsign : start path % 2 ^ 32 < 2 ^ 31
  · -- the position has lost its upper bits
    rw [if_pos hsign] at hfirst
    have hfirst' : firstIndex path (path.length - 1) = start path % 2 ^ 32 := by omega
    have hcount : add64 (sub64 (path.length - 1) (start path % 2 ^ 32)) 1 =
        path.length - start path % 2 ^ 32 := by
      rw [sub64_of_le (by omega) (by omega), add64_of_lt (by omega)]
      omega
    rw [hfirst', hcount, substr, if_pos (by omega)] at heq
    have hname := congrArg (fun outcome => outcome.basename.length) heq
    simp only [hsplit.baseName_eq, List.length_take, List.length_drop] at hname
    omega
  · -- it is negative, and behind every path as an unsigned number
    rw [if_neg hsign] at hfirst
    rw [substr, if_neg (by omega)] at heq
    cases heq

/-- The base name is found exactly when the path does not end with a slash and every slash lies in
front of position `2 ^ 31 - 1`. -/
theorem findsBaseName_iff (path : StdString) (hne : path.bytes ≠ []) :
    FindsBaseName path.bytes ↔ path.bytes.getLast? ≠ some slash ∧
      ∀ pos, path.bytes[pos]? = some slash → pos + 1 < 2 ^ 31 := by
  by_cases hlast : path.bytes.getLast? = some slash
  · refine iff_of_false (fun h => ?_) fun h => h.1 hlast
    -- the parameter keeps whatever it has held
    obtain ⟨fuel, hrun⟩ := h (slash :: baseName path.bytes)
    have hold := basename_of_slash hne hlast hrun
    exact absurd (congrArg List.length hold) (by simp)
  · have hsplit := split_path hne hlast
    rw [and_iff_right hlast]
    constructor
    · intro h pos hpos
      obtain ⟨fuel, hrun⟩ := h []
      have hlt := hsplit.before pos hpos
      by_contra hge
      cases fuel with
      | zero => simp [basename, hne, stripSlashes] at hrun
      | succ fuel =>
        rw [basename_of_not_slash hne hlast] at hrun
        exact cutBaseName_of_ge hsplit path.bounded (by omega) (Option.some.inj hrun)
    · intro h old
      refine ⟨1, ?_⟩
      rw [basename_of_not_slash hne hlast, cutBaseName_of_lt hsplit path.bounded]
      rcases hsplit.atSlash with hzero | hslash
      · omega
      · have hbound := h _ hslash
        omega

/-- `usr/lib` -/
def usrLib : StdString := ⟨[117, 115, 114, 47, 108, 105, 98], by decide⟩

theorem findsBaseName_usrLib :
    FindsBaseName usrLib.bytes ↔ usrLib.bytes.getLast? ≠ some slash ∧
      ∀ pos, usrLib.bytes[pos]? = some slash → pos + 1 < 2 ^ 31 :=
  findsBaseName_iff usrLib (by decide)

/-- The base name of `lib/` is not set. -/
theorem not_findsBaseName_trailing : ¬ FindsBaseName [108, 105, 98, 47] := by
  intro h
  obtain ⟨fuel, hrun⟩ := h []
  have hold := basename_of_slash (by decide) (by decide) hrun
  exact absurd hold (by decide)

end Octf.Utils.fsutils
