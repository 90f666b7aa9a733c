import Mathlib.Data.List.TakeWhile
import Octf.Storage.ProtoConverter
import Octf.Utils.CsvParser

/-! The CSV parser on a stream with its error states, and when its loops end. -/
namespace Octf.Utils
open Foundation
open Octf.Storage (toInt32 toUInt32)

/-- `std::istream` on the bytes of a string. -/
structure InputStream where
  data : Bytes
  pos : ℕ
  /-- `eofbit` -/
  eof : Bool
  /-- `failbit` -/
  fail : Bool

namespace InputStream

def ofString (content : Bytes) : InputStream := ⟨content, 0, false, false⟩

def good (s : InputStream) : Bool := !s.eof && !s.fail

def rest (s : InputStream) : Bytes := s.data.drop s.pos

/-- Like every input function it fails on a stream that is not good. -/
def tellg (s : InputStream) : ℤ × InputStream :=
  if s.good then (s.pos, s) else (-1, { s with fail := true })

/-- `seekg`, to a position from the beginning. The end of the stream is left first. -/
def seekg (target : ℤ) (s : InputStream) : InputStream :=
  let s := { s with eof := false }
  if s.fail then s
  else if 0 ≤ target ∧ target ≤ s.data.length then { s with pos := target.toNat }
  else { s with fail := true }

/-- `get`; what was read last stays when nothing is read. -/
def get (last : UInt8) (s : InputStream) : UInt8 × InputStream :=
  if s.good then
    match s.data[s.pos]? with
    | some c => (c, { s with pos := s.pos + 1 })
    | none => (last, { s with eof := true, fail := true })
  else (last, { s with fail := true })

/-- `std::getline`. A delimiter is read and not kept; a stream that gives nothing fails. -/
def getline (delim : UInt8) (str : Bytes) (s : InputStream) : Bytes × InputStream :=
  if s.good then
    let piece := s.rest.takeWhile (· ≠ delim)
    if delim ∈ s.rest then (piece, { s with pos := s.pos + piece.length + 1 })
    else (piece, { s with pos := s.data.length, eof := true, fail := piece = [] })
  else (str, { s with fail := true })

end InputStream

namespace csvparser

/-- A position as an `int`. -/
def int (p : ℤ) : ℤ := toInt32 (toUInt32 p)

/-- The search for the last byte that is not zero. -/
def lastLoop : ℕ → UInt8 → ℤ → InputStream → Option (UInt8 × InputStream)
  | 0, _, _, _ => none
  | fuel + 1, last, pos, content =>
    if last = 0 ∧ 0 < pos then
      let (last, content) := content.get last
      let content := content.seekg (content.pos - 1)
      let (p, content) := content.tellg
      lastLoop fuel last (int p) content
    else some (last, content)

/-- The loop over the names in the header; whether it ends with an empty one. -/
def headerLoop : ℕ → InputStream → Bytes → Table → Option (Except CsvException Bool × Table)
  | 0, _, _, _ => none
  | fuel + 1, lineSS, token, t =>
    let (token, lineSS) := lineSS.getline comma token
    if lineSS.fail then some (.ok (decide (token = [])), t)
    else match parseHeader [token] t with
      | (.error e, t) => some (.error e, t)
      | (.ok _, t) => headerLoop fuel lineSS token t

/-- The loop over the tokens of a record: the token index behind them and whether it ends with an
empty one. -/
def tokenLoop (lineIndex : ℕ) :
    ℕ → InputStream → Bytes → ℕ → Table → Option (Except CsvException (ℕ × Bool) × Table)
  | 0, _, _, _, _ => none
  | fuel + 1, lineSS, token, tokenIndex, t =>
    let (token, lineSS) := lineSS.getline comma token
    if lineSS.fail then some (.ok (tokenIndex, decide (token = [])), t)
    else match parseTokens lineIndex [token] tokenIndex t with
      | (.error e, t) => some (.error e, t)
      | (.ok tokenIndex, t) => tokenLoop lineIndex fuel lineSS token tokenIndex t

/-- The loop over the records; `inner` bounds the loop over the tokens of one. -/
def recordLoop (inner lineCount : ℕ) :
    ℕ → InputStream → Bytes → ℕ → ℕ → Table → Option (Except CsvException Unit × Table)
  | 0, _, _, _, _, _ => none
  | fuel + 1, content, line, lineIndex, tokenIndex, t =>
    let (line, content) := content.getline newline line
    if content.fail then some (.ok (), t)
    else if lineCount ≤ lineIndex then some (.error .lineCountMismatch, t)
    else match tokenLoop lineIndex inner (.ofString line) [] tokenIndex t with
      | none => none
      | some (.error e, t) => some (.error e, t)
      | some (.ok (tokenIndex, trailing), t) =>
        let t := if trailing then (t.getRow lineIndex).setCell lineIndex (t.size - 1) [] else t
        recordLoop inner lineCount fuel content line (lineIndex + 1) tokenIndex t

/-- What follows the checks of the size and the number of lines. -/
def parseFrom (fuel lineCount : ℕ) (content : InputStream) (required : List Bytes) (t : Table) :
    Option (Except CsvException Unit × Table) :=
  let (line, content) := content.getline newline []
  match headerLoop fuel (.ofString line) [] t with
  | none => none
  | some (.error e, t) => some (.error e, t)
  | some (.ok trailing, t) =>
    if trailing then some (.error .emptyHeaderElement, t)
    else if t.size = 0 then some (.error .noHeaders, t)
    else if ∀ name ∈ required, ∃ column ∈ t.columns, t.map 0 column = some name then
      recordLoop fuel lineCount fuel content [] 1 0 t
    else some (.error .missingRequired, t)

/-- What follows the search for the last byte. -/
def parseCounted (fuel : ℕ) (originalstreamPos streamSize : ℤ) (required : List Bytes) (t : Table)
    (last : UInt8) (content : InputStream) : Option (Except CsvException Unit × Table) :=
  let content := content.seekg originalstreamPos
  -- the lines are counted in the buffer, whatever the state of the stream is
  let lineCount := lineCount content.rest last % 2 ^ 32
  let content := { content with pos := content.data.length }.seekg originalstreamPos
  if (MAX_CSV_CONTENT_SIZE : ℤ) < streamSize then some (.error .tooLarge, t)
  else if streamSize = 0 ∨ lineCount ≤ 1 then some (.error .empty, t)
  else parseFrom fuel lineCount content required t

/-- `parseCsv`; `fuel` bounds the rounds of each loop. -/
def parseCsv (fuel : ℕ) (content : InputStream) (required : List Bytes) :
    Option (Except CsvException Unit × Table) :=
  let t := Table.cleared.getRow 0
  let (p, content) := content.tellg
  let originalstreamPos := int p
  let content := content.seekg content.data.length
  let (p, content) := content.tellg
  let streamSize := int p
  let content := content.seekg (content.data.length - 1)
  let (p, content) := content.tellg
  (lastLoop fuel 0 (int p) content).bind fun found =>
    parseCounted fuel originalstreamPos streamSize required t found.1 found.2

/-! ### The progress of the loops -/

variable {s content lineSS : InputStream} {delim : UInt8} {str token line : Bytes} {t : Table}
  {fuel inner : ℕ}

/-- How many times something can be read from a stream at most. -/
def rounds (s : InputStream) : ℕ := if s.good then s.rest.length + 1 else 0

theorem data_getline (delim : UInt8) (str : Bytes) (s : InputStream) :
    (s.getline delim str).2.data = s.data := by
  unfold InputStream.getline
  dsimp only
  split_ifs <;> rfl

theorem length_piece_lt (h : delim ∈ s.rest) :
    (s.rest.takeWhile (· ≠ delim)).length < s.rest.length := by
  refine lt_of_le_of_ne (List.takeWhile_sublist _).length_le fun heq => ?_
  have hall := List.takeWhile_eq_self_iff.mp ((List.takeWhile_sublist _).eq_of_length heq) delim h
  simp at hall

/-- What is read is part of the stream. -/
theorem length_getline (h : (s.getline delim str).2.fail = false) :
    (s.getline delim str).1.length ≤ s.data.length := by
  unfold InputStream.getline at h ⊢
  by_cases hgood : s.good
  · have hpiece : (s.rest.takeWhile (· ≠ delim)).length ≤ s.data.length :=
      (List.takeWhile_sublist _).length_le.trans ((List.drop_sublist _ _).length_le)
    simp only [hgood, if_true]
    split_ifs <;> exact hpiece
  · simp [hgood] at h

/-- Every round reads a delimiter or meets the end of the stream. -/
theorem rounds_getline (h : (s.getline delim str).2.fail = false) :
    rounds (s.getline delim str).2 < rounds s := by
  unfold InputStream.getline at h ⊢
  by_cases hgood : s.good
  · simp only [hgood, if_true] at h ⊢
    by_cases hdelim : delim ∈ s.rest
    · have hlt := length_piece_lt hdelim
      have hrest : ∀ n, ({ s with pos := s.pos + n + 1 } : InputStream).rest.length =
          s.rest.length - n - 1 := by
        intro n
        simp only [InputStream.rest, List.length_drop]
        omega
      have hkept : ∀ n, ({ s with pos := n } : InputStream).good = s.good := fun _ => rfl
      rw [if_pos hdelim, rounds, rounds, hkept, if_pos hgood, if_pos hgood, hrest]
      omega
    · rw [if_neg hdelim, rounds, rounds, if_pos hgood]
      simp [InputStream.good]
  · simp [hgood] at h

theorem rounds_ofString (line : Bytes) : rounds (.ofString line) = line.length + 1 := rfl

theorem headerLoop_isSome (h : rounds lineSS < fuel) (token : Bytes) (t : Table) :
    (headerLoop fuel lineSS token t).isSome := by
  induction fuel generalizing lineSS token t with
  | zero => exact absurd h (Nat.not_lt_zero _)
  | succ fuel ih =>
    rw [headerLoop]
    dsimp only
    split_ifs with hfail
    · rfl
    · have hless := rounds_getline (Bool.eq_false_iff.mpr hfail)
      split
      · rfl
      · exact ih (by omega) _ _

theorem tokenLoop_isSome (h : rounds lineSS < fuel) (lineIndex tokenIndex : ℕ) (token : Bytes)
    (t : Table) : (tokenLoop lineIndex fuel lineSS token tokenIndex t).isSome := by
  induction fuel generalizing lineSS token tokenIndex t with
  | zero => exact absurd h (Nat.not_lt_zero _)
  | succ fuel ih =>
    rw [tokenLoop]
    dsimp only
    split_ifs with hfail
    · rfl
    · have hless := rounds_getline (Bool.eq_false_iff.mpr hfail)
      split
      · rfl
      · exact ih (by omega) _ _ _

theorem recordLoop_isSome (h : rounds content < fuel) (hinner : content.data.length + 1 < inner)
    (lineCount lineIndex tokenIndex : ℕ) (line : Bytes) (t : Table) :
    (recordLoop inner lineCount fuel content line lineIndex tokenIndex t).isSome := by
  induction fuel generalizing content line lineIndex tokenIndex t with
  | zero => exact absurd h (Nat.not_lt_zero _)
  | succ fuel ih =>
    rw [recordLoop]
    dsimp only
    split_ifs with hfail hcount
    · rfl
    · rfl
    · have hread := Bool.eq_false_iff.mpr hfail
      have hless := rounds_getline hread
      have hlength := length_getline hread
      have htokens : (tokenLoop lineIndex inner (.ofString (content.getline newline line).1) []
          tokenIndex t).isSome :=
        tokenLoop_isSome (by rw [rounds_ofString]; omega) lineIndex tokenIndex [] t
      obtain ⟨result, hresult⟩ := Option.isSome_iff_exists.mp htokens
      rw [hresult]
      split
      · contradiction
      · rfl
      · exact ih (by omega) (by rw [data_getline]; exact hinner) _ _ _ _

theorem rounds_le (s : InputStream) : rounds s ≤ s.data.length + 1 := by
  unfold rounds
  split_ifs
  · exact Nat.succ_le_succ (List.drop_sublist _ _).length_le
  · exact Nat.zero_le _

theorem parseFrom_isSome (h : content.data.length + 2 < fuel) (lineCount : ℕ)
    (required : List Bytes) (t : Table) : (parseFrom fuel lineCount content required t).isSome := by
  have hheader : ∀ line token t, line.length ≤ content.data.length →
      (headerLoop fuel (.ofString line) token t).isSome := fun line token t hline =>
    headerLoop_isSome (by rw [rounds_ofString]; omega) token t
  rw [parseFrom]
  dsimp only
  have hline : (content.getline newline []).1.length ≤ content.data.length := by
    unfold InputStream.getline
    dsimp only
    split_ifs
    · exact (List.takeWhile_sublist _).length_le.trans (List.drop_sublist _ _).length_le
    · exact (List.takeWhile_sublist _).length_le.trans (List.drop_sublist _ _).length_le
    · exact Nat.zero_le _
  obtain ⟨result, hresult⟩ := Option.isSome_iff_exists.mp (hheader _ [] t hline)
  rw [hresult]
  split
  · contradiction
  · rfl
  · have hrounds := rounds_le (content.getline newline []).2
    rw [data_getline] at hrounds
    split_ifs
    · rfl
    · rfl
    · exact recordLoop_isSome (by omega) (by rw [data_getline]; omega) _ _ _ _ _
    · rfl

/-! ### The search for the last byte -/

theorem data_tellg (s : InputStream) : s.tellg.2.data = s.data := by
  unfold InputStream.tellg
  split_ifs <;> rfl

theorem data_seekg (target : ℤ) (s : InputStream) : (s.seekg target).data = s.data := by
  unfold InputStream.seekg
  dsimp only
  split_ifs <;> rfl

theorem data_get (last : UInt8) (s : InputStream) : (s.get last).2.data = s.data := by
  unfold InputStream.get
  split_ifs
  · split <;> rfl
  · rfl

theorem data_lastLoop {last last' : UInt8} {pos : ℤ} {s' : InputStream}
    (h : lastLoop fuel last pos s = some (last', s')) : s'.data = s.data := by
  induction fuel generalizing last pos s with
  | zero => cases h
  | succ fuel ih =>
    rw [lastLoop] at h
    by_cases hloop : last = 0 ∧ 0 < pos
    · rw [if_pos hloop] at h
      dsimp only at h
      rw [ih h, data_tellg, data_seekg, data_get]
    · rw [if_neg hloop] at h
      cases h
      rfl

/-- A stream at its last byte. -/
def atLast (s : InputStream) : InputStream := ⟨s.data, s.data.length - 1, false, false⟩

theorem seekg_last (hne : s.data ≠ []) (pos : ℕ) :
    InputStream.seekg (s.data.length - 1) ⟨s.data, pos, false, false⟩ = atLast s := by
  have hlength := List.length_pos_iff.mpr hne
  have hin : (0 : ℤ) ≤ s.data.length - 1 ∧ (s.data.length - 1 : ℤ) ≤ s.data.length := by omega
  have htarget : ((s.data.length : ℤ) - 1).toNat = s.data.length - 1 := by omega
  simp [InputStream.seekg, hin, htarget, atLast, hne]

theorem tellg_atLast (hne : s.data ≠ []) :
    (atLast s).tellg = ((s.data.length : ℤ) - 1, atLast s) := by
  have hlength := List.length_pos_iff.mpr hne
  have hcast : ((s.data.length - 1 : ℕ) : ℤ) = s.data.length - 1 := by omega
  simp [InputStream.tellg, InputStream.good, atLast, hcast]

/-- The search reads the last byte and goes back to it. -/
theorem lastLoop_round (hne : s.data ≠ []) (hpos : 0 < int (s.data.length - 1)) (fuel : ℕ) :
    lastLoop (fuel + 1) 0 (int (s.data.length - 1)) (atLast s) =
      lastLoop fuel (s.data.getLast hne) (int (s.data.length - 1)) (atLast s) := by
  have hget : (atLast s).get 0 = (s.data.getLast hne, ⟨s.data, s.data.length, false, false⟩) := by
    have hlast : s.data[s.data.length - 1]? = some (s.data.getLast hne) := by
      rw [← List.getLast?_eq_getElem?, List.getLast?_eq_some_getLast hne]
    simp only [InputStream.get, InputStream.good, atLast, hlast, Bool.not_false, Bool.and_self,
      if_true, Nat.sub_add_cancel (List.length_pos_iff.mpr hne)]
  rw [lastLoop, if_pos ⟨rfl, hpos⟩]
  simp only [hget, seekg_last hne, tellg_atLast hne]

/-- On a last byte that is zero the search stays for ever. -/
theorem lastLoop_zero (hne : s.data ≠ []) (hzero : s.data.getLast hne = 0)
    (hpos : 0 < int (s.data.length - 1)) (fuel : ℕ) :
    lastLoop fuel 0 (int (s.data.length - 1)) (atLast s) = none := by
  induction fuel with
  | zero => rfl
  | succ fuel ih => rw [lastLoop_round hne hpos, hzero, ih]

/-- Otherwise it ends with the second round. -/
theorem lastLoop_isSome (hne : s.data ≠ [])
    (h : ¬ (s.data.getLast hne = 0 ∧ 0 < int (s.data.length - 1))) (hfuel : 2 ≤ fuel) :
    (lastLoop fuel 0 (int (s.data.length - 1)) (atLast s)).isSome := by
  obtain ⟨fuel, rfl⟩ := Nat.exists_eq_add_of_le' hfuel
  by_cases hpos : 0 < int (s.data.length - 1)
  · rw [lastLoop_round hne hpos, lastLoop, if_neg fun hand => h ⟨hand.1, hpos⟩]
    rfl
  · rw [lastLoop, if_neg fun hand => hpos hand.2]
    rfl

/-- Where the search starts. -/
def searchStart (content : InputStream) : ℤ × InputStream :=
  let content := content.tellg.2
  let content := (content.seekg content.data.length).tellg.2
  (content.seekg (content.data.length - 1)).tellg

/-- The bytes end with a zero that the search reads again and again. -/
structure Stuck (content : InputStream) : Prop where
  good : content.good
  zero : content.data.getLast? = some 0
  positive : 0 < int (content.data.length - 1)

theorem searchStart_good (hgood : s.good) (hne : s.data ≠ []) :
    searchStart s = ((s.data.length : ℤ) - 1, atLast s) := by
  obtain ⟨data, pos, eof, fail⟩ := s
  simp only [InputStream.good, Bool.and_eq_true, Bool.not_eq_true'] at hgood
  obtain ⟨rfl, rfl⟩ := hgood
  have hend : InputStream.seekg data.length ⟨data, pos, false, false⟩ =
      ⟨data, data.length, false, false⟩ := by simp [InputStream.seekg]
  have htell : ∀ pos : ℕ, InputStream.tellg ⟨data, pos, false, false⟩ =
      ((pos : ℤ), ⟨data, pos, false, false⟩) := fun pos => rfl
  have hlast := seekg_last (s := ⟨data, pos, false, false⟩) hne data.length
  simp only at hlast
  simp only [searchStart, htell, hend, hlast]
  exact tellg_atLast hne

theorem tellg_fail (h : s.fail) : s.tellg.1 = -1 ∧ s.tellg.2.fail := by
  simp [InputStream.tellg, InputStream.good, h]

theorem seekg_fail (h : s.fail) (target : ℤ) : (s.seekg target).fail := by
  simp [InputStream.seekg, h]

/-- A stream with an error or without a byte has no position to start from. -/
theorem searchStart_bad (h : ¬ (s.good ∧ s.data ≠ [])) : (searchStart s).1 = -1 := by
  by_cases hgood : s.good
  · have hempty : s.data = [] := by
      by_contra hne
      exact h ⟨hgood, hne⟩
    obtain ⟨data, pos, eof, fail⟩ := s
    simp only [InputStream.good, Bool.and_eq_true, Bool.not_eq_true'] at hgood
    obtain ⟨rfl, rfl⟩ := hgood
    subst hempty
    rfl
  · have hfail : s.tellg.2.fail := by
      unfold InputStream.tellg
      rw [if_neg hgood]
    exact (tellg_fail (seekg_fail (tellg_fail (seekg_fail hfail _)).2 _)).1

theorem search_isSome_iff (hfuel : 2 ≤ fuel) :
    (lastLoop fuel 0 (int (searchStart s).1) (searchStart s).2).isSome ↔ ¬ Stuck s := by
  by_cases h : s.good ∧ s.data ≠ []
  · obtain ⟨hgood, hne⟩ := h
    rw [searchStart_good hgood hne]
    constructor
    · intro hsome hstuck
      have hzero : s.data.getLast hne = 0 :=
        Option.some.inj ((List.getLast?_eq_some_getLast hne).symm.trans hstuck.zero)
      rw [lastLoop_zero hne hzero hstuck.positive] at hsome
      cases hsome
    · intro hstuck
      refine lastLoop_isSome hne (fun hand => hstuck ⟨hgood, ?_, hand.2⟩) hfuel
      rw [List.getLast?_eq_some_getLast hne, hand.1]
  · have hstuck : ¬ Stuck s := fun hstuck =>
      h ⟨hstuck.good, fun hempty => by simpa [hempty] using hstuck.zero⟩
    obtain ⟨fuel, rfl⟩ := Nat.exists_eq_add_of_le' hfuel
    rw [searchStart_bad h, lastLoop, if_neg (by decide)]
    simp [hstuck]

theorem data_searchStart (s : InputStream) : (searchStart s).2.data = s.data := by
  simp only [searchStart, data_tellg, data_seekg]

theorem parseCounted_isSome (h : content.data.length + 2 < fuel) (originalstreamPos streamSize : ℤ)
    (required : List Bytes) (t : Table) (last : UInt8) :
    (parseCounted fuel originalstreamPos streamSize required t last content).isSome := by
  rw [parseCounted]
  split_ifs
  · rfl
  · rfl
  · refine parseFrom_isSome ?_ _ _ _
    rw [data_seekg, data_seekg]
    exact h

theorem parseCsv_eq (fuel : ℕ) (s : InputStream) (required : List Bytes) :
    parseCsv fuel s required =
      (lastLoop fuel 0 (int (searchStart s).1) (searchStart s).2).bind fun found =>
        parseCounted fuel (int s.tellg.1) (int (s.tellg.2.seekg s.tellg.2.data.length).tellg.1)
          required (Table.cleared.getRow 0) found.1 found.2 := rfl

/-- The parser ends on every stream, with errors or without, unless its search for the last byte
that is not zero stays on a zero. -/
theorem parseCsv_terminates_iff (s : InputStream) (required : List Bytes) :
    (∃ fuel, (parseCsv fuel s required).isSome) ↔ ¬ Stuck s := by
  constructor
  · rintro ⟨fuel, hfuel⟩ hstuck
    have hne : s.data ≠ [] := fun hempty => by simpa [hempty] using hstuck.zero
    have hzero : s.data.getLast hne = 0 :=
      Option.some.inj ((List.getLast?_eq_some_getLast hne).symm.trans hstuck.zero)
    rw [parseCsv_eq, searchStart_good hstuck.good hne,
      lastLoop_zero hne hzero hstuck.positive] at hfuel
    cases hfuel
  · intro hstuck
    refine ⟨s.data.length + 3, ?_⟩
    have hsearch : (lastLoop (s.data.length + 3) 0 (int (searchStart s).1)
      (searchStart s).2).isSome :=
      (search_isSome_iff (by omega)).mpr hstuck
    obtain ⟨⟨last, content⟩, hfound⟩ := Option.isSome_iff_exists.mp hsearch
    rw [parseCsv_eq, hfound, Option.bind_some]
    refine parseCounted_isSome ?_ _ _ _ _ _
    rw [data_lastLoop hfound, data_searchStart]
    omega

/-- A header and a record that are followed by a zero byte. -/
theorem parseCsv_zero_loops :
    ¬ ∃ fuel, (parseCsv fuel (.ofString ("a\n1".toUTF8.toList ++ [0])) []).isSome := by
  rintro ⟨fuel, hfuel⟩
  rw [parseCsv_eq, searchStart_good rfl (by simp [InputStream.ofString]),
    lastLoop_zero (by simp [InputStream.ofString]) (by simp [InputStream.ofString])
      (by decide +kernel)] at hfuel
  cases hfuel

end csvparser

end Octf.Utils
