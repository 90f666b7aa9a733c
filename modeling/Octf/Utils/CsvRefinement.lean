import Octf.Utils.CsvStream

/-! The parser on a stream does what the parser on lists of lines and tokens does. -/
namespace Octf.Utils
open Foundation
open Octf.Storage (toUInt32)
open Octf.Storage.ProtoConverter (toInt32_of_lt)

variable {token : Bytes} {tokenIndex lineIndex : ℕ} {t t' : Table}

theorem parseHeader_cons_error {e : CsvException} (h : parseHeader [token] t = (.error e, t'))
    (tokens : List Bytes) : parseHeader (token :: tokens) t = (.error e, t') := by
  simp only [parseHeader] at h ⊢
  split_ifs at h ⊢
  · exact h
  · cases h

theorem parseHeader_cons_ok {u : Unit} (h : parseHeader [token] t = (.ok u, t'))
    (tokens : List Bytes) : parseHeader (token :: tokens) t = parseHeader tokens t' := by
  simp only [parseHeader] at h ⊢
  split_ifs at h ⊢
  · cases h
  · cases h
    rfl

theorem parseTokens_cons_error {e : CsvException}
    (h : parseTokens lineIndex [token] tokenIndex t = (.error e, t')) (tokens : List Bytes) :
    parseTokens lineIndex (token :: tokens) tokenIndex t = (.error e, t') := by
  simp only [parseTokens] at h ⊢
  split_ifs at h ⊢
  · exact h
  · cases h

theorem parseTokens_cons_ok {index : ℕ}
    (h : parseTokens lineIndex [token] tokenIndex t = (.ok index, t')) (tokens : List Bytes) :
    parseTokens lineIndex (token :: tokens) tokenIndex t =
      parseTokens lineIndex tokens index t' := by
  simp only [parseTokens] at h ⊢
  split_ifs at h ⊢
  · cases h
  · cases h
    rfl

namespace csvparser

variable {s content : InputStream} {line : Bytes} {fuel inner : ℕ}

theorem getline_bad (h : s.good = false) (delim : UInt8) (str : Bytes) :
    s.getline delim str = (str, { s with fail := true }) := by
  simp [InputStream.getline, h]

/-- A good stream gives what stands before the next delimiter, or the last bytes and its end. -/
theorem getline_good (h : s.good) (delim : UInt8) (str : Bytes) :
    (∃ piece rest s', delim ∉ piece ∧ s.rest = piece ++ delim :: rest ∧
      s.getline delim str = (piece, s') ∧ s'.good ∧ s'.fail = false ∧ s'.data = s.data ∧
        s'.rest = rest) ∨
    ∃ s', delim ∉ s.rest ∧ s.getline delim str = (s.rest, s') ∧ s'.good = false ∧
      s'.fail = decide (s.rest = []) := by
  have hfail : s.fail = false := by
    simp only [InputStream.good, Bool.and_eq_true, Bool.not_eq_true'] at h
    exact h.2
  by_cases hdelim : delim ∈ s.rest
  · obtain ⟨piece, rest, hsplit, hnot⟩ := List.eq_append_cons_of_mem hdelim
    have htake : s.rest.takeWhile (· ≠ delim) = piece := by
      rw [hsplit, List.takeWhile_append_of_pos, List.takeWhile_cons_of_neg, List.append_nil]
      · simp
      · intro c hc
        simpa using fun heq : c = delim => hnot (heq ▸ hc)
    refine .inl ⟨piece, rest, { s with pos := s.pos + piece.length + 1 }, hnot, hsplit,
      ?_, h, hfail,
      rfl, ?_⟩
    · unfold InputStream.getline
      rw [if_pos h]
      dsimp only
      rw [if_pos hdelim, htake]
    · have hdrop : s.rest.drop (piece.length + 1) = rest := by
        rw [hsplit, ← List.drop_drop, List.drop_left]
        rfl
      rw [← hdrop, InputStream.rest, InputStream.rest, List.drop_drop, Nat.add_assoc]
  · have hall : s.rest.takeWhile (· ≠ delim) = s.rest := by
      rw [List.takeWhile_eq_self_iff]
      intro c hc
      simpa using fun heq : c = delim => hdelim (heq ▸ hc)
    refine .inr ⟨{ s with pos := s.data.length, eof := true, fail := decide (s.rest = []) }, hdelim,
      ?_, by simp [InputStream.good], rfl⟩
    unfold InputStream.getline
    rw [if_pos h]
    dsimp only
    rw [if_neg hdelim, hall]

theorem rounds_of_good (h : s.good) : rounds s = s.rest.length + 1 := if_pos h

/-! ### The loops -/

theorem headerLoop_bad (h : s.good = false) (fuel : ℕ) (token : Bytes) (t : Table) :
    headerLoop (fuel + 1) s token t = some (.ok (decide (token = [])), t) := by
  simp [headerLoop, getline_bad h]

theorem headerLoop_eq (h : s.good) (hfuel : rounds s < fuel) (token : Bytes) (t : Table) :
    headerLoop fuel s token t =
      some ((parseHeader (getlines comma s.rest) t).1.map fun _ => endsOpen comma s.rest,
        (parseHeader (getlines comma s.rest) t).2) := by
  induction fuel generalizing s token t with
  | zero => exact absurd hfuel (Nat.not_lt_zero _)
  | succ fuel ih =>
    rw [rounds_of_good h] at hfuel
    rcases getline_good h comma token with
      ⟨piece, rest, s', hnot, hsplit, hget, hgood, hfail, -, hrest⟩ | ⟨s', hnot, hget, hbad, hfail⟩
    · rw [headerLoop, hget, hsplit, getlines_append_delimiter hnot, endsOpen_append_delimiter]
      dsimp only
      rw [if_neg (by simp [hfail])]
      cases hhead : parseHeader [piece] t with
      | mk result t' =>
        cases result with
        | error e => simp [parseHeader_cons_error hhead, Except.map]
        | ok u =>
          have hless : rounds s' < fuel := by
            rw [rounds_of_good hgood, hrest]
            rw [hsplit] at hfuel
            simp at hfuel
            omega
          dsimp only
          rw [parseHeader_cons_ok hhead, ih hgood hless, hrest]
    · rw [headerLoop, hget]
      dsimp only
      by_cases hempty : s.rest = []
      · simp [hfail, hempty, parseHeader, endsOpen, Except.map]
      · rw [if_neg (by simp [hfail, hempty]), getlines_of_notMem hnot hempty,
          endsOpen_of_notMem hnot hempty]
        cases hhead : parseHeader [s.rest] t with
        | mk result t' =>
          cases result with
          | error e => rfl
          | ok u =>
            obtain ⟨fuel, rfl⟩ := Nat.exists_eq_add_of_le' (show 1 ≤ fuel by omega)
            dsimp only
            rw [headerLoop_bad hbad]
            simp [hempty, Except.map]

theorem tokenLoop_bad (h : s.good = false) (lineIndex fuel tokenIndex : ℕ) (token : Bytes)
    (t : Table) : tokenLoop lineIndex (fuel + 1) s token tokenIndex t =
      some (.ok (tokenIndex, decide (token = [])), t) := by
  simp [tokenLoop, getline_bad h]

theorem tokenLoop_eq (h : s.good) (hfuel : rounds s < fuel) (lineIndex tokenIndex : ℕ)
    (token : Bytes) (t : Table) :
    tokenLoop lineIndex fuel s token tokenIndex t =
      some ((parseTokens lineIndex (getlines comma s.rest) tokenIndex t).1.map
          fun index => (index, endsOpen comma s.rest),
        (parseTokens lineIndex (getlines comma s.rest) tokenIndex t).2) := by
  induction fuel generalizing s token tokenIndex t with
  | zero => exact absurd hfuel (Nat.not_lt_zero _)
  | succ fuel ih =>
    rw [rounds_of_good h] at hfuel
    rcases getline_good h comma token with
      ⟨piece, rest, s', hnot, hsplit, hget, hgood, hfail, -, hrest⟩ | ⟨s', hnot, hget, hbad, hfail⟩
    · rw [tokenLoop, hget, hsplit, getlines_append_delimiter hnot, endsOpen_append_delimiter]
      dsimp only
      rw [if_neg (by simp [hfail])]
      cases hhead : parseTokens lineIndex [piece] tokenIndex t with
      | mk result t' =>
        cases result with
        | error e => simp [parseTokens_cons_error hhead, Except.map]
        | ok index =>
          have hless : rounds s' < fuel := by
            rw [rounds_of_good hgood, hrest]
            rw [hsplit] at hfuel
            simp at hfuel
            omega
          dsimp only
          rw [parseTokens_cons_ok hhead, ih hgood hless, hrest]
    · rw [tokenLoop, hget]
      dsimp only
      by_cases hempty : s.rest = []
      · simp [hfail, hempty, parseTokens, endsOpen, Except.map]
      · rw [if_neg (by simp [hfail, hempty]), getlines_of_notMem hnot hempty,
          endsOpen_of_notMem hnot hempty]
        cases hhead : parseTokens lineIndex [s.rest] tokenIndex t with
        | mk result t' =>
          cases result with
          | error e => rfl
          | ok index =>
            obtain ⟨fuel, rfl⟩ := Nat.exists_eq_add_of_le' (show 1 ≤ fuel by omega)
            dsimp only
            rw [tokenLoop_bad hbad]
            simp [hempty, Except.map]

theorem recordLoop_bad (h : s.good = false) (inner lineCount fuel lineIndex tokenIndex : ℕ)
    (line : Bytes) (t : Table) :
    recordLoop inner lineCount (fuel + 1) s line lineIndex tokenIndex t = some (.ok (), t) := by
  simp [recordLoop, getline_bad h]

theorem tokenLoop_line (hinner : line.length + 1 < inner) (lineIndex tokenIndex : ℕ) (t : Table) :
    tokenLoop lineIndex inner (.ofString line) [] tokenIndex t =
      some ((parseTokens lineIndex (getlines comma line) tokenIndex t).1.map
          fun index => (index, endsOpen comma line),
        (parseTokens lineIndex (getlines comma line) tokenIndex t).2) :=
  tokenLoop_eq (s := .ofString line) rfl hinner lineIndex tokenIndex [] t

theorem recordLoop_eq (h : s.good) (hfuel : rounds s < fuel) (hinner : s.data.length + 1 < inner)
    (lineCount lineIndex tokenIndex : ℕ) (line : Bytes) (t : Table) :
    recordLoop inner lineCount fuel s line lineIndex tokenIndex t =
      some (parseRecords lineCount (getlines newline s.rest) lineIndex tokenIndex t) := by
  induction fuel generalizing s line lineIndex tokenIndex t with
  | zero => exact absurd hfuel (Nat.not_lt_zero _)
  | succ fuel ih =>
    rw [rounds_of_good h] at hfuel
    have hlength : s.rest.length ≤ s.data.length := (List.drop_sublist _ _).length_le
    rcases getline_good h newline line with
      ⟨piece, rest, s', hnot, hsplit, hget, hgood, hfail, hdata, hrest⟩ | ⟨s', hnot, hget,
        hbad, hfail⟩
    · have hpiece : piece.length + 1 + rest.length = s.rest.length := by
        rw [hsplit]
        simp
        omega
      rw [recordLoop, hget, hsplit, getlines_append_delimiter hnot]
      dsimp only
      rw [if_neg (by simp [hfail]), parseRecords, tokenLoop_line (by omega)]
      by_cases hcount : lineCount ≤ lineIndex
      · rw [if_pos hcount, if_pos hcount]
      · rw [if_neg hcount, if_neg hcount]
        cases parseTokens lineIndex (getlines comma piece) tokenIndex t with
        | mk result t' =>
          cases result with
          | error e => rfl
          | ok index =>
            have hless : rounds s' < fuel := by
              rw [rounds_of_good hgood, hrest]
              omega
            dsimp only [Except.map]
            rw [ih hgood hless (by rw [hdata]; exact hinner), hrest]
    · rw [recordLoop, hget]
      dsimp only
      by_cases hempty : s.rest = []
      · simp [hfail, hempty, parseRecords]
      · rw [if_neg (by simp [hfail, hempty]), getlines_of_notMem hnot hempty, parseRecords,
          tokenLoop_line (by omega)]
        by_cases hcount : lineCount ≤ lineIndex
        · rw [if_pos hcount, if_pos hcount]
        · rw [if_neg hcount, if_neg hcount]
          cases parseTokens lineIndex (getlines comma s.rest) tokenIndex t with
          | mk result t' =>
            cases result with
            | error e => rfl
            | ok index =>
              obtain ⟨fuel, rfl⟩ := Nat.exists_eq_add_of_le' (show 1 ≤ fuel by omega)
              dsimp only [Except.map]
              rw [recordLoop_bad hbad, parseRecords]

/-! ### The whole parser -/

theorem parseFrom_eq (h : s.good) (hfuel : s.data.length + 2 < fuel) (hline : newline ∈ s.rest)
    (lineCount : ℕ) (required : List Bytes) :
    parseFrom fuel lineCount s required (Table.cleared.getRow 0) =
      some (parseLines lineCount required ((getlines newline s.rest).headD [])
        (getlines newline s.rest).tail) := by
  rcases getline_good h newline [] with
    ⟨piece, rest, s', hnot, hsplit, hget, hgood, hfail, hdata, hrest⟩ | ⟨s', hnot, -⟩
  · have hlength : s.rest.length ≤ s.data.length := (List.drop_sublist _ _).length_le
    have hpiece : piece.length + 1 + rest.length = s.rest.length := by
      rw [hsplit]
      simp
      omega
    have hheader := headerLoop_eq (s := .ofString piece) rfl
      (show _ < fuel by rw [rounds_ofString]; omega) [] (Table.cleared.getRow 0)
    change _ = some ((parseHeader (getlines comma piece) _).1.map fun _ => endsOpen comma piece,
      (parseHeader (getlines comma piece) _).2) at hheader
    rw [parseFrom, hget, hsplit, getlines_append_delimiter hnot]
    dsimp only [List.headD_cons, List.tail_cons]
    rw [hheader, parseLines]
    cases parseHeader (getlines comma piece) (Table.cleared.getRow 0) with
    | mk result t' =>
      cases result with
      | error e => rfl
      | ok u =>
        have hless : rounds s' < fuel := by
          rw [rounds_of_good hgood, hrest]
          omega
        dsimp only [Except.map]
        split_ifs
        · rfl
        · rfl
        · rw [recordLoop_eq hgood hless (by rw [hdata]; omega), hrest]
        · rfl
  · exact absurd hline hnot

theorem int_of_lt {n : ℕ} (h : n < 2 ^ 31) : int n = n := by
  have hword : toUInt32 (n : ℤ) = n := by
    unfold toUInt32
    omega
  rw [int, hword, toInt32_of_lt h]

theorem lastLoop_eq (hne : s.data ≠ []) (hsize : s.data.length < 2 ^ 31) (fuel : ℕ) (last : UInt8) :
    lastLoop fuel last (int (s.data.length - 1)) (atLast s) =
      (lastNonZero s.data fuel last (s.data.length - 1)).map fun last => (last, atLast s) := by
  have hlength := List.length_pos_iff.mpr hne
  have hpos : int (s.data.length - 1) = ((s.data.length - 1 : ℕ) : ℤ) := by
    rw [← int_of_lt (show s.data.length - 1 < 2 ^ 31 by omega)]
    congr 1
    omega
  induction fuel generalizing last with
  | zero => rfl
  | succ fuel ih =>
    by_cases hloop : last = 0 ∧ 0 < s.data.length - 1
    · obtain ⟨rfl, hpositive⟩ := hloop
      have hlast : s.data.getD (s.data.length - 1) 0 = s.data.getLast hne := by
        rw [List.getD_eq_getElem?_getD, ← List.getLast?_eq_getElem?,
          List.getLast?_eq_some_getLast hne, Option.getD_some]
      rw [lastLoop_round hne (by omega), ih, lastNonZero, if_pos ⟨rfl, hpositive⟩, hlast]
    · have hstop : ¬ (last = 0 ∧ 0 < int (s.data.length - 1)) := by
        rw [hpos, Int.natCast_pos]
        exact hloop
      rw [lastLoop, lastNonZero, if_neg hloop, if_neg hstop]
      rfl

/-- A stream that is good stands where it did, after the end has been looked for. -/
theorem parseCounted_eq (hgood : content.good) (hpos : content.pos ≤ content.data.length)
    (hsize : content.data.length < 2 ^ 31) (hfuel : content.data.length + 2 < fuel)
    (required : List Bytes) (last : UInt8) {found : InputStream}
    (hfound : found.data = content.data) (hfail : found.fail = false) :
    parseCounted fuel content.pos content.data.length required (Table.cleared.getRow 0) last found =
      some (parseContent ⟨content.data, content.pos⟩ required last) := by
  obtain ⟨data, pos, eof, fail⟩ := content
  simp only [InputStream.good, Bool.and_eq_true, Bool.not_eq_true'] at hgood
  obtain ⟨rfl, rfl⟩ := hgood
  obtain ⟨data', pos', eof', fail'⟩ := found
  obtain rfl : data' = data := hfound
  obtain rfl : fail' = false := hfail
  dsimp only at hpos hsize hfuel
  have hseek : ∀ pos' eof', InputStream.seekg pos ⟨data', pos', eof', false⟩ =
      ⟨data', pos, false, false⟩ := by
    intro pos' eof'
    have hin : (0 : ℤ) ≤ pos ∧ (pos : ℤ) ≤ data'.length := by omega
    simp [InputStream.seekg, hin]
  have hlines : lineCount (data'.drop pos) last ≤ data'.length + 1 := by
    have hcount := List.count_le_length (a := newline) (l := data'.drop pos)
    rw [List.length_drop] at hcount
    unfold lineCount
    split_ifs <;> omega
  have hcounted : lineCount (data'.drop pos) last % 2 ^ 32 = lineCount (data'.drop pos) last :=
    Nat.mod_eq_of_lt (by omega)
  have hsmall : (MAX_CSV_CONTENT_SIZE : ℤ) < data'.length ↔ MAX_CSV_CONTENT_SIZE < data'.length :=
    Nat.cast_lt
  have hzero : (data'.length : ℤ) = 0 ↔ data'.length = 0 := Nat.cast_eq_zero
  have hcontent : parseContent ⟨data', pos⟩ required last =
      if MAX_CSV_CONTENT_SIZE < data'.length then (.error .tooLarge, Table.cleared.getRow 0)
      else if data'.length = 0 ∨ lineCount (data'.drop pos) last ≤ 1 then
        (.error .empty, Table.cleared.getRow 0)
      else parseLines (lineCount (data'.drop pos) last) required
        ((getlines newline (data'.drop pos)).headD []) (getlines newline (data'.drop pos)).tail :=
          rfl
  rw [parseCounted]
  simp only [hseek, InputStream.rest, hcounted, hsmall, hzero]
  rw [hcontent]
  by_cases hlarge : MAX_CSV_CONTENT_SIZE < data'.length
  · rw [if_pos hlarge, if_pos hlarge]
  · rw [if_neg hlarge, if_neg hlarge]
    by_cases hempty : data'.length = 0 ∨ lineCount (data'.drop pos) last ≤ 1
    · rw [if_pos hempty, if_pos hempty]
    · rw [if_neg hempty, if_neg hempty]
      have hline : newline ∈ data'.drop pos := by
        rw [← List.count_pos_iff]
        unfold lineCount at hempty
        split_ifs at hempty <;> omega
      exact parseFrom_eq (s := ⟨data', pos, false, false⟩) rfl hfuel hline _ required

/-- Nothing can be found in an empty stream. -/
theorem parseCsv_empty (hgood : s.good) (hempty : s.data = []) (hfuel : 0 < fuel)
    (required : List Bytes) :
    parseCsv fuel s required = some (.error .empty, Table.cleared.getRow 0) := by
  obtain ⟨fuel, rfl⟩ := Nat.exists_eq_add_of_le' hfuel
  have hbad : (searchStart s).1 = -1 := searchStart_bad fun h => h.2 hempty
  have hfail : s.eof = false ∧ s.fail = false := by
    simpa [InputStream.good] using hgood
  have hend : (s.tellg.2.seekg s.tellg.2.data.length).tellg.1 = 0 := by
    simp [InputStream.seekg, InputStream.tellg, InputStream.good, hfail, hempty]
  have hint : int 0 = 0 := int_of_lt (n := 0) (by omega)
  rw [parseCsv_eq, hend, hbad, hint, lastLoop, if_neg (by decide), Option.bind_some, parseCounted]
  dsimp only
  rw [if_neg (by decide), if_pos (.inl rfl)]

/-- On a stream of less than 2 GiB that is good the parser does what its model on lists does. -/
theorem parseCsv_refines (hgood : s.good) (hpos : s.pos ≤ s.data.length)
    (hsize : s.data.length < 2 ^ 31) (hfuel : s.data.length + 2 < fuel) (required : List Bytes) :
    parseCsv fuel s required = Utils.parseCsv fuel ⟨s.data, s.pos⟩ required := by
  by_cases hne : s.data = []
  · rw [parseCsv_empty hgood hne (by omega), Utils.parseCsv, hne]
    obtain ⟨fuel, rfl⟩ := Nat.exists_eq_add_of_le' (show 1 ≤ fuel by omega)
    rfl
  · have hfail : s.eof = false ∧ s.fail = false := by
      simpa [InputStream.good] using hgood
    have htell : s.tellg = ((s.pos : ℤ), s) := if_pos hgood
    have hend : (s.seekg s.data.length).tellg.1 = s.data.length := by
      simp [InputStream.seekg, InputStream.tellg, InputStream.good, hfail]
    rw [parseCsv_eq, Utils.parseCsv, htell, hend, int_of_lt (by omega), int_of_lt hsize,
      searchStart_good hgood hne, lastLoop_eq hne hsize]
    cases lastNonZero s.data fuel 0 (s.data.length - 1) with
    | none => rfl
    | some last => exact parseCounted_eq hgood hpos hsize hfuel required last rfl rfl

/-- A header `a` and the line `1`. -/
theorem parseCsv_refines_oneLine :
    parseCsv 7 (.ofString [97, 10, 49, 10]) [[97]] =
      Utils.parseCsv 7 ⟨[97, 10, 49, 10], 0⟩ [[97]] :=
  parseCsv_refines rfl (by decide) (by decide) (by decide) [[97]]

end csvparser

end Octf.Utils
