import Mathlib.Data.Finset.Card
import Octf.Foundation.Lines

/-! The CSV parser and the table it fills. Strings are lists of bytes; a thrown exception leaves
the table as far as it was filled. -/
namespace Octf.Utils
open Foundation

abbrev Bytes := List UInt8

def comma : UInt8 := 44
def newline : UInt8 := 10

def MAX_CSV_CONTENT_SIZE : ℕ := 10 * 1024 * 1024

inductive CsvException where
  | tooLarge
  | empty
  | duplicate (token : Bytes)
  | emptyHeaderElement
  | noHeaders
  | missingRequired
  | lineCountMismatch
  | recordWithoutHeader
  deriving DecidableEq

def CsvException.message : CsvException → Bytes
  | .tooLarge => "Input content for CSV parser is too large.".toUTF8.toList
  | .empty => "CSV content empty or no records found".toUTF8.toList
  | .duplicate token => "Duplicate header elements found in CSV: ".toUTF8.toList ++ token
  | .emptyHeaderElement => "Empty header element found during CSV parsing.".toUTF8.toList
  | .noHeaders => "Invalid CSV format found during parsing: no headers found.".toUTF8.toList
  | .missingRequired => "All required header elements were not found.".toUTF8.toList
  | .lineCountMismatch => "Unexpected error occurred - line count mismatch".toUTF8.toList
  | .recordWithoutHeader => "Records without header found during CSV parsing.".toUTF8.toList

/-- `TableMap`, without the names of rows, which the parser does not use. -/
structure Table where
  rows : Finset ℕ
  columns : Finset ℕ
  /-- The names of columns, in the order of the indices they were given. -/
  columnsAssociation : List Bytes
  map : ℕ → ℕ → Option Bytes

namespace Table

def cleared : Table := ⟨∅, ∅, [], fun _ _ => none⟩

def getRow (index : ℕ) (t : Table) : Table := { t with rows := insert index t.rows }

/-- The index of a name, which a new name is given by the number of names. -/
def getColumnAssociation (name : Bytes) (t : Table) : ℕ × Table :=
  let index := t.columnsAssociation.idxOf name
  if index < t.columnsAssociation.length then (index, t)
  else (index, { t with columnsAssociation := t.columnsAssociation ++ [name] })

def setCell (row column : ℕ) (value : Bytes) (t : Table) : Table :=
  { t with
    columns := insert column t.columns
    map := fun r c => if r = row ∧ c = column then some value else t.map r c }

/-- `TableMap::operator[]`: a cell that is not there yet is emplaced, with its column. -/
def access (row column : ℕ) (t : Table) : Table :=
  if t.map row column = none then t.setCell row column [] else t

/-- `Row::size` is the number of columns of the whole table. -/
def size (t : Table) : ℕ := t.columns.card

end Table

/-- The element of a name in the header, twice a name is an exception. -/
def parseHeader : List Bytes → Table → Except CsvException Unit × Table
  | [], t => (.ok (), t)
  | token :: tokens, t =>
    let hdrCount := t.size
    let (column, t) := t.getColumnAssociation token
    let t := t.access 0 column
    if column < hdrCount then (.error (.duplicate token), t)
    else parseHeader tokens (t.setCell 0 column token)

/-- The tokens of one record; the result is the token index behind them. -/
def parseTokens (lineIndex : ℕ) : List Bytes → ℕ → Table → Except CsvException ℕ × Table
  | [], tokenIndex, t => (.ok tokenIndex, t)
  | token :: tokens, tokenIndex, t =>
    if t.size ≤ tokenIndex then (.error .recordWithoutHeader, t)
    else parseTokens lineIndex tokens (tokenIndex + 1)
      ((t.getRow lineIndex).setCell lineIndex tokenIndex token)

/-- The records line by line. The token index is not set back between them. -/
def parseRecords (lineCount : ℕ) : List Bytes → ℕ → ℕ → Table → Except CsvException Unit × Table
  | [], _, _, t => (.ok (), t)
  | line :: lines, lineIndex, tokenIndex, t =>
    if lineCount ≤ lineIndex then (.error .lineCountMismatch, t)
    else match parseTokens lineIndex (getlines comma line) tokenIndex t with
      | (.error e, t) => (.error e, t)
      | (.ok tokenIndex, t) =>
        let t := if endsOpen comma line then
          (t.getRow lineIndex).setCell lineIndex (t.size - 1) [] else t
        parseRecords lineCount lines (lineIndex + 1) tokenIndex t

/-- An input stream and the position it is read from. -/
structure IStream where
  data : Bytes
  pos : ℕ

def IStream.content (s : IStream) : Bytes := s.data.drop s.pos

/-- The stream of a whole string. -/
def IStream.ofString (content : Bytes) : IStream := ⟨content, 0⟩

/-- The loop that looks for the last byte that is not zero; `pos` is where the stream stands. -/
def lastNonZero (data : Bytes) : ℕ → UInt8 → ℕ → Option UInt8
  | 0, _, _ => none
  | fuel + 1, last, pos =>
    if last = 0 ∧ 0 < pos then
      -- `get` goes behind the byte it reads, and `seekg` back to it
      lastNonZero data fuel (data.getD pos 0) pos
    else some last

/-- The number of lines, for the last byte. -/
def lineCount (content : Bytes) (last : UInt8) : ℕ :=
  content.count newline + if last ≠ newline then 1 else 0

/-- What follows the checks of the whole content: the header and the records. -/
def parseLines (lineCount : ℕ) (required : List Bytes) (line : Bytes) (lines : List Bytes) :
    Except CsvException Unit × Table :=
  match parseHeader (getlines comma line) (Table.cleared.getRow 0) with
  | (.error e, t) => (.error e, t)
  | (.ok _, t) =>
    if endsOpen comma line then (.error .emptyHeaderElement, t)
    else if t.size = 0 then (.error .noHeaders, t)
    else if ∀ name ∈ required, ∃ column ∈ t.columns, t.map 0 column = some name then
      parseRecords lineCount lines 1 0 t
    else (.error .missingRequired, t)

/-- `parseCsv` behind the loop, for the byte it has found. -/
def parseContent (s : IStream) (required : List Bytes) (last : UInt8) :
    Except CsvException Unit × Table :=
  if MAX_CSV_CONTENT_SIZE < s.data.length then (.error .tooLarge, Table.cleared.getRow 0)
  else if s.data.length = 0 ∨ lineCount s.content last ≤ 1 then
    (.error .empty, Table.cleared.getRow 0)
  else
    let lines := getlines newline s.content
    parseLines (lineCount s.content last) required (lines.headD []) lines.tail

/-- `parseCsv` of a content whose positions fit an `int`; `fuel` bounds the rounds of the only loop
that may not end. -/
def parseCsv (fuel : ℕ) (s : IStream) (required : List Bytes) :
    Option (Except CsvException Unit × Table) :=
  (lastNonZero s.data fuel 0 (s.data.length - 1)).map (parseContent s required)

end Octf.Utils
