import Mathlib.Data.List.Sort
import Octf.Foundation.BoundedDepth
import Octf.Utils.CsvParser
import Octf.Utils.MessageDescriptor

/-! The header of a table for the messages of a type. Its titles come from a message and from the
descriptor of its type. -/
namespace Octf.Utils
open Foundation Protobuf

/-- What a message holds for a field, by the kind of the field. -/
inductive FieldValue (M : Type) where
  /-- one item, as a cell shows it; a group is not supported -/
  | item (text : Option Bytes)
  | items (texts : List Bytes)
  /-- a message that is not set -/
  | absent
  | message (fields : List (Protobuf.FieldDescriptor M × FieldValue M))
  | messages (items : List (List (Protobuf.FieldDescriptor M × FieldValue M)))
  | map (pairs : List (Bytes × FieldValue M))

/-- A message holds a value for each field of its descriptor, in their order. -/
abbrev Message (M : Type) := List (Protobuf.FieldDescriptor M × FieldValue M)

/-- `row[name] = value`. -/
def Table.setNamed (row : ℕ) (name value : Bytes) (t : Table) : Table :=
  let (column, t) := t.getColumnAssociation name
  t.setCell row column value

def bracketed (text : Bytes) : Bytes := "[".toUTF8.toList ++ text ++ "]".toUTF8.toList

def decimal (n : ℕ) : Bytes := (toString n).toUTF8.data.toList

variable {M : Type}

def streamRepeatedFieldToRow (row : ℕ) (name : Bytes) : List Bytes → ℕ → Table → Table
  | [], _, t => t
  | text :: texts, i, t =>
    streamRepeatedFieldToRow row name texts (i + 1)
      (t.setNamed row (name ++ bracketed (decimal i)) text)

mutual

def streamMessageToRow (row : ℕ) : Message M → Bytes → Table → Table
  | [], _, t => t
  | (field, value) :: msg, pre, t =>
    streamMessageToRow row msg pre (streamFieldToRow row value (pre ++ field.name) t)

/-- The body of the loop over the fields. -/
def streamFieldToRow (row : ℕ) : FieldValue M → Bytes → Table → Table
  | .item none, _, t => t
  | .item (some text), name, t => t.setNamed row name text
  | .items texts, name, t => streamRepeatedFieldToRow row name texts 0 t
  | .absent, _, t => t
  | .message msg, name, t => streamMessageToRow row msg (name ++ [dot]) t
  | .messages msgs, name, t => streamMessagesToRow row msgs name 0 t
  | .map pairs, name, t => streamMapToRow row pairs name t

def streamMessagesToRow (row : ℕ) : List (Message M) → Bytes → ℕ → Table → Table
  | [], _, _, t => t
  | msg :: msgs, name, i, t => streamMessagesToRow row msgs name (i + 1)
      (streamMessageToRow row msg (name ++ bracketed (decimal i) ++ [dot]) t)

/-- `streamMapPairToRow` for each pair, whose key is its text. -/
def streamMapToRow (row : ℕ) : List (Bytes × FieldValue M) → Bytes → Table → Table
  | [], _, t => t
  | (key, value) :: pairs, name, t =>
    streamMapToRow row pairs name (streamFieldToRow row value (name ++ bracketed key) t)

end

/-- The first field of a oneof adds the title of the oneof. -/
def setupOneof (row : ℕ) (pre : Bytes) (field : Protobuf.FieldDescriptor M) (t : Table) : Table :=
  match field.containingOneof with
  | some oneofDesc =>
    if oneofDesc.fields.head? = some field.name then
      t.setNamed row (pre ++ oneofDesc.name) (pre ++ oneofDesc.name)
    else t
  | none => t

/-- The body of the loop over the fields; `setup` is the descent into a nested message. -/
def setupField (setup : M → Bytes → Table → Option Table) (row : ℕ) (pre : Bytes)
    (field : Protobuf.FieldDescriptor M) (t : Table) : Option Table :=
  if field.isRepeated then some t
  else
    let name := pre ++ field.name
    let t := setupOneof row pre field t
    match field.messageType with
    | some desc => setup desc (name ++ [dot]) t
    | none => some (t.setNamed row name name)

/-- `setupRowAsHeader`, which descends at most `fuel` levels. -/
def setupRowAsHeader (schema : Schema M) (row : ℕ) : ℕ → M → Bytes → Table → Option Table
  | 0, _, _, _ => none
  | fuel + 1, desc, pre, t =>
    (schema.fields desc).foldlM
      (fun t field => setupField (setupRowAsHeader schema row fuel) row pre field t) t

/-- The loop over the names of columns, which a map keeps in order. -/
def rewriteNames (row : ℕ) (names : List Bytes) (t : Table) : Table :=
  (names.insertionSort (· ≤ ·)).foldl (fun t name => t.setNamed row name name) t

/-- `setHeader` for a message and its descriptor. -/
def setHeader (schema : Schema M) (fuel row : ℕ) (desc : M) (msg : Message M) (t : Table) :
    Option Table := do
  let map ← setupRowAsHeader schema 0 fuel desc []
    (streamMessageToRow 0 msg [] (Table.cleared.getRow 0))
  return rewriteNames row map.columnsAssociation t

/-- The name of a column is in its cell of the row. -/
structure Table.Titled (row : ℕ) (name : Bytes) (t : Table) : Prop where
  named : name ∈ t.columnsAssociation
  column : t.columnsAssociation.idxOf name ∈ t.columns
  cell : t.map row (t.columnsAssociation.idxOf name) = some name

/-- A type has a message of the other in a field. -/
def Nests (schema : Schema M) (desc nested : M) : Prop :=
  ∃ field ∈ schema.fields desc, field.isRepeated = false ∧ field.messageType = some nested

/-- A way through message fields to a field that is no message, none of them repeated, from a type
below others. It enters no type that it has been in. -/
inductive LeafPath (schema : Schema M) : List M → M → List (Protobuf.FieldDescriptor M) → Prop
  | leaf {above : List M} {desc : M} {field : Protobuf.FieldDescriptor M} :
      field ∈ schema.fields desc → field.isRepeated = false → field.messageType = none →
        LeafPath schema above desc [field]
  | nested {above : List M} {desc nested : M} {field : Protobuf.FieldDescriptor M}
      {path : List (Protobuf.FieldDescriptor M)} :
      field ∈ schema.fields desc → field.isRepeated = false → field.messageType = some nested →
        nested ∉ desc :: above → LeafPath schema (desc :: above) nested path →
          LeafPath schema above desc (field :: path)

def title (path : List (Protobuf.FieldDescriptor M)) :
    Bytes := [dot].intercalate (path.map (·.name))

/-- The header is set up, with a title for every field that is reached without coming to a type
again. -/
def SetsHeader (schema : Schema M) (row : ℕ) (desc : M) (msg : Message M) (t : Table) : Prop :=
  ∃ fuel header, setHeader schema fuel row desc msg t = some header ∧
    ∀ path, LeafPath schema [] desc path → header.Titled row (title path)

/-! ### The depth of the descent -/

variable {schema : Schema M} {row fuel : ℕ} {desc : M} {pre name : Bytes} {t : Table}

/-- A loop that may end early does not, if no round does. -/
theorem foldlM_isSome {α β : Type} {f : β → α → Option β} {P : α → Prop}
    (hf : ∀ b a, (f b a).isSome ↔ P a) (l : List α) (b : β) :
    (l.foldlM f b).isSome ↔ ∀ a ∈ l, P a := by
  induction l generalizing b with
  | nil => simp
  | cons a l ih =>
    rw [List.foldlM_cons, List.forall_mem_cons, ← hf b a]
    cases f b a with
    | none => simp
    | some b' => simpa using ih b'

theorem setupField_isSome {setup : M → Bytes → Table → Option Table} {P : M → Prop}
    (hsetup : ∀ m pre t, (setup m pre t).isSome ↔ P m) (field : Protobuf.FieldDescriptor M) :
    (setupField setup row pre field t).isSome ↔
      ∀ m, field.isRepeated = false ∧ field.messageType = some m → P m := by
  unfold setupField
  cases hrepeated : field.isRepeated with
  | true => simp
  | false =>
    cases hmessage : field.messageType with
    | none => simp
    | some m => simp [hsetup]

/-- The descent ends within a bound exactly if the nesting does. -/
theorem setupRowAsHeader_isSome (desc : M) (pre : Bytes) (t : Table) :
    (setupRowAsHeader schema row fuel desc pre t).isSome ↔ DepthBelow (Nests schema) fuel desc := by
  induction fuel generalizing desc pre t with
  | zero => simp [setupRowAsHeader, DepthBelow]
  | succ fuel ih =>
    rw [setupRowAsHeader, foldlM_isSome fun t field => setupField_isSome ih field, DepthBelow]
    constructor
    · rintro h m ⟨field, hfield, hnests⟩
      exact h field hfield m hnests
    · exact fun h field hfield m hnests => h m ⟨field, hfield, hnests⟩

/-! ### The titles -/

/-- The cell is in the column of the name, which is a new one for a new name. -/
theorem setNamed_eq (row : ℕ) (name value : Bytes) (t : Table) :
    t.setNamed row name value =
      Table.setCell row (t.columnsAssociation.idxOf name) value { t with
        columnsAssociation := if name ∈ t.columnsAssociation then t.columnsAssociation
          else t.columnsAssociation ++ [name] } := by
  unfold Table.setNamed Table.getColumnAssociation
  by_cases hname : name ∈ t.columnsAssociation <;> simp [hname, List.idxOf_lt_length_iff]

theorem columnsAssociation_setNamed (row : ℕ) (name value : Bytes) (t : Table) :
    (t.setNamed row name value).columnsAssociation =
      if name ∈ t.columnsAssociation then t.columnsAssociation else t.columnsAssociation ++
        [name] := by
  rw [setNamed_eq]
  rfl

theorem columns_setNamed (row : ℕ) (name value : Bytes) (t : Table) :
    (t.setNamed row name value).columns = insert (t.columnsAssociation.idxOf name) t.columns := by
  rw [setNamed_eq]
  rfl

theorem map_setNamed (row : ℕ) (name value : Bytes) (t : Table) (r c : ℕ) :
    (t.setNamed row name value).map r c =
      if r = row ∧ c = t.columnsAssociation.idxOf name then some value else t.map r c := by
  rw [setNamed_eq]
  rfl

theorem mem_setNamed {n name value : Bytes} :
    n ∈ (t.setNamed row name value).columnsAssociation ↔ n ∈ t.columnsAssociation ∨ n = name := by
  rw [columnsAssociation_setNamed]
  split_ifs with hname
  · exact ⟨Or.inl, fun h => h.elim id fun heq => heq ▸ hname⟩
  · rw [List.mem_append, List.mem_singleton]

/-- A name keeps its column. -/
theorem idxOf_setNamed {n name value : Bytes} (h : n ∈ t.columnsAssociation) :
    (t.setNamed row name value).columnsAssociation.idxOf n = t.columnsAssociation.idxOf n := by
  rw [columnsAssociation_setNamed]
  split_ifs
  · rfl
  · exact List.idxOf_append_of_mem h

theorem idxOf_setNamed_self (row : ℕ) (name value : Bytes) (t : Table) :
    (t.setNamed row name value).columnsAssociation.idxOf name =
      t.columnsAssociation.idxOf name := by
  by_cases hname : name ∈ t.columnsAssociation
  · exact idxOf_setNamed hname
  · rw [columnsAssociation_setNamed, if_neg hname, List.idxOf_append_of_notMem hname,
      List.idxOf_cons_self, List.idxOf_eq_length_iff.mpr hname, Nat.add_zero]

theorem Table.titled_setNamed_self (row : ℕ) (name : Bytes) (t : Table) :
    (t.setNamed row name name).Titled row name where
  named := mem_setNamed.mpr (Or.inr rfl)
  column := by
    rw [idxOf_setNamed_self, columns_setNamed]
    exact Finset.mem_insert_self _ _
  cell := by
    rw [idxOf_setNamed_self, map_setNamed]
    exact if_pos ⟨rfl, rfl⟩

theorem Table.Titled.setNamed {n : Bytes} (h : t.Titled row n) (name : Bytes) :
    (t.setNamed row name name).Titled row n where
  named := mem_setNamed.mpr (Or.inl h.named)
  column := by
    rw [idxOf_setNamed h.named, columns_setNamed]
    exact Finset.mem_insert_of_mem h.column
  cell := by
    rw [idxOf_setNamed h.named, map_setNamed, h.cell]
    split_ifs with hsame
    · -- a name with the same column is the same
      rw [(List.idxOf_inj h.named).mp hsame.2]
    · rfl

theorem titled_foldl {names : List Bytes} {n : Bytes} (h : n ∈ names ∨ t.Titled row n) :
    (names.foldl (fun t name => t.setNamed row name name) t).Titled row n := by
  induction names generalizing t with
  | nil => exact h.resolve_left List.not_mem_nil
  | cons name names ih =>
    rw [List.foldl_cons]
    refine ih ?_
    rcases h with hmem | htitled
    · rcases List.mem_cons.mp hmem with rfl | hmem
      · exact Or.inr (Table.titled_setNamed_self row n t)
      · exact Or.inl hmem
    · exact Or.inr (htitled.setNamed name)

theorem titled_rewriteNames {names : List Bytes} {n : Bytes} (h : n ∈ names) :
    (rewriteNames row names t).Titled row n :=
  titled_foldl (Or.inl ((List.mem_insertionSort _).mpr h))

theorem title_cons {field : Protobuf.FieldDescriptor M} {path : List (Protobuf.FieldDescriptor M)}
    (h : path ≠ []) :
    title (field :: path) = field.name ++ [dot] ++ title path := by
  obtain ⟨g, path, rfl⟩ := List.exists_cons_of_ne_nil h
  rw [title, List.map_cons, List.map_cons, List.intercalate_cons_cons]
  rfl

theorem LeafPath.ne_nil {above : List M} {path : List (Protobuf.FieldDescriptor M)}
    (h : LeafPath schema above desc path) : path ≠ [] := by
  cases h <;> simp

/-- A loop that keeps the names keeps those of every round. -/
theorem foldlM_collects {α β γ : Type} {f : β → α → Option β} {names : β → List γ}
    {P : α → γ → Prop} (hf : ∀ b a b', f b a = some b' →
      names b ⊆ names b' ∧ ∀ n, P a n → n ∈ names b') (l : List α) {b b' : β}
    (h : l.foldlM f b = some b') : names b ⊆ names b' ∧ ∀ a ∈ l, ∀ n, P a n → n ∈ names b' := by
  induction l generalizing b with
  | nil =>
    obtain rfl := Option.some.inj h
    exact ⟨List.Subset.refl _, fun a ha => absurd ha List.not_mem_nil⟩
  | cons a l ih =>
    rw [List.foldlM_cons] at h
    obtain ⟨mid, hmid, hrest⟩ := Option.bind_eq_some_iff.mp h
    obtain ⟨hkeep, hround⟩ := hf b a mid hmid
    obtain ⟨hkeeps, hrounds⟩ := ih hrest
    refine ⟨List.Subset.trans hkeep hkeeps, fun x hx n hn => ?_⟩
    rcases List.mem_cons.mp hx with rfl | hx
    · exact hkeeps (hround n hn)
    · exact hrounds x hx n hn

/-- `setup` keeps the names and adds the titles below a type. -/
def Collects (schema : Schema M) (setup : M → Bytes → Table → Option Table) : Prop :=
  ∀ desc pre t t', setup desc pre t = some t' →
    t.columnsAssociation ⊆ t'.columnsAssociation ∧
    ∀ above path, LeafPath schema above desc path → pre ++ title path ∈ t'.columnsAssociation

theorem subset_setupOneof (row : ℕ) (pre : Bytes) (field : Protobuf.FieldDescriptor M) (t : Table) :
    t.columnsAssociation ⊆ (setupOneof row pre field t).columnsAssociation := by
  unfold setupOneof
  cases field.containingOneof with
  | none => exact List.Subset.refl _
  | some oneofDesc =>
    dsimp only
    split_ifs
    · exact fun n hn => mem_setNamed.mpr (Or.inl hn)
    · exact List.Subset.refl _

theorem setupField_collects {setup : M → Bytes → Table → Option Table} (desc : M)
    (hsetup : Collects schema setup) {field : Protobuf.FieldDescriptor M} {t' : Table}
    (h : setupField setup row pre field t = some t') :
    t.columnsAssociation ⊆ t'.columnsAssociation ∧
      ∀ above path, LeafPath schema above desc (field :: path) →
        pre ++ title (field :: path) ∈ t'.columnsAssociation := by
  unfold setupField at h
  cases hrepeated : field.isRepeated with
  | true =>
    rw [hrepeated, if_pos rfl] at h
    obtain rfl := Option.some.inj h
    refine ⟨List.Subset.refl _, fun above path hpath => ?_⟩
    cases hpath with
    | leaf _ hsingle => exact absurd (hrepeated.symm.trans hsingle) (by decide)
    | nested _ hsingle => exact absurd (hrepeated.symm.trans hsingle) (by decide)
  | false =>
    rw [hrepeated, if_neg (by decide)] at h
    have hmid := subset_setupOneof row pre field t
    cases hmessage : field.messageType with
    | none =>
      rw [hmessage] at h
      obtain rfl := Option.some.inj h
      refine ⟨fun n hn => mem_setNamed.mpr (Or.inl (hmid hn)), fun above path hpath => ?_⟩
      cases hpath with
      | leaf =>
        refine mem_setNamed.mpr (Or.inr ?_)
        simp [title]
      | nested _ _ hnested => exact absurd (hmessage.symm.trans hnested) (by simp)
    | some nested =>
      rw [hmessage] at h
      obtain ⟨hkeep, htitles⟩ := hsetup _ _ _ _ h
      refine ⟨List.Subset.trans hmid hkeep, fun above path hpath => ?_⟩
      cases hpath with
      | leaf _ _ hleaf => exact absurd (hmessage.symm.trans hleaf) (by simp)
      | nested _ _ hnested _ hrest =>
        obtain rfl := Option.some.inj (hmessage.symm.trans hnested)
        have hmem := htitles _ path hrest
        rw [title_cons hrest.ne_nil]
        simpa using hmem

/-- The descent adds the titles of all leaves below a type. -/
theorem setupRowAsHeader_collects (schema : Schema M) (row fuel : ℕ) :
    Collects schema (setupRowAsHeader schema row fuel) := by
  induction fuel with
  | zero =>
    intro desc pre t t' h
    cases h
  | succ fuel ih =>
    intro desc pre t t' h
    rw [setupRowAsHeader] at h
    obtain ⟨hkeep, htitles⟩ := foldlM_collects
      (P := fun field n => ∃ above path, LeafPath schema above desc (field :: path) ∧
        n = pre ++ title (field :: path))
      (fun t field t' hfield => by
        obtain ⟨hkeep, htitles⟩ := setupField_collects desc ih hfield
        exact ⟨hkeep, fun n ⟨above, path, hpath, hn⟩ => hn ▸ htitles above path hpath⟩) _ h
    refine ⟨hkeep, fun above path hpath => ?_⟩
    cases hpath with
    | leaf hfield hsingle hleaf =>
      exact htitles _ hfield _ ⟨above, [], .leaf hfield hsingle hleaf, rfl⟩
    | nested hfield hsingle hnested hnew hrest =>
      exact htitles _ hfield _ ⟨above, _, .nested hfield hsingle hnested hnew hrest, rfl⟩

/-- The header of a message is set up, with all its titles, exactly if no type that is nested in its
type is nested in itself. The descent does not look at the message. -/
theorem setsHeader_iff [Finite M] (schema : Schema M) (row : ℕ) (desc : M) (msg : Message M)
    (t : Table) : SetsHeader schema row desc msg t ↔
      ¬ ∃ m, Relation.ReflTransGen (Nests schema) desc m ∧
        Relation.TransGen (Nests schema) m m := by
  rw [← exists_depthBelow_iff]
  have hdepth (fuel : ℕ) : (setupRowAsHeader schema 0 fuel desc []
      (streamMessageToRow 0 msg [] (Table.cleared.getRow 0))).isSome ↔
        DepthBelow (Nests schema) fuel desc := setupRowAsHeader_isSome desc [] _
  constructor
  · rintro ⟨fuel, header, hheader, -⟩
    obtain ⟨map, hmap, -⟩ := Option.bind_eq_some_iff.mp hheader
    exact ⟨fuel, (hdepth fuel).mp (Option.isSome_iff_exists.mpr ⟨map, hmap⟩)⟩
  · rintro ⟨fuel, hfuel⟩
    obtain ⟨map, hmap⟩ := Option.isSome_iff_exists.mp ((hdepth fuel).mpr hfuel)
    refine ⟨fuel, _, Option.bind_eq_some_iff.mpr ⟨map, hmap, rfl⟩, fun path hpath => ?_⟩
    exact titled_rewriteNames ((setupRowAsHeader_collects schema 0 fuel _ _ _ _ hmap).2
      [] path hpath)

/-- The value in a node of a list. -/
def valueField : Protobuf.FieldDescriptor M := ⟨"value".toUTF8.toList, false, false, none, none⟩

/-- The next node. -/
def nextField (desc : M) : Protobuf.FieldDescriptor M :=
  ⟨"next".toUTF8.toList, false, false, none, some desc⟩

def lastNode : Message M := [(valueField, .item (some (decimal 0)))]

/-- Two kinds of nodes, of which the second has no next. -/
def twoNodes : Schema Bool where
  fields last := if last then [valueField] else [valueField, nextField true]
  names := by rintro (_ | _) <;> decide +kernel

theorem setsHeader_iff_twoNodes :
    SetsHeader twoNodes 0 false (lastNode ++ [(nextField true, .message lastNode)]) Table.cleared ↔
      ¬ ∃ m, Relation.ReflTransGen (Nests twoNodes) false m ∧
        Relation.TransGen (Nests twoNodes) m m :=
  setsHeader_iff twoNodes 0 false _ Table.cleared

/-- The next of a node is a node. -/
def listNode : Schema Unit where
  fields _ := [valueField, nextField ()]
  names := by decide +kernel

/-- The descent into the type of a node does not end, for a node that has no next too. -/
theorem not_setsHeader_listNode :
    ¬ SetsHeader listNode 0 () (lastNode ++ [(nextField (), .absent)]) Table.cleared := by
  rintro ⟨fuel, header, hheader, -⟩
  obtain ⟨map, hmap, -⟩ := Option.bind_eq_some_iff.mp hheader
  have hdepth : DepthBelow (Nests listNode) fuel () :=
    (setupRowAsHeader_isSome _ _ _).mp (Option.isSome_iff_exists.mpr ⟨map, hmap⟩)
  exact not_self_of_acc hdepth.acc ⟨_, List.mem_cons_of_mem _ List.mem_cons_self, rfl, rfl⟩

end Octf.Utils
