import Octf.Cli.CommandProtobuf

/-! What the values given to a parameter make of its field. -/
namespace Octf.Cli
open Foundation
open Octf.Utils (Bytes comma)

/-! ### The meaning of given values -/

namespace FieldDescriptor

/-- A number is given once, within the bounds of its options, or not at all. -/
def DenotesNumber (f : FieldDescriptor) (given : List Bytes) (number : ℤ) : Prop :=
  ∃ ops n, f.opts_param = some ops ∧ ParamNumber.setOptions f.type ops {} = .ok n ∧
    ((given = [] ∧ ops.cli_required = false ∧ number = n.number) ∨
      ∃ text, given = [text] ∧ extractInt64 text = some number ∧ n.min ≤ number ∧ number ≤ n.max)

def defaultStrings (ops : OptsParam) : List Bytes :=
  match ops.cli_param with
  | some (.str default_value _) => if default_value = [] then [] else [default_value]
  | _ => []

/-- The limit of repeated strings bounds nothing that is given. -/
def DenotesString (f : FieldDescriptor) (given : List Bytes) (value : Option FieldValue) : Prop :=
  ∃ ops, f.opts_param = some ops ∧
    ((given = [] ∧ ops.cli_required = false ∧
        value = if f.isRepeated then some (.strings (defaultStrings ops)) else none) ∨
      ∃ text, given = [text] ∧ text.length ≤ MAX_STRING_LENGTH ∧
        value = some (if f.isRepeated then .strings (text.splitOn comma) else .string text))

end FieldDescriptor

namespace EnumDescriptor

/-- The index of the last value with a switch. -/
def index (e : EnumDescriptor) (text : Bytes) : Option ℕ :=
  (e.values.zipIdx.reverse.find? fun v => v.1.cli_switch = some text).map (·.2)

def optsDefault (current : ℤ) (ops : OptsParam) : ℤ :=
  match ops.cli_param with
  | some (.enum default_value) => if ops.cli_required then current else default_value
  | _ => current

/-- What a field holds when no value is given. -/
def default (e : EnumDescriptor) (f : FieldDescriptor) : ℤ :=
  let value := e.opts_enum_param.elim 0 (optsDefault 0)
  f.opts_param.elim value (optsDefault value)

end EnumDescriptor

namespace FieldDescriptor

/-- The last of the values counts, with its index in place of its number; none is required. -/
def DenotesEnum (f : FieldDescriptor) (e : EnumDescriptor) (given : List Bytes)
    (value : Option FieldValue) : Prop :=
  (∀ text ∈ given, (e.index text).isSome) ∧
    value = some (.enum ((given.getLast?.bind e.index).elim (e.default f) (↑)))

def DenotesFlag (f : FieldDescriptor) (given : List Bytes) (value : Option FieldValue) : Prop :=
  (f.opts_param.any (·.cli_required) → given ≠ []) ∧ value = some (.bool !given.isEmpty)

/-- The values given for a field, in their order, make it hold a value. -/
def Denotes (f : FieldDescriptor) (given : List Bytes) (value : Option FieldValue) : Prop :=
  match f.type with
  | .int32 => ∃ n, f.DenotesNumber given n ∧ (INT32_MIN ≤ n ∧ n ≤ INT32_MAX) ∧
      value = some (.int32 n)
  | .int64 => ∃ n, f.DenotesNumber given n ∧ value = some (.int64 n)
  | .uint32 => ∃ n, f.DenotesNumber given n ∧ (0 ≤ n ∧ n ≤ UINT32_MAX) ∧ value = some (.uint32 n)
  | .string => f.DenotesString given value
  | .bool => f.DenotesFlag given value
  | .enum e => f.DenotesEnum e given value
  | .other => False

end FieldDescriptor

/-! ### Numbers -/

variable {p p' : Parameter} {given : List Bytes} {value : Option FieldValue}

/-- The parameter is given values that it takes, those that it requires among them. -/
def Takes (p : Parameter) (given : List Bytes) (p' : Parameter) : Prop :=
  runAll Parameter.setValue given p = .ok p' ∧ ¬ (p'.required ∧ p'.set = false)

/-- A parameter that refuses a second value is given one or none. -/
theorem takes_iff_of_once (hset : p.set = false)
    (honce : ∀ text q, p.setValue text = .ok q → ∀ text' r, q.setValue text' ≠ .ok r) :
    Takes p given p' ↔ (given = [] ∧ p.required = false ∧ p' = p) ∨
      ∃ text, given = [text] ∧ p.setValue text = .ok p' := by
  unfold Takes
  match given with
  | [] =>
    simp only [runAll_nil, Except.ok.injEq, true_and, List.nil_eq, List.cons_ne_nil, false_and,
      exists_false, or_false]
    constructor
    · rintro ⟨rfl, hreq⟩
      exact ⟨by simpa [hset] using hreq, rfl⟩
    · rintro ⟨hreq, rfl⟩
      exact ⟨rfl, by simp [hreq]⟩
  | [text] =>
    have hrun : runAll Parameter.setValue [text] p = p.setValue text := by
      rw [runAll_cons]
      cases p.setValue text <;> rfl
    rw [hrun]
    simp only [List.cons_ne_nil, false_and, false_or, List.cons.injEq, and_true, exists_eq_left']
    exact and_iff_left_of_imp fun h => by simp [(Parameter.setValue_ok h).2]
  | text :: text' :: rest =>
    simp only [List.cons_ne_nil, false_and, List.cons.injEq, and_false, exists_false, or_self,
      iff_false]
    rintro ⟨h, -⟩
    rw [runAll_cons] at h
    cases hq : p.setValue text with
    | error e => simp [hq, Except.bind] at h
    | ok q =>
      cases hr : q.setValue text' with
      | error e => simp [hq, hr, Except.bind] at h
      | ok r => exact honce text q hq text' r hr

theorem setValue_number_iff {n : ParamNumber} {text : Bytes} (hkind : p.kind = .number n) :
    p.setValue text = .ok p' ↔ p.set = false ∧ ∃ number, extractInt64 text = some number ∧
      (n.min ≤ number ∧ number ≤ n.max) ∧
        p' = { p with kind := .number { n with number }, set := true } := by
  have hempty : extractInt64 [] = none := rfl
  simp only [Parameter.setValue, hkind, ParamNumber.setValue]
  cases hset : p.set with
  | true => simp [Except.map]
  | false =>
    simp only [Bool.false_eq_true, if_false, true_and]
    by_cases htext : text = []
    · simp [htext, hempty, Except.map]
    · rw [if_neg htext]
      cases extractInt64 text with
      | none => simp [Except.map]
      | some number =>
        by_cases hrange : number < n.min ∨ number > n.max
        · have hbounds : ¬ (n.min ≤ number ∧ number ≤ n.max) := by omega
          simp [if_pos hrange, Except.map, hbounds]
        · have hbounds : n.min ≤ number ∧ number ≤ n.max := by omega
          simp [if_neg hrange, Except.map, hbounds, eq_comm]

theorem takes_number_iff {n : ParamNumber} (hkind : p.kind = .number n) (hset : p.set = false) :
    Takes p given p' ↔
      (given = [] ∧ p.required = false ∧ p' = p) ∨
        ∃ text number, given = [text] ∧ extractInt64 text = some number ∧
          (n.min ≤ number ∧ number ≤ n.max) ∧
            p' = { p with kind := .number { n with number }, set := true } := by
  rw [takes_iff_of_once hset]
  · simp only [setValue_number_iff hkind, hset, true_and, exists_and_left]
  · intro text q hq text' r hr
    obtain ⟨-, number, -, -, rfl⟩ := (setValue_number_iff hkind).mp hq
    exact absurd ((setValue_number_iff rfl).mp hr).1 (by simp)

/-! ### Strings -/

/-- What a string parameter has for defaults is no more than one string, and not too long. -/
structure ParamString.Sound (s : ParamString) : Prop where
  maxLength : s.maxLength = MAX_STRING_LENGTH
  one : s.defaultValues.length ≤ 1
  short : ∀ v ∈ s.defaultValues, v.length ≤ MAX_STRING_LENGTH

/-- The values of a repeated string are never held against the limit. -/
theorem validate_split {s : ParamString} {key text : Bytes} (hsound : s.Sound)
    (hshort : text.length ≤ MAX_STRING_LENGTH) :
    ParamString.validate key false { s with values := s.split text } = .ok () := by
  have hone := hsound.one
  unfold ParamString.validate
  cases hmultiple : s.multipleValue with
  | false => simp [ParamString.getValue, ParamString.split, hmultiple, hsound.maxLength, hshort]
  | true =>
    -- only the defaults are looked at
    have hlimit : ¬ (s.multipleValueLimit ≠ 0 ∧
        s.multipleValueLimit < s.defaultValues.length) := by
      omega
    have hitems : (s.defaultValues.any fun v => decide (s.maxLength < v.length)) = false := by
      rw [List.any_eq_false]
      intro v hv
      simpa [hsound.maxLength] using hsound.short v hv
    simp only [ParamString.getMultipleValue, Bool.false_eq_true, if_false, if_true, hitems]
    rw [if_neg hlimit]

theorem setValue_string_iff {s : ParamString} {text : Bytes} (hkind : p.kind = .string s)
    (hsound : s.Sound) :
    p.setValue text = .ok p' ↔ p.set = false ∧ text.length ≤ MAX_STRING_LENGTH ∧
      p' = { p with kind := .string { s with values := s.split text }, set := true } := by
  simp only [Parameter.setValue, hkind, ParamString.setValue]
  cases hset : p.set with
  | true => simp [Except.map]
  | false =>
    simp only [Bool.false_eq_true, if_false, true_and]
    by_cases hlong : s.maxLength < text.length
    · have hnot : ¬ text.length ≤ MAX_STRING_LENGTH := by
        rw [← hsound.maxLength]
        omega
      simp [if_pos hlong, Except.map, hnot]
    · have hshort : text.length ≤ MAX_STRING_LENGTH := by
        rw [← hsound.maxLength]
        omega
      rw [if_neg hlong, validate_split hsound hshort]
      simp [Except.map, hshort, eq_comm]

theorem takes_string_iff {s : ParamString} (hkind : p.kind = .string s) (hset : p.set = false)
    (hsound : s.Sound) :
    Takes p given p' ↔ (given = [] ∧ p.required = false ∧ p' = p) ∨
      ∃ text, given = [text] ∧ text.length ≤ MAX_STRING_LENGTH ∧
        p' = { p with kind := .string { s with values := s.split text }, set := true } := by
  rw [takes_iff_of_once hset]
  · simp only [setValue_string_iff hkind hsound, hset, true_and]
  · intro text q hq text' r hr
    obtain ⟨-, -, rfl⟩ := (setValue_string_iff hkind hsound).mp hq
    have hsound' : ParamString.Sound { s with values := s.split text } :=
      ⟨hsound.maxLength, hsound.one, hsound.short⟩
    exact absurd ((setValue_string_iff rfl hsound').mp hr).1 (by simp)

/-! ### Enumerations and flags -/

theorem setValue_flag (hkind : p.kind = .flag) (text : Bytes) :
    p.setValue text = .ok { p with set := true } := by
  simp only [Parameter.setValue, hkind]

theorem takes_flag_iff (hkind : p.kind = .flag) (hset : p.set = false) :
    Takes p given p' ↔ (p.required → given ≠ []) ∧ p' = { p with set := !given.isEmpty } := by
  have hrun : ∀ given (q : Parameter), q.kind = .flag →
      runAll Parameter.setValue given q = .ok { q with set := q.set || !given.isEmpty } := by
    intro given
    induction given with
    | nil => simp
    | cons text given ih =>
      intro q hq
      rw [runAll_cons, setValue_flag hq]
      refine (ih { q with set := true } hq).trans ?_
      simp
  unfold Takes
  rw [hrun given p hkind, hset, Bool.false_or]
  constructor
  · rintro ⟨h, hreq⟩
    obtain rfl := Except.ok.inj h
    exact ⟨fun hrequired hnil => hreq ⟨hrequired, by simp [hnil]⟩, rfl⟩
  · rintro ⟨hreq, rfl⟩
    exact ⟨rfl, fun ⟨hrequired, hempty⟩ => hreq hrequired (by simpa using hempty)⟩

def ParamEnum.named (e : ParamEnum) (text : Bytes) : Option ℕ :=
  (e.enums.entries.reverse.find? fun item => item.2 = text).map (·.1)

theorem setValue_enum_iff {e : ParamEnum} {text : Bytes} (hkind : p.kind = .enum e) :
    p.setValue text = .ok p' ↔ ∃ i, e.named text = some i ∧
      p' = { p with kind := .enum { e with value := i }, set := true } := by
  simp only [Parameter.setValue, hkind, ParamEnum.setValue, ParamEnum.named]
  cases e.enums.entries.reverse.find? fun item => decide (item.2 = text) with
  | none => simp [Except.map]
  | some item => simp [Except.map, eq_comm]

/-- The last value given counts. -/
theorem takes_enum_iff {e : ParamEnum} (hkind : p.kind = .enum e) (hreq : p.required = false) :
    Takes p given p' ↔ (∀ text ∈ given, (e.named text).isSome) ∧
      p' = { p with
        kind := .enum { e with value := (given.getLast?.bind e.named).elim e.value (↑) }
        set := p.set || !given.isEmpty } := by
  have hrun : ∀ given (e' : ParamEnum) (q : Parameter), e'.enums = e.enums → q.kind = .enum e' →
      (runAll Parameter.setValue given q = .ok p' ↔ (∀ text ∈ given, (e.named text).isSome) ∧
        p' = { q with
          kind := .enum { e' with value := (given.getLast?.bind e.named).elim e'.value (↑) }
          set := q.set || !given.isEmpty }) := by
    intro given
    induction given with
    | nil =>
      intro e' q henums hq
      cases q
      cases hq
      simpa using eq_comm
    | cons text given ih =>
      intro e' q henums hq
      have hnamed : e'.named text = e.named text := by
        unfold ParamEnum.named
        rw [henums]
      rw [runAll_cons]
      cases hi : e.named text with
      | none =>
        have herror : ∀ r, q.setValue text ≠ .ok r := fun r hr => by
          obtain ⟨i, hsome, -⟩ := (setValue_enum_iff hq).mp hr
          rw [hnamed, hi] at hsome
          cases hsome
        have hfail : (q.setValue text).bind (runAll Parameter.setValue given) ≠ .ok p' := by
          cases hr : q.setValue text with
          | error err => simp [Except.bind]
          | ok r => exact absurd hr (herror r)
        simp [hfail, hi]
      | some i =>
        have hset := (setValue_enum_iff hq).mpr ⟨i, hnamed.trans hi, rfl⟩
        rw [hset]
        refine (ih { e' with value := i }
          { q with kind := .enum { e' with value := i }, set := true } henums rfl).trans ?_
        simp only [List.forall_mem_cons, hi, Option.isSome_some, true_and, List.getLast?_cons,
          Option.bind_some]
        refine and_congr_right fun hall => ?_
        cases hlast : given.getLast? with
        | none => simp [hi]
        | some last =>
          obtain ⟨j, hj⟩ := Option.isSome_iff_exists.mp (hall last (List.mem_of_getLast? hlast))
          simp [hj]
  unfold Takes
  rw [and_iff_left_of_imp, hrun given e p rfl hkind]
  intro h
  obtain ⟨-, rfl⟩ := (hrun given e p rfl hkind).mp h
  simp [hreq]

/-! ### The parameters of fields -/

variable {f : FieldDescriptor}

theorem param_eq_ok_iff : f.param = .ok p ↔ ∃ q, f.typedParam = .ok q ∧
    p = Parameter.setMultipleValue f.isRepeated { q with index := f.number } ∧
      (f.isRepeated → p.isMultipleValue) := by
  unfold FieldDescriptor.param
  cases f.typedParam with
  | error e => simp [Except.bind]
  | ok q =>
    simp only [Except.bind, Except.ok.injEq, exists_eq_left']
    split_ifs with h
    · simp only [false_iff]
      rintro ⟨rfl, hmultiple⟩
      simp only [Bool.and_eq_true, Bool.not_eq_true'] at h
      simp [hmultiple h.1] at h
    · simp only [Bool.and_eq_true, Bool.not_eq_true', not_and, Bool.not_eq_false] at h
      constructor
      · intro heq
        cases heq
        exact ⟨rfl, h⟩
      · rintro ⟨rfl, -⟩
        rfl

theorem param_number (htyped : f.typedParam = f.numberParam) (h : f.param = .ok p) :
    ∃ ops n, f.opts_param = some ops ∧ ParamNumber.setOptions f.type ops {} = .ok n ∧
      p.kind = .number n ∧ p.set = false ∧ p.required = ops.cli_required := by
  obtain ⟨q, hq, rfl, -⟩ := param_eq_ok_iff.mp h
  rw [htyped, FieldDescriptor.numberParam] at hq
  cases hops : f.opts_param with
  | none =>
    rw [hops] at hq
    cases hq
  | some ops =>
    simp only [hops] at hq
    cases hn : ParamNumber.setOptions f.type ops {} with
    | error e =>
      rw [hn] at hq
      cases hq
    | ok n =>
      rw [hn] at hq
      obtain rfl := Except.ok.inj hq
      exact ⟨ops, n, rfl, hn, by simp [Parameter.setMultipleValue, Parameter.setOptions, hops]⟩

/-- A default was checked before the parameter was known to be repeated. -/
theorem setOptions_string {ops : OptsParam} {key : Bytes} {s : ParamString}
    (h : ParamString.setOptions key ops {} = .ok s) :
    s.Sound ∧ s.values = [] ∧ s.defaultValues = FieldDescriptor.defaultStrings ops := by
  have hplain : ∀ limit, ParamString.Sound { multipleValueLimit := limit } := fun limit =>
    ⟨rfl, Nat.zero_le _, fun v hv => by cases hv⟩
  have hother : .ok {} = (Except.ok s : Except CliException ParamString) →
      s.Sound ∧ s.values = [] ∧ s.defaultValues = [] := by
    intro h
    obtain rfl := Except.ok.inj h
    exact ⟨hplain 0, rfl, rfl⟩
  unfold ParamString.setOptions at h
  unfold FieldDescriptor.defaultStrings
  cases hparam : ops.cli_param with
  | none =>
    rw [hparam] at h
    exact hother h
  | some param => cases param with
    | str default_value limit =>
      rw [hparam] at h
      dsimp only at h ⊢
      split_ifs at h with hnil
      · obtain rfl := Except.ok.inj h
        rw [if_pos hnil]
        exact ⟨hplain limit, rfl, rfl⟩
      · rw [if_neg hnil]
        by_cases hlong : MAX_STRING_LENGTH < default_value.length
        · simp [ParamString.setDefault, ParamString.validate, ParamString.getValue,
            ParamString.split, hlong, Except.map] at h
        · simp only [ParamString.setDefault, ParamString.validate, ParamString.getValue,
            ParamString.split, Bool.false_eq_true, if_false, List.head?_nil, List.head?_cons,
            Option.getD_none, Option.getD_some, hlong, Except.map] at h
          obtain rfl := Except.ok.inj h
          refine ⟨⟨rfl, le_rfl, fun v hv => ?_⟩, rfl, rfl⟩
          rw [List.mem_singleton.mp hv]
          omega
    | _ =>
      rw [hparam] at h
      exact hother h

theorem param_string (htyped : f.typedParam = f.stringParam) (h : f.param = .ok p) :
    ∃ ops s, f.opts_param = some ops ∧ p.kind = .string s ∧ s.Sound ∧
      s.multipleValue = f.isRepeated ∧ s.values = [] ∧
        s.defaultValues = FieldDescriptor.defaultStrings ops ∧ p.set = false ∧
          p.required = ops.cli_required := by
  obtain ⟨q, hq, rfl, -⟩ := param_eq_ok_iff.mp h
  rw [htyped, FieldDescriptor.stringParam] at hq
  cases hops : f.opts_param with
  | none =>
    rw [hops] at hq
    cases hq
  | some ops =>
    simp only [hops] at hq
    cases hs : ParamString.setOptions ops.cli_long_key ops {} with
    | error e =>
      rw [hs] at hq
      cases hq
    | ok s =>
      rw [hs] at hq
      obtain rfl := Except.ok.inj hq
      obtain ⟨hsound, hvalues, hdefaults⟩ := setOptions_string hs
      refine ⟨ops, { s with multipleValue := f.isRepeated }, rfl, ?_⟩
      simp only [Parameter.setMultipleValue, Parameter.setOptions, hops]
      exact ⟨trivial, ⟨hsound.maxLength, hsound.one, hsound.short⟩, trivial, hvalues, hdefaults,
        trivial, trivial⟩

theorem param_flag (htyped : f.typedParam = .ok (Parameter.setOptions f { kind := .flag }))
    (h : f.param = .ok p) :
    p.kind = .flag ∧ p.set = false ∧ p.required = f.opts_param.any (·.cli_required) := by
  obtain ⟨q, hq, rfl, -⟩ := param_eq_ok_iff.mp h
  obtain rfl := Except.ok.inj (htyped.symm.trans hq)
  cases hops : f.opts_param <;> simp [Parameter.setMultipleValue, Parameter.setOptions, hops]

theorem addEnumVals_ok {i : ℕ} {values : List EnumValueDescriptor} {e e' : ParamEnum}
    (h : ParamEnum.addEnumVals i values e = .ok e') (hbelow : ∀ v ∈ e.enums.entries, v.1 < i) :
    e'.value = e.value ∧ ∃ names : List Bytes, values.map (·.cli_switch) = names.map some ∧
      e'.enums.entries = e.enums.entries ++ (names.zipIdx i).map Prod.swap := by
  induction values generalizing i e with
  | nil =>
    obtain rfl := Except.ok.inj h
    exact ⟨rfl, [], rfl, by simp⟩
  | cons v values ih =>
    unfold ParamEnum.addEnumVals at h
    cases hname : v.cli_switch with
    | none =>
      rw [hname] at h
      cases h
    | some name =>
      simp only [hname] at h
      have hentries : (e.addEnumVal i name).enums.entries = e.enums.entries ++ [(i, name)] :=
        OrderedMap.entries_alter_of_lt hbelow
      have hbelow' : ∀ v ∈ (e.addEnumVal i name).enums.entries, v.1 < i + 1 := by
        intro v hv
        rw [hentries, List.mem_append, List.mem_singleton] at hv
        rcases hv with hv | rfl
        · exact (hbelow v hv).trans (Nat.lt_succ_self i)
        · exact Nat.lt_succ_self i
      obtain ⟨hvalue, names, hnames, hrest⟩ := ih h hbelow'
      refine ⟨hvalue, name :: names, by simp [hname, hnames], ?_⟩
      rw [hrest, hentries]
      simp

theorem named_eq_index {enum_type : EnumDescriptor} {e : ParamEnum} {names : List Bytes}
    (hnames : enum_type.values.map (·.cli_switch) = names.map some)
    (hentries : e.enums.entries = names.zipIdx.map Prod.swap) :
    e.named = enum_type.index := by
  funext text
  have hzip : enum_type.values.zipIdx.map (Prod.map (·.cli_switch) id) =
      names.zipIdx.map (Prod.map some id) := by
    rw [List.map_zipIdx, List.map_zipIdx, hnames]
  have hleft : enum_type.index text =
      (((enum_type.values.zipIdx.map (Prod.map (·.cli_switch) id)).reverse.find? fun v =>
        v.1 = some text).map (·.2)) := by
    rw [← List.map_reverse, List.find?_map, Option.map_map]
    rfl
  have hright : e.named text =
      ((names.zipIdx.map (Prod.map some id)).reverse.find? fun v => v.1 = some text).map (·.2) := by
    rw [ParamEnum.named, hentries, ← List.map_reverse, ← List.map_reverse, List.find?_map,
      List.find?_map, Option.map_map, Option.map_map]
    simp only [Function.comp_def, Prod.fst_swap, Prod.snd_swap, Prod.map, id, Option.some.injEq]
  rw [hleft, hright, hzip]

theorem setEnumOptions_kind {e : ParamEnum} {ops : OptsParam} (hkind : p.kind = .enum e) :
    (p.setEnumOptions ops).kind = .enum { e with value := EnumDescriptor.optsDefault e.value ops } ∧
      (p.setEnumOptions ops).set = p.set ∧ (p.setEnumOptions ops).required = p.required := by
  obtain ⟨required, shortKey, longKey, param⟩ := ops
  simp only [Parameter.setEnumOptions, EnumDescriptor.optsDefault]
  by_cases hlong : longKey = [] <;> by_cases hshort : shortKey = [] <;>
    simp only [hlong, hshort, if_true, if_false, hkind] <;>
    rcases param with _ | _ | _ | default_value <;> cases required <;> simp [hkind]

theorem elim_setEnumOptions_kind {e : ParamEnum} (ops : Option OptsParam)
    (hkind : p.kind = .enum e) :
    (ops.elim p p.setEnumOptions).kind =
        .enum { e with value := ops.elim e.value (EnumDescriptor.optsDefault e.value) } ∧
      (ops.elim p p.setEnumOptions).set = p.set ∧
        (ops.elim p p.setEnumOptions).required = p.required := by
  cases ops with
  | none => exact ⟨hkind, rfl, rfl⟩
  | some ops => exact setEnumOptions_kind hkind

/-- The options of the enumeration come first, then those of the field. -/
theorem param_enum {enum_type : EnumDescriptor} (htyped : f.typedParam = f.enumParam enum_type)
    (h : f.param = .ok p) :
    ∃ e : ParamEnum, p.kind = .enum e ∧ e.named = enum_type.index ∧
      e.value = enum_type.default f ∧ p.set = false ∧ p.required = false := by
  obtain ⟨q, hq, rfl, -⟩ := param_eq_ok_iff.mp h
  rw [htyped, FieldDescriptor.enumParam] at hq
  cases he : ParamEnum.addEnumVals 0 enum_type.values {} with
  | error e =>
    rw [he] at hq
    cases hq
  | ok e =>
    obtain ⟨hvalue, names, hnames, hentries⟩ := addEnumVals_ok he fun v hv => by cases hv
    simp only [he, Except.bind] at hq
    split_ifs at hq
    have hfirst := elim_setEnumOptions_kind enum_type.opts_enum_param
      (show Parameter.kind { kind := .enum e } = .enum e from rfl)
    have hsecond := elim_setEnumOptions_kind f.opts_param hfirst.1
    obtain rfl := Except.ok.inj hq
    simp only [Parameter.setMultipleValue, hsecond.1]
    refine ⟨_, rfl, named_eq_index hnames hentries, ?_, hsecond.2.1.trans hfirst.2.1,
      hsecond.2.2.trans hfirst.2.2⟩
    rw [hvalue]
    rfl

@[simp] theorem setMultipleValue_index (b : Bool) (p : Parameter) :
    (p.setMultipleValue b).index = p.index := by
  unfold Parameter.setMultipleValue
  split <;> rfl

theorem param_index (h : f.param = .ok p) : p.index = f.number := by
  obtain ⟨q, -, rfl, -⟩ := param_eq_ok_iff.mp h
  exact setMultipleValue_index _ _

/-! ### Parameters hold what the given values denote -/

theorem exists_takes_number_iff (htyped : f.typedParam = f.numberParam) (h : f.param = .ok p)
    {number : ℤ} : (∃ p' n', Takes p given p' ∧ p'.kind = .number n' ∧ n'.number = number) ↔
      f.DenotesNumber given number := by
  obtain ⟨ops, n, hops, hn, hkind, hset, hrequired⟩ := param_number htyped h
  simp only [takes_number_iff hkind hset, hrequired]
  constructor
  · rintro ⟨p', n', ⟨hnil, hreq, rfl⟩ | ⟨text, number, hgiven, hread, hbounds, rfl⟩, hkind', rfl⟩
    · obtain rfl := ParamKind.number.inj (hkind.symm.trans hkind')
      exact ⟨ops, n, hops, hn, .inl ⟨hnil, hreq, rfl⟩⟩
    · obtain rfl := ParamKind.number.inj hkind'
      exact ⟨ops, n, hops, hn, .inr ⟨text, hgiven, hread, hbounds⟩⟩
  · rintro ⟨ops', n', hops', hn', hgiven⟩
    obtain rfl := Option.some.inj (hops.symm.trans hops')
    obtain rfl := Except.ok.inj (hn.symm.trans hn')
    rcases hgiven with ⟨hnil, hreq, rfl⟩ | ⟨text, hgiven, hread, hbounds⟩
    · exact ⟨p, n, .inl ⟨hnil, hreq, rfl⟩, hkind, rfl⟩
    · exact ⟨_, _, .inr ⟨text, number, hgiven, hread, hbounds, rfl⟩, rfl, rfl⟩

theorem kind_of_takes_number (htyped : f.typedParam = f.numberParam) (h : f.param = .ok p)
    (htakes : Takes p given p') : ∃ n', p'.kind = .number n' := by
  obtain ⟨-, n, -, -, hkind, hset, -⟩ := param_number htyped h
  rcases (takes_number_iff hkind hset).mp htakes with ⟨-, -, rfl⟩ | ⟨-, -, -, -, -, rfl⟩
  · exact ⟨n, hkind⟩
  · exact ⟨_, rfl⟩

theorem denotes_number {Q : ℤ → Prop} {result : Except CliException (Option FieldValue)}
    (htyped : f.typedParam = f.numberParam) (h : f.param = .ok p)
    (hQ : ∀ (p' : Parameter) n', p'.kind = .number n' →
      (p'.parseToProtobuf f = result ↔ Q n'.number)) :
    (∃ p', Takes p given p' ∧ p'.parseToProtobuf f = result) ↔
      ∃ number, f.DenotesNumber given number ∧ Q number := by
  simp only [← exists_takes_number_iff htyped h]
  constructor
  · rintro ⟨p', htakes, hvalue⟩
    obtain ⟨n', hkind⟩ := kind_of_takes_number htyped h htakes
    exact ⟨_, ⟨p', n', htakes, hkind, rfl⟩, (hQ p' n' hkind).mp hvalue⟩
  · rintro ⟨_, ⟨p', n', htakes, hkind, rfl⟩, hvalue⟩
    exact ⟨p', htakes, (hQ p' n' hkind).mpr hvalue⟩

theorem denotes_string (htyped : f.typedParam = f.stringParam) (h : f.param = .ok p) :
    (∃ p', Takes p given p' ∧ p'.parseToProtobuf f = .ok value) ↔ f.DenotesString given value := by
  obtain ⟨ops, s, hops, hkind, hsound, hmultiple, hvalues, hdefaults, hset, hrequired⟩ :=
    param_string htyped h
  have hnone : p.parseToProtobuf f =
      .ok (if f.isRepeated then some (.strings (FieldDescriptor.defaultStrings ops)) else
        none) := by
    unfold Parameter.parseToProtobuf
    rw [hkind, ← hdefaults, ← hmultiple]
    cases hm : s.multipleValue <;> simp [hset, ParamString.getMultipleValue, hm]
  have hone : ∀ text : Bytes, Parameter.parseToProtobuf f
      { p with kind := .string { s with values := s.split text }, set := true } =
        .ok (some (if f.isRepeated then .strings (text.splitOn comma) else .string text)) := by
    intro text
    unfold Parameter.parseToProtobuf ParamString.split
    rw [← hmultiple]
    cases hm : s.multipleValue <;>
      simp [ParamString.getMultipleValue, ParamString.getValue, ParamString.parseValuesToVector]
  simp only [takes_string_iff hkind hset hsound, hrequired]
  constructor
  · rintro ⟨p', ⟨hnil, hreq, rfl⟩ | ⟨text, hgiven, hshort, rfl⟩, hvalue⟩
    · exact ⟨ops, hops, .inl ⟨hnil, hreq, Except.ok.inj (hvalue.symm.trans hnone)⟩⟩
    · exact ⟨ops, hops, .inr ⟨text, hgiven, hshort, Except.ok.inj (hvalue.symm.trans (hone text))⟩⟩
  · rintro ⟨ops', hops', hgiven⟩
    obtain rfl := Option.some.inj (hops.symm.trans hops')
    rcases hgiven with ⟨hnil, hreq, rfl⟩ | ⟨text, hgiven, hshort, rfl⟩
    · exact ⟨p, .inl ⟨hnil, hreq, rfl⟩, hnone⟩
    · exact ⟨_, .inr ⟨text, hgiven, hshort, rfl⟩, hone text⟩

theorem denotes_flag (htyped : f.typedParam = .ok (Parameter.setOptions f { kind := .flag }))
    (h : f.param = .ok p) :
    (∃ p', Takes p given p' ∧ p'.parseToProtobuf f = .ok value) ↔ f.DenotesFlag given value := by
  obtain ⟨hkind, hset, hrequired⟩ := param_flag htyped h
  simp only [takes_flag_iff hkind hset, hrequired, FieldDescriptor.DenotesFlag]
  constructor
  · rintro ⟨p', ⟨hreq, rfl⟩, hvalue⟩
    simp only [Parameter.parseToProtobuf, hkind, Except.ok.injEq] at hvalue
    exact ⟨hreq, hvalue.symm⟩
  · rintro ⟨hreq, rfl⟩
    refine ⟨_, ⟨hreq, rfl⟩, ?_⟩
    simp only [Parameter.parseToProtobuf, hkind]

theorem denotes_enum {enum_type : EnumDescriptor} (htyped : f.typedParam = f.enumParam enum_type)
    (h : f.param = .ok p) :
    (∃ p', Takes p given p' ∧ p'.parseToProtobuf f = .ok value) ↔
      f.DenotesEnum enum_type given value := by
  obtain ⟨e, hkind, hnamed, hvalue, hset, hrequired⟩ := param_enum htyped h
  simp only [takes_enum_iff hkind hrequired, FieldDescriptor.DenotesEnum, hnamed, hvalue]
  constructor
  · rintro ⟨p', ⟨hall, rfl⟩, hholds⟩
    exact ⟨hall, (Except.ok.inj hholds).symm⟩
  · rintro ⟨hall, rfl⟩
    exact ⟨_, ⟨hall, rfl⟩, rfl⟩

/-- What a field holds after its parameter took the given values. -/
theorem denotes_iff (h : f.param = .ok p) :
    (∃ p', Takes p given p' ∧ p'.parseToProtobuf f = .ok value) ↔ f.Denotes given value := by
  unfold FieldDescriptor.Denotes
  cases htype : f.type with
  | int32 =>
    refine denotes_number (by simp only [FieldDescriptor.typedParam, htype]) h fun p' n' hkind => ?_
    simp only [Parameter.parseToProtobuf, hkind, htype]
    split_ifs with hrange <;> simp [hrange, eq_comm]
  | int64 =>
    refine denotes_number (by simp only [FieldDescriptor.typedParam, htype]) h fun p' n' hkind => ?_
    simp only [Parameter.parseToProtobuf, hkind, htype, Except.ok.injEq, eq_comm]
  | uint32 =>
    refine denotes_number (by simp only [FieldDescriptor.typedParam, htype]) h fun p' n' hkind => ?_
    simp only [Parameter.parseToProtobuf, hkind, htype]
    split_ifs with hrange <;> simp [hrange, eq_comm]
  | string => exact denotes_string (by simp only [FieldDescriptor.typedParam, htype]) h
  | bool => exact denotes_flag (by simp only [FieldDescriptor.typedParam, htype]) h
  | enum e => exact denotes_enum (by simp only [FieldDescriptor.typedParam, htype]) h
  | other =>
    obtain ⟨q, hq, -⟩ := param_eq_ok_iff.mp h
    simp [FieldDescriptor.typedParam, htype] at hq

end Octf.Cli
