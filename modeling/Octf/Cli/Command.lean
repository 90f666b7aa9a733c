import Mathlib.Data.List.Sort
import Octf.Cli.Parameter
import Octf.Foundation.Components

/-! A command and the options it is given on a command line. -/
namespace Octf.Cli
open Foundation
open Octf.Utils (Bytes)

structure Command where
  shortKey : Bytes := []
  longKey : Bytes := []
  /-- in the order of their long keys -/
  params : List Parameter := []
  isLocal : Bool := true

namespace Command

def addParam (param : Parameter) (cmd : Command) : Except CliException Command :=
  if cmd.params.any fun p => p.longKey == param.longKey then .error (.addedTwice param.longKey)
  else .ok { cmd with
    params := cmd.params.orderedInsert (fun p q => p.longKey ≤ q.longKey) param }

/-- The first parameter with a key, and its place. -/
def firstNamed (name : Bytes) (params : List Parameter) : Option (ℕ × Parameter) :=
  (params.findIdx? fun p => p.isNamed name).bind fun i => params[i]?.map fun p => (i, p)

def getParam (name : Bytes) (params : List Parameter) : Except CliException (ℕ × Parameter) :=
  match firstNamed name params with
  | some param => .ok param
  | none => .error (.unrecognized name)

def getParamByIndex (index : ℤ) (cmd : Command) : Except CliException Parameter :=
  match cmd.params.find? fun p => p.index = index with
  | some param => .ok param
  | none => .error (.indexUnrecognized index)

/-- The loop over the elements; a value is taken as it stands, also when it looks like a key. -/
def parseElements : CLIList → List Parameter → Except CliException (List Parameter)
  | [], params => .ok params
  | element :: cliList, params =>
    let name := element.getValidKeyName
    if name = [] then .error .invalidParameterFormat
    else (getParam name params).bind fun (i, param) =>
      if param.hasValue then
        match cliList with
        | [] => .error (.valueMissing param.longKey)
        | value :: cliList =>
          (param.setValue value.value).bind fun param => parseElements cliList (params.set i param)
      else (param.setValue []).bind fun param => parseElements cliList (params.set i param)

def checkParamMissing (params : List Parameter) : Except CliException Unit :=
  match params.find? fun p => p.required && !p.set with
  | some param => .error (.required param.longKey)
  | none => .ok ()

def parseParamValues (cliList : CLIList) (cmd : Command) : Except CliException Command :=
  (parseElements cliList cmd.params).bind fun params =>
    (checkParamMissing params).map fun _ => { cmd with params }

end Command

/-! ### Options -/

/-- An option of a command line: the element of its key, and that of its value if it has one. -/
structure GivenOption where
  key : Bytes
  value : Option Bytes
  deriving DecidableEq

namespace GivenOption

def elements (o : GivenOption) : List Bytes := o.key :: o.value.toList

def name (o : GivenOption) : Bytes := CLIElement.getValidKeyName { value := o.key }

/-- The place of the parameter that an option is for. It is the first one with its key, and takes
a value when the option has one. -/
def place (params : List Parameter) (o : GivenOption) : Option ℕ :=
  if o.name = [] then none
  else (Command.firstNamed o.name params).bind fun (i, param) =>
    if param.hasValue = o.value.isSome then some i else none

end GivenOption

/-- The values that options give to the parameters at their places. -/
def resolve (params : List Parameter) : List GivenOption → Option (List (ℕ × Bytes))
  | [] => some []
  | o :: options =>
    (o.place params).bind fun i => (resolve params options).map ((i, o.value.getD []) :: ·)

/-! ### Parsing is a run over the parameters -/

/-- What a value does not change. -/
def Parameter.signature (p : Parameter) : Bytes × Bytes × Bool × ℤ × Bool :=
  (p.shortKey, p.longKey, p.hasValue, p.index, p.required)

theorem Parameter.setValue_ok {element : Bytes} {p p' : Parameter}
    (h : p.setValue element = .ok p') : p'.signature = p.signature ∧ p'.set = true := by
  unfold setValue at h
  cases hkind : p.kind with
  | flag =>
    rw [hkind] at h
    obtain rfl := Except.ok.inj h
    simp [signature, hasValue, hkind]
  | number n =>
    rw [hkind] at h
    cases hn : n.setValue p.longKey p.set element with
    | error e => simp [hn, Except.map] at h
    | ok n' =>
      simp only [hn, Except.map, Except.ok.injEq] at h
      subst h
      simp [signature, hasValue, hkind]
  | string s =>
    rw [hkind] at h
    cases hs : s.setValue p.longKey p.set element with
    | error e => simp [hs, Except.map] at h
    | ok s' =>
      simp only [hs, Except.map, Except.ok.injEq] at h
      subst h
      simp [signature, hasValue, hkind]
  | enum e =>
    rw [hkind] at h
    cases he : e.setValue p.longKey element with
    | error e => simp [he, Except.map] at h
    | ok e' =>
      simp only [he, Except.map, Except.ok.injEq] at h
      subst h
      simp [signature, hasValue, hkind]

variable {params params' : List Parameter} {name : Bytes}

theorem signature_set {i : ℕ} {p p' : Parameter} (hp : params[i]? = some p)
    (h : p'.signature = p.signature) :
    (params.set i p').map Parameter.signature = params.map Parameter.signature := by
  rw [List.map_set, h]
  obtain ⟨hi, rfl⟩ := List.getElem?_eq_some_iff.mp hp
  rw [← List.getElem_map Parameter.signature (h := by simpa using hi), List.set_getElem_self]

theorem firstNamed_eq_some {i : ℕ} {p : Parameter}
    (h : Command.firstNamed name params = some (i, p)) : params[i]? = some p := by
  obtain ⟨j, -, hj⟩ := Option.bind_eq_some_iff.mp h
  obtain ⟨q, hq, heq⟩ := Option.map_eq_some_iff.mp hj
  cases heq
  exact hq

theorem firstNamed_map_signature :
    (Command.firstNamed name params).map (fun p => (p.1, p.2.signature)) =
      ((params.map Parameter.signature).findIdx? fun s => s.1 == name || s.2.1 == name).bind
        fun i => (params.map Parameter.signature)[i]?.map fun s => (i, s) := by
  rw [List.findIdx?_map]
  simp only [Command.firstNamed, Option.map_bind, List.getElem?_map, Option.map_map,
    Function.comp_def, Parameter.isNamed, Parameter.signature]

theorem place_eq_map_signature (o : GivenOption) :
    o.place params = if o.name = [] then none
      else ((Command.firstNamed o.name params).map fun p => (p.1, p.2.signature)).bind fun p =>
        if p.2.2.2.1 = o.value.isSome then some p.1 else none := by
  unfold GivenOption.place
  split_ifs
  · rfl
  · cases Command.firstNamed o.name params <;> rfl

theorem place_congr (h : params.map Parameter.signature = params'.map Parameter.signature)
    (o : GivenOption) : o.place params = o.place params' := by
  rw [place_eq_map_signature, place_eq_map_signature, firstNamed_map_signature,
    firstNamed_map_signature, h]

theorem resolve_congr (h : params.map Parameter.signature = params'.map Parameter.signature)
    (options : List GivenOption) : resolve params options = resolve params' options := by
  induction options with
  | nil => rfl
  | cons o options ih => rw [resolve, resolve, place_congr h, ih]

/-- The elements as they stand on the command line. -/
def cliElements (argv : List Bytes) : CLIList := argv.map fun value => { value }

theorem place_eq_some_iff {o : GivenOption} {i : ℕ} :
    o.place params = some i ↔ o.name ≠ [] ∧ ∃ p, Command.firstNamed o.name params = some (i, p) ∧
      p.hasValue = o.value.isSome := by
  unfold GivenOption.place
  by_cases hname : o.name = []
  · simp [hname]
  · rw [if_neg hname, Option.bind_eq_some_iff]
    constructor
    · rintro ⟨⟨j, p⟩, hfirst, h⟩
      obtain ⟨hvalue, rfl⟩ : p.hasValue = o.value.isSome ∧ j = i := by simpa using h
      exact ⟨hname, p, hfirst, hvalue⟩
    · rintro ⟨-, p, hfirst, hvalue⟩
      exact ⟨(i, p), hfirst, by simp [hvalue]⟩

/-- The loop takes one option. -/
theorem parseElements_append {o : GivenOption} {i : ℕ} {p : Parameter}
    (hplace : o.place params = some i) (hp : params[i]? = some p) (rest : List Bytes) :
    Command.parseElements (cliElements (o.elements ++ rest)) params =
      (p.setValue (o.value.getD [])).bind fun p' =>
        Command.parseElements (cliElements rest) (params.set i p') := by
  obtain ⟨hname, q, hfirst, hvalue⟩ := place_eq_some_iff.mp hplace
  obtain rfl : q = p := Option.some.inj ((firstNamed_eq_some hfirst).symm.trans hp)
  have hparam : Command.getParam o.name params = .ok (i, q) := by
    simp only [Command.getParam, hfirst]
  simp only [GivenOption.elements, cliElements, List.cons_append, List.map_cons,
    Command.parseElements]
  rw [show CLIElement.getValidKeyName { value := o.key } = o.name from rfl, if_neg hname, hparam]
  cases hv : o.value with
  | none =>
    rw [hv] at hvalue
    simp [Except.bind, hvalue]
  | some v =>
    rw [hv] at hvalue
    simp [Except.bind, hvalue]

/-- What the loop accepts is empty or begins with an option that a parameter takes. -/
theorem exists_option_of_parseElements {key : Bytes} {argv : List Bytes}
    (h : Command.parseElements (cliElements (key :: argv)) params = .ok params') :
    ∃ o rest i p, key :: argv = GivenOption.elements o ++ rest ∧ o.place params = some i ∧
      params[i]? = some p := by
  simp only [cliElements, List.map_cons, Command.parseElements] at h
  by_cases hname : CLIElement.getValidKeyName { value := key } = []
  · rw [if_pos hname] at h
    cases h
  rw [if_neg hname] at h
  cases hfirst : Command.firstNamed (CLIElement.getValidKeyName { value := key }) params with
  | none =>
    simp only [Command.getParam, hfirst] at h
    cases h
  | some ip =>
    obtain ⟨i, p⟩ := ip
    simp only [Command.getParam, hfirst, Except.bind] at h
    by_cases hvalue : p.hasValue
    · rw [if_pos hvalue] at h
      cases argv with
      | nil => cases h
      | cons value argv =>
        refine ⟨⟨key, some value⟩, argv, i, p, rfl, place_eq_some_iff.mpr ⟨hname, p, hfirst, ?_⟩,
          firstNamed_eq_some hfirst⟩
        simp [hvalue]
    · refine ⟨⟨key, none⟩, argv, i, p, rfl, place_eq_some_iff.mpr ⟨hname, p, hfirst, ?_⟩,
        firstNamed_eq_some hfirst⟩
      simpa using hvalue

/-- The loop takes options that are accepted, and goes on with what is behind them. -/
theorem parseElements_run {options : List GivenOption} {ops : List (ℕ × Bytes)}
    (hops : resolve params options = some ops)
    (hrun : runAll (stepAt Parameter.setValue) ops params = .ok params') (rest : List Bytes) :
    Command.parseElements (cliElements (options.flatMap GivenOption.elements ++ rest)) params =
      Command.parseElements (cliElements rest) params' := by
  induction options generalizing params ops with
  | nil =>
    cases hops
    obtain rfl := Except.ok.inj hrun
    rfl
  | cons o options ih =>
    obtain ⟨i, hplace, hrest⟩ := Option.bind_eq_some_iff.mp hops
    obtain ⟨ops, hresolve, rfl⟩ := Option.map_eq_some_iff.mp hrest
    obtain ⟨-, p, hfirst, -⟩ := place_eq_some_iff.mp hplace
    have hp := firstNamed_eq_some hfirst
    rw [List.flatMap_cons, List.append_assoc, parseElements_append hplace hp]
    rw [runAll_cons] at hrun
    cases hset : p.setValue (o.value.getD []) with
    | error e => simp [stepAt, hp, hset, Except.map, Except.bind] at hrun
    | ok p' =>
      have hsig := signature_set hp (Parameter.setValue_ok hset).1
      exact ih (by rw [resolve_congr hsig, hresolve])
        (by simpa [stepAt, hp, hset, Except.map, Except.bind] using hrun)

/-- The loop accepts exactly the sequences of options whose values the parameters take. -/
theorem parseElements_ok_iff {argv : List Bytes} :
    Command.parseElements (cliElements argv) params = .ok params' ↔
      ∃ options ops, argv = options.flatMap GivenOption.elements ∧
        resolve params options = some ops ∧
          runAll (stepAt Parameter.setValue) ops params = .ok params' := by
  constructor
  · intro h
    induction hn : argv.length using Nat.strong_induction_on generalizing argv params with
    | _ n ih =>
    cases argv with
    | nil => exact ⟨[], [], rfl, rfl, h⟩
    | cons key argv =>
      obtain ⟨o, rest, i, p, hsplit, hplace, hp⟩ := exists_option_of_parseElements h
      rw [hsplit, parseElements_append hplace hp] at h
      cases hset : p.setValue (o.value.getD []) with
      | error e =>
        rw [hset] at h
        cases h
      | ok p' =>
        rw [hset] at h
        have hlt : rest.length < n := by
          rw [← hn, hsplit, GivenOption.elements, List.length_append, List.length_cons]
          omega
        obtain ⟨options, ops, hrest, hops, hrun⟩ := ih _ hlt h rfl
        have hsig := signature_set hp (Parameter.setValue_ok hset).1
        refine ⟨o :: options, (i, o.value.getD []) :: ops, by rw [hsplit, hrest]; rfl, ?_, ?_⟩
        · rw [resolve, hplace, ← resolve_congr hsig, hops]
          rfl
        · simpa [stepAt, hp, hset, Except.map, Except.bind] using hrun
  · rintro ⟨options, ops, rfl, hops, hrun⟩
    have hall := parseElements_run hops hrun []
    rw [List.append_nil] at hall
    rw [hall]
    rfl

end Octf.Cli
