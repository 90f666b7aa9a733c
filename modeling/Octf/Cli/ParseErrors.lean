import Octf.Cli.Dispatch

/-! Command lines that are not accepted: the option at fault, and what is said about it. -/
namespace Octf.Cli
open Foundation
open Octf.Utils (Bytes)
open Executor (Registration executeCommand)

variable {params params' : List Parameter} {argv rest : List Bytes} {e : CliException}
  {cmd : Command}

/-! ### The first option at fault -/

/-- What is wrong with the option that the elements begin with. -/
inductive Offends (params : List Parameter) : List Bytes → CliException → Prop where
  | format {key : Bytes} {rest : List Bytes}
      (hname : CLIElement.getValidKeyName { value := key } = []) :
      Offends params (key :: rest) .invalidParameterFormat
  | unrecognized {key name : Bytes} {rest : List Bytes}
      (hname : CLIElement.getValidKeyName { value := key } = name) (hne : name ≠ [])
      (hnone : ∀ p ∈ params, p.isNamed name = false) :
      Offends params (key :: rest) (.unrecognized name)
  | valueMissing {key name : Bytes} {i : ℕ} {p : Parameter}
      (hname : CLIElement.getValidKeyName { value := key } = name) (hne : name ≠ [])
      (hfirst : Command.firstNamed name params = some (i, p)) (hvalue : p.hasValue) :
      Offends params [key] (.valueMissing p.longKey)
  | value {o : GivenOption} {i : ℕ} {p : Parameter} {rest : List Bytes} {e : CliException}
      (hplace : o.place params = some i) (hp : params[i]? = some p)
      (hset : p.setValue (o.value.getD []) = .error e) :
      Offends params (o.elements ++ rest) e

theorem firstNamed_eq_none_iff {name : Bytes} :
    Command.firstNamed name params = none ↔ ∀ p ∈ params, p.isNamed name = false := by
  unfold Command.firstNamed
  rw [← List.findIdx?_eq_none_iff]
  cases hfind : params.findIdx? fun p => p.isNamed name with
  | none => simp
  | some i =>
    obtain ⟨hi, -⟩ := List.findIdx?_eq_some_iff_getElem.mp hfind
    simp [List.getElem?_eq_getElem hi]

/-- The loop stops at an option that offends. -/
theorem parseElements_of_offends (h : Offends params rest e) :
    Command.parseElements (cliElements rest) params = .error e := by
  cases h with
  | format hname =>
    simp only [cliElements, List.map_cons, Command.parseElements]
    rw [if_pos hname]
  | unrecognized hname hne hnone =>
    simp only [cliElements, List.map_cons, Command.parseElements]
    rw [hname, if_neg hne, Command.getParam, firstNamed_eq_none_iff.mpr hnone]
    rfl
  | valueMissing hname hne hfirst hvalue =>
    simp only [cliElements, List.map_cons, List.map_nil, Command.parseElements]
    rw [hname, if_neg hne, Command.getParam, hfirst]
    simp [Except.bind, hvalue]
  | value hplace hp hset => rw [parseElements_append hplace hp, hset, Except.bind]

/-- The elements begin with an option that offends, or with one that a parameter takes. -/
theorem offends_or_takes (key : Bytes) (argv : List Bytes) (params : List Parameter) :
    (∃ e, Offends params (key :: argv) e) ∨ ∃ o rest i p p',
      key :: argv = GivenOption.elements o ++ rest ∧
      o.place params = some i ∧ params[i]? = some p ∧ p.setValue (o.value.getD []) = .ok p' := by
  by_cases hname : CLIElement.getValidKeyName { value := key } = []
  · exact .inl ⟨_, .format hname⟩
  cases hfirst : Command.firstNamed (CLIElement.getValidKeyName { value := key }) params with
  | none => exact .inl ⟨_, .unrecognized rfl hname (firstNamed_eq_none_iff.mp hfirst)⟩
  | some ip =>
    obtain ⟨i, p⟩ := ip
    have hp := firstNamed_eq_some hfirst
    have htaken : ∀ o : GivenOption, o.key = key → p.hasValue = o.value.isSome →
        ∀ rest, key :: argv = o.elements ++ rest → (∃ e, Offends params (key :: argv) e) ∨
          ∃ o rest i p p', key :: argv = GivenOption.elements o ++ rest ∧ o.place params = some i ∧
            params[i]? = some p ∧ p.setValue (o.value.getD []) = .ok p' := by
      rintro o rfl hvalue rest hsplit
      have hplace : o.place params = some i := place_eq_some_iff.mpr ⟨hname, p, hfirst, hvalue⟩
      cases hset : p.setValue (o.value.getD []) with
      | error e => exact .inl ⟨e, hsplit ▸ .value hplace hp hset⟩
      | ok p' => exact .inr ⟨o, rest, i, p, p', hsplit, hplace, hp, hset⟩
    by_cases hvalue : p.hasValue
    · cases argv with
      | nil => exact .inl ⟨_, .valueMissing rfl hname hfirst hvalue⟩
      | cons value argv => exact htaken ⟨key, some value⟩ rfl (by simp [hvalue]) argv rfl
    · exact htaken ⟨key, none⟩ rfl (by simpa using hvalue) argv rfl

/-- The loop fails at the first option that offends, after it took all the options before. -/
theorem parseElements_error_iff :
    Command.parseElements (cliElements argv) params = .error e ↔
      ∃ options ops params' rest, argv = options.flatMap GivenOption.elements ++ rest ∧
        resolve params options = some ops ∧
          runAll (stepAt Parameter.setValue) ops params = .ok params' ∧ Offends params' rest e := by
  constructor
  · intro h
    induction hn : argv.length using Nat.strong_induction_on generalizing argv params with
    | _ n ih =>
    cases argv with
    | nil => cases h
    | cons key argv =>
      rcases offends_or_takes key argv params with ⟨e', hoffends⟩ |
        ⟨o, rest, i, p, p', hsplit, hplace, hp, hset⟩
      · have herror := parseElements_of_offends hoffends
        obtain rfl : e = e' := Except.error.inj (h.symm.trans herror)
        exact ⟨[], [], params, key :: argv, rfl, rfl, rfl, hoffends⟩
      · rw [hsplit, parseElements_append hplace hp, hset] at h
        have hlt : rest.length < n := by
          rw [← hn, hsplit, GivenOption.elements, List.length_append, List.length_cons]
          omega
        obtain ⟨options, ops, params', rest', rfl, hops, hrun, hoffends⟩ := ih _ hlt h rfl
        have hsig := signature_set hp (Parameter.setValue_ok hset).1
        refine ⟨o :: options, (i, o.value.getD []) :: ops, params', rest', ?_, ?_, ?_, hoffends⟩
        · rw [hsplit, List.flatMap_cons, List.append_assoc]
        · rw [resolve, hplace, ← resolve_congr hsig, hops]
          rfl
        · simpa [stepAt, hp, hset, Except.map, Except.bind] using hrun
  · rintro ⟨options, ops, params', rest, rfl, hops, hrun, hoffends⟩
    rw [parseElements_run hops hrun, parseElements_of_offends hoffends]

/-! ### Options that are missing -/

theorem checkParamMissing_error_iff : Command.checkParamMissing params = .error e ↔
    ∃ before p behind, params = before ++ p :: behind ∧ (p.required ∧ p.set = false) ∧
      (∀ q ∈ before, ¬ (q.required ∧ q.set = false)) ∧ e = .required p.longKey := by
  unfold Command.checkParamMissing
  have hiff : ∀ q : Parameter, (q.required && !q.set) = true ↔ q.required ∧ q.set = false := by simp
  constructor
  · intro h
    cases hfind : params.find? fun p => p.required && !p.set with
    | none =>
      rw [hfind] at h
      cases h
    | some p =>
      simp only [hfind] at h
      obtain rfl := Except.error.inj h
      obtain ⟨hmissing, before, behind, rfl, hbefore⟩ := List.find?_eq_some_iff_append.mp hfind
      refine ⟨before, p, behind, rfl, (hiff p).mp hmissing, fun q hq hset => ?_, rfl⟩
      simpa [(hiff q).mpr hset] using hbefore q hq
  · rintro ⟨before, p, behind, rfl, hmissing, hbefore, rfl⟩
    have hfind : (before ++ p :: behind).find? (fun p => p.required && !p.set) = some p :=
      List.find?_eq_some_iff_append.mpr ⟨(hiff p).mpr hmissing, before, behind, rfl, fun q hq => by
        rw [Bool.not_eq_true', ← Bool.not_eq_true, hiff]
        exact hbefore q hq⟩
    rw [hfind]

/-- A parameter is set when a value was given to it. -/
theorem runAll_setValue_set {given : List Bytes} {p p' : Parameter}
    (h : runAll Parameter.setValue given p = .ok p') : p'.set = (p.set || !given.isEmpty) := by
  induction given generalizing p with
  | nil =>
    obtain rfl := Except.ok.inj h
    simp
  | cons text given ih =>
    rw [runAll_cons] at h
    cases hset : p.setValue text with
    | error e => simp [hset, Except.bind] at h
    | ok q =>
      rw [hset] at h
      rw [ih h, (Parameter.setValue_ok hset).2]
      simp

theorem runAll_setValue_required {given : List Bytes} {p p' : Parameter}
    (h : runAll Parameter.setValue given p = .ok p') :
    p'.longKey = p.longKey ∧ p'.required = p.required := by
  have hsig : p'.signature = p.signature := by
    refine runAll_invariant (P := fun q => q.signature = p.signature)
      (fun _ q q' hq hsig => ?_) h rfl
    exact (Parameter.setValue_ok hq).1.trans hsig
  simp only [Parameter.signature, Prod.mk.injEq] at hsig
  exact ⟨hsig.2.1, hsig.2.2.2.2⟩

theorem param_set {f : FieldDescriptor} {p : Parameter} (h : f.param = .ok p) : p.set = false := by
  cases htype : f.type with
  | int32 | int64 | uint32 =>
    obtain ⟨_, _, -, -, -, hset, -⟩ :=
      param_number (by simp only [FieldDescriptor.typedParam, htype]) h
    exact hset
  | string =>
    obtain ⟨_, _, -, -, -, -, -, -, hset, -⟩ :=
      param_string (by simp only [FieldDescriptor.typedParam, htype]) h
    exact hset
  | bool => exact (param_flag (by simp only [FieldDescriptor.typedParam, htype]) h).2.1
  | enum e =>
    have htyped : f.typedParam = f.enumParam e := by simp only [FieldDescriptor.typedParam, htype]
    obtain ⟨_, -, -, -, hset, -⟩ := param_enum htyped h
    exact hset
  | other =>
    obtain ⟨q, hq, -⟩ := param_eq_ok_iff.mp h
    simp [FieldDescriptor.typedParam, htype] at hq

theorem sorted_orderedInsert {p : Parameter}
    (hsorted : params.Pairwise fun p q => p.longKey < q.longKey)
    (hnew : ∀ q ∈ params, q.longKey ≠ p.longKey) :
    (params.orderedInsert (fun p q => p.longKey ≤ q.longKey) p).Pairwise
      fun p q => p.longKey < q.longKey := by
  induction params with
  | nil => exact List.pairwise_singleton _ _
  | cons q params ih =>
    obtain ⟨hbehind, hsorted'⟩ := List.pairwise_cons.mp hsorted
    have hne := hnew q List.mem_cons_self
    rw [List.orderedInsert_cons]
    split_ifs with hle
    · have hlt : p.longKey < q.longKey := (lt_or_lt_of_ne hne).resolve_left hle
      refine List.pairwise_cons.mpr ⟨fun r hr => ?_, hsorted⟩
      rcases List.mem_cons.mp hr with rfl | hr
      · exact hlt
      · exact List.lt_trans hlt (hbehind r hr)
    · have hlt : q.longKey < p.longKey := not_not.mp hle
      refine List.pairwise_cons.mpr ⟨fun r hr => ?_, ih hsorted' fun r hr =>
        hnew r (List.mem_cons_of_mem _ hr)⟩
      rcases (List.mem_orderedInsert _).mp hr with rfl | hr
      · exact hlt
      · exact hbehind r hr

/-- The parameters of a command stand in the order of their long keys. -/
theorem sorted_createParameters {fields : List FieldDescriptor} {cmd' : Command}
    (hsorted : cmd.params.Pairwise fun p q => p.longKey < q.longKey)
    (h : cmd.createParameters fields = .ok cmd') :
    cmd'.params.Pairwise fun p q => p.longKey < q.longKey := by
  induction fields generalizing cmd with
  | nil =>
    obtain rfl := Except.ok.inj h
    exact hsorted
  | cons f fields ih =>
    unfold Command.createParameters at h
    cases hp : f.param with
    | error e => simp [hp, Except.bind] at h
    | ok p =>
      simp only [hp, Except.bind] at h
      cases hadd : cmd.addParam p with
      | error e => simp [hadd] at h
      | ok cmd₁ =>
        simp only [hadd] at h
        refine ih ?_ h
        obtain ⟨hnew, -⟩ := addParam_ok hadd
        unfold Command.addParam at hadd
        split_ifs at hadd
        obtain rfl := Except.ok.inj hadd
        exact sorted_orderedInsert hsorted hnew

/-- A parameter that is required, while no option is for it. -/
def Command.Misses (cmd : Command) (options : List GivenOption) (p : Parameter) : Prop :=
  p ∈ cmd.params ∧ p.required ∧ givenFor cmd options p.index = []

theorem misses_iff {fields : List FieldDescriptor} {options : List GivenOption}
    {ops : List (ℕ × Bytes)} (hmade : Made fields cmd)
    (hops : resolve cmd.params options = some ops)
    (hrun : runAll (stepAt Parameter.setValue) ops cmd.params = .ok params') {i : ℕ}
    {p p' : Parameter}
    (hp : cmd.params[i]? = some p) (hp' : params'[i]? = some p') :
    p'.longKey = p.longKey ∧ (cmd.Misses options p ↔ p'.required ∧ p'.set = false) := by
  have htakes := (runAll_stepAt_iff.mp hrun).2 i p p' hp hp'
  rw [opsAt_eq_givenFor hmade.indices hops hp] at htakes
  obtain ⟨hkey, hrequired⟩ := runAll_setValue_required htakes
  obtain ⟨f, -, hparam⟩ := hmade.field p (List.mem_of_getElem? hp)
  refine ⟨hkey, ?_⟩
  unfold Command.Misses
  rw [hrequired, runAll_setValue_set htakes, param_set hparam,
    and_iff_right (List.mem_of_getElem? hp)]
  simp

/-- Of the options that are missing, the one with the first long key is reported. -/
theorem missing_iff {fields : List FieldDescriptor} {options : List GivenOption}
    {ops : List (ℕ × Bytes)} (hmade : Made fields cmd)
    (hsorted : cmd.params.Pairwise fun p q => p.longKey < q.longKey)
    (hops : resolve cmd.params options = some ops)
    (hrun : runAll (stepAt Parameter.setValue) ops cmd.params = .ok params') :
    Command.checkParamMissing params' = .error e ↔ ∃ p, cmd.Misses options p ∧
      (∀ q, cmd.Misses options q → p.longKey ≤ q.longKey) ∧ e = .required p.longKey := by
  have hlength := (runAll_stepAt_iff.mp hrun).1
  rw [checkParamMissing_error_iff]
  constructor
  · rintro ⟨before, p', behind, hsplit, hmissing, hbefore, rfl⟩
    have hi : params'[before.length]? = some p' := by simp [hsplit]
    have hrange : before.length < cmd.params.length := by
      rw [← hlength]
      exact (List.getElem?_eq_some_iff.mp hi).1
    have hp := List.getElem?_eq_getElem hrange
    obtain ⟨hkey, hmisses⟩ := misses_iff hmade hops hrun hp hi
    refine ⟨_, hmisses.mpr hmissing, fun q hq hlt => ?_, by rw [hkey]⟩
    -- one with a smaller key stands before
    obtain ⟨j, hj⟩ := List.mem_iff_getElem?.mp hq.1
    obtain ⟨hjrange, rfl⟩ := List.getElem?_eq_some_iff.mp hj
    have hjbefore : j < before.length := by
      by_contra hge
      rcases Nat.eq_or_lt_of_le (not_lt.mp hge) with heq | hgt
      · simp only [heq] at hlt
        exact List.lt_irrefl _ hlt
      · exact List.lt_asymm hlt (List.pairwise_iff_getElem.mp hsorted _ _ hrange hjrange hgt)
    have hj' : params'[j]? = some before[j] := by
      rw [hsplit, List.getElem?_append_left hjbefore, List.getElem?_eq_getElem hjbefore]
    exact hbefore _ (List.getElem_mem hjbefore) ((misses_iff hmade hops hrun hj hj').2.mp hq)
  · rintro ⟨p, hp, hfirst, rfl⟩
    obtain ⟨i, hi⟩ := List.mem_iff_getElem?.mp hp.1
    obtain ⟨hrange, rfl⟩ := List.getElem?_eq_some_iff.mp hi
    have hrange' : i < params'.length := by rwa [hlength]
    have hi' := List.getElem?_eq_getElem hrange'
    obtain ⟨hkey, hmisses⟩ := misses_iff hmade hops hrun hi hi'
    refine ⟨params'.take i, params'[i], params'.drop (i + 1), ?_, hmisses.mp hp,
      fun q hq hset => ?_,
      by rw [hkey]⟩
    · rw [List.getElem_cons_drop, List.take_append_drop]
    · obtain ⟨j, hj⟩ := List.mem_iff_getElem?.mp hq
      have hlt : j < i := by
        by_contra hge
        simp [hge] at hj
      rw [List.getElem?_take, if_pos hlt] at hj
      have hjrange : j < cmd.params.length := hlt.trans hrange
      have hmisses' := (misses_iff hmade hops hrun (List.getElem?_eq_getElem hjrange) hj).2.mpr hset
      exact hfirst _ hmisses' (List.pairwise_iff_getElem.mp hsorted _ _ hjrange hrange hlt)

/-! ### What is said about a command line -/

/-- A command line has a first option that offends behind options that are accepted, or else lacks
a required option, of which the first one is meant. -/
def Rejects (cmd : Command) (argv : List Bytes) (e : CliException) : Prop :=
  ∃ options ops params' rest, argv = options.flatMap GivenOption.elements ++ rest ∧
    resolve cmd.params options = some ops ∧
      runAll (stepAt Parameter.setValue) ops cmd.params = .ok params' ∧
        (Offends params' rest e ∨ rest = [] ∧ ∃ p, cmd.Misses options p ∧
          (∀ q, cmd.Misses options q → p.longKey ≤ q.longKey) ∧ e = .required p.longKey)

theorem parseParamValues_error_iff {fields : List FieldDescriptor} (hmade : Made fields cmd)
    (hsorted : cmd.params.Pairwise fun p q => p.longKey < q.longKey) :
    cmd.parseParamValues (cliElements argv) = .error e ↔ Rejects cmd argv e := by
  unfold Command.parseParamValues
  constructor
  · intro h
    cases hparse : Command.parseElements (cliElements argv) cmd.params with
    | error e' =>
      rw [hparse] at h
      obtain rfl := Except.error.inj h
      obtain ⟨options, ops, params', rest, hsplit, hops, hrun, hoffends⟩ :=
        parseElements_error_iff.mp hparse
      exact ⟨options, ops, params', rest, hsplit, hops, hrun, .inl hoffends⟩
    | ok params' =>
      obtain ⟨options, ops, hsplit, hops, hrun⟩ := parseElements_ok_iff.mp hparse
      have hmissing : Command.checkParamMissing params' = .error e := by
        rw [hparse] at h
        simp only [Except.bind] at h
        cases hcheck : Command.checkParamMissing params' with
        | error e' =>
          rw [hcheck] at h
          obtain rfl := Except.error.inj h
          rfl
        | ok u =>
          rw [hcheck] at h
          cases h
      exact ⟨options, ops, params', [], by rw [hsplit, List.append_nil], hops, hrun,
        .inr ⟨rfl, (missing_iff hmade hsorted hops hrun).mp hmissing⟩⟩
  · rintro ⟨options, ops, params', rest, rfl, hops, hrun, hoffends | ⟨rfl, hmissing⟩⟩
    · rw [parseElements_run hops hrun, parseElements_of_offends hoffends]
      rfl
    · have hparse : Command.parseElements (cliElements []) params' = .ok params' := rfl
      rw [parseElements_run hops hrun, hparse, Except.bind,
        (missing_iff hmade hsorted hops hrun).mpr hmissing]
      rfl

/-! ### Numbers beyond the type of their field -/

/-- A number within the bounds of its options that its field cannot hold. -/
def FieldDescriptor.Overflows (f : FieldDescriptor) (given : List Bytes) : Prop :=
  match f.type with
  | .int32 => ∃ n, f.DenotesNumber given n ∧ ¬ (INT32_MIN ≤ n ∧ n ≤ INT32_MAX)
  | .uint32 => ∃ n, f.DenotesNumber given n ∧ ¬ (0 ≤ n ∧ n ≤ UINT32_MAX)
  | _ => False

variable {fields : List FieldDescriptor} {f : FieldDescriptor} {p p' : Parameter}
  {given : List Bytes}

theorem parseToProtobuf_ne_error_of_kind (h : p'.kind = .flag ∨ (∃ e, p'.kind = .enum e) ∨
    ∃ s, p'.kind = .string s ∧ s.multipleValue = f.isRepeated) : p'.parseToProtobuf f ≠
      .error e := by
  unfold Parameter.parseToProtobuf
  rcases h with h | ⟨_, h⟩ | ⟨s, h, hmultiple⟩
  · simp [h]
  · simp [h]
  · cases hrepeated : f.isRepeated <;> simp [h, hmultiple, hrepeated]

/-- A field that takes its values fails on numbers that it cannot hold alone. -/
theorem overflows_iff (h : f.param = .ok p) :
    (∃ p', Takes p given p' ∧ p'.parseToProtobuf f = .error e) ↔
      e = .numberOutOfRange ∧ f.Overflows given := by
  have hnever : (∀ p', Takes p given p' → p'.kind = .flag ∨ (∃ e, p'.kind = .enum e) ∨
      ∃ s, p'.kind = .string s ∧ s.multipleValue = f.isRepeated) →
        ¬ ∃ p', Takes p given p' ∧ p'.parseToProtobuf f = .error e :=
    fun hkind ⟨p', htakes, herror⟩ => parseToProtobuf_ne_error_of_kind (hkind p' htakes) herror
  unfold FieldDescriptor.Overflows
  cases htype : f.type with
  | int32 =>
    rw [denotes_number (Q := fun n => e = .numberOutOfRange ∧ ¬ (INT32_MIN ≤ n ∧ n ≤ INT32_MAX))
      (by simp only [FieldDescriptor.typedParam, htype]) h]
    · simp only [← exists_and_left]
      exact exists_congr fun n => and_left_comm
    · intro p' n' hkind
      simp only [Parameter.parseToProtobuf, hkind, htype]
      split_ifs with hrange <;> simp [hrange, eq_comm]
  | uint32 =>
    rw [denotes_number (Q := fun n => e = .numberOutOfRange ∧ ¬ (0 ≤ n ∧ n ≤ UINT32_MAX))
      (by simp only [FieldDescriptor.typedParam, htype]) h]
    · simp only [← exists_and_left]
      exact exists_congr fun n => and_left_comm
    · intro p' n' hkind
      simp only [Parameter.parseToProtobuf, hkind, htype]
      split_ifs with hrange <;> simp [hrange, eq_comm]
  | int64 =>
    rw [denotes_number (Q := fun _ => False) (by simp only [FieldDescriptor.typedParam, htype]) h]
    · simp
    · intro p' n' hkind
      simp [Parameter.parseToProtobuf, hkind, htype]
  | string =>
    obtain ⟨ops, s, -, hkind, hsound, hmultiple, -, -, hset, -⟩ :=
      param_string (by simp only [FieldDescriptor.typedParam, htype]) h
    rw [and_false, iff_false]
    refine hnever fun p' htakes => .inr (.inr ?_)
    rcases (takes_string_iff hkind hset hsound).mp htakes with ⟨-, -, rfl⟩ | ⟨text, -, -, rfl⟩
    · exact ⟨s, hkind, hmultiple⟩
    · exact ⟨_, rfl, hmultiple⟩
  | bool =>
    obtain ⟨hkind, hset, -⟩ := param_flag (by simp only [FieldDescriptor.typedParam, htype]) h
    rw [and_false, iff_false]
    refine hnever fun p' htakes => .inl ?_
    obtain ⟨-, rfl⟩ := (takes_flag_iff hkind hset).mp htakes
    exact hkind
  | enum enum_type =>
    have htyped : f.typedParam = f.enumParam enum_type := by
      simp only [FieldDescriptor.typedParam, htype]
    obtain ⟨_, hkind, -, -, -, hrequired⟩ := param_enum htyped h
    rw [and_false, iff_false]
    refine hnever fun p' htakes => .inr (.inl ?_)
    obtain ⟨-, rfl⟩ := (takes_enum_iff hkind hrequired).mp htakes
    exact ⟨_, rfl⟩
  | other =>
    obtain ⟨q, hq, -⟩ := param_eq_ok_iff.mp h
    simp [FieldDescriptor.typedParam, htype] at hq

theorem exists_field_of_error (h : cmd.parseToProtobuf fields = .error e)
    (hparam : ∀ f ∈ fields, ∃ p, cmd.getParamByIndex f.number = .ok p) :
    ∃ f ∈ fields, ∃ p, cmd.getParamByIndex f.number = .ok p ∧ p.parseToProtobuf f = .error e := by
  induction fields with
  | nil => cases h
  | cons f fields ih =>
    obtain ⟨p, hp⟩ := hparam f List.mem_cons_self
    unfold Command.parseToProtobuf at h
    simp only [hp, Except.bind] at h
    cases hv : p.parseToProtobuf f with
    | error e' =>
      rw [hv] at h
      obtain rfl := Except.error.inj h
      exact ⟨f, List.mem_cons_self, p, hp, hv⟩
    | ok v =>
      simp only [hv] at h
      cases hrest : cmd.parseToProtobuf fields with
      | error e' =>
        rw [hrest] at h
        obtain rfl := Except.error.inj h
        obtain ⟨g, hg, herror⟩ := ih hrest fun g hg => hparam g (List.mem_cons_of_mem _ hg)
        exact ⟨g, List.mem_cons_of_mem _ hg, herror⟩
      | ok values =>
        rw [hrest] at h
        cases h

/-- Options that are accepted, of which some hold a number beyond the type of its field. -/
def Escapes (fields : List FieldDescriptor) (cmd : Command) (argv : List Bytes) : Prop :=
  ∃ options, argv = options.flatMap GivenOption.elements ∧ (∀ o ∈ options, (o.field cmd).isSome) ∧
    (∀ f ∈ fields, (∃ value, f.Denotes (givenFor cmd options f.number) value) ∨
      f.Overflows (givenFor cmd options f.number)) ∧
        ∃ f ∈ fields, f.Overflows (givenFor cmd options f.number)

theorem parseToProtobuf_error_iff (hmade : Made fields cmd) :
    (∃ cmd', cmd.parseParamValues (cliElements argv) = .ok cmd' ∧
      cmd'.parseToProtobuf fields = .error e) ↔ e = .numberOutOfRange ∧
        Escapes fields cmd argv := by
  constructor
  · rintro ⟨cmd', hparse, herror⟩
    obtain ⟨options, hsplit, hnamed, htaken⟩ := exists_options hmade hparse
    obtain ⟨f, hf, p', hindex, hfails⟩ := exists_field_of_error herror fun f hf => by
      obtain ⟨-, p', -, -, hindex⟩ := htaken f hf
      exact ⟨p', hindex⟩
    obtain ⟨p, q, hparam, htakes, hq⟩ := htaken f hf
    obtain rfl := Except.ok.inj (hindex.symm.trans hq)
    obtain ⟨hrange, hover⟩ := (overflows_iff hparam).mp ⟨p', htakes, hfails⟩
    refine ⟨hrange, options, hsplit, hnamed, fun g hg => ?_, f, hf, hover⟩
    obtain ⟨p, p', hparam, htakes, -⟩ := htaken g hg
    cases hvalue : p'.parseToProtobuf g with
    | ok value => exact .inl ⟨value, (denotes_iff hparam).mp ⟨p', htakes, hvalue⟩⟩
    | error e' => exact .inr ((overflows_iff hparam).mp ⟨p', htakes, hvalue⟩).2
  · rintro ⟨rfl, options, rfl, hnamed, hall, f, hf, hover⟩
    obtain ⟨cmd', hparse⟩ := exists_parsed hmade hnamed fun g hg p hparam => by
      rcases hall g hg with ⟨value, hvalue⟩ | hover
      · obtain ⟨p', htakes, -⟩ := (denotes_iff hparam).mpr hvalue
        exact ⟨p', htakes⟩
      · obtain ⟨p', htakes, -⟩ := (overflows_iff hparam).mpr ⟨rfl, hover⟩
        exact ⟨p', htakes⟩
    refine ⟨cmd', hparse, ?_⟩
    obtain ⟨read, hread, hreadNamed, htaken⟩ := exists_options hmade hparse
    obtain rfl := options_unique hread hnamed hreadNamed
    cases hmessage : cmd'.parseToProtobuf fields with
    | error e =>
      -- all the fields that fail say the same
      obtain ⟨g, hg, q, hq, hfails⟩ := exists_field_of_error hmessage fun g hg => by
        obtain ⟨-, p', -, -, hindex⟩ := htaken g hg
        exact ⟨p', hindex⟩
      obtain ⟨p, p', hparam, htakes, hindex⟩ := htaken g hg
      obtain rfl := Except.ok.inj (hindex.symm.trans hq)
      rw [((overflows_iff hparam).mp ⟨p', htakes, hfails⟩).1]
    | ok message =>
      obtain ⟨value, q, hq, hholds⟩ := exists_of_forall₂ (parseToProtobuf_ok_iff.mp hmessage) hf
      obtain ⟨p, p', hparam, htakes, hindex⟩ := htaken f hf
      obtain rfl := Except.ok.inj (hindex.symm.trans hq)
      obtain ⟨p'', htakes', hfails⟩ := (overflows_iff hparam).mpr ⟨rfl, hover⟩
      obtain rfl := Except.ok.inj (htakes.1.symm.trans htakes'.1)
      rw [hholds] at hfails
      cases hfails

/-! ### What an application says -/

variable {ex : Executor} {nodes : Nodes} {interface : ServiceDescriptor} {method : MethodDescriptor}
  {iCmd : ICommand} {registrations : List Registration}

/-- A method is not called, and its help is shown with an error, exactly when help is not asked for
and the command line is rejected with that error. -/
theorem rejected_iff (h : Executor.addModules registrations Executor.new = .ok ex)
    (hlocal : ∀ moduleId, .remote moduleId ∉ registrations) (hshadow : ex.NoShadow)
    (hinterface : .interface interface ∈ registrations) (hmethod : method ∈ interface.methods)
    (hkey : interface.opts_interface.cli_long_key ≠ [] →
      isLongKeyValid interface.opts_interface.cli_long_key)
    (hnumbers : (method.input_type.map (·.number)).Nodup)
    (hcmd : CommandProtobufLocal interface method = .ok iCmd) (program : Bytes)
    (argv : List Bytes) :
    ex.execute nodes (program :: (interface.address method ++ argv)) = .ok (.parseError e iCmd) ↔
      CLIList.hasHelp (cliElements argv) = false ∧ Rejects iCmd.toCommand argv e := by
  obtain ⟨cmd', hcmd', hexecute⟩ :=
    execute_address nodes h hlocal hshadow hinterface hmethod hkey
  obtain rfl := Except.ok.inj (hcmd.symm.trans hcmd')
  obtain ⟨-, -, ⟨htarget, -⟩, hcreated⟩ := commandProtobufLocal_ok hcmd
  have hmade := made_of_createParameters hnumbers rfl hcreated
  have hsorted := sorted_createParameters List.Pairwise.nil hcreated
  rw [hexecute, ← parseParamValues_error_iff hmade hsorted]
  unfold executeCommand
  by_cases hasHelp : CLIList.hasHelp (cliElements argv)
  · simp [hasHelp]
  rw [if_neg hasHelp]
  cases iCmd.parseParamValues (cliElements argv) with
  | error e' => simp [hasHelp]
  | ok parsed =>
    simp only [htarget]
    cases parsed.parseToProtobuf iCmd.inputDesc <;> simp

theorem rejected_iff_parseTrace : traceParser.execute ⟨[], fun _ => none⟩
        ("octf".toUTF8.toList :: (InterfaceTraceParsing.address ParseTrace ++ [])) =
      .ok (.parseError (.required "path".toUTF8.toList) parseCommand) ↔
    CLIList.hasHelp (cliElements []) = false ∧
      Rejects parseCommand.toCommand [] (.required "path".toUTF8.toList) :=
  rejected_iff addModules_traceParser (by simp) noShadow_traceParser List.mem_cons_self
    List.mem_cons_self (fun _ => isLongKeyValid_traceParser)
      (by decide) commandProtobufLocal_parseCommand _ _

/-- An exception leaves the execution of a method exactly when a number is within the bounds of its
option and beyond the type of its field. -/
theorem escapes_iff {x : ExecutorException}
    (h : Executor.addModules registrations Executor.new = .ok ex)
    (hlocal : ∀ moduleId, .remote moduleId ∉ registrations) (hshadow : ex.NoShadow)
    (hinterface : .interface interface ∈ registrations) (hmethod : method ∈ interface.methods)
    (hkey : interface.opts_interface.cli_long_key ≠ [] →
      isLongKeyValid interface.opts_interface.cli_long_key)
    (hnumbers : (method.input_type.map (·.number)).Nodup)
    (hcmd : CommandProtobufLocal interface method = .ok iCmd) (program : Bytes)
    (argv : List Bytes) :
    ex.execute nodes (program :: (interface.address method ++ argv)) = .error x ↔
      x = .parameter .numberOutOfRange ∧ CLIList.hasHelp (cliElements argv) = false ∧
        Escapes method.input_type iCmd.toCommand argv := by
  obtain ⟨cmd', hcmd', hexecute⟩ :=
    execute_address nodes h hlocal hshadow hinterface hmethod hkey
  obtain rfl := Except.ok.inj (hcmd.symm.trans hcmd')
  obtain ⟨-, -, ⟨htarget, hinput⟩, hcreated⟩ := commandProtobufLocal_ok hcmd
  have hmade := made_of_createParameters hnumbers rfl hcreated
  have hiff : ∀ e, (∃ cmd', iCmd.parseParamValues (cliElements argv) = .ok cmd' ∧
      cmd'.parseToProtobuf method.input_type = .error e) ↔
        e = .numberOutOfRange ∧ Escapes method.input_type iCmd.toCommand argv :=
    fun e => parseToProtobuf_error_iff hmade
  rw [hexecute]
  unfold executeCommand
  by_cases hasHelp : CLIList.hasHelp (cliElements argv)
  · simp [hasHelp]
  rw [if_neg hasHelp]
  cases hparse : iCmd.parseParamValues (cliElements argv) with
  | error e' =>
    have hnot : ¬ Escapes method.input_type iCmd.toCommand argv := by
      simpa [hparse] using hiff .numberOutOfRange
    simp [hnot]
  | ok parsed =>
    simp only [hparse, Except.ok.injEq, exists_eq_left'] at hiff
    simp only [htarget, hinput]
    cases hmessage : parsed.parseToProtobuf method.input_type with
    | error e' =>
      obtain ⟨rfl, hescapes⟩ := (hiff e').mp hmessage
      simp [hasHelp, hescapes, eq_comm]
    | ok message =>
      have hnot : ¬ Escapes method.input_type iCmd.toCommand argv := fun hescapes => by
        have := (hiff .numberOutOfRange).mpr ⟨rfl, hescapes⟩
        rw [hmessage] at this
        cases this
      simp [hnot]

theorem escapes_iff_parseTrace : traceParser.execute ⟨[], fun _ => none⟩
        ("octf".toUTF8.toList :: (InterfaceTraceParsing.address ParseTrace ++ [])) =
      .error (.parameter .numberOutOfRange) ↔
    ExecutorException.parameter .numberOutOfRange = .parameter .numberOutOfRange ∧
      CLIList.hasHelp (cliElements []) = false ∧
        Escapes ParseTrace.input_type parseCommand.toCommand [] :=
  escapes_iff addModules_traceParser (by simp) noShadow_traceParser List.mem_cons_self
    List.mem_cons_self (fun _ => isLongKeyValid_traceParser)
      (by decide) commandProtobufLocal_parseCommand _ _

end Octf.Cli
