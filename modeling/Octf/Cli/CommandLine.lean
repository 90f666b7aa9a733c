import Octf.Cli.Denotation

/-! A command line and the message that is made of it. -/
namespace Octf.Cli
open Foundation
open Octf.Utils (Bytes)

variable {fields : List FieldDescriptor} {cmd cmd' : Command} {f : FieldDescriptor}
  {p p' : Parameter}

/-! ### The parameters of a command -/

theorem lt_or_lt_of_ne {key key' : Bytes} (h : key ≠ key') : key < key' ∨ key' < key :=
  (Std.Trichotomous.rel_or_eq_or_rel_swap (r := (· < · : Bytes → Bytes → Prop))).imp_right
    fun hor => hor.resolve_left h

theorem addParam_ok (h : cmd.addParam p = .ok cmd') :
    (∀ q ∈ cmd.params, q.longKey ≠ p.longKey) ∧ cmd'.params.Perm (p :: cmd.params) := by
  unfold Command.addParam at h
  split_ifs at h with hany
  obtain rfl := Except.ok.inj h
  refine ⟨fun q hq heq => hany (List.any_eq_true.mpr ⟨q, hq, by simpa using heq⟩), ?_⟩
  exact List.perm_orderedInsert _ _ _

/-- The parameters are those of the fields, and no two have the same long key. -/
theorem createParameters_ok (h : cmd.createParameters fields = .ok cmd') :
    ∃ created : List Parameter, fields.map FieldDescriptor.param = created.map .ok ∧
      cmd'.params.Perm (created.reverse ++ cmd.params) ∧
        ((cmd.params.map (·.longKey)).Nodup → (cmd'.params.map (·.longKey)).Nodup) := by
  induction fields generalizing cmd with
  | nil =>
    obtain rfl := Except.ok.inj h
    exact ⟨[], rfl, .refl _, id⟩
  | cons f fields ih =>
    unfold Command.createParameters at h
    cases hp : f.param with
    | error e =>
      rw [hp] at h
      cases h
    | ok p =>
      simp only [hp, Except.bind] at h
      cases hadd : cmd.addParam p with
      | error e =>
        rw [hadd] at h
        cases h
      | ok cmd₁ =>
        simp only [hadd] at h
        obtain ⟨hnew, hperm⟩ := addParam_ok hadd
        obtain ⟨created, hcreated, hperm', hnodup⟩ := ih h
        refine ⟨p :: created, by rw [List.map_cons, hp, hcreated]; rfl, ?_, fun hkeys => hnodup ?_⟩
        · rw [List.reverse_cons, List.append_assoc, List.singleton_append]
          exact hperm'.trans (hperm.append_left _)
        · refine ((hperm.map _).nodup_iff).mpr (List.nodup_cons.mpr ⟨?_, hkeys⟩)
          rintro hmem
          obtain ⟨q, hq, heq⟩ := List.mem_map.mp hmem
          exact hnew q hq heq

theorem createParameters_keys (h : cmd.createParameters fields = .ok cmd') :
    cmd'.shortKey = cmd.shortKey ∧ cmd'.longKey = cmd.longKey := by
  induction fields generalizing cmd with
  | nil =>
    obtain rfl := Except.ok.inj h
    exact ⟨rfl, rfl⟩
  | cons f fields ih =>
    unfold Command.createParameters at h
    cases hp : f.param with
    | error e =>
      rw [hp] at h
      cases h
    | ok p =>
      simp only [hp, Except.bind] at h
      unfold Command.addParam at h
      split_ifs at h
      obtain ⟨hshort, hlong⟩ := ih h
      exact ⟨hshort, hlong⟩

/-- The parameters of a command that was made for the fields of a message. -/
structure Made (fields : List FieldDescriptor) (cmd : Command) : Prop where
  field : ∀ p ∈ cmd.params, ∃ f ∈ fields, f.param = .ok p
  param : ∀ f ∈ fields, ∃ p ∈ cmd.params, f.param = .ok p
  indices : (cmd.params.map (·.index)).Nodup

theorem made_of_createParameters (hnumbers : (fields.map (·.number)).Nodup)
    (hempty : cmd.params = []) (h : cmd.createParameters fields = .ok cmd') : Made fields cmd' := by
  obtain ⟨created, hcreated, hreverse, -⟩ := createParameters_ok h
  have hperm : cmd'.params.Perm created := by
    rw [hempty, List.append_nil] at hreverse
    exact hreverse.trans created.reverse_perm
  have hindices : created.map (·.index) = fields.map (·.number) := by
    clear hperm hreverse h hnumbers hempty
    induction fields generalizing created with
    | nil =>
      cases List.map_eq_nil_iff.mp hcreated.symm
      rfl
    | cons f fields ih =>
      obtain ⟨p, created, rfl⟩ := List.exists_cons_of_ne_nil (l := created)
        (by rintro rfl; cases hcreated)
      obtain ⟨hp, hcreated⟩ := List.cons.inj hcreated
      rw [List.map_cons, List.map_cons, param_index hp, ih created hcreated]
  refine ⟨fun p hp => ?_, fun f hf => ?_, ?_⟩
  · have hmem : (.ok p : Except CliException Parameter) ∈ fields.map FieldDescriptor.param := by
      rw [hcreated]
      exact List.mem_map_of_mem (hperm.mem_iff.mp hp)
    obtain ⟨f, hf, hparam⟩ := List.mem_map.mp hmem
    exact ⟨f, hf, hparam⟩
  · have hmem : f.param ∈ created.map .ok := hcreated ▸ List.mem_map_of_mem hf
    obtain ⟨p, hp, hparam⟩ := List.mem_map.mp hmem
    exact ⟨p, hperm.mem_iff.mpr hp, hparam.symm⟩
  · rw [(hperm.map _).nodup_iff, hindices]
    exact hnumbers

/-! ### The values given for a field -/

/-- The number of the field that an option is for. -/
def GivenOption.field (cmd : Command) (o : GivenOption) : Option ℤ :=
  (o.place cmd.params).bind fun i => cmd.params[i]?.map (·.index)

/-- The values that options give for a field, in their order. -/
def givenFor (cmd : Command) (options : List GivenOption) (number : ℤ) : List Bytes :=
  options.filterMap fun o => if o.field cmd = some number then some (o.value.getD []) else none

theorem getElem?_of_place {o : GivenOption} {i : ℕ} (h : o.place cmd.params = some i) :
    ∃ p, cmd.params[i]? = some p ∧ o.field cmd = some p.index := by
  obtain ⟨-, p, hfirst, -⟩ := place_eq_some_iff.mp h
  have hp := firstNamed_eq_some hfirst
  exact ⟨p, hp, by simp [GivenOption.field, h, hp]⟩

theorem exists_resolve_iff {options : List GivenOption} :
    (∃ ops, resolve cmd.params options = some ops) ↔ ∀ o ∈ options, (o.field cmd).isSome := by
  induction options with
  | nil => simp [resolve]
  | cons o options ih =>
    rw [List.forall_mem_cons, ← ih, resolve]
    cases ho : o.place cmd.params with
    | none => simp [GivenOption.field, ho]
    | some i =>
      obtain ⟨p, -, hfield⟩ := getElem?_of_place ho
      simp [hfield]

theorem opsAt_eq_givenFor (hindices : (cmd.params.map (·.index)).Nodup)
    {options : List GivenOption} {ops : List (ℕ × Bytes)}
    (h : resolve cmd.params options = some ops) {i : ℕ} (hp : cmd.params[i]? = some p) :
    opsAt i ops = givenFor cmd options p.index := by
  induction options generalizing ops with
  | nil =>
    obtain rfl := Option.some.inj h
    rfl
  | cons o options ih =>
    obtain ⟨j, hj, hrest⟩ := Option.bind_eq_some_iff.mp h
    obtain ⟨ops, hops, rfl⟩ := Option.map_eq_some_iff.mp hrest
    obtain ⟨q, hq, hfield⟩ := getElem?_of_place hj
    have hsame : j = i ↔ q.index = p.index := by
      constructor
      · rintro rfl
        rw [Option.some.inj (hq.symm.trans hp)]
      · intro hindex
        have hj' : (cmd.params.map (·.index))[j]? = some q.index := by simp [hq]
        have hi' : (cmd.params.map (·.index))[i]? = some q.index := by simp [hp, hindex]
        exact (List.getElem?_inj (List.getElem?_eq_some_iff.mp hj').1 hindices).mp
          (hj'.trans hi'.symm)
    rw [opsAt_cons, givenFor, List.filterMap_cons, hfield, ih ‹_›]
    by_cases hindex : q.index = p.index
    · rw [if_pos (hsame.mpr hindex), hindex]
      simp [givenFor]
    · rw [if_neg (hindex ∘ hsame.mp)]
      simp [hindex, givenFor]

/-! ### Parsing and the message -/

theorem parseParamValues_ok_iff {cliList : CLIList} :
    cmd.parseParamValues cliList = .ok cmd' ↔
      ∃ params, Command.parseElements cliList cmd.params = .ok params ∧
        (∀ p ∈ params, ¬ (p.required ∧ p.set = false)) ∧ cmd' = { cmd with params } := by
  unfold Command.parseParamValues
  cases Command.parseElements cliList cmd.params with
  | error e => simp [Except.bind]
  | ok params =>
    simp only [Except.bind, Except.ok.injEq, exists_eq_left']
    unfold Command.checkParamMissing
    cases hfind : params.find? fun p => p.required && !p.set with
    | none =>
      have hall := List.find?_eq_none.mp hfind
      simp only [Except.map, Except.ok.injEq]
      constructor
      · rintro rfl
        exact ⟨fun p hp => by simpa using hall p hp, rfl⟩
      · rintro ⟨-, rfl⟩
        rfl
    | some p =>
      have hmissing := List.find?_some hfind
      constructor
      · exact fun h => nomatch h
      rintro ⟨hall, -⟩
      exact (hall p (List.mem_of_find?_eq_some hfind) (by simpa using hmissing)).elim

theorem getParamByIndex_ok_iff (hindices : (cmd.params.map (·.index)).Nodup) {number : ℤ} :
    cmd.getParamByIndex number = .ok p ↔ p ∈ cmd.params ∧ p.index = number := by
  unfold Command.getParamByIndex
  constructor
  · intro h
    cases hfind : cmd.params.find? fun p => decide (p.index = number) with
    | none =>
      rw [hfind] at h
      cases h
    | some q =>
      simp only [hfind] at h
      obtain rfl := Except.ok.inj h
      exact ⟨List.mem_of_find?_eq_some hfind, by simpa using List.find?_some hfind⟩
  · rintro ⟨hp, rfl⟩
    cases hfind : cmd.params.find? fun q => decide (q.index = p.index) with
    | none => simpa using List.find?_eq_none.mp hfind p hp
    | some q =>
      have hindex : q.index = p.index := by simpa using List.find?_some hfind
      have heq := List.inj_on_of_nodup_map hindices (List.mem_of_find?_eq_some hfind) hp hindex
      simp [heq]

theorem parseToProtobuf_ok_iff {message : Message} :
    cmd.parseToProtobuf fields = .ok message ↔ List.Forall₂ (fun f value =>
      ∃ p, cmd.getParamByIndex f.number = .ok p ∧ p.parseToProtobuf f = .ok value) fields
        message := by
  induction fields generalizing message with
  | nil =>
    rw [List.forall₂_nil_left_iff]
    exact ⟨fun h => (Except.ok.inj h).symm, fun h => by rw [h]; rfl⟩
  | cons f fields ih =>
    rw [List.forall₂_cons_left_iff]
    unfold Command.parseToProtobuf
    cases hp : cmd.getParamByIndex f.number with
    | error e => simp [Except.bind]
    | ok p =>
      cases hv : p.parseToProtobuf f with
      | error e => simp [Except.bind, hv]
      | ok v =>
        simp only [Except.bind, hv, Except.ok.injEq, exists_eq_left', ← ih]
        cases cmd.parseToProtobuf fields with
        | error e => simp [Except.map]
        | ok values => simp [Except.map, eq_comm]

theorem runAll_setValue_signature {ops : List (ℕ × Bytes)} {params params' : List Parameter}
    (h : runAll (stepAt Parameter.setValue) ops params = .ok params') :
    params'.map Parameter.signature = params.map Parameter.signature := by
  refine runAll_invariant (P := fun s => s.map Parameter.signature = params.map Parameter.signature)
    (fun op s s' hs hsig => ?_) h rfl
  unfold stepAt at hs
  cases hp : s[op.1]? with
  | none =>
    rw [hp] at hs
    obtain rfl := Except.ok.inj hs
    exact hsig
  | some p =>
    simp only [hp] at hs
    cases hset : p.setValue op.2 with
    | error e =>
      rw [hset] at hs
      cases hs
    | ok p' =>
      rw [hset] at hs
      obtain rfl := Except.ok.inj hs
      exact (signature_set hp (Parameter.setValue_ok hset).1).trans hsig

/-- The parameter of a field after the options were taken. -/
theorem exists_after {options : List GivenOption} {ops : List (ℕ × Bytes)} {params : List Parameter}
    (hmade : Made fields cmd) (hops : resolve cmd.params options = some ops)
    (hrun : runAll (stepAt Parameter.setValue) ops cmd.params = .ok params) (hf : f ∈ fields) :
    ∃ p p', f.param = .ok p ∧ p' ∈ params ∧
      runAll Parameter.setValue (givenFor cmd options f.number) p = .ok p' ∧
        Command.getParamByIndex f.number { cmd with params } = .ok p' := by
  obtain ⟨p, hp, hparam⟩ := hmade.param f hf
  obtain ⟨i, hi⟩ := List.mem_iff_getElem?.mp hp
  obtain ⟨hlength, hall⟩ := runAll_stepAt_iff.mp hrun
  have hrange : i < params.length := hlength ▸ (List.getElem?_eq_some_iff.mp hi).1
  have hi' : params[i]? = some params[i] := List.getElem?_eq_getElem hrange
  have hmem : params[i] ∈ params := List.getElem_mem hrange
  have hsig := runAll_setValue_signature hrun
  have hindices : params.map (·.index) = cmd.params.map (·.index) := by
    have := congrArg (List.map fun s => s.2.2.2.1) hsig
    simpa [List.map_map, Function.comp_def, Parameter.signature] using this
  have hindex : params[i].index = f.number := by
    have := congrArg (fun l => l[i]?) hindices
    simp only [List.getElem?_map, hi, hi', Option.map_some, Option.some.injEq] at this
    rw [this, param_index hparam]
  refine ⟨p, params[i], hparam, hmem, ?_, ?_⟩
  · rw [← param_index hparam, ← opsAt_eq_givenFor hmade.indices hops hi]
    exact hall i p _ hi hi'
  · exact (getParamByIndex_ok_iff (by rw [hindices]; exact hmade.indices)).mpr ⟨hmem, hindex⟩

theorem exists_of_forall₂ {α β : Type*} {R : α → β → Prop} {l : List α} {l' : List β}
    (h : List.Forall₂ R l l') {a : α} (ha : a ∈ l) : ∃ b, R a b := by
  induction h with
  | nil => cases ha
  | cons hab _ ih =>
    rcases List.mem_cons.mp ha with rfl | ha
    · exact ⟨_, hab⟩
    · exact ih ha

theorem message_ok_iff {cliList : CLIList} {message : Message} :
    cmd.message fields cliList = .ok message ↔
      ∃ cmd', cmd.parseParamValues cliList = .ok cmd' ∧
        cmd'.parseToProtobuf fields = .ok message := by
  unfold Command.message
  cases cmd.parseParamValues cliList <;> simp [Except.bind]

/-- What is accepted is options of the fields, each with values that its parameter takes. -/
theorem exists_options {argv : List Bytes} (hmade : Made fields cmd)
    (h : cmd.parseParamValues (cliElements argv) = .ok cmd') :
    ∃ options, argv = options.flatMap GivenOption.elements ∧ (∀ o ∈ options, (o.field cmd).isSome) ∧
      ∀ f ∈ fields, ∃ p p', f.param = .ok p ∧ Takes p (givenFor cmd options f.number) p' ∧
        cmd'.getParamByIndex f.number = .ok p' := by
  obtain ⟨params, helements, hrequired, rfl⟩ := parseParamValues_ok_iff.mp h
  obtain ⟨options, ops, rfl, hops, hrun⟩ := parseElements_ok_iff.mp helements
  refine ⟨options, rfl, exists_resolve_iff.mp ⟨ops, hops⟩, fun f hf => ?_⟩
  obtain ⟨p, p', hparam, hmem, htakes, hindex⟩ := exists_after hmade hops hrun hf
  exact ⟨p, p', hparam, ⟨htakes, hrequired p' hmem⟩, hindex⟩

theorem exists_parsed {options : List GivenOption} (hmade : Made fields cmd)
    (hnamed : ∀ o ∈ options, (o.field cmd).isSome)
    (htakes : ∀ f ∈ fields, ∀ p, f.param = .ok p →
      ∃ p', Takes p (givenFor cmd options f.number) p') :
    ∃ cmd', cmd.parseParamValues (cliElements (options.flatMap GivenOption.elements)) =
      .ok cmd' := by
  obtain ⟨ops, hops⟩ := exists_resolve_iff.mpr hnamed
  have htaken : ∀ i p, cmd.params[i]? = some p → ∃ p', Takes p (opsAt i ops) p' := by
    intro i p hp
    obtain ⟨f, hf, hparam⟩ := hmade.field p (List.mem_of_getElem? hp)
    rw [opsAt_eq_givenFor hmade.indices hops hp, param_index hparam]
    exact htakes f hf p hparam
  obtain ⟨params, hrun⟩ := exists_runAll_stepAt fun i p hp => (htaken i p hp).imp fun p' => And.left
  refine ⟨{ cmd with params }, parseParamValues_ok_iff.mpr ⟨params, ?_, fun p' hp' => ?_, rfl⟩⟩
  · exact parseElements_ok_iff.mpr ⟨options, ops, rfl, hops, hrun⟩
  · obtain ⟨hlength, hall⟩ := runAll_stepAt_iff.mp hrun
    obtain ⟨i, hi⟩ := List.mem_iff_getElem?.mp hp'
    have hi' := List.getElem?_eq_getElem (hlength ▸ (List.getElem?_eq_some_iff.mp hi).1)
    obtain ⟨p'', hruns, hset⟩ := htaken i _ hi'
    obtain rfl := Except.ok.inj (hruns.symm.trans (hall i _ p' hi' hi))
    exact hset

/-- A command line is read as options in one way. -/
theorem options_unique {options options' : List GivenOption}
    (h : options.flatMap GivenOption.elements = options'.flatMap GivenOption.elements)
    (hnamed : ∀ o ∈ options, (o.field cmd).isSome)
    (hnamed' : ∀ o ∈ options', (o.field cmd).isSome) : options = options' := by
  have hvalue : ∀ o : GivenOption, (o.field cmd).isSome →
      ∃ i p, Command.firstNamed o.name cmd.params = some (i, p) ∧ p.hasValue = o.value.isSome := by
    intro o ho
    obtain ⟨number, hnumber⟩ := Option.isSome_iff_exists.mp ho
    obtain ⟨i, hi, -⟩ := Option.bind_eq_some_iff.mp hnumber
    obtain ⟨-, p, hfirst, hp⟩ := place_eq_some_iff.mp hi
    exact ⟨i, p, hfirst, hp⟩
  induction options generalizing options' with
  | nil =>
    cases options' with
    | nil => rfl
    | cons o' options' => simp [GivenOption.elements] at h
  | cons o options ih =>
    cases options' with
    | nil => simp [GivenOption.elements] at h
    | cons o' options' =>
      obtain ⟨key, value⟩ := o
      obtain ⟨key', value'⟩ := o'
      simp only [List.flatMap_cons, GivenOption.elements, List.cons_append, List.cons.injEq] at h
      obtain ⟨rfl, h⟩ := h
      obtain ⟨i, p, hfirst, hp⟩ := hvalue _ (hnamed _ List.mem_cons_self)
      obtain ⟨i', p', hfirst', hp'⟩ := hvalue _ (hnamed' _ List.mem_cons_self)
      -- the same key has the same parameter, which takes a value or does not
      obtain ⟨-, rfl⟩ := Prod.mk.inj (Option.some.inj (hfirst.symm.trans hfirst'))
      have hsome : value.isSome = value'.isSome := hp.symm.trans hp'
      have hrest : options.flatMap GivenOption.elements = options'.flatMap GivenOption.elements →
          options = options' := fun h =>
        ih h (fun o ho => hnamed o (List.mem_cons_of_mem _ ho))
          fun o ho => hnamed' o (List.mem_cons_of_mem _ ho)
      cases value with
      | none =>
        cases value' with
        | none => rw [hrest (by simpa using h)]
        | some v' => cases hsome
      | some v =>
        cases value' with
        | none => cases hsome
        | some v' =>
          simp only [Option.toList_some, List.cons_append, List.nil_append, List.cons.injEq] at h
          rw [h.1, hrest h.2]

/-- The command lines that a command for a message accepts, and the messages that come of them:
options of the fields in any order, whose values for each field denote what it holds. -/
theorem commandLine_iff {argv : List Bytes} {message : Message} (hmade : Made fields cmd) :
    cmd.message fields (cliElements argv) = .ok message ↔
      ∃ options, argv = options.flatMap GivenOption.elements ∧
        (∀ o ∈ options, (o.field cmd).isSome) ∧
          List.Forall₂ (fun f value => f.Denotes (givenFor cmd options f.number) value)
            fields message := by
  rw [message_ok_iff]
  constructor
  · rintro ⟨cmd', hparse, hmessage⟩
    obtain ⟨options, hsplit, hnamed, htaken⟩ := exists_options hmade hparse
    refine ⟨options, hsplit, hnamed, ?_⟩
    have hvalues := (List.forall₂_and_left (p := (· ∈ fields)) _ _).mpr
      ⟨fun _ hf => hf, parseToProtobuf_ok_iff.mp hmessage⟩
    refine hvalues.imp fun f value ⟨hf, q, hq, hholds⟩ => ?_
    obtain ⟨p, p', hparam, htakes, hindex⟩ := htaken f hf
    obtain rfl := Except.ok.inj (hindex.symm.trans hq)
    exact (denotes_iff hparam).mp ⟨p', htakes, hholds⟩
  · rintro ⟨options, rfl, hnamed, hdenotes⟩
    obtain ⟨cmd', hparse⟩ := exists_parsed hmade hnamed fun f hf p hparam => by
      obtain ⟨value, hvalue⟩ := exists_of_forall₂ hdenotes hf
      obtain ⟨p', htakes, -⟩ := (denotes_iff hparam).mpr hvalue
      exact ⟨p', htakes⟩
    refine ⟨cmd', hparse, parseToProtobuf_ok_iff.mpr ?_⟩
    obtain ⟨read, hread, hreadNamed, htaken⟩ := exists_options hmade hparse
    obtain rfl := options_unique hread hnamed hreadNamed
    have hvalues := (List.forall₂_and_left (p := (· ∈ fields)) _ _).mpr ⟨fun _ hf => hf, hdenotes⟩
    refine hvalues.imp fun f value ⟨hf, hvalue⟩ => ?_
    obtain ⟨p, p', hparam, htakes, hindex⟩ := htaken f hf
    obtain ⟨p'', htakes', hholds⟩ := (denotes_iff hparam).mpr hvalue
    obtain rfl := Except.ok.inj (htakes.1.symm.trans htakes'.1)
    exact ⟨p', hindex, hholds⟩

end Octf.Cli
