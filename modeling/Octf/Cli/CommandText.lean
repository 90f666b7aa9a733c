import Octf.Cli.CommandLine

/-! Command lines written for messages, with their options in any order. -/
namespace Octf.Cli
open Foundation
open Octf.Utils (Bytes comma)

variable {fields : List FieldDescriptor} {cmd cmd' : Command} {f : FieldDescriptor} {p : Parameter}
  {value : Option FieldValue} {message : Message} {options options' : List GivenOption}

/-! ### The order of options -/

theorem perm_givenFor (h : options'.Perm options) (number : ℤ) :
    (givenFor cmd options' number).Perm (givenFor cmd options number) := h.filterMap _

/-- The order of the values for a field matters for enumerations alone. -/
theorem denotes_of_perm {given given' : List Bytes} (h : given'.Perm given)
    (henum : ∀ e, f.type = .enum e → given.length ≤ 1) (hdenotes : f.Denotes given value) :
    f.Denotes given' value := by
  have hshort : given.length ≤ 1 → given' = given := fun hlength => by
    match given with
    | [] => exact h.eq_nil
    | [text] => exact List.perm_singleton.mp h
    | _ :: _ :: _ => simp at hlength
  have hnumber : ∀ n, f.DenotesNumber given n → given' = given := by
    rintro n ⟨ops, _, -, -, ⟨rfl, -⟩ | ⟨text, rfl, -⟩⟩ <;> exact hshort (by simp)
  unfold FieldDescriptor.Denotes at hdenotes ⊢
  cases htype : f.type with
  | int32 =>
    simp only [htype] at hdenotes ⊢
    obtain ⟨n, hn, hrest⟩ := hdenotes
    exact ⟨n, hnumber n hn ▸ hn, hrest⟩
  | int64 =>
    simp only [htype] at hdenotes ⊢
    obtain ⟨n, hn, hrest⟩ := hdenotes
    exact ⟨n, hnumber n hn ▸ hn, hrest⟩
  | uint32 =>
    simp only [htype] at hdenotes ⊢
    obtain ⟨n, hn, hrest⟩ := hdenotes
    exact ⟨n, hnumber n hn ▸ hn, hrest⟩
  | string =>
    simp only [htype] at hdenotes ⊢
    obtain ⟨ops, hops, ⟨hnil, hrest⟩ | ⟨text, hone, hrest⟩⟩ := hdenotes
    · exact ⟨ops, hops, .inl ⟨by rw [hshort (by simp [hnil]), hnil], hrest⟩⟩
    · exact ⟨ops, hops, .inr ⟨text, by rw [hshort (by simp [hone]), hone], hrest⟩⟩
  | bool =>
    simp only [htype] at hdenotes ⊢
    have hnil : given' = [] ↔ given = [] := by
      rw [← List.length_eq_zero_iff, ← List.length_eq_zero_iff, h.length_eq]
    unfold FieldDescriptor.DenotesFlag at hdenotes ⊢
    rw [ne_eq, hnil, show given'.isEmpty = given.isEmpty by
      rw [Bool.eq_iff_iff, List.isEmpty_iff, List.isEmpty_iff, hnil]]
    exact hdenotes
  | enum e =>
    simp only [htype] at hdenotes ⊢
    rw [hshort (henum e htype)]
    exact hdenotes
  | other => simp [htype] at hdenotes

/-- Options in another order make the same message, when no enumeration is given twice. -/
theorem message_perm (hmade : Made fields cmd) (hperm : options'.Perm options)
    (hnamed : ∀ o ∈ options, (o.field cmd).isSome)
    (henum : ∀ f ∈ fields, ∀ e, f.type = .enum e → (givenFor cmd options f.number).length ≤ 1)
    (h : cmd.message fields (cliElements (options.flatMap GivenOption.elements)) = .ok message) :
    cmd.message fields (cliElements (options'.flatMap GivenOption.elements)) = .ok message := by
  obtain ⟨read, hread, hreadNamed, hdenotes⟩ := (commandLine_iff hmade).mp h
  obtain rfl := options_unique hread hnamed hreadNamed
  refine (commandLine_iff hmade).mpr ⟨options', rfl, fun o ho => hnamed o (hperm.mem_iff.mp ho), ?_⟩
  have hvalues := (List.forall₂_and_left (p := (· ∈ fields)) _ _).mpr ⟨fun _ hf => hf, hdenotes⟩
  refine hvalues.imp fun f value ⟨hf, hvalue⟩ => ?_
  exact denotes_of_perm (perm_givenFor hperm f.number) (henum f hf) hvalue

/-! ### Options for a message -/

/-- The option of a long key. -/
def longOption (key : Bytes) (value : Option Bytes) : GivenOption := ⟨LONG_KEY_PREFIX ++ key, value⟩

def FieldDescriptor.longKey (f : FieldDescriptor) : Bytes :=
  (f.param.toOption.map (·.longKey)).getD []

/-- The switch of the value of an enumeration with an index. -/
def EnumDescriptor.switch (e : EnumDescriptor) (index : ℤ) : Bytes :=
  (e.values[index.toNat]?.bind (·.cli_switch)).getD []

/-- The text of a value, unless it is told by leaving out the option. -/
def FieldDescriptor.text (f : FieldDescriptor) : Option FieldValue → Option (Option Bytes)
  | none => none
  | some (.int32 n) | some (.int64 n) | some (.uint32 n) => some (some (intText n))
  | some (.bool b) => if b then some none else none
  | some (.string s) => some (some s)
  | some (.strings values) => some (some ([comma].intercalate values))
  | some (.enum i) => match f.type with
    | .enum e => some (some (e.switch i))
    | _ => none

def optionsFor : List FieldDescriptor → Message → List GivenOption
  | f :: fields, value :: message =>
    ((f.text value).map (longOption f.longKey)).toList ++ optionsFor fields message
  | _, _ => []

/-- A value that a field can be given on a command line. -/
def FieldDescriptor.Tellable (f : FieldDescriptor) (value : Option FieldValue) : Prop :=
  let inBounds (n : ℤ) := ∃ ops bounds, f.opts_param = some ops ∧
    ParamNumber.setOptions f.type ops {} = .ok bounds ∧ bounds.min ≤ n ∧ n ≤ bounds.max
  match f.type with
  | .int32 => ∃ n, value = some (.int32 n) ∧ inBounds n ∧ INT32_MIN ≤ n ∧ n ≤ INT32_MAX
  | .int64 => ∃ n, value = some (.int64 n) ∧ inBounds n ∧ INT64_MIN ≤ n ∧ n ≤ INT64_MAX
  | .uint32 => ∃ n, value = some (.uint32 n) ∧ inBounds n ∧ 0 ≤ n ∧ n ≤ UINT32_MAX
  | .string => ∃ ops, f.opts_param = some ops ∧
    if f.isRepeated then ∃ values, value = some (.strings values) ∧ values ≠ [] ∧
      (∀ v ∈ values, comma ∉ v) ∧ ([comma].intercalate values).length ≤ MAX_STRING_LENGTH
    else (value = none ∧ ops.cli_required = false) ∨
      ∃ s, value = some (.string s) ∧ s.length ≤ MAX_STRING_LENGTH
  | .bool => ∃ b, value = some (.bool b) ∧ (f.opts_param.any (·.cli_required) → b)
  | .enum e => ∃ i : ℕ, value = some (.enum i) ∧ e.index (e.switch i) = some i
  | .other => False

/-- The values that the option for a value gives. -/
def FieldDescriptor.told (f : FieldDescriptor) (value : Option FieldValue) : List Bytes :=
  (f.text value).toList.map (·.getD [])

theorem extractInt64_intText {n : ℤ} (hmin : INT64_MIN ≤ n) (hmax : n ≤ INT64_MAX) :
    extractInt64 (intText n) = some n := by
  obtain ⟨c, rest, hc⟩ := List.exists_cons_of_ne_nil (intText_ne_nil n)
  have hspace : isspace c = false := by
    rcases mem_intText (hc ▸ List.mem_cons_self : c ∈ intText n) with rfl | hdigit
    · rfl
    · simp only [isDigit, Bool.and_eq_true, decide_eq_true_eq, UInt8.le_iff_toNat_le] at hdigit
      simp only [isspace, Bool.or_eq_false_iff, Bool.and_eq_false_iff, decide_eq_false_iff_not,
        UInt8.le_iff_toNat_le, beq_eq_false_iff_ne, ne_eq, ← UInt8.toNat_inj]
      have h48 : (48 : UInt8).toNat = 48 := rfl
      have h32 : (32 : UInt8).toNat = 32 := rfl
      have h13 : (13 : UInt8).toNat = 13 := rfl
      omega
  unfold extractInt64
  rw [hc, List.dropWhile_cons_of_neg (by simp [hspace]), ← hc, readInt_intText]
  simp [hmin, hmax]

theorem denotes_told (h : f.Tellable value) : f.Denotes (f.told value) value := by
  unfold FieldDescriptor.Tellable at h
  unfold FieldDescriptor.Denotes
  cases htype : f.type with
  | int32 =>
    simp only [htype] at h
    obtain ⟨n, rfl, ⟨ops, bounds, hops, hbounds, hrange⟩, hmin, hmax⟩ := h
    have hread := extractInt64_intText (n := n) (hmin.trans' (by decide)) (hmax.trans (by decide))
    exact ⟨n, ⟨ops, bounds, hops, htype ▸ hbounds, .inr ⟨intText n, rfl, hread, hrange⟩⟩,
      ⟨hmin, hmax⟩, rfl⟩
  | int64 =>
    simp only [htype] at h
    obtain ⟨n, rfl, ⟨ops, bounds, hops, hbounds, hrange⟩, hmin, hmax⟩ := h
    have hread := extractInt64_intText hmin hmax
    exact ⟨n, ⟨ops, bounds, hops, htype ▸ hbounds, .inr ⟨intText n, rfl, hread, hrange⟩⟩, rfl⟩
  | uint32 =>
    simp only [htype] at h
    obtain ⟨n, rfl, ⟨ops, bounds, hops, hbounds, hrange⟩, hmin, hmax⟩ := h
    have hread := extractInt64_intText (n := n) (hmin.trans' (by decide)) (hmax.trans (by decide))
    exact ⟨n, ⟨ops, bounds, hops, htype ▸ hbounds, .inr ⟨intText n, rfl, hread, hrange⟩⟩,
      ⟨hmin, hmax⟩, rfl⟩
  | string =>
    simp only [htype] at h
    obtain ⟨ops, hops, h⟩ := h
    refine ⟨ops, hops, ?_⟩
    split_ifs at h ⊢ with hrepeated
    · obtain ⟨values, rfl, hne, hcomma, hshort⟩ := h
      refine .inr ⟨_, rfl, hshort, ?_⟩
      simp only [Option.getD_some, List.splitOn_intercalate comma hcomma hne]
    · rcases h with ⟨rfl, hrequired⟩ | ⟨s, rfl, hshort⟩
      · exact .inl ⟨rfl, hrequired, rfl⟩
      · exact .inr ⟨s, rfl, hshort, rfl⟩
  | bool =>
    simp only [htype] at h
    obtain ⟨b, rfl, hrequired⟩ := h
    cases b with
    | false => exact ⟨fun hreq => absurd (hrequired hreq) (by simp), rfl⟩
    | true => exact ⟨fun _ => by simp [FieldDescriptor.told, FieldDescriptor.text], rfl⟩
  | enum e =>
    simp only [htype] at h
    obtain ⟨i, rfl, hindex⟩ := h
    have htold : f.told (some (.enum i)) = [e.switch i] := by
      simp [FieldDescriptor.told, FieldDescriptor.text, htype]
    rw [htold]
    exact ⟨by simp [hindex], by simp [hindex]⟩
  | other => simp [htype] at h

/-! ### The message comes back -/

/-- A long key is valid and names one parameter. -/
def Command.Unambiguous (cmd : Command) : Prop :=
  ∀ p ∈ cmd.params, isLongKeyValid p.longKey ∧
    ∀ q ∈ cmd.params, q.isNamed p.longKey → q.index = p.index

theorem longKey_of_param (h : f.param = .ok p) : f.longKey = p.longKey := by
  simp [FieldDescriptor.longKey, h, Except.toOption]

theorem field_longOption (hmade : Made fields cmd) (hkeys : cmd.Unambiguous) (hp : p ∈ cmd.params)
    {v : Option Bytes} (hv : p.hasValue = v.isSome) :
    (longOption p.longKey v).field cmd = some p.index := by
  obtain ⟨hvalid, hone⟩ := hkeys p hp
  have hne : p.longKey ≠ [] := by
    rintro hnil
    simp [hnil, isLongKeyValid] at hvalid
  have hname : (longOption p.longKey v).name = p.longKey :=
    (CLIElement.getValidKeyName_eq_iff hne).mpr (.inl ⟨rfl, hvalid⟩)
  -- the key is found, and with it no other parameter
  obtain ⟨i, hi⟩ := Option.isSome_iff_exists.mp (show (cmd.params.findIdx? fun q =>
    q.isNamed p.longKey).isSome by
      rw [List.findIdx?_isSome, List.any_eq_true]
      exact ⟨p, hp, by simp [Parameter.isNamed]⟩)
  obtain ⟨hrange, hnamed, -⟩ := List.findIdx?_eq_some_iff_getElem.mp hi
  have hindex := hone _ (List.getElem_mem hrange) hnamed
  have hsame : cmd.params[i] = p :=
    List.inj_on_of_nodup_map hmade.indices (List.getElem_mem hrange) hp hindex
  have hfirst : Command.firstNamed (longOption p.longKey v).name cmd.params = some (i, p) := by
    rw [hname, Command.firstNamed, hi, Option.bind_some, List.getElem?_eq_getElem hrange, hsame]
    rfl
  have hplace : (longOption p.longKey v).place cmd.params = some i :=
    place_eq_some_iff.mpr ⟨by rw [hname]; exact hne, p, hfirst, hv⟩
  obtain ⟨q, hq, hfield⟩ := getElem?_of_place hplace
  obtain rfl := Option.some.inj ((firstNamed_eq_some hfirst).symm.trans hq)
  exact hfield

theorem hasValue_of_text (h : f.param = .ok p) (htell : f.Tellable value) {v : Option Bytes}
    (htext : f.text value = some v) : p.hasValue = v.isSome := by
  have hnumber : ∀ n, f.typedParam = f.numberParam → f.text value = some (some (intText n)) →
      p.hasValue = v.isSome := by
    intro n htyped hn
    obtain ⟨_, _, _, _, hkind, -⟩ := param_number htyped h
    obtain rfl := Option.some.inj (hn.symm.trans htext)
    simp [Parameter.hasValue, hkind]
  unfold FieldDescriptor.Tellable at htell
  cases htype : f.type with
  | int32 =>
    simp only [htype] at htell
    obtain ⟨n, rfl, -⟩ := htell
    exact hnumber n (by simp only [FieldDescriptor.typedParam, htype]) rfl
  | int64 =>
    simp only [htype] at htell
    obtain ⟨n, rfl, -⟩ := htell
    exact hnumber n (by simp only [FieldDescriptor.typedParam, htype]) rfl
  | uint32 =>
    simp only [htype] at htell
    obtain ⟨n, rfl, -⟩ := htell
    exact hnumber n (by simp only [FieldDescriptor.typedParam, htype]) rfl
  | string =>
    have htyped : f.typedParam = f.stringParam := by simp only [FieldDescriptor.typedParam, htype]
    obtain ⟨_, _, _, hkind, -⟩ := param_string htyped h
    simp only [htype] at htell
    have hsome : v.isSome := by
      obtain ⟨_, -, htell⟩ := htell
      split_ifs at htell
      · obtain ⟨values, rfl, -⟩ := htell
        obtain rfl := Option.some.inj htext
        rfl
      · rcases htell with ⟨rfl, -⟩ | ⟨s, rfl, -⟩
        · cases htext
        · obtain rfl := Option.some.inj htext
          rfl
    simp [Parameter.hasValue, hkind, hsome]
  | bool =>
    have htyped : f.typedParam = .ok (Parameter.setOptions f { kind := .flag }) := by
      simp only [FieldDescriptor.typedParam, htype]
    obtain ⟨hkind, -⟩ := param_flag htyped h
    simp only [htype] at htell
    obtain ⟨b, rfl, -⟩ := htell
    have hnone : v = none := by
      cases b <;> simp [FieldDescriptor.text] at htext
      exact htext.symm
    simp [Parameter.hasValue, hkind, hnone]
  | enum e =>
    have htyped : f.typedParam = f.enumParam e := by simp only [FieldDescriptor.typedParam, htype]
    obtain ⟨_, hkind, -⟩ := param_enum htyped h
    simp only [htype] at htell
    obtain ⟨i, rfl, -⟩ := htell
    simp only [FieldDescriptor.text, htype, Option.some.injEq] at htext
    subst htext
    simp [Parameter.hasValue, hkind]
  | other => simp [htype] at htell

/-- The option for a value gives it to its field and to no other one. -/
theorem givenFor_longOption (hmade : Made fields cmd) (hkeys : cmd.Unambiguous) (hf : f ∈ fields)
    (htell : f.Tellable value) (number : ℤ) :
    givenFor cmd ((f.text value).map (longOption f.longKey)).toList number =
      if f.number = number then f.told value else [] := by
  obtain ⟨p, hp, hparam⟩ := hmade.param f hf
  unfold FieldDescriptor.told
  cases htext : f.text value with
  | none => simp [givenFor]
  | some v =>
    have hfield := field_longOption hmade hkeys hp (hasValue_of_text hparam htell htext)
    rw [← longKey_of_param hparam, param_index hparam] at hfield
    by_cases hnumber : f.number = number
    · have hvalue : (longOption f.longKey v).value = v := rfl
      simp [givenFor, hfield, hnumber, hvalue]
    · simp [givenFor, hfield, hnumber]

theorem givenFor_append (options options' : List GivenOption) (number : ℤ) :
    givenFor cmd (options ++ options') number =
      givenFor cmd options number ++ givenFor cmd options' number := List.filterMap_append

theorem givenFor_optionsFor_of_notMem (hmade : Made fields cmd) (hkeys : cmd.Unambiguous)
    {fs : List FieldDescriptor} (hfs : ∀ f ∈ fs, f ∈ fields) {message : Message}
    (htell : List.Forall₂ FieldDescriptor.Tellable fs message) {number : ℤ}
    (hnot : number ∉ fs.map (·.number)) : givenFor cmd (optionsFor fs message) number = [] := by
  induction htell with
  | nil => rfl
  | @cons f value fs message hvalue _ ih =>
    rw [List.map_cons, List.mem_cons, not_or] at hnot
    rw [optionsFor, givenFor_append,
      givenFor_longOption hmade hkeys (hfs f List.mem_cons_self) hvalue,
      if_neg (Ne.symm hnot.1), ih (fun f hf => hfs f (List.mem_cons_of_mem _ hf)) hnot.2]
    rfl

theorem denotes_optionsFor (hmade : Made fields cmd) (hkeys : cmd.Unambiguous)
    {fs : List FieldDescriptor} (hfs : ∀ f ∈ fs, f ∈ fields) (hnumbers : (fs.map (·.number)).Nodup)
    {message : Message} (htell : List.Forall₂ FieldDescriptor.Tellable fs message) :
    List.Forall₂ (fun f value => givenFor cmd (optionsFor fs message) f.number = f.told value ∧
      f.Tellable value) fs message := by
  induction htell with
  | nil => exact .nil
  | @cons f value fs message hvalue hrest ih =>
    obtain ⟨hnot, hnumbers⟩ := List.nodup_cons.mp hnumbers
    have hfs' : ∀ f ∈ fs, f ∈ fields := fun f hf => hfs f (List.mem_cons_of_mem _ hf)
    have hone := givenFor_longOption hmade hkeys (hfs f List.mem_cons_self) hvalue
    refine .cons ⟨?_, hvalue⟩ ?_
    · rw [optionsFor, givenFor_append, hone, if_pos rfl,
        givenFor_optionsFor_of_notMem hmade hkeys hfs' hrest hnot, List.append_nil]
    · have hother := (List.forall₂_and_left (p := (· ∈ fs)) _ _).mpr
        ⟨fun _ hf => hf, ih hfs' hnumbers⟩
      refine hother.imp fun g value' ⟨hg, hgiven, htell⟩ => ⟨?_, htell⟩
      have hne : f.number ≠ g.number := fun heq => hnot (List.mem_map.mpr ⟨g, hg, heq.symm⟩)
      rw [optionsFor, givenFor_append, hone, if_neg hne, hgiven]
      rfl

theorem isSome_field_optionsFor (hmade : Made fields cmd) (hkeys : cmd.Unambiguous)
    {fs : List FieldDescriptor} (hfs : ∀ f ∈ fs, f ∈ fields) {message : Message}
    (htell : List.Forall₂ FieldDescriptor.Tellable fs message) :
    ∀ o ∈ optionsFor fs message, (o.field cmd).isSome := by
  induction htell with
  | nil => exact fun o ho => by cases ho
  | @cons f value fs message hvalue _ ih =>
    intro o ho
    rcases List.mem_append.mp ho with ho | ho
    · obtain ⟨v, htext, rfl⟩ := Option.map_eq_some_iff.mp (Option.mem_toList.mp ho)
      obtain ⟨p, hp, hparam⟩ := hmade.param f (hfs f List.mem_cons_self)
      rw [longKey_of_param hparam,
        field_longOption hmade hkeys hp (hasValue_of_text hparam hvalue htext)]
      rfl
    · exact ih (fun f hf => hfs f (List.mem_cons_of_mem _ hf)) o ho

/-- A message is told by one option for each of its values, in any order, with the long keys. -/
theorem message_optionsFor (hmade : Made fields cmd) (hnumbers : (fields.map (·.number)).Nodup)
    (hkeys : cmd.Unambiguous) (htell : List.Forall₂ FieldDescriptor.Tellable fields message)
    (hperm : options.Perm (optionsFor fields message)) :
    cmd.message fields (cliElements (options.flatMap GivenOption.elements)) = .ok message := by
  have hnamed := isSome_field_optionsFor hmade hkeys (fun _ hf => hf) htell
  have hdenotes := denotes_optionsFor hmade hkeys (fun _ hf => hf) hnumbers htell
  have hshort : ∀ (f : FieldDescriptor) value, (f.told value).length ≤ 1 := fun f value => by
    unfold FieldDescriptor.told
    cases f.text value <;> simp
  have hone : ∀ f ∈ fields, (givenFor cmd (optionsFor fields message) f.number).length ≤ 1 := by
    intro f hf
    obtain ⟨value, hvalue, -⟩ := exists_of_forall₂ hdenotes hf
    exact hvalue ▸ hshort f value
  refine message_perm hmade hperm hnamed (fun f hf e _ => hone f hf) ?_
  refine (commandLine_iff hmade).mpr
    ⟨_, rfl, hnamed, hdenotes.imp fun f value ⟨hgiven, htell⟩ => ?_⟩
  exact hgiven ▸ denotes_told htell

end Octf.Cli
