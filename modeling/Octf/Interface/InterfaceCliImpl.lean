import Octf.Cli.Executor

/-! The commands that a node describes to others: all of them, and the one of a key. -/
namespace Octf.Interface
open Octf.Utils (Bytes)
open Octf.Cli

/-! ### The interfaces of a node -/

def getInterfacesIdList (interfaces : List ServiceDescriptor) : List InterfaceId :=
  interfaces.map (·.interfaceId)

def getInterface (id : InterfaceId) (interfaces : List ServiceDescriptor) :
    Option ServiceDescriptor := interfaces.find? fun interface => interface.interfaceId = id

/-- The method that is called for the identifiers of a description. -/
def getMethodDescriptor (interfaces : List ServiceDescriptor) (id : InterfaceId) (methodId : ℤ) :
    Option MethodDescriptor :=
  (getInterface id interfaces).bind fun interface =>
    if methodId < 0 then none else interface.methods[methodId.toNat]?

/-! ### Descriptions -/

namespace InterfaceCliImpl

def isValidInterface (interfaceDesc : ServiceDescriptor) : Bool := interfaceDesc.opts_interface.cli

def isValidMethod (methodDesc : MethodDescriptor) : Bool :=
  match methodDesc.opts_command with
  | none => false
  | some opsMethod => opsMethod.cli && isShortKeyValid opsMethod.cli_short_key &&
      isLongKeyValid opsMethod.cli_long_key && isDescValid opsMethod.cli_desc

def setCommandDescription (id : InterfaceId) (methodIndex : ℕ) (methodDesc : MethodDescriptor) :
    CliCommandDesc where
  interface := id
  methodId := methodIndex
  cmdOps := methodDesc.options
  inputDesc := methodDesc.input_type

/-- The descriptions of the valid methods, from an index on. -/
def describeMethods (id : InterfaceId) : ℕ → List MethodDescriptor → List CliCommandDesc
  | _, [] => []
  | methodIndex, methodDesc :: methods =>
    if isValidMethod methodDesc then
      setCommandDescription id methodIndex methodDesc :: describeMethods id
        (methodIndex + 1) methods
    else describeMethods id (methodIndex + 1) methods

/-- The loop over the interfaces. What was described up to an interface has to be valid. -/
def describeInterfaces (interfaces : List ServiceDescriptor) :
    List InterfaceId → List CliCommandDesc → Except Bytes (List CliCommandDesc)
  | [], response => .ok response
  | id :: ids, response =>
    match getInterface id interfaces with
    | none => describeInterfaces interfaces ids response
    | some interface =>
      if !isValidInterface interface then describeInterfaces interfaces ids response
      else
        let response := response ++ describeMethods id 0 interface.methods
        if isCommandSetValid true response [] [] then describeInterfaces interfaces ids response
        else .error "Not valid command set.".toUTF8.toList

def getCliCommandSetDescription (interfaces : List ServiceDescriptor) :
    Except Bytes (List CliCommandDesc) :=
  describeInterfaces interfaces (getInterfacesIdList interfaces) []

def hasKey (commandkey : Bytes) (methodDesc : MethodDescriptor) : Bool :=
  methodDesc.options.cli_long_key == commandkey || methodDesc.options.cli_short_key == commandkey

/-- The first method with a key ends the search in its interface, whether it is valid or not. -/
def findMethod (id : InterfaceId) (commandkey : Bytes) :
    ℕ → List MethodDescriptor → Option CliCommandDesc
  | _, [] => none
  | methodIndex, methodDesc :: methods =>
    if hasKey commandkey methodDesc then
      if isValidMethod methodDesc then some (setCommandDescription id methodIndex methodDesc)
      else none
    else findMethod id commandkey (methodIndex + 1) methods

/-- The search goes on behind an interface that has the command, and overwrites it. -/
def findCommand (interfaces : List ServiceDescriptor) (commandkey : Bytes) :
    List InterfaceId → Option CliCommandDesc → Option CliCommandDesc
  | [], response => response
  | id :: ids, response =>
    match getInterface id interfaces with
    | none => findCommand interfaces commandkey ids response
    | some interface =>
      if !isValidInterface interface then findCommand interfaces commandkey ids response
      else findCommand interfaces commandkey ids
        ((findMethod id commandkey 0 interface.methods).or response)

def getCliCommandDescription (interfaces : List ServiceDescriptor) (commandkey : Bytes) :
    Except Bytes CliCommandDesc :=
  match findCommand interfaces commandkey (getInterfacesIdList interfaces) none with
  | some response => .ok response
  | none => .error "Unknown command".toUTF8.toList

/-! ### All commands -/

variable {interfaces behind : List ServiceDescriptor} {interface : ServiceDescriptor}
  {commands response : List CliCommandDesc} {key : Bytes} {desc : CliCommandDesc}

/-- The commands of an interface that takes part in the command line. -/
def described (interface : ServiceDescriptor) : List CliCommandDesc :=
  if isValidInterface interface then describeMethods interface.interfaceId 0 interface.methods
  else []

theorem getInterface_of_mem (hids : (interfaces.map (·.interfaceId)).Nodup)
    (h : interface ∈ interfaces) :
      getInterface interface.interfaceId interfaces = some interface := by
  unfold getInterface
  cases hfind : interfaces.find? fun i => decide (i.interfaceId = interface.interfaceId) with
  | none => simpa using List.find?_eq_none.mp hfind interface h
  | some found =>
    have hid : found.interfaceId = interface.interfaceId := by simpa using List.find?_some hfind
    rw [List.inj_on_of_nodup_map hids (List.mem_of_find?_eq_some hfind) h hid]

/-- Keys of each kind are told apart, from those before as well. -/
theorem isCommandSetValid_iff {assured : Bool} {longKeys shortKeys : List Bytes} :
    isCommandSetValid assured commands longKeys shortKeys ↔
      (assured = false → ∀ c ∈ commands, isCommandValid c) ∧
        ((commands.map (·.cmdOps.cli_long_key)).Nodup ∧
          ∀ c ∈ commands, c.cmdOps.cli_long_key ∉ longKeys) ∧
          ((commands.map (·.cmdOps.cli_short_key)).filter (· ≠ [])).Nodup ∧
            ∀ c ∈ commands, c.cmdOps.cli_short_key ≠ [] → c.cmdOps.cli_short_key ∉ shortKeys := by
  induction commands generalizing longKeys shortKeys with
  | nil => simp [isCommandSetValid]
  | cons c commands ih =>
    unfold isCommandSetValid
    by_cases hassured : (!assured && !isCommandValid c) = true
    · simp only [hassured, if_true, Bool.false_eq_true, false_iff]
      rintro ⟨hvalid, -⟩
      simp only [Bool.and_eq_true, Bool.not_eq_true'] at hassured
      simpa [hassured.2] using hvalid hassured.1 c List.mem_cons_self
    have hvalid : (assured = false → ∀ c' ∈ c :: commands, isCommandValid c') ↔
        (assured = false → ∀ c' ∈ commands, isCommandValid c') := by
      simp only [Bool.and_eq_true, Bool.not_eq_true', not_and, Bool.not_eq_false] at hassured
      simp only [List.forall_mem_cons]
      exact forall_congr' fun h => and_iff_right (hassured h)
    rw [if_neg hassured, hvalid]
    by_cases hlong : c.cmdOps.cli_long_key ∈ longKeys
    · simp [hlong]
    by_cases hshort : c.cmdOps.cli_short_key = []
    · simp only [hlong, if_false, hshort, if_true, ih, List.map_cons, List.nodup_cons,
        List.mem_cons, not_or, List.mem_map, not_exists, not_and, ne_eq, not_true_eq_false,
        decide_false, List.filter_cons, Bool.false_eq_true]
      grind
    by_cases hshortKeys : c.cmdOps.cli_short_key ∈ shortKeys
    · simp [hlong, hshort, hshortKeys]
    · simp only [hlong, if_false, hshort, hshortKeys, ih, List.map_cons, List.nodup_cons,
        List.mem_cons, not_or, List.mem_map, not_exists, not_and, ne_eq, not_false_eq_true,
        decide_true, List.filter_cons, List.mem_filter, if_true]
      grind

theorem isCommandSetValid_of_append (h : isCommandSetValid true (response ++ commands) [] []) :
    isCommandSetValid true response [] [] := by
  rw [isCommandSetValid_iff] at h ⊢
  simp only [List.map_append, List.filter_append] at h
  exact ⟨by simp, ⟨h.2.1.1.of_append_left, by simp⟩, h.2.2.1.of_append_left, by simp⟩

theorem describeInterfaces_ok_iff (hids : (interfaces.map (·.interfaceId)).Nodup)
    (hbehind : ∀ i ∈ behind, i ∈ interfaces) (hresponse : isCommandSetValid true response [] []) :
    describeInterfaces interfaces (behind.map (·.interfaceId)) response = .ok commands ↔
      commands = response ++ behind.flatMap described ∧ isCommandSetValid true commands [] [] := by
  induction behind generalizing response with
  | nil =>
    simp only [describeInterfaces, List.map_nil, List.flatMap_nil, List.append_nil, Except.ok.injEq]
    constructor
    · rintro rfl
      exact ⟨rfl, hresponse⟩
    · exact fun h => h.1.symm
  | cons i behind ih =>
    have hbehind' : ∀ j ∈ behind, j ∈ interfaces :=
      fun j hj => hbehind j (List.mem_cons_of_mem _ hj)
    simp only [describeInterfaces, List.map_cons, List.flatMap_cons,
      getInterface_of_mem hids (hbehind i List.mem_cons_self)]
    by_cases hvalid : isValidInterface i
    · simp only [hvalid, Bool.not_true, Bool.false_eq_true, if_false, described, if_true]
      split_ifs with hset
      · rw [ih hbehind' hset, List.append_assoc]
      · simp only [false_iff]
        rintro ⟨rfl, hall⟩
        rw [← List.append_assoc] at hall
        exact hset (isCommandSetValid_of_append hall)
    · simp only [hvalid, Bool.not_false, if_true, described, Bool.false_eq_true, if_false,
        List.nil_append]
      exact ih hbehind' hresponse

/-- A node describes the commands of all its interfaces, unless two of them share a key of the same
kind. -/
theorem getCliCommandSetDescription_ok_iff (hids : (interfaces.map (·.interfaceId)).Nodup) :
    getCliCommandSetDescription interfaces = .ok commands ↔
      commands = interfaces.flatMap described ∧ isCommandSetValid true commands [] [] := by
  unfold getCliCommandSetDescription getInterfacesIdList
  rw [describeInterfaces_ok_iff hids (fun i hi => hi) rfl]
  rfl

theorem mem_describeMethods {id : InterfaceId} {start : ℕ} {methods : List MethodDescriptor}
    (h : desc ∈ describeMethods id start methods) :
    ∃ index method, isValidMethod method ∧ desc = setCommandDescription id index method := by
  induction methods generalizing start with
  | nil => cases h
  | cons m methods ih =>
    unfold describeMethods at h
    split_ifs at h with hvalid
    · rcases List.mem_cons.mp h with rfl | h
      · exact ⟨start, m, hvalid, rfl⟩
      · exact ih h
    · exact ih h

/-- What is described is accepted by those who ask. -/
theorem isCommandValid_of_isValidMethod (id : InterfaceId) (index : ℕ) {method : MethodDescriptor}
    (h : isValidMethod method) : isCommandValid (setCommandDescription id index method) ∧
      isShortKeyValid method.options.cli_short_key ∧
        isLongKeyValid method.options.cli_long_key := by
  unfold isValidMethod at h
  cases hops : method.opts_command with
  | none => simp [hops] at h
  | some ops =>
    simp only [hops, Bool.and_eq_true] at h
    simp [isCommandValid, setCommandDescription, MethodDescriptor.options, hops, h]

theorem isCommandValid_of_mem (h : desc ∈ interfaces.flatMap described) : isCommandValid desc := by
  obtain ⟨i, -, hi⟩ := List.mem_flatMap.mp h
  unfold described at hi
  split_ifs at hi
  · obtain ⟨index, method, hvalid, rfl⟩ := mem_describeMethods hi
    exact (isCommandValid_of_isValidMethod _ _ hvalid).1
  · cases hi

/-! ### The command of a key -/

/-- An interface has a valid method behind a key, the first one with it. -/
structure Offers (interface : ServiceDescriptor) (key : Bytes) (index : ℕ)
    (method : MethodDescriptor) : Prop where
  validInterface : isValidInterface interface
  validMethod : isValidMethod method
  place : interface.methods[index]? = some method
  named : hasKey key method
  first : ∀ j < index, ∀ m, interface.methods[j]? = some m → hasKey key m = false

theorem Offers.getMethodDescriptor {index : ℕ} {method : MethodDescriptor}
    (h : Offers interface key index method) (hids : (interfaces.map (·.interfaceId)).Nodup)
    (hinterface : interface ∈ interfaces) :
    getMethodDescriptor interfaces interface.interfaceId index = some method := by
  unfold Interface.getMethodDescriptor
  rw [getInterface_of_mem hids hinterface, Option.bind_some, if_neg (by omega)]
  simpa using h.place

theorem findMethod_eq_some_iff {id : InterfaceId} {start : ℕ} {methods : List MethodDescriptor} :
    findMethod id key start methods = some desc ↔ ∃ k m, methods[k]? = some m ∧
      (hasKey key m ∧ ∀ j < k, ∀ m', methods[j]? = some m' → hasKey key m' = false) ∧
        isValidMethod m ∧ desc = setCommandDescription id (start + k) m := by
  induction methods generalizing start with
  | nil => simp [findMethod]
  | cons m methods ih =>
    unfold findMethod
    by_cases hkey : hasKey key m
    · rw [if_pos hkey]
      constructor
      · intro h
        split_ifs at h with hvalid
        exact ⟨0, m, rfl, ⟨hkey, by simp⟩, hvalid, (Option.some.inj h).symm⟩
      · rintro ⟨k, m', hk, ⟨-, hfirst⟩, hvalid, rfl⟩
        cases k with
        | zero =>
          obtain rfl := Option.some.inj hk
          rw [if_pos hvalid, Nat.add_zero]
        | succ k => exact absurd hkey (by simp [hfirst 0 k.succ_pos m rfl])
    · rw [if_neg hkey, ih]
      constructor
      · rintro ⟨k, m', hk, ⟨hkey', hfirst⟩, hvalid, rfl⟩
        refine ⟨k + 1, m', hk, ⟨hkey', fun j hj m'' hm => ?_⟩, hvalid, by
          rw [Nat.add_right_comm, Nat.add_assoc]⟩
        cases j with
        | zero =>
          obtain rfl := Option.some.inj hm
          simpa using hkey
        | succ j => exact hfirst j (by omega) m'' hm
      · rintro ⟨k, m', hk, ⟨hkey', hfirst⟩, hvalid, rfl⟩
        cases k with
        | zero =>
          obtain rfl := Option.some.inj hk
          exact absurd hkey' hkey
        | succ k => exact ⟨k, m', hk, ⟨hkey', fun j hj m'' hm => hfirst (j + 1) (by omega) m'' hm⟩,
            hvalid, by rw [Nat.add_right_comm, Nat.add_assoc]⟩

def offered (key : Bytes) (interface : ServiceDescriptor) : Option CliCommandDesc :=
  if isValidInterface interface then findMethod interface.interfaceId key 0 interface.methods
  else none

theorem offered_eq_some_iff : offered key interface = some desc ↔ ∃ index method,
    Offers interface key index method ∧
      desc = setCommandDescription interface.interfaceId index method := by
  unfold offered
  split_ifs with hvalid
  · rw [findMethod_eq_some_iff]
    constructor
    · rintro ⟨k, m, hk, ⟨hkey, hfirst⟩, hm, rfl⟩
      exact ⟨k, m, ⟨hvalid, hm, hk, hkey, hfirst⟩, by rw [Nat.zero_add]⟩
    · rintro ⟨k, m, ⟨-, hm, hk, hkey, hfirst⟩, rfl⟩
      exact ⟨k, m, hk, ⟨hkey, hfirst⟩, hm, by rw [Nat.zero_add]⟩
  · simp only [false_iff]
    rintro ⟨k, m, hoffers, -⟩
    exact hvalid hoffers.validInterface

theorem findCommand_eq (hids : (interfaces.map (·.interfaceId)).Nodup)
    (hbehind : ∀ i ∈ behind, i ∈ interfaces) (response : Option CliCommandDesc) :
    findCommand interfaces key (behind.map (·.interfaceId)) response =
      ((behind.filterMap (offered key)).getLast?).or response := by
  induction behind generalizing response with
  | nil => simp [findCommand]
  | cons i behind ih =>
    have hbehind' : ∀ j ∈ behind, j ∈ interfaces :=
      fun j hj => hbehind j (List.mem_cons_of_mem _ hj)
    simp only [findCommand, List.map_cons, getInterface_of_mem hids (hbehind i List.mem_cons_self),
      ih hbehind']
    by_cases hvalid : isValidInterface i
    · have hoffered : offered key i = findMethod i.interfaceId key 0 i.methods := if_pos hvalid
      rw [List.filterMap_cons, hoffered]
      simp only [hvalid, Bool.not_true, Bool.false_eq_true, if_false]
      cases findMethod i.interfaceId key 0 i.methods with
      | none => rfl
      | some d =>
        rw [List.getLast?_cons]
        cases (behind.filterMap (offered key)).getLast? <;> rfl
    · have hoffered : offered key i = none := if_neg hvalid
      rw [List.filterMap_cons_none hoffered]
      simp [hvalid]

/-- The command of a key is that of the last interface which offers one. -/
theorem getCliCommandDescription_ok_iff (hids : (interfaces.map (·.interfaceId)).Nodup) :
    getCliCommandDescription interfaces key = .ok desc ↔
      ∃ before interface behind index method, interfaces = before ++ interface :: behind ∧
        Offers interface key index method ∧
          (∀ i ∈ behind, ∀ k m, ¬ Offers i key k m) ∧
            desc = setCommandDescription interface.interfaceId index method := by
  have hfind : getCliCommandDescription interfaces key = .ok desc ↔
      (interfaces.filterMap (offered key)).getLast? = some desc := by
    unfold getCliCommandDescription getInterfacesIdList
    rw [findCommand_eq hids fun i hi => hi, Option.or_none]
    cases (interfaces.filterMap (offered key)).getLast? <;> simp
  have hnone : ∀ i : ServiceDescriptor, offered key i = none ↔ ∀ k m, ¬ Offers i key k m := by
    intro i
    rw [Option.eq_none_iff_forall_ne_some]
    constructor
    · exact fun h k m hoffers => h _ (offered_eq_some_iff.mpr ⟨k, m, hoffers, rfl⟩)
    · rintro h d hd
      obtain ⟨k, m, hoffers, -⟩ := offered_eq_some_iff.mp hd
      exact h k m hoffers
  rw [hfind, List.getLast?_eq_some_iff]
  constructor
  · rintro ⟨ys, hys⟩
    obtain ⟨front, last, rfl, -, hlast⟩ := List.filterMap_eq_append_iff.mp hys
    obtain ⟨skipped, i, behind, rfl, -, hi, hbehind⟩ := List.filterMap_eq_cons_iff.mp hlast
    obtain ⟨k, m, hoffers, hdesc⟩ := offered_eq_some_iff.mp hi
    refine ⟨front ++ skipped, i, behind, k, m, by rw [List.append_assoc], hoffers,
      fun j hj => ?_, hdesc⟩
    exact (hnone j).mp (List.filterMap_eq_nil_iff.mp hbehind j hj)
  · rintro ⟨before, i, behind, k, m, rfl, hoffers, hbehind, rfl⟩
    refine ⟨before.filterMap (offered key), ?_⟩
    rw [List.filterMap_append, List.filterMap_cons_some
      (offered_eq_some_iff.mpr ⟨k, m, hoffers, rfl⟩),
      List.filterMap_eq_nil_iff.mpr fun j hj => (hnone j).mpr (hbehind j hj)]

end InterfaceCliImpl

/-- The interface that a node with interfaces provides to others. -/
def cliInterface (interfaces : List ServiceDescriptor) : CliInterface where
  getCliCommandSetDescription := InterfaceCliImpl.getCliCommandSetDescription interfaces
  getCliCommandDescription := InterfaceCliImpl.getCliCommandDescription interfaces

end Octf.Interface
