import Octf.Cli.Dispatch
import Octf.Interface.InterfaceCliImpl

/-! The commands of other nodes: a node describes a command for its key, and is called with the
message that the command line makes of the description. -/
namespace Octf.Cli
open Foundation
open Octf.Utils (Bytes)
open Octf.Interface Octf.Interface.InterfaceCliImpl
open Executor (Registration executeCommand)

variable {m : Module} {modules : List (Module × CommandSet)} {cmdSet : CommandSet}
  {ex ex' : Executor} {nodes : Nodes} {moduleId key : Bytes} {registrations : List Registration}

/-! ### Modules that are found -/

theorem mem_assignModule {e : Module × CommandSet} (he : e ∈ assignModule m cmdSet modules) :
    e = (m, cmdSet) ∨ e ∈ modules ∨ ∃ e' ∈ modules, e = (e'.1, cmdSet) ∧
      e'.1.shortKey = m.shortKey ∧ e'.1.longKey = m.longKey := by
  induction modules with
  | nil => exact .inl (List.mem_singleton.mp he)
  | cons e' modules ih =>
    unfold assignModule at he
    split_ifs at he with hbefore hbehind
    · exact (List.mem_cons.mp he).imp_right .inl
    · rcases List.mem_cons.mp he with rfl | he
      · exact .inr (.inl List.mem_cons_self)
      · rcases ih he with heq | he | ⟨e'', he'', hrest⟩
        · exact .inl heq
        · exact .inr (.inl (List.mem_cons_of_mem _ he))
        · exact .inr (.inr ⟨e'', List.mem_cons_of_mem _ he'', hrest⟩)
    · rcases List.mem_cons.mp he with rfl | he
      · have hkeys : e'.1.shortKey = m.shortKey ∧ e'.1.longKey = m.longKey := by
          by_contra hne
          rcases before_or_before fun hs hl => hne ⟨hs, hl⟩ with hb | hb
          · exact hbehind hb
          · exact hbefore hb
        exact .inr (.inr ⟨e', List.mem_cons_self, rfl, hkeys⟩)
      · exact .inr (.inl (List.mem_cons_of_mem _ he))

/-- The module is there afterwards, as are those before. -/
theorem exists_mem_assignModule (m : Module) (cmdSet : CommandSet)
    (modules : List (Module × CommandSet)) :
    (∃ e ∈ assignModule m cmdSet modules, e.1.longKey = m.longKey) ∧
      ∀ e ∈ modules, ∃ e' ∈ assignModule m cmdSet modules, e'.1 = e.1 := by
  induction modules with
  | nil => exact ⟨⟨_, List.mem_cons_self, rfl⟩, by simp⟩
  | cons e modules ih =>
    unfold assignModule
    split_ifs with hbefore hbehind
    · exact ⟨⟨_, List.mem_cons_self, rfl⟩, fun e' he' => ⟨e', List.mem_cons_of_mem _ he', rfl⟩⟩
    · obtain ⟨⟨e₁, he₁, hkey⟩, hkeep⟩ := ih
      refine ⟨⟨e₁, List.mem_cons_of_mem _ he₁, hkey⟩, fun e' he' => ?_⟩
      rcases List.mem_cons.mp he' with rfl | he'
      · exact ⟨e', List.mem_cons_self, rfl⟩
      · obtain ⟨e₂, he₂, heq⟩ := hkeep e' he'
        exact ⟨e₂, List.mem_cons_of_mem _ he₂, heq⟩
    · refine ⟨⟨_, List.mem_cons_self, ?_⟩, fun e' he' => ?_⟩
      · by_contra hne
        rcases before_or_before fun _ => hne with hb | hb
        · exact hbehind hb
        · exact hbefore hb
      · rcases List.mem_cons.mp he' with rfl | he'
        · exact ⟨_, List.mem_cons_self, rfl⟩
        · exact ⟨e', List.mem_cons_of_mem _ he', rfl⟩

/-- A module that is not one of the application, whose commands are not loaded. -/
def remoteModule (moduleId : Bytes) :
    Module × CommandSet := ({ longKey := moduleId }, CommandSet.new)

/-- What has the name of a node is the module of the node. -/
def OnlyRemote (moduleId : Bytes) (modules : List (Module × CommandSet)) : Prop :=
  ∀ e ∈ modules, e.1.isNamed moduleId → e = remoteModule moduleId

theorem OnlyRemote.assign (hne : moduleId ≠ []) (h : OnlyRemote moduleId modules) (other : Bytes) :
    OnlyRemote moduleId (assignModule { longKey := other } CommandSet.new modules) := by
  intro e he hnamed
  rcases mem_assignModule he with rfl | he | ⟨e', he', rfl, -, -⟩
  · have hother : moduleId = other := by simpa [Module.isNamed, hne] using hnamed
    rw [hother]
    rfl
  · exact h e he hnamed
  · rw [h e' he' hnamed]
    rfl

theorem find?_discovered (hne : moduleId ≠ []) {found : List Bytes} (hfound : moduleId ∈ found)
    (h : OnlyRemote moduleId modules) :
    (found.foldl (fun modules id => assignModule { longKey := id } CommandSet.new modules)
      modules).find? (fun m => m.1.isNamed moduleId) = some (remoteModule moduleId) := by
  have hrun : ∀ (found : List Bytes) modules, OnlyRemote moduleId modules →
      (moduleId ∈ found ∨ ∃ e ∈ modules, e.1.isNamed moduleId) →
        let after := found.foldl
          (fun modules id => assignModule { longKey := id } CommandSet.new modules) modules
        OnlyRemote moduleId after ∧ ∃ e ∈ after, e.1.isNamed moduleId := by
    intro found
    induction found with
    | nil => exact fun modules honly hthere => ⟨honly, hthere.resolve_left List.not_mem_nil⟩
    | cons id found ih =>
      intro modules honly hthere
      obtain ⟨⟨e, he, hkey⟩, hkeep⟩ := exists_mem_assignModule
        { longKey := id } CommandSet.new modules
      refine ih _ (honly.assign hne id) ?_
      rcases hthere with hmem | ⟨e', he', hnamed⟩
      · rcases List.mem_cons.mp hmem with rfl | hmem
        · exact .inr ⟨e, he, by simp [Module.isNamed, hkey]⟩
        · exact .inl hmem
      · obtain ⟨e₁, he₁, heq⟩ := hkeep e' he'
        exact .inr ⟨e₁, he₁, heq ▸ hnamed⟩
  obtain ⟨honly, e, he, hnamed⟩ := hrun found modules h (.inl hfound)
  cases hfind : List.find? (fun m : Module × CommandSet => m.1.isNamed moduleId) (found.foldl
      (fun modules id => assignModule { longKey := id } CommandSet.new modules) modules) with
  | none => exact absurd hnamed (List.find?_eq_none.mp hfind e he)
  | some e' =>
    have hnamed' : e'.1.isNamed moduleId := by simpa using List.find?_some hfind
    rw [honly e' (List.mem_of_find?_eq_some hfind) hnamed']

theorem supported_addModules (hex : Registered ex)
    (h : Executor.addModules registrations ex = .ok ex') :
    (∀ id ∈ ex.supportedRemoteModules, id ∈ ex'.supportedRemoteModules) ∧
      ∀ id, .remote id ∈ registrations → id ∈ ex'.supportedRemoteModules := by
  induction registrations generalizing ex with
  | nil =>
    obtain rfl := Except.ok.inj h
    exact ⟨fun _ hid => hid, fun _ hid => absurd hid List.not_mem_nil⟩
  | cons r registrations ih =>
    unfold Executor.addModules at h
    cases hr : ex.addModule r with
    | error e => simp [hr, Except.bind] at h
    | ok ex₁ =>
      rw [hr] at h
      obtain ⟨hex₁, -, -, hbrings⟩ := registered_addModule hex hr
      obtain ⟨hkeep, hall⟩ := ih hex₁ h
      cases r with
      | interface i =>
        rw [← (hbrings i rfl).2]
        exact ⟨hkeep, fun id hid => hall id (by simpa using hid)⟩
      | remote moduleId =>
        unfold Executor.addModule at hr
        dsimp only at hr
        split_ifs at hr
        obtain rfl := Except.ok.inj hr
        refine ⟨fun id hid => hkeep id (List.mem_append_left _ hid), fun id hid => ?_⟩
        rcases List.mem_cons.mp hid with heq | hid
        · obtain rfl := Registration.remote.inj heq
          exact hkeep id (List.mem_append_right _ List.mem_cons_self)
        · exact hall id hid

/-- A node that is found is a module of its own, when nothing else has its name. -/
theorem find?_discoverModules (hne : moduleId ≠ [])
    (hsupported : moduleId ∈ ex.supportedRemoteModules)
    (hdiscovered : moduleId ∈ nodes.discovered)
    (hfree : ∀ e ∈ ex.modules, e.1.isNamed moduleId = false) :
    ((ex.discoverModules nodes).modules.find? fun m => m.1.isNamed moduleId) =
      some (remoteModule moduleId) := by
  unfold Executor.discoverModules
  rw [if_neg (List.ne_nil_of_mem hsupported)]
  refine find?_discovered hne (List.mem_filter.mpr ⟨hdiscovered, by simpa using hsupported⟩) ?_
  exact fun e he hnamed => absurd hnamed (by simp [hfree e he])

/-! ### Commands of a node -/

variable {cmd : ICommand} {desc : CliCommandDesc} {cli : CliInterface}

theorem commandProtobuf_ok_iff : CommandProtobuf desc = .ok cmd ↔
    (isShortKeyValid desc.cmdOps.cli_short_key ∧ isLongKeyValid desc.cmdOps.cli_long_key) ∧
      ∃ made, Command.createParameters desc.inputDesc
        { shortKey := desc.cmdOps.cli_short_key, longKey := desc.cmdOps.cli_long_key,
          isLocal := false } = .ok made ∧
        cmd = { made with
          target := .remoteMethod desc.interface desc.methodId, inputDesc := desc.inputDesc } := by
  unfold CommandProtobuf
  dsimp only
  split_ifs with hshort hlong
  · simp only [Bool.not_eq_true'] at hshort
    simp [hshort]
  · simp only [Bool.not_eq_true'] at hlong
    simp [hlong]
  · simp only [Bool.not_eq_true', Bool.not_eq_false] at hshort hlong
    cases Command.createParameters desc.inputDesc { shortKey := desc.cmdOps.cli_short_key
                                                    longKey := desc.cmdOps.cli_long_key
                                                    isLocal := false } with
    | error e => simp
    | ok made => simp [hshort, hlong, eq_comm]

/-- The command of a node is asked for by its key. -/
theorem lookupCommand_remote (rest : CLIList) (hmodule : isLongKeyValid moduleId)
    (hkey : isLongKeyValid key) (hhelp : key ≠ CLIList.helpLongKey ∧ key ≠ CLIList.helpShortKey)
    (hfind : (ex.modules.find? fun m => m.1.isNamed moduleId) = some (remoteModule moduleId))
    (hnode : nodes.node moduleId = some cli) (hdesc : cli.getCliCommandDescription key = .ok desc)
    (hvalid : isCommandValid desc) (hcmd : CommandProtobuf desc = .ok cmd) :
    ∃ found, ex.lookupCommand nodes ({ value := LONG_KEY_PREFIX ++ moduleId } ::
        { value := LONG_KEY_PREFIX ++ key } :: rest) = .ok found ∧
      found.command = some cmd ∧ found.cliList = rest := by
  have hne : ∀ {key : Bytes}, isLongKeyValid key → key ≠ [] := by
    rintro key hkey rfl
    cases hkey
  have hlookup : ex.lookupModule moduleId = remoteModule moduleId := by
    simp only [Executor.lookupModule, hfind]
  have hnew : CommandSet.new.hasCmd key = false := by
    simp [CommandSet.new, CommandSet.hasCmd, ICommand.isNamed, CmdHelp, hhelp.1.symm, hhelp.2.symm]
  have hfound : Executor.getCommandFromModule key cli = .ok (some cmd) := by
    simp [Executor.getCommandFromModule, hdesc, hvalid, hcmd, Except.map]
  simp only [Executor.lookupCommand, getValidKeyName_longKey hmodule, getValidKeyName_longKey hkey,
    if_neg (hne hmodule), if_neg (hne hkey), hlookup, remoteModule, hnode, Option.isNone_some,
    Bool.and_false, Bool.false_eq_true, if_false, Executor.findCommand, hnew, Bool.or_self, hfound]
  exact ⟨_, rfl, rfl, rfl⟩

/-! ### A parser on another node -/

def parserId : Bytes := "parser".toUTF8.toList

/-- The only interface of the node parses traces. -/
def parserNodes : Nodes where
  discovered := [parserId]
  node id := if id = parserId then some (cliInterface [InterfaceTraceParsing]) else none

def remoteParser : Executor := { Executor.new with supportedRemoteModules := [parserId] }

theorem addModules_remoteParser :
    Executor.addModules [.remote parserId] Executor.new = .ok remoteParser := rfl

theorem node_parserId : parserNodes.node parserId = some (cliInterface [InterfaceTraceParsing]) :=
  if_pos rfl

theorem offers_parseTrace : Offers InterfaceTraceParsing "io".toUTF8.toList 0 ParseTrace where
  validInterface := rfl
  validMethod := by decide +kernel
  place := rfl
  named := by decide +kernel
  first := fun j hj => absurd hj j.not_lt_zero

/-! ### Calls of other nodes -/

variable {interfaces before behind : List ServiceDescriptor} {interface : ServiceDescriptor}
  {index : ℕ} {method : MethodDescriptor} {message : Message} {options : List GivenOption}

/-- A command line for a node is executed on the command that the node describes. -/
theorem execute_remote (h : Executor.addModules registrations Executor.new = .ok ex)
    (hremote : .remote moduleId ∈ registrations) (hmodule : isLongKeyValid moduleId)
    (hfree : ∀ e ∈ ex.modules, e.1.isNamed moduleId = false)
    (hdiscovered : moduleId ∈ nodes.discovered) (hnode : nodes.node moduleId = some cli)
    (hkey : isLongKeyValid key) (hhelp : key ≠ CLIList.helpLongKey ∧ key ≠ CLIList.helpShortKey)
    (hdesc : cli.getCliCommandDescription key = .ok desc) (hvalid : isCommandValid desc)
    (hcmd : CommandProtobuf desc = .ok cmd) (program : Bytes) (argv : List Bytes) :
    ex.execute nodes (program :: (LONG_KEY_PREFIX ++ moduleId) ::
      (LONG_KEY_PREFIX ++ key) :: argv) =
      executeCommand cmd (cliElements argv) := by
  have hne : moduleId ≠ [] := by
    rintro rfl
    cases hmodule
  have hsupported := (supported_addModules registered_new h).2 moduleId hremote
  have hfind := find?_discoverModules hne hsupported hdiscovered hfree
  obtain ⟨found, hfound, hcommand, hrest⟩ := lookupCommand_remote (cliElements argv)
    hmodule hkey hhelp hfind hnode hdesc hvalid hcmd
  obtain ⟨-, made, -, rfl⟩ := commandProtobuf_ok_iff.mp hcmd
  unfold Executor.execute
  rw [if_neg (by simp)]
  exact (executeList_of_lookup hfound hcommand (by simp)).trans (by rw [hrest])

variable {commands : List CliCommandDesc} {set set' : CommandSet}

theorem keys_of_commandProtobuf (h : CommandProtobuf desc = .ok cmd) :
    cmd.longKey = desc.cmdOps.cli_long_key ∧ cmd.shortKey = desc.cmdOps.cli_short_key ∧
      cmd.longKey ≠ [] := by
  obtain ⟨⟨-, hlong⟩, made, hmade, rfl⟩ := commandProtobuf_ok_iff.mp h
  obtain ⟨hshortKey, hlongKey⟩ := createParameters_keys hmade
  refine ⟨hlongKey, hshortKey, fun hnil => ?_⟩
  simp only [hlongKey] at hnil
  rw [hnil] at hlong
  cases hlong

theorem addRemoteCmds_ok (hset : set.Distinct)
    (h : Executor.addRemoteCmds commands set = .ok set') :
    set'.Distinct ∧ ∃ cmds : List ICommand, commands.map CommandProtobuf = cmds.map .ok ∧
      set'.cmds.Perm (cmds ++ set.cmds) := by
  induction commands generalizing set with
  | nil =>
    obtain rfl := Except.ok.inj h
    exact ⟨hset, [], rfl, .refl _⟩
  | cons desc commands ih =>
    unfold Executor.addRemoteCmds at h
    cases hcmd : CommandProtobuf desc with
    | error e => simp [hcmd, Except.bind] at h
    | ok cmd =>
      simp only [hcmd, Except.bind] at h
      cases hadd : set.addCmd cmd with
      | error e => simp [hadd] at h
      | ok set₁ =>
        simp only [hadd] at h
        obtain ⟨hset', cmds, hcmds, hperm⟩ := ih (CommandSet.addCmd_distinct hset hadd).1 h
        obtain ⟨-, rfl⟩ := CommandSet.addCmd_ok_iff.mp hadd
        refine ⟨hset', cmd :: cmds, by rw [List.map_cons, hcmd, hcmds]; rfl, hperm.trans ?_⟩
        exact ((List.perm_orderedInsert _ _ _).append_left cmds).trans List.perm_middle

theorem exists_addRemoteCmds {cmds : List ICommand}
    (hcmds : commands.map CommandProtobuf = cmds.map .ok)
    (hkeys : (cmds ++ set.cmds).Pairwise fun a b => List.Disjoint a.keys b.keys) :
    ∃ set', Executor.addRemoteCmds commands set = .ok set' := by
  induction commands generalizing set cmds with
  | nil => exact ⟨set, rfl⟩
  | cons desc commands ih =>
    obtain ⟨cmd, cmds, rfl⟩ := List.exists_cons_of_ne_nil (l := cmds) (by rintro rfl; cases hcmds)
    obtain ⟨hcmd, hcmds⟩ := List.cons.inj hcmds
    obtain ⟨hfree, hkeys'⟩ := List.pairwise_cons.mp hkeys
    have hadd := CommandSet.addCmd_ok_iff.mpr ⟨⟨(keys_of_commandProtobuf hcmd).2.2,
      fun key hkey c hc hkey' => hfree c (List.mem_append_right _ hc) hkey hkey'⟩, rfl⟩
    have hperm : (cmds ++ set.cmds.orderedInsert (fun a b => a.longKey ≤ b.longKey) cmd).Perm
        (cmd :: cmds ++ set.cmds) :=
      ((List.perm_orderedInsert _ _ _).append_left cmds).trans List.perm_middle
    unfold Executor.addRemoteCmds
    simp only [hcmd, Except.bind, hadd]
    exact ih hcmds ((hperm.pairwise_iff fun h => List.disjoint_comm.mp h).mpr hkeys)

/-- Commands that share no key pass the checks of the node and of those who ask. -/
theorem isCommandSetValid_of_keys {assured : Bool} {cmds : List ICommand}
    (hcmds : commands.map CommandProtobuf = cmds.map .ok)
    (hkeys : cmds.Pairwise fun a b => List.Disjoint a.keys b.keys)
    (hvalid : ∀ c ∈ commands, isCommandValid c) :
    isCommandSetValid assured commands [] [] := by
  have hmaps : commands.map (·.cmdOps.cli_long_key) = cmds.map (·.longKey) ∧
      commands.map (·.cmdOps.cli_short_key) = cmds.map (·.shortKey) := by
    clear hkeys hvalid
    induction commands generalizing cmds with
    | nil =>
      cases List.map_eq_nil_iff.mp hcmds.symm
      exact ⟨rfl, rfl⟩
    | cons desc commands ih =>
      obtain ⟨cmd, cmds, rfl⟩ := List.exists_cons_of_ne_nil (l := cmds) (by rintro rfl; cases hcmds)
      obtain ⟨hcmd, hcmds⟩ := List.cons.inj hcmds
      obtain ⟨hlong, hshort, -⟩ := keys_of_commandProtobuf hcmd
      obtain ⟨hlongs, hshorts⟩ := ih hcmds
      simp only [List.map_cons, hlong, hshort, hlongs, hshorts, and_self]
  refine isCommandSetValid_iff.mpr ⟨fun _ => hvalid, ⟨?_, by simp⟩, ?_, by simp⟩
  · rw [hmaps.1]
    refine List.pairwise_map.mpr (hkeys.imp fun {a b} hdisjoint heq => ?_)
    exact hdisjoint (ICommand.mem_keys.mpr (.inl rfl)) (ICommand.mem_keys.mpr (.inl heq))
  · rw [hmaps.2]
    refine List.pairwise_filter.mpr (List.pairwise_map.mpr (hkeys.imp fun {a b} hdisjoint => ?_))
    intro hne _ heq
    simp only [ne_eq, decide_not, Bool.not_eq_true', decide_eq_false_iff_not] at hne
    exact hdisjoint (ICommand.mem_keys.mpr (.inr ⟨hne, rfl⟩))
      (ICommand.mem_keys.mpr (.inr ⟨heq ▸ hne, heq⟩))

/-- The commands of the descriptions of a node, which share no key with each other or the help. -/
def Lists (interfaces : List ServiceDescriptor) (cmds : List ICommand) : Prop :=
  (interfaces.flatMap described).map CommandProtobuf = cmds.map .ok ∧
    (cmds ++ [CmdHelp]).Pairwise fun a b => List.Disjoint a.keys b.keys

theorem loadModuleCommandSet_remote (hnode : nodes.node moduleId = some (cliInterface interfaces))
    (hids : (interfaces.map (·.interfaceId)).Nodup) :
    (∀ set, Executor.loadModuleCommandSet nodes (remoteModule moduleId).1 CommandSet.new = .ok set →
      ∃ cmds, Lists interfaces cmds ∧ set.cmds.Perm (cmds ++ [CmdHelp])) ∧
      ∀ cmds, Lists interfaces cmds →
        ∃ set, Executor.loadModuleCommandSet nodes (remoteModule moduleId).1 CommandSet.new =
          .ok set := by
  simp only [Executor.loadModuleCommandSet, remoteModule, Bool.false_eq_true, if_false, hnode,
    cliInterface]
  constructor
  · intro set h
    cases hlist : getCliCommandSetDescription interfaces with
    | error e => simp [hlist] at h
    | ok commands =>
      obtain ⟨rfl, hvalid⟩ := (getCliCommandSetDescription_ok_iff hids).mp hlist
      have hall : ∀ c ∈ interfaces.flatMap described, isCommandValid c :=
        fun c hc => isCommandValid_of_mem hc
      have hset : isCommandSetValid false (interfaces.flatMap described) [] [] :=
        isCommandSetValid_iff.mpr ⟨fun _ => hall, (isCommandSetValid_iff.mp hvalid).2⟩
      simp only [hlist, hset, if_true] at h
      obtain ⟨hdistinct, cmds, hcmds, hperm⟩ := addRemoteCmds_ok CommandSet.distinct_new h
      refine ⟨cmds, ⟨hcmds, ?_⟩, hperm⟩
      exact (hperm.pairwise_iff fun h => List.disjoint_comm.mp h).mp hdistinct.keys
  · rintro cmds ⟨hcmds, hkeys⟩
    have hall : ∀ c ∈ interfaces.flatMap described, isCommandValid c :=
      fun c hc => isCommandValid_of_mem hc
    have hvalid : ∀ assured, isCommandSetValid assured (interfaces.flatMap described) [] [] :=
      fun assured => isCommandSetValid_of_keys hcmds (List.pairwise_append.mp hkeys).1 hall
    have hlist := (getCliCommandSetDescription_ok_iff hids).mpr ⟨rfl, hvalid true⟩
    simp only [hlist, hvalid false, if_true]
    exact exists_addRemoteCmds hcmds hkeys

theorem execute_remote_help (h : Executor.addModules registrations Executor.new = .ok ex)
    (hremote : .remote moduleId ∈ registrations) (hmodule : isLongKeyValid moduleId)
    (hfree : ∀ e ∈ ex.modules, e.1.isNamed moduleId = false)
    (hdiscovered : moduleId ∈ nodes.discovered) (hnode : nodes.node moduleId = some cli)
    (program : Bytes) :
    ex.execute nodes
        [program, LONG_KEY_PREFIX ++ moduleId, LONG_KEY_PREFIX ++ CLIList.helpLongKey] =
      (Executor.loadModuleCommandSet nodes (remoteModule moduleId).1 CommandSet.new).map
        fun set => .moduleHelp [] set 0 := by
  have hne : moduleId ≠ [] := by
    rintro rfl
    cases hmodule
  have hsupported := (supported_addModules registered_new h).2 moduleId hremote
  have hfind := find?_discoverModules hne hsupported hdiscovered hfree
  have hlookup : (ex.discoverModules nodes).lookupModule moduleId = remoteModule moduleId := by
    simp only [Executor.lookupModule, hfind]
  have hname : CLIElement.getValidKeyName { value := LONG_KEY_PREFIX ++ CLIList.helpLongKey } =
      CLIList.helpLongKey := getValidKeyName_longKey (by decide)
  have hget : CommandSet.new.getCmd CLIList.helpLongKey = .ok CmdHelp := rfl
  have hhas : CommandSet.new.hasCmd CLIList.helpLongKey := rfl
  have hlong : CLIList.helpLongKey ≠ [] := by decide
  unfold Executor.execute
  rw [if_neg (by simp)]
  simp only [Executor.executeList, CLIList.create, List.tail_cons, List.map_cons, List.map_nil,
    Executor.lookupCommand, getValidKeyName_longKey hmodule, hname, if_neg hne, if_neg hlong,
    hlookup, hfind, Option.isSome_some, if_true, remoteModule, hnode, Option.isNone_some,
    Bool.and_false, Bool.false_eq_true, if_false, Executor.findCommand, hhas, Bool.or_true, hget,
    Except.map, Except.bind, CmdHelp, Executor.executeList.printHelp]

/-- The help of a module on another node lists the commands that the node describes, unless two of
them share a key, or one of them has a key of the help: then an exception is raised in its place. -/
theorem remote_help (h : Executor.addModules registrations Executor.new = .ok ex)
    (hremote : .remote moduleId ∈ registrations) (hmodule : isLongKeyValid moduleId)
    (hfree : ∀ e ∈ ex.modules, e.1.isNamed moduleId = false)
    (hdiscovered : moduleId ∈ nodes.discovered)
    (hnode : nodes.node moduleId = some (cliInterface interfaces))
    (hids : (interfaces.map (·.interfaceId)).Nodup) (program : Bytes) :
    (∀ outcome, ex.execute nodes
          [program, LONG_KEY_PREFIX ++ moduleId, LONG_KEY_PREFIX ++ CLIList.helpLongKey] =
            .ok outcome →
        ∃ cmds set, Lists interfaces cmds ∧ set.cmds.Perm (cmds ++ [CmdHelp]) ∧
          outcome = .moduleHelp [] set 0) ∧
      ∀ cmds, Lists interfaces cmds → ∃ outcome, ex.execute nodes
        [program, LONG_KEY_PREFIX ++ moduleId, LONG_KEY_PREFIX ++ CLIList.helpLongKey] =
          .ok outcome := by
  rw [execute_remote_help h hremote hmodule hfree hdiscovered hnode program]
  obtain ⟨hloads, hexists⟩ := loadModuleCommandSet_remote hnode hids
  constructor
  · intro outcome houtcome
    cases hload : Executor.loadModuleCommandSet nodes (remoteModule moduleId).1 CommandSet.new with
    | error e => simp [hload, Except.map] at houtcome
    | ok set =>
      rw [hload] at houtcome
      obtain rfl := Except.ok.inj houtcome
      obtain ⟨cmds, hlists, hperm⟩ := hloads set hload
      exact ⟨cmds, set, hlists, hperm, rfl⟩
  · intro cmds hlists
    obtain ⟨set, hset⟩ := hexists cmds hlists
    exact ⟨_, by rw [hset]; rfl⟩

theorem remote_help_traceParser : ∃ cmds set, Lists [InterfaceTraceParsing] cmds ∧
    set.cmds.Perm (cmds ++ [CmdHelp]) ∧ remoteParser.execute parserNodes
      ["octf".toUTF8.toList, LONG_KEY_PREFIX ++ parserId, LONG_KEY_PREFIX ++ CLIList.helpLongKey] =
        .ok (.moduleHelp [] set 0) := by
  have hshown : (remoteParser.execute parserNodes
      ["octf".toUTF8.toList, LONG_KEY_PREFIX ++ parserId,
        LONG_KEY_PREFIX ++ CLIList.helpLongKey]).toOption.isSome := by decide +kernel
  cases hok : remoteParser.execute parserNodes ["octf".toUTF8.toList, LONG_KEY_PREFIX ++ parserId,
      LONG_KEY_PREFIX ++ CLIList.helpLongKey] with
  | error e =>
    rw [hok] at hshown
    cases hshown
  | ok outcome =>
    obtain ⟨cmds, set, hlists, hperm, rfl⟩ :=
      (remote_help addModules_remoteParser List.mem_cons_self (by decide +kernel)
        (fun _ he => by cases he) List.mem_cons_self node_parserId (List.nodup_singleton _)
        _).1 outcome hok
    exact ⟨cmds, set, hlists, hperm, rfl⟩

end Octf.Cli
