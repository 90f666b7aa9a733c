import Octf.Cli.Registration

/-! From a command line to the method of an interface. -/
namespace Octf.Cli
open Foundation
open Octf.Utils (Bytes)
open Executor (Registration Lookup executeCommand)

variable {ex : Executor} {nodes : Nodes} {interface : ServiceDescriptor} {method : MethodDescriptor}
  {cmd : ICommand} {message : Message} {registrations : List Registration}

/-- The long keys of the module, if the interface is one, and of the command. -/
def ServiceDescriptor.address (interface : ServiceDescriptor) (method : MethodDescriptor) :
    List Bytes :=
  (if interface.opts_interface.cli_long_key = [] then []
    else [LONG_KEY_PREFIX ++ interface.opts_interface.cli_long_key]) ++
      [LONG_KEY_PREFIX ++ method.options.cli_long_key]

theorem getValidKeyName_longKey {key : Bytes} (hkey : isLongKeyValid key) :
    CLIElement.getValidKeyName { value := LONG_KEY_PREFIX ++ key } = key := by
  have hne : key ≠ [] := by
    rintro rfl
    cases hkey
  exact (CLIElement.getValidKeyName_eq_iff hne).mpr (.inl ⟨rfl, hkey⟩)

/-! ### The way to a command -/

theorem discoverModules_of_local (h : ex.supportedRemoteModules = []) :
    ex.discoverModules nodes = ex := by
  unfold Executor.discoverModules
  exact if_pos h

/-- A command that lookup finds is executed with what is left of the command line. -/
theorem executeList_of_lookup {cliList : CLIList} {found : Lookup}
    (hfound : (ex.discoverModules nodes).lookupCommand nodes cliList = .ok found)
    (hcmd : found.command = some cmd) (htarget : cmd.target ≠ .help) :
    ex.executeList nodes cliList = executeCommand cmd found.cliList := by
  unfold Executor.executeList
  rw [hfound]
  simp [Except.bind, hcmd, htarget]

/-- A command of the application is looked up by its key. -/
theorem lookupCommand_local {key : Bytes} (nodes : Nodes) (rest : CLIList) (hex : Registered ex)
    (hfinds : ex.Finds)
    (hvalid : isLongKeyValid key) (hcmd : cmd ∈ ex.localCmdSet.cmds) (hkey : key ∈ cmd.keys) :
    ∃ found, ex.lookupCommand nodes ({ value := LONG_KEY_PREFIX ++ key } :: rest) = .ok found ∧
      found.command = some cmd ∧ found.cliList = rest := by
  have hne := ICommand.ne_nil_of_mem_keys (hex.commands.longKey cmd hcmd) hkey
  obtain ⟨hnone, hget⟩ := hfinds.commands cmd hcmd key hkey
  have hmodule : ex.lookupModule key =
    ({ ex.currentModule with isLocal := true }, ex.localCmdSet) := by
    simp only [Executor.lookupModule, hnone]
  simp only [Executor.lookupCommand, getValidKeyName_longKey hvalid, if_neg hne, hmodule,
    if_pos hex.currentModule, Executor.findCommand, Bool.true_or, if_true, hget]
  exact ⟨_, rfl, rfl, rfl⟩

/-- A command of a module is looked up by the keys of both. -/
theorem lookupCommand_module {e : Module × CommandSet} {moduleKey key : Bytes} (nodes : Nodes)
    (rest : CLIList) (hex : Registered ex) (hfinds : ex.Finds) (he : e ∈ ex.modules)
    (hmodule : moduleKey ∈ e.1.keys)
    (hmoduleValid : isLongKeyValid moduleKey) (hvalid : isLongKeyValid key) (hcmd : cmd ∈ e.2.cmds)
    (hkey : key ∈ cmd.keys) :
    ∃ found, ex.lookupCommand nodes ({ value := LONG_KEY_PREFIX ++ moduleKey } ::
        { value := LONG_KEY_PREFIX ++ key } :: rest) = .ok found ∧
      found.command = some cmd ∧ found.cliList = rest := by
  have hdistinct := hex.cmdSets e he
  have hne := ICommand.ne_nil_of_mem_keys (hdistinct.longKey cmd hcmd) hkey
  have hget := (hdistinct.getCmd_iff hne).mpr ⟨hcmd, hkey⟩
  have hlookup : ex.lookupModule moduleKey = e := by
    simp only [Executor.lookupModule, hfinds.modules e he moduleKey hmodule]
  simp only [Executor.lookupCommand, getValidKeyName_longKey hmoduleValid,
    getValidKeyName_longKey hvalid, if_neg (hex.keys_ne_nil he hmodule), if_neg hne, hlookup,
    if_neg (hex.longKey e he), Executor.findCommand, hex.isLocal e he, Bool.not_true,
    Bool.false_and, Bool.true_or, if_true, hget]
  exact ⟨_, rfl, rfl, rfl⟩

/-- What was registered is executed by its address, on whatever stands behind it. -/
theorem execute_address (nodes : Nodes)
    (h : Executor.addModules registrations Executor.new = .ok ex)
    (hlocal : ∀ moduleId, .remote moduleId ∉ registrations) (hshadow : ex.NoShadow)
    (hinterface : .interface interface ∈ registrations) (hmethod : method ∈ interface.methods)
    (hkey : interface.opts_interface.cli_long_key ≠ [] →
      isLongKeyValid interface.opts_interface.cli_long_key) :
    ∃ cmd, CommandProtobufLocal interface method = .ok cmd ∧ ∀ program argv,
      ex.execute nodes (program :: (interface.address method ++ argv)) =
        executeCommand cmd (cliElements argv) := by
  obtain ⟨hex, -, -, hprovides, hremote⟩ := registered_addModules registered_new h
  have hfinds := hex.finds_iff.mpr hshadow
  have hprovided := hprovides interface hinterface
  have hdiscover : ex.discoverModules nodes = ex := discoverModules_of_local (hremote hlocal)
  unfold Provides at hprovided
  unfold ServiceDescriptor.address Executor.execute
  split_ifs at hprovided ⊢ with hmodule
  · obtain ⟨cmd, hcmd, hmade⟩ := hprovided method hmethod
    obtain ⟨hvalid, ⟨hlong, -⟩, ⟨htarget, -⟩, -⟩ := commandProtobufLocal_ok hmade
    refine ⟨cmd, hmade, fun program argv => ?_⟩
    obtain ⟨found, hfound, hcommand, hrest⟩ := lookupCommand_local nodes
      (cliElements argv) hex hfinds hvalid hcmd (ICommand.mem_keys.mpr (.inl hlong.symm))
    rw [if_neg (by simp)]
    rw [← hdiscover] at hfound
    exact (executeList_of_lookup hfound hcommand (by simp [htarget])).trans (by rw [hrest])
  · obtain ⟨e, he, hlongKey, hmethods⟩ := hprovided
    obtain ⟨cmd, hcmd, hmade⟩ := hmethods method hmethod
    obtain ⟨hvalid, ⟨hlong, -⟩, ⟨htarget, -⟩, -⟩ := commandProtobufLocal_ok hmade
    refine ⟨cmd, hmade, fun program argv => ?_⟩
    obtain ⟨found, hfound, hcommand, hrest⟩ := lookupCommand_module nodes
      (cliElements argv) hex hfinds he (Module.mem_keys.mpr (.inl hlongKey.symm))
      (hkey hmodule) hvalid hcmd (ICommand.mem_keys.mpr (.inl hlong.symm))
    rw [if_neg (by simp)]
    rw [← hdiscover] at hfound
    exact (executeList_of_lookup hfound hcommand (by simp [htarget])).trans (by rw [hrest])

/-! ### What is called -/

/-- A command calls its method with the message of the options, unless help is asked for. -/
theorem executeCommand_called_iff {cliList : CLIList} {target : Target}
    (hhelp : cmd.target ≠ .help) (hversion : cmd.target ≠ .version) :
    executeCommand cmd cliList = .ok (.called target message) ↔ CLIList.hasHelp cliList = false ∧
      target = cmd.target ∧ cmd.toCommand.message cmd.inputDesc cliList = .ok message := by
  unfold executeCommand
  rw [message_ok_iff]
  by_cases hasHelp : CLIList.hasHelp cliList
  · simp [hasHelp]
  rw [if_neg hasHelp]
  cases hparse : cmd.parseParamValues cliList with
  | error e => simp
  | ok parsed =>
    simp only [Bool.not_eq_true] at hasHelp
    simp only [hasHelp, Except.ok.injEq, exists_eq_left', true_and]
    cases htarget : cmd.target with
    | help => exact absurd htarget hhelp
    | version => exact absurd htarget hversion
    | localMethod | remoteMethod =>
      cases parsed.parseToProtobuf cmd.inputDesc <;> simp [eq_comm]

/-- The command lines behind the address of a method that call it, and what it is called with. -/
theorem called_iff (nodes : Nodes) (message : Message)
    (h : Executor.addModules registrations Executor.new = .ok ex)
    (hlocal : ∀ moduleId, .remote moduleId ∉ registrations) (hshadow : ex.NoShadow)
    (hinterface : .interface interface ∈ registrations) (hmethod : method ∈ interface.methods)
    (hkey : interface.opts_interface.cli_long_key ≠ [] →
      isLongKeyValid interface.opts_interface.cli_long_key)
    (hnumbers : (method.input_type.map (·.number)).Nodup) :
    ∃ cmd, CommandProtobufLocal interface method = .ok cmd ∧ Made method.input_type cmd.toCommand ∧
      ∀ program argv, ex.execute nodes (program :: (interface.address method ++ argv)) =
          .ok (.called (.localMethod interface.name method.name) message) ↔
        CLIList.hasHelp (cliElements argv) = false ∧
          cmd.message method.input_type (cliElements argv) = .ok message := by
  obtain ⟨cmd, hcmd, hexecute⟩ :=
    execute_address nodes h hlocal hshadow hinterface hmethod hkey
  obtain ⟨-, -, ⟨htarget, hinput⟩, hcreated⟩ := commandProtobufLocal_ok hcmd
  refine ⟨cmd, hcmd, made_of_createParameters hnumbers rfl hcreated, fun program argv => ?_⟩
  rw [hexecute, executeCommand_called_iff (by simp [htarget]) (by simp [htarget]), htarget, hinput]
  simp

/-- Options of the fields of a method, whose values denote what a message holds. -/
def Tells (interface : ServiceDescriptor) (method : MethodDescriptor) (argv : List Bytes)
    (message : Message) : Prop :=
  ∃ cmd options, CommandProtobufLocal interface method = .ok cmd ∧
    argv = options.flatMap GivenOption.elements ∧
      (∀ o ∈ options, (o.field cmd.toCommand).isSome) ∧ List.Forall₂ (fun f value =>
        f.Denotes (givenFor cmd.toCommand options f.number) value) method.input_type message

theorem hasHelp_eq_false {options : List GivenOption} (h : ∀ o ∈ options,
    o.name ≠ CLIList.helpLongKey ∧ o.name ≠ CLIList.helpShortKey) :
    CLIList.hasHelp (cliElements (options.flatMap GivenOption.elements)) = false := by
  cases options with
  | nil => rfl
  | cons o options =>
    obtain ⟨hlong, hshort⟩ := h o List.mem_cons_self
    simp only [GivenOption.name] at hlong hshort
    simp [GivenOption.elements, cliElements, CLIList.hasHelp, hlong, hshort]

/-! ### Fields whose keys tell them apart -/

def FieldDescriptor.shortKey (f : FieldDescriptor) : Bytes :=
  (f.param.toOption.map (·.shortKey)).getD []

/-- Long keys are valid and no key of another field, and none of them asks for help. -/
def Unambiguous (fields : List FieldDescriptor) : Prop :=
  ∀ f ∈ fields, isLongKeyValid f.longKey ∧
    (f.longKey ≠ CLIList.helpLongKey ∧ f.longKey ≠ CLIList.helpShortKey) ∧
      ∀ g ∈ fields, g.shortKey = f.longKey ∨ g.longKey = f.longKey → g.number = f.number

theorem Made.unambiguous {fields : List FieldDescriptor} {cmd : Command} (hmade : Made fields cmd)
    (h : Unambiguous fields) : cmd.Unambiguous := by
  intro p hp
  obtain ⟨f, hf, hparam⟩ := hmade.field p hp
  obtain ⟨hvalid, -, hone⟩ := h f hf
  rw [longKey_of_param hparam] at hvalid hone
  refine ⟨hvalid, fun q hq hnamed => ?_⟩
  obtain ⟨g, hg, hparam'⟩ := hmade.field q hq
  rw [param_index hparam, param_index hparam']
  refine hone g hg ?_
  rw [longKey_of_param hparam', show g.shortKey = q.shortKey by
    simp [FieldDescriptor.shortKey, hparam', Except.toOption]]
  simpa [Parameter.isNamed] using hnamed

/-- Parameters can be made for such fields. -/
theorem exists_createParameters {fields : List FieldDescriptor} {cmd : Command}
    (hparam : ∀ f ∈ fields, ∃ p, f.param = .ok p)
    (hlongKeys : (fields.map FieldDescriptor.longKey).Nodup)
    (hfree : ∀ f ∈ fields, ∀ p ∈ cmd.params, p.longKey ≠ f.longKey) :
    ∃ cmd', cmd.createParameters fields = .ok cmd' := by
  induction fields generalizing cmd with
  | nil => exact ⟨cmd, rfl⟩
  | cons f fields ih =>
    obtain ⟨p, hp⟩ := hparam f List.mem_cons_self
    obtain ⟨hnot, hlongKeys⟩ := List.nodup_cons.mp hlongKeys
    have hkey := longKey_of_param hp
    have hany : (cmd.params.any fun q => q.longKey == p.longKey) = false := by
      rw [List.any_eq_false]
      intro q hq
      simpa [hkey] using hfree f List.mem_cons_self q hq
    unfold Command.createParameters
    simp only [hp, Except.bind, Command.addParam, hany, Bool.false_eq_true, if_false]
    refine ih (fun g hg => hparam g (List.mem_cons_of_mem _ hg)) hlongKeys fun g hg q hq => ?_
    rcases (List.mem_orderedInsert _).mp hq with rfl | hq
    · exact fun heq => hnot (List.mem_map.mpr ⟨g, hg, by rw [← heq, hkey]⟩)
    · exact hfree g (List.mem_cons_of_mem _ hg) q hq

theorem Unambiguous.exists_createParameters {fields : List FieldDescriptor} (cmd : Command)
    (h : Unambiguous fields) (hnumbers : (fields.map (·.number)).Nodup) (hempty : cmd.params = []) :
    ∃ cmd', cmd.createParameters fields = .ok cmd' := by
  refine Octf.Cli.exists_createParameters (fun f hf => ?_) ?_ (by simp [hempty])
  · cases hparam : f.param with
    | ok p => exact ⟨p, rfl⟩
    | error e =>
      have hvalid := (h f hf).1
      simp [FieldDescriptor.longKey, hparam, Except.toOption, isLongKeyValid] at hvalid
  · refine List.Nodup.map_on (fun f hf g hg hkey => ?_) hnumbers.of_map
    exact List.inj_on_of_nodup_map hnumbers hf hg ((h g hg).2.2 f hf (.inr hkey))

theorem exists_of_mem_optionsFor {fields : List FieldDescriptor} {message : Message}
    {o : GivenOption} (ho : o ∈ optionsFor fields message) :
    ∃ f ∈ fields, ∃ v, o = longOption f.longKey v := by
  induction fields generalizing message with
  | nil => cases ho
  | cons f fields ih =>
    cases message with
    | nil => cases ho
    | cons value message =>
      rcases List.mem_append.mp ho with ho | ho
      · obtain ⟨v, -, rfl⟩ := Option.map_eq_some_iff.mp (Option.mem_toList.mp ho)
        exact ⟨f, List.mem_cons_self, v, rfl⟩
      · obtain ⟨g, hg, v, rfl⟩ := ih ho
        exact ⟨g, List.mem_cons_of_mem _ hg, v, rfl⟩

theorem name_of_mem_optionsFor {fields : List FieldDescriptor} (h : Unambiguous fields)
    {o : GivenOption} (ho : o ∈ optionsFor fields message) :
    o.name ≠ CLIList.helpLongKey ∧ o.name ≠ CLIList.helpShortKey := by
  obtain ⟨f, hf, v, rfl⟩ := exists_of_mem_optionsFor ho
  obtain ⟨hvalid, hhelp, -⟩ := h f hf
  rw [show (longOption f.longKey v).name = f.longKey from getValidKeyName_longKey hvalid]
  exact hhelp

/-! ### A parser of traces -/

def OutputFormat : EnumDescriptor where
  values := [⟨0, some "json".toUTF8.toList⟩, ⟨1, some "csv".toUTF8.toList⟩]
  opts_enum_param := some { cli_short_key := [102], cli_long_key := "format".toUTF8.toList
                            cli_param := some (.enum 0) }

def ParseTraceRequest : List FieldDescriptor :=
  [{ number := 1, type := .string
     opts_param := some { cli_required := true, cli_short_key := [112]
                          cli_long_key := "path".toUTF8.toList } },
   { number := 2, type := .enum OutputFormat },
   { number := 3, type := .bool
     opts_param := some { cli_short_key := [114], cli_long_key := "raw".toUTF8.toList } }]

/-- The command `io` of the interface. -/
def ParseTrace : MethodDescriptor where
  name := "ParseTrace".toUTF8.toList
  input_type := ParseTraceRequest
  opts_command := some { cli := true, cli_short_key := [80], cli_long_key := "io".toUTF8.toList
                         cli_desc := "Parses IO trace to human readable form".toUTF8.toList }

def InterfaceTraceParsing : ServiceDescriptor where
  name := "InterfaceTraceParsing".toUTF8.toList
  opts_interface := { version := 1, cli := true, cli_short_key := [80]
                      cli_long_key := "trace-parser".toUTF8.toList }
  methods := [ParseTrace]

/-- An application that parses traces. -/
def traceParser : Executor :=
  ((Executor.addModules [.interface InterfaceTraceParsing] .new).toOption).getD .new

/-- What the application looks like is computed at once. -/
theorem traceParser_computed :
    (Executor.addModules [.interface InterfaceTraceParsing] .new).toOption.isSome ∧
      traceParser.modules.length = 1 ∧
      (∀ e ∈ traceParser.modules, ∀ c ∈ traceParser.localCmdSet.cmds, c.shortKey ≠ e.1.longKey) ∧
      (∀ e ∈ traceParser.modules, ∀ c ∈ traceParser.localCmdSet.cmds, c.longKey ≠ e.1.shortKey) ∧
      isLongKeyValid InterfaceTraceParsing.opts_interface.cli_long_key := by
  decide +kernel

theorem addModules_traceParser :
    Executor.addModules [.interface InterfaceTraceParsing] .new = .ok traceParser := by
  have hok := traceParser_computed.1
  unfold traceParser
  cases h : Executor.addModules [.interface InterfaceTraceParsing] .new with
  | error e => simp [h, Except.toOption] at hok
  | ok ex => rfl

theorem noShadow_traceParser : traceParser.NoShadow := by
  obtain ⟨-, hone, hshort, hlong, -⟩ := traceParser_computed
  obtain ⟨m, hm⟩ := List.length_eq_one_iff.mp hone
  refine ⟨fun e he e' he' _ => ?_, hshort, hlong⟩
  rw [hm, List.mem_singleton] at he he'
  rw [he, he']

theorem isLongKeyValid_traceParser :
    isLongKeyValid InterfaceTraceParsing.opts_interface.cli_long_key :=
  traceParser_computed.2.2.2.2

/-- A trace is parsed to lines of CSV, as it was recorded. -/
def parseOptions : List GivenOption :=
  [longOption "raw".toUTF8.toList none,
   longOption "format".toUTF8.toList (some "csv".toUTF8.toList),
   longOption "path".toUTF8.toList (some "kernel/1".toUTF8.toList)]

def parseMessage : Message :=
  [some (.string "kernel/1".toUTF8.toList), some (.enum 1), some (.bool true)]

def parseCommand : ICommand :=
  ((CommandProtobufLocal InterfaceTraceParsing ParseTrace).toOption).getD CmdHelp

/-- So is what becomes of the options. -/
theorem parseOptions_computed :
    (CommandProtobufLocal InterfaceTraceParsing ParseTrace).toOption.isSome ∧
      parseOptions.Perm (optionsFor ParseTraceRequest parseMessage) ∧
      (∀ f ∈ ParseTrace.input_type,
        (givenFor parseCommand.toCommand parseOptions f.number).length ≤ 1) ∧
      (∀ o ∈ parseOptions, (o.field parseCommand.toCommand).isSome ∧
        o.name ≠ CLIList.helpLongKey ∧ o.name ≠ CLIList.helpShortKey) ∧
      parseCommand.message ParseTrace.input_type
        (cliElements (parseOptions.flatMap GivenOption.elements)) = .ok parseMessage := by
  decide +kernel

theorem commandProtobufLocal_parseCommand :
    CommandProtobufLocal InterfaceTraceParsing ParseTrace = .ok parseCommand := by
  have hok := parseOptions_computed.1
  unfold parseCommand
  cases h : CommandProtobufLocal InterfaceTraceParsing ParseTrace with
  | error e => simp [h, Except.toOption] at hok
  | ok cmd => rfl

/-- The fields can be told apart, and the message can be told by their options. -/
theorem parseMessage_computed : Unambiguous ParseTraceRequest ∧
    List.Forall₂ FieldDescriptor.Tellable ParseTraceRequest parseMessage := by
  refine ⟨by unfold Unambiguous; decide +kernel, .cons ?_ (.cons ?_ (.cons ?_ .nil))⟩
  · exact ⟨_, rfl, .inr ⟨_, rfl, by decide +kernel⟩⟩
  · exact ⟨1, rfl, by decide +kernel⟩
  · exact ⟨true, rfl, fun _ => rfl⟩

theorem execute_parseOptions : traceParser.execute ⟨[], fun _ => none⟩
      ("octf".toUTF8.toList :: (InterfaceTraceParsing.address ParseTrace ++
        parseOptions.flatMap GivenOption.elements)) =
    .ok (.called (.localMethod InterfaceTraceParsing.name ParseTrace.name) parseMessage) := by
  obtain ⟨-, -, -, hnamed, hmessage⟩ := parseOptions_computed
  obtain ⟨cmd, hcmd, -, hiff⟩ := called_iff ⟨[], fun _ => none⟩ parseMessage
    addModules_traceParser (by simp) noShadow_traceParser List.mem_cons_self List.mem_cons_self
    (fun _ => isLongKeyValid_traceParser) (by decide)
  obtain rfl := Except.ok.inj (commandProtobufLocal_parseCommand.symm.trans hcmd)
  exact (hiff _ _).mpr ⟨hasHelp_eq_false fun o ho => (hnamed o ho).2, hmessage⟩

/-! ### The meaning of command lines -/

/-- What was registered is found by each of its keys exactly when no key stands for two things, a
long one here and a short one there. -/
theorem finds_iff_noShadow (h : Executor.addModules registrations Executor.new = .ok ex) :
    ex.Finds ↔ ex.NoShadow :=
  (registered_addModules registered_new h).1.finds_iff

theorem finds_iff_noShadow_traceParser : traceParser.Finds ↔ traceParser.NoShadow :=
  finds_iff_noShadow addModules_traceParser

/-- A method is called exactly by the command lines behind its address that do not ask for help
and tell the message. -/
theorem called_iff_denotes (h : Executor.addModules registrations Executor.new = .ok ex)
    (hlocal : ∀ moduleId, .remote moduleId ∉ registrations) (hshadow : ex.NoShadow)
    (hinterface : .interface interface ∈ registrations) (hmethod : method ∈ interface.methods)
    (hkey : interface.opts_interface.cli_long_key ≠ [] →
      isLongKeyValid interface.opts_interface.cli_long_key)
    (hnumbers : (method.input_type.map (·.number)).Nodup) (program : Bytes) (argv : List Bytes) :
    ex.execute nodes (program :: (interface.address method ++ argv)) =
        .ok (.called (.localMethod interface.name method.name) message) ↔
      CLIList.hasHelp (cliElements argv) = false ∧ Tells interface method argv message := by
  obtain ⟨cmd, hcmd, hmade, hcalled⟩ :=
    called_iff nodes message h hlocal hshadow hinterface hmethod hkey hnumbers
  rw [hcalled program, commandLine_iff hmade]
  refine and_congr_right fun _ => ?_
  constructor
  · rintro ⟨options, hoptions⟩
    exact ⟨cmd, options, hcmd, hoptions⟩
  · rintro ⟨cmd', options, hcmd', hoptions⟩
    obtain rfl := Except.ok.inj (hcmd.symm.trans hcmd')
    exact ⟨options, hoptions⟩

theorem called_iff_denotes_parseTrace : traceParser.execute ⟨[], fun _ => none⟩
        ("octf".toUTF8.toList :: (InterfaceTraceParsing.address ParseTrace ++
          parseOptions.flatMap GivenOption.elements)) =
      .ok (.called (.localMethod InterfaceTraceParsing.name ParseTrace.name) parseMessage) ↔
    CLIList.hasHelp (cliElements (parseOptions.flatMap GivenOption.elements)) = false ∧
      Tells InterfaceTraceParsing ParseTrace (parseOptions.flatMap GivenOption.elements)
        parseMessage :=
  called_iff_denotes addModules_traceParser (by simp) noShadow_traceParser List.mem_cons_self
    List.mem_cons_self (fun _ => isLongKeyValid_traceParser) (by decide) _ _

/-- The order of options does not matter for what a method is called with, unless an enumeration is
given more than once. -/
theorem called_perm {options options' : List GivenOption} (program : Bytes)
    (h : Executor.addModules registrations Executor.new = .ok ex)
    (hlocal : ∀ moduleId, .remote moduleId ∉ registrations) (hshadow : ex.NoShadow)
    (hinterface : .interface interface ∈ registrations) (hmethod : method ∈ interface.methods)
    (hkey : interface.opts_interface.cli_long_key ≠ [] →
      isLongKeyValid interface.opts_interface.cli_long_key)
    (hnumbers : (method.input_type.map (·.number)).Nodup)
    (hcmd : CommandProtobufLocal interface method = .ok cmd)
    (hnamed : ∀ o ∈ options, (o.field cmd.toCommand).isSome ∧
      o.name ≠ CLIList.helpLongKey ∧ o.name ≠ CLIList.helpShortKey)
    (henum : ∀ f ∈ method.input_type, ∀ e, f.type = .enum e →
      (givenFor cmd.toCommand options f.number).length ≤ 1)
    (hperm : options'.Perm options)
    (hcalled : ex.execute nodes
        (program :: (interface.address method ++ options.flatMap GivenOption.elements)) =
      .ok (.called (.localMethod interface.name method.name) message)) :
    ex.execute nodes
        (program :: (interface.address method ++ options'.flatMap GivenOption.elements)) =
      .ok (.called (.localMethod interface.name method.name) message) := by
  obtain ⟨cmd', hcmd', hmade, hiff⟩ :=
    called_iff nodes message h hlocal hshadow hinterface hmethod hkey hnumbers
  obtain rfl := Except.ok.inj (hcmd.symm.trans hcmd')
  refine (hiff program _).mpr ⟨hasHelp_eq_false fun o ho => (hnamed o (hperm.mem_iff.mp ho)).2, ?_⟩
  exact message_perm hmade hperm (fun o ho => (hnamed o ho).1) henum ((hiff program _).mp hcalled).2

theorem called_perm_parseTrace : traceParser.execute ⟨[], fun _ => none⟩
      ("octf".toUTF8.toList :: (InterfaceTraceParsing.address ParseTrace ++
        parseOptions.reverse.flatMap GivenOption.elements)) =
    .ok (.called (.localMethod InterfaceTraceParsing.name ParseTrace.name) parseMessage) :=
  called_perm "octf".toUTF8.toList addModules_traceParser (by simp) noShadow_traceParser
    List.mem_cons_self List.mem_cons_self (fun _ => isLongKeyValid_traceParser) (by decide)
    commandProtobufLocal_parseCommand parseOptions_computed.2.2.2.1
    (fun f hf _ _ => parseOptions_computed.2.2.1 f hf)
    parseOptions.reverse_perm execute_parseOptions

/-- A method is called with the message that its command line tells, by the keys of the interface
and the method and one option for each value of the message, in any order. -/
theorem execute_told {options : List GivenOption} (program : Bytes)
    (h : Executor.addModules registrations Executor.new = .ok ex)
    (hlocal : ∀ moduleId, .remote moduleId ∉ registrations) (hshadow : ex.NoShadow)
    (hinterface : .interface interface ∈ registrations) (hmethod : method ∈ interface.methods)
    (hkey : interface.opts_interface.cli_long_key ≠ [] →
      isLongKeyValid interface.opts_interface.cli_long_key)
    (hnumbers : (method.input_type.map (·.number)).Nodup)
    (hkeys : Unambiguous method.input_type)
    (htell : List.Forall₂ FieldDescriptor.Tellable method.input_type message)
    (hperm : options.Perm (optionsFor method.input_type message)) :
    ex.execute nodes
        (program :: (interface.address method ++ options.flatMap GivenOption.elements)) =
      .ok (.called (.localMethod interface.name method.name) message) := by
  obtain ⟨cmd, -, hmade, hcalled⟩ := called_iff nodes message
    h hlocal hshadow hinterface hmethod hkey hnumbers
  refine (hcalled program _).mpr
    ⟨hasHelp_eq_false fun o ho => name_of_mem_optionsFor hkeys (hperm.mem_iff.mp ho), ?_⟩
  exact message_optionsFor hmade hnumbers (hmade.unambiguous hkeys) htell hperm

theorem execute_told_parseTrace : traceParser.execute ⟨[], fun _ => none⟩
      ("octf".toUTF8.toList :: (InterfaceTraceParsing.address ParseTrace ++
        parseOptions.flatMap GivenOption.elements)) =
    .ok (.called (.localMethod InterfaceTraceParsing.name ParseTrace.name) parseMessage) :=
  execute_told "octf".toUTF8.toList addModules_traceParser (by simp) noShadow_traceParser
    List.mem_cons_self List.mem_cons_self (fun _ => isLongKeyValid_traceParser) (by decide)
    parseMessage_computed.1 parseMessage_computed.2 parseOptions_computed.2.1

end Octf.Cli
