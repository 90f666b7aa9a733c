import Octf.Cli.CommandSet

/-! The modules and commands of an application, and the execution of its command line. The texts
of the help are left out. -/
namespace Octf.Cli
open Foundation
open Octf.Utils (Bytes)

structure Module where
  shortKey : Bytes := []
  longKey : Bytes := []
  isLocal : Bool := false
  deriving DecidableEq

namespace Module

/-- `operator<`. -/
def before (m m' : Module) : Bool :=
  if m.shortKey ≠ m'.shortKey then m.shortKey < m'.shortKey else m.longKey < m'.longKey

def isNamed (name : Bytes) (m : Module) : Bool := name == m.shortKey || name == m.longKey

end Module

structure Executor where
  localCmdSet : CommandSet
  /-- in the order of their keys -/
  modules : List (Module × CommandSet)
  supportedRemoteModules : List Bytes
  /-- the module that was looked up last -/
  currentModule : Module := {}
  /-- the name of the application -/
  name : Bytes := []

/-! ### Registration -/

/-- `m_modules[module] = cmdSet`, where a module with the same keys stays and gets the commands. -/
def assignModule (m : Module) (cmdSet : CommandSet) :
    List (Module × CommandSet) → List (Module × CommandSet)
  | [] => [(m, cmdSet)]
  | e :: modules =>
    if m.before e.1 then (m, cmdSet) :: e :: modules
    else if e.1.before m then e :: assignModule m cmdSet modules
    else (e.1, cmdSet) :: modules

/-- `CommandProtobufLocal`, the command of a method. -/
def CommandProtobufLocal (interface : ServiceDescriptor) (method : MethodDescriptor) :
    Except ExecutorException ICommand :=
  let shortKey := method.options.cli_short_key
  let longKey := method.options.cli_long_key
  if !isLongKeyValid longKey then .error (.invalidLongKey longKey)
  else if !isShortKeyValid shortKey then .error (.invalidShortKey shortKey)
  else match Command.createParameters method.input_type { shortKey, longKey, isLocal := true } with
    | .error e => .error (.parameter e)
    | .ok cmd => .ok { cmd with
        target := .localMethod interface.name method.name
        inputDesc := method.input_type }

namespace Executor

def new : Executor where
  localCmdSet := ⟨[CmdHelp, CmdVersion]⟩
  modules := []
  supportedRemoteModules := []

def checkIsKeyRepeated (shortKey longKey : Bytes) (ex : Executor) : Except ExecutorException Unit :=
  if ex.localCmdSet.hasCmd longKey then .error (.longKeyConflict longKey)
  else if !shortKey.isEmpty && ex.localCmdSet.hasCmd shortKey then
    .error (.shortKeyConflict shortKey)
  else match ex.modules.find? fun m =>
      m.1.longKey == longKey || (!shortKey.isEmpty && m.1.shortKey == shortKey) with
    | none => .ok ()
    | some m => if m.1.longKey = longKey then .error (.longKeyConflict longKey)
      else .error (.shortKeyConflict shortKey)

/-- The methods of an interface that is a module of its own. -/
def addInterface (interface : ServiceDescriptor) :
    List MethodDescriptor → CommandSet → Except ExecutorException CommandSet
  | [], cmdSet => .ok cmdSet
  | method :: methods, cmdSet =>
    (CommandProtobufLocal interface method).bind fun cmd =>
      (cmdSet.addCmd cmd).bind (addInterface interface methods)

/-- The methods of an interface without a key, each held against the modules as well. -/
def addLocalInterface (interface : ServiceDescriptor) :
    List MethodDescriptor → Executor → Except ExecutorException Executor
  | [], ex => .ok ex
  | method :: methods, ex =>
    (ex.checkIsKeyRepeated method.options.cli_short_key method.options.cli_long_key).bind fun _ =>
      (CommandProtobufLocal interface method).bind fun cmd =>
        (ex.localCmdSet.addCmd cmd).bind fun localCmdSet =>
          addLocalInterface interface methods { ex with localCmdSet }

def addLocalModule (interface : ServiceDescriptor) (ex : Executor) :
    Except ExecutorException Executor :=
  let shortKey := interface.opts_interface.cli_short_key
  let longKey := interface.opts_interface.cli_long_key
  (ex.checkIsKeyRepeated shortKey longKey).bind fun _ =>
    (addInterface interface interface.methods CommandSet.new).map fun cmdSet =>
      { ex with modules := assignModule { shortKey, longKey, isLocal := true } cmdSet ex.modules }

inductive Registration where
  | interface (interface : ServiceDescriptor)
  | remote (moduleId : Bytes)

/-- What an exception leaves behind is left out. -/
def addModule (ex : Executor) : Registration → Except ExecutorException Executor
  | .interface interface =>
    if interface.opts_interface.cli_long_key ≠ [] then ex.addLocalModule interface
    else addLocalInterface interface interface.methods ex
  | .remote moduleId =>
    if moduleId ∈ ex.supportedRemoteModules then .error .duplicateRemote
    else .ok { ex with supportedRemoteModules := ex.supportedRemoteModules ++ [moduleId] }

def addModules : List Registration → Executor → Except ExecutorException Executor
  | [], ex => .ok ex
  | r :: registrations, ex => (ex.addModule r).bind (addModules registrations)

end Executor

/-! ### Modules of other applications -/

/-- The description of a command, with the fields of its input type in place of its file. -/
structure CliCommandDesc where
  interface : InterfaceId
  methodId : ℤ
  cmdOps : OptsCommand
  inputDesc : List FieldDescriptor

def isCommandValid (cmd : CliCommandDesc) : Bool :=
  isLongKeyValid cmd.cmdOps.cli_long_key &&
    (isShortKeyValid cmd.cmdOps.cli_short_key || cmd.cmdOps.cli_short_key.isEmpty) &&
      isDescValid cmd.cmdOps.cli_desc

/-- Keys are unique among the commands; no short key is shared. -/
def isCommandSetValid (validCommandsAssured : Bool) :
    List CliCommandDesc → List Bytes → List Bytes → Bool
  | [], _, _ => true
  | cmd :: commands, longKeys, shortKeys =>
    let longKey := cmd.cmdOps.cli_long_key
    let shortKey := cmd.cmdOps.cli_short_key
    if !validCommandsAssured && !isCommandValid cmd then false
    else if longKey ∈ longKeys then false
    else if shortKey = [] then
      isCommandSetValid validCommandsAssured commands (longKey :: longKeys) shortKeys
    else if shortKey ∈ shortKeys then false
    else isCommandSetValid validCommandsAssured commands (longKey :: longKeys)
      (shortKey :: shortKeys)

/-- The CLI interface of a node: a call gives a description, or fails with a text. -/
structure CliInterface where
  getCliCommandSetDescription : Except Bytes (List CliCommandDesc)
  getCliCommandDescription : Bytes → Except Bytes CliCommandDesc

/-- The nodes whose sockets are found, and those that answer. -/
structure Nodes where
  discovered : List Bytes
  node : Bytes → Option CliInterface

def CommandProtobuf (cmdDesc : CliCommandDesc) : Except ExecutorException ICommand :=
  let shortKey := cmdDesc.cmdOps.cli_short_key
  let longKey := cmdDesc.cmdOps.cli_long_key
  if !isShortKeyValid shortKey then .error .invalidCommandShortKey
  else if !isLongKeyValid longKey then .error .invalidCommandLongKey
  else match Command.createParameters cmdDesc.inputDesc { shortKey, longKey, isLocal := false } with
    | .error e => .error (.parameter e)
    | .ok cmd => .ok { cmd with
        target := .remoteMethod cmdDesc.interface cmdDesc.methodId
        inputDesc := cmdDesc.inputDesc }

namespace Executor

/-- Of the modules that are found, those that are supported. -/
def discoverModules (nodes : Nodes) (ex : Executor) : Executor :=
  if ex.supportedRemoteModules = [] then ex
  else
    let found := nodes.discovered.filter (· ∈ ex.supportedRemoteModules)
    { ex with
      modules := found.foldl (fun modules id =>
        assignModule { longKey := id } CommandSet.new modules) ex.modules
      supportedRemoteModules := if found = [] then [] else ex.supportedRemoteModules }

/-! ### Execution -/

/-- What lookup gives: the command, if any, among the commands of a module or of the application,
and what is left of the command line. -/
structure Lookup where
  command : Option ICommand
  errMsg : Bytes := []
  module? : Option Module
  cmdSet : CommandSet
  cliList : CLIList

def getCommandFromModule (name : Bytes) (cli : CliInterface) :
    Except ExecutorException (Option ICommand) :=
  match cli.getCliCommandDescription name with
  | .error error => .error (.commandDescription error)
  | .ok cliCmd => if isCommandValid cliCmd then (CommandProtobuf cliCmd).map some else .ok none

/-- The module of a key stays looked up for the next command line. -/
def lookupModule (name : Bytes) (ex : Executor) : Module × CommandSet :=
  match ex.modules.find? fun m => m.1.isNamed name with
  | some m => m
  | none => ({ ex.currentModule with isLocal := true }, ex.localCmdSet)

/-- The command of a key in the commands at hand, or from the node of the module. -/
def findCommand (nodes : Nodes) (m : Module) (cmdSet : CommandSet) (name : Bytes) :
    Except ExecutorException (Option ICommand) :=
  if m.isLocal || cmdSet.hasCmd name then (cmdSet.getCmd name).map some
  else match nodes.node m.longKey with
    | none => .ok none
    | some cli => getCommandFromModule name cli

def lookupCommand (nodes : Nodes) (cliList : CLIList) (ex : Executor) :
    Except ExecutorException Lookup :=
  match cliList with
  | [] => .error .invalidCommandFormat
  | element :: cliList =>
    let key := element.getValidKeyName
    if key = [] then .error .invalidCommandFormat
    else
      let (m, cmdSet) := ex.lookupModule key
      let module? := if (ex.modules.find? fun m => m.1.isNamed key).isSome then some m else none
      if m.longKey = [] then
        (findCommand nodes m cmdSet key).map fun command => { command, module?, cmdSet, cliList }
      else if !m.isLocal && (nodes.node m.longKey).isNone then .error .moduleUnavailable
      else match cliList with
        | [] => .ok
          { command := none, errMsg := "No command specified".toUTF8.toList
            module?, cmdSet, cliList }
        | element :: cliList =>
          let cmd := element.getValidKeyName
          if cmd = [] then .ok
            { command := none, errMsg := "Invalid command format.".toUTF8.toList
              module?, cmdSet, cliList }
          else (findCommand nodes m cmdSet cmd).map fun command =>
            { command, module?, cmdSet, cliList }

/-- The commands of a module for its help. They are asked for when they are not local, and are
taken when no two share a key. -/
def addRemoteCmds : List CliCommandDesc → CommandSet → Except ExecutorException CommandSet
  | [], cmdSet => .ok cmdSet
  | cmdDesc :: commands, cmdSet =>
    (CommandProtobuf cmdDesc).bind fun cmd => (cmdSet.addCmd cmd).bind (addRemoteCmds commands)

def loadModuleCommandSet (nodes : Nodes) (m : Module) (cmdSet : CommandSet) :
    Except ExecutorException CommandSet :=
  if m.isLocal then .ok cmdSet
  else match nodes.node m.longKey with
    | none => .ok cmdSet
    | some cli => match cli.getCliCommandSetDescription with
      | .error error => .error (.commandList error)
      | .ok commands =>
        if isCommandSetValid false commands [] [] then addRemoteCmds commands cmdSet else .ok cmdSet

/-- What an execution does, with its result where that differs. -/
inductive Outcome where
  | mainHelp (errMsg : Bytes) (result : ℕ)
  | moduleHelp (errMsg : Bytes) (cmdSet : CommandSet) (result : ℕ)
  | commandHelp (cmd : ICommand)
  | parseError (e : CliException) (cmd : ICommand)
  | helpText
  | version
  | called (target : Target) (message : Message)

def executeCommand (cmd : ICommand) (cliList : CLIList) : Except ExecutorException Outcome :=
  if CLIList.hasHelp cliList then .ok (.commandHelp cmd)
  else match cmd.parseParamValues cliList with
    | .error e => .ok (.parseError e cmd)
    | .ok parsed => match cmd.target with
      | .help => .ok .helpText
      | .version => .ok .version
      | target => match Command.parseToProtobuf cmd.inputDesc parsed with
        | .error e => .error (.parameter e)
        | .ok message => .ok (.called target message)

def executeList (nodes : Nodes) (cliList : CLIList) (ex : Executor) :
    Except ExecutorException Outcome :=
  (lookupCommand nodes cliList (ex.discoverModules nodes)).bind fun found =>
    match found.command with
    | some cmd =>
      if cmd.target = .help then printHelp nodes found 0 else executeCommand cmd found.cliList
    | none => printHelp nodes found 1
where
  printHelp (nodes : Nodes) (found : Lookup) (result : ℕ) : Except ExecutorException Outcome :=
    match found.module? with
    | none => .ok (.mainHelp found.errMsg result)
    | some m => (loadModuleCommandSet nodes m found.cmdSet).map fun cmdSet =>
        .moduleHelp found.errMsg cmdSet result

/-- The command line of the application, its name included. -/
def execute (nodes : Nodes) (arguments : List Bytes) (ex : Executor) :
    Except ExecutorException Outcome :=
  if arguments.length ≤ 1 then .error (.noModuleOrCommand ex.name)
  else ex.executeList nodes (CLIList.create arguments)

end Executor

end Octf.Cli
