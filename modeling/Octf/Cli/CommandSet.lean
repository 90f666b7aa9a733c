import Octf.Cli.CommandProtobuf
import Octf.Foundation.Run

/-! Sets of commands, each with a long key and perhaps a short one. -/
namespace Octf.Cli
open Foundation
open Octf.Utils (Bytes)

/-! ### Interfaces and their methods -/

structure OptsInterface where
  version : ℕ := 0
  cli : Bool := false
  cli_short_key : Bytes := []
  cli_long_key : Bytes := []

structure OptsCommand where
  cli : Bool := false
  cli_short_key : Bytes := []
  cli_long_key : Bytes := []
  cli_desc : Bytes := []

/-- A method with the fields of its input; options that it lacks are empty ones. -/
structure MethodDescriptor where
  name : Bytes
  input_type : List FieldDescriptor
  opts_command : Option OptsCommand

def MethodDescriptor.options (method : MethodDescriptor) : OptsCommand :=
  method.opts_command.getD {}

structure ServiceDescriptor where
  name : Bytes
  opts_interface : OptsInterface := {}
  methods : List MethodDescriptor

structure InterfaceId where
  name : Bytes
  version : ℕ
  deriving DecidableEq

def ServiceDescriptor.interfaceId (desc : ServiceDescriptor) : InterfaceId :=
  ⟨desc.name, desc.opts_interface.version⟩

/-! ### Commands -/

/-- What a command is executed by. -/
inductive Target where
  | help | version
  | localMethod (interface method : Bytes)
  | remoteMethod (interface : InterfaceId) (methodId : ℤ)
  deriving DecidableEq

structure ICommand extends Command where
  target : Target
  inputDesc : List FieldDescriptor := []

def ICommand.isNamed (name : Bytes) (cmd : ICommand) : Bool :=
  cmd.longKey == name || cmd.shortKey == name

/-- `CmdHelp`, with the keys `H` and `help`. -/
def CmdHelp : ICommand :=
  { shortKey := CLIList.helpShortKey, longKey := CLIList.helpLongKey, target := .help }

/-- `CmdVersion`, with the keys `V` and `version`. -/
def CmdVersion : ICommand :=
  { shortKey := [86], longKey := [118, 101, 114, 115, 105, 111, 110], target := .version }

/-! ### Exceptions -/

inductive ExecutorException where
  | parameter (e : CliException)
  | noLongKey
  | shortKeyConflict (key : Bytes)
  | longKeyConflict (key : Bytes)
  | unknownCommand
  | invalidLongKey (key : Bytes)
  | invalidShortKey (key : Bytes)
  | invalidCommandShortKey
  | invalidCommandLongKey
  | invalidCommandFormat
  | duplicateRemote
  | moduleUnavailable
  | commandList (error : Bytes)
  | commandDescription (error : Bytes)
  | noModuleOrCommand (name : Bytes)
  deriving DecidableEq

def ExecutorException.message : ExecutorException → Bytes
  | .parameter e => e.message
  | .noLongKey => "Added command has no long key.".toUTF8.toList
  | .shortKeyConflict key =>
    "Cannot add command because of short key conflict: ".toUTF8.toList ++ key
  | .longKeyConflict key =>
    "Cannot add command because of long key conflict: ".toUTF8.toList ++ key
  | .unknownCommand => "Unknown command.".toUTF8.toList
  | .invalidLongKey key => "Invalid long key for local protobuf command: ".toUTF8.toList ++ key
  | .invalidShortKey key => "Invalid short key for local protobuf command: ".toUTF8.toList ++ key
  | .invalidCommandShortKey => "Invalid short key for command.".toUTF8.toList
  | .invalidCommandLongKey => "Invalid long key for command.".toUTF8.toList
  | .invalidCommandFormat => "Invalid command format.".toUTF8.toList
  | .duplicateRemote => "Duplicate remote module ids added".toUTF8.toList
  | .moduleUnavailable => "Module unavailable.".toUTF8.toList
  | .commandList error => "Cannot get command list, error: ".toUTF8.toList ++ error
  | .commandDescription error => "Cannot get command description, error: ".toUTF8.toList ++ error
  | .noModuleOrCommand name => "Specify module or command first. Use '".toUTF8.toList ++ name ++
      " -H' for help.".toUTF8.toList

/-! ### The set -/

/-- The commands in the order of their long keys. -/
structure CommandSet where
  cmds : List ICommand

namespace CommandSet

def new : CommandSet := ⟨[CmdHelp]⟩

def getCmd (name : Bytes) (set : CommandSet) : Except ExecutorException ICommand :=
  match set.cmds.find? fun cmd => cmd.isNamed name with
  | some cmd => .ok cmd
  | none => .error .unknownCommand

def hasCmd (name : Bytes) (set : CommandSet) : Bool := set.cmds.any fun cmd => cmd.isNamed name

def addCmd (cmd : ICommand) (set : CommandSet) : Except ExecutorException CommandSet :=
  if cmd.longKey = [] then .error .noLongKey
  else if !cmd.shortKey.isEmpty && set.hasCmd cmd.shortKey then
    .error (.shortKeyConflict cmd.shortKey)
  else if set.hasCmd cmd.longKey then .error (.longKeyConflict cmd.longKey)
  else .ok ⟨set.cmds.orderedInsert (fun a b => a.longKey ≤ b.longKey) cmd⟩

end CommandSet

/-! ### No two commands share a key -/

/-- The keys of a command, the empty one is none. -/
def ICommand.keys (cmd : ICommand) : List Bytes :=
  if cmd.shortKey.isEmpty then [cmd.longKey] else [cmd.longKey, cmd.shortKey]

theorem ICommand.mem_keys {cmd : ICommand} {name : Bytes} :
    name ∈ cmd.keys ↔ name = cmd.longKey ∨ cmd.shortKey ≠ [] ∧ name = cmd.shortKey := by
  unfold keys
  by_cases hshort : cmd.shortKey = [] <;> simp [hshort]

theorem ICommand.isNamed_iff {cmd : ICommand} {name : Bytes} (hname : name ≠ []) :
    cmd.isNamed name ↔ name ∈ cmd.keys := by
  rw [isNamed, Bool.or_eq_true, beq_iff_eq, beq_iff_eq, mem_keys]
  constructor
  · rintro (rfl | rfl)
    · exact .inl rfl
    · exact .inr ⟨hname, rfl⟩
  · rintro (rfl | ⟨-, rfl⟩)
    · exact .inl rfl
    · exact .inr rfl

theorem ICommand.ne_nil_of_mem_keys {cmd : ICommand} {name : Bytes} (hlong : cmd.longKey ≠ [])
    (h : name ∈ cmd.keys) : name ≠ [] := by
  rcases mem_keys.mp h with rfl | ⟨hshort, rfl⟩
  · exact hlong
  · exact hshort

variable {set set' : CommandSet} {cmd cmd' : ICommand} {name : Bytes}

namespace CommandSet

theorem hasCmd_iff (hname : name ≠ []) : set.hasCmd name ↔ ∃ c ∈ set.cmds, name ∈ c.keys := by
  simp only [hasCmd, List.any_eq_true, ICommand.isNamed_iff hname]

/-- Commands that share no key, each with a long one. -/
structure Distinct (set : CommandSet) : Prop where
  longKey : ∀ cmd ∈ set.cmds, cmd.longKey ≠ []
  keys : set.cmds.Pairwise fun a b => List.Disjoint a.keys b.keys

theorem distinct_new : new.Distinct where
  longKey := by simp [new, CmdHelp, CLIList.helpLongKey]
  keys := List.pairwise_singleton _ _

theorem Distinct.eq_of_mem (h : set.Distinct) (hcmd : cmd ∈ set.cmds) (hcmd' : cmd' ∈ set.cmds)
    (hname : name ∈ cmd.keys) (hname' : name ∈ cmd'.keys) : cmd = cmd' := by
  by_contra hne
  have : Std.Symm fun a b : ICommand => List.Disjoint a.keys b.keys :=
    ⟨fun _ _ h => List.disjoint_comm.mp h⟩
  exact h.keys.forall hcmd hcmd' hne hname hname'

/-- A key finds the command that has it. -/
theorem Distinct.getCmd_iff (h : set.Distinct) (hname : name ≠ []) :
    set.getCmd name = .ok cmd ↔ cmd ∈ set.cmds ∧ name ∈ cmd.keys := by
  unfold getCmd
  cases hfind : set.cmds.find? fun cmd => cmd.isNamed name with
  | none =>
    have hall := List.find?_eq_none.mp hfind
    constructor
    · exact fun h => nomatch h
    rintro ⟨hcmd, hkey⟩
    exact (hall cmd hcmd ((ICommand.isNamed_iff hname).mpr hkey)).elim
  | some found =>
    have hmem := List.mem_of_find?_eq_some hfind
    have hkey := (ICommand.isNamed_iff hname).mp (List.find?_some hfind)
    simp only [Except.ok.injEq]
    constructor
    · rintro rfl
      exact ⟨hmem, hkey⟩
    · exact fun ⟨hcmd, hkey'⟩ => h.eq_of_mem hmem hcmd hkey hkey'

/-- A command is added when it has a long key and shares none of its keys. -/
theorem addCmd_ok_iff : set.addCmd cmd = .ok set' ↔
    (cmd.longKey ≠ [] ∧ ∀ key ∈ cmd.keys, ∀ c ∈ set.cmds, key ∉ c.keys) ∧
      set' = ⟨set.cmds.orderedInsert (fun a b => a.longKey ≤ b.longKey) cmd⟩ := by
  unfold addCmd
  by_cases hlong : cmd.longKey = []
  · simp [hlong]
  have hlongKey : set.hasCmd cmd.longKey ↔ ∃ c ∈ set.cmds, cmd.longKey ∈ c.keys := hasCmd_iff hlong
  rw [if_neg hlong]
  split_ifs with hshort hhas
  · -- the short key is taken
    obtain ⟨hne, htaken⟩ : cmd.shortKey ≠ [] ∧ set.hasCmd cmd.shortKey := by simpa using hshort
    obtain ⟨c, hc, hkey⟩ := (hasCmd_iff hne).mp htaken
    simp only [false_iff, not_and]
    exact fun ⟨_, hfree⟩ => (hfree _ (ICommand.mem_keys.mpr (.inr ⟨hne, rfl⟩)) c hc hkey).elim
  · obtain ⟨c, hc, hkey⟩ := hlongKey.mp hhas
    simp only [false_iff, not_and]
    exact fun ⟨_, hfree⟩ => (hfree _ (ICommand.mem_keys.mpr (.inl rfl)) c hc hkey).elim
  · have hfree : ∀ key ∈ cmd.keys, ∀ c ∈ set.cmds, key ∉ c.keys := by
      intro key hkey c hc hkey'
      rcases ICommand.mem_keys.mp hkey with rfl | ⟨hne, rfl⟩
      · exact hhas (hlongKey.mpr ⟨c, hc, hkey'⟩)
      · exact hshort (by simpa [hne] using (hasCmd_iff hne).mpr ⟨c, hc, hkey'⟩)
    rw [Except.ok.injEq]
    exact ⟨fun h => ⟨⟨hlong, hfree⟩, h.symm⟩, fun h => h.2.symm⟩

theorem addCmd_distinct (hset : set.Distinct) (h : set.addCmd cmd = .ok set') :
    set'.Distinct ∧ ∀ c, c ∈ set'.cmds ↔ c = cmd ∨ c ∈ set.cmds := by
  obtain ⟨⟨hlong, hfree⟩, rfl⟩ := addCmd_ok_iff.mp h
  have hperm := List.perm_orderedInsert (fun a b : ICommand => a.longKey ≤ b.longKey) cmd set.cmds
  have hmem : ∀ c, c ∈ set.cmds.orderedInsert (fun a b => a.longKey ≤ b.longKey) cmd ↔
      c = cmd ∨ c ∈ set.cmds := fun c => hperm.mem_iff.trans List.mem_cons
  refine ⟨⟨fun c hc => ?_, ?_⟩, hmem⟩
  · rcases (hmem c).mp hc with rfl | hc
    · exact hlong
    · exact hset.longKey c hc
  · refine (hperm.pairwise_iff fun h => List.disjoint_comm.mp h).mpr
      (List.pairwise_cons.mpr ⟨?_, hset.keys⟩)
    exact fun c hc key hkey hkey' => hfree key hkey c hc hkey'

end CommandSet

end Octf.Cli
