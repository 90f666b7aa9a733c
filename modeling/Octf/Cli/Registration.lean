import Octf.Cli.Executor
import Octf.Cli.CommandText

/-! What an application has registered, and when every key leads to its own module or command. -/
namespace Octf.Cli
open Foundation
open Octf.Utils (Bytes)

variable {m m' : Module} {modules : List (Module × CommandSet)} {cmdSet : CommandSet}
  {ex ex' : Executor} {name : Bytes}

/-! ### The map of modules -/

theorem before_or_before (h : m.shortKey = m'.shortKey → m.longKey ≠ m'.longKey) :
    m.before m' ∨ m'.before m := by
  unfold Module.before
  by_cases hshort : m.shortKey = m'.shortKey
  · simpa [hshort] using lt_or_lt_of_ne (h hshort)
  · simpa [hshort, Ne.symm hshort] using lt_or_lt_of_ne hshort

/-- A module with a new long key is one more entry. -/
theorem perm_assignModule (h : ∀ e ∈ modules, e.1.longKey ≠ m.longKey) :
    (assignModule m cmdSet modules).Perm ((m, cmdSet) :: modules) := by
  induction modules with
  | nil => exact .refl _
  | cons e modules ih =>
    unfold assignModule
    split_ifs with hbefore hbehind
    · exact .refl _
    · exact ((ih fun e he => h e (List.mem_cons_of_mem _ he)).cons e).trans (.swap _ _ _)
    · rcases before_or_before fun _ => h e List.mem_cons_self with hb | hb
      · exact absurd hb hbehind
      · exact absurd hb hbefore

def Module.keys (m : Module) : List Bytes :=
  if m.shortKey.isEmpty then [m.longKey] else [m.longKey, m.shortKey]

theorem Module.mem_keys : name ∈ m.keys ↔
    name = m.longKey ∨ m.shortKey ≠ [] ∧ name = m.shortKey := by
  unfold keys
  by_cases hshort : m.shortKey = [] <;> simp [hshort]

theorem Module.isNamed_iff (hname : name ≠ []) : m.isNamed name ↔ name ∈ m.keys := by
  rw [isNamed, Bool.or_eq_true, beq_iff_eq, beq_iff_eq, mem_keys]
  constructor
  · rintro (rfl | rfl)
    · exact .inr ⟨hname, rfl⟩
    · exact .inl rfl
  · rintro (rfl | ⟨-, rfl⟩)
    · exact .inr rfl
    · exact .inl rfl

/-! ### What registration keeps -/

/-- Keys of one kind are not shared, neither among modules nor with commands of the application. -/
def SameKindDistinct (shortKey longKey shortKey' longKey' : Bytes) : Prop :=
  longKey ≠ longKey' ∧ (shortKey ≠ [] → shortKey ≠ shortKey')

structure Registered (ex : Executor) : Prop where
  commands : ex.localCmdSet.Distinct
  cmdSets : ∀ e ∈ ex.modules, e.2.Distinct
  longKey : ∀ e ∈ ex.modules, e.1.longKey ≠ []
  isLocal : ∀ e ∈ ex.modules, e.1.isLocal
  currentModule : ex.currentModule.longKey = []
  modules : ex.modules.Pairwise fun a b =>
    SameKindDistinct a.1.shortKey a.1.longKey b.1.shortKey b.1.longKey
  against : ∀ e ∈ ex.modules, ∀ c ∈ ex.localCmdSet.cmds,
    SameKindDistinct c.shortKey c.longKey e.1.shortKey e.1.longKey

theorem SameKindDistinct.symm {s l s' l' : Bytes} (h : SameKindDistinct s l s' l') :
    SameKindDistinct s' l' s l :=
  ⟨h.1.symm, fun hne heq => h.2 (heq ▸ hne) heq.symm⟩

theorem registered_new : Registered Executor.new where
  commands := by
    refine ⟨by decide, List.pairwise_pair.mpr ?_⟩
    simp [ICommand.keys, CmdHelp, CmdVersion, CLIList.helpShortKey, CLIList.helpLongKey]
  cmdSets := fun e he => by cases he
  longKey := fun e he => by cases he
  isLocal := fun e he => by cases he
  currentModule := rfl
  modules := List.Pairwise.nil
  against := fun e he => by cases he

theorem checkIsKeyRepeated_ok {shortKey longKey : Bytes} (hlong : longKey ≠ [])
    (h : ex.checkIsKeyRepeated shortKey longKey = .ok ()) :
    (∀ c ∈ ex.localCmdSet.cmds, longKey ∉ c.keys ∧ (shortKey ≠ [] → shortKey ∉ c.keys)) ∧
      ∀ e ∈ ex.modules, SameKindDistinct shortKey longKey e.1.shortKey e.1.longKey := by
  unfold Executor.checkIsKeyRepeated at h
  split_ifs at h with hlocal hshort
  have hlocal' : ∀ c ∈ ex.localCmdSet.cmds, longKey ∉ c.keys := fun c hc hkey =>
    hlocal ((CommandSet.hasCmd_iff hlong).mpr ⟨c, hc, hkey⟩)
  refine ⟨fun c hc => ⟨hlocal' c hc, fun hne hkey => hshort ?_⟩, fun e he => ?_⟩
  · simpa [hne] using (CommandSet.hasCmd_iff hne).mpr ⟨c, hc, hkey⟩
  · cases hfind : ex.modules.find? fun m =>
        m.1.longKey == longKey || (!shortKey.isEmpty && m.1.shortKey == shortKey) with
    | none =>
      have hnone : ¬ e.1.longKey = longKey ∧ (¬ shortKey = [] → ¬ e.1.shortKey = shortKey) := by
        simpa using List.find?_eq_none.mp hfind e he
      exact ⟨Ne.symm hnone.1, fun hne heq => hnone.2 hne heq.symm⟩
    | some found =>
      simp only [hfind] at h
      split_ifs at h

theorem commandProtobufLocal_ok {interface : ServiceDescriptor} {method : MethodDescriptor}
    {cmd : ICommand} (h : CommandProtobufLocal interface method = .ok cmd) :
    isLongKeyValid method.options.cli_long_key ∧
      (cmd.longKey = method.options.cli_long_key ∧ cmd.shortKey = method.options.cli_short_key) ∧
        (cmd.target = .localMethod interface.name method.name ∧ cmd.inputDesc = method.input_type) ∧
          Command.createParameters method.input_type
            { shortKey := method.options.cli_short_key, longKey := method.options.cli_long_key } =
              .ok cmd.toCommand := by
  unfold CommandProtobufLocal at h
  dsimp only at h
  split_ifs at h with hlong hshort
  split at h
  · cases h
  · rename_i made hmade
    obtain rfl := Except.ok.inj h
    obtain ⟨hshortKey, hlongKey⟩ := createParameters_keys hmade
    exact ⟨by simpa using hlong, ⟨hlongKey, hshortKey⟩, ⟨rfl, rfl⟩, hmade⟩

/-- A command that is added among those of the application. -/
theorem registered_addLocal {cmd : ICommand} {localCmdSet : CommandSet} (hex : Registered ex)
    (hcheck : ex.checkIsKeyRepeated cmd.shortKey cmd.longKey = .ok ())
    (hadd : ex.localCmdSet.addCmd cmd = .ok localCmdSet) :
    Registered { ex with localCmdSet } := by
  obtain ⟨hdistinct, hmem⟩ := CommandSet.addCmd_distinct hex.commands hadd
  obtain ⟨⟨hlong, -⟩, -⟩ := CommandSet.addCmd_ok_iff.mp hadd
  refine ⟨hdistinct, hex.cmdSets, hex.longKey, hex.isLocal, hex.currentModule, hex.modules,
    fun e he c hc => ?_⟩
  rcases (hmem c).mp hc with rfl | hc
  · exact (checkIsKeyRepeated_ok hlong hcheck).2 e he
  · exact hex.against e he c hc

theorem distinct_addInterface {interface : ServiceDescriptor} {methods : List MethodDescriptor}
    {set set' : CommandSet} (hset : set.Distinct)
    (h : Executor.addInterface interface methods set = .ok set') :
    set'.Distinct ∧ (∀ c ∈ set.cmds, c ∈ set'.cmds) ∧
      ∀ method ∈ methods, ∃ cmd ∈ set'.cmds, CommandProtobufLocal interface method = .ok cmd := by
  induction methods generalizing set with
  | nil =>
    obtain rfl := Except.ok.inj h
    exact ⟨hset, fun _ => id, fun _ hm => by cases hm⟩
  | cons method methods ih =>
    unfold Executor.addInterface at h
    cases hcmd : CommandProtobufLocal interface method with
    | error e =>
      rw [hcmd] at h
      cases h
    | ok cmd =>
      simp only [hcmd, Except.bind] at h
      cases hadd : set.addCmd cmd with
      | error e =>
        rw [hadd] at h
        cases h
      | ok set₁ =>
        simp only [hadd] at h
        obtain ⟨hdistinct, hmem⟩ := CommandSet.addCmd_distinct hset hadd
        obtain ⟨hset', hkeep, hmethods⟩ := ih hdistinct h
        refine ⟨hset', fun c hc => hkeep c ((hmem c).mpr (.inr hc)), fun method' hm => ?_⟩
        rcases List.mem_cons.mp hm with rfl | hm
        · exact ⟨cmd, hkeep cmd ((hmem cmd).mpr (.inl rfl)), hcmd⟩
        · exact hmethods method' hm

theorem registered_addLocalInterface {interface : ServiceDescriptor}
    {methods : List MethodDescriptor} (hex : Registered ex)
    (h : Executor.addLocalInterface interface methods ex = .ok ex') :
    Registered ex' ∧ ex'.modules = ex.modules ∧
      ex'.supportedRemoteModules = ex.supportedRemoteModules ∧
        (∀ c ∈ ex.localCmdSet.cmds, c ∈ ex'.localCmdSet.cmds) ∧
          ∀ method ∈ methods, ∃ cmd ∈ ex'.localCmdSet.cmds,
            CommandProtobufLocal interface method = .ok cmd := by
  induction methods generalizing ex with
  | nil =>
    obtain rfl := Except.ok.inj h
    exact ⟨hex, rfl, rfl, fun _ => id, fun _ hm => by cases hm⟩
  | cons method methods ih =>
    unfold Executor.addLocalInterface at h
    cases hcheck : ex.checkIsKeyRepeated method.options.cli_short_key
      method.options.cli_long_key with
    | error e =>
      rw [hcheck] at h
      cases h
    | ok u =>
      simp only [hcheck, Except.bind] at h
      cases hcmd : CommandProtobufLocal interface method with
      | error e =>
        rw [hcmd] at h
        cases h
      | ok cmd =>
        simp only [hcmd] at h
        cases hadd : ex.localCmdSet.addCmd cmd with
        | error e =>
          rw [hadd] at h
          cases h
        | ok localCmdSet =>
          simp only [hadd] at h
          obtain ⟨-, ⟨hlong, hshort⟩, -, -⟩ := commandProtobufLocal_ok hcmd
          rw [← hlong, ← hshort] at hcheck
          obtain ⟨-, hmem⟩ := CommandSet.addCmd_distinct hex.commands hadd
          obtain ⟨hex', hmodules, hremote, hkeep, hmethods⟩ :=
            ih (registered_addLocal hex hcheck hadd) h
          refine ⟨hex', hmodules, hremote, fun c hc => hkeep c ((hmem c).mpr (.inr hc)),
            fun method' hm => ?_⟩
          rcases List.mem_cons.mp hm with rfl | hm
          · exact ⟨cmd, hkeep cmd ((hmem cmd).mpr (.inl rfl)), hcmd⟩
          · exact hmethods method' hm

theorem registered_addLocalModule {interface : ServiceDescriptor} (hex : Registered ex)
    (hlong : interface.opts_interface.cli_long_key ≠ [])
    (h : ex.addLocalModule interface = .ok ex') :
    Registered ex' ∧ ex'.localCmdSet = ex.localCmdSet ∧
      ex'.supportedRemoteModules = ex.supportedRemoteModules ∧
        (∀ e ∈ ex.modules, e ∈ ex'.modules) ∧
          ∃ e ∈ ex'.modules, e.1.longKey = interface.opts_interface.cli_long_key ∧
            e.1.shortKey = interface.opts_interface.cli_short_key ∧
              ∀ method ∈ interface.methods, ∃ cmd ∈ e.2.cmds,
                CommandProtobufLocal interface method = .ok cmd := by
  unfold Executor.addLocalModule at h
  dsimp only at h
  cases hcheck : ex.checkIsKeyRepeated interface.opts_interface.cli_short_key
      interface.opts_interface.cli_long_key with
  | error e =>
    rw [hcheck] at h
    cases h
  | ok u =>
    simp only [hcheck, Except.bind] at h
    cases hset : Executor.addInterface interface interface.methods CommandSet.new with
    | error e =>
      rw [hset] at h
      cases h
    | ok cmdSet =>
      rw [hset] at h
      obtain rfl := Except.ok.inj h
      obtain ⟨hfree, hother⟩ := checkIsKeyRepeated_ok hlong hcheck
      obtain ⟨hdistinct, -, hmethods⟩ := distinct_addInterface CommandSet.distinct_new hset
      have hperm : (assignModule { shortKey := interface.opts_interface.cli_short_key
                                   longKey := interface.opts_interface.cli_long_key
                                   isLocal := true } cmdSet ex.modules).Perm _ :=
        perm_assignModule fun e he => Ne.symm (hother e he).1
      have hmem := fun e => hperm.mem_iff (a := e) |>.trans List.mem_cons
      refine ⟨⟨hex.commands, ?_, ?_, ?_, hex.currentModule, ?_, ?_⟩, rfl, rfl,
        fun e he => (hmem e).mpr (.inr he),
        _, (hmem _).mpr (.inl rfl), rfl, rfl, hmethods⟩
      · rintro e he
        rcases (hmem e).mp he with rfl | he
        · exact hdistinct
        · exact hex.cmdSets e he
      · rintro e he
        rcases (hmem e).mp he with rfl | he
        · exact hlong
        · exact hex.longKey e he
      · rintro e he
        rcases (hmem e).mp he with rfl | he
        · rfl
        · exact hex.isLocal e he
      · refine (hperm.pairwise_iff fun h => SameKindDistinct.symm h).mpr
          (List.pairwise_cons.mpr ⟨hother, hex.modules⟩)
      · rintro e he c hc
        rcases (hmem e).mp he with rfl | he
        · obtain ⟨hnotLong, hnotShort⟩ := hfree c hc
          refine SameKindDistinct.symm ⟨fun heq => hnotLong ?_, fun hne heq => hnotShort hne ?_⟩
          · exact ICommand.mem_keys.mpr (.inl heq)
          · exact ICommand.mem_keys.mpr (.inr ⟨fun hnil => hne (heq.trans hnil), heq⟩)
        · exact hex.against e he c hc

/-! ### Runs of registration -/

/-- The commands for the methods of an interface, in its module or among those of the
application. -/
def Provides (ex : Executor) (interface : ServiceDescriptor) : Prop :=
  if interface.opts_interface.cli_long_key = [] then
    ∀ method ∈ interface.methods, ∃ cmd ∈ ex.localCmdSet.cmds,
      CommandProtobufLocal interface method = .ok cmd
  else ∃ e ∈ ex.modules, e.1.longKey = interface.opts_interface.cli_long_key ∧
    ∀ method ∈ interface.methods, ∃ cmd ∈ e.2.cmds, CommandProtobufLocal interface method = .ok cmd

theorem Provides.mono {interface : ServiceDescriptor} (h : Provides ex interface)
    (hcmds : ∀ c ∈ ex.localCmdSet.cmds, c ∈ ex'.localCmdSet.cmds)
    (hmodules : ∀ e ∈ ex.modules, e ∈ ex'.modules) : Provides ex' interface := by
  unfold Provides at h ⊢
  split_ifs at h ⊢
  · exact fun method hm => (h method hm).imp fun cmd ⟨hc, hcmd⟩ => ⟨hcmds cmd hc, hcmd⟩
  · exact h.imp fun e ⟨he, hrest⟩ => ⟨hmodules e he, hrest⟩

open Executor (Registration)

/-- One registration keeps what there is and brings what it registers. -/
theorem registered_addModule {r : Registration} (hex : Registered ex)
    (h : ex.addModule r = .ok ex') :
    Registered ex' ∧ (∀ c ∈ ex.localCmdSet.cmds, c ∈ ex'.localCmdSet.cmds) ∧
      (∀ e ∈ ex.modules, e ∈ ex'.modules) ∧ (∀ i, r = .interface i → Provides ex' i ∧
        ex'.supportedRemoteModules = ex.supportedRemoteModules) := by
  unfold Executor.addModule at h
  cases r with
  | remote moduleId =>
    dsimp only at h
    split_ifs at h
    obtain rfl := Except.ok.inj h
    exact ⟨⟨hex.commands, hex.cmdSets, hex.longKey, hex.isLocal, hex.currentModule, hex.modules,
      hex.against⟩, fun _ hc => hc, fun _ he => he, fun i hi => by cases hi⟩
  | interface interface =>
    dsimp only at h
    split_ifs at h with hlong
    · obtain ⟨hex', hcmds, hremote, hmodules, e, he, hkey, -, hmethods⟩ :=
        registered_addLocalModule hex hlong h
      refine ⟨hex', fun c hc => hcmds ▸ hc, hmodules, ?_⟩
      rintro i hi
      obtain rfl : interface = i := Registration.interface.inj hi
      refine ⟨?_, hremote⟩
      unfold Provides
      rw [if_neg hlong]
      exact ⟨e, he, hkey, hmethods⟩
    · obtain ⟨hex', hmodules, hremote, hcmds, hmethods⟩ := registered_addLocalInterface hex h
      refine ⟨hex', hcmds, fun e he => hmodules ▸ he, ?_⟩
      rintro i hi
      obtain rfl : interface = i := Registration.interface.inj hi
      refine ⟨?_, hremote⟩
      unfold Provides
      rw [if_pos (not_not.mp hlong)]
      exact hmethods

theorem registered_addModules {registrations : List Registration} (hex : Registered ex)
    (h : Executor.addModules registrations ex = .ok ex') :
    Registered ex' ∧ (∀ c ∈ ex.localCmdSet.cmds, c ∈ ex'.localCmdSet.cmds) ∧
      (∀ e ∈ ex.modules, e ∈ ex'.modules) ∧
        (∀ i, .interface i ∈ registrations → Provides ex' i) ∧
          ((∀ id, .remote id ∉ registrations) →
            ex'.supportedRemoteModules = ex.supportedRemoteModules) := by
  induction registrations generalizing ex with
  | nil =>
    obtain rfl := Except.ok.inj h
    refine ⟨hex, fun _ hc => hc, fun _ he => he, fun i hi => ?_, fun _ => rfl⟩
    exact absurd hi List.not_mem_nil
  | cons r registrations ih =>
    unfold Executor.addModules at h
    cases hr : ex.addModule r with
    | error e =>
      rw [hr] at h
      cases h
    | ok ex₁ =>
      rw [hr] at h
      obtain ⟨hex₁, hcmds, hmodules, hbrings⟩ := registered_addModule hex hr
      obtain ⟨hex', hcmds', hmodules', hprovides, hremote⟩ := ih hex₁ h
      refine ⟨hex', fun c hc => hcmds' c (hcmds c hc), fun e he => hmodules' e (hmodules e he),
        fun i hi => ?_, fun hnone => ?_⟩
      · rcases List.mem_cons.mp hi with rfl | hi
        · exact (hbrings i rfl).1.mono hcmds' hmodules'
        · exact hprovides i hi
      · cases r with
        | remote id => exact absurd List.mem_cons_self (hnone id)
        | interface i =>
          rw [hremote fun id hid => hnone id (List.mem_cons_of_mem _ hid), (hbrings i rfl).2]

/-! ### Keys that lead to their own -/

/-- Every key of a module and of a command of the application is found as what it is. -/
structure Executor.Finds (ex : Executor) : Prop where
  modules : ∀ e ∈ ex.modules, ∀ key ∈ e.1.keys,
    (ex.modules.find? fun m => m.1.isNamed key) = some e
  commands : ∀ c ∈ ex.localCmdSet.cmds, ∀ key ∈ c.keys,
    (ex.modules.find? fun m => m.1.isNamed key) = none ∧ ex.localCmdSet.getCmd key = .ok c

/-- No key of one kind is a key of the other kind of something else. -/
structure Executor.NoShadow (ex : Executor) : Prop where
  modules : ∀ e ∈ ex.modules, ∀ e' ∈ ex.modules, e'.1.shortKey = e.1.longKey → e' = e
  shortKey : ∀ e ∈ ex.modules, ∀ c ∈ ex.localCmdSet.cmds, c.shortKey ≠ e.1.longKey
  longKey : ∀ e ∈ ex.modules, ∀ c ∈ ex.localCmdSet.cmds, c.longKey ≠ e.1.shortKey

theorem Registered.keys_ne_nil (hex : Registered ex) {e : Module × CommandSet} (he : e ∈ ex.modules)
    {key : Bytes} (hkey : key ∈ e.1.keys) : key ≠ [] := by
  rcases Module.mem_keys.mp hkey with rfl | ⟨hshort, rfl⟩
  · exact hex.longKey e he
  · exact hshort

theorem Registered.eq_of_keys (hex : Registered ex) (hshadow : ex.NoShadow)
    {e e' : Module × CommandSet} (he : e ∈ ex.modules) (he' : e' ∈ ex.modules) {key : Bytes}
    (hkey : key ∈ e.1.keys) (hkey' : key ∈ e'.1.keys) : e = e' := by
  by_contra hne
  have : Std.Symm fun a b : Module × CommandSet =>
      SameKindDistinct a.1.shortKey a.1.longKey b.1.shortKey b.1.longKey :=
    ⟨fun _ _ h => SameKindDistinct.symm h⟩
  obtain ⟨hlong, hshort⟩ := hex.modules.forall he he' hne
  rcases Module.mem_keys.mp hkey with rfl | ⟨hs, rfl⟩ <;>
    rcases Module.mem_keys.mp hkey' with heq | ⟨hs', heq⟩
  · exact hlong heq
  · exact hne (hshadow.modules e he e' he' heq.symm).symm
  · exact hne (hshadow.modules e' he' e he heq)
  · exact hshort hs heq

theorem Registered.finds_iff (hex : Registered ex) : ex.Finds ↔ ex.NoShadow := by
  constructor
  · intro hfinds
    refine ⟨fun e he e' he' heq => ?_, fun e he c hc heq => ?_, fun e he c hc heq => ?_⟩
    · have hlong := hex.longKey e he
      have hfirst := hfinds.modules e he _ (Module.mem_keys.mpr (.inl rfl))
      have hsecond := hfinds.modules e' he' e.1.longKey
        (Module.mem_keys.mpr (.inr ⟨by rw [heq]; exact hlong, heq.symm⟩))
      exact Option.some.inj (hsecond.symm.trans hfirst)
    · have hlong := hex.longKey e he
      have hnone := (hfinds.commands c hc e.1.longKey
        (ICommand.mem_keys.mpr (.inr ⟨by rw [heq]; exact hlong, heq.symm⟩))).1
      rw [hfinds.modules e he _ (Module.mem_keys.mpr (.inl rfl))] at hnone
      cases hnone
    · have hlong := hex.commands.longKey c hc
      have hnone := (hfinds.commands c hc c.longKey (ICommand.mem_keys.mpr (.inl rfl))).1
      rw [hfinds.modules e he _ (Module.mem_keys.mpr
        (.inr ⟨by rw [← heq]; exact hlong, heq⟩))] at hnone
      cases hnone
  · intro hshadow
    refine ⟨fun e he key hkey => ?_, fun c hc key hkey => ⟨?_, ?_⟩⟩
    · have hne := hex.keys_ne_nil he hkey
      cases hfind : ex.modules.find? fun m => m.1.isNamed key with
      | none => exact absurd ((Module.isNamed_iff hne).mpr hkey) (List.find?_eq_none.mp hfind e he)
      | some found =>
        have hnamed : found.1.isNamed key := by simpa using List.find?_some hfind
        have hkey' := (Module.isNamed_iff hne).mp hnamed
        rw [hex.eq_of_keys hshadow (List.mem_of_find?_eq_some hfind) he hkey' hkey]
    · have hne := ICommand.ne_nil_of_mem_keys (hex.commands.longKey c hc) hkey
      refine List.find?_eq_none.mpr fun e he hnamed => ?_
      have hsame := hex.against e he c hc
      rcases Module.mem_keys.mp ((Module.isNamed_iff hne).mp hnamed) with rfl | ⟨hs, rfl⟩ <;>
        rcases ICommand.mem_keys.mp hkey with heq | ⟨hs', heq⟩
      · exact hsame.1 heq.symm
      · exact hshadow.shortKey e he c hc heq.symm
      · exact hshadow.longKey e he c hc heq.symm
      · exact hsame.2 hs' heq.symm
    · have hne := ICommand.ne_nil_of_mem_keys (hex.commands.longKey c hc) hkey
      exact (hex.commands.getCmd_iff hne).mpr ⟨hc, hkey⟩

end Octf.Cli
