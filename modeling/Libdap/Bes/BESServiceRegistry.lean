import Mathlib.Data.Char
import Mathlib.Data.List.Lex
import Libdap.Bes.BESKeys
import Libdap.Core.Call
import Libdap.Core.KeyedSet

/-! # The services of the BES

A module registers services, the commands of each and the formats of each command; a handler registers which services
it handles. What the registry answers follows from the calls that returned.
-/

namespace Libdap.Bes
open Core Constraint
set_option autoImplicit false

structure ServiceCmd where
  description : Word
  formats : KeyedMap Word Word

structure BESServiceRegistry where
  services : KeyedMap Word (KeyedMap Word ServiceCmd)
  handles : KeyedMap Word (KeyedMap Word Word)

namespace BESServiceRegistry

def empty : BESServiceRegistry := ⟨.empty, .empty⟩

abbrev M (α : Type) := EStateM BESError BESServiceRegistry α

def addService (name : Word) : M Unit := do
  match (← get).services.find name with
  | none => modify fun r => { r with services := r.services.insert (name, .empty) }
  | some _ => throw (.internal ("The service ".toList ++ name ++ " has already been registered".toList))

def addToService (service cmd cmdDescript format : Word) : M Unit := do
  match (← get).services.find service with
  | some cmds =>
    match cmds.find cmd with
    | some _ =>
      throw (.internal ("Attempting to add command ".toList ++ cmd ++ " to the service ".toList ++ service ++
        ", command alrady exists".toList))
    | none =>
      let sc : ServiceCmd := ⟨cmdDescript, KeyedSet.empty.insert (format, format)⟩
      modify fun r => { r with services := r.services.modify service fun cmds => cmds.insert (cmd, sc) }
  | none =>
    throw (.internal ("Attempting to add commands to the service ".toList ++ service ++
      " that has not yet been registered".toList))

def addFormat (service cmd format : Word) : M Unit := do
  match (← get).services.find service with
  | some cmds =>
    match cmds.find cmd with
    | some sc =>
      match sc.formats.find format with
      | none =>
        modify fun r => { r with
          services := r.services.modify service fun cmds =>
            cmds.modify cmd fun sc => { sc with formats := sc.formats.insert (format, format) } }
      | some _ =>
        throw (.internal ("Attempting to add format ".toList ++ format ++ " to command ".toList ++ cmd ++
          " for service ".toList ++ service ++ " where the format has already been registered".toList))
    | none =>
      throw (.internal ("Attempting to add a format ".toList ++ format ++ " to command ".toList ++ cmd ++
        " for service ".toList ++ service ++ " where the command has not been registered".toList))
  | none =>
    throw (.internal ("Attempting to add a format ".toList ++ format ++ " to command ".toList ++ cmd ++
      " for a service ".toList ++ service ++ " that has not been registered".toList))

def removeService (service : Word) : M Unit := do
  match (← get).services.find service with
  | some _ =>
    modify fun r => ⟨r.services.erase service, r.handles.mapValues fun _ handled => handled.erase service⟩
  | none => pure ()

def handlesService (handler service : Word) : M Unit := do
  match (← get).services.find service with
  | none =>
    throw (.internal ("Registering a handler to handle service ".toList ++ service ++
      " that has not yet been registered".toList))
  | some _ =>
    match (← get).handles.find handler with
    | none => modify fun r => { r with handles := r.handles.insert (handler, KeyedSet.empty.insert (service, service)) }
    | some handled =>
      match handled.find service with
      | none =>
        modify fun r => { r with
          handles := r.handles.modify handler fun handled => handled.insert (service, service) }
      | some _ => pure ()

variable (r : BESServiceRegistry)

/-- An empty command or format is not asked for. -/
def serviceAvailable (service cmd format : Word) : Bool :=
  match r.services.find service with
  | none => false
  | some cmds =>
    if cmd ≠ [] then
      match cmds.find cmd with
      | none => false
      | some sc => if format ≠ [] then (sc.formats.find format).isSome else true
    else true

def doesHandleService (handler service : Word) : Bool :=
  match r.handles.find handler with
  | none => false
  | some handled => (handled.find service).isSome

def servicesHandled (handler : Word) : List Word :=
  match r.handles.find handler with
  | none => []
  | some handled => handled.elems.map Prod.snd

end BESServiceRegistry

/-! ## Calls -/

inductive RegistryCall
  | addService (name : Word)
  | addToService (service cmd cmdDescript format : Word)
  | addFormat (service cmd format : Word)
  | removeService (service : Word)
  | handlesService (handler service : Word)
  deriving DecidableEq

namespace RegistryCall

def run : RegistryCall → BESServiceRegistry.M Unit
  | addService name => BESServiceRegistry.addService name
  | addToService service cmd cmdDescript format => BESServiceRegistry.addToService service cmd cmdDescript format
  | addFormat service cmd format => BESServiceRegistry.addFormat service cmd format
  | removeService service => BESServiceRegistry.removeService service
  | handlesService handler service => BESServiceRegistry.handlesService handler service

/-- The registry behind one more call, and the calls that returned. -/
def next (s : BESServiceRegistry × List RegistryCall) (call : RegistryCall) : BESServiceRegistry × List RegistryCall :=
  match call.run s.1 with
  | .ok _ r => (r, s.2 ++ [call])
  | .error _ r => (r, s.2)

def runAll (calls : List RegistryCall) : BESServiceRegistry × List RegistryCall := calls.foldl next (.empty, [])

end RegistryCall

/-! ## What has been called -/

section
variable {done : List RegistryCall} {call : RegistryCall} {s c f : Word}

/-- The calls since a service was registered, if it was not removed again. -/
def Since (done : List RegistryCall) (s : Word) (after : List RegistryCall) : Prop :=
  ∃ before, done = before ++ .addService s :: after ∧ .removeService s ∉ after

def Registered (done : List RegistryCall) (s : Word) : Prop := ∃ after, Since done s after

def HasCommand (done : List RegistryCall) (s c : Word) : Prop :=
  ∃ after, Since done s after ∧ ∃ d g, .addToService s c d g ∈ after

def Offers (done : List RegistryCall) (s c f : Word) : Prop :=
  ∃ after, Since done s after ∧ ∃ first d g rest,
    after = first ++ .addToService s c d g :: rest ∧ (f = g ∨ .addFormat s c f ∈ rest)

theorem since_snoc {after : List RegistryCall} :
    Since (done ++ [call]) s after ↔ (call = .addService s ∧ after = []) ∨
      ∃ earlier, after = earlier ++ [call] ∧ call ≠ .removeService s ∧ Since done s earlier := by
  constructor
  · rintro ⟨before, hSplit, hNot⟩
    rcases List.eq_nil_or_concat after with rfl | ⟨earlier, last, rfl⟩
    · obtain ⟨-, hLast⟩ := List.append_inj' hSplit rfl
      exact .inl ⟨(List.cons.inj hLast).1, rfl⟩
    · rw [List.concat_eq_append] at hSplit hNot ⊢
      rw [← List.cons_append, ← List.append_assoc] at hSplit
      obtain ⟨hDone, hLast⟩ := List.append_inj' hSplit rfl
      obtain rfl := (List.cons.inj hLast).1
      rw [List.mem_append, List.mem_singleton, not_or] at hNot
      exact .inr ⟨earlier, rfl, fun hSame => hNot.2 hSame.symm, before, hDone, hNot.1⟩
  · rintro (⟨rfl, rfl⟩ | ⟨earlier, rfl, hCall, before, rfl, hNot⟩)
    · exact ⟨done, rfl, List.not_mem_nil⟩
    · refine ⟨before, by simp, ?_⟩
      rw [List.mem_append, List.mem_singleton, not_or]
      exact ⟨hNot, fun hSame => hCall hSame.symm⟩

theorem registered_snoc :
    Registered (done ++ [call]) s ↔ call = .addService s ∨ (call ≠ .removeService s ∧ Registered done s) := by
  simp only [Registered, since_snoc]
  constructor
  · rintro ⟨_, ⟨hCall, -⟩ | ⟨earlier, -, hCall, hSince⟩⟩
    · exact .inl hCall
    · exact .inr ⟨hCall, earlier, hSince⟩
  · rintro (hCall | ⟨hCall, earlier, hSince⟩)
    · exact ⟨[], .inl ⟨hCall, rfl⟩⟩
    · exact ⟨earlier ++ [call], .inr ⟨earlier, rfl, hCall, hSince⟩⟩

theorem hasCommand_snoc :
    HasCommand (done ++ [call]) s c ↔ call ≠ .removeService s ∧
      (HasCommand done s c ∨ (∃ d g, call = .addToService s c d g) ∧ Registered done s) := by
  simp only [HasCommand, Registered, since_snoc]
  constructor
  · rintro ⟨_, ⟨-, rfl⟩ | ⟨earlier, rfl, hCall, hSince⟩, d, g, hMem⟩
    · cases hMem
    · refine ⟨hCall, ?_⟩
      rcases List.mem_append.mp hMem with hMem | hMem
      · exact .inl ⟨earlier, hSince, d, g, hMem⟩
      · exact .inr ⟨⟨d, g, (List.mem_singleton.mp hMem).symm⟩, earlier, hSince⟩
  · rintro ⟨hCall, ⟨earlier, hSince, d, g, hMem⟩ | ⟨⟨d, g, hSame⟩, earlier, hSince⟩⟩
    · exact ⟨earlier ++ [call], .inr ⟨earlier, rfl, hCall, hSince⟩, d, g, List.mem_append_left _ hMem⟩
    · refine ⟨earlier ++ [call], .inr ⟨earlier, rfl, hCall, hSince⟩, d, g, ?_⟩
      rw [hSame]
      exact List.mem_append_right _ List.mem_cons_self

theorem offers_snoc :
    Offers (done ++ [call]) s c f ↔ call ≠ .removeService s ∧
      (Offers done s c f ∨ (∃ d, call = .addToService s c d f) ∧ Registered done s ∨
        call = .addFormat s c f ∧ HasCommand done s c) := by
  simp only [Offers, since_snoc]
  constructor
  · rintro ⟨_, ⟨-, rfl⟩ | ⟨earlier, rfl, hCall, hSince⟩, first, d, g, rest, hSplit, hFormat⟩
    · exact absurd hSplit (by simp)
    · refine ⟨hCall, ?_⟩
      rcases List.eq_nil_or_concat rest with rfl | ⟨sooner, last, rfl⟩
      · obtain ⟨-, hLast⟩ := List.append_inj' hSplit rfl
        obtain rfl := hFormat.resolve_right List.not_mem_nil
        exact .inr (.inl ⟨⟨d, (List.cons.inj hLast).1⟩, earlier, hSince⟩)
      · rw [List.concat_eq_append] at hSplit hFormat
        rw [← List.cons_append, ← List.append_assoc] at hSplit
        obtain ⟨rfl, hLast⟩ := List.append_inj' hSplit rfl
        obtain rfl := (List.cons.inj hLast).1
        rw [List.mem_append, List.mem_singleton] at hFormat
        rcases hFormat with rfl | hFormat | hFormat
        · exact .inl ⟨_, hSince, first, d, f, sooner, rfl, .inl rfl⟩
        · exact .inl ⟨_, hSince, first, d, g, sooner, rfl, .inr hFormat⟩
        · exact .inr (.inr ⟨hFormat.symm, _, hSince, d, g, List.mem_append_right _ List.mem_cons_self⟩)
  · rintro ⟨hCall, ⟨earlier, hSince, first, d, g, rest, rfl, hFormat⟩ | ⟨⟨d, hSame⟩, earlier, hSince⟩ |
      ⟨hSame, earlier, hSince, d, g, hMem⟩⟩
    · exact ⟨_, .inr ⟨_, rfl, hCall, hSince⟩, first, d, g, rest ++ [call], by simp,
        hFormat.imp_right (List.mem_append_left _)⟩
    · exact ⟨_, .inr ⟨_, rfl, hCall, hSince⟩, earlier, d, f, [], by rw [hSame], .inl rfl⟩
    · obtain ⟨first, rest, rfl⟩ := List.append_of_mem hMem
      refine ⟨_, .inr ⟨_, rfl, hCall, hSince⟩, first, d, g, rest ++ [call], by simp, .inr ?_⟩
      rw [hSame]
      exact List.mem_append_right _ List.mem_cons_self

end

/-! ## What a call does -/

namespace BESServiceRegistry

variable {r r' : BESServiceRegistry} {done : List RegistryCall} {call : RegistryCall}

def command (r : BESServiceRegistry) (service cmd : Word) : Option ServiceCmd :=
  (r.services.find service).bind fun cmds => cmds.find cmd

def format (r : BESServiceRegistry) (service cmd format : Word) : Option Word :=
  (r.command service cmd).bind fun sc => sc.formats.find format

def handled (r : BESServiceRegistry) (handler service : Word) : Option Word :=
  (r.handles.find handler).bind fun services => services.find service

/-- When the call returns, and what it leaves. -/
def Effect : RegistryCall → BESServiceRegistry → BESServiceRegistry → Prop
  | .addService name, r, r' =>
    r.services.find name = none ∧ r' = { r with services := r.services.insert (name, .empty) }
  | .addToService service cmd cmdDescript format, r, r' =>
    ∃ cmds, r.services.find service = some cmds ∧ cmds.find cmd = none ∧ r' = { r with
      services := r.services.modify service fun cmds =>
        cmds.insert (cmd, ⟨cmdDescript, KeyedSet.empty.insert (format, format)⟩) }
  | .addFormat service cmd format, r, r' =>
    ∃ cmds sc, r.services.find service = some cmds ∧ cmds.find cmd = some sc ∧ sc.formats.find format = none ∧
      r' = { r with
        services := r.services.modify service fun cmds =>
          cmds.modify cmd fun sc => { sc with formats := sc.formats.insert (format, format) } }
  | .removeService service, r, r' =>
    r.services.find service = none ∧ r' = r ∨
      r' = ⟨r.services.erase service, r.handles.mapValues fun _ handled => handled.erase service⟩
  | .handlesService handler service, r, r' =>
    (∃ cmds, r.services.find service = some cmds) ∧
      (r.handles.find handler = none ∧
          r' = { r with handles := r.handles.insert (handler, KeyedSet.empty.insert (service, service)) } ∨
        (∃ services, r.handles.find handler = some services ∧ services.find service = none) ∧
          r' = { r with
            handles := r.handles.modify handler fun services => services.insert (service, service) } ∨
        r' = r)

theorem run_cases (call : RegistryCall) (r : BESServiceRegistry) :
    (∃ e, call.run r = .error e r) ∨ ∃ r', call.run r = .ok () r' ∧ Effect call r r' := by
  cases call with
  | addService name =>
    rw [RegistryCall.run, addService, get_bind]
    cases hService : r.services.find name with
    | none => exact .inr ⟨_, rfl, hService, rfl⟩
    | some cmds => exact .inl ⟨_, rfl⟩
  | addToService service cmd cmdDescript format =>
    rw [RegistryCall.run, addToService, get_bind]
    cases hService : r.services.find service with
    | none => exact .inl ⟨_, rfl⟩
    | some cmds =>
      dsimp only
      cases hCmd : cmds.find cmd with
      | none => exact .inr ⟨_, rfl, cmds, hService, hCmd, rfl⟩
      | some sc => exact .inl ⟨_, rfl⟩
  | addFormat service cmd format =>
    rw [RegistryCall.run, addFormat, get_bind]
    cases hService : r.services.find service with
    | none => exact .inl ⟨_, rfl⟩
    | some cmds =>
      dsimp only
      cases hCmd : cmds.find cmd with
      | none => exact .inl ⟨_, rfl⟩
      | some sc =>
        dsimp only
        cases hFormat : sc.formats.find format with
        | none => exact .inr ⟨_, rfl, cmds, sc, hService, hCmd, hFormat, rfl⟩
        | some _ => exact .inl ⟨_, rfl⟩
  | removeService service =>
    rw [RegistryCall.run, removeService, get_bind]
    cases hService : r.services.find service with
    | none => exact .inr ⟨_, rfl, .inl ⟨hService, rfl⟩⟩
    | some cmds => exact .inr ⟨_, rfl, .inr rfl⟩
  | handlesService handler service =>
    rw [RegistryCall.run, handlesService, get_bind]
    cases hService : r.services.find service with
    | none => exact .inl ⟨_, rfl⟩
    | some cmds =>
      dsimp only
      rw [get_bind]
      cases hHandler : r.handles.find handler with
      | none => exact .inr ⟨_, rfl, ⟨cmds, hService⟩, .inl ⟨hHandler, rfl⟩⟩
      | some services =>
        dsimp only
        cases hHandled : services.find service with
        | none => exact .inr ⟨_, rfl, ⟨cmds, hService⟩, .inr (.inl ⟨⟨services, hHandler, hHandled⟩, rfl⟩)⟩
        | some _ => exact .inr ⟨_, rfl, ⟨cmds, hService⟩, .inr (.inr rfl)⟩

/-- The registry holds what was called for. -/
structure Matches (r : BESServiceRegistry) (done : List RegistryCall) : Prop where
  registered : ∀ s, (r.services.find s).isSome ↔ Registered done s
  commands : ∀ s c, (r.command s c).isSome ↔ HasCommand done s c
  formats : ∀ s c f, (r.format s c f).isSome ↔ Offers done s c f
  handles : ∀ h s v, r.handled h s = some v → v = s ∧ Registered done s

theorem Matches.empty : Matches .empty [] := by
  have hNone (s : Word) (after : List RegistryCall) : ¬ Since [] s after := by
    rintro ⟨before, hSplit, -⟩
    exact absurd hSplit (by simp)
  exact ⟨fun s => iff_of_false Bool.false_ne_true fun ⟨after, h⟩ => hNone s after h,
    fun s c => iff_of_false Bool.false_ne_true fun ⟨after, h, _⟩ => hNone s after h,
    fun s c f => iff_of_false Bool.false_ne_true fun ⟨after, h, _⟩ => hNone s after h, by rintro _ _ _ ⟨⟩⟩

/-- One command of a registered service is set. -/
theorem command_modify {service cmd : Word} {cmds : KeyedMap Word ServiceCmd} {sc : ServiceCmd}
    {f : KeyedMap Word ServiceCmd → KeyedMap Word ServiceCmd} (hService : r.services.find service = some cmds)
    (hSet : (f cmds).find cmd = some sc) (hKept : ∀ c, c ≠ cmd → (f cmds).find c = cmds.find c) (s c : Word) :
    command { r with services := r.services.modify service f } s c =
      if s = service ∧ c = cmd then some sc else r.command s c := by
  rw [command, KeyedSet.find_modify, command]
  by_cases hSame : s = service
  · subst hSame
    rw [if_pos rfl, hService, Option.map_some, Option.bind_some, Option.bind_some]
    by_cases hCmd : c = cmd
    · rw [if_pos ⟨rfl, hCmd⟩, hCmd, hSet]
    · rw [if_neg fun h => hCmd h.2, hKept c hCmd]
  · rw [if_neg hSame, if_neg fun h => hSame h.1]

theorem Matches.setCommand {service : Word} (cmd : Word) {cmds : KeyedMap Word ServiceCmd} {sc : ServiceCmd}
    {f : KeyedMap Word ServiceCmd → KeyedMap Word ServiceCmd} (h : Matches r done)
    (hService : r.services.find service = some cmds)
    (hSet : (f cmds).find cmd = some sc) (hKept : ∀ c, c ≠ cmd → (f cmds).find c = cmds.find c)
    (hRegistered : ∀ s, Registered (done ++ [call]) s ↔ Registered done s)
    (hHas : HasCommand (done ++ [call]) service cmd)
    (hFormats : ∀ f, (sc.formats.find f).isSome ↔ Offers (done ++ [call]) service cmd f)
    (hOther : ∀ s c, ¬ (s = service ∧ c = cmd) → (HasCommand (done ++ [call]) s c ↔ HasCommand done s c) ∧
      ∀ f, (Offers (done ++ [call]) s c f ↔ Offers done s c f)) :
    Matches { r with services := r.services.modify service f } (done ++ [call]) := by
  constructor
  · intro s
    rw [KeyedSet.find_modify, hRegistered, ← h.registered]
    split
    · rename_i hSame
      rw [hSame, Option.isSome_map]
    · rfl
  · intro s c
    rw [command_modify hService hSet hKept]
    split
    · rename_i hSame
      rw [hSame.1, hSame.2]
      exact iff_of_true rfl hHas
    · rename_i hNot
      rw [h.commands, (hOther s c hNot).1]
  · intro s c g
    rw [format, command_modify hService hSet hKept]
    split
    · rename_i hSame
      rw [hSame.1, hSame.2]
      exact hFormats g
    · rename_i hNot
      rw [← format, h.formats, (hOther s c hNot).2]
  · intro handler s v hHandled
    rw [hRegistered]
    exact h.handles handler s v hHandled

/-- What a handler is recorded to handle, with one more service. -/
theorem handled_insert {handles : KeyedMap Word (KeyedMap Word Word)} {handler service : Word}
    (hNew : handles.find handler = none ∧
        r' = ⟨r.services, handles.insert (handler, KeyedSet.empty.insert (service, service))⟩ ∨
      (∃ services, handles.find handler = some services ∧ services.find service = none) ∧
        r' = ⟨r.services, handles.modify handler fun services => services.insert (service, service)⟩)
    {h s v : Word} (hHandled : r'.handled h s = some v) :
    (h = handler ∧ s = service ∧ v = service) ∨ (handled ⟨r.services, handles⟩ h s = some v) := by
  rcases hNew with ⟨hNone, rfl⟩ | ⟨⟨services, hSome, hFree⟩, rfl⟩
  · rw [handled, KeyedSet.find_insert hNone] at hHandled
    split at hHandled
    · rename_i hSame
      rw [Option.bind_some, KeyedSet.find_insert KeyedSet.find_empty] at hHandled
      split at hHandled
      · rename_i hService
        exact .inl ⟨hSame, hService, (Option.some.inj hHandled).symm⟩
      · cases hHandled
    · exact .inr hHandled
  · rw [handled, KeyedSet.find_modify] at hHandled
    split at hHandled
    · rename_i hSame
      rw [hSome, Option.map_some, Option.bind_some, KeyedSet.find_insert hFree] at hHandled
      split at hHandled
      · rename_i hService
        exact .inl ⟨hSame, hService, (Option.some.inj hHandled).symm⟩
      · right
        rw [handled, hSame, hSome]
        exact hHandled
    · exact .inr hHandled

theorem Matches.step (h : Matches r done) (hEffect : Effect call r r') : Matches r' (done ++ [call]) := by
  cases call with
  | addService name =>
    obtain ⟨hNew, rfl⟩ := hEffect
    have hCommand (s c : Word) : command { r with services := r.services.insert (name, .empty) } s c =
        r.command s c := by
      rw [command, KeyedSet.find_insert hNew, command]
      split
      · rename_i hSame
        rw [hSame, hNew]
        rfl
      · rfl
    constructor
    · intro s
      rw [KeyedSet.find_insert hNew, registered_snoc]
      split
      · rename_i hSame
        simp [hSame]
      · rename_i hOther
        have hNe : name ≠ s := Ne.symm hOther
        simp [hNe, h.registered]
    · intro s c
      rw [hCommand, h.commands, hasCommand_snoc]
      simp
    · intro s c f
      rw [format, hCommand, ← format, h.formats, offers_snoc]
      simp
    · intro handler s v hHandled
      obtain ⟨hValue, hKnown⟩ := h.handles handler s v hHandled
      exact ⟨hValue, registered_snoc.mpr (.inr ⟨by simp, hKnown⟩)⟩
  | addToService service cmd d g =>
    obtain ⟨cmds, hService, hFree, rfl⟩ := hEffect
    have hKnown : Registered done service := by
      rw [← h.registered, hService]
      rfl
    have hNoFormat (f : Word) : ¬ Offers done service cmd f := by
      rw [← h.formats, format, command, hService, Option.bind_some, hFree]
      exact Bool.false_ne_true
    apply h.setCommand cmd hService
    · rw [KeyedSet.find_insert hFree, if_pos rfl]
    · intro c hCmd
      rw [KeyedSet.find_insert hFree, if_neg hCmd]
    · intro s
      rw [registered_snoc]
      simp
    · rw [hasCommand_snoc]
      exact ⟨by simp, .inr ⟨⟨d, g, rfl⟩, hKnown⟩⟩
    · intro f
      rw [KeyedSet.find_insert KeyedSet.find_empty, offers_snoc]
      by_cases hSame : f = g
      · simp [hSame, hKnown]
      · simp [hSame, hNoFormat, Ne.symm hSame]
    · intro s c hOther
      rw [hasCommand_snoc]
      constructor
      · constructor
        · rintro ⟨-, hHas | ⟨⟨_, _, hSame⟩, -⟩⟩
          · exact hHas
          · cases hSame
            exact absurd ⟨rfl, rfl⟩ hOther
        · exact fun hHas => ⟨by simp, .inl hHas⟩
      · intro f
        rw [offers_snoc]
        constructor
        · rintro ⟨-, hHas | ⟨⟨_, hSame⟩, -⟩ | ⟨hSame, -⟩⟩
          · exact hHas
          · cases hSame
            exact absurd ⟨rfl, rfl⟩ hOther
          · cases hSame
        · exact fun hHas => ⟨by simp, .inl hHas⟩
  | addFormat service cmd g =>
    obtain ⟨cmds, sc, hService, hCmd, hFree, rfl⟩ := hEffect
    have hHas : HasCommand done service cmd := by
      rw [← h.commands, command, hService, Option.bind_some, hCmd]
      rfl
    have hOffers (f : Word) : (sc.formats.find f).isSome ↔ Offers done service cmd f := by
      rw [← h.formats, format, command, hService, Option.bind_some, hCmd, Option.bind_some]
    apply h.setCommand cmd hService
    · rw [KeyedSet.find_modify, if_pos rfl, hCmd, Option.map_some]
    · intro c hOther
      rw [KeyedSet.find_modify, if_neg hOther]
    · intro s
      rw [registered_snoc]
      simp
    · rw [hasCommand_snoc]
      exact ⟨by simp, .inl hHas⟩
    · intro f
      rw [KeyedSet.find_insert hFree, offers_snoc]
      by_cases hSame : f = g
      · simp [hSame, hHas]
      · simp [hSame, hOffers, Ne.symm hSame]
    · intro s c hOther
      rw [hasCommand_snoc]
      constructor
      · simp
      · intro f
        rw [offers_snoc]
        constructor
        · rintro ⟨-, hHas | ⟨⟨_, hSame⟩, -⟩ | ⟨hSame, -⟩⟩
          · exact hHas
          · cases hSame
          · cases hSame
            exact absurd ⟨rfl, rfl⟩ hOther
        · exact fun hHas => ⟨by simp, .inl hHas⟩
  | removeService service =>
    rcases hEffect with ⟨hNone, rfl⟩ | rfl
    · have hUnknown : ¬ Registered done service := by
        rw [← h.registered, hNone]
        exact Bool.false_ne_true
      have hNoCommand (c : Word) : ¬ HasCommand done service c := fun ⟨after, hSince, _⟩ => hUnknown ⟨after, hSince⟩
      have hNoFormat (c f : Word) : ¬ Offers done service c f := fun ⟨after, hSince, _⟩ => hUnknown ⟨after, hSince⟩
      constructor
      · intro s
        rw [h.registered, registered_snoc]
        by_cases hSame : service = s
        · simp [← hSame, hUnknown]
        · simp [hSame]
      · intro s c
        rw [h.commands, hasCommand_snoc]
        by_cases hSame : service = s
        · simp [← hSame, hNoCommand]
        · simp [hSame]
      · intro s c f
        rw [h.formats, offers_snoc]
        by_cases hSame : service = s
        · simp [← hSame, hNoFormat]
        · simp [hSame]
      · intro handler s v hHandled
        obtain ⟨hValue, hKnown⟩ := h.handles handler s v hHandled
        have hNe : service ≠ s := by
          rintro rfl
          exact hUnknown hKnown
        exact ⟨hValue, registered_snoc.mpr (.inr ⟨by simp [hNe], hKnown⟩)⟩
    · constructor
      · intro s
        rw [KeyedSet.find_erase, registered_snoc]
        by_cases hSame : s = service
        · simp [hSame]
        · simp [hSame, Ne.symm hSame, h.registered]
      · intro s c
        rw [command, KeyedSet.find_erase, hasCommand_snoc]
        by_cases hSame : s = service
        · simp [hSame]
        · simp [hSame, Ne.symm hSame, ← h.commands, command]
      · intro s c f
        rw [format, command, KeyedSet.find_erase, offers_snoc]
        by_cases hSame : s = service
        · simp [hSame]
        · simp [hSame, Ne.symm hSame, ← h.formats, format, command]
      · intro handler s v hHandled
        rw [handled, KeyedSet.find_mapValues] at hHandled
        obtain ⟨services, hServices, hFind⟩ := Option.bind_eq_some_iff.mp hHandled
        obtain ⟨services, hBefore, rfl⟩ := Option.map_eq_some_iff.mp hServices
        rw [KeyedSet.find_erase] at hFind
        split at hFind
        · cases hFind
        · rename_i hOther
          obtain ⟨hValue, hKnown⟩ := h.handles handler s v (Option.bind_eq_some_iff.mpr ⟨services, hBefore, hFind⟩)
          have hNe : service ≠ s := Ne.symm hOther
          exact ⟨hValue, registered_snoc.mpr (.inr ⟨by simp [hNe], hKnown⟩)⟩
  | handlesService handler service =>
    obtain ⟨⟨cmds, hService⟩, hHandles⟩ := hEffect
    have hKnown : Registered done service := by
      rw [← h.registered, hService]
      rfl
    have hServices : r'.services = r.services := by
      rcases hHandles with ⟨-, rfl⟩ | ⟨-, rfl⟩ | rfl <;> rfl
    have hCommand (s c : Word) : r'.command s c = r.command s c := by rw [command, hServices, command]
    constructor
    · intro s
      rw [hServices, h.registered, registered_snoc]
      simp
    · intro s c
      rw [hCommand, h.commands, hasCommand_snoc]
      simp
    · intro s c f
      rw [format, hCommand, ← format, h.formats, offers_snoc]
      simp
    · intro handler' s v hHandled
      have hBefore : handler' = handler ∧ s = service ∧ v = service ∨ r.handled handler' s = some v := by
        rcases hHandles with hNew | hNew | rfl
        · exact handled_insert (.inl hNew) hHandled
        · exact handled_insert (.inr hNew) hHandled
        · exact .inr hHandled
      rcases hBefore with ⟨-, rfl, rfl⟩ | hBefore
      · exact ⟨rfl, registered_snoc.mpr (.inr ⟨by simp, hKnown⟩)⟩
      · obtain ⟨hValue, hKnown⟩ := h.handles handler' s v hBefore
        exact ⟨hValue, registered_snoc.mpr (.inr ⟨by simp, hKnown⟩)⟩

/-! ## All runs -/

theorem run_matches (calls : List RegistryCall) :
    Matches (RegistryCall.runAll calls).1 (RegistryCall.runAll calls).2 := by
  have hFold (s : BESServiceRegistry × List RegistryCall) (h : Matches s.1 s.2) :
      Matches (calls.foldl RegistryCall.next s).1 (calls.foldl RegistryCall.next s).2 := by
    induction calls generalizing s with
    | nil => exact h
    | cons call calls ih =>
      apply ih
      rw [RegistryCall.next]
      rcases run_cases call s.1 with ⟨e, hRun⟩ | ⟨r', hRun, hEffect⟩
      · rw [hRun]
        exact h
      · rw [hRun]
        exact h.step hEffect
  exact hFold (.empty, []) .empty

/-- What is asked for: an empty command or format is not. -/
def Available (done : List RegistryCall) (service cmd format : Word) : Prop :=
  if cmd = [] then Registered done service
  else if format = [] then HasCommand done service cmd
  else Offers done service cmd format

theorem Matches.serviceAvailable (h : Matches r done) (service cmd format : Word) :
    r.serviceAvailable service cmd format = true ↔ Available done service cmd format := by
  rw [BESServiceRegistry.serviceAvailable, Available, ← h.registered, ← h.commands, ← h.formats,
    BESServiceRegistry.format,
    command]
  cases r.services.find service with
  | none => simp
  | some cmds =>
    by_cases hCmd : cmd = []
    · simp [hCmd]
    · cases hFind : cmds.find cmd with
      | none => simp [hCmd, hFind]
      | some sc =>
        by_cases hFormat : format = []
        · simp [hCmd, hFormat, hFind]
        · simp [hCmd, hFormat, hFind]

/-- In every state that calls lead to. -/
theorem registry_answers (calls : List RegistryCall) (r : BESServiceRegistry) (done : List RegistryCall)
    (h : RegistryCall.runAll calls = (r, done)) :
    (∀ handler service, r.doesHandleService handler service = true → r.serviceAvailable service [] [] = true) ∧
      (∀ handler, ∀ service ∈ r.servicesHandled handler, r.serviceAvailable service [] [] = true) ∧
      (∀ service cmd format,
        r.serviceAvailable service cmd format = true ↔ Available done service cmd format) ∧
      ∀ (call : RegistryCall) e r', call.run r = .error e r' → r' = r := by
  have hMatches : Matches r done := by
    have hAll := run_matches calls
    rwa [h] at hAll
  have hRegistered {handler service v : Word} (hHandled : r.handled handler service = some v) :
      r.serviceAvailable service [] [] = true := by
    rw [hMatches.serviceAvailable]
    exact (hMatches.handles handler service v hHandled).2
  refine ⟨fun handler service hDoes => ?_, fun handler service hMem => ?_, hMatches.serviceAvailable, ?_⟩
  · rw [doesHandleService] at hDoes
    split at hDoes
    · cases hDoes
    · rename_i services hHandler
      obtain ⟨v, hFind⟩ := Option.isSome_iff_exists.mp hDoes
      exact hRegistered (Option.bind_eq_some_iff.mpr ⟨services, hHandler, hFind⟩)
  · rw [servicesHandled] at hMem
    split at hMem
    · cases hMem
    · rename_i services hHandler
      obtain ⟨⟨key, v⟩, hPair, rfl⟩ := List.mem_map.mp hMem
      have hHandled : r.handled handler key = some v :=
        Option.bind_eq_some_iff.mpr ⟨services, hHandler, KeyedSet.find_iff.mpr hPair⟩
      obtain rfl := (hMatches.handles handler key v hHandled).1
      exact hRegistered hHandled
  · intro call e r' hRun
    rcases run_cases call r with ⟨e', hError⟩ | ⟨r'', hOk, -⟩
    · rw [hError] at hRun
      cases hRun
      rfl
    · rw [hOk] at hRun
      cases hRun

def dapCalls : List RegistryCall :=
  [.addService "dap".toList, .addToService "dap".toList "das".toList [] "dap2".toList,
    .handlesService "nc".toList "dap".toList, .removeService "dap".toList, .addService "dap".toList,
    .addToService "dap".toList "dds".toList [] "dap2".toList, .addFormat "dap".toList "dds".toList "ascii".toList]

/-- A service that was removed and registered again. -/
theorem dap_answers :
    ((RegistryCall.runAll dapCalls).1.serviceAvailable "dap".toList "das".toList "dap2".toList = true ↔
      Available (RegistryCall.runAll dapCalls).2 "dap".toList "das".toList "dap2".toList) ∧
    (RegistryCall.runAll dapCalls).1.serviceAvailable "dap".toList "das".toList "dap2".toList = false ∧
    (RegistryCall.runAll dapCalls).1.serviceAvailable "dap".toList "dds".toList "ascii".toList = true :=
  ⟨(registry_answers dapCalls _ _ rfl).2.2.1 _ _ _, by decide, by decide⟩

/-- No command was ever added, and the service is available with the empty one. -/
theorem empty_command_available :
    (RegistryCall.runAll [.addService "dap".toList]).1.serviceAvailable "dap".toList [] [] = true ∧
      ¬ Offers (RegistryCall.runAll [.addService "dap".toList]).2 "dap".toList [] [] := by
  refine ⟨by decide, ?_⟩
  rintro ⟨after, ⟨before, hSplit, -⟩, first, d, g, rest, rfl, -⟩
  have hLength := congrArg List.length hSplit
  have hDone : (RegistryCall.runAll [.addService "dap".toList]).2.length = 1 := by decide
  rw [hDone] at hLength
  simp only [List.length_append, List.length_cons] at hLength
  omega

end BESServiceRegistry

end Libdap.Bes
