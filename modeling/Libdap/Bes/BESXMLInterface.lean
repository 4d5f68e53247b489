import Libdap.Core.Fault
import Libdap.Bes.BESKeys
import Libdap.Escaping.Xml

/-! # Requests of several commands

The children of a request element are commands, of which one may have a response. `build_data_request_plan` keeps in a
flag whether the command before had one.
-/

namespace Libdap.Bes
open Core Constraint
set_option autoImplicit false

inductive RequestError
  | BESSyntaxUserError (msg : Word)
  | BESInternalError (msg : Word)
  /-- Any other that a command throws. -/
  | other
  deriving DecidableEq, Repr

/-! ## Nodes -/

/-- A node as the parser gives it. Of a property there is the content of its first child. -/
inductive XmlNode
  | element (name : Word) (properties : List (Word × Option Word)) (children : List XmlNode)
  | text (content : Option Word)
  | other

/-- `BESUtil::xml2id` -/
def unescapeXml (s : Word) : Word := (Escaping.xml2id s).get (Escaping.xml2id_some s)

def contentOf : Option Word → Word
  | some content => removeLeadingAndTrailingBlanks (unescapeXml content)
  | none => []

/-- `BESXMLUtils::GetProps`, in the order of the assignments. -/
def getProps (properties : List (Word × Option Word)) : List (Word × Word) :=
  properties.map fun p => (removeLeadingAndTrailingBlanks p.1, contentOf p.2)

/-- `props[name]` -/
def propOf (props : List (Word × Word)) (name : Word) : Word :=
  ((props.reverse.find? fun p => p.1 = name).map Prod.snd).getD []

/-- The value that `BESXMLUtils::GetNodeInfo` finds among the children. -/
def nodeValue : List XmlNode → Word
  | [] => []
  | .text content :: _ => contentOf content
  | _ :: nodes => nodeValue nodes

/-! ## The plan -/

structure BESXMLCommand where
  hasResponse : Bool
  /-- The return command that is set behind `parse_request`. -/
  parseRequest : XmlNode → Except RequestError Word

/-- What the modules have registered. -/
structure Registry where
  /-- `BESXMLCommand::find_command`, with the object that the builder makes. -/
  findCommand : Word → Option (Option BESXMLCommand)
  /-- Whether `find_transmitter` has one. -/
  findTransmitter : Word → Bool

structure Root where
  name : Word
  properties : List (Word × Option Word)
  children : List XmlNode

def problemParsing (parseerrors : List Word) : RequestError :=
  .BESSyntaxUserError ("Problem parsing the request xml document:\n".toList ++ (parseerrors.take 1).flatten ++
    (parseerrors.drop 1).flatMap fun e => (if "Entity".toList.isPrefixOf e then ['\n'] else []) ++ e)

def noRoot : RequestError := .BESSyntaxUserError "There is no root element in the xml document".toList

def notRequest (name : Word) : RequestError :=
  .BESSyntaxUserError ("The root element should be a request element, name is ".toList ++ name)

def requestValue (value : Word) : RequestError :=
  .BESSyntaxUserError ("The request element must not contain a value, ".toList ++ value)

def requestIdEmpty : RequestError := .BESSyntaxUserError "request id value empty".toList

def commandNotBuilt (name : Word) : RequestError :=
  .BESInternalError ("Failed to build command object for ".toList ++ name)

def multipleResponses : RequestError := .BESSyntaxUserError "Multiple responses not allowed".toList

def noTransmitter (returnAs : Word) : RequestError :=
  .BESSyntaxUserError ("Unable to find transmitter ".toList ++ returnAs)

def noCommand (name : Word) : RequestError :=
  .BESSyntaxUserError ("Unable to find command for ".toList ++ name)

def checkTransmitter (registry : Registry) (returnAs : Word) : Except RequestError Unit :=
  if returnAs ≠ [] ∧ registry.findTransmitter returnAs = false then .error (noTransmitter returnAs) else .ok ()

/-- The command of an element behind one that had a response or not. -/
def buildCommand (registry : Registry) (hasResponse : Bool) (name : Word) (node : XmlNode) :
    Except RequestError BESXMLCommand :=
  match registry.findCommand name with
  | none => .error (noCommand name)
  | some none => .error (commandNotBuilt name)
  | some (some cmd) =>
    if hasResponse && cmd.hasResponse then .error multipleResponses
    else do
      let returnAs ← cmd.parseRequest node
      checkTransmitter registry returnAs
      .ok cmd

/-- The loop over the children of the request. -/
def buildCommands (registry : Registry) : Bool → List BESXMLCommand → List XmlNode →
    Except RequestError (List BESXMLCommand)
  | _, cmdList, [] => .ok cmdList
  | hasResponse, cmdList, .element name properties children :: nodes => do
    let cmd ← buildCommand registry hasResponse name (.element name properties children)
    -- Whether one before this had a response is forgotten.
    buildCommands registry cmd.hasResponse (cmdList ++ [cmd]) nodes
  | hasResponse, cmdList, _ :: nodes => buildCommands registry hasResponse cmdList nodes

/-- `BESXMLInterface::build_data_request_plan` of what the parser makes of the text, its complaints or a document. The
return command is the one that the interface has from the beginning. -/
def buildDataRequestPlan (registry : Registry) (returnCmd : Word) (document : Except (List Word) (Option Root)) :
    Except RequestError (List BESXMLCommand) :=
  match document with
  | .error parseerrors => .error (problemParsing parseerrors)
  | .ok none => .error noRoot
  | .ok (some root) =>
    if removeLeadingAndTrailingBlanks root.name ≠ "request".toList then .error (notRequest root.name)
    else if nodeValue root.children ≠ [] then .error (requestValue (nodeValue root.children))
    else if propOf (getProps root.properties) "reqID".toList = [] then .error requestIdEmpty
    else do
      let cmdList ← buildCommands registry false [] root.children
      checkTransmitter registry returnCmd
      .ok cmdList

/-- The commands that `execute_data_request_plan` executes, the last of them being the first that throws. -/
def executeDataRequestPlan (execute : BESXMLCommand → Except RequestError Unit) :
    List BESXMLCommand → List BESXMLCommand
  | [] => []
  | cmd :: cmdList =>
    match execute cmd with
    | .ok () => cmd :: executeDataRequestPlan execute cmdList
    | .error _ => [cmd]

/-- What `BESInterface::execute_request` executes. -/
def executed (registry : Registry) (returnCmd : Word) (execute : BESXMLCommand → Except RequestError Unit)
    (document : Except (List Word) (Option Root)) : List BESXMLCommand :=
  match buildDataRequestPlan registry returnCmd document with
  | .ok cmdList => executeDataRequestPlan execute cmdList
  | .error _ => []

/-! ## What is accepted -/

def commandOf (registry : Registry) : XmlNode → Option BESXMLCommand
  | .element name _ _ => (registry.findCommand name).join
  | _ => none

def childrenOf : Except (List Word) (Option Root) → List XmlNode
  | .ok (some root) => root.children
  | _ => []

/-- The commands of a request, and which of them have a response. -/
def responses (registry : Registry) (nodes : List XmlNode) : List Bool :=
  (nodes.filterMap (commandOf registry)).map BESXMLCommand.hasResponse

/-- Of two neighbours one at most has a response. -/
def Apart (flags : List Bool) : Prop := flags.IsChain fun a b => (a && b) = false

def HasTransmitter (registry : Registry) (returnAs : Word) : Prop :=
  returnAs = [] ∨ registry.findTransmitter returnAs = true

/-- A node with which nothing is wrong, were it the only one. -/
def Proper (registry : Registry) (node : XmlNode) : Prop :=
  match node with
  | .element name _ _ => ∃ cmd returnAs, registry.findCommand name = some (some cmd) ∧
      cmd.parseRequest node = .ok returnAs ∧ HasTransmitter registry returnAs
  | _ => True

/-- A document whose commands are good, each of them by itself. -/
def ProperRequest (registry : Registry) (returnCmd : Word) (document : Except (List Word) (Option Root)) : Prop :=
  ∃ root, document = .ok (some root) ∧ removeLeadingAndTrailingBlanks root.name = "request".toList ∧
    nodeValue root.children = [] ∧ propOf (getProps root.properties) "reqID".toList ≠ [] ∧
    (∀ node ∈ root.children, Proper registry node) ∧ HasTransmitter registry returnCmd

variable {registry : Registry}

theorem checkTransmitter_ok {returnAs : Word} :
    checkTransmitter registry returnAs = .ok () ↔ HasTransmitter registry returnAs := by
  rw [checkTransmitter, HasTransmitter]
  split
  · rename_i hNone
    constructor
    · intro h
      cases h
    · rintro (hEmpty | hFound)
      · exact absurd hEmpty hNone.1
      · rw [hNone.2] at hFound
        cases hFound
  · rename_i hSome
    rw [not_and_or, not_not, Bool.not_eq_false] at hSome
    exact ⟨fun _ => hSome, fun _ => rfl⟩

theorem responses_element {name : Word} {properties : List (Word × Option Word)} {children : List XmlNode}
    {cmd : BESXMLCommand} (h : registry.findCommand name = some (some cmd)) (nodes : List XmlNode) :
    responses registry (.element name properties children :: nodes) = cmd.hasResponse :: responses registry nodes := by
  rw [responses, List.filterMap_cons, commandOf, h]
  rfl

theorem buildCommand_ok {hasResponse : Bool} {name : Word} {node : XmlNode} {cmd : BESXMLCommand} :
    buildCommand registry hasResponse name node = .ok cmd ↔
      registry.findCommand name = some (some cmd) ∧ (hasResponse && cmd.hasResponse) = false ∧
        ∃ returnAs, cmd.parseRequest node = .ok returnAs ∧ HasTransmitter registry returnAs := by
  rw [buildCommand]
  constructor
  · intro h
    split at h
    · cases h
    · cases h
    · rename_i built hFind
      split at h
      · cases h
      · rename_i hOne
        obtain ⟨returnAs, hParse, h⟩ := bind_eq_ok h
        obtain ⟨_, hCheck, h⟩ := bind_eq_ok h
        cases h
        exact ⟨hFind, Bool.not_eq_true _ ▸ hOne, returnAs, hParse, checkTransmitter_ok.mp hCheck⟩
  · rintro ⟨hFind, hOne, returnAs, hParse, hTransmitter⟩
    rw [hFind]
    dsimp only
    rw [hOne, if_neg Bool.false_ne_true, hParse, ok_bind, checkTransmitter_ok.mpr hTransmitter, ok_bind]

/-- The loop ends in a plan if every node is good by itself and no two neighbours have a response. -/
theorem buildCommands_ok (hasResponse : Bool) (cmdList : List BESXMLCommand) (nodes : List XmlNode) :
    (∃ plan, buildCommands registry hasResponse cmdList nodes = .ok plan) ↔
      (∀ node ∈ nodes, Proper registry node) ∧ Apart (hasResponse :: responses registry nodes) := by
  induction nodes generalizing hasResponse cmdList with
  | nil => exact ⟨fun _ => ⟨by simp, List.IsChain.singleton _⟩, fun _ => ⟨cmdList, rfl⟩⟩
  | cons node nodes ih =>
    rw [List.forall_mem_cons]
    cases node with
    | text content =>
      rw [buildCommands, ih]
      · exact ⟨fun h => ⟨⟨trivial, h.1⟩, h.2⟩, fun h => ⟨h.1.2, h.2⟩⟩
      · simp
    | other =>
      rw [buildCommands, ih]
      · exact ⟨fun h => ⟨⟨trivial, h.1⟩, h.2⟩, fun h => ⟨h.1.2, h.2⟩⟩
      · simp
    | element name properties children =>
      rw [buildCommands]
      constructor
      · rintro ⟨plan, h⟩
        obtain ⟨cmd, hBuild, h⟩ := bind_eq_ok h
        obtain ⟨hFind, hOne, hParse⟩ := buildCommand_ok.mp hBuild
        obtain ⟨hNodes, hApart⟩ := (ih _ _).mp ⟨plan, h⟩
        obtain ⟨returnAs, hParse⟩ := hParse
        rw [responses_element hFind]
        exact ⟨⟨⟨cmd, returnAs, hFind, hParse⟩, hNodes⟩, List.isChain_cons_cons.mpr ⟨hOne, hApart⟩⟩
      · rintro ⟨⟨⟨cmd, returnAs, hFind, hParse⟩, hNodes⟩, hApart⟩
        rw [responses_element hFind] at hApart
        obtain ⟨hOne, hApart⟩ := List.isChain_cons_cons.mp hApart
        rw [buildCommand_ok.mpr ⟨hFind, hOne, returnAs, hParse⟩, ok_bind]
        exact (ih _ _).mpr ⟨hNodes, hApart⟩

/-- The plan has the command of every element, in their order. -/
theorem buildCommands_eq {hasResponse : Bool} {cmdList plan : List BESXMLCommand} {nodes : List XmlNode}
    (h : buildCommands registry hasResponse cmdList nodes = .ok plan) :
    plan = cmdList ++ nodes.filterMap (commandOf registry) := by
  induction nodes generalizing hasResponse cmdList with
  | nil =>
    cases h
    rw [List.filterMap_nil, List.append_nil]
  | cons node nodes ih =>
    cases node with
    | text content => exact ih h
    | other => exact ih h
    | element name properties children =>
      obtain ⟨cmd, hBuild, h⟩ := bind_eq_ok h
      obtain ⟨hFind, -, -⟩ := buildCommand_ok.mp hBuild
      have hCommand : commandOf registry (.element name properties children) = some cmd := by rw [commandOf, hFind]; rfl
      rw [ih h, List.filterMap_cons, hCommand, List.append_assoc]
      rfl

/-- No command stands before the first. -/
theorem apart_false_cons (flags : List Bool) : Apart (false :: flags) ↔ Apart flags := by
  cases flags with
  | nil => exact ⟨fun _ => List.IsChain.nil, fun _ => List.IsChain.singleton _⟩
  | cons b flags => exact List.isChain_cons_cons.trans (and_iff_right rfl)

variable {returnCmd : Word} {document : Except (List Word) (Option Root)}

theorem buildDataRequestPlan_ok : (∃ plan, buildDataRequestPlan registry returnCmd document = .ok plan) ↔
    ProperRequest registry returnCmd document ∧ Apart (responses registry (childrenOf document)) := by
  constructor
  · rintro ⟨plan, h⟩
    rw [buildDataRequestPlan.eq_def] at h
    split at h
    · cases h
    · cases h
    · rename_i root
      split at h
      · cases h
      · rename_i hName
        split at h
        · cases h
        · rename_i hValue
          split at h
          · cases h
          · rename_i hId
            obtain ⟨cmdList, hBuild, h⟩ := bind_eq_ok h
            obtain ⟨_, hCheck, -⟩ := bind_eq_ok h
            obtain ⟨hNodes, hApart⟩ := (buildCommands_ok false [] root.children).mp ⟨cmdList, hBuild⟩
            rw [not_not] at hName hValue
            exact ⟨⟨root, rfl, hName, hValue, hId, hNodes, checkTransmitter_ok.mp hCheck⟩,
              (apart_false_cons _).mp hApart⟩
  · rintro ⟨⟨root, rfl, hName, hValue, hId, hNodes, hTransmitter⟩, hApart⟩
    obtain ⟨plan, hBuild⟩ := (buildCommands_ok false [] root.children).mpr ⟨hNodes, (apart_false_cons _).mpr hApart⟩
    refine ⟨plan, ?_⟩
    rw [buildDataRequestPlan, if_neg (not_not.mpr hName), if_neg (not_not.mpr hValue), if_neg hId, hBuild, ok_bind,
      checkTransmitter_ok.mpr hTransmitter, ok_bind]

theorem plan_responses {plan : List BESXMLCommand} (h : buildDataRequestPlan registry returnCmd document = .ok plan) :
    plan.map BESXMLCommand.hasResponse = responses registry (childrenOf document) := by
  obtain ⟨⟨root, rfl, hName, hValue, hId, -⟩, -⟩ := buildDataRequestPlan_ok.mp ⟨plan, h⟩
  rw [buildDataRequestPlan, if_neg (not_not.mpr hName), if_neg (not_not.mpr hValue), if_neg hId] at h
  obtain ⟨cmdList, hBuild, h⟩ := bind_eq_ok h
  obtain ⟨_, -, h⟩ := bind_eq_ok h
  cases h
  rw [buildCommands_eq hBuild]
  rfl

/-- One command at most of those to be executed has a response, or the request is refused and nothing executed. -/
def SingleResponse (registry : Registry) (returnCmd : Word) (execute : BESXMLCommand → Except RequestError Unit)
    (document : Except (List Word) (Option Root)) : Prop :=
  match buildDataRequestPlan registry returnCmd document with
  | .ok plan => (plan.map BESXMLCommand.hasResponse).count true ≤ 1
  | .error _ => executed registry returnCmd execute document = []

/-- More than one response is found out if two commands with a response are neighbours, and not otherwise. -/
theorem single_response_iff (registry : Registry) (returnCmd : Word)
    (execute : BESXMLCommand → Except RequestError Unit) (document : Except (List Word) (Option Root)) :
    SingleResponse registry returnCmd execute document ↔
      ¬ ProperRequest registry returnCmd document ∨ ¬ Apart (responses registry (childrenOf document)) ∨
        (responses registry (childrenOf document)).count true ≤ 1 := by
  rw [← or_assoc, ← not_and_or, ← buildDataRequestPlan_ok, SingleResponse]
  cases h : buildDataRequestPlan registry returnCmd document with
  | ok plan =>
    dsimp only
    rw [plan_responses h]
    constructor
    · exact Or.inr
    · rintro (hNone | hCount)
      · exact absurd ⟨plan, rfl⟩ hNone
      · exact hCount
  | error e =>
    constructor
    · intro _
      left
      rintro ⟨plan, hPlan⟩
      cases hPlan
    · intro _
      rw [executed, h]

/-- Two commands that show something, and one without a response. -/
def threeCommands : Registry where
  findCommand name :=
    if name = "setContext".toList then some (some ⟨false, fun _ => .ok []⟩)
    else if name = "showVersion".toList ∨ name = "showStatus".toList then some (some ⟨true, fun _ => .ok []⟩)
    else none
  findTransmitter _ := false

/-- The command between forgets the response of the first. -/
theorem responses_around_command : ¬ SingleResponse threeCommands [] (fun _ => .ok ())
    (.ok (some ⟨"request".toList, [("reqID".toList, some "1".toList)],
      [.element "showVersion".toList [] [], .element "setContext".toList [] [],
        .element "showStatus".toList [] []]⟩)) := by
  intro h
  have hTwo : 2 ≤ 1 := h
  exact absurd hTwo (by decide)

end Libdap.Bes
