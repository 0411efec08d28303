import ProgramFlow.CfgError
import ProgramFlow.ClassCfg
import ProgramFlow.NameMap

/-! The store of one analysis: it builds the graph of a declaration on the first request, keeps
at most one object for each qualified name, members of classes included, and remembers failures
so that a broken declaration is built only once.

A front end enters as a `Builder`. It is handed the supply of identities and, for a class, the
objects already held. Each step answers with the events it gave rise to. -/
namespace ProgramFlow

inductive DeclarationKind where
  | classType
  | method
  | field
  deriving DecidableEq, Inhabited, Repr

namespace DeclarationKind

def all : List DeclarationKind := [.classType, .method, .field]

def name : DeclarationKind → String
  | .classType => "Class"
  | .method => "Method"
  | .field => "Field"

def text : DeclarationKind → String
  | .classType => "class"
  | .method => "method"
  | .field => "field"

def ofName? (s : String) : Option DeclarationKind := all.find? fun k => k.name == s

end DeclarationKind

structure Declaration where
  kind : DeclarationKind
  qualifiedName : String
  deriving DecidableEq, Inhabited, Repr

def Declaration.text (d : Declaration) : String := d.kind.text ++ " " ++ d.qualifiedName

inductive DiagnosticKind where
  | resolution
  | build
  | limit
  deriving DecidableEq, Inhabited, Repr

def DiagnosticKind.name : DiagnosticKind → String
  | .resolution => "Resolution"
  | .build => "Build"
  | .limit => "Limit"

structure Diagnostic where
  qualifiedName : String
  kind : DiagnosticKind
  message : String
  deriving DecidableEq, Inhabited, Repr

namespace Diagnostic

def text (d : Diagnostic) : String :=
  "[" ++ d.kind.name ++ "] " ++ d.qualifiedName ++ ": " ++ d.message

def ofError (qualifiedName : String) (e : CfgError) : Diagnostic :=
  match e with
  | .resolution _ reason => ⟨qualifiedName, .resolution, reason⟩
  | .build _ fault => ⟨qualifiedName, .build, fault.message⟩
  | .limit _ _ _ => ⟨qualifiedName, .limit, e.message⟩
  | .config error => ⟨qualifiedName, .build, error.message⟩

/-- The error a later request for the same name is answered with. -/
def replay (d : Diagnostic) : CfgError :=
  match d.kind with
  | .resolution => .resolution d.qualifiedName d.message
  | .build | .limit => .build d.qualifiedName (.reported d.message)

end Diagnostic

inductive Level where
  | debug
  | warn
  deriving DecidableEq, Inhabited, Repr

inductive Event where
  | cacheHit (name : String)
  | building (declaration : Declaration)
  | built (name : String) (nodes edges : Nat)
  | failed (name : String) (error : CfgError)
  | overLimit (name : String) (nodes max : Nat)
  | reuses (name : String) (members : Nat)
  | resetting (held : Nat)
  | unresolvedCallee (callee : String) (site : NodeId) (caller : String)
  | arityMismatch (level : Level) (callee caller : String) (actuals formals : Nat)
  | linked (links unresolved : Nat)
  deriving DecidableEq, Inhabited, Repr

namespace Event

def level : Event → Level
  | .failed _ _ | .overLimit _ _ _ => .warn
  | .arityMismatch level _ _ _ _ => level
  | _ => .debug

def message : Event → String
  | .cacheHit name => "CFG cache hit: " ++ name
  | .building declaration => "Building CFG for " ++ declaration.text
  | .built name nodes edges =>
    "Built CFG for " ++ name ++ " (" ++ toString nodes ++ " nodes, " ++ toString edges ++ " edges)"
  | .failed name error => "Failed to build CFG for " ++ name ++ ": " ++ error.message
  | .overLimit name nodes max =>
    "CFG for " ++ name ++ " has " ++ toString nodes ++ " nodes, above the limit of " ++
      toString max
  | .reuses name members => name ++ " reuses " ++ toString members ++ " cached member CFGs"
  | .resetting held => "Resetting ids, dropping " ++ toString held ++ " cached CFGs"
  | .unresolvedCallee callee site caller =>
    "Unresolved callee " ++ callee ++ " at " ++ site.text ++ " in " ++ caller
  | .arityMismatch _ callee caller actuals formals =>
    "Arity mismatch calling " ++ callee ++ " from " ++ caller ++ ": " ++ toString actuals ++
      " actuals, " ++ toString formals ++ " formals"
  | .linked links unresolved =>
    "Interprocedural graph: " ++ toString links ++ " links, " ++ toString unresolved ++
      " unresolved call sites"

end Event

/-- A construction that takes identities from the supply; what it took stays taken when it
fails. -/
abbrev BuildM := ExceptT CfgError (StateM Supply)

structure Builder where
  buildMethod : Declaration → BuildM Cfg
  buildField : Declaration → BuildM Cfg
  buildClass : Declaration → Lookup → BuildM ClassCfg

structure Store where
  config : StoreConfig := {}
  supply : Supply := {}
  cache : NameMap SharedCfg := {}
  failures : NameMap Diagnostic := {}
  diagnostics : List Diagnostic := []

structure Reply where
  result : Except CfgError SharedCfg
  store : Store
  events : List Event

namespace Store

def find? (s : Store) (name : String) : Option SharedCfg := s.cache.find? name

def contains (s : Store) (name : String) : Bool := s.cache.contains name

def method? (s : Store) (name : String) : Option Cfg := (s.find? name).bind SharedCfg.method?

def classType? (s : Store) (name : String) : Option ClassCfg :=
  (s.find? name).bind SharedCfg.classType?

def failure? (s : Store) (name : String) : Option Diagnostic := s.failures.find? name

def methods (s : Store) : List Cfg :=
  (s.cache.entries.filterMap fun entry => entry.2.method?).mergeSort
    fun a b => a.qualifiedName ≤ b.qualifiedName

def checkName (d : Declaration) (built : String) : Except CfgError Unit :=
  if built = d.qualifiedName then .ok ()
  else .error (.build d.qualifiedName (.wrongName built))

/-- A graph above the limit is refused by a strict store and reported by any other. -/
def checkLimit (s : Store) (d : Declaration) (nodes : Nat) : Except CfgError (List Event) :=
  let max := s.config.maxNodesPerCfg
  if nodes ≤ max then .ok []
  else if s.config.strict then .error (.limit d.qualifiedName nodes max)
  else .ok [.overLimit d.qualifiedName nodes max]

def prepareMethod (s : Store) (d : Declaration) (cfg : Cfg) :
    Except CfgError (Cfg × List Event) := do
  checkName d cfg.qualifiedName
  let events ← s.checkLimit d cfg.flow.nodeCount
  let cfg := if s.config.computeBasicBlocks && !cfg.hasBlocks then cfg.computeBlocks else cfg
  return (cfg, events)

/-- Checks a built class, takes in the objects already held for its members, and gives the
others blocks if the store wants them. -/
def prepareClass (s : Store) (d : Declaration) (cfg : ClassCfg) (supply : Supply) :
    Except CfgError (ClassCfg × List Event × Supply) := do
  checkName d cfg.qualifiedName
  let events ← s.checkLimit d cfg.flow.nodeCount
  let (adopted, cfg, supply) := cfg.adopt s.find? supply
  let events := if adopted > 0 then events ++ [.reuses d.qualifiedName adopted] else events
  if s.config.computeBasicBlocks then
    let (_, cfg, supply) := cfg.computeMemberBlocks supply
    return (cfg, events, supply)
  else return (cfg, events, supply)

/-- Makes a member known under its name, unless an object is already held for it. -/
def registerMember (s : Store) (m : SharedCfg) : Store :=
  if s.contains m.qualifiedName then s
  else
    { s with
      cache := s.cache.insert m.qualifiedName m
      failures := s.failures.erase m.qualifiedName }

/-- Makes the members of a class known, those of nested classes included. -/
def registerMembers (s : Store) (cfg : ClassCfg) : Store :=
  cfg.descendants.foldl registerMember s

def keep (s : Store) (name : String) (held : SharedCfg) (events : List Event) : Reply :=
  { result := .ok held
    store := { s with cache := s.cache.insert name held }
    events := events ++ [.built name held.flow.nodeCount held.flow.edgeCount] }

def recordFailure (s : Store) (name : String) (e : CfgError) (events : List Event) : Reply :=
  let diagnostic := Diagnostic.ofError name e
  { result := .error e
    store :=
      { s with
        failures := s.failures.insert name diagnostic
        diagnostics := s.diagnostics ++ [diagnostic] }
    events := events ++ [.failed name e] }

def buildMethod (s : Store) (d : Declaration) (construct : BuildM Cfg) : Reply :=
  let (built, supply) := construct.run.run s.supply
  let s := { s with supply }
  match built with
  | .error e => s.recordFailure d.qualifiedName e [.building d]
  | .ok cfg =>
    match s.prepareMethod d cfg with
    | .error e => s.recordFailure d.qualifiedName e [.building d]
    | .ok (cfg, events) =>
      let (ref, supply) := s.supply.newRef
      { s with supply }.keep d.qualifiedName (.method ref cfg) (.building d :: events)

def buildClass (s : Store) (d : Declaration) (construct : Lookup → BuildM ClassCfg) : Reply :=
  let (built, supply) := (construct s.find?).run.run s.supply
  let s := { s with supply }
  match built with
  | .error e => s.recordFailure d.qualifiedName e [.building d]
  | .ok cfg =>
    match s.prepareClass d cfg s.supply with
    | .error e => s.recordFailure d.qualifiedName e [.building d]
    | .ok (cfg, events, supply) =>
      let (ref, supply) := supply.newRef
      ({ s with supply }.registerMembers cfg).keep d.qualifiedName (.classType ref cfg)
        (.building d :: events)

/-- The object held for a declaration; it is built on the first request. -/
def request (s : Store) (b : Builder) (d : Declaration) : Reply :=
  match s.find? d.qualifiedName with
  | some held => ⟨.ok held, s, [.cacheHit d.qualifiedName]⟩
  | none =>
    match s.failure? d.qualifiedName with
    | some diagnostic => ⟨.error diagnostic.replay, s, []⟩
    | none =>
      match d.kind with
      | .method => s.buildMethod d (b.buildMethod d)
      | .field => s.buildMethod d (b.buildField d)
      | .classType => s.buildClass d (b.buildClass d)

def allocate (s : Store) : NodeId × Store :=
  let (id, supply) := s.supply.newId
  (id, { s with supply })

/-- Starts the node identities again from 1 and forgets every graph with them. Failures stay
remembered. -/
def resetIds (s : Store) : Store × List Event :=
  ({ s with cache := .empty, supply := s.supply.resetIds }, [.resetting s.cache.size])

def destroy (s : Store) : Store × List Event :=
  let (s, events) := s.resetIds
  ({ s with failures := .empty, diagnostics := [] }, events)

end Store

end ProgramFlow
