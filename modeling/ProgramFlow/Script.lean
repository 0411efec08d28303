import ProgramFlow.Assembler.Op
import ProgramFlow.Store

/-! A front end that needs no source program: each declaration is a script of assembler
operations. Operations may name the nodes they make and refer to earlier ones by name. A
declaration can also be marked as broken, and a class lists its members, which are built with it
or, if so marked, taken from the graphs already held. -/
namespace ProgramFlow.Script

inductive NodeName where
  | id (id : NodeId)
  | named (name : String)
  deriving DecidableEq, Inhabited, Repr

structure Step where
  op : AssemblerOp NodeName
  bind : Option String := none

inductive Form where
  | method
  | field
  | classType
  deriving DecidableEq, Inhabited, Repr

structure Head where
  form : Form
  kind : DeclKind
  name : String
  signature : String
  qualifiedName : String
  returnType : String := "void"
  /-- Whether the result is the graph of a class. -/
  asClass : Bool
  steps : List Step := []

def Head.openAssembler (h : Head) (supply : Supply) : Assembler :=
  match h.form with
  | .method => .method supply h.kind h.name h.signature h.qualifiedName h.returnType
  | .field => .field supply h.kind h.name h.qualifiedName
  | .classType => .classType supply h.kind h.name h.qualifiedName

structure Run where
  assembler : Assembler
  names : NameMap NodeId := {}

namespace Run

def ofHead (h : Head) (supply : Supply) : Run :=
  let assembler := h.openAssembler supply
  ⟨assembler, (NameMap.empty.insert "start" assembler.start).insert "end" assembler.finish⟩

def resolve? (r : Run) : NodeName → Option NodeId
  | .id id => some id
  | .named name => r.names.find? name

/-- Takes one step. A name nobody has given is a fault of the script. -/
def step (r : Run) (s : Step) : Except CfgError OpResult × Run :=
  match s.op.mapM r.resolve? with
  | none =>
    (.error (r.assembler.fault (.reported "script refers to an unknown node name")), r)
  | some op =>
    let (result, assembler) := op.apply r.assembler
    match result, s.bind with
    | .ok (.node id), some name => (result, ⟨assembler, r.names.insert name id⟩)
    | _, _ => (result, { r with assembler })

/-- Takes every step, whether earlier ones failed or not. -/
def steps (r : Run) : List Step → List (Except CfgError OpResult) × Run
  | [] => ([], r)
  | s :: rest =>
    let (result, r) := r.step s
    let (results, r) := r.steps rest
    (result :: results, r)

def stepsUntilFailure (r : Run) : List Step → Except CfgError Unit × Run
  | [] => (.ok (), r)
  | s :: rest =>
    match r.step s with
    | (.ok _, r) => r.stepsUntilFailure rest
    | (.error e, r) => (.error e, r)

end Run

inductive Product where
  | method (cfg : Cfg)
  | classType (cfg : ClassCfg)

def Head.product (h : Head) (a : Assembler) : Product :=
  if h.asClass then .classType a.toClass else .method a.toCfg

structure Member where
  name : String
  /-- Whether a graph already held is to be used. -/
  reuse : Bool := false

structure Spec where
  head : Head
  failure : Option CfgError := none
  members : List Member := []
  /-- Whether the front end computes the blocks itself. -/
  blocks : Bool := false

abbrev Catalog := NameMap Spec

def Head.assemble (h : Head) : BuildM Product := fun supply =>
  match (Run.ofHead h supply).stepsUntilFailure h.steps with
  | (.ok _, r) => (.ok (h.product r.assembler), r.assembler.supply)
  | (.error e, r) => (.error e, r.assembler.supply)

def Product.share (p : Product) : BuildM SharedCfg := fun supply =>
  let (ref, supply) := supply.newRef
  match p with
  | .method cfg => (.ok (.method ref cfg), supply)
  | .classType cfg => (.ok (.classType ref cfg), supply)

/-- Builds a declaration of the catalogue; as part of a class build, the members of classes are
built too. The depth bounds the nesting of classes. -/
def Catalog.product (catalog : Catalog) (known : Lookup) (withMembers : Bool) :
    Nat → String → BuildM Product
  | 0, name => throw (.build name (.reported "classes are nested without end"))
  | depth + 1, name => do
    let some spec := catalog.find? name | throw (.resolution name "no such declaration")
    if let some e := spec.failure then throw e
    match ← spec.head.assemble with
    | .method cfg => return .method (if spec.blocks then cfg.computeBlocks else cfg)
    | .classType cfg =>
      if withMembers then
        let mut cfg := cfg
        for member in spec.members do
          let held := if member.reuse then known member.name else none
          let shared ← match held with
            | some shared => pure shared
            | none =>
              let product ← Catalog.product catalog known true depth member.name
              product.share
          cfg := (cfg.add shared).2
        return .classType cfg
      else return .classType cfg

/-- The nesting of classes that do not contain themselves is no deeper than this. -/
def Catalog.depth (catalog : Catalog) : Nat := catalog.size + 1

def Catalog.builder (catalog : Catalog) : Builder where
  buildMethod d := do
    match ← catalog.product (fun _ => none) false catalog.depth d.qualifiedName with
    | .method cfg => return cfg
    | .classType _ => throw (.build d.qualifiedName (.reported "not a method"))
  buildField d := do
    match ← catalog.product (fun _ => none) false catalog.depth d.qualifiedName with
    | .method cfg => return cfg
    | .classType _ => throw (.build d.qualifiedName (.reported "not a field"))
  buildClass d known := do
    match ← catalog.product known true catalog.depth d.qualifiedName with
    | .classType cfg => return cfg
    | .method _ => throw (.build d.qualifiedName (.reported "not a class"))

end ProgramFlow.Script
