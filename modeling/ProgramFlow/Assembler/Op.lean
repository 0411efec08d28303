import ProgramFlow.Assembler

/-! The operations of an assembler as data, so that a construction is a list that can be run. The
nodes an operation speaks of are of a type `ν`: identities when it is run, names before. -/
namespace ProgramFlow

inductive AssemblerOp (ν : Type) where
  | statement (kind : StatementKind) (defUse : DefUse)
  | call (kind : CallKind) (callee : MethodRef) (defUse : DefUse)
  | merge
  | dummy
  | receiver (owner : ν) (name typeName : String) (defUse : DefUse)
  | actualIn (owner : ν) (name typeName : String) (defUse : DefUse)
  | actualOut (owner : ν) (name typeName : String) (defUse : DefUse)
  | actualOutForReturn (owner : ν) (typeName : String) (defUse : DefUse)
  | formalIn (name typeName : String) (defUse : DefUse)
  | formalOut (name typeName : String) (defUse : DefUse)
  | formalOutForReturn (typeName : String) (defUse : DefUse)
  | exceptionTarget (defUse : DefUse)
  | annotate (node : ν) (span : Span) (label : String)
  | connect (source target : ν) (kind : FlowKind)
  | loopback (source header : ν) (kind : FlowKind)
  | sequence (nodes : List ν)
  | peek

inductive OpResult where
  | node (id : NodeId)
  | done (accepted : Bool)
  | count (edges : Nat)
  | shape (qualifiedName : String) (start finish : NodeId) (nodes edges : Nat)

namespace AssemblerOp

def mapM {ν μ : Type} (f : ν → Option μ) : AssemblerOp ν → Option (AssemblerOp μ)
  | .statement kind defUse => some (.statement kind defUse)
  | .call kind callee defUse => some (.call kind callee defUse)
  | .merge => some .merge
  | .dummy => some .dummy
  | .receiver owner name typeName defUse => do return .receiver (← f owner) name typeName defUse
  | .actualIn owner name typeName defUse => do return .actualIn (← f owner) name typeName defUse
  | .actualOut owner name typeName defUse => do return .actualOut (← f owner) name typeName defUse
  | .actualOutForReturn owner typeName defUse => do
    return .actualOutForReturn (← f owner) typeName defUse
  | .formalIn name typeName defUse => some (.formalIn name typeName defUse)
  | .formalOut name typeName defUse => some (.formalOut name typeName defUse)
  | .formalOutForReturn typeName defUse => some (.formalOutForReturn typeName defUse)
  | .exceptionTarget defUse => some (.exceptionTarget defUse)
  | .annotate node span label => do return .annotate (← f node) span label
  | .connect source target kind => do return .connect (← f source) (← f target) kind
  | .loopback source header kind => do return .loopback (← f source) (← f header) kind
  | .sequence nodes => do return .sequence (← nodes.mapM f)
  | .peek => some .peek

def ofNode (r : NodeId × Assembler) : Assembled OpResult := (.ok (.node r.1), r.2)

def ofNode? (r : Assembled NodeId) : Assembled OpResult := (r.1.map .node, r.2)

def ofDone (r : Bool × Assembler) : Assembled OpResult := (.ok (.done r.1), r.2)

def apply : AssemblerOp NodeId → Assembler → Assembled OpResult
  | .statement kind defUse, a => ofNode (a.statement kind defUse)
  | .call kind callee defUse, a => ofNode (a.call kind callee defUse)
  | .merge, a => ofNode a.merge
  | .dummy, a => ofNode a.dummy
  | .receiver owner name typeName defUse, a => ofNode? (a.receiver owner name typeName defUse)
  | .actualIn owner name typeName defUse, a => ofNode? (a.actualIn owner name typeName defUse)
  | .actualOut owner name typeName defUse, a => ofNode? (a.actualOut owner name typeName defUse)
  | .actualOutForReturn owner typeName defUse, a =>
    ofNode? (a.actualOutForReturn owner typeName defUse)
  | .formalIn name typeName defUse, a => ofNode? (a.formalIn name typeName defUse)
  | .formalOut name typeName defUse, a => ofNode? (a.formalOut name typeName defUse)
  | .formalOutForReturn typeName defUse, a => ofNode? (a.formalOutForReturn typeName defUse)
  | .exceptionTarget defUse, a => ofNode? (a.exceptionTarget defUse)
  | .annotate node span label, a => ofDone (a.annotate node span label)
  | .connect source target kind, a => ofDone (a.connect source target kind)
  | .loopback source header kind, a => ofDone (a.loopback source header kind)
  | .sequence nodes, a =>
    let (count, a) := a.sequence nodes
    (.ok (.count count), a)
  | .peek, a =>
    (.ok (.shape a.flow.qualifiedName a.start a.finish a.flow.nodeCount a.flow.edgeCount), a)

/-- The assembler after a list of operations, failed ones included. -/
def run (ops : List (AssemblerOp NodeId)) (a : Assembler) : Assembler :=
  ops.foldl (fun a op => (op.apply a).2) a

end AssemblerOp

end ProgramFlow
