import ProgramFlow.Cfg

/-! Control-flow graphs of classes, and graphs shared as objects.

The graph of a class is the union of its own entry and exit with the graphs of its members: the
entry flows into each member's start, each member's finish into the exit. Members are graphs of
methods and fields, or of nested classes, and are kept in the order of their names; the entry
lists the names in the order of registration.

A `SharedCfg` is a graph together with the identity of the object that holds it. Two holders
share an object exactly when the identities agree; a graph that is changed inside a class gets
a new identity, so other holders keep what they had. -/
namespace ProgramFlow

mutual

structure ClassCfg where
  own : FlowGraph
  flow : FlowGraph
  members : List SharedCfg
  /-- Both graphs belong to the same declaration. -/
  named : own.qualifiedName = flow.qualifiedName

inductive SharedCfg where
  | method (ref : Ref) (cfg : Cfg)
  | classType (ref : Ref) (cfg : ClassCfg)

end

namespace SharedCfg

def ref : SharedCfg → Ref
  | .method ref _ => ref
  | .classType ref _ => ref

def flow : SharedCfg → FlowGraph
  | .method _ cfg => cfg.flow
  | .classType _ cfg => cfg.flow

def qualifiedName (m : SharedCfg) : String := m.flow.qualifiedName

def method? : SharedCfg → Option Cfg
  | .method _ cfg => some cfg
  | .classType _ _ => none

def classType? : SharedCfg → Option ClassCfg
  | .method _ _ => none
  | .classType _ cfg => some cfg

def isClass (m : SharedCfg) : Bool := m.classType?.isSome

/-- The same object, of the same form. -/
def same (a b : SharedCfg) : Bool := a.ref = b.ref && a.isClass == b.isClass

end SharedCfg

namespace ClassCfg

def ofFlow (flow : FlowGraph) : ClassCfg := ⟨flow, flow, [], rfl⟩

def qualifiedName (c : ClassCfg) : String := c.flow.qualifiedName

/-- The names of the members in the order of registration. -/
def memberNames (c : ClassCfg) : List String :=
  match c.own.classEntry? with
  | some entry => entry.members
  | none => []

def find? (c : ClassCfg) (name : String) : Option SharedCfg :=
  c.members.find? fun m => m.qualifiedName == name

def methodMembers (c : ClassCfg) : List Cfg := c.members.filterMap SharedCfg.method?

def addName (name : String) (n : Node) : Node :=
  match n.data with
  | .entry e =>
    match e.detail with
    | .classType entry =>
      { n with data := .entry { e with detail := .classType ⟨entry.members ++ [name]⟩ } }
    | _ => n
  | _ => n

def link (flow member : FlowGraph) : FlowGraph :=
  let joined := { flow with graph := (flow.graph.append member.graph).2 }
  let entered := (joined.addEdge ⟨flow.start, member.start, .fallThrough, none⟩).2
  (entered.addEdge ⟨member.finish, flow.finish, .fallThrough, none⟩).2

/-- Puts a member at its place in the order of names. -/
def place (m : SharedCfg) : List SharedCfg → List SharedCfg
  | [] => [m]
  | other :: rest =>
    if m.qualifiedName < other.qualifiedName then m :: other :: rest else other :: place m rest

def register (c : ClassCfg) (m : SharedCfg) : ClassCfg :=
  let name := m.qualifiedName
  let own := c.own.modifyNode c.own.start (addName name)
  let flow := c.flow.modifyNode c.flow.start (addName name)
  ⟨own, link flow m.flow, place m c.members, c.named⟩

/-- Adds a member and answers with the object held for it. A member of the same name and form is
kept and answered; one of the other form is kept too, and the given object is answered. -/
def add (c : ClassCfg) (m : SharedCfg) : SharedCfg × ClassCfg :=
  match c.find? m.qualifiedName with
  | some held => if held.isClass = m.isClass then (held, c) else (m, c)
  | none => (m, c.register m)

/-- The union of `own` and the members, in the order of registration. -/
def union (own : FlowGraph) (names : List String) (members : List SharedCfg) : FlowGraph :=
  names.foldl
    (fun flow name =>
      match members.find? fun m => m.qualifiedName == name with
      | some m => link flow m.flow
      | none => flow)
    own

theorem union_qualifiedName (own : FlowGraph) (names : List String) (members : List SharedCfg) :
    (union own names members).qualifiedName = own.qualifiedName := by
  induction names generalizing own with
  | nil => rfl
  | cons name rest ih =>
    simp only [union, List.foldl_cons] at ih ⊢
    rw [ih]
    split <;> rfl

def relink (c : ClassCfg) : ClassCfg :=
  { c with
    flow := union c.own c.memberNames c.members
    named := (union_qualifiedName c.own c.memberNames c.members).symm }

end ClassCfg

mutual

/-- The members of a class at every depth, each before its own members. -/
def ClassCfg.descendants : ClassCfg → List SharedCfg
  | ⟨_, _, members, _⟩ => SharedCfg.descendantsOf members

def SharedCfg.descendants : SharedCfg → List SharedCfg
  | .method _ _ => []
  | .classType _ cfg => cfg.descendants

def SharedCfg.descendantsOf : List SharedCfg → List SharedCfg
  | [] => []
  | m :: rest => m :: (m.descendants ++ SharedCfg.descendantsOf rest)

end

abbrev Lookup := String → Option SharedCfg

mutual

/-- Some member is known as another object; nested classes are searched if they are not known
themselves. -/
def ClassCfg.wouldAdopt (lookup : Lookup) : ClassCfg → Bool
  | ⟨_, _, members, _⟩ => SharedCfg.anyWouldAdopt lookup members

def SharedCfg.wouldAdopt (lookup : Lookup) : SharedCfg → Bool
  | .method ref cfg =>
    match lookup cfg.qualifiedName with
    | some known => !known.same (.method ref cfg)
    | none => false
  | .classType ref cfg =>
    match lookup cfg.qualifiedName with
    | some known => !known.same (.classType ref cfg)
    | none => cfg.wouldAdopt lookup

def SharedCfg.anyWouldAdopt (lookup : Lookup) : List SharedCfg → Bool
  | [] => false
  | m :: rest => m.wouldAdopt lookup || SharedCfg.anyWouldAdopt lookup rest

end

mutual

/-- Takes in the objects known under the names of members, and counts them. Nested classes that
are not known are searched in turn. The union is made again if anything changed. -/
def ClassCfg.adopt (lookup : Lookup) (supply : Supply) : ClassCfg → Nat × ClassCfg × Supply
  | ⟨own, flow, members, named⟩ =>
    let (count, adopted, supply) := SharedCfg.adoptAll lookup supply members
    let changed : ClassCfg := ⟨own, flow, adopted, named⟩
    (count, if count > 0 then changed.relink else changed, supply)

def SharedCfg.adopt (lookup : Lookup) (supply : Supply) : SharedCfg → Nat × SharedCfg × Supply
  | .method ref cfg =>
    match lookup cfg.qualifiedName with
    | some known =>
      if known.same (.method ref cfg) then (0, .method ref cfg, supply) else (1, known, supply)
    | none => (0, .method ref cfg, supply)
  | .classType ref cfg =>
    match lookup cfg.qualifiedName with
    | some known =>
      if known.same (.classType ref cfg) then (0, .classType ref cfg, supply)
      else (1, known, supply)
    | none =>
      if cfg.wouldAdopt lookup then
        let (count, adopted, supply) := cfg.adopt lookup supply
        let (ref, supply) := supply.newRef
        (count, .classType ref adopted, supply)
      else (0, .classType ref cfg, supply)

def SharedCfg.adoptAll (lookup : Lookup) (supply : Supply) :
    List SharedCfg → Nat × List SharedCfg × Supply
  | [] => (0, [], supply)
  | m :: rest =>
    let (first, m, supply) := m.adopt lookup supply
    let (others, rest, supply) := SharedCfg.adoptAll lookup supply rest
    (first + others, m :: rest, supply)

end

mutual

def ClassCfg.needsBlocks : ClassCfg → Bool
  | ⟨_, _, members, _⟩ => SharedCfg.anyNeedsBlocks members

def SharedCfg.needsBlocks : SharedCfg → Bool
  | .method _ cfg => !cfg.hasBlocks
  | .classType _ cfg => cfg.needsBlocks

def SharedCfg.anyNeedsBlocks : List SharedCfg → Bool
  | [] => false
  | m :: rest => m.needsBlocks || SharedCfg.anyNeedsBlocks rest

end

mutual

/-- Computes the blocks of the methods and fields that have none, at every depth, and counts
them. The union is made again if anything changed. -/
def ClassCfg.computeMemberBlocks (supply : Supply) : ClassCfg → Nat × ClassCfg × Supply
  | ⟨own, flow, members, named⟩ =>
    let (count, computed, supply) := SharedCfg.computeAllBlocks supply members
    let changed : ClassCfg := ⟨own, flow, computed, named⟩
    (count, if count > 0 then changed.relink else changed, supply)

def SharedCfg.computeBlocks (supply : Supply) : SharedCfg → Nat × SharedCfg × Supply
  | .method ref cfg =>
    if cfg.hasBlocks then (0, .method ref cfg, supply)
    else
      let (ref, supply) := supply.newRef
      (1, .method ref cfg.computeBlocks, supply)
  | .classType ref cfg =>
    if cfg.needsBlocks then
      let (count, computed, supply) := cfg.computeMemberBlocks supply
      let (ref, supply) := supply.newRef
      (count, .classType ref computed, supply)
    else (0, .classType ref cfg, supply)

def SharedCfg.computeAllBlocks (supply : Supply) :
    List SharedCfg → Nat × List SharedCfg × Supply
  | [] => (0, [], supply)
  | m :: rest =>
    let (first, m, supply) := m.computeBlocks supply
    let (others, rest, supply) := SharedCfg.computeAllBlocks supply rest
    (first + others, m :: rest, supply)

end

end ProgramFlow
