/-! The kinds of declarations, statements, calls, parameters, nodes and edges. Each kind has a
name, which stands for it in documents, and a text, which is shown. -/
namespace ProgramFlow

inductive DeclKind where
  | classType
  | interface
  | enumType
  | method
  | constructor
  | initializer
  | field
  | enumConstant
  deriving DecidableEq, Inhabited, Repr

namespace DeclKind

def all : List DeclKind :=
  [.classType, .interface, .enumType, .method, .constructor, .initializer, .field, .enumConstant]

def name : DeclKind → String
  | .classType => "Class"
  | .interface => "Interface"
  | .enumType => "Enum"
  | .method => "Method"
  | .constructor => "Constructor"
  | .initializer => "Initializer"
  | .field => "Field"
  | .enumConstant => "EnumConstant"

def text : DeclKind → String
  | .classType => "CLASS"
  | .interface => "INTERFACE"
  | .enumType => "ENUM"
  | .method => "METHOD"
  | .constructor => "CONSTRUCTOR"
  | .initializer => "INITIALIZER"
  | .field => "FIELD"
  | .enumConstant => "ENUM_CONSTANT"

def ofName? (s : String) : Option DeclKind := all.find? fun k => k.name == s

def isType : DeclKind → Bool
  | .classType | .interface | .enumType => true
  | _ => false

def isCallable : DeclKind → Bool
  | .method | .constructor | .initializer => true
  | _ => false

def isFieldLike : DeclKind → Bool
  | .field | .enumConstant => true
  | _ => false

end DeclKind

inductive StatementKind where
  | assignment
  | fieldDeclaration
  | localDeclaration
  | enumConstantDeclaration
  | assertion
  | breakJump
  | continueJump
  | doLoop
  | forLoop
  | conditional
  | returnJump
  | switchCase
  | switchDefault
  | whileLoop
  | empty
  | label
  | switchHead
  | synchronizedBlock
  | throwJump
  | tryBlock
  | catchBlock
  | finallyBlock
  deriving DecidableEq, Inhabited, Repr

namespace StatementKind

def all : List StatementKind :=
  [.assignment, .fieldDeclaration, .localDeclaration, .enumConstantDeclaration, .assertion,
    .breakJump, .continueJump, .doLoop, .forLoop, .conditional, .returnJump, .switchCase,
    .switchDefault, .whileLoop, .empty, .label, .switchHead, .synchronizedBlock, .throwJump,
    .tryBlock, .catchBlock, .finallyBlock]

def name : StatementKind → String
  | .assignment => "Assignment"
  | .fieldDeclaration => "FieldDeclaration"
  | .localDeclaration => "LocalDeclaration"
  | .enumConstantDeclaration => "EnumConstantDeclaration"
  | .assertion => "Assert"
  | .breakJump => "Break"
  | .continueJump => "Continue"
  | .doLoop => "Do"
  | .forLoop => "For"
  | .conditional => "If"
  | .returnJump => "Return"
  | .switchCase => "SwitchCase"
  | .switchDefault => "SwitchDefault"
  | .whileLoop => "While"
  | .empty => "Empty"
  | .label => "Label"
  | .switchHead => "Switch"
  | .synchronizedBlock => "Synchronized"
  | .throwJump => "Throw"
  | .tryBlock => "Try"
  | .catchBlock => "Catch"
  | .finallyBlock => "Finally"

def text : StatementKind → String
  | .assignment => "ASSIGNMENT"
  | .fieldDeclaration => "FIELD_DECLARATION"
  | .localDeclaration => "LOCAL_DECLARATION"
  | .enumConstantDeclaration => "ENUM_CONSTANT_DECLARATION"
  | .assertion => "ASSERT"
  | .breakJump => "BREAK"
  | .continueJump => "CONTINUE"
  | .doLoop => "DO"
  | .forLoop => "FOR"
  | .conditional => "IF"
  | .returnJump => "RETURN"
  | .switchCase => "SWITCH_CASE"
  | .switchDefault => "SWITCH_DEFAULT"
  | .whileLoop => "WHILE"
  | .empty => "EMPTY"
  | .label => "LABEL"
  | .switchHead => "SWITCH"
  | .synchronizedBlock => "SYNCHRONIZED"
  | .throwJump => "THROW"
  | .tryBlock => "TRY"
  | .catchBlock => "CATCH"
  | .finallyBlock => "FINALLY"

def ofName? (s : String) : Option StatementKind := all.find? fun k => k.name == s

def isLoop : StatementKind → Bool
  | .doLoop | .forLoop | .whileLoop => true
  | _ => false

def isJump : StatementKind → Bool
  | .breakJump | .continueJump | .returnJump | .throwJump => true
  | _ => false

end StatementKind

inductive CallKind where
  | methodCall
  | constructorCall
  | instanceCreation
  deriving DecidableEq, Inhabited, Repr

namespace CallKind

def all : List CallKind := [.methodCall, .constructorCall, .instanceCreation]

def name : CallKind → String
  | .methodCall => "MethodCall"
  | .constructorCall => "ConstructorCall"
  | .instanceCreation => "InstanceCreation"

def text : CallKind → String
  | .methodCall => "METHOD_CALL"
  | .constructorCall => "CONSTRUCTOR_CALL"
  | .instanceCreation => "INSTANCE_CREATION"

def ofName? (s : String) : Option CallKind := all.find? fun k => k.name == s

end CallKind

/-- The role of a parameter node: formals belong to a declaration, all others to a call. -/
inductive ParameterKind where
  | formalIn
  | formalOut
  | actualIn
  | actualOut
  | receiver
  deriving DecidableEq, Inhabited, Repr

namespace ParameterKind

def all : List ParameterKind := [.formalIn, .formalOut, .actualIn, .actualOut, .receiver]

def name : ParameterKind → String
  | .formalIn => "FormalIn"
  | .formalOut => "FormalOut"
  | .actualIn => "ActualIn"
  | .actualOut => "ActualOut"
  | .receiver => "Receiver"

def text : ParameterKind → String
  | .formalIn => "FORMAL_IN"
  | .formalOut => "FORMAL_OUT"
  | .actualIn => "ACTUAL_IN"
  | .actualOut => "ACTUAL_OUT"
  | .receiver => "METHOD_CALL_RECEIVER"

def ofName? (s : String) : Option ParameterKind := all.find? fun k => k.name == s

def isFormal : ParameterKind → Bool
  | .formalIn | .formalOut => true
  | _ => false

def isActual (k : ParameterKind) : Bool := !k.isFormal

end ParameterKind

inductive NodeKind where
  | entry (kind : DeclKind)
  | exit (kind : DeclKind)
  | statement (kind : StatementKind)
  | call (kind : CallKind)
  | parameter (kind : ParameterKind)
  | merge
  | dummy
  deriving DecidableEq, Inhabited, Repr

def NodeKind.text : NodeKind → String
  | .entry k => k.text ++ "_ENTRY"
  | .exit k => k.text ++ "_EXIT"
  | .statement k => k.text
  | .call k => k.text
  | .parameter k => k.text
  | .merge => "MERGE"
  | .dummy => "DUMMY"

/-- The kind of an edge. Calls and parameter passing leave the graph of one declaration; all
other edges are control edges. -/
inductive FlowKind where
  | onTrue
  | onFalse
  | fallThrough
  | methodCall
  | parameter
  | exceptionCatch
  | undefined
  deriving DecidableEq, Inhabited, Repr

namespace FlowKind

def all : List FlowKind :=
  [.onTrue, .onFalse, .fallThrough, .methodCall, .parameter, .exceptionCatch, .undefined]

def name : FlowKind → String
  | .onTrue => "True"
  | .onFalse => "False"
  | .fallThrough => "FallThrough"
  | .methodCall => "MethodCall"
  | .parameter => "Parameter"
  | .exceptionCatch => "ExceptionCatch"
  | .undefined => "Undefined"

def text : FlowKind → String
  | .onTrue => "TRUE"
  | .onFalse => "FALSE"
  | .fallThrough => "FALL_THROUGH"
  | .methodCall => "METHOD_CALL"
  | .parameter => "PARAMETER"
  | .exceptionCatch => "EXCEPTION_CATCH"
  | .undefined => "UNDEFINED"

def ofName? (s : String) : Option FlowKind := all.find? fun k => k.name == s

def isControl : FlowKind → Bool
  | .methodCall | .parameter => false
  | _ => true

def isConditional : FlowKind → Bool
  | .onTrue | .onFalse => true
  | _ => false

end FlowKind

end ProgramFlow
