import ProgramFlow.Modifiers

/-! References from a statement to a field, a local variable or a method, with what the front end
knows about their declaration. Two references have the same target when kind and qualified name
agree. -/
namespace ProgramFlow

structure FieldRef where
  name : String
  qualifiedName : String
  typeName : String
  declaringClass : String
  modifiers : Modifiers := .empty
  deriving DecidableEq, Inhabited, Repr

def FieldRef.of (declaringClass name typeName : String) : FieldRef where
  name := name
  qualifiedName := declaringClass ++ "." ++ name
  typeName := typeName
  declaringClass := declaringClass

structure LocalRef where
  name : String
  qualifiedName : String
  typeName : String
  declaringClass : String
  declaringMethod : String
  modifiers : Modifiers := .empty
  isParameter : Bool := false
  deriving DecidableEq, Inhabited, Repr

def LocalRef.of (declaringClass declaringMethod name typeName : String) : LocalRef where
  name := name
  qualifiedName := declaringMethod ++ "#" ++ name
  typeName := typeName
  declaringClass := declaringClass
  declaringMethod := declaringMethod

structure MethodRef where
  name : String
  qualifiedName : String
  returnType : String
  declaringClass : String
  parameterTypes : List String
  modifiers : Modifiers := .empty
  deriving DecidableEq, Inhabited, Repr

namespace MethodRef

def of (declaringClass name : String) (parameterTypes : List String) (returnType : String) :
    MethodRef where
  name := name
  qualifiedName := declaringClass ++ "." ++ name ++ "(" ++ ",".intercalate parameterTypes ++ ")"
  returnType := returnType
  declaringClass := declaringClass
  parameterTypes := parameterTypes

def isVoid (m : MethodRef) : Bool := m.returnType == "void"

def arity (m : MethodRef) : Nat := m.parameterTypes.length

end MethodRef

inductive ReferenceKind where
  | field
  | localVariable
  | method
  deriving DecidableEq, Inhabited, Repr

inductive Reference where
  | field (ref : FieldRef)
  | localVariable (ref : LocalRef)
  | method (ref : MethodRef)
  deriving DecidableEq, Inhabited, Repr

namespace Reference

def kind : Reference → ReferenceKind
  | .field _ => .field
  | .localVariable _ => .localVariable
  | .method _ => .method

def name : Reference → String
  | .field r => r.name
  | .localVariable r => r.name
  | .method r => r.name

def qualifiedName : Reference → String
  | .field r => r.qualifiedName
  | .localVariable r => r.qualifiedName
  | .method r => r.qualifiedName

def typeName : Reference → String
  | .field r => r.typeName
  | .localVariable r => r.typeName
  | .method r => r.returnType

def declaringClass : Reference → String
  | .field r => r.declaringClass
  | .localVariable r => r.declaringClass
  | .method r => r.declaringClass

def declaringMethod? : Reference → Option String
  | .localVariable r => some r.declaringMethod
  | _ => none

def modifiers : Reference → Modifiers
  | .field r => r.modifiers
  | .localVariable r => r.modifiers
  | .method r => r.modifiers

def isField (r : Reference) : Bool := r.kind = .field

def isLocal (r : Reference) : Bool := r.kind = .localVariable

def isVariable (r : Reference) : Bool := r.kind ≠ .method

def sameTarget (a b : Reference) : Bool :=
  a.kind = b.kind && a.qualifiedName == b.qualifiedName

end Reference

end ProgramFlow
