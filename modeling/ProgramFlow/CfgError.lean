import ProgramFlow.Config
import ProgramFlow.NodeId

/-! Why a control-flow graph could not be built. -/
namespace ProgramFlow

/-- What went wrong inside one declaration; `reported` is the wording of a front end. -/
inductive BuildFault where
  | notACall (id : NodeId)
  | unknownNode (id : NodeId)
  | callReturnTaken (call : NodeId)
  | methodReturnTaken
  | noParameters
  | wrongName (built : String)
  | reported (text : String)
  deriving DecidableEq, Inhabited, Repr

def BuildFault.message : BuildFault → String
  | .notACall id => id.text ++ " is not a call node"
  | .unknownNode id => "unknown node " ++ id.text
  | .callReturnTaken call => "call " ++ call.text ++ " already has a return actual-out"
  | .methodReturnTaken => "method already has a return formal-out"
  | .noParameters => "declaration has no parameters"
  | .wrongName built => "builder returned a CFG for '" ++ built ++ "'"
  | .reported text => text

inductive CfgError where
  | resolution (name reason : String)
  | build (qualifiedName : String) (fault : BuildFault)
  | limit (qualifiedName : String) (nodes max : Nat)
  | config (error : ConfigError)
  deriving DecidableEq, Inhabited, Repr

namespace CfgError

def message : CfgError → String
  | .resolution name reason =>
    "Resolution error: cannot resolve '" ++ name ++ "': " ++ reason
  | .build qualifiedName fault =>
    "Build error in '" ++ qualifiedName ++ "': " ++ fault.message
  | .limit qualifiedName nodes max =>
    "CFG '" ++ qualifiedName ++ "' has " ++ toString nodes ++ " nodes, limit is " ++ toString max
  | .config error => "Configuration error: " ++ error.message

def isResolution : CfgError → Bool
  | .resolution _ _ => true
  | _ => false

end CfgError

end ProgramFlow
