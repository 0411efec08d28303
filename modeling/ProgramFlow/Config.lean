/-! The configuration of an analysis: a schema version and one section each for the store, for
reachability queries and for linkage. -/
namespace ProgramFlow

inductive ConfigError where
  | range (field : String) (value min max : Nat) (hint : String)
  | unsupportedVersion (found : Nat) (supported : List Nat)
  | unreadable
  | malformed
  deriving DecidableEq, Inhabited, Repr

def ConfigError.message : ConfigError → String
  | .range field value min max hint =>
    "Invalid range for field '" ++ field ++ "': " ++ toString value ++ " not in " ++
      toString min ++ "..=" ++ toString max ++ ". " ++ hint
  | .unsupportedVersion found supported =>
    "Unsupported configuration version " ++ toString found ++ ". Supported versions: " ++
      ", ".intercalate (supported.map toString)
  | .unreadable => "IO error"
  | .malformed => "YAML parsing error"

structure StoreConfig where
  maxNodesPerCfg : Nat := 100000
  computeBasicBlocks : Bool := true
  strict : Bool := false
  deriving DecidableEq, Inhabited, Repr

def StoreConfig.validate (c : StoreConfig) : Except ConfigError Unit :=
  if 1 ≤ c.maxNodesPerCfg ∧ c.maxNodesPerCfg ≤ 1000000 then .ok ()
  else .error (.range "store.max_nodes_per_cfg" c.maxNodesPerCfg 1 1000000
    "A CFG holds at least its entry node")

structure ReachabilityConfig where
  memoizePostDominators : Bool := false
  postDominatorCacheCapacity : Nat := 1024
  deriving DecidableEq, Inhabited, Repr

def ReachabilityConfig.validate (c : ReachabilityConfig) : Except ConfigError Unit :=
  if 1 ≤ c.postDominatorCacheCapacity ∧ c.postDominatorCacheCapacity ≤ 65536 then .ok ()
  else .error (.range "reachability.post_dominator_cache_capacity" c.postDominatorCacheCapacity
    1 65536 "Disable memoize_post_dominators instead of using a zero capacity")

structure LinkageConfig where
  linkUnresolved : Bool := false
  warnOnArityMismatch : Bool := true
  deriving DecidableEq, Inhabited, Repr

structure AnalysisConfig where
  version : Nat := 1
  store : StoreConfig := {}
  reachability : ReachabilityConfig := {}
  linkage : LinkageConfig := {}
  deriving DecidableEq, Inhabited, Repr

/-- The version is checked first, then the sections in order. -/
def AnalysisConfig.validate (c : AnalysisConfig) : Except ConfigError Unit := do
  if c.version ≠ 1 then throw (.unsupportedVersion c.version [1])
  c.store.validate
  c.reachability.validate

end ProgramFlow
