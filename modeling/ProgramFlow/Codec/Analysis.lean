import ProgramFlow.CallGraph
import ProgramFlow.Codec.Node

/-! The document form of configurations, of links between methods and of call graphs. Only the
sections of a configuration are read: what a section does not give keeps its default. -/
namespace ProgramFlow

def StoreConfig.toJson (c : StoreConfig) : Json :=
  .obj [("max_nodes_per_cfg", .ofNat c.maxNodesPerCfg),
    ("compute_basic_blocks", .bool c.computeBasicBlocks), ("strict", .bool c.strict)]

def StoreConfig.ofJson? (j : Json) : Option StoreConfig := do
  let default : StoreConfig := {}
  return {
    maxNodesPerCfg := ← j.getOr "max_nodes_per_cfg" default.maxNodesPerCfg Json.nat64?
    computeBasicBlocks := ← j.getOr "compute_basic_blocks" default.computeBasicBlocks Json.bool?
    strict := ← j.getOr "strict" default.strict Json.bool? }

def ReachabilityConfig.toJson (c : ReachabilityConfig) : Json :=
  .obj [("memoize_post_dominators", .bool c.memoizePostDominators),
    ("post_dominator_cache_capacity", .ofNat c.postDominatorCacheCapacity)]

def ReachabilityConfig.ofJson? (j : Json) : Option ReachabilityConfig := do
  let default : ReachabilityConfig := {}
  return {
    memoizePostDominators :=
      ← j.getOr "memoize_post_dominators" default.memoizePostDominators Json.bool?
    postDominatorCacheCapacity :=
      ← j.getOr "post_dominator_cache_capacity" default.postDominatorCacheCapacity Json.nat64? }

def LinkageConfig.toJson (c : LinkageConfig) : Json :=
  .obj [("link_unresolved", .bool c.linkUnresolved),
    ("warn_on_arity_mismatch", .bool c.warnOnArityMismatch)]

def LinkageConfig.ofJson? (j : Json) : Option LinkageConfig := do
  let default : LinkageConfig := {}
  return {
    linkUnresolved := ← j.getOr "link_unresolved" default.linkUnresolved Json.bool?
    warnOnArityMismatch :=
      ← j.getOr "warn_on_arity_mismatch" default.warnOnArityMismatch Json.bool? }

def AnalysisConfig.toJson (c : AnalysisConfig) : Json :=
  .obj [("version", .ofNat c.version), ("store", c.store.toJson),
    ("reachability", c.reachability.toJson), ("linkage", c.linkage.toJson)]

def AnalysisConfig.ofJson? (j : Json) : Option AnalysisConfig := do
  let default : AnalysisConfig := {}
  return {
    version := ← j.getOr "version" default.version Json.nat32?
    store := ← j.getOr "store" default.store StoreConfig.ofJson?
    reachability := ← j.getOr "reachability" default.reachability ReachabilityConfig.ofJson?
    linkage := ← j.getOr "linkage" default.linkage LinkageConfig.ofJson? }

def CallLink.toJson (l : CallLink) : Json :=
  .obj [("caller", .str l.caller), ("caller_entry", l.callerEntry.toJson),
    ("call_site", l.callSite.toJson), ("callee", .str l.callee),
    ("callee_entry", l.calleeEntry.toJson), ("call_edge", l.callEdge.toJson),
    ("parameter_edges", .ofList Flow.toJson l.parameterEdges),
    ("arity_mismatch",
      .ofOption (fun (a, f) => .arr [.ofNat a, .ofNat f]) l.arityMismatch)]

def UnresolvedCall.toJson (u : UnresolvedCall) : Json :=
  .obj [("caller", .str u.caller), ("call_site", u.callSite.toJson), ("callee", .str u.callee)]

def CallNode.toJson (n : CallNode) : Json :=
  .obj [("entry", n.entry.toJson), ("qualified_name", .str n.qualifiedName)]

def CallEdge.toJson (e : CallEdge) : Json :=
  .obj [("caller", e.caller.toJson), ("callee", e.callee.toJson),
    ("call_site", e.callSite.toJson)]

end ProgramFlow
