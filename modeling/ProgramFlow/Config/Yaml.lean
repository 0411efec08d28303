import ProgramFlow.Config
import ProgramFlow.Text.Digits
import ProgramFlow.Yaml.Document

/-! Configurations as YAML. Every section and field may be left out; unknown keys are ignored,
whatever they hold, but a known key may appear once only. A document or section with nothing in
it stands for the defaults. -/
namespace ProgramFlow

namespace Yaml

/-- An unsigned number: decimal without leading zeros, or with a prefix for base sixteen, eight
or two; a plus sign may stand in front. -/
def unsigned? (text : List Char) : Option Nat :=
  let body := match text with
    | '+' :: rest => rest
    | _ => text
  match body with
  | '0' :: 'x' :: digits => Text.ofDigits? 16 digits
  | '0' :: 'o' :: digits => Text.ofDigits? 8 digits
  | '0' :: 'b' :: digits => Text.ofDigits? 2 digits
  | ['0'] => some 0
  | '0' :: _ => none
  | digits => Text.ofDigits? 10 digits

/-- The text of a scalar that may stand for a number or truth value: a plain one, or a literal
block with just the tag of its type. -/
def valueText? (tag : String) : Yaml → Option (List Char)
  | .scalar .plain _ text => some text
  | .scalar .literal (some given) text => if given = Tag.ofString tag then some text else none
  | _ => none

def natBelow? (bound : Nat) (y : Yaml) : Option Nat :=
  match (y.valueText? "tag:yaml.org,2002:int").bind unsigned? with
  | some n => if n < bound then some n else none
  | none => none

def nat32? : Yaml → Option Nat := natBelow? 0x100000000

def nat64? : Yaml → Option Nat := natBelow? 0x10000000000000000

def bool? (y : Yaml) : Option Bool :=
  match y.valueText? "tag:yaml.org,2002:bool" with
  | some text =>
    if text = "true".toList ∨ text = "True".toList ∨ text = "TRUE".toList then some true
    else if text = "false".toList ∨ text = "False".toList ∨ text = "FALSE".toList then some false
    else none
  | none => none

/-- The entries of a record by the names of their keys, aliases followed. Nothing at all is an
empty record. -/
def record? (anchors : List (Nat × Yaml)) : Yaml → Option (List (List Char × Yaml))
  | .scalar .plain _ [] => some []
  | .map entries => entries.mapM fun (key, value) =>
    (key.follow anchors).scalar?.map fun name => (name, value.follow anchors)
  | _ => none

/-- The field of a name: its default if the record lacks it, none if it is there twice. -/
def field? {α : Type} (fields : List (List Char × Yaml)) (name : String) (default : α)
    (read : Yaml → Option α) : Option α :=
  match fields.filter fun field => field.1 = name.toList with
  | [] => some default
  | [field] => read field.2
  | _ => none

end Yaml

def StoreConfig.ofYaml? (anchors : List (Nat × Yaml)) (y : Yaml) :
    Option StoreConfig := do
  let fields ← y.record? anchors
  let default : StoreConfig := {}
  return {
    maxNodesPerCfg := ← Yaml.field? fields "max_nodes_per_cfg" default.maxNodesPerCfg Yaml.nat64?
    computeBasicBlocks :=
      ← Yaml.field? fields "compute_basic_blocks" default.computeBasicBlocks Yaml.bool?
    strict := ← Yaml.field? fields "strict" default.strict Yaml.bool? }

def ReachabilityConfig.ofYaml? (anchors : List (Nat × Yaml)) (y : Yaml) :
    Option ReachabilityConfig := do
  let fields ← y.record? anchors
  let default : ReachabilityConfig := {}
  return {
    memoizePostDominators :=
      ← Yaml.field? fields "memoize_post_dominators" default.memoizePostDominators Yaml.bool?
    postDominatorCacheCapacity :=
      ← Yaml.field? fields "post_dominator_cache_capacity" default.postDominatorCacheCapacity
        Yaml.nat64? }

def LinkageConfig.ofYaml? (anchors : List (Nat × Yaml)) (y : Yaml) :
    Option LinkageConfig := do
  let fields ← y.record? anchors
  let default : LinkageConfig := {}
  return {
    linkUnresolved := ← Yaml.field? fields "link_unresolved" default.linkUnresolved Yaml.bool?
    warnOnArityMismatch :=
      ← Yaml.field? fields "warn_on_arity_mismatch" default.warnOnArityMismatch Yaml.bool? }

namespace AnalysisConfig

def ofYaml? (y : Yaml) : Option AnalysisConfig := do
  let fields ← (y.follow y.anchors).record? y.anchors
  return {
    version := ← Yaml.field? fields "version" 1 Yaml.nat32?
    store := ← Yaml.field? fields "store" {} (StoreConfig.ofYaml? y.anchors)
    reachability := ← Yaml.field? fields "reachability" {} (ReachabilityConfig.ofYaml? y.anchors)
    linkage := ← Yaml.field? fields "linkage" {} (LinkageConfig.ofYaml? y.anchors) }

def ofText (text : String) : Except ConfigError AnalysisConfig :=
  match (Yaml.ofText? text.toList).bind ofYaml? with
  | none => .error .malformed
  | some config =>
    match config.validate with
    | .ok () => .ok config
    | .error e => .error e

def ofFile : Option String → Except ConfigError AnalysisConfig
  | some text => ofText text
  | none => .error .unreadable

end AnalysisConfig

def yamlLine (depth : Nat) (key value : String) : String :=
  String.ofList (List.replicate (2 * depth) ' ') ++ key ++ ":" ++
    (if value.isEmpty then "" else " " ++ value) ++ "\n"

def yamlBool (b : Bool) : String := if b then "true" else "false"

/-- All sections and fields in order, fields two blanks deeper than sections. -/
def AnalysisConfig.toYaml (c : AnalysisConfig) : String :=
  String.join [
    yamlLine 0 "version" (toString c.version),
    yamlLine 0 "store" "",
    yamlLine 1 "max_nodes_per_cfg" (toString c.store.maxNodesPerCfg),
    yamlLine 1 "compute_basic_blocks" (yamlBool c.store.computeBasicBlocks),
    yamlLine 1 "strict" (yamlBool c.store.strict),
    yamlLine 0 "reachability" "",
    yamlLine 1 "memoize_post_dominators" (yamlBool c.reachability.memoizePostDominators),
    yamlLine 1 "post_dominator_cache_capacity"
      (toString c.reachability.postDominatorCacheCapacity),
    yamlLine 0 "linkage" "",
    yamlLine 1 "link_unresolved" (yamlBool c.linkage.linkUnresolved),
    yamlLine 1 "warn_on_arity_mismatch" (yamlBool c.linkage.warnOnArityMismatch)]

end ProgramFlow
