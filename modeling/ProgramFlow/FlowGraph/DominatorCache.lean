import ProgramFlow.Config
import ProgramFlow.FlowGraph.PostDominance

/-! A memory of post-dominator sets, keyed by the name of the graph and the anchor. It holds a
fixed number of sets and gives up the one that was not asked for longest. -/
namespace ProgramFlow

/-- Entries with the most recently used first, at most `capacity` of them. -/
structure RecentlyUsed (κ α : Type) where
  capacity : Nat
  entries : List (κ × α) := []

namespace RecentlyUsed

variable {κ α : Type} [DecidableEq κ]

def get? (r : RecentlyUsed κ α) (key : κ) : Option (α × RecentlyUsed κ α) :=
  (r.entries.lookup key).map fun value =>
    (value, { r with entries := (key, value) :: r.entries.filter fun entry => entry.1 ≠ key })

def put (r : RecentlyUsed κ α) (key : κ) (value : α) : RecentlyUsed κ α :=
  { r with
    entries := ((key, value) :: r.entries.filter fun entry => entry.1 ≠ key).take r.capacity }

def clear (r : RecentlyUsed κ α) : RecentlyUsed κ α := { r with entries := [] }

end RecentlyUsed

structure DominatorCache where
  memo : Option (RecentlyUsed (String × NodeId) NodeSet) := none
  hits : Nat := 0
  misses : Nat := 0

namespace DominatorCache

/-- A cache that is switched on holds at least one set. -/
def ofConfig (c : ReachabilityConfig) : DominatorCache where
  memo :=
    if c.memoizePostDominators then some { capacity := max c.postDominatorCacheCapacity 1 }
    else none

def isEnabled (c : DominatorCache) : Bool := c.memo.isSome

def postDominators (c : DominatorCache) (g : FlowGraph) (anchor : NodeId) :
    NodeSet × DominatorCache :=
  match c.memo with
  | none => (g.postDominators anchor, { c with misses := c.misses + 1 })
  | some memo =>
    let key := (g.qualifiedName, anchor)
    match memo.get? key with
    | some (set, memo) => (set, { c with memo := some memo, hits := c.hits + 1 })
    | none =>
      let set := g.postDominators anchor
      (set, { c with memo := some (memo.put key set), misses := c.misses + 1 })

def clear (c : DominatorCache) : DominatorCache := { memo := c.memo.map RecentlyUsed.clear }

end DominatorCache

end ProgramFlow
