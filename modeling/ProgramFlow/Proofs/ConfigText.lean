import ProgramFlow.Config.Yaml
import ProgramFlow.Proofs.BlockMappings
import ProgramFlow.Proofs.ModifierText

/-! A configuration is read back from its printed form. The text is that of a block mapping with a
nested mapping for each section; what is read from it is the mapping again, in which every field is
found under its own name, so that no default takes the place of a printed value. Whether the
configuration is accepted is then decided by its validation alone. -/
namespace ProgramFlow

namespace Yaml

theorem toDigits_ne_zero_cons {n : Nat} (hn : 0 < n) (rest : List Char) :
    Nat.toDigits 10 n ≠ '0' :: rest := by
  induction n using Nat.strongRecOn generalizing rest with
  | ind n ih =>
    by_cases hsmall : n < 10
    · rw [Nat.toDigits_of_lt_base hsmall]
      intro h
      interval_cases n <;> simp [Nat.digitChar] at h
    · rw [Nat.toDigits_of_base_le (by decide) (Nat.le_of_not_lt hsmall)]
      have hne : Nat.toDigits 10 (n / 10) ≠ [] := Nat.toDigits_ne_nil
      obtain ⟨c, more, hcons⟩ := List.exists_cons_of_ne_nil hne
      intro h
      rw [hcons, List.cons_append, List.cons.injEq] at h
      exact ih (n / 10) (by omega) (by omega) more (by rw [hcons, h.1])

theorem unsigned?_toDigits (n : Nat) : unsigned? (Nat.toDigits 10 n) = some n := by
  rcases Nat.eq_zero_or_pos n with rfl | hn
  · decide
  · have hread := Text.ofDigits?_toDigits (by decide : 1 < 10) (by decide) n
    have hzero := toDigits_ne_zero_cons hn
    have hplus : ∀ rest, Nat.toDigits 10 n ≠ '+' :: rest := by
      intro rest h
      have hdigit := Nat.isDigit_of_mem_toDigits (by decide : 0 < 10) (by decide)
        (h ▸ List.mem_cons_self : '+' ∈ Nat.toDigits 10 n)
      exact absurd hdigit (by decide)
    -- what is left is the case without a sign and without a prefix
    have hbody : unsigned? (Nat.toDigits 10 n) = Text.ofDigits? 10 (Nat.toDigits 10 n) := by
      unfold unsigned?
      split
      · next rest h => exact absurd h (hplus rest)
      · dsimp only
        split
        all_goals first | rfl | next h => exact absurd h (hzero _)
    rw [hbody, hread]

theorem valueText?_word (tag : String) (word : List Char) :
    valueText? tag (.scalar .plain none word) = some word := rfl

theorem natBelow?_numeral {bound n : Nat} (h : n < bound) :
    natBelow? bound (.scalar .plain none (toString n).toList) = some n := by
  have hdigits : (toString n).toList = Nat.toDigits 10 n := Nat.toList_repr
  rw [natBelow?, hdigits, valueText?_word, Option.bind_some, unsigned?_toDigits]
  exact if_pos h

theorem bool?_yamlBool (b : Bool) : bool? (.scalar .plain none (yamlBool b).toList) = some b := by
  cases b <;> decide

theorem isWord_numeral (n : Nat) : IsWord (toString n).toList := by
  have hdigits : (toString n).toList = Nat.toDigits 10 n := Nat.toList_repr
  rw [hdigits]
  refine ⟨Nat.toDigits_ne_nil, fun c hc => ?_⟩
  have hdigit := Nat.isDigit_of_mem_toDigits (by decide) (by decide) hc
  simp [isLetter, Char.isAlphanum, hdigit]

theorem isWord_of_all {cs : List Char} (h : (!cs.isEmpty && cs.all isLetter) = true) :
    IsWord cs := by
  simp only [Bool.and_eq_true, Bool.not_eq_true', List.isEmpty_eq_false_iff, List.all_eq_true] at h
  exact ⟨h.1, h.2⟩

theorem isKey_of_all {cs : List Char}
    (h : (!cs.isEmpty && cs.all isLetter && decide (cs.length ≤ 1024)) = true) : IsKey cs := by
  rw [Bool.and_eq_true, decide_eq_true_eq] at h
  exact ⟨isWord_of_all h.1, h.2⟩

theorem isWord_yamlBool (b : Bool) : IsWord (yamlBool b).toList := by
  cases b <;> exact isWord_of_all (by decide)

/-- A field that is there once is read, whatever its default. -/
theorem field?_of_mem {α : Type} {fields : List (List Char × Yaml)}
    (hnodup : (fields.map Prod.fst).Nodup) {name : String} {value : Yaml}
    (hmem : (name.toList, value) ∈ fields) {read : Yaml → Option α} {a : α}
    (hread : read value = some a) (default : α) : field? fields name default read = some a := by
  have hfilter : (fields.filter fun field => field.1 = name.toList) = [(name.toList, value)] := by
    induction fields with
    | nil => cases hmem
    | cons field rest ih =>
      obtain ⟨hnot, hrest⟩ := List.nodup_cons.1 hnodup
      rcases List.mem_cons.1 hmem with rfl | hmem
      · have hnone : (rest.filter fun field => field.1 = name.toList) = [] := by
          rw [List.filter_eq_nil_iff]
          intro other hother hname
          have hkey : other.1 ∈ rest.map Prod.fst := List.mem_map_of_mem hother
          rw [of_decide_eq_true hname] at hkey
          exact hnot hkey
        rw [List.filter_cons_of_pos (by simp), hnone]
      · have hname : field.1 ≠ name.toList := fun h => hnot (h ▸ List.mem_map_of_mem hmem)
        rw [List.filter_cons_of_neg (by simpa using hname)]
        exact ih hrest hmem
  rw [field?, hfilter]
  exact hread

namespace Block

def fields : Block → List (List Char × Yaml)
  | .nil => []
  | .field key word rest => (key, .scalar .plain none word) :: rest.fields
  | .nested key inner rest => (key, .map inner.entries) :: rest.fields

theorem anchors_entries (b : Block) : anchorsOfEntries b.entries = [] := by
  induction b with
  | nil => rfl
  | field key word rest ih => simpa [entries, anchorsOfEntries, anchors] using ih
  | nested key inner rest ihi ihr => simp [entries, anchorsOfEntries, anchors, ihi, ihr]

theorem record?_cons (key : List Char) (value : Yaml) (rest : List (Yaml × Yaml)) :
    record? [] (.map ((.scalar .plain none key, value) :: rest)) =
      (record? [] (.map rest)).map ((key, value.follow []) :: ·) := by
  simp only [record?, List.mapM_cons]
  generalize List.mapM (m := Option) _ rest = others
  cases others <;> rfl

theorem record?_entries (b : Block) : record? [] (.map b.entries) = some b.fields := by
  induction b with
  | nil => rfl
  | field key word rest ih =>
    rw [entries, record?_cons, ih]
    rfl
  | nested key inner rest _ ih =>
    rw [entries, record?_cons, ih]
    rfl

end Block

end Yaml

open Yaml (Block isKey_of_all isWord_numeral isWord_yamlBool field? field?_of_mem nat32? nat64?
  bool? natBelow?_numeral bool?_yamlBool)

namespace AnalysisConfig

def storeBlock (c : StoreConfig) : Block :=
  .field "max_nodes_per_cfg".toList (toString c.maxNodesPerCfg).toList <|
  .field "compute_basic_blocks".toList (yamlBool c.computeBasicBlocks).toList <|
  .field "strict".toList (yamlBool c.strict).toList .nil

def reachabilityBlock (c : ReachabilityConfig) : Block :=
  .field "memoize_post_dominators".toList (yamlBool c.memoizePostDominators).toList <|
  .field "post_dominator_cache_capacity".toList (toString c.postDominatorCacheCapacity).toList .nil

def linkageBlock (c : LinkageConfig) : Block :=
  .field "link_unresolved".toList (yamlBool c.linkUnresolved).toList <|
  .field "warn_on_arity_mismatch".toList (yamlBool c.warnOnArityMismatch).toList .nil

def block (c : AnalysisConfig) : Block :=
  .field "version".toList (toString c.version).toList <|
  .nested "store".toList (storeBlock c.store) <|
  .nested "reachability".toList (reachabilityBlock c.reachability) <|
  .nested "linkage".toList (linkageBlock c.linkage) .nil

theorem toList_yamlLine (depth : Nat) (key value : String) :
    (yamlLine depth key value).toList = Yaml.lineText (2 * depth) key.toList value.toList := by
  unfold yamlLine Yaml.lineText Yaml.entryText
  by_cases hvalue : value = ""
  · simp [hvalue]
  · have hempty : value.isEmpty = false := by simpa using hvalue
    simp [hvalue, hempty]

theorem toList_toYaml (c : AnalysisConfig) : c.toYaml.toList = c.block.text 0 := by
  simp only [toYaml, String.toList_join, List.flatMap_cons, List.flatMap_nil, toList_yamlLine,
    block, storeBlock, reachabilityBlock, linkageBlock, Block.text, List.append_assoc, List.append_nil]
  rfl

theorem plain_block (c : AnalysisConfig) : c.block.Plain := by
  refine ⟨isKey_of_all (by decide), isWord_numeral _, isKey_of_all (by decide), nofun, ?_,
    isKey_of_all (by decide), nofun, ?_, isKey_of_all (by decide), nofun, ?_, trivial⟩
  · exact ⟨isKey_of_all (by decide), isWord_numeral _, isKey_of_all (by decide), isWord_yamlBool _,
      isKey_of_all (by decide), isWord_yamlBool _, trivial⟩
  · exact ⟨isKey_of_all (by decide), isWord_yamlBool _, isKey_of_all (by decide), isWord_numeral _,
      trivial⟩
  · exact ⟨isKey_of_all (by decide), isWord_yamlBool _, isKey_of_all (by decide), isWord_yamlBool _,
      trivial⟩

/-- The numbers are within the ranges of their types: the version has 32 bits, the sizes have 64. -/
structure Fits (c : AnalysisConfig) : Prop where
  version : c.version < 0x100000000
  nodes : c.store.maxNodesPerCfg < 0x10000000000000000
  capacity : c.reachability.postDominatorCacheCapacity < 0x10000000000000000

theorem ofYaml?_storeBlock {c : StoreConfig} (h : c.maxNodesPerCfg < 0x10000000000000000) :
    StoreConfig.ofYaml? [] (.map (storeBlock c).entries) = some c := by
  have hnodup : ((storeBlock c).fields.map Prod.fst).Nodup := by
    simp only [storeBlock, Block.fields, List.map_cons, List.map_nil]
    decide
  have hnodes : ∀ default, field? (storeBlock c).fields "max_nodes_per_cfg" default nat64? =
      some c.maxNodesPerCfg :=
    field?_of_mem hnodup (.head _) (natBelow?_numeral h)
  have hblocks : ∀ default, field? (storeBlock c).fields "compute_basic_blocks" default bool? =
      some c.computeBasicBlocks :=
    field?_of_mem hnodup (.tail _ (.head _)) (bool?_yamlBool _)
  have hstrict : ∀ default, field? (storeBlock c).fields "strict" default bool? =
      some c.strict :=
    field?_of_mem hnodup (.tail _ (.tail _ (.head _))) (bool?_yamlBool _)
  simp [StoreConfig.ofYaml?, Block.record?_entries, hnodes, hblocks, hstrict]

theorem ofYaml?_reachabilityBlock {c : ReachabilityConfig}
    (h : c.postDominatorCacheCapacity < 0x10000000000000000) :
    ReachabilityConfig.ofYaml? [] (.map (reachabilityBlock c).entries) = some c := by
  have hnodup : ((reachabilityBlock c).fields.map Prod.fst).Nodup := by
    simp only [reachabilityBlock, Block.fields, List.map_cons, List.map_nil]
    decide
  have hmemoize : ∀ default,
      field? (reachabilityBlock c).fields "memoize_post_dominators" default bool? =
        some c.memoizePostDominators :=
    field?_of_mem hnodup (.head _) (bool?_yamlBool _)
  have hcapacity : ∀ default,
      field? (reachabilityBlock c).fields "post_dominator_cache_capacity" default nat64? =
        some c.postDominatorCacheCapacity :=
    field?_of_mem hnodup (.tail _ (.head _)) (natBelow?_numeral h)
  simp [ReachabilityConfig.ofYaml?, Block.record?_entries, hmemoize, hcapacity]

theorem ofYaml?_linkageBlock (c : LinkageConfig) :
    LinkageConfig.ofYaml? [] (.map (linkageBlock c).entries) = some c := by
  have hnodup : ((linkageBlock c).fields.map Prod.fst).Nodup := by
    simp only [linkageBlock, Block.fields, List.map_cons, List.map_nil]
    decide
  have hunresolved : ∀ default, field? (linkageBlock c).fields "link_unresolved" default bool? =
      some c.linkUnresolved :=
    field?_of_mem hnodup (.head _) (bool?_yamlBool _)
  have hwarn : ∀ default, field? (linkageBlock c).fields "warn_on_arity_mismatch" default bool? =
      some c.warnOnArityMismatch :=
    field?_of_mem hnodup (.tail _ (.head _)) (bool?_yamlBool _)
  simp [LinkageConfig.ofYaml?, Block.record?_entries, hunresolved, hwarn]

theorem ofYaml?_block {c : AnalysisConfig} (h : c.Fits) :
    ofYaml? (.map c.block.entries) = some c := by
  have hnodup : (c.block.fields.map Prod.fst).Nodup := by
    simp only [block, Block.fields, List.map_cons, List.map_nil]
    decide
  have hversion : ∀ default, field? c.block.fields "version" default nat32? = some c.version :=
    field?_of_mem hnodup (.head _) (natBelow?_numeral h.version)
  have hstore : ∀ default,
      field? c.block.fields "store" default (StoreConfig.ofYaml? []) = some c.store :=
    field?_of_mem hnodup (.tail _ (.head _)) (ofYaml?_storeBlock h.nodes)
  have hreach : ∀ default,
      field? c.block.fields "reachability" default (ReachabilityConfig.ofYaml? []) =
        some c.reachability :=
    field?_of_mem hnodup (.tail _ (.tail _ (.head _))) (ofYaml?_reachabilityBlock h.capacity)
  have hlinkage : ∀ default,
      field? c.block.fields "linkage" default (LinkageConfig.ofYaml? []) = some c.linkage :=
    field?_of_mem hnodup (.tail _ (.tail _ (.tail _ (.head _)))) (ofYaml?_linkageBlock _)
  have hanchors : Yaml.anchors (.map c.block.entries) = [] := by
    rw [Yaml.anchors, Block.anchors_entries]
  simp [ofYaml?, hanchors, Yaml.follow, Block.record?_entries, hversion, hstore, hreach, hlinkage]

theorem ofYaml?_toYaml {c : AnalysisConfig} (h : c.Fits) :
    (Yaml.ofText? c.toYaml.toList).bind ofYaml? = some c := by
  rw [toList_toYaml, Block.ofText?_eq_map c.plain_block nofun, Option.bind_some, ofYaml?_block h]

theorem ofText_toYaml {c : AnalysisConfig} (h : c.Fits) :
    ofText c.toYaml = c.validate.map fun _ => c := by
  rw [ofText, ofYaml?_toYaml h]
  cases hvalid : c.validate <;> simp [hvalid, Except.map]

theorem validate_eq (c : AnalysisConfig) :
    c.validate =
      if c.version ≠ 1 then .error (.unsupportedVersion c.version [1])
      else if ¬ (1 ≤ c.store.maxNodesPerCfg ∧ c.store.maxNodesPerCfg ≤ 1000000) then
        .error (.range "store.max_nodes_per_cfg" c.store.maxNodesPerCfg 1 1000000
          "A CFG holds at least its entry node")
      else if ¬ (1 ≤ c.reachability.postDominatorCacheCapacity ∧
          c.reachability.postDominatorCacheCapacity ≤ 65536) then
        .error (.range "reachability.post_dominator_cache_capacity"
          c.reachability.postDominatorCacheCapacity 1 65536
          "Disable memoize_post_dominators instead of using a zero capacity")
      else .ok () := by
  unfold validate StoreConfig.validate ReachabilityConfig.validate
  by_cases hversion : c.version = 1
  · rw [if_neg (not_not_intro hversion), if_neg (not_not_intro hversion)]
    by_cases hnodes : 1 ≤ c.store.maxNodesPerCfg ∧ c.store.maxNodesPerCfg ≤ 1000000
    · rw [if_pos hnodes, if_neg (not_not_intro hnodes), ite_not]
      rfl
    · rw [if_neg hnodes, if_pos hnodes]
      rfl
  · rw [if_pos hversion, if_pos hversion]
    rfl

/-- A configuration whose numbers fit their types is read back from its text if it is valid.
Otherwise reading fails with the error that its validation gives: that of the version if it is not
supported, else that of the store section, else that of the reachability section. -/
theorem configurations_are_read_back {c : AnalysisConfig} (h : c.Fits) :
    (c.validate = .ok () → ofText c.toYaml = .ok c) ∧
    (∀ e, c.validate = .error e → ofText c.toYaml = .error e) ∧
    c.validate =
      if c.version ≠ 1 then .error (.unsupportedVersion c.version [1])
      else if ¬ (1 ≤ c.store.maxNodesPerCfg ∧ c.store.maxNodesPerCfg ≤ 1000000) then
        .error (.range "store.max_nodes_per_cfg" c.store.maxNodesPerCfg 1 1000000
          "A CFG holds at least its entry node")
      else if ¬ (1 ≤ c.reachability.postDominatorCacheCapacity ∧
          c.reachability.postDominatorCacheCapacity ≤ 65536) then
        .error (.range "reachability.post_dominator_cache_capacity"
          c.reachability.postDominatorCacheCapacity 1 65536
          "Disable memoize_post_dominators instead of using a zero capacity")
      else .ok () := by
  refine ⟨fun hvalid => ?_, fun e herror => ?_, validate_eq c⟩
  · rw [ofText_toYaml h, hvalid]
    rfl
  · rw [ofText_toYaml h, herror]
    rfl

/-- No field but the version has its default; a capacity as large as its type allows is refused. -/
theorem configurations_are_read_back_unless_out_of_range :
    let valid : AnalysisConfig := ⟨1, ⟨1, false, true⟩, ⟨true, 65536⟩, ⟨true, false⟩⟩
    let large : AnalysisConfig := ⟨1, ⟨1, false, true⟩, ⟨true, 0xFFFFFFFFFFFFFFFF⟩, ⟨true, false⟩⟩
    ofText valid.toYaml = .ok valid ∧
      ofText large.toYaml = .error (.range "reachability.post_dominator_cache_capacity"
        0xFFFFFFFFFFFFFFFF 1 65536
        "Disable memoize_post_dominators instead of using a zero capacity") := by
  intro valid large
  have hvalid : valid.Fits := ⟨by decide, by decide, by decide⟩
  have hlarge : large.Fits := ⟨by decide, by decide, by decide⟩
  exact ⟨(configurations_are_read_back hvalid).1 (by decide),
    (configurations_are_read_back hlarge).2.1 _ (by decide)⟩

end AnalysisConfig

end ProgramFlow
