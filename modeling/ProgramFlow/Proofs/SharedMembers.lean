import ProgramFlow.Proofs.Assembly
import ProgramFlow.Proofs.Memoization
import ProgramFlow.Proofs.Partition

/-! One object for each name, members of classes included. A class takes in the objects that are
held for its members, gets blocks, and only then are its members registered; the store must end
with the very objects the class holds. The argument needs two more facts about a store: what it
holds lies under its own name, and if it wants blocks then nothing it holds lacks them, so that
the computation of blocks copies no object that is shared already. -/
namespace ProgramFlow

theorem Cfg.Assembled.nodeIds_ne_nil {c : Cfg} (h : c.Assembled) : c.flow.nodeIds ≠ [] := by
  induction h with
  | finished h => exact h.nodeIds_ne_nil
  | @computed c _ ih =>
    intro hnil
    exact ih ((c.flow.nodeIds_markBlocks _).symm.trans hnil)

/-- In a list where the keys that meet a condition are distinct, such a key finds its own entry. -/
theorem find?_eq_some_of_nodup {α β : Type} [BEq β] [LawfulBEq β] {key : α → β} {p : β → Bool}
    {l : List α} {a : α} (ha : a ∈ l) (hp : p (key a) = true)
    (hd : ((l.map key).filter p).Nodup) : l.find? (fun x => key x == key a) = some a := by
  induction l with
  | nil => cases ha
  | cons b rest ih =>
    rw [List.find?_cons]
    by_cases hb : key b = key a
    · rw [List.map_cons, List.filter_cons_of_pos (hb ▸ hp), List.nodup_cons] at hd
      rcases List.mem_cons.1 ha with rfl | ha
      · simp
      · exact absurd (List.mem_filter.2 ⟨hb ▸ List.mem_map_of_mem ha, hb ▸ hp⟩) hd.1
    · rw [beq_false_of_ne hb]
      have hrest : a ∈ rest := by
        rcases List.mem_cons.1 ha with rfl | ha
        · exact absurd rfl hb
        · exact ha
      refine ih hrest (hd.sublist ?_)
      exact ((List.sublist_cons_self b rest).map key).filter p

/-- What a builder answers for when it hands over a class: no name is used twice inside it, that
of the class included; methods and fields are known objects or come from an assembler; and an
object with the identity of the one known under its name is that object. Objects made for the
occasion have identities of their own and known objects are themselves, so both kinds meet the
last condition. -/
structure ClassCfg.Sound (known : Lookup) (cfg : ClassCfg) : Prop where
  distinct : (cfg.qualifiedName :: cfg.descendants.map SharedCfg.qualifiedName).Nodup
  assembled : ∀ ref c, .method ref c ∈ cfg.descendants →
    known c.qualifiedName = some (.method ref c) ∨ c.Assembled
  identified : ∀ m ∈ cfg.descendants, m.Identified known

structure Builder.Serves (b : Builder) (s : Store) (d : Declaration) : Prop where
  method : d.kind ≠ .classType → ∀ cfg supply,
    (b.construct d).run.run s.supply = (.ok cfg, supply) → cfg.Assembled
  classType : d.kind = .classType → ∀ cfg supply,
    (b.buildClass d s.find?).run.run s.supply = (.ok cfg, supply) → cfg.Sound s.find?

namespace Store

/-- Anything may be done to a store, with builders that answer for what they make. -/
def Trusts (s : Store) : Action → Prop
  | .request b d => b.Serves s d
  | .allocate | .resetIds | .destroy => True

structure SharesMembers (s : Store) : Prop where
  keyed : Lookup.Keyed s.find?
  closed : Lookup.Closed s.find?
  blocked : s.config.computeBasicBlocks = true →
    ∀ name held, s.find? name = some held → held.needsBlocks = false

section Settling

variable {s : Store} {built : ClassCfg} (supply : Supply)

theorem adopts_adopt (hb : built.Sound s.find?) :
    SharedCfg.Adopts s.find? built.members (built.adopt s.find? supply).2.1.members := by
  rw [ClassCfg.members_adopt]
  exact SharedCfg.adopts_adoptAll (ClassCfg.descendants_eq built ▸ hb.identified) supply

variable (hs : s.SharesMembers) (hb : built.Sound s.find?)

include hs hb

theorem settle_agrees : ∀ m ∈ (s.settle built supply).descendants, m.Agrees s.find? := by
  have ha := (adopts_adopt supply hb).agrees hs.keyed hs.closed
  simp only [settle]
  split
  · next hblocks =>
    rw [ClassCfg.descendants_eq, ClassCfg.members_computeMemberBlocks]
    exact (SharedCfg.computes_computeAllBlocks _ _).agrees (hs.blocked hblocks) ha
  · rw [ClassCfg.descendants_eq]
    exact ha

theorem settle_names : (built.qualifiedName ::
    ((s.settle built supply).descendants.map SharedCfg.qualifiedName).filter
      fun name => (s.find? name).isNone).Nodup := by
  have hn := (adopts_adopt supply hb).unknown_names hs.keyed hs.closed
  have hd := hb.distinct
  rw [ClassCfg.descendants_eq] at hd
  have hnames : (s.settle built supply).descendants.map SharedCfg.qualifiedName =
      (SharedCfg.descendantsOf (built.adopt s.find? supply).2.1.members).map
        SharedCfg.qualifiedName := by
    simp only [settle]
    split
    · rw [ClassCfg.descendants_eq, ClassCfg.members_computeMemberBlocks]
      exact (SharedCfg.computes_computeAllBlocks _ _).names
    · rw [ClassCfg.descendants_eq]
  rw [hnames]
  exact (hn.cons_cons _).nodup hd

theorem settle_blocked (hblocks : s.config.computeBasicBlocks = true) :
    SharedCfg.anyNeedsBlocks (s.settle built supply).members = false := by
  have hknown : ∀ {ref c}, s.find? c.qualifiedName = some (.method ref c) →
      c.hasBlocks = true := by
    intro ref c hc
    simpa using hs.blocked hblocks _ _ hc
  simp only [settle, hblocks, if_true, ClassCfg.members_computeMemberBlocks]
  refine (SharedCfg.computes_computeAllBlocks _ _).needs_no_blocks fun ref c hm => ?_
  rcases (adopts_adopt supply hb).method_origin hs.keyed hs.closed hm with hc | hm
  · exact .inl (hknown hc)
  · rw [← ClassCfg.descendants_eq] at hm
    rcases hb.assembled ref c hm with hc | hc
    · exact .inl (hknown hc)
    · exact .inr (Cfg.hasBlocks_computeBlocks hc.nodeIds_ne_nil)

/-- Once its members are registered, what a class holds is what the store holds. -/
theorem find?_settled (hf : s.find? built.qualifiedName = none) {m : SharedCfg}
    (hm : m ∈ (s.settle built supply).descendants) (supply' : Supply) (held : SharedCfg)
    (events : List Event) :
    (({ s with supply := supply' }.registerMembers (s.settle built supply)).keep
      built.qualifiedName held events).store.find? m.qualifiedName = some m := by
  rw [find?_builtClass]
  cases hh : s.find? m.qualifiedName with
  | some known =>
    obtain rfl := settle_agrees supply hs hb m hm known hh
    rw [if_neg, Option.some_or]
    intro hn
    rw [hn, hf] at hh
    cases hh
  | none =>
    obtain ⟨hclass, hnodup⟩ := List.nodup_cons.1 (settle_names supply hs hb)
    rw [if_neg, Option.none_or]
    · exact find?_eq_some_of_nodup hm (by rw [hh]; rfl) hnodup
    · intro hn
      refine hclass (List.mem_filter.2 ⟨hn ▸ List.mem_map_of_mem hm, ?_⟩)
      rw [hf]
      rfl

end Settling

theorem config_registerMembers (s : Store) (cfg : ClassCfg) :
    (s.registerMembers cfg).config = s.config := by
  unfold registerMembers
  generalize cfg.descendants = forest
  induction forest generalizing s with
  | nil => rfl
  | cons m rest ih =>
    rw [List.foldl_cons, ih, registerMember]
    split <;> rfl

namespace Served

variable {s : Store} {b : Builder} {d : Declaration} {reply : Reply}

theorem config_eq (hs : Served s b d reply) : reply.store.config = s.config := by
  cases hs with
  | held | remembered | failed | builtMethod => rfl
  | builtClass => exact config_registerMembers ..

theorem closed (hs : Served s b d reply) (h : s.SharesMembers) (hb : b.Serves s d) :
    Lookup.Closed reply.store.find? := by
  intro name held hh m hm
  have hold : s.find? name = some held → reply.store.find? m.qualifiedName = some m :=
    fun hh => hs.keeps_held (h.closed name held hh m hm)
  cases hs with
  | held | remembered | failed => exact hold hh
  | builtMethod =>
    rcases held_of_keep hh with ⟨-, rfl⟩ | hh
    · simp [SharedCfg.descendants] at hm
    · exact hold hh
  | @builtClass built supply cfg events _ ref supply'' hf _ hk hbuilt hp =>
    obtain ⟨hname, hcfg, -⟩ := prepareClass_eq_ok hp
    have hnew : m ∈ cfg.descendants → (({ s with supply := supply'' }.registerMembers cfg).keep
        d.qualifiedName (.classType ref cfg) (.building d :: events)).store.find? m.qualifiedName =
          some m := by
      intro hm
      rw [← hname] at hf ⊢
      subst hcfg
      exact find?_settled supply h (hb.classType hk _ _ hbuilt) hf hm _ _ _
    rcases held_of_builtClass hh with ⟨-, rfl⟩ | hh | ⟨hin, -⟩
    · rw [SharedCfg.descendants] at hm
      exact hnew hm
    · exact hold hh
    -- a class that has been registered lies in the new one, and what it holds does too
    · exact hnew (ClassCfg.descendants_trans hin hm)

theorem blocked (hs : Served s b d reply) (h : s.SharesMembers) (hb : b.Serves s d)
    (hblocks : s.config.computeBasicBlocks = true) :
    ∀ name held, reply.store.find? name = some held → held.needsBlocks = false := by
  intro name held hh
  cases hs with
  | held | remembered | failed => exact h.blocked hblocks name held hh
  | @builtMethod built supply cfg _ ref supply' _ _ hk hbuilt hp =>
    obtain ⟨-, hcfg, -⟩ := prepareMethod_eq_ok hp
    rcases held_of_keep hh with ⟨-, rfl⟩ | hh
    · rw [SharedCfg.needsBlocks_method, Bool.not_eq_false', hcfg]
      have hne := (hb.method hk _ _ hbuilt).nodeIds_ne_nil
      cases hbb : built.hasBlocks with
      | true => simp [hbb]
      | false => simpa [hbb, hblocks] using Cfg.hasBlocks_computeBlocks hne
    · exact h.blocked hblocks name held hh
  | @builtClass built supply cfg _ _ ref supply'' hf _ hk hbuilt hp =>
    obtain ⟨-, hcfg, -⟩ := prepareClass_eq_ok hp
    have hnew : SharedCfg.anyNeedsBlocks cfg.members = false := by
      subst hcfg
      exact settle_blocked (s := s) supply h (hb.classType hk _ _ hbuilt) hblocks
    rcases held_of_builtClass hh with ⟨-, rfl⟩ | hh | ⟨hin, -⟩
    · rwa [SharedCfg.needsBlocks_classType]
    · exact h.blocked hblocks name held hh
    · rw [ClassCfg.descendants_eq] at hin
      exact SharedCfg.needs_no_blocks_of_mem hnew held hin

end Served

theorem sharesMembers_of_empty {s : Store} (h : ∀ name, s.find? name = none) :
    s.SharesMembers := by
  constructor
  · intro name held hh
    rw [h] at hh
    cases hh
  · intro name held hh
    rw [h] at hh
    cases hh
  · intro _ name held hh
    rw [h] at hh
    cases hh

theorem act_sharesMembers {s : Store} (h : s.SharesMembers) {a : Action} (ha : s.Trusts a) :
    (s.act a).1.SharesMembers := by
  cases a with
  | request b d =>
    have hs := request_served s b d
    exact ⟨hs.keyed h.keyed, hs.closed h ha, fun hb => hs.blocked h ha (hs.config_eq ▸ hb)⟩
  | allocate => exact ⟨h.keyed, h.closed, h.blocked⟩
  | resetIds | destroy => exact sharesMembers_of_empty fun _ => rfl

theorem Execution.sharesMembers {s t : Store} {events : List Event}
    (h : Execution Trusts s events t) (hs : s.SharesMembers) : t.SharesMembers := by
  induction h with
  | nil => exact hs
  | snoc _ ha ih => exact act_sharesMembers ih ha

theorem classType?_eq_some {s : Store} {name : String} {cfg : ClassCfg}
    (h : s.classType? name = some cfg) : ∃ ref, s.find? name = some (.classType ref cfg) := by
  obtain ⟨held, hh, hc⟩ := Option.bind_eq_some_iff.1 h
  cases held with
  | method => cases hc
  | classType ref _ =>
    cases hc
    exact ⟨ref, hh⟩

/-- One object for each name: whatever a held class has inside it, at any depth, is held under its
own name, and it is the same object, identity included. -/
theorem class_members_are_held {config : StoreConfig} {s : Store} {events : List Event}
    (h : Execution Trusts { config } events s) {name : String} {ref : Ref} {cfg : ClassCfg}
    (hc : s.find? name = some (.classType ref cfg)) {m : SharedCfg} (hm : m ∈ cfg.descendants) :
    s.find? m.qualifiedName = some m := by
  have hs := h.sharesMembers (sharesMembers_of_empty fun _ => rfl)
  refine hs.closed name _ hc m ?_
  rwa [SharedCfg.descendants]

/-- A method is requested first, then a class that makes it anew: the class takes in the object
that is held, and its new one is given up. -/
theorem class_members_are_held_after_method :
    ∃ events s cfg m, Execution Trusts { config := {} } events s ∧ .reuses "A" 1 ∈ events ∧
      s.classType? "A" = some cfg ∧ m ∈ cfg.descendants ∧ s.find? m.qualifiedName = some m := by
  let s : Store := { config := {} }
  let t := (s.request smallFrontEnd ⟨.method, "A.f"⟩).store
  have hmethod : smallFrontEnd.Serves s ⟨.method, "A.f"⟩ := by
    refine ⟨fun _ cfg supply hb => ?_, fun hk => by cases hk⟩
    cases hb
    exact .finished (.opened (.method ..))
  have hclass : smallFrontEnd.Serves t ⟨.classType, "A"⟩ := by
    refine ⟨fun hk => absurd rfl hk, fun _ cfg supply hb => ?_⟩
    cases hb
    refine ⟨by decide, fun ref c hc => .inr ?_, fun m hm held hh hsame => ?_⟩
    · cases List.mem_singleton.1 hc
      exact .finished (.opened (.method ..))
    · cases List.mem_singleton.1 hm
      cases hh
      cases hsame
  have h₀ : Execution Trusts s [] s := .nil s
  have h := (h₀.request hmethod).request hclass
  have hreuses : .reuses "A" 1 ∈ (t.request smallFrontEnd ⟨.classType, "A"⟩).events := by
    decide +kernel
  have hmembers : ((t.request smallFrontEnd ⟨.classType, "A"⟩).store.classType? "A").map
      (fun cfg => cfg.descendants.isEmpty) = some false := by
    decide +kernel
  obtain ⟨cfg, hcfg, hne⟩ := Option.map_eq_some_iff.1 hmembers
  obtain ⟨m, hm⟩ := List.exists_mem_of_ne_nil _ (List.isEmpty_eq_false_iff.1 hne)
  obtain ⟨ref, hf⟩ := classType?_eq_some hcfg
  exact ⟨_, _, cfg, m, h, List.mem_append_right _ hreuses, hcfg, hm,
    class_members_are_held h hf hm⟩

end Store

end ProgramFlow
