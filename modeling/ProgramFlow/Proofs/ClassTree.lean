import ProgramFlow.ClassCfg

/-! The objects inside a class, and what adoption and the computation of blocks do to them.

Statements are about forests, that is lists of objects with everything inside them; a class is
the forest of its members. What is known under a name is given by a lookup. A lookup is `Keyed`
when it answers with graphs of the name asked for, and `Closed` when it also knows, as the same
object, whatever lies inside a class it knows. -/
namespace ProgramFlow

def Lookup.Keyed (known : Lookup) : Prop :=
  ∀ name held, known name = some held → held.qualifiedName = name

def Lookup.Closed (known : Lookup) : Prop :=
  ∀ name held, known name = some held → ∀ m ∈ held.descendants, known m.qualifiedName = some m

theorem Lookup.known_self {known : Lookup} (hk : known.Keyed) (hc : known.Closed) {name : String}
    {held m : SharedCfg} (h : known name = some held) (hm : m = held ∨ m ∈ held.descendants) :
    known m.qualifiedName = some m := by
  rcases hm with rfl | hm
  · rw [hk name m h, h]
  · exact hc name held h m hm

namespace SharedCfg

def Agrees (known : Lookup) (m : SharedCfg) : Prop :=
  ∀ held, known m.qualifiedName = some held → held = m

/-- An object that has the identity of the one known under its name is that object. -/
def Identified (known : Lookup) (m : SharedCfg) : Prop :=
  ∀ held, known m.qualifiedName = some held → held.same m → held = m

theorem agrees_of_known {known : Lookup} {m : SharedCfg} (h : known m.qualifiedName = some m) :
    m.Agrees known := by
  intro held hh
  exact Option.some.inj (hh.symm.trans h)

theorem agrees_of_unknown {known : Lookup} {m : SharedCfg} (h : known m.qualifiedName = none) :
    m.Agrees known := by
  intro held hh
  rw [h] at hh
  cases hh

def inside : SharedCfg → List SharedCfg
  | .method _ _ => []
  | .classType _ cfg => cfg.members

@[simp] theorem inside_method (ref : Ref) (cfg : Cfg) : (SharedCfg.method ref cfg).inside = [] :=
  rfl

@[simp] theorem inside_classType (ref : Ref) (cfg : ClassCfg) :
    (SharedCfg.classType ref cfg).inside = cfg.members := rfl

/-- Induction over a forest: over what lies inside the first object, and over the others. -/
theorem forest_induction {motive : List SharedCfg → Prop} (nil : motive [])
    (cons : ∀ m rest, motive m.inside → motive rest → motive (m :: rest)) :
    ∀ forest, motive forest
  | [] => nil
  | .method ref cfg :: rest =>
    cons (.method ref cfg) rest nil (forest_induction nil cons rest)
  | .classType ref ⟨own, flow, members, named⟩ :: rest =>
    cons (.classType ref ⟨own, flow, members, named⟩) rest (forest_induction nil cons members)
      (forest_induction nil cons rest)
termination_by forest => sizeOf forest

end SharedCfg

namespace ClassCfg

theorem descendants_eq (c : ClassCfg) : c.descendants = SharedCfg.descendantsOf c.members := by
  cases c; rfl

theorem wouldAdopt_eq (known : Lookup) (c : ClassCfg) :
    c.wouldAdopt known = SharedCfg.anyWouldAdopt known c.members := by
  cases c; rfl

theorem needsBlocks_eq (c : ClassCfg) : c.needsBlocks = SharedCfg.anyNeedsBlocks c.members := by
  cases c; rfl

theorem relink_qualifiedName (c : ClassCfg) : c.relink.qualifiedName = c.qualifiedName :=
  (union_qualifiedName c.own c.memberNames c.members).trans c.named

@[simp] theorem members_adopt (known : Lookup) (supply : Supply) (c : ClassCfg) :
    (c.adopt known supply).2.1.members = (SharedCfg.adoptAll known supply c.members).2.1 := by
  cases c
  simp only [ClassCfg.adopt]
  split <;> rfl

@[simp] theorem qualifiedName_adopt (known : Lookup) (supply : Supply) (c : ClassCfg) :
    (c.adopt known supply).2.1.qualifiedName = c.qualifiedName := by
  cases c
  simp only [ClassCfg.adopt]
  split
  · exact relink_qualifiedName _
  · rfl

@[simp] theorem members_computeMemberBlocks (supply : Supply) (c : ClassCfg) :
    (c.computeMemberBlocks supply).2.1.members =
      (SharedCfg.computeAllBlocks supply c.members).2.1 := by
  cases c
  simp only [ClassCfg.computeMemberBlocks]
  split <;> rfl

@[simp] theorem qualifiedName_computeMemberBlocks (supply : Supply) (c : ClassCfg) :
    (c.computeMemberBlocks supply).2.1.qualifiedName = c.qualifiedName := by
  cases c
  simp only [ClassCfg.computeMemberBlocks]
  split
  · exact relink_qualifiedName _
  · rfl

end ClassCfg

namespace SharedCfg

theorem descendants_eq (m : SharedCfg) : m.descendants = descendantsOf m.inside := by
  cases m with
  | method ref cfg => simp [SharedCfg.descendants, inside, descendantsOf]
  | classType ref cfg => rw [SharedCfg.descendants, ClassCfg.descendants_eq, inside]

@[simp] theorem descendantsOf_nil : descendantsOf [] = [] := by
  simp [descendantsOf]

@[simp] theorem descendantsOf_cons (m : SharedCfg) (rest : List SharedCfg) :
    descendantsOf (m :: rest) = m :: (descendantsOf m.inside ++ descendantsOf rest) := by
  simp [descendantsOf, descendants_eq]

theorem mem_descendantsOf_cons {x m : SharedCfg} {rest : List SharedCfg} :
    x ∈ descendantsOf (m :: rest) ↔
      x = m ∨ x ∈ descendantsOf m.inside ∨ x ∈ descendantsOf rest := by
  simp

theorem mem_descendantsOf {x : SharedCfg} {forest : List SharedCfg} :
    x ∈ descendantsOf forest ↔ ∃ m ∈ forest, x ∈ descendantsOf [m] := by
  induction forest with
  | nil => simp
  | cons head rest ih =>
    rw [mem_descendantsOf_cons, ih]
    simp [or_assoc]

theorem mem_descendantsOf_method {x : SharedCfg} {ref : Ref} {cfg : Cfg} :
    x ∈ descendantsOf [.method ref cfg] ↔ x = .method ref cfg := by
  simp

theorem mem_descendantsOf_classType {x : SharedCfg} {ref : Ref} {cfg : ClassCfg} :
    x ∈ descendantsOf [.classType ref cfg] ↔ x = .classType ref cfg ∨ x ∈ cfg.descendants := by
  rw [ClassCfg.descendants_eq]
  simp

theorem descendantsOf_trans {forest : List SharedCfg} {m x : SharedCfg}
    (hm : m ∈ descendantsOf forest) (hx : x ∈ descendantsOf m.inside) :
    x ∈ descendantsOf forest := by
  induction forest using forest_induction with
  | nil => simp at hm
  | cons head rest ihi ihr =>
    rw [mem_descendantsOf_cons] at hm ⊢
    rcases hm with rfl | hm | hm
    · exact .inr (.inl hx)
    · exact .inr (.inl (ihi hm))
    · exact .inr (.inr (ihr hm))

end SharedCfg

theorem ClassCfg.descendants_trans {c : ClassCfg} {m x : SharedCfg} (hm : m ∈ c.descendants)
    (hx : x ∈ m.descendants) : x ∈ c.descendants := by
  rw [SharedCfg.descendants_eq] at hx
  rw [ClassCfg.descendants_eq] at hm ⊢
  exact SharedCfg.descendantsOf_trans hm hx

namespace SharedCfg

section Adoption

variable {known : Lookup}

@[simp] theorem adoptAll_nil (supply : Supply) : (adoptAll known supply []).2.1 = [] := by
  simp [adoptAll]

@[simp] theorem adoptAll_cons (supply : Supply) (m : SharedCfg) (rest : List SharedCfg) :
    (adoptAll known supply (m :: rest)).2.1 =
      (m.adopt known supply).2.1 :: (adoptAll known (m.adopt known supply).2.2 rest).2.1 := by
  simp [adoptAll]

theorem adopt_of_known {m held : SharedCfg} (supply : Supply)
    (h : known m.qualifiedName = some held) (hm : m.Identified known) :
    (m.adopt known supply).2.1 = held := by
  have hsame := hm held h
  cases m with
  | method ref cfg =>
    change known cfg.qualifiedName = some held at h
    simp only [SharedCfg.adopt, h]
    split
    · next hs => exact (hsame hs).symm
    · rfl
  | classType ref cfg =>
    change known cfg.qualifiedName = some held at h
    simp only [SharedCfg.adopt, h]
    split
    · next hs => exact (hsame hs).symm
    · rfl

theorem adopt_of_unknown {m : SharedCfg} (supply : Supply) (h : known m.qualifiedName = none) :
    (m.adopt known supply).2.1 = m ∧ anyWouldAdopt known m.inside = false ∨
      ∃ ref ref' cfg, m = .classType ref cfg ∧
        (m.adopt known supply).2.1 = .classType ref' (cfg.adopt known supply).2.1 := by
  cases m with
  | method ref cfg =>
    change known cfg.qualifiedName = none at h
    left
    simp [SharedCfg.adopt, h, inside, anyWouldAdopt]
  | classType ref cfg =>
    change known cfg.qualifiedName = none at h
    simp only [SharedCfg.adopt, h]
    by_cases hw : cfg.wouldAdopt known = true
    · right
      rw [if_pos hw]
      exact ⟨ref, _, cfg, rfl, rfl⟩
    · left
      rw [if_neg hw, inside, ← ClassCfg.wouldAdopt_eq]
      exact ⟨rfl, Bool.eq_false_iff.2 hw⟩

theorem wouldAdopt_of_known {m held : SharedCfg} (h : known m.qualifiedName = some held) :
    m.wouldAdopt known = !held.same m := by
  cases m with
  | method ref cfg =>
    change known cfg.qualifiedName = some held at h
    simp only [SharedCfg.wouldAdopt, h]
  | classType ref cfg =>
    change known cfg.qualifiedName = some held at h
    simp only [SharedCfg.wouldAdopt, h]

theorem wouldAdopt_of_unknown {m : SharedCfg} (h : known m.qualifiedName = none) :
    m.wouldAdopt known = anyWouldAdopt known m.inside := by
  cases m with
  | method ref cfg =>
    change known cfg.qualifiedName = none at h
    simp only [SharedCfg.wouldAdopt, h, inside, anyWouldAdopt]
  | classType ref cfg =>
    change known cfg.qualifiedName = none at h
    simp only [SharedCfg.wouldAdopt, h, inside, ClassCfg.wouldAdopt_eq]

/-- What adoption can do to a forest: each object is replaced by the known one of its name, or,
if there is none, keeps its name and has the same done inside it. -/
inductive Adopts (known : Lookup) : List SharedCfg → List SharedCfg → Prop where
  | nil : Adopts known [] []
  | known {m held rest rest'} (h : known m.qualifiedName = some held)
      (hr : Adopts known rest rest') : Adopts known (m :: rest) (held :: rest')
  | unknown {m m' rest rest'} (h : known m.qualifiedName = none)
      (hn : m'.qualifiedName = m.qualifiedName) (hm : m'.isClass = false → m' = m)
      (hi : Adopts known m.inside m'.inside) (hr : Adopts known rest rest') :
      Adopts known (m :: rest) (m' :: rest')

theorem adopts_self {forest : List SharedCfg} (h : anyWouldAdopt known forest = false)
    (hid : ∀ m ∈ descendantsOf forest, m.Identified known) : Adopts known forest forest := by
  induction forest using forest_induction with
  | nil => exact .nil
  | cons head rest ihi ihr =>
    simp only [anyWouldAdopt, Bool.or_eq_false_iff] at h
    simp only [descendantsOf_cons, List.forall_mem_cons, List.forall_mem_append] at hid
    obtain ⟨hhead, hin, hrest⟩ := hid
    cases hh : known head.qualifiedName with
    | none =>
      rw [wouldAdopt_of_unknown hh] at h
      exact .unknown hh rfl (fun _ => rfl) (ihi h.1 hin) (ihr h.2 hrest)
    | some held =>
      rw [wouldAdopt_of_known hh, Bool.not_eq_false'] at h
      obtain rfl := hhead held hh h.1
      exact .known hh (ihr h.2 hrest)

theorem adopts_adoptAll {forest : List SharedCfg}
    (hid : ∀ m ∈ descendantsOf forest, m.Identified known) (supply : Supply) :
    Adopts known forest (adoptAll known supply forest).2.1 := by
  induction forest using forest_induction generalizing supply with
  | nil =>
    rw [adoptAll_nil]
    exact .nil
  | cons head rest ihi ihr =>
    simp only [descendantsOf_cons, List.forall_mem_cons, List.forall_mem_append] at hid
    obtain ⟨hhead, hin, hrest⟩ := hid
    rw [adoptAll_cons]
    cases hh : known head.qualifiedName with
    | some held =>
      rw [adopt_of_known supply hh hhead]
      exact .known hh (ihr hrest _)
    | none =>
      rcases adopt_of_unknown supply hh with ⟨he, hw⟩ | ⟨ref, ref', cfg, rfl, he⟩
      · rw [he]
        exact .unknown hh rfl (fun _ => rfl) (adopts_self hw hin) (ihr hrest _)
      · rw [he]
        refine .unknown hh (cfg.qualifiedName_adopt known supply) (fun h => by cases h) ?_
          (ihr hrest _)
        rw [inside_classType, inside_classType, ClassCfg.members_adopt]
        exact ihi hin supply

variable {forest result : List SharedCfg}

/-- After adoption every name that is known stands for the known object, at every depth. -/
theorem Adopts.agrees (hk : known.Keyed) (hc : known.Closed) (h : Adopts known forest result) :
    ∀ m ∈ descendantsOf result, m.Agrees known := by
  induction h with
  | nil => simp
  | known h _ ih =>
    simp only [descendantsOf_cons, List.forall_mem_cons, List.forall_mem_append]
    refine ⟨agrees_of_known (Lookup.known_self hk hc h (.inl rfl)), fun m hm => ?_, ih⟩
    rw [← descendants_eq] at hm
    exact agrees_of_known (Lookup.known_self hk hc h (.inr hm))
  | unknown h hn _ _ _ ihi ihr =>
    simp only [descendantsOf_cons, List.forall_mem_cons, List.forall_mem_append]
    exact ⟨agrees_of_unknown (hn ▸ h), ihi, ihr⟩

/-- Adoption brings in no name that is not known already. -/
theorem Adopts.unknown_names (hk : known.Keyed) (hc : known.Closed)
    (h : Adopts known forest result) :
    (((descendantsOf result).map qualifiedName).filter
      fun name => (known name).isNone).Sublist ((descendantsOf forest).map qualifiedName) := by
  induction h with
  | nil => simp
  | @known m held rest rest' h _ ih =>
    have hnone : ((descendantsOf held.inside).map qualifiedName).filter
        (fun name => (known name).isNone) = [] := by
      rw [List.filter_eq_nil_iff, List.forall_mem_map]
      intro x hx
      rw [← descendants_eq] at hx
      simp [Lookup.known_self hk hc h (.inr hx)]
    simp only [descendantsOf_cons, List.map_cons, List.map_append, List.filter_cons,
      List.filter_append, hnone, Lookup.known_self hk hc h (.inl rfl), Option.isNone_some,
      Bool.false_eq_true, if_false, List.nil_append]
    exact (ih.trans (List.sublist_append_right _ _)).cons _
  | @unknown m m' rest rest' h hn _ _ _ ihi ihr =>
    simp only [descendantsOf_cons, List.map_cons, List.map_append, List.filter_cons,
      List.filter_append, hn, h, Option.isNone_none, if_true]
    exact (ihi.append ihr).cons_cons _

/-- A method or field in the result is a known one or was there before. -/
theorem Adopts.method_origin (hk : known.Keyed) (hc : known.Closed)
    (h : Adopts known forest result) {ref : Ref} {cfg : Cfg}
    (hm : .method ref cfg ∈ descendantsOf result) :
    known cfg.qualifiedName = some (.method ref cfg) ∨ .method ref cfg ∈ descendantsOf forest := by
  induction h with
  | nil => simp at hm
  | known h _ ih =>
    rw [mem_descendantsOf_cons, ← descendants_eq, ← or_assoc] at hm
    rcases hm with hm | hm
    · exact .inl (Lookup.known_self hk hc h hm)
    · exact (ih hm).imp_right fun hm => mem_descendantsOf_cons.2 (.inr (.inr hm))
  | unknown h hn hsame _ _ ihi ihr =>
    rcases mem_descendantsOf_cons.1 hm with rfl | hm | hm
    · exact .inr (mem_descendantsOf_cons.2 (.inl (hsame rfl)))
    · exact (ihi hm).imp_right fun hm => mem_descendantsOf_cons.2 (.inr (.inl hm))
    · exact (ihr hm).imp_right fun hm => mem_descendantsOf_cons.2 (.inr (.inr hm))

end Adoption

section Blocks

@[simp] theorem computeAllBlocks_nil (supply : Supply) :
    (computeAllBlocks supply []).2.1 = [] := by
  simp [computeAllBlocks]

@[simp] theorem computeAllBlocks_cons (supply : Supply) (m : SharedCfg) (rest : List SharedCfg) :
    (computeAllBlocks supply (m :: rest)).2.1 =
      (m.computeBlocks supply).2.1 ::
        (computeAllBlocks (m.computeBlocks supply).2.2 rest).2.1 := by
  simp [computeAllBlocks]

@[simp] theorem anyNeedsBlocks_nil : anyNeedsBlocks [] = false := by
  simp [anyNeedsBlocks]

@[simp] theorem anyNeedsBlocks_cons (m : SharedCfg) (rest : List SharedCfg) :
    anyNeedsBlocks (m :: rest) = (m.needsBlocks || anyNeedsBlocks rest) := by
  simp [anyNeedsBlocks]

@[simp] theorem needsBlocks_method (ref : Ref) (cfg : Cfg) :
    (SharedCfg.method ref cfg).needsBlocks = !cfg.hasBlocks := by
  simp [SharedCfg.needsBlocks]

@[simp] theorem needsBlocks_classType (ref : Ref) (cfg : ClassCfg) :
    (SharedCfg.classType ref cfg).needsBlocks = anyNeedsBlocks cfg.members := by
  rw [SharedCfg.needsBlocks, ClassCfg.needsBlocks_eq]

theorem inside_needs_no_blocks {m : SharedCfg} (h : m.needsBlocks = false) :
    anyNeedsBlocks m.inside = false := by
  cases m with
  | method ref cfg => simp [inside]
  | classType ref cfg => simpa [inside] using h

theorem needs_no_blocks_of_mem {forest : List SharedCfg} (h : anyNeedsBlocks forest = false) :
    ∀ m ∈ descendantsOf forest, m.needsBlocks = false := by
  induction forest using forest_induction with
  | nil => simp
  | cons head rest ihi ihr =>
    rw [anyNeedsBlocks_cons, Bool.or_eq_false_iff] at h
    simp only [descendantsOf_cons, List.forall_mem_cons, List.forall_mem_append]
    exact ⟨h.1, ihi (inside_needs_no_blocks h.1), ihr h.2⟩

theorem computeBlocks_of_not_needs {m : SharedCfg} (supply : Supply) (h : m.needsBlocks = false) :
    m.computeBlocks supply = (0, m, supply) := by
  cases m with
  | method ref cfg =>
    rw [needsBlocks_method, Bool.not_eq_false'] at h
    simp [SharedCfg.computeBlocks, h]
  | classType ref cfg =>
    rw [needsBlocks_classType, ← ClassCfg.needsBlocks_eq] at h
    simp [SharedCfg.computeBlocks, h]

theorem computeBlocks_of_needs {m : SharedCfg} (supply : Supply) (h : m.needsBlocks = true) :
    (∃ ref ref' cfg, m = .method ref cfg ∧
        (m.computeBlocks supply).2.1 = .method ref' cfg.computeBlocks) ∨
      ∃ ref ref' cfg, m = .classType ref cfg ∧
        (m.computeBlocks supply).2.1 = .classType ref' (cfg.computeMemberBlocks supply).2.1 := by
  cases m with
  | method ref cfg =>
    rw [needsBlocks_method, Bool.not_eq_true'] at h
    left
    simp only [SharedCfg.computeBlocks, h, Bool.false_eq_true, if_false]
    exact ⟨ref, _, cfg, rfl, rfl⟩
  | classType ref cfg =>
    rw [needsBlocks_classType, ← ClassCfg.needsBlocks_eq] at h
    right
    simp only [SharedCfg.computeBlocks, h, if_true]
    exact ⟨ref, _, cfg, rfl, rfl⟩

inductive Computes : List SharedCfg → List SharedCfg → Prop where
  | nil : Computes [] []
  | kept {m rest rest'} (h : m.needsBlocks = false) (hr : Computes rest rest') :
      Computes (m :: rest) (m :: rest')
  | method {cfg rest rest'} (ref ref') (h : cfg.hasBlocks = false) (hr : Computes rest rest') :
      Computes (.method ref cfg :: rest) (.method ref' cfg.computeBlocks :: rest')
  | classType {cfg cfg' rest rest'} (ref ref')
      (h : (SharedCfg.classType ref cfg).needsBlocks = true)
      (hn : cfg'.qualifiedName = cfg.qualifiedName) (hi : Computes cfg.members cfg'.members)
      (hr : Computes rest rest') :
      Computes (.classType ref cfg :: rest) (.classType ref' cfg' :: rest')

theorem computes_computeAllBlocks (supply : Supply) (forest : List SharedCfg) :
    Computes forest (computeAllBlocks supply forest).2.1 := by
  induction forest using forest_induction generalizing supply with
  | nil =>
    rw [computeAllBlocks_nil]
    exact .nil
  | cons head rest ihi ihr =>
    rw [computeAllBlocks_cons]
    cases h : head.needsBlocks with
    | false =>
      rw [computeBlocks_of_not_needs supply h]
      exact .kept h (ihr _)
    | true =>
      rcases computeBlocks_of_needs supply h with
        ⟨ref, ref', cfg, rfl, he⟩ | ⟨ref, ref', cfg, rfl, he⟩
      · rw [he]
        exact .method ref ref' (by simpa using h) (ihr _)
      · rw [he]
        refine .classType ref ref' h (cfg.qualifiedName_computeMemberBlocks supply) ?_ (ihr _)
        rw [ClassCfg.members_computeMemberBlocks]
        exact ihi supply

variable {forest result : List SharedCfg}

theorem Computes.names (h : Computes forest result) :
    (descendantsOf result).map qualifiedName = (descendantsOf forest).map qualifiedName := by
  induction h with
  | nil => rfl
  | kept _ _ ih => simp only [descendantsOf_cons, List.map_cons, List.map_append, ih]
  | method ref ref' _ _ ih =>
    simp only [descendantsOf_cons, inside_method, List.map_cons, List.map_append, ih]
    rfl
  | classType ref ref' _ hn _ _ ihi ihr =>
    simp only [descendantsOf_cons, inside_classType, List.map_cons, List.map_append, ihi, ihr]
    exact congrArg (· :: _) hn

/-- Known objects are left alone if they have their blocks. -/
theorem Computes.agrees {known : Lookup} (h : Computes forest result)
    (hb : ∀ name held, known name = some held → held.needsBlocks = false)
    (ha : ∀ m ∈ descendantsOf forest, m.Agrees known) :
    ∀ m ∈ descendantsOf result, m.Agrees known := by
  have hunknown : ∀ {m : SharedCfg}, m.Agrees known → m.needsBlocks = true →
      known m.qualifiedName = none := by
    intro m hm hneeds
    cases hh : known m.qualifiedName with
    | none => rfl
    | some held =>
      obtain rfl := hm held hh
      rw [hb _ _ hh] at hneeds
      cases hneeds
  induction h with
  | nil => simp
  | kept _ _ ih =>
    simp only [descendantsOf_cons, List.forall_mem_cons, List.forall_mem_append] at ha ⊢
    exact ⟨ha.1, ha.2.1, ih ha.2.2⟩
  | method ref ref' h _ ih =>
    simp only [descendantsOf_cons, List.forall_mem_cons, List.forall_mem_append] at ha ⊢
    have hm := hunknown ha.1 (by simp [h])
    exact ⟨agrees_of_unknown hm, ha.2.1, ih ha.2.2⟩
  | @classType cfg cfg' _ _ ref ref' h hn _ _ ihi ihr =>
    simp only [descendantsOf_cons, List.forall_mem_cons, List.forall_mem_append] at ha ⊢
    have hm : known cfg.qualifiedName = none := hunknown ha.1 h
    exact ⟨agrees_of_unknown (hn ▸ hm : known cfg'.qualifiedName = none), ihi ha.2.1, ihr ha.2.2⟩

/-- Afterwards nothing lacks blocks, if every graph has blocks once they are computed. -/
theorem Computes.needs_no_blocks (h : Computes forest result)
    (hp : ∀ ref cfg, .method ref cfg ∈ descendantsOf forest →
      cfg.hasBlocks = true ∨ cfg.computeBlocks.hasBlocks = true) :
    anyNeedsBlocks result = false := by
  induction h with
  | nil => simp
  | kept h _ ih =>
    rw [anyNeedsBlocks_cons, h, Bool.false_or]
    exact ih fun ref cfg hm => hp ref cfg (mem_descendantsOf_cons.2 (.inr (.inr hm)))
  | @method cfg _ _ ref ref' h _ ih =>
    have hcfg : cfg.computeBlocks.hasBlocks = true := by
      rcases hp ref cfg (mem_descendantsOf_cons.2 (.inl rfl)) with hcfg | hcfg
      · rw [h] at hcfg
        cases hcfg
      · exact hcfg
    rw [anyNeedsBlocks_cons, needsBlocks_method, hcfg, Bool.not_true, Bool.false_or]
    exact ih fun ref cfg hm => hp ref cfg (mem_descendantsOf_cons.2 (.inr (.inr hm)))
  | classType ref ref' _ _ _ _ ihi ihr =>
    rw [anyNeedsBlocks_cons, needsBlocks_classType,
      ihi fun ref cfg hm => hp ref cfg (mem_descendantsOf_cons.2 (.inr (.inl hm))), Bool.false_or]
    exact ihr fun ref cfg hm => hp ref cfg (mem_descendantsOf_cons.2 (.inr (.inr hm)))

end Blocks

end SharedCfg

end ProgramFlow
