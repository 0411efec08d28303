import ProgramFlow.Proofs.Provenance
import ProgramFlow.Proofs.StoreExecution

/-! What a front end can hand over if it makes everything it hands over itself, with assemblers on
the supply it was given, or takes it from the objects it was shown.

A `Workshop` is what a front end has in hand in the middle of a call. It gains graphs by finishing
assemblers, makes objects of them, looks into objects, copies graphs out of them and adds objects to
classes. The identities it uses up on the way stay used, also when the call fails. -/
namespace ProgramFlow

structure Workshop where
  supply : Supply
  methods : List Cfg := []
  classes : List ClassCfg := []
  objects : List SharedCfg := []

namespace Workshop

inductive Step (known : Lookup) : Workshop → Workshop → Prop where
  | allocate (w : Workshop) : Step known w { w with supply := w.supply.newId.2 }
  | abandon {w a} (h : Assembler.Reachable w.supply a) :
      Step known w { w with supply := a.supply }
  | finishMethod {w a} (h : Assembler.Reachable w.supply a) :
      Step known w { w with supply := a.supply, methods := a.toCfg :: w.methods }
  | finishClass {w a} (h : Assembler.Reachable w.supply a) :
      Step known w { w with supply := a.supply, classes := a.toClass :: w.classes }
  | computeBlocks {w c} (h : c ∈ w.methods) :
      Step known w { w with methods := c.computeBlocks :: w.methods }
  | shareMethod {w c} (h : c ∈ w.methods) :
      Step known w { w with
        supply := w.supply.newRef.2
        objects := .method w.supply.newRef.1 c :: w.objects }
  | shareClass {w c} (h : c ∈ w.classes) :
      Step known w { w with
        supply := w.supply.newRef.2
        objects := .classType w.supply.newRef.1 c :: w.objects }
  | take {w name m} (h : known name = some m) : Step known w { w with objects := m :: w.objects }
  | look {w m x} (h : m ∈ w.objects) (hx : x ∈ m.inside) :
      Step known w { w with objects := x :: w.objects }
  | copyMethod {w ref c} (h : .method ref c ∈ w.objects) :
      Step known w { w with methods := c :: w.methods }
  | copyClass {w ref c} (h : .classType ref c ∈ w.objects) :
      Step known w { w with classes := c :: w.classes }
  | member {w c x} (h : c ∈ w.classes) (hx : x ∈ c.members) :
      Step known w { w with objects := x :: w.objects }
  | add {w c m} (h : c ∈ w.classes) (hm : m ∈ w.objects) :
      Step known w { w with classes := (c.add m).2 :: w.classes }

/-- The result of a call that starts on a supply is something the call could have in hand, and
leaves the supply as it then is. -/
def Yields {α : Type} (known : Lookup) (supply : Supply) (made : Workshop → List α)
    (result : Except CfgError α × Supply) : Prop :=
  ∃ w, Relation.ReflTransGen (Step known) { supply } w ∧ result.2 = w.supply ∧
    ∀ x, result.1 = .ok x → x ∈ made w

end Workshop

def SharedCfg.ComesFrom (known : Lookup) (m : SharedCfg) : Prop :=
  ∃ name held, known name = some held ∧ m ∈ descendantsOf [held]

theorem SharedCfg.ComesFrom.inside {known : Lookup} {m x : SharedCfg} (h : m.ComesFrom known)
    (hx : x ∈ descendantsOf [m]) : x.ComesFrom known := by
  obtain ⟨name, held, hh, hm⟩ := h
  refine ⟨name, held, hh, ?_⟩
  rcases mem_descendantsOf_cons.1 hx with rfl | hx | hx
  · exact hm
  · exact descendantsOf_trans hm hx
  · cases hx

/-- The object comes from an assembly, and it is shown by the lookup or has an identity that was
taken since `first`. -/
structure SharedCfg.Usable (known : Lookup) (first : Nat) (os : List Origin) (next : Nat)
    (m : SharedCfg) : Prop where
  genuine : m.Genuine os
  ref : m.ref.val < next
  shown : m.ComesFrom known ∨ first ≤ m.ref.val

theorem SharedCfg.Usable.mono {known : Lookup} {first next next' : Nat} {os os' : List Origin}
    {m : SharedCfg} (h : m.Usable known first os next) (hos : ∀ o ∈ os, o ∈ os')
    (hn : next ≤ next') : m.Usable known first os' next' :=
  ⟨h.genuine.mono hos, Nat.lt_of_lt_of_le h.ref hn, h.shown⟩

namespace Workshop

structure Sound (known : Lookup) (first : Nat) (os : List Origin) (w : Workshop) : Prop where
  separate : Origin.Separate os w.supply
  refs : first ≤ w.supply.nextRef
  shown : ∀ m : SharedCfg, m.ComesFrom known → m.Genuine os ∧ m.ref.val < w.supply.nextRef
  methods : ∀ c ∈ w.methods, c.Genuine os
  classes : ∀ c ∈ w.classes, c.Genuine os ∧
    ∀ m ∈ c.descendants, m.Usable known first os w.supply.nextRef
  objects : ∀ x ∈ w.objects, ∀ m ∈ SharedCfg.descendantsOf [x],
    m.Usable known first os w.supply.nextRef

variable {known : Lookup} {first : Nat} {os os' : List Origin} {w w' : Workshop}

/-- Identities are taken, and with them perhaps an assembly is made. -/
theorem Sound.advance (h : w.Sound known first os) {supply : Supply} (hos : ∀ o ∈ os, o ∈ os')
    (hs : Origin.Separate os' supply) (hr : w.supply.nextRef ≤ supply.nextRef) :
    { w with supply }.Sound known first os' := by
  refine ⟨hs, Nat.le_trans h.refs hr, ?_, ?_, ?_, ?_⟩
  · intro m hm
    obtain ⟨hg, hlt⟩ := h.shown m hm
    exact ⟨hg.mono hos, Nat.lt_of_lt_of_le hlt hr⟩
  · exact fun c hc => (h.methods c hc).mono hos
  · intro c hc
    obtain ⟨hg, hin⟩ := h.classes c hc
    exact ⟨hg.mono hos, fun m hm => (hin m hm).mono hos hr⟩
  · exact fun x hx m hm => (h.objects x hx m hm).mono hos hr

theorem Sound.newRef (h : w.Sound known first os) :
    { w with supply := w.supply.newRef.2 }.Sound known first os :=
  h.advance (fun _ ho => ho) (h.separate.mono (Nat.le_refl _) (Nat.le_refl _)) (Nat.le_succ _)

theorem Sound.assembled (h : w.Sound known first os) {a : Assembler}
    (ha : Assembler.Reachable w.supply a) (isClass : Bool) :
    ∃ o, o.isClass = isClass ∧ a.flow.StemsFrom o ∧
      { w with supply := a.supply }.Sound known first (o :: os) := by
  have hn := ha.numbered
  refine ⟨_, rfl, ha.stemsFrom isClass, h.advance (fun _ ho => List.mem_cons_of_mem _ ho) ?_ ?_⟩
  · exact .cons h.separate hn.ids.ge hn.links.ge
  · exact hn.refs.ge

theorem Step.sound (hs : Step known w w') (h : w.Sound known first os) :
    ∃ os', (∀ o ∈ os, o ∈ os') ∧ w'.Sound known first os' := by
  cases hs with
  | allocate =>
    refine ⟨os, fun _ ho => ho, h.advance (fun _ ho => ho) ?_ (Nat.le_refl _)⟩
    exact h.separate.mono (Nat.le_succ _) (Nat.le_refl _)
  | abandon ha =>
    obtain ⟨o, -, -, h'⟩ := h.assembled ha false
    exact ⟨o :: os, fun _ ho => List.mem_cons_of_mem o ho, h'⟩
  | finishMethod ha =>
    obtain ⟨o, hclass, hstems, h'⟩ := h.assembled ha false
    refine ⟨o :: os, fun _ ho => List.mem_cons_of_mem o ho, { h' with methods := ?_ }⟩
    refine List.forall_mem_cons.2 ⟨?_, h'.methods⟩
    exact ⟨⟨o, List.mem_cons_self, hclass, hstems⟩, .finished ha⟩
  | finishClass ha =>
    obtain ⟨o, hclass, hstems, h'⟩ := h.assembled ha true
    refine ⟨o :: os, fun _ ho => List.mem_cons_of_mem o ho, { h' with classes := ?_ }⟩
    refine List.forall_mem_cons.2 ⟨⟨⟨⟨o, List.mem_cons_self, hclass, hstems⟩, .toClass ha⟩, ?_⟩,
      h'.classes⟩
    intro m hm
    rw [ClassCfg.descendants_eq] at hm
    simp [Assembler.toClass, ClassCfg.ofFlow] at hm
  | computeBlocks hc =>
    refine ⟨os, fun _ ho => ho, { h with methods := ?_ }⟩
    exact List.forall_mem_cons.2 ⟨(h.methods _ hc).computeBlocks, h.methods⟩
  | shareMethod hc =>
    have h' := h.newRef
    refine ⟨os, fun _ ho => ho, { h' with objects := ?_ }⟩
    refine List.forall_mem_cons.2 ⟨fun m hm => ?_, h'.objects⟩
    obtain rfl := SharedCfg.mem_descendantsOf_method.1 hm
    exact ⟨h.methods _ hc, Nat.lt_succ_self _, .inr h.refs⟩
  | shareClass hc =>
    have h' := h.newRef
    refine ⟨os, fun _ ho => ho, { h' with objects := ?_ }⟩
    refine List.forall_mem_cons.2 ⟨fun m hm => ?_, h'.objects⟩
    rcases SharedCfg.mem_descendantsOf_classType.1 hm with rfl | hm
    · exact ⟨(h.classes _ hc).1, Nat.lt_succ_self _, .inr h.refs⟩
    · exact (h'.classes _ hc).2 m hm
  | @take name m hname =>
    refine ⟨os, fun _ ho => ho, { h with objects := ?_ }⟩
    refine List.forall_mem_cons.2 ⟨fun x hx => ?_, h.objects⟩
    have hfrom : x.ComesFrom known := ⟨name, m, hname, hx⟩
    exact ⟨(h.shown x hfrom).1, (h.shown x hfrom).2, .inl hfrom⟩
  | @look m x hm hx =>
    refine ⟨os, fun _ ho => ho, { h with objects := ?_ }⟩
    refine List.forall_mem_cons.2 ⟨fun y hy => h.objects m hm y ?_, h.objects⟩
    rw [SharedCfg.mem_descendantsOf_cons, SharedCfg.mem_descendantsOf]
    exact .inr (.inl ⟨x, hx, hy⟩)
  | copyMethod hm =>
    refine ⟨os, fun _ ho => ho, { h with methods := ?_ }⟩
    have hc := (h.objects _ hm _ (SharedCfg.mem_descendantsOf_method.2 rfl)).genuine
    exact List.forall_mem_cons.2 ⟨hc, h.methods⟩
  | copyClass hm =>
    refine ⟨os, fun _ ho => ho, { h with classes := ?_ }⟩
    have hc := h.objects _ hm
    refine List.forall_mem_cons.2 ⟨⟨?_, fun x hx => ?_⟩, h.classes⟩
    · exact (hc _ (SharedCfg.mem_descendantsOf_classType.2 (.inl rfl))).genuine
    · exact hc x (SharedCfg.mem_descendantsOf_classType.2 (.inr hx))
  | @member c x hc hx =>
    refine ⟨os, fun _ ho => ho, { h with objects := ?_ }⟩
    refine List.forall_mem_cons.2 ⟨fun y hy => (h.classes c hc).2 y ?_, h.objects⟩
    rw [ClassCfg.descendants_eq, SharedCfg.mem_descendantsOf]
    exact ⟨x, hx, hy⟩
  | @add c m hc hm =>
    refine ⟨os, fun _ ho => ho, { h with classes := ?_ }⟩
    obtain ⟨hg, hin⟩ := h.classes c hc
    refine List.forall_mem_cons.2 ⟨⟨hg.add m, fun x hx => ?_⟩, h.classes⟩
    rcases ClassCfg.mem_descendants_add hx with hx | hx
    · exact h.objects m hm x hx
    · exact hin x hx

theorem sound_of_reaches (hs : Relation.ReflTransGen (Step known) w w')
    (h : w.Sound known first os) : ∃ os', (∀ o ∈ os, o ∈ os') ∧ w'.Sound known first os' := by
  induction hs with
  | refl => exact ⟨os, fun _ ho => ho, h⟩
  | tail _ hstep ih =>
    obtain ⟨os₁, hsub, h₁⟩ := ih
    obtain ⟨os₂, hsub', h₂⟩ := hstep.sound h₁
    exact ⟨os₂, fun o ho => hsub' o (hsub o ho), h₂⟩

theorem Yields.sound {α : Type} {supply : Supply} {made : Workshop → List α}
    {result : Except CfgError α × Supply} (hy : Yields known supply made result)
    (h : ({ supply } : Workshop).Sound known first os) :
    ∃ w os', (∀ o ∈ os, o ∈ os') ∧ w.Sound known first os' ∧ w.supply = result.2 ∧
      ∀ x, result.1 = .ok x → x ∈ made w := by
  obtain ⟨w, hreach, hsupply, hmade⟩ := hy
  obtain ⟨os', hsub, hw⟩ := sound_of_reaches hreach h
  exact ⟨w, os', hsub, hw, hsupply.symm, hmade⟩

theorem yields_method {supply : Supply} {a : Assembler} (h : Assembler.Reachable supply a) :
    Yields known supply methods (.ok a.toCfg, a.supply) := by
  refine ⟨_, .single (.finishMethod h), rfl, fun cfg hcfg => ?_⟩
  cases hcfg
  exact List.mem_cons_self

theorem yields_class {supply : Supply} {c a : Assembler} (hc : Assembler.Reachable supply c)
    (ha : Assembler.Reachable c.supply a) :
    Yields known supply classes
      (.ok (c.toClass.add (.method a.supply.newRef.1 a.toCfg)).2, a.supply.newRef.2) := by
  let w : Workshop := ⟨a.supply, [a.toCfg], [c.toClass], []⟩
  have hw : Relation.ReflTransGen (Step known) { supply } w :=
    (Relation.ReflTransGen.single (.finishClass hc)).tail (.finishMethod ha)
  have hshare := hw.tail (.shareMethod (c := a.toCfg) List.mem_cons_self)
  refine ⟨_, hshare.tail (.add (c := c.toClass) List.mem_cons_self List.mem_cons_self), rfl, ?_⟩
  intro cfg hcfg
  cases hcfg
  exact List.mem_cons_self

end Workshop

structure Builder.Works (b : Builder) (s : Store) (d : Declaration) : Prop where
  method : d.kind ≠ .classType →
    Workshop.Yields (fun _ => none) s.supply Workshop.methods ((b.construct d).run.run s.supply)
  classType : d.kind = .classType →
    Workshop.Yields s.find? s.supply Workshop.classes ((b.buildClass d s.find?).run.run s.supply)

end ProgramFlow
