import Mathlib.Data.List.Forall2
import ProgramFlow.Codec.Graph
import ProgramFlow.Proofs.ModifierText

/-! Values of the library against their document form: what is written is read again. Numbers are
kept without a bound, but in documents identities and block numbers have 32 bits and ordinals 64.
The values whose numbers are of that size are said to fit; they are exactly those that can be
read, so that for them reading undoes writing and nothing else is ever read. -/
namespace ProgramFlow

theorem forall₂_of_mapM {α β : Type} {read : α → Option β} {l : List α} {m : List β}
    (h : l.mapM read = some m) : List.Forall₂ (fun x y => read x = some y) l m := by
  induction l generalizing m with
  | nil =>
    obtain rfl : [] = m := by simpa using h
    exact .nil
  | cons x rest ih =>
    rw [List.mapM_cons] at h
    obtain ⟨y, hy, h⟩ := Option.bind_eq_some_iff.1 h
    obtain ⟨others, hothers, h⟩ := Option.bind_eq_some_iff.1 h
    obtain rfl := Option.some.inj h
    exact .cons hy (ih hothers)

theorem forall_of_forall₂ {α β : Type} {R : α → β → Prop} {P : β → Prop} {l : List α} {m : List β}
    (h : List.Forall₂ R l m) (hR : ∀ x y, R x y → P y) : ∀ y ∈ m, P y := by
  induction h with
  | nil => simp
  | cons hxy _ ih =>
    rw [List.forall_mem_cons]
    exact ⟨hR _ _ hxy, ih⟩

namespace Json

variable {α : Type} {write : α → Json} {read : Json → Option α} {Fits : α → Prop} {j : Json}
  {field : Option Json}

@[simp] theorem required_some (read : Json → Option α) (j : Json) :
    required read (some j) = read j := rfl

@[simp] theorem str?_str (s : String) : str? (.str s) = some s := rfl

@[simp] theorem bool?_bool (b : Bool) : bool? (.bool b) = some b := rfl

@[simp] theorem variant?_variant (name : String) (payload : Json) :
    variant? (variant name payload) = some (name, some payload) := rfl

theorem natBelow?_ofNat {bound n : Nat} (h : n < bound) : natBelow? bound (ofNat n) = some n :=
  if_pos h

theorem lt_of_natBelow? {bound n : Nat} (h : natBelow? bound j = some n) : n < bound := by
  unfold natBelow? at h
  split at h
  · split at h
    · next hlt => rwa [← Option.some.inj h]
    · cases h
  · cases h

theorem list?_ofList {l : List α} (h : ∀ a ∈ l, read (write a) = some a) :
    list? read (ofList write l) = some l := by
  have hread := mapM_map_eq_some h
  rwa [List.map_id'] at hread

theorem optional_ofOption (hnonnull : ∀ a, write a ≠ .null) {o : Option α}
    (h : ∀ a ∈ o, read (write a) = some a) : optional read (some (ofOption write o)) = some o := by
  cases o with
  | none => rfl
  | some a =>
    rw [optional, ofOption, option?, h a rfl, Option.map_some]
    exact hnonnull a

theorem eq_str_of_str? {s : String} (h : j.str? = some s) : j = .str s := by
  unfold str? at h
  split at h
  · rw [Option.some.inj h]
  · cases h

theorem eq_arr_of_list? {l : List α} (h : list? read j = some l) :
    ∃ items, j = .arr items ∧ items.mapM read = some l := by
  unfold list? at h
  split at h
  · next items => exact ⟨items, rfl, h⟩
  · cases h

theorem exists_of_required {a : α} (h : required read field = some a) : ∃ j, read j = some a := by
  obtain ⟨j, -, hj⟩ := Option.bind_eq_some_iff.1 h
  exact ⟨j, hj⟩

theorem forall_of_list? (h : ∀ j a, read j = some a → Fits a) {l : List α}
    (hl : list? read j = some l) : ∀ a ∈ l, Fits a := by
  obtain ⟨items, -, hitems⟩ := eq_arr_of_list? hl
  exact forall_of_forall₂ (forall₂_of_mapM hitems) h

theorem forall_of_optional (h : ∀ j a, read j = some a → Fits a) {o : Option α}
    (ho : optional read field = some o) : ∀ a ∈ o, Fits a := by
  rintro a rfl
  unfold optional at ho
  split at ho
  · cases ho
  · unfold option? at ho
    split at ho
    · cases ho
    · obtain ⟨a', ha, hsome⟩ := Option.map_eq_some_iff.1 ho
      exact Option.some.inj hsome ▸ h _ a' ha

end Json

/-! ## Values that are restored as they are -/

@[simp] theorem Modifiers.ofJson?_toJson (m : Modifiers) : ofJson? m.toJson = some m := m.ofText?_text

@[simp] theorem DeclKind.ofJson?_toJson (k : DeclKind) : ofJson? k.toJson = some k := by
  cases k <;> decide +kernel

@[simp] theorem StatementKind.ofJson?_toJson (k : StatementKind) : ofJson? k.toJson = some k := by
  cases k <;> decide +kernel

@[simp] theorem CallKind.ofJson?_toJson (k : CallKind) : ofJson? k.toJson = some k := by
  cases k <;> decide +kernel

@[simp] theorem ParameterKind.ofJson?_toJson (k : ParameterKind) : ofJson? k.toJson = some k := by
  cases k <;> decide +kernel

@[simp] theorem FlowKind.ofJson?_toJson (k : FlowKind) : ofJson? k.toJson = some k := by
  cases k <;> decide +kernel

@[simp] theorem Json.uint32?_ofNat (n : UInt32) : Json.uint32? (.ofNat n.toNat) = some n := by
  rw [Json.uint32?, Json.nat32?, Json.natBelow?_ofNat n.toNat_lt, Option.map_some,
    Nat.toUInt32_eq, UInt32.ofNat_toNat]

@[simp] theorem Span.ofJson?_toJson (s : Span) : ofJson? s.toJson = some s := by
  simp [toJson, ofJson?, Json.record?, List.lookup_cons]

@[simp] theorem FieldRef.ofJson?_toJson (r : FieldRef) : ofJson? r.toJson = some r := by
  simp [toJson, ofJson?, Json.record?, List.lookup_cons]

@[simp] theorem LocalRef.ofJson?_toJson (r : LocalRef) : ofJson? r.toJson = some r := by
  simp [toJson, ofJson?, Json.record?, List.lookup_cons]

@[simp] theorem Json.list?_str (l : List String) : Json.list? Json.str? (.ofList .str l) = some l :=
  Json.list?_ofList fun _ _ => rfl

@[simp] theorem MethodRef.ofJson?_toJson (r : MethodRef) : ofJson? r.toJson = some r := by
  simp [toJson, ofJson?, Json.record?, List.lookup_cons]

@[simp] theorem Reference.ofJson?_toJson (r : Reference) : ofJson? r.toJson = some r := by
  cases r <;> simp [toJson, ofJson?]

@[simp] theorem ReferenceList.ofJson?_toJson (l : ReferenceList) : ofJson? l.toJson = some l := by
  rw [toJson, ofJson?, Json.list?_ofList fun r _ => r.ofJson?_toJson]
  rfl

@[simp] theorem DefUse.ofJson?_toJson (d : DefUse) : ofJson? d.toJson = some d := by
  simp [toJson, ofJson?, Json.record?, List.lookup_cons]

@[simp] theorem ClassEntry.ofJson?_toJson (c : ClassEntry) : ofJson? c.toJson = some c := by
  simp [toJson, ofJson?, Json.record?]

@[simp] theorem Exit.ofJson?_toJson (e : Exit) : ofJson? e.toJson = some e := by
  simp [toJson, ofJson?, Json.record?, List.lookup_cons]

@[simp] theorem Statement.ofJson?_toJson (s : Statement) : ofJson? s.toJson = some s := by
  simp [toJson, ofJson?, Json.record?, List.lookup_cons]

/-! ## Values that fit -/

namespace NodeId

def Fits (id : NodeId) : Prop := id.val < 0x100000000

variable {id : NodeId} {ids : List NodeId} {id? : Option NodeId}

theorem toJson_ne_null (id : NodeId) : id.toJson ≠ .null := by simp [toJson, Json.ofNat]

theorem ofJson?_toJson (h : id.Fits) : ofJson? id.toJson = some id := by
  rw [toJson, ofJson?, Json.nat32?, Json.natBelow?_ofNat h]
  rfl

theorem fits_of_ofJson? (j : Json) (id : NodeId) (h : ofJson? j = some id) : id.Fits := by
  obtain ⟨n, hn, rfl⟩ := Option.map_eq_some_iff.1 h
  exact Json.lt_of_natBelow? hn

theorem list?_toJson (h : ∀ id ∈ ids, id.Fits) : Json.list? ofJson? (.ofList toJson ids) = some ids :=
  Json.list?_ofList fun id hid => ofJson?_toJson (h id hid)

theorem optional_toJson (h : ∀ id ∈ id?, id.Fits) :
    Json.optional ofJson? (some (.ofOption toJson id?)) = some id? :=
  Json.optional_ofOption toJson_ne_null fun id hid => ofJson?_toJson (h id hid)

theorem fits_of_list? {field : Option Json} (h : Json.required (Json.list? ofJson?) field = some ids) :
    ∀ id ∈ ids, id.Fits := by
  obtain ⟨j, hj⟩ := Json.exists_of_required h
  exact Json.forall_of_list? fits_of_ofJson? hj

end NodeId

namespace BlockId

def Fits (id : BlockId) : Prop := id.val < 0x100000000

variable {id : BlockId}

theorem toJson_ne_null (id : BlockId) : id.toJson ≠ .null := by simp [toJson, Json.ofNat]

theorem ofJson?_toJson (h : id.Fits) : ofJson? id.toJson = some id := by
  rw [toJson, ofJson?, Json.nat32?, Json.natBelow?_ofNat h]
  rfl

theorem fits_of_ofJson? (j : Json) (id : BlockId) (h : ofJson? j = some id) : id.Fits := by
  obtain ⟨n, hn, rfl⟩ := Option.map_eq_some_iff.1 h
  exact Json.lt_of_natBelow? hn

end BlockId

namespace MethodEntry

structure Fits (m : MethodEntry) : Prop where
  formalIns : ∀ id ∈ m.formalIns, id.Fits
  formalOuts : ∀ id ∈ m.formalOuts, id.Fits
  formalOutForReturn : ∀ id ∈ m.formalOutForReturn, id.Fits
  exceptions : ∀ id ∈ m.exceptions, id.Fits

theorem ofJson?_toJson {m : MethodEntry} (h : m.Fits) : ofJson? m.toJson = some m := by
  simp [toJson, ofJson?, Json.record?, List.lookup_cons, NodeId.list?_toJson h.formalIns,
    NodeId.list?_toJson h.formalOuts, NodeId.optional_toJson h.formalOutForReturn,
    NodeId.list?_toJson h.exceptions]

theorem fits_of_ofJson? {j : Json} {m : MethodEntry} (h : ofJson? j = some m) : m.Fits := by
  obtain ⟨fields, -, h⟩ := Option.bind_eq_some_iff.1 h
  split at h
  · obtain ⟨returnType, -, h⟩ := Option.bind_eq_some_iff.1 h
    obtain ⟨formalIns, hins, h⟩ := Option.bind_eq_some_iff.1 h
    obtain ⟨formalOuts, houts, h⟩ := Option.bind_eq_some_iff.1 h
    obtain ⟨formalOutForReturn, hreturn, h⟩ := Option.bind_eq_some_iff.1 h
    obtain ⟨exceptions, hexceptions, h⟩ := Option.bind_eq_some_iff.1 h
    obtain rfl := Option.some.inj h
    exact ⟨NodeId.fits_of_list? hins, NodeId.fits_of_list? houts,
      Json.forall_of_optional NodeId.fits_of_ofJson? hreturn, NodeId.fits_of_list? hexceptions⟩
  · cases h

end MethodEntry

namespace EntryDetail

def Fits : EntryDetail → Prop
  | .method m => m.Fits
  | .field => True
  | .classType _ => True

theorem ofJson?_toJson {d : EntryDetail} (h : d.Fits) : ofJson? d.toJson = some d := by
  cases d with
  | method m => simp [toJson, ofJson?, m.ofJson?_toJson h]
  | field => rfl
  | classType c => simp [toJson, ofJson?]

theorem fits_of_ofJson? {j : Json} {d : EntryDetail} (h : ofJson? j = some d) : d.Fits := by
  unfold ofJson? at h
  split at h
  · obtain ⟨m, hm, rfl⟩ := Option.map_eq_some_iff.1 h
    exact MethodEntry.fits_of_ofJson? hm
  · obtain ⟨c, -, rfl⟩ := Option.map_eq_some_iff.1 h
    trivial
  · split at h
    · obtain rfl := Option.some.inj h
      trivial
    · cases h

end EntryDetail

namespace Entry

def Fits (e : Entry) : Prop := e.detail.Fits

theorem ofJson?_toJson {e : Entry} (h : e.Fits) : ofJson? e.toJson = some e := by
  simp [toJson, ofJson?, Json.record?, List.lookup_cons, EntryDetail.ofJson?_toJson h]

theorem fits_of_ofJson? {j : Json} {e : Entry} (h : ofJson? j = some e) : e.Fits := by
  obtain ⟨fields, -, h⟩ := Option.bind_eq_some_iff.1 h
  split at h
  · obtain ⟨kind, -, h⟩ := Option.bind_eq_some_iff.1 h
    obtain ⟨name, -, h⟩ := Option.bind_eq_some_iff.1 h
    obtain ⟨signature, -, h⟩ := Option.bind_eq_some_iff.1 h
    obtain ⟨qualifiedName, -, h⟩ := Option.bind_eq_some_iff.1 h
    obtain ⟨detail, hdetail, h⟩ := Option.bind_eq_some_iff.1 h
    obtain rfl := Option.some.inj h
    obtain ⟨_, hdetail⟩ := Json.exists_of_required hdetail
    exact EntryDetail.fits_of_ofJson? hdetail
  · cases h

end Entry

namespace Call

structure Fits (c : Call) : Prop where
  receiver : ∀ id ∈ c.receiver, id.Fits
  actualIns : ∀ id ∈ c.actualIns, id.Fits
  actualOuts : ∀ id ∈ c.actualOuts, id.Fits
  actualOutForReturn : ∀ id ∈ c.actualOutForReturn, id.Fits

theorem ofJson?_toJson {c : Call} (h : c.Fits) : ofJson? c.toJson = some c := by
  simp [toJson, ofJson?, Json.record?, List.lookup_cons, NodeId.optional_toJson h.receiver,
    NodeId.list?_toJson h.actualIns, NodeId.list?_toJson h.actualOuts,
    NodeId.optional_toJson h.actualOutForReturn]

theorem fits_of_ofJson? {j : Json} {c : Call} (h : ofJson? j = some c) : c.Fits := by
  obtain ⟨fields, -, h⟩ := Option.bind_eq_some_iff.1 h
  split at h
  · obtain ⟨kind, -, h⟩ := Option.bind_eq_some_iff.1 h
    obtain ⟨callee, -, h⟩ := Option.bind_eq_some_iff.1 h
    obtain ⟨receiver, hreceiver, h⟩ := Option.bind_eq_some_iff.1 h
    obtain ⟨actualIns, hins, h⟩ := Option.bind_eq_some_iff.1 h
    obtain ⟨actualOuts, houts, h⟩ := Option.bind_eq_some_iff.1 h
    obtain ⟨actualOutForReturn, hreturn, h⟩ := Option.bind_eq_some_iff.1 h
    obtain ⟨defUse, -, h⟩ := Option.bind_eq_some_iff.1 h
    obtain rfl := Option.some.inj h
    exact ⟨Json.forall_of_optional NodeId.fits_of_ofJson? hreceiver, NodeId.fits_of_list? hins,
      NodeId.fits_of_list? houts, Json.forall_of_optional NodeId.fits_of_ofJson? hreturn⟩
  · cases h

end Call

namespace Parameter

structure Fits (p : Parameter) : Prop where
  ordinal : p.ordinal < 0x10000000000000000
  owner : p.owner.Fits

theorem ofJson?_toJson {p : Parameter} (h : p.Fits) : ofJson? p.toJson = some p := by
  simp [toJson, ofJson?, Json.record?, List.lookup_cons, Json.nat64?,
    Json.natBelow?_ofNat h.ordinal, NodeId.ofJson?_toJson h.owner]

theorem fits_of_ofJson? {j : Json} {p : Parameter} (h : ofJson? j = some p) : p.Fits := by
  obtain ⟨fields, -, h⟩ := Option.bind_eq_some_iff.1 h
  split at h
  · obtain ⟨kind, -, h⟩ := Option.bind_eq_some_iff.1 h
    obtain ⟨ordinal, hordinal, h⟩ := Option.bind_eq_some_iff.1 h
    obtain ⟨name, -, h⟩ := Option.bind_eq_some_iff.1 h
    obtain ⟨typeName, -, h⟩ := Option.bind_eq_some_iff.1 h
    obtain ⟨forReturn, -, h⟩ := Option.bind_eq_some_iff.1 h
    obtain ⟨owner, howner, h⟩ := Option.bind_eq_some_iff.1 h
    obtain ⟨defUse, -, h⟩ := Option.bind_eq_some_iff.1 h
    obtain rfl := Option.some.inj h
    obtain ⟨_, hordinal⟩ := Json.exists_of_required hordinal
    obtain ⟨_, howner⟩ := Json.exists_of_required howner
    exact ⟨Json.lt_of_natBelow? hordinal, NodeId.fits_of_ofJson? _ _ howner⟩
  · cases h

end Parameter

namespace NodeData

def Fits : NodeData → Prop
  | .entry e => e.Fits
  | .call c => c.Fits
  | .parameter p => p.Fits
  | .exit _ | .statement _ | .merge | .dummy => True

theorem ofJson?_toJson {d : NodeData} (h : d.Fits) : ofJson? d.toJson = some d := by
  cases d with
  | entry e => simp [toJson, ofJson?, Entry.ofJson?_toJson h]
  | exit e => simp [toJson, ofJson?]
  | statement s => simp [toJson, ofJson?]
  | call c => simp [toJson, ofJson?, Call.ofJson?_toJson h]
  | parameter p => simp [toJson, ofJson?, Parameter.ofJson?_toJson h]
  | merge | dummy => rfl

theorem fits_of_ofJson? {j : Json} {d : NodeData} (h : ofJson? j = some d) : d.Fits := by
  unfold ofJson? at h
  split at h
  · obtain ⟨e, he, rfl⟩ := Option.map_eq_some_iff.1 h
    exact Entry.fits_of_ofJson? he
  · obtain ⟨e, -, rfl⟩ := Option.map_eq_some_iff.1 h
    trivial
  · obtain ⟨s, -, rfl⟩ := Option.map_eq_some_iff.1 h
    trivial
  · obtain ⟨c, hc, rfl⟩ := Option.map_eq_some_iff.1 h
    exact Call.fits_of_ofJson? hc
  · obtain ⟨p, hp, rfl⟩ := Option.map_eq_some_iff.1 h
    exact Parameter.fits_of_ofJson? hp
  · split at h
    · obtain rfl := Option.some.inj h
      trivial
    · obtain rfl := Option.some.inj h
      trivial
    · cases h

end NodeData

namespace Node

structure Fits (n : Node) : Prop where
  id : n.id.Fits
  data : n.data.Fits
  block : ∀ id ∈ n.block, id.Fits

theorem ofJson?_toJson {n : Node} (h : n.Fits) (link : LinkId) :
    ofJson? link n.toJson = some { n with link } := by
  have hspan : Json.optional Span.ofJson? (some (.ofOption Span.toJson n.span)) = some n.span :=
    Json.optional_ofOption (by simp [Span.toJson]) fun s _ => s.ofJson?_toJson
  have hblock : Json.optional BlockId.ofJson? (some (.ofOption BlockId.toJson n.block)) =
      some n.block :=
    Json.optional_ofOption BlockId.toJson_ne_null fun id hid => BlockId.ofJson?_toJson (h.block id hid)
  simp [toJson, ofJson?, Json.record?, List.lookup_cons, NodeId.ofJson?_toJson h.id,
    NodeData.ofJson?_toJson h.data, hspan, hblock]

theorem fits_of_ofJson? {link : LinkId} {j : Json} {n : Node} (h : ofJson? link j = some n) :
    n.Fits ∧ n.link = link := by
  obtain ⟨fields, -, h⟩ := Option.bind_eq_some_iff.1 h
  split at h
  · obtain ⟨id, hid, h⟩ := Option.bind_eq_some_iff.1 h
    obtain ⟨data, hdata, h⟩ := Option.bind_eq_some_iff.1 h
    obtain ⟨span, -, h⟩ := Option.bind_eq_some_iff.1 h
    obtain ⟨label, -, h⟩ := Option.bind_eq_some_iff.1 h
    obtain ⟨block, hblock, h⟩ := Option.bind_eq_some_iff.1 h
    obtain rfl := Option.some.inj h
    obtain ⟨_, hid⟩ := Json.exists_of_required hid
    obtain ⟨_, hdata⟩ := Json.exists_of_required hdata
    exact ⟨⟨NodeId.fits_of_ofJson? _ _ hid, NodeData.fits_of_ofJson? hdata,
      Json.forall_of_optional BlockId.fits_of_ofJson? hblock⟩, rfl⟩
  · cases h

end Node

namespace Flow

structure Fits (e : Flow) : Prop where
  source : e.source.Fits
  target : e.target.Fits
  loopback : ∀ id ∈ e.loopback, id.Fits

theorem ofJson?_toJson {e : Flow} (h : e.Fits) : ofJson? e.toJson = some e := by
  simp [toJson, ofJson?, Json.record?, List.lookup_cons, NodeId.ofJson?_toJson h.source,
    NodeId.ofJson?_toJson h.target, NodeId.optional_toJson h.loopback]

theorem fits_of_ofJson? (j : Json) (e : Flow) (h : ofJson? j = some e) : e.Fits := by
  obtain ⟨fields, -, h⟩ := Option.bind_eq_some_iff.1 h
  split at h
  · obtain ⟨source, hsource, h⟩ := Option.bind_eq_some_iff.1 h
    obtain ⟨target, htarget, h⟩ := Option.bind_eq_some_iff.1 h
    obtain ⟨kind, -, h⟩ := Option.bind_eq_some_iff.1 h
    obtain ⟨loopback, hloopback, h⟩ := Option.bind_eq_some_iff.1 h
    obtain rfl := Option.some.inj h
    obtain ⟨_, hsource⟩ := Json.exists_of_required hsource
    obtain ⟨_, htarget⟩ := Json.exists_of_required htarget
    exact ⟨NodeId.fits_of_ofJson? _ _ hsource, NodeId.fits_of_ofJson? _ _ htarget,
      Json.forall_of_optional NodeId.fits_of_ofJson? hloopback⟩
  · cases h

end Flow

namespace BasicBlock

structure Fits (b : BasicBlock) : Prop where
  id : b.id.Fits
  leader : b.leader.Fits
  nodes : ∀ id ∈ b.nodes, id.Fits

theorem ofJson?_toJson {b : BasicBlock} (h : b.Fits) : ofJson? b.toJson = some b := by
  simp [toJson, ofJson?, Json.record?, List.lookup_cons, BlockId.ofJson?_toJson h.id,
    NodeId.ofJson?_toJson h.leader, NodeId.list?_toJson h.nodes]

end BasicBlock

end ProgramFlow
