import DynUtils.Macros.DynObject
import DynUtils.Macros.DynTraitSpec

/-! Items under `#[cfg(..)]`, after the configuration has been applied. -/
namespace DynUtils.Macros.Conditional

open Syn

/-- The attributes let the item stay, where `ρ` tells which predicates are true. -/
def active (ρ : List Meta → Bool) (attrs : List Attribute) : Bool :=
  attrs.all fun attr => match attr.content with
    | .list ["cfg"] predicate => ρ predicate
    | _ => true

/-- The name of an item, with the namespace that it is in. -/
inductive Key
  | fn (ident : Ident)
  | type (ident : Ident)
  | const (ident : Ident)
  | other (tokens : Tokens)
deriving DecidableEq

def traitAttrs : TraitItem → List Attribute
  | .fn item => item.attrs
  | .type item => item.attrs
  | .const item => item.attrs
  | .other attrs _ => attrs

def traitKey : TraitItem → Key
  | .fn item => .fn item.sig.ident
  | .type item => .type item.ident
  | .const item => .const item.ident
  | .other _ tokens => .other tokens

/-- The types and constants of an impl are written without attributes. -/
def implAttrs : ImplItem → List Attribute
  | .fn item => item.attrs
  | .type _ _ | .const _ _ _ => []

def implKey : ImplItem → Key
  | .fn item => .fn item.sig.ident
  | .type ident _ => .type ident
  | .const ident _ _ => .const ident

/-- Configuration stripping. -/
def stripTrait (ρ : List Meta → Bool) (items : List TraitItem) : List TraitItem :=
  items.filter (active ρ <| traitAttrs ·)

def stripImpl (ρ : List Meta → Bool) (items : List ImplItem) : List ImplItem :=
  items.filter (active ρ <| implAttrs ·)

/-- The generated trait and its blanket impl have the same items. -/
def Paired (ρ : List Meta → Bool) (out : DynTraitOutput) : Prop :=
  (stripImpl ρ out.dynImpl.items).map implKey = (stripTrait ρ out.dynTrait.items).map traitKey

/-- `dyn_trait` converts the item. -/
def Converted : TraitItem → Prop
  | .fn method => isDispatchable method = true
  | .type ty => isNotGeneric ty = true
  | .const _ | .other _ _ => False

def fnName : Key → Option Ident
  | .fn ident => some ident
  | _ => none

def typeName : Key → Option Ident
  | .type ident => some ident
  | _ => none

/-- The items of the trait, the fields of the vtable, the expressions that initialize
them and the items of the impl for `DynObject` correspond one to one. -/
def ObjectPaired (ρ : List Meta → Bool) (trait : ItemTrait) (out : DynObjectOutput) : Prop :=
  let items := (stripTrait ρ trait.items).map traitKey
  let impls := (stripImpl ρ out.traitImpl.items).map implKey
  out.vtableFields = items.filterMap fnName ∧ out.vtableImpl.methods.map (·.1) = out.vtableFields ∧
    impls.filterMap fnName = items.filterMap fnName ∧
    impls.filterMap typeName = items.filterMap typeName

theorem filterMap_filter_eq_iff {α β : Type} {f : α → Option β} {p : α → Bool} {l : List α} :
    l.filterMap f = (l.filter p).filterMap f ↔ ∀ a ∈ l, (f a).isSome → p a := by
  induction l with
  | nil => simp
  | cons a l ih =>
    have hlen : ((l.filter p).filterMap f).length ≤ (l.filterMap f).length :=
      (List.filter_sublist.filterMap f).length_le
    cases ha : p a with
    | true => cases hf : f a <;> simp [ha, hf, ih]
    | false =>
      cases hf : f a with
      | none => simp [ha, hf, ih]
      | some b =>
        have hne : b :: l.filterMap f ≠ (l.filter p).filterMap f := by
          intro he
          have := congrArg List.length he
          rw [List.length_cons] at this
          omega
        simp [ha, hf, hne]

theorem map_filter_eq_iff {α β : Type} {f : α → β} {p : α → Bool} {l : List α} :
    l.map f = (l.filter p).map f ↔ ∀ a ∈ l, p a := by
  rw [← List.filterMap_eq_map, filterMap_filter_eq_iff]
  simp

variable {ρ : List Meta → Bool} {casing : Casing} {base : DynTrait} {item : TraitItem}
  {out : ItemOutput}

/-- Taking the attributes for the macro off does not take a `cfg` off. -/
theorem active_parse {method method' : TraitItemFn} {attrs : MethodAttrs}
    (h : MethodAttrs.parse method = .ok (attrs, method')) :
    active ρ method'.attrs = active ρ method.attrs := by
  rw [MethodAttrs.parse_attrs h, active, List.all_filter, active]
  congr 1
  funext attr
  obtain ⟨content⟩ := attr
  cases content with
  | list path nested =>
    by_cases hp : path = ["dyn_trait"] <;> simp [Meta.isIdent, Meta.pathOf, hp]
  | path path => simp
  | nameValue path value => simp

theorem maybeSyncMethod_ok {dynMethod : DynMethod} {method : TraitItemFn}
    (h : dynMethod.maybeSyncMethod = .ok method) : method.attrs = dynMethod.dynMethod.attrs ∧
      method.sig.ident = dynMethod.dynMethod.sig.ident := by
  obtain ⟨sig, hs, h⟩ := Machine.bind_ok.mp h
  obtain rfl := Machine.pure_ok.mp h
  obtain ⟨output, -, rfl⟩ := DynMethod.maybeSyncSignature_ok hs
  exact ⟨rfl, rfl⟩

/-- What an item is converted to has its attributes in the trait and none in the impl. -/
theorem convertItem_pair (h : base.convertItem casing item = .ok out) :
    ¬ Converted item ∧ out.dynItems = [] ∧ out.implItems = [] ∨
      Converted item ∧ ∃ d i, out.dynItems = [d] ∧ out.implItems = [i] ∧ implAttrs i = [] ∧
        implKey i = traitKey d ∧ active ρ (traitAttrs d) = active ρ (traitAttrs item) := by
  rcases DynTrait.convertItem_cases h with ⟨ty, rfl, hn, rfl⟩ | ⟨method, rfl, hd, h⟩ | ⟨ht, hf, rfl⟩
  · exact Or.inr ⟨hn, _, _, rfl, rfl, rfl, rfl, rfl⟩
  · refine Or.inr ⟨hd, ?_⟩
    obtain ⟨attrs, method', hp, hout⟩ := DynTrait.convertMethod_ok h
    have ha : active ρ method'.attrs = active ρ method.attrs := active_parse hp
    rcases hout with ⟨-, rfl⟩ | ⟨-, s, _, i, m, -, -, hi, hm, rfl⟩
    · exact ⟨_, _, rfl, rfl, rfl, rfl, ha⟩
    · obtain ⟨hattrs, ⟨_, hsig⟩, -⟩ := DynMethod.maybeSyncImpl_ok hi
      obtain ⟨hattrs', hident'⟩ := maybeSyncMethod_ok hm
      refine ⟨_, _, rfl, rfl, hattrs, ?_, ?_⟩
      · exact congrArg Key.fn ((congrArg (·.ident) hsig).trans hident'.symm)
      · exact (congrArg (active ρ) hattrs').trans ha
  · refine Or.inl ⟨?_, rfl, rfl⟩
    cases item with
    | type ty => simp [Converted, ht ty rfl]
    | fn method => simp [Converted, hf method rfl]
    | const item => exact id
    | other attrs tokens => exact id

section
variable {items : List TraitItem} {outs : List ItemOutput}
  (h : List.Forall₂ (fun item out => base.convertItem casing item = .ok out) items outs)

include h

/-- Nothing is stripped from the impl, which has the names of all the methods and types. -/
theorem implItems_keys : (stripImpl ρ (outs.flatMap (·.implItems))).map implKey =
    (outs.flatMap (·.dynItems)).map traitKey := by
  induction h with
  | nil => rfl
  | cons hi _ ih =>
    simp only [stripImpl, List.flatMap_cons, List.filter_append, List.map_append] at ih ⊢
    rw [ih]
    congr 1
    rcases convertItem_pair (ρ := ρ) hi with ⟨-, hd, hi⟩ | ⟨-, d, i, hd, hi, hattrs, hkey, -⟩
    · simp [hd, hi]
    · simp [hd, hi, hattrs, hkey, active]

theorem dynItems_active : (∀ d ∈ outs.flatMap (·.dynItems), active ρ (traitAttrs d)) ↔
    ∀ item ∈ items, Converted item → active ρ (traitAttrs item) := by
  induction h with
  | nil => simp
  | cons hi _ ih =>
    rw [List.flatMap_cons, List.forall_mem_append, ih, List.forall_mem_cons]
    apply and_congr_left
    intro _
    rcases convertItem_pair (ρ := ρ) hi with ⟨hc, hd, -⟩ | ⟨hc, d, i, hd, -, -, -, ha⟩
    · simp [hd, hc]
    · simp [hd, hc, ha]

end

/-- The blanket impl keeps all its items, so no item of the generated trait may go. -/
theorem paired_iff {trait : ItemTrait} {opts : DynTraitOpts} {out : DynTraitOutput}
    (h : dynTraitImpl casing trait opts = .ok out) :
    Paired ρ out ↔ ∀ item ∈ trait.items, Converted item → active ρ (traitAttrs item) := by
  obtain ⟨outs, ho, hd, hi, -⟩ := dynTraitImpl_ok h
  rw [Paired, hd, hi, implItems_keys ho, stripTrait, map_filter_eq_iff, dynItems_active ho]

theorem keys_fns {items : List TraitItem} (h : ∀ item ∈ items, DynObject.Supported item) :
    (items.filterMap DynObject.itemFn).map (·.sig.ident) =
      items.filterMap fun item => fnName (traitKey item) := by
  rw [List.map_filterMap]
  apply List.filterMap_congr
  intro item hm
  have hs := h item hm
  cases item with
  | fn method =>
    have hd : isDispatchable method = true := hs
    simp [DynObject.itemFn, hd, traitKey, fnName]
  | type ty => rfl
  | const item => rfl
  | other attrs tokens => rfl

theorem keys_types (items : List TraitItem) : (items.filterMap DynObject.itemType).map (·.2.ident) =
    items.filterMap fun item => typeName (traitKey item) := by
  rw [List.map_filterMap]
  apply List.filterMap_congr
  intro item _
  cases item <;> rfl

theorem implItems_object (types : List (Ident × TraitItemType)) (methods : List DispatchableFn) :
    let impls := (stripImpl ρ (types.map DynObject.implType ++
      methods.map (.fn <| DynObject.implMethod ·))).map implKey
    impls.filterMap fnName = methods.map (·.sig.ident) ∧
      impls.filterMap typeName = types.map (·.2.ident) := by
  have hs : stripImpl ρ (types.map DynObject.implType ++
      methods.map (.fn <| DynObject.implMethod ·)) =
        types.map DynObject.implType ++ methods.map (.fn <| DynObject.implMethod ·) := by
    apply List.filter_eq_self.mpr
    intro i hi
    rcases List.mem_append.mp hi with hi | hi
    · obtain ⟨t, -, rfl⟩ := List.mem_map.mp hi
      rfl
    · obtain ⟨m, -, rfl⟩ := List.mem_map.mp hi
      rfl
  simp only [hs, List.map_append, List.map_map, List.filterMap_append, List.filterMap_map]
  constructor
  · simp [Function.comp_def, DynObject.implType, DynObject.implMethod, implMethod, implKey, fnName]
  · simp [Function.comp_def, DynObject.implType, DynObject.implMethod, implMethod, implKey, typeName]

/-- Nor does `dyn_object` write a `cfg` on anything but the trait itself. -/
theorem objectPaired_iff {trait : ItemTrait} {opts : DynObjectOps} {out : DynObjectOutput}
    (h : dynObjectImpl trait opts = .ok out) :
    ObjectPaired ρ trait out ↔ ∀ item ∈ trait.items, active ρ (traitAttrs item) := by
  obtain ⟨obj, hr, h⟩ := Machine.bind_ok.mp h
  obtain rfl := Machine.pure_ok.mp h
  obtain ⟨hs, rfl⟩ := DynObject.foldlM_parseItem_ok.mp hr
  obtain ⟨hfns, htypes⟩ := implItems_object (ρ := ρ) (trait.items.filterMap DynObject.itemType)
    (trait.items.filterMap DynObject.itemFn)
  have hvtable : ((trait.items.filterMap DynObject.itemFn).map DynObject.vtableMethod).map (·.1) =
      (trait.items.filterMap DynObject.itemFn).map (·.sig.ident) := by
    simp [Function.comp_def, DynObject.vtableMethod]
  simp only [ObjectPaired, DynObject.output, DynObject.new, List.nil_append]
  rw [hfns, htypes, hvtable, keys_fns hs, keys_types]
  simp only [true_and, stripTrait, List.filterMap_map, Function.comp_def, filterMap_filter_eq_iff]
  constructor
  · rintro ⟨hf, -, ht⟩ item hm
    have hsup := hs item hm
    cases item with
    | fn method => exact hf _ hm rfl
    | type ty => exact ht _ hm rfl
    | const item => cases hsup
    | other attrs tokens => cases hsup
  · exact fun ha => ⟨fun item hm _ => ha item hm, fun item hm _ => ha item hm,
      fun item hm _ => ha item hm⟩

/-- Conditional items are paired exactly if no condition fails: of an item that `dyn_trait`
converts, or of any item of a trait for `dyn_object`. -/
theorem paired_iff_active {trait trait' : ItemTrait} {opts : DynTraitOpts} {opts' : DynObjectOps}
    {out : DynTraitOutput} {out' : DynObjectOutput} (h : dynTraitImpl casing trait opts = .ok out)
    (h' : dynObjectImpl trait' opts' = .ok out') (ρ : List Meta → Bool) :
    (Paired ρ out ↔ ∀ item ∈ trait.items, Converted item → active ρ (traitAttrs item)) ∧
      (ObjectPaired ρ trait' out' ↔ ∀ item ∈ trait'.items, active ρ (traitAttrs item)) :=
  ⟨paired_iff h, objectPaired_iff h'⟩

/-- `#[cfg(feature = "std")]` -/
def cfgStd : Attribute := ⟨.list ["cfg"] [.nameValue ["feature"] (.str "std")]⟩

/-- `trait Flush { #[cfg(feature = "std")] fn flush(&self); }` -/
def flush : ItemTrait where
  attrs := []
  unsafety := false
  ident := "Flush"
  generics := ⟨[], none⟩
  colon := false
  supertraits := []
  items := [.fn {
    attrs := [cfgStd]
    sig := {
      asyncness := false
      unsafety := false
      ident := "flush"
      generics := ⟨[], none⟩
      inputs := [.receiver ⟨some none, false, false, .reference none false (.ofIdent "Self")⟩]
      output := .default }
    default := none }]

theorem flush_accepted :
    (∃ out, dynTraitImpl .ascii flush {} = .ok out) ∧ ∃ out, dynObjectImpl flush {} = .ok out :=
  ⟨⟨_, rfl⟩, ⟨_, rfl⟩⟩

/-- With the feature everything is there. -/
theorem paired_iff_active_flush : ∃ out out', dynTraitImpl .ascii flush {} = .ok out ∧
    dynObjectImpl flush {} = .ok out' ∧
      Paired (fun _ => true) out ∧ ObjectPaired (fun _ => true) flush out' := by
  obtain ⟨⟨out, h⟩, out', h'⟩ := flush_accepted
  obtain ⟨hp, ho⟩ := paired_iff_active h h' fun _ => true
  have hall : ∀ item ∈ flush.items, active (fun _ => true) (traitAttrs item) = true := by decide
  exact ⟨out, out', h, h', hp.mpr fun item hm _ => hall item hm, ho.mpr hall⟩

/-- Without it the impl has a method that the trait has not, and the vtable a field that
calls it. -/
theorem flush_unpaired : ∃ (casing : Casing) (ρ : List Meta → Bool),
    (∃ out, dynTraitImpl casing flush {} = .ok out ∧ ¬ Paired ρ out) ∧
      ∃ out, dynObjectImpl flush {} = .ok out ∧ ¬ ObjectPaired ρ flush out := by
  obtain ⟨⟨out, h⟩, out', h'⟩ := flush_accepted
  refine ⟨.ascii, fun _ => false, ⟨out, h, ?_⟩, out', h', ?_⟩
  · intro hp
    exact absurd ((paired_iff h).mp hp _ List.mem_cons_self rfl) (by decide)
  · intro hp
    exact absurd ((objectPaired_iff h').mp hp _ List.mem_cons_self) (by decide)

end DynUtils.Macros.Conditional
