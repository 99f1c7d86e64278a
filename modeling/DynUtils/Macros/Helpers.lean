import DynUtils.Macros.Conditional
import DynUtils.Macros.Naming

/-! The attributes `#[dyn_trait(..)]` on the items of a trait. -/
namespace DynUtils.Macros.Helpers

open Syn Conditional Naming

def isHelper (attr : Attribute) : Bool := attr.content.isIdent "dyn_trait"

/-- No attribute is left for the macro. -/
def Clean (item : TraitItem) : Prop := ∀ attr ∈ traitAttrs item, isHelper attr = false

instance : DecidablePred Clean := fun _ => inferInstanceAs (Decidable (∀ _ ∈ _, _))

/-- What is between the parentheses. -/
def settings (attr : Attribute) : List Meta :=
  match attr.content with
  | .list _ nested => nested
  | _ => []

/-- All that is asked for on an item. -/
def allSettings (attrs : List Attribute) : List Meta := (attrs.filter isHelper).flatMap settings

def storageOf : Meta → Option Path
  | .nameValue ["storage"] (.path path) => some path
  | _ => none

/-- The storages that are asked for on an item. -/
def storages (attrs : List Attribute) : List Path := (allSettings attrs).filterMap storageOf

/-- `-> DynObject<#ret, #storage>`, or with `MaybeSync` around it. -/
def Returns (crate : Path) (storage : Ident) (sig : Signature) : Prop :=
  ∃ ret object, object = ((crate.join ["DynObject"]).withArgs
      [.type ret, .type (.ofIdent storage)]).toTy ∧
    (sig.output = .type object ∨
      sig.output = .type ((crate.join ["MaybeSync"]).withArgs [.type object]).toTy)

/-- The generated method is as the setting says: it returns a storage with this default, or it
returns `MaybeSync`. -/
def Shows (crate : Path) (o : ItemOutput) (method : TraitItemFn) (setting : Meta) : Prop :=
  match setting with
  | .nameValue ["storage"] (.path path) => ∃ storage bounds,
      o.genericStorages = [.type storage bounds (some path.toTy)] ∧ Returns crate storage method.sig
  | .path ["maybe_sync"] => ∃ ret,
      method.sig.output = .type ((crate.join ["MaybeSync"]).withArgs [.type ret]).toTy
  | _ => False

/-- There is a generated method, which is as all the settings of the attribute say. -/
def TakesEffect (crate : Path) (o : ItemOutput) (attr : Attribute) : Prop :=
  ∃ method, o.dynItems = [.fn method] ∧ ∀ m ∈ settings attr, Shows crate o method m

section
variable (casing : Casing) (trait : ItemTrait) (opts : DynTraitOpts) (out : DynTraitOutput)

/-- What the macro writes for one of the items. -/
structure Wrote (item : TraitItem) (o : ItemOutput) : Prop where
  converted : (DynTrait.new trait opts).convertItem casing item = .ok o
  items : o.dynItems ⊆ out.dynTrait.items
  params : o.genericStorages ⊆ out.dynTrait.generics.params

/-- Each attribute takes effect, and none is left on an item of the two traits. -/
structure Honoured : Prop where
  source : ∀ t ∈ out.optTrait, ∀ item ∈ t.items, Clean item
  generated : ∀ item ∈ out.dynTrait.items, Clean item
  effect : ∀ item ∈ trait.items, ∀ attr ∈ traitAttrs item, isHelper attr = true →
    ∃ o, Wrote casing trait opts out item o ∧ TakesEffect (DynTrait.new trait opts).crate o attr

end

/-- The attributes are on a method that is converted, and do not ask for two storages. -/
def Settled (item : TraitItem) : Prop :=
  Clean item ∨ ∃ method, item = .fn method ∧ isDispatchable method = true ∧
    ∀ p ∈ storages method.attrs, ∀ q ∈ storages method.attrs, p = q

variable {casing : Casing} {base : DynTrait} {method method' : TraitItemFn} {attrs : MethodAttrs}

/-- The settings that there are. -/
theorem parseMeta_ok {self r : MethodAttrs} {m : Meta} (h : self.parseMeta m = .ok r) :
    (∃ path, m = .nameValue ["storage"] (.path path) ∧ r = { self with storage := some path }) ∨
      m = .path ["maybe_sync"] ∧ r = { self with maybeSync := true } := by
  unfold MethodAttrs.parseMeta at h
  split at h
  · rename_i hs
    split at h
    · rename_i path value
      have hp : path = ["storage"] := of_decide_eq_true hs
      obtain rfl := Except.ok.inj h
      exact Or.inl ⟨value, by rw [hp], rfl⟩
    · cases h
  split at h
  · rename_i hs
    split at h
    · rename_i path _
      have hp : path = ["maybe_sync"] := of_decide_eq_true hs
      obtain rfl := Except.ok.inj h
      exact Or.inr ⟨by rw [hp], rfl⟩
    · cases h
  · cases h

/-- The last of the storages is taken. -/
theorem foldlM_parseMeta_ok {ms : List Meta} {self r : MethodAttrs}
    (h : ms.foldlM MethodAttrs.parseMeta self = .ok r) :
    (∀ m ∈ ms, (∃ path, m = .nameValue ["storage"] (.path path)) ∨ m = .path ["maybe_sync"]) ∧
      r.storage = (ms.filterMap storageOf).getLast?.or self.storage ∧
      (r.maybeSync = true ↔ self.maybeSync = true ∨ .path ["maybe_sync"] ∈ ms) := by
  induction ms generalizing self with
  | nil =>
    obtain rfl := Machine.pure_ok.mp h
    simp
  | cons m ms ih =>
    rw [List.foldlM_cons, Machine.bind_ok] at h
    obtain ⟨t, ht, h⟩ := h
    obtain ⟨hknown, hstorage, hsync⟩ := ih h
    rcases parseMeta_ok ht with ⟨path, rfl, rfl⟩ | ⟨rfl, rfl⟩
    · refine ⟨List.forall_mem_cons.mpr ⟨Or.inl ⟨path, rfl⟩, hknown⟩, ?_, by simpa using hsync⟩
      rw [hstorage]
      cases hl : (ms.filterMap storageOf).getLast? <;>
        simp [storageOf, List.getLast?_cons, hl]
    · refine ⟨List.forall_mem_cons.mpr ⟨Or.inr rfl, hknown⟩, ?_, by simpa using hsync⟩
      simpa [storageOf] using hstorage

theorem foldlM_parseAttr_ok {hasRpit : Bool} {extracted : List Attribute} {self r : MethodAttrs}
    (h : extracted.foldlM (MethodAttrs.parseAttr hasRpit) self = .ok r) :
    (extracted ≠ [] → hasRpit = true) ∧
      (extracted.flatMap settings).foldlM MethodAttrs.parseMeta self = .ok r := by
  induction extracted generalizing self with
  | nil => exact ⟨fun hne => absurd rfl hne, h⟩
  | cons attr extracted ih =>
    rw [List.foldlM_cons, Machine.bind_ok] at h
    obtain ⟨t, ht, h⟩ := h
    obtain ⟨-, hrest⟩ := ih h
    unfold MethodAttrs.parseAttr at ht
    split at ht
    · cases ht
    · rename_i hr
      refine ⟨fun _ => by simpa using hr, ?_⟩
      rw [List.flatMap_cons, List.foldlM_append, Machine.bind_ok]
      refine ⟨t, ?_, hrest⟩
      split at ht
      · rename_i hc
        simpa only [settings, hc] using ht
      · cases ht

/-- What is read off the attributes of a method. -/
theorem parse_ok (h : MethodAttrs.parse method = .ok (attrs, method')) :
    (method.attrs.any isHelper = true →
        (method.sig.asyncness || (returnImplTrait method.sig).isSome) = true) ∧
      (allSettings method.attrs).foldlM MethodAttrs.parseMeta {} = .ok attrs := by
  simp only [MethodAttrs.parse, List.partition_eq_filter_filter] at h
  obtain ⟨parsed, hf, h⟩ := Machine.bind_ok.mp h
  obtain ⟨rfl, -⟩ := Prod.mk.inj (Machine.pure_ok.mp h)
  obtain ⟨hr, hs⟩ := foldlM_parseAttr_ok hf
  refine ⟨fun ha => hr ?_, hs⟩
  obtain ⟨attr, hm, ha⟩ := List.any_eq_true.mp ha
  exact List.ne_nil_of_mem (List.mem_filter.mpr ⟨hm, ha⟩)

/-- An async method, or one with an opaque return type, returns a storage. -/
theorem returnImplTrait_convertAsync {sig : Signature}
    (h : (sig.asyncness || (returnImplTrait sig).isSome) = true) :
    ∃ rpit, returnImplTrait (DynMethod.convertAsync sig) = some rpit := by
  cases ha : sig.asyncness with
  | true =>
    rw [DynMethod.convertAsync_async ha]
    exact ⟨_, rfl⟩
  | false =>
    rw [DynMethod.convertAsync_plain ha]
    rw [ha, Bool.false_or] at h
    exact Option.isSome_iff_exists.mp h

theorem clean_parse (h : MethodAttrs.parse method = .ok (attrs, method')) :
    ∀ attr ∈ method'.attrs, isHelper attr = false := by
  intro attr hm
  rw [MethodAttrs.parse_attrs h] at hm
  simpa [isHelper] using (List.mem_filter.mp hm).2

/-- The generated method returns the storage that is a parameter of the generated trait. -/
theorem dynMethod_storage (casing : Casing) (base : DynTrait) {rpit : List TypeParamBound}
    (hr : returnImplTrait (DynMethod.convertAsync method.sig) = some rpit) :
    ∃ storage bounds ret, (base.dynMethod casing method).dynMethod.sig.output =
        .type ((base.crate.join ["DynObject"]).withArgs
          [.type ret, .type (.ofIdent storage)]).toTy ∧
      ∀ default, (base.dynMethod casing method).genericStorage (some default) =
        some (.type storage bounds (some default.toTy)) := by
  refine ⟨storageName casing method, [(base.crate.join ["storage", "Storage"]).toBound],
    DynMethod.dynRet (.new rpit (DynMethod.convertAsync method.sig).generics) rpit, ?_,
    fun default => ?_⟩
  · rw [DynTrait.dynMethod, DynMethod.new_sig hr]
    rfl
  · simp only [DynMethod.genericStorage, DynTrait.dynMethod, DynMethod.new, hr,
      DynMethod.convertAsync_ident]
    rfl

theorem maybeSyncMethod_output {dynMethod : DynMethod} {output : Ty} {g : TraitItemFn}
    (h : dynMethod.maybeSyncMethod = .ok g) (ho : dynMethod.dynMethod.sig.output = .type output) :
    g.sig.output = .type ((dynMethod.crate.join ["MaybeSync"]).withArgs [.type output]).toTy := by
  obtain ⟨sig, hs, h⟩ := Machine.bind_ok.mp h
  obtain rfl := Machine.pure_ok.mp h
  obtain ⟨output', ho', rfl⟩ := DynMethod.maybeSyncSignature_ok hs
  obtain rfl := ReturnType.type.inj (ho.symm.trans ho')
  rfl

/-- The storage is the one that is asked for, if there is no other. -/
theorem storage_eq {s : Option Path} {p : Path} {paths : List Path} (hp : p ∈ paths)
    (hagree : ∀ q ∈ paths, p = q) (hs : s = paths.getLast?.or none) : s = some p := by
  obtain ⟨q, hq⟩ := Option.isSome_iff_exists.mp (List.getLast?_isSome.mpr (List.ne_nil_of_mem hp))
  rw [hs, hq, hagree q (List.mem_of_getLast? hq)]
  rfl

/-- What a method with such attributes is converted to. -/
theorem convertMethod_effect {o : ItemOutput} (h : base.convertMethod casing method = .ok o)
    (hhelper : method.attrs.any isHelper = true)
    (hagree : ∀ p ∈ storages method.attrs, ∀ q ∈ storages method.attrs, p = q) :
    ∃ g, o.dynItems = [.fn g] ∧ ∀ m ∈ allSettings method.attrs, Shows base.crate o g m := by
  obtain ⟨attrs, method', hp, hcase⟩ := DynTrait.convertMethod_ok h
  obtain ⟨hrpit, hs⟩ := parse_ok hp
  obtain ⟨hknown, hstorage, hsync⟩ := foldlM_parseMeta_ok hs
  obtain ⟨rpit, hr⟩ := returnImplTrait_convertAsync (hrpit hhelper)
  rw [← MethodAttrs.parse_sig hp] at hr
  obtain ⟨storage, bounds, ret, houtput, hparam⟩ := dynMethod_storage casing base hr
  have hdefault : ∀ path, .nameValue ["storage"] (.path path) ∈ allSettings method.attrs →
      ((base.dynMethod casing method').genericStorage attrs.storage).toList =
        [.type storage bounds (some path.toTy)] := fun path hm => by
    have hpath : path ∈ storages method.attrs := List.mem_filterMap.mpr ⟨_, hm, rfl⟩
    rw [storage_eq hpath (hagree path hpath) hstorage, hparam]
    rfl
  rcases hcase with ⟨hfalse, rfl⟩ | ⟨htrue, _, _, _, g, -, -, -, hg, rfl⟩
  · refine ⟨_, rfl, ?_⟩
    intro m hm
    rcases hknown m hm with ⟨path, rfl⟩ | rfl
    · exact ⟨storage, bounds, hdefault path hm, _, _, rfl, Or.inl houtput⟩
    · have := hsync.mpr (Or.inr hm)
      simp [hfalse] at this
  · have hg := maybeSyncMethod_output hg houtput
    refine ⟨_, rfl, ?_⟩
    intro m hm
    rcases hknown m hm with ⟨path, rfl⟩ | rfl
    · exact ⟨storage, bounds, hdefault path hm, _, _, rfl, Or.inr hg⟩
    · exact ⟨_, hg⟩

/-- A storage that shows is the only one. -/
theorem storage_unique {crate : Path} {o : ItemOutput} {g g' : TraitItemFn} {p q : Path}
    (hp : Shows crate o g (.nameValue ["storage"] (.path p)))
    (hq : Shows crate o g' (.nameValue ["storage"] (.path q))) : p = q := by
  obtain ⟨_, _, hp, -⟩ := hp
  obtain ⟨_, _, hq, -⟩ := hq
  have heq := hp.symm.trans hq
  simp only [List.cons.injEq, GenericParam.type.injEq, Option.some.injEq, Path.toTy,
    Ty.path.injEq] at heq
  obtain ⟨leading, segments⟩ := p
  obtain ⟨leading', segments'⟩ := q
  obtain ⟨⟨-, -, rfl, rfl⟩, -⟩ := heq
  rfl

theorem storageOf_eq_some {m : Meta} {p : Path} :
    storageOf m = some p ↔ m = .nameValue ["storage"] (.path p) := by
  constructor
  · intro h
    unfold storageOf at h
    split at h
    · rw [Option.some.inj h]
    · cases h
  · rintro rfl
    rfl

theorem mem_storages {l : List Attribute} {p : Path} : p ∈ storages l ↔
    ∃ attr ∈ l, isHelper attr = true ∧ .nameValue ["storage"] (.path p) ∈ settings attr := by
  simp only [storages, allSettings, List.mem_filterMap, List.mem_flatMap, List.mem_filter,
    storageOf_eq_some]
  constructor
  · rintro ⟨_, ⟨attr, ⟨hm, ha⟩, hs⟩, rfl⟩
    exact ⟨attr, hm, ha, hs⟩
  · rintro ⟨attr, hm, ha, hs⟩
    exact ⟨_, ⟨attr, ⟨hm, ha⟩, hs⟩, rfl⟩

/-- The attributes of a method that is converted are taken off. -/
theorem convertMethod_clean {o : ItemOutput} (h : base.convertMethod casing method = .ok o) :
    Clean o.item ∧ (∀ t ∈ o.additionalTraitItems, Clean t) ∧ ∀ t ∈ o.dynItems, Clean t := by
  obtain ⟨attrs, method', hp, hcase⟩ := DynTrait.convertMethod_ok h
  have hclean : ∀ attr ∈ method'.attrs, isHelper attr = false := clean_parse hp
  rcases hcase with ⟨-, rfl⟩ | ⟨-, f, c, i, g, hf, hc, -, hg, rfl⟩
  · exact ⟨hclean, List.forall_mem_nil _, List.forall_mem_singleton.mpr hclean⟩
  · obtain ⟨-, -, -, -, rfl⟩ := DynMethod.syncMethod_ok hf
    obtain ⟨-, rfl⟩ := DynMethod.isSyncConst_ok hc
    obtain ⟨hattrs, -⟩ := maybeSyncMethod_ok hg
    have hhidden : ∀ attr ∈ [docHidden], isHelper attr = false := by decide
    have hg : Clean (.fn g) := fun attr ha => hclean attr ((congrArg (attr ∈ ·) hattrs).mp ha)
    exact ⟨hclean, List.forall_mem_cons.mpr ⟨hhidden, List.forall_mem_singleton.mpr hhidden⟩,
      List.forall_mem_singleton.mpr hg⟩

/-- Nothing is left of the attributes of an item that is settled. -/
theorem convertItem_clean {item : TraitItem} {o : ItemOutput}
    (h : base.convertItem casing item = .ok o) (hs : Settled item) :
    Clean o.item ∧ (∀ t ∈ o.additionalTraitItems, Clean t) ∧ ∀ t ∈ o.dynItems, Clean t := by
  rcases DynTrait.convertItem_cases h with ⟨ty, rfl, -, rfl⟩ | ⟨method, rfl, -, h⟩ | ⟨-, hf, rfl⟩
  · rcases hs with hc | ⟨method, hm, -⟩
    · exact ⟨hc, List.forall_mem_nil _, List.forall_mem_singleton.mpr hc⟩
    · cases hm
  · exact convertMethod_clean h
  · rcases hs with hc | ⟨method, rfl, hd, -⟩
    · exact ⟨hc, List.forall_mem_nil _, List.forall_mem_nil _⟩
    · simp [hf method rfl] at hd

variable {trait : ItemTrait} {opts : DynTraitOpts} {out : DynTraitOutput}

theorem settled_of_effect {item : TraitItem}
    (he : ∀ attr ∈ traitAttrs item, isHelper attr = true →
      ∃ o, Wrote casing trait opts out item o ∧
        TakesEffect (DynTrait.new trait opts).crate o attr) : Settled item := by
  by_cases hc : Clean item
  · exact Or.inl hc
  right
  obtain ⟨attr, ha, hh⟩ : ∃ attr ∈ traitAttrs item, isHelper attr = true := by
    simpa [Clean] using hc
  obtain ⟨o, hw, g, hg, -⟩ := he attr ha hh
  obtain ⟨method, rfl, hd, -⟩ := DynTrait.convertItem_fn hw.converted (Or.inl ⟨g, by simp [hg]⟩)
  refine ⟨method, rfl, hd, ?_⟩
  intro p hp q hq
  obtain ⟨attr, ha, hh, hp⟩ := mem_storages.mp hp
  obtain ⟨attr', ha', hh', hq⟩ := mem_storages.mp hq
  obtain ⟨o, hw, g, -, hshow⟩ := he attr ha hh
  obtain ⟨o', hw', g', -, hshow'⟩ := he attr' ha' hh'
  obtain rfl : o = o' := Except.ok.inj (hw.converted.symm.trans hw'.converted)
  exact storage_unique (hshow _ hp) (hshow' _ hq)

section
variable (h : dynTraitImpl casing trait opts = .ok out)

include h

theorem exists_wrote {item : TraitItem} (hm : item ∈ trait.items) :
    ∃ o, Wrote casing trait opts out item o := by
  obtain ⟨outs, _, _, ho, rfl⟩ := dynTraitImpl_eq h
  obtain ⟨o, hmem, hc⟩ := Machine.exists_right_of_forall₂ ho hm
  refine ⟨o, hc, fun t ht => List.mem_flatMap.mpr ⟨o, hmem, ht⟩, ?_⟩
  intro p hp
  exact mem_printed.mpr (List.mem_append_right _ (List.mem_flatMap.mpr ⟨o, hmem, hp⟩))

theorem clean_of_settled (hs : ∀ item ∈ trait.items, Settled item) :
    (∀ t ∈ out.optTrait, ∀ item ∈ t.items, Clean item) ∧
      ∀ item ∈ out.dynTrait.items, Clean item := by
  obtain ⟨outs, ho, hd, -, ht⟩ := dynTraitImpl_ok h
  have hclean : ∀ o ∈ outs, Clean o.item ∧ (∀ t ∈ o.additionalTraitItems, Clean t) ∧
      ∀ t ∈ o.dynItems, Clean t := by
    intro o hm
    obtain ⟨item, hitem, hc⟩ := Machine.exists_left_of_forall₂ ho hm
    exact convertItem_clean hc (hs item hitem)
  constructor
  · intro t htm item hitem
    rw [ht t htm] at hitem
    rcases List.mem_append.mp hitem with hitem | hitem
    · obtain ⟨o, hm, rfl⟩ := List.mem_map.mp hitem
      exact (hclean o hm).1
    · obtain ⟨o, hm, hitem⟩ := List.mem_flatMap.mp hitem
      exact (hclean o hm).2.1 item hitem
  · intro item hitem
    rw [hd] at hitem
    obtain ⟨o, hm, hitem⟩ := List.mem_flatMap.mp hitem
    exact (hclean o hm).2.2 item hitem

theorem effect_of_settled {item : TraitItem} (hm : item ∈ trait.items) (hs : Settled item)
    {attr : Attribute} (ha : attr ∈ traitAttrs item) (hh : isHelper attr = true) :
    ∃ o, Wrote casing trait opts out item o ∧
      TakesEffect (DynTrait.new trait opts).crate o attr := by
  obtain ⟨o, hw⟩ := exists_wrote h hm
  rcases hs with hc | ⟨method, rfl, hd, hagree⟩
  · exact absurd hh (by simp [hc attr ha])
  have hc := hw.converted
  simp only [DynTrait.convertItem, hd, if_true] at hc
  obtain ⟨g, hg, heffect⟩ := convertMethod_effect hc (List.any_eq_true.mpr ⟨attr, ha, hh⟩) hagree
  refine ⟨o, hw, g, hg, fun m hset => heffect m ?_⟩
  exact List.mem_flatMap.mpr ⟨attr, List.mem_filter.mpr ⟨ha, hh⟩, hset⟩

/-- The attributes are honoured exactly if each item that has one is a method that is converted,
and asks for one storage at most. -/
theorem honoured_iff : Honoured casing trait opts out ↔ ∀ item ∈ trait.items, Settled item := by
  constructor
  · exact fun hh item hm => settled_of_effect (hh.effect item hm)
  · intro hs
    obtain ⟨hsource, hgenerated⟩ := clean_of_settled h hs
    exact ⟨hsource, hgenerated, fun item hm attr => effect_of_settled h hm (hs item hm)⟩

end

/-- `#[dyn_trait(storage = #path)]` -/
def attrStorage (path : Ident) : Attribute :=
  ⟨.list ["dyn_trait"] [.nameValue ["storage"] (.path (.ofIdents false [path]))]⟩

theorem honoured_iff_fetch :
    ∃ out, dynTraitImpl .ascii (fetch [asyncFn [attrStorage "Box", attrMaybeSync] "get"]) {} =
        .ok out ∧
      Honoured .ascii (fetch [asyncFn [attrStorage "Box", attrMaybeSync] "get"]) {} out := by
  obtain ⟨out, h⟩ : ∃ out, dynTraitImpl .ascii
      (fetch [asyncFn [attrStorage "Box", attrMaybeSync] "get"]) {} = .ok out := ⟨_, rfl⟩
  refine ⟨out, h, (honoured_iff h).mpr ?_⟩
  refine List.forall_mem_singleton.mpr (Or.inr ⟨_, rfl, by decide, ?_⟩)
  intro p hp q hq
  exact (List.mem_singleton.mp hp).trans (List.mem_singleton.mp hq).symm

/-- `#[dyn_trait(maybe_sync)] async fn open();` -/
def openFn : TraitItem := .fn {
  attrs := [attrMaybeSync]
  sig := {
    asyncness := true
    unsafety := false
    ident := "open"
    generics := ⟨[], none⟩
    inputs := []
    output := .default }
  default := none }

/-- The attribute stays where it is, on a method that is not converted. And of two storages the
first is forgotten. -/
theorem fetch_not_honoured :
    (∃ out, dynTraitImpl .ascii (fetch [openFn]) {} = .ok out ∧
      ¬ Honoured .ascii (fetch [openFn]) {} out) ∧
    ∃ out, dynTraitImpl .ascii
        (fetch [asyncFn [attrStorage "Box", attrStorage "Raw"] "get"]) {} = .ok out ∧
      ¬ Honoured .ascii (fetch [asyncFn [attrStorage "Box", attrStorage "Raw"] "get"]) {} out := by
  refine ⟨⟨_, rfl, ?_⟩, _, rfl, ?_⟩
  · intro h
    have hleft : Clean openFn := h.source _ rfl _ List.mem_cons_self
    exact absurd hleft (by decide)
  · intro h
    obtain ⟨o, hw, g, -, hshow⟩ := h.effect _ List.mem_cons_self (attrStorage "Box")
      List.mem_cons_self rfl
    obtain ⟨storage, bounds, hbox, -⟩ := hshow _ List.mem_cons_self
    have hraw := congrArg ItemOutput.genericStorages (Except.ok.inj hw.converted)
    have heq := GenericParam.type.inj (List.cons.inj (hraw.trans hbox)).1
    have hseg := (Ty.path.inj (Option.some.inj heq.2.2)).2
    exact absurd (PathSegment.mk.inj (List.cons.inj hseg).1).1 (by decide)

end DynUtils.Macros.Helpers
