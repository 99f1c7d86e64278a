import DynUtils.Macros.DynTraitSpec

/-! Which instance of the source trait the blanket impl speaks of. -/
namespace DynUtils.Macros.Instance

open Syn

/-- The arguments of a path to a trait. -/
def pathArgs (p : Path) : List GenericArgument :=
  match p.segments.getLast? with
  | some (.mk _ (.angleBracketed args)) => args
  | _ => []

/-- What stands for a parameter whose argument is left out. -/
def defaultArg : GenericParam → Option GenericArgument
  | .lifetime _ => none
  | .type _ _ default => default.map .type
  | .const _ _ default => default.map .const

/-- The arguments with the defaults that follow them. -/
def complete : List GenericParam → List GenericArgument → Option (List GenericArgument)
  | [], [] => some []
  | [], _ :: _ => none
  | _ :: ps, a :: as => (complete ps as).map (a :: ·)
  | p :: ps, [] => (defaultArg p).bind fun a => (complete ps []).map (a :: ·)

/-- The arguments of the instance that `p` names, if it is one of the trait at `source`. -/
def instanceArgs (source : Path) (trait : ItemTrait) (p : Path) : Option (List GenericArgument) :=
  if p.leading = source.leading ∧ p.segments.map (·.ident) = source.segments.map (·.ident) then
    complete trait.generics.printed (pathArgs p)
  else none

/-- `p` names the instance with the parameters of the trait as arguments. -/
def Own (source : Path) (trait : ItemTrait) (p : Path) : Prop :=
  instanceArgs source trait p = some trait.generics.tyGenerics

/-- The bound on `__Dyn`, which is the last parameter, and the projections that define the
associated types all name the one instance. -/
structure OneInstance (source : Path) (trait : ItemTrait) (impl : ItemImpl) : Prop where
  bound : ∃ p : Path, impl.generics.getLast? = some (.type "__Dyn" [p.toBound] none) ∧
    Own source trait p
  projections : ∀ ident ty, .type ident ty ∈ impl.items → ∃ p : Path,
    ty = .qpath (.ofIdent "__Dyn") p.segments.length p.leading (p.segments ++ [.plain ident]) ∧
      Own source trait p

/-- The source trait, as the options name it. -/
def source (trait : ItemTrait) (opts : DynTraitOpts) : Path :=
  opts.remote.getD (.ofIdents false [trait.ident])

/-- No default mentions its own parameter, which the language forbids. -/
def DefaultsBefore (g : Generics) : Prop :=
  ∀ ident bounds default, .type ident bounds (some default) ∈ g.params → default ≠ .ofIdent ident

/-- The trait has an associated type that the impl defines. -/
def HasType (trait : ItemTrait) : Prop := ∃ ty, .type ty ∈ trait.items ∧ isNotGeneric ty = true

theorem complete_tyGenerics (ps : List GenericParam) :
    complete ps (ps.map (·.toArg)) = some (ps.map (·.toArg)) := by
  induction ps with
  | nil => rfl
  | cons p ps ih => simp [complete, ih]

/-- Left out altogether, the arguments are not the own parameters. -/
theorem complete_nil_ne {ps : List GenericParam} (hps : ps ≠ [])
    (hd : ∀ ident bounds default, .type ident bounds (some default) ∈ ps →
      default ≠ .ofIdent ident) : complete ps [] ≠ some (ps.map (·.toArg)) := by
  cases ps with
  | nil => exact absurd rfl hps
  | cons p ps =>
    intro h
    obtain ⟨a, ha, h⟩ := Option.bind_eq_some_iff.mp h
    obtain ⟨as, -, h⟩ := Option.map_eq_some_iff.mp h
    obtain ⟨rfl, -⟩ := List.cons.inj h
    cases p with
    | lifetime p => cases ha
    | type ident bounds default =>
      obtain ⟨t, rfl, ht⟩ := Option.map_eq_some_iff.mp ha
      exact hd ident bounds t List.mem_cons_self (GenericArgument.type.inj ht)
    | const ident ty default =>
      obtain ⟨t, -, ht⟩ := Option.map_eq_some_iff.mp ha
      cases ht

theorem printed_eq_nil {g : Generics} : g.printed = [] ↔ g.params = [] := by
  simp only [Generics.printed, List.append_eq_nil_iff, List.filter_eq_nil_iff]
  constructor
  · rintro ⟨h, h'⟩
    cases hp : g.params with
    | nil => rfl
    | cons p ps =>
      have h1 := h p (by simp [hp])
      have h2 := h' p (by simp [hp])
      simp_all
  · intro h
    simp [h]

section
variable {p : Path} {trait : ItemTrait}

theorem pathArgs_withArgs (h : p.segments ≠ []) (args : List GenericArgument) :
    pathArgs (p.withArgs args) = args := by
  obtain ⟨s, hs⟩ := List.getLast?_isSome.mpr h |> Option.isSome_iff_exists.mp
  simp [pathArgs, Path.withArgs, hs]

theorem idents_withArgs (args : List GenericArgument) :
    (p.withArgs args).segments.map (·.ident) = p.segments.map (·.ident) := by
  cases hs : p.segments.getLast? with
  | none =>
    have hnil : p.segments = [] := by simpa using hs
    simp [Path.withArgs, hnil]
  | some s =>
    have hsplit : p.segments = p.segments.dropLast ++ [s] := (List.dropLast_append_getLast? s hs).symm
    conv_rhs => rw [hsplit]
    simp [Path.withArgs, hs, PathSegment.ident]

theorem own_withGenerics (hseg : p.segments ≠ []) (hbare : pathArgs p = []) :
    Own p trait (p.withGenerics trait.generics.tyGenerics) := by
  unfold Own instanceArgs Path.withGenerics
  split
  · rename_i he
    have hnil : trait.generics.printed = [] := by
      simpa [Generics.tyGenerics] using he
    simp [hbare, hnil, complete, Generics.tyGenerics]
  · rw [if_pos ⟨rfl, idents_withArgs _⟩, pathArgs_withArgs hseg]
    exact complete_tyGenerics _

theorem own_iff (hbare : pathArgs p = []) (hd : DefaultsBefore trait.generics) :
    Own p trait p ↔ trait.generics.params = [] := by
  simp only [Own, instanceArgs, and_self, ↓reduceIte, hbare]
  constructor
  · intro h
    by_contra hne
    refine complete_nil_ne (fun hnil => hne (printed_eq_nil.mp hnil)) ?_ h
    intro i b d hm
    exact hd i b d (mem_printed.mp hm)
  · intro h
    simp [printed_eq_nil.mpr h, complete, Generics.tyGenerics]

end

/-- Only a type without parameters gives a type of the impl, which projects out of `__Dyn`. -/
theorem convertItem_types {casing : Casing} {base : DynTrait} {item : TraitItem} {out : ItemOutput}
    (h : base.convertItem casing item = .ok out) (ident : Ident) (ty : Ty) :
    .type ident ty ∈ out.implItems ↔ ∃ t, item = .type t ∧ isNotGeneric t = true ∧
      t.ident = ident ∧ DynTrait.dynType base.remote ident = ty := by
  rcases DynTrait.convertItem_cases h with ⟨t, rfl, hn, rfl⟩ | ⟨method, rfl, -, h⟩ | ⟨ht, -, rfl⟩
  · simp only [List.mem_singleton, ImplItem.type.injEq]
    constructor
    · rintro ⟨rfl, rfl⟩
      exact ⟨t, rfl, hn, rfl, rfl⟩
    · rintro ⟨t', ht, -, rfl, rfl⟩
      obtain rfl := TraitItem.type.inj ht
      exact ⟨rfl, rfl⟩
  · obtain ⟨_, _, -, hcase⟩ := DynTrait.convertMethod_ok h
    rcases hcase with ⟨-, rfl⟩ | ⟨-, _, _, _, _, -, -, -, -, rfl⟩
    · simp
    · simp
  · apply iff_of_false List.not_mem_nil
    rintro ⟨t, rfl, hn, -⟩
    simp [ht t rfl] at hn

/-- The parameter `__Dyn` is printed last, and carries the bound. -/
theorem dynTraitImpl_bound {casing : Casing} {trait : ItemTrait} {opts : DynTraitOpts}
    {out : DynTraitOutput} (h : dynTraitImpl casing trait opts = .ok out) :
    out.dynImpl.generics.getLast? = some (.type "__Dyn"
      [((source trait opts).withGenerics trait.generics.tyGenerics).toBound] none) := by
  obtain ⟨outs, _, _, -, rfl⟩ := dynTraitImpl_eq h
  simp [DynTrait.output, DynTrait.new, Generics.implGenerics,
    Generics.printed, GenericParam.isLifetime, GenericParam.eraseDefault, source]

section
variable {casing : Casing} {trait : ItemTrait} {opts : DynTraitOpts} {out : DynTraitOutput}
  (h : dynTraitImpl casing trait opts = .ok out)

include h

/-- The types of the impl are those of the trait, each projected out of `__Dyn`. -/
theorem implTypes (ident : Ident) (ty : Ty) : .type ident ty ∈ out.dynImpl.items ↔
    ∃ t, .type t ∈ trait.items ∧ isNotGeneric t = true ∧ t.ident = ident ∧
      DynTrait.dynType (source trait opts) ident = ty := by
  obtain ⟨outs, ho, -, hi, -⟩ := dynTraitImpl_ok h
  rw [hi, List.mem_flatMap]
  constructor
  · rintro ⟨o, hm, ht⟩
    obtain ⟨item, hitem, hc⟩ := Machine.exists_left_of_forall₂ ho hm
    obtain ⟨t, rfl, hn, hid, hty⟩ := (convertItem_types hc ident ty).mp ht
    exact ⟨t, hitem, hn, hid, hty⟩
  · rintro ⟨t, hitem, hn, hid, hty⟩
    obtain ⟨o, hm, hc⟩ := Machine.exists_right_of_forall₂ ho hitem
    exact ⟨o, hm, (convertItem_types hc ident ty).mpr ⟨t, rfl, hn, hid, hty⟩⟩

/-- A projection names the trait by its bare path. -/
theorem own_of_projection (hone : OneInstance (source trait opts) trait out.dynImpl)
    (ht : HasType trait) : Own (source trait opts) trait (source trait opts) := by
  obtain ⟨t, hitem, hn⟩ := ht
  obtain ⟨p, hp, hown⟩ := hone.projections t.ident _
    ((implTypes h _ _).mpr ⟨t, hitem, hn, rfl, rfl⟩)
  obtain ⟨-, -, hlead, hsegs⟩ := Ty.qpath.inj hp
  obtain rfl : source trait opts = p := by
    cases p
    cases hs : source trait opts
    simp_all
  exact hown

/-- The bound on `__Dyn` names the instance with the parameters of the trait, and so do the
projections exactly if there are no parameters that they would have to name. -/
theorem oneInstance_iff (hremote : ∀ r ∈ opts.remote, r.segments ≠ [] ∧ pathArgs r = [])
    (hdefaults : DefaultsBefore trait.generics) :
    OneInstance (source trait opts) trait out.dynImpl ↔
      trait.generics.params = [] ∨ ¬ HasType trait := by
  obtain ⟨hseg, hbare⟩ : (source trait opts).segments ≠ [] ∧ pathArgs (source trait opts) = [] := by
    cases hr : opts.remote with
    | none => simp [source, hr, Path.ofIdents, pathArgs, PathSegment.plain]
    | some r => simpa [source, hr] using hremote r hr
  constructor
  · refine fun hone => or_iff_not_imp_right.mpr ?_
    intro hex
    exact (own_iff hbare hdefaults).mp (own_of_projection h hone (not_not.mp hex))
  · intro hcond
    refine ⟨⟨_, dynTraitImpl_bound h, own_withGenerics hseg hbare⟩, ?_⟩
    intro ident ty hm
    obtain ⟨t, hitem, hn, -, rfl⟩ := (implTypes h ident ty).mp hm
    refine ⟨source trait opts, rfl, (own_iff hbare hdefaults).mpr ?_⟩
    exact hcond.resolve_right fun hno => hno ⟨t, hitem, hn⟩

end

/-- `trait Supply<#params> { type Item<#typeParams>; }` -/
def supply (params typeParams : List GenericParam) : ItemTrait where
  attrs := []
  unsafety := false
  ident := "Supply"
  generics := ⟨params, none⟩
  colon := false
  supertraits := []
  items := [.type { attrs := [], ident := "Item", generics := ⟨typeParams, none⟩, bounds := [] }]

/-- `T = u8` -/
def defaulted : GenericParam := .type "T" [] (some (.ofIdent "u8"))

theorem defaultsBefore_supply (typeParams : List GenericParam) :
    DefaultsBefore (supply [defaulted] typeParams).generics := by
  intro ident bounds default hm
  obtain ⟨rfl, -, hd⟩ := GenericParam.type.inj (List.mem_singleton.mp hm)
  obtain rfl := Option.some.inj hd
  simp [Ty.ofIdent, PathSegment.plain]

/-- `trait Supply<T = u8> { type Item<'a>; }` -/
def supplyLent : ItemTrait := supply [defaulted] [.lifetime ⟨⟨"a"⟩, []⟩]

/-- `remote = other::Supply` -/
def fromOther : DynTraitOpts where
  remote := some (.ofIdents false ["other", "Supply"])

/-- `Item<'a>` is not taken over, so nothing is projected out of `Supply<u8>`. -/
theorem oneInstance_iff_lent : ∃ out, dynTraitImpl .ascii supplyLent fromOther = .ok out ∧
    OneInstance (source supplyLent fromOther) supplyLent out.dynImpl := by
  obtain ⟨out, h⟩ : ∃ out, dynTraitImpl .ascii supplyLent fromOther = .ok out := ⟨_, rfl⟩
  refine ⟨out, h, (oneInstance_iff h ?_ (defaultsBefore_supply _)).mpr (Or.inr ?_)⟩
  · intro r hr
    obtain rfl := Option.some.inj hr
    exact ⟨List.cons_ne_nil _ _, rfl⟩
  · rintro ⟨ty, hty, hn⟩
    obtain rfl := TraitItem.type.inj (List.mem_singleton.mp hty)
    cases hn

/-- With `<T = u8>` the bound is on `Supply<T>`, and `Item` is taken from `Supply<u8>`. -/
theorem supply_two_instances : ¬ ∀ (casing : Casing) (trait : ItemTrait) (opts : DynTraitOpts)
    (out : DynTraitOutput), dynTraitImpl casing trait opts = .ok out →
    (∀ r ∈ opts.remote, r.segments ≠ [] ∧ pathArgs r = []) → DefaultsBefore trait.generics →
      OneInstance (source trait opts) trait out.dynImpl := by
  intro hall
  obtain ⟨out, h⟩ : ∃ out, dynTraitImpl .ascii (supply [defaulted] []) {} = .ok out := ⟨_, rfl⟩
  have hd := defaultsBefore_supply []
  have hown := own_of_projection h (hall _ _ _ _ h (fun _ hr => by cases hr) hd)
    ⟨_, List.mem_singleton_self _, rfl⟩
  cases (own_iff rfl hd).mp hown

end DynUtils.Macros.Instance
