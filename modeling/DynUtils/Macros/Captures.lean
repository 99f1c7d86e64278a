import DynUtils.Macros.DynTraitSpec
import Mathlib.Logic.Relation

/-! Whether what an opaque type captures outlives the lifetime of the returned object. -/
namespace DynUtils.Macros.Captures

open Syn

/-- The lifetime that `'_` stands for in the return type. -/
def receiverLifetime (sig : Signature) : Option Lifetime :=
  sig.receiver.bind fun r => match r.reference with
    | some l => l
    | none => (pinnedRef r.ty).bind (·.lifetime)

/-- The opaque type captures this lifetime parameter of the method. -/
def CapturesNamed (sig : Signature) (rpit : List TypeParamBound) (l : Lifetime) : Prop :=
  l ∈ sig.generics.lifetimes.map (·.lifetime) ∧
    match preciseCapture rpit with
    | none => True
    | some params => .lifetime l ∈ params ∨
        .lifetime defaultLt ∈ params ∧ receiverLifetime sig = some l

def receiverNodes (sig : Signature) : List (ℕ × Node) :=
  sig.receiver.toList.flatMap fun r =>
    r.reference.toList.map (fun l => (0, .reference l)) ++ r.ty.nodes 0 .type

def inputNodes (sig : Signature) : List (ℕ × Node) :=
  sig.typedInputs.flatMap (·.nodes 0 .type)

/-- Where the elided lifetimes stand that the opaque type captures. -/
def elidedNodes (sig : Signature) (rpit : List TypeParamBound) : List (ℕ × Node) :=
  match preciseCapture rpit with
  | none => receiverNodes sig ++ inputNodes sig
  | some params => if .lifetime defaultLt ∈ params then receiverNodes sig else []

/-- A lifetime of the method is omitted, or written as `'_`. -/
def Elided (ns : List (ℕ × Node)) : Prop :=
  (0, .lifetime defaultLt) ∈ ns ∨ (0, .reference none) ∈ ns ∨
    (0, .reference (some defaultLt)) ∈ ns

mutual

/-- The bounds of each `impl Trait` in a type. None is allowed in a function pointer, nor in
parenthesized arguments. -/
def implTraits : Ty → List (List TypeParamBound)
  | .array elem _ | .paren elem | .ptr _ elem | .reference _ _ elem | .slice elem =>
    implTraits elem
  | .bareFn _ _ _ _ | .never => []
  | .implTrait bounds => bounds :: implTraitsBounds bounds
  | .path _ segments => implTraitsSegments segments
  | .qpath qself _ _ segments => implTraits qself ++ implTraitsSegments segments
  | .traitObject bounds => implTraitsBounds bounds
  | .tuple elems => implTraitsTys elems

def implTraitsTys : List Ty → List (List TypeParamBound)
  | [] => []
  | t :: ts => implTraits t ++ implTraitsTys ts

def implTraitsSegments : List PathSegment → List (List TypeParamBound)
  | [] => []
  | .mk _ arguments :: ss => implTraitsArguments arguments ++ implTraitsSegments ss

def implTraitsArguments : PathArguments → List (List TypeParamBound)
  | .none | .parenthesized _ _ => []
  | .angleBracketed args => implTraitsArgs args

def implTraitsArgs : List GenericArgument → List (List TypeParamBound)
  | [] => []
  | .lifetime _ :: as | .const _ :: as => implTraitsArgs as
  | .type t :: as => implTraits t ++ implTraitsArgs as
  | .assocType _ generics t :: as => implTraitsArgs generics ++ implTraits t ++ implTraitsArgs as
  | .constraint _ generics bounds :: as =>
    implTraitsArgs generics ++ implTraitsBounds bounds ++ implTraitsArgs as

def implTraitsBounds : List TypeParamBound → List (List TypeParamBound)
  | [] => []
  | .trait _ _ _ segments :: bs => implTraitsSegments segments ++ implTraitsBounds bs
  | .lifetime _ :: bs | .preciseCapture _ :: bs => implTraitsBounds bs

end

/-- `l: l'` is declared. -/
def Declares (g : Generics) (l l' : Lifetime) : Prop :=
  (∃ p ∈ g.lifetimes, p.lifetime = l ∧ l' ∈ p.bounds) ∨
    ∃ bounds, .lifetime l bounds ∈ g.whereClause.getD [] ∧ l' ∈ bounds

/-- `p: '__dyn` -/
def TyBounded (sig : Signature) (p : Ident) : Prop :=
  ∃ bounds, .type [] (.ofIdent p) bounds ∈ sig.generics.whereClause.getD [] ∧
    .lifetime dynLt ∈ bounds

/-- `l: '__dyn`, where the lifetime is declared or in a clause. -/
def Bounded (sig : Signature) (l : Lifetime) : Prop := Declares sig.generics l dynLt

def staticLt : Lifetime := ⟨"static"⟩

/-- What the compiler knows of the types and traits that a signature mentions. A lifetime that is
omitted goes by `'_`. -/
structure Implied where
  /-- What has this bound outlives the lifetime, by the bound itself or by a supertrait. -/
  bound : TypeParamBound → Lifetime → Prop
  /-- `l: l'`, or else the type is not well formed. So it is for `&'l' &'l T`. -/
  lifetime : Ty → Lifetime → Lifetime → Prop
  /-- The same for the `impl Trait` of this index in the type, as in `&'l impl Trait`. -/
  implTrait : Ty → ℕ → Lifetime → Prop
  bound_lifetime : ∀ l l', bound (.lifetime l) l' ↔ l = l'
  bound_visit : ∀ (captured : CapturedLifetimes) b l, bound (captured.visitor.bound 0 b) l ↔
    ∃ m, bound b m ∧ captured.visitLifetime m = l
  lifetime_visit : ∀ (captured : CapturedLifetimes) t l l',
    lifetime (captured.visitor.ty 0 t) l l' ↔
      ∃ m m', lifetime t m m' ∧ captured.visitLifetime m = l ∧ captured.visitLifetime m' = l'
  implTrait_visit : ∀ (captured : CapturedLifetimes) t i l,
    implTrait (captured.visitor.ty 0 t) i l ↔
      ∃ m, implTrait t i m ∧ captured.visitLifetime m = l

/-- `l: l'` holds in a method of the trait, for an `l` that has a name. -/
def Longer (K : Implied) (trait : Generics) (sig : Signature) (l l' : Lifetime) : Prop :=
  l ≠ defaultLt ∧ (l' ≠ defaultLt ∧ (Declares trait l l' ∨ Declares sig.generics l l') ∨
    ∃ t ∈ sig.typedInputs, K.lifetime t l l')

/-- `l: '__dyn` holds in a method of the trait. -/
def Outlives (K : Implied) (trait : Generics) (sig : Signature) (l : Lifetime) : Prop :=
  ∃ l', Relation.ReflTransGen (Longer K trait sig) l l' ∧ (l' = dynLt ∨ l' = staticLt)

/-- Each `impl Trait` in the parameter types outlives one of these lifetimes. -/
def ImplTraitsOutlive (K : Implied) (sig : Signature) (p : Lifetime → Prop) : Prop :=
  ∀ t ∈ sig.typedInputs, ∀ i bounds, (implTraits t)[i]? = some bounds →
    ∃ l, (K.implTrait t i l ∨ ∃ b ∈ bounds, K.bound b l) ∧ p l

/-- The return type is `'static` by its own bounds. -/
def ImpliesStatic (K : Implied) (rpit : List TypeParamBound) : Prop :=
  ∃ b ∈ rpit, K.bound b staticLt

/-- Everything that the return type of a method captures outlives `'__dyn` in the
generated signature. -/
def CaptureComplete (K : Implied) (trait : Generics) (sig : Signature)
    (rpit : List TypeParamBound) (generated : Signature) : Prop :=
  (∀ p ∈ trait.typeParams ++ ["Self"], TyBounded generated p) ∧
    (ImpliesStatic K rpit ∨
      (∀ l ≠ defaultLt, l ∈ trait.lifetimes.map (·.lifetime) ∨ CapturesNamed sig rpit l →
        Outlives K trait generated l) ∧
      -- The type parameters of a method are those of its `impl Trait`s.
      ImplTraitsOutlive K generated (Outlives K trait generated) ∧
      ¬ Elided (elidedNodes generated rpit))

/-- `'static`, or a lifetime of the method that the return type captures, by name or as `'_`. -/
def Grounded (sig : Signature) (rpit : List TypeParamBound) (l : Lifetime) : Prop :=
  l = dynLt ∨ l = staticLt ∨ Captures rpit sig.generics l ∧
    (l = defaultLt ∨ l ∈ sig.generics.lifetimes.map (·.lifetime))

/-- The lifetime outlives such a one. -/
def Covered (K : Implied) (trait : Generics) (sig : Signature) (rpit : List TypeParamBound)
    (l : Lifetime) : Prop :=
  ∃ l', Relation.ReflTransGen (Longer K trait sig) l l' ∧ Grounded sig rpit l'

/-- Nothing is required, or no lifetime of the trait and no `impl Trait` in the parameters is left
uncovered, and neither does `use<'_>` stand for a lifetime that is. -/
def Coverable (K : Implied) (trait : Generics) (sig : Signature)
    (rpit : List TypeParamBound) : Prop :=
  ImpliesStatic K rpit ∨
    (∀ l ∈ trait.lifetimes.map (·.lifetime), l ≠ defaultLt → Covered K trait sig rpit l) ∧
    ImplTraitsOutlive K sig (Covered K trait sig rpit) ∧
    ∀ params, preciseCapture rpit = some params → .lifetime defaultLt ∈ params →
      ∀ l ∈ sig.generics.lifetimes.map (·.lifetime), receiverLifetime sig = some l →
        Covered K trait sig rpit l

theorem dynLt_ne_defaultLt : dynLt ≠ defaultLt := by decide

section
variable {captured : CapturedLifetimes} {l : Lifetime}

theorem visitLifetime_defaultLt :
    captured.visitLifetime defaultLt = dynLt ↔ defaultLt ∈ captured.captured := by
  unfold CapturedLifetimes.visitLifetime
  split
  · simp_all
  · simp_all [dynLt_ne_defaultLt.symm]

theorem visitLifetime_of_ne (h : l ≠ defaultLt) : captured.visitLifetime l = l := by
  simp [CapturedLifetimes.visitLifetime, h]

/-- An elided lifetime that is captured becomes `'__dyn`, and nothing else changes. -/
theorem visitLifetime_eq {m : Lifetime} : captured.visitLifetime m = l ↔
    m = defaultLt ∧ defaultLt ∈ captured.captured ∧ l = dynLt ∨
      m = l ∧ (m = defaultLt → defaultLt ∉ captured.captured) := by
  unfold CapturedLifetimes.visitLifetime
  split <;> grind

end

mutual

/-- A visitor rewrites the bounds of each `impl Trait`. -/
theorem implTraits_ty (v : VisitMut) : ∀ t : Ty,
    implTraits (v.ty 0 t) = (implTraits t).map (v.bounds 0)
  | .array elem _ | .paren elem | .ptr _ elem | .reference _ _ elem | .slice elem => by
    simp [VisitMut.ty, implTraits, implTraits_ty v elem]
  | .bareFn _ _ _ _ | .never => rfl
  | .implTrait bounds => by simp [VisitMut.ty, implTraits, implTraits_bounds v bounds]
  | .path _ segments => by simp [VisitMut.ty, implTraits, implTraits_segments v segments]
  | .qpath qself _ _ segments => by
    simp [VisitMut.ty, implTraits, implTraits_ty v qself, implTraits_segments v segments]
  | .traitObject bounds => by simp [VisitMut.ty, implTraits, implTraits_bounds v bounds]
  | .tuple elems => by simp [VisitMut.ty, implTraits, implTraits_tys v elems]

theorem implTraits_tys (v : VisitMut) : ∀ ts : List Ty,
    implTraitsTys (v.tys 0 ts) = (implTraitsTys ts).map (v.bounds 0)
  | [] => rfl
  | t :: ts => by simp [VisitMut.tys, implTraitsTys, implTraits_ty v t, implTraits_tys v ts]

theorem implTraits_segments (v : VisitMut) : ∀ ss : List PathSegment,
    implTraitsSegments (v.segments 0 ss) = (implTraitsSegments ss).map (v.bounds 0)
  | [] => rfl
  | .mk _ arguments :: ss => by
    simp [VisitMut.segments, implTraitsSegments, implTraits_arguments v arguments,
      implTraits_segments v ss]

theorem implTraits_arguments (v : VisitMut) : ∀ a : PathArguments,
    implTraitsArguments (v.arguments 0 a) = (implTraitsArguments a).map (v.bounds 0)
  | .none | .parenthesized _ _ => rfl
  | .angleBracketed args => by
    simp [VisitMut.arguments, implTraitsArguments, implTraits_args v args]

theorem implTraits_args (v : VisitMut) : ∀ as : List GenericArgument,
    implTraitsArgs (v.genericArgs 0 as) = (implTraitsArgs as).map (v.bounds 0)
  | [] => rfl
  | .lifetime _ :: as | .const _ :: as => by
    simp [VisitMut.genericArgs, VisitMut.genericArg, implTraitsArgs, implTraits_args v as]
  | .type t :: as => by
    simp [VisitMut.genericArgs, VisitMut.genericArg, implTraitsArgs, implTraits_ty v t,
      implTraits_args v as]
  | .assocType _ generics t :: as => by
    simp [VisitMut.genericArgs, VisitMut.genericArg, implTraitsArgs, implTraits_args v generics,
      implTraits_ty v t, implTraits_args v as]
  | .constraint _ generics bounds :: as => by
    simp [VisitMut.genericArgs, VisitMut.genericArg, implTraitsArgs, implTraits_args v generics,
      implTraits_bounds v bounds, implTraits_args v as]

theorem implTraits_bounds (v : VisitMut) : ∀ bs : List TypeParamBound,
    implTraitsBounds (v.bounds 0 bs) = (implTraitsBounds bs).map (v.bounds 0)
  | [] => rfl
  | .trait _ _ _ segments :: bs => by
    simp [VisitMut.bounds, VisitMut.bound, implTraitsBounds, implTraits_segments v segments,
      implTraits_bounds v bs]
  | .lifetime _ :: bs | .preciseCapture _ :: bs => by
    simp [VisitMut.bounds, VisitMut.bound, implTraitsBounds, implTraits_bounds v bs]

end

section
variable {crate : Path} {traitGenerics : List Ident} {sig : Signature}
  {rpit : List TypeParamBound} {storage : Ident}

/-- Every type parameter of the trait gets its clause, and so does `Self`. -/
theorem updateDynSignature_tyBounded {p : Ident} (h : p ∈ traitGenerics ++ ["Self"]) :
    TyBounded (DynMethod.updateDynSignature crate traitGenerics sig rpit storage) p := by
  refine ⟨[.lifetime dynLt], ?_, List.mem_singleton_self _⟩
  simp only [DynMethod.updateDynSignature, Generics.extendWhere, Option.getD_some,
    List.mem_append, List.mem_map]
  exact Or.inr ⟨p, List.mem_append.mp h, rfl⟩

theorem updateDynSignature_lifetimes :
    (DynMethod.updateDynSignature crate traitGenerics sig rpit storage).generics.lifetimes =
      ⟨dynLt, []⟩ ::
        sig.generics.lifetimes.map (CapturedLifetimes.new rpit sig.generics).visitLifetimeParam := by
  simp only [DynMethod.updateDynSignature, Generics.lifetimes, Generics.extendWhere,
    List.filterMap_cons, List.filterMap_map, List.map_filterMap]
  congr 2
  funext p
  cases p <;> rfl

theorem visitLifetimeParam_lifetime (captured : CapturedLifetimes) (p : LifetimeParam) :
    (captured.visitLifetimeParam p).lifetime = p.lifetime := by
  unfold CapturedLifetimes.visitLifetimeParam
  split <;> rfl

theorem mem_visitLifetimeParam_bounds (captured : CapturedLifetimes) (p : LifetimeParam)
    (l : Lifetime) : l ∈ (captured.visitLifetimeParam p).bounds ↔
      l ∈ p.bounds ∨ l = dynLt ∧ p.lifetime ∈ captured.captured := by
  unfold CapturedLifetimes.visitLifetimeParam
  split <;> simp_all

/-- What is declared after the rewriting. -/
theorem updateDynSignature_declares {l l' : Lifetime} :
    Declares (DynMethod.updateDynSignature crate traitGenerics sig rpit storage).generics l l' ↔
      Declares sig.generics l l' ∨ l' = dynLt ∧ l ∈ sig.generics.lifetimes.map (·.lifetime) ∧
        Captures rpit sig.generics l := by
  have hclause : ∀ bounds, .lifetime l bounds ∈ (DynMethod.updateDynSignature crate traitGenerics
      sig rpit storage).generics.whereClause.getD [] ↔
        .lifetime l bounds ∈ sig.generics.whereClause.getD [] := by
    simp [DynMethod.updateDynSignature, Generics.extendWhere]
  have hparam : (∃ q ∈ (⟨dynLt, []⟩ :: sig.generics.lifetimes.map
        (CapturedLifetimes.new rpit sig.generics).visitLifetimeParam : List LifetimeParam),
      q.lifetime = l ∧ l' ∈ q.bounds) ↔
        ∃ p ∈ sig.generics.lifetimes, p.lifetime = l ∧ (l' ∈ p.bounds ∨
          l' = dynLt ∧ Captures rpit sig.generics p.lifetime) := by
    simp [visitLifetimeParam_lifetime, mem_visitLifetimeParam_bounds, mem_captured]
  simp only [Declares, updateDynSignature_lifetimes, hclause, hparam, List.mem_map]
  constructor
  · rintro (⟨p, hp, rfl, hb | ⟨hd, hc⟩⟩ | hw)
    · exact Or.inl (Or.inl ⟨p, hp, rfl, hb⟩)
    · exact Or.inr ⟨hd, ⟨p, hp, rfl⟩, hc⟩
    · exact Or.inl (Or.inr hw)
  · rintro ((⟨p, hp, rfl, hb⟩ | hw) | ⟨hd, ⟨p, hp, rfl⟩, hc⟩)
    · exact Or.inl ⟨p, hp, rfl, Or.inl hb⟩
    · exact Or.inr hw
    · exact Or.inl ⟨p, hp, rfl, Or.inr ⟨hd, hc⟩⟩

/-- Which lifetimes are bounded after the rewriting. -/
theorem updateDynSignature_bounded {l : Lifetime} :
    Bounded (DynMethod.updateDynSignature crate traitGenerics sig rpit storage) l ↔
      Bounded sig l ∨ l ∈ sig.generics.lifetimes.map (·.lifetime) ∧
        Captures rpit sig.generics l := by
  simp [Bounded, updateDynSignature_declares]

section
variable {K : Implied} {trait : Generics}

theorem Outlives.head {l l' : Lifetime} (h : Longer K trait sig l l')
    (h' : Outlives K trait sig l') : Outlives K trait sig l := by
  obtain ⟨m, hm, hd⟩ := h'
  exact ⟨m, hm.head h, hd⟩

theorem outlives_dynLt : Outlives K trait sig dynLt := ⟨_, .refl, Or.inl rfl⟩

theorem Covered.head {l l' : Lifetime} (h : Longer K trait sig l l')
    (h' : Covered K trait sig rpit l') : Covered K trait sig rpit l := by
  obtain ⟨m, hm, hd⟩ := h'
  exact ⟨m, hm.head h, hd⟩

theorem covered_of_grounded {l : Lifetime} (h : Grounded sig rpit l) :
    Covered K trait sig rpit l := ⟨l, .refl, h⟩

/-- What is elided is covered where it is captured. -/
theorem covered_defaultLt (h : defaultLt ∈ (CapturedLifetimes.new rpit sig.generics).captured) :
    Covered K trait sig rpit defaultLt :=
  covered_of_grounded (Or.inr (Or.inr ⟨mem_captured.mp h, Or.inl rfl⟩))

/-- A lifetime that outlives `'__dyn` after the rewriting was covered before. -/
theorem covered_of_outlives {l : Lifetime}
    (h : Outlives K trait (DynMethod.updateDynSignature crate traitGenerics sig rpit storage)
      ((CapturedLifetimes.new rpit sig.generics).visitLifetime l)) :
    Covered K trait sig rpit l := by
  obtain ⟨l', hl, hl'⟩ := h
  generalize hx : (CapturedLifetimes.new rpit sig.generics).visitLifetime l = x at hl
  induction hl using Relation.ReflTransGen.head_induction_on generalizing l with
  | refl =>
    rcases visitLifetime_eq.mp hx with ⟨rfl, hc, -⟩ | ⟨rfl, -⟩
    · exact covered_defaultLt hc
    · exact covered_of_grounded (hl'.imp_right Or.inl)
  | @head x y hxy hy ih =>
    rcases visitLifetime_eq.mp hx with ⟨rfl, hc, -⟩ | ⟨rfl, -⟩
    · exact covered_defaultLt hc
    obtain ⟨hne, ⟨hy', ht | hs⟩ | ⟨t, ht, hlt⟩⟩ := hxy
    · exact .head ⟨hne, Or.inl ⟨hy', Or.inl ht⟩⟩ (ih (visitLifetime_of_ne hy'))
    · rcases updateDynSignature_declares.mp hs with hs | ⟨-, hm, hc⟩
      · exact .head ⟨hne, Or.inl ⟨hy', Or.inr hs⟩⟩ (ih (visitLifetime_of_ne hy'))
      · exact covered_of_grounded (Or.inr (Or.inr ⟨hc, Or.inr hm⟩))
    · rw [DynMethod.updateDynSignature_typedInputs, List.mem_map] at ht
      obtain ⟨t, ht, rfl⟩ := ht
      obtain ⟨m, m', hmm, hm, hm'⟩ := (K.lifetime_visit _ t _ _).mp hlt
      rcases visitLifetime_eq.mp hm with ⟨-, -, hd⟩ | ⟨rfl, -⟩
      · exact covered_of_grounded (Or.inl hd)
      · exact .head ⟨hne, Or.inr ⟨t, ht, hmm⟩⟩ (ih hm')

/-- A lifetime that is covered outlives `'__dyn` after the rewriting. -/
theorem outlives_of_covered {l : Lifetime} (h : Covered K trait sig rpit l) :
    Outlives K trait (DynMethod.updateDynSignature crate traitGenerics sig rpit storage)
      ((CapturedLifetimes.new rpit sig.generics).visitLifetime l) := by
  obtain ⟨l', hl, hl'⟩ := h
  induction hl using Relation.ReflTransGen.head_induction_on with
  | refl =>
    rcases hl' with rfl | rfl | ⟨hc, hl'⟩
    · rw [visitLifetime_of_ne dynLt_ne_defaultLt]
      exact outlives_dynLt
    · rw [visitLifetime_of_ne (by decide)]
      exact ⟨_, .refl, Or.inr rfl⟩
    · by_cases hd : l' = defaultLt
      · rw [hd] at hc ⊢
        rw [visitLifetime_defaultLt.mpr (mem_captured.mpr hc)]
        exact outlives_dynLt
      · rw [visitLifetime_of_ne hd]
        refine .head ⟨hd, Or.inl ⟨dynLt_ne_defaultLt, Or.inr ?_⟩⟩ outlives_dynLt
        exact updateDynSignature_declares.mpr (Or.inr ⟨rfl, hl'.resolve_left hd, hc⟩)
  | head hxy hy ih =>
    obtain ⟨hne, ⟨hy', hd⟩ | ⟨t, ht, hlt⟩⟩ := hxy
    · rw [visitLifetime_of_ne hy'] at ih
      rw [visitLifetime_of_ne hne]
      exact .head ⟨hne, Or.inl ⟨hy', hd.imp_right fun hs =>
        updateDynSignature_declares.mpr (Or.inl hs)⟩⟩ ih
    · refine .head ⟨by rwa [visitLifetime_of_ne hne], Or.inr ⟨_, ?_, (K.lifetime_visit _ t _ _).mpr
        ⟨_, _, hlt, rfl, rfl⟩⟩⟩ ih
      rw [DynMethod.updateDynSignature_typedInputs]
      exact List.mem_map.mpr ⟨t, ht, rfl⟩

theorem outlives_iff {l : Lifetime} :
    Outlives K trait (DynMethod.updateDynSignature crate traitGenerics sig rpit storage)
      ((CapturedLifetimes.new rpit sig.generics).visitLifetime l) ↔ Covered K trait sig rpit l :=
  ⟨covered_of_outlives, outlives_of_covered⟩

/-- A bound on an `impl Trait` implies after the rewriting what it did before, rewritten. -/
theorem exists_bound_visited {captured : CapturedLifetimes} {bounds : List TypeParamBound}
    {l : Lifetime} : (∃ b ∈ captured.visitor.bounds 0 bounds, K.bound b l) ↔
      ∃ m, (∃ b ∈ bounds, K.bound b m) ∧ captured.visitLifetime m = l := by
  induction bounds with
  | nil => simp [VisitMut.bounds]
  | cons b bs ih =>
    simp only [VisitMut.bounds, List.exists_mem_cons_iff, ih, K.bound_visit, or_and_right,
      exists_or]

/-- Each `impl Trait` outlives `'__dyn` after the rewriting where it outlived a lifetime that is
covered. -/
theorem implTraitsOutlive_iff :
    ImplTraitsOutlive K (DynMethod.updateDynSignature crate traitGenerics sig rpit storage)
        (Outlives K trait (DynMethod.updateDynSignature crate traitGenerics sig rpit storage)) ↔
      ImplTraitsOutlive K sig (Covered K trait sig rpit) := by
  simp only [ImplTraitsOutlive, DynMethod.updateDynSignature_typedInputs, List.forall_mem_map,
    implTraits_ty, List.getElem?_map, Option.map_eq_some_iff, forall_exists_index, and_imp,
    forall_apply_eq_imp_iff₂, K.implTrait_visit, exists_bound_visited]
  refine forall₄_congr fun t ht i bounds => imp_congr_right fun hi => ?_
  constructor
  · rintro ⟨l, ⟨m, hm, rfl⟩ | ⟨m, hm, rfl⟩, hl⟩
    · exact ⟨m, Or.inl hm, outlives_iff.mp hl⟩
    · exact ⟨m, Or.inr hm, outlives_iff.mp hl⟩
  · rintro ⟨m, hm | hm, hl⟩
    · exact ⟨_, Or.inl ⟨m, hm, rfl⟩, outlives_iff.mpr hl⟩
    · exact ⟨_, Or.inr ⟨m, hm, rfl⟩, outlives_iff.mpr hl⟩

end

/-- Nothing elided is left where everything elided is captured. -/
theorem not_elided_visited {captured : CapturedLifetimes} (h : defaultLt ∈ captured.captured)
    (ns : List (ℕ × Node)) : ¬ Elided (ns.map captured.visitor.node) := by
  have hl : ∀ l, captured.visitLifetime l ≠ defaultLt := by
    intro l hl
    unfold CapturedLifetimes.visitLifetime at hl
    split at hl
    · simp [dynLt, defaultLt] at hl
    · simp_all
  simp only [Elided, List.mem_map]
  rintro (⟨⟨d, n⟩, -, hn⟩ | ⟨⟨d, n⟩, -, hn⟩ | ⟨⟨d, n⟩, -, hn⟩) <;> cases n <;>
    simp_all [VisitMut.node, CapturedLifetimes.visitor]

theorem receiverNodes_visited :
    receiverNodes (DynMethod.updateDynSignature crate traitGenerics sig rpit storage) =
      (receiverNodes sig).map (CapturedLifetimes.new rpit sig.generics).visitor.node := by
  simp only [receiverNodes, DynMethod.updateDynSignature_receiver]
  cases sig.receiver with
  | none => rfl
  | some r =>
    cases hr : r.reference <;>
      simp [CapturedLifetimes.visitReceiver, hr, VisitMut.nodes_ty, VisitMut.node,
        CapturedLifetimes.visitor]

theorem inputNodes_visited :
    inputNodes (DynMethod.updateDynSignature crate traitGenerics sig rpit storage) =
      (inputNodes sig).map (CapturedLifetimes.new rpit sig.generics).visitor.node := by
  simp [inputNodes, List.flatMap_map, List.map_flatMap, VisitMut.nodes_ty]

/-- The elided lifetimes that are captured are all replaced. -/
theorem not_elided_updateDynSignature : ¬ Elided (elidedNodes
    (DynMethod.updateDynSignature crate traitGenerics sig rpit storage) rpit) := by
  unfold elidedNodes
  rw [receiverNodes_visited, inputNodes_visited, ← List.map_append]
  cases hp : preciseCapture rpit with
  | none =>
    exact not_elided_visited (mem_captured.mpr (by simp [Captures, hp])) _
  | some params =>
    by_cases hd : .lifetime defaultLt ∈ params
    · simp only [hd, if_true]
      exact not_elided_visited (mem_captured.mpr (by simp [Captures, hp, hd])) _
    · simp [hd, Elided]

section
variable {K : Implied} {trait : Generics}

/-- What the macro sees as captured is captured. -/
theorem capturesNamed_of_captures {l : Lifetime}
    (hl : l ∈ sig.generics.lifetimes.map (·.lifetime)) (hc : Captures rpit sig.generics l) :
    CapturesNamed sig rpit l := by
  refine ⟨hl, ?_⟩
  cases hu : preciseCapture rpit with
  | none => trivial
  | some params => exact Or.inl (by simpa [Captures, hu] using hc)

/-- The named lifetimes that are captured, as far as the macro sees them. -/
theorem capturesNamed_covered (hp : ∀ params, preciseCapture rpit = some params →
      .lifetime defaultLt ∈ params → ∀ l ∈ sig.generics.lifetimes.map (·.lifetime),
        receiverLifetime sig = some l → Covered K trait sig rpit l)
    {l : Lifetime} (h : CapturesNamed sig rpit l) : Covered K trait sig rpit l := by
  obtain ⟨hl, hc⟩ := h
  cases hu : preciseCapture rpit with
  | none =>
    exact covered_of_grounded (Or.inr (Or.inr ⟨by simp [Captures, hu, hl], Or.inr hl⟩))
  | some params =>
    simp only [hu] at hc
    rcases hc with hc | ⟨hd, hr⟩
    · exact covered_of_grounded (Or.inr (Or.inr ⟨by simp [Captures, hu, hc], Or.inr hl⟩))
    · exact hp params hu hd l hl hr

/-- `'_` aside, the lifetimes keep their names. -/
theorem outlives_iff_of_ne {l : Lifetime} (h : l ≠ defaultLt) :
    Outlives K trait (DynMethod.updateDynSignature crate traitGenerics sig rpit storage) l ↔
      Covered K trait sig rpit l := by
  rw [← outlives_iff, visitLifetime_of_ne h]

variable (K trait) in
theorem updateDynSignature_complete :
    CaptureComplete K trait sig rpit
        (DynMethod.updateDynSignature crate trait.typeParams sig rpit storage) ↔
      Coverable K trait sig rpit := by
  simp only [CaptureComplete, Coverable, implTraitsOutlive_iff, not_elided_updateDynSignature,
    not_false_eq_true, and_true]
  constructor
  · rintro ⟨-, hs | ⟨hl, hi⟩⟩
    · exact Or.inl hs
    · refine Or.inr ⟨fun l ht hne => (outlives_iff_of_ne hne).mp (hl l hne (Or.inl ht)), hi, ?_⟩
      intro params hp hd l hm hr
      by_cases hne : l = defaultLt
      · exact covered_of_grounded (Or.inr (Or.inr ⟨by simp [Captures, hp, hd, hne], Or.inl hne⟩))
      · exact (outlives_iff_of_ne hne).mp (hl l hne (Or.inr ⟨hm, by simp [hp, hd, hr]⟩))
  · intro h
    refine ⟨fun p hp => updateDynSignature_tyBounded hp, ?_⟩
    rcases h with hs | ⟨ht, hi, hp⟩
    · exact Or.inl hs
    · refine Or.inr ⟨fun l hne hl => (outlives_iff_of_ne hne).mpr ?_, hi⟩
      rcases hl with hl | hl
      · exact ht l hl hne
      · exact capturesNamed_covered hp hl

end

end

/-- The conversion of async methods leaves receivers and generics in place. -/
theorem captureComplete_convertAsync (K : Implied) (trait : Generics) (sig : Signature)
    (rpit : List TypeParamBound) (generated : Signature) :
    CaptureComplete K trait (DynMethod.convertAsync sig) rpit generated ↔
      CaptureComplete K trait sig rpit generated := by
  simp [CaptureComplete, CapturesNamed, receiverLifetime]

theorem coverable_convertAsync (K : Implied) (trait : Generics) (sig : Signature)
    (rpit : List TypeParamBound) :
    Coverable K trait (DynMethod.convertAsync sig) rpit ↔ Coverable K trait sig rpit := by
  have hl : Longer K trait (DynMethod.convertAsync sig) = Longer K trait sig := by
    funext l l'
    simp [Longer]
  simp [Coverable, Covered, Grounded, hl, ImplTraitsOutlive, receiverLifetime]

/-- In the trait that `dyn_trait` generates, what a method captures outlives `'__dyn`
exactly if its lifetimes and its `impl Trait`s can be covered. -/
theorem captureComplete_iff_coverable {casing : Casing} {trait : ItemTrait} {opts : DynTraitOpts}
    {out : DynTraitOutput} (h : dynTraitImpl casing trait opts = .ok out)
    (K : Implied) {method : TraitItemFn} (hm : .fn method ∈ trait.items)
    (hd : isDispatchable method = true) {rpit : List TypeParamBound}
    (hr : returnImplTrait (DynMethod.convertAsync method.sig) = some rpit) :
    ∃ g, .fn g ∈ out.dynTrait.items ∧ g.sig.ident = method.sig.ident ∧
      (CaptureComplete K trait.generics method.sig rpit g.sig ↔
        Coverable K trait.generics method.sig rpit) := by
  obtain ⟨crate, storage, g, output, hg, hsig, -⟩ := dynTraitImpl_method h hm hd hr
  refine ⟨g, hg, by rw [hsig]; exact DynMethod.convertAsync_ident method.sig, ?_⟩
  have hoff : CaptureComplete K trait.generics method.sig rpit g.sig ↔
      CaptureComplete K trait.generics method.sig rpit
        (DynMethod.updateDynSignature crate trait.generics.typeParams
          (DynMethod.convertAsync method.sig) rpit storage) := by
    rw [hsig]
    exact Iff.rfl
  rw [hoff, ← captureComplete_convertAsync, updateDynSignature_complete, coverable_convertAsync]

/-- What is known where types and traits imply nothing but what is written. -/
def Implied.written : Implied where
  bound b l := b = .lifetime l
  lifetime _ _ _ := False
  implTrait _ _ _ := False
  bound_lifetime l l' := by simp
  bound_visit captured b l := by
    cases b <;> simp [VisitMut.bound, CapturedLifetimes.visitor]
  lifetime_visit := by simp
  implTrait_visit := by simp

/-- `async fn lend(&self, #args);` -/
def lend (args : List FnArg) : TraitItemFn where
  attrs := []
  sig := {
    asyncness := true
    unsafety := false
    ident := "lend"
    generics := ⟨[], none⟩
    inputs := .receiver ⟨some none, false, false, .reference none false (.ofIdent "Self")⟩ :: args
    output := .default }
  default := none

/-- `trait Lend<#params> { async fn lend(&self, #args); }` -/
def lender (params : List GenericParam) (args : List FnArg) : ItemTrait where
  attrs := []
  unsafety := false
  ident := "Lend"
  generics := ⟨params, none⟩
  colon := false
  supertraits := []
  items := [.fn (lend args)]

/-- What `lend` returns. -/
def lendBounds : List TypeParamBound :=
  [.trait false [] false [.mk "Future" (.angleBracketed [.assocType "Output" [] (.tuple [])])]]

/-- `arg: impl Debug + #bounds` -/
def argDebug (bounds : List TypeParamBound) : FnArg :=
  .typed (.ident false false "arg" none)
    (.implTrait (.trait false [] false [.plain "Debug"] :: bounds))

/-- A type parameter of the trait is covered, and an `impl Debug + '_`. -/
theorem captureComplete_iff_coverable_type : ∃ out g,
    dynTraitImpl .ascii (lender [.type "T" [] none] [argDebug [.lifetime defaultLt]]) {} = .ok out ∧
      .fn g ∈ out.dynTrait.items ∧ CaptureComplete .written ⟨[.type "T" [] none], none⟩
        (lend [argDebug [.lifetime defaultLt]]).sig lendBounds g.sig := by
  obtain ⟨out, h⟩ : ∃ out, dynTraitImpl .ascii
      (lender [.type "T" [] none] [argDebug [.lifetime defaultLt]]) {} = .ok out := ⟨_, rfl⟩
  have hm : .fn (lend [argDebug [.lifetime defaultLt]]) ∈
      (lender [.type "T" [] none] [argDebug [.lifetime defaultLt]]).items :=
    List.mem_singleton_self _
  obtain ⟨g, hg, -, hc⟩ := captureComplete_iff_coverable h .written hm rfl
    (rfl : _ = some lendBounds)
  refine ⟨out, g, h, hg, hc.mpr (Or.inr ⟨?_, ?_, ?_⟩)⟩
  · simp [lender, Generics.lifetimes]
  · intro t ht i bounds hi
    obtain rfl := List.mem_singleton.mp ht
    cases i with
    | zero =>
      obtain rfl := Option.some.inj hi
      refine ⟨defaultLt, Or.inr ⟨_, List.mem_cons_of_mem _ (List.mem_singleton_self _), rfl⟩, ?_⟩
      exact covered_of_grounded (Or.inr (Or.inr ⟨Or.inr rfl, Or.inl rfl⟩))
    | succ i => cases hi
  · simp [lendBounds, preciseCapture]

/-- A lifetime of the trait is captured, but not bounded. -/
theorem lend_not_complete : ¬ ∀ (casing : Casing) (trait : ItemTrait) (opts : DynTraitOpts)
    (out : DynTraitOutput), dynTraitImpl casing trait opts = .ok out →
    ∀ (K : Implied) (method : TraitItemFn), .fn method ∈ trait.items →
      isDispatchable method = true → ∀ rpit,
        returnImplTrait (DynMethod.convertAsync method.sig) = some rpit →
          ∃ g, .fn g ∈ out.dynTrait.items ∧ g.sig.ident = method.sig.ident ∧
            CaptureComplete K trait.generics method.sig rpit g.sig := by
  intro h
  obtain ⟨g, hg, -, hc⟩ := h .ascii (lender [.lifetime ⟨⟨"a"⟩, []⟩] []) {} _ rfl
    .written (lend []) (List.mem_singleton_self _) rfl lendBounds rfl
  obtain rfl := TraitItem.fn.inj (List.mem_singleton.mp hg)
  have hc := (captureComplete_convertAsync ..).mpr hc
  rcases (updateDynSignature_complete ..).mp hc with hs | ⟨ht, -⟩
  · simp [ImpliesStatic, lendBounds, Implied.written] at hs
  · obtain ⟨l, hl, hg⟩ := ht ⟨"a"⟩ (by simp [lender, Generics.lifetimes]) (by decide)
    -- No bound is declared, so the chain ends at `'a`.
    have hlast : ∀ l', ¬ Longer .written (lender [.lifetime ⟨⟨"a"⟩, []⟩] []).generics
        (DynMethod.convertAsync (lend []).sig) ⟨"a"⟩ l' := by
      simp [Longer, Declares, lender, lend, Generics.lifetimes, Implied.written]
    rcases hl.cases_head with rfl | ⟨m, hm, -⟩
    · revert hg
      simp [Grounded, dynLt, staticLt, defaultLt, lend, Generics.lifetimes]
    · exact hlast m hm

end DynUtils.Macros.Captures
