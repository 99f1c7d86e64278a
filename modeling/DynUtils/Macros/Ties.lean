import DynUtils.Lib.Regions
import DynUtils.Macros.Acceptance
import DynUtils.Macros.Captures

/-! What the returned object is tied to, against what the opaque type is tied to. -/
namespace DynUtils.Macros.Ties

open Syn Captures Regions

/-- The lifetime is omitted, or written as `'_`. -/
def IsElided : Node → Prop
  | .lifetime l => l = defaultLt
  | .reference l => l.getD defaultLt = defaultLt
  | .lifetimeParam _ | .path _ _ | .implTrait => False

def IsDyn : Node → Prop
  | .lifetime l => l = dynLt
  | .reference l => l = some dynLt
  | .lifetimeParam _ | .path _ _ | .implTrait => False

/-- What is elided becomes `'__dyn` only where it is a lifetime of the method, which no
binder in the type introduces, and captured. -/
def Justified (captured : Prop) (n n' : ℕ × Node) : Prop :=
  IsElided n.2 → IsDyn n'.2 → n.1 = 0 ∧ captured

/-- The reference to `Self` that the receiver is. In the short forms the type says it
once more. -/
def ownNodes (r : Receiver) : List (ℕ × Node) :=
  match r.reference with
  | some l => (0, .reference l) :: r.ty.nodes 0 .type
  | none => (pinnedRef r.ty).toList.map fun ref => (0, .reference ref.lifetime)

def aroundPin (segments : List PathSegment) : List (ℕ × Node) :=
  nodesSegments 0 segments.dropLast ++
    match segments.getLast? with
    | some (.mk _ (.angleBracketed (_ :: args))) => nodesArgs 0 args
    | _ => []

/-- What stands around the reference to `Self` in the type of the receiver. -/
def aroundNodes (r : Receiver) : List (ℕ × Node) :=
  match r.reference, r.ty with
  | none, .path _ segments => aroundPin segments
  | none, .qpath qself _ _ segments => qself.nodes 0 .qself ++ aroundPin segments
  | _, _ => []

def ownInputs (sig : Signature) : List (ℕ × Node) := sig.receiver.toList.flatMap ownNodes

def otherInputs (sig : Signature) : List (ℕ × Node) :=
  sig.receiver.toList.flatMap aroundNodes ++ inputNodes sig

/-- The first argument of `#ident<..>` -/
def argument (ident : Ident) (ty : Ty) : Option Ty := do
  let segment ← lastSegment (← ty.pathSegments) ident
  match segment.arguments with
  | .angleBracketed (.type ty :: _) => some ty
  | _ => none

/-- The `dyn` type in the output, which may be in a `MaybeSync`. -/
def returned (sig : Signature) : Option Ty := do
  let ty ← returnType sig
  argument "DynObject" ((argument "MaybeSync" ty).getD ty)

/-- The lifetime that is meant by one that is written on the impl trait. -/
def meant (sig : Signature) (b : Lifetime) : Option Lifetime :=
  if b = defaultLt then receiverLifetime sig else some b

/-! Which lifetimes the caller gives, and at which variance. -/

/-- What the caller gives: a lifetime by its name, an elided one by its place, or the lifetimes in
a type parameter. -/
inductive Given
  | named (l : Lifetime)
  | elided (i : ℕ)
  | type (p : Ident)

/-- What the compiler knows by the declarations of types and traits. -/
structure Inferred where
  /-- The variance of an argument, by its index, of what a path names. -/
  variance : List Ident → ℕ → Variance
  /-- One outlives the other, by a bound, or else the parameters have no well-formed types. -/
  outlives : Given → Given → Prop
  /-- What has this bound outlives the lifetime, by a supertrait. -/
  bound : TypeParamBound → Lifetime → Prop
  /-- What the result captures and also needs: all of it, unless the result is known to outlive
  some other lifetime, as with `+ '_`. -/
  needed : Given → Prop

section
variable (variance : List Ident → ℕ → Variance)

mutual

/-- The lifetimes in a type that itself stands where the variance is `v`, each with the variance
and the number of binders around it. -/
def lifetimes (v : Variance) (d : ℕ) : Ty → List (Variance × ℕ × Lifetime)
  | .array elem _ | .paren elem | .slice elem => lifetimes v d elem
  | .bareFn _ _ inputs output =>
    lifetimesTys (Variance.contravariant.comp v) (d + 1) inputs ++ lifetimesReturn v (d + 1) output
  | .implTrait bounds | .traitObject bounds => lifetimesBounds v d bounds
  | .never => []
  | .path _ segments => lifetimesSegments v d [] segments
  -- A projection can be any type.
  | .qpath qself _ _ segments =>
    lifetimes .invariant d qself ++ lifetimesSegments .invariant d [] segments
  | .ptr mutability elem => lifetimes (if mutability then .invariant else v) d elem
  | .reference lifetime mutability elem =>
    (v, d, lifetime.getD defaultLt) :: lifetimes (if mutability then .invariant else v) d elem
  | .tuple elems => lifetimesTys v d elems

def lifetimesTys (v : Variance) (d : ℕ) : List Ty → List (Variance × ℕ × Lifetime)
  | [] => []
  | t :: ts => lifetimes v d t ++ lifetimesTys v d ts

def lifetimesReturn (v : Variance) (d : ℕ) : ReturnType → List (Variance × ℕ × Lifetime)
  | .default => []
  | .type t => lifetimes v d t

def lifetimesSegments (v : Variance) (d : ℕ) (before : List Ident) :
    List PathSegment → List (Variance × ℕ × Lifetime)
  | [] => []
  | .mk ident arguments :: ss =>
    lifetimesArguments (fun i => v.comp (variance (before ++ [ident]) i)) d arguments ++
      lifetimesSegments v d (before ++ [ident]) ss

def lifetimesArguments (vs : ℕ → Variance) (d : ℕ) :
    PathArguments → List (Variance × ℕ × Lifetime)
  | .none => []
  | .angleBracketed args => lifetimesArgs vs d args
  | .parenthesized inputs output =>
    lifetimesTys .invariant (d + 1) inputs ++ lifetimesReturn .invariant (d + 1) output

def lifetimesArgs (vs : ℕ → Variance) (d : ℕ) :
    List GenericArgument → List (Variance × ℕ × Lifetime)
  | [] => []
  | .lifetime l :: as => (vs 0, d, l) :: lifetimesArgs (fun i => vs (i + 1)) d as
  | .type t :: as => lifetimes (vs 0) d t ++ lifetimesArgs (fun i => vs (i + 1)) d as
  | .const _ :: as => lifetimesArgs (fun i => vs (i + 1)) d as
  | .assocType _ generics t :: as =>
    lifetimesArgs (fun _ => .invariant) d generics ++ lifetimes .invariant d t ++
      lifetimesArgs (fun i => vs (i + 1)) d as
  | .constraint _ generics bounds :: as =>
    lifetimesArgs (fun _ => .invariant) d generics ++ lifetimesBounds .invariant d bounds ++
      lifetimesArgs (fun i => vs (i + 1)) d as

/-- The arguments of a trait are invariant, in a trait object as on a type parameter. -/
def lifetimesBounds (v : Variance) (d : ℕ) :
    List TypeParamBound → List (Variance × ℕ × Lifetime)
  | [] => []
  | .trait _ _ _ segments :: bs =>
    lifetimesSegments .invariant d [] segments ++ lifetimesBounds v d bs
  | .lifetime l :: bs => (v, d, l) :: lifetimesBounds v d bs
  | .preciseCapture _ :: bs => lifetimesBounds v d bs

end

/-- The lifetime of the reference to `Self`. -/
def receiverLifetimes (r : Receiver) : List (Variance × ℕ × Lifetime) :=
  match r.reference with
  | some l => [(.covariant, 0, l.getD defaultLt)]
  | none => (pinnedRef r.ty).toList.map fun ref =>
    (.covariant, 0, ref.lifetime.getD defaultLt)

def inputLifetimes (sig : Signature) : List (Variance × ℕ × Lifetime) :=
  sig.receiver.toList.flatMap receiverLifetimes ++
    sig.typedInputs.flatMap (lifetimes variance .covariant 0)

end

/-- What is known in the original. -/
inductive Known (I : Inferred) (trait : Generics) (sig : Signature) : Given → Given → Prop
  | inferred {a b : Given} (h : I.outlives a b) : Known I trait sig a b
  | trait {l l' : Lifetime} (h : Declares trait l l') : Known I trait sig (.named l) (.named l')
  | method {l l' : Lifetime} (h : Declares sig.generics l l') :
    Known I trait sig (.named l) (.named l')

/-- What is alive as long as the result is: what the return type captures and needs. That `'_` in
`use<..>` is the receiver's only is what `TiesCaptured.other` is about. -/
def alive (I : Inferred) (trait : Generics) (sig : Signature) (rpit : List TypeParamBound) :
    Set Given :=
  {a | I.needed a ∧ match a with
    | .named l => l ∈ trait.lifetimes.map (·.lifetime) ∨ CapturesNamed sig rpit l
    | .elided _ => Captures rpit sig.generics defaultLt
    | .type p => p ∈ trait.typeParams ++ ["Self"]}

/-- What `'__dyn` is in the place of, or bounds, in the generated signature. -/
def uses (I : Inferred) (sig generated : Signature) : Set (Variance × Given) :=
  {u | match u.2 with
    | .named l => u.1 = .covariant ∧ Bounded generated l ∧ ¬ Bounded sig l
    | .elided i => (inputLifetimes I.variance sig)[i]? = some (u.1, 0, defaultLt) ∧
        ∃ v d, (inputLifetimes I.variance generated)[i]? = some (v, d, dynLt)
    | .type p => u.1 = .covariant ∧ TyBounded generated p ∧ ¬ TyBounded sig p}

/-- The return type outlives `b`, by its bounds or by their supertraits. -/
def Outlived (I : Inferred) (rpit : List TypeParamBound) (b : Lifetime) : Prop :=
  .lifetime b ∈ rpit ∨ ∃ c ∈ rpit, I.bound c b

/-- The generated signature ties what is returned to nothing but what the return type
captures, nor this to each other, and keeps the lifetimes that the return type outlives. -/
@[mk_iff]
structure TiesCaptured (I : Inferred) (trait : Generics) (sig : Signature)
    (rpit : List TypeParamBound) (generated : Signature) : Prop where
  /-- `'_` in `use<..>` is the lifetime of the receiver. -/
  own : List.Forall₂ (Justified (Captures rpit sig.generics defaultLt))
    (ownInputs sig) (ownInputs generated)
  /-- Without `use<..>` everything is captured. -/
  other : List.Forall₂ (Justified (preciseCapture rpit = none))
    (otherInputs sig) (otherInputs generated)
  named : ∀ l, Bounded generated l → Bounded sig l ∨ CapturesNamed sig rpit l
  types : ∀ p, TyBounded generated p → TyBounded sig p ∨ p ∈ trait.typeParams ++ ["Self"]
  bounds : ∃ bounds, returned generated = some (.traitObject bounds) ∧
    ∀ b, Outlived I rpit b → ∃ l, meant generated b = some l ∧ .lifetime l ∈ bounds
  /-- With whatever regions the original can be called, there is one for `'__dyn`. -/
  shared : Shareable (Known I trait sig) (alive I trait sig rpit) (uses I sig generated)

/-- The bound is `'_`, for a lifetime of the receiver that is replaced. -/
def Kept (sig : Signature) (rpit : List TypeParamBound) (b : Lifetime) : Prop :=
  b = dynLt ∨ b = defaultLt ∧ (receiverLifetime sig = some dynLt ∨
    (receiverLifetime sig).getD defaultLt = defaultLt ∧ Captures rpit sig.generics defaultLt)

/-- What `'__dyn` is going to be in the place of, or to bound. -/
def shortened (I : Inferred) (trait : Generics) (sig : Signature) (rpit : List TypeParamBound) :
    Set (Variance × Given) :=
  {u | match u.2 with
    | .named l => u.1 = .covariant ∧ (l ∈ sig.generics.lifetimes.map (·.lifetime) ∧
        Captures rpit sig.generics l) ∧ ¬ Bounded sig l
    | .elided i => (inputLifetimes I.variance sig)[i]? = some (u.1, 0, defaultLt) ∧
        Captures rpit sig.generics defaultLt
    | .type p => u.1 = .covariant ∧ p ∈ trait.typeParams ++ ["Self"] ∧ ¬ TyBounded sig p}

/-- Nothing elided is replaced in binders, or, with `use<..>`, apart from the receiver, and there
is no bound but `'_`. What is captured is needed, and what is elided is in covariant places, unless
all else that is captured is known to outlive it. -/
@[mk_iff]
structure Tieable (I : Inferred) (trait : Generics) (sig : Signature)
    (rpit : List TypeParamBound) : Prop where
  outer : Captures rpit sig.generics defaultLt →
    ∀ n ∈ ownInputs sig ++ otherInputs sig, IsElided n.2 → n.1 = 0
  precise : ∀ params, preciseCapture rpit = some params → .lifetime defaultLt ∈ params →
    ∀ n ∈ otherInputs sig, ¬ IsElided n.2
  bounds : ∀ b, Outlived I rpit b → Kept sig rpit b
  shared : ∀ u ∈ shortened I trait sig rpit, u.1 ≠ .contravariant →
    (∃ a ∈ alive I trait sig rpit, Relation.ReflTransGen (Known I trait sig) u.2 a) ∧
      ∀ u' ∈ shortened I trait sig rpit, u'.1 ≠ .covariant →
        Relation.ReflTransGen (Known I trait sig) u.2 u'.2

section
variable {captured : CapturedLifetimes}

theorem visitLifetime_eq_dynLt {l : Lifetime} :
    captured.visitLifetime l = dynLt ↔ l = dynLt ∨ l = defaultLt ∧ defaultLt ∈ captured.captured := by
  by_cases hl : l = defaultLt
  · simp [hl, visitLifetime_defaultLt, dynLt_ne_defaultLt.symm]
  · simp [hl, CapturedLifetimes.visitLifetime]

theorem isDyn_visited {n : ℕ × Node} (h : IsElided n.2) :
    IsDyn (captured.visitor.node n).2 ↔ defaultLt ∈ captured.captured := by
  obtain ⟨d, n⟩ := n
  cases n with
  | lifetime l =>
    obtain rfl : l = defaultLt := h
    exact visitLifetime_defaultLt
  | reference l =>
    have hl : l.getD defaultLt = defaultLt := h
    simp only [VisitMut.node, CapturedLifetimes.visitor, IsDyn, hl, Option.some_inj,
      visitLifetime_defaultLt]
  | lifetimeParam p => exact h.elim
  | path use idents => exact h.elim
  | implTrait => exact h.elim

/-- Node by node, only those that are elided have to be looked at. -/
theorem justified_visited (p : Prop) (ns : List (ℕ × Node)) :
    List.Forall₂ (Justified p) ns (ns.map captured.visitor.node) ↔
      (defaultLt ∈ captured.captured → ∀ n ∈ ns, IsElided n.2 → n.1 = 0 ∧ p) := by
  rw [List.forall₂_map_right_iff, List.forall₂_same]
  constructor
  · intro h hc n hn he
    exact h n hn he ((isDyn_visited he).mpr hc)
  · intro h n hn he hd
    exact h ((isDyn_visited he).mp hd) n hn he

end

section
variable {v : VisitMut} (hv : ∀ i, v.segment i = i)

theorem aroundPin_segments (ss : List PathSegment) :
    aroundPin (v.segments 0 ss) = (aroundPin ss).map v.node := by
  have hdrop : (v.segments 0 ss).dropLast = v.segments 0 ss.dropLast := by
    simp only [Acceptance.segments_eq_map, List.map_dropLast]
  unfold aroundPin
  rw [hdrop, VisitMut.nodes_segments, List.map_append]
  congr 1
  rw [Acceptance.segments_eq_map, List.getLast?_map]
  cases ss.getLast? with
  | none => rfl
  | some s =>
    obtain ⟨ident, arguments⟩ := s
    cases arguments with
    | angleBracketed args =>
      cases args with
      | nil => rfl
      | cons arg args => exact VisitMut.nodes_genericArgs v 0 args
    | _ => rfl

end

variable {sig : Signature} {crate : Path} {traitGenerics : List Ident}
  {rpit : List TypeParamBound} {storage : Ident}

theorem ownNodes_visitReceiver (captured : CapturedLifetimes) (r : Receiver) :
    ownNodes (captured.visitReceiver r) = (ownNodes r).map captured.visitor.node := by
  unfold ownNodes CapturedLifetimes.visitReceiver
  cases r.reference with
  | some l => simp [VisitMut.nodes_ty, VisitMut.node, CapturedLifetimes.visitor]
  | none =>
    rw [Option.map_none, Acceptance.pinnedRef_ty Filtering.visitor_segment]
    cases pinnedRef r.ty <;> simp [VisitMut.node]

theorem aroundNodes_visitReceiver (captured : CapturedLifetimes) (r : Receiver) :
    aroundNodes (captured.visitReceiver r) = (aroundNodes r).map captured.visitor.node := by
  unfold aroundNodes CapturedLifetimes.visitReceiver
  cases r.reference with
  | some l => rfl
  | none =>
    cases r.ty with
    | path leading ss => exact aroundPin_segments ss
    | qpath qself position leading ss =>
      simp [VisitMut.ty, VisitMut.nodes_ty, aroundPin_segments]
    | _ => rfl

theorem ownInputs_visited :
    ownInputs (DynMethod.updateDynSignature crate traitGenerics sig rpit storage) =
      (ownInputs sig).map (CapturedLifetimes.new rpit sig.generics).visitor.node := by
  simp only [ownInputs, DynMethod.updateDynSignature_receiver]
  cases sig.receiver with
  | none => rfl
  | some r => simp [ownNodes_visitReceiver]

theorem otherInputs_visited :
    otherInputs (DynMethod.updateDynSignature crate traitGenerics sig rpit storage) =
      (otherInputs sig).map (CapturedLifetimes.new rpit sig.generics).visitor.node := by
  simp only [otherInputs, DynMethod.updateDynSignature_receiver, inputNodes_visited,
    List.map_append]
  cases sig.receiver with
  | none => rfl
  | some r => simp [aroundNodes_visitReceiver]

section
variable (variance : List Ident → ℕ → Variance) (captured : CapturedLifetimes)

/-- What the visitor does to one of the lifetimes. -/
def visitPlace (p : Variance × ℕ × Lifetime) : Variance × ℕ × Lifetime :=
  (p.1, p.2.1, captured.visitLifetime p.2.2)

theorem visitor_lifetime (d : ℕ) (l : Lifetime) :
    captured.visitor.lifetime d l = captured.visitLifetime l := rfl

theorem visitor_reference (d : ℕ) (l : Option Lifetime) :
    captured.visitor.reference d l = some (captured.visitLifetime (l.getD defaultLt)) := rfl

mutual

/-- All lifetimes stay in their places. -/
theorem lifetimes_ty (v : Variance) (d : ℕ) : ∀ t : Ty,
    lifetimes variance v d (captured.visitor.ty d t) =
      (lifetimes variance v d t).map (visitPlace captured)
  | .array elem _ | .paren elem | .slice elem => by
    simp [VisitMut.ty, lifetimes, lifetimes_ty v d elem]
  | .bareFn _ _ inputs output => by
    simp [VisitMut.ty, lifetimes, lifetimes_tys _ (d + 1) inputs,
      lifetimes_returnType v (d + 1) output]
  | .implTrait bounds | .traitObject bounds => by
    simp [VisitMut.ty, lifetimes, lifetimes_bounds v d bounds]
  | .never => rfl
  | .path _ segments => by simp [VisitMut.ty, lifetimes, lifetimes_segments v d [] segments]
  | .qpath qself _ _ segments => by
    simp [VisitMut.ty, lifetimes, lifetimes_ty .invariant d qself,
      lifetimes_segments .invariant d [] segments]
  | .ptr mutability elem => by simp [VisitMut.ty, lifetimes, lifetimes_ty _ d elem]
  | .reference lifetime mutability elem => by
    simp [VisitMut.ty, lifetimes, lifetimes_ty _ d elem, visitPlace, visitor_reference]
  | .tuple elems => by simp [VisitMut.ty, lifetimes, lifetimes_tys v d elems]

theorem lifetimes_tys (v : Variance) (d : ℕ) : ∀ ts : List Ty,
    lifetimesTys variance v d (captured.visitor.tys d ts) =
      (lifetimesTys variance v d ts).map (visitPlace captured)
  | [] => rfl
  | t :: ts => by simp [VisitMut.tys, lifetimesTys, lifetimes_ty v d t, lifetimes_tys v d ts]

theorem lifetimes_returnType (v : Variance) (d : ℕ) : ∀ r : ReturnType,
    lifetimesReturn variance v d (captured.visitor.returnType d r) =
      (lifetimesReturn variance v d r).map (visitPlace captured)
  | .default => rfl
  | .type t => by simp [VisitMut.returnType, lifetimesReturn, lifetimes_ty v d t]

theorem lifetimes_segments (v : Variance) (d : ℕ) (before : List Ident) :
    ∀ ss : List PathSegment,
      lifetimesSegments variance v d before (captured.visitor.segments d ss) =
        (lifetimesSegments variance v d before ss).map (visitPlace captured)
  | [] => rfl
  | .mk ident arguments :: ss => by
    simp [VisitMut.segments, lifetimesSegments, Filtering.visitor_segment,
      lifetimes_arguments _ d arguments, lifetimes_segments v d (before ++ [ident]) ss]

theorem lifetimes_arguments (vs : ℕ → Variance) (d : ℕ) : ∀ a : PathArguments,
    lifetimesArguments variance vs d (captured.visitor.arguments d a) =
      (lifetimesArguments variance vs d a).map (visitPlace captured)
  | .none => rfl
  | .angleBracketed args => by
    simp [VisitMut.arguments, lifetimesArguments, lifetimes_genericArgs vs d args]
  | .parenthesized inputs output => by
    simp [VisitMut.arguments, lifetimesArguments, lifetimes_tys .invariant (d + 1) inputs,
      lifetimes_returnType .invariant (d + 1) output]

theorem lifetimes_genericArgs (vs : ℕ → Variance) (d : ℕ) : ∀ as : List GenericArgument,
    lifetimesArgs variance vs d (captured.visitor.genericArgs d as) =
      (lifetimesArgs variance vs d as).map (visitPlace captured)
  | [] => rfl
  | .lifetime l :: as => by
    simp [VisitMut.genericArgs, VisitMut.genericArg, lifetimesArgs, visitPlace,
      lifetimes_genericArgs _ d as, visitor_lifetime]
  | .type t :: as => by
    simp [VisitMut.genericArgs, VisitMut.genericArg, lifetimesArgs, lifetimes_ty _ d t,
      lifetimes_genericArgs _ d as]
  | .const _ :: as => by
    simp [VisitMut.genericArgs, VisitMut.genericArg, lifetimesArgs, lifetimes_genericArgs _ d as]
  | .assocType _ generics t :: as => by
    simp [VisitMut.genericArgs, VisitMut.genericArg, lifetimesArgs,
      lifetimes_genericArgs _ d generics, lifetimes_ty .invariant d t,
      lifetimes_genericArgs _ d as]
  | .constraint _ generics bounds :: as => by
    simp [VisitMut.genericArgs, VisitMut.genericArg, lifetimesArgs,
      lifetimes_genericArgs _ d generics, lifetimes_bounds .invariant d bounds,
      lifetimes_genericArgs _ d as]

theorem lifetimes_bounds (v : Variance) (d : ℕ) : ∀ bs : List TypeParamBound,
    lifetimesBounds variance v d (captured.visitor.bounds d bs) =
      (lifetimesBounds variance v d bs).map (visitPlace captured)
  | [] => rfl
  | .trait _ _ _ segments :: bs => by
    simp [VisitMut.bounds, VisitMut.bound, lifetimesBounds,
      lifetimes_segments .invariant d [] segments, lifetimes_bounds v d bs]
  | .lifetime l :: bs => by
    simp [VisitMut.bounds, VisitMut.bound, lifetimesBounds, visitPlace, lifetimes_bounds v d bs,
      visitor_lifetime]
  | .preciseCapture _ :: bs => by
    simp [VisitMut.bounds, VisitMut.bound, lifetimesBounds, lifetimes_bounds v d bs]

end

theorem receiverLifetimes_visitReceiver (r : Receiver) :
    receiverLifetimes (captured.visitReceiver r) =
      (receiverLifetimes r).map (visitPlace captured) := by
  unfold receiverLifetimes CapturedLifetimes.visitReceiver
  cases r.reference with
  | some l => rfl
  | none =>
    rw [Option.map_none, Acceptance.pinnedRef_ty Filtering.visitor_segment]
    cases pinnedRef r.ty <;> rfl

theorem inputLifetimes_visited :
    inputLifetimes variance (DynMethod.updateDynSignature crate traitGenerics sig rpit storage) =
      (inputLifetimes variance sig).map (visitPlace (.new rpit sig.generics)) := by
  simp only [inputLifetimes, DynMethod.updateDynSignature_receiver,
    DynMethod.updateDynSignature_typedInputs, List.map_append, List.flatMap_map, List.map_flatMap,
    lifetimes_ty]
  cases sig.receiver with
  | none => rfl
  | some r => simp [receiverLifetimes_visitReceiver]

end

variable (crate storage) in
/-- The type parameters of the trait and `Self` are bounded, and no others. -/
theorem updateDynSignature_tyBounded_iff {p : Ident} :
    TyBounded (DynMethod.updateDynSignature crate traitGenerics sig rpit storage) p ↔
      TyBounded sig p ∨ p ∈ traitGenerics ++ ["Self"] := by
  constructor
  · rintro ⟨bs, hm, hd⟩
    simp only [DynMethod.updateDynSignature, Generics.extendWhere, Option.getD_some,
      List.mem_append, List.mem_map] at hm
    rcases hm with hm | ⟨q, hq, hm⟩
    · exact Or.inl ⟨bs, hm, hd⟩
    · obtain rfl : q = p := by
        simpa [Ty.ofIdent, PathSegment.plain] using (WherePredicate.type.inj hm).2.1
      exact Or.inr (List.mem_append.mpr hq)
  · rintro (⟨bs, hm, hd⟩ | hp)
    · refine ⟨bs, ?_, hd⟩
      simp only [DynMethod.updateDynSignature, Generics.extendWhere, Option.getD_some,
        List.mem_append]
      exact Or.inl hm
    · exact updateDynSignature_tyBounded hp

variable (sig crate rpit storage) in
/-- What is replaced or bounded is what the macro sees as captured. -/
theorem uses_eq (I : Inferred) (trait : Generics) :
    uses I sig (DynMethod.updateDynSignature crate trait.typeParams sig rpit storage) =
      shortened I trait sig rpit := by
  ext ⟨v, a⟩
  cases a with
  | named l =>
    simp only [uses, shortened, Set.mem_ofPred_eq, updateDynSignature_bounded]
    tauto
  | elided i =>
    simp only [uses, shortened, Set.mem_ofPred_eq, inputLifetimes_visited, List.getElem?_map]
    apply and_congr_right
    intro h
    simp [h, visitPlace, visitLifetime_defaultLt, mem_captured]
  | type p =>
    simp only [uses, shortened, Set.mem_ofPred_eq, updateDynSignature_tyBounded_iff]
    tauto

/-- What the macro sees as captured is captured. -/
theorem mem_alive_of_shortened {I : Inferred} {trait : Generics} {u : Variance × Given}
    (h : u ∈ shortened I trait sig rpit) (hn : I.needed u.2) : u.2 ∈ alive I trait sig rpit := by
  obtain ⟨v, a⟩ := u
  refine ⟨hn, ?_⟩
  cases a with
  | named l => exact Or.inr (capturesNamed_of_captures h.2.1.1 h.2.1.2)
  | elided i => exact h.2
  | type p => exact h.2.1

/-- The lifetime of the receiver is written out. -/
theorem receiverLifetime_visited (h : hasDynTraitReceiver sig = true) :
    receiverLifetime (DynMethod.updateDynSignature crate traitGenerics sig rpit storage) =
      some ((CapturedLifetimes.new rpit sig.generics).visitLifetime
        ((receiverLifetime sig).getD defaultLt)) := by
  simp only [hasDynTraitReceiver] at h
  simp only [receiverLifetime, DynMethod.updateDynSignature_receiver]
  cases hr : sig.receiver with
  | none => simp [hr] at h
  | some r =>
    simp only [hr, Option.any_some, Bool.or_eq_true] at h
    simp only [Option.map_some, Option.bind_some, CapturedLifetimes.visitReceiver]
    cases href : r.reference with
    | some l => rfl
    | none =>
      simp only [href, Option.isSome_none, Bool.false_eq_true, false_or] at h
      obtain ⟨ref, hp⟩ := Option.isSome_iff_exists.mp h
      rw [Option.map_none, Acceptance.pinnedRef_ty Filtering.visitor_segment, hp]
      rfl

theorem argument_withArgs_join {ident : Ident} {ty : Ty} {args : List GenericArgument} :
    argument ident ((crate.join [ident]).withArgs (.type ty :: args)).toTy = some ty := by
  simp [argument, Path.toTy, Ty.pathSegments, lastSegment, Option.filter, PathSegment.ident,
    PathSegment.arguments]

theorem argument_withArgs_join_ne {ident ident' : Ident} (h : ident' ≠ ident)
    {args : List GenericArgument} :
    argument ident ((crate.join [ident']).withArgs args).toTy = none := by
  simp [argument, Path.toTy, Ty.pathSegments, lastSegment, Option.filter, PathSegment.ident, h]

/-- The trait object is found in the output, with or without a `MaybeSync` around it. -/
theorem returned_eq {generated : Signature} {generics : Generics} {output : Ty}
    (h : generated.output = .type output)
    (ho : output = DynMethod.dynOutput crate generics rpit storage ∨
      output = ((crate.join ["MaybeSync"]).withArgs
        [.type (DynMethod.dynOutput crate generics rpit storage)]).toTy) :
    returned generated = some (DynMethod.dynRet (.new rpit generics) rpit) := by
  have hne : "DynObject" ≠ "MaybeSync" := by decide
  rw [returned, mem_returnType.mpr h]
  show argument "DynObject" ((argument "MaybeSync" output).getD output) = _
  rcases ho with rfl | rfl
  · rw [DynMethod.dynOutput, argument_withArgs_join_ne hne, Option.getD_none,
      argument_withArgs_join]
  · rw [argument_withArgs_join, Option.getD_some, DynMethod.dynOutput, argument_withArgs_join]

theorem lifetime_notMem_bounds {v : VisitMut} {bs : List TypeParamBound}
    (h : ∀ b ∈ bs, b.isTrait = true) (l : Lifetime) : .lifetime l ∉ v.bounds 0 bs := by
  induction bs with
  | nil => simp [VisitMut.bounds]
  | cons b bs ih =>
    have hb := h b List.mem_cons_self
    have ih := ih fun c hc => h c (List.mem_cons_of_mem b hc)
    cases b with
    | trait maybe lifetimes leading segments => simpa [VisitMut.bounds, VisitMut.bound] using ih
    | lifetime _ => cases hb
    | preciseCapture _ => cases hb

/-- The lifetime in the generated trait object is `'__dyn`, and no other. -/
theorem mem_dynRet {captured : CapturedLifetimes} {bounds : List TypeParamBound}
    (h : DynMethod.dynRet captured rpit = .traitObject bounds) (l : Lifetime) :
    .lifetime l ∈ bounds ↔ l = dynLt := by
  obtain rfl := Ty.traitObject.inj h
  have hnot : .lifetime l ∉ captured.visitor.bounds 0 (rpit.filter (·.isTrait)) :=
    lifetime_notMem_bounds (by simp) l
  simp [hnot]

variable (crate traitGenerics storage) in
theorem kept_iff (h : hasDynTraitReceiver sig = true) {bounds : List TypeParamBound}
    (hb : DynMethod.dynRet (.new rpit sig.generics) rpit = .traitObject bounds) (b : Lifetime) :
    (∃ l, meant (DynMethod.updateDynSignature crate traitGenerics sig rpit storage) b = some l ∧
        .lifetime l ∈ bounds) ↔ Kept sig rpit b := by
  simp only [mem_dynRet hb, exists_eq_right, meant, Kept, receiverLifetime_visited h]
  by_cases hd : b = defaultLt
  · subst hd
    simp only [if_true, Option.some_inj, visitLifetime_eq_dynLt, mem_captured,
      dynLt_ne_defaultLt.symm, true_and, false_or]
    apply or_congr_left
    cases receiverLifetime sig <;> simp [dynLt_ne_defaultLt.symm]
  · simp [hd]

variable (sig crate traitGenerics rpit storage) in
/-- Which elided lifetimes are replaced, against which are captured. -/
theorem inputs_tied :
    (List.Forall₂ (Justified (Captures rpit sig.generics defaultLt)) (ownInputs sig)
        (ownInputs (DynMethod.updateDynSignature crate traitGenerics sig rpit storage)) ∧
      List.Forall₂ (Justified (preciseCapture rpit = none)) (otherInputs sig)
        (otherInputs (DynMethod.updateDynSignature crate traitGenerics sig rpit storage))) ↔
      (Captures rpit sig.generics defaultLt →
        ∀ n ∈ ownInputs sig ++ otherInputs sig, IsElided n.2 → n.1 = 0) ∧
      ∀ params, preciseCapture rpit = some params → .lifetime defaultLt ∈ params →
        ∀ n ∈ otherInputs sig, ¬ IsElided n.2 := by
  rw [ownInputs_visited, otherInputs_visited, justified_visited, justified_visited, mem_captured]
  constructor
  · rintro ⟨ho, hi⟩
    refine ⟨?_, ?_⟩
    · intro hc n hn he
      rcases List.mem_append.mp hn with hn | hn
      · exact (ho hc n hn he).1
      · exact (hi hc n hn he).1
    · intro params hp hd n hn he
      have hc : Captures rpit sig.generics defaultLt := by simpa [Captures, hp]
      exact absurd (hp.symm.trans (hi hc n hn he).2) (Option.some_ne_none params)
  · rintro ⟨ho, hp⟩
    refine ⟨fun hc n hn he => ⟨ho hc n (List.mem_append_left _ hn) he, hc⟩, ?_⟩
    intro hc n hn he
    refine ⟨ho hc n (List.mem_append_right _ hn) he, ?_⟩
    cases hu : preciseCapture rpit with
    | none => rfl
    | some params =>
      have hd : .lifetime defaultLt ∈ params := by simpa [Captures, hu] using hc
      exact absurd he (hp params hu hd n hn)

variable (sig crate traitGenerics rpit storage) in
theorem named_tied {l : Lifetime}
    (h : Bounded (DynMethod.updateDynSignature crate traitGenerics sig rpit storage) l) :
    Bounded sig l ∨ CapturesNamed sig rpit l := by
  rcases updateDynSignature_bounded.mp h with hl | ⟨hl, hc⟩
  · exact Or.inl hl
  · exact Or.inr (capturesNamed_of_captures hl hc)

theorem updateDynSignature_ties (I : Inferred) (trait : Generics)
    (h : hasDynTraitReceiver sig = true) {output : ReturnType}
    (hr : returned { DynMethod.updateDynSignature crate trait.typeParams sig rpit storage with
      output } = some (DynMethod.dynRet (.new rpit sig.generics) rpit)) :
    TiesCaptured I trait sig rpit
        { DynMethod.updateDynSignature crate trait.typeParams sig rpit storage with output } ↔
      Tieable I trait sig rpit := by
  obtain ⟨bounds, hb⟩ : ∃ bounds,
      DynMethod.dynRet (.new rpit sig.generics) rpit = .traitObject bounds := ⟨_, rfl⟩
  rw [hb] at hr
  have hinputs := inputs_tied sig crate trait.typeParams rpit storage
  have hkept := kept_iff crate trait.typeParams storage h hb
  -- The output has no part in it.
  have huses : uses I sig
      { DynMethod.updateDynSignature crate trait.typeParams sig rpit storage with output } =
        shortened I trait sig rpit := uses_eq sig crate rpit storage I trait
  constructor
  · rintro ⟨ho, hi, -, -, ⟨bounds', hr', hk⟩, hs⟩
    obtain rfl : bounds' = bounds := by simpa using hr'.symm.trans hr
    obtain ⟨houter, hprecise⟩ := hinputs.mp ⟨ho, hi⟩
    rw [huses] at hs
    exact ⟨houter, hprecise, fun b hm => (hkept b).mp (hk b hm), shareable_iff.mp hs⟩
  · rintro ⟨houter, hprecise, hk, hs⟩
    obtain ⟨ho, hi⟩ := hinputs.mpr ⟨houter, hprecise⟩
    exact ⟨ho, hi, fun l hl => named_tied sig crate trait.typeParams rpit storage hl,
      fun p hp => (updateDynSignature_tyBounded_iff crate storage).mp hp,
      ⟨bounds, hr, fun b hm => (hkept b).mpr (hk b hm)⟩, huses ▸ shareable_iff.mpr hs⟩

/-- What is known does not depend on the parameters and the result. -/
theorem known_of_generics {I : Inferred} {trait : Generics} {sig sig' : Signature} {a b : Given}
    (hg : sig.generics = sig'.generics) (h : Known I trait sig a b) : Known I trait sig' a b := by
  cases h with
  | inferred h => exact .inferred h
  | trait h => exact .trait h
  | method h => exact .method (hg ▸ h)

theorem known_convertAsync (I : Inferred) (trait : Generics) (sig : Signature) :
    Known I trait (DynMethod.convertAsync sig) = Known I trait sig := by
  have hg : (DynMethod.convertAsync sig).generics = sig.generics :=
    DynMethod.convertAsync_generics sig
  funext a b
  exact propext ⟨known_of_generics hg, known_of_generics hg.symm⟩

/-- The conversion of async methods leaves receivers, arguments and generics in place. -/
theorem tiesCaptured_convertAsync (I : Inferred) (trait : Generics) (sig : Signature)
    (rpit : List TypeParamBound) (generated : Signature) :
    TiesCaptured I trait (DynMethod.convertAsync sig) rpit generated ↔
      TiesCaptured I trait sig rpit generated := by
  simp [tiesCaptured_iff, ownInputs, otherInputs, inputNodes, Bounded, TyBounded, CapturesNamed,
    receiverLifetime, known_convertAsync, alive, uses, inputLifetimes]

theorem tieable_convertAsync (I : Inferred) (trait : Generics) (sig : Signature)
    (rpit : List TypeParamBound) :
    Tieable I trait (DynMethod.convertAsync sig) rpit ↔ Tieable I trait sig rpit := by
  simp [tieable_iff, ownInputs, otherInputs, inputNodes, Kept, receiverLifetime,
    known_convertAsync, shortened, inputLifetimes, Bounded, TyBounded, alive, CapturesNamed]

theorem hasDynTraitReceiver_convertAsync (sig : Signature) :
    hasDynTraitReceiver (DynMethod.convertAsync sig) = hasDynTraitReceiver sig := by
  simp [hasDynTraitReceiver]

/-- What is known where nothing is inferred, and the variance of arguments is not either. -/
def Inferred.written : Inferred where
  variance _ _ := .invariant
  outlives _ _ := False
  bound _ _ := False
  needed _ := True

/-- `#name: &#ty` -/
def argRef (name : Ident) (mutability : Bool) (ty : Ty) : FnArg :=
  .typed (.ident false false name none) (.reference none mutability ty)

/-- `s: &str` -/
def argStr : FnArg := argRef "s" false (.ofIdent "str")

/-- `fn count(&self, s: &str) -> impl Future<Output = ()> + use<'_, Self>;` -/
def count : TraitItemFn where
  attrs := []
  sig := {
    asyncness := false
    unsafety := false
    ident := "count"
    generics := ⟨[], none⟩
    inputs := [.receiver ⟨some none, false, false, .reference none false (.ofIdent "Self")⟩,
      argStr]
    output := .type (.implTrait
      (lendBounds ++ [.preciseCapture [.lifetime defaultLt, .ident "Self"]])) }
  default := none

end DynUtils.Macros.Ties
