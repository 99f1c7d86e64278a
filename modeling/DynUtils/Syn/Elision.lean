import Mathlib.Data.List.Dedup
import DynUtils.Syn.Visit

/-! The lifetimes of function pointer types: which occur, which are elided, and what for. -/
namespace Syn

/-- What the compiler knows of paths: how many lifetimes what they name has, and whether they
go to an associated type, or an alias that does, which constrains no lifetime. -/
structure Known where
  arity : List Ident → ℕ
  projects : List Ident → Bool

/-- A lifetime in a type, or `none` for one that is elided. -/
structure Occ where
  lifetime : Option Lifetime
  constrained : Bool
deriving DecidableEq

/-- What stands around a part of a type. What is elided in a function pointer, or `Fn(..)`,
belongs to it. -/
structure Around where
  inner : Bool := false
  bound : List Lifetime := []
  constrained : Bool := true

namespace Around

def declare (x : Around) (lifetimes : List LifetimeParam) : Around :=
  { x with bound := lifetimes.map (·.lifetime) ++ x.bound }

def enter (x : Around) (lifetimes : List LifetimeParam) : Around :=
  { x.declare lifetimes with inner := true }

def through (x : Around) (projects : Bool) : Around :=
  { x with constrained := x.constrained && !projects }

def elided (x : Around) : List Occ := if x.inner then [] else [⟨none, x.constrained⟩]

def occ (x : Around) : Option Lifetime → List Occ
  | none => x.elided
  | some l =>
    if l.ident = "_" then x.elided
    else if l ∈ x.bound then [] else [⟨some l, x.constrained⟩]

end Around

def GenericArgument.isLifetime : GenericArgument → Bool
  | .lifetime _ => true
  | _ => false

def PathSegment.writesLifetime (s : PathSegment) : Bool :=
  match s.arguments with
  | .angleBracketed args => args.any (·.isLifetime)
  | _ => false

namespace Known
variable (K : Known)

/-- The lifetimes that a path leaves out: all or none. -/
def hidden (x : Around) (segments : List PathSegment) : List Occ :=
  if segments.any (·.writesLifetime) then []
  else (List.replicate (K.arity (segments.map (·.ident))) x.elided).flatten

mutual

/-- The lifetimes of a type that are not its own. -/
def ty (x : Around) : Ty → List Occ
  | .array elem _ => ty x elem
  | .bareFn lifetimes _ inputs output =>
    tys (x.enter lifetimes) inputs ++ returnType (x.enter lifetimes) output
  | .implTrait bs => bounds x bs
  | .never => []
  | .paren elem => ty x elem
  | .path _ ss =>
    K.hidden x ss ++ segments (x.through (K.projects (ss.map (·.ident)))) ss
  | .qpath qself _ _ ss =>
    ty (x.through true) qself ++ K.hidden (x.through true) ss ++ segments (x.through true) ss
  | .ptr _ elem => ty x elem
  | .reference l _ elem => x.occ l ++ ty x elem
  | .slice elem => ty x elem
  | .traitObject bs => bounds x bs
  | .tuple elems => tys x elems

def tys (x : Around) : List Ty → List Occ
  | [] => []
  | t :: ts => ty x t ++ tys x ts

def returnType (x : Around) : ReturnType → List Occ
  | .default => []
  | .type t => ty x t

def segments (x : Around) : List PathSegment → List Occ
  | [] => []
  | .mk _ args :: ss => arguments x args ++ segments x ss

def arguments (x : Around) : PathArguments → List Occ
  | .none => []
  | .angleBracketed args => genericArgs x args
  | .parenthesized inputs output => tys (x.enter []) inputs ++ returnType (x.enter []) output

def genericArgs (x : Around) : List GenericArgument → List Occ
  | [] => []
  | a :: as => genericArg x a ++ genericArgs x as

def genericArg (x : Around) : GenericArgument → List Occ
  | .lifetime l => x.occ (some l)
  | .type t => ty x t
  | .const _ => []
  | .assocType _ generics t => genericArgs x generics ++ ty x t
  | .constraint _ generics bs => genericArgs x generics ++ bounds x bs

def bounds (x : Around) : List TypeParamBound → List Occ
  | [] => []
  | b :: bs => bound x b ++ bounds x bs

def bound (x : Around) : TypeParamBound → List Occ
  | .trait _ lifetimes _ ss =>
    K.hidden (x.declare lifetimes) ss ++ segments (x.declare lifetimes) ss
  | .lifetime l => x.occ (some l)
  | .preciseCapture _ => []

end

/-- The visitor only renames in paths, and that to what is the same for the compiler. -/
structure Blind (v : VisitMut) : Prop where
  lifetime : ∀ d, v.lifetime d = id
  reference : ∀ d, v.reference d = id
  lifetimeParam : ∀ d, v.lifetimeParam d = id
  arity : ∀ is, K.arity (is.map v.segment) = K.arity is
  projects : ∀ is, K.projects (is.map v.segment) = K.projects is

section
variable {K} {v : VisitMut}

theorem isLifetime_genericArg (d : ℕ) (a : GenericArgument) :
    (v.genericArg d a).isLifetime = a.isLifetime := by
  cases a <;> rfl

theorem any_isLifetime (d : ℕ) (as : List GenericArgument) :
    (v.genericArgs d as).any (·.isLifetime) = as.any (·.isLifetime) := by
  induction as with
  | nil => rfl
  | cons a as ih => simp [VisitMut.genericArgs, isLifetime_genericArg, ih]

theorem any_writesLifetime (d : ℕ) (ss : List PathSegment) :
    (v.segments d ss).any (·.writesLifetime) = ss.any (·.writesLifetime) := by
  induction ss with
  | nil => rfl
  | cons s ss ih =>
    obtain ⟨ident, arguments⟩ := s
    simp only [VisitMut.segments, List.any_cons, ih]
    congr 1
    cases arguments with
    | angleBracketed args => exact any_isLifetime d args
    | _ => rfl

theorem hidden_segments (h : K.Blind v) (x : Around) (d : ℕ) (ss : List PathSegment) :
    K.hidden x (v.segments d ss) = K.hidden x ss := by
  simp only [hidden, any_writesLifetime, VisitMut.idents_segments, h.arity]

mutual

theorem ty_visited (h : K.Blind v) (d : ℕ) (x : Around) : ∀ t : Ty, K.ty x (v.ty d t) = K.ty x t
  | .array elem _ | .ptr _ elem | .slice elem | .paren elem => ty_visited h d x elem
  | .bareFn lifetimes _ inputs output => by
    simp [VisitMut.ty, ty, tys_visited h (d + 1) _ inputs, returnType_visited h (d + 1) _ output,
      h.lifetimeParam]
  | .implTrait bs | .traitObject bs => bounds_visited h d x bs
  | .never => rfl
  | .path _ ss => by
    simp only [VisitMut.ty, ty, VisitMut.idents_segments, segments_visited h d _ ss,
      hidden_segments h, h.projects]
  | .qpath qself _ _ ss => by
    simp [VisitMut.ty, ty, ty_visited h d _ qself, segments_visited h d _ ss, hidden_segments h]
  | .reference l _ elem => by simp [VisitMut.ty, ty, h.reference, ty_visited h d x elem]
  | .tuple elems => tys_visited h d x elems

theorem tys_visited (h : K.Blind v) (d : ℕ) (x : Around) :
    ∀ ts : List Ty, K.tys x (v.tys d ts) = K.tys x ts
  | [] => rfl
  | t :: ts => by simp [VisitMut.tys, tys, ty_visited h d x t, tys_visited h d x ts]

theorem returnType_visited (h : K.Blind v) (d : ℕ) (x : Around) : ∀ r : ReturnType,
    K.returnType x (v.returnType d r) = K.returnType x r
  | .default => rfl
  | .type t => ty_visited h d x t

theorem segments_visited (h : K.Blind v) (d : ℕ) (x : Around) : ∀ ss : List PathSegment,
    K.segments x (v.segments d ss) = K.segments x ss
  | [] => rfl
  | .mk _ args :: ss => by
    simp [VisitMut.segments, segments, arguments_visited h d x args, segments_visited h d x ss]

theorem arguments_visited (h : K.Blind v) (d : ℕ) (x : Around) : ∀ a : PathArguments,
    K.arguments x (v.arguments d a) = K.arguments x a
  | .none => rfl
  | .angleBracketed args => genericArgs_visited h d x args
  | .parenthesized inputs output => by
    simp [VisitMut.arguments, arguments, tys_visited h (d + 1) _ inputs,
      returnType_visited h (d + 1) _ output]

theorem genericArgs_visited (h : K.Blind v) (d : ℕ) (x : Around) : ∀ as : List GenericArgument,
    K.genericArgs x (v.genericArgs d as) = K.genericArgs x as
  | [] => rfl
  | a :: as => by
    simp [VisitMut.genericArgs, genericArgs, genericArg_visited h d x a,
      genericArgs_visited h d x as]

theorem genericArg_visited (h : K.Blind v) (d : ℕ) (x : Around) : ∀ a : GenericArgument,
    K.genericArg x (v.genericArg d a) = K.genericArg x a
  | .lifetime l => by simp [VisitMut.genericArg, genericArg, h.lifetime]
  | .type t => ty_visited h d x t
  | .const _ => rfl
  | .assocType _ generics t => by
    simp [VisitMut.genericArg, genericArg, genericArgs_visited h d x generics, ty_visited h d x t]
  | .constraint _ generics bs => by
    simp [VisitMut.genericArg, genericArg, genericArgs_visited h d x generics,
      bounds_visited h d x bs]

theorem bounds_visited (h : K.Blind v) (d : ℕ) (x : Around) : ∀ bs : List TypeParamBound,
    K.bounds x (v.bounds d bs) = K.bounds x bs
  | [] => rfl
  | b :: bs => by simp [VisitMut.bounds, bounds, bound_visited h d x b, bounds_visited h d x bs]

theorem bound_visited (h : K.Blind v) (d : ℕ) (x : Around) : ∀ b : TypeParamBound,
    K.bound x (v.bound d b) = K.bound x b
  | .trait _ lifetimes _ ss => by
    simp [VisitMut.bound, bound, h.lifetimeParam, hidden_segments h, segments_visited h d _ ss]
  | .lifetime l => by simp [VisitMut.bound, bound, h.lifetime]
  | .preciseCapture _ => rfl

end

end

end Known

/-- A lifetime of a function pointer type. `anon` is one that is elided in an input. -/
inductive Region
  | named (l : Lifetime)
  | anon (input position : ℕ)
deriving DecidableEq

def Occ.region (input position : ℕ) (o : Occ) : Region :=
  match o.lifetime with
  | some l => .named l
  | none => .anon input position

def HasElided (occs : List Occ) : Prop := ∃ o ∈ occs, o.lifetime = none

namespace Known
variable (K : Known)

/-- The lifetimes of an input, each once. -/
def regions (input : ℕ) (t : Ty) : List Region :=
  ((K.ty {} t).mapIdx (Occ.region input)).dedup

/-- The lifetimes of the inputs, one input after the other. -/
def inputRegions (inputs : List Ty) : List Region := (inputs.mapIdx K.regions).flatten

/-- What is elided in the output: the lifetime of the inputs, if there is only one. -/
def elidedRegion (inputs : List Ty) : Option Region :=
  match K.inputRegions inputs with
  | [r] => some r
  | _ => none

/-- What is asked of a function pointer type whose parts are those of a function. -/
structure FnPointerOk (lifetimes : List LifetimeParam) (inputs : List Ty)
    (output : ReturnType) : Prop where
  elision : HasElided (K.returnType {} output) → (K.elidedRegion inputs).isSome
  /-- What is declared by `for<..>` and stands in the output is constrained by an input. -/
  constrained : ∀ p ∈ lifetimes, (∃ o ∈ K.returnType {} output, o.lifetime = some p.lifetime) →
    ∃ t ∈ inputs, ⟨some p.lifetime, true⟩ ∈ K.ty {} t
  noImplTrait : ∀ n ∈ nodesTys 0 inputs ++ output.nodes 0, n.2 ≠ .implTrait

def WellFormed : Ty → Prop
  | .bareFn lifetimes _ inputs output => K.FnPointerOk lifetimes inputs output
  | _ => False

/-- Everything that is elided in the output of a function pointer type is this lifetime. -/
def ElidesTo (r : Region) : Ty → Prop
  | .bareFn _ _ inputs output =>
    HasElided (K.returnType {} output) → K.elidedRegion inputs = some r
  | _ => False

theorem regions_eq_nil {input : ℕ} {t : Ty} : K.regions input t = [] ↔ K.ty {} t = [] := by
  rw [regions, List.dedup_eq_nil, List.mapIdx_eq_nil_iff]

/-- An input with one lifetime gives what is elided if the others have none. -/
theorem elidedRegion_cons {t : Ty} {ts : List Ty} {r : Region} (h : K.regions 0 t = [r]) :
    K.elidedRegion (t :: ts) = if ∀ u ∈ ts, K.ty {} u = [] then some r else none := by
  have hrest : (ts.mapIdx fun i => K.regions (i + 1)).flatten = [] ↔ ∀ u ∈ ts, K.ty {} u = [] := by
    simp only [List.flatten_eq_nil_iff, List.mem_mapIdx, forall_exists_index]
    constructor
    · intro hall u hu
      obtain ⟨i, hi, rfl⟩ := List.getElem_of_mem hu
      exact K.regions_eq_nil.mp (hall _ i hi rfl)
    · rintro hall _ i hi rfl
      exact K.regions_eq_nil.mpr (hall _ (List.getElem_mem hi))
  simp only [elidedRegion, inputRegions, List.mapIdx_cons, List.flatten_cons, h,
    List.singleton_append, ← hrest]
  cases (ts.mapIdx fun i => K.regions (i + 1)).flatten <;> simp

end Known

end Syn
