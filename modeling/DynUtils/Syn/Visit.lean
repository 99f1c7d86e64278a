import DynUtils.Syn.Ast

/-! Visitors of type syntax, and what a visitor that rewrites in place can change. -/
namespace Syn

/-- The overrides of a `VisitMut`. The argument `ℕ` counts the binders crossed on the
way down: function pointer types and parenthesized arguments, which bind what is
elided in them. `reference` is all that becomes of the lifetime of a reference. -/
structure VisitMut where
  lifetime : ℕ → Lifetime → Lifetime := fun _ l => l
  reference : ℕ → Option Lifetime → Option Lifetime := fun d l => l.map (lifetime d)
  lifetimeParam : ℕ → LifetimeParam → LifetimeParam := fun _ p => p
  segment : Ident → Ident := fun i => i

namespace VisitMut

def capturedParam (v : VisitMut) (d : ℕ) : CapturedParam → CapturedParam
  | .lifetime l => .lifetime (v.lifetime d l)
  | .ident i => .ident i

mutual

def ty (v : VisitMut) (d : ℕ) : Ty → Ty
  | .array elem len => .array (v.ty d elem) len
  | .bareFn lifetimes qualifiers inputs output =>
    .bareFn (lifetimes.map (v.lifetimeParam (d + 1))) qualifiers (v.tys (d + 1) inputs)
      (v.returnType (d + 1) output)
  | .implTrait bounds => .implTrait (v.bounds d bounds)
  | .never => .never
  | .paren elem => .paren (v.ty d elem)
  | .path leading segments => .path leading (v.segments d segments)
  | .qpath qself position leading segments =>
    .qpath (v.ty d qself) position leading (v.segments d segments)
  | .ptr mutability elem => .ptr mutability (v.ty d elem)
  | .reference lifetime mutability elem =>
    .reference (v.reference d lifetime) mutability (v.ty d elem)
  | .slice elem => .slice (v.ty d elem)
  | .traitObject bounds => .traitObject (v.bounds d bounds)
  | .tuple elems => .tuple (v.tys d elems)

def tys (v : VisitMut) (d : ℕ) : List Ty → List Ty
  | [] => []
  | t :: ts => v.ty d t :: v.tys d ts

def returnType (v : VisitMut) (d : ℕ) : ReturnType → ReturnType
  | .default => .default
  | .type t => .type (v.ty d t)

def segments (v : VisitMut) (d : ℕ) : List PathSegment → List PathSegment
  | [] => []
  | .mk ident arguments :: ss => .mk (v.segment ident) (v.arguments d arguments) :: v.segments d ss

def arguments (v : VisitMut) (d : ℕ) : PathArguments → PathArguments
  | .none => .none
  | .angleBracketed args => .angleBracketed (v.genericArgs d args)
  | .parenthesized inputs output =>
    .parenthesized (v.tys (d + 1) inputs) (v.returnType (d + 1) output)

def genericArgs (v : VisitMut) (d : ℕ) : List GenericArgument → List GenericArgument
  | [] => []
  | a :: as => v.genericArg d a :: v.genericArgs d as

def genericArg (v : VisitMut) (d : ℕ) : GenericArgument → GenericArgument
  | .lifetime l => .lifetime (v.lifetime d l)
  | .type t => .type (v.ty d t)
  | .const expr => .const expr
  | .assocType ident generics t => .assocType ident (v.genericArgs d generics) (v.ty d t)
  | .constraint ident generics bounds =>
    .constraint ident (v.genericArgs d generics) (v.bounds d bounds)

def bounds (v : VisitMut) (d : ℕ) : List TypeParamBound → List TypeParamBound
  | [] => []
  | b :: bs => v.bound d b :: v.bounds d bs

def bound (v : VisitMut) (d : ℕ) : TypeParamBound → TypeParamBound
  | .trait maybe lifetimes leading segments =>
    .trait maybe (lifetimes.map (v.lifetimeParam d)) leading (v.segments d segments)
  | .lifetime l => .lifetime (v.lifetime d l)
  | .preciseCapture params => .preciseCapture (params.map (v.capturedParam d))

end

end VisitMut

/-- Where a path stands: as a type, as the `T` of `<T as A>::B`, as `A::B` there, or as
a bound. -/
inductive PathUse
  | type
  | qself
  | projection
  | bound
deriving DecidableEq

/-- What a visitor meets in a type. -/
inductive Node
  | lifetime (l : Lifetime)
  | reference (l : Option Lifetime)
  | lifetimeParam (p : LifetimeParam)
  | path (use : PathUse) (idents : List Ident)
  | implTrait
deriving DecidableEq

def CapturedParam.nodes (d : ℕ) : CapturedParam → List (ℕ × Node)
  | .lifetime l => [(d, .lifetime l)]
  | .ident _ => []

mutual

/-- The nodes of a type and of its parts, each with the number of binders around it. -/
def Ty.nodes (d : ℕ) (use : PathUse) : Ty → List (ℕ × Node)
  | .array elem _ => elem.nodes d .type
  | .bareFn lifetimes _ inputs output =>
    lifetimes.map (fun p => (d + 1, .lifetimeParam p)) ++ nodesTys (d + 1) inputs ++
      output.nodes (d + 1)
  | .implTrait bounds => (d, .implTrait) :: nodesBounds d bounds
  | .never => []
  | .paren elem => elem.nodes d use
  | .path _ segments => (d, .path use (segments.map (·.ident))) :: nodesSegments d segments
  | .qpath qself _ _ segments =>
    qself.nodes d .qself ++
      (d, .path .projection (segments.map (·.ident))) :: nodesSegments d segments
  | .ptr _ elem => elem.nodes d .type
  | .reference lifetime _ elem => (d, .reference lifetime) :: elem.nodes d .type
  | .slice elem => elem.nodes d .type
  | .traitObject bounds => nodesBounds d bounds
  | .tuple elems => nodesTys d elems

def nodesTys (d : ℕ) : List Ty → List (ℕ × Node)
  | [] => []
  | t :: ts => t.nodes d .type ++ nodesTys d ts

def ReturnType.nodes (d : ℕ) : ReturnType → List (ℕ × Node)
  | .default => []
  | .type t => t.nodes d .type

def nodesSegments (d : ℕ) : List PathSegment → List (ℕ × Node)
  | [] => []
  | .mk _ arguments :: ss => arguments.nodes d ++ nodesSegments d ss

def PathArguments.nodes (d : ℕ) : PathArguments → List (ℕ × Node)
  | .none => []
  | .angleBracketed args => nodesArgs d args
  | .parenthesized inputs output => nodesTys (d + 1) inputs ++ output.nodes (d + 1)

def nodesArgs (d : ℕ) : List GenericArgument → List (ℕ × Node)
  | [] => []
  | a :: as => a.nodes d ++ nodesArgs d as

def GenericArgument.nodes (d : ℕ) : GenericArgument → List (ℕ × Node)
  | .lifetime l => [(d, .lifetime l)]
  | .type t => t.nodes d .type
  | .const _ => []
  | .assocType _ generics t => nodesArgs d generics ++ t.nodes d .type
  | .constraint _ generics bounds => nodesArgs d generics ++ nodesBounds d bounds

def nodesBounds (d : ℕ) : List TypeParamBound → List (ℕ × Node)
  | [] => []
  | b :: bs => b.nodes d ++ nodesBounds d bs

def TypeParamBound.nodes (d : ℕ) : TypeParamBound → List (ℕ × Node)
  | .trait _ lifetimes _ segments =>
    lifetimes.map (fun p => (d, .lifetimeParam p)) ++
      (d, .path .bound (segments.map (·.ident))) :: nodesSegments d segments
  | .lifetime l => [(d, .lifetime l)]
  | .preciseCapture params => params.flatMap (·.nodes d)

end

/-! Lists are visited one by one. -/

theorem nodesSegments_append (d : ℕ) (ss ss' : List PathSegment) :
    nodesSegments d (ss ++ ss') = nodesSegments d ss ++ nodesSegments d ss' := by
  induction ss with
  | nil => rfl
  | cons s ss ih =>
    obtain ⟨ident, arguments⟩ := s
    simp [nodesSegments, ih]

theorem nodesBounds_append (d : ℕ) (bs bs' : List TypeParamBound) :
    nodesBounds d (bs ++ bs') = nodesBounds d bs ++ nodesBounds d bs' := by
  induction bs with
  | nil => rfl
  | cons b bs ih => simp [nodesBounds, ih]

theorem mem_nodesBounds {d : ℕ} {n : ℕ × Node} {bs : List TypeParamBound} :
    n ∈ nodesBounds d bs ↔ ∃ b ∈ bs, n ∈ b.nodes d := by
  induction bs with
  | nil => simp [nodesBounds]
  | cons b bs ih => simp [nodesBounds, ih]

namespace VisitMut

theorem segments_append (v : VisitMut) (d : ℕ) (ss ss' : List PathSegment) :
    v.segments d (ss ++ ss') = v.segments d ss ++ v.segments d ss' := by
  induction ss with
  | nil => rfl
  | cons s ss ih =>
    obtain ⟨ident, arguments⟩ := s
    simp [segments, ih]

theorem bounds_append (v : VisitMut) (d : ℕ) (bs bs' : List TypeParamBound) :
    v.bounds d (bs ++ bs') = v.bounds d bs ++ v.bounds d bs' := by
  induction bs with
  | nil => rfl
  | cons b bs ih => simp [bounds, ih]

/-- What a visitor does to one node. -/
def node (v : VisitMut) : ℕ × Node → ℕ × Node
  | (d, .lifetime l) => (d, .lifetime (v.lifetime d l))
  | (d, .reference l) => (d, .reference (v.reference d l))
  | (d, .lifetimeParam p) => (d, .lifetimeParam (v.lifetimeParam d p))
  | (d, .path use idents) => (d, .path use (idents.map v.segment))
  | (d, .implTrait) => (d, .implTrait)

theorem idents_segments (v : VisitMut) (d : ℕ) (ss : List PathSegment) :
    (v.segments d ss).map (·.ident) = (ss.map (·.ident)).map v.segment := by
  induction ss with
  | nil => rfl
  | cons s ss ih =>
    obtain ⟨ident, arguments⟩ := s
    simpa [segments, PathSegment.ident] using ih

theorem nodes_capturedParams (v : VisitMut) (d : ℕ) (ps : List CapturedParam) :
    (ps.map (v.capturedParam d)).flatMap (·.nodes d) = (ps.flatMap (·.nodes d)).map v.node := by
  induction ps with
  | nil => rfl
  | cons p ps ih =>
    cases p <;> simpa [capturedParam, CapturedParam.nodes, node] using ih

mutual

/-- A visitor rewrites nodes, and leaves everything else in place. -/
theorem nodes_ty (v : VisitMut) (d : ℕ) (use : PathUse) :
    ∀ t : Ty, (v.ty d t).nodes d use = (t.nodes d use).map v.node
  | .array elem _ | .ptr _ elem | .slice elem => by
    simpa [ty, Ty.nodes] using nodes_ty v d .type elem
  | .bareFn lifetimes _ inputs output => by
    simp [ty, Ty.nodes, node, nodes_tys v (d + 1) inputs, nodes_returnType v (d + 1) output]
  | .implTrait bounds => by simp [ty, Ty.nodes, node, nodes_bounds v d bounds]
  | .never => rfl
  | .paren elem => by simpa [ty, Ty.nodes] using nodes_ty v d use elem
  | .path _ segments => by
    simp only [ty, Ty.nodes, node, idents_segments, nodes_segments v d segments, List.map_cons]
  | .qpath qself _ _ segments => by
    simp only [ty, Ty.nodes, node, idents_segments, nodes_ty v d .qself qself,
      nodes_segments v d segments, List.map_append, List.map_cons]
  | .reference _ _ elem => by simp [ty, Ty.nodes, node, nodes_ty v d .type elem]
  | .traitObject bounds => by simp [ty, Ty.nodes, nodes_bounds v d bounds]
  | .tuple elems => by simp [ty, Ty.nodes, nodes_tys v d elems]

theorem nodes_tys (v : VisitMut) (d : ℕ) :
    ∀ ts : List Ty, nodesTys d (v.tys d ts) = (nodesTys d ts).map v.node
  | [] => rfl
  | t :: ts => by simp [tys, nodesTys, nodes_ty v d .type t, nodes_tys v d ts]

theorem nodes_returnType (v : VisitMut) (d : ℕ) :
    ∀ r : ReturnType, (v.returnType d r).nodes d = (r.nodes d).map v.node
  | .default => rfl
  | .type t => by simp [returnType, ReturnType.nodes, nodes_ty v d .type t]

theorem nodes_segments (v : VisitMut) (d : ℕ) :
    ∀ ss : List PathSegment, nodesSegments d (v.segments d ss) = (nodesSegments d ss).map v.node
  | [] => rfl
  | .mk _ arguments :: ss => by
    simp [segments, nodesSegments, nodes_arguments v d arguments, nodes_segments v d ss]

theorem nodes_arguments (v : VisitMut) (d : ℕ) :
    ∀ a : PathArguments, (v.arguments d a).nodes d = (a.nodes d).map v.node
  | .none => rfl
  | .angleBracketed args => by simp [arguments, PathArguments.nodes, nodes_genericArgs v d args]
  | .parenthesized inputs output => by
    simp [arguments, PathArguments.nodes, nodes_tys v (d + 1) inputs,
      nodes_returnType v (d + 1) output]

theorem nodes_genericArgs (v : VisitMut) (d : ℕ) :
    ∀ as : List GenericArgument, nodesArgs d (v.genericArgs d as) = (nodesArgs d as).map v.node
  | [] => rfl
  | a :: as => by
    simp [genericArgs, nodesArgs, nodes_genericArg v d a, nodes_genericArgs v d as]

theorem nodes_genericArg (v : VisitMut) (d : ℕ) :
    ∀ a : GenericArgument, (v.genericArg d a).nodes d = (a.nodes d).map v.node
  | .lifetime _ => rfl
  | .type t => by simp [genericArg, GenericArgument.nodes, nodes_ty v d .type t]
  | .const _ => rfl
  | .assocType _ generics t => by
    simp [genericArg, GenericArgument.nodes, nodes_genericArgs v d generics, nodes_ty v d .type t]
  | .constraint _ generics bounds => by
    simp [genericArg, GenericArgument.nodes, nodes_genericArgs v d generics,
      nodes_bounds v d bounds]

theorem nodes_bounds (v : VisitMut) (d : ℕ) :
    ∀ bs : List TypeParamBound, nodesBounds d (v.bounds d bs) = (nodesBounds d bs).map v.node
  | [] => rfl
  | b :: bs => by simp [bounds, nodesBounds, nodes_bound v d b, nodes_bounds v d bs]

theorem nodes_bound (v : VisitMut) (d : ℕ) :
    ∀ b : TypeParamBound, (v.bound d b).nodes d = (b.nodes d).map v.node
  | .trait _ lifetimes _ segments => by
    simp [bound, TypeParamBound.nodes, node, idents_segments, nodes_segments v d segments]
  | .lifetime _ => rfl
  | .preciseCapture params => by
    simp only [bound, TypeParamBound.nodes, nodes_capturedParams]

end

/-- One visitor after another. -/
def comp (v w : VisitMut) : VisitMut where
  lifetime d l := v.lifetime d (w.lifetime d l)
  reference d l := v.reference d (w.reference d l)
  lifetimeParam d p := v.lifetimeParam d (w.lifetimeParam d p)
  segment i := v.segment (w.segment i)

section
variable (v w : VisitMut) (d : ℕ)

@[simp] theorem comp_lifetime (l : Lifetime) :
    (v.comp w).lifetime d l = v.lifetime d (w.lifetime d l) := rfl
@[simp] theorem comp_reference (l : Option Lifetime) :
    (v.comp w).reference d l = v.reference d (w.reference d l) := rfl
@[simp] theorem comp_lifetimeParam (p : LifetimeParam) :
    (v.comp w).lifetimeParam d p = v.lifetimeParam d (w.lifetimeParam d p) := rfl
@[simp] theorem comp_segment (i : Ident) :
    (v.comp w).segment i = v.segment (w.segment i) := rfl

end

theorem comp_capturedParam (v w : VisitMut) (d : ℕ) (p : CapturedParam) :
    (v.comp w).capturedParam d p = v.capturedParam d (w.capturedParam d p) := by
  cases p <;> rfl

mutual

theorem comp_ty (v w : VisitMut) (d : ℕ) : ∀ t : Ty, (v.comp w).ty d t = v.ty d (w.ty d t)
  | .array elem _ | .ptr _ elem | .slice elem | .paren elem => by simp [ty, comp_ty v w d elem]
  | .bareFn lifetimes _ inputs output => by
    simp [ty, comp_tys v w (d + 1) inputs, comp_returnType v w (d + 1) output]
  | .implTrait bounds | .traitObject bounds => by simp [ty, comp_bounds v w d bounds]
  | .never => rfl
  | .path _ segments => by simp [ty, comp_segments v w d segments]
  | .qpath qself _ _ segments => by
    simp [ty, comp_ty v w d qself, comp_segments v w d segments]
  | .reference _ _ elem => by simp [ty, comp_ty v w d elem]
  | .tuple elems => by simp [ty, comp_tys v w d elems]

theorem comp_tys (v w : VisitMut) (d : ℕ) :
    ∀ ts : List Ty, (v.comp w).tys d ts = v.tys d (w.tys d ts)
  | [] => rfl
  | t :: ts => by simp [tys, comp_ty v w d t, comp_tys v w d ts]

theorem comp_returnType (v w : VisitMut) (d : ℕ) :
    ∀ r : ReturnType, (v.comp w).returnType d r = v.returnType d (w.returnType d r)
  | .default => rfl
  | .type t => by simp [returnType, comp_ty v w d t]

theorem comp_segments (v w : VisitMut) (d : ℕ) :
    ∀ ss : List PathSegment, (v.comp w).segments d ss = v.segments d (w.segments d ss)
  | [] => rfl
  | .mk _ arguments :: ss => by
    simp [segments, comp_arguments v w d arguments, comp_segments v w d ss]

theorem comp_arguments (v w : VisitMut) (d : ℕ) :
    ∀ a : PathArguments, (v.comp w).arguments d a = v.arguments d (w.arguments d a)
  | .none => rfl
  | .angleBracketed args => by simp [arguments, comp_genericArgs v w d args]
  | .parenthesized inputs output => by
    simp [arguments, comp_tys v w (d + 1) inputs, comp_returnType v w (d + 1) output]

theorem comp_genericArgs (v w : VisitMut) (d : ℕ) :
    ∀ as : List GenericArgument, (v.comp w).genericArgs d as = v.genericArgs d (w.genericArgs d as)
  | [] => rfl
  | a :: as => by simp [genericArgs, comp_genericArg v w d a, comp_genericArgs v w d as]

theorem comp_genericArg (v w : VisitMut) (d : ℕ) :
    ∀ a : GenericArgument, (v.comp w).genericArg d a = v.genericArg d (w.genericArg d a)
  | .lifetime _ => rfl
  | .type t => by simp [genericArg, comp_ty v w d t]
  | .const _ => rfl
  | .assocType _ generics t => by
    simp [genericArg, comp_genericArgs v w d generics, comp_ty v w d t]
  | .constraint _ generics bounds => by
    simp [genericArg, comp_genericArgs v w d generics, comp_bounds v w d bounds]

theorem comp_bounds (v w : VisitMut) (d : ℕ) :
    ∀ bs : List TypeParamBound, (v.comp w).bounds d bs = v.bounds d (w.bounds d bs)
  | [] => rfl
  | b :: bs => by simp [bounds, comp_bound v w d b, comp_bounds v w d bs]

theorem comp_bound (v w : VisitMut) (d : ℕ) :
    ∀ b : TypeParamBound, (v.comp w).bound d b = v.bound d (w.bound d b)
  | .trait _ lifetimes _ segments => by simp [bound, comp_segments v w d segments]
  | .lifetime _ => rfl
  | .preciseCapture params => by
    simp only [bound, List.map_map, TypeParamBound.preciseCapture.injEq]
    exact List.map_congr_left fun p _ => comp_capturedParam v w d p

end

/-- The two visitors treat the nodes alike. -/
def AgreeOn (v w : VisitMut) (ns : List (ℕ × Node)) : Prop := ∀ n ∈ ns, v.node n = w.node n

@[simp] theorem agreeOn_nil (v w : VisitMut) : AgreeOn v w [] ↔ True := by simp [AgreeOn]

@[simp] theorem agreeOn_cons (v w : VisitMut) (n : ℕ × Node) (ns : List (ℕ × Node)) :
    AgreeOn v w (n :: ns) ↔ v.node n = w.node n ∧ AgreeOn v w ns := by simp [AgreeOn]

@[simp] theorem agreeOn_append (v w : VisitMut) (ns ns' : List (ℕ × Node)) :
    AgreeOn v w (ns ++ ns') ↔ AgreeOn v w ns ∧ AgreeOn v w ns' := by
  simp [AgreeOn, or_imp, forall_and]

theorem agreeOn_lifetimeParams (v w : VisitMut) (d : ℕ) (ps : List LifetimeParam) :
    AgreeOn v w (ps.map fun p => (d, .lifetimeParam p)) ↔
      ps.map (v.lifetimeParam d) = ps.map (w.lifetimeParam d) := by
  simp [AgreeOn, node]

theorem agreeOn_capturedParams (v w : VisitMut) (d : ℕ) (ps : List CapturedParam) :
    AgreeOn v w (ps.flatMap (·.nodes d)) ↔
      ps.map (v.capturedParam d) = ps.map (w.capturedParam d) := by
  induction ps with
  | nil => simp
  | cons p ps ih =>
    rw [List.flatMap_cons, agreeOn_append, ih, List.map_cons, List.map_cons, List.cons.injEq]
    cases p <;> simp [CapturedParam.nodes, capturedParam, node]

mutual

/-- Two visitors leave the same type exactly if they treat all its nodes alike. -/
theorem ty_eq_iff (v w : VisitMut) (d : ℕ) (use : PathUse) :
    ∀ t : Ty, v.ty d t = w.ty d t ↔ AgreeOn v w (t.nodes d use)
  | .array elem _ | .ptr _ elem | .slice elem => by simp [ty, Ty.nodes, ty_eq_iff v w d .type elem]
  | .bareFn lifetimes _ inputs output => by
    simp [ty, Ty.nodes, agreeOn_lifetimeParams, tys_eq_iff v w (d + 1) inputs,
      returnType_eq_iff v w (d + 1) output]
  | .implTrait bounds => by simp [ty, Ty.nodes, node, bounds_eq_iff v w d bounds]
  | .never => by simp [ty, Ty.nodes]
  | .paren elem => by simp [ty, Ty.nodes, ty_eq_iff v w d use elem]
  | .path _ segments => by simp [ty, Ty.nodes, node, segments_eq_iff v w d segments]
  | .qpath qself _ _ segments => by
    simp [ty, Ty.nodes, node, ty_eq_iff v w d .qself qself, segments_eq_iff v w d segments]
  | .reference _ _ elem => by simp [ty, Ty.nodes, node, ty_eq_iff v w d .type elem]
  | .traitObject bounds => by simp [ty, Ty.nodes, bounds_eq_iff v w d bounds]
  | .tuple elems => by simp [ty, Ty.nodes, tys_eq_iff v w d elems]

theorem tys_eq_iff (v w : VisitMut) (d : ℕ) :
    ∀ ts : List Ty, v.tys d ts = w.tys d ts ↔ AgreeOn v w (nodesTys d ts)
  | [] => by simp [tys, nodesTys]
  | t :: ts => by simp [tys, nodesTys, ty_eq_iff v w d .type t, tys_eq_iff v w d ts]

theorem returnType_eq_iff (v w : VisitMut) (d : ℕ) :
    ∀ r : ReturnType, v.returnType d r = w.returnType d r ↔ AgreeOn v w (r.nodes d)
  | .default => by simp [returnType, ReturnType.nodes]
  | .type t => by simp [returnType, ReturnType.nodes, ty_eq_iff v w d .type t]

/-- The identifiers of a path belong to the node of the path. -/
theorem segments_eq_iff (v w : VisitMut) (d : ℕ) :
    ∀ ss : List PathSegment, v.segments d ss = w.segments d ss ↔
      (∀ s ∈ ss, v.segment s.ident = w.segment s.ident) ∧ AgreeOn v w (nodesSegments d ss)
  | [] => by simp [segments, nodesSegments]
  | .mk _ arguments :: ss => by
    simp [segments, nodesSegments, PathSegment.ident, arguments_eq_iff v w d arguments,
      segments_eq_iff v w d ss]
    tauto

theorem arguments_eq_iff (v w : VisitMut) (d : ℕ) :
    ∀ a : PathArguments, v.arguments d a = w.arguments d a ↔ AgreeOn v w (a.nodes d)
  | .none => by simp [arguments, PathArguments.nodes]
  | .angleBracketed args => by simp [arguments, PathArguments.nodes, genericArgs_eq_iff v w d args]
  | .parenthesized inputs output => by
    simp [arguments, PathArguments.nodes, tys_eq_iff v w (d + 1) inputs,
      returnType_eq_iff v w (d + 1) output]

theorem genericArgs_eq_iff (v w : VisitMut) (d : ℕ) :
    ∀ as : List GenericArgument, v.genericArgs d as = w.genericArgs d as ↔
      AgreeOn v w (nodesArgs d as)
  | [] => by simp [genericArgs, nodesArgs]
  | a :: as => by
    simp [genericArgs, nodesArgs, genericArg_eq_iff v w d a, genericArgs_eq_iff v w d as]

theorem genericArg_eq_iff (v w : VisitMut) (d : ℕ) :
    ∀ a : GenericArgument, v.genericArg d a = w.genericArg d a ↔ AgreeOn v w (a.nodes d)
  | .lifetime _ => by simp [genericArg, GenericArgument.nodes, node]
  | .type t => by simp [genericArg, GenericArgument.nodes, ty_eq_iff v w d .type t]
  | .const _ => by simp [genericArg, GenericArgument.nodes]
  | .assocType _ generics t => by
    simp [genericArg, GenericArgument.nodes, genericArgs_eq_iff v w d generics,
      ty_eq_iff v w d .type t]
  | .constraint _ generics bounds => by
    simp [genericArg, GenericArgument.nodes, genericArgs_eq_iff v w d generics,
      bounds_eq_iff v w d bounds]

theorem bounds_eq_iff (v w : VisitMut) (d : ℕ) :
    ∀ bs : List TypeParamBound, v.bounds d bs = w.bounds d bs ↔ AgreeOn v w (nodesBounds d bs)
  | [] => by simp [bounds, nodesBounds]
  | b :: bs => by simp [bounds, nodesBounds, bound_eq_iff v w d b, bounds_eq_iff v w d bs]

theorem bound_eq_iff (v w : VisitMut) (d : ℕ) :
    ∀ b : TypeParamBound, v.bound d b = w.bound d b ↔ AgreeOn v w (b.nodes d)
  | .trait _ lifetimes _ segments => by
    simp [bound, TypeParamBound.nodes, node, agreeOn_lifetimeParams,
      segments_eq_iff v w d segments]
  | .lifetime _ => by simp [bound, TypeParamBound.nodes, node]
  | .preciseCapture params => by
    simp [bound, TypeParamBound.nodes, agreeOn_capturedParams]

end

end VisitMut

end Syn
