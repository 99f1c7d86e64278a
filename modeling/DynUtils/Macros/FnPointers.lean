import DynUtils.Macros.DynObject
import DynUtils.Syn.DynCompatible

/-! The types at which `dyn_object` stores and calls the entries of a vtable. -/
namespace DynUtils.Macros.FnPointers

open Syn

/-- What the declarations around a trait say of the names in its types. -/
structure Resolution where
  /-- The paths that name the trait. -/
  isTrait : List Ident → Bool
  /-- The type that a path stands for where it is the same for all types that implement the
  trait: that of an associated type which a supertrait fixes, or of an alias. -/
  known : Ty → Option Ty
  known_rename : ∀ d t, known (replaceSelfWithDyn.ty d t) = known t
  known_self : known (.ofIdent "Self") = none

/-- What the types of a trait can name in both of the generated impls. -/
structure Names extends Resolution where
  /-- The type parameters that both impls declare. -/
  params : List Ident
  /-- The type and const parameters of the trait. -/
  args : List Ident
  /-- The associated types of the trait. -/
  assoc : List Ident
  dyn_not_param : "__Dyn" ∉ params
  self_not_assoc : "Self" ∉ assoc

/-- An impl, with the name that its implementing type has there. -/
structure Scope extends Names where
  self : Ident
  selfTy : Ty

/-- Neither of the names of the implementing type. -/
def isReserved (ident : Ident) : Bool := ident = "Self" || ident = "__Dyn"

/-- The name that a type is, if it is one. -/
def asIdent : Ty → Option Ident
  | .path false [.mk ident .none] => some ident
  | .paren elem => asIdent elem
  | _ => none

/-- The arguments other than lifetimes, as the names that they are. -/
def argIdents : PathArguments → List (Option Ident)
  | .none => []
  | .angleBracketed args => args.filterMap fun
    | .lifetime _ => none
    | .type ty => some (asIdent ty)
    | _ => some none
  | .parenthesized _ _ => [none]

/-- The parameter that stands for an associated type. -/
def typeParam (ident : Ident) : Ty := .ofIdent ("__Type" ++ unraw ident)

namespace Names

/-- `X`, if it is an associated type of the trait. -/
def assocType (n : Names) : List PathSegment → Option Ident
  | [.mk ident _] => if ident ∈ n.assoc then some ident else none
  | _ => none

/-- The path names the trait with the arguments that it has in its declaration. -/
def ownTrait (n : Names) (segments : List PathSegment) : Bool :=
  n.isTrait (segments.map (·.ident)) && !(segments.map (·.ident)).any isReserved &&
    !n.args.any isReserved &&
    (segments.getLast?.map fun s => argIdents s.arguments) = some (n.args.map some)

/-- The `X` of `<T as Trait>::X` and `<T>::X`, for the name `self` of the implementing type. -/
def projection (n : Names) (self : Ident) (qself : Ty) (position : ℕ)
    (segments : List PathSegment) : Option Ident :=
  if asIdent qself = some self ∧
    (position = 0 ∨ n.ownTrait (segments.take position) = true) then
    n.assocType (segments.drop position)
  else none

end Names

namespace Scope

/-- What follows `Self` in a path. -/
def selfPath (sc : Scope) (rest : List PathSegment) : Ty :=
  match sc.assocType rest, rest with
  | some ident, _ => typeParam ident
  | none, [] => sc.selfTy
  | none, rest => .qpath sc.selfTy 0 false rest

/-- Paths to parameters are the ones without leading colons. -/
def path (sc : Scope) : Bool → List PathSegment → Ty
  | false, .mk ident arguments :: rest =>
    if ident = sc.self then sc.selfPath rest
    else .path (!sc.params.contains ident) (.mk ident arguments :: rest)
  | _, segments => .path true segments

mutual

/-- The type that is meant, up to lifetimes. -/
def ty (sc : Scope) : Ty → Ty
  | .array elem len => .array (sc.ty elem) len
  | .bareFn _ qualifiers inputs output =>
    .bareFn [] qualifiers (sc.tys inputs) (sc.returnType output)
  | .implTrait bounds => .implTrait (sc.bounds bounds)
  | .never => .never
  | .paren elem => sc.ty elem
  | .path leading segments =>
    (sc.known (.path leading segments)).getD (sc.path leading (sc.segments segments))
  | .qpath qself position leading segments =>
    (sc.known (.qpath qself position leading segments)).getD <|
      match sc.projection sc.self qself position segments with
      | some ident => typeParam ident
      | none => .qpath (sc.ty qself) position leading (sc.segments segments)
  | .ptr mutability elem => .ptr mutability (sc.ty elem)
  | .reference _ mutability elem => .reference none mutability (sc.ty elem)
  | .slice elem => .slice (sc.ty elem)
  | .traitObject bounds => .traitObject (sc.bounds bounds)
  | .tuple elems => .tuple (sc.tys elems)

def tys (sc : Scope) : List Ty → List Ty
  | [] => []
  | t :: ts => sc.ty t :: sc.tys ts

def returnType (sc : Scope) : ReturnType → ReturnType
  | .default => .default
  | .type t => .type (sc.ty t)

def segments (sc : Scope) : List PathSegment → List PathSegment
  | [] => []
  | .mk ident arguments :: ss => .mk ident (sc.arguments arguments) :: sc.segments ss

def arguments (sc : Scope) : PathArguments → PathArguments
  | .none => .none
  | .angleBracketed args => .angleBracketed (sc.genericArgs args)
  | .parenthesized inputs output => .parenthesized (sc.tys inputs) (sc.returnType output)

def genericArgs (sc : Scope) : List GenericArgument → List GenericArgument
  | [] => []
  | .lifetime _ :: as => sc.genericArgs as
  | .type t :: as => .type (sc.ty t) :: sc.genericArgs as
  | .const expr :: as => .const expr :: sc.genericArgs as
  | .assocType ident generics t :: as =>
    .assocType ident (sc.genericArgs generics) (sc.ty t) :: sc.genericArgs as
  | .constraint ident generics bounds :: as =>
    .constraint ident (sc.genericArgs generics) (sc.bounds bounds) :: sc.genericArgs as

def bounds (sc : Scope) : List TypeParamBound → List TypeParamBound
  | [] => []
  | .trait maybe _ leading segments :: bs =>
    .trait maybe [] leading (sc.segments segments) :: sc.bounds bs
  | .lifetime _ :: bs | .preciseCapture _ :: bs => sc.bounds bs

end

end Scope

/-- `Self::X`, for an associated type of the trait. -/
def OwnPath (n : Names) (leading : Bool) : List PathSegment → Prop
  | .mk ident _ :: rest => leading = false ∧ ident = "Self" ∧ (n.assocType rest).isSome
  | [] => False

/-- The path starts at the name of the concrete type. -/
def AtDyn (leading : Bool) : List PathSegment → Prop
  | .mk ident _ :: _ => leading = false ∧ ident = "__Dyn"
  | [] => False

mutual

/-- `Self` occurs only in front of an associated type of the trait, and `__Dyn` names nothing,
other than in paths that are known. -/
def Projected (n : Names) : Ty → Prop
  | .array elem _ | .paren elem | .ptr _ elem | .reference _ _ elem | .slice elem =>
    Projected n elem
  | .bareFn _ _ inputs output => ProjectedTys n inputs ∧ ProjectedReturn n output
  | .implTrait bounds | .traitObject bounds => ProjectedBounds n bounds
  | .never => True
  | .path leading segments => (n.known (.path leading segments)).isSome ∨
    OwnPath n leading segments ∨ ¬ AtDyn leading segments ∧ ProjectedSegments n segments
  | .qpath qself position leading segments =>
    (n.known (.qpath qself position leading segments)).isSome ∨
      (n.projection "Self" qself position segments).isSome ∨
      Projected n qself ∧ ProjectedSegments n segments
  | .tuple elems => ProjectedTys n elems

def ProjectedTys (n : Names) : List Ty → Prop
  | [] => True
  | t :: ts => Projected n t ∧ ProjectedTys n ts

def ProjectedReturn (n : Names) : ReturnType → Prop
  | .default => True
  | .type t => Projected n t

def ProjectedSegments (n : Names) : List PathSegment → Prop
  | [] => True
  | .mk ident arguments :: ss =>
    ident ≠ "Self" ∧ ProjectedArguments n arguments ∧ ProjectedSegments n ss

def ProjectedArguments (n : Names) : PathArguments → Prop
  | .none => True
  | .angleBracketed args => ProjectedArgs n args
  | .parenthesized inputs output => ProjectedTys n inputs ∧ ProjectedReturn n output

def ProjectedArgs (n : Names) : List GenericArgument → Prop
  | [] => True
  | .lifetime _ :: as | .const _ :: as => ProjectedArgs n as
  | .type t :: as => Projected n t ∧ ProjectedArgs n as
  | .assocType _ generics t :: as =>
    ProjectedArgs n generics ∧ Projected n t ∧ ProjectedArgs n as
  | .constraint _ generics bounds :: as =>
    ProjectedArgs n generics ∧ ProjectedBounds n bounds ∧ ProjectedArgs n as

def ProjectedBounds (n : Names) : List TypeParamBound → Prop
  | [] => True
  | .trait _ _ _ segments :: bs => ProjectedSegments n segments ∧ ProjectedBounds n bs
  | .lifetime _ :: bs | .preciseCapture _ :: bs => ProjectedBounds n bs

end

namespace Names

/-- The scope of `impl Vtable<__Dyn>`. -/
def stored (n : Names) : Scope := { n with self := "__Dyn", selfTy := .ofIdent "__Dyn" }

/-- The scope of `impl Trait for DynObject`. -/
def called (n : Names) (dynObject : List PathSegment) : Scope :=
  { n with self := "Self", selfTy := .path true dynObject }

@[simp] theorem stored_toNames (n : Names) : n.stored.toNames = n := rfl
@[simp] theorem called_toNames (n : Names) (dynObject : List PathSegment) :
    (n.called dynObject).toNames = n := rfl

end Names

/-- What `replaceSelfWithDyn` makes of an identifier. -/
abbrev rename : Ident → Ident := replaceSelfWithDyn.segment

theorem rename_self : rename "Self" = "__Dyn" := rfl

theorem rename_of_ne {ident : Ident} (h : ident ≠ "Self") : rename ident = ident := if_neg h

theorem rename_eq_dyn {ident : Ident} :
    rename ident = "__Dyn" ↔ ident = "Self" ∨ ident = "__Dyn" := by
  by_cases h : ident = "Self" <;> simp [rename, replaceSelfWithDyn, h]

theorem rename_eq_iff {ident : Ident} : rename ident = ident ↔ ident ≠ "Self" := by
  by_cases h : ident = "Self" <;> simp [rename, replaceSelfWithDyn, h]

theorem isReserved_rename (ident : Ident) : isReserved (rename ident) = isReserved ident := by
  by_cases h : ident = "Self" <;> simp [rename, replaceSelfWithDyn, isReserved, h]

/-- Only a name that is not reserved comes out as one that is not. -/
theorem rename_eq_of_not_reserved {ident ident' : Ident} (h : isReserved ident' = false) :
    rename ident = ident' ↔ ident = ident' := by
  simp only [isReserved, Bool.or_eq_false_iff, decide_eq_false_iff_not] at h
  by_cases hi : ident = "Self"
  · subst hi
    simp only [rename_self]
    exact ⟨fun h' => absurd h'.symm h.2, fun h' => absurd h'.symm h.1⟩
  · rw [rename_of_ne hi]

theorem asIdent_rename (d : ℕ) : ∀ t : Ty,
    asIdent (replaceSelfWithDyn.ty d t) = (asIdent t).map rename
  | .path false [.mk _ .none] => rfl
  | .paren elem => asIdent_rename d elem
  | .path true _ | .path false [] | .path false (.mk _ (.angleBracketed _) :: _)
  | .path false (.mk _ (.parenthesized _ _) :: _) | .path false (.mk _ .none :: .mk _ _ :: _)
  | .array _ _ | .bareFn _ _ _ _ | .implTrait _ | .never | .qpath _ _ _ _ | .ptr _ _
  | .reference _ _ _ | .slice _ | .traitObject _ | .tuple _ => rfl

theorem argIdents_rename (d : ℕ) (a : PathArguments) :
    argIdents (replaceSelfWithDyn.arguments d a) = (argIdents a).map (Option.map rename) := by
  cases a with
  | none => rfl
  | parenthesized inputs output => rfl
  | angleBracketed args =>
    induction args with
    | nil => rfl
    | cons a as ih =>
      simp only [argIdents, VisitMut.arguments, VisitMut.genericArgs] at ih ⊢
      cases a <;> simp [VisitMut.genericArg, ih, asIdent_rename]

/-- Names that are not reserved are recognised before and after the renaming alike. -/
theorem map_rename_eq_iff {idents : List (Option Ident)} {args : List Ident}
    (h : args.any isReserved = false) :
    idents.map (Option.map rename) = args.map some ↔ idents = args.map some := by
  induction idents generalizing args with
  | nil => cases args <;> simp
  | cons i is ih =>
    cases args with
    | nil => simp
    | cons a as =>
      rw [List.any_cons, Bool.or_eq_false_iff] at h
      simp only [List.map_cons, List.cons.injEq, ih h.2]
      cases i <;> simp [rename_eq_of_not_reserved h.1]

theorem take_segments (v : VisitMut) (d k : ℕ) (ss : List PathSegment) :
    (v.segments d ss).take k = v.segments d (ss.take k) := by
  induction ss generalizing k with
  | nil => cases k <;> rfl
  | cons s ss ih => cases s; cases k <;> simp [VisitMut.segments, ih]

theorem drop_segments (v : VisitMut) (d k : ℕ) (ss : List PathSegment) :
    (v.segments d ss).drop k = v.segments d (ss.drop k) := by
  induction ss generalizing k with
  | nil => cases k <;> rfl
  | cons s ss ih => cases s; cases k <;> simp [VisitMut.segments, ih]

theorem getLast_segments (v : VisitMut) (d : ℕ) (ss : List PathSegment) :
    ((v.segments d ss).getLast?.map fun s => argIdents s.arguments) =
      ss.getLast?.map fun s => argIdents (v.arguments d s.arguments) := by
  induction ss with
  | nil => rfl
  | cons s ss ih =>
    obtain ⟨ident, arguments⟩ := s
    cases ss with
    | nil => rfl
    | cons s ss =>
      obtain ⟨ident', arguments'⟩ := s
      simpa [VisitMut.segments, List.getLast?_cons_cons] using ih

namespace Names
variable (n : Names) (d : ℕ)

theorem ownTrait_rename (segments : List PathSegment) :
    n.ownTrait (replaceSelfWithDyn.segments d segments) = n.ownTrait segments := by
  have hr : ((segments.map (·.ident)).map rename).any isReserved =
      (segments.map (·.ident)).any isReserved := by
    simp [List.any_map, Function.comp_def, isReserved_rename]
  simp only [ownTrait, VisitMut.idents_segments, getLast_segments, argIdents_rename, hr]
  cases ha : n.args.any isReserved
  · cases hs : (segments.map (·.ident)).any isReserved
    · have hi : (segments.map (·.ident)).map rename = segments.map (·.ident) := by
        refine (List.map_congr_left ?_).trans (List.map_id _)
        intro ident h
        have := List.any_eq_false.mp hs ident h
        exact rename_of_ne fun h => by simp [h, isReserved] at this
      rw [hi]
      cases segments.getLast? with
      | none => rfl
      | some s => simp [map_rename_eq_iff ha]
    · simp
  · simp

/-- Only the identifiers of a path decide whether it is an associated type. -/
theorem assocType_rename {segments segments' : List PathSegment} {ident : Ident}
    (hs : segments'.map (·.ident) = (segments.map (·.ident)).map rename)
    (h : n.assocType segments = some ident) : n.assocType segments' = some ident := by
  match segments, segments' with
  | [.mk i _], [.mk i' _] =>
    simp only [assocType, Option.ite_none_right_eq_some, Option.some.injEq] at h ⊢
    obtain ⟨hi, rfl⟩ := h
    have hr : rename i = i := rename_of_ne fun h => n.self_not_assoc (h ▸ hi)
    obtain rfl : i' = i := by simpa [PathSegment.ident, hr] using hs
    exact ⟨hi, rfl⟩

/-- A projection from `Self` is one from `__Dyn` after the renaming. -/
theorem projection_rename {qself : Ty} {position : ℕ} {segments : List PathSegment}
    {ident : Ident} (h : n.projection "Self" qself position segments = some ident) :
    n.projection "__Dyn" (replaceSelfWithDyn.ty d qself) position
      (replaceSelfWithDyn.segments d segments) = some ident := by
  simp only [projection, Option.ite_none_right_eq_some] at h ⊢
  obtain ⟨⟨hq, hp⟩, hi⟩ := h
  rw [asIdent_rename, hq, take_segments, ownTrait_rename, drop_segments]
  exact ⟨⟨rfl, hp⟩, n.assocType_rename (VisitMut.idents_segments _ _ _) hi⟩

end Names

/-- The implementing type has no known name. -/
theorem Resolution.known_reserved (R : Resolution) {ident : Ident}
    (h : isReserved ident = true) : R.known (.path false [.mk ident .none]) = none := by
  simp only [isReserved, Bool.or_eq_true, decide_eq_true_eq] at h
  rcases h with rfl | rfl
  · exact R.known_self
  · exact (R.known_rename 0 (.ofIdent "Self")).trans R.known_self

/-- A type that is the name of the implementing type is not projected. -/
theorem not_projected_of_asIdent (n : Names) {ident : Ident} (hr : isReserved ident = true) :
    ∀ t : Ty, asIdent t = some ident → ¬ Projected n t
  | .path false [.mk i .none], h => by
    obtain rfl : i = ident := by simpa [asIdent] using h
    have hk := n.known_reserved hr
    simp only [isReserved, Bool.or_eq_true, decide_eq_true_eq] at hr
    rcases hr with rfl | rfl <;>
      simp [Projected, OwnPath, AtDyn, ProjectedSegments, Names.assocType, hk]
  | .paren elem, h => not_projected_of_asIdent n hr elem h

theorem selfPath_of_assocType (sc : Scope) {ss : List PathSegment} {ident : Ident}
    (h : sc.assocType ss = some ident) : sc.selfPath ss = typeParam ident := by
  simp [Scope.selfPath, h]

theorem selfPath_nil (sc : Scope) : sc.selfPath [] = sc.selfTy := rfl

theorem selfPath_of_none (sc : Scope) {ss : List PathSegment} (h : sc.assocType ss = none)
    (hs : ss ≠ []) : sc.selfPath ss = .qpath sc.selfTy 0 false ss := by
  cases ss with
  | nil => exact absurd rfl hs
  | cons s ss => simp [Scope.selfPath, h]

/-- Only associated types of the trait mean the same in both impls. -/
theorem selfPath_eq_iff (n : Names) (dynObject : List PathSegment) {ss ss' : List PathSegment}
    (hs : ss.map (·.ident) = (ss'.map (·.ident)).map rename) :
    n.stored.selfPath ss = (n.called dynObject).selfPath ss' ↔ (n.assocType ss').isSome := by
  have hne : n.stored.selfTy ≠ (n.called dynObject).selfTy := by
    simp [Names.stored, Names.called, Ty.ofIdent]
  cases h' : n.assocType ss' with
  | some ident =>
    rw [selfPath_of_assocType n.stored (n.assocType_rename hs h'),
      selfPath_of_assocType (n.called dynObject) h']
    simp
  | none =>
    cases ss' with
    | nil =>
      obtain rfl : ss = [] := by simpa using hs
      simpa [selfPath_nil] using hne
    | cons s' rest' =>
      rw [selfPath_of_none (n.called dynObject) h' (by simp)]
      cases h : n.assocType ss with
      | some ident =>
        simp [selfPath_of_assocType n.stored h, typeParam, Ty.ofIdent]
      | none =>
        rw [selfPath_of_none n.stored h (by rintro rfl; simp at hs)]
        simp [hne]

/-- Nothing that belongs to the concrete type is an item. -/
theorem stored_selfPath_ne (n : Names) (ss segments : List PathSegment) :
    n.stored.selfPath ss ≠ .path true segments := by
  cases h : n.stored.assocType ss with
  | some ident => simp [selfPath_of_assocType n.stored h, typeParam, Ty.ofIdent]
  | none =>
    by_cases hs : ss = []
    · simp [hs, selfPath_nil, Names.stored, Ty.ofIdent]
    · simp [selfPath_of_none n.stored h hs]

theorem idents_scope (sc : Scope) (ss : List PathSegment) :
    (sc.segments ss).map (·.ident) = ss.map (·.ident) := by
  induction ss with
  | nil => rfl
  | cons s ss ih =>
    obtain ⟨ident, arguments⟩ := s
    simpa [Scope.segments, PathSegment.ident] using ih

theorem assocType_scope (n : Names) (sc : Scope) (ss : List PathSegment) :
    n.assocType (sc.segments ss) = n.assocType ss := by
  match ss with
  | [] | [.mk _ _] | .mk _ _ :: .mk _ _ :: _ => rfl

/-- A path to something else than the implementing type. -/
theorem path_of_ne (sc : Scope) {ident : Ident} {arguments : PathArguments}
    {rest : List PathSegment} (h : ident ≠ sc.self) :
    sc.path false (.mk ident arguments :: rest) =
      .path (!sc.params.contains ident) (.mk ident arguments :: rest) := by
  simp [Scope.path, h]

theorem path_self (sc : Scope) {ident : Ident} {arguments : PathArguments}
    {rest : List PathSegment} (h : ident = sc.self) :
    sc.path false (.mk ident arguments :: rest) = sc.selfPath rest := by
  simp [Scope.path, h]

/-- The path of a type, once its arguments are known to agree. -/
theorem path_eq_iff (n : Names) (d : ℕ) (dynObject : List PathSegment) (leading : Bool)
    (ss : List PathSegment)
    (ih : n.stored.segments (replaceSelfWithDyn.segments d ss) =
      (n.called dynObject).segments ss ↔ ProjectedSegments n ss) :
    n.stored.path leading (n.stored.segments (replaceSelfWithDyn.segments d ss)) =
        (n.called dynObject).path leading ((n.called dynObject).segments ss) ↔
      OwnPath n leading ss ∨ ¬ AtDyn leading ss ∧ ProjectedSegments n ss := by
  cases leading with
  | true =>
    cases ss with
    | nil => simp [Scope.path, OwnPath, AtDyn, ProjectedSegments, VisitMut.segments, Scope.segments]
    | cons s rest =>
      obtain ⟨ident, arguments⟩ := s
      simpa [Scope.path, OwnPath, AtDyn] using ih
  | false =>
    cases ss with
    | nil => simp [Scope.path, OwnPath, AtDyn, ProjectedSegments, VisitMut.segments, Scope.segments]
    | cons s rest =>
      obtain ⟨ident, arguments⟩ := s
      have hi : (n.stored.segments (replaceSelfWithDyn.segments d rest)).map (·.ident) =
          (((n.called dynObject).segments rest).map (·.ident)).map rename := by
        rw [idents_scope, idents_scope, VisitMut.idents_segments]
      simp only [VisitMut.segments, Scope.segments, OwnPath, AtDyn, true_and] at ih ⊢
      by_cases hs : ident = "Self"
      · subst hs
        have hc : "Self" = (n.called dynObject).self := rfl
        rw [path_self n.stored rename_self, path_self (n.called dynObject) hc,
          selfPath_eq_iff n dynObject hi, assocType_scope]
        simp [ProjectedSegments]
      · have hc : ident ≠ (n.called dynObject).self := hs
        have hr : replaceSelfWithDyn.segment ident = ident := rename_of_ne hs
        rw [path_of_ne (n.called dynObject) hc, hr]
        rw [hr] at ih
        by_cases hd : ident = "__Dyn"
        · subst hd
          have hp : n.params.contains "__Dyn" = false := by simpa using n.dyn_not_param
          have hd : "__Dyn" = n.stored.self := rfl
          rw [path_self n.stored hd, Names.called_toNames, hp]
          simp [stored_selfPath_ne]
        · rw [path_of_ne n.stored hd]
          simpa [hs, hd, -List.contains_eq_mem] using ih

/-- The same for paths that start at a type. -/
theorem qpath_eq_iff (n : Names) (d : ℕ) (dynObject : List PathSegment) {qself : Ty}
    {position : ℕ} {leading : Bool} {segments : List PathSegment}
    (hq : n.stored.ty (replaceSelfWithDyn.ty d qself) = (n.called dynObject).ty qself ↔
      Projected n qself)
    (hs : n.stored.segments (replaceSelfWithDyn.segments d segments) =
      (n.called dynObject).segments segments ↔ ProjectedSegments n segments) :
    n.stored.ty (replaceSelfWithDyn.ty d (.qpath qself position leading segments)) =
        (n.called dynObject).ty (.qpath qself position leading segments) ↔
      Projected n (.qpath qself position leading segments) := by
  have hk := n.known_rename d (.qpath qself position leading segments)
  simp only [VisitMut.ty] at hk
  simp only [VisitMut.ty, Scope.ty, Projected, Names.stored_toNames, Names.called_toNames, hk]
  cases n.known (.qpath qself position leading segments) with
  | some t => simp
  | none =>
    simp only [Option.getD_none, Option.isSome_none, Bool.false_eq_true, false_or]
    cases hc : n.projection (n.called dynObject).self qself position segments with
    | some ident =>
      have hn : n.projection n.stored.self (replaceSelfWithDyn.ty d qself) position
          (replaceSelfWithDyn.segments d segments) = some ident := n.projection_rename d hc
      have hp : (n.projection "Self" qself position segments).isSome := Option.isSome_of_eq_some hc
      simp [hn, hp]
    | none =>
      have hp : n.projection "Self" qself position segments = none := hc
      cases hn : n.projection n.stored.self (replaceSelfWithDyn.ty d qself) position
          (replaceSelfWithDyn.segments d segments) with
      | some ident =>
        -- The `qself` is one of the two names: both are projected, but from different types.
        simp only [Names.projection, Option.ite_none_right_eq_some, asIdent_rename,
          Option.map_eq_some_iff] at hn
        obtain ⟨⟨⟨i, hi, hr⟩, -⟩, -⟩ := hn
        have hres : isReserved i = true := by
          rcases rename_eq_dyn.mp hr with rfl | rfl <;> rfl
        simp [hp, not_projected_of_asIdent n hres qself hi, typeParam, Ty.ofIdent]
      | none => simp [hp, hq, hs]

section
variable (n : Names) (dynObject : List PathSegment)

mutual

/-- The renamed type means in one impl what the type means in the other exactly if it
mentions `Self` only through associated types of the trait and in paths that are known. -/
theorem ty_eq_iff (d : ℕ) : ∀ t : Ty,
    n.stored.ty (replaceSelfWithDyn.ty d t) = (n.called dynObject).ty t ↔ Projected n t
  | .array elem _ | .paren elem | .ptr _ elem | .reference _ _ elem | .slice elem => by
    simp [VisitMut.ty, Scope.ty, Projected, ty_eq_iff d elem]
  | .bareFn _ _ inputs output => by
    simp [VisitMut.ty, Scope.ty, Projected, tys_eq_iff (d + 1) inputs,
      returnType_eq_iff (d + 1) output]
  | .implTrait bounds | .traitObject bounds => by
    simp [VisitMut.ty, Scope.ty, Projected, bounds_eq_iff d bounds]
  | .never => by simp [VisitMut.ty, Scope.ty, Projected]
  | .path leading segments => by
    have hk := n.known_rename d (.path leading segments)
    simp only [VisitMut.ty] at hk
    simp only [VisitMut.ty, Scope.ty, Projected, Names.stored_toNames, Names.called_toNames, hk]
    cases n.known (.path leading segments) with
    | some t => simp
    | none => simpa using path_eq_iff n d dynObject leading segments (segments_eq_iff d segments)
  | .qpath qself position leading segments => by
    exact qpath_eq_iff n d dynObject (ty_eq_iff d qself) (segments_eq_iff d segments)
  | .tuple elems => by simp [VisitMut.ty, Scope.ty, Projected, tys_eq_iff d elems]

theorem tys_eq_iff (d : ℕ) : ∀ ts : List Ty,
    n.stored.tys (replaceSelfWithDyn.tys d ts) = (n.called dynObject).tys ts ↔ ProjectedTys n ts
  | [] => by simp [VisitMut.tys, Scope.tys, ProjectedTys]
  | t :: ts => by
    simp [VisitMut.tys, Scope.tys, ProjectedTys, ty_eq_iff d t, tys_eq_iff d ts]

theorem returnType_eq_iff (d : ℕ) : ∀ r : ReturnType,
    n.stored.returnType (replaceSelfWithDyn.returnType d r) = (n.called dynObject).returnType r ↔
      ProjectedReturn n r
  | .default => by simp [VisitMut.returnType, Scope.returnType, ProjectedReturn]
  | .type t => by
    simp [VisitMut.returnType, Scope.returnType, ProjectedReturn, ty_eq_iff d t]

theorem segments_eq_iff (d : ℕ) : ∀ ss : List PathSegment,
    n.stored.segments (replaceSelfWithDyn.segments d ss) = (n.called dynObject).segments ss ↔
      ProjectedSegments n ss
  | [] => by simp [VisitMut.segments, Scope.segments, ProjectedSegments]
  | .mk ident arguments :: ss => by
    simp [VisitMut.segments, Scope.segments, ProjectedSegments, rename_eq_iff,
      arguments_eq_iff d arguments, segments_eq_iff d ss, and_assoc]

theorem arguments_eq_iff (d : ℕ) : ∀ a : PathArguments,
    n.stored.arguments (replaceSelfWithDyn.arguments d a) = (n.called dynObject).arguments a ↔
      ProjectedArguments n a
  | .none => by simp [VisitMut.arguments, Scope.arguments, ProjectedArguments]
  | .angleBracketed args => by
    simp [VisitMut.arguments, Scope.arguments, ProjectedArguments, args_eq_iff d args]
  | .parenthesized inputs output => by
    simp [VisitMut.arguments, Scope.arguments, ProjectedArguments, tys_eq_iff (d + 1) inputs,
      returnType_eq_iff (d + 1) output]

theorem args_eq_iff (d : ℕ) : ∀ as : List GenericArgument,
    n.stored.genericArgs (replaceSelfWithDyn.genericArgs d as) =
      (n.called dynObject).genericArgs as ↔ ProjectedArgs n as
  | [] => by simp [VisitMut.genericArgs, Scope.genericArgs, ProjectedArgs]
  | .lifetime _ :: as | .const _ :: as => by
    simp [VisitMut.genericArgs, VisitMut.genericArg, Scope.genericArgs, ProjectedArgs,
      args_eq_iff d as]
  | .type t :: as => by
    simp [VisitMut.genericArgs, VisitMut.genericArg, Scope.genericArgs, ProjectedArgs,
      ty_eq_iff d t, args_eq_iff d as]
  | .assocType _ generics t :: as => by
    simp [VisitMut.genericArgs, VisitMut.genericArg, Scope.genericArgs, ProjectedArgs,
      args_eq_iff d generics, ty_eq_iff d t, args_eq_iff d as, and_assoc]
  | .constraint _ generics bounds :: as => by
    simp [VisitMut.genericArgs, VisitMut.genericArg, Scope.genericArgs, ProjectedArgs,
      args_eq_iff d generics, bounds_eq_iff d bounds, args_eq_iff d as, and_assoc]

theorem bounds_eq_iff (d : ℕ) : ∀ bs : List TypeParamBound,
    n.stored.bounds (replaceSelfWithDyn.bounds d bs) = (n.called dynObject).bounds bs ↔
      ProjectedBounds n bs
  | [] => by simp [VisitMut.bounds, Scope.bounds, ProjectedBounds]
  | .trait _ _ _ segments :: bs => by
    simp [VisitMut.bounds, VisitMut.bound, Scope.bounds, ProjectedBounds,
      segments_eq_iff d segments, bounds_eq_iff d bs]
  | .lifetime _ :: bs | .preciseCapture _ :: bs => by
    simp [VisitMut.bounds, VisitMut.bound, Scope.bounds, ProjectedBounds, bounds_eq_iff d bs]

end

end

/-- The type from which the entry of the vtable is erased. -/
def storedAt : Expr → Option Ty
  | .unsafeBlock (.call (.turbofish _ [fnPtr, _]) _) => some fnPtr
  | _ => none

/-- The type to which the entry is turned back for the call. -/
def calledAt : Expr → Option Ty
  | .unsafeBlock (.call (.call (.turbofish _ [_, fnPtr]) _) _) => some fnPtr
  | _ => none

/-- The names that the expansion declares, with those that are declared around it. -/
def Names.of (obj : DynObject) (R : Resolution) : Names where
  toResolution := R
  params := (obj.output.traitImpl.generics.filterMap (·.typeIdent)).filter (· ≠ "__Dyn")
  args := obj.trait.generics.params.filterMap (·.typeIdent)
  assoc := (obj.types.map (·.2.ident)).filter (· ≠ "Self")
  dyn_not_param := by simp
  self_not_assoc := by simp

/-- The entry of the method is stored and called at one type. -/
def Agree (obj : DynObject) (R : Resolution) (method : DispatchableFn) : Prop :=
  let n := Names.of obj R
  (storedAt (DynObject.vtableMethod method).2).map n.stored.ty =
    (calledAt (DynObject.implMethod method).block.value).map
      (n.called (obj.output.traitImpl.selfTy.pathSegments.getD [])).ty

/-- The signature mentions `Self` only through associated types of the trait, and in paths that
are known. -/
def ProjectedSig (n : Names) (sig : Signature) : Prop :=
  ProjectedTys n sig.typedInputs ∧ ProjectedReturn n sig.output

theorem map_replaceSelfWithDyn (ts : List Ty) :
    ts.map (replaceSelfWithDyn.ty 0) = replaceSelfWithDyn.tys 0 ts := by
  induction ts with
  | nil => rfl
  | cons t ts ih => simp [VisitMut.tys, ih]

/-- The storage is passed at the same type in any case. -/
theorem storage_eq (n : Names) (dynObject : List PathSegment) (r : VtableReceiver)
    (recvLt : Option Lifetime) :
    n.stored.ty (r.storage recvLt) = (n.called dynObject).ty (r.storage recvLt) := by
  have hs : replaceSelfWithDyn.ty 0 (r.storage recvLt) = r.storage recvLt := by
    cases r <;> cases recvLt <;> rfl
  have hp : Projected n (r.storage recvLt) := by
    cases r <;> simp [VtableReceiver.storage, pinTy, Ty.ofIdent, PathSegment.plain, Projected,
      AtDyn, ProjectedSegments, ProjectedArguments, ProjectedArgs]
  simpa [hs] using (ty_eq_iff n dynObject 0 (r.storage recvLt)).mpr hp

/-- The two function pointers of a method. -/
theorem vtableFnPointer_eq_iff (n : Names) (dynObject : List PathSegment)
    (method : DispatchableFn) :
    n.stored.ty (vtableFnPointer method true) = (n.called dynObject).ty
      (vtableFnPointer method false) ↔ ProjectedSig n method.sig := by
  have hs := storage_eq n dynObject (.new method) method.recvLt
  simp [vtableFnPointer, Scope.ty, Scope.tys, hs, ProjectedSig, map_replaceSelfWithDyn,
    tys_eq_iff, returnType_eq_iff]

theorem agree_iff (obj : DynObject) (R : Resolution) (method : DispatchableFn) :
    Agree obj R method ↔ ProjectedSig (Names.of obj R) method.sig := by
  have hfn := vtableFnPointer_eq_iff (Names.of obj R)
    (obj.output.traitImpl.selfTy.pathSegments.getD []) method
  simpa [Agree, storedAt, calledAt, DynObject.vtableMethod, DynObject.implMethod, implMethod]
    using hfn

/-- In any trait that `dyn_object` accepts, the entry of a method is stored and called at one
type exactly if its signature mentions `Self` only through associated types of the trait and in
paths that stand for one type whatever implements it. -/
theorem agree_iff_projected {trait : ItemTrait} {opts : DynObjectOps} {obj : DynObject}
    (h : readDynObject trait opts = .ok obj) (R : Resolution)
    {item : TraitItemFn} (hi : .fn item ∈ trait.items) :
    ∃ hd : isDispatchable item, ⟨item, hd⟩ ∈ obj.methods ∧
      (Agree obj R ⟨item, hd⟩ ↔ ProjectedSig (Names.of obj R) item.sig) := by
  obtain ⟨hs, rfl⟩ := DynObject.foldlM_parseItem_ok.mp h
  have hd : isDispatchable item := hs _ hi
  refine ⟨hd, ?_, agree_iff _ R ⟨item, hd⟩⟩
  simp only [List.mem_append, List.mem_filterMap]
  exact Or.inr ⟨_, hi, by simp [DynObject.itemFn, hd]⟩

def plainIdent : PathSegment → Option Ident
  | .mk ident .none => some ident
  | _ => none

/-- The names that a path without arguments is made of. -/
def plainIdents : Ty → Option (List Ident)
  | .path false segments => segments.mapM plainIdent
  | _ => none

theorem plainIdents_rename (d : ℕ) (t : Ty) :
    plainIdents (replaceSelfWithDyn.ty d t) = (plainIdents t).map (List.map rename) := by
  cases t with
  | path leading segments =>
    cases leading with
    | true => rfl
    | false =>
      simp only [VisitMut.ty, plainIdents]
      induction segments with
      | nil => rfl
      | cons s segments ih =>
        obtain ⟨ident, arguments⟩ := s
        simp only [VisitMut.segments, List.mapM_cons, ih]
        cases arguments with
        | none => cases segments.mapM plainIdent <;> rfl
        | _ => rfl
  | _ => rfl

/-- What is known where supertraits fix associated types, as in `Super<Item = u8>`. -/
def Resolution.fixing (isTrait : List Ident → Bool) (fixed : List (Ident × Ty)) : Resolution where
  isTrait
  known t := (plainIdents t).bind fun
    | [ident, item] => if isReserved ident && !isReserved item then fixed.lookup item else none
    | _ => none
  known_rename d t := by
    rw [plainIdents_rename]
    match plainIdents t with
    | some [ident, item] =>
      simp only [Option.map_some, List.map_cons, List.map_nil, Option.bind_some,
        isReserved_rename]
      by_cases h : isReserved item = true
      · simp [h]
      · have hs : item ≠ "Self" := fun hs => h (hs ▸ rfl)
        rw [rename_of_ne hs]
    | none | some [] | some [_] | some (_ :: _ :: _ :: _) => rfl
  known_self := rfl

/-- `fn dup(&self) -> #output where Self: Sized;` -/
def dupFn (output : Ty) : TraitItemFn where
  attrs := []
  sig := {
    asyncness := false
    unsafety := false
    ident := "dup"
    generics := ⟨[], some [.type [] (.ofIdent "Self")
      [.trait false [] false [.plain "Sized"]]]⟩
    inputs := [.receiver ⟨some none, false, false, .reference none false (.ofIdent "Self")⟩]
    output := .type output }
  default := none

/-- `trait Dup: #supertraits { #item }` -/
def dup (supertraits : List TypeParamBound) (item : TraitItemFn) : ItemTrait where
  attrs := []
  unsafety := false
  ident := "Dup"
  generics := ⟨[], none⟩
  colon := !supertraits.isEmpty
  supertraits
  items := [.fn item]

theorem dup_accepted (supertraits : List TypeParamBound) (output : Ty) :
    readDynObject (dup supertraits (dupFn output)) {} = .ok
      { DynObject.new (dup supertraits (dupFn output)) {} with
        methods := [⟨dupFn output, rfl⟩] } := by
  refine DynObject.foldlM_parseItem_ok.mpr ⟨?_, rfl⟩
  simp only [dup, List.mem_singleton, forall_eq]
  rfl

theorem dup_dynCompatible (output : Ty) : (dup [] (dupFn output)).DynCompatible := by
  refine ⟨by simp [dup], ?_⟩
  simp only [dup, List.mem_singleton, forall_eq]
  exact Or.inl rfl

/-- `Super<Item = u8>` -/
def superU8 : TypeParamBound :=
  .trait false [] false [.mk "Super" (.angleBracketed [.assocType "Item" [] (.ofIdent "u8")])]

/-- `Self::Item` -/
def selfItem : Ty := .path false [.plain "Self", .plain "Item"]

/-- The same on both sides: `u8`. -/
theorem agree_iff_projected_item :
    ∃ hd : isDispatchable (dupFn selfItem) = true,
      Agree { DynObject.new (dup [superU8] (dupFn selfItem)) {} with
          methods := [⟨dupFn selfItem, rfl⟩] }
        (.fixing (· = ["Dup"]) [("Item", .ofIdent "u8")]) ⟨dupFn selfItem, hd⟩ := by
  have hi : .fn (dupFn selfItem) ∈ (dup [superU8] (dupFn selfItem)).items := by simp [dup]
  obtain ⟨hd, -, h⟩ := agree_iff_projected (dup_accepted [superU8] selfItem)
    (.fixing (· = ["Dup"]) [("Item", .ofIdent "u8")]) hi
  exact ⟨hd, h.mpr ⟨trivial, Or.inl rfl⟩⟩

/-- The result of `dup` is stored as `__Dyn`, and taken for a `DynObject`. -/
theorem dup_disagrees : ¬ ∀ (trait : ItemTrait) (opts : DynObjectOps) (obj : DynObject)
    (R : Resolution), readDynObject trait opts = .ok obj → trait.DynCompatible →
      ∀ method ∈ obj.methods, Agree obj R method := by
  intro h
  have ha := h _ _ _ (.fixing (· = ["Dup"]) []) (dup_accepted [] (.ofIdent "Self"))
    (dup_dynCompatible (.ofIdent "Self")) _ (List.mem_singleton.mpr rfl)
  rw [agree_iff] at ha
  exact not_projected_of_asIdent _ (by decide : isReserved "Self" = true) (.ofIdent "Self") rfl ha.2

end DynUtils.Macros.FnPointers
