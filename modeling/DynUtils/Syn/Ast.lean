import Mathlib.Tactic.Common

/-! The part of Rust's syntax that trait declarations are made of, as `syn` parses it. -/
namespace Syn

abbrev Ident := String

/-- Tokens that are carried along as they are. -/
abbrev Tokens := String

structure Lifetime where
  ident : Ident
deriving DecidableEq

structure LifetimeParam where
  lifetime : Lifetime
  bounds : List Lifetime
deriving DecidableEq

/-- A parameter of `use<..>`. -/
inductive CapturedParam
  | lifetime (l : Lifetime)
  | ident (i : Ident)
deriving DecidableEq

mutual

inductive Ty
  | array (elem : Ty) (len : Tokens)
  /-- `qualifiers` are `unsafe` and the ABI. -/
  | bareFn (lifetimes : List LifetimeParam) (qualifiers : Tokens) (inputs : List Ty)
    (output : ReturnType)
  | implTrait (bounds : List TypeParamBound)
  | never
  | paren (elem : Ty)
  | path (leading : Bool) (segments : List PathSegment)
  /-- `<qself as A>::B`, where the first `position` segments are those of `A`. -/
  | qpath (qself : Ty) (position : ℕ) (leading : Bool) (segments : List PathSegment)
  | ptr (mutability : Bool) (elem : Ty)
  | reference (lifetime : Option Lifetime) (mutability : Bool) (elem : Ty)
  | slice (elem : Ty)
  | traitObject (bounds : List TypeParamBound)
  | tuple (elems : List Ty)

inductive ReturnType
  | default
  | type (ty : Ty)

inductive PathSegment
  | mk (ident : Ident) (arguments : PathArguments)

inductive PathArguments
  | none
  | angleBracketed (args : List GenericArgument)
  /-- As in `Fn(A, B) -> C`. -/
  | parenthesized (inputs : List Ty) (output : ReturnType)

inductive GenericArgument
  | lifetime (l : Lifetime)
  | type (ty : Ty)
  | const (expr : Tokens)
  | assocType (ident : Ident) (generics : List GenericArgument) (ty : Ty)
  | constraint (ident : Ident) (generics : List GenericArgument) (bounds : List TypeParamBound)

inductive TypeParamBound
  /-- `maybe` is the modifier of `?Sized`, `lifetimes` those of `for<..>`. -/
  | trait (maybe : Bool) (lifetimes : List LifetimeParam) (leading : Bool)
    (segments : List PathSegment)
  | lifetime (l : Lifetime)
  | preciseCapture (params : List CapturedParam)

end

structure Path where
  leading : Bool
  segments : List PathSegment

structure TypeReference where
  lifetime : Option Lifetime
  mutability : Bool
  elem : Ty

inductive GenericParam
  | lifetime (p : LifetimeParam)
  | type (ident : Ident) (bounds : List TypeParamBound) (default : Option Ty)
  | const (ident : Ident) (ty : Ty) (default : Option Tokens)

inductive WherePredicate
  | lifetime (l : Lifetime) (bounds : List Lifetime)
  | type (lifetimes : List LifetimeParam) (boundedTy : Ty) (bounds : List TypeParamBound)

structure Generics where
  params : List GenericParam
  whereClause : Option (List WherePredicate)

mutual

inductive Pat
  | ident (byRef mutability : Bool) (ident : Ident) (subpat : Option Pat)
  | wild
  /-- `..` -/
  | rest
  | tuple (elems : List Pat)
  | tupleStruct (path : Tokens) (elems : List Pat)
  /-- `rest` is a `..` after the fields. -/
  | struct (path : Tokens) (fields : List FieldPat) (rest : Bool)
  | reference (mutability : Bool) (pat : Pat)
  | paren (pat : Pat)
  | slice (elems : List Pat)
  | other (tokens : Tokens)

/-- `member: pat`, or `pat` alone where that is an identifier. -/
inductive FieldPat
  | mk (member : Ident) (pat : Pat)

end

/-- The receiver `self`. For the short forms `ty` is what they stand for. -/
structure Receiver where
  reference : Option (Option Lifetime)
  mutability : Bool
  colon : Bool
  ty : Ty

inductive FnArg
  | receiver (r : Receiver)
  | typed (pat : Pat) (ty : Ty)

structure Signature where
  asyncness : Bool
  unsafety : Bool
  ident : Ident
  generics : Generics
  inputs : List FnArg
  output : ReturnType

inductive Expr
  | path (path : Path)
  /-- `path::<args>` -/
  | turbofish (path : Path) (args : List Ty)
  | call (func : Expr) (args : List Expr)
  | methodCall (receiver : Expr) (method : Ident) (args : List Expr)
  | field (base : Expr) (member : Ident)
  | closure (inputs : List Expr) (body : Expr)
  | unsafeBlock (value : Expr)
  | ifElse (cond thenBranch elseBranch : Expr)
  | mac (path : Path)
  | pat (p : Pat)
  | lit (value : Bool)
  | verbatim (tokens : Tokens)

/-- `let _ = e;` for each of the statements, then the value. -/
structure Block where
  stmts : List Expr
  value : Expr

/-- What follows `=` in an attribute. -/
inductive MetaValue
  | path (path : Path)
  /-- `A + B`, of other than one path. -/
  | bounds (paths : List Path)
  | str (value : String)
  | other (tokens : Tokens)

inductive Meta
  | path (path : List Ident)
  | list (path : List Ident) (nested : List Meta)
  | nameValue (path : List Ident) (value : MetaValue)

structure Attribute where
  content : Meta

structure TraitItemFn where
  attrs : List Attribute
  sig : Signature
  default : Option Block

structure TraitItemType where
  attrs : List Attribute
  ident : Ident
  generics : Generics
  bounds : List TypeParamBound

structure TraitItemConst where
  attrs : List Attribute
  ident : Ident
  ty : Ty
  default : Option Expr

inductive TraitItem
  | fn (item : TraitItemFn)
  | type (item : TraitItemType)
  | const (item : TraitItemConst)
  /-- A macro call, or what is none of the others. -/
  | other (attrs : List Attribute) (tokens : Tokens)

structure ImplItemFn where
  attrs : List Attribute
  sig : Signature
  block : Block

inductive ImplItem
  | fn (item : ImplItemFn)
  | type (ident : Ident) (ty : Ty)
  | const (ident : Ident) (ty : Ty) (expr : Expr)

structure ItemTrait where
  attrs : List Attribute
  unsafety : Bool
  ident : Ident
  generics : Generics
  /-- Whether the supertraits follow a colon. -/
  colon : Bool
  supertraits : List TypeParamBound
  items : List TraitItem

structure ItemImpl where
  unsafety : Bool
  generics : List GenericParam
  trait : Path
  selfTy : Ty
  whereClause : Option (List WherePredicate)
  items : List ImplItem

/-- An error of a procedural macro. -/
inductive Error
  | bail (message : String)
  /-- From `syn` itself. -/
  | parse
  /-- From an `unwrap`. -/
  | panic
deriving DecidableEq

/-! Accessors and constructors that `syn` and `quote` provide. -/

namespace PathSegment

def ident : PathSegment → Ident
  | mk ident _ => ident

def arguments : PathSegment → PathArguments
  | mk _ arguments => arguments

/-- A segment without arguments. -/
def plain (ident : Ident) : PathSegment := mk ident .none

end PathSegment

namespace Path

/-- A path of identifiers. -/
def ofIdents (leading : Bool) (idents : List Ident) : Path := ⟨leading, idents.map .plain⟩

/-- `#self::idents` -/
def join (self : Path) (idents : List Ident) : Path :=
  { self with segments := self.segments ++ idents.map .plain }

/-- `#self<#(#args),*>` -/
def withArgs (self : Path) (args : List GenericArgument) : Path :=
  let last := self.segments.getLast?.map fun s => PathSegment.mk s.ident (.angleBracketed args)
  { self with segments := self.segments.dropLast ++ last.toList }

/-- `#self #ty_generics` -/
def withGenerics (self : Path) (args : List GenericArgument) : Path :=
  if args.isEmpty then self else self.withArgs args

@[simp] theorem withArgs_join (self : Path) (ident : Ident) (args : List GenericArgument) :
    (self.join [ident]).withArgs args =
      ⟨self.leading, self.segments ++ [.mk ident (.angleBracketed args)]⟩ := by
  simp [join, withArgs, PathSegment.plain, PathSegment.ident]

def toTy (self : Path) : Ty := .path self.leading self.segments

def toBound (self : Path) : TypeParamBound := .trait false [] self.leading self.segments

end Path

namespace Ty

/-- A type named by one identifier. -/
def ofIdent (ident : Ident) : Ty := .path false [.plain ident]

/-- The path of a `Type::Path`, with or without a `qself`. -/
def pathSegments : Ty → Option (List PathSegment)
  | path _ segments | qpath _ _ _ segments => some segments
  | _ => none

def typeReference : Ty → Option TypeReference
  | reference lifetime mutability elem => some ⟨lifetime, mutability, elem⟩
  | _ => none

/-- `parse_quote!(Self)` -/
def isSelf : Ty → Bool
  | path false [.mk ident .none] => ident = "Self"
  | _ => false

end Ty

/-- `matches!(self, TypeParamBound::Trait(_))` -/
def TypeParamBound.isTrait : TypeParamBound → Bool
  | trait _ _ _ _ => true
  | _ => false

namespace Meta

def pathOf : Meta → List Ident
  | path p | list p _ | nameValue p _ => p

/-- `path().is_ident(ident)` -/
def isIdent (m : Meta) (ident : Ident) : Bool := m.pathOf = [ident]

end Meta

namespace GenericParam

def isLifetime : GenericParam → Bool
  | lifetime _ => true
  | _ => false

/-- The name, of a type or const parameter. -/
def typeIdent : GenericParam → Option Ident
  | lifetime _ => none
  | type ident _ _ | const ident _ _ => some ident

/-- The parameter as an argument. -/
def toArg : GenericParam → GenericArgument
  | lifetime p => .lifetime p.lifetime
  | type ident _ _ | const ident _ _ => .type (.ofIdent ident)

def eraseDefault : GenericParam → GenericParam
  | lifetime p => .lifetime p
  | type ident bounds _ => .type ident bounds none
  | const ident ty _ => .const ident ty none

end GenericParam

namespace Generics

/-- `type_params()` -/
def typeParams (g : Generics) : List Ident :=
  g.params.filterMap fun
    | .type ident _ _ => some ident
    | _ => none

/-- `lifetimes()` -/
def lifetimes (g : Generics) : List LifetimeParam :=
  g.params.filterMap fun
    | .lifetime p => some p
    | _ => none

/-- The parameters as they are printed, lifetimes first. -/
def printed (g : Generics) : List GenericParam :=
  g.params.filter (·.isLifetime) ++ g.params.filter (!·.isLifetime)

/-- The first part of `split_for_impl()`. -/
def implGenerics (g : Generics) : List GenericParam := g.printed.map (·.eraseDefault)

/-- The second part of `split_for_impl()`. -/
def tyGenerics (g : Generics) : List GenericArgument := g.printed.map (·.toArg)

/-- `make_where_clause().predicates.extend(predicates)` -/
def extendWhere (g : Generics) (predicates : List WherePredicate) : Generics :=
  { g with whereClause := some (g.whereClause.getD [] ++ predicates) }

end Generics

/-- `receiver()` -/
def Signature.receiver (sig : Signature) : Option Receiver :=
  match sig.inputs with
  | .receiver r :: _ => some r
  | _ => none

/-- The types of the arguments other than the receiver. -/
def Signature.typedInputs (sig : Signature) : List Ty :=
  sig.inputs.filterMap fun
    | .typed _ ty => some ty
    | .receiver _ => none

/-! Whether two types are written the same. -/

mutual

def Ty.beq : Ty → Ty → Bool
  | .array elem len, .array elem' len' => elem.beq elem' && len = len'
  | .bareFn lifetimes qualifiers inputs output, .bareFn lifetimes' qualifiers' inputs' output' =>
    lifetimes = lifetimes' && qualifiers = qualifiers' && Ty.beqs inputs inputs' &&
      output.beq output'
  | .implTrait bounds, .implTrait bounds' | .traitObject bounds, .traitObject bounds' =>
    TypeParamBound.beqs bounds bounds'
  | .never, .never => true
  | .paren elem, .paren elem' | .slice elem, .slice elem' => elem.beq elem'
  | .path leading segments, .path leading' segments' =>
    leading = leading' && PathSegment.beqs segments segments'
  | .qpath qself position leading segments, .qpath qself' position' leading' segments' =>
    qself.beq qself' && position = position' && leading = leading' &&
      PathSegment.beqs segments segments'
  | .ptr mutability elem, .ptr mutability' elem' => mutability = mutability' && elem.beq elem'
  | .reference lifetime mutability elem, .reference lifetime' mutability' elem' =>
    lifetime = lifetime' && mutability = mutability' && elem.beq elem'
  | .tuple elems, .tuple elems' => Ty.beqs elems elems'
  | _, _ => false

def Ty.beqs : List Ty → List Ty → Bool
  | [], [] => true
  | t :: ts, t' :: ts' => t.beq t' && Ty.beqs ts ts'
  | _, _ => false

def ReturnType.beq : ReturnType → ReturnType → Bool
  | .default, .default => true
  | .type t, .type t' => t.beq t'
  | _, _ => false

def PathSegment.beqs : List PathSegment → List PathSegment → Bool
  | [], [] => true
  | .mk ident arguments :: ss, .mk ident' arguments' :: ss' =>
    ident = ident' && arguments.beq arguments' && PathSegment.beqs ss ss'
  | _, _ => false

def PathArguments.beq : PathArguments → PathArguments → Bool
  | .none, .none => true
  | .angleBracketed args, .angleBracketed args' => GenericArgument.beqs args args'
  | .parenthesized inputs output, .parenthesized inputs' output' =>
    Ty.beqs inputs inputs' && output.beq output'
  | _, _ => false

def GenericArgument.beqs : List GenericArgument → List GenericArgument → Bool
  | [], [] => true
  | .lifetime l :: as, .lifetime l' :: as' => l = l' && GenericArgument.beqs as as'
  | .type t :: as, .type t' :: as' => t.beq t' && GenericArgument.beqs as as'
  | .const expr :: as, .const expr' :: as' => expr = expr' && GenericArgument.beqs as as'
  | .assocType ident generics t :: as, .assocType ident' generics' t' :: as' =>
    ident = ident' && GenericArgument.beqs generics generics' && t.beq t' &&
      GenericArgument.beqs as as'
  | .constraint ident generics bounds :: as, .constraint ident' generics' bounds' :: as' =>
    ident = ident' && GenericArgument.beqs generics generics' &&
      TypeParamBound.beqs bounds bounds' && GenericArgument.beqs as as'
  | _, _ => false

def TypeParamBound.beqs : List TypeParamBound → List TypeParamBound → Bool
  | [], [] => true
  | .trait maybe lifetimes leading segments :: bs,
      .trait maybe' lifetimes' leading' segments' :: bs' =>
    maybe = maybe' && lifetimes = lifetimes' && leading = leading' &&
      PathSegment.beqs segments segments' && TypeParamBound.beqs bs bs'
  | .lifetime l :: bs, .lifetime l' :: bs' => l = l' && TypeParamBound.beqs bs bs'
  | .preciseCapture params :: bs, .preciseCapture params' :: bs' =>
    params = params' && TypeParamBound.beqs bs bs'
  | _, _ => false

end

mutual

theorem Ty.beq_iff : ∀ a b : Ty, a.beq b = true ↔ a = b
  | .array elem _, b => by cases b <;> simp [Ty.beq, Ty.beq_iff elem]
  | .bareFn _ _ inputs output, b => by
    cases b <;> simp [Ty.beq, Ty.beqs_iff inputs, ReturnType.beq_iff output, and_assoc]
  | .implTrait bounds, b | .traitObject bounds, b => by
    cases b <;> simp [Ty.beq, TypeParamBound.beqs_iff bounds]
  | .never, b => by cases b <;> simp [Ty.beq]
  | .paren elem, b | .slice elem, b | .ptr _ elem, b | .reference _ _ elem, b => by
    cases b <;> simp [Ty.beq, Ty.beq_iff elem, and_assoc]
  | .path _ segments, b => by cases b <;> simp [Ty.beq, PathSegment.beqs_iff segments]
  | .qpath qself _ _ segments, b => by
    cases b <;> simp [Ty.beq, Ty.beq_iff qself, PathSegment.beqs_iff segments, and_assoc]
  | .tuple elems, b => by cases b <;> simp [Ty.beq, Ty.beqs_iff elems]

theorem Ty.beqs_iff : ∀ a b : List Ty, Ty.beqs a b = true ↔ a = b
  | [], b => by cases b <;> simp [Ty.beqs]
  | t :: ts, b => by cases b <;> simp [Ty.beqs, Ty.beq_iff t, Ty.beqs_iff ts]

theorem ReturnType.beq_iff : ∀ a b : ReturnType, a.beq b = true ↔ a = b
  | .default, b => by cases b <;> simp [ReturnType.beq]
  | .type t, b => by cases b <;> simp [ReturnType.beq, Ty.beq_iff t]

theorem PathSegment.beqs_iff : ∀ a b : List PathSegment, PathSegment.beqs a b = true ↔ a = b
  | [], b => by cases b <;> simp [PathSegment.beqs]
  | .mk _ arguments :: ss, b => by
    rcases b with _ | ⟨⟨_, _⟩, _⟩ <;>
      simp [PathSegment.beqs, PathArguments.beq_iff arguments, PathSegment.beqs_iff ss]

theorem PathArguments.beq_iff : ∀ a b : PathArguments, a.beq b = true ↔ a = b
  | .none, b => by cases b <;> simp [PathArguments.beq]
  | .angleBracketed args, b => by
    cases b <;> simp [PathArguments.beq, GenericArgument.beqs_iff args]
  | .parenthesized inputs output, b => by
    cases b <;> simp [PathArguments.beq, Ty.beqs_iff inputs, ReturnType.beq_iff output]

theorem GenericArgument.beqs_iff :
    ∀ a b : List GenericArgument, GenericArgument.beqs a b = true ↔ a = b
  | [], b => by cases b <;> simp [GenericArgument.beqs]
  | .lifetime _ :: as, b | .const _ :: as, b => by
    rcases b with _ | ⟨_ | _, _⟩ <;> simp [GenericArgument.beqs, GenericArgument.beqs_iff as]
  | .type t :: as, b => by
    rcases b with _ | ⟨_ | _, _⟩ <;>
      simp [GenericArgument.beqs, Ty.beq_iff t, GenericArgument.beqs_iff as]
  | .assocType _ generics t :: as, b => by
    rcases b with _ | ⟨_ | _, _⟩ <;>
      simp [GenericArgument.beqs, GenericArgument.beqs_iff generics, Ty.beq_iff t,
        GenericArgument.beqs_iff as, and_assoc]
  | .constraint _ generics bounds :: as, b => by
    rcases b with _ | ⟨_ | _, _⟩ <;>
      simp [GenericArgument.beqs, GenericArgument.beqs_iff generics,
        TypeParamBound.beqs_iff bounds, GenericArgument.beqs_iff as, and_assoc]

theorem TypeParamBound.beqs_iff :
    ∀ a b : List TypeParamBound, TypeParamBound.beqs a b = true ↔ a = b
  | [], b => by cases b <;> simp [TypeParamBound.beqs]
  | .trait _ _ _ segments :: bs, b => by
    rcases b with _ | ⟨_ | _, _⟩ <;>
      simp [TypeParamBound.beqs, PathSegment.beqs_iff segments, TypeParamBound.beqs_iff bs,
        and_assoc]
  | .lifetime _ :: bs, b | .preciseCapture _ :: bs, b => by
    rcases b with _ | ⟨_ | _, _⟩ <;> simp [TypeParamBound.beqs, TypeParamBound.beqs_iff bs]

end

instance : DecidableEq Ty := fun a b => decidable_of_iff _ (Ty.beq_iff a b)

end Syn
