import DynUtils.Syn.Visit

/-! What the macros share: reading method signatures, and rebuilding arguments and methods. -/
namespace DynUtils.Macros

open Syn

/-- An identifier as `format_ident!` prints it, without the `r#` of a raw one. -/
def unraw (ident : Ident) : String :=
  match ident.toList with
  | 'r' :: '#' :: cs => String.ofList cs
  | _ => ident

/-- `crate_name` -/
def crateName : Path := .ofIdents true ["dyn_utils"]

def isNotGeneric (ty : TraitItemType) : Bool :=
  ty.generics.params.isEmpty && ty.generics.whereClause.isNone

def lastSegment (segments : List PathSegment) (ident : Ident) : Option PathSegment :=
  segments.getLast?.filter (·.ident = ident)

/-- The last segment of the path of an attribute. -/
def metaLastSegment (m : Meta) (ident : Ident) : Option Ident :=
  m.pathOf.getLast?.filter (· = ident)

/-- The `&mut Self` of `Pin<&mut Self>`. -/
def pinnedRef (ty : Ty) : Option TypeReference := do
  let pin ← lastSegment (← ty.pathSegments) "Pin"
  match pin.arguments with
  | .angleBracketed (.type argTy :: _) => argTy.typeReference.filter (·.elem.isSelf)
  | _ => none

/-- The receiver is one that a trait object can have. -/
def hasDynTraitReceiver (sig : Signature) : Bool :=
  sig.receiver.any fun recv => recv.reference.isSome || (pinnedRef recv.ty).isSome

def isDispatchable (method : TraitItemFn) : Bool :=
  hasDynTraitReceiver method.sig && method.sig.generics.params.all (·.isLifetime)

def returnType (sig : Signature) : Option Ty :=
  match sig.output with
  | .type ty => some ty
  | .default => none

/-- `return_type(sig).and_then(try_match!(Type::ImplTrait))`, as its bounds. -/
def returnImplTrait (sig : Signature) : Option (List TypeParamBound) :=
  match returnType sig with
  | some (.implTrait bounds) => some bounds
  | _ => none

/-- The `T` of `impl Future<Output = T>`. -/
def futureOutput (bounds : List TypeParamBound) : Option Ty := do
  let future ← bounds.findSome? fun
    | .trait _ _ _ segments => lastSegment segments "Future"
    | _ => none
  match future.arguments with
  | .angleBracketed args => args.findSome? fun
    | .assocType ident _ ty => if ident = "Output" then some ty else none
    | _ => none
  | _ => none

namespace PatternAsArg

mutual

def visitPat : Pat → Pat
  | .ident _ _ ident _ => .ident false false ident none
  | .wild => .wild
  | .rest => .rest
  | .tuple elems => .tuple (visitPats elems)
  | .tupleStruct path elems => .tupleStruct path (visitPats elems)
  | .struct path fields rest => .struct path (visitFields fields) rest
  | .reference mutability pat => .reference mutability (visitPat pat)
  | .paren pat => .paren (visitPat pat)
  | .slice elems => .slice (visitPats elems)
  | .other tokens => .other tokens

def visitPats : List Pat → List Pat
  | [] => []
  | p :: ps => visitPat p :: visitPats ps

def visitFields : List FieldPat → List FieldPat
  | [] => []
  | .mk member pat :: fs => .mk member (visitPat pat) :: visitFields fs

end

def visitFnArg : FnArg → FnArg
  | .receiver r => .receiver r
  | .typed pat ty => .typed (visitPat pat) ty

def visitSignature (sig : Signature) : Signature :=
  { sig with inputs := sig.inputs.map visitFnArg }

end PatternAsArg

/-- The expression `self`. -/
def selfArg : Expr := .path (.ofIdents false ["self"])

def fnArgs (sig : Signature) : List Expr :=
  sig.inputs.map fun
    | .receiver _ => selfArg
    | .typed pat _ => .pat (PatternAsArg.visitPat pat)

/-- A method without attributes. -/
def implMethod (sig : Signature) (block : Block) : ImplItemFn := ⟨[], sig, block⟩

end DynUtils.Macros
