import DynUtils.Lib.Names
import DynUtils.Macros.Utils

/-! The macro `sync`, and the names that it shares with `dyn_trait`. -/
namespace DynUtils.Macros

open Syn

/-- How names are made: `to_pascal_case` of `heck`, `to_uppercase`, and what `Ident::new` takes
without a panic. -/
structure Casing where
  toPascalCase : String → String
  toUppercase : String → String
  isIdent : String → Bool

/-- For names in ASCII. -/
def Casing.ascii : Casing :=
  ⟨Names.Ascii.toPascalCase, Names.Ascii.toUppercase, Names.Ascii.chars.isIdent⟩

/-- `format_ident!`, of a text that does not start with `r#`. -/
def formatIdent (casing : Casing) (text : String) : Except Error Ident :=
  if casing.isIdent text then .ok text else .error .panic

/-- This text is an identifier whenever the name of the method is one. -/
def syncFn (sig : Signature) : Ident := unraw sig.ident ++ "_sync"

/-- The text of the constant's name. It keeps the `r#` of the method. -/
def isSyncConst (casing : Casing) (sig : Signature) : Ident :=
  casing.toUppercase sig.ident ++ "_IS_SYNC"

/-- The type `bool`. -/
def bool : Ty := .ofIdent "bool"

def syncImpl (casing : Casing) (method : ImplItemFn) : Except Error (List ImplItem) :=
  if !method.sig.asyncness then .error (.bail "`sync` must be used on async method")
  else do
    let syncMethod := { method with
      sig := { method.sig with asyncness := false, ident := syncFn method.sig } }
    let isSync ← formatIdent casing (isSyncConst casing method.sig)
    return [.fn method, .fn syncMethod, .const isSync bool (.lit true)]

theorem formatIdent_ok {casing : Casing} {text : String} {ident : Ident} :
    formatIdent casing text = .ok ident ↔ casing.isIdent text = true ∧ text = ident := by
  unfold formatIdent
  split <;> simp_all

end DynUtils.Macros
