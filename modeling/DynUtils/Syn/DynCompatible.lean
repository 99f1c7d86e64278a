import DynUtils.Syn.Visit

/-! Rust's rules for the methods of dyn-compatible traits. -/
namespace Syn

/-- What no method of a trait object can mention: `impl Trait`, and `Self` as a type of its
own rather than in a `Self::Assoc`. -/
def Node.Offends (n : Node) : Prop := n = .implTrait ∨ n = .path .type ["Self"]

def Offends (ns : List (ℕ × Node)) : Prop := ∃ n ∈ ns, n.2.Offends

def Ty.DynCompatible (t : Ty) : Prop := ¬ Offends (t.nodes 0 .type)

/-- The clause `where Self: Sized`. -/
def Generics.selfSized (g : Generics) : Bool :=
  (g.whereClause.getD []).any fun
    | .type _ boundedTy bounds => boundedTy.isSelf && bounds.any fun
      | .trait false _ _ segments => (segments.map (·.ident)).getLast? = some "Sized"
      | _ => false
    | _ => false

/-- The method can be called on a trait object. -/
structure Signature.Dispatchable (sig : Signature) : Prop where
  lifetimes_only : sig.generics.params.all (·.isLifetime) = true
  not_async : sig.asyncness = false
  inputs : ∀ t ∈ sig.typedInputs, t.DynCompatible
  output : ∀ t, sig.output = .type t → t.DynCompatible

/-- The trait of the method can still be dyn-compatible. -/
def Signature.DynCompatible (sig : Signature) : Prop :=
  sig.generics.selfSized = true ∨ sig.Dispatchable

/-- The items of a dyn-compatible trait. -/
def TraitItem.DynCompatible : TraitItem → Prop
  | .fn item => item.sig.DynCompatible
  | .type item => item.generics.params = [] ∨ item.generics.selfSized = true
  | .const _ | .other _ _ => False

/-- The trait can be made into an object, as far as its own items decide. -/
def ItemTrait.DynCompatible (t : ItemTrait) : Prop :=
  (∀ b ∈ t.supertraits, ∀ maybe lifetimes leading segments,
    b = .trait maybe lifetimes leading segments →
      (segments.map (·.ident)).getLast? ≠ some "Sized") ∧
    ∀ item ∈ t.items, item.DynCompatible

theorem Signature.dispatchable_iff (sig : Signature) : sig.Dispatchable ↔
    sig.generics.params.all (·.isLifetime) = true ∧ sig.asyncness = false ∧
      (∀ t ∈ sig.typedInputs, t.DynCompatible) ∧ ∀ t, sig.output = .type t → t.DynCompatible :=
  ⟨fun h => ⟨h.lifetimes_only, h.not_async, h.inputs, h.output⟩,
    fun h => ⟨h.1, h.2.1, h.2.2.1, h.2.2.2⟩⟩

@[simp] theorem offends_nil : ¬ Offends [] := by simp [Offends]

@[simp] theorem offends_cons (n : ℕ × Node) (ns : List (ℕ × Node)) :
    Offends (n :: ns) ↔ n.2.Offends ∨ Offends ns := by simp [Offends]

@[simp] theorem offends_append (ns ns' : List (ℕ × Node)) :
    Offends (ns ++ ns') ↔ Offends ns ∨ Offends ns' := by
  simp [Offends, or_and_right, exists_or]

@[simp] theorem offends_lifetime (l : Lifetime) : ¬ (Node.lifetime l).Offends := by
  simp [Node.Offends]

@[simp] theorem offends_implTrait : Node.implTrait.Offends := Or.inl rfl

@[simp] theorem offends_path (use : PathUse) (idents : List Ident) :
    (Node.path use idents).Offends ↔ use = .type ∧ idents = ["Self"] := by
  simp [Node.Offends]

/-- Lifetimes have no part in it. -/
theorem offends_map_node {v : VisitMut} (hv : ∀ i, v.segment i = i) (ns : List (ℕ × Node)) :
    Offends (ns.map v.node) ↔ Offends ns := by
  have hn : ∀ n : ℕ × Node, (v.node n).2.Offends ↔ n.2.Offends := by
    rintro ⟨d, n⟩
    cases n with
    | path use idents =>
      have hi : idents.map v.segment = idents := by
        simp [funext hv]
      simp [VisitMut.node, hi]
    | _ => simp [VisitMut.node, Node.Offends]
  induction ns with
  | nil => simp
  | cons n ns ih => simp only [List.map_cons, offends_cons, hn, ih]

end Syn
