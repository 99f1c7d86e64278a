import Mathlib.Logic.Relation
import Mathlib.Order.CompletePartialOrder

/-! Regions that lifetimes stand for, and when one region can take the place of several. -/
namespace Regions

inductive Variance
  | covariant
  | contravariant
  | invariant
deriving DecidableEq

namespace Variance

/-- The variance of what stands in an argument of this variance. -/
def comp : Variance → Variance → Variance
  | .covariant, v => v
  | .contravariant, .covariant => .contravariant
  | .contravariant, .contravariant => .covariant
  | _, .invariant | .invariant, _ => .invariant

/-- A type with the region `x` can be taken for the type with the region `d` instead. -/
def Fits {α : Type} [LE α] : Variance → α → α → Prop
  | .covariant, x, d => d ≤ x
  | .contravariant, x, d => x ≤ d
  | .invariant, x, d => x = d

variable {α : Type} [PartialOrder α] {v : Variance} {x d : α}

theorem Fits.le (h : v.Fits x d) (hv : v ≠ .contravariant) : d ≤ x := by
  cases v with
  | covariant => exact h
  | contravariant => exact absurd rfl hv
  | invariant => exact Eq.ge h

theorem Fits.ge (h : v.Fits x d) (hv : v ≠ .covariant) : x ≤ d := by
  cases v with
  | covariant => exact absurd rfl hv
  | contravariant => exact h
  | invariant => exact Eq.le h

theorem fits_of_le (hle : v ≠ .contravariant → d ≤ x) (hge : v ≠ .covariant → x ≤ d) :
    v.Fits x d := by
  cases v with
  | covariant => exact hle (by decide)
  | contravariant => exact hge (by decide)
  | invariant => exact le_antisymm (hge (by decide)) (hle (by decide))

end Variance

section
variable {ι : Type}

/-- What is known to outlive something does. -/
def Respects {α : Type} [LE α] (known : ι → ι → Prop) (x : ι → α) : Prop :=
  ∀ i j, known i j → x j ≤ x i

/-- Whatever the regions are, there is one that can take the place of all that it is used for and
goes on while what is in `alive` does. -/
def Shareable (known : ι → ι → Prop) (alive : Set ι) (uses : Set (Variance × ι)) : Prop :=
  ∀ (α : Type) [CompleteLattice α] (x : ι → α), Respects known x →
    ∀ r, (∀ i ∈ alive, r ≤ x i) → ∃ d, r ≤ d ∧ ∀ u ∈ uses, u.1.Fits (x u.2) d

variable {known : ι → ι → Prop} {alive : Set ι} {uses : Set (Variance × ι)}

theorem Respects.le {α : Type} [Preorder α] {x : ι → α} (h : Respects known x) {i j : ι}
    (hij : Relation.ReflTransGen known i j) : x j ≤ x i := by
  induction hij with
  | refl => exact le_rfl
  | tail _ hjk ih => exact (h _ _ hjk).trans ih

/-- The regions in which `i` is all there is, or else nothing, by whether it outlives `k`. -/
theorem respects_reaches (k : ι) : Respects known fun i => Relation.ReflTransGen known i k :=
  fun _ _ hij hjk => hjk.head hij

/-- The regions in which what `k` outlives is nothing, and all else is all there is. -/
theorem respects_notReached (k : ι) :
    Respects known fun i => ¬ Relation.ReflTransGen known k i :=
  fun _ _ hij hj hi => hj (hi.tail hij)

/-- What bounds the new region from above has to outlive something that is alive, and what bounds
the new region from below. -/
theorem shareable_iff : Shareable known alive uses ↔
    ∀ u ∈ uses, u.1 ≠ .contravariant → (∃ i ∈ alive, Relation.ReflTransGen known u.2 i) ∧
      ∀ u' ∈ uses, u'.1 ≠ .covariant → Relation.ReflTransGen known u.2 u'.2 := by
  constructor
  · intro h u hu hv
    constructor
    · by_contra hn
      obtain ⟨d, hr, hd⟩ := h Prop _ (respects_notReached u.2) ⊤ fun i hi _ hr => hn ⟨i, hi, hr⟩
      exact (hd u hu).le hv (hr trivial) .refl
    · intro u' hu' hv'
      obtain ⟨d, -, hd⟩ := h Prop _ (respects_reaches u'.2) ⊥ fun _ _ => bot_le
      have hlow : d := (hd u' hu').ge hv' .refl
      exact (hd u hu).le hv hlow
  · intro h α _ x hx r hr
    refine ⟨r ⊔ sSup {y | ∃ u ∈ uses, u.1 ≠ .covariant ∧ x u.2 = y}, le_sup_left, ?_⟩
    intro u hu
    apply Variance.fits_of_le
    · intro hv
      obtain ⟨⟨i, hi, hui⟩, hlow⟩ := h u hu hv
      refine sup_le ((hr i hi).trans (hx.le hui)) (sSup_le ?_)
      rintro _ ⟨u', hu', hv', rfl⟩
      exact hx.le (hlow u' hu' hv')
    · intro hv
      exact le_sup_of_le_right (le_sSup ⟨u, hu, hv, rfl⟩)

end

end Regions
