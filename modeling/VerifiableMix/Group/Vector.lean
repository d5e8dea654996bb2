import VerifiableMix.Group
import VerifiableMix.Scalar.Vector

/-!
# Vectors of elements

Componentwise products and powers check that the lengths agree.  Vectors are
compared entry by entry, by value.
-/

namespace VerifiableMix

/-- A vector of elements. -/
abbrev ElementVector := List Element

namespace ElementVector

/-- Equal lengths, and equal values at every place. -/
def sameValues : ElementVector → ElementVector → Bool
  | [], [] => true
  | x :: xs, y :: ys => x.sameValue y && sameValues xs ys
  | _, _ => false

/-- The numbers of a vector. -/
def values (xs : ElementVector) : List Nat :=
  xs.map Element.value

/-- Vectors are compared by their numbers. -/
theorem sameValues_eq_true_iff {xs ys : ElementVector} :
    xs.sameValues ys = true ↔ xs.values = ys.values := by
  induction xs generalizing ys with
  | nil => cases ys <;> simp [sameValues, values]
  | cons x xs ih =>
      cases ys with
      | nil => simp [sameValues, values]
      | cons y ys =>
          have hrest : sameValues xs ys = true ↔ xs.map Element.value = ys.map Element.value := ih
          simp only [sameValues, values, Element.sameValue, Bool.and_eq_true, beq_iff_eq,
            List.map_cons, List.cons.injEq, hrest]

/-- The form of a vector in diagnostics. -/
def describe (xs : ElementVector) : String :=
  "VectorP([" ++ ", ".intercalate (xs.map Element.describe) ++ "])"

/-- The products of paired entries. -/
def mul (G : Group) (xs ys : ElementVector) : Except Error ElementVector := do
  checkLength .elementProduct xs.length ys.length
  return List.zipWith G.mul xs ys

/-- Every entry raised to the paired scalar. -/
def pow (G : Group) (xs : ElementVector) (ks : ScalarVector) : Except Error ElementVector := do
  checkLength .elementPower xs.length ks.length
  return List.zipWith G.pow xs ks

/-- Fails unless every entry is a member of the group's width. -/
def validate (G : Group) (xs : ElementVector) : Except Error Unit :=
  xs.forM G.checkElement

end ElementVector

end VerifiableMix
