import ConceptResolution.Subst.Basic
import ConceptResolution.Ty.Fingerprint

namespace ConceptResolution

namespace Subst

/-- Without the bindings that map a variable to itself. -/
def dropTrivial (s : Subst) : Subst :=
  s.filter fun b => b.2 != .var b.1

def applyIndexed (images : Index TyVar Ty) (t : Ty) : Ty :=
  t.subst fun v => (images.find? v).getD (.var v)

/-- Apply a substitution to its own images. For many variables in a long one an index pays off. -/
def selfApply (s : Subst) : Subst :=
  if s.size ≤ 64 ∨ (Ty.varsAll (s.bindings.map Prod.snd)).length ≤ 64 then s.mapImages s.apply
  else s.mapImages (applyIndexed (.ofList s.bindings))

theorem applyIndexed_ofList (s : Subst) : applyIndexed (.ofList s.bindings) = s.apply := by
  funext t
  exact Ty.subst_congr fun v _ => by rw [Index.find?_ofList, lookup, get?]

theorem selfApply_eq (s : Subst) : s.selfApply = s.mapImages s.apply := by
  rw [selfApply, applyIndexed_ofList, ite_self]

/-- Apply a substitution to its own images until they stay the same, at most the given number of
times. -/
def settle : Nat → Subst → Subst
  | 0, s => s
  | n + 1, s => if s.selfApply.bindings = s.bindings then s else settle n s.selfApply

/-- As many rounds as there are bindings bring every acyclic substitution into solved form. -/
def normalize (s : Subst) : Subst :=
  (settle s.dropTrivial.size s.dropTrivial).dropTrivial

/-- First `inner`, then `outer`; where both bind a variable, `outer` counts. -/
def compose (outer inner : Subst) : Subst :=
  ((inner.mapImages outer.apply).override outer).normalize

theorem selfApply_eq_of_bindings_eq {s : Subst} (h : s.selfApply.bindings = s.bindings) :
    s.selfApply = s := by
  cases s
  cases hs : selfApply _
  simp_all

/-- Stopping early loses nothing: further rounds would not change the images. -/
theorem settle_eq_iterate (n : Nat) (s : Subst) : settle n s = Nat.repeat selfApply n s := by
  have shift : ∀ n (s : Subst),
      Nat.repeat selfApply n s.selfApply = Nat.repeat selfApply (n + 1) s := by
    intro n s
    induction n with
    | zero => rfl
    | succ n ih => exact congrArg selfApply ih
  induction n generalizing s with
  | zero => rfl
  | succ n ih =>
      rw [settle]
      split
      · next h =>
        have hs := selfApply_eq_of_bindings_eq h
        rw [← shift, hs, ← ih]
        cases n with
        | zero => rfl
        | succ n => simp [settle, h]
      · rw [ih, shift]

end Subst

end ConceptResolution
