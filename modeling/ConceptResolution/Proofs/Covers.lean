import ConceptResolution.Proofs.FiniteHierarchy
import Mathlib.Data.List.Pairwise

namespace ConceptResolution

theorem eraseDups_sublist {α : Type} [DecidableEq α] : ∀ as : List α, as.eraseDups.Sublist as
  | [] => .slnil
  | a :: as => by
      rw [List.eraseDups_cons]
      exact ((eraseDups_sublist _).trans List.filter_sublist).cons_cons a
termination_by as => as.length
decreasing_by exact Nat.lt_succ_of_le (List.length_filter_le ..)

namespace ConceptModel

variable {M : ConceptModel}

theorem coverFrom_sublist (before cs : List Ty) : (M.coverFrom before cs).Sublist cs := by
  induction cs generalizing before with
  | nil => exact List.Sublist.refl _
  | cons c cs ih =>
      rw [coverFrom]
      split
      · exact (ih _).cons c
      · exact (ih _).cons_cons c

theorem implies_eq_false_of_mem_coverFrom {before cs : List Ty} {c d : Ty}
    (hc : c ∈ M.coverFrom before cs) (hd : d ∈ before) : M.implies d c = false := by
  induction cs generalizing before with
  | nil => cases hc
  | cons e cs ih =>
      rw [coverFrom] at hc
      split at hc
      · exact ih hc (List.mem_append_left _ hd)
      · next hkept =>
        rcases List.mem_cons.1 hc with rfl | hc
        · rw [Bool.or_eq_true, not_or, List.any_eq_true] at hkept
          exact Bool.eq_false_iff.2 fun himplies => hkept.1 ⟨d, hd, himplies⟩
        · exact ih hc (List.mem_append_left _ hd)

/-- Of two concepts in a cover, neither implies the other: the earlier one would have been kept in
place of the later one, and the later one in place of the earlier one unless both do. -/
theorem pairwise_coverFrom (before cs : List Ty) :
    (M.coverFrom before cs).Pairwise fun c d => M.implies c d = false ∧ M.implies d c = false := by
  induction cs generalizing before with
  | nil => exact List.Pairwise.nil
  | cons c cs ih =>
      rw [coverFrom]
      split
      · exact ih _
      · next hkept =>
        rw [Bool.or_eq_true, not_or, List.any_eq_true, List.any_eq_true] at hkept
        refine List.pairwise_cons.2 ⟨fun d hd => ?_, ih _⟩
        have hcd : M.implies c d = false :=
          implies_eq_false_of_mem_coverFrom hd (List.mem_append_right _ (List.mem_singleton_self c))
        refine ⟨hcd, Bool.eq_false_iff.2 fun hdc => hkept.2 ⟨d, subset_of_mem_coverFrom hd, ?_⟩⟩
        rw [hdc, hcd]
        rfl

theorem implies_eq_false_of_mem_coverFrom_both {before cs : List Ty} {c d : Ty}
    (hc : c ∈ M.coverFrom before cs) (hd : d ∈ M.coverFrom before cs) : M.implies c d = false := by
  have hsymm : Std.Symm fun c d => M.implies c d = false ∧ M.implies d c = false :=
    ⟨fun _ _ => And.symm⟩
  have hself : ∀ c ∈ M.coverFrom before cs, M.implies c c = false ∧ M.implies c c = false := by
    intro c _
    have hnot : M.implies c c = false :=
      Bool.eq_false_iff.2 fun h => ne_of_mem_superClosure (List.contains_iff_mem.1 h) rfl
    exact ⟨hnot, hnot⟩
  exact ((pairwise_coverFrom before cs).forall_of_forall hself hc hd).1

variable (M) in
theorem exists_conceptsOf_eq_expand (givens : List Param) (t : Ty) :
    ∃ cs, M.conceptsOf givens t = M.expand cs := by
  unfold conceptsOf
  split
  · split
    · exact ⟨_, rfl⟩
    · exact ⟨[], rfl⟩
  · split <;> exact ⟨_, rfl⟩

theorem Finitary.satisfies_of_reaches (hM : M.Finitary) {givens : List Param} {t c d : Ty}
    (hc : M.satisfies givens t c = true) (h : M.Reaches c d) : M.satisfies givens t d = true := by
  obtain ⟨cs, hcs⟩ := M.exists_conceptsOf_eq_expand givens t
  rw [satisfies, List.contains_iff_mem, hcs] at hc ⊢
  exact hM.mem_expand_of_reaches hc h

end ConceptModel

open ConceptModel

/-- What is required of an argument are constraints of its parameter, in their order and each once.
They imply all the others and none of themselves; where they are satisfied, every constraint is. -/
theorem required_cover {M : ConceptModel} (hM : M.Finitary) (p : Param) (s : Subst) :
    (M.required p s).Nodup ∧ (M.required p s).Sublist (s.applyAll p.constraints) ∧
      (∀ c ∈ s.applyAll p.constraints,
        c ∈ M.required p s ∨ ∃ d ∈ M.required p s, M.implies d c = true) ∧
      (∀ c ∈ M.required p s, ∀ d ∈ M.required p s, M.implies c d = false) ∧
      ∀ givens t, (∀ c ∈ M.required p s, M.satisfies givens t c = true) →
        ∀ c ∈ p.constraints, M.satisfies givens t (s.apply c) = true := by
  have hnodup : (s.applyAll p.constraints).eraseDups.Nodup :=
    Roster.toList_ofList (s.applyAll p.constraints) ▸ Roster.nodup_toList _
  have hcover : ∀ c ∈ s.applyAll p.constraints, ∃ d ∈ M.required p s, M.Reaches d c :=
    fun c hc => hM.exists_reaches_of_mem (List.mem_eraseDups.2 hc)
  refine ⟨hnodup.sublist (coverFrom_sublist _ _),
    (coverFrom_sublist _ _).trans (eraseDups_sublist _), fun c hc => ?_,
    fun c hc d hd => implies_eq_false_of_mem_coverFrom_both hc hd, fun givens t h c hc => ?_⟩
  · obtain ⟨d, hd, hreach⟩ := hcover c hc
    rcases Decidable.em (c = d) with rfl | hne
    · exact .inl hd
    · exact .inr ⟨d, hd, hM.implies_iff.2 ⟨hreach, hne⟩⟩
  · obtain ⟨d, hd, hreach⟩ := hcover (s.apply c) (List.mem_map_of_mem hc)
    exact hM.satisfies_of_reaches (h d hd) hreach

def Registry.circular : Registry where
  concepts :=
    [⟨"Less", [⟨"'a"⟩], [.app "Equal" [.var ⟨"'a"⟩]], [], []⟩,
      ⟨"Equal", [⟨"'a"⟩], [.app "Greater" [.var ⟨"'a"⟩]], [], []⟩,
      ⟨"Greater", [⟨"'a"⟩], [.app "Less" [.var ⟨"'a"⟩]], [], []⟩,
      ⟨"Sorted", [⟨"'a"⟩], [.app "Less" [.var ⟨"'a"⟩]], [], []⟩]
  instances := []
  typeConcepts := []

/-- Duplicates that the substitution makes collapse, and the first of the circle stands for the
others. -/
theorem required_cover_circular :
    let M := Registry.circular.model
    let p := Param.witness ⟨"'w"⟩ [.app "Equal" [.var ⟨"'t"⟩], .app "Less" [.var ⟨"'u"⟩],
      .app "Sorted" [.bool], .app "Greater" [.int], .app "Equal" [.var ⟨"'u"⟩]]
    let s := Subst.ofList [(⟨"'t"⟩, .int), (⟨"'u"⟩, .int)]
    M.Finitary ∧ M.required p s = [.app "Equal" [.int], .app "Sorted" [.bool]] ∧
      (∀ c ∈ s.applyAll p.constraints,
        c ∈ M.required p s ∨ ∃ d ∈ M.required p s, M.implies d c = true) ∧
      ∀ givens t, (∀ c ∈ M.required p s, M.satisfies givens t c = true) →
        ∀ c ∈ p.constraints, M.satisfies givens t (s.apply c) = true := by
  intro M p s
  have hM : M.Finitary := Registry.Flat.finitary (by decide)
  obtain ⟨-, -, hall, -, hsatisfies⟩ := required_cover hM p s
  exact ⟨hM, by decide +kernel, hall, hsatisfies⟩

end ConceptResolution
