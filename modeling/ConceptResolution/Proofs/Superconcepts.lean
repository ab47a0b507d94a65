import ConceptResolution.Proofs.Covers
import ConceptResolution.Proofs.FiniteHierarchy

namespace ConceptResolution

namespace ConceptModel

variable {M : ConceptModel} {c d : Ty}

def Ascends (M : ConceptModel) : Ty → Ty → Prop :=
  Relation.TransGen fun c d => d ∈ M.supers c

theorem reaches_iff : M.Reaches c d ↔ d = c ∨ M.Ascends c d :=
  Relation.reflTransGen_iff_eq_or_transGen

theorem mem_found_iff {visits : Nat} (hend : (M.superSearch visits c).pending = []) :
    d ∈ (M.superSearch visits c).found.toList ↔ d ≠ c ∧ M.Ascends c d := by
  constructor
  · intro hd
    have hne := ne_of_mem_found hd
    exact ⟨hne, (reaches_iff.1 (reaches_of_mem_found hd)).resolve_left hne⟩
  · rintro ⟨hne, hascends⟩
    exact (eq_or_mem_found hend (reaches_iff.2 (.inr hascends))).resolve_left hne

end ConceptModel

open ConceptModel

/-- A concept from which the hierarchy leads to finitely many others has as its superconcepts all of
these, each once, and nothing else, itself excluded even where the hierarchy leads back to it; as
many visits as there are concepts to reach are enough to find them. To imply is to lead to another
concept, and so it is transitive but for concepts that imply themselves through others. -/
theorem superClosure_exact {M : ConceptModel} {c : Ty} (hfinite : {d | M.Reaches c d}.Finite) :
    (∀ visits, {d | M.Reaches c d}.ncard ≤ visits →
      (M.superSearch visits c).pending = [] ∧ (M.superSearch visits c).found.toList.Nodup ∧
        ∀ d, d ∈ (M.superSearch visits c).found.toList ↔ d ≠ c ∧ M.Ascends c d) ∧
      (M.superClosure c).Nodup ∧ (∀ d, d ∈ M.superClosure c ↔ d ≠ c ∧ M.Ascends c d) ∧
      (∀ d, M.implies c d = true ↔ d ≠ c ∧ M.Ascends c d) ∧
      ∀ d e, M.implies c d = true → M.implies d e = true → e = c ∨ M.implies c e = true := by
  have hfound (visits : Nat) (hvisits : {d | M.Reaches c d}.ncard ≤ visits) :
      (M.superSearch visits c).pending = [] ∧ (M.superSearch visits c).found.toList.Nodup ∧
        ∀ d, d ∈ (M.superSearch visits c).found.toList ↔ d ≠ c ∧ M.Ascends c d :=
    have hend := pending_eq_nil_of_ncard_le hfinite hvisits
    ⟨hend, Roster.nodup_toList _, fun d => mem_found_iff hend⟩
  obtain ⟨hend, hnodup, hmem⟩ := hfound _ (Nat.le_refl _)
  rw [← superClosure_eq hend] at hnodup hmem
  have himplies (d : Ty) : M.implies c d = true ↔ d ≠ c ∧ M.Ascends c d :=
    List.contains_iff_mem.trans (hmem d)
  refine ⟨hfound, hnodup, hmem, himplies, fun d e hcd hde => ?_⟩
  rcases Decidable.em (e = c) with heq | hne
  · exact .inl heq
  · refine .inr ((himplies e).2 ⟨hne, ?_⟩)
    exact ((himplies d).1 hcd).2.trans_left (reaches_of_implies hde)

/-- A concept that implies others by way of itself, with its arguments exchanged twice. -/
theorem superClosure_exact_cyclic :
    let M := Registry.cyclic.model
    let c : Ty := .app "To" [.bool, .list .int]
    let d : Ty := .app "From" [.list .int, .bool]
    let e : Ty := .app "To" [.int, .int]
    {d | M.Reaches c d}.Finite ∧ M.Ascends c c ∧
      c ∉ M.superClosure c ∧ d ∈ M.superClosure c ∧ M.Ascends c e ∧
      (M.implies c d = true → M.implies d e = true → e = c ∨ M.implies c e = true) := by
  intro M c d e
  have hlevel : Registry.cyclic.Levelled Registry.cyclicLevel := by decide +kernel
  have hfinite := hlevel.finite_reaches c
  have hup : d ∈ M.supers c := by decide +kernel
  have hback : c ∈ M.supers d := by decide +kernel
  have hdc : d ≠ c := by decide
  have he : M.implies c e = true := by decide +kernel
  obtain ⟨-, -, hmem, himplies, htrans⟩ := superClosure_exact hfinite
  exact ⟨hfinite, .tail (.single hup) hback, fun hc => ((hmem c).1 hc).1 rfl,
    (hmem d).2 ⟨hdc, .single hup⟩, ((himplies e).1 he).2, htrans d e⟩

section Lists

variable {α : Type} [DecidableEq α]

theorem eraseDups_append_of_subset {as bs : List α} (h : bs ⊆ as) :
    (as ++ bs).eraseDups = as.eraseDups := by
  have hnone : bs.removeAll as = [] :=
    List.filter_eq_nil_iff.2 fun b hb => by simpa using h hb
  rw [List.eraseDups_append, hnone, List.eraseDups_nil, List.append_nil]

theorem eraseDups_append_congr {as bs : List α} (h : as.eraseDups = bs.eraseDups) (cs : List α) :
    (as ++ cs).eraseDups = (bs ++ cs).eraseDups := by
  have hmem : ∀ a, a ∈ as ↔ a ∈ bs := fun a => by
    rw [← List.mem_eraseDups, h, List.mem_eraseDups]
  have hremove : cs.removeAll as = cs.removeAll bs :=
    List.filter_congr fun a _ => by simp [hmem]
  rw [List.eraseDups_append, List.eraseDups_append, h, hremove]

theorem pairwise_idxOf_eraseDups (as : List α) :
    as.eraseDups.Pairwise fun a b => as.idxOf a < as.idxOf b := by
  induction as using List.reverseRecOn with
  | nil => exact List.Pairwise.nil
  | append_singleton as a ih =>
      have hold : as.eraseDups.Pairwise fun b c =>
          (as ++ [a]).idxOf b < (as ++ [a]).idxOf c := by
        refine ih.imp_of_mem fun hb hc hlt => ?_
        rwa [List.idxOf_append_of_mem (List.mem_eraseDups.1 hb),
          List.idxOf_append_of_mem (List.mem_eraseDups.1 hc)]
      rcases Decidable.em (a ∈ as) with ha | ha
      · rw [eraseDups_append_of_subset (by simpa using ha)]
        exact hold
      · have hnew : ([a].removeAll as).eraseDups = [a] := by
          simp [List.removeAll, ha, List.eraseDups_cons]
        rw [List.eraseDups_append, hnew, List.pairwise_append]
        refine ⟨hold, List.pairwise_singleton _ _, fun b hb c hc => ?_⟩
        rw [List.mem_singleton.1 hc, List.idxOf_append_of_notMem ha,
          List.idxOf_append_of_mem (List.mem_eraseDups.1 hb)]
        exact Nat.lt_add_right _ (List.idxOf_lt_length_of_mem (List.mem_eraseDups.1 hb))

/-- Where what follows a member is followed by nothing new, to list followers a second time adds
nothing and changes no place. -/
theorem eraseDups_flatMap_eraseDups {next : α → List α}
    (hnext : ∀ a, ∀ b ∈ next a, next b ⊆ a :: next a) (as : List α) :
    ((as.flatMap fun a => a :: next a).eraseDups.flatMap fun a => a :: next a).eraseDups =
      (as.flatMap fun a => a :: next a).eraseDups := by
  let block (a : α) : List α := a :: next a
  have hblock : ∀ a, ∀ b ∈ block a, block b ⊆ block a := by
    intro a b hb
    rcases List.mem_cons.1 hb with rfl | hb
    · exact List.Subset.refl _
    · exact List.cons_subset.2 ⟨List.mem_cons_of_mem a hb, hnext a b hb⟩
  induction as using List.reverseRecOn with
  | nil => rfl
  | append_singleton as a ih =>
      let before := as.flatMap block
      let new := ((block a).removeAll before).eraseDups
      have hsplit : (as ++ [a]).flatMap block = before ++ block a := by simp [before]
      have hinside : new.flatMap block ⊆ block a := by
        intro c hc
        obtain ⟨b, hb, hcb⟩ := List.mem_flatMap.1 hc
        exact hblock a b (List.mem_filter.1 (List.mem_eraseDups.1 hb)).1 hcb
      have hnew : (before ++ new.flatMap block).eraseDups = (before ++ block a).eraseDups := by
        rcases Decidable.em (a ∈ before) with ha | ha
        · obtain ⟨b, hb, hab⟩ := List.mem_flatMap.1 ha
          have hsub : block a ⊆ before := fun c hc =>
            List.mem_flatMap.2 ⟨b, hb, hblock b a hab hc⟩
          rw [eraseDups_append_of_subset hsub,
            eraseDups_append_of_subset (List.Subset.trans hinside hsub)]
        · obtain ⟨rest, hrest⟩ : ∃ rest, new = a :: rest := by
            simp only [new, block, List.cons_removeAll, List.contains_eq_mem, ha, decide_false,
              if_true, List.eraseDups_cons]
            exact ⟨_, rfl⟩
          rw [hrest, List.flatMap_cons] at hinside
          rw [hrest, List.flatMap_cons, ← List.append_assoc]
          refine eraseDups_append_of_subset fun c hc => List.mem_append_right before ?_
          exact hinside (List.mem_append_right (block a) hc)
      change (((as ++ [a]).flatMap block).eraseDups.flatMap block).eraseDups = _
      rw [hsplit, List.eraseDups_append, List.flatMap_append, eraseDups_append_congr ih, hnew,
        List.eraseDups_append]

end Lists

namespace ConceptModel

variable {M : ConceptModel}

def listed (M : ConceptModel) (cs : List Ty) : List Ty :=
  cs.flatMap fun c => c :: M.superClosure c

theorem expand_eq_eraseDups (cs : List Ty) : M.expand cs = (M.listed cs).eraseDups :=
  Roster.toList_ofList _

theorem mem_expand_iff_listed {cs : List Ty} {d : Ty} : d ∈ M.expand cs ↔ d ∈ M.listed cs := by
  rw [expand_eq_eraseDups, List.mem_eraseDups]

theorem subset_expand (cs : List Ty) : cs ⊆ M.expand cs := fun c hc =>
  mem_expand.2 ⟨c, hc, .inl rfl⟩

theorem expand_mono {cs ds : List Ty} (h : cs ⊆ ds) : M.expand cs ⊆ M.expand ds := by
  intro e he
  obtain ⟨c, hc, hce⟩ := mem_expand.1 he
  exact mem_expand.2 ⟨c, h hc, hce⟩

theorem Finitary.superClosure_subset (hM : M.Finitary) {c d : Ty} (h : d ∈ M.superClosure c) :
    M.superClosure d ⊆ c :: M.superClosure c := by
  intro e he
  exact hM.mem_closure_iff.2
    ((reaches_of_mem_superClosure h).trans (reaches_of_mem_superClosure he))

theorem Finitary.expand_expand (hM : M.Finitary) (cs : List Ty) :
    M.expand (M.expand cs) = M.expand cs := by
  rw [expand_eq_eraseDups, expand_eq_eraseDups]
  exact eraseDups_flatMap_eraseDups (fun c d hd => hM.superClosure_subset hd) cs

theorem Finitary.superClosure_subset_expand (hM : M.Finitary) {cs : List Ty} {c : Ty}
    (hc : c ∈ M.expand cs) : M.superClosure c ⊆ M.expand cs := fun _ hd =>
  hM.mem_expand_of_reaches hc (reaches_of_mem_superClosure hd)

end ConceptModel

/-- The expansion of a list holds its concepts and their superconcepts, each once and where it is
met first. It is a closure operator, idempotent with its order, and satisfaction is closed under
implication because of this, whatever kind of type it is that satisfies a concept. -/
theorem expand_closes {M : ConceptModel} (hM : M.Finitary) (cs : List Ty) :
    (M.expand cs).Nodup ∧
      (M.expand cs).Pairwise (fun c d => (M.listed cs).idxOf c < (M.listed cs).idxOf d) ∧
      (∀ d, d ∈ M.expand cs ↔ d ∈ M.listed cs) ∧
      cs ⊆ M.expand cs ∧
      (∀ c ∈ M.expand cs, M.superClosure c ⊆ M.expand cs) ∧
      M.expand (M.expand cs) = M.expand cs ∧
      (∀ ds, cs ⊆ ds → M.expand cs ⊆ M.expand ds) ∧
      ∀ givens t c d, M.satisfies givens t c = true → M.implies c d = true →
        M.satisfies givens t d = true := by
  refine ⟨Roster.nodup_toList _, ?_, fun d => mem_expand_iff_listed, subset_expand cs,
    fun c hc => hM.superClosure_subset_expand hc, hM.expand_expand cs, fun ds h => expand_mono h,
    fun givens t c d hc hcd => ?_⟩
  · rw [expand_eq_eraseDups]
    exact pairwise_idxOf_eraseDups (M.listed cs)
  · exact hM.satisfies_of_reaches hc (reaches_of_implies hcd)

/-- The closures of the two concepts overlap in a circle. -/
theorem expand_closes_circular :
    let M := Registry.circular.model
    let cs : List Ty := [.app "Greater" [.int], .app "Sorted" [.int], .app "Equal" [.int]]
    let givens : List Param := [.witness ⟨"'w"⟩ [.app "Sorted" [.int]]]
    M.Finitary ∧
      M.expand cs = [.app "Greater" [.int], .app "Less" [.int], .app "Equal" [.int],
        .app "Sorted" [.int]] ∧
      M.expand (M.expand cs) = M.expand cs ∧
      M.satisfies givens (.var ⟨"'w"⟩) (.app "Greater" [.int]) = true := by
  intro M cs givens
  have hM : M.Finitary := Registry.Flat.finitary (by decide)
  obtain ⟨-, -, -, -, -, hidem, -, hsatisfies⟩ := expand_closes hM cs
  refine ⟨hM, by decide +kernel, hidem, ?_⟩
  exact hsatisfies givens _ (.app "Sorted" [.int]) _ (by decide +kernel) (by decide +kernel)

end ConceptResolution
