import ConceptResolution.Search.Preference
import Mathlib.Data.List.Perm.Basic
import Mathlib.Data.List.Zip

namespace ConceptResolution

theorem dominates_swap {pairs pairs' : List (Nat × Nat)} (hswap : ∀ p ∈ pairs, p.swap ∈ pairs')
    (h : dominates pairs = true) : dominates pairs' = false := by
  rw [dominates, Bool.and_eq_true, List.any_eq_true] at h
  obtain ⟨-, p, hp, hless⟩ := h
  have hless := of_decide_eq_true hless
  rw [dominates, Bool.and_eq_false_iff]
  refine .inl (List.all_eq_false.2 ⟨p.swap, hswap p hp, ?_⟩)
  simpa using hless

/-- What a candidate may be preferred for: more that it provides, more specific types, or more
witnesses for them. -/
inductive Criterion where
  | capability
  | specificity
  | mentions

namespace Site

variable (site : Site)

def prefers : Criterion → Viable → Viable → Bool
  | .capability => site.moreCapable
  | .specificity => site.moreSpecific
  | .mentions => site.mentionsMore

/-- Whether a criterion counts; the one of mentions may be switched off. -/
def counts : Criterion → Bool
  | .capability | .specificity => true
  | .mentions => site.options.preferMentions

section Criteria

variable {you me : Viable}

theorem displaces_iff :
    site.displaces you me = true ↔
      mayDisplace you me = true ∧ ∃ c, site.counts c = true ∧ site.prefers c you me = true := by
  rw [displaces, Bool.and_eq_true, Bool.or_eq_true, Bool.or_eq_true, Bool.and_eq_true]
  refine and_congr_right fun _ => ⟨?_, ?_⟩
  · rintro ((h | h) | ⟨hcounts, h⟩)
    · exact ⟨.capability, rfl, h⟩
    · exact ⟨.specificity, rfl, h⟩
    · exact ⟨.mentions, hcounts, h⟩
  · rintro ⟨c, hcounts, h⟩
    cases c with
    | capability => exact .inl (.inl h)
    | specificity => exact .inl (.inr h)
    | mentions => exact .inr ⟨hcounts, h⟩

theorem moreCapable_asymm (h : site.moreCapable you me = true) :
    site.moreCapable me you = false := by
  simp only [moreCapable, Bool.and_eq_true, Bool.not_eq_true'] at h
  simp [moreCapable, h.2]

theorem swap_mem_sharedArgs {you me : Instantiated} {p : Ty × Ty} (h : p ∈ site.sharedArgs you me) :
    p.swap ∈ site.sharedArgs me you := by
  simp only [sharedArgs, List.mem_flatMap] at h ⊢
  obtain ⟨y, hy, m, hm, hp⟩ := h
  split at hp
  · next hshape =>
    refine ⟨m, hm, y, hy, ?_⟩
    rw [if_pos ⟨hshape.1.symm, hshape.2.symm⟩, ← List.zip_swap]
    exact List.mem_map_of_mem hp
  · cases hp

theorem dominates_sharedArgs_asymm {f g : Ty → Nat}
    (h : dominates ((site.sharedArgs you.candidate me.candidate).map fun p => (f p.1, g p.2)) =
      true) :
    dominates ((site.sharedArgs me.candidate you.candidate).map fun p => (g p.1, f p.2)) =
      false := by
  refine dominates_swap (fun p hp => ?_) h
  obtain ⟨q, hq, rfl⟩ := List.mem_map.1 hp
  exact List.mem_map.2 ⟨q.swap, site.swap_mem_sharedArgs hq, rfl⟩

theorem moreSpecific_asymm (h : site.moreSpecific you me = true) :
    site.moreSpecific me you = false :=
  site.dominates_sharedArgs_asymm h

theorem mentionsMore_asymm (h : site.mentionsMore you me = true) :
    site.mentionsMore me you = false :=
  site.dominates_sharedArgs_asymm h

theorem prefers_asymm {c : Criterion} (h : site.prefers c you me = true) :
    site.prefers c me you = false := by
  cases c with
  | capability => exact site.moreCapable_asymm h
  | specificity => exact site.moreSpecific_asymm h
  | mentions => exact site.mentionsMore_asymm h

theorem prefers_self (c : Criterion) (v : Viable) : site.prefers c v v = false :=
  Bool.eq_false_iff.2 fun h => by simp [site.prefers_asymm h] at h

theorem moreCapable_trans {other : Viable} (h : site.moreCapable you me = true)
    (h' : site.moreCapable me other = true) : site.moreCapable you other = true := by
  simp only [moreCapable, Bool.and_eq_true, Bool.not_eq_true', List.all_eq_true,
    List.all_eq_false, List.contains_iff_mem] at h h' ⊢
  -- what the one between lacks of the first one's, the last one lacks too
  obtain ⟨hmine, c, hc, hnot⟩ := h
  exact ⟨fun d hd => hmine d (h'.1 d hd), c, hc, fun hd => hnot (h'.1 c hd)⟩

theorem exists_criteria_of_displaces (h : site.displaces you me = true)
    (h' : site.displaces me you = true) :
    ∃ c c', c ≠ c' ∧ (site.counts c = true ∧ site.prefers c you me = true) ∧
      site.counts c' = true ∧ site.prefers c' me you = true := by
  obtain ⟨-, c, hcounts, hprefers⟩ := site.displaces_iff.1 h
  obtain ⟨-, c', hcounts', hprefers'⟩ := site.displaces_iff.1 h'
  refine ⟨c, c', ?_, ⟨hcounts, hprefers⟩, hcounts', hprefers'⟩
  rintro rfl
  simp [site.prefers_asymm hprefers] at hprefers'

end Criteria

theorem displaces_self (v : Viable) : site.displaces v v = false :=
  Bool.eq_false_iff.2 fun h => by
    obtain ⟨-, c, -, hprefers⟩ := site.displaces_iff.1 h
    simp [site.prefers_self] at hprefers

/-- Whether none of some candidates displaces this one. -/
def undisplaced (candidates : List Viable) (me : Viable) : Bool :=
  !candidates.any fun you => site.displaces you me

theorem undisplaced_iff {candidates : List Viable} {me : Viable} :
    site.undisplaced candidates me = true ↔ ∀ you ∈ candidates, site.displaces you me = false := by
  simp [undisplaced]

/-- A candidate is displaced by one in another place if there is any that displaces it: in its own
place there is only itself. -/
private theorem any_zipIdx_displaces {candidates : List Viable} {me : Viable × Nat}
    (hme : me ∈ candidates.zipIdx) :
    (candidates.zipIdx.any fun you => you.2 != me.2 && site.displaces you.1 me.1) =
      candidates.any fun you => site.displaces you me.1 := by
  rw [Bool.eq_iff_iff, List.any_eq_true, List.any_eq_true]
  constructor
  · rintro ⟨you, hyou, h⟩
    exact ⟨you.1, List.fst_mem_of_mem_zipIdx hyou, (Bool.and_eq_true_iff.1 h).2⟩
  · rintro ⟨you, hyou, h⟩
    obtain ⟨i, hi⟩ := List.mem_iff_getElem?.1 hyou
    refine ⟨(you, i), List.mem_zipIdx_iff_getElem?.2 hi, ?_⟩
    have hplace : i ≠ me.2 := by
      rintro rfl
      have hsame : some you = some me.1 := hi.symm.trans (List.mem_zipIdx_iff_getElem?.1 hme)
      rw [Option.some.inj hsame, site.displaces_self] at h
      cases h
    simpa [h] using hplace

theorem preferred_eq (candidates : List Viable) :
    site.preferred candidates =
      if candidates.filter (site.undisplaced candidates) = [] then candidates
      else candidates.filter (site.undisplaced candidates) := by
  have hplaced : (candidates.zipIdx.filter fun me => !candidates.zipIdx.any fun you =>
      you.2 != me.2 && site.displaces you.1 me.1) =
        candidates.zipIdx.filter (site.undisplaced candidates ∘ Prod.fst) :=
    List.filter_congr fun me hme => by rw [site.any_zipIdx_displaces hme]; rfl
  have hkept : (candidates.zipIdx.filter (site.undisplaced candidates ∘ Prod.fst)).map Prod.fst =
      candidates.filter (site.undisplaced candidates) := by
    rw [← List.filter_map, List.zipIdx_map_fst]
  unfold preferred
  simp only [hplaced, hkept, ← List.map_eq_nil_iff (f := Prod.fst), List.isEmpty_iff]

theorem preferred_sublist (candidates : List Viable) :
    (site.preferred candidates).Sublist candidates := by
  rw [preferred_eq]
  split
  · exact List.Sublist.refl candidates
  · exact List.filter_sublist

theorem preferred_ne_nil {candidates : List Viable} (h : candidates ≠ []) :
    site.preferred candidates ≠ [] := by
  rw [preferred_eq]
  split
  · exact h
  · next hkept => exact hkept

theorem preferred_eq_self_of_displaces {candidates : List Viable}
    (h : ∀ you ∈ candidates, ∀ me ∈ candidates, site.displaces you me = false) :
    site.preferred candidates = candidates := by
  have hkept : candidates.filter (site.undisplaced candidates) = candidates :=
    List.filter_eq_self.2 fun me hme => site.undisplaced_iff.2 fun you hyou => h you hyou me hme
  rw [preferred_eq, hkept, ite_self]

theorem preferred_eq_self {candidates : List Viable}
    (h : ∀ you ∈ candidates, ∀ me ∈ candidates, mayDisplace you me = false) :
    site.preferred candidates = candidates :=
  site.preferred_eq_self_of_displaces fun you hyou me hme => by
    simp [displaces, h you hyou me hme]

theorem preferred_perm {candidates candidates' : List Viable} (h : candidates.Perm candidates') :
    (site.preferred candidates).Perm (site.preferred candidates') := by
  have hsame : site.undisplaced candidates = site.undisplaced candidates' := by
    funext me
    rw [Bool.eq_iff_iff, undisplaced_iff, undisplaced_iff]
    simp only [h.mem_iff]
  have hkept := h.filter (site.undisplaced candidates')
  have hempty : candidates.filter (site.undisplaced candidates') = [] ↔
      candidates'.filter (site.undisplaced candidates') = [] := by
    rw [← List.length_eq_zero_iff, hkept.length_eq, List.length_eq_zero_iff]
  rw [preferred_eq, preferred_eq, hsame]
  by_cases hnone : candidates'.filter (site.undisplaced candidates') = []
  · rwa [if_pos hnone, if_pos (hempty.2 hnone)]
  · rwa [if_neg hnone, if_neg fun h => hnone (hempty.1 h)]

theorem preferred_preferred (candidates : List Viable) :
    site.preferred (site.preferred candidates) = site.preferred candidates := by
  rw [site.preferred_eq candidates]
  split
  · next hnone => rw [preferred_eq, if_pos hnone]
  · -- what is left over was not displaced by more candidates than are left
    refine site.preferred_eq_self_of_displaces fun you hyou me hme => ?_
    exact site.undisplaced_iff.1 (List.mem_filter.1 hme).2 you (List.mem_filter.1 hyou).1

/-- Candidates that are the same are kept or dropped together, and those that are dropped have been
displaced. -/
theorem exists_preferred_eq_filter (candidates : List Viable) :
    ∃ kept : Viable → Bool, site.preferred candidates = candidates.filter kept ∧
      ∀ me, kept me = false → ∃ you ∈ candidates, site.displaces you me = true := by
  rw [preferred_eq]
  split
  · exact ⟨fun _ => true, (List.filter_eq_self.2 fun _ _ => rfl).symm, by simp⟩
  · exact ⟨site.undisplaced candidates, rfl, fun me hme => by simpa [undisplaced] using hme⟩

end Site

/-- Preference keeps some of the candidates, which ones does not depend on their order, and to
prefer once more changes nothing. A given, or another candidate that is not to be displaced, is
dropped for an overlapping one only, and without any permission nothing is. -/
theorem preferred_stable (site : Site) (candidates : List Viable) :
    (site.preferred candidates).Sublist candidates ∧
      (candidates ≠ [] → site.preferred candidates ≠ []) ∧
      (∀ candidates', candidates.Perm candidates' →
        (site.preferred candidates).Perm (site.preferred candidates')) ∧
      site.preferred (site.preferred candidates) = site.preferred candidates ∧
      (∃ kept : Viable → Bool, site.preferred candidates = candidates.filter kept ∧
        ∀ me ∈ candidates, kept me = false →
          me.candidate.source.isGiven = true ∨ me.candidate.source.overlap.overlappable = false →
          ∃ you ∈ candidates, you ≠ me ∧ you.candidate.source.overlap.overlapping = true ∧
            site.displaces you me = true) ∧
      ((∀ you ∈ candidates, ∀ me ∈ candidates, you ≠ me → Site.mayDisplace you me = false) →
        site.preferred candidates = candidates) := by
  refine ⟨site.preferred_sublist candidates, site.preferred_ne_nil, fun _ => site.preferred_perm,
    site.preferred_preferred candidates, ?_, fun hnone => ?_⟩
  · obtain ⟨kept, hkept, hdropped⟩ := site.exists_preferred_eq_filter candidates
    refine ⟨kept, hkept, fun me _ hme hplain => ?_⟩
    obtain ⟨you, hyou, hdisplaces⟩ := hdropped me hme
    have hother : you ≠ me := by
      rintro rfl
      simp [site.displaces_self] at hdisplaces
    have hnot : me.candidate.source.overlap.overlappable = false := by
      refine hplain.elim (fun hgiven => ?_) id
      cases hsource : me.candidate.source with
      | given p => rfl
      | declared i => simp [hsource, Evidence.isGiven] at hgiven
    have hmay : Site.mayDisplace you me = true := (Bool.and_eq_true_iff.1 hdisplaces).1
    rw [Site.mayDisplace, hnot, Bool.or_false] at hmay
    exact ⟨you, hyou, hother, hmay, hdisplaces⟩
  · refine site.preferred_eq_self_of_displaces fun you hyou me hme => ?_
    by_cases hsame : you = me
    · rw [hsame, site.displaces_self]
    · simp [Site.displaces, hnone you hyou me hme hsame]

/-- A given gives way to an instance that provides more, since that one is overlapping. -/
theorem preferred_stable_given :
    let s : TyVar := ⟨"'s"⟩
    let all : Instance := ⟨"All", [.associated ⟨"'t"⟩],
      [.app "Show" [.var ⟨"'t"⟩], .app "Eq" [.var ⟨"'t"⟩]], ⟨true, false⟩, []⟩
    let r : Registry := ⟨[], [all], []⟩
    let scope := Scope.ofParams [all] [.ordinary s, .witness ⟨"'w"⟩ [.app "Show" [.var s]]]
    let site : Site := ⟨r.model, scope, .standard⟩
    let candidates := ((site.matching [.app "Show" [.var s]]).run .empty).1
    candidates.map Viable.name = ["'w", "All"] ∧
      (site.preferred candidates).map Viable.name = ["All"] ∧
      (site.preferred candidates.reverse).Perm (site.preferred candidates) ∧
      ∃ me ∈ candidates, me.candidate.source.isGiven = true ∧
        ∃ you ∈ candidates, you ≠ me ∧ you.candidate.source.overlap.overlapping = true := by
  intro s all r scope site candidates
  have hgiven : candidates.any (fun v => v.candidate.source.isGiven) = true := by decide +kernel
  have hdropped :
      (site.preferred candidates).any (fun v => v.candidate.source.isGiven) = false := by
    decide +kernel
  obtain ⟨-, -, hperm, -, ⟨kept, hkept, hdisplaced⟩, -⟩ := preferred_stable site candidates
  refine ⟨by decide +kernel, by decide +kernel, (hperm _ candidates.reverse_perm.symm).symm, ?_⟩
  obtain ⟨me, hme, hmegiven⟩ := List.any_eq_true.1 hgiven
  have hnot : kept me = false := by
    refine Bool.eq_false_iff.2 fun h => ?_
    refine List.any_eq_false.1 hdropped me ?_ hmegiven
    exact hkept ▸ List.mem_filter.2 ⟨hme, h⟩
  obtain ⟨you, hyou, hother, hoverlapping, -⟩ := hdisplaced me hme hnot (.inl hmegiven)
  exact ⟨me, hme, hmegiven, you, hyou, hother, hoverlapping⟩

/-- No criterion prefers each of two candidates to the other, nor a candidate to itself, and to
provide more is transitive. So two candidates displace each other only where one is preferred by one
criterion and the other by another. -/
theorem criteria_asymm (site : Site) :
    (∀ c you me, site.prefers c you me = true → site.prefers c me you = false) ∧
      (∀ c v, site.prefers c v v = false) ∧
      (∀ you me other,
        site.prefers .capability you me = true → site.prefers .capability me other = true →
        site.prefers .capability you other = true) ∧
      ∀ you me, site.displaces you me = true → site.displaces me you = true →
        ∃ c c', c ≠ c' ∧ (site.counts c = true ∧ site.prefers c you me = true) ∧
          site.counts c' = true ∧ site.prefers c' me you = true :=
  ⟨fun _ _ _ => site.prefers_asymm, site.prefers_self, fun _ _ _ => site.moreCapable_trans,
    fun _ _ => site.exists_criteria_of_displaces⟩

/-- The instance for integers is the more specific one, and every other provides more. -/
theorem criteria_asymm_rivals :
    let shows (t : Ty) : Ty := .app "Show" [t]
    let t : Ty := .var ⟨"'t"⟩
    let int : Instance := ⟨"Int", [], [shows .int], ⟨false, true⟩, []⟩
    let all : Instance :=
      ⟨"All", [.associated ⟨"'t"⟩], [shows t, .app "Eq" [t]], ⟨false, true⟩, []⟩
    let most : Instance :=
      ⟨"Most", [.associated ⟨"'t"⟩], [shows t, .app "Eq" [t], .app "Hash" [t]], .neither, []⟩
    let r : Registry := ⟨[], [int, all, most], []⟩
    let site : Site := ⟨r.model, Scope.ofParams r.instances [], .standard⟩
    let candidates := ((site.matching [shows .int]).run .empty).1
    ∃ i ∈ candidates, ∃ a ∈ candidates, ∃ m ∈ candidates,
      [i, a, m].map Viable.name = ["Int", "All", "Most"] ∧
        (site.displaces i a = true ∧ site.displaces a i = true ∧
          ∃ c c', c ≠ c' ∧ site.prefers c i a = true ∧ site.prefers c' a i = true) ∧
        site.prefers .capability m a = true ∧ site.prefers .capability m i = true ∧
        site.prefers .capability i m = false := by
  intro shows t int all most r site candidates
  have hrivals : candidates.any (fun i => candidates.any fun a => candidates.any fun m =>
      [i, a, m].map Viable.name == ["Int", "All", "Most"] && site.displaces i a &&
        site.displaces a i && site.prefers .capability m a && site.prefers .capability a i) =
          true := by
    decide +kernel
  simp only [List.any_eq_true, Bool.and_eq_true, beq_iff_eq] at hrivals
  obtain ⟨i, hi, a, ha, m, hm, ⟨⟨⟨hnames, hia⟩, hai⟩, hma⟩, hcapable⟩ := hrivals
  obtain ⟨hasymm, -, htrans, hmutual⟩ := criteria_asymm site
  obtain ⟨c, c', hne, ⟨-, hprefers⟩, -, hprefers'⟩ := hmutual i a hia hai
  have hmi := htrans m a i hma hcapable
  exact ⟨i, hi, a, ha, m, hm, hnames, ⟨hia, hai, c, c', hne, hprefers, hprefers'⟩, hma, hmi,
    hasymm _ m i hmi⟩

/-- An instance that is more specific and one that is more capable displace each other. -/
example :
    let int : Instance := ⟨"Int", [], [.app "Show" [.int]], ⟨false, true⟩, []⟩
    let all : Instance := ⟨"All", [.associated ⟨"'t"⟩],
      [.app "Show" [.var ⟨"'t"⟩], .app "Eq" [.var ⟨"'t"⟩]], ⟨false, true⟩, []⟩
    let r : Registry := ⟨[], [int, all], []⟩
    let site : Site := ⟨r.model, Scope.ofParams [int, all] [], .standard⟩
    let candidates := ((site.matching [.app "Show" [.int]]).run .empty).1
    (site.preferred candidates).map Viable.name = ["Int", "All"] := by
  decide +kernel

end ConceptResolution
