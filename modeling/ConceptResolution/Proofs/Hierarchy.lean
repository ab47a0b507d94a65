import ConceptResolution.Hierarchy.Satisfaction
import Mathlib.Data.Fintype.EquivFin
import Mathlib.Data.Set.Card
import Mathlib.Logic.Relation
import Mathlib.Order.WellFounded

namespace ConceptResolution

namespace ConceptModel

variable (M : ConceptModel)

/-- The hierarchy leads from one concept to the other in any number of steps. -/
def Reaches : Ty → Ty → Prop :=
  Relation.ReflTransGen fun c d => d ∈ M.supers c

/-- Every concept has finitely many superconcepts. There need not be a bound for all concepts. -/
def Finitary : Prop :=
  ∀ c, {d | M.Reaches c d}.Finite

/-- The search for superconcepts of a concept ends after some number of visits. -/
def Ends (c : Ty) : Prop :=
  ∃ visits, (M.superSearch visits c).pending = []

end ConceptModel

namespace SuperSearch

variable {M : ConceptModel} {root : Ty}

/-- The concepts of a search, those taken up and those pending, are the root and all that it has
found. Of those taken up some have had all their superconcepts visited. -/
structure Sound (M : ConceptModel) (root : Ty) (taken finished : List Ty) (s : SuperSearch) : Prop
    where
  nodup : (taken ++ s.pending).Nodup
  mem_iff : ∀ c, c ∈ taken ++ s.pending ↔ c = root ∨ c ∈ s.found
  root_notMem : root ∉ s.found
  supers : ∀ c ∈ finished, ∀ d ∈ M.supers c, d ∈ taken ++ s.pending
  reaches : ∀ c ∈ taken ++ s.pending, M.Reaches root c

theorem sound_start (M : ConceptModel) (root : Ty) : Sound M root [] [] ⟨.empty, [root]⟩ where
  nodup := by simp
  mem_iff c := by simp [Roster.notMem_empty]
  root_notMem := Roster.notMem_empty root
  supers := by simp
  reaches c hc := by
    cases List.mem_singleton.1 hc
    exact .refl

theorem Sound.visit {taken finished : List Ty} {s : SuperSearch} {c d : Ty}
    (h : Sound M root taken finished s) (hc : c ∈ taken) (hd : d ∈ M.supers c) :
    Sound M root taken finished (SuperSearch.visit root s d) ∧
      d ∈ taken ++ (SuperSearch.visit root s d).pending ∧
      s.pending ⊆ (SuperSearch.visit root s d).pending := by
  unfold SuperSearch.visit
  split
  · next hknown => exact ⟨h, (h.mem_iff d).2 hknown, List.Subset.refl _⟩
  · next hnew =>
    have hnot : d ∉ s.found := fun hmem => hnew (.inr hmem)
    have hgrow : ∀ e, e ∈ taken ++ d :: s.pending ↔ e = d ∨ e ∈ taken ++ s.pending := by
      intro e
      simp only [List.mem_append, List.mem_cons]
      tauto
    have hfound : ∀ e, e ∈ s.found.insertNew d hnot ↔ e = d ∨ e ∈ s.found := by
      intro e
      rw [← Roster.mem_toList, Roster.toList_insertNew, List.mem_append, List.mem_singleton,
        Roster.mem_toList, or_comm]
    refine ⟨⟨?_, ?_, ?_, ?_, ?_⟩, (hgrow d).2 (.inl rfl), List.subset_cons_self d s.pending⟩
    · refine List.perm_middle.nodup_iff.2 (List.nodup_cons.2 ⟨fun hmem => ?_, h.nodup⟩)
      exact hnew ((h.mem_iff d).1 hmem)
    · intro e
      rw [hgrow, h.mem_iff, hfound]
      tauto
    · intro hroot
      rcases (hfound root).1 hroot with rfl | hroot
      · exact hnew (.inl rfl)
      · exact h.root_notMem hroot
    · exact fun e he f hf => (hgrow f).2 (.inr (h.supers e he f hf))
    · intro e he
      rcases (hgrow e).1 he with rfl | he
      · exact (h.reaches c (List.mem_append_left _ hc)).tail hd
      · exact h.reaches e he

theorem Sound.visitAll {taken finished ds : List Ty} {s : SuperSearch} {c : Ty}
    (h : Sound M root taken finished s) (hc : c ∈ taken) (hds : ds ⊆ M.supers c) :
    Sound M root taken finished (ds.foldl (SuperSearch.visit root) s) ∧
      (∀ d ∈ ds, d ∈ taken ++ (ds.foldl (SuperSearch.visit root) s).pending) ∧
      s.pending ⊆ (ds.foldl (SuperSearch.visit root) s).pending := by
  induction ds generalizing s with
  | nil => exact ⟨h, by simp, List.Subset.refl _⟩
  | cons d ds ih =>
      obtain ⟨hd, hds⟩ := List.cons_subset.1 hds
      obtain ⟨hvisit, hmem, hkeep⟩ := h.visit hc hd
      obtain ⟨hall, hmems, hkeeps⟩ := ih hvisit hds
      refine ⟨hall, List.forall_mem_cons.2 ⟨?_, hmems⟩, List.Subset.trans hkeep hkeeps⟩
      exact (List.mem_append.1 hmem).elim (List.mem_append_left _) fun hd =>
        List.mem_append_right _ (hkeeps hd)

theorem Sound.step {taken rest : List Ty} {s : SuperSearch} {c : Ty}
    (h : Sound M root taken taken s) (hpending : s.pending = c :: rest) :
    Sound M root (taken ++ [c]) (taken ++ [c]) (s.step M root) := by
  have hsplit : taken ++ s.pending = taken ++ [c] ++ rest := by simp [hpending]
  have hstart : Sound M root (taken ++ [c]) taken ⟨s.found, rest⟩ :=
    ⟨hsplit ▸ h.nodup, hsplit ▸ h.mem_iff, h.root_notMem, hsplit ▸ h.supers, hsplit ▸ h.reaches⟩
  have hstep : s.step M root = (M.supers c).foldl (SuperSearch.visit root) ⟨s.found, rest⟩ := by
    rw [SuperSearch.step, hpending]
  rw [hstep]
  obtain ⟨hall, hmem, -⟩ := hstart.visitAll (c := c) (by simp) (List.Subset.refl _)
  refine ⟨hall.nodup, hall.mem_iff, hall.root_notMem, fun d hd e he => ?_, hall.reaches⟩
  rcases List.mem_append.1 hd with hd | hd
  · exact hall.supers d hd e he
  · cases List.mem_singleton.1 hd
    exact hmem e he

theorem Sound.mem_of_reaches {taken : List Ty} {s : SuperSearch} (h : Sound M root taken taken s)
    (hend : s.pending = []) {c : Ty} (hc : M.Reaches root c) : c ∈ taken := by
  have hall : taken ++ s.pending = taken := by rw [hend, List.append_nil]
  induction hc with
  | refl => exact hall ▸ (h.mem_iff root).2 (.inl rfl)
  | tail _ hstep ih => exact hall ▸ h.supers _ ih _ hstep

/-- A search that still has a concept pending has taken up a new one at every visit. -/
theorem Sound.run {taken : List Ty} {s : SuperSearch} (h : Sound M root taken taken s) (n : Nat) :
    ∃ taken', Sound M root taken' taken' (SuperSearch.run M root n s) ∧
      ((SuperSearch.run M root n s).pending = [] ∨ taken'.length = taken.length + n) := by
  induction n generalizing taken s with
  | zero => exact ⟨taken, h, .inr rfl⟩
  | succ n ih =>
      rw [SuperSearch.run]
      cases hpending : s.pending with
      | nil => exact ⟨taken, by simpa using h, by simp [hpending]⟩
      | cons c rest =>
          obtain ⟨taken', hsound, hlength⟩ := ih (h.step hpending)
          refine ⟨taken', by simpa using hsound, hlength.imp (by simp) fun hlength => ?_⟩
          simp only [List.length_append, List.length_singleton] at hlength
          omega

theorem run_eq_iterate (n : Nat) (s : SuperSearch) : run M root n s = (step M root)^[n] s := by
  induction n with
  | zero => rfl
  | succ n ih => rw [run_succ, ih, Function.iterate_succ_apply']

theorem run_of_pending_eq_nil {s : SuperSearch} (h : s.pending = []) (n : Nat) :
    run M root n s = s := by
  rw [run_eq_iterate]
  exact Function.iterate_fixed (by rw [step, h]) n

theorem run_run (m n : Nat) (s : SuperSearch) :
    run M root m (run M root n s) = run M root n (run M root m s) := by
  simp only [run_eq_iterate]
  exact (Function.Commute.iterate_iterate_self (step M root) m n).eq s

theorem repeatM_advance_of_pending_eq_nil {s : SuperSearch} {t : Stage M root s}
    (h : t.1.pending = []) : repeatM advance t = pure (some ⟨t, h⟩) := by
  have hadvance : advance t = pure (.inr (some ⟨t, h⟩)) := by
    unfold advance
    split
    · rfl
    · next hpending => cases hpending.symm.trans h
  rw [repeatM_eq_of_monadTail, repeatM.body, hadvance]
  rfl

theorem exists_repeatM_advance_eq {s : SuperSearch} {t : Stage M root s} (h : t.1.pending ≠ []) :
    ∃ t' : Stage M root s, t'.1 = t.1.step M root ∧ repeatM advance t = repeatM advance t' := by
  obtain ⟨t', ht', hadvance⟩ : ∃ t' : Stage M root s,
      t'.1 = t.1.step M root ∧ advance t = pure (.inl t') := by
    unfold advance
    split
    · next hend => exact absurd hend h
    · exact ⟨_, rfl, rfl⟩
  refine ⟨t', ht', ?_⟩
  rw [repeatM_eq_of_monadTail, repeatM.body, hadvance]
  rfl

/-- Where some number of visits brings the search to its end, the loop ends there as well. -/
theorem repeatM_advance {s : SuperSearch} (t : Stage M root s) (n : Nat)
    (h : (run M root n t.1).pending = []) :
    (repeatM advance t).run.map (fun t => t.1.1) = some (run M root n t.1) := by
  induction n generalizing t with
  | zero =>
      rw [repeatM_advance_of_pending_eq_nil h]
      rfl
  | succ n ih =>
      rcases Classical.em (t.1.pending = []) with hend | hpending
      · rw [repeatM_advance_of_pending_eq_nil hend, run_of_pending_eq_nil hend]
        rfl
      · obtain ⟨t', ht', hloop⟩ := exists_repeatM_advance_eq hpending
        have hrun : run M root (n + 1) t.1 = run M root n t'.1 := by
          rw [ht', run, if_neg (by simpa using hpending)]
        rw [hrun] at h ⊢
        exact hloop ▸ ih t' h

/-- What the search returns is what it comes to after some number of visits, with none to follow. -/
theorem exists_run_of_finish {s t : SuperSearch} (h : finish M root s = some t) :
    ∃ n, run M root n s = t ∧ t.pending = [] := by
  dsimp only [finish] at h
  split at h
  · next hend =>
    cases h
    exact ⟨4096, rfl, List.isEmpty_iff.1 hend⟩
  · obtain ⟨⟨⟨u, n, hn⟩, hend⟩, -, rfl⟩ := Option.map_eq_some_iff.1 h
    exact ⟨n, hn, hend⟩

theorem finish_eq_some {s : SuperSearch} {n : Nat} (h : (run M root n s).pending = []) :
    finish M root s = some (run M root n s) := by
  have hstarted : run M root n (run M root 4096 s) = run M root n s := by
    rw [run_run, run_of_pending_eq_nil h]
  dsimp only [finish]
  split
  · next hend => rw [← hstarted, run_of_pending_eq_nil (List.isEmpty_iff.1 hend)]
  · rw [← hstarted]
    exact repeatM_advance _ n (hstarted.symm ▸ h)

end SuperSearch

namespace ConceptModel

variable {M : ConceptModel}

theorem superClosure_eq {visits : Nat} {c : Ty} (hend : (M.superSearch visits c).pending = []) :
    M.superClosure c = (M.superSearch visits c).found.toList := by
  rw [superClosure, SuperSearch.finish_eq_some hend]
  rfl

theorem ends_iff_isSome_finish {c : Ty} :
    M.Ends c ↔ (SuperSearch.finish M c ⟨.empty, [c]⟩).isSome = true := by
  rw [Option.isSome_iff_exists]
  constructor
  · rintro ⟨visits, hend⟩
    exact ⟨_, SuperSearch.finish_eq_some hend⟩
  · rintro ⟨s, hs⟩
    obtain ⟨visits, rfl, hend⟩ := SuperSearch.exists_run_of_finish hs
    exact ⟨visits, hend⟩

theorem superClosure_eq_nil {c : Ty} (h : ¬M.Ends c) : M.superClosure c = [] := by
  rw [ends_iff_isSome_finish, Option.isSome_iff_ne_none, not_not] at h
  rw [superClosure, h]

theorem exists_mem_found_of_mem_superClosure {c d : Ty} (h : d ∈ M.superClosure c) :
    ∃ visits, d ∈ (M.superSearch visits c).found.toList := by
  rcases Classical.em (M.Ends c) with ⟨visits, hend⟩ | hends
  · exact ⟨visits, superClosure_eq hend ▸ h⟩
  · rw [superClosure_eq_nil hends] at h
    cases h

variable (M) in
theorem exists_sound (visits : Nat) (c : Ty) :
    ∃ taken, SuperSearch.Sound M c taken taken (M.superSearch visits c) ∧
      ((M.superSearch visits c).pending = [] ∨ taken.length = visits) := by
  obtain ⟨taken, hsound, hend⟩ := (SuperSearch.sound_start M c).run visits
  exact ⟨taken, hsound, hend.imp_right fun hlength => hlength.trans (Nat.zero_add visits)⟩

theorem reaches_of_mem_found {visits : Nat} {c d : Ty}
    (h : d ∈ (M.superSearch visits c).found.toList) : M.Reaches c d := by
  obtain ⟨taken, hsound, -⟩ := M.exists_sound visits c
  exact hsound.reaches d ((hsound.mem_iff d).2 (.inr (Roster.mem_toList.1 h)))

theorem ne_of_mem_found {visits : Nat} {c d : Ty}
    (h : d ∈ (M.superSearch visits c).found.toList) : d ≠ c := by
  obtain ⟨taken, hsound, -⟩ := M.exists_sound visits c
  rintro rfl
  exact hsound.root_notMem (Roster.mem_toList.1 h)

theorem eq_or_mem_found {visits : Nat} {c d : Ty} (hend : (M.superSearch visits c).pending = [])
    (h : M.Reaches c d) : d = c ∨ d ∈ (M.superSearch visits c).found.toList := by
  obtain ⟨taken, hsound, -⟩ := M.exists_sound visits c
  have htaken := hsound.mem_of_reaches hend h
  exact ((hsound.mem_iff d).1 (List.mem_append_left _ htaken)).imp_right Roster.mem_toList.2

theorem reaches_of_mem_superClosure {c d : Ty} (h : d ∈ M.superClosure c) : M.Reaches c d := by
  obtain ⟨visits, hd⟩ := exists_mem_found_of_mem_superClosure h
  exact reaches_of_mem_found hd

theorem ne_of_mem_superClosure {c d : Ty} (h : d ∈ M.superClosure c) : d ≠ c := by
  obtain ⟨visits, hd⟩ := exists_mem_found_of_mem_superClosure h
  exact ne_of_mem_found hd

/-- As many visits as there are concepts to reach bring a search to its end. -/
theorem pending_eq_nil_of_ncard_le {c : Ty} (hfinite : {d | M.Reaches c d}.Finite) {visits : Nat}
    (hvisits : {d | M.Reaches c d}.ncard ≤ visits) : (M.superSearch visits c).pending = [] := by
  obtain ⟨taken, hsound, hend⟩ := M.exists_sound visits c
  have hsubset : ((taken ++ (M.superSearch visits c).pending).toFinset : Set Ty) ⊆
      {d | M.Reaches c d} := fun d hd => hsound.reaches d (List.mem_toFinset.1 hd)
  have hcount := Set.ncard_le_ncard hsubset hfinite
  rw [Set.ncard_coe_finset, List.toFinset_card_of_nodup hsound.nodup, List.length_append] at hcount
  refine hend.elim id fun hlength => List.eq_nil_of_length_eq_zero ?_
  omega

theorem ends_iff_finite {c : Ty} : M.Ends c ↔ {d | M.Reaches c d}.Finite := by
  constructor
  · rintro ⟨visits, hend⟩
    obtain ⟨taken, hsound, -⟩ := M.exists_sound visits c
    exact taken.finite_toSet.subset fun d hd => hsound.mem_of_reaches hend hd
  · exact fun hfinite => ⟨_, pending_eq_nil_of_ncard_le hfinite (Nat.le_refl _)⟩

theorem Finitary.eq_or_mem_superClosure (hM : M.Finitary) {c d : Ty} (h : M.Reaches c d) :
    d = c ∨ d ∈ M.superClosure c := by
  obtain ⟨visits, hend⟩ := ends_iff_finite.2 (hM c)
  rw [superClosure_eq hend]
  exact eq_or_mem_found hend h

theorem Finitary.mem_closure_iff (hM : M.Finitary) {c d : Ty} :
    d ∈ c :: M.superClosure c ↔ M.Reaches c d := by
  rw [List.mem_cons]
  exact ⟨fun h => h.elim (fun hd => hd ▸ .refl) reaches_of_mem_superClosure,
    hM.eq_or_mem_superClosure⟩

theorem mem_expand {cs : List Ty} {d : Ty} :
    d ∈ M.expand cs ↔ ∃ c ∈ cs, d = c ∨ d ∈ M.superClosure c := by
  rw [expand, Roster.toList_ofList, List.mem_eraseDups, List.mem_flatMap]
  simp only [List.mem_cons]

theorem Finitary.mem_expand_iff (hM : M.Finitary) {cs : List Ty} {d : Ty} :
    d ∈ M.expand cs ↔ ∃ c ∈ cs, M.Reaches c d := by
  rw [mem_expand]
  refine exists_congr fun c => and_congr_right fun _ => ?_
  rw [← hM.mem_closure_iff, List.mem_cons]

theorem reaches_of_mem_expand {cs : List Ty} {d : Ty} (h : d ∈ M.expand cs) :
    ∃ c ∈ cs, M.Reaches c d := by
  obtain ⟨c, hc, rfl | hd⟩ := mem_expand.1 h
  · exact ⟨d, hc, .refl⟩
  · exact ⟨c, hc, reaches_of_mem_superClosure hd⟩

theorem Finitary.mem_expand_of_reaches (hM : M.Finitary) {cs : List Ty} {c d : Ty}
    (hc : c ∈ M.expand cs) (h : M.Reaches c d) : d ∈ M.expand cs := by
  obtain ⟨b, hb, hbc⟩ := hM.mem_expand_iff.1 hc
  exact hM.mem_expand_iff.2 ⟨b, hb, hbc.trans h⟩

theorem Finitary.implies_iff (hM : M.Finitary) {c d : Ty} :
    M.implies c d = true ↔ M.Reaches c d ∧ d ≠ c := by
  rw [implies, List.contains_iff_mem]
  constructor
  · exact fun h => ⟨reaches_of_mem_superClosure h, ne_of_mem_superClosure h⟩
  · exact fun ⟨h, hne⟩ => (hM.eq_or_mem_superClosure h).resolve_left hne

theorem reaches_of_implies {c d : Ty} (h : M.implies c d = true) : M.Reaches c d :=
  reaches_of_mem_superClosure (List.contains_iff_mem.1 h)

theorem subset_of_mem_coverFrom {before cs : List Ty} {c : Ty} (h : c ∈ M.coverFrom before cs) :
    c ∈ cs := by
  induction cs generalizing before with
  | nil => exact h
  | cons d cs ih =>
      rw [coverFrom] at h
      split at h
      · exact List.mem_cons_of_mem d (ih h)
      · rcases List.mem_cons.1 h with rfl | h
        · exact List.mem_cons_self
        · exact List.mem_cons_of_mem d (ih h)

variable (M) in
/-- A concept is left out of a cover only for one that comes earlier, or that it does not imply. -/
theorem mem_coverFrom_or (before earlier : List Ty) (c : Ty) (later : List Ty) :
    c ∈ M.coverFrom before (earlier ++ c :: later) ∨
      (∃ d ∈ before ++ earlier, M.implies d c = true) ∨
      ∃ d ∈ later, M.implies d c = true ∧ M.implies c d = false := by
  induction earlier generalizing before with
  | nil =>
      rw [List.nil_append, coverFrom]
      split
      · next h =>
        rw [Bool.or_eq_true, List.any_eq_true, List.any_eq_true] at h
        exact .inr (by simpa using h)
      · exact .inl List.mem_cons_self
  | cons e earlier ih =>
      have hsplit : before ++ e :: earlier = before ++ [e] ++ earlier := by simp
      rw [List.cons_append, coverFrom, hsplit]
      refine (ih (before ++ [e])).imp_left fun hmem => ?_
      split
      · exact hmem
      · exact List.mem_cons_of_mem e hmem

/-- The order in which concepts of a list are left out for others: for those that lie above them,
and for earlier ones on the same level. -/
private def Ahead (M : ConceptModel) (cs : List Ty) (d c : { c // c ∈ cs }) : Prop :=
  M.Reaches d.1 c.1 ∧ (¬M.Reaches c.1 d.1 ∨ cs.idxOf d.1 < cs.idxOf c.1)

private theorem wellFounded_ahead (M : ConceptModel) (cs : List Ty) : WellFounded (Ahead M cs) := by
  have htrans : IsTrans { c // c ∈ cs } (Ahead M cs) := by
    refine ⟨fun e d c hed hdc => ⟨hed.1.trans hdc.1, ?_⟩⟩
    rcases Classical.em (M.Reaches c.1 e.1) with hce | hce
    · have hlt := hed.2.resolve_left (not_not_intro (hdc.1.trans hce))
      have hlt' := hdc.2.resolve_left (not_not_intro (hce.trans hed.1))
      exact .inr (hlt.trans hlt')
    · exact .inl hce
  have hirrefl : Std.Irrefl (Ahead M cs) :=
    ⟨fun c hc => hc.2.elim (fun h => h .refl) (lt_irrefl _)⟩
  exact Finite.wellFounded_of_trans_of_irrefl (Ahead M cs)

theorem Finitary.exists_reaches_of_mem (hM : M.Finitary) {cs : List Ty} {c : Ty} (hc : c ∈ cs) :
    ∃ d ∈ M.coverFrom [] cs, M.Reaches d c := by
  suffices h : ∀ c : { c // c ∈ cs }, ∃ d ∈ M.coverFrom [] cs, M.Reaches d c.1 from h ⟨c, hc⟩
  intro c
  induction c using (wellFounded_ahead M cs).induction with
  | h c ih =>
      obtain ⟨c, hc⟩ := c
      have hstep : ∀ d (hd : d ∈ cs), Ahead M cs ⟨d, hd⟩ ⟨c, hc⟩ →
          ∃ d ∈ M.coverFrom [] cs, M.Reaches d c := by
        intro d hd hahead
        obtain ⟨e, he, hed⟩ := ih ⟨d, hd⟩ hahead
        exact ⟨e, he, hed.trans hahead.1⟩
      obtain ⟨earlier, later, hsplit, hfirst⟩ := List.eq_append_cons_of_mem hc
      rcases M.mem_coverFrom_or [] earlier c later with
        hmem | ⟨d, hd, himplies⟩ | ⟨d, hd, himplies, hnot⟩
      · exact ⟨c, hsplit ▸ hmem, .refl⟩
      · rw [List.nil_append] at hd
        have hidx : cs.idxOf d < cs.idxOf c := by
          rw [hsplit, List.idxOf_append_of_notMem hfirst, List.idxOf_cons_self, Nat.add_zero,
            List.idxOf_append_of_mem hd]
          exact List.idxOf_lt_length_of_mem hd
        exact hstep d (by simp [hsplit, hd]) ⟨reaches_of_implies himplies, .inr hidx⟩
      · refine hstep d (by simp [hsplit, hd]) ⟨reaches_of_implies himplies, .inl fun hcd => ?_⟩
        have hne := (hM.implies_iff.1 himplies).2
        simp [hM.implies_iff.2 ⟨hcd, hne.symm⟩] at hnot

end ConceptModel

end ConceptResolution
