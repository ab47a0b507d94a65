import ConceptResolution.Proofs.Judgements

/-!
The record of failures. Entries are never removed, and they only come to count at lower depths. A
goal is not recorded while it is being worked on, so that a judgement finds the entry of its goal as
it left it; it overwrites the entry only if that counts deeper than here, and not at all if a cycle
was found meanwhile.
-/

namespace ConceptResolution

namespace Memory

variable {limit : Nat} {goals : List Goal} {m m' m'' : Memory} {goal : Goal} {trail inner : Trail}

/-- Failures are recorded above some depth, and for goals in canonical form. -/
def Regular (limit : Nat) (m : Memory) : Prop :=
  ∀ g f, m.failures.find? g = some f → f.depth < limit ∧ canonical g.concepts = g.concepts

/-- What a search inside some goals does to the record. -/
structure Keeps (limit : Nat) (goals : List Goal) (m m' : Memory) : Prop where
  kept : ∀ g f, m.failures.find? g = some f →
    ∃ f', m'.failures.find? g = some f' ∧ f'.depth ≤ f.depth
  untouched : ∀ g ∈ goals, m'.failures.find? g = m.failures.find? g
  cycles : m.cycles ≤ m'.cycles
  regular : m.Regular limit → m'.Regular limit

namespace Keeps

theorem of_failures (h : m'.failures = m.failures) (hcycles : m.cycles ≤ m'.cycles) :
    m.Keeps limit goals m' where
  kept _ f hf := ⟨f, h ▸ hf, Nat.le_refl _⟩
  untouched _ _ := by rw [h]
  cycles := hcycles
  regular hm g f hf := hm g f (h ▸ hf)

theorem of_sameRecord (h : m.SameRecord m') : m.Keeps limit goals m' :=
  of_failures h.failures (Nat.le_of_eq h.cycles.symm)

theorem refl (m : Memory) : m.Keeps limit goals m :=
  of_sameRecord (.refl m)

theorem trans (h : m.Keeps limit goals m') (h' : m'.Keeps limit goals m'') :
    m.Keeps limit goals m'' where
  kept g f hf := by
    obtain ⟨f', hf', hle⟩ := h.kept g f hf
    obtain ⟨f'', hf'', hle'⟩ := h'.kept g f' hf'
    exact ⟨f'', hf'', hle'.trans hle⟩
  untouched g hg := (h'.untouched g hg).trans (h.untouched g hg)
  cycles := h.cycles.trans h'.cycles
  regular hm := h'.regular (h.regular hm)

theorem mono {goals' : List Goal} (h : m.Keeps limit goals m') (hgoals : goals' ⊆ goals) :
    m.Keeps limit goals' m' :=
  { h with untouched := fun g hg => h.untouched g (hgoals hg) }

end Keeps

theorem lt_of_known?_eq_none {depth : Nat} {f : Failure} (hknown : m.known? goal depth = none)
    (hf : m.failures.find? goal = some f) : depth < f.depth := by
  rw [known?, hf] at hknown
  by_contra hle
  simp [Nat.not_lt.1 hle] at hknown

theorem known?_of_find? {depth : Nat} {f : Failure} (hf : m.failures.find? goal = some f)
    (hle : f.depth ≤ depth) : m.known? goal depth = some f.diagnostics := by
  rw [known?, hf]
  exact if_pos hle

theorem note_of_cycles_ne {depth : Nat} {verdict : Verdict} (h : m'.cycles ≠ m.cycles) :
    m'.note m goal depth verdict = m' := by
  cases verdict with
  | viable v => rfl
  | rejected name diagnostics => exact if_neg h

theorem Keeps.remember {f : Failure}
    (hlower : ∀ f', m.failures.find? goal = some f' → f.depth ≤ f'.depth)
    (hnew : goal ∉ goals) (hlimit : f.depth < limit)
    (hcanonical : canonical goal.concepts = goal.concepts) :
    m.Keeps limit goals (m.remember goal f) where
  kept g f' hf' := by
    rw [Memory.remember, Index.find?_insert]
    split
    · next heq => exact ⟨f, rfl, hlower f' (heq ▸ hf')⟩
    · exact ⟨f', hf', Nat.le_refl _⟩
  untouched g hg := by
    rw [Memory.remember, Index.find?_insert, if_neg]
    rintro rfl
    exact hnew hg
  cycles := Nat.le_refl _
  regular hm g f' hf' := by
    rw [Memory.remember, Index.find?_insert] at hf'
    split at hf'
    · next heq =>
      cases hf'
      exact ⟨hlimit, heq ▸ hcanonical⟩
    · exact hm g f' hf'

theorem Keeps.note {verdict : Verdict} (h : m.Keeps limit inner.goals m')
    (hextend : trail.extend goal limit = .ok inner) (hknown : m.known? goal trail.depth = none)
    (hcanonical : canonical goal.concepts = goal.concepts) :
    m'.Keeps limit trail.goals (m'.note m goal trail.depth verdict) := by
  obtain ⟨hnew, hlimit, rfl⟩ := Trail.extend_eq_ok_iff.1 hextend
  cases verdict with
  | viable v => exact .refl m'
  | rejected name diagnostics =>
      rw [Memory.note]
      split
      · refine .remember (fun f hf => ?_) hnew hlimit hcanonical
        rw [h.untouched goal (by simp)] at hf
        exact Nat.le_of_lt (lt_of_known?_eq_none hknown hf)
      · exact .refl m'

end Memory

section Order

variable {limit : Nat} {goals : List Goal} {m m' m'' : Memory} {xs ys : List Moment}

/-- Moments from one memory to another, of which each keeps the record of those before. -/
structure Ordered (limit : Nat) (goals : List Goal) (m : Memory) (xs : List Moment) (m' : Memory) :
    Prop where
  keeps : m.Keeps limit goals m'
  start : ∀ x ∈ xs, m.Keeps limit goals x.memory
  finish : ∀ x ∈ xs, x.memory.Keeps limit goals m'
  pairwise : xs.Pairwise fun x y => x.memory.Keeps limit goals y.memory

namespace Ordered

theorem nil (h : m.Keeps limit goals m') : Ordered limit goals m [] m' :=
  ⟨h, by simp, by simp, .nil⟩

theorem append (h : Ordered limit goals m xs m') (h' : Ordered limit goals m' ys m'') :
    Ordered limit goals m (xs ++ ys) m'' where
  keeps := h.keeps.trans h'.keeps
  start := List.forall_mem_append.2 ⟨h.start, fun y hy => h.keeps.trans (h'.start y hy)⟩
  finish := List.forall_mem_append.2 ⟨fun x hx => (h.finish x hx).trans h'.keeps, h'.finish⟩
  pairwise := List.pairwise_append.2
    ⟨h.pairwise, h'.pairwise, fun x hx y hy => (h.finish x hx).trans (h'.start y hy)⟩

theorem singleton (x : Moment) : Ordered limit goals x.memory [x] x.memory :=
  ⟨.refl _, by simpa using .refl _, by simpa using .refl _, List.pairwise_singleton _ x⟩

theorem of_keeps (hm : m.Keeps limit goals m') (h : Ordered limit goals m' xs m'') :
    Ordered limit goals m xs m'' :=
  (nil hm).append h

theorem mono {goals' : List Goal} (h : Ordered limit goals m xs m') (hgoals : goals' ⊆ goals) :
    Ordered limit goals' m xs m' where
  keeps := h.keeps.mono hgoals
  start x hx := (h.start x hx).mono hgoals
  finish x hx := (h.finish x hx).mono hgoals
  pairwise := h.pairwise.imp fun hxy => hxy.mono hgoals

end Ordered

theorem Follow.ordered {P : Judgement → Prop} {js : List Judgement} (h : Follow P m js m')
    (hordered : ∀ j ∈ js, Ordered limit goals j.before j.moments j.after) :
    Ordered limit goals m (Judgement.momentsAll js) m' := by
  induction h with
  | stop hsame => exact .nil (.of_sameRecord hsame)
  | next hsame _ _ ih =>
      obtain ⟨hj, hjs⟩ := List.forall_mem_cons.1 hordered
      exact .of_keeps (.of_sameRecord hsame) (hj.append (ih hjs))

theorem Follow.cycles_eq {P : Judgement → Prop} {js : List Judgement} (h : Follow P m js m')
    (hcycles : ∀ j ∈ js, j.after.cycles = j.before.cycles) : m'.cycles = m.cycles := by
  induction h with
  | stop hsame => exact hsame.cycles
  | next hsame _ _ ih =>
      obtain ⟨hj, hjs⟩ := List.forall_mem_cons.1 hcycles
      exact (ih hjs).trans (hj.trans hsame.cycles)

end Order

namespace Judgement

variable {site : Site} {j k : Judgement}

def RejectedAsCycle (site : Site) (j : Judgement) : Prop :=
  site.RejectsAsCycle j.trail j.tried j.before

theorem Lawful.after_of_rejectedAsCycle (h : j.Lawful site) (hcycle : j.RejectedAsCycle site) :
    j.after = j.before.countCycle := by
  obtain ⟨hparams, hknown, goal, hextend⟩ := hcycle
  cases h with
  | immediate hentered hnested hrun =>
      rw [Site.run_judge hparams, hknown, hextend] at hrun
      exact (Prod.mk.inj hrun).2.symm
  | entered hentered hfollow hnested hafter =>
      have hok := (Site.of_entered? hentered).2.2
      rw [hextend] at hok
      cases hok

theorem Lawful.ordered (h : j.Lawful site) :
    Ordered site.options.maxDepth j.trail.goals j.before j.moments j.after := by
  induction h with
  | @immediate j infer hentered hnested hrun =>
      have hkeeps : j.before.Keeps site.options.maxDepth j.trail.goals j.after := by
        obtain ⟨verdict, m', hrun', hm'⟩ := Site.exists_run_judge_eq hentered
        obtain ⟨-, rfl⟩ := Prod.mk.inj ((hrun' infer).symm.trans hrun)
        rcases hm' with heq | ⟨heq, -⟩
        · exact .of_failures (by rw [heq]) (by rw [heq])
        · exact .of_failures (by rw [heq]; rfl) (by rw [heq]; exact Nat.le_succ _)
      rw [moments_eq, hnested]
      exact (Ordered.singleton (.starts j)).append (.of_keeps hkeeps (.singleton (.ends j)))
  | @entered j inner m hentered hfollow hnested hafter ih =>
      obtain ⟨-, hknown, hextend⟩ := Site.of_entered? hentered
      have htrail := hfollow.forall_mem
      have hinside : Ordered site.options.maxDepth inner.goals j.before (momentsAll j.nested) m :=
        hfollow.ordered fun k hk => htrail k hk ▸ ih k hk
      -- The goal of `j` is among `inner.goals` alone: its entry is left alone inside, and free to
      -- change when `j` is noted.
      have hsubset : j.trail.goals ⊆ inner.goals := by
        rw [(Trail.extend_eq_ok_iff.1 hextend).2.2]
        exact List.subset_append_left _ _
      have hnote : m.Keeps site.options.maxDepth j.trail.goals j.after :=
        hafter ▸ hinside.keeps.note hextend hknown (canonical_canonical _)
      rw [moments_eq]
      exact ((Ordered.singleton (.starts j)).append (hinside.mono hsubset)).append
        (.of_keeps hnote (.singleton (.ends j)))

theorem Lawful.of_starts_mem (h : j.Lawful site) (hk : .starts k ∈ j.moments) : k.Lawful site := by
  induction h with
  | immediate hentered hnested hrun =>
      obtain rfl | ⟨l, hl, -⟩ := starts_mem_moments_iff.1 hk
      · exact .immediate hentered hnested hrun
      · simp [hnested] at hl
  | entered hentered hfollow hnested hafter ih =>
      obtain rfl | ⟨l, hl, hk⟩ := starts_mem_moments_iff.1 hk
      · exact .entered hentered hfollow hnested hafter
      · exact ih l hl hk

/-- The count of cycles tells of a cycle at any depth, and then the goal's entry is left alone. -/
theorem Lawful.of_within (h : j.Lawful site) (hk : k.Within j) (hcycle : k.RejectedAsCycle site) :
    j.before.cycles < j.after.cycles ∧
      j.after.failures.find? j.tried.goal = j.before.failures.find? j.tried.goal := by
  induction h with
  | immediate hentered hnested hrun =>
      cases hk with
      | single hmem => simp [hnested] at hmem
      | tail _ hmem => simp [hnested] at hmem
  | @entered j inner m hentered hfollow hnested hafter ih =>
      obtain ⟨-, -, hextend⟩ := Site.of_entered? hentered
      have htrail := hfollow.forall_mem
      have hinside : Ordered site.options.maxDepth inner.goals j.before (momentsAll j.nested) m :=
        hfollow.ordered fun l hl => htrail l hl ▸ (hnested l hl).ordered
      -- Wherever the cycle was rejected, it was counted in one of the judgements that `j` takes.
      obtain ⟨l, hl, hlt⟩ : ∃ l ∈ j.nested, l.before.cycles < l.after.cycles := by
        cases hk with
        | single hmem =>
            refine ⟨k, hmem, ?_⟩
            rw [(hnested k hmem).after_of_rejectedAsCycle hcycle]
            exact Nat.lt_succ_self _
        | tail hwithin hmem => exact ⟨_, hmem, (ih _ hmem hwithin).1⟩
      have hstart := hinside.start _ (mem_momentsAll_iff.2 ⟨l, hl, l.starts_mem_moments⟩)
      have hfinish := hinside.finish _ (mem_momentsAll_iff.2 ⟨l, hl, l.ends_mem_moments⟩)
      have hcycles : j.before.cycles < m.cycles :=
        (hstart.cycles.trans_lt hlt).trans_le hfinish.cycles
      rw [hafter, Memory.note_of_cycles_ne (Nat.ne_of_gt hcycles)]
      refine ⟨hcycles, hinside.keeps.untouched _ ?_⟩
      simp [(Trail.extend_eq_ok_iff.1 hextend).2.2]

theorem Lawful.of_known (h : j.Lawful site) (hparams : j.tried.candidate.params ≠ [])
    {diagnostics : List Diagnostic}
    (hknown : j.before.known? j.tried.goal j.trail.depth = some diagnostics) :
    (∀ infer, (site.judge infer j.trail j.tried).run j.before =
      (.rejected j.tried.name diagnostics, j.before)) ∧
    j.nested = [] ∧ j.verdict = .rejected j.tried.name diagnostics ∧ j.after = j.before := by
  have hjudge (infer : Infer) : (site.judge infer j.trail j.tried).run j.before =
      (.rejected j.tried.name diagnostics, j.before) := by
    rw [Site.run_judge (by simpa using hparams), hknown]
  cases h with
  | immediate hentered hnested hrun =>
      obtain ⟨hverdict, hafter⟩ := Prod.mk.inj (hrun.symm.trans (hjudge _))
      exact ⟨hjudge, hnested, hverdict, hafter⟩
  | entered hentered hfollow hnested hafter =>
      rw [(Site.of_entered? hentered).2.1] at hknown
      cases hknown

theorem Lawful.cycles_eq (h : j.Lawful site) (hself : ¬j.RejectedAsCycle site)
    (hwithin : ∀ k : Judgement, k.Within j → ¬k.RejectedAsCycle site) :
    j.after.cycles = j.before.cycles := by
  induction h with
  | @immediate j infer hentered hnested hrun =>
      obtain ⟨verdict, m', hrun', hm'⟩ := Site.exists_run_judge_eq hentered
      obtain ⟨-, rfl⟩ := Prod.mk.inj ((hrun' infer).symm.trans hrun)
      rcases hm' with heq | ⟨-, hcycle⟩
      · rw [heq]
      · exact absurd hcycle hself
  | @entered j inner m hentered hfollow hnested hafter ih =>
      rw [hafter, Memory.cycles_note]
      exact hfollow.cycles_eq fun l hl => ih l hl (hwithin l (.single hl)) fun k hk =>
        hwithin k (.tail hk hl)

theorem Lawful.find?_of_rejected (h : j.Lawful site)
    (hentered : (site.entered? j.trail j.tried j.before).isSome = true)
    (hwithin : ∀ k : Judgement, k.Within j → ¬k.RejectedAsCycle site) {name : String}
    {diagnostics : List Diagnostic} (hverdict : j.verdict = .rejected name diagnostics) :
    j.after.failures.find? j.tried.goal = some ⟨j.trail.depth, diagnostics⟩ := by
  cases h with
  | immediate hnone hnested hrun => simp [hnone] at hentered
  | @entered _ inner m hinner hfollow hnested hafter =>
      have hcycles : m.cycles = j.before.cycles := hfollow.cycles_eq fun l hl =>
        (hnested l hl).cycles_eq (hwithin l (.single hl)) fun k hk => hwithin k (.tail hk hl)
      rw [hafter, hverdict, Memory.note, if_pos hcycles, Memory.remember, Index.find?_insert,
        if_pos rfl]

end Judgement

namespace Site

variable {site : Site}

theorem ordered_moments (m : Memory) (requests : List Request) :
    Ordered site.options.maxDepth [] m (site.moments m requests) (requests.foldl site.serve m) := by
  induction requests generalizing m with
  | nil => exact .singleton (.idle m)
  | cons request requests ih =>
      have hfollow : Follow (·.Lawful site) m _ _ := follow_judgementsFor m request
      have hserve := hfollow.ordered fun j hj =>
        (hfollow.forall_mem j hj).ordered.mono (List.nil_subset _)
      exact ((Ordered.singleton (.idle m)).append hserve).append (ih _)

theorem lawful_of_starts_mem {m : Memory} {requests : List Request} {j : Judgement}
    (hj : .starts j ∈ site.moments m requests) : j.Lawful site := by
  induction requests generalizing m with
  | nil => simp [moments] at hj
  | cons request requests ih =>
      simp only [moments, List.cons_append, List.mem_cons, reduceCtorEq, false_or, List.mem_append,
        Judgement.mem_momentsAll_iff] at hj
      rcases hj with ⟨k, hk, hj⟩ | hj
      · exact ((follow_judgementsFor m request).forall_mem k hk).of_starts_mem hj
      · exact ih hj

/-- At any two moments of a session, the later record holds the entries of the earlier one, at no
greater depth, each of them for a goal in canonical form and above the limit. What is on record for
a place is rejected there with the diagnostics on record: no judgement is made on its behalf, and
inference has no say in it. A judgement on whose behalf a cycle was rejected leaves the entry of its
goal alone, and any other one that fails inside its goal is put on record. -/
theorem failures_keep (site : Site) (requests : List Request) :
    let moments := site.moments .empty requests
    (moments.Pairwise fun x y => ∀ g f, x.memory.failures.find? g = some f →
      ∃ f', y.memory.failures.find? g = some f' ∧ f'.depth ≤ f.depth) ∧
    (∀ x ∈ moments, ∀ g f, x.memory.failures.find? g = some f →
      f.depth < site.options.maxDepth ∧ canonical g.concepts = g.concepts) ∧
    (moments.Pairwise fun x y => ∀ j : Judgement, y = .starts j → j.tried.candidate.params ≠ [] →
      ∀ cs f, x.memory.failures.find? (.of j.tried.name cs) = some f →
        (∃ ρ : Renaming,
          cs.map (Ty.rename ρ.map) = j.tried.subst.applyAll j.tried.candidate.provides) →
        f.depth ≤ j.trail.depth →
          ∃ f', j.before.failures.find? (.of j.tried.name cs) = some f' ∧
            (∀ infer, (site.judge infer j.trail j.tried).run j.before =
              (.rejected j.tried.name f'.diagnostics, j.before)) ∧
            j.nested = [] ∧ j.verdict = .rejected j.tried.name f'.diagnostics ∧
            j.after = j.before) ∧
    (∀ j k : Judgement, .starts j ∈ moments → k.Within j → k.RejectedAsCycle site →
      j.after.failures.find? j.tried.goal = j.before.failures.find? j.tried.goal) ∧
    (∀ j : Judgement, .starts j ∈ moments →
      (site.entered? j.trail j.tried j.before).isSome = true →
      (∀ k : Judgement, k.Within j → ¬k.RejectedAsCycle site) →
      ∀ name diagnostics, j.verdict = .rejected name diagnostics →
        j.after.failures.find? j.tried.goal = some ⟨j.trail.depth, diagnostics⟩) := by
  intro moments
  have hordered : Ordered site.options.maxDepth [] .empty moments _ :=
    ordered_moments .empty requests
  have hregular : Memory.empty.Regular site.options.maxDepth := by
    intro g f hf
    rw [Memory.empty, Index.find?_empty] at hf
    cases hf
  refine ⟨hordered.pairwise.imp fun h => h.kept, fun x hx => (hordered.start x hx).regular hregular,
    hordered.pairwise.imp_of_mem ?_,
    fun j k hj hk hcycle => ((lawful_of_starts_mem hj).of_within hk hcycle).2,
    fun j hj hentered hwithin name diagnostics hverdict =>
      (lawful_of_starts_mem hj).find?_of_rejected hentered hwithin hverdict⟩
  rintro x _ - hmem hxy j rfl hparams cs f hf ⟨ρ, hρ⟩ hdepth
  obtain ⟨f', hf', hle⟩ := hxy.kept _ f hf
  have hgoal : j.tried.goal = .of j.tried.name cs := by
    rw [Viable.goal, ← hρ, Goal.of_rename]
  have hknown : j.before.known? j.tried.goal j.trail.depth = some f'.diagnostics :=
    Memory.known?_of_find? (hgoal ▸ hf') (hle.trans hdepth)
  exact ⟨f', hf', (lawful_of_starts_mem hmem).of_known hparams hknown⟩

end Site

def Registry.entwined : Registry where
  concepts := [⟨"C", [⟨"'a"⟩], [], [], []⟩, ⟨"D", [⟨"'a"⟩], [], [], []⟩]
  instances :=
    [⟨"X", [.witness ⟨"'d"⟩ [.app "D" [.int]]], [.app "C" [.int]], .neither, []⟩,
      ⟨"Y", [.witness ⟨"'c"⟩ [.app "C" [.int]]], [.app "D" [.int]], .neither, []⟩]
  typeConcepts := []

-- Both of them fail, but neither failure is recorded, since one was rejected as a cycle.
example :
    let m := (Registry.entwined.site [] .standard).serve .empty (.resolve [.app "C" [.int]] .empty)
    m.cycles = 1 ∧ (m.failures.find? (.of "X" [.app "C" [.int]])).isNone = true ∧
      (m.failures.find? (.of "Y" [.app "D" [.int]])).isNone = true := by
  decide +kernel

end ConceptResolution
