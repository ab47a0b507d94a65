import ConceptResolution.Proofs.Renaming
import ConceptResolution.Search.Goal
import Mathlib.Data.Set.Function
import Mathlib.Logic.Equiv.List

namespace ConceptResolution

open VarSupply

theorem mem_freshVars_iff {ts : List Ty} {v : TyVar} :
    v ∈ freshVars ts ↔ v ∈ Ty.varsAll ts ∧ v.isFresh = true := by
  rw [freshVars, List.mem_filter, List.mem_eraseDups]

theorem isFresh_canonicalVar {fresh : List TyVar} {v : TyVar} (hv : v ∈ fresh) :
    (canonicalVar fresh v).isFresh = true := by
  rw [canonicalVar]
  cases h : fresh.idxOf? v with
  | none => exact absurd hv (List.idxOf?_eq_none_iff.1 h)
  | some i => simp [TyVar.isFresh]

theorem canonicalVar_of_notMem {fresh : List TyVar} {v : TyVar} (hv : v ∉ fresh) :
    canonicalVar fresh v = v := by
  rw [canonicalVar, List.idxOf?_eq_none_iff.2 hv]

theorem canonicalVar_of_named (ts : List Ty) {v : TyVar} (hv : v.isFresh = false) :
    canonicalVar (freshVars ts) v = v := by
  refine canonicalVar_of_notMem fun hmem => ?_
  rw [(mem_freshVars_iff.1 hmem).2] at hv
  cases hv

private theorem idxOf?_map {f : TyVar → TyVar} (hf : Function.Injective f) (vs : List TyVar)
    (v : TyVar) : (vs.map f).idxOf? (f v) = vs.idxOf? v := by
  induction vs with
  | nil => rfl
  | cons w vs ih =>
      rw [List.map_cons, List.idxOf?_cons, List.idxOf?_cons, ih]
      simp only [beq_iff_eq, hf.eq_iff]

theorem canonical_rename (ρ : Renaming) (ts : List Ty) :
    canonical (ts.map (Ty.rename ρ.map)) = canonical ts := by
  have hfresh : freshVars (ts.map (Ty.rename ρ.map)) = (freshVars ts).map ρ.map := by
    rw [freshVars, Ty.varsAll_map_rename, eraseDups_map_of_injective ρ.injective, List.filter_map]
    exact congrArg (List.map _) (List.filter_congr fun v _ => ρ.isFresh_map v)
  rw [canonical, canonical, renameFresh, renameFresh, hfresh, List.map_map]
  refine List.map_congr_left fun t ht => ?_
  rw [Function.comp_apply, Ty.rename, Ty.subst_subst]
  refine Ty.subst_congr fun v hv => congrArg Ty.var ?_
  cases hnamed : v.isFresh with
  | false =>
      rw [ρ.named v hnamed, canonicalVar_of_named ts hnamed, canonicalVar_of_notMem]
      intro hmem
      obtain ⟨w, hw, hwv⟩ := List.mem_map.1 hmem
      rw [← hwv, ρ.isFresh_map, (mem_freshVars_iff.1 hw).2] at hnamed
      cases hnamed
  | true =>
      have hmem : v ∈ freshVars ts :=
        mem_freshVars_iff.2 ⟨Ty.mem_varsAll_iff.2 ⟨t, ht, hv⟩, hnamed⟩
      obtain ⟨i, hi⟩ := Option.isSome_iff_exists.1 (List.isSome_idxOf?.2 hmem)
      rw [canonicalVar, canonicalVar, idxOf?_map ρ.injective, hi]

theorem Goal.of_rename (ρ : Renaming) (name : String) (cs : List Ty) :
    Goal.of name (cs.map (Ty.rename ρ.map)) = Goal.of name cs :=
  congrArg (Goal.mk name) (canonical_rename ρ cs)

private theorem canonicalVar_injOn (ts : List Ty) :
    Set.InjOn (canonicalVar (freshVars ts)) { v | v ∈ Ty.varsAll ts } := by
  intro v hv w hw h
  cases hvfresh : v.isFresh with
  | false =>
      cases hwfresh : w.isFresh with
      | false => rwa [canonicalVar_of_named ts hvfresh, canonicalVar_of_named ts hwfresh] at h
      | true =>
          have hfresh := isFresh_canonicalVar (mem_freshVars_iff.2 ⟨hw, hwfresh⟩)
          rw [← h, canonicalVar_of_named ts hvfresh, hvfresh] at hfresh
          cases hfresh
  | true =>
      have hfresh := isFresh_canonicalVar (mem_freshVars_iff.2 ⟨hv, hvfresh⟩)
      cases hwfresh : w.isFresh with
      | false =>
          rw [h, canonicalVar_of_named ts hwfresh, hwfresh] at hfresh
          cases hfresh
      | true =>
          -- both variables are numbered, and their numbers agree
          obtain ⟨i, hi⟩ := Option.isSome_iff_exists.1
            (List.isSome_idxOf?.2 (mem_freshVars_iff.2 ⟨hv, hvfresh⟩))
          obtain ⟨j, hj⟩ := Option.isSome_iff_exists.1
            (List.isSome_idxOf?.2 (mem_freshVars_iff.2 ⟨hw, hwfresh⟩))
          have hdigits : Nat.toDigits 10 i = Nat.toDigits 10 j := by
            rw [canonicalVar, canonicalVar, hi, hj] at h
            simpa using congrArg (fun v => v.name.toList) h
          have hij : i = j := by
            simpa using congrArg (fun cs => Nat.ofDigitChars 10 cs 0) hdigits
          subst hij
          obtain ⟨hlt, hvi, -⟩ := List.idxOf?_eq_some_iff.1 hi
          obtain ⟨hlt', hwj, -⟩ := List.idxOf?_eq_some_iff.1 hj
          exact hvi.symm.trans hwj

private theorem exists_map_of_canonical_eq {ts us : List Ty} (h : canonical ts = canonical us) :
    ∃ τ : TyVar → TyVar, ts.map (Ty.rename τ) = us ∧
      ∀ v ∈ Ty.varsAll ts, v.isFresh = false → τ v = v := by
  let back := Function.invFunOn (canonicalVar (freshVars us)) { v | v ∈ Ty.varsAll us }
  have hback : ∀ v ∈ Ty.varsAll us, back (canonicalVar (freshVars us) v) = v :=
    (canonicalVar_injOn us).leftInvOn_invFunOn
  have hcanonical : ts.map (Ty.rename (canonicalVar (freshVars ts))) =
      us.map (Ty.rename (canonicalVar (freshVars us))) := h
  refine ⟨fun v => back (canonicalVar (freshVars ts) v), ?_, fun v hv hnamed => ?_⟩
  · have hrename := congrArg (List.map (Ty.rename back)) hcanonical
    simp only [List.map_map, Function.comp_def, Ty.rename_rename] at hrename
    rw [hrename]
    refine (List.map_congr_left fun u hu => Ty.rename_eq_self fun v hv => hback v ?_).trans
      (List.map_id' us)
    exact Ty.mem_varsAll_iff.2 ⟨u, hu, hv⟩
  · -- a variable that is not fresh stands for itself on both sides
    have hmem : v ∈ (Ty.varsAll us).map (canonicalVar (freshVars us)) := by
      rw [← Ty.varsAll_map_rename, ← hcanonical, Ty.varsAll_map_rename]
      exact List.mem_map.2 ⟨v, hv, canonicalVar_of_named ts hnamed⟩
    obtain ⟨w, hw, hwv⟩ := List.mem_map.1 hmem
    have hwnamed : w.isFresh = false := by
      refine Bool.eq_false_iff.2 fun hfresh => ?_
      have hw' := isFresh_canonicalVar (mem_freshVars_iff.2 ⟨hw, hfresh⟩)
      rw [hwv, hnamed] at hw'
      cases hw'
    rw [canonicalVar_of_named us hwnamed] at hwv
    subst hwv
    simpa only [canonicalVar_of_named _ hnamed] using hback w hw

theorem exists_rename_of_canonical_eq {ts us : List Ty} (h : canonical ts = canonical us) :
    ∃ τ : TyVar → TyVar, ts.map (Ty.rename τ) = us ∧
      (∀ v ∈ Ty.varsAll ts, ∀ w ∈ Ty.varsAll ts, τ v = τ w → v = w) ∧
      (∀ v ∈ Ty.varsAll ts, v.isFresh = false → τ v = v) ∧
      ∀ v ∈ Ty.varsAll ts, (τ v).isFresh = v.isFresh := by
  obtain ⟨τ, hτ, hnamed⟩ := exists_map_of_canonical_eq h
  obtain ⟨σ, hσ, hnamed'⟩ := exists_map_of_canonical_eq h.symm
  have hleft : ∀ v ∈ Ty.varsAll ts, σ (τ v) = v := by
    intro v hv
    obtain ⟨t, ht, hv⟩ := Ty.mem_varsAll_iff.1 hv
    have hround : (ts.map (Ty.rename τ)).map (Ty.rename σ) = ts.map id := by
      rw [hτ, hσ, List.map_id]
    rw [List.map_map] at hround
    have hself : (t.rename τ).rename σ = t := List.map_inj_left.1 hround t ht
    rw [Ty.rename_rename] at hself
    exact Ty.var.inj (Ty.subst_eq_self_iff.1 hself v hv)
  have hmem : ∀ v ∈ Ty.varsAll ts, τ v ∈ Ty.varsAll us := by
    intro v hv
    rw [← hτ, Ty.varsAll_map_rename]
    exact List.mem_map_of_mem hv
  refine ⟨τ, hτ, fun v hv w hw heq => ?_, hnamed, fun v hv => ?_⟩
  · rw [← hleft v hv, heq, hleft w hw]
  · cases hfresh : v.isFresh with
    | false => rw [hnamed v hv hfresh, hfresh]
    | true =>
        refine Bool.eq_true_of_not_eq_false fun hcontra => ?_
        have hself := hleft v hv
        rw [hnamed' _ (hmem v hv) hcontra] at hself
        rw [hself, hfresh] at hcontra
        cases hcontra

namespace Renaming

/-- A renaming lines up two supplies: what the first has handed out or will never mint is known to
the second, and what they mint from here on corresponds. -/
structure Aligned (ρ : Renaming) (k k' : Nat) : Prop where
  old : ∀ v, Old k v → Old k' (ρ.map v)
  mint : ∀ i hint, ρ.map (VarSupply.mint ⟨k + i⟩ hint).1 = (VarSupply.mint ⟨k' + i⟩ hint).1

variable {ρ : Renaming} {k k' : Nat}

theorem Aligned.later (h : ρ.Aligned k k') (n : Nat) : ρ.Aligned (k + n) (k' + n) where
  old v hv := by
    rcases Classical.em (Old k v) with hold | hnew
    · exact (h.old v hold).mono (Nat.le_add_right k' n)
    · simp only [Old, not_forall, Classical.not_not] at hnew
      obtain ⟨l, hl, hint, rfl⟩ := hnew
      have hlt : l < k + n := by
        by_contra hge
        exact hv l (by omega) ⟨hint, rfl⟩
      obtain ⟨i, rfl⟩ := Nat.exists_eq_add_of_le hl
      rw [h.mint]
      have hnew : New k' (k' + n) (VarSupply.mint ⟨k' + i⟩ hint).1 :=
        ⟨k' + i, by omega, by omega, hint, rfl⟩
      exact hnew.old
  mint i hint := by
    rw [Nat.add_assoc, Nat.add_assoc]
    exact h.mint (n + i) hint

end Renaming

namespace VarSupply

theorem mint_eq_iff {k l : Nat} {v w : TyVar} :
    (mint ⟨k⟩ v).1 = (mint ⟨l⟩ w).1 ↔ k = l ∧ stem v = stem w := by
  constructor
  · intro h
    obtain rfl : k = l := Minted.unique ⟨v, rfl⟩ ⟨w, h⟩
    refine ⟨rfl, ?_⟩
    simpa [mint] using congrArg (fun v => v.name.toList) h
  · rintro ⟨rfl, h⟩
    simp [mint, h]

end VarSupply

namespace Renaming

theorem exists_aligned (k k' : Nat) (f : TyVar → TyVar)
    (hinj : ∀ v w, Old k v → Old k w → f v = f w → v = w)
    (hnamed : ∀ v, v.isFresh = false → f v = v) (hold : ∀ v, Old k v → Old k' (f v)) :
    ∃ ρ : Renaming, ρ.Aligned k k' ∧ ∀ v, Old k v → ρ.map v = f v := by
  classical
  have hnew : ∀ v, ¬Old k v → ∃ i hint, v = (mint ⟨k + i⟩ hint).1 := by
    intro v hv
    simp only [Old, not_forall, Classical.not_not] at hv
    obtain ⟨l, hl, hint, rfl⟩ := hv
    obtain ⟨i, rfl⟩ := Nat.exists_eq_add_of_le hl
    exact ⟨i, hint, rfl⟩
  choose! number hint hmint using hnew
  let map v := if Old k v then f v else (mint ⟨k' + number v⟩ (hint v)).1
  have hmap_old : ∀ v, Old k v → map v = f v := fun v hv => if_pos hv
  have hmap_new : ∀ v, ¬Old k v → map v = (mint ⟨k' + number v⟩ (hint v)).1 := fun v hv => if_neg hv
  have hapart : ∀ v w, Old k v → ¬Old k w → map v ≠ map w := by
    intro v w hv hw heq
    rw [hmap_old v hv, hmap_new w hw] at heq
    exact hold v hv (k' + number w) (Nat.le_add_right _ _) ⟨hint w, heq⟩
  refine ⟨⟨map, fun v w heq => ?_, fun v hv => ?_⟩, ⟨fun v hv => ?_, fun i h => ?_⟩, hmap_old⟩
  · rcases Classical.em (Old k v) with hv | hv <;> rcases Classical.em (Old k w) with hw | hw
    · rw [hmap_old v hv, hmap_old w hw] at heq
      exact hinj v w hv hw heq
    · exact absurd heq (hapart v w hv hw)
    · exact absurd heq.symm (hapart w v hw hv)
    · rw [hmap_new v hv, hmap_new w hw, mint_eq_iff] at heq
      rw [hmint v hv, hmint w hw, mint_eq_iff]
      exact ⟨by omega, heq.2⟩
  · rw [hmap_old v (old_of_not_isFresh hv), hnamed v hv]
  · simp only [hmap_old v hv]
    exact hold v hv
  · have hv : ¬Old k (mint ⟨k + i⟩ h).1 := fun hv => hv (k + i) (Nat.le_add_right k i) ⟨h, rfl⟩
    have heq := hmint _ hv
    rw [mint_eq_iff] at heq
    simp only [hmap_new _ hv, mint_eq_iff]
    exact ⟨by omega, heq.2.symm⟩

theorem Aligned.exists_ahead {ρ : Renaming} {k k' n' : Nat} (h : ρ.Aligned k k') (hn : k' ≤ n') :
    ∃ τ : Renaming, τ.Aligned k n' ∧ ∀ v, Old k v → τ.map v = ρ.map v :=
  exists_aligned k n' ρ.map (fun _ _ _ _ heq => ρ.injective heq) ρ.named fun v hv =>
    (h.old v hv).mono hn

/-- A fresh variable that no supply mints. -/
private def spare (n : Nat) : TyVar :=
  ⟨String.ofList ('?' :: List.replicate (n + 1) 'x')⟩

private theorem toList_spare (n : Nat) :
    (spare n).name.toList = '?' :: List.replicate (n + 1) 'x' := by
  simp [spare]

private theorem old_spare (k n : Nat) : Old k (spare n) := by
  rintro l - ⟨hint, h⟩
  have hchars := congrArg (fun v => v.name.toList.getLast?) h
  have hdigits : Nat.toDigits 10 l ≠ [] := Nat.toDigits_ne_nil
  have hlast : '?' :: (stem hint ++ Nat.toDigits 10 l) =
      ('?' :: stem hint) ++ Nat.toDigits 10 l := rfl
  simp only [toList_spare, VarSupply.mint, String.toList_ofList, hlast] at hchars
  rw [List.getLast?_append_of_ne_nil _ hdigits, List.replicate_succ', ← List.cons_append,
    List.getLast?_append_of_ne_nil _ (by simp), List.getLast?_singleton] at hchars
  have hmem : 'x' ∈ Nat.toDigits 10 l := List.mem_of_getLast? hchars.symm
  have hdigit := Nat.isDigit_of_mem_toDigits (by decide) (by decide) hmem
  simp at hdigit

private theorem exists_longest (vs : List TyVar) : ∃ n, ∀ v ∈ vs, v.name.toList.length ≤ n := by
  induction vs with
  | nil => exact ⟨0, by simp⟩
  | cons v vs ih =>
      obtain ⟨n, hn⟩ := ih
      refine ⟨max v.name.toList.length n, List.forall_mem_cons.2 ⟨Nat.le_max_left _ _, ?_⟩⟩
      exact fun w hw => (hn w hw).trans (Nat.le_max_right _ _)

private theorem exists_code : ∃ code : TyVar → Nat, Function.Injective code := by
  have hchar : Countable Char := Function.Injective.countable fun c d h => Char.toNat_inj.1 h
  have hname : Function.Injective fun v : TyVar => v.name.toList := by
    rintro ⟨a⟩ ⟨b⟩ h
    exact congrArg TyVar.mk (String.toList_injective h)
  have hcountable : Countable TyVar := hname.countable
  exact exists_injective_nat TyVar

-- A renaming of some variables, padded out to all of them: the other fresh ones get spare names
-- that are longer than any name in use.

section Padded

variable {vs : List TyVar} {τ : TyVar → TyVar} {code : TyVar → Nat} {longest : Nat}

variable (vs τ code longest) in
private def padded (v : TyVar) : TyVar :=
  if v ∈ vs then τ v else if v.isFresh then spare (longest + code v) else v

private theorem padded_of_mem {v : TyVar} (hv : v ∈ vs) : padded vs τ code longest v = τ v :=
  if_pos hv

private theorem padded_of_notMem {v : TyVar} (hv : v ∉ vs) (h : v.isFresh = true) :
    padded vs τ code longest v = spare (longest + code v) := by
  rw [padded, if_neg hv, if_pos h]

private theorem padded_of_not_isFresh (hnamed : ∀ v ∈ vs, v.isFresh = false → τ v = v) {v : TyVar}
    (h : v.isFresh = false) : padded vs τ code longest v = v := by
  rcases Decidable.em (v ∈ vs) with hv | hv
  · rw [padded_of_mem hv, hnamed v hv h]
  · rw [padded, if_neg hv, if_neg (by simp [h])]

private theorem isFresh_padded (hnamed : ∀ v ∈ vs, v.isFresh = false → τ v = v)
    (hfresh : ∀ v ∈ vs, (τ v).isFresh = v.isFresh) (v : TyVar) :
    (padded vs τ code longest v).isFresh = v.isFresh := by
  rcases Decidable.em (v ∈ vs) with hv | hv
  · rw [padded_of_mem hv, hfresh v hv]
  · cases h : v.isFresh with
    | false => rw [padded_of_not_isFresh hnamed h, h]
    | true => rw [padded_of_notMem hv h, TyVar.isFresh, toList_spare]; rfl

private theorem ne_spare (hlongest : ∀ v ∈ vs, (τ v).name.toList.length ≤ longest) {v : TyVar}
    (hv : v ∈ vs) (n : Nat) : τ v ≠ spare (longest + n) := by
  intro h
  have hlength := congrArg (fun v => v.name.toList.length) h
  have hle := hlongest v hv
  simp only [toList_spare, List.length_cons, List.length_replicate] at hlength
  omega

private theorem padded_injective (hinj : ∀ v ∈ vs, ∀ w ∈ vs, τ v = τ w → v = w)
    (hnamed : ∀ v ∈ vs, v.isFresh = false → τ v = v)
    (hfresh : ∀ v ∈ vs, (τ v).isFresh = v.isFresh)
    (hlongest : ∀ v ∈ vs, (τ v).name.toList.length ≤ longest) (hcode : Function.Injective code) :
    Function.Injective (padded vs τ code longest) := by
  intro v w h
  have hsame : v.isFresh = w.isFresh := by
    rw [← isFresh_padded hnamed hfresh v, h, isFresh_padded hnamed hfresh w]
  cases hw : w.isFresh with
  | false =>
      rwa [padded_of_not_isFresh hnamed (hsame.trans hw), padded_of_not_isFresh hnamed hw] at h
  | true =>
      have hv := hsame.trans hw
      rcases Decidable.em (v ∈ vs) with hvs | hvs <;> rcases Decidable.em (w ∈ vs) with hws | hws
      · rw [padded_of_mem hvs, padded_of_mem hws] at h
        exact hinj v hvs w hws h
      · rw [padded_of_mem hvs, padded_of_notMem hws hw] at h
        exact absurd h (ne_spare hlongest hvs _)
      · rw [padded_of_notMem hvs hv, padded_of_mem hws] at h
        exact absurd h.symm (ne_spare hlongest hws _)
      · rw [padded_of_notMem hvs hv, padded_of_notMem hws hw] at h
        have hlength := congrArg (fun v => v.name.toList.length) h
        simp only [toList_spare, List.length_cons, List.length_replicate] at hlength
        exact hcode (by omega)

private theorem old_padded {k' : Nat} (hnamed : ∀ v ∈ vs, v.isFresh = false → τ v = v)
    (hold : ∀ v ∈ vs, Old k' (τ v)) (v : TyVar) : Old k' (padded vs τ code longest v) := by
  rcases Decidable.em (v ∈ vs) with hv | hv
  · exact padded_of_mem hv ▸ hold v hv
  · cases h : v.isFresh with
    | false =>
        rw [padded_of_not_isFresh hnamed h]
        exact old_of_not_isFresh h
    | true => exact padded_of_notMem hv h ▸ old_spare k' _

theorem exists_aligned_on (k k' : Nat) (vs : List TyVar) (τ : TyVar → TyVar)
    (hinj : ∀ v ∈ vs, ∀ w ∈ vs, τ v = τ w → v = w)
    (hnamed : ∀ v ∈ vs, v.isFresh = false → τ v = v)
    (hfresh : ∀ v ∈ vs, (τ v).isFresh = v.isFresh) (hold : ∀ v ∈ vs, Old k' (τ v)) :
    ∃ ρ : Renaming, ρ.Aligned k k' ∧ ∀ v ∈ vs, Old k v → ρ.map v = τ v := by
  obtain ⟨code, hcode⟩ := exists_code
  obtain ⟨longest, hlongest⟩ := exists_longest (vs.map τ)
  have hpadded : Function.Injective (padded vs τ code longest) :=
    padded_injective hinj hnamed hfresh (List.forall_mem_map.1 hlongest) hcode
  obtain ⟨ρ, hρ, hmap⟩ := exists_aligned k k' (padded vs τ code longest)
    (fun _ _ _ _ h => hpadded h) (fun _ => padded_of_not_isFresh hnamed)
    fun v _ => old_padded hnamed hold v
  exact ⟨ρ, hρ, fun v hv hvold => (hmap v hvold).trans (padded_of_mem hv)⟩

end Padded

theorem exists_aligned_of_pairs (k k' : Nat) (pairs : List (TyVar × TyVar))
    (hmatch : ∀ a ∈ pairs, ∀ b ∈ pairs, (a.1 = b.1 ↔ a.2 = b.2))
    (hnamed : ∀ a ∈ pairs, a.1.isFresh = false → a.2 = a.1)
    (hfresh : ∀ a ∈ pairs, a.2.isFresh = a.1.isFresh) (hold : ∀ a ∈ pairs, Old k' a.2) :
    ∃ ρ : Renaming, ρ.Aligned k k' ∧ ∀ a ∈ pairs, Old k a.1 → ρ.map a.1 = a.2 := by
  let τ v := (pairs.lookup v).getD v
  have hτ : ∀ a ∈ pairs, τ a.1 = a.2 := by
    intro a ha
    cases hlookup : pairs.lookup a.1 with
    | none =>
        have hne := List.lookup_eq_none_iff.1 hlookup a ha
        simp at hne
    | some b =>
        have hb : (a.1, b) ∈ pairs := by
          obtain ⟨before, after, heq, -⟩ := List.lookup_eq_some_iff.1 hlookup
          simp [heq]
        simp only [τ, hlookup, Option.getD_some]
        exact (hmatch (a.1, b) hb a ha).1 rfl
  obtain ⟨ρ, hρ, hmap⟩ := exists_aligned_on k k' (pairs.map Prod.fst) τ
    (by
      rintro _ hv _ hw heq
      obtain ⟨a, ha, rfl⟩ := List.mem_map.1 hv
      obtain ⟨b, hb, rfl⟩ := List.mem_map.1 hw
      rw [hτ a ha, hτ b hb] at heq
      exact (hmatch a ha b hb).2 heq)
    (List.forall_mem_map.2 fun a ha h => (hτ a ha).trans (hnamed a ha h))
    (List.forall_mem_map.2 fun a ha => (hτ a ha).symm ▸ hfresh a ha)
    (List.forall_mem_map.2 fun a ha => (hτ a ha).symm ▸ hold a ha)
  exact ⟨ρ, hρ, fun a ha h => (hmap a.1 (List.mem_map_of_mem ha) h).trans (hτ a ha)⟩

private theorem exists_old (vs : List TyVar) : ∃ k, ∀ v ∈ vs, Old k v := by
  induction vs with
  | nil => exact ⟨0, by simp⟩
  | cons v vs ih =>
      obtain ⟨k, hk⟩ := ih
      obtain ⟨l, hl⟩ : ∃ l, Old l v := by
        rcases Classical.em (∃ l, Minted l v) with ⟨l, hminted⟩ | hnever
        · refine ⟨l + 1, fun j hj hj' => ?_⟩
          have heq := hj'.unique hminted
          omega
        · exact ⟨0, fun j _ hj => hnever ⟨j, hj⟩⟩
      refine ⟨max l k, List.forall_mem_cons.2 ⟨hl.mono (Nat.le_max_left l k), fun w hw => ?_⟩⟩
      exact (hk w hw).mono (Nat.le_max_right l k)

theorem exists_of_injOn (ts : List Ty) (τ : TyVar → TyVar)
    (hinj : ∀ v ∈ Ty.varsAll ts, ∀ w ∈ Ty.varsAll ts, τ v = τ w → v = w)
    (hnamed : ∀ v ∈ Ty.varsAll ts, v.isFresh = false → τ v = v)
    (hfresh : ∀ v ∈ Ty.varsAll ts, (τ v).isFresh = v.isFresh) :
    ∃ ρ : Renaming, ts.map (Ty.rename ρ.map) = ts.map (Ty.rename τ) := by
  obtain ⟨k, hk⟩ := exists_old (Ty.varsAll ts)
  obtain ⟨k', hk'⟩ := exists_old ((Ty.varsAll ts).map τ)
  obtain ⟨ρ, -, hρ⟩ := exists_aligned_on k k' (Ty.varsAll ts) τ hinj hnamed hfresh
    (List.forall_mem_map.1 hk')
  refine ⟨ρ, List.map_congr_left fun t ht => Ty.rename_congr fun v hv => ?_⟩
  have hmem : v ∈ Ty.varsAll ts := Ty.mem_varsAll_iff.2 ⟨t, ht, hv⟩
  exact hρ v hmem (hk v hmem)

theorem exists_eq_canonical (ts : List Ty) :
    ∃ ρ : Renaming, ts.map (Ty.rename ρ.map) = canonical ts := by
  refine exists_of_injOn ts _ (canonicalVar_injOn ts) (fun v _ => canonicalVar_of_named ts)
    fun v hv => ?_
  cases h : v.isFresh with
  | false => rw [canonicalVar_of_named ts h, h]
  | true => exact isFresh_canonicalVar (mem_freshVars_iff.2 ⟨hv, h⟩)

theorem exists_of_canonical_eq {ts us : List Ty} (h : canonical ts = canonical us) :
    ∃ ρ : Renaming, ts.map (Ty.rename ρ.map) = us := by
  obtain ⟨τ, hτ, hinj, hnamed, hfresh⟩ := exists_rename_of_canonical_eq h
  exact hτ ▸ exists_of_injOn ts τ hinj hnamed hfresh

end Renaming

theorem canonical_canonical (ts : List Ty) : canonical (canonical ts) = canonical ts := by
  obtain ⟨ρ, hρ⟩ := Renaming.exists_eq_canonical ts
  rw [← hρ, canonical_rename, hρ]

section

variable {ts us : List Ty} {f : TyVar → TyVar}

theorem exists_bijOn_of_canonical_eq (h : canonical ts = canonical us) :
    ∃ f : TyVar → TyVar,
      Set.BijOn f { v | v ∈ Ty.varsAll ts ∧ v.isFresh = true }
        { v | v ∈ Ty.varsAll us ∧ v.isFresh = true } ∧
      (∀ v, ¬(v ∈ Ty.varsAll ts ∧ v.isFresh = true) → f v = v) ∧
      ts.map (Ty.rename f) = us := by
  obtain ⟨τ, rfl, hinj, hnamed, hfresh⟩ := exists_rename_of_canonical_eq h
  let f v := if v ∈ Ty.varsAll ts ∧ v.isFresh = true then τ v else v
  have hin : ∀ v, v ∈ Ty.varsAll ts ∧ v.isFresh = true → f v = τ v := fun v hv => if_pos hv
  have hout : ∀ v, ¬(v ∈ Ty.varsAll ts ∧ v.isFresh = true) → f v = v := fun v hv => if_neg hv
  have hsame : ∀ v ∈ Ty.varsAll ts, f v = τ v := by
    intro v hv
    cases hv' : v.isFresh with
    | true => exact hin v ⟨hv, hv'⟩
    | false =>
        rw [hnamed v hv hv']
        exact hout v fun hmem => by simp [hmem.2] at hv'
  refine ⟨f, ⟨fun v hv => ?_, fun v hv w hw heq => ?_, fun w ⟨hmem, hw⟩ => ?_⟩, hout, ?_⟩
  · rw [hin v hv, Ty.varsAll_map_rename]
    exact ⟨List.mem_map_of_mem hv.1, (hfresh v hv.1).trans hv.2⟩
  · rw [hin v hv, hin w hw] at heq
    exact hinj v hv.1 w hw.1 heq
  · rw [Ty.varsAll_map_rename] at hmem
    obtain ⟨v, hv, rfl⟩ := List.mem_map.1 hmem
    exact ⟨v, ⟨hv, (hfresh v hv).symm.trans hw⟩, hsame v hv⟩
  · exact List.map_congr_left fun t ht => Ty.rename_congr fun v hv =>
      hsame v (Ty.mem_varsAll_iff.2 ⟨t, ht, hv⟩)

theorem canonical_map_of_bijOn
    (hf : Set.BijOn f { v | v ∈ Ty.varsAll ts ∧ v.isFresh = true }
      { v | v ∈ Ty.varsAll us ∧ v.isFresh = true })
    (hout : ∀ v, ¬(v ∈ Ty.varsAll ts ∧ v.isFresh = true) → f v = v)
    (hmap : ts.map (Ty.rename f) = us) : canonical us = canonical ts := by
  have hnamed : ∀ v, v.isFresh = false → f v = v := by
    intro v hv
    exact hout v fun hmem => by simp [hmem.2] at hv
  have hfresh : ∀ v ∈ Ty.varsAll ts, (f v).isFresh = v.isFresh := by
    intro v hv
    cases hv' : v.isFresh with
    | false => rw [hnamed v hv', hv']
    | true => exact (hf.mapsTo ⟨hv, hv'⟩).2
  have hinj : ∀ v ∈ Ty.varsAll ts, ∀ w ∈ Ty.varsAll ts, f v = f w → v = w := by
    intro v hv w hw heq
    have hvw : v.isFresh = w.isFresh := by rw [← hfresh v hv, heq, hfresh w hw]
    cases hw' : w.isFresh with
    | false => rwa [hnamed v (hvw.trans hw'), hnamed w hw'] at heq
    | true => exact hf.injOn ⟨hv, hvw.trans hw'⟩ ⟨hw, hw'⟩ heq
  obtain ⟨ρ, hρ⟩ := Renaming.exists_of_injOn ts f hinj (fun v _ => hnamed v) hfresh
  rw [← hmap, ← hρ, canonical_rename]

end

/-- Two goals are the same exactly if they are for one instance and a bijection of their fresh
variables turns the concepts of one into those of the other; and the concepts of a goal stay as they
are when a goal is made of them again. -/
theorem goal_eq_iff_renamed :
    (∀ name name' cs cs', Goal.of name cs = Goal.of name' cs' ↔
      name = name' ∧ ∃ f : TyVar → TyVar,
        Set.BijOn f { v | v ∈ Ty.varsAll cs ∧ v.isFresh = true }
          { v | v ∈ Ty.varsAll cs' ∧ v.isFresh = true } ∧
        (∀ v, ¬(v ∈ Ty.varsAll cs ∧ v.isFresh = true) → f v = v) ∧
        cs.map (Ty.rename f) = cs') ∧
      ∀ name cs, Goal.of name (Goal.of name cs).concepts = Goal.of name cs := by
  refine ⟨fun name name' cs cs' => ⟨fun h => ?_, ?_⟩, fun name cs => ?_⟩
  · obtain ⟨hname, hcanonical⟩ := Goal.mk.inj h
    exact ⟨hname, exists_bijOn_of_canonical_eq hcanonical⟩
  · rintro ⟨rfl, f, hf, hout, hmap⟩
    exact congrArg (Goal.mk name) (canonical_map_of_bijOn hf hout hmap).symm
  · exact congrArg (Goal.mk name) (canonical_canonical cs)

/-- Variables that look canonical may stand in another order. -/
example :
    (Goal.of "X" [.app "C" [.var ⟨"?1"⟩, .var ⟨"'t"⟩, .var ⟨"?0"⟩, .var ⟨"?1"⟩]]).concepts =
      [.app "C" [.var ⟨"?0"⟩, .var ⟨"'t"⟩, .var ⟨"?1"⟩, .var ⟨"?0"⟩]] := by
  decide

end ConceptResolution
