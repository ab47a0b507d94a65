import ConceptResolution.Proofs.Substitution
import ConceptResolution.Search.Candidate

/-!
Fresh variables. The number at the end of a minted variable can be read back, so that variables
minted under different numbers differ; to instantiate evidence is to rename its parameters to
variables under numbers that the supply has not handed out before. Where the numbers start over at a
limit, as many variables as there are numbers still differ.
-/

namespace ConceptResolution

/-- Replace every variable of a type by a variable. -/
def Ty.rename (ρ : TyVar → TyVar) (t : Ty) : Ty :=
  t.subst fun v => .var (ρ v)

theorem Ty.mem_vars_rename {ρ : TyVar → TyVar} {t : Ty} {w : TyVar} :
    w ∈ (t.rename ρ).vars ↔ ∃ v ∈ t.vars, w = ρ v := by
  simp [Ty.rename, Ty.mem_vars_subst, Ty.vars]

def Param.rename (ρ : TyVar → TyVar) (p : Param) : Param :=
  ⟨ρ p.var, p.kind, p.constraints.map (Ty.rename ρ)⟩

namespace VarSupply

/-- A variable that the supply mints under a number, after some hint. -/
def Minted (k : Nat) (v : TyVar) : Prop :=
  ∃ hint, v = (mint ⟨k⟩ hint).1

/-- A variable that a supply cannot mint any more. -/
def Old (n : Nat) (v : TyVar) : Prop :=
  ∀ k, n ≤ k → ¬Minted k v

/-- A variable that is minted while a supply goes from one number to another. -/
def New (n n' : Nat) (v : TyVar) : Prop :=
  ∃ k, n ≤ k ∧ k < n' ∧ Minted k v

private theorem takeWhile_dropWhile (p : Char → Bool) (cs : List Char) :
    (cs.dropWhile p).takeWhile p = [] := by
  induction cs with
  | nil => rfl
  | cons c cs ih =>
      cases hc : p c with
      | true => rw [List.dropWhile_cons_of_pos hc, ih]
      | false =>
          have hneg : ¬p c = true := by simp [hc]
          rw [List.dropWhile_cons_of_neg hneg, List.takeWhile_cons_of_neg hneg]

private theorem takeWhile_reverse_stem (hint : TyVar) :
    (stem hint).reverse.takeWhile Char.isDigit = [] := by
  rw [stem, List.reverse_reverse, takeWhile_dropWhile]

private theorem takeWhile_reverse_append (stem : List Char) (k : Nat)
    (h : stem.reverse.takeWhile Char.isDigit = []) :
    (stem ++ Nat.toDigits 10 k).reverse.takeWhile Char.isDigit = (Nat.toDigits 10 k).reverse := by
  rw [List.reverse_append, List.takeWhile_append_of_pos, h, List.append_nil]
  intro c hc
  exact Nat.isDigit_of_mem_toDigits (by decide) (by decide) (List.mem_reverse.1 hc)

/-- No two numbers share a minted variable. -/
theorem Minted.unique {k l : Nat} {v : TyVar} (hk : Minted k v) (hl : Minted l v) : k = l := by
  obtain ⟨hint, rfl⟩ := hk
  obtain ⟨hint', h⟩ := hl
  have hchars : stem hint ++ Nat.toDigits 10 k = stem hint' ++ Nat.toDigits 10 l := by
    simpa [mint] using congrArg (fun v => v.name.toList) h
  have hdigits := congrArg (fun cs => cs.reverse.takeWhile Char.isDigit) hchars
  simp only [takeWhile_reverse_append _ _ (takeWhile_reverse_stem _), List.reverse_inj] at hdigits
  have hnumber := congrArg (fun cs => Nat.ofDigitChars 10 cs 0) hdigits
  simpa using hnumber

theorem Minted.isFresh {k : Nat} {v : TyVar} (h : Minted k v) : v.isFresh = true := by
  obtain ⟨hint, rfl⟩ := h
  simp [mint, TyVar.isFresh]

theorem old_of_not_isFresh {n : Nat} {v : TyVar} (h : v.isFresh = false) : Old n v := by
  intro k _ hv
  simp [hv.isFresh] at h

theorem Old.mono {n n' : Nat} {v : TyVar} (hv : Old n v) (h : n ≤ n') : Old n' v :=
  fun k hk => hv k (Nat.le_trans h hk)

theorem New.mono {n n' m m' : Nat} {v : TyVar} (hv : New n n' v) (h : m ≤ n) (h' : n' ≤ m') :
    New m m' v := by
  obtain ⟨k, hk, hk', hv⟩ := hv
  exact ⟨k, Nat.le_trans h hk, Nat.lt_of_lt_of_le hk' h', hv⟩

theorem New.isFresh {n n' : Nat} {v : TyVar} (hv : New n n' v) : v.isFresh = true := by
  obtain ⟨k, -, -, hv⟩ := hv
  exact hv.isFresh

theorem New.old {n n' : Nat} {v : TyVar} (hv : New n n' v) : Old n' v := by
  obtain ⟨k, -, hk, hv⟩ := hv
  intro l hl hv'
  have hkl := hv.unique hv'
  omega

theorem Old.not_new {n n' : Nat} {v : TyVar} (hv : Old n v) : ¬New n n' v := by
  rintro ⟨k, hk, -, hv'⟩
  exact hv k hk hv'

theorem length_mintAll (supply : VarSupply) (hints : List TyVar) :
    (supply.mintAll hints).1.length = hints.length := by
  induction hints generalizing supply with
  | nil => rfl
  | cons hint hints ih => exact congrArg (· + 1) (ih _)

theorem next_mintAll (supply : VarSupply) (hints : List TyVar) :
    (supply.mintAll hints).2.next = supply.next + hints.length := by
  induction hints generalizing supply with
  | nil => rfl
  | cons hint hints ih =>
      refine (ih _).trans ?_
      simp only [List.length_cons]
      omega

theorem new_of_mem_mintAll {supply : VarSupply} {hints : List TyVar} {v : TyVar}
    (hv : v ∈ (supply.mintAll hints).1) : New supply.next (supply.next + hints.length) v := by
  induction hints generalizing supply with
  | nil => cases hv
  | cons hint hints ih =>
      simp only [List.length_cons]
      rcases List.mem_cons.1 hv with rfl | hv
      · exact ⟨supply.next, by omega, by omega, hint, rfl⟩
      · exact (ih hv).mono (Nat.le_succ _) (by simp only; omega)

theorem nodup_mintAll (supply : VarSupply) (hints : List TyVar) :
    (supply.mintAll hints).1.Nodup := by
  induction hints generalizing supply with
  | nil => exact List.nodup_nil
  | cons hint hints ih =>
      refine List.nodup_cons.2 ⟨fun hv => ?_, ih _⟩
      obtain ⟨k, hk, -, hmint⟩ := new_of_mem_mintAll hv
      have hsame : supply.next = k := Minted.unique ⟨hint, rfl⟩ hmint
      simp only at hk
      omega

/-- Mint a variable from a supply whose numbers start over at a limit. -/
def mintWithin (limit : Nat) (supply : VarSupply) (hint : TyVar) : TyVar × VarSupply :=
  let (v, supply) := supply.mint hint
  (v, ⟨supply.next % limit⟩)

def mintAllWithin (limit : Nat) (supply : VarSupply) : List TyVar → List TyVar × VarSupply
  | [] => ([], supply)
  | hint :: hints =>
    let (v, supply) := supply.mintWithin limit hint
    let (vs, supply) := supply.mintAllWithin limit hints
    (v :: vs, supply)

theorem mintAllWithin_eq {limit : Nat} {supply : VarSupply} {hints : List TyVar}
    (h : supply.next + hints.length < limit) :
    supply.mintAllWithin limit hints = supply.mintAll hints := by
  induction hints generalizing supply with
  | nil => rfl
  | cons hint hints ih =>
      rw [List.length_cons] at h
      have hmint : supply.mintWithin limit hint = supply.mint hint := by
        have hmod : (supply.next + 1) % limit = supply.next + 1 := Nat.mod_eq_of_lt (by omega)
        simp only [mintWithin, mint, hmod]
      have hlater : (supply.mint hint).2.mintAllWithin limit hints =
          (supply.mint hint).2.mintAll hints := ih (by simp only [mint]; omega)
      simp only [mintAllWithin, mintAll, hmint, hlater]

theorem length_mintAllWithin (limit : Nat) (supply : VarSupply) (hints : List TyVar) :
    (supply.mintAllWithin limit hints).1.length = hints.length := by
  induction hints generalizing supply with
  | nil => rfl
  | cons hint hints ih => exact congrArg (· + 1) (ih _)

theorem minted_of_getElem? {limit : Nat} {supply : VarSupply} (hnext : supply.next < limit)
    {hints : List TyVar} {i : Nat} {v : TyVar}
    (hv : (supply.mintAllWithin limit hints).1[i]? = some v) :
    Minted ((supply.next + i) % limit) v := by
  induction hints generalizing supply i with
  | nil => simp [mintAllWithin] at hv
  | cons hint hints ih =>
      cases i with
      | zero =>
          rw [Nat.add_zero, Nat.mod_eq_of_lt hnext]
          exact ⟨hint, (Option.some.inj hv).symm⟩
      | succ i =>
          have hlater : Minted (((supply.next + 1) % limit + i) % limit) v :=
            ih (Nat.mod_lt _ (Nat.zero_lt_of_lt hnext)) hv
          rwa [Nat.mod_add_mod, Nat.add_assoc, Nat.add_comm 1 i] at hlater

theorem nodup_mintAllWithin {limit : Nat} {supply : VarSupply} (hnext : supply.next < limit)
    {hints : List TyVar} (hlength : hints.length ≤ limit) :
    (supply.mintAllWithin limit hints).1.Nodup := by
  refine List.pairwise_iff_getElem.2 fun i j hi hj hij hsame => ?_
  have hnumber : (supply.next + j) % limit = (supply.next + i) % limit :=
    (minted_of_getElem? hnext (List.getElem?_eq_getElem hj)).unique
      (hsame ▸ minted_of_getElem? hnext (List.getElem?_eq_getElem hi))
  -- but the places are less than `limit` apart
  have hzero := Nat.sub_mod_eq_zero_of_mod_eq hnumber
  rw [length_mintAllWithin] at hj
  rw [Nat.add_sub_add_left, Nat.mod_eq_of_lt (by omega)] at hzero
  omega

/-- Fresh variables are told apart, whatever they are named after: all that a supply mints, and as
many as it has numbers if these start over. -/
theorem minted_distinct (supply : VarSupply) (hints : List TyVar) :
    ((supply.mintAll hints).1.length = hints.length ∧ (supply.mintAll hints).1.Nodup ∧
        ∀ v ∈ (supply.mintAll hints).1, v.isFresh = true) ∧
      ∀ limit, supply.next < limit → hints.length ≤ limit →
        ((supply.mintAllWithin limit hints).1.length = hints.length ∧
          (supply.mintAllWithin limit hints).1.Nodup ∧
          ∀ v ∈ (supply.mintAllWithin limit hints).1, v.isFresh = true) ∧
        (supply.next + hints.length < limit →
          supply.mintAllWithin limit hints = supply.mintAll hints) := by
  refine ⟨⟨length_mintAll supply hints, nodup_mintAll supply hints, fun v hv =>
    (new_of_mem_mintAll hv).isFresh⟩, fun limit hnext hlength => ⟨⟨length_mintAllWithin _ _ _,
      nodup_mintAllWithin hnext hlength, fun v hv => ?_⟩, mintAllWithin_eq⟩⟩
  obtain ⟨i, hi⟩ := List.mem_iff_getElem?.1 hv
  exact (minted_of_getElem? hnext hi).isFresh

/-- The hints end in digits, are a fresh variable that has been minted before, or consist of digits
or quotes alone, and the numbers of 32 bits start over among them. -/
theorem minted_distinct_wrapping :
    let limit := Nat.pow 2 32
    let supply : VarSupply := ⟨limit - 2⟩
    let hints : List TyVar :=
      [⟨"'t"⟩, ⟨"?t4294967294"⟩, ⟨"12"⟩, ⟨"''"⟩, ⟨"'é1"⟩]
    supply.next < limit ∧ hints.length ≤ limit ∧
      (supply.mintAllWithin limit hints).1.map TyVar.name =
        ["?t4294967294", "?t4294967295", "?0", "?1", "?é2"] ∧
      (supply.mintAllWithin limit hints).1.Nodup ∧
      ∀ v ∈ (supply.mintAllWithin limit hints).1, v.isFresh = true := by
  intro limit supply hints
  have hnext : supply.next < limit := by decide
  have hlength : hints.length ≤ limit := by decide
  obtain ⟨⟨-, hnodup, hfresh⟩, -⟩ := (minted_distinct supply hints).2 limit hnext hlength
  exact ⟨hnext, hlength, by decide +kernel, hnodup, hfresh⟩

end VarSupply

open VarSupply

private theorem eq_of_mem_zip {α β : Type} {as : List α} {bs : List β} (hbs : bs.Nodup) {a a' : α}
    {b : β} (h : (a, b) ∈ as.zip bs) (h' : (a', b) ∈ as.zip bs) : a = a' := by
  induction as generalizing bs with
  | nil => simp at h
  | cons c as ih =>
      cases bs with
      | nil => simp at h
      | cons d bs =>
          obtain ⟨hd, hbs⟩ := List.nodup_cons.1 hbs
          have hnot : ∀ {e : α}, (e, d) ∉ as.zip bs := fun he => hd (List.of_mem_zip he).2
          simp only [List.zip_cons_cons, List.mem_cons, Prod.mk.injEq] at h h'
          rcases h with ⟨rfl, rfl⟩ | h
          · rcases h' with ⟨rfl, -⟩ | h'
            · rfl
            · exact absurd h' hnot
          · rcases h' with ⟨rfl, rfl⟩ | h'
            · exact absurd h hnot
            · exact ih hbs h h'

namespace Subst

theorem lookup_eq_var_applyVar {s : Subst} {v : TyVar}
    (h : ∀ t, s.get? v = some t → ∃ w, t = .var w) : s.lookup v = .var (s.applyVar v) := by
  cases hv : s.get? v with
  | none => simp [lookup, applyVar, hv]
  | some t =>
      obtain ⟨w, rfl⟩ := h t hv
      simp [lookup, applyVar, hv]

end Subst

/-- To instantiate a declared instance is to rename its parameters, injectively, to variables that
the supply mints for them. -/
theorem Evidence.instantiate_declared (i : Instance) (supply : VarSupply) :
    ∃ ρ : TyVar → TyVar,
      (Evidence.declared i).instantiate supply =
        (⟨.declared i, i.params.map (Param.rename ρ), i.provides.map (Ty.rename ρ), i.ty.rename ρ,
          nofun⟩, ⟨supply.next + i.params.length⟩) ∧
      (∀ p ∈ i.params, New supply.next (supply.next + i.params.length) (ρ p.var)) ∧
      ∀ p ∈ i.params, ∀ q ∈ i.params, ρ p.var = ρ q.var → p.var = q.var := by
  let old := i.params.map Param.var
  let new := (supply.mintAll old).1
  let names := Subst.ofList (old.zip (new.map .var))
  have hlength : old.length = new.length := (length_mintAll supply old).symm
  have hpair : ∀ {v t}, names.get? v = some t → ∃ w, t = .var w ∧ (v, w) ∈ old.zip new := by
    intro v t h
    have hmem := Subst.mem_of_get?_ofList h
    rw [List.zip_map_right, List.mem_map] at hmem
    obtain ⟨⟨v, w⟩, hmem, heq⟩ := hmem
    cases heq
    exact ⟨w, rfl, hmem⟩
  have happly : names.apply = Ty.rename names.applyVar := by
    funext t
    exact Ty.subst_congr fun v _ => Subst.lookup_eq_var_applyVar fun t ht =>
      (hpair ht).imp fun _ => And.left
  have hbound : ∀ p ∈ i.params, (p.var, names.applyVar p.var) ∈ old.zip new := by
    intro p hp
    have hdomain : p.var ∈ names.domain := by
      refine Subst.mem_domain_ofList ?_
      rw [List.map_fst_zip (by simp [hlength])]
      exact List.mem_map_of_mem hp
    obtain ⟨t, ht⟩ := Subst.mem_domain_iff.1 hdomain
    obtain ⟨w, rfl, hmem⟩ := hpair ht
    simpa [Subst.applyVar, ht] using hmem
  refine ⟨names.applyVar, ?_, fun p hp => ?_, fun p hp q hq h => ?_⟩
  · have hnext : (supply.mintAll old).2 = ⟨supply.next + i.params.length⟩ := by
      have hnext := next_mintAll supply old
      rw [List.length_map] at hnext
      rw [← hnext]
    have hparam : (fun p : Param => (⟨names.applyVar p.var, p.kind,
        names.applyAll p.constraints⟩ : Param)) = Param.rename names.applyVar := by
      funext p
      rw [Param.rename, Subst.applyAll, happly]
    rw [← hparam, ← hnext, ← happly]
    rfl
  · have hnew := new_of_mem_mintAll (List.of_mem_zip (hbound p hp)).2
    rwa [List.length_map] at hnew
  · exact eq_of_mem_zip (nodup_mintAll supply old) (hbound p hp) (h ▸ hbound q hq)

end ConceptResolution
