import ConceptResolution.Syntax.Type
import Mathlib.Data.List.TakeWhile

namespace ConceptResolution

namespace Text

theorem trimStart_cons_of_not_isBlank {c : Char} {cs : List Char} (h : isBlank c = false) :
    trimStart (c :: cs) = c :: cs :=
  List.dropWhile_cons_of_neg (by simp [h])

theorem trimStart_cons_of_isBlank {c : Char} {cs : List Char} (h : isBlank c = true) :
    trimStart (c :: cs) = trimStart cs :=
  List.dropWhile_cons_of_pos h

theorem head?_trimStart {c : Char} {cs : List Char} (h : cs.head? = some c)
    (hc : isBlank c = false) : (trimStart cs).head? = some c := by
  obtain ⟨cs, rfl⟩ := List.head?_eq_some_iff.1 h
  rw [trimStart_cons_of_not_isBlank hc, List.head?_cons]

theorem trimStart_trimStart (cs : List Char) : trimStart (trimStart cs) = trimStart cs := by
  induction cs with
  | nil => rfl
  | cons c cs ih =>
      cases hc : isBlank c with
      | true => rw [trimStart_cons_of_isBlank hc, ih]
      | false => rw [trimStart_cons_of_not_isBlank hc, trimStart_cons_of_not_isBlank hc]

theorem length_trimStart_le (cs : List Char) : (trimStart cs).length ≤ cs.length :=
  (List.dropWhile_suffix isBlank).length_le

theorem append_of_takeBytes {n : Nat} {cs front : List Char} (h : takeBytes n cs = some front) :
    ∃ rest, cs = front ++ rest := by
  induction cs generalizing n front with
  | nil =>
      cases n with
      | zero => exact ⟨[], by cases h; rfl⟩
      | succ n => cases h
  | cons c cs ih =>
      cases n with
      | zero => exact ⟨c :: cs, by cases h; rfl⟩
      | succ n =>
          rw [takeBytes] at h
          split at h
          · obtain ⟨front', hfront', rfl⟩ := Option.map_eq_some_iff.1 h
            obtain ⟨rest, rfl⟩ := ih hfront'
            exact ⟨rest, rfl⟩
          · cases h

theorem takeBytes_append (front rest : List Char) :
    takeBytes (byteLength front) (front ++ rest) = some front := by
  induction front with
  | nil => rw [byteLength, takeBytes]
  | cons c cs ih =>
      obtain ⟨n, hn⟩ : ∃ n, byteLength (c :: cs) = n + 1 :=
        ⟨_, (Nat.succ_pred_eq_of_pos (Nat.add_pos_left c.utf8Size_pos _)).symm⟩
      have hrest : n + 1 - c.utf8Size = byteLength cs := by
        rw [← hn, byteLength, Nat.add_sub_cancel_left]
      have hle : c.utf8Size ≤ n + 1 := hn ▸ Nat.le_add_right _ _
      rw [hn, List.cons_append, takeBytes, if_pos hle, hrest, ih, Option.map_some]

theorem takeBytes_eq_some_iff {front cs : List Char} :
    takeBytes (byteLength front) cs = some front ↔ ∃ rest, cs = front ++ rest := by
  constructor
  · exact append_of_takeBytes
  · rintro ⟨rest, rfl⟩
    exact takeBytes_append front rest

end Text

namespace Scan

open Text

theorem isBlank_of_isIdentChar {c : Char} (h : isIdentChar c = true) : isBlank c = false := by
  have hwithin : ∀ {lo hi : Char}, 48 ≤ lo.toNat → hi.toNat ≤ 122 → lo.val ≤ c.val →
      c.val ≤ hi.val → 48 ≤ c.toNat ∧ c.toNat ≤ 122 := fun hlo hhi hle hge =>
    ⟨hlo.trans (UInt32.le_iff_toNat_le.1 hle), (UInt32.le_iff_toNat_le.1 hge).trans hhi⟩
  have hrange : 48 ≤ c.toNat ∧ c.toNat ≤ 122 := by
    rcases Bool.or_eq_true_iff.1 h with halphanum | hunderscore
    · rcases Bool.or_eq_true_iff.1 halphanum with halpha | hdigit
      · rcases Bool.or_eq_true_iff.1 halpha with hupper | hlower
        · obtain ⟨hle, hge⟩ := of_decide_eq_true hupper
          exact hwithin (by decide) (by decide) hle hge
        · obtain ⟨hle, hge⟩ := Bool.and_eq_true_iff.1 hlower
          exact hwithin (by decide) (by decide) (of_decide_eq_true hle) (of_decide_eq_true hge)
      · obtain ⟨hle, hge⟩ := Bool.and_eq_true_iff.1 hdigit
        exact hwithin (by decide) (by decide) (of_decide_eq_true hle) (of_decide_eq_true hge)
    · rw [beq_iff_eq.1 hunderscore]
      decide
  simp [isBlank, blankRanges]
  omega

variable {ε α β : Type}

def Yields (p : Scan ε α) (P : α → Prop) : Prop :=
  ∀ text a rest, p text = .value a rest → P a

theorem yields_true (p : Scan ε α) : Yields p fun _ => True :=
  fun _ _ _ _ => trivial

theorem yields_pure {a : α} {P : α → Prop} (h : P a) : Yields (pure a : Scan ε α) P := by
  intro text a' rest hvalue
  cases hvalue
  exact h

theorem yields_failWith {P : α → Prop} (e : List Char → ε) : Yields (failWith e) P := by
  intro text a rest hvalue
  cases hvalue

theorem Yields.bind {p : Scan ε α} {f : α → Scan ε β} {P : α → Prop} {Q : β → Prop}
    (h : Yields p P) (hf : ∀ a, P a → Yields (f a) Q) : Yields (p >>= f) Q := by
  intro text b rest hvalue
  rw [bind_apply] at hvalue
  cases hp : p text with
  | error e rest' => simp [hp] at hvalue
  | value a rest' =>
      rw [hp] at hvalue
      exact hf a (h text a rest' hp) rest' b rest hvalue

theorem Yields.mono {p : Scan ε α} {P Q : α → Prop} (h : Yields p P) (hPQ : ∀ a, P a → Q a) :
    Yields p Q :=
  fun text a rest hvalue => hPQ a (h text a rest hvalue)

theorem exists_of_run_eq_ok {p : Scan ε α} {text : List Char} {a : α} (h : p.run text = .ok a) :
    ∃ rest, p text = .value a rest := by
  cases hp : p text with
  | error e rest => simp [Scan.run, hp] at h
  | value a' rest =>
      rw [Scan.run, hp] at h
      cases h
      exact ⟨rest, rfl⟩

theorem Yields.of_run {p : Scan ε α} {P : α → Prop} (h : Yields p P) {text : List Char} {a : α}
    (hrun : p.run text = .ok a) : P a := by
  obtain ⟨rest, hvalue⟩ := exists_of_run_eq_ok hrun
  exact h text a rest hvalue

theorem yields_sepBy {p : Scan ε α} {P : α → Prop} (h : Yields p P) (separator : List Char) :
    Yields (sepBy separator p) fun as => as ≠ [] ∧ ∀ a ∈ as, P a := by
  have hwithin : ∀ n, Yields (sepByWithin separator p n) fun as => as ≠ [] ∧ ∀ a ∈ as, P a := by
    intro n
    induction n with
    | zero => exact h.bind fun a ha => yields_pure (by simpa using ha)
    | succ n ih =>
        refine h.bind fun a ha => (yields_true _).bind fun b _ => ?_
        split
        · exact ih.bind fun as has => yields_pure
            ⟨List.cons_ne_nil a as, List.forall_mem_cons.2 ⟨ha, has.2⟩⟩
        · exact yields_pure (by simpa using ha)
  exact fun text as rest hvalue => hwithin text.length text as rest hvalue

/-- The scan of a text returns a value, and leaves what is left of another text past blanks. -/
def ReadsAt (p : Scan ε α) (text : List Char) (a : α) (rest : List Char) : Prop :=
  ∃ rest', p text = .value a rest' ∧ trimStart rest' = trimStart rest

theorem ReadsAt.bind {p : Scan ε α} {f : α → Scan ε β} {a : α} {b : β}
    {text between rest : List Char} (h : ReadsAt p text a between)
    (hf : ∀ text', trimStart text' = trimStart between → ReadsAt (f a) text' b rest) :
    ReadsAt (p >>= f) text b rest := by
  obtain ⟨between', hp, hsame⟩ := h
  obtain ⟨rest', hvalue, hrest⟩ := hf between' hsame
  refine ⟨rest', ?_, hrest⟩
  rw [bind_apply, hp]
  exact hvalue

theorem ReadsAt.trans {p : Scan ε α} {a : α} {text between rest : List Char}
    (h : ReadsAt p text a between) (hsame : trimStart between = trimStart rest) :
    ReadsAt p text a rest := by
  obtain ⟨rest', hp, hrest'⟩ := h
  exact ⟨rest', hp, hrest'.trans hsame⟩

theorem readsAt_pure {a : α} {text rest : List Char} (h : trimStart text = trimStart rest) :
    ReadsAt (pure a : Scan ε α) text a rest :=
  ⟨text, rfl, h⟩

theorem ReadsAt.run {p : Scan ε α} {text rest : List Char} {a : α} (h : ReadsAt p text a rest) :
    p.run text = .ok a := by
  obtain ⟨rest', hvalue, -⟩ := h
  rw [Scan.run, hvalue]

theorem readsAt_peek (text : List Char) :
    ReadsAt (peek : Scan ε _) text (trimStart text).head? text :=
  ⟨trimStart text, rfl, trimStart_trimStart text⟩

theorem readsAt_peekBytes (n : Nat) (text : List Char) :
    ReadsAt (peekBytes n : Scan ε _) text (takeBytes n (trimStart text)) text :=
  ⟨trimStart text, rfl, trimStart_trimStart text⟩

theorem readsAt_atEnd (text : List Char) :
    ReadsAt (atEnd : Scan ε _) text (trimStart text).isEmpty text :=
  ⟨trimStart text, rfl, trimStart_trimStart text⟩

theorem eat_apply (wanted text : List Char) :
    (eat wanted : Scan ε _) text =
      if wanted.isPrefixOf (trimStart text) then
        .value true ((trimStart text).drop wanted.length)
      else .value false (trimStart text) :=
  apply_ite (fun p : Scan ε Bool => p (trimStart text)) _
    (fun _ => .value true ((trimStart text).drop wanted.length)) (pure false)

theorem readsAt_eat {wanted text rest : List Char} (h : trimStart text = wanted ++ rest) :
    ReadsAt (eat wanted : Scan ε _) text true rest := by
  have hprefix : wanted.isPrefixOf (trimStart text) = true :=
    List.isPrefixOf_iff_prefix.2 ⟨rest, h.symm⟩
  exact ⟨rest, by rw [eat_apply, if_pos hprefix, h, List.drop_left], rfl⟩

theorem readsAt_eat_false {wanted text : List Char} (h : ¬wanted <+: trimStart text) :
    ReadsAt (eat wanted : Scan ε _) text false text := by
  have hprefix : ¬wanted.isPrefixOf (trimStart text) = true :=
    fun hprefix => h (List.isPrefixOf_iff_prefix.1 hprefix)
  exact ⟨trimStart text, by rw [eat_apply, if_neg hprefix], trimStart_trimStart text⟩

theorem readsAt_expect {wanted text rest : List Char} (h : trimStart text = wanted ++ rest) :
    ReadsAt (expect wanted) text () rest :=
  (readsAt_eat h).bind fun _ hsame => readsAt_pure hsame

theorem readsAt_expectEnd {text : List Char} (h : trimStart text = []) :
    ReadsAt expectEnd text () [] := by
  refine (readsAt_atEnd text).bind fun text' hsame => ?_
  rw [h]
  exact readsAt_pure (hsame.trans h)

theorem ident_apply (text : List Char) :
    (ident : Scan ε _) text =
      .value ((trimStart text).takeWhile isIdentChar) ((trimStart text).dropWhile isIdentChar) :=
  rfl

/-- No identifier goes on here. -/
def EndsName (rest : List Char) : Prop :=
  ∀ c, rest.head? = some c → isIdentChar c = false

theorem takeWhile_append_of_endsName {name rest : List Char}
    (hname : ∀ c ∈ name, isIdentChar c = true) (hrest : EndsName rest) :
    (name ++ rest).takeWhile isIdentChar = name ∧ (name ++ rest).dropWhile isIdentChar = rest := by
  have hstop : rest.takeWhile isIdentChar = [] ∧ rest.dropWhile isIdentChar = rest := by
    cases rest with
    | nil => exact ⟨rfl, rfl⟩
    | cons c cs => simp [hrest c rfl]
  rw [List.takeWhile_append_of_pos hname, List.dropWhile_append_of_pos hname, hstop.1, hstop.2]
  exact ⟨List.append_nil name, rfl⟩

theorem readsAt_ident {name text rest : List Char} (h : trimStart text = name ++ rest)
    (hname : ∀ c ∈ name, isIdentChar c = true) (hrest : EndsName rest) :
    ReadsAt (ident : Scan ε _) text name rest := by
  obtain ⟨htake, hdrop⟩ := takeWhile_append_of_endsName hname hrest
  exact ⟨rest, by rw [ident_apply, h, htake, hdrop], rfl⟩

theorem keyword_apply {name text rest : List Char} (h : trimStart text = name ++ rest)
    (hname : name.all isIdentChar = true) (hrest : EndsName rest) (word : List Char) :
    (keyword word : Scan ε _) text =
      if name = word then .value true rest else .value false text := by
  obtain ⟨htake, hdrop⟩ := takeWhile_append_of_endsName (List.all_eq_true.1 hname) hrest
  rw [keyword, ident_apply, h, htake, hdrop]

theorem readsAt_keyword {word text rest : List Char} (h : trimStart text = word ++ rest)
    (hword : word.all isIdentChar = true) (hrest : EndsName rest) :
    ReadsAt (keyword word : Scan ε _) text true rest :=
  ⟨rest, by rw [keyword_apply h hword hrest, if_pos rfl], rfl⟩

theorem readsAt_keyword_of_ne {word name text rest : List Char} (h : trimStart text = name ++ rest)
    (hname : name.all isIdentChar = true) (hrest : EndsName rest) (hne : name ≠ word) :
    ReadsAt (keyword word : Scan ε _) text false text :=
  ⟨text, by rw [keyword_apply h hname hrest, if_neg hne], rfl⟩

/-- Whatever value the scan of the text returns, it and the text that is left are like this. -/
def Leads (p : Scan ε α) (text : List Char) (Q : α → List Char → Prop) : Prop :=
  ∀ a rest, p text = .value a rest → Q a rest

section

variable {text : List Char}

theorem leads_true (p : Scan ε α) (text : List Char) : Leads p text fun _ _ => True :=
  fun _ _ _ => trivial

theorem leads_pure {a : α} {Q : α → List Char → Prop} (h : Q a text) :
    Leads (pure a : Scan ε α) text Q := by
  intro a' rest hvalue
  cases hvalue
  exact h

theorem leads_failWith {Q : α → List Char → Prop} (e : List Char → ε) :
    Leads (failWith e) text Q := by
  intro a rest hvalue
  cases hvalue

theorem Leads.bind {p : Scan ε α} {f : α → Scan ε β} {P : α → List Char → Prop}
    {Q : β → List Char → Prop} (h : Leads p text P)
    (hf : ∀ a between, P a between → Leads (f a) between Q) : Leads (p >>= f) text Q := by
  intro b rest hvalue
  rw [bind_apply] at hvalue
  cases hp : p text with
  | error e between => simp [hp] at hvalue
  | value a between =>
      rw [hp] at hvalue
      exact hf a between (h a between hp) b rest hvalue

theorem bind_congr_leads {p q : Scan ε α} {f g : α → Scan ε β} {P : α → List Char → Prop}
    (hpq : p text = q text) (hq : Leads q text P)
    (hfg : ∀ a between, P a between → f a between = g a between) :
    (p >>= f) text = (q >>= g) text := by
  rw [bind_apply, bind_apply, hpq]
  cases hvalue : q text with
  | error e between => rfl
  | value a between => exact hfg a between (hq a between hvalue)

theorem Leads.mono {p : Scan ε α} {P Q : α → List Char → Prop} (h : Leads p text P)
    (hPQ : ∀ a rest, P a rest → Q a rest) : Leads p text Q :=
  fun a rest hvalue => hPQ a rest (h a rest hvalue)

theorem ReadsAt.leads {p : Scan ε α} {a : α} {rest : List Char} (h : ReadsAt p text a rest) :
    Leads p text fun a' rest' => a' = a ∧ trimStart rest' = trimStart rest := by
  obtain ⟨rest', hp, hrest⟩ := h
  intro b between hvalue
  rw [hp] at hvalue
  cases hvalue
  exact ⟨rfl, hrest⟩

theorem leads_expect (wanted text : List Char) :
    Leads (expect wanted) text fun _ rest => trimStart text = wanted ++ rest := by
  refine (?_ : Leads (eat wanted) text fun found rest =>
    found = true → trimStart text = wanted ++ rest).bind fun found rest h => ?_
  · intro found rest hvalue
    rw [eat_apply] at hvalue
    split at hvalue
    · next hprefix =>
        cases hvalue
        obtain ⟨after, hafter⟩ := List.isPrefixOf_iff_prefix.1 hprefix
        rw [← hafter, List.drop_left]
        exact fun _ => rfl
    · cases hvalue
      exact fun hfound => by cases hfound
  · split
    · next hfound => exact leads_pure (h hfound)
    · exact leads_failWith _

theorem leads_expectEnd (text : List Char) :
    Leads expectEnd text fun _ _ => trimStart text = [] := by
  refine (readsAt_atEnd text).leads.bind fun done rest h => ?_
  split
  · next hdone => exact leads_pure (List.isEmpty_iff.1 (h.1 ▸ hdone))
  · exact leads_failWith _

theorem Leads.of_run {p : Scan ε α} {a : α} {Q : α → List Char → Prop} (h : Leads p text Q)
    (hrun : p.run text = .ok a) : ∃ rest, Q a rest := by
  obtain ⟨rest, hvalue⟩ := exists_of_run_eq_ok hrun
  exact ⟨rest, h a rest hvalue⟩

end

section Lists

variable {item : Scan ε α} {write : α → List Char} {separator : Char} {glue : List Char}
  {Ends : List Char → Prop}

theorem length_le_length_intercalate (hglue : glue ≠ []) (pieces : List (List Char)) :
    pieces.length ≤ (glue.intercalate pieces).length + 1 := by
  have hpos := List.length_pos_iff.2 hglue
  induction pieces with
  | nil => exact Nat.zero_le _
  | cons piece pieces ih =>
      by_cases hne : pieces = []
      · simp [hne]
      · rw [List.intercalate_cons_of_ne_nil hne]
        simp only [List.length_append, List.length_cons]
        omega

theorem trimStart_intercalate_append {as : List α} (hne : as ≠ [])
    (hwrite : ∀ a ∈ as, ∀ rest, trimStart (write a ++ rest) = write a ++ rest)
    (rest : List Char) :
    trimStart (glue.intercalate (as.map write) ++ rest) =
      glue.intercalate (as.map write) ++ rest := by
  cases as with
  | nil => exact absurd rfl hne
  | cons a as =>
      have ha := hwrite a List.mem_cons_self
      cases as with
      | nil => simpa using ha rest
      | cons b bs => simpa using ha _

/-- Items that are written one after another with some glue in between, which begins with the
separator past blanks. `Ends` says what an item may be followed by. -/
theorem readsAt_sepByWithin {as : List α} {n : Nat} {text rest : List Char} (hne : as ≠ [])
    (hitem : ∀ a ∈ as, ∀ text rest, trimStart text = write a ++ rest → Ends rest →
      ReadsAt item text a rest)
    (hwrite : ∀ a ∈ as, ∀ rest, trimStart (write a ++ rest) = write a ++ rest)
    (hglue : ∀ cs, Ends (glue ++ cs) ∧ trimStart (glue ++ cs) = [separator] ++ ' ' :: cs)
    (hrest : Ends rest ∧ (trimStart rest).head? ≠ some separator) (hn : as.length ≤ n + 1)
    (htext : trimStart text = glue.intercalate (as.map write) ++ rest) :
    ReadsAt (sepByWithin [separator] item n) text as rest := by
  induction as generalizing n text with
  | nil => exact absurd rfl hne
  | cons a as ih =>
      obtain ⟨ha, has⟩ := List.forall_mem_cons.1 hitem
      cases as with
      | nil =>
          rw [List.map_singleton, List.intercalate_singleton] at htext
          cases n with
          | zero => exact (ha text rest htext hrest.1).bind fun _ h => readsAt_pure h
          | succ n =>
              refine (ha text rest htext hrest.1).bind fun text₁ h₁ => ?_
              have hnone : ¬[separator] <+: trimStart text₁ := by
                rintro ⟨cs, hcs⟩
                exact hrest.2 (by rw [← h₁, ← hcs, List.singleton_append, List.head?_cons])
              exact (readsAt_eat_false hnone).bind fun _ h₂ => readsAt_pure (h₂.trans h₁)
      | cons b bs =>
          obtain ⟨n, rfl⟩ : ∃ m, n = m + 1 := ⟨n - 1, by simp only [List.length_cons] at hn; omega⟩
          rw [List.map_cons, List.map_cons, List.intercalate_cons_cons, List.append_assoc,
            List.append_assoc] at htext
          refine (ha text _ htext (hglue _).1).bind fun text₁ h₁ => ?_
          refine (readsAt_eat (h₁.trans (hglue _).2)).bind fun text₂ h₂ => ?_
          obtain ⟨-, hwrite⟩ := List.forall_mem_cons.1 hwrite
          have hne := List.cons_ne_nil b bs
          replace h₂ := h₂.trans (trimStart_cons_of_isBlank (by decide))
          rw [← List.map_cons, trimStart_intercalate_append hne hwrite] at h₂
          rw [if_pos rfl]
          exact (ih hne has hwrite (by simpa using hn) h₂).bind fun _ h₃ => readsAt_pure h₃

theorem readsAt_sepBy {as : List α} {text rest : List Char} (hne : as ≠ [])
    (hitem : ∀ a ∈ as, ∀ text rest, trimStart text = write a ++ rest → Ends rest →
      ReadsAt item text a rest)
    (hwrite : ∀ a ∈ as, ∀ rest, trimStart (write a ++ rest) = write a ++ rest)
    (hglue : ∀ cs, Ends (glue ++ cs) ∧ trimStart (glue ++ cs) = [separator] ++ ' ' :: cs)
    (hrest : Ends rest ∧ (trimStart rest).head? ≠ some separator)
    (htext : trimStart text = glue.intercalate (as.map write) ++ rest) :
    ReadsAt (sepBy [separator] item) text as rest := by
  have hsome : glue ≠ [] := by
    rintro rfl
    have hlength := congrArg List.length (hglue []).2
    simp [trimStart] at hlength
  have hcount := length_le_length_intercalate hsome (as.map write)
  have hle := length_trimStart_le text
  rw [htext, List.length_append] at hle
  rw [List.length_map] at hcount
  exact readsAt_sepByWithin hne hitem hwrite hglue hrest (by omega) htext

end Lists

end Scan

end ConceptResolution
