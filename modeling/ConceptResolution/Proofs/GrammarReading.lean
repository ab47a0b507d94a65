import ConceptResolution.Proofs.Grammar

namespace ConceptResolution

open Text Scan Grammar

structure TypeReader where
  ty : Scan SyntaxError Ty
  tuple : Scan SyntaxError (List Ty)
  elems : Scan SyntaxError (List Ty)
  args : Scan SyntaxError (List Ty)

namespace TypeReader

def within (n : Nat) : TypeReader :=
  ⟨tyWithin n, tupleWithin n, elemsWithin n, argsWithin n⟩

section

variable (r : TypeReader)

/-- A function type past its parameters. The result is the unit type unless an arrow follows. -/
def fnResult (params : List Ty) : Scan SyntaxError Ty := do
  if (← peekBytes 2) = some ['-', '>'] then
    expect ['-', '>']
    return .fn params (← r.ty)
  else
    return .fn params .unit

def fn : Scan SyntaxError Ty := do
  expect ['F', 'n']
  r.fnResult (← r.tuple)

/-- A name, with arguments if a bracket follows. -/
def named : Scan SyntaxError Ty := do
  match ← ident with
  | [] => failWith fun text => .expectedType (SyntaxError.describe text)
  | name =>
    if (← peek) = some '[' then
      expect ['[']
      let args ← r.args
      expect [']']
      return .named (String.ofList name) args
    else
      return .const (String.ofList name)

def items (close : Char) (others : Scan SyntaxError (List Ty)) : Scan SyntaxError (List Ty) := do
  let t ← r.ty
  if (← peek) = some close then
    return [t]
  else
    expect [',']
    return t :: (← others)

/-- A type that begins with the given character and is not a function type. -/
def startingWith : Option Char → Scan SyntaxError Ty
  | some '\'' => param
  | some '?' => freshVar
  | some '(' => do return .tuple (← r.tuple)
  | _ => r.named

/-- One call of each reader, which leaves the parts to the given readers. -/
def calling : TypeReader where
  ty := do
    if (← peekBytes 3) = some ['F', 'n', '('] then
      r.fn
    else
      r.startingWith (← peek)
  tuple := do
    expect ['(']
    let elems ← r.elems
    expect [')']
    return elems
  elems := do
    if (← peek) = some ')' then
      return []
    else
      r.items ')' r.elems
  args := r.items ']' r.args

end

theorem within_succ (n : Nat) : within (n + 1) = (within n).calling :=
  rfl

end TypeReader

namespace Grammar

variable {n : Nat} {text text' name after rest : List Char} {c : Char} {cs : List Char}

theorem takeBytes_iff_begins (hn : byteLength (c :: cs) = n) (hc : isBlank c = false) :
    takeBytes n (trimStart text) = some (c :: cs) ↔ ∃ rest, Begins text (c :: cs) rest := by
  subst hn
  simp only [takeBytes_eq_some_iff, begins_iff hc]

theorem takeBytes_ne (hbegins : Begins text (c :: cs) rest) (hblank : isBlank c = false)
    (hc : c ≠ 'F') : takeBytes 3 (trimStart text) ≠ some ['F', 'n', '('] := by
  intro h
  obtain ⟨after, hafter⟩ := append_of_takeBytes h
  rw [(begins_iff hblank).1 hbegins] at hafter
  exact hc (List.head_eq_of_cons_eq hafter)

theorem leads_token (text : List Char) (hc : isBlank c = false) :
    Leads (expect (c :: cs)) text fun _ rest => Begins text (c :: cs) rest :=
  fun _ rest hvalue => (begins_iff hc).2 (leads_expect _ text () rest hvalue)

theorem Begins.readsAt (h : Begins text (c :: cs) rest) (hc : isBlank c = false)
    (hsame : trimStart text' = trimStart text) : ReadsAt (expect (c :: cs)) text' () rest :=
  readsAt_expect (hsame.trans ((begins_iff hc).1 h))

theorem ident_unique {name' rest' : List Char} (h : Ident text name rest)
    (htext : trimStart text = name' ++ rest') (hname' : ∀ c ∈ name', isIdentChar c = true)
    (hrest' : EndsName rest') : name = name' ∧ rest = rest' := by
  obtain ⟨hname, htext₁, hrest⟩ := ident_iff.1 h
  obtain ⟨htake, hdrop⟩ := takeWhile_append_of_endsName hname.isIdentChar hrest
  obtain ⟨htake', hdrop'⟩ := takeWhile_append_of_endsName hname' hrest'
  rw [← htext₁, htext] at htake hdrop
  exact ⟨htake.symm.trans htake', hdrop.symm.trans hdrop'⟩

/-- No function type begins with a name that ends before any parenthesis. -/
theorem Ident.takeBytes_ne (h : Ident text name rest) (hrest : rest.head? ≠ some '(') :
    takeBytes 3 (trimStart text) ≠ some ['F', 'n', '('] := by
  intro hfront
  obtain ⟨after, hafter⟩ := append_of_takeBytes hfront
  replace hafter : trimStart text = ['F', 'n'] ++ '(' :: after := hafter
  have hname : ['F', 'n'].all isIdentChar = true := by decide
  obtain ⟨-, rfl⟩ := ident_unique h hafter (List.all_eq_true.1 hname)
    fun c hc => by cases hc; decide
  exact hrest rfl

theorem leads_ident (text : List Char) : Leads (ident : Scan SyntaxError _) text fun name rest =>
    (name = [] ∧ trimStart rest = trimStart text ∧ ∀ name after, ¬Ident text name after) ∨
      Ident text name rest := by
  intro name rest hvalue
  rw [ident_apply] at hvalue
  cases hvalue
  have hsplit := (trimStart text).takeWhile_append_dropWhile (p := isIdentChar)
  have hends : EndsName ((trimStart text).dropWhile isIdentChar) := by
    intro c hc
    have hstop := List.head?_dropWhile_not isIdentChar (trimStart text)
    rw [hc] at hstop
    simpa using hstop
  have hname : ∀ c ∈ (trimStart text).takeWhile isIdentChar, isIdentChar c = true :=
    fun c hc => List.mem_takeWhile_imp hc
  by_cases hnil : (trimStart text).takeWhile isIdentChar = []
  · refine .inl ⟨hnil, ?_, fun name after h => ?_⟩
    · rw [hnil, List.nil_append] at hsplit
      rw [hsplit, trimStart_trimStart]
    · obtain ⟨rfl, -⟩ := ident_unique h hsplit.symm hname hends
      exact h.isName.ne_nil hnil
  · exact .inr (ident_iff.2 ⟨⟨hnil, hname⟩, hsplit.symm, hends⟩)

theorem Ident.readsAt (h : Ident text name rest) (hsame : trimStart text' = trimStart text) :
    ReadsAt (ident : Scan SyntaxError _) text' name rest := by
  obtain ⟨hname, htext, hends⟩ := ident_iff.1 h
  exact readsAt_ident (hsame.trans htext) hname.isIdentChar hends

theorem readsAt_ident_nil (hnone : ∀ name after, ¬Ident text name after) :
    ReadsAt (ident : Scan SyntaxError _) text [] text := by
  obtain ⟨hnil, hsame, -⟩ | hident := leads_ident text _ _ (ident_apply text)
  · exact ⟨_, by rw [ident_apply, hnil], hsame⟩
  · exact absurd hident (hnone _ _)

end Grammar

namespace Grammar

def TypeAt (text : List Char) (t : Ty) (rest' : List Char) : Prop :=
  ∃ rest, Derives text (.ty t) rest ∧ trimStart rest = trimStart rest'

def TupleAt (text : List Char) (ts : List Ty) (rest : List Char) : Prop :=
  ∃ after, Begins text ['('] after ∧ Derives after (.elems ts) rest

def ListAt (close : Char) (list : List Ty → Phrase) (text : List Char) (ts : List Ty)
    (rest' : List Char) : Prop :=
  ∀ rest, Begins rest' [close] rest → Derives text (list ts) rest

theorem TypeAt.congr {text text' rest : List Char} {t : Ty} (h : TypeAt text t rest)
    (hsame : trimStart text = trimStart text') : TypeAt text' t rest := by
  obtain ⟨after, ht, hafter⟩ := h
  exact ⟨after, ht.congr hsame, hafter⟩

end Grammar

namespace TypeReader

theorem leads_param (text : List Char) : Leads param text (TypeAt text) := by
  refine (leads_token text (by decide)).bind fun _ text₁ hquote =>
    (leads_ident text₁).bind fun name text₂ h₂ => ?_
  split
  · exact leads_failWith _
  · next hne =>
      obtain ⟨hnil, -⟩ | hname := h₂
      · exact absurd hnil hne
      · exact leads_pure ⟨text₂, .param hquote hname, rfl⟩

theorem leads_freshVar (text : List Char) : Leads freshVar text (TypeAt text) := by
  refine (leads_token text (by decide)).bind fun _ text₁ hmark =>
    (leads_ident text₁).bind fun name text₂ h₂ => leads_pure ?_
  obtain ⟨rfl, hsame, hnone⟩ | hname := h₂
  · exact ⟨text₁, .freshBare hmark hnone, hsame.symm⟩
  · exact ⟨text₂, .fresh hmark hname, rfl⟩

structure Sound (r : TypeReader) : Prop where
  ty : ∀ text, Leads r.ty text (TypeAt text)
  tuple : ∀ text, Leads r.tuple text (TupleAt text)
  elems : ∀ text, Leads r.elems text (ListAt ')' .elems text)
  args : ∀ text, Leads r.args text (ListAt ']' .args text)

section

variable {r : TypeReader} {text : List Char}

theorem Sound.fn (h : r.Sound) {after : List Char} (hopen : Begins text ['F', 'n', '('] after) :
    Leads r.fn text (TypeAt text) := by
  refine (leads_token text (by decide)).bind fun _ text₁ hword =>
    (h.tuple text₁).bind fun ps text₂ ⟨after', hparen, hps⟩ => ?_
  -- the parenthesis of the tuple is the one that was seen behind the name, without a gap
  have hafter : after' = after := by
    have hsame := ((begins_iff (by decide)).1 hword).symm.trans ((begins_iff (by decide)).1 hopen)
    obtain rfl : text₁ = '(' :: after := by simpa using hsame
    have hparen := (begins_iff (by decide)).1 hparen
    rw [trimStart_cons_of_not_isBlank (by decide)] at hparen
    simpa using hparen.symm
  subst hafter
  refine (readsAt_peekBytes 2 text₂).leads.bind fun arrow text₃ ⟨harrow, h₃⟩ => ?_
  split
  · refine (leads_token text₃ (by decide)).bind fun _ text₄ harrow =>
      (h.ty text₄).bind fun t text₅ ⟨rest, ht, hrest⟩ => leads_pure ?_
    exact ⟨rest, .fn hopen hps (harrow.congr (by decide) h₃) ht, hrest⟩
  · next hne =>
      refine leads_pure ⟨text₂, .fnUnit hopen hps fun rest hrest => hne ?_, h₃.symm⟩
      exact harrow.trans ((takeBytes_iff_begins (by decide) (by decide)).2 ⟨rest, hrest⟩)

theorem Sound.named (h : r.Sound) : Leads r.named text (TypeAt text) := by
  refine (leads_ident text).bind fun name text₁ h₁ => ?_
  split
  · exact leads_failWith _
  · next hne =>
    obtain ⟨hnil, -⟩ | hname := h₁
    · exact absurd hnil hne
    · refine (readsAt_peek text₁).leads.bind fun bracket text₂ ⟨_, h₂⟩ => ?_
      split
      · refine (leads_token text₂ (by decide)).bind fun _ text₃ hopen =>
          (h.args text₃).bind fun ts text₄ hts =>
            (leads_token text₄ (by decide)).bind fun _ text₅ hclose => leads_pure ?_
        replace hts := hts text₅ hclose
        rw [Ty.named, if_neg (by simpa using hts.args_ne_nil)]
        exact ⟨text₅, .app hname (hopen.congr (by decide) h₂) hts, rfl⟩
      · exact leads_pure ⟨text₁, .const hname, h₂.symm⟩

theorem Sound.startingWith (h : r.Sound) (c : Option Char) :
    Leads (r.startingWith c) text (TypeAt text) := by
  unfold TypeReader.startingWith
  split
  · exact leads_param text
  · exact leads_freshVar text
  · exact (h.tuple text).bind fun ts rest ⟨_, hopen, hts⟩ =>
      leads_pure ⟨rest, .tuple hopen hts, rfl⟩
  · exact h.named

theorem Sound.items (h : r.Sound) {close : Char} {list : List Ty → Phrase}
    {others : Scan SyntaxError (List Ty)}
    (hlast : ∀ {text after rest t}, Derives text (.ty t) after → Begins after [close] rest →
      Derives text (list [t]) rest)
    (hmore : ∀ {text after after' rest t ts}, Derives text (.ty t) after →
      Begins after [','] after' → Derives after' (list ts) rest →
        Derives text (list (t :: ts)) rest)
    (hclose : isBlank close = false)
    (hothers : ∀ text, Leads others text (ListAt close list text)) :
    Leads (r.items close others) text (ListAt close list text) := by
  refine (h.ty text).bind fun t text₁ ⟨after, ht, h₁⟩ =>
    (readsAt_peek text₁).leads.bind fun c text₂ ⟨_, h₂⟩ => ?_
  have hsame : trimStart text₂ = trimStart after := h₂.trans h₁.symm
  split
  · exact leads_pure fun rest hrest => hlast ht (hrest.congr hclose hsame)
  · refine (leads_token text₂ (by decide)).bind fun _ text₃ hcomma =>
      (hothers text₃).bind fun ts text₄ hts => leads_pure fun rest hrest => ?_
    exact hmore ht (hcomma.congr (by decide) hsame) (hts rest hrest)

theorem Sound.calling (h : r.Sound) : r.calling.Sound where
  ty text := by
    refine (readsAt_peekBytes 3 text).leads.bind fun front text₁ ⟨hfront, h₁⟩ => ?_
    split
    · next heq =>
        obtain ⟨after, hopen⟩ :=
          (takeBytes_iff_begins (by decide) (by decide)).1 (hfront.symm.trans heq)
        exact (h.fn (hopen.congr (by decide) h₁.symm)).mono fun t rest ht => ht.congr h₁
    · refine (readsAt_peek text₁).leads.bind fun c text₂ ⟨_, h₂⟩ => ?_
      exact (h.startingWith c).mono fun t rest ht => ht.congr (h₂.trans h₁)
  tuple text :=
    (leads_token text (by decide)).bind fun _ text₁ hopen =>
      (h.elems text₁).bind fun ts text₂ hts => (leads_token text₂ (by decide)).bind
        fun _ text₃ hclose => leads_pure ⟨text₁, hopen, hts text₃ hclose⟩
  elems text := by
    refine (readsAt_peek text).leads.bind fun c text₁ ⟨_, h₁⟩ => ?_
    split
    · exact leads_pure fun rest hrest => .elemsNil (hrest.congr (by decide) h₁)
    · exact (h.items .elemsLast .elemsMore (by decide) h.elems).mono
        fun ts rest' hts rest hrest => (hts rest hrest).congr h₁
  args text := h.items .argsLast .argsMore (by decide) h.args

end

/-- By induction on the nesting: readers without any fail, and a call keeps them sound. -/
theorem sound_within (n : Nat) : (within n).Sound := by
  induction n with
  | zero =>
      exact ⟨fun _ => leads_failWith _, fun _ => leads_failWith _, fun _ => leads_failWith _,
        fun _ => leads_failWith _⟩
  | succ n ih =>
      rw [within_succ]
      exact ih.calling

end TypeReader

namespace Grammar

variable {text : List Char} {t : Ty}

theorem leads_ty (text : List Char) : Leads ty text (TypeAt text) :=
  (TypeReader.sound_within (nesting text)).ty text

theorem leads_tuple (text : List Char) : Leads tuple text (TupleAt text) :=
  (TypeReader.sound_within (nesting text)).tuple text

theorem accepts_of_read (h : Ty.read text = .ok t) : Accepts text t := by
  have hleads : Leads (do let t ← ty; expectEnd; return t) text fun t _ => Accepts text t := by
    refine (leads_ty text).bind fun t text₁ ⟨rest, ht, hrest⟩ =>
      (leads_expectEnd text₁).bind fun _ text₂ h₁ => leads_pure ⟨rest, ht, ?_⟩
    exact List.dropWhile_eq_nil_iff.1 (hrest.trans h₁)
  obtain ⟨_, haccepts⟩ := hleads.of_run h
  exact haccepts

end Grammar

namespace Grammar

def Closed (rest : List Char) : Prop :=
  ∀ c, (trimStart rest).head? = some c → c ≠ '[' ∧ c ≠ '('

theorem Begins.closed {text rest : List Char} {c : Char} {cs : List Char}
    (h : Begins text (c :: cs) rest) (hc : isBlank c = false) (hopen : c ≠ '[' ∧ c ≠ '(') :
    Closed text := by
  intro d hd
  rw [h.head? hc] at hd
  cases hd
  exact hopen

end Grammar

namespace TypeReader

section

variable {r : TypeReader} {text after after' rest name : List Char} {t : Ty} {ts : List Ty}
  {c close : Char} {cs : List Char}

theorem readsAt_param (hquote : Begins text ['\''] after) (hname : Ident after name rest) :
    ReadsAt param text (.var ⟨String.ofList ('\'' :: name)⟩) rest := by
  refine (hquote.readsAt (by decide) rfl).bind fun text₁ h₁ =>
    (hname.readsAt h₁).bind fun text₂ h₂ => ?_
  split
  · exact absurd rfl hname.isName.ne_nil
  · exact readsAt_pure h₂

theorem readsAt_freshVar (hmark : Begins text ['?'] after)
    (hname : ∀ text', trimStart text' = trimStart after →
      ReadsAt (ident : Scan SyntaxError _) text' name rest) :
    ReadsAt freshVar text (.var ⟨String.ofList ('?' :: name)⟩) rest :=
  (hmark.readsAt (by decide) rfl).bind fun text₁ h₁ =>
    (hname text₁ h₁).bind fun _ h₂ => readsAt_pure h₂

theorem readsAt_named_const (hname : Ident text name rest) (hclosed : Closed rest) :
    ReadsAt r.named text (.const (String.ofList name)) rest := by
  refine (hname.readsAt rfl).bind fun text₁ h₁ => ?_
  split
  · exact absurd rfl hname.isName.ne_nil
  · refine (readsAt_peek text₁).bind fun text₂ h₂ => ?_
    rw [h₁, if_neg fun h => (hclosed _ h).1 rfl]
    exact readsAt_pure (h₂.trans h₁)

theorem readsAt_named_app (hname : Ident text name after) (hopen : Begins after ['['] after')
    (hne : ts ≠ []) (hts : ∀ text', trimStart text' = trimStart after' →
      ReadsAt r.args text' ts (']' :: rest)) :
    ReadsAt r.named text (.app (String.ofList name) ts) rest := by
  refine (hname.readsAt rfl).bind fun text₁ h₁ => ?_
  split
  · exact absurd rfl hname.isName.ne_nil
  · refine (readsAt_peek text₁).bind fun text₂ h₂ => ?_
    rw [h₁, hopen.head? (by decide), if_pos rfl]
    refine (hopen.readsAt (by decide) (h₂.trans h₁)).bind fun text₃ h₃ =>
      (hts text₃ h₃).bind fun text₄ h₄ => ?_
    refine ((begins_append [']'] rest).readsAt (by decide) h₄).bind fun text₅ h₅ => ?_
    rw [Ty.named, if_neg (by simpa using hne)]
    exact readsAt_pure h₅

theorem readsAt_calling_tuple (hopen : Begins text ['('] after)
    (hts : ∀ text', trimStart text' = trimStart after →
      ReadsAt r.elems text' ts (')' :: rest)) : ReadsAt r.calling.tuple text ts rest := by
  refine (hopen.readsAt (by decide) rfl).bind fun text₁ h₁ =>
    (hts text₁ h₁).bind fun text₂ h₂ => ?_
  exact ((begins_append [')'] rest).readsAt (by decide) h₂).bind fun text₃ h₃ => readsAt_pure h₃

theorem readsAt_fnResult_arrow (harrow : Begins text ['-', '>'] after)
    (ht : ∀ text', trimStart text' = trimStart after → ReadsAt r.ty text' t rest) :
    ReadsAt (r.fnResult ts) text (.fn ts t) rest := by
  refine (readsAt_peekBytes 2 text).bind fun text₁ h₁ => ?_
  rw [if_pos ((takeBytes_iff_begins (by decide) (by decide)).2 ⟨after, harrow⟩)]
  exact (harrow.readsAt (by decide) h₁).bind fun text₂ h₂ =>
    (ht text₂ h₂).bind fun text₃ h₃ => readsAt_pure h₃

theorem readsAt_fnResult_unit (hnone : ∀ after, ¬Begins text ['-', '>'] after) :
    ReadsAt (r.fnResult ts) text (.fn ts .unit) text := by
  refine (readsAt_peekBytes 2 text).bind fun text₁ h₁ => ?_
  rw [if_neg fun h => ?_]
  · exact readsAt_pure h₁
  · obtain ⟨after, harrow⟩ := (takeBytes_iff_begins (by decide) (by decide)).1 h
    exact hnone after harrow

theorem readsAt_items_last (ht : ReadsAt r.ty text t after) (hclose : Begins after [close] rest)
    (hblank : isBlank close = false) {others : Scan SyntaxError (List Ty)} :
    ReadsAt (r.items close others) text [t] (close :: rest) := by
  refine ht.bind fun text₁ h₁ => (readsAt_peek text₁).bind fun text₂ h₂ => ?_
  rw [h₁, hclose.head? hblank, if_pos rfl]
  refine readsAt_pure (h₂.trans (h₁.trans (((begins_iff hblank).1 hclose).trans ?_)))
  exact (trimStart_cons_of_not_isBlank hblank).symm

theorem readsAt_items_more (ht : ReadsAt r.ty text t after) (hcomma : Begins after [','] after')
    (hclose : close ≠ ',') {others : Scan SyntaxError (List Ty)}
    (hts : ∀ text', trimStart text' = trimStart after' → ReadsAt others text' ts (close :: rest)) :
    ReadsAt (r.items close others) text (t :: ts) (close :: rest) := by
  refine ht.bind fun text₁ h₁ => (readsAt_peek text₁).bind fun text₂ h₂ => ?_
  rw [h₁, hcomma.head? (by decide), if_neg (by simpa using hclose.symm)]
  exact (hcomma.readsAt (by decide) (h₂.trans h₁)).bind fun text₃ h₃ =>
    (hts text₃ h₃).bind fun text₄ h₄ => readsAt_pure h₄

-- How a call of a reader begins decides what it goes on with.
theorem readsAt_calling_fn (hopen : Begins text ['F', 'n', '('] after)
    (hps : ∀ text', Begins text' ['('] after → ReadsAt r.tuple text' ts after')
    (ht : ∀ text', trimStart text' = trimStart after' → ReadsAt (r.fnResult ts) text' t rest) :
    ReadsAt r.calling.ty text t rest := by
  refine (readsAt_peekBytes 3 text).bind fun text₁ h₁ => ?_
  rw [if_pos ((takeBytes_iff_begins (by decide) (by decide)).2 ⟨after, hopen⟩)]
  have hword : trimStart text₁ = ['F', 'n'] ++ (['('] ++ after) :=
    h₁.trans ((begins_iff (by decide)).1 hopen)
  refine (readsAt_expect hword).bind fun text₂ h₂ => (hps text₂ ?_).bind ht
  exact (begins_append ['('] after).congr (by decide) h₂.symm

theorem readsAt_calling_startingWith (hbegins : Begins text (c :: cs) after)
    (hblank : isBlank c = false) (hfn : takeBytes 3 (trimStart text) ≠ some ['F', 'n', '('])
    (ht : ∀ text', trimStart text' = trimStart text →
      ReadsAt (r.startingWith (some c)) text' t rest) : ReadsAt r.calling.ty text t rest := by
  refine (readsAt_peekBytes 3 text).bind fun text₁ h₁ => ?_
  rw [if_neg hfn]
  refine (readsAt_peek text₁).bind fun text₂ h₂ => ?_
  rw [h₁, hbegins.head? hblank]
  exact ht text₂ (h₂.trans h₁)

theorem startingWith_of_isIdentChar (hc : isIdentChar c = true) :
    r.startingWith (some c) = r.named := by
  unfold startingWith
  split
  · next heq => cases heq; exact absurd hc (by decide)
  · next heq => cases heq; exact absurd hc (by decide)
  · next heq => cases heq; exact absurd hc (by decide)
  · rfl

theorem readsAt_calling_named (hname : Ident text name after) (hafter : after.head? ≠ some '(')
    (ht : ∀ text', trimStart text' = trimStart text → ReadsAt r.named text' t rest) :
    ReadsAt r.calling.ty text t rest := by
  have hfn := hname.takeBytes_ne hafter
  obtain ⟨c, cs, rfl, hc, hblank⟩ := hname.isName.exists_head
  refine readsAt_calling_startingWith hname.begins hblank hfn ?_
  rwa [startingWith_of_isIdentChar hc]

theorem readsAt_calling_elems (ht : Derives text (.ty t) after)
    (hts : ∀ text', trimStart text' = trimStart text →
      ReadsAt (r.items ')' r.elems) text' ts rest) : ReadsAt r.calling.elems text ts rest := by
  refine (readsAt_peek text).bind fun text₁ h₁ => ?_
  rw [if_neg ht.head?_ne]
  exact hts text₁ h₁

end

end TypeReader

namespace Grammar

open TypeReader

/-- The reader takes the phrase off the text wherever that ends, given enough nesting. The bracket
that closes a list is left to its reader's caller. -/
def Phrase.Reads (text : List Char) : Phrase → List Char → Prop
  | .ty t, rest => Closed rest → ∀ n text', 3 * (trimStart text).length + 2 ≤ n →
      trimStart text' = trimStart text → ReadsAt (within n).ty text' t rest
  | .elems ts, rest => ∀ n text', 3 * (trimStart text).length + 3 ≤ n →
      trimStart text' = trimStart text → ReadsAt (within n).elems text' ts (')' :: rest)
  | .args ts, rest => ∀ n text', 3 * (trimStart text).length + 3 ≤ n →
      trimStart text' = trimStart text → ReadsAt (within n).args text' ts (']' :: rest)

section

variable {text after after' rest name : List Char} {t : Ty} {ts : List Ty}

theorem reads_fn (hopen : Begins text ['F', 'n', '('] after)
    (hps : Phrase.Reads after (.elems ts) after')
    (ht : ∀ n text', 3 * (trimStart text).length ≤ n → trimStart text' = trimStart after' →
      ReadsAt ((within n).fnResult ts) text' t rest) : Phrase.Reads text (.ty t) rest := by
  intro _ n text' hn htext
  have hlength := hopen.length_lt (by decide)
  obtain ⟨n, rfl⟩ : ∃ m, n = m + 2 := ⟨n - 2, by omega⟩
  rw [within_succ]
  refine readsAt_calling_fn (hopen.congr (by decide) htext.symm) (fun text₁ hparen => ?_)
    fun text₁ h₁ => ht (n + 1) text₁ (by omega) h₁
  rw [within_succ]
  exact readsAt_calling_tuple hparen fun text₂ h₂ => hps n text₂ (by omega) h₂

theorem reads_startingWith {c : Char} {cs : List Char} (hbegins : Begins text (c :: cs) after)
    (hblank : isBlank c = false) (hc : c ≠ 'F')
    (ht : ∀ n text', 3 * (trimStart text).length < n → trimStart text' = trimStart text →
      ReadsAt ((within n).startingWith (some c)) text' t rest) :
    Phrase.Reads text (.ty t) rest := by
  intro _ n text' hn htext
  obtain ⟨n, rfl⟩ : ∃ m, n = m + 1 := ⟨n - 1, by omega⟩
  have hbegins := hbegins.congr hblank htext.symm
  exact readsAt_calling_startingWith hbegins hblank (takeBytes_ne hbegins hblank hc)
    fun text₁ h₁ => ht n text₁ (by omega) (h₁.trans htext)

theorem reads_const (hname : Ident text name rest) :
    Phrase.Reads text (.ty (.const (String.ofList name))) rest := by
  intro hclosed n text' hn htext
  obtain ⟨n, rfl⟩ : ∃ m, n = m + 1 := ⟨n - 1, by omega⟩
  have hnone : rest.head? ≠ some '(' :=
    fun h => (hclosed _ (head?_trimStart h (by decide))).2 rfl
  rw [within_succ]
  exact readsAt_calling_named (hname.congr htext.symm) hnone fun text₁ h₁ =>
    readsAt_named_const (hname.congr (h₁.trans htext).symm) hclosed

theorem reads_app (hname : Ident text name after) (hopen : Begins after ['['] after')
    (hne : ts ≠ []) (hts : Phrase.Reads after' (.args ts) rest) :
    Phrase.Reads text (.ty (.app (String.ofList name) ts)) rest := by
  intro _ n text' hn htext
  have hlength := (hopen.length_lt (by decide)).trans hname.length_lt
  obtain ⟨n, rfl⟩ : ∃ m, n = m + 1 := ⟨n - 1, by omega⟩
  have hnone : after.head? ≠ some '(' := by
    intro h
    have hhead := head?_trimStart h (by decide)
    rw [hopen.head? (by decide)] at hhead
    cases hhead
  exact readsAt_calling_named (hname.congr htext.symm) hnone fun text₁ h₁ =>
    readsAt_named_app (hname.congr (h₁.trans htext).symm) hopen hne fun text₂ h₂ =>
      hts n text₂ (by omega) h₂

theorem reads_tuple (hopen : Begins text ['('] after) (hts : Phrase.Reads after (.elems ts) rest) :
    Phrase.Reads text (.ty (.tuple ts)) rest := by
  refine reads_startingWith hopen (by decide) (by decide) fun n text' hn htext => ?_
  have hlength := hopen.length_lt (by decide)
  obtain ⟨n, rfl⟩ : ∃ m, n = m + 1 := ⟨n - 1, by omega⟩
  rw [within_succ]
  exact (readsAt_calling_tuple (hopen.congr (by decide) htext.symm) fun text₁ h₁ =>
    hts n text₁ (by omega) h₁).bind fun text₂ h₂ => readsAt_pure h₂

theorem reads_elemsNil (hclose : Begins text [')'] rest) : Phrase.Reads text (.elems []) rest := by
  intro n text' hn htext
  obtain ⟨n, rfl⟩ : ∃ m, n = m + 1 := ⟨n - 1, by omega⟩
  refine (readsAt_peek text').bind fun text₁ h₁ => ?_
  rw [htext, hclose.head? (by decide), if_pos rfl]
  refine readsAt_pure (h₁.trans (htext.trans (((begins_iff (by decide)).1 hclose).trans ?_)))
  exact (trimStart_cons_of_not_isBlank (by decide)).symm

theorem reads_elemsLast (ht : Derives text (.ty t) after)
    (hreads : Phrase.Reads text (.ty t) after) (hclose : Begins after [')'] rest) :
    Phrase.Reads text (.elems [t]) rest := by
  intro n text' hn htext
  obtain ⟨n, rfl⟩ : ∃ m, n = m + 1 := ⟨n - 1, by omega⟩
  have hclosed := hclose.closed (by decide) (by decide)
  exact readsAt_calling_elems (ht.congr htext.symm) fun text₁ h₁ =>
    readsAt_items_last (hreads hclosed n text₁ (by omega) (h₁.trans htext)) hclose (by decide)

theorem reads_elemsMore (ht : Derives text (.ty t) after)
    (hreads : Phrase.Reads text (.ty t) after) (hcomma : Begins after [','] after')
    (hts : Phrase.Reads after' (.elems ts) rest) : Phrase.Reads text (.elems (t :: ts)) rest := by
  intro n text' hn htext
  have hlength := (hcomma.length_lt (by decide)).trans ht.length_lt
  obtain ⟨n, rfl⟩ : ∃ m, n = m + 1 := ⟨n - 1, by omega⟩
  have hclosed := hcomma.closed (by decide) (by decide)
  exact readsAt_calling_elems (ht.congr htext.symm) fun text₁ h₁ =>
    readsAt_items_more (hreads hclosed n text₁ (by omega) (h₁.trans htext)) hcomma (by decide)
      fun text₂ h₂ => hts n text₂ (by omega) h₂

theorem reads_argsLast (hreads : Phrase.Reads text (.ty t) after)
    (hclose : Begins after [']'] rest) : Phrase.Reads text (.args [t]) rest := by
  intro n text' hn htext
  obtain ⟨n, rfl⟩ : ∃ m, n = m + 1 := ⟨n - 1, by omega⟩
  have hclosed := hclose.closed (by decide) (by decide)
  exact readsAt_items_last (hreads hclosed n text' (by omega) htext) hclose (by decide)

theorem reads_argsMore (ht : Derives text (.ty t) after)
    (hreads : Phrase.Reads text (.ty t) after) (hcomma : Begins after [','] after')
    (hts : Phrase.Reads after' (.args ts) rest) : Phrase.Reads text (.args (t :: ts)) rest := by
  intro n text' hn htext
  have hlength := (hcomma.length_lt (by decide)).trans ht.length_lt
  obtain ⟨n, rfl⟩ : ∃ m, n = m + 1 := ⟨n - 1, by omega⟩
  have hclosed := hcomma.closed (by decide) (by decide)
  exact readsAt_items_more (hreads hclosed n text' (by omega) htext) hcomma (by decide)
    fun text₁ h₁ => hts n text₁ (by omega) h₁

end

/-- By induction on the derivation, one rule after another. -/
theorem Derives.reads {text rest : List Char} {p : Phrase} (h : Derives text p rest) :
    p.Reads text rest := by
  induction h with
  | fn hopen hdps harrow _ hps hr =>
      have hshort := (harrow.length_lt (by decide)).trans
        (hdps.length_lt.trans (hopen.length_lt (by decide)))
      intro hclosed
      refine reads_fn hopen hps (fun n text' hn htext => ?_) hclosed
      exact readsAt_fnResult_arrow (harrow.congr (by decide) htext.symm) fun text₁ h₁ =>
        hr hclosed n text₁ (by omega) h₁
  | fnUnit hopen _ hnone hps =>
      refine reads_fn hopen hps fun n text' _ htext => ?_
      have hnone' := fun after h => hnone after (Begins.congr h (by decide) htext)
      exact (readsAt_fnResult_unit hnone').trans htext
  | param hquote hname =>
      exact reads_startingWith hquote (by decide) (by decide) fun n text' _ htext =>
        readsAt_param (hquote.congr (by decide) htext.symm) hname
  | fresh hmark hname =>
      exact reads_startingWith hmark (by decide) (by decide) fun n text' _ htext =>
        readsAt_freshVar (hmark.congr (by decide) htext.symm) fun _ => hname.readsAt
  | freshBare hmark hnone =>
      -- no name follows, and the blanks behind the mark are passed over in the search for one
      refine reads_startingWith hmark (by decide) (by decide) fun n text' _ htext =>
        readsAt_freshVar (hmark.congr (by decide) htext.symm) fun text₁ h₁ => ?_
      exact (readsAt_ident_nil fun name after h => hnone name after (h.congr h₁)).trans h₁
  | tuple hopen _ hts => exact reads_tuple hopen hts
  | const hname => exact reads_const hname
  | app hname hopen hdts hts => exact reads_app hname hopen hdts.args_ne_nil hts
  | elemsNil hclose => exact reads_elemsNil hclose
  | elemsLast ht hclose hreads => exact reads_elemsLast ht hreads hclose
  | elemsMore ht hcomma _ hreads hts => exact reads_elemsMore ht hreads hcomma hts
  | argsLast _ hclose hreads => exact reads_argsLast hreads hclose
  | argsMore ht hcomma _ hreads hts => exact reads_argsMore ht hreads hcomma hts

theorem Derives.readsAt_ty {text rest : List Char} {t : Ty} (h : Derives text (.ty t) rest)
    (hclosed : Closed rest) : ReadsAt ty text t rest := by
  have hle := length_trimStart_le text
  exact h.reads hclosed (nesting text) text (by rw [nesting]; omega) rfl

theorem read_of_accepts {text : List Char} {t : Ty} (h : Accepts text t) :
    Ty.read text = .ok t := by
  obtain ⟨rest, ht, hblanks⟩ := h
  have hrest : trimStart rest = [] := List.dropWhile_eq_nil_iff.2 hblanks
  have hclosed : Closed rest := fun c hc => by rw [hrest] at hc; cases hc
  refine ReadsAt.run (?_ : ReadsAt _ _ _ [])
  refine (ht.readsAt_ty hclosed).bind fun text₁ h₁ => ?_
  exact (readsAt_expectEnd (h₁.trans hrest)).bind fun text₂ h₂ => readsAt_pure h₂

end Grammar

end ConceptResolution
