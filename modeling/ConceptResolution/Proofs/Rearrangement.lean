import ConceptResolution.Document.Answer

/-!
Answers depend on declarations alone. What a file declares is a function of its declaration lines in
their order, a query is a function of its own line, and its answer is a function of the two. So
other queries, blank lines and comments may come, go and move without any effect on it.
-/

namespace ConceptResolution

def Statement.question? : Statement → Option Question
  | .resolve params supplied => some (.resolve params supplied)
  | .call method wanted => some (.call method wanted)
  | _ => none

/-- What a user learns from a fault, its place apart. -/
def Fault.gist (f : Fault) : FaultKind × String :=
  (f.kind, f.message)

namespace Document

def readLine (line : List Char) : Except SyntaxError (Option Statement) :=
  if (stripComment line).all Text.isBlank then .ok none
  else (Statement.read (stripComment line)).map some

def statement? (line : List Char) : Option Statement :=
  match readLine line with
  | .ok s => s
  | .error _ => none

def declares (line : List Char) : Bool :=
  (statement? line).any fun s => s.question?.isNone

def question? (line : List Char) : Option Question :=
  (statement? line).bind Statement.question?

def query? (file : String) (line : List Char × Nat) : Option Query :=
  (question? line.1).map fun question => ⟨question, ⟨file, line.2, .ofList line.1⟩⟩

/-- What the queries of a document are answered from. -/
def declared (d : Document) : Registry × List Param :=
  (d.registry, d.givens)

def declare (declared : Registry × List Param) (s : Statement) : Registry × List Param :=
  (Document.add ⟨declared.1, declared.2, []⟩ ⟨"", 0, ""⟩ s).declared

section Reading

variable {file : String} {line : List Char} {ls : List (List Char)} {n : Nat} {d d' : Document}

theorem declared_add (d : Document) (source : SourceLine) (s : Statement) :
    (d.add source s).declared = declare d.declared s := by
  cases s <;> rfl

theorem declare_of_question {s : Statement} (h : s.question?.isSome) (b : Registry × List Param) :
    declare b s = b := by
  cases s <;> first | rfl | cases h

theorem queries_add (d : Document) (source : SourceLine) (s : Statement) :
    (d.add source s).queries = d.queries ++ (s.question?.map (⟨·, source⟩)).toList := by
  cases s <;> simp [add, ask, Statement.question?]

theorem addLine_of_readLine_eq_error {e : SyntaxError} (h : readLine line = .error e) :
    addLine file d (line, n) = .error (.malformed e ⟨file, n, .ofList line⟩) := by
  unfold readLine at h
  split at h
  · cases h
  · next hblank =>
    cases hread : Statement.read (stripComment line) with
    | error e' =>
        rw [hread] at h
        cases h
        simp [addLine, hblank, hread]
    | ok s =>
        rw [hread] at h
        cases h

theorem addLine_of_readLine_eq_ok {s : Option Statement} (h : readLine line = .ok s) :
    addLine file d (line, n) = .ok (s.elim d (d.add ⟨file, n, .ofList line⟩)) := by
  unfold readLine at h
  split at h
  · next hblank =>
    cases h
    simp [addLine, hblank]
  · next hblank =>
    cases hread : Statement.read (stripComment line) with
    | error e =>
        rw [hread] at h
        cases h
    | ok s' =>
        rw [hread] at h
        cases h
        simp [addLine, hblank, hread]

theorem of_addLine_eq_ok (h : addLine file d (line, n) = .ok d') :
    d'.declared = ([line].filter declares |>.filterMap statement?).foldl declare d.declared ∧
      d'.queries = d.queries ++ (query? file (line, n)).toList := by
  cases hread : readLine line with
  | error e =>
      rw [addLine_of_readLine_eq_error hread] at h
      cases h
  | ok s =>
      rw [addLine_of_readLine_eq_ok hread] at h
      cases h
      have hstatement : statement? line = s := by rw [statement?, hread]
      cases s with
      | none => simp [declares, query?, question?, hstatement]
      | some s =>
          rw [Option.elim_some, declared_add, queries_add, query?, question?, hstatement]
          cases hs : s.question? with
          | none => simp [declares, hstatement, hs]
          | some question =>
              simp [declares, hstatement, hs, declare_of_question (s := s) (by simp [hs])]

/-- What is declared after some lines comes from the declarations among them, and the queries come
from the others. -/
theorem of_foldlM_addLine_eq_ok (h : (ls.zipIdx n).foldlM (addLine file) d = .ok d') :
    d'.declared = ((ls.filter declares).filterMap statement?).foldl declare d.declared ∧
      d'.queries = d.queries ++ (ls.zipIdx n).filterMap (query? file) := by
  induction ls generalizing n d with
  | nil =>
      cases h
      simp
  | cons line ls ih =>
      rw [List.zipIdx_cons, List.foldlM_cons] at h
      cases hline : addLine file d (line, n) with
      | error f =>
          rw [hline] at h
          cases h
      | ok d₁ =>
          rw [hline] at h
          obtain ⟨hdeclared, hqueries⟩ := of_addLine_eq_ok hline
          obtain ⟨hdeclared', hqueries'⟩ := ih h
          rw [hdeclared', hqueries', hdeclared, hqueries, ← List.singleton_append (l := ls),
            List.filter_append, List.filterMap_append, List.foldl_append, List.singleton_append,
            List.zipIdx_cons, List.append_assoc]
          refine ⟨rfl, congrArg (d.queries ++ ·) ?_⟩
          cases hquery : query? file (line, n) with
          | none => simp [List.filterMap_cons_none hquery]
          | some q => simp [List.filterMap_cons_some hquery]

theorem exists_foldlM_addLine_eq_ok (h : ∀ line ∈ ls, ∃ s, readLine line = .ok s) :
    ∃ d', (ls.zipIdx n).foldlM (addLine file) d = .ok d' := by
  induction ls generalizing n d with
  | nil => exact ⟨d, rfl⟩
  | cons line ls ih =>
      obtain ⟨⟨s, hs⟩, hrest⟩ := List.forall_mem_cons.1 h
      rw [List.zipIdx_cons, List.foldlM_cons, addLine_of_readLine_eq_ok hs]
      exact ih hrest

variable {text : String}

theorem exists_read_eq_ok (file : String)
    (h : ∀ line ∈ Text.lines text.toList, ∃ s, readLine line = .ok s) :
    ∃ d, read file text = .ok d :=
  exists_foldlM_addLine_eq_ok h

theorem declared_of_read (h : read file text = .ok d) :
    d.declared = (((Text.lines text.toList).filter declares).filterMap statement?).foldl declare
      empty.declared :=
  (of_foldlM_addLine_eq_ok h).1

theorem queries_of_read (h : read file text = .ok d) :
    d.queries = (Text.lines text.toList).zipIdx.filterMap (query? file) :=
  (of_foldlM_addLine_eq_ok h).2

theorem sources_of_read (h : read file text = .ok d) :
    d.queries.map (fun q => q.source.text) =
      ((Text.lines text.toList).filter fun line => (question? line).isSome).map String.ofList := by
  rw [queries_of_read h]
  generalize Text.lines text.toList = ls
  generalize 0 = n
  induction ls generalizing n with
  | nil => rfl
  | cons line ls ih =>
      rw [List.zipIdx_cons, List.filter_cons]
      cases hline : question? line with
      | none =>
          rw [List.filterMap_cons_none (by simp [query?, hline]), ih]
          rfl
      | some question =>
          rw [List.filterMap_cons_some (b := ⟨question, ⟨file, n, .ofList line⟩⟩)
            (by simp [query?, hline]), List.map_cons, ih]
          rfl

theorem question?_of_read (h : read file text = .ok d) {q : Query} (hq : q ∈ d.queries) :
    question? q.source.text.toList = some q.question := by
  rw [queries_of_read h] at hq
  obtain ⟨line, -, hline⟩ := List.mem_filterMap.1 hq
  obtain ⟨question, hquestion, rfl⟩ := Option.map_eq_some_iff.1 hline
  rw [String.toList_ofList, hquestion]

end Reading

section Answers

variable {site : Site} {source source' : SourceLine} {m : Memory}

theorem gist_explain (params : List Param) (supplied : List Ty) :
    ((explain site params supplied source).run m).1.gist =
      ((explain site params supplied source').run m).1.gist := by
  unfold explain
  cases interleave supplied params with
  | none => rfl
  | some args =>
      cases hinfer : (site.infer params args .empty .empty).run m with
      | mk result m' =>
          rw [StateT.run_bind, StateT.run_bind, hinfer]
          cases result <;> rfl

theorem gist_answerResolve (params : List Param) (supplied : List Ty) :
    ((answerResolve site params supplied source).run m).1.mapError Fault.gist =
      ((answerResolve site params supplied source').run m).1.mapError Fault.gist := by
  unfold answerResolve
  cases hcomplete : (site.completeArgs supplied params true).run m with
  | mk result m' =>
      rw [StateT.run_bind, StateT.run_bind, hcomplete]
      cases result with
      | some args => rfl
      | none => exact congrArg Except.error (gist_explain params supplied)

theorem gist_answerCall (method : String) (concept : Ty) :
    ((answerCall site method concept source).run m).1.mapError Fault.gist =
      ((answerCall site method concept source').run m).1.mapError Fault.gist := by
  unfold answerCall
  cases hresolve : (site.resolveUnder [concept] .empty .empty).run m with
  | mk result m' =>
      rw [StateT.run_bind, StateT.run_bind, hresolve]
      cases result with
      | error diagnostics => rfl
      | ok v =>
          simp only [bind]
          cases site.model.dispatch? v.ty concept method <;> rfl

theorem gist_answer {d d' : Document} {q q' : Query} (hdeclared : d'.declared = d.declared)
    (hquestion : q'.question = q.question) (options : Options) :
    (d'.answer options q').mapError Fault.gist = (d.answer options q).mapError Fault.gist := by
  have hsite : d'.site options = d.site options := by
    obtain ⟨hregistry, hgivens⟩ := Prod.mk.inj hdeclared
    rw [site, site, scope, scope, hregistry, hgivens]
  rw [answer, answer, hsite, hquestion]
  cases q.question with
  | resolve params supplied => exact gist_answerResolve params supplied
  | call method concept => exact gist_answerCall method concept

end Answers

/-- Lines that declare nothing can come, go and move as they like as long as they can be read: what
remains of the queries gets the answers it got before. -/
theorem answers_rearranged {file file' text text' : String} {d : Document}
    (hread : read file text = .ok d)
    (hdeclarations : (Text.lines text'.toList).filter declares =
      (Text.lines text.toList).filter declares)
    (hlines : ∀ line ∈ Text.lines text'.toList, ∃ s, readLine line = .ok s) :
    ∃ d', read file' text' = .ok d' ∧
      (d.queries.map fun q => q.source.text) =
        ((Text.lines text.toList).filter fun line => (question? line).isSome).map String.ofList ∧
      (d'.queries.map fun q => q.source.text) =
        ((Text.lines text'.toList).filter fun line => (question? line).isSome).map String.ofList ∧
      ∀ options, ∀ q ∈ d.queries, ∀ q' ∈ d'.queries, q'.source.text = q.source.text →
        (d'.answer options q').mapError Fault.gist = (d.answer options q).mapError Fault.gist := by
  obtain ⟨d', hread'⟩ := exists_read_eq_ok file' hlines
  refine ⟨d', hread', sources_of_read hread, sources_of_read hread',
    fun options q hq q' hq' htext => gist_answer ?_ ?_ options⟩
  · rw [declared_of_read hread, declared_of_read hread', hdeclarations]
  · refine Option.some.inj ?_
    rw [← question?_of_read hread hq, ← question?_of_read hread' hq', htext]

/-- A query that nothing answers moves in front of the declarations, and another one is dropped. -/
theorem answers_rearranged_failing :
    let text := "concept Eq['a]\ninstance IntEq : Eq[int]\n" ++
      "resolve ['t, witness 'w: Eq['t]] (int)\ncall eq : Eq[bool]"
    let text' := "call eq : Eq[bool]\nconcept Eq['a]\n# all of them\n\ninstance IntEq : Eq[int]\n"
    (Text.lines text'.toList).filter declares = (Text.lines text.toList).filter declares ∧
    (∀ line ∈ Text.lines text'.toList, ∃ s, readLine line = .ok s) ∧
    ∃ d d', read "" text = .ok d ∧ read "" text' = .ok d' ∧
      (d.queries.map fun q => q.source.text) =
        ["resolve ['t, witness 'w: Eq['t]] (int)", "call eq : Eq[bool]"] ∧
      (d'.queries.map fun q => q.source.text) = ["call eq : Eq[bool]"] ∧
      ∀ options, ∀ q ∈ d.queries, ∀ q' ∈ d'.queries, q'.source.text = q.source.text →
        (d'.answer options q').mapError Fault.gist = (d.answer options q).mapError Fault.gist := by
  intro text text'
  have hlegible : ∀ line, (readLine line).isOk = true → ∃ s, readLine line = .ok s := by
    intro line h
    cases hline : readLine line with
    | error e => simp [hline, Except.isOk, Except.toBool] at h
    | ok s => exact ⟨s, rfl⟩
  have hread : ∀ line ∈ Text.lines text.toList, (readLine line).isOk = true := by decide +kernel
  have hread' : ∀ line ∈ Text.lines text'.toList, (readLine line).isOk = true := by decide +kernel
  have hlines := fun line hline => hlegible line (hread line hline)
  have hlines' := fun line hline => hlegible line (hread' line hline)
  have hdeclarations : (Text.lines text'.toList).filter declares =
      (Text.lines text.toList).filter declares := by
    decide +kernel
  obtain ⟨d, hd⟩ := exists_read_eq_ok "" hlines
  obtain ⟨d', hd', hsources, hsources', hanswers⟩ := answers_rearranged hd hdeclarations hlines'
  exact ⟨hdeclarations, hlines', d, d', hd, hd', hsources.trans (by decide +kernel),
    hsources'.trans (by decide +kernel), hanswers⟩

end Document

end ConceptResolution
