import Oberon.Check.Checker
import Oberon.Proofs.Check.Keeps

/-!
# What visits of a checker leave behind

A visit of a checker with a running state ends with what the check of the same construct in an
environment gives: the same environment, and its findings as remarks.  Everything that is changed
for the time of a visit is put back: the path, the role of names, what is being declared, and the
scopes around the innermost one.  Each remark of the visit names the bodies that are open when it
is made.
-/

namespace Oberon

/-! ## Events -/

def dotted (bodies : List String) : String :=
  ".".intercalate bodies.reverse

/-- Every remark names the bodies that are open when it is made. -/
def Located (bodies : List String) : List Event → Prop
  | [] => True
  | event :: events =>
    (∀ d ∈ event.remark?, d.context = some (dotted bodies)) ∧ Located (event.bodies bodies) events

/-- Events in two parts, the second one located in the bodies that the first leaves open. -/
theorem located_append {bodies : List String} {first second : List Event} :
    Located bodies (first ++ second) ↔
      Located bodies first ∧ Located (openBodies bodies first) second := by
  induction first generalizing bodies with
  | nil => exact ⟨fun h => ⟨trivial, h⟩, And.right⟩
  | cons event events ih =>
    rw [List.cons_append, Located, Located, ih, and_assoc]
    rfl

/-- Two lists of events open and close bodies one behind the other. -/
theorem openBodies_append (bodies : List String) (first second : List Event) :
    openBodies bodies (first ++ second) = openBodies (openBodies bodies first) second :=
  List.foldl_append

/-- The events of a visit inside `bodies` that has the given findings. -/
structure Recorded (bodies : List String) (findings : List Finding)
    (events : List Event) : Prop where
  remarks : remarks events = findings.map Finding.diagnostic
  located : Located bodies events
  closed : openBodies bodies events = bodies

namespace Recorded

variable {bodies : List String} {findings others : List Finding} {events more : List Event}

theorem nil : Recorded bodies [] [] :=
  ⟨rfl, trivial, rfl⟩

/-- Two recordings one behind the other. -/
theorem append (h : Recorded bodies findings events) (h' : Recorded bodies others more) :
    Recorded bodies (findings ++ others) (events ++ more) where
  remarks := by
    rw [List.map_append, ← h.remarks, ← h'.remarks]
    exact List.filterMap_append
  located := located_append.mpr ⟨h.located, h.closed.symm ▸ h'.located⟩
  closed := by rw [openBodies_append, h.closed, h'.closed]

/-- One remark records one finding. -/
theorem remark (problem : Problem) :
    Recorded bodies [⟨problem, bodies⟩] [.remark (Finding.diagnostic ⟨problem, bodies⟩)] where
  remarks := rfl
  located := by
    refine ⟨fun d hd => ?_, trivial⟩
    cases hd
    rfl
  closed := rfl

/-- Entering a body and leaving it again is no remark. -/
theorem body {name : String} (h : Recorded (name :: bodies) findings events) :
    Recorded bodies findings ([.enter name] ++ events ++ [.leave]) where
  remarks := by
    rw [Oberon.remarks, List.filterMap_append, List.filterMap_append]
    exact (List.append_nil _).trans h.remarks
  located := by
    have henter : Located bodies [.enter name] := ⟨nofun, trivial⟩
    have hleave : Located (name :: bodies) [.leave] := ⟨nofun, trivial⟩
    rw [located_append, located_append, openBodies_append]
    exact ⟨⟨henter, h.located⟩, h.closed.symm ▸ hleave⟩
  closed := by
    rw [openBodies_append, openBodies_append]
    exact congrArg (openBodies · [.leave]) h.closed

end Recorded

/-! ## Scopes -/

/-- Bindings in the innermost scope do not touch the others. -/
theorem Scopes.pop?_bind {α : Type} (s : Scopes α) (name : String) (value : α) :
    (s.bind name value).pop? = s.pop? := by
  obtain ⟨inner, outermost⟩ := s
  cases inner <;> rfl

/-- Hidden names belong to the innermost scope and go with it. -/
theorem Constants.pop?_hideAll (constants : Constants) (names : List String) :
    (constants.hideAll names).pop? = constants.pop? := by
  unfold hideAll
  induction names generalizing constants with
  | nil => rfl
  | cons name names ih => exact (ih _).trans (Scopes.pop?_bind constants name none)

/-- An insertion does not touch the outer scopes. -/
theorem SymbolTable.pop?_of_insert {table table' : SymbolTable} {name : String} {symbol : Symbol}
    (h : table.insert name symbol = .ok table') : table'.pop? = table.pop? := by
  unfold insert at h
  split at h
  · cases h
  · split at h
    · cases h
    · cases h
      exact Scopes.pop?_bind table name symbol

namespace Checker

/-! ## Outcomes -/

structure Frame where
  path : List String
  role : Role
  declaring : Option SymbolKind
  evaluatorPath : List String
  /-- The symbols of the scopes around the innermost one, if there are any. -/
  symbols : Option SymbolTable
  /-- The constants of the scopes around the innermost one, if there are any. -/
  constants : Option Constants

def frame (c : Checker) : Frame :=
  ⟨c.path, c.role, c.declaring, c.evaluator.path, c.symbols.pop?, c.evaluator.constants.pop?⟩

/-- A visit that ends in the given environment, with the given findings and pointer targets left
for later. -/
structure Outcome (c : Checker) (env : Environment) (findings : List Finding)
    (targets : List Qualident)
    (after : Checker) : Prop where
  environment : after.environment = env
  frame : after.frame = c.frame
  forwardPointers : after.forwardPointers = c.forwardPointers.map (· ++ targets)
  log : ∃ events, after.log = c.log ++ events ∧ Recorded c.path findings events

def Visits (visit : Visit) (c : Checker) (env : Environment) (findings : List Finding)
    (targets : List Qualident) : Prop :=
  ∃ after, visit c = .ok after ∧ Outcome c env findings targets after

variable {c c' c'' : Checker} {env env' : Environment} {findings others : List Finding}
  {targets more : List Qualident} {visit next : Visit}

theorem Outcome.path (h : Outcome c env findings targets c') : c'.path = c.path :=
  congrArg Frame.path h.frame

/-- Whether targets are postponed does not change during a visit. -/
theorem Outcome.isSome_forwardPointers (h : Outcome c env findings targets c') :
    c'.forwardPointers.isSome = c.forwardPointers.isSome := by
  rw [h.forwardPointers, Option.isSome_map]

/-- Nothing has been done. -/
theorem Outcome.refl (c : Checker) : Outcome c c.environment [] [] c where
  environment := rfl
  frame := rfl
  forwardPointers := by cases c.forwardPointers <;> simp
  log := ⟨[], (List.append_nil _).symm, .nil⟩

/-- Outcomes compose; findings and targets add up. -/
theorem Outcome.trans (h : Outcome c env findings targets c')
    (h' : Outcome c' env' others more c'') :
    Outcome c env' (findings ++ others) (targets ++ more) c'' where
  environment := h'.environment
  frame := h'.frame.trans h.frame
  forwardPointers := by
    rw [h'.forwardPointers, h.forwardPointers]
    cases c.forwardPointers <;> simp
  log := by
    obtain ⟨events, hlog, hrecorded⟩ := h.log
    obtain ⟨events', hlog', hrecorded'⟩ := h'.log
    rw [h.path] at hrecorded'
    refine ⟨events ++ events', ?_, hrecorded.append hrecorded'⟩
    rw [hlog', hlog, List.append_assoc]

/-- A change that cannot fail is a visit if its outcome is known. -/
theorem Visits.of_outcome {f : Checker → Checker} (h : Outcome c env findings targets (f c)) :
    Visits (fun c => .ok (f c)) c env findings targets :=
  ⟨f c, rfl, h⟩

/-- A visit that goes on behind another one. -/
theorem Visits.bind (h : Visits visit c env findings targets)
    (hnext : ∀ after, Outcome c env findings targets after → Visits next after env' others more) :
    Visits (fun c => visit c >>= next) c env' (findings ++ others) (targets ++ more) := by
  obtain ⟨after, hvisit, houtcome⟩ := h
  obtain ⟨last, hlast, houtcome'⟩ := hnext after houtcome
  refine ⟨last, ?_, houtcome.trans houtcome'⟩
  show visit c >>= next = _
  rw [hvisit]
  exact hlast

/-- A visit behind a change that cannot fail. -/
theorem Visits.behind {f : Checker → Checker} (h : Outcome c env findings targets (f c))
    (hnext : Visits next (f c) env' others more) :
    Visits (fun c => next (f c)) c env' (findings ++ others) (targets ++ more) := by
  obtain ⟨after, hvisit, houtcome⟩ := hnext
  exact ⟨after, hvisit, h.trans houtcome⟩

/-- The role is put back behind a visit. -/
theorem Visits.within {role : Role} (h : Visits visit { c with role } env findings targets) :
    Visits (within role visit) c env findings targets := by
  obtain ⟨after, hvisit, houtcome⟩ := h
  refine ⟨{ after with role := c.role }, ?_, ?_⟩
  · unfold Checker.within
    rw [hvisit]
    rfl
  · have hframe : { after.frame with role := c.role } = c.frame := by
      rw [houtcome.frame]
      rfl
    exact ⟨houtcome.environment, hframe, houtcome.forwardPointers, houtcome.log⟩

theorem Visits.declaringAs {kind : SymbolKind}
    (h : Visits visit { c with declaring := some kind } env findings targets) :
    Visits (declaringAs kind visit) c env findings targets := by
  obtain ⟨after, hvisit, houtcome⟩ := h
  refine ⟨{ after with declaring := c.declaring }, ?_, ?_⟩
  · unfold Checker.declaringAs
    rw [hvisit]
    rfl
  · have hframe : { after.frame with declaring := c.declaring } = c.frame := by
      rw [houtcome.frame]
      rfl
    exact ⟨houtcome.environment, hframe, houtcome.forwardPointers, houtcome.log⟩

/-- The checker is where it was, and the same pointer targets are pending. -/
structure Resumes (c after : Checker) : Prop where
  frame : after.frame = c.frame
  forwardPointers : after.forwardPointers = c.forwardPointers

/-- Without postponed targets the checker is where it was, up to its events. -/
theorem Outcome.resumes (h : Outcome c env findings [] c') : Resumes c c' where
  frame := h.frame
  forwardPointers := h.forwardPointers.trans (Outcome.refl c).forwardPointers.symm

/-- Items that are visited one by one are checked one by one. -/
theorem visits_each {α : Type} {visit : α → Visit}
    {check : Environment → α → Environment × List Finding}
    (h : ∀ x after, Resumes c after →
      Visits (visit x) after (check after.environment x).1 (check after.environment x).2 [])
    (items : List α) :
    Visits (each visit items) c (Environment.sequence check c.environment items).1
      (Environment.sequence check c.environment items).2 [] := by
  induction items generalizing c with
  | nil => exact ⟨c, rfl, .refl c⟩
  | cons item items ih =>
    refine (h item c ⟨rfl, rfl⟩).bind fun after houtcome => ?_
    have hresumes := houtcome.resumes
    have hrest := ih fun x later hlater =>
      h x later ⟨hlater.frame.trans hresumes.frame,
        hlater.forwardPointers.trans hresumes.forwardPointers⟩
    rw [houtcome.environment] at hrest
    exact hrest

/-- Visits that declare nothing add up their findings. -/
theorem visits_each_still {α : Type} {visit : α → Visit} (found : Environment → α → List Finding)
    (h : ∀ x after, Resumes c after →
      Visits (visit x) after after.environment (found after.environment x) [])
    (items : List α) :
    Visits (each visit items) c c.environment (items.flatMap (found c.environment)) [] := by
  have hsequence : Environment.sequence (fun env x => (env, found env x)) c.environment items =
      (c.environment, items.flatMap (found c.environment)) := by
    induction items with
    | nil => rfl
    | cons item items ih =>
      simp only [Environment.sequence, ih]
      rfl
  have hitems : Visits (each visit items) c
      (Environment.sequence (fun env x => (env, found env x)) c.environment items).1
      (Environment.sequence (fun env x => (env, found env x)) c.environment items).2 [] :=
    visits_each h items
  rw [hsequence] at hitems
  exact hitems

/-! ## Names -/

/-- A report is one finding at the point of the checker. -/
theorem outcome_report (c : Checker) (problem : Problem) :
    Outcome c c.environment (c.environment.report [problem]) [] (c.report problem) where
  environment := rfl
  frame := rfl
  forwardPointers := (Outcome.refl c).forwardPointers
  log := ⟨_, rfl, .remark problem⟩

/-- Several problems are reported in the order of the list. -/
theorem outcome_reportAll (c : Checker) (problems : List Problem) :
    Outcome c c.environment (c.environment.report problems) [] (c.reportAll problems) := by
  induction problems generalizing c with
  | nil => exact .refl c
  | cons problem problems ih => exact (outcome_report c problem).trans (ih (c.report problem))

/-- Reports are added to the log and change nothing else. -/
theorem reportAll_eq (c : Checker) (problems : List Problem) :
    c.reportAll problems =
      { c with log := c.log ++ problems.map fun p =>
        .remark (Finding.diagnostic ⟨p, c.path⟩) } := by
  induction problems generalizing c with
  | nil => simp [reportAll]
  | cons problem problems ih =>
    refine (ih (c.report problem)).trans ?_
    simp [report]

/-- Resolving a name reports its problem. -/
theorem outcome_resolve (c : Checker) (q : Qualident) :
    Outcome c c.environment (c.environment.report (c.environment.referenceProblems c.role [q])) []
      (c.resolve q) := by
  unfold resolve Environment.referenceProblems
  cases hresolved : c.environment.resolve c.role q with
  | known =>
    simp only [hresolved, List.filterMap_cons, List.filterMap_nil, Resolution.problem?]
    exact .refl c
  | unknownValue =>
    simp only [hresolved, List.filterMap_cons, List.filterMap_nil, Resolution.problem?]
    have h := Outcome.refl c
    exact ⟨rfl, rfl, h.forwardPointers, h.log⟩
  | broken problem =>
    simp only [hresolved, List.filterMap_cons, List.filterMap_nil, Resolution.problem?]
    have h := outcome_report c problem
    exact ⟨rfl, rfl, h.forwardPointers, h.log⟩

/-- Several names are resolved one after the other. -/
theorem outcome_references (c : Checker) (names : List Qualident) :
    Outcome c c.environment (c.environment.report (c.environment.referenceProblems c.role names)) []
      (names.foldl resolve c) := by
  induction names generalizing c with
  | nil => exact .refl c
  | cons q names ih =>
    have hfirst := outcome_resolve c q
    have hrest := ih (c.resolve q)
    have hrole : (c.resolve q).role = c.role := congrArg Frame.role hfirst.frame
    rw [hfirst.environment, hrole] at hrest
    have hproblems : c.environment.referenceProblems c.role (q :: names) =
        c.environment.referenceProblems c.role [q] ++
          c.environment.referenceProblems c.role names :=
      List.filterMap_append (l := [q])
    rw [hproblems, Environment.report, List.map_append]
    exact hfirst.trans hrest

/-- Names taint the checker unless all of them denote what they should. -/
theorem tainted_references (c : Checker) (names : List Qualident) :
    (names.foldl resolve c).tainted =
      (c.tainted || !names.all fun q => c.environment.resolve c.role q = .known) := by
  induction names generalizing c with
  | nil => exact (Bool.or_false _).symm
  | cons q names ih =>
    have hfirst := outcome_resolve c q
    have hrole : (c.resolve q).role = c.role := congrArg Frame.role hfirst.frame
    have htainted : (c.resolve q).tainted =
        (c.tainted || !decide (c.environment.resolve c.role q = .known)) := by
      unfold resolve
      cases c.environment.resolve c.role q <;> simp
    rw [List.foldl_cons, ih, hfirst.environment, hrole, htainted, List.all_cons, Bool.not_and,
      Bool.or_assoc]

/-- Names are looked up in the environment in front of them. -/
theorem visits_references (role : Role) (names : List Qualident) (c : Checker) :
    Visits (within role (references names)) c c.environment
      (c.environment.report (c.environment.referenceProblems role names)) [] :=
  Visits.within (.of_outcome (outcome_references { c with role } names))

section Declare

variable {name : String} {symbol : Symbol}

def binding (kind : SymbolKind) : Option (Option Value) :=
  if hidesConstants kind then some none else none

/-- A name that can be declared is bound, with a report on its mark. -/
theorem outcome_declared {symbols : SymbolTable} (h : c.symbols.insert name symbol = .ok symbols)
    (binding : Option (Option Value)) :
    Outcome c (c.environment.declare name symbol binding).1
      (c.environment.declare name symbol binding).2 []
      { c.reportAll (c.environment.exportProblems name symbol.exported) with
        symbols
        evaluator := { c.evaluator with constants :=
          match binding with
          | some value => c.evaluator.constants.bind name value
          | none => c.evaluator.constants } } := by
  have hreport := outcome_reportAll c (c.environment.exportProblems name symbol.exported)
  have hsymbols : c.environment.symbols.insert name symbol = .ok symbols := h
  rw [reportAll_eq] at hreport ⊢
  unfold Environment.declare
  simp only [hsymbols]
  refine ⟨rfl, ?_, hreport.forwardPointers, hreport.log⟩
  -- a new binding is in the innermost scope, so the scopes around it stay
  have hpop := SymbolTable.pop?_of_insert h
  cases binding with
  | none => simp only [frame, hpop]
  | some value => simp only [frame, hpop, Scopes.pop?_bind]

/-- A name that cannot be declared is reported and nothing else happens. -/
theorem outcome_refused {error : SymbolError} (h : c.symbols.insert name symbol = .error error)
    (binding : Option (Option Value)) :
    Outcome c (c.environment.declare name symbol binding).1
      (c.environment.declare name symbol binding).2 []
      (c.declare name symbol).1 ∧ (c.declare name symbol).2 = false := by
  have hreport := outcome_reportAll c (c.environment.exportProblems name symbol.exported)
  have hsymbols : c.environment.symbols.insert name symbol = .error error := h
  unfold declare Environment.declare
  rw [reportAll_eq] at hreport ⊢
  simp only [h, hsymbols, Environment.report, List.map_append]
  cases error with
  | alreadyDefined => exact ⟨hreport.trans (outcome_report _ _), rfl⟩
  | invalidIdentifier => exact ⟨hreport.trans (outcome_report _ _), rfl⟩
  | underflow => exact ⟨hreport.trans (outcome_report _ _), rfl⟩

/-- A declaration that the symbol table takes reports on the export mark only. -/
theorem declare_of_insert {symbols : SymbolTable} (h : c.symbols.insert name symbol = .ok symbols) :
    c.declare name symbol =
      ({ c.reportAll (c.environment.exportProblems name symbol.exported) with
        symbols
        evaluator :=
          if hidesConstants symbol.kind then c.evaluator.hide name else c.evaluator }, true) := by
  rw [declare, reportAll_eq]
  simp only [h]

/-- A declaration by the checker is one in its environment. -/
theorem outcome_declare (c : Checker) (name : String) (symbol : Symbol) :
    Outcome c (c.environment.declare name symbol (binding symbol.kind)).1
      (c.environment.declare name symbol (binding symbol.kind)).2 [] (c.declare name symbol).1 := by
  cases hinsert : c.symbols.insert name symbol with
  | error error => exact (outcome_refused hinsert _).1
  | ok symbols =>
    have hdeclared := outcome_declared hinsert (binding symbol.kind)
    rw [declare_of_insert hinsert]
    unfold binding at hdeclared ⊢
    by_cases hkind : hidesConstants symbol.kind = true
    · simp only [hkind, if_true] at hdeclared ⊢
      exact hdeclared
    · simp only [hkind] at hdeclared ⊢
      exact hdeclared

end Declare

/-- A defining name declares what the construct around it declares. -/
theorem visits_definingName {kind : SymbolKind} (name : IdentDef) (h : c.declaring = some kind)
    (hkind : hidesConstants kind = true) :
    Visits (definingName name) c (c.environment.declareOther kind name).1
      (c.environment.declareOther kind name).2 [] := by
  have houtcome := outcome_declare c name.name ⟨kind, name.exported⟩
  rw [binding, if_pos hkind] at houtcome
  refine ⟨_, ?_, houtcome⟩
  rw [definingName, h]

/-! ## Constant expressions -/

/-- Names that resolve to known things give no problems. -/
theorem referenceProblems_of_known {env : Environment} {role : Role} {names : List Qualident}
    (h : (names.all fun q => env.resolve role q = .known) = true) :
    env.referenceProblems role names = [] := by
  refine List.filterMap_eq_nil_iff.mpr fun q hq => ?_
  have hknown := List.all_eq_true.mp h q hq
  rw [of_decide_eq_true hknown]
  rfl

/-- The value of a constant expression and its findings, as in the environment. -/
theorem constantValue_eq (e : Expression) (c : Checker) :
    ∃ after, constantValue e c = .ok (after, (c.environment.constantValue e).2) ∧
      Outcome c c.environment (c.environment.report (c.environment.constantValue e).1)
        [] after := by
  let start : Checker := { c with role := .constant, tainted := false }
  obtain ⟨named, hnamed, houtcome⟩ :=
    visits_references .constant e.names { c with tainted := false }
  have hnames : Outcome c c.environment
      (c.environment.report (c.environment.referenceProblems .constant e.names)) [] named :=
    ⟨houtcome.environment, houtcome.frame, houtcome.forwardPointers, houtcome.log⟩
  -- the flag says what the environment finds out about the names
  have htainted : named.tainted = !e.names.all fun q =>
      c.environment.resolve .constant q = .known := by
    cases hnamed
    exact tainted_references start e.names
  unfold constantValue Environment.constantValue
  rw [hnamed]
  by_cases hknown : (e.names.all fun q => c.environment.resolve .constant q = .known) = true
  · have hclean : ¬ named.tainted = true := by simp [htainted, hknown]
    have hevaluate : named.evaluator.evaluate e =
        (c.environment.constants.evaluate e, { named.evaluator with stack := [] }) := by
      rw [← hnames.environment]
      rfl
    -- names that are known leave no problems, so only the evaluation can fail
    rw [referenceProblems_of_known hknown] at hnames
    have hevaluated : Outcome c c.environment [] []
        { named with evaluator := { named.evaluator with stack := [] } } :=
      ⟨hnames.environment, hnames.frame, hnames.forwardPointers, hnames.log⟩
    rw [if_pos hknown]
    show ∃ after, (if named.tainted = true then _ else _) = _ ∧ _
    rw [if_neg hclean, hevaluate]
    cases c.environment.constants.evaluate e with
    | ok value => exact ⟨_, rfl, hevaluated⟩
    | error error =>
      have hreport :=
        outcome_report { named with evaluator := { named.evaluator with stack := [] } }
        (.invalidConstant error)
      rw [hevaluated.environment] at hreport
      exact ⟨_, rfl, hevaluated.trans hreport⟩
  · have htaint : named.tainted = true := by simp [htainted, hknown]
    rw [if_neg hknown]
    refine ⟨named, ?_, hnames⟩
    show (if named.tainted = true then _ else _) = _
    rw [if_pos htaint]
    rfl

/-- A constant is bound, and its value is entered or hidden in the evaluator. -/
theorem outcome_declareConstant (c : Checker) (name : IdentDef) (value : Option Value) :
    Outcome c (c.environment.declareConstant name value).1
      (c.environment.declareConstant name value).2 []
      (c.declareConstant name value) := by
  unfold declareConstant Environment.declareConstant
  cases hinsert : c.symbols.insert name.name ⟨.constant, name.exported⟩ with
  | error error =>
    obtain ⟨hrefused, hfalse⟩ := outcome_refused hinsert (some value)
    generalize c.declare name.name ⟨.constant, name.exported⟩ = declared at hrefused hfalse ⊢
    obtain ⟨after, inserted⟩ := declared
    cases hfalse
    exact hrefused
  | ok symbols =>
    have hdeclared := outcome_declared hinsert (some value)
    rw [declare_of_insert hinsert]
    cases value <;> exact hdeclared

/-- A constant is visited as it is checked. -/
theorem visits_constant (d : ConstDeclaration) (c : Checker) :
    Visits (constant d) c (c.environment.checkConstant d).1
      (c.environment.checkConstant d).2 [] := by
  obtain ⟨valued, hvalued, houtcome⟩ := constantValue_eq d.value c
  have hdeclared := outcome_declareConstant valued d.name (c.environment.constantValue d.value).2
  rw [houtcome.environment] at hdeclared
  refine ⟨_, ?_, houtcome.trans hdeclared⟩
  rw [constant, hvalued]
  rfl

/-- A length is refused if it is no positive integer. -/
theorem outcome_checkLength (c : Checker) (value : Option Value) :
    Outcome c c.environment
      (c.environment.report
        (match value with
        | none => []
        | some (.integer n) => if 0 < n.toInt then [] else [.invalidLength (.integer n)]
        | some value => [.invalidLength value])) [] (c.checkLength value) := by
  match value with
  | none => exact .refl c
  | some (.integer n) =>
    by_cases hpositive : 0 < n.toInt
    · simp only [checkLength, if_pos hpositive]
      exact .refl c
    · simp only [checkLength, if_neg hpositive]
      exact outcome_report c _
  | some (.real _) => exact outcome_report c _
  | some (.boolean _) => exact outcome_report c _
  | some (.string _) => exact outcome_report c _

/-- A length is visited as it is checked. -/
theorem visits_length (e : Expression) (c : Checker) :
    Visits (length e) c c.environment
      (c.environment.report (c.environment.lengthProblems e)) [] := by
  obtain ⟨valued, hvalued, houtcome⟩ := constantValue_eq e c
  have hchecked := outcome_checkLength valued (c.environment.constantValue e).2
  rw [houtcome.environment] at hchecked
  rw [Environment.lengthProblems, Environment.report, List.map_append]
  refine ⟨_, ?_, houtcome.trans hchecked⟩
  rw [length, hvalued]
  rfl

/-- The lengths of an array are checked one by one. -/
theorem visits_lengths (lengths : List Expression) (c : Checker) :
    Visits (each length lengths) c c.environment
      (c.environment.report (lengths.flatMap c.environment.lengthProblems)) [] := by
  have hlengths := visits_each_still (fun env e => env.report (env.lengthProblems e))
    (fun e after _ => visits_length e after) lengths (c := c)
  rw [Environment.report, List.map_flatMap]
  exact hlengths

/-! ## Parameters -/

/-- A section binds its names and then looks up their type. -/
theorem visits_parameterSection (s : ParameterSection) (c : Checker) :
    Visits (parameterSection s) c (c.environment.checkParameterSection s).1
      (c.environment.checkParameterSection s).2 [] := by
  have hparameter (name : String) (c : Checker) : Visits (parameter name) c
      (c.environment.declareParameter name).1 (c.environment.declareParameter name).2 [] :=
    .of_outcome (outcome_declare c name ⟨.parameter, false⟩)
  refine (visits_each (fun name after _ => hparameter name after) s.names).bind
    fun after houtcome => ?_
  have htype := visits_references .type [s.type.name] after
  rw [houtcome.environment] at htype
  exact htype

/-- Formal parameters are sections and a result type. -/
theorem visits_parameters (p : FormalParameters) (c : Checker) :
    Visits (parameters p) c (c.environment.checkParameters p).1
      (c.environment.checkParameters p).2 [] := by
  refine (visits_each (fun s after _ => visits_parameterSection s after) p.sections).bind
    fun after houtcome => ?_
  have hresult := visits_references .type p.result.toList after
  rw [houtcome.environment] at hresult
  exact hresult

theorem visits_optionalParameters (p : Option FormalParameters) (c : Checker) :
    Visits (optionalParameters p) c
      (Environment.sequence Environment.checkParameters c.environment p.toList).1
      (Environment.sequence Environment.checkParameters c.environment p.toList).2 [] :=
  visits_each (fun p after _ => visits_parameters p after) p.toList

/-! ## Types -/

/-- Dropping a scope succeeds wherever there is an outer one. -/
theorem dropScope_eq {outer : SymbolTable} (h : c.symbols.pop? = some outer) :
    dropScope c = .ok { c with symbols := outer } := by
  rw [dropScope, SymbolTable.drop, h]
  rfl

/-- A scope that is entered for a visit is left at its end, with the scopes around it as they
were. -/
theorem Visits.inScope (h : Visits visit { c with symbols := c.symbols.push } env findings targets)
    (hconstants : env.constants = c.evaluator.constants) (himports : env.imports = c.imports) :
    Visits (inScope visit) c c.environment findings targets := by
  obtain ⟨after, hvisit, houtcome⟩ := h
  have hpop : after.symbols.pop? = some c.symbols := congrArg Frame.symbols houtcome.frame
  refine ⟨{ after with symbols := c.symbols }, ?_, ?_⟩
  · rw [Checker.inScope, hvisit]
    exact dropScope_eq hpop
  · have hframe : { after.frame with symbols := c.symbols.pop? } = c.frame := by
      rw [houtcome.frame]
      rfl
    refine ⟨?_, hframe, houtcome.forwardPointers, houtcome.log⟩
    have hafter := houtcome.environment
    subst hafter
    have hpath : after.path = c.path := houtcome.path
    simp only [environment] at hconstants himports ⊢
    rw [hconstants, himports, hpath]

/-- The parameters of a procedure type live in a scope of their own, which is dropped again. -/
theorem visits_procedureType (p : Option FormalParameters) (c : Checker) :
    Visits (type (.procedure p)) c c.environment
      (TypeExpr.check c.environment c.forwardPointers.isSome (.procedure p)) [] := by
  rw [type, TypeExpr.check]
  have hkeeps :=
    Environment.keeps_declareParameter.parameters.sequence c.environment.enterProcedureType
    p.toList
  refine Visits.inScope (visits_optionalParameters p _) ?_ ?_
  · exact congrArg Prod.fst hkeeps
  · exact congrArg Prod.snd hkeeps

/-- The target of a pointer is looked up at once or postponed to the end of the type section. -/
theorem visits_pointer_named (q : Qualident) (c : Checker) :
    Visits (type (.pointer (.named q))) c c.environment
      (TypeExpr.check c.environment c.forwardPointers.isSome (.pointer (.named q)))
      (TypeExpr.forwardTargets c.environment (.pointer (.named q))) := by
  rw [Visits, type, namedTarget, TypeExpr.check, TypeExpr.forwardTargets]
  obtain ⟨after, hvisit, houtcome⟩ := visits_references .type [q] c
  have hpointers := houtcome.forwardPointers
  cases hpending : c.forwardPointers with
  | none =>
    -- outside of a type section nothing is postponed
    rw [hpending] at hpointers
    refine ⟨after, hvisit, houtcome.environment, houtcome.frame, ?_, houtcome.log⟩
    rw [hpointers, hpending]
    rfl
  | some pending =>
    by_cases hforward : c.environment.isForward q = true
    · simp only [hforward, if_true]
      refine ⟨_, rfl, rfl, rfl, ?_, (Outcome.refl c).log⟩
      rw [hpending]
      rfl
    · simp only [hforward]
      exact ⟨after, hvisit, houtcome⟩

/-- A target that is not a name is visited like any type. -/
theorem type_pointer {target : TypeExpr} (h : ∀ q, target ≠ .named q) :
    type (.pointer target) = within .type (type target) ∧
      (∀ env forward, TypeExpr.check env forward (.pointer target) = target.check env forward) ∧
      ∀ env, TypeExpr.forwardTargets env (.pointer target) = target.forwardTargets env := by
  refine ⟨?_, fun env forward => ?_, fun env => ?_⟩
  · rw [type]
    exact h
  · rw [TypeExpr.check]
    exact h
  · rw [TypeExpr.forwardTargets]
    exact h

mutual

-- The induction follows the type; the parts are visited where names denote types.
theorem visits_type (t : TypeExpr) (c : Checker) :
    Visits (type t) c c.environment (t.check c.environment c.forwardPointers.isSome)
      (t.forwardTargets c.environment) := by
  match t with
  | .named q =>
    rw [type, TypeExpr.check, TypeExpr.forwardTargets]
    exact visits_references .type [q] c
  | .array lengths element =>
    rw [type, TypeExpr.check, TypeExpr.forwardTargets]
    refine (visits_lengths lengths c).bind fun after houtcome => Visits.within ?_
    -- the type of the elements is visited where the lengths have left the checker
    have helement : Visits (type element) { after with role := .type } after.environment
        (element.check after.environment after.forwardPointers.isSome)
        (element.forwardTargets after.environment) := visits_type element _
    rw [houtcome.environment, houtcome.isSome_forwardPointers] at helement
    exact helement
  | .record base fields =>
    rw [type, TypeExpr.check, TypeExpr.forwardTargets, List.append_assoc]
    refine (visits_references .type base.toList c).bind fun after houtcome => ?_
    have hreport := outcome_reportAll after (fieldNameProblems fields)
    have hfields := visits_fieldLists fields (after.reportAll (fieldNameProblems fields))
    rw [hreport.environment, hreport.isSome_forwardPointers, houtcome.environment,
      houtcome.isSome_forwardPointers] at hfields
    rw [houtcome.environment] at hreport
    exact Visits.behind (f := (·.reportAll (fieldNameProblems fields))) hreport hfields
  | .pointer target =>
    by_cases hnamed : ∃ q, target = .named q
    · obtain ⟨q, rfl⟩ := hnamed
      exact visits_pointer_named q c
    · obtain ⟨hvisit, hcheck, htargets⟩ := type_pointer fun q hq => hnamed ⟨q, hq⟩
      rw [hvisit, hcheck, htargets]
      exact Visits.within (visits_type target { c with role := .type })
  | .procedure p =>
    rw [TypeExpr.forwardTargets]
    exact visits_procedureType p c

/-- In a field list only the type has findings; its names are compared in the whole record. -/
theorem visits_fieldList (fields : FieldList) (c : Checker) :
    Visits (fieldList fields) c c.environment (fields.check c.environment c.forwardPointers.isSome)
      (fields.forwardTargets c.environment) := by
  match fields with
  | ⟨_, fieldType⟩ =>
    rw [fieldList, FieldList.check, FieldList.forwardTargets]
    exact Visits.within (visits_type fieldType { c with role := .type })

theorem visits_fieldLists (fields : List FieldList) (c : Checker) :
    Visits (fieldLists fields) c c.environment
      (FieldList.checkAll c.environment c.forwardPointers.isSome fields)
      (FieldList.allForwardTargets c.environment fields) := by
  match fields with
  | [] =>
    rw [fieldLists, FieldList.checkAll, FieldList.allForwardTargets]
    exact ⟨c, rfl, .refl c⟩
  | first :: others =>
    rw [fieldLists, FieldList.checkAll, FieldList.allForwardTargets]
    refine (visits_fieldList first c).bind fun after houtcome => ?_
    have hrest := visits_fieldLists others after
    rw [houtcome.environment, houtcome.isSome_forwardPointers] at hrest
    exact hrest

end

end Checker

end Oberon
