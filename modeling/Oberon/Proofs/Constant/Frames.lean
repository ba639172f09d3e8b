import Oberon.Constant.Evaluator
import Oberon.Proofs.Check.Rules
import Oberon.Proofs.Scopes

/-!
# What an evaluator leaves as it was

The effects of an evaluator, whatever it is asked for and in whatever state it is asked.  A node
changes only the names that it declares in the innermost scope, also when an error stops the
evaluation deep inside it.  What happens between entering a scope and leaving it is forgotten, as
long as scopes are entered and left in pairs.
-/

namespace Oberon

/-! ## Names that a node declares -/

def Node.declaredNames : Node → List String
  | .root m => m.declarations.identDefs.map IdentDef.name
  | .module m => m.declarations.identDefs.map IdentDef.name
  | .constDeclaration d => [d.name.name]
  | .typeDeclaration d => [d.name.name]
  | .variableDeclaration d => d.variableNames
  | .variableDeclarationList ds => ds.flatMap VariableDeclaration.variableNames
  | .procedureDeclaration p => [p.heading.name.name]
  | _ => []

namespace Evaluator

/-! ## Frames -/

/-- One state comes from another by bindings of some names in the innermost scope and by values
that are recorded behind the earlier ones. -/
structure Frame (names : List String) (before after : Evaluator) : Prop where
  path : after.path = before.path
  outer : after.constants.all.tail = before.constants.all.tail
  innermost : ∀ name ∉ names,
    after.constants.innermost.lookup name = before.constants.innermost.lookup name
  values : before.values <+: after.values

def left : Work Evaluator Evaluator → Evaluator
  | .ok ev => ev
  | .error (_, ev) => ev

variable {ev ev' ev'' : Evaluator} {names names' : List String}

namespace Frame

theorem refl (ev : Evaluator) : Frame names ev ev :=
  ⟨rfl, rfl, fun _ _ => rfl, List.prefix_refl _⟩

/-- Changes one after the other stay inside the same names. -/
theorem trans (h : Frame names ev ev') (h' : Frame names ev' ev'') : Frame names ev ev'' where
  path := h'.path.trans h.path
  outer := h'.outer.trans h.outer
  innermost name hname := (h'.innermost name hname).trans (h.innermost name hname)
  values := h.values.trans h'.values

/-- Fewer names may change than are allowed to. -/
theorem mono (h : Frame names ev ev') (hsub : names ⊆ names') : Frame names' ev ev' :=
  ⟨h.path, h.outer, fun name hname => h.innermost name fun hmem => hname (hsub hmem), h.values⟩

/-- A binding of one of the names is inside the frame. -/
theorem bind (ev : Evaluator) {name : String} (hname : name ∈ names) (value : Option Value) :
    Frame names ev { ev with constants := ev.constants.bind name value } where
  path := rfl
  outer := Scopes.tail_all_bind _ name value
  innermost _ hother := Scopes.lookup_innermost_bind _ value fun heq => hother (heq ▸ hname)
  values := List.prefix_refl _

theorem hideAll (ev : Evaluator) (hsub : names' ⊆ names) : Frame names ev (ev.hideAll names') := by
  induction names' generalizing ev with
  | nil => exact refl ev
  | cons name rest ih =>
    obtain ⟨hname, hrest⟩ := List.cons_subset.mp hsub
    exact (bind ev hname none).trans (ih (ev.hide name) hrest)

theorem record (ev : Evaluator) (name : String) (value : Value) :
    Frame names ev (ev.record name value) :=
  ⟨rfl, rfl, fun _ _ => rfl, List.prefix_append _ _⟩

theorem stack (ev : Evaluator) (stack : List Value) : Frame names ev { ev with stack } :=
  ⟨rfl, rfl, fun _ _ => rfl, List.prefix_refl _⟩

/-- Work that is followed by other work; a failure of the first leaves its own state. -/
theorem left_bind {work : Work Evaluator Evaluator} {next : Evaluator → Work Evaluator Evaluator}
    (hwork : Frame names ev (left work)) (hnext : ∀ ev, Frame names ev (left (next ev))) :
    Frame names ev (left (work >>= next)) := by
  cases work with
  | ok ev' => exact hwork.trans (hnext ev')
  | error failure => exact hwork

end Frame

/-- Leaving an entered scope forgets all that has been done inside it, but not the recorded
values. -/
theorem leave_of_frame_enter {name : String} (h : Frame names (ev.enter name) ev') :
    ev'.leave = { ev with stack := ev'.stack, values := ev'.values } := by
  have hpop : ev'.constants.pop? = some ev.constants :=
    Scopes.pop?_of_tail_all (h.outer.trans (Scopes.tail_all_push ev.constants))
  have hpath : ev'.path.tail = ev.path := congrArg List.tail h.path
  rw [leave, hpop, ← hpath]

/-! ## Declarations -/

/-- A constant changes the binding of its own name only. -/
theorem frame_constant (ev : Evaluator) (d : ConstDeclaration) (hname : d.name.name ∈ names) :
    Frame names ev (left (ev.constant d)) := by
  have hempty : Frame names ev { ev with stack := [] } := .stack ev []
  unfold constant evaluate
  cases ev.constants.evaluate d.value with
  | error error => exact hempty
  | ok value =>
    exact (hempty.trans (.bind _ hname (some value))).trans (.record _ d.name.name value)

/-- A constant section changes the bindings of its own names only. -/
theorem frame_constants (ds : List ConstDeclaration) (ev : Evaluator)
    (hnames : ∀ d ∈ ds, d.name.name ∈ names) : Frame names ev (left (ds.foldlM constant ev)) := by
  induction ds generalizing ev with
  | nil => exact .refl ev
  | cons d ds ih =>
    obtain ⟨hname, hrest⟩ := List.forall_mem_cons.mp hnames
    rw [List.foldlM_cons]
    exact (frame_constant ev d hname).left_bind fun ev => ih ev hrest

/-- The scope is left in every case, whether the body failed or not. -/
theorem left_leaveProcedure (work : Work Evaluator Evaluator) :
    left (leaveProcedure work) = (left work).leave := by
  cases work <;> rfl

/-- Behind a procedure only its name is bound that was not bound in front of it. -/
theorem leave_of_frame_enterProcedure {heading : ProcedureHeading}
    (h : Frame names (ev.enterProcedure heading) ev') :
    ev'.leave = { ev.hide heading.name.name with stack := ev'.stack, values := ev'.values } := by
  have hbody : Frame (heading.parameterNames ++ names)
      ((ev.hide heading.name.name).enter heading.name.name) ev' :=
    (Frame.hideAll _ (List.subset_append_left _ _)).trans (h.mono (List.subset_append_right _ _))
  exact leave_of_frame_enter hbody

/-- It makes no difference how the body ends. -/
theorem frame_leaveProcedure (ev : Evaluator) (heading : ProcedureHeading)
    {work : Work Evaluator Evaluator} (hname : heading.name.name ∈ names)
    (hwork : Frame names' (ev.enterProcedure heading) (left work)) :
    Frame names ev (left (leaveProcedure work)) := by
  rw [left_leaveProcedure, leave_of_frame_enterProcedure hwork]
  exact (Frame.bind ev hname none).trans ⟨rfl, rfl, fun _ _ => rfl, hwork.values⟩

mutual

/-- The declarations of one block change only the names that they declare. -/
theorem frame_declarations {names : List String} (d : Declarations) (ev : Evaluator)
    (hnames : d.identDefs.map IdentDef.name ⊆ names) :
    Frame names ev (left (declarations d ev)) := by
  match d with
  | ⟨constants, types, vars, procs⟩ =>
    rw [Declarations.map_name_identDefs, List.append_subset, List.append_subset,
      List.append_subset] at hnames
    obtain ⟨⟨⟨hconstants, htypes⟩, hvariables⟩, hprocs⟩ := hnames
    rw [declarations]
    refine (frame_constants constants ev fun d hd => hconstants (List.mem_map_of_mem hd)).left_bind
      fun ev => ?_
    have hhidden := (Frame.hideAll ev htypes).trans (.hideAll _ hvariables)
    exact hhidden.trans (frame_procedures procs _ fun p hp => hprocs (List.mem_map_of_mem hp))

/-- A procedure changes nothing outside but the binding of its own name. -/
theorem frame_procedure {names : List String} (p : ProcedureDeclaration) (ev : Evaluator)
    (hname : p.heading.name.name ∈ names) :
    Frame names ev (left (procedure p ev)) := by
  match p with
  | ⟨heading, decls, _, _⟩ =>
    rw [procedure]
    exact frame_leaveProcedure ev heading hname (frame_declarations decls _ (List.Subset.refl _))

theorem frame_procedures {names : List String} (ps : List ProcedureDeclaration) (ev : Evaluator)
    (hnames : ∀ p ∈ ps, p.heading.name.name ∈ names) :
    Frame names ev (left (procedures ps ev)) := by
  match ps with
  | [] =>
    rw [procedures]
    exact .refl ev
  | p :: ps =>
    obtain ⟨hname, hrest⟩ := List.forall_mem_cons.mp hnames
    rw [procedures]
    exact (frame_procedure p ev hname).left_bind fun ev => frame_procedures ps ev hrest

end

/-- Code that runs changes the stack and nothing else. -/
theorem frame_execute (ev : Evaluator) (code : List Instruction) :
    Frame names ev (left (ev.execute code)) := by
  unfold execute
  cases Machine.run ev.constants code ev.stack with
  | ok stack => exact .stack ev stack
  | error failure => exact .stack ev failure.2

/-- A node changes only what it declares. -/
theorem frame_evaluateNode (ev : Evaluator) (n : Node) :
    Frame n.declaredNames ev (left (ev.evaluateNode n)) := by
  cases n with
  | root m => exact frame_declarations m.declarations ev (List.Subset.refl _)
  | module m => exact frame_declarations m.declarations ev (List.Subset.refl _)
  | constDeclaration d => exact frame_constant ev d (List.mem_singleton_self _)
  | typeDeclaration d => exact .bind ev (List.mem_singleton_self _) none
  | variableDeclaration d => exact .hideAll ev (List.Subset.refl _)
  | variableDeclarationList ds => exact .hideAll ev (List.Subset.refl _)
  | procedureDeclaration p => exact frame_procedure p ev (List.mem_singleton_self _)
  | _ =>
    unfold evaluateNode
    exact frame_execute ev _

/-! ## Sequences of actions -/

inductive Action where
  | define (name : String) (value : Value)
  | hide (name : String)
  | enter (name : String)
  | leave
  | hideParameters (heading : ProcedureHeading)
  | evaluate (e : Expression)
  | visit (n : Node)

def Action.staysInside : Action → Bool
  | .enter _ => false
  | .leave => false
  | _ => true

def act (ev : Evaluator) : Action → Evaluator
  | .define name value => ev.define name value
  | .hide name => ev.hide name
  | .enter name => ev.enter name
  | .leave => ev.leave
  | .hideParameters heading => ev.hideAll heading.parameterNames
  | .evaluate e => (ev.evaluate e).2
  | .visit n => left (ev.evaluateNode n)

def actAll (ev : Evaluator) (actions : List Action) : Evaluator :=
  actions.foldl act ev

/-- Two lists of actions are done one behind the other. -/
theorem actAll_append (ev : Evaluator) (first second : List Action) :
    ev.actAll (first ++ second) = (ev.actAll first).actAll second :=
  List.foldl_append

/-- Scopes are entered and left in pairs. -/
inductive Balanced : List Action → Prop where
  | nil : Balanced []
  | inside {action : Action} {rest : List Action} (h : action.staysInside = true)
    (hrest : Balanced rest) :
    Balanced (action :: rest)
  | scope (name : String) {body rest : List Action} (hbody : Balanced body)
    (hrest : Balanced rest) :
    Balanced (.enter name :: (body ++ .leave :: rest))

/-- An action that neither enters nor leaves a scope keeps to the innermost one. -/
theorem exists_frame_act (ev : Evaluator) {action : Action} (h : action.staysInside = true) :
    ∃ names, Frame names ev (ev.act action) := by
  cases action with
  | define name value => exact ⟨[name], .bind ev (List.mem_singleton_self _) (some value)⟩
  | hide name => exact ⟨[name], .bind ev (List.mem_singleton_self _) none⟩
  | enter name => cases h
  | leave => cases h
  | hideParameters heading => exact ⟨heading.parameterNames, .hideAll ev (List.Subset.refl _)⟩
  | evaluate e => exact ⟨[], .stack ev []⟩
  | visit n => exact ⟨n.declaredNames, frame_evaluateNode ev n⟩

/-- There is a name on the path for every scope but the outermost. -/
def Aligned (ev : Evaluator) : Prop :=
  ev.path.length = ev.constants.level

/-- Each action keeps path and scopes in step. -/
theorem Aligned.act (h : ev.Aligned) (action : Action) : (ev.act action).Aligned := by
  unfold Aligned at h ⊢
  cases hinside : action.staysInside with
  | true =>
    obtain ⟨names, hframe⟩ := exists_frame_act ev hinside
    rw [hframe.path, h, Scopes.level_eq_of_tail_all hframe.outer]
  | false =>
    cases action with
    | enter name => exact congrArg (· + 1) h
    | leave =>
      show ev.leave.path.length = ev.leave.constants.level
      unfold leave
      split
      next constants hpop =>
        rw [Scopes.level_pop? hpop] at h
        rw [List.length_tail, h, Nat.add_sub_cancel]
      next => exact h
    | _ => cases hinside

/-- Path and scopes stay in step over any history. -/
theorem Aligned.actAll (h : ev.Aligned) (actions : List Action) : (ev.actAll actions).Aligned := by
  induction actions generalizing ev with
  | nil => exact h
  | cons action rest ih => exact ih (h.act action)

/-- Balanced actions keep to the innermost scope. -/
theorem Balanced.exists_frame {actions : List Action} (h : Balanced actions) (ev : Evaluator) :
    ∃ names, Frame names ev (ev.actAll actions) := by
  induction h generalizing ev with
  | nil => exact ⟨[], .refl ev⟩
  | @inside action rest haction _ ih =>
    obtain ⟨names, hframe⟩ := exists_frame_act ev haction
    obtain ⟨names', hrest⟩ := ih (ev.act action)
    exact ⟨names ++ names', (hframe.mono (List.subset_append_left _ _)).trans
      (hrest.mono (List.subset_append_right _ _))⟩
  | @scope name body rest _ _ ihbody ihrest =>
    obtain ⟨names, hbody⟩ := ihbody (ev.enter name)
    have hleave : Frame [] ev ((ev.enter name).actAll body).leave := by
      rw [leave_of_frame_enter hbody]
      exact ⟨rfl, rfl, fun _ _ => rfl, hbody.values⟩
    obtain ⟨names', hrest⟩ := ihrest ((ev.enter name).actAll body).leave
    refine ⟨names', ?_⟩
    have hall : ev.actAll (.enter name :: (body ++ .leave :: rest)) =
        ((ev.enter name).actAll body).leave.actAll rest :=
          actAll_append (ev.enter name) body (.leave :: rest)
    rw [hall]
    exact (hleave.mono (List.nil_subset _)).trans hrest

/-- What happens between entering and leaving a scope does not show outside. -/
theorem Balanced.scope_restores {actions : List Action} (h : Balanced actions) (ev : Evaluator)
    (name : String) :
    (ev.actAll (.enter name :: (actions ++ [.leave]))).constants = ev.constants ∧
      (ev.actAll (.enter name :: (actions ++ [.leave]))).path = ev.path := by
  obtain ⟨names, hframe⟩ := h.exists_frame (ev.enter name)
  have hall : ev.actAll (.enter name :: (actions ++ [.leave])) =
      ((ev.enter name).actAll actions).leave :=
    actAll_append (ev.enter name) actions [.leave]
  rw [hall, leave_of_frame_enter hframe]
  exact ⟨rfl, rfl⟩

/-- An evaluator changes only what is declared.  Whatever it has been asked for before, the path
has one element less than there are scopes.  A node, whether it succeeds or fails, keeps the path
and all scopes around the innermost one, binds only names that it declares there, and records
values behind the earlier ones.  An expression changes nothing and leaves an empty stack.
Balanced actions inside a scope of their own change no look-up. -/
theorem changes_only_declared_names :
    (∀ actions, (initial.actAll actions).path.length + 1 =
      (initial.actAll actions).constants.all.length) ∧
    (∀ ev n, Frame n.declaredNames ev (left (evaluateNode ev n))) ∧
    (∀ ev e, (evaluate ev e).2.constants = ev.constants ∧ (evaluate ev e).2.path = ev.path ∧
      (evaluate ev e).2.values = ev.values ∧ (evaluate ev e).2.stack = []) ∧
    ∀ ev name actions, Balanced actions →
      (actAll ev (.enter name :: (actions ++ [.leave]))).constants = ev.constants ∧
      (actAll ev (.enter name :: (actions ++ [.leave]))).path = ev.path ∧
      ∀ other, (actAll ev (.enter name :: (actions ++ [.leave]))).lookup other =
        ev.lookup other := by
  have haligned : initial.Aligned := rfl
  refine ⟨fun actions => ?_, frame_evaluateNode, fun ev e => ⟨rfl, rfl, rfl, rfl⟩,
    fun ev name actions hbalanced => ?_⟩
  · rw [Scopes.length_all, haligned.actAll actions]
  · obtain ⟨hconstants, hpath⟩ := hbalanced.scope_restores ev name
    refine ⟨hconstants, hpath, fun other => ?_⟩
    rw [lookup, hconstants, lookup]

def failingProcedure : ProcedureDeclaration where
  heading := ⟨⟨"P", false⟩, none⟩
  declarations := {
    constants := [⟨⟨"size", false⟩, ⟨none, ⟨.number (.integer 2), []⟩, []⟩⟩]
    types := []
    vars := []
    procedures := [{
      heading := ⟨⟨"Q", false⟩, none⟩
      declarations := {
        constants :=
          [⟨⟨"half", false⟩, ⟨none, ⟨.name ⟨none, "size"⟩, [⟨.div, .number (.integer 0)⟩]⟩, []⟩⟩]
        types := []
        vars := []
        procedures := [] }
      result := none
      endName := "Q" }] }
  result := none
  endName := "P"

/-- Actions that define a constant anew, stop inside two procedures, and hide the constant in a
scope. -/
def scopedActions : List Action :=
  [.define "size" (.integer 3), .visit (.procedureDeclaration failingProcedure), .enter "R",
    .hide "size", .leave]

theorem changes_only_declared_names_scopedActions :
    let before := initial.define "size" (.integer 8)
    let inside := before.actAll (.enter "M" :: scopedActions)
    let after := before.actAll (.enter "M" :: (scopedActions ++ [.leave]))
    Balanced scopedActions ∧
      (∃ failure, before.evaluateNode (.procedureDeclaration failingProcedure) = .error failure) ∧
      inside.path = ["M"] ∧ inside.lookup "size" = some (.integer 3) ∧
      inside.values = [("M.P.size", .integer 2)] ∧ after.path = [] ∧
      after.lookup "size" = some (.integer 8) := by
  have hbalanced : Balanced scopedActions :=
    .inside rfl (.inside rfl (.scope "R" (.inside rfl .nil) .nil))
  obtain ⟨-, -, -, hrestores⟩ := changes_only_declared_names
  obtain ⟨-, hpath, hlookup⟩ :=
    hrestores (initial.define "size" (.integer 8)) "M" scopedActions hbalanced
  exact ⟨hbalanced, ⟨_, rfl⟩, rfl, rfl, by decide +kernel, hpath, hlookup "size"⟩

end Evaluator

end Oberon
