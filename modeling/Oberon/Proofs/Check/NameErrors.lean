import Oberon.Proofs.Check.NameReports
import Oberon.Proofs.RoundTrip

/-!
# Name errors are reported once each

The remarks about names are told from all others by their wording, so the problems with names can
be counted among the remarks.  Main statement: a parsed module gives rise to one remark for every
use of an undeclared name, for every declaration of a name that its scope holds already, and for
every use of a module that is not imported.
-/

namespace Oberon

open Environment

/-! ## Wording -/

def OpensWith (letters : List Char) (s : String) : Prop :=
  ∃ c ∈ s.toList.head?, c ∈ letters

theorem OpensWith.append {letters : List Char} {s : String} (h : OpensWith letters s) (t : String) :
    OpensWith letters (s ++ t) := by
  obtain ⟨c, hc, hmem⟩ := h
  refine ⟨c, ?_, hmem⟩
  rw [String.toList_append, List.head?_append, Option.mem_def.mp hc]
  rfl

theorem getLast?_append {t : String} {c : Char} (h : c ∈ t.toList.getLast?) (s : String) :
    c ∈ (s ++ t).toList.getLast? := by
  rw [String.toList_append, List.getLast?_append, Option.mem_def.mp h]
  rfl

theorem suffix_append (s t : String) : t.toList <:+ (s ++ t).toList := by
  rw [String.toList_append]
  exact List.suffix_append _ _

namespace Problem

def otherInitials : List Char :=
  ['S', 'I', 'a', 'c', 'f', 'i', 'm', 'p', 't', 'v']

/-- The letters with which the wording of a problem can begin. -/
def initials : Problem → List Char
  | exportMark _ => ['e']
  | undeclared _ => ['u']
  | alreadyDeclared _ => ['\'']
  | notImported _ _ => ['\'']
  | _ => otherInitials

/-- Every wording begins with one of the letters of its problem. -/
theorem opensWith_initials (problem : Problem) : OpensWith problem.initials problem.message := by
  have hkind (kind : SymbolKind) : OpensWith otherInitials kind.text := by
    cases kind <;> simp [OpensWith, otherInitials, SymbolKind.text]
  have hbody (body : Body) : OpensWith otherInitials body.text := by
    cases body <;> simp [OpensWith, otherInitials, Body.text]
  -- the constant text in front of a message decides, or that of a kind or a body
  cases problem with
  | exportMark => exact .append (.append ⟨'e', by simp [initials]⟩ _) _
  | undeclared => exact .append (.append ⟨'u', by simp [initials]⟩ _) _
  | alreadyDeclared => exact .append (.append ⟨'\'', by simp [initials]⟩ _) _
  | notImported => exact .append (.append (.append (.append ⟨'\'', by simp [initials]⟩ _) _) _) _
  | invalidName error =>
    cases error with
    | alreadyDefined => exact .append (.append ⟨'S', by simp [initials, otherInitials]⟩ _) _
    | invalidIdentifier => exact .append (.append ⟨'I', by simp [initials, otherInitials]⟩ _) _
    | underflow => exact .append ⟨'S', by simp [initials, otherInitials]⟩ _
  | closedBy body => exact .append (.append (.append (.append (.append (hbody body) _) _) _) _) _
  | invalidConstant => exact .append ⟨'i', by simp [initials, otherInitials]⟩ _
  | unknownImported => exact .append (.append ⟨'v', by simp [initials, otherInitials]⟩ _) _
  | notType kind => exact .append (.append (.append (hkind kind) _) _) _
  | typeAsValue => exact .append (.append ⟨'t', by simp [initials, otherInitials]⟩ _) _
  | moduleAsValue => exact .append (.append ⟨'m', by simp [initials, otherInitials]⟩ _) _
  | notConstant kind => exact .append (.append (.append (hkind kind) _) _) _
  | unexpectedReturn => exact .append (.append ⟨'p', by simp [initials, otherInitials]⟩ _) _
  | missingReturn => exact .append (.append ⟨'p', by simp [initials, otherInitials]⟩ _) _
  | repeatedField => exact .append (.append ⟨'f', by simp [initials, otherInitials]⟩ _) _
  | invalidLength => exact .append ⟨'a', by simp [initials, otherInitials]⟩ _

theorem mem_initials_of_head? {problem : Problem} {c : Char}
    (h : problem.message.toList.head? = some c) :
    c ∈ problem.initials := by
  obtain ⟨initial, hinitial, hmem⟩ := problem.opensWith_initials
  exact Option.mem_unique hinitial h ▸ hmem

/-- Problems of one wording share a first letter. -/
theorem exists_initial_of_message_eq {first : Problem} (second : Problem)
    (h : first.message = second.message) :
    ∃ c ∈ first.initials, c ∈ second.initials := by
  obtain ⟨c, hc, hmem⟩ := second.opensWith_initials
  exact ⟨c, mem_initials_of_head? (h ▸ hc), hmem⟩

/-- The remarks that begin with a quotation mark are told apart by their ends. -/
theorem getLast?_alreadyDeclared (name : String) :
    'e' ∈ (alreadyDeclared name).message.toList.getLast? :=
  getLast?_append (by simp) _

/-- The remark about a missing import ends with its last word. -/
theorem getLast?_notImported (q : Qualident) (qualifier : String) :
    'd' ∈ (notImported q qualifier).message.toList.getLast? :=
  getLast?_append (by simp) _

/-- Only an undeclared name is reported in these words. -/
theorem message_eq_undeclared_iff {problem : Problem} {name : String} :
    problem.message = "undeclared identifier '" ++ name ++ "'" ↔ problem = .undeclared name := by
  refine ⟨fun h => ?_, fun h => h ▸ rfl⟩
  obtain ⟨c, hc, hundeclared⟩ := exists_initial_of_message_eq (undeclared name) h
  rw [List.mem_singleton.mp hundeclared] at hc
  cases problem with
  | undeclared other =>
    have hname : other = name := (String.append_right_inj _).mp ((String.append_left_inj _).mp h)
    rw [hname]
  | _ => simp [initials, otherInitials] at hc

/-- Only a second declaration is reported in these words. -/
theorem message_eq_alreadyDeclared_iff {problem : Problem} {name : String} :
    problem.message = "'" ++ name ++ "' is already declared in this scope" ↔
      problem = .alreadyDeclared name := by
  refine ⟨fun h => ?_, fun h => h ▸ rfl⟩
  have hlast : 'e' ∈ problem.message.toList.getLast? := h ▸ getLast?_alreadyDeclared name
  obtain ⟨c, hc, halready⟩ := exists_initial_of_message_eq (alreadyDeclared name) h
  rw [List.mem_singleton.mp halready] at hc
  cases problem with
  | alreadyDeclared other =>
    have hname : other = name := (String.append_right_inj _).mp ((String.append_left_inj _).mp h)
    rw [hname]
  | notImported q qualifier =>
    exact absurd (Option.mem_unique (getLast?_notImported q qualifier) hlast) (by decide)
  | _ => simp [initials, otherInitials] at hc

def isMissingImport : Problem → Bool
  | notImported _ _ => true
  | _ => false

/-- A missing import is told by how its remark begins and ends. -/
theorem isMissingImport_iff {problem : Problem} : problem.isMissingImport = true ↔
    problem.message.toList.head? = some '\'' ∧
      "', which is not imported".toList <:+ problem.message.toList := by
  constructor
  · intro h
    cases problem with
    | notImported q qualifier =>
      obtain ⟨c, hc, hmem⟩ := (notImported q qualifier).opensWith_initials
      rw [List.mem_singleton.mp hmem] at hc
      exact ⟨hc, suffix_append _ _⟩
    | _ => cases h
  · rintro ⟨hfirst, before, hend⟩
    have hlast : 'd' ∈ problem.message.toList.getLast? := by
      rw [← hend, List.getLast?_append]
      simp
    have hmem := mem_initials_of_head? hfirst
    cases problem with
    | alreadyDeclared other =>
      exact absurd (Option.mem_unique (getLast?_alreadyDeclared other) hlast) (by decide)
    | notImported q qualifier => rfl
    | _ => simp [initials, otherInitials] at hmem

end Problem

def Diagnostic.deniesImport (d : Diagnostic) : Bool :=
  d.message.toList.head? = some '\'' ∧ "', which is not imported".toList <:+ d.message.toList

/-! ## Selections -/

namespace Selection

def undeclared (name : String) : Selection where
  test problem := problem = .undeclared name
  isAboutName problem h := by
    rw [of_decide_eq_true h]
    rfl

def alreadyDeclared (name : String) : Selection where
  test problem := problem = .alreadyDeclared name
  isAboutName problem h := by
    rw [of_decide_eq_true h]
    rfl

def notImported : Selection where
  test := Problem.isMissingImport
  isAboutName problem h := by
    cases problem with
    | notImported => rfl
    | _ => cases h

variable (imports : List String)

/-- Undeclared names are counted by their remarks. -/
theorem findings_undeclared (name : String) (fs : List Finding) : (undeclared name).findings fs =
    (fs.map fun f => f.diagnostic.message).count ("undeclared identifier '" ++ name ++ "'") := by
  rw [findings, List.count, List.countP_map]
  refine List.countP_congr fun f _ => ?_
  simp only [Function.comp_apply, beq_iff_eq]
  exact decide_eq_true_iff.trans Problem.message_eq_undeclared_iff.symm

/-- Uses of an undeclared name are those that mean nothing. -/
theorem uses_undeclared (name : String) (us : List Use) : (undeclared name).uses imports us =
    us.countP fun u => u.name = ⟨none, name⟩ ∧ u.kind? = none := by
  refine List.countP_congr fun u _ => ?_
  rw [decide_eq_true_iff]
  obtain ⟨⟨qualifier, other⟩, here, later⟩ := u
  unfold Use.problem?
  cases qualifier with
  | some qualifier => by_cases h : qualifier ∈ imports <;> simp [h, undeclared]
  | none => 
    cases hkind : (Use.mk ⟨none, other⟩ here later).kind? <;> simp [undeclared]

theorem repeated_undeclared (name : String) (seen names : List String) :
    (undeclared name).repeated seen names = 0 :=
  List.countP_eq_zero.mpr fun other _ => by simp [undeclared]

/-- A name is repeated as often as it is declared, less one. -/
theorem repeated_alreadyDeclared (name : String) (names : List String) :
    (alreadyDeclared name).repeated [] names = names.count name - 1 := by
  have hcount : (alreadyDeclared name).repeated [] names = (repetitions [] names).count name := by
    refine List.countP_congr fun other _ => ?_
    simp [alreadyDeclared]
  rw [hcount, count_repetitions, if_neg nofun]

/-- Where repeated names are not selected, only uses count. -/
theorem blocks_eq_uses {sel : Selection} (h : ∀ names, sel.repeated [] names = 0)
    (bs : List Block) :
    sel.blocks imports bs = sel.uses imports (bs.flatMap Block.uses) := by
  rw [blocks_eq, funext h, List.map_const', List.sum_replicate, nsmul_zero, Nat.add_zero]

theorem findings_alreadyDeclared (name : String) (fs : List Finding) :
    (alreadyDeclared name).findings fs = (fs.map fun f => f.diagnostic.message).count
      ("'" ++ name ++ "' is already declared in this scope") := by
  rw [findings, List.count, List.countP_map]
  refine List.countP_congr fun f _ => ?_
  simp only [Function.comp_apply, beq_iff_eq]
  exact decide_eq_true_iff.trans Problem.message_eq_alreadyDeclared_iff.symm

theorem uses_alreadyDeclared (name : String) (us : List Use) :
    (alreadyDeclared name).uses imports us = 0 := by
  refine List.countP_eq_zero.mpr fun u _ => ?_
  unfold Use.problem?
  split <;> split <;> simp [alreadyDeclared]

/-- Missing imports are counted by their remarks. -/
theorem findings_notImported (fs : List Finding) :
    notImported.findings fs = (fs.map Finding.diagnostic).countP Diagnostic.deniesImport := by
  rw [findings, List.countP_map]
  refine List.countP_congr fun f _ => ?_
  exact Problem.isMissingImport_iff.trans decide_eq_true_iff.symm

/-- Uses of modules that are not imported are those with such a qualifier. -/
theorem uses_notImported (us : List Use) :
    notImported.uses imports us = us.countP fun u => u.name.qualifier.any (· ∉ imports) := by
  refine List.countP_congr fun u _ => ?_
  unfold Use.problem?
  cases u.name.qualifier with
  | some qualifier =>
    by_cases h : qualifier ∈ imports <;> simp [h, notImported, Problem.isMissingImport]
  | none => cases u.kind? <;> simp [notImported, Problem.isMissingImport]

theorem repeated_notImported (seen names : List String) : notImported.repeated seen names = 0 :=
  List.countP_eq_zero.mpr fun _ _ => Bool.false_ne_true

end Selection

/-- Every use of an undeclared name, every further declaration of a name in its scope and every
use of a module that is not imported is reported, and is reported once. -/
theorem Module.name_errors_reported_once (source : String) (m : Module)
    (h : Source.module source = .ok m) :
    (∀ name, (m.check.map Diagnostic.message).count ("undeclared identifier '" ++ name ++ "'") =
      (m.blocks.flatMap Block.uses).countP fun u => u.name = ⟨none, name⟩ ∧ u.kind? = none) ∧
    (∀ name, (m.check.map Diagnostic.message).count ("'" ++ name ++
      "' is already declared in this scope") =
      ((m.blocks.flatMap Block.scopes).map fun names => names.count name - 1).sum) ∧
    m.check.countP Diagnostic.deniesImport =
      (m.blocks.flatMap Block.uses).countP fun u =>
        u.name.qualifier.any (· ∉ m.imports.getD []) := by
  have hproper := (Module.printable_of_source h).proper
  have hmessages : m.check.map Diagnostic.message = m.findings.map fun f => f.diagnostic.message :=
    List.map_map
  have hcount (sel : Selection) := m.findings_eq_blocks sel hproper
  rw [hmessages]
  refine ⟨fun name => ?_, fun name => ?_, ?_⟩
  · rw [← Selection.findings_undeclared, hcount,
      Selection.blocks_eq_uses _ (Selection.repeated_undeclared name []), Selection.uses_undeclared]
  · rw [← Selection.findings_alreadyDeclared, hcount, Selection.blocks_eq,
      Selection.uses_alreadyDeclared, Nat.zero_add,
      funext (Selection.repeated_alreadyDeclared name)]
  · rw [Module.check, ← Selection.findings_notImported, hcount,
      Selection.blocks_eq_uses _ (Selection.repeated_notImported []), Selection.uses_notImported]
    simp only [List.mem_reverse]

/-- A module with many errors at once: an import, a constant and parameters that are declared
twice, and names that are not declared in a constant, a length, a base, behind a pointer, in a
heading and in a result. -/
def faultyModule : Module where
  name := "Faulty"
  imports := some ["A", "A"]
  declarations := {
    constants := [⟨⟨"size", false⟩, ⟨none, ⟨.name ⟨none, "limit"⟩, []⟩, []⟩⟩,
      ⟨⟨"size", false⟩, ⟨none, ⟨.number (.integer 2), []⟩, []⟩⟩]
    types := [⟨⟨"List", false⟩, .pointer (.named ⟨none, "Item"⟩)⟩,
      ⟨⟨"Tree", false⟩, .pointer (.named ⟨none, "Node"⟩)⟩,
      ⟨⟨"Item", false⟩, .record (some ⟨none, "Node"⟩)
        [⟨[⟨"data", false⟩], .named ⟨some "B", "T"⟩⟩]⟩,
      ⟨⟨"Action", false⟩,
        .procedure (some ⟨[⟨false, ["a", "a"], 0, none, "INTEGER"⟩], some ⟨some "A", "T"⟩⟩)⟩]
    vars :=
      [⟨[⟨"v", false⟩], .array [⟨none, ⟨.name ⟨none, "limit"⟩, []⟩, []⟩] (.named ⟨none, "Tree"⟩)⟩]
    procedures := [{
      heading := ⟨⟨"Get", false⟩, some ⟨[⟨false, ["a"], 0, none, "Node"⟩], some ⟨none, "INTEGER"⟩⟩⟩
      declarations := ⟨[], [], [⟨[⟨"a", false⟩, ⟨"size", false⟩], .named ⟨some "B", "T"⟩⟩], []⟩
      result := some ⟨none, ⟨.name ⟨none, "limit"⟩, []⟩, []⟩
      endName := "Get" }] }
  endName := "Faulty"

/-- The three counts for a module with errors of each sort. -/
theorem Module.name_errors_reported_once_faulty :
    Source.module (faultyModule.source 2) = .ok faultyModule ∧
      (faultyModule.check.map Diagnostic.message).count "undeclared identifier 'Node'" = 3 ∧
      (faultyModule.check.map Diagnostic.message).count "'a' is already declared in this scope" =
        2 ∧
      faultyModule.check.countP Diagnostic.deniesImport = 2 := by
  have hprintable : faultyModule.Printable := by decide +kernel
  have hsource := hprintable.module_source 2
  obtain ⟨hundeclared, hrepeated, himports⟩ := Module.name_errors_reported_once _ _ hsource
  refine ⟨hsource, (hundeclared "Node").trans ?_, (hrepeated "a").trans ?_, himports.trans ?_⟩
  · decide +kernel
  · decide +kernel
  · decide +kernel

end Oberon
