import Oberon.Proofs.Grammar.Acceptance
import Oberon.Proofs.Grammar.Printability
import Oberon.Proofs.Syntax.SourceText
import Oberon.Source

/-!
# Printing and parsing

A printable module is parsed back from its source text, at every indentation, and parsing a source
text gives printable modules only.  So printing is a fixed point on whatever the parser accepts.
-/

namespace Oberon

open Grammar Scanner

namespace Source

/-- A source text is a module exactly if its tokens are derived within the limits. -/
theorem module_eq_ok_iff {source : String} {m : Module} :
    Source.module source = .ok m ↔ ∃ located last, Scanner.tokens source.toList 1 =
      .ok (located, last) ∧
      IsModule (located.map LocatedToken.token) m ∧ (Node.root m).tree.Fits maxNesting := by
  unfold Source.module Source.tokens Scanner.scan
  cases hscan : Scanner.tokens source.toList 1 with
  | error failure => simp [Except.bind]
  | ok result =>
    obtain ⟨located, last⟩ := result
    have hend : ∀ t ∈ located, t.token ≠ .endOfFile := fun t ht =>
      not_endOfFile_of_isLexeme (isLexeme_of_mem_tokens hscan t ht)
    have hparse : Parser.parseModule located = .ok m ↔
        IsModule (located.map LocatedToken.token) m ∧ (Node.root m).tree.Fits maxNesting :=
      Parser.whole_eq_ok_iff (Parser.sound_module maxNesting) (Parser.complete_module maxNesting)
        trivial hend
    have hmap : moduleOfTokens located = .ok m ↔ Parser.parseModule located = .ok m := by
      unfold moduleOfTokens
      cases Parser.parseModule located <;> simp [Except.mapError]
    show moduleOfTokens located = .ok m ↔ _
    rw [hmap, hparse]
    simp

end Source

/-- A printable module is within the limits. -/
theorem Module.Printable.fits {m : Module} (h : m.Printable) :
    (Node.root m).tree.Fits maxNesting := by
  refine ⟨fun node hnode => ?_, h.nesting⟩
  have hprintable := h.nodes node hnode
  cases node with
  | formalType formal => exact hprintable
  | _ => trivial

/-- The text of a printable module is read as the module, whatever the indentation. -/
theorem Module.Printable.module_source {m : Module} (h : m.Printable) (width : Nat) :
    Source.module (m.source width) = .ok m := by
  obtain ⟨ts, hrule, hspells⟩ := Module.spells_source width h
  obtain ⟨located, last, htokens, htoken⟩ := hspells 1
  rw [Source.module_eq_ok_iff]
  refine ⟨located, last, htokens, ?_, h.fits⟩
  rw [htoken]
  exact hrule

/-- A module that comes from a text is printable. -/
theorem Module.printable_of_source {source : String} {m : Module}
    (h : Source.module source = .ok m) :
    m.Printable := by
  obtain ⟨located, last, htokens, hrule, hfits⟩ := Source.module_eq_ok_iff.mp h
  have hlexemes : ∀ t ∈ located.map LocatedToken.token, t.IsLexeme := by
    intro t ht
    obtain ⟨token, htoken, rfl⟩ := List.mem_map.mp ht
    exact isLexeme_of_mem_tokens htokens token htoken
  exact yields_module ⟨hrule, hfits⟩ hlexemes

def sampleModule : Module where
  name := "M"
  imports := some ["N"]
  declarations := {
    constants :=
      [⟨⟨"k", true⟩, ⟨some .minus, ⟨.number (.real 2.5), [⟨.times, .number (.integer 3)⟩]⟩, []⟩⟩]
    types := [⟨⟨"T", false⟩, .record none
      [⟨[⟨"x", true⟩], .array [⟨none, ⟨.number (.integer 3), []⟩, []⟩] (.named ⟨some "N", "T"⟩)⟩]⟩]
    vars := []
    procedures := [{
      heading := ⟨⟨"P", true⟩, some ⟨[⟨true, ["a", "b"], 1, none, "T"⟩], some ⟨none, "T"⟩⟩⟩
      declarations := ⟨[], [], [], []⟩
      result := some ⟨none, ⟨.parenthesized ⟨none, ⟨.name ⟨none, "a"⟩, []⟩, []⟩, []⟩, []⟩
      endName := "P" }] }
  endName := "M"

theorem printable_sampleModule : sampleModule.Printable := by
  decide +kernel

/-- Printing a printable module and parsing the text gives the module back. -/
theorem Source.module_print (m : Module) (indent : Nat) (h : m.Printable) :
    Source.module (Node.print indent (.root m)) = .ok m :=
  h.module_source (min indent maxIndent)

theorem Source.module_print_sample : sampleModule.Printable ∧
    Source.module (Node.print 4 (.root sampleModule)) = .ok sampleModule :=
  ⟨printable_sampleModule, Source.module_print sampleModule 4 printable_sampleModule⟩

/-- What is parsed is printable, so its text at one indentation is parsed to it again, and the
text of that at another indentation is the text of the module. -/
theorem Source.print_fixed_point (source : String) (m : Module) (h : Source.module source = .ok m) :
    m.Printable ∧ ∀ indent indent' : Nat,
      Source.module (Node.print indent (.root m)) = .ok m ∧
        (Source.module (Node.print indent (.root m))).map (fun m' =>
          Node.print indent' (.root m')) =
          .ok (Node.print indent' (.root m)) := by
  have hprintable := Module.printable_of_source h
  refine ⟨hprintable, fun indent indent' => ?_⟩
  have hparse : Source.module (Node.print indent (.root m)) = .ok m :=
    hprintable.module_source (min indent maxIndent)
  rw [hparse]
  exact ⟨rfl, rfl⟩

theorem Source.print_fixed_point_sample :
    Source.module (Node.print 3 (.root sampleModule)) = .ok sampleModule ∧
      (Source.module (Node.print 8 (.root sampleModule))).map (fun m => Node.print 1 (.root m)) =
        .ok (Node.print 1 (.root sampleModule)) := by
  have hsource : Source.module (sampleModule.source 0) = .ok sampleModule :=
    printable_sampleModule.module_source 0
  have hfixed := (Source.print_fixed_point (sampleModule.source 0) sampleModule hsource).2
  exact ⟨(hfixed 3 1).1, (hfixed 8 1).2⟩

end Oberon
