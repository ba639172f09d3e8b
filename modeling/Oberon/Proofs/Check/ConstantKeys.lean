import Mathlib.Data.List.Nodup
import Oberon.Proofs.Check.Names
import Oberon.Proofs.Constant.Lexical

/-!
# The keys of constants

Constants are recorded by the names that lead to them, joined by points.  If the names of every
block are distinct, so are the names that lead to the constants, and identifiers have no point in
them.
-/

namespace Oberon

open Scanner (IsIdentifier isIdentifierStart isIdentifierPart)

/-! ## Names without points -/

/-- There is no point in an identifier. -/
theorem not_mem_point_of_isIdentifier {name : String} (h : IsIdentifier name) :
    '.' ∉ name.toList := by
  obtain ⟨c, word, hletters, hstart, hparts⟩ := h.letters
  have hclass : isIdentifierStart '.' = false ∧ isIdentifierPart '.' = false := by decide
  rw [hletters, List.mem_cons]
  rintro (rfl | hmem)
  · rw [hclass.1] at hstart
    cases hstart
  · rw [hparts '.' hmem] at hclass
    cases hclass.2

/-- What is joined by points can be taken apart again. -/
theorem intercalate_point_inj {names others : List String}
    (hnames : ∀ name ∈ names, '.' ∉ name.toList)
    (hothers : ∀ name ∈ others, '.' ∉ name.toList) (hsome : names ≠ []) (hsome' : others ≠ [])
    (h : ".".intercalate names = ".".intercalate others) : names = others := by
  have hsplit {names : List String} (hnames : ∀ name ∈ names, '.' ∉ name.toList)
      (hsome : names ≠ []) :
      (".".intercalate names).toList.splitOn '.' = names.map String.toList := by
    have hpoint : ".".toList = ['.'] := by decide
    rw [String.toList_intercalate, hpoint]
    exact List.splitOn_intercalate '.' (List.forall_mem_map.mpr hnames) (by simpa using hsome)
  have hmap : names.map String.toList = others.map String.toList := by
    rw [← hsplit hnames hsome, h, hsplit hothers hsome']
  exact List.map_injective_iff.mpr (fun _ _ => String.toList_inj.mp) hmap

/-! ## Paths -/

namespace ConstantPlace

theorem of_mem_ofConstants {path : List String} {outer : List Entries} {own : Entries}
    {ds : List ConstDeclaration} :
    ∀ place ∈ ofConstants path outer own ds, place.path = path ∧ place.declaration ∈ ds := by
  induction ds generalizing own with
  | nil => exact nofun
  | cons d ds ih =>
    rw [ofConstants, List.forall_mem_cons]
    exact ⟨⟨rfl, List.mem_cons_self⟩, fun place hplace =>
      ⟨(ih place hplace).1, List.mem_cons_of_mem d (ih place hplace).2⟩⟩

/-- The constants of one body differ in their last name only. -/
theorem map_names_ofConstants (path : List String) (outer : List Entries) (own : Entries)
    (ds : List ConstDeclaration) :
    (ofConstants path outer own ds).map names = ds.map fun d => path ++ [d.name.name] := by
  induction ds generalizing own with
  | nil => rfl
  | cons d ds ih =>
    rw [ofConstants, List.map_cons, ih]
    rfl

end ConstantPlace

open ConstantPlace

mutual

/-- Places inside a body lie behind its path. -/
theorem Declarations.path_of_mem_constantPlaces (d : Declarations) (path : List String)
    (outer : List Entries) (own : Entries) :
    ∀ place ∈ d.constantPlaces path outer own, path <+: place.path := by
  match d with
  | ⟨constants, types, vars, procedures⟩ =>
    rw [Declarations.constantPlaces, List.forall_mem_append]
    refine ⟨fun place hplace => (of_mem_ofConstants place hplace).1 ▸ List.prefix_rfl, ?_⟩
    intro place hplace
    obtain ⟨p, -, hprefix⟩ :=
      ProcedureDeclaration.path_of_mem_allConstantPlaces procedures path outer _ place hplace
    exact (List.prefix_append path _).trans hprefix

/-- Places inside a procedure lie behind its name. -/
theorem ProcedureDeclaration.path_of_mem_constantPlaces (p : ProcedureDeclaration)
    (path : List String)
    (outer : List Entries) :
    ∀ place ∈ p.constantPlaces path outer, path ++ [p.heading.name.name] <+: place.path := by
  match p with
  | ⟨heading, declarations, _, _⟩ =>
    rw [ProcedureDeclaration.constantPlaces]
    exact declarations.path_of_mem_constantPlaces _ _ _

theorem ProcedureDeclaration.path_of_mem_allConstantPlaces (ps : List ProcedureDeclaration)
    (path : List String) (outer : List Entries) (own : Entries) :
    ∀ place ∈ ProcedureDeclaration.allConstantPlaces path outer own ps,
      ∃ p ∈ ps, path ++ [p.heading.name.name] <+: place.path := by
  match ps with
  | [] => exact nofun
  | p :: ps =>
    rw [ProcedureDeclaration.allConstantPlaces, List.forall_mem_append]
    constructor
    · intro place hplace
      exact ⟨p, List.mem_cons_self, p.path_of_mem_constantPlaces path _ place hplace⟩
    · intro place hplace
      obtain ⟨q, hq, hprefix⟩ :=
        ProcedureDeclaration.path_of_mem_allConstantPlaces ps path outer _ place hplace
      exact ⟨q, List.mem_cons_of_mem p hq, hprefix⟩

end

/-! ## Distinct names -/

theorem ConstantPlace.path_eq_of_names_eq {place other : ConstantPlace}
    (h : place.names = other.names) :
    place.path = other.path :=
  (List.append_inj' h rfl).1

/-- The path of a constant inside a procedure goes on with the name of the procedure. -/
theorem eq_of_common_path {path : List String} {name other : String} {place : ConstantPlace}
    (h : path ++ [name] <+: place.path) (h' : path ++ [other] <+: place.path) : name = other := by
  have hprefix := List.prefix_of_prefix_length_le h h' (by simp)
  have heq := hprefix.eq_of_length (by simp)
  exact List.singleton_inj.mp (List.append_cancel_left heq)

mutual

/-- If no block has a name twice, no two constants have the same names leading to them. -/
theorem Declarations.nodup_names (d : Declarations) (ctx : Context) (path : List String)
    (outer : List Entries) (own : Entries) (hown : (d.identDefs.map IdentDef.name).Nodup)
    (hblocks : ∀ b ∈ d.blocks ctx, b.names.Nodup) :
    ((d.constantPlaces path outer own).map names).Nodup := by
  match d with
  | ⟨constants, types, vars, procedures⟩ =>
    simp only [Declarations.identDefs, List.map_append, List.nodup_append, List.map_map] at hown
    obtain ⟨⟨⟨hconstants, -⟩, -⟩, hprocedures, -⟩ := hown
    rw [Declarations.blocks] at hblocks
    rw [Declarations.constantPlaces, List.map_append, List.nodup_append]
    refine ⟨?_, ProcedureDeclaration.nodup_allNames procedures _ path outer _ hprocedures hblocks,
      ?_⟩
    · rw [map_names_ofConstants]
      have hinj : Function.Injective fun name : String => path ++ [name] := fun _ _ heq =>
        List.singleton_inj.mp (List.append_cancel_left heq)
      have hmap := hconstants.map hinj
      rw [List.map_map] at hmap
      exact hmap
    · -- the path of a constant of a procedure is longer
      simp only [List.forall_mem_map]
      intro place hplace other hother heq
      obtain ⟨p, -, hprefix⟩ :=
        ProcedureDeclaration.path_of_mem_allConstantPlaces procedures path outer _ other hother
      rw [← path_eq_of_names_eq heq, (of_mem_ofConstants place hplace).1] at hprefix
      have hlength := hprefix.length_le
      rw [List.length_append, List.length_singleton] at hlength
      omega

theorem ProcedureDeclaration.nodup_names (p : ProcedureDeclaration) (ctx : Context)
    (path : List String) (outer : List Entries) (hblocks : ∀ b ∈ p.allBlocks ctx, b.names.Nodup) :
    ((p.constantPlaces path outer).map names).Nodup := by
  match p with
  | ⟨heading, declarations, result, endName⟩ =>
    rw [ProcedureDeclaration.allBlocks, List.forall_mem_cons] at hblocks
    rw [ProcedureDeclaration.constantPlaces]
    exact declarations.nodup_names _ _ _ _ (List.nodup_append.mp hblocks.1).2.1 hblocks.2

theorem ProcedureDeclaration.nodup_allNames (ps : List ProcedureDeclaration) (ctx : Context)
    (path : List String) (outer : List Entries) (own : Entries)
    (hnames : (ps.map fun p => p.heading.name.name).Nodup)
    (hblocks : ∀ b ∈ ProcedureDeclaration.blocks ctx ps, b.names.Nodup) :
    ((ProcedureDeclaration.allConstantPlaces path outer own ps).map names).Nodup := by
  match ps with
  | [] => exact .nil
  | p :: ps =>
    rw [ProcedureDeclaration.blocks, List.forall_mem_append] at hblocks
    rw [List.map_cons, List.nodup_cons] at hnames
    rw [ProcedureDeclaration.allConstantPlaces, List.map_append, List.nodup_append]
    refine ⟨p.nodup_names _ path _ hblocks.1,
      ProcedureDeclaration.nodup_allNames ps _ path outer _ hnames.2 hblocks.2, ?_⟩
    simp only [List.forall_mem_map]
    intro place hplace other hother heq
    obtain ⟨q, hq, hprefix⟩ :=
      ProcedureDeclaration.path_of_mem_allConstantPlaces ps path outer _ other hother
    rw [← path_eq_of_names_eq heq] at hprefix
    have hsame := eq_of_common_path (p.path_of_mem_constantPlaces path _ place hplace) hprefix
    exact hnames.1 (List.mem_map.mpr ⟨q, hq, hsame.symm⟩)

end

/-- Distinct names in each block give distinct names of constants in the module. -/
theorem Module.nodup_names (m : Module) (h : ∀ b ∈ m.blocks, b.names.Nodup) :
    (m.constantPlaces.map names).Nodup := by
  rw [Module.blocks, List.forall_mem_cons] at h
  exact m.declarations.nodup_names _ [] [] [] (List.nodup_append.mp h.1).2.1 h.2

/-! ## Identifiers -/

mutual

theorem Declarations.isIdentifier_names (d : Declarations) {n : Nat} (h : d.Within Node.Printable n)
    {path : List String} (hpath : ∀ name ∈ path, IsIdentifier name) (outer : List Entries)
    (own : Entries) :
    ∀ place ∈ d.constantPlaces path outer own, ∀ name ∈ place.names, IsIdentifier name := by
  match d with
  | ⟨constants, types, vars, procedures⟩ =>
    rw [Declarations.constantPlaces, List.forall_mem_append]
    refine ⟨fun place hplace => ?_,
      ProcedureDeclaration.isIdentifier_allNames procedures h.procedures hpath outer _⟩
    obtain ⟨hplacePath, hdeclaration⟩ := of_mem_ofConstants place hplace
    rw [ConstantPlace.names, hplacePath, List.forall_mem_append, List.forall_mem_singleton]
    exact ⟨hpath, (ConstDeclaration.within_tree.mp (h.constants _ hdeclaration)).2.1⟩

theorem ProcedureDeclaration.isIdentifier_names (p : ProcedureDeclaration) {n : Nat}
    (h : p.tree.Within Node.Printable Node.nests n) {path : List String}
    (hpath : ∀ name ∈ path, IsIdentifier name) (outer : List Entries) :
    ∀ place ∈ p.constantPlaces path outer, ∀ name ∈ place.names, IsIdentifier name := by
  obtain ⟨k, hheading, hdeclarations⟩ := ProcedureDeclaration.parts_of_within h
  match p with
  | ⟨heading, declarations, _, _⟩ =>
    have hinner : ∀ name ∈ path ++ [heading.name.name], IsIdentifier name := by
      rw [List.forall_mem_append, List.forall_mem_singleton]
      exact ⟨hpath, (ProcedureHeading.within_tree.mp hheading).2.1⟩
    rw [ProcedureDeclaration.constantPlaces]
    exact declarations.isIdentifier_names hdeclarations hinner _ _

theorem ProcedureDeclaration.isIdentifier_allNames (ps : List ProcedureDeclaration) {n : Nat}
    (h : ∀ p ∈ ps, p.tree.Within Node.Printable Node.nests n) {path : List String}
    (hpath : ∀ name ∈ path, IsIdentifier name) (outer : List Entries) (own : Entries) :
    ∀ place ∈ ProcedureDeclaration.allConstantPlaces path outer own ps,
      ∀ name ∈ place.names, IsIdentifier name := by
  match ps with
  | [] => exact nofun
  | p :: ps =>
    rw [List.forall_mem_cons] at h
    rw [ProcedureDeclaration.allConstantPlaces, List.forall_mem_append]
    exact ⟨p.isIdentifier_names h.1 hpath _,
      ProcedureDeclaration.isIdentifier_allNames ps h.2 hpath outer _⟩

end

/-- In a printable module only identifiers lead to constants. -/
theorem Module.Printable.isIdentifier_names {m : Module} (h : m.Printable) :
    ∀ place ∈ m.constantPlaces, ∀ name ∈ place.names, IsIdentifier name := by
  obtain ⟨-, -, -, hdeclarations, -⟩ :=
    Module.within_tree.mp (within_root.mp (Module.printable_iff.mp h)).2
  exact m.declarations.isIdentifier_names hdeclarations (List.forall_mem_nil _) [] []

/-! ## Keys -/

/-- In a printable module with distinct names no two constants have the same key. -/
theorem Module.Printable.nodup_keys {m : Module} (h : m.Printable)
    (hblocks : ∀ b ∈ m.blocks, b.names.Nodup) :
    (m.constantPlaces.map fun place => ".".intercalate place.names).Nodup := by
  have hpoint : ∀ place ∈ m.constantPlaces, ∀ name ∈ place.names, '.' ∉ name.toList :=
    fun place hplace name hname =>
      not_mem_point_of_isIdentifier (h.isIdentifier_names place hplace name hname)
  have hsome (place : ConstantPlace) : place.names ≠ [] := List.concat_ne_nil _ place.path
  have hinj : ∀ path ∈ m.constantPlaces.map names, ∀ other ∈ m.constantPlaces.map names,
      ".".intercalate path = ".".intercalate other → path = other := by
    simp only [List.forall_mem_map]
    intro place hplace other hother
    exact intercalate_point_inj (hpoint place hplace) (hpoint other hother) (hsome place)
      (hsome other)
  have hkeys := (m.nodup_names hblocks).map_on hinj
  rw [List.map_map] at hkeys
  exact hkeys

end Oberon
