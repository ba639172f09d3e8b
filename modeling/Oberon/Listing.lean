import Oberon.Text.Format

/-!
# Listings

A listing shows a value over several lines.  Each entry of a group stands on a line of its own,
one level further to the right than the group and with a comma behind it; a group without entries
stays on one line.
-/

namespace Oberon

mutual

/-- A text on one line, or entries between an opening and a closing text. -/
inductive Listing where
  | atom (text : String)
  | group (opening : String) (entries : List ListingEntry) (closing : String)

/-- A part of a group, behind a label that may be empty. -/
structure ListingEntry where
  label : String
  value : Listing

end

def listingIndent : Nat := 4

mutual

def Listing.render (depth : Nat) : Listing → String
  | .atom text => text
  | .group opening [] closing => opening ++ closing
  | .group opening (entry :: entries) closing =>
    opening ++ "\n" ++ entry.render (depth + 1) ++ ListingEntry.renderAll (depth + 1) entries ++
      margin listingIndent depth ++ closing

def ListingEntry.render (depth : Nat) : ListingEntry → String
  | ⟨label, value⟩ => margin listingIndent depth ++ label ++ value.render depth ++ ",\n"

def ListingEntry.renderAll (depth : Nat) : List ListingEntry → String
  | [] => ""
  | entry :: entries => entry.render depth ++ ListingEntry.renderAll depth entries

end

namespace Listing

def text (l : Listing) : String :=
  l.render 0

def string (content : String) : Listing :=
  atom (Text.Quoted.encode content)

def bool (b : Bool) : Listing :=
  atom (if b then "true" else "false")

def nat (n : Nat) : Listing :=
  atom (Nat.repr n)

def record (name : String) (fields : List (String × Listing)) : Listing :=
  group (name ++ " \x7b") (fields.map fun (label, value) => ⟨label ++ ": ", value⟩) "\x7d"

def tagged (name : String) (value : Listing) : Listing :=
  group (name ++ "(") [⟨"", value⟩] ")"

def list (items : List Listing) : Listing :=
  group "[" (items.map fun value => ⟨"", value⟩) "]"

def option : Option Listing → Listing
  | some value => tagged "Some" value
  | none => atom "None"

end Listing

end Oberon
