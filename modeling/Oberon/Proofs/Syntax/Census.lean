import Oberon.Proofs.Grammar.Retention
import Oberon.Proofs.RoundTrip
import Oberon.Proofs.Syntax.Content
import Oberon.Syntax.Counter

/-!
# Counted nodes and scanned tokens

A counter lists the nodes of a tree in preorder, and its numbers are those of the list.  Main
statement: the tokens with content of a source text are accounted for by the nodes of its module,
kind by kind, so no node is left out and none is counted twice.
-/

namespace Oberon

/-! ## Counters -/

namespace Counter

/-- A tally adds one to its own kind. -/
theorem lookup_tally (kind k : NodeKind) (counts : List (NodeKind × Nat)) :
    ((tally kind counts).lookup k).getD 0 = (counts.lookup k).getD 0 + [kind].count k := by
  induction counts with
  | nil =>
    by_cases h : k = kind
    · subst h
      simp [tally]
    · have hbeq : (k == kind) = false := by simpa using h
      simp [tally, List.lookup_cons, hbeq, Ne.symm h]
  | cons first others ih =>
    obtain ⟨other, count⟩ := first
    by_cases h : k = other
    · subst h
      by_cases hkind : kind = k
      · simp [tally, hkind]
      · simp [tally, hkind]
    · have hbeq : (k == other) = false := by simpa using h
      by_cases hkind : kind = other
      · subst hkind
        simp [tally, List.lookup_cons, hbeq, Ne.symm h]
      · rw [tally, if_neg hkind, List.lookup_cons, hbeq, List.lookup_cons, hbeq]
        exact ih

/-- The numbers of a counter are those of its list of visits. -/
def Consistent (c : Counter) : Prop :=
  ∀ kind, c.count kind = c.order.toList.count kind

theorem consistent_empty : empty.Consistent :=
  fun _ => rfl

/-- A visited node is counted in the order and in the table. -/
theorem Consistent.record {c : Counter} (h : c.Consistent) (kind : NodeKind) :
    (c.record kind).Consistent := by
  intro k
  show ((tally kind c.counts).lookup k).getD 0 = (c.order.push kind).toList.count k
  rw [lookup_tally, Array.toList_push, List.count_append, ← h k]
  rfl

mutual

/-- A walk keeps counts and order in step. -/
theorem Consistent.visit {c : Counter} (h : c.Consistent) (tree : Tree Node) :
    (c.visit tree).Consistent := by
  match tree with
  | .node n children => exact (h.record n.kind).visitAll children

theorem Consistent.visitAll {c : Counter} (h : c.Consistent) (trees : List (Tree Node)) :
    (c.visitAll trees).Consistent := by
  match trees with
  | [] => exact h
  | tree :: trees => exact (h.visit tree).visitAll trees

end

mutual

/-- A walk visits the nodes in preorder. -/
theorem order_visit (c : Counter) (tree : Tree Node) :
    (c.visit tree).order.toList = c.order.toList ++ tree.preorder.map Node.kind := by
  match tree with
  | .node n children =>
    rw [visit, order_visitAll, record, Array.toList_push, Tree.preorder_node, List.map_cons,
      List.append_assoc, List.singleton_append]

theorem order_visitAll (c : Counter) (trees : List (Tree Node)) :
    (c.visitAll trees).order.toList =
      c.order.toList ++ (trees.flatMap Tree.preorder).map Node.kind := by
  match trees with
  | [] => exact (List.append_nil _).symm
  | tree :: trees =>
    rw [visitAll, order_visitAll, order_visit, List.flatMap_cons, List.map_append,
      List.append_assoc]

end

/-- The order of a node is that of its tree. -/
theorem order_ofNode (n : Node) : (ofNode n).order.toList = n.kinds :=
  order_visit empty n.tree

theorem consistent_ofNode (n : Node) : (ofNode n).Consistent :=
  consistent_empty.visit n.tree

theorem count_ofNode (n : Node) (kind : NodeKind) : (ofNode n).count kind = n.kinds.count kind := by
  rw [consistent_ofNode, order_ofNode]

/-- The total is the number of nodes. -/
theorem total_ofNode (n : Node) : (ofNode n).total = n.tree.preorder.length := by
  rw [total, ← Array.length_toList, order_ofNode, Node.kinds, List.length_map]

end Counter

/-! ## Tokens and nodes -/

def Node.isQualified : Node → Bool
  | qualident q => q.qualifier.isSome
  | _ => false

def Node.isExported : Node → Bool
  | identDef d => d.exported
  | _ => false

def Token.isInteger : Token → Bool
  | .integer _ => true
  | _ => false

def Token.isReal : Token → Bool
  | .real _ => true
  | _ => false

def Token.isString : Token → Bool
  | .string _ => true
  | _ => false

/-- The tokens with content are accounted for by nodes, of which so many are of each kind and so
many are qualified or exported names. -/
structure Balance (tokens : List Token) (count : NodeKind → Nat)
    (qualified exported : Nat) : Prop where
  identifiers : tokens.countP Parser.isIdentifier =
    count .identifier + count .identDef + count .qualident + qualified
  integers : tokens.countP Token.isInteger = count .integer
  reals : tokens.countP Token.isReal = count .real
  strings : tokens.countP Token.isString = count .string
  pluses : tokens.count (.mark .plus) = count .binaryPlus + count .unaryPlus
  minuses : tokens.count (.mark .minus) = count .binaryMinus + count .unaryMinus
  times : tokens.count (.mark .times) = count .multiplication + exported
  slashes : tokens.count (.mark .slash) = count .division
  divs : tokens.count (.keyword .DIV) = count .integerDivision
  mods : tokens.count (.keyword .MOD) = count .modulo
  ampersands : tokens.count (.mark .ampersand) = count .conjunction
  ors : tokens.count (.keyword .OR) = count .disjunction

/-- Balances of two lists of tokens add up. -/
theorem Balance.append {ts us : List Token} {f g : NodeKind → Nat} {q q' e e' : Nat}
    (h : Balance ts f q e) (h' : Balance us g q' e') :
    Balance (ts ++ us) (fun kind => f kind + g kind) (q + q') (e + e') := by
  constructor
  case identifiers => rw [List.countP_append, h.identifiers, h'.identifiers]; omega
  case integers => rw [List.countP_append, h.integers, h'.integers]
  case reals => rw [List.countP_append, h.reals, h'.reals]
  case strings => rw [List.countP_append, h.strings, h'.strings]
  case pluses => rw [List.count_append, h.pluses, h'.pluses]; omega
  case minuses => rw [List.count_append, h.minuses, h'.minuses]; omega
  case times => rw [List.count_append, h.times, h'.times]; omega
  case slashes => rw [List.count_append, h.slashes, h'.slashes]
  case divs => rw [List.count_append, h.divs, h'.divs]
  case mods => rw [List.count_append, h.mods, h'.mods]
  case ampersands => rw [List.count_append, h.ampersands, h'.ampersands]
  case ors => rw [List.count_append, h.ors, h'.ors]

theorem countP_filter_hasContent {p : Token → Bool} (hp : ∀ t, p t = true → t.hasContent = true)
    (ts : List Token) : (ts.filter Token.hasContent).countP p = ts.countP p := by
  rw [List.countP_filter]
  refine List.countP_congr fun t _ => ?_
  rw [Bool.and_eq_true]
  exact ⟨And.left, fun h => ⟨h, hp t h⟩⟩

theorem count_filter_hasContent {t : Token} (ht : t.hasContent = true) (ts : List Token) :
    (ts.filter Token.hasContent).count t = ts.count t :=
  List.count_filter ht

theorem Token.hasContent_of_class {t : Token}
    (h : Parser.isIdentifier t = true ∨ t.isInteger = true ∨ t.isReal = true ∨ t.isString = true) :
    t.hasContent = true := by
  cases t with
  | mark symbol => simp [Parser.isIdentifier, isInteger, isReal, isString] at h
  | keyword word => simp [Parser.isIdentifier, isInteger, isReal, isString] at h
  | endOfFile => simp [Parser.isIdentifier, isInteger, isReal, isString] at h
  | _ => rfl

/-- Tokens without content count for nothing. -/
theorem Balance.of_filter {ts : List Token} {f : NodeKind → Nat} {q e : Nat}
    (h : Balance (ts.filter Token.hasContent) f q e) : Balance ts f q e := by
  have hclass {p : Token → Bool} (hp : ∀ t, p t = true → t.hasContent = true) :=
    countP_filter_hasContent hp ts
  have hone {t : Token} (ht : t.hasContent = true) := count_filter_hasContent ht ts
  constructor
  case identifiers => rw [← h.identifiers, hclass fun t ht => Token.hasContent_of_class (.inl ht)]
  case integers => rw [← h.integers, hclass fun t ht => Token.hasContent_of_class (.inr (.inl ht))]
  case reals => rw [← h.reals, hclass fun t ht => Token.hasContent_of_class (.inr (.inr (.inl ht)))]
  case strings =>
    rw [← h.strings, hclass fun t ht => Token.hasContent_of_class (.inr (.inr (.inr ht)))]
  case pluses => rw [← h.pluses, hone rfl]
  case minuses => rw [← h.minuses, hone rfl]
  case times => rw [← h.times, hone rfl]
  case slashes => rw [← h.slashes, hone rfl]
  case divs => rw [← h.divs, hone rfl]
  case mods => rw [← h.mods, hone rfl]
  case ampersands => rw [← h.ampersands, hone rfl]
  case ors => rw [← h.ors, hone rfl]

/-- A node and its own tokens balance. -/
theorem balance_content (n : Node) :
    Balance n.content [n.kind].count ([n].countP Node.isQualified)
      ([n].countP Node.isExported) := by
  cases n with
  | identDef d =>
    obtain ⟨name, exported⟩ := d
    cases exported <;> constructor <;> rfl
  | qualident q =>
    obtain ⟨qualifier, name⟩ := q
    cases qualifier <;> constructor <;> rfl
  | addOperator operator => cases operator <;> constructor <;> rfl
  | factorOperation operation =>
    obtain ⟨operator, right⟩ := operation
    cases operator <;> constructor <;> rfl
  | sign s => cases s <;> constructor <;> rfl
  | typeForm t => cases t <;> constructor <;> rfl
  | _ => constructor <;> rfl

/-- Nodes and their own tokens balance together. -/
theorem balance_flatMap (nodes : List Node) :
    Balance (nodes.flatMap Node.content) (nodes.map Node.kind).count (nodes.countP Node.isQualified)
      (nodes.countP Node.isExported) := by
  induction nodes with
  | nil => constructor <;> rfl
  | cons n nodes ih =>
    have happend := (balance_content n).append ih
    simp only [← List.countP_append, ← List.count_append] at happend
    exact happend

/-! ## Numbers -/

/-- A node comes first, its children follow in order. -/
theorem Node.kinds_eq (n : Node) : n.kinds = n.kind :: n.children.flatMap Node.kinds := by
  rw [Node.kinds, Node.preorder_eq, List.map_cons, List.map_flatMap]
  rfl

/-- The values of numbers stand below numbers only, and below each of these there is one. -/
theorem Node.count_children (n : Node) :
    (n.children.map Node.kind).count .integer + (n.children.map Node.kind).count .real =
      [n.kind].count .number := by
  cases n with
  | number value => cases value <;> rfl
  | type t => cases t <;> rfl
  | factor f => cases f <;> rfl
  | addOperator operator => cases operator <;> rfl
  | sign s => cases s <;> rfl
  | singleTerm s t => obtain _ | ⟨_ | _⟩ := s <;> rfl
  | termOperation operation =>
    obtain ⟨operator, right⟩ := operation
    cases operator <;> rfl
  | factorOperation operation =>
    obtain ⟨operator, right⟩ := operation
    cases operator <;> rfl
  | term t =>
    -- the kinds of the operators depend on the operators, but none is that of a number
    have hoperations (kind : NodeKind) (hkind : ∀ operator : MulOperator, operator.kind ≠ kind) :
        (t.operations.map fun operation => operation.operator.kind).count kind = 0 := by
      rw [List.count_eq_zero, List.mem_map]
      exact fun ⟨operation, _, h⟩ => hkind _ h
    have hinteger := hoperations .integer (by intro operator; cases operator <;> decide)
    have hreal := hoperations .real (by intro operator; cases operator <;> decide)
    simp [Node.children, Node.kind, Function.comp_def, hinteger, hreal]
  | typeForm t =>
    cases t <;> simp [Node.children, Node.kind, TypeExpr.formKind, Function.comp_def,
      List.count_replicate]
  | _ =>
    simp [Node.children, Declarations.nodes, Node.kind, Function.comp_def, List.count_replicate]

/-- Each number is an integer or a real. -/
theorem Node.count_number (n : Node) :
    n.kinds.count .integer + n.kinds.count .real =
      n.kinds.count .number + ([n.kind].count .integer + [n.kind].count .real) := by
  induction n using Node.induction with
  | step n ih =>
    have hparts (cs : List Node) (hcs : ∀ c ∈ cs, c.kinds.count .integer + c.kinds.count .real =
        c.kinds.count .number + ([c.kind].count .integer + [c.kind].count .real)) :
        (cs.flatMap Node.kinds).count .integer + (cs.flatMap Node.kinds).count .real =
          (cs.flatMap Node.kinds).count .number +
            ((cs.map Node.kind).count .integer + (cs.map Node.kind).count .real) := by
      induction cs with
      | nil => rfl
      | cons c cs ihcs =>
        obtain ⟨hc, hcs⟩ := List.forall_mem_cons.mp hcs
        have hothers := ihcs hcs
        simp only [List.map_cons, List.flatMap_cons, List.count_append, List.count_cons,
          List.count_nil]
          at hc ⊢
        omega
    have hchildren := n.count_children
    have hbelow := hparts _ ih
    rw [Node.kinds_eq]
    simp only [List.count_cons, List.count_nil] at hchildren ⊢
    omega

/-! ## Source texts -/

theorem Token.mayIdle_of_hasContent (t : Token) (h : t.hasContent = true) : t.mayIdle = false := by
  cases t with
  | keyword word =>
    revert h
    cases word <;> decide
  | mark symbol =>
    revert h
    cases symbol <;> decide
  | _ => rfl

/-- Parsing loses no token with content, and a walk over the tree meets all of them. -/
theorem Source.content_of_module {source : String} {m : Module} (h : Source.module source = .ok m) :
    ∃ tokens last, Scanner.scan source 1 = .ok (tokens, last) ∧
      (tokens.map LocatedToken.token).filter Token.hasContent =
        (Node.root m).tree.preorder.flatMap Node.content := by
  obtain ⟨tokens, last, hscan, hrule, hfits⟩ := Source.module_eq_ok_iff.mp h
  refine ⟨tokens, last, hscan, ?_⟩
  rw [← Node.filter_tokens_eq_preorder, Node.tokens, Grammar.tokens_of_isModule ⟨hrule, hfits⟩]
  exact (filter_condense Token.mayIdle_of_hasContent [] _).symm

/-- A counter accounts for every token with content of a source text.  It lists the nodes of any
tree in preorder, where the parts of a node come in the order of the source, and its numbers are
those of the list. -/
theorem Source.counter_accounts_for_tokens (source : String) (m : Module)
    (h : Source.module source = .ok m) :
    (∃ tokens last, Scanner.scan source 1 = .ok (tokens, last) ∧
        Balance (tokens.map LocatedToken.token) (Counter.ofNode (.root m)).count
          ((Node.root m).tree.preorder.countP Node.isQualified)
          ((Node.root m).tree.preorder.countP Node.isExported)) ∧
      (Counter.ofNode (.root m)).count .number =
        (Counter.ofNode (.root m)).count .integer + (Counter.ofNode (.root m)).count .real ∧
      ∀ n : Node, (Counter.ofNode n).order.toList = n.tree.preorder.map Node.kind ∧
        n.tree.preorder = n :: n.children.flatMap (fun child => child.tree.preorder) ∧
        n.tokens.filter Token.hasContent = n.tree.preorder.flatMap Node.content ∧
        (∀ kind, (Counter.ofNode n).count kind = (Counter.ofNode n).order.toList.count kind) ∧
        (Counter.ofNode n).total = n.tree.preorder.length := by
  refine ⟨?_, ?_, fun n => ⟨Counter.order_ofNode n, n.preorder_eq, n.filter_tokens_eq_preorder,
    Counter.consistent_ofNode n, Counter.total_ofNode n⟩⟩
  · obtain ⟨tokens, last, hscan, hcontent⟩ := Source.content_of_module h
    refine ⟨tokens, last, hscan, .of_filter ?_⟩
    have hcount : (Counter.ofNode (.root m)).count = (Node.root m).kinds.count :=
      funext (Counter.count_ofNode (.root m))
    rw [hcontent, hcount]
    exact balance_flatMap _
  · rw [Counter.count_ofNode, Counter.count_ofNode, Counter.count_ofNode]
    exact (Node.count_number (.root m)).symm

/-- The tokens of a module with an import, export marks, a sign, an operator and a procedure. -/
theorem Source.counter_accounts_for_tokens_sample :
    Source.module (sampleModule.source 2) = .ok sampleModule ∧
      ∃ tokens last, Scanner.scan (sampleModule.source 2) 1 = .ok (tokens, last) ∧
        Balance (tokens.map LocatedToken.token) (Counter.ofNode (.root sampleModule)).count
          ((Node.root sampleModule).tree.preorder.countP Node.isQualified)
          ((Node.root sampleModule).tree.preorder.countP Node.isExported) := by
  have hsource : Source.module (sampleModule.source 2) = .ok sampleModule :=
    printable_sampleModule.module_source 2
  exact ⟨hsource, (Source.counter_accounts_for_tokens _ sampleModule hsource).1⟩

end Oberon
