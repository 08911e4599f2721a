/-
**The variables among the children of a node** (`inode_get_max_var` of `mws/index/index.h`).

The scan reads the tokens of a node, at the places they have in a short node, up to the first one that is no variable.
The children are in the order of their packed tokens: by arity, and then by the bytes of the id, the low one first. So
a constant can come before a variable, and a node need not have a constant.

* `scan_spec` — over tokens that can be read the scan stops at the first constant.
* `scan_beyond` — over variables only it goes on behind them.
* `inodeGetMaxVar_iff` — **the scan counts the variables** and stays in the node exactly if they come first, in front of
  a constant, and the node is a short one or has no variables.
-/

import MathWebSearch.Query.Engine

namespace MathWebSearch

open EncodedToken

namespace Engine

/-! ### The scan and what it reads -/

/-- The addresses of the tokens that `inode_get_max_var` reads, from the entry `i` on. -/
def maxVarReads (image : List UInt8) (inode : Nat) : Nat → Nat → List Nat
  | 0, _ => []
  | fuel + 1, i =>
    entryAddress inode false i ::
      match entryToken image inode false i with
      | some token => if token.id ≤ varIdMax then maxVarReads image inode fuel (i + 1) else []
      | none => []

/-- An internal node as `exportToMemsector` writes it: it has children, in the order of `VectorMap`. -/
structure ExportedInode (image : List UInt8) (inode : Nat) (long : Bool) (entries : List (EncodedToken × Nat)) :
    Prop where
  holds : HoldsInode image inode long entries
  nonempty : entries ≠ []
  sorted : BinarySearch.StrictlyIncreasing EncodedToken.compare (entries.map Prod.fst)

/-- **What the scan is for**: it returns the number of variables, and reads tokens of entries of the node only. -/
def CountsVariables (image : List UInt8) (inode : Nat) (long : Bool) (entries : List (EncodedToken × Nat)) : Prop :=
  (∃ enough, ∀ fuel, enough ≤ fuel →
    inodeGetMaxVar image inode fuel 0 = .ok ((entries.map Prod.fst).countP isVar)) ∧
  ∀ fuel, ∀ address ∈ maxVarReads image inode fuel 0,
    ∃ number, number < entries.length ∧ address = entryAddress inode long number

/-- A short node has a constant, and its variables are below its constants; a long node has no variables. -/
def VariablesFirst (long : Bool) (tokens : List EncodedToken) : Prop :=
  if long then ∀ token ∈ tokens, token.isVar = false
  else (∃ token ∈ tokens, token.isVar = false) ∧
    ∀ token ∈ tokens, ∀ other ∈ tokens, token.isVar = true → other.isVar = false →
      EncodedToken.compare token other = .lt

/-! ### Tokens that can be read -/

section Scan

variable {image : List UInt8} {inode : Nat}

/-- **The scan stops at the first constant**, with the number of tokens before it. -/
theorem scan_spec (tokens : List EncodedToken) : ∀ {i : Nat},
    (∀ number token, tokens[number]? = some token → entryToken image inode false (i + number) = some token) →
    (∃ token ∈ tokens, token.isVar = false) →
    (∀ fuel, tokens.length ≤ fuel →
      inodeGetMaxVar image inode fuel i = .ok (i + (tokens.takeWhile isVar).length)) ∧
    ∀ fuel, ∀ address ∈ maxVarReads image inode fuel i,
      ∃ number, number < tokens.length ∧ address = entryAddress inode false (i + number) := by
  induction tokens with
  | nil => exact fun _ ⟨token, member, _⟩ => absurd member List.not_mem_nil
  | cons token rest ih =>
    intro i reads constant
    have here : entryToken image inode false i = some token := reads 0 token rfl
    have later : ∀ number token, rest[number]? = some token →
        entryToken image inode false (i + 1 + number) = some token := by
      intro number token' found
      rw [Nat.add_right_comm, Nat.add_assoc]
      exact reads (number + 1) token' found
    by_cases var : token.isVar = true
    · obtain ⟨other, member, isConstant⟩ := constant
      have among : other ∈ rest := by
        refine (List.mem_cons.mp member).resolve_left fun same => ?_
        rw [same, var] at isConstant
        cases isConstant
      obtain ⟨returns, stays⟩ := ih later ⟨other, among, isConstant⟩
      constructor
      · intro fuel enough
        obtain ⟨fuel, rfl⟩ : ∃ fuel', fuel = fuel' + 1 := ⟨fuel - 1, by rw [List.length_cons] at enough; omega⟩
        unfold inodeGetMaxVar
        rw [here]
        show (if token.id ≤ varIdMax then inodeGetMaxVar image inode fuel (i + 1) else _) = _
        rw [if_pos (of_decide_eq_true var), returns fuel (Nat.le_of_succ_le_succ enough),
          List.takeWhile_cons_of_pos var, List.length_cons]
        congr 1
        omega
      · intro fuel address member
        cases fuel with
        | zero => cases member
        | succ fuel =>
          unfold maxVarReads at member
          rw [here] at member
          dsimp only at member
          rw [if_pos (of_decide_eq_true var)] at member
          rcases List.mem_cons.mp member with rfl | member
          · exact ⟨0, Nat.succ_pos _, rfl⟩
          · obtain ⟨number, inside, rfl⟩ := stays fuel address member
            exact ⟨number + 1, Nat.succ_lt_succ inside, by rw [Nat.add_right_comm, Nat.add_assoc]⟩
    · have isConstant : ¬ token.id ≤ varIdMax := of_decide_eq_false (Bool.eq_false_of_not_eq_true var)
      constructor
      · intro fuel enough
        obtain ⟨fuel, rfl⟩ : ∃ fuel', fuel = fuel' + 1 := ⟨fuel - 1, by rw [List.length_cons] at enough; omega⟩
        unfold inodeGetMaxVar
        rw [here]
        show (if token.id ≤ varIdMax then inodeGetMaxVar image inode fuel (i + 1) else _) = _
        rw [if_neg isConstant, List.takeWhile_cons_of_neg var]
        rfl
      · intro fuel address member
        cases fuel with
        | zero => cases member
        | succ fuel =>
          unfold maxVarReads at member
          rw [here] at member
          dsimp only at member
          rw [if_neg isConstant, List.mem_singleton] at member
          exact ⟨0, Nat.succ_pos _, member⟩

/-- **Over variables only** the scan reads on behind them. -/
theorem scan_beyond (tokens : List EncodedToken) : ∀ {i : Nat},
    (∀ number token, tokens[number]? = some token → entryToken image inode false (i + number) = some token) →
    (∀ token ∈ tokens, token.isVar = true) →
    entryAddress inode false (i + tokens.length) ∈ maxVarReads image inode (tokens.length + 1) i := by
  induction tokens with
  | nil => exact fun _ _ => List.mem_cons_self
  | cons token rest ih =>
    intro i reads vars
    obtain ⟨var, others⟩ := List.forall_mem_cons.mp vars
    have later : ∀ number token, rest[number]? = some token →
        entryToken image inode false (i + 1 + number) = some token := by
      intro number token' found
      rw [Nat.add_right_comm, Nat.add_assoc]
      exact reads (number + 1) token' found
    have beyond := ih later others
    rw [Nat.add_right_comm, Nat.add_assoc] at beyond
    unfold maxVarReads
    rw [show entryToken image inode false i = some token from reads 0 token rfl]
    dsimp only
    rw [if_pos (of_decide_eq_true var)]
    exact List.mem_cons_of_mem _ beyond

end Scan

/-! ### Nodes -/

section Nodes

variable {image : List UInt8} {inode : Nat} {long : Bool} {entries : List (EncodedToken × Nat)}

/-- The places of the entries. -/
theorem entryAddress_inj {number number' : Nat} (same : entryAddress inode long number = entryAddress inode long number') :
    number = number' := by
  unfold entryAddress offWidth at same
  split at same
  · omega
  · omega

/-- A long node has no entry where the second entry of a short one is. -/
theorem entryAddress_long (number : Nat) : entryAddress inode false 1 ≠ entryAddress inode true number := by
  unfold entryAddress offWidth
  simp only [if_true, Bool.false_eq_true, if_false]
  omega

/-- The tokens of a short node can be read. -/
theorem ExportedInode.reads_short (node : ExportedInode image inode false entries) (number : Nat) (token : EncodedToken)
    (found : (entries.map Prod.fst)[number]? = some token) : entryToken image inode false (0 + number) = some token := by
  rw [List.getElem?_map, Option.map_eq_some_iff] at found
  obtain ⟨entry, atEntry, rfl⟩ := found
  rw [Nat.zero_add]
  exact node.holds.entryToken_eq atEntry

/-- The first token is at the same place in both layouts. -/
theorem ExportedInode.reads_first {first : EncodedToken × Nat} {rest : List (EncodedToken × Nat)}
    (node : ExportedInode image inode long (first :: rest)) (number : Nat) (token : EncodedToken)
    (found : [first.1][number]? = some token) : entryToken image inode false (0 + number) = some token := by
  cases number with
  | zero =>
    obtain rfl := Option.some.inj found
    have read := @HoldsInode.entryToken_eq image inode long (first :: rest) node.holds 0 first rfl
    cases long with
    | true => exact read
    | false => exact read
  | succ number => cases found

/-- **The scan counts the variables** of a node, and stays in it, exactly if they come first. -/
theorem countsVariables_short (node : ExportedInode image inode false entries) :
    CountsVariables image inode false entries ↔ VariablesFirst false (entries.map Prod.fst) := by
  have first := BinarySearch.StrictlyIncreasing.takeWhile_iff node.sorted isVar
  constructor
  · rintro ⟨⟨enough, returned⟩, stays⟩
    have constant : ∃ token ∈ entries.map Prod.fst, token.isVar = false := by
      by_contra none
      have beyond := scan_beyond (entries.map Prod.fst) node.reads_short fun token member =>
        Bool.eq_true_of_not_eq_false fun constant => none ⟨token, member, constant⟩
      obtain ⟨number, inside, same⟩ := stays _ _ beyond
      rw [Nat.zero_add, List.length_map] at same
      have := entryAddress_inj same
      omega
    refine ⟨constant, first.mp ?_⟩
    obtain ⟨scanned, -⟩ := scan_spec (entries.map Prod.fst) node.reads_short constant
    have here := scanned (max enough (entries.map Prod.fst).length) (le_max_right _ _)
    rw [returned _ (le_max_left _ _), Nat.zero_add] at here
    exact (Except.ok.inj here).symm
  · rintro ⟨constant, below⟩
    obtain ⟨scanned, stays⟩ := scan_spec (entries.map Prod.fst) node.reads_short constant
    rw [Nat.zero_add, first.mpr below] at scanned
    refine ⟨⟨_, scanned⟩, fun fuel address member => ?_⟩
    obtain ⟨number, inside, rfl⟩ := stays fuel address member
    rw [List.length_map] at inside
    exact ⟨number, inside, by rw [Nat.zero_add]⟩

/-- In a long node only the first token is where the scan looks for it. -/
theorem countsVariables_long (node : ExportedInode image inode true entries) :
    CountsVariables image inode true entries ↔ VariablesFirst true (entries.map Prod.fst) := by
  obtain ⟨first, rest, rfl⟩ := List.exists_cons_of_ne_nil node.nonempty
  have first_mem : first.1 ∈ (first :: rest).map Prod.fst := List.mem_map_of_mem List.mem_cons_self
  constructor
  · rintro ⟨⟨enough, returned⟩, stays⟩
    have constant : first.1.isVar = false := by
      by_contra var
      rw [Bool.not_eq_false] at var
      have beyond := scan_beyond [first.1] node.reads_first fun token member =>
        (List.mem_singleton.mp member).symm ▸ var
      obtain ⟨number, -, same⟩ := stays _ _ beyond
      exact entryAddress_long number same
    obtain ⟨scanned, -⟩ := scan_spec [first.1] node.reads_first ⟨_, List.mem_singleton_self _, constant⟩
    have here := scanned (max enough 1) (le_max_right _ _)
    rw [returned _ (le_max_left _ _), List.takeWhile_cons_of_neg (by rw [constant]; decide)] at here
    have none := List.countP_eq_zero.mp (Except.ok.inj here)
    exact fun token member => Bool.eq_false_of_not_eq_true (none token member)
  · intro none
    have constant : first.1.isVar = false := none first.1 first_mem
    obtain ⟨scanned, stays⟩ := scan_spec [first.1] node.reads_first ⟨_, List.mem_singleton_self _, constant⟩
    have count : ((first :: rest).map Prod.fst).countP isVar = 0 :=
      List.countP_eq_zero.mpr fun token member => by rw [none token member]; decide
    refine ⟨⟨1, fun fuel enough => ?_⟩, fun fuel address member => ?_⟩
    · rw [scanned fuel enough, List.takeWhile_cons_of_neg (by rw [constant]; decide), count]
      rfl
    · obtain ⟨number, inside, rfl⟩ := stays fuel address member
      obtain rfl : number = 0 := by rw [List.length_singleton] at inside; omega
      exact ⟨0, Nat.succ_pos _, rfl⟩

end Nodes

/-- **The scan counts the variables** of an exported node, and stays in it, exactly if they come first. -/
theorem inodeGetMaxVar_iff {image : List UInt8} {inode : Nat} {long : Bool} {entries : List (EncodedToken × Nat)}
    (node : ExportedInode image inode long entries) :
    CountsVariables image inode long entries ↔ VariablesFirst long (entries.map Prod.fst) := by
  cases long with
  | true => exact countsVariables_long node
  | false => exact countsVariables_short node

/-- A short node. -/
def shortNode (entries : List (EncodedToken × Nat)) : List UInt8 :=
  inodeBytes internalNode entries.length ++ entries.flatMap (entryBytes false)

theorem holdsInode_shortNode (entries : List (EncodedToken × Nat)) : HoldsInode (shortNode entries) 0 false entries := by
  have whole := Bytes.holds_append [] (shortNode entries) []
  rw [List.nil_append, List.append_nil] at whole
  exact whole

/-- A variable and a constant. -/
def variableFirst : List (EncodedToken × Nat) := [(encodedToken 1 0, 1), (encodedToken 161 0, 2)]

theorem exportedInode_variableFirst : ExportedInode (shortNode variableFirst) 0 false variableFirst where
  holds := holdsInode_shortNode variableFirst
  nonempty := List.cons_ne_nil _ _
  sorted := by
    unfold BinarySearch.StrictlyIncreasing
    decide

/-- One variable is counted. -/
theorem countsVariables_variableFirst : CountsVariables (shortNode variableFirst) 0 false variableFirst :=
  (inodeGetMaxVar_iff exportedInode_variableFirst).mpr ⟨by decide, by decide⟩

/-- The constant with the id 256, whose low byte is zero, and the variable with the id 1. -/
def constantFirst : List (EncodedToken × Nat) := [(encodedToken 256 0, 1), (encodedToken 1 0, 2)]

theorem exportedInode_constantFirst : ExportedInode (shortNode constantFirst) 0 false constantFirst where
  holds := holdsInode_shortNode constantFirst
  nonempty := List.cons_ne_nil _ _
  sorted := by
    unfold BinarySearch.StrictlyIncreasing
    decide

/-- **Not every node** has its variables first. -/
theorem not_countsVariables : ¬ ∀ (image : List UInt8) (inode : Nat) (long : Bool) (entries : List (EncodedToken × Nat)),
    ExportedInode image inode long entries → CountsVariables image inode long entries := by
  intro all
  obtain ⟨-, below⟩ := (countsVariables_short exportedInode_constantFirst).mp (all _ _ _ _ exportedInode_constantFirst)
  have order := below (encodedToken 1 0) (by decide) (encodedToken 256 0) (by decide) (by decide) (by decide)
  exact absurd order (by decide)

end Engine

end MathWebSearch
