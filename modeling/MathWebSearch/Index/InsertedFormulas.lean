/-
**The walk of `insertData` with the map operations it makes** (`TmpIndex::insertData`, `VectorMap::operator[]`).

`children` is a map of pointers here: `children[token]` makes a null entry where the token is missing, and the assignment
that follows looks the token up once more. The look-ups are those of the source, whose positions have 31 bits
(`findIterator`, `insertInt`).

* `slot_of_mem`, `slot_of_place` — what the two look-ups find.
* `insertAtInt_eq` — the walk is `insertAt`, with room for one more child wherever it goes.
* `MadeOf` — the indexes that calls of `insertData` make; `Narrow` — fewer than `2 ^ 31` different tokens behind every
  beginning.
* `MadeOf.stores` — **the trie stores exactly the inserted formulas**.
-/

import MathWebSearch.Types.FiniteMap
import MathWebSearch.Index.TrieContents

set_option linter.unusedSectionVars false

namespace MathWebSearch

open PrefixCode

/-! ### A map of pointers -/

namespace VectorMap

section Pointers

variable {κ ν : Type} (cmp : κ → κ → Ordering)

/-- The map with its values behind pointers, none of them null. -/
def pointers (data : VectorMap κ ν) : VectorMap κ (Option ν) := data.map fun entry => (entry.1, some entry.2)

/-- The values behind the pointers; `none` where one of them is null. -/
def deref (data : VectorMap κ (Option ν)) : Option (VectorMap κ ν) :=
  data.mapM fun entry => entry.2.map fun value => (entry.1, value)

/-- `map[key]`, and where that is null `map[key] = fresh`: the map, the position of the key and what was there. -/
def slot (data : VectorMap κ ν) (key : κ) (fresh : ν) : Option (VectorMap κ (Option ν) × Nat × Option ν) := do
  let (children, position, _) ← insertInt cmp (pointers data) (key, none)
  let (_, pointer) ← children[position]?
  match pointer with
  | some value => return (children, position, some value)
  | none =>
    let (children, position, _) ← insertInt cmp children (key, none)
    return (children.set position (key, some fresh), position, none)

end Pointers

section Facts

variable {κ ν : Type} {cmp : κ → κ → Ordering} [Std.TransCmp cmp] [Std.LawfulEqCmp cmp]
variable {data low high : VectorMap κ ν} {key : κ}

@[simp] theorem deref_pointers (data : VectorMap κ ν) : deref (pointers data) = some data := by
  induction data with
  | nil => rfl
  | cons entry data ih =>
    rw [deref] at ih ⊢
    rw [pointers, List.map_cons, List.mapM_cons, ← pointers, ih]
    rfl

@[simp] theorem pointers_middle (low high : VectorMap κ ν) (key : κ) (value : ν) :
    pointers (low ++ (key, value) :: high) = pointers low ++ (key, some value) :: pointers high := by
  rw [pointers, List.map_append, List.map_cons]
  rfl

theorem length_pointers (data : VectorMap κ ν) : (pointers data).length = data.length := List.length_map _

theorem pointers_set (low : VectorMap κ ν) (key : κ) (old value : ν) (high : VectorMap κ ν) :
    (pointers (low ++ (key, old) :: high)).set low.length (key, some value) = pointers (low ++ (key, value) :: high) := by
  rw [pointers_middle, pointers_middle, ← length_pointers low, set_middle]

theorem keys_pointers (data : VectorMap κ ν) : (pointers data).map Prod.fst = data.map Prod.fst := by
  rw [pointers, List.map_map]
  rfl

theorem Sorted.pointers (sorted : Sorted cmp data) : Sorted cmp (VectorMap.pointers data) := by
  unfold Sorted at sorted ⊢
  rwa [keys_pointers]

/-- A key that is there. -/
theorem slot_of_mem {value : ν} (sorted : Sorted cmp (low ++ (key, value) :: high))
    (few : (low ++ (key, value) :: high).length < 2 ^ 31) (fresh : ν) :
    slot cmp (low ++ (key, value) :: high) key fresh =
      some (pointers (low ++ (key, value) :: high), low.length, some value) := by
  have sorted' := sorted.pointers
  rw [pointers_middle] at sorted'
  have inserted := insert_of_mem sorted' none
  rw [← pointers_middle, length_pointers] at inserted
  rw [slot, insertInt_eq (by rw [length_pointers]; exact few), inserted]
  have there := getElem?_middle (pointers low) (key, some value) (pointers high)
  rw [← pointers_middle, length_pointers] at there
  simp only [Option.bind_eq_bind, Option.bind_some, there]
  rfl

/-- A key that is missing: the null entry that the first look-up makes is found by the second. -/
theorem slot_of_place (sorted : Sorted cmp data) (absent : key ∉ data.map Prod.fst) (few : data.length + 1 < 2 ^ 31)
    (fresh : ν) : ∃ low high, data = low ++ high ∧
      slot cmp data key fresh = some (pointers (low ++ (key, fresh) :: high), low.length, none) ∧
      ∀ value, assign cmp data key value = low ++ (key, value) :: high := by
  obtain ⟨lowPointers, highPointers, split, inserted, sorted'⟩ :=
    insert_of_notMem sorted.pointers (by rwa [keys_pointers]) (none : Option ν)
  obtain ⟨low, high, rfl, eqLow, eqHigh⟩ := List.map_eq_append_iff.mp split
  obtain rfl : lowPointers = pointers low := eqLow.symm
  obtain rfl : highPointers = pointers high := eqHigh.symm
  have place : Sorted cmp (low ++ (key, fresh) :: high) := by
    unfold Sorted at sorted' ⊢
    rw [List.map_append, List.map_cons] at sorted' ⊢
    rwa [← keys_pointers low, ← keys_pointers high]
  refine ⟨low, high, rfl, ?_, fun value => assign_of_place place value⟩
  have once : (pointers (low ++ high)).length < 2 ^ 31 := by
    rw [length_pointers]
    omega
  have twice : (pointers low ++ (key, none) :: pointers high).length < 2 ^ 31 := by
    rw [List.length_append, List.length_cons, length_pointers, length_pointers]
    rw [List.length_append] at few
    omega
  rw [slot, insertInt_eq once, inserted]
  simp only [Option.bind_eq_bind, Option.bind_some, getElem?_middle, insertInt_eq twice, insert_of_mem sorted' none,
    set_middle, Option.pure_def, pointers_middle]
  rw [length_pointers]

end Facts

end VectorMap

/-! ### The walk -/

namespace TmpIndexNode

open VectorMap

/-- The walk of `insertData` from `node`, with the look-ups that it makes. -/
def insertAtInt : EncodedFormula → TmpIndexNode → Nat → Option (TmpIndexNode × TmpLeaf × Nat)
  | [], _, _ => none
  | [token], node, nextId => do
    let leaf : TmpLeaf := ⟨(nextId + 1) % 2 ^ 32, 0⟩
    let (pointers, _, last) ← slot EncodedToken.compare node.children token (leafNode leaf)
    let children ← deref pointers
    match last with
    | some last =>
      match last.leaf with
      | some leaf => return (mk node.leaf children, leaf, nextId)
      | none => none
    | none => return (mk node.leaf children, leaf, leaf.id)
  | token :: second :: rest, node, nextId => do
    let (pointers, position, next) ← slot EncodedToken.compare node.children token newNode
    let (next, leaf, nextId) ← insertAtInt (second :: rest) (next.getD newNode) nextId
    let children ← deref (pointers.set position (token, some next))
    return (mk node.leaf children, leaf, nextId)

/-- Wherever the formula goes below a node, the children and its next token are fewer than `2 ^ 31`. -/
def HasRoom (formula : EncodedFormula) (node : TmpIndexNode) : Prop :=
  ∀ path token rest last, formula = path ++ token :: rest → Reaches node path last →
    (insert token (last.children.map Prod.fst).toFinset).card < 2 ^ 31

namespace HasRoom

variable {token : EncodedToken} {rest : EncodedFormula} {node : TmpIndexNode}

theorem below (room : HasRoom (token :: rest) node) {next : TmpIndexNode} (member : (token, next) ∈ node.children) :
    HasRoom rest next := by
  rintro path token' rest' last rfl reaches
  exact room (token :: path) token' rest' last rfl (@Reaches.step _ _ (token, next) _ member reaches)

theorem newNode (formula : EncodedFormula) : HasRoom formula newNode := by
  rintro path token rest last - reaches
  cases reaches with
  | here => exact lt_of_le_of_lt (Finset.card_insert_le _ _) (by decide)
  | step member => cases member

theorem few (room : HasRoom (token :: rest) node) (sorted : Sorted EncodedToken.compare node.children) :
    node.children.length < 2 ^ 31 ∧
      (token ∉ node.children.map Prod.fst → node.children.length + 1 < 2 ^ 31) := by
  have here := room [] token rest node rfl (.here node)
  have length : (node.children.map Prod.fst).toFinset.card = node.children.length := by
    rw [List.toFinset_card_of_nodup sorted.nodup, List.length_map]
  refine ⟨?_, fun absent => ?_⟩
  · exact lt_of_le_of_lt (length.ge.trans (Finset.card_le_card (Finset.subset_insert _ _))) here
  · rwa [Finset.card_insert_of_notMem fun member => absent (List.mem_toFinset.mp member), length] at here

end HasRoom

/-- **The look-ups of the source do not matter** where there is room. -/
theorem insertAtInt_eq (formula : EncodedFormula) : ∀ {opened : Nat} {node : TmpIndexNode} (nextId : Nat),
    Closes EncodedToken.arity (opened + 1) formula → (node = newNode ∨ WellFormed (opened + 1) node) →
    HasRoom formula node → insertAtInt formula node nextId = insertAt formula node nextId := by
  induction formula with
  | nil => intro opened node nextId closes; exact (not_closes_nil closes).elim
  | cons token rest ih =>
    intro opened node nextId closes shape room
    have sorted := sorted_of_new_or shape
    obtain ⟨few, fewer⟩ := room.few sorted
    rw [closes_cons] at closes
    cases found : node.child token with
    | none =>
      have absent := (VectorMap.find_eq_none_iff sorted).mp found
      cases rest with
      | nil =>
        obtain ⟨low, high, -, made, assigned⟩ :=
          slot_of_place sorted absent (fewer absent) (leafNode ⟨(nextId + 1) % 2 ^ 32, 0⟩)
        rw [insertAtInt, insertAt, found, made]
        simp only [Option.bind_eq_bind, Option.bind_some, deref_pointers, setChild, assigned, Option.pure_def]
      | cons second rest =>
        obtain ⟨low, high, -, made, assigned⟩ := slot_of_place sorted absent (fewer absent) newNode
        obtain ⟨count, countEq, shape'⟩ := inner_of_closes shape closes
        rw [found] at shape'
        rw [countEq] at closes
        rw [insertAtInt, insertAt, found, made]
        · simp only [Option.bind_eq_bind, Option.bind_some, pointers_set]
          rw [Option.getD_none] at shape' ⊢
          rw [ih nextId closes shape' (.newNode _)]
          simp only [deref_pointers, setChild, assigned, Option.bind_some]
        · simp
    | some next =>
      have member := (VectorMap.find_eq_some_iff sorted).mp found
      obtain ⟨low, high, split⟩ := List.append_of_mem member
      have made := @slot_of_mem _ _ EncodedToken.compare _ _ low high token next (split ▸ sorted) (split ▸ few)
      cases rest with
      | nil =>
        rw [insertAtInt, insertAt, found, split, made]
        simp only [Option.bind_eq_bind, Option.bind_some, deref_pointers, Option.pure_def]
        rw [← split]
        cases node
        rfl
      | cons second rest =>
        obtain ⟨count, countEq, shape'⟩ := inner_of_closes shape closes
        rw [found] at shape'
        rw [countEq] at closes
        rw [insertAtInt, insertAt, found, split, made]
        · rw [Option.getD_some] at shape'
          simp only [Option.bind_eq_bind, Option.bind_some, Option.getD_some, pointers_set]
          rw [ih nextId closes shape' (room.below member)]
          simp only [deref_pointers, setChild, split, assign_of_mem (split ▸ sorted), Option.bind_some]
        · simp

end TmpIndexNode

/-! ### Calls of `insertData` -/

namespace TmpIndex

open TmpIndexNode

/-- `insertData`, with the look-ups of the source. -/
def insertDataInt (index : TmpIndex) (encodedFormula : EncodedFormula) : Option (TmpIndex × TmpLeaf) := do
  let (root, leaf, nextId) ← insertAtInt encodedFormula index.root index.nextId
  return (⟨root, nextId⟩, leaf)

/-- The tokens that come behind a beginning. -/
def followers (formulas : List EncodedFormula) (path : EncodedFormula) : Finset EncodedToken :=
  (formulas.filterMap fun formula => if path <+: formula then formula[path.length]? else none).toFinset

theorem mem_followers {formulas : List EncodedFormula} {path : EncodedFormula} {token : EncodedToken} :
    token ∈ followers formulas path ↔ ∃ rest, path ++ token :: rest ∈ formulas := by
  rw [followers, List.mem_toFinset, List.mem_filterMap]
  constructor
  · rintro ⟨formula, member, next⟩
    split_ifs at next with front
    obtain ⟨rest, rfl⟩ := front
    rw [List.getElem?_append_right (le_refl _), Nat.sub_self] at next
    cases rest with
    | nil => cases next
    | cons token' rest =>
      obtain rfl := Option.some.inj next
      exact ⟨rest, member⟩
  · rintro ⟨rest, member⟩
    refine ⟨_, member, ?_⟩
    rw [if_pos (List.prefix_append _ _), List.getElem?_append_right (le_refl _), Nat.sub_self]
    rfl

/-- **Fewer than `2 ^ 31` different tokens behind every beginning**, which is the limit of a `VectorMap`. -/
def Narrow (formulas : List EncodedFormula) : Prop := ∀ path, (followers formulas path).card < 2 ^ 31

theorem Narrow.mono {formulas more : List EncodedFormula} (narrow : Narrow more) (subset : formulas ⊆ more) :
    Narrow formulas := by
  refine fun path => lt_of_le_of_lt (Finset.card_le_card fun token member => ?_) (narrow path)
  obtain ⟨rest, inside⟩ := mem_followers.mp member
  exact mem_followers.mpr ⟨rest, subset inside⟩

/-- Formulas with few tokens are narrow. -/
theorem narrow_of_tokens {formulas : List EncodedFormula} (tokens : Finset EncodedToken) (few : tokens.card < 2 ^ 31)
    (all : ∀ formula ∈ formulas, ∀ token ∈ formula, token ∈ tokens) : Narrow formulas := by
  refine fun path => lt_of_le_of_lt (Finset.card_le_card fun token member => ?_) few
  obtain ⟨rest, inside⟩ := mem_followers.mp member
  exact all _ inside token (List.mem_append_right _ List.mem_cons_self)

/-- **The indexes that calls of `insertData` make** of complete prefix codes, in this order, with `solutions++` in
between. -/
inductive MadeOf : List EncodedFormula → TmpIndex → Prop
  | empty (nextId : Nat) : MadeOf [] (TmpIndex.empty nextId)
  | insertData {formulas : List EncodedFormula} {index index' : TmpIndex} {formula : EncodedFormula} {leaf : TmpLeaf} :
      MadeOf formulas index → formula.IsPrefixCode → index.insertDataInt formula = some (index', leaf) →
      MadeOf (formulas ++ [formula]) index'
  | addSolution {formulas : List EncodedFormula} {index : TmpIndex} {formula : EncodedFormula} {leaf : TmpLeaf} :
      MadeOf formulas index → index.leafAt formula = some leaf → MadeOf formulas (index.addSolution formula)

section

variable {formulas : List EncodedFormula} {index : TmpIndex}

/-- There is room in a trie of narrow formulas. -/
theorem Grown.hasRoom (grown : Grown formulas index) {formula : EncodedFormula}
    (narrow : Narrow (formulas ++ [formula])) : HasRoom formula index.root := by
  rintro path token rest last rfl reaches
  refine lt_of_le_of_lt (Finset.card_le_card fun other member => ?_) (narrow path)
  rw [mem_followers]
  rcases Finset.mem_insert.mp member with rfl | member
  · exact ⟨rest, List.mem_append_right _ (List.mem_singleton.mpr rfl)⟩
  · obtain ⟨rest', inside⟩ := grown.exists_formula reaches (List.mem_toFinset.mp member)
    exact ⟨rest', List.mem_append_left _ inside⟩

/-- One call, on narrow formulas. -/
theorem Grown.insertDataInt_eq (grown : Grown formulas index) {formula : EncodedFormula} (complete : formula.IsPrefixCode)
    (narrow : Narrow (formulas ++ [formula])) : index.insertDataInt formula = index.insertData formula := by
  rw [insertDataInt, TmpIndex.insertData,
    insertAtInt_eq formula index.nextId (EncodedFormula.isPrefixCode_iff.mp complete) grown.shaped (grown.hasRoom narrow)]

namespace MadeOf

theorem grown (inserted : MadeOf formulas index) (narrow : Narrow formulas) : Grown formulas index := by
  induction inserted with
  | empty nextId => exact .empty nextId
  | insertData _ complete step ih =>
    have before := ih (narrow.mono (List.subset_append_left _ _))
    rw [before.insertDataInt_eq complete narrow] at step
    exact .insertData before complete step
  | addSolution _ stored ih => exact .addSolution (ih narrow) stored

/-- **The trie stores exactly the inserted formulas.** After any sequence of `insertData` of complete prefix codes with
fewer than `2 ^ 31` different tokens behind every beginning: the paths to leaf nodes are the inserted formulas; a node is a
leaf node if and only if it has no children and is not the root, and all other nodes below the root have children;
inserting once more gives the leaf that is there or a fresh one, with a new id while there are fewer than `2 ^ 32` leaves,
and leaves all other leaves as they are. -/
theorem stores (inserted : MadeOf formulas index) (narrow : Narrow formulas) :
    (∀ path, (∃ node, Reaches index.root path node ∧ node.IsLeafNode) ↔ path ∈ formulas) ∧
    (∀ path node, Reaches index.root path node → (node.IsLeafNode ↔ node.children = [] ∧ path ≠ [])) ∧
    (∀ path node, Reaches index.root path node → ¬ node.IsLeafNode → path ≠ [] → node.children ≠ []) ∧
    ∀ formula, formula.IsPrefixCode → Narrow (formulas ++ [formula]) → ∃ index' leaf,
      index.insertDataInt formula = some (index', leaf) ∧ MadeOf (formulas ++ [formula]) index' ∧
      index'.leafAt formula = some leaf ∧ (∀ path, path ≠ formula → index'.leafAt path = index.leafAt path) ∧
      (formula ∈ formulas → index.leafAt formula = some leaf) ∧
      (formula ∉ formulas → index.leafAt formula = none ∧ leaf.solutions = 0 ∧
        (index.leaves.length < 2 ^ 32 → ∀ entry ∈ index.leaves, entry.2.id ≠ leaf.id)) := by
  have grown := inserted.grown narrow
  refine ⟨grown.leafPaths, fun path node reaches => grown.shaped.isLeafNode_iff reaches, ?_, ?_⟩
  · intro path node reaches inner below empty
    exact inner ((grown.shaped.isLeafNode_iff reaches).mpr ⟨empty, below⟩)
  · intro formula complete narrow'
    obtain ⟨index', leaf, result, _, stored, others, again, fresh⟩ := grown.insertData_next complete
    rw [← grown.insertDataInt_eq complete narrow'] at result
    refine ⟨index', leaf, result, inserted.insertData complete result, stored, others, again, fun new => ?_⟩
    obtain ⟨absent, leafEq⟩ := fresh new
    rw [leafEq]
    exact ⟨absent, rfl, grown.nextId_notMem⟩

end MadeOf

end

/-- Narrow formulas can be inserted one after the other. -/
theorem exists_madeOf (formulas : List EncodedFormula) (complete : ∀ formula ∈ formulas, formula.IsPrefixCode)
    (narrow : Narrow formulas) : ∃ index, MadeOf formulas index := by
  induction formulas using List.reverseRecOn with
  | nil => exact ⟨_, .empty 0⟩
  | append_singleton formulas formula ih =>
    have before := narrow.mono (List.subset_append_left formulas [formula])
    obtain ⟨index, inserted⟩ := ih (fun formula member => complete formula (List.mem_append_left _ member)) before
    have isCode := complete formula (List.mem_append_right _ (List.mem_singleton.mpr rfl))
    have grown := inserted.grown before
    obtain ⟨index', leaf, result, -⟩ := grown.insertData_next isCode
    rw [← grown.insertDataInt_eq isCode narrow] at result
    exact ⟨index', inserted.insertData isCode result⟩

/-! ### Formulas of bits -/

/-- `f` or `g`. -/
def letterToken (bit : Bool) : EncodedToken := encodedToken (bif bit then 164 else 162) 1

/-- One unary token for each of the bits of a number, and then `x`. -/
def bitFormula (bits number : Nat) : EncodedFormula :=
  (List.range bits).map (fun bit => letterToken (number.testBit bit)) ++ [encodedToken 163 0]

theorem bitFormula_complete (bits number : Nat) : (bitFormula bits number).IsPrefixCode := by
  rw [EncodedFormula.isPrefixCode_iff, bitFormula]
  induction List.range bits with
  | nil => exact EncodedFormula.isPrefixCode_iff.mp (by decide : EncodedFormula.IsPrefixCode [encodedToken 163 0])
  | cons bit rest ih =>
    rw [List.map_cons, List.cons_append, closes_cons, letterToken, encodedToken_arity]
    exact ih

theorem letterToken_injective : Function.Injective letterToken := by
  intro first second same
  cases first <;> cases second <;> first | rfl | exact absurd same (by decide)

theorem bitFormula_injOn {bits first second : Nat} (inFirst : first < 2 ^ bits) (inSecond : second < 2 ^ bits)
    (same : bitFormula bits first = bitFormula bits second) : first = second := by
  have tokens := List.append_cancel_right same
  refine Nat.eq_of_testBit_eq fun bit => ?_
  by_cases inside : bit < bits
  · have here := List.map_inj_left.mp tokens bit (List.mem_range.mpr inside)
    exact letterToken_injective here
  · have large : 2 ^ bits ≤ 2 ^ bit := Nat.pow_le_pow_right (by decide) (by omega)
    rw [Nat.testBit_lt_two_pow (lt_of_lt_of_le inFirst large), Nat.testBit_lt_two_pow (lt_of_lt_of_le inSecond large)]

/-- The tokens of these formulas. -/
def bitTokens : Finset EncodedToken := {letterToken true, letterToken false, encodedToken 163 0}

theorem mem_bitTokens {bits number : Nat} {token : EncodedToken} (member : token ∈ bitFormula bits number) :
    token ∈ bitTokens := by
  rw [bitFormula, List.mem_append, List.mem_map, List.mem_singleton] at member
  rcases member with ⟨bit, -, rfl⟩ | rfl
  · cases number.testBit bit <;> decide
  · decide

theorem of_mem_bitFormulas {bits count : Nat} {formula : EncodedFormula}
    (member : formula ∈ (List.range count).map (bitFormula bits)) : ∃ number, formula = bitFormula bits number := by
  obtain ⟨number, -, rfl⟩ := List.mem_map.mp member
  exact ⟨number, rfl⟩

/-- Such formulas are narrow, and one more. -/
theorem narrow_bitFormulas (bits count bits' number' : Nat) :
    Narrow ((List.range count).map (bitFormula bits) ++ [bitFormula bits' number']) := by
  refine narrow_of_tokens bitTokens (by decide) fun formula inside token member => ?_
  rcases List.mem_append.mp inside with inside | inside
  · obtain ⟨number, rfl⟩ := of_mem_bitFormulas inside
    exact mem_bitTokens member
  · rw [List.mem_singleton.mp inside] at member
    exact mem_bitTokens member

/-- An index of such formulas. -/
theorem exists_madeOf_bitFormulas (bits count : Nat) : ∃ index, MadeOf ((List.range count).map (bitFormula bits)) index := by
  refine exists_madeOf _ (fun formula member => ?_) ((narrow_bitFormulas bits count 0 0).mono (List.subset_append_left _ _))
  obtain ⟨number, rfl⟩ := of_mem_bitFormulas member
  exact bitFormula_complete bits number

/-- After `2 ^ 32` different formulas of 33 tokens, the leaf of one more has the id of an old leaf. -/
theorem insertData_oldId : ∃ formulas index formula index' leaf, MadeOf formulas index ∧
    Narrow (formulas ++ [formula]) ∧ (∀ formula ∈ formulas, formula.length = 33) ∧ formula.IsPrefixCode ∧
    formula ∉ formulas ∧ index.insertDataInt formula = some (index', leaf) ∧
    ∃ entry ∈ index.leaves, entry.2.id = leaf.id := by
  have narrow := narrow_bitFormulas 32 (2 ^ 32) 0 0
  have lengths : ∀ formula ∈ (List.range (2 ^ 32)).map (bitFormula 32), formula.length = 33 := by
    intro formula member
    obtain ⟨number, rfl⟩ := of_mem_bitFormulas member
    simp [bitFormula]
  have new : bitFormula 0 0 ∉ (List.range (2 ^ 32)).map (bitFormula 32) := fun member => absurd (lengths _ member) (by decide)
  have nodup : ((List.range (2 ^ 32)).map (bitFormula 32)).Nodup := by
    refine List.Nodup.map_on (fun first inFirst second inSecond same => ?_) List.nodup_range
    exact bitFormula_injOn (List.mem_range.mp inFirst) (List.mem_range.mp inSecond) same
  obtain ⟨index, inserted⟩ := exists_madeOf_bitFormulas 32 (2 ^ 32)
  have grown := inserted.grown (narrow.mono (List.subset_append_left _ _))
  obtain ⟨index', leaf, result, _, _, _, _, fresh⟩ := grown.insertData_next (bitFormula_complete 0 0)
  rw [← grown.insertDataInt_eq (bitFormula_complete 0 0) narrow] at result
  obtain ⟨_, rfl⟩ := fresh new
  have many : 2 ^ 32 ≤ index.leaves.length := by
    rw [grown.length_leaves, List.toFinset_card_of_nodup nodup, List.length_map, List.length_range]
  exact ⟨_, index, _, index', _, inserted, narrow, lengths, bitFormula_complete 0 0, new, result, grown.nextId_mem many⟩

/-- The four formulas of two bits: the second of them once more, and then a shorter one. -/
theorem stores_bitFormulas : ∃ index, MadeOf ((List.range 4).map (bitFormula 2)) index ∧
    (∃ index' leaf, index.insertDataInt (bitFormula 2 1) = some (index', leaf) ∧ index.leafAt (bitFormula 2 1) = some leaf ∧
      index'.leafAt (bitFormula 2 2) = index.leafAt (bitFormula 2 2)) ∧
    ∃ index' leaf, index.insertDataInt (bitFormula 1 1) = some (index', leaf) ∧ index.leafAt (bitFormula 1 1) = none ∧
      ∀ entry ∈ index.leaves, entry.2.id ≠ leaf.id := by
  obtain ⟨index, inserted⟩ := exists_madeOf_bitFormulas 2 4
  have narrow := (narrow_bitFormulas 2 4 0 0).mono (List.subset_append_left _ _)
  have four : index.leaves.length < 2 ^ 32 := by
    rw [(inserted.grown narrow).length_leaves]
    decide
  have next := (inserted.stores narrow).2.2.2
  obtain ⟨index₁, leaf₁, result₁, -, -, others, again, -⟩ :=
    next (bitFormula 2 1) (bitFormula_complete 2 1) (narrow_bitFormulas 2 4 2 1)
  obtain ⟨index₂, leaf₂, result₂, -, -, -, -, fresh⟩ :=
    next (bitFormula 1 1) (bitFormula_complete 1 1) (narrow_bitFormulas 2 4 1 1)
  obtain ⟨absent, -, new⟩ := fresh (by decide)
  exact ⟨index, inserted, ⟨index₁, leaf₁, result₁, again (by decide), others _ (by decide)⟩,
    index₂, leaf₂, result₂, absent, new four⟩

end TmpIndex

end MathWebSearch
