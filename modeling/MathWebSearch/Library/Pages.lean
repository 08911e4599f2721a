/-
**Pages of a list.**

A page is a stretch of positions. It is cut out of a list that comes in blocks, either of the concatenation or
of every block by itself.

* `drop_take_append` — cutting a page out of a longer list: what the added items contribute, with the two ways
  to count off what comes before.
* `positions_join` — pages that follow one another.
* `perBlock_eq_iff`, `perBlock_eq_of_filter`, `serves_of_perBlock_eq` — when cutting the same positions out of every block gives the page of the concatenation.
-/

import Mathlib

namespace Pages

variable {Item : Type*}

/-- The items at the positions from `first` on and before `last`. -/
def positions (items : List Item) (first last : Nat) : List Item := (items.take last).drop first

theorem positions_append (items : List Item) {first middle last : Nat}
    (ordered : first ≤ middle) (below : middle ≤ last) :
    positions items first middle ++ positions items middle last = positions items first last := by
  unfold positions
  rw [List.drop_take, List.drop_take, List.drop_take,
    show last - first = (middle - first) + (last - middle) by omega, List.take_add, List.drop_drop,
    show first + (middle - first) = middle by omega]

/-- Pages that end at the latest at `limit` join. -/
theorem positions_join (items : List Item) (offset size size' limit : Nat) :
    positions items offset (min (offset + size) limit) ++
        positions items (offset + size) (min (offset + size + size') limit) =
      positions items offset (min (offset + (size + size')) limit) := by
  rcases Nat.lt_or_ge limit (offset + size) with cut | room
  · have nothing : positions items (offset + size) (min (offset + size + size') limit) = [] :=
      List.drop_eq_nil_of_le (by rw [List.length_take]; omega)
    rw [nothing, List.append_nil, min_eq_right cut.le, min_eq_right (by omega)]
  · rw [min_eq_left room, ← Nat.add_assoc]
    exact positions_append items (Nat.le_add_right _ _) (le_min (Nat.le_add_right _ _) room)

/-- **Cutting a page out of a longer list.** -/
theorem drop_take_append (before items : List Item) (offset size : Nat) :
    ((before ++ items).drop offset).take size = (before.drop offset).take size ++
      (if before.length < size + offset ∧ offset < before.length + items.length then
        (if offset < before.length then items.take (size + offset - before.length)
          else (items.drop (offset - before.length)).take size)
      else []) := by
  rw [List.drop_append, List.take_append, List.length_drop]
  congr 1
  split_ifs with listed inside
  · rw [show offset - before.length = 0 by omega, List.drop_zero,
      show size - (before.length - offset) = size + offset - before.length by omega]
  · rw [show size - (before.length - offset) = size by omega]
  · rcases not_and_or.mp listed with beyond | early
    · rw [show size - (before.length - offset) = 0 by omega, List.take_zero]
    · rw [List.drop_eq_nil_of_le (by omega), List.take_nil]

/-- A single item is on the page or not. -/
theorem drop_take_concat (before : List Item) (item : Item) (offset size : Nat) :
    ((before ++ [item]).drop offset).take size = (before.drop offset).take size ++
      (if before.length < size + offset ∧ offset < before.length + 1 then [item] else []) := by
  rw [drop_take_append, List.length_singleton]
  congr 1
  split_ifs with listed inside
  · rw [List.take_of_length_le (by rw [List.length_singleton]; omega)]
  · rw [show offset - before.length = 0 by omega, List.drop_zero,
      List.take_of_length_le (by rw [List.length_singleton]; omega)]
  · rfl

/-! ### Blocks -/

/-- The same positions of every block. -/
def perBlock (offset size : Nat) (blocks : List (List Item)) : List Item :=
  blocks.flatMap fun block => (block.drop offset).take size

variable {offset size : Nat}

theorem perBlock_eq_nil {blocks : List (List Item)} (short : ∀ block ∈ blocks, block.length ≤ offset) :
    perBlock offset size blocks = [] := by
  refine List.flatMap_eq_nil_iff.mpr fun block among => ?_
  rw [List.drop_eq_nil_of_le (short block among), List.take_nil]

/-- Nothing is taken only from blocks that end before the page. -/
theorem length_le_of_perBlock_eq_nil {blocks : List (List Item)} (some : 0 < size)
    (empty : perBlock offset size blocks = []) : ∀ block ∈ blocks, block.length ≤ offset := by
  intro block among
  have nothing := congrArg List.length (List.flatMap_eq_nil_iff.mp empty block among)
  rw [List.length_take, List.length_drop, List.length_nil] at nothing
  omega

/-- What is taken first stands at the first position of the page in its block. -/
theorem head_perBlock {blocks : List (List Item)} {item : Item}
    (head : (perBlock offset size blocks).head? = some item) : ∃ block ∈ blocks, block[offset]? = some item := by
  induction blocks with
  | nil => cases head
  | cons block rest ih =>
    rw [perBlock, List.flatMap_cons, List.head?_append] at head
    cases here : ((block.drop offset).take size).head? with
    | none =>
      rw [here, Option.none_or] at head
      obtain ⟨other, among, found⟩ := ih head
      exact ⟨other, List.mem_cons_of_mem _ among, found⟩
    | some first =>
      rw [here, Option.some_or] at head
      refine ⟨block, List.mem_cons_self, ?_⟩
      have positive : size ≠ 0 := fun none => by rw [none, List.take_zero] at here; cases here
      rw [List.head?_take, if_neg positive, List.head?_drop] at here
      rw [here, head]

/-- An item of the concatenation stands in a block at the latest at the same position. -/
theorem getElem?_flatten {blocks : List (List Item)} : ∀ {position : Nat} {item : Item},
    blocks.flatten[position]? = some item → ∃ block ∈ blocks, ∃ inner ≤ position, block[inner]? = some item := by
  induction blocks with
  | nil => intro position item found; cases found
  | cons block rest ih =>
    intro position item found
    rw [List.flatten_cons] at found
    rcases Nat.lt_or_ge position block.length with inside | beyond
    · rw [List.getElem?_append_left inside] at found
      exact ⟨block, List.mem_cons_self, position, le_rfl, found⟩
    · rw [List.getElem?_append_right beyond] at found
      obtain ⟨other, among, inner, below, foundInner⟩ := ih found
      exact ⟨other, List.mem_cons_of_mem _ among, inner, by omega, foundInner⟩

/-- Cutting every block down to `size` leaves at least what cutting the concatenation leaves. -/
theorem min_length_flatten_le (blocks : List (List Item)) :
    min size blocks.flatten.length ≤ (perBlock 0 size blocks).length := by
  induction blocks with
  | nil => simp
  | cons block rest ih =>
    rw [perBlock, List.flatMap_cons, List.length_append, List.flatten_cons, List.length_append, List.drop_zero,
      List.length_take]
    rw [perBlock] at ih
    omega

/-- When the same positions of every block are the page of the concatenation, by the lengths of the blocks: the
page is empty, or there is one block only, or the page is everything, or it lies in the first block and the
others end before it. -/
def Serves (offset size : Nat) (lengths : List Nat) : Prop :=
  size = 0 ∨ lengths.sum ≤ offset ∨ (offset = 0 ∧ lengths.sum ≤ size) ∨
    ∃ first others, lengths = first :: others ∧
      (others = [] ∨ (offset + size ≤ first ∧ ∀ length ∈ others, length ≤ offset))

/-- Items at different positions are different, also in different blocks. -/
def Apart (blocks : List (List Item)) : Prop :=
  ∀ block ∈ blocks, ∀ other ∈ blocks, ∀ (position position' : Nat) (item : Item),
    block[position]? = some item → other[position']? = some item → position = position'

theorem length_le_flatten {blocks : List (List Item)} {block : List Item} (among : block ∈ blocks) :
    block.length ≤ blocks.flatten.length := by
  rw [List.length_flatten]
  exact List.le_sum_of_mem (List.mem_map_of_mem among)

theorem perBlock_eq_of_serves {blocks : List (List Item)} (serves : Serves offset size (blocks.map List.length)) :
    perBlock offset size blocks = (blocks.flatten.drop offset).take size := by
  rw [Serves, ← List.length_flatten] at serves
  rcases serves with rfl | beyond | ⟨rfl, all⟩ | ⟨first, others, lengths, served⟩
  · rw [List.take_zero]
    exact List.flatMap_eq_nil_iff.mpr fun block _ => List.take_zero
  · rw [List.drop_eq_nil_of_le beyond, List.take_nil]
    exact perBlock_eq_nil fun block among => (length_le_flatten among).trans beyond
  · rw [List.drop_zero, List.take_of_length_le all, perBlock, ← List.flatMap_id']
    refine List.flatMap_congr fun block among => ?_
    rw [List.drop_zero, List.take_of_length_le ((length_le_flatten among).trans all)]
  · obtain ⟨block, rest, rfl, rfl, rfl⟩ := List.map_eq_cons_iff.mp lengths
    rcases served with alone | ⟨inside, short⟩
    · rw [List.map_eq_nil_iff.mp alone]
      simp [perBlock]
    · have nothing := @perBlock_eq_nil _ offset size rest fun other among =>
        short _ (List.mem_map_of_mem among)
      rw [perBlock] at nothing ⊢
      rw [List.flatMap_cons, nothing, List.append_nil, List.flatten_cons, drop_take_append, if_neg (by omega),
        List.append_nil]

/-- Two blocks or more and more than a page of items: the first pages of the blocks are too much. -/
theorem lt_length_perBlock {first second : List Item} {others : List (List Item)} (some : 0 < size)
    (filled : first ≠ []) (filled' : second ≠ []) (more : size < (first :: second :: others).flatten.length) :
    size < (perBlock 0 size (first :: second :: others)).length := by
  have rest := @min_length_flatten_le _ size (second :: others)
  have positive := List.length_pos_of_ne_nil filled
  have positive' := List.length_pos_of_ne_nil filled'
  rw [List.flatten_cons, List.length_append] at more rest
  rw [List.flatten_cons, List.length_append] at more
  rw [perBlock, List.flatMap_cons, List.length_append, List.drop_zero, List.length_take]
  rw [perBlock] at rest
  omega

/-- The page starts in the first block: what is left of it has to come from the other blocks. -/
theorem serves_of_inside {first : List Item} {others : List (List Item)} (some : 0 < size) (later : 0 < offset)
    (inside : offset < first.length) (filled : ∀ block ∈ others, block ≠ [])
    (apart : Apart (first :: others))
    (same : perBlock offset size (first :: others) = ((first :: others).flatten.drop offset).take size) :
    Serves offset size ((first :: others).map List.length) := by
  rw [perBlock, List.flatMap_cons, List.flatten_cons, List.drop_append, List.take_append, List.length_drop,
    show offset - first.length = 0 by omega, List.drop_zero] at same
  have rest : perBlock offset size others = others.flatten.take (size - (first.length - offset)) :=
    List.append_cancel_left same
  refine .inr (.inr (.inr ⟨first.length, others.map List.length, rfl, ?_⟩))
  rcases Nat.lt_or_ge (first.length - offset) size with runsOver | within
  · left
    cases others with
    | nil => rfl
    | cons second others =>
      obtain ⟨item, tail, rfl⟩ := List.exists_cons_of_ne_nil (filled second List.mem_cons_self)
      have head : (perBlock offset size ((item :: tail) :: others)).head? = Option.some item := by
        rw [rest, List.head?_take, if_neg (by omega)]
        rfl
      obtain ⟨block, among, found⟩ := head_perBlock head
      have := apart block (List.mem_cons_of_mem _ among) (item :: tail) (by simp) offset 0 item found rfl
      omega
  · right
    rw [show size - (first.length - offset) = 0 by omega, List.take_zero] at rest
    have short := length_le_of_perBlock_eq_nil some rest
    refine ⟨by omega, fun length among => ?_⟩
    obtain ⟨block, inside, rfl⟩ := List.mem_map.mp among
    exact short block inside

/-- **Paging block by block**, for blocks that are not empty and whose items tell their position. -/
theorem perBlock_eq_iff {blocks : List (List Item)} (filled : ∀ block ∈ blocks, block ≠ [])
    (apart : Apart blocks) :
    perBlock offset size blocks = (blocks.flatten.drop offset).take size ↔
      Serves offset size (blocks.map List.length) := by
  refine ⟨fun same => ?_, perBlock_eq_of_serves⟩
  rcases Nat.eq_zero_or_pos size with none | some
  · exact .inl none
  rcases Nat.lt_or_ge offset blocks.flatten.length with reached | beyond
  swap
  · exact .inr (.inl (by rwa [← List.length_flatten]))
  match blocks with
  | [] => simp at reached
  | first :: others =>
    rcases Nat.eq_zero_or_pos offset with rfl | later
    · cases others with
      | nil => exact .inr (.inr (.inr ⟨first.length, [], rfl, .inl rfl⟩))
      | cons second others =>
        refine .inr (.inr (.inl ⟨rfl, ?_⟩))
        rw [← List.length_flatten]
        by_contra more
        have longer := lt_length_perBlock some (filled first (by simp)) (filled second (by simp))
          (not_le.mp more)
        rw [same, List.length_take] at longer
        omega
    · rcases Nat.lt_or_ge offset first.length with inside | before
      · exact serves_of_inside some later inside (fun block among => filled block (List.mem_cons_of_mem _ among))
          apart same
      · -- the page starts at an earlier position of a later block
        exfalso
        obtain ⟨item, found⟩ : ∃ item, (first :: others).flatten[offset]? = Option.some item :=
          ⟨_, List.getElem?_eq_getElem reached⟩
        have head : (perBlock offset size (first :: others)).head? = Option.some item := by
          rw [same, List.head?_take, if_neg (by omega), List.head?_drop, found]
        obtain ⟨block, among, foundHere⟩ := head_perBlock head
        rw [List.flatten_cons, List.getElem?_append_right before] at found
        obtain ⟨other, amongOthers, inner, below, foundInner⟩ := getElem?_flatten found
        have := apart block among other (List.mem_cons_of_mem _ amongOthers) offset inner item foundHere foundInner
        have := List.length_pos_of_ne_nil (filled first List.mem_cons_self)
        omega

/-- Empty blocks do not matter. -/
theorem perBlock_filter (blocks : List (List Item)) :
    perBlock offset size (blocks.filter (0 < ·.length)) = perBlock offset size blocks ∧
      (blocks.filter (0 < ·.length)).flatten = blocks.flatten := by
  induction blocks with
  | nil => exact ⟨rfl, rfl⟩
  | cons block rest ih =>
    rw [perBlock, perBlock] at ih
    cases block with
    | nil => simpa [perBlock] using ih
    | cons item items => simp [perBlock, ih]

/-- Blocks that may be empty: the page of the concatenation where it is served. -/
theorem perBlock_eq_of_filter {blocks : List (List Item)}
    (serves : Serves offset size ((blocks.map List.length).filter (0 < ·))) :
    perBlock offset size blocks = (blocks.flatten.drop offset).take size := by
  rw [← (@perBlock_filter _ offset size blocks).1, ← (@perBlock_filter _ offset size blocks).2]
  refine perBlock_eq_of_serves ?_
  rw [List.filter_map] at serves
  exact serves

/-- Blocks that may be empty: nowhere else when the items tell their position. -/
theorem serves_of_perBlock_eq {blocks : List (List Item)} (apart : Apart blocks)
    (same : perBlock offset size blocks = (blocks.flatten.drop offset).take size) :
    Serves offset size ((blocks.map List.length).filter (0 < ·)) := by
  rw [← (@perBlock_filter _ offset size blocks).1, ← (@perBlock_filter _ offset size blocks).2] at same
  rw [List.filter_map]
  refine (perBlock_eq_iff (fun block among => ?_) fun block among other among' => ?_).mp same
  · exact List.ne_nil_of_length_pos (of_decide_eq_true (List.mem_filter.mp among).2)
  · exact apart block (List.mem_of_mem_filter among) other (List.mem_of_mem_filter among')

end Pages
