/-
**The bounds of ranges** (`CmmlToken::getRangeBounds`, `ExpressionEncoder::encode`, `RangeCtxt::validSubst`).

The encoder of a query notes the bounds of its ranges under their ids, and the search looks them up. A bound that is
missing or cannot be read is a limit of `double`; but `numeric_limits<double>::min()` is the smallest positive one.

* `Doubles.exact` — doubles as exact rational numbers, with `std::stod` as an oracle.
* `Noted` — what `encode` has noted after some nodes.
* `admits_range_iff` — the numbers that are accepted in the position of a range.
* `absentBoundsFree_iff` — when a bound that is not there does not bound.
-/

import MathWebSearch.Index.EncodedShape
import MathWebSearch.Query.SearchTable

namespace MathWebSearch

open CmmlToken PatternWord

/-! ### Doubles -/

/-- `numeric_limits<double>::max()`. -/
def doubleMax : ℚ := (2 - 1 / 2 ^ 52) * 2 ^ 1023

/-- `numeric_limits<double>::min()`: the smallest positive normal number. -/
def doubleMin : ℚ := 1 / 2 ^ 1022

/-- The finite doubles, among them zero and the negative ones. -/
structure FiniteDouble where
  val : ℚ
  finite : |val| ≤ doubleMax

theorem abs_doubleMax_le : |doubleMax| ≤ doubleMax := by
  refine le_of_eq (abs_of_nonneg ?_)
  unfold doubleMax
  norm_num

theorem abs_doubleMin_le : |doubleMin| ≤ doubleMax := by
  have positive : 0 ≤ doubleMin := by
    unfold doubleMin
    positivity
  rw [abs_of_nonneg positive]
  calc doubleMin ≤ 1 := by
        unfold doubleMin
        rw [div_le_one (by positivity)]
        exact one_le_pow₀ (by norm_num)
    _ ≤ doubleMax := by
        unfold doubleMax
        have large : (1 : ℚ) ≤ 2 ^ 1023 := one_le_pow₀ (by norm_num)
        have factor : (1 : ℚ) ≤ 2 - 1 / 2 ^ 52 := by norm_num
        exact one_le_mul_of_one_le_of_one_le factor large

theorem abs_zero_le : |(0 : ℚ)| ≤ doubleMax := by
  rw [abs_zero]
  exact (abs_nonneg _).trans abs_doubleMax_le

/-- Doubles taken as exact rational numbers. -/
def Doubles.exact (stod : Str → Option FiniteDouble) : Doubles where
  Carrier := FiniteDouble
  stod := stod
  le first second := first.val ≤ second.val
  min := ⟨doubleMin, abs_doubleMin_le⟩
  max := ⟨doubleMax, abs_doubleMax_le⟩

namespace ExpressionEncoder

/-! ### What `encode` notes -/

/-- The ranges among nodes. -/
def rangesOf (nodes : List Located) : List CmmlToken := (nodes.map Located.token).filter CmmlToken.isRange

/-- The id that the range with a number gets. -/
def rangeId (number : Nat) : Nat := (encodedToken (getRangeOffset + number) 1).id

variable {D : Doubles}

/-- What `encode` has noted after nodes: one token for each, and the bounds of the ranges under their ids. -/
structure Noted (front : List Located) (round : Round D) : Prop where
  length : round.encodedFormula.length = front.length
  ranges : round.anonRangeId = (rangesOf front).length
  bounds : ∃ info, round.expressionInfo = some info ∧
    info.rangeBounds = (rangesOf front).zipIdx.map fun range => (rangeId range.2, range.1.getRangeBounds D)

theorem rangesOf_concat (front : List Located) (located : Located) :
    rangesOf (front ++ [located]) = rangesOf front ++ if located.token.isRange then [located.token] else [] := by
  rw [rangesOf, List.map_append, List.filter_append, ← rangesOf, List.map_singleton, List.filter_singleton]
  cases located.token.isRange <;> rfl

/-- A range: its bounds are noted under the next id. -/
theorem encodeNode_range (kind : EncoderKind) (config : EncoderConfig) (round : Round D) {located : Located}
    (isRange : located.token.isRange = true) :
    encodeNode kind config round located = { round with
      anonRangeId := round.anonRangeId + 1
      encodedFormula := round.encodedFormula ++ [encodedToken (getRangeOffset + round.anonRangeId) 1]
      expressionInfo := round.expressionInfo.map fun info =>
        { info with rangeBounds := info.rangeBounds ++
            [(rangeId round.anonRangeId, located.token.getRangeBounds D)] } } := by
  have noVar : located.token.isVar = false := by
    rw [CmmlToken.isRange, decide_eq_true_iff] at isRange
    rw [CmmlToken.isVar, isRange]
    rfl
  unfold encodeNode encodeToken
  simp only [noVar, Bool.false_eq_true, if_false, isRange, if_true]
  rfl

/-- Another node: one more token, and no bounds. -/
theorem encodeNode_other (kind : EncoderKind) (config : EncoderConfig) (round : Round D) {located : Located}
    (goesOn : accepted located = true) (other : located.token.isRange = false) :
    (∃ token, (encodeNode kind config round located).encodedFormula = round.encodedFormula ++ [token]) ∧
    (encodeNode kind config round located).anonRangeId = round.anonRangeId ∧
    ∀ info, round.expressionInfo = some info →
      ∃ info', (encodeNode kind config round located).expressionInfo = some info' ∧
        info'.rangeBounds = info.rangeBounds := by
  unfold encodeNode encodeToken
  simp only [other, Bool.false_eq_true, if_false]
  by_cases isVar : located.token.isVar = true
  · simp only [isVar, if_true]
    split
    · exact ⟨⟨_, rfl⟩, rfl, fun info given => ⟨info, given, rfl⟩⟩
    · refine ⟨⟨_, rfl⟩, rfl, fun info given => ?_⟩
      simp only [Option.getD_some, given, Option.map_some]
      exact ⟨_, rfl, rfl⟩
  · have narrow : ¬ encTokMaxArity < located.token.getArity := by
      rw [accepted, Bool.eq_false_iff.mpr isVar, other, Bool.false_or, Bool.false_or, decide_eq_true_iff] at goesOn
      exact not_lt.mpr goesOn
    simp only [isVar, Bool.false_eq_true, if_false, narrow]
    exact ⟨⟨_, rfl⟩, rfl, fun info given => ⟨info, given, rfl⟩⟩

/-- **One node.** -/
theorem Noted.next {front : List Located} {round : Round D} (noted : Noted front round) (kind : EncoderKind)
    (config : EncoderConfig) {located : Located} (goesOn : accepted located = true) :
    Noted (front ++ [located]) (encodeNode kind config round located) := by
  obtain ⟨info, given, bounds⟩ := noted.bounds
  cases isRange : located.token.isRange with
  | true =>
    have ranges : rangesOf (front ++ [located]) = rangesOf front ++ [located.token] := by
      rw [rangesOf_concat, isRange]
      rfl
    rw [encodeNode_range kind config round isRange]
    refine ⟨?_, ?_, ?_⟩
    · simp only [List.length_append, List.length_singleton, noted.length]
    · rw [ranges, List.length_append, List.length_singleton, noted.ranges]
    · simp only [given, Option.map_some]
      refine ⟨_, rfl, ?_⟩
      rw [ranges, List.zipIdx_append, List.map_append, ← bounds, noted.ranges]
      simp
  | false =>
    have ranges : rangesOf (front ++ [located]) = rangesOf front := by
      rw [rangesOf_concat, isRange]
      exact List.append_nil _
    obtain ⟨⟨token, formula⟩, counter, kept⟩ := encodeNode_other kind config round goesOn isRange
    obtain ⟨info', given', same⟩ := kept info given
    refine ⟨?_, ?_, info', given', ?_⟩
    · rw [formula, List.length_append, List.length_append, noted.length]
      rfl
    · rw [counter, noted.ranges, ranges]
    · rw [same, bounds, ranges]

/-- **All nodes.** -/
theorem Noted.foldl (kind : EncoderKind) (config : EncoderConfig) (nodes : List Located) :
    ∀ {front : List Located} {round : Round D}, Noted front round → (∀ located ∈ nodes, accepted located = true) →
      Noted (front ++ nodes) (nodes.foldl (encodeNode kind config) round) := by
  induction nodes with
  | nil => intro front round noted _; exact (List.append_nil front).symm ▸ noted
  | cons located rest ih =>
    intro front round noted all
    have next := noted.next kind config (all located List.mem_cons_self)
    have later := ih next fun other member => all other (List.mem_cons_of_mem _ member)
    rwa [List.append_assoc, List.singleton_append] at later

/-- What is written stays. -/
theorem prefix_foldl (kind : EncoderKind) (config : EncoderConfig) (nodes : List Located) : ∀ round : Round D,
    (∀ located ∈ nodes, accepted located = true) →
      round.encodedFormula <+: (nodes.foldl (encodeNode kind config) round).encodedFormula := by
  induction nodes with
  | nil => intro round _; exact List.prefix_rfl
  | cons located rest ih =>
    intro round all
    have later := ih (encodeNode kind config round located) fun other member => all other (List.mem_cons_of_mem _ member)
    refine List.IsPrefix.trans ?_ later
    cases isRange : located.token.isRange with
    | true =>
      rw [encodeNode_range kind config round isRange]
      exact List.prefix_append _ _
    | false =>
      obtain ⟨⟨token, formula⟩, -⟩ := encodeNode_other kind config round (all located List.mem_cons_self) isRange
      rw [formula]
      exact List.prefix_append _ _

theorem rangeId_eq {number : Nat} (small : number + rangeIdMin < 2 ^ 24) : rangeId number = rangeIdMin + number := by
  rw [rangeId, encodedToken_id, getRangeOffset]
  omega

/-- The bounds of a range are found under its id. -/
theorem lookup_rangeId {ranges later : List CmmlToken} {range : CmmlToken}
    (small : ranges.length + rangeIdMin < 2 ^ 24) :
    (((ranges ++ range :: later).zipIdx.map fun range => (rangeId range.2, range.1.getRangeBounds D)).lookup
      (rangeId ranges.length)) = some (range.getRangeBounds D) := by
  have earlier : (ranges.zipIdx.map fun range => (rangeId range.2, range.1.getRangeBounds D)).lookup
      (rangeId ranges.length) = none := by
    refine List.lookup_eq_none_iff.mpr fun entry member => ?_
    obtain ⟨⟨other, number⟩, among, rfl⟩ := List.mem_map.mp member
    have below : number < ranges.length := List.snd_lt_of_mem_zipIdx among
    rw [bne_iff_ne, rangeId_eq small, rangeId_eq (by omega)]
    omega
  rw [List.zipIdx_append, List.map_append, List.lookup_append, earlier, List.zipIdx_cons, List.map_cons, Nat.zero_add,
    List.lookup_cons_self]
  rfl

/-- **What a query says about one of its ranges**: its token and the bounds under the id of the token. -/
theorem encode_range {kind : EncoderKind} {self : ExpressionEncoder} {config : EncoderConfig} {query : CmmlToken}
    {round : Round D} (encoded : encode kind self config (.root query) (some ⟨[], [], []⟩) = (round, 0))
    {front back : List Located} {located : Located} (split : dfs [.root query] = front ++ located :: back)
    (isRange : located.token.isRange = true) (small : (rangesOf front).length + rangeIdMin < 2 ^ 24) :
    round.encodedFormula[front.length]? = some (encodedToken (rangeIdMin + (rangesOf front).length) 1) ∧
    ∃ info, round.expressionInfo = some info ∧
      info.rangeBounds.lookup (rangeId (rangesOf front).length) = some (located.token.getRangeBounds D) := by
  have all : ∀ located ∈ dfs [Located.root query], accepted located = true := by
    rw [encode, encodeLoop_eq] at encoded
    refine List.all_eq_true.mp (Bool.not_eq_false _ ▸ fun some => ?_)
    simp only [some] at encoded
    cases (Prod.mk.inj encoded).2
  rw [encode, encodeLoop_all kind config all, split] at encoded
  rw [split] at all
  obtain ⟨rfl, -⟩ := Prod.mk.inj encoded
  have start : Noted [] (self.startRound (some (⟨[], [], []⟩ : ExpressionInfo D))) := ⟨rfl, rfl, _, rfl, rfl⟩
  have before := start.foldl kind config front fun other member => all other (List.mem_append_left _ member)
  rw [List.nil_append] at before
  constructor
  · -- the token is written when the traversal is at the range, and stays
    rw [List.foldl_append, List.foldl_cons, encodeNode_range kind config _ isRange]
    obtain ⟨later, grown⟩ := prefix_foldl kind config back _ fun other member => all other
      (List.mem_append_right _ (List.mem_cons_of_mem _ member))
    rw [← grown, List.append_assoc, List.getElem?_append_right before.length.le, before.length, Nat.sub_self,
      before.ranges]
    rfl
  · obtain ⟨info, given, bounds⟩ := (start.foldl kind config (front ++ located :: back) all).bounds
    refine ⟨info, given, ?_⟩
    have ranges : rangesOf ([] ++ (front ++ located :: back)) = rangesOf front ++ located.token :: rangesOf back := by
      rw [List.nil_append, rangesOf, List.map_append, List.filter_append, List.map_cons,
        List.filter_cons_of_pos isRange]
      rfl
    rw [bounds, ranges]
    exact lookup_rangeId small

end ExpressionEncoder

/-! ### What is accepted in the position of a range -/

open ExpressionEncoder SearchContext

/-- There are ids for 32 ranges; the ids behind them are those of constants. -/
theorem role_rangeId {number : Nat} (small : number + rangeIdMin < 2 ^ 24) :
    (encodedToken (rangeIdMin + number) 1).role =
      if number < 32 then .restricted (rangeIdMin + number) else .constant := by
  have id : (encodedToken (rangeIdMin + number) 1).id = rangeIdMin + number := by
    rw [encodedToken_id]
    omega
  have noVar : (encodedToken (rangeIdMin + number) 1).isVar = false := by
    rw [EncodedToken.isVar, id, decide_eq_false_iff_not, varIdMax, rangeIdMin]
    omega
  have isRange : (encodedToken (rangeIdMin + number) 1).isRange = decide (number < 32) := by
    rw [EncodedToken.isRange, id, Bool.eq_iff_iff, Bool.and_eq_true, decide_eq_true_iff, decide_eq_true_iff,
      decide_eq_true_iff, rangeIdMax, rangeIdMin]
    omega
  rw [EncodedToken.role, noVar, isRange, id]
  simp only [Bool.false_eq_true, if_false, decide_eq_true_iff]

/-- A token that a query token admits in its position. -/
def Admits {D : Doubles} (context : SearchContext D) (query token : EncodedToken) : Prop :=
  ∃ substitution, Instance EncodedToken.arity EncodedToken.role (accepts context) substitution [query] [token]

/-- A range admits the tokens it accepts. -/
theorem admits_restricted {D : Doubles} {context : SearchContext D} {query token : EncodedToken} {id : Nat}
    (role : query.role = .restricted id) : Admits context query token ↔ accepts context id token = true := by
  constructor
  · rintro ⟨substitution, inst⟩
    have matched : MatchesQuery (accepts context) (fun _ => none) [query] (token :: []) :=
      ⟨substitution, (fun _ _ found => by cases found), inst⟩
    exact ((matches_restricted role).mp matched).1.2
  · intro accepted
    exact ⟨fun _ => [], .restricted role (arity_of_accepts accepted) accepted .nil⟩

/-- A constant admits itself only. -/
theorem admits_constant {D : Doubles} {context : SearchContext D} {query token : EncodedToken}
    (role : query.role = .constant) : Admits context query token ↔ token = query := by
  constructor
  · rintro ⟨substitution, inst⟩
    have matched : MatchesQuery (accepts context) (fun _ => none) [query] (token :: []) :=
      ⟨substitution, (fun _ _ found => by cases found), inst⟩
    exact ((matches_constant role).mp matched).1
  · rintro rfl
    exact ⟨fun _ => [], .constant role .nil⟩

/-- The bound that an attribute gives, if it is there and can be read. -/
def boundOf (stod : Str → Option FiniteDouble) (range : CmmlToken) (attr : Str) : Option FiniteDouble :=
  (range.attributes.lookup attr).bind stod

section Position

variable {stod : Str → Option FiniteDouble} {self : ExpressionEncoder} {config : EncoderConfig} {query : CmmlToken}
  {round : Round (Doubles.exact stod)} {front back : List Located} {located : Located} {token : EncodedToken}
  {dictionary : MeaningDictionary} {text : Str} {value : FiniteDouble}

/-- **The numbers a range admits**: those between its bounds, if there is an id for the range, and no number else. -/
theorem admits_range_iff (encoded : encode .query self config (.root query) (some ⟨[], [], []⟩) = (round, 0))
    (split : dfs [.root query] = front ++ located :: back) (isRange : located.token.isRange = true)
    (small : (rangesOf front).length + rangeIdMin < 2 ^ 24) (flat : token.arity = 0)
    (known : (ExpressionDecoder.new dictionary).getMeaning token.id = some (numberPref ++ text))
    (number : stod text = some value) :
    ∃ info at', round.expressionInfo = some info ∧ round.encodedFormula[front.length]? = some at' ∧
      ∀ options, (Admits (SearchContext.new round.encodedFormula options info.rangeBounds (some dictionary)) at' token ↔
        (rangesOf front).length < 32 ∧
        ((boundOf stod located.token rangeLowAttr).getD ⟨doubleMin, abs_doubleMin_le⟩).val ≤ value.val ∧
        value.val ≤ ((boundOf stod located.token rangeHighAttr).getD ⟨doubleMax, abs_doubleMax_le⟩).val) := by
  obtain ⟨written, info, given, bounds⟩ := encode_range encoded split isRange small
  refine ⟨info, _, given, written, fun options => ?_⟩
  have role := role_rangeId small
  by_cases own : (rangesOf front).length < 32
  · rw [if_pos own] at role
    have noted : (SearchContext.new round.encodedFormula options info.rangeBounds
        (some dictionary)).rangeBounds.lookup (rangeIdMin + (rangesOf front).length) =
          some (located.token.getRangeBounds (Doubles.exact stod)) := by
      rw [← rangeId_eq small]
      exact bounds
    have valid : validSubst (Doubles.exact stod) (SearchContext.new round.encodedFormula options info.rangeBounds
        (some dictionary)).decoder (located.token.getRangeBounds (Doubles.exact stod)) token = _ :=
      validSubst_of_meaning _ _ known flat
    rw [admits_restricted role, accepts, noted, Option.bind_some, valid, Option.getD_some, numberInRange,
      List.take_left, List.drop_left, decide_eq_true rfl, Bool.true_and]
    simp only [Doubles.exact, number, Bool.and_eq_true, decide_eq_true_iff]
    exact (and_iff_right own).symm
  · rw [if_neg own] at role
    rw [admits_constant role]
    constructor
    · rintro rfl
      cases flat
    · rintro ⟨few, -⟩
      exact absurd few own

/-- **A bound that is not there does not bound**: what is said of a number that is accepted in the position of a
range. -/
@[mk_iff absentBoundsFree_iff]
structure AbsentBoundsFree (stod : Str → Option FiniteDouble) (range : CmmlToken) (value : FiniteDouble)
    (admitted : Prop) : Prop where
  low : boundOf stod range rangeLowAttr = none →
    (admitted ↔ ∀ high, boundOf stod range rangeHighAttr = some high → value.val ≤ high.val)
  high : boundOf stod range rangeHighAttr = none →
    (admitted ↔ ∀ low, boundOf stod range rangeLowAttr = some low → low.val ≤ value.val)
  both : boundOf stod range rangeLowAttr = none → boundOf stod range rangeHighAttr = none → admitted

/-- The number is beyond a bound that is there. -/
def Beyond (stod : Str → Option FiniteDouble) (range : CmmlToken) (value : FiniteDouble) : Prop :=
  (∃ low, boundOf stod range rangeLowAttr = some low ∧ value.val < low.val) ∨
    ∃ high, boundOf stod range rangeHighAttr = some high ∧ high.val < value.val

/-- The condition under which a missing bound does not bound. -/
def MissingHarmless (stod : Str → Option FiniteDouble) (range : CmmlToken) (value : FiniteDouble) (own : Prop) : Prop :=
  ((boundOf stod range rangeLowAttr).isSome ∧ (boundOf stod range rangeHighAttr).isSome) ∨
    Beyond stod range value ∨ own ∧ ((boundOf stod range rangeLowAttr).isSome ∨ doubleMin ≤ value.val)

/-- The condition decides, whatever the bounds are. -/
theorem absentBoundsFree_of_admitted (stod : Str → Option FiniteDouble) (range : CmmlToken) (value : FiniteDouble)
    {admitted own : Prop} (admits : admitted ↔ own ∧
      ((boundOf stod range rangeLowAttr).getD ⟨doubleMin, abs_doubleMin_le⟩).val ≤ value.val ∧
      value.val ≤ ((boundOf stod range rangeHighAttr).getD ⟨doubleMax, abs_doubleMax_le⟩).val) :
    AbsentBoundsFree stod range value admitted ↔ MissingHarmless stod range value own := by
  have finite : value.val ≤ doubleMax := le_trans (le_abs_self _) value.finite
  rw [absentBoundsFree_iff]
  unfold MissingHarmless Beyond
  cases low : boundOf stod range rangeLowAttr with
  | none =>
    cases high : boundOf stod range rangeHighAttr with
    | none =>
      rw [low, high] at admits
      simp only [Option.getD_none] at admits
      simp [admits, finite]
    | some bound =>
      -- what is above the high bound is not accepted, and need not be
      rw [low, high] at admits
      simp only [Option.getD_none, Option.getD_some] at admits
      rcases le_or_gt value.val bound.val with within | above
      · simp [admits, within, not_lt.mpr within]
      · simp [admits, above, not_le.mpr above]
  | some bound =>
    cases high : boundOf stod range rangeHighAttr with
    | none =>
      rw [low, high] at admits
      simp only [Option.getD_none, Option.getD_some] at admits
      rcases le_or_gt bound.val value.val with within | below
      · simp [admits, within, finite, not_lt.mpr within]
      · simp [admits, below, not_le.mpr below]
    | some bound' => simp

/-- **An absent range bound is no bound** for a number exactly when the number is not below the smallest positive
double, or there is a low bound, or the number is beyond a bound that is there. -/
theorem absentBounds_iff (encoded : encode .query self config (.root query) (some ⟨[], [], []⟩) = (round, 0))
    (split : dfs [.root query] = front ++ located :: back) (isRange : located.token.isRange = true)
    (small : (rangesOf front).length + rangeIdMin < 2 ^ 24) (flat : token.arity = 0)
    (known : (ExpressionDecoder.new dictionary).getMeaning token.id = some (numberPref ++ text))
    (number : stod text = some value) :
    ∃ info at', round.expressionInfo = some info ∧ round.encodedFormula[front.length]? = some at' ∧
      ∀ options, (AbsentBoundsFree stod located.token value
          (Admits (SearchContext.new round.encodedFormula options info.rangeBounds (some dictionary)) at' token) ↔
        MissingHarmless stod located.token value ((rangesOf front).length < 32)) := by
  obtain ⟨info, at', given, written, admits⟩ := admits_range_iff encoded split isRange small flat known number
  exact ⟨info, at', given, written, fun options =>
    absentBoundsFree_of_admitted stod located.token value (admits options)⟩

end Position

/-! ### A range without bounds -/

/-- `std::stod` as far as the number zero goes. -/
def stodZero (text : Str) : Option FiniteDouble :=
  if text = ['0'] then some ⟨0, abs_zero_le⟩ else none

/-- A range as a query. -/
def rangeQuery (attributes : List (Str × Str)) : CmmlToken := .mk rangeTag attributes .empty []

/-- The dictionary of an index that contains `<cn>0</cn>`. -/
def zeroDictionary : MeaningDictionary := ((IdDictionary.empty : MeaningDictionary).put (numberPref ++ ['0'])).1

/-- What the query is encoded as. -/
def rangeRound (attributes : List (Str × Str)) : Round (Doubles.exact stodZero) :=
  (encode .query (ExpressionEncoder.new zeroDictionary) ⟨false⟩ (.root (rangeQuery attributes))
    (some ⟨[], [], []⟩)).1

theorem dfs_rangeQuery (attributes : List (Str × Str)) :
    dfs [.root (rangeQuery attributes)] = [.root (rangeQuery attributes)] := by
  rw [dfs_eq]
  rfl

theorem rangeQuery_encoded (attributes : List (Str × Str)) :
    encode .query (ExpressionEncoder.new zeroDictionary) ⟨false⟩ (.root (rangeQuery attributes))
      (some ⟨[], [], []⟩) = (rangeRound attributes, 0) := by
  rw [rangeRound, encode, dfs_rangeQuery]
  rfl

theorem zero_known : (ExpressionDecoder.new zeroDictionary).getMeaning (encodedToken 162 0).id =
    some (numberPref ++ ['0']) := by decide

/-- **A range without bounds does not accept zero.** -/
theorem rangeQuery_zero : ∃ info at', (rangeRound []).expressionInfo = some info ∧
    (rangeRound []).encodedFormula[0]? = some at' ∧
    ¬ AbsentBoundsFree stodZero (rangeQuery []) ⟨0, abs_zero_le⟩
      (Admits (SearchContext.new (rangeRound []).encodedFormula {} info.rangeBounds (some zeroDictionary)) at'
        (encodedToken 162 0)) := by
  obtain ⟨info, at', given, written, admits⟩ := @admits_range_iff stodZero _ _ _ _ [] [] _ (encodedToken 162 0) _ _
    ⟨0, abs_zero_le⟩ (rangeQuery_encoded []) (dfs_rangeQuery []) rfl (by decide) rfl zero_known rfl
  refine ⟨info, at', given, written, fun free => ?_⟩
  obtain ⟨-, above, -⟩ := (admits {}).mp (free.both rfl rfl)
  have positive : 0 < doubleMin := by
    unfold doubleMin
    positivity
  exact absurd above (not_le.mpr positive)

/-- The range `<mws:range low="0"/>` and the number zero. -/
theorem absentBounds_lowZero : ∃ info at', (rangeRound [(rangeLowAttr, ['0'])]).expressionInfo = some info ∧
    (rangeRound [(rangeLowAttr, ['0'])]).encodedFormula[0]? = some at' ∧
    ∀ options, (AbsentBoundsFree stodZero (rangeQuery [(rangeLowAttr, ['0'])]) ⟨0, abs_zero_le⟩
        (Admits (SearchContext.new (rangeRound [(rangeLowAttr, ['0'])]).encodedFormula options info.rangeBounds
          (some zeroDictionary)) at' (encodedToken 162 0)) ↔
      MissingHarmless stodZero (rangeQuery [(rangeLowAttr, ['0'])]) ⟨0, abs_zero_le⟩ (0 < 32)) :=
  @absentBounds_iff stodZero _ _ _ _ [] [] _ (encodedToken 162 0) _ _ ⟨0, abs_zero_le⟩ (rangeQuery_encoded _)
    (dfs_rangeQuery _) rfl (by decide) rfl zero_known rfl

end MathWebSearch
