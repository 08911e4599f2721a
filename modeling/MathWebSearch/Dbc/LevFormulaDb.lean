/-
**The formula database on disk** (`LevFormulaDb`).

leveldb is a map ordered by the bytes of its keys, whose `Put` succeeds. An occurrence is stored under the decimal form
of its formula id, a `!` and the decimal form of a counter; a query goes through the keys between `f!` and `f!\xff`.

* `insertAll_new` — a new database stores every occurrence of a run of insertions, as long as the counter has not come
  round.
* `queryFormula_eq_passOn` — a query reads back the occurrences under its id, in the order of their keys.
* `queryFormula_insertAll` — so the ids are kept apart, and nothing is lost.
-/

import MathWebSearch.Types.Parcelable
import MathWebSearch.Types.Decimal
import MathWebSearch.Library.OrderedMap

namespace MathWebSearch

/-! ### The database -/

/-- `LevFormulaDb`: `mDatabase` and `mCounter`. -/
structure LevFormulaDb where
  mDatabase : OrderedMap Str Str
  mCounter : Nat

namespace LevFormulaDb

/-- `create_new`, on a path without a database. -/
def createNew : LevFormulaDb := ⟨.empty, 0⟩

/-- The value of `insertFormula`: the parcel of an occurrence. -/
def encodeInfo (crawlId : CrawlId) (formulaPath : FormulaPath) : Option Str := do
  let crawlIdStr := toStr crawlId
  let allocator := (ParcelAllocator.new.reserveString crawlIdStr).reserveFormulaPath formulaPath
  let encoder ← (ParcelEncoder.new allocator).encodeString crawlIdStr
  let encoder ← encoder.encodeFormulaPath formulaPath
  encoder.getData

/-- `insertFormula`. -/
def insertFormula (self : LevFormulaDb) (formulaId : Nat) (crawlId : CrawlId) (formulaPath : FormulaPath) :
    Option (LevFormulaDb × Int) := do
  let mCounter := (self.mCounter + 1) % 2 ^ 32
  let value ← encodeInfo crawlId formulaPath
  let key := toStr formulaId ++ '!' :: toStr mCounter
  return (⟨self.mDatabase.put key value, mCounter⟩, 0)

/-- What `queryFormula` reads from a value. -/
def decodeInfo (retrieved : Str) : Option FormulaInfo := do
  let (crawlIdStr, data) ← ParcelDecoder.decodeString retrieved
  let crawlId := strtoul crawlIdStr % 2 ^ 32
  let (formulaPath, _) ← ParcelDecoder.decodeFormulaPath data
  return ⟨crawlId, formulaPath⟩

/-- The second loop of `queryFormula`, over what is in front of the iterator. -/
def passOn {State : Type} (maxKey : Str) (queryCallback : QueryCallback State) :
    Nat → List (Str × Str) → State → Option (State × Int)
  | 0, _, state => some (state, 0)
  | _ + 1, [], state => some (state, 0)
  | limitSize + 1, (key, value) :: rest, state =>
    if key < maxKey then do
      let info ← decodeInfo value
      let (state, ret) ← queryCallback state info.crawlId info.formulaPath
      if ret ≠ 0 then return (state, -1) else passOn maxKey queryCallback limitSize rest state
    else some (state, 0)

/-- The first loop of `queryFormula`: `none` when the iterator is not valid any more. -/
def skip : Nat → List (Str × Str) → Option (List (Str × Str))
  | 0, iterator => some iterator
  | _ + 1, [] => none
  | limitMin + 1, _ :: rest => skip limitMin rest

/-- `queryFormula`. -/
def queryFormula (self : LevFormulaDb) (State : Type) (formulaId limitMin limitSize : Nat)
    (queryCallback : QueryCallback State) (state : State) : Option (State × Int) :=
  let fmId := toStr formulaId ++ ['!']
  match skip limitMin (self.mDatabase.seek fmId) with
  | none => some (state, 0)
  | some [] => some (state, 0)
  | some iterator => passOn (fmId ++ [Char.ofNat 0xff]) queryCallback limitSize iterator state

end LevFormulaDb

/-! ### One insertion -/

/-- The arguments of a call of `insertFormula`: an id of 32 bits, and texts that fit one buffer. -/
structure InsertCall where
  formulaId : Nat
  info : FormulaInfo
  crawlId_lt : info.crawlId < 2 ^ 32
  fits : info.formulaPath.xmlId.length + info.formulaPath.xpath.length + 64 < 2 ^ 64

namespace LevFormulaDb

/-- The parcel of an occurrence. -/
def parcelOf (info : FormulaInfo) : Str :=
  parcelBytes (toStr info.crawlId) ++ (parcelBytes info.formulaPath.xmlId ++ parcelBytes info.formulaPath.xpath)

theorem length_toStr_crawlId (call : InsertCall) : (toStr call.info.crawlId).length ≤ 10 :=
  (Nat.length_toDigits_le_iff (by decide) (by decide)).mpr (lt_trans call.crawlId_lt (by decide))

theorem encodeInfo_eq (call : InsertCall) :
    encodeInfo call.info.crawlId call.info.formulaPath = some (parcelOf call.info) := by
  have short := length_toStr_crawlId call
  have fits := call.fits
  have size : ((ParcelAllocator.new.reserveString (toStr call.info.crawlId)).reserveFormulaPath
      call.info.formulaPath).size = (parcelOf call.info).length := by
    simp only [ParcelAllocator.reserveFormulaPath, ParcelAllocator.getParcelableSize, ParcelAllocator.reserveString,
      ParcelAllocator.new, parcelOf, List.length_append, length_parcelBytes, sizeofSizeT]
    omega
  have lengths : (parcelOf call.info).length = (parcelBytes (toStr call.info.crawlId)).length +
      ((parcelBytes call.info.formulaPath.xmlId).length + (parcelBytes call.info.formulaPath.xpath).length) := by
    rw [parcelOf, List.length_append, List.length_append]
  simp only [encodeInfo, ParcelEncoder.encodeFormulaPath, ParcelEncoder.new, Option.bind_eq_bind, size]
  rw [encodeString_eq, Option.bind_some, encodeString_eq, Option.bind_some, encodeString_eq, Option.bind_some]
  · rw [ParcelEncoder.getData, List.nil_append, List.append_assoc, ← parcelOf, if_pos rfl]
  all_goals simp only [List.nil_append, List.length_append, List.length_nil]; omega

/-- **An occurrence is read back from its parcel.** -/
theorem decodeInfo_parcelOf (call : InsertCall) : decodeInfo (parcelOf call.info) = some call.info := by
  have short := length_toStr_crawlId call
  have fits := call.fits
  have small := call.crawlId_lt
  have path := @decodeFormulaPath_encoded call.info.formulaPath (by omega) (by omega) []
  rw [List.append_nil] at path
  rw [decodeInfo, parcelOf, decodeString_encoded (lt_of_le_of_lt short (by decide))]
  simp only [Option.bind_eq_bind, Option.bind_some, path]
  rw [strtoul_toStr (lt_trans small (by decide)), Nat.mod_eq_of_lt small]
  rfl

/-- The key of the call with a number. -/
def keyOf (formulaId number : Nat) : Str := toStr formulaId ++ '!' :: toStr number

theorem insertFormula_eq (self : LevFormulaDb) (call : InsertCall) (few : self.mCounter + 1 < 2 ^ 32) :
    self.insertFormula call.formulaId call.info.crawlId call.info.formulaPath =
      some (⟨self.mDatabase.put (keyOf call.formulaId (self.mCounter + 1)) (parcelOf call.info), self.mCounter + 1⟩,
        0) := by
  rw [insertFormula, encodeInfo_eq, Nat.mod_eq_of_lt few]
  rfl

/-! ### The order of the keys -/

theorem excl_not_mem_toStr (number : Nat) : '!' ∉ toStr number :=
  fun member => absurd (isDigit_of_mem_toStr member) (by decide)

theorem keyOf_injective {formulaId formulaId' number number' : Nat}
    (same : keyOf formulaId number = keyOf formulaId' number') : formulaId = formulaId' ∧ number = number' := by
  obtain ⟨ids, numbers⟩ := CmmlToken.split_mark (excl_not_mem_toStr _) (excl_not_mem_toStr _) same
  exact ⟨toStr_injective ids, toStr_injective numbers⟩

/-- **The keys of an id** are the ones between `f!` and `f!\xff`. -/
theorem between_iff (formulaId formulaId' number : Nat) :
    (toStr formulaId ++ ['!'] ≤ keyOf formulaId' number ∧
      keyOf formulaId' number < toStr formulaId ++ ['!'] ++ [Char.ofNat 0xff]) ↔ formulaId' = formulaId := by
  constructor
  · rintro ⟨low, high⟩
    obtain ⟨back, split⟩ := OrderedMap.prefix_of_between low high
    rw [List.append_assoc, List.singleton_append, keyOf] at split
    exact (toStr_injective (CmmlToken.split_mark (excl_not_mem_toStr _) (excl_not_mem_toStr _) split).1).symm
  · rintro rfl
    have key : keyOf formulaId' number = toStr formulaId' ++ ['!'] ++ toStr number := by
      rw [keyOf, List.append_assoc, List.singleton_append]
    refine ⟨key ▸ OrderedMap.le_append _ _, key ▸ OrderedMap.append_lt_append _ ?_⟩
    -- a digit is below the byte `0xff`
    cases text : toStr number with
    | nil => exact List.nil_lt_cons _ _
    | cons c rest =>
      have digit : c.isDigit := @isDigit_of_mem_toStr number c (text ▸ List.mem_cons_self)
      rw [Char.isDigit, Bool.and_eq_true, decide_eq_true_iff, decide_eq_true_iff] at digit
      rw [List.cons_lt_cons_iff]
      exact .inl (lt_of_le_of_lt (b := '9') digit.2 (by decide))

/-! ### A run of insertions -/

/-- Calls of `insertFormula`, one after the other. -/
def insertAll : LevFormulaDb → List InsertCall → Option LevFormulaDb
  | self, [] => some self
  | self, call :: rest => do
    let (self, _) ← self.insertFormula call.formulaId call.info.crawlId call.info.formulaPath
    insertAll self rest

/-- The entry of a call with its number, counted from zero. -/
def entryOf (numbered : InsertCall × Nat) : Str × Str :=
  (keyOf numbered.1.formulaId (numbered.2 + 1), parcelOf numbered.1.info)

/-- The state of a database after calls. -/
structure Stores (db : LevFormulaDb) (calls : List InsertCall) : Prop where
  counter : db.mCounter = calls.length
  entries : db.mDatabase.entries.Perm (calls.zipIdx.map entryOf)

theorem Stores.createNew : Stores createNew [] := ⟨rfl, .nil⟩

/-- The next key is new: its number is. -/
theorem Stores.fresh {self : LevFormulaDb} {calls : List InsertCall} (stores : Stores self calls) (formulaId : Nat) :
    keyOf formulaId (self.mCounter + 1) ∉ self.mDatabase.entries.map Prod.fst := by
  intro member
  rw [(stores.entries.map Prod.fst).mem_iff, List.map_map, List.mem_map] at member
  obtain ⟨⟨call, number⟩, among, same⟩ := member
  have below : number < calls.length := List.snd_lt_of_mem_zipIdx among
  have equal : number + 1 = self.mCounter + 1 := (keyOf_injective same).2
  have counter := stores.counter
  omega

/-- **One insertion adds one entry.** -/
theorem Stores.insertFormula {self : LevFormulaDb} {calls : List InsertCall} (stores : Stores self calls)
    (call : InsertCall) (few : calls.length + 1 < 2 ^ 32) :
    ∃ self', self.insertFormula call.formulaId call.info.crawlId call.info.formulaPath = some (self', 0) ∧
      Stores self' (calls ++ [call]) := by
  refine ⟨_, insertFormula_eq self call (stores.counter ▸ few), ?_, ?_⟩
  · rw [List.length_append, List.length_singleton, stores.counter]
  · refine (OrderedMap.put_perm _ _ (stores.fresh _)).trans ?_
    rw [List.zipIdx_append, List.map_append, stores.counter]
    refine ((stores.entries.cons _).trans ?_).trans List.perm_append_comm
    rw [Nat.zero_add]
    exact .refl _

theorem Stores.insertAll (rest : List InsertCall) : ∀ {self : LevFormulaDb} {calls : List InsertCall},
    Stores self calls → (calls ++ rest).length < 2 ^ 32 →
      ∃ self', self.insertAll rest = some self' ∧ Stores self' (calls ++ rest) := by
  induction rest with
  | nil =>
    intro self calls stores _
    exact ⟨self, rfl, (List.append_nil calls).symm ▸ stores⟩
  | cons call rest ih =>
    intro self calls stores few
    rw [List.length_append, List.length_cons] at few
    obtain ⟨self', inserted, stores'⟩ := stores.insertFormula call (by omega)
    obtain ⟨self'', insertedAll, stores''⟩ := ih stores' (by
      rw [List.length_append, List.length_append, List.length_singleton]
      omega)
    refine ⟨self'', ?_, by rwa [List.append_assoc, List.singleton_append] at stores''⟩
    rw [LevFormulaDb.insertAll, inserted]
    exact insertedAll

/-- **A new database stores every occurrence.** -/
theorem insertAll_new (calls : List InsertCall) (few : calls.length < 2 ^ 32) :
    ∃ self, createNew.insertAll calls = some self ∧ Stores self calls := Stores.createNew.insertAll calls few

/-! ### What a query reads -/

/-- The occurrences inserted under an id, in the order of the calls. -/
def inserted (calls : List InsertCall) (formulaId : Nat) : List FormulaInfo :=
  (calls.filter fun call => call.formulaId = formulaId).map InsertCall.info

/-- The occurrences inserted under an id with their keys, in the order of the calls. -/
def keyed (calls : List InsertCall) (formulaId : Nat) : List (Str × FormulaInfo) :=
  (calls.zipIdx.filter fun numbered => numbered.1.formulaId = formulaId).map fun numbered =>
    (keyOf numbered.1.formulaId (numbered.2 + 1), numbered.1.info)

/-- The same in the order of the keys. -/
def keyedInOrder (calls : List InsertCall) (formulaId : Nat) : List (Str × FormulaInfo) :=
  (keyed calls formulaId).mergeSort fun first second => first.1 ≤ second.1

/-- The occurrences inserted under an id, in the order of their keys. -/
def recordsInKeyOrder (calls : List InsertCall) (formulaId : Nat) : List FormulaInfo :=
  (keyedInOrder calls formulaId).map Prod.snd

/-- **None is lost and none is overwritten.** -/
theorem recordsInKeyOrder_perm (calls : List InsertCall) (formulaId : Nat) :
    (recordsInKeyOrder calls formulaId).Perm (inserted calls formulaId) := by
  have plain : (keyed calls formulaId).map Prod.snd = inserted calls formulaId := by
    have filtered : (calls.zipIdx.filter fun numbered => numbered.1.formulaId = formulaId).map Prod.fst =
        calls.filter fun call => call.formulaId = formulaId := by
      conv_rhs => rw [← List.zipIdx_map_fst 0 calls, List.filter_map]
      rfl
    rw [inserted, ← filtered, keyed, List.map_map, List.map_map]
    rfl
  rw [← plain]
  exact (List.mergeSort_perm _ _).map _

/-- The entry that a record becomes. -/
def stored (record : Str × FormulaInfo) : Str × Str := (record.1, parcelOf record.2)

theorem Stores.seek_perm {self : LevFormulaDb} {calls : List InsertCall} (stores : Stores self calls)
    (formulaId : Nat) :
    (self.mDatabase.entries.filter fun entry => toStr formulaId ++ ['!'] ≤ entry.1 ∧
      entry.1 < toStr formulaId ++ ['!'] ++ [Char.ofNat 0xff]).Perm ((keyedInOrder calls formulaId).map stored) := by
  refine ((stores.entries.filter _).trans ?_).trans ((List.mergeSort_perm _ _).map stored).symm
  rw [List.filter_map, keyed, List.map_map]
  refine .of_eq (congrArg (List.map _) (List.filter_congr fun numbered _ => ?_))
  exact decide_eq_decide.mpr (between_iff formulaId numbered.1.formulaId (numbered.2 + 1))

/-- **What stands between the bounds of an id** are its records in the order of the keys. -/
theorem Stores.takeWhile_seek {self : LevFormulaDb} {calls : List InsertCall} (stores : Stores self calls)
    (formulaId limitMin : Nat) :
    (((self.mDatabase.seek (toStr formulaId ++ ['!'])).drop limitMin).takeWhile fun entry =>
      entry.1 < toStr formulaId ++ ['!'] ++ [Char.ofNat 0xff]) =
        ((keyedInOrder calls formulaId).map stored).drop limitMin := by
  rw [self.mDatabase.takeWhile_seek (fun entry => decide_eq_true_iff) (fun entry => decide_eq_true_iff)]
  refine congrArg (List.drop limitMin) ?_
  have sorted := self.mDatabase.sorted.filter fun entry => decide (toStr formulaId ++ ['!'] ≤ entry.1 ∧
    entry.1 < toStr formulaId ++ ['!'] ++ [Char.ofNat 0xff])
  have ordered : (keyedInOrder calls formulaId).Pairwise fun first second => first.1 ≤ second.1 := by
    refine (List.pairwise_mergeSort (fun first second third low high => ?_) (fun first second => ?_)
      (keyed calls formulaId)).imp fun le => of_decide_eq_true le
    · exact decide_eq_true ((of_decide_eq_true low).trans (of_decide_eq_true high))
    · rw [Bool.or_eq_true, decide_eq_true_iff, decide_eq_true_iff]
      exact le_total _ _
  refine @List.Perm.eq_of_pairwise _ (fun first second => first.1 ≤ second.1) _ _ ?_
    (sorted.imp fun less => le_of_lt less) (List.pairwise_map.mpr ordered) (stores.seek_perm formulaId)
  intro first second among among' low high
  exact OrderedMap.eq_of_key_eq sorted among ((stores.seek_perm formulaId).mem_iff.mpr among') (le_antisymm low high)

/-! ### Queries -/

theorem skip_eq (limitMin : Nat) : ∀ iterator : List (Str × Str),
    skip limitMin iterator = if limitMin ≤ iterator.length then some (iterator.drop limitMin) else none := by
  induction limitMin with
  | zero => intro iterator; rfl
  | succ limitMin ih =>
    intro iterator
    cases iterator with
    | nil => rfl
    | cons entry rest =>
      rw [skip, ih, List.length_cons, List.drop_succ_cons]
      exact if_congr Nat.succ_le_succ_iff.symm rfl rfl

/-- The loop over the entries passes on the records that they become. -/
theorem passOn_eq {State : Type} (maxKey : Str) (queryCallback : QueryCallback State) {iterator : List (Str × Str)} :
    ∀ {infos : List FormulaInfo} (limitSize : Nat) (state : State),
      ((iterator.takeWhile fun entry => entry.1 < maxKey).map fun entry => decodeInfo entry.2) = infos.map some →
      passOn maxKey queryCallback limitSize iterator state =
        MemFormulaDb.passOn queryCallback limitSize infos state := by
  induction iterator with
  | nil =>
    intro infos limitSize state reads
    obtain rfl : infos = [] := List.map_eq_nil_iff.mp reads.symm
    cases limitSize <;> rfl
  | cons entry rest ih =>
    obtain ⟨key, value⟩ := entry
    intro infos limitSize state reads
    cases limitSize with
    | zero => rfl
    | succ limitSize =>
      by_cases below : key < maxKey
      · rw [List.takeWhile_cons_of_pos (by simpa using below), List.map_cons] at reads
        obtain ⟨info, infos, rfl, decoded, readsRest⟩ := List.map_eq_cons_iff.mp reads.symm
        rw [passOn, if_pos below, ← decoded, MemFormulaDb.passOn, Option.bind_eq_bind, Option.bind_some]
        refine Option.bind_congr fun answer _ => ?_
        obtain ⟨state, ret⟩ := answer
        exact if_congr Iff.rfl rfl (ih limitSize state readsRest.symm)
      · rw [List.takeWhile_cons_of_neg (by simpa using below)] at reads
        obtain rfl : infos = [] := List.map_eq_nil_iff.mp reads.symm
        rw [passOn, if_neg below]
        rfl

/-- **A query passes on the records under its id**, in the order of their keys. -/
theorem Stores.queryFormula {self : LevFormulaDb} {calls : List InsertCall} (stores : Stores self calls)
    (State : Type) (formulaId limitMin limitSize : Nat) (queryCallback : QueryCallback State) (state : State) :
    self.queryFormula State formulaId limitMin limitSize queryCallback state =
      MemFormulaDb.passOn queryCallback limitSize ((recordsInKeyOrder calls formulaId).drop limitMin) state := by
  have reads : ((((self.mDatabase.seek (toStr formulaId ++ ['!'])).drop limitMin).takeWhile fun entry =>
      entry.1 < toStr formulaId ++ ['!'] ++ [Char.ofNat 0xff]).map fun entry => decodeInfo entry.2) =
      ((recordsInKeyOrder calls formulaId).drop limitMin).map some := by
    have decodes : ((keyedInOrder calls formulaId).map stored).map (fun entry => decodeInfo entry.2) =
        (recordsInKeyOrder calls formulaId).map some := by
      rw [recordsInKeyOrder, List.map_map, List.map_map]
      refine List.map_congr_left fun record among => ?_
      obtain ⟨numbered, -, rfl⟩ := List.mem_map.mp (List.mem_mergeSort.mp among)
      exact decodeInfo_parcelOf numbered.1
    rw [stores.takeWhile_seek, List.map_drop, decodes, List.map_drop]
  have passes := passOn_eq (toStr formulaId ++ ['!'] ++ [Char.ofNat 0xff]) queryCallback limitSize state reads
  rw [← passes, LevFormulaDb.queryFormula, skip_eq]
  split_ifs with within
  · cases (self.mDatabase.seek (toStr formulaId ++ ['!'])).drop limitMin with
    | nil => cases limitSize <;> rfl
    | cons entry rest => rfl
  · rw [List.drop_eq_nil_of_le (not_le.mp within).le]
    cases limitSize <;> rfl

/-- A callback that accepts whatever it is given. -/
def accepting {State : Type} (update : State → FormulaInfo → State) : QueryCallback State :=
  fun state crawlId formulaPath => some (update state ⟨crawlId, formulaPath⟩, 0)

/-- An accepting callback is called with a slice. -/
theorem passOn_accepting {State : Type} (update : State → FormulaInfo → State) (infos : List FormulaInfo) :
    ∀ (limitSize : Nat) (state : State), MemFormulaDb.passOn (accepting update) limitSize infos state =
      some ((infos.take limitSize).foldl update state, 0) := by
  induction infos with
  | nil => intro limitSize state; cases limitSize <;> rfl
  | cons info rest ih =>
    intro limitSize state
    cases limitSize with
    | zero => rfl
    | succ limitSize => exact ih limitSize (update state info)

/-- **The formulas are kept apart.** After fewer than `2^32` insertions into a new database, a query with a callback
that accepts everything is given the records under its id from `limitMin` on, `limitSize` of them at most, in the order
of their keys; and these records are the ones that were inserted under the id. -/
theorem queryFormula_insertAll (calls : List InsertCall) (few : calls.length < 2 ^ 32) :
    ∃ self, createNew.insertAll calls = some self ∧ ∀ formulaId,
      (recordsInKeyOrder calls formulaId).Perm (inserted calls formulaId) ∧
      ∀ (State : Type) (update : State → FormulaInfo → State) (state : State) (limitMin limitSize : Nat),
        self.queryFormula State formulaId limitMin limitSize (accepting update) state =
          some ((((recordsInKeyOrder calls formulaId).drop limitMin).take limitSize).foldl update state, 0) := by
  obtain ⟨self, stored, stores⟩ := insertAll_new calls few
  refine ⟨self, stored, fun formulaId => ⟨recordsInKeyOrder_perm calls formulaId, ?_⟩⟩
  intro State update state limitMin limitSize
  rw [stores.queryFormula]
  exact passOn_accepting update _ limitSize state

theorem shortTexts_fit : 1 + 1 + 64 < 2 ^ 64 := by decide

/-- An insertion with short texts. -/
def shortCall (formulaId crawlId : Nat) (small : crawlId < 2 ^ 32) : InsertCall :=
  ⟨formulaId, ⟨crawlId, ⟨['x'], ['/']⟩⟩, small, shortTexts_fit⟩

/-- The ids 5 and 51, with the records of 51 between those of 5 in time. -/
theorem queryFormula_prefixes :
    ∃ self, createNew.insertAll [shortCall 5 1 (by decide), shortCall 51 2 (by decide), shortCall 5 3 (by decide)] =
      some self ∧ ∀ formulaId,
      (recordsInKeyOrder [shortCall 5 1 (by decide), shortCall 51 2 (by decide), shortCall 5 3 (by decide)]
        formulaId).Perm
        (inserted [shortCall 5 1 (by decide), shortCall 51 2 (by decide), shortCall 5 3 (by decide)] formulaId) ∧
      ∀ (State : Type) (update : State → FormulaInfo → State) (state : State) (limitMin limitSize : Nat),
        self.queryFormula State formulaId limitMin limitSize (accepting update) state =
          some ((((recordsInKeyOrder [shortCall 5 1 (by decide), shortCall 51 2 (by decide),
            shortCall 5 3 (by decide)] formulaId).drop limitMin).take limitSize).foldl update state, 0) :=
  queryFormula_insertAll _ (by decide)

end LevFormulaDb

end MathWebSearch
