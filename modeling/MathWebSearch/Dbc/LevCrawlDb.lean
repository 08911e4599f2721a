/-
**The crawl database on disk** (`LevCrawlDb`, and `CrawlDb` as its interface).

What the crawler said is stored under the decimal form of a counter, in a parcel. Both crawl databases are the list of
what was put, numbered from one. leveldb is an ordered map here, whose `Put` succeeds.

* `Keeps` — a database holds the texts that were put, in their order.
* `MemCrawlDb.keeps`, `LevCrawlDb.keeps` — both classes do what the list does.
* `run_agree` — **no caller can tell the one from the other**, as long as the counter has not come round.
-/

import MathWebSearch.Types.Parcelable
import MathWebSearch.Types.Decimal
import MathWebSearch.Library.OrderedMap

namespace MathWebSearch

/-! ### The databases -/

/-- `CrawlDb`: what its two subclasses implement; `putData` and `getData` may throw. -/
structure CrawlDb (C : Type) where
  putData : C → Str → Option (C × CrawlId)
  getData : C → CrawlId → Option Str

/-- `LevCrawlDb`: `mDatabase` and `mNextCrawlId`. -/
structure LevCrawlDb where
  mDatabase : OrderedMap Str Str
  mNextCrawlId : CrawlId

namespace LevCrawlDb

/-- `create_new`, on a path without a database. -/
def createNew : LevCrawlDb := ⟨.empty, crawlIdNull⟩

/-- `open`, on a path with a database: the counter begins anew. -/
def openDatabase (mDatabase : OrderedMap Str Str) : LevCrawlDb := ⟨mDatabase, crawlIdNull⟩

/-- `putData`. -/
def putData (self : LevCrawlDb) (crawlData : Str) : Option (LevCrawlDb × CrawlId) := do
  let crawlId := (self.mNextCrawlId + 1) % 2 ^ 32
  let encoder ← (ParcelEncoder.new (ParcelAllocator.new.reserveString crawlData)).encodeString crawlData
  let serial ← encoder.getData
  return (⟨self.mDatabase.put (toStr crawlId) serial, crawlId⟩, crawlId)

/-- `getData`: it throws when the id is not known. -/
def getData (self : LevCrawlDb) (crawlId : CrawlId) : Option Str := do
  let retrieved ← self.mDatabase.get (toStr crawlId)
  let (crawlData, _) ← ParcelDecoder.decodeString retrieved
  return crawlData

end LevCrawlDb

/-- The two classes. -/
def memCrawlDb : CrawlDb MemCrawlDb := ⟨MemCrawlDb.putData, MemCrawlDb.getData⟩

def levCrawlDb : CrawlDb LevCrawlDb := ⟨LevCrawlDb.putData, LevCrawlDb.getData⟩

/-! ### Calls -/

/-- A call of a crawl database. -/
inductive CrawlCall where
  | putData (crawlData : Str)
  | getData (crawlId : CrawlId)

/-- What a call returns; `none` is the exception for an id that is not known. -/
inductive CrawlResult where
  | put (crawlId : CrawlId)
  | got (crawlData : Option Str)
deriving DecidableEq

/-- The texts that calls put. -/
def putsOf (calls : List CrawlCall) : List Str :=
  calls.filterMap fun
    | .putData crawlData => some crawlData
    | .getData _ => none

namespace CrawlDb

variable {C : Type} (db : CrawlDb C)

/-- Calls one after the other; `none` is an exception in `putData`. -/
def run : List CrawlCall → C → Option (C × List CrawlResult)
  | [], self => some (self, [])
  | .putData crawlData :: rest, self => do
    let (self, crawlId) ← db.putData self crawlData
    let (self, results) ← run rest self
    return (self, .put crawlId :: results)
  | .getData crawlId :: rest, self => do
    let (last, results) ← run rest self
    return (last, .got (db.getData self crawlId) :: results)

/-! ### The list behind a database -/

/-- The text with an id among those that were put. -/
def stored (puts : List Str) (crawlId : CrawlId) : Option Str := if crawlId = crawlIdNull then none else puts[crawlId - 1]?

/-- **The database holds the texts that were put.** -/
def Holds (self : C) (puts : List Str) : Prop := ∀ crawlId, db.getData self crawlId = stored puts crawlId

/-- **A class does what the list does**, from a state on: `putData` appends, as long as there are ids, to texts that fit
a buffer. -/
structure Keeps (Represents : C → List Str → Prop) : Prop where
  holds : ∀ {self puts}, Represents self puts → db.Holds self puts
  puts : ∀ {self puts crawlData}, Represents self puts → puts.length + 1 < 2 ^ 32 → crawlData.length + 8 < 2 ^ 64 →
    ∃ self', db.putData self crawlData = some (self', puts.length + 1) ∧ Represents self' (puts ++ [crawlData])

/-- What the list returns for calls. -/
def resultsOf : List CrawlCall → List Str → List CrawlResult
  | [], _ => []
  | .putData crawlData :: rest, puts => .put (puts.length + 1) :: resultsOf rest (puts ++ [crawlData])
  | .getData crawlId :: rest, puts => .got (stored puts crawlId) :: resultsOf rest puts

variable {db} {Represents : C → List Str → Prop}

/-- **Any calls.** -/
theorem Keeps.run (keeps : db.Keeps Represents) (calls : List CrawlCall) : ∀ {self : C} {puts : List Str},
    Represents self puts → (puts ++ putsOf calls).length < 2 ^ 32 →
    (∀ crawlData ∈ putsOf calls, crawlData.length + 8 < 2 ^ 64) →
      ∃ self', db.run calls self = some (self', resultsOf calls puts) ∧ Represents self' (puts ++ putsOf calls) := by
  induction calls with
  | nil =>
    intro self puts represents _ _
    exact ⟨self, rfl, (List.append_nil puts).symm ▸ represents⟩
  | cons call rest ih =>
    intro self puts represents few short
    cases call with
    | putData crawlData =>
      have these : putsOf (.putData crawlData :: rest) = crawlData :: putsOf rest := rfl
      rw [these] at few short ⊢
      rw [List.forall_mem_cons] at short
      rw [List.append_cons] at few ⊢
      have room : puts.length + 1 < 2 ^ 32 := by
        rw [List.length_append, List.length_append, List.length_singleton] at few
        omega
      obtain ⟨next, put, represents'⟩ := keeps.puts represents room short.1
      obtain ⟨last, ran, represents''⟩ := ih represents' few short.2
      refine ⟨last, ?_, represents''⟩
      rw [CrawlDb.run, put, Option.bind_eq_bind, Option.bind_some]
      simp only [ran, Option.bind_eq_bind, Option.bind_some]
      rfl
    | getData crawlId =>
      have these : putsOf (.getData crawlId :: rest) = putsOf rest := rfl
      rw [these] at few short ⊢
      obtain ⟨last, ran, represents'⟩ := ih represents few short
      refine ⟨last, ?_, represents'⟩
      rw [CrawlDb.run, ran, keeps.holds represents]
      rfl

/-- The next id finds nothing yet, and then what was put. -/
theorem stored_concat (puts : List Str) (crawlData : Str) (crawlId : CrawlId) :
    stored (puts ++ [crawlData]) crawlId = if crawlId = puts.length + 1 then some crawlData else stored puts crawlId := by
  unfold stored
  cases crawlId with
  | zero =>
    have null : Nat.zero = crawlIdNull := rfl
    rw [if_pos null, if_pos null, if_neg (Nat.succ_ne_zero _).symm]
  | succ number =>
    have named : ¬number.succ = crawlIdNull := Nat.succ_ne_zero number
    have index : number.succ - 1 = number := rfl
    simp only [named, if_false, index, List.getElem?_append]
    rcases lt_trichotomy number puts.length with inside | rfl | outside
    · rw [if_pos inside, if_neg (show ¬number.succ = puts.length + 1 by omega)]
    · rw [if_neg (lt_irrefl _), if_pos rfl, Nat.sub_self]
      rfl
    · rw [if_neg (not_lt.mpr outside.le), if_neg (show ¬number.succ = puts.length + 1 by omega),
        List.getElem?_eq_none (by rw [List.length_singleton]; omega), List.getElem?_eq_none outside.le]

end CrawlDb

/-! ### Both classes -/

open CrawlDb

/-- The database in memory and the texts that were put. -/
structure MemCrawlDb.Represents (db : MemCrawlDb) (puts : List Str) : Prop where
  counter : db.mNextCrawlId = puts.length
  holds : ∀ crawlId, db.getData crawlId = stored puts crawlId

theorem MemCrawlDb.represents_empty : MemCrawlDb.Represents .empty [] := ⟨rfl, fun crawlId => by simp [stored, getData, empty]⟩

/-- One more text in memory. -/
theorem MemCrawlDb.Represents.putData {db : MemCrawlDb} {puts : List Str} (represents : db.Represents puts)
    (few : puts.length + 1 < 2 ^ 32) (crawlData : Str) :
    db.putData crawlData = some (⟨db.mData ++ [(puts.length + 1, crawlData)], puts.length + 1⟩, puts.length + 1) ∧
      MemCrawlDb.Represents ⟨db.mData ++ [(puts.length + 1, crawlData)], puts.length + 1⟩ (puts ++ [crawlData]) := by
  obtain ⟨counter, holds⟩ := represents
  have free : db.mData.lookup (puts.length + 1) = none := by
    have none := holds (puts.length + 1)
    rw [stored, if_neg (by simp [crawlIdNull]), Nat.add_sub_cancel, List.getElem?_eq_none (le_refl _)] at none
    exact none
  refine ⟨?_, ?_, fun crawlId => ?_⟩
  · rw [MemCrawlDb.putData, counter, Nat.mod_eq_of_lt few]
    simp only [free, Option.isSome_none, Bool.false_eq_true, if_false]
  · rw [List.length_append, List.length_singleton]
  · rw [stored_concat]
    have before : db.mData.lookup crawlId = stored puts crawlId := holds crawlId
    show (db.mData ++ [(puts.length + 1, crawlData)]).lookup crawlId = _
    rw [List.lookup_append, before]
    by_cases last : crawlId = puts.length + 1
    · rw [if_pos last, last, ← holds, getData, free, Option.none_or, List.lookup_cons_self]
    · rw [if_neg last, List.lookup_cons, show (crawlId == puts.length + 1) = false from beq_eq_false_iff_ne.mpr last]
      exact Option.or_none

/-- **The database in memory does what the list does.** -/
theorem MemCrawlDb.keeps : memCrawlDb.Keeps MemCrawlDb.Represents where
  holds represents := represents.holds
  puts := fun {_ _ crawlData} represents few _ =>
    ⟨_, (represents.putData few crawlData).1, (represents.putData few crawlData).2⟩

/-- The database on disk and the texts that were put. -/
structure LevCrawlDb.Represents (db : LevCrawlDb) (puts : List Str) : Prop where
  counter : db.mNextCrawlId = puts.length
  holds : ∀ crawlId, db.getData crawlId = stored puts crawlId

theorem LevCrawlDb.represents_createNew : LevCrawlDb.Represents .createNew [] :=
  ⟨rfl, fun crawlId => by simp [stored, getData, createNew, OrderedMap.get_empty]⟩

/-- The parcel of a text. -/
theorem LevCrawlDb.encode_eq {crawlData : Str} (short : crawlData.length + 8 < 2 ^ 64) :
    ((ParcelEncoder.new (ParcelAllocator.new.reserveString crawlData)).encodeString crawlData).bind
      ParcelEncoder.getData = some (parcelBytes crawlData) := by
  have size : (ParcelAllocator.new.reserveString crawlData).size = (parcelBytes crawlData).length := by
    rw [length_parcelBytes, ParcelAllocator.reserveString, ParcelAllocator.new, sizeofSizeT]
    show (0 + (8 + crawlData.length)) % 2 ^ 64 = _
    omega
  rw [encodeString_eq, Option.bind_some, ParcelEncoder.getData, ParcelEncoder.new, size]
  · exact if_pos rfl
  · rw [ParcelEncoder.new, size, List.length_nil, Nat.zero_add]

/-- **The database on disk does what the list does.** -/
theorem LevCrawlDb.keeps : levCrawlDb.Keeps LevCrawlDb.Represents where
  holds represents := represents.holds
  puts := by
    intro self puts crawlData represents few short
    obtain ⟨counter, holds⟩ := represents
    refine ⟨⟨self.mDatabase.put (toStr (puts.length + 1)) (parcelBytes crawlData), puts.length + 1⟩, ?_, ?_,
      fun crawlId => ?_⟩
    · show self.putData crawlData = _
      have parcel := encode_eq short
      obtain ⟨encoder, encoded, data⟩ := Option.bind_eq_some_iff.mp parcel
      rw [putData, counter, Nat.mod_eq_of_lt few]
      simp only [encoded, Option.bind_eq_bind, Option.bind_some, data]
      rfl
    · rw [List.length_append, List.length_singleton]
    · rw [stored_concat, getData, OrderedMap.get_put]
      by_cases last : crawlId = puts.length + 1
      · have read := @decodeString_encoded crawlData (by omega) []
        rw [List.append_nil] at read
        rw [if_pos last, if_pos (congrArg toStr last.symm), Option.bind_eq_bind, Option.bind_some, read]
        rfl
      · rw [if_neg last, if_neg fun same => last (toStr_injective same).symm, ← holds]
        rfl

/-- **No caller can tell the database on disk from the one in memory**: any calls that put fewer than `2^32` texts, each
of which fits a buffer, return the same from both, namely a new id for every text, and for every id the text that was
put under it. -/
theorem CrawlDb.run_agree (calls : List CrawlCall) (few : (putsOf calls).length < 2 ^ 32)
    (short : ∀ crawlData ∈ putsOf calls, crawlData.length + 8 < 2 ^ 64) :
    ∃ mem lev, memCrawlDb.run calls .empty = some (mem, resultsOf calls []) ∧
      levCrawlDb.run calls .createNew = some (lev, resultsOf calls []) ∧
      ∀ crawlId, mem.getData crawlId = stored (putsOf calls) crawlId ∧
        (LevCrawlDb.openDatabase lev.mDatabase).getData crawlId = stored (putsOf calls) crawlId := by
  obtain ⟨mem, ran, represents⟩ := MemCrawlDb.keeps.run calls MemCrawlDb.represents_empty few short
  obtain ⟨lev, ran', represents'⟩ := LevCrawlDb.keeps.run calls LevCrawlDb.represents_createNew few short
  exact ⟨mem, lev, ran, ran', fun crawlId => ⟨represents.holds crawlId, represents'.holds crawlId⟩⟩

/-- One text that is put and asked for, and one that never was. -/
def sampleCalls : List CrawlCall := [.putData ['a'], .getData 1, .getData 7]

theorem CrawlDb.run_agree_sample :
    ∃ mem lev, memCrawlDb.run sampleCalls .empty = some (mem, [.put 1, .got (some ['a']), .got none]) ∧
      levCrawlDb.run sampleCalls .createNew = some (lev, [.put 1, .got (some ['a']), .got none]) ∧
      ∀ crawlId, mem.getData crawlId = stored ['a' :: []] crawlId ∧
        (LevCrawlDb.openDatabase lev.mDatabase).getData crawlId = stored ['a' :: []] crawlId :=
  CrawlDb.run_agree sampleCalls (by decide) (by decide)

end MathWebSearch
