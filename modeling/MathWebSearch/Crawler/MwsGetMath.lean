/-
**Formulas in HTML pages** (`crawler/utils/MwsGetMath.cpp`).

`get_math_blocks` looks for opening and closing tags of `math` with two scans over the page, sorts what they found by
position, and cuts the page where as many tags have been closed as opened. The first scan reads an opening tag to its
end, one index moving by one or, behind a tag that closes by itself, by three. The names of the MathML tags are a
parameter. A read behind the terminator of a string is `none`. Positions in the page are numbers: in the source they are
of type `int`, so what is said here is about pages of fewer than `2 ^ 31` characters, where none of them wraps. The copy
of a block can be longer than the page, and the position at which its id is read is checked for its type.

* `Scan`, `marks` — the tags of a page as an automaton over its characters finds them.
* `openingTags_eq`, `sort_eq_marks` — the two scans find the marks, unless the first one runs over the end.
* `getMathBlocks_iff` — **when the scanner stays inside its input** and cuts at opening tags.
-/

import MathWebSearch.Library.TextSearch
import MathWebSearch.Types.CmmlToken

namespace MathWebSearch

open TextSearch

namespace MwsGetMath

/-! ### The code -/

/-- `std::string::operator[]`, with the terminator. -/
def charAt (text : Str) (pos : Nat) : Option Char := itemAt '\x00' text pos

/-- `matho`. -/
def matho : Str := "<math".toList

/-- `mathc`. -/
def mathc : Str := "</math>".toList

theorem lt_of_charAt {text : Str} {pos : Nat} {char : Char} (read : charAt text pos = some char)
    (notEnd : pos ≠ text.length) : pos < text.length := by
  by_contra beyond
  have none : charAt text pos = none := itemAt_eq_none_iff.mpr (by omega)
  rw [none] at read
  cases read

/-- The inner loop of the first scan, which checks whether the tag closes by itself. -/
def scanTag (html : Str) (pos : Nat) (allpos : List (Nat × Int)) : Option (Nat × List (Nat × Int)) :=
  if inside : pos = html.length then some (pos, allpos)
  else
    match _read : charAt html pos with
    | none => none
    | some char =>
      have := lt_of_charAt _read inside
      if char = '>' then some (pos, allpos)
      else if char = '/' ∧ pos + 1 < html.length ∧ charAt html (pos + 1) = some '>' then
        scanTag html (pos + 2 + 1) (allpos ++ [(pos, -1)])
      else scanTag html (pos + 1) allpos
termination_by html.length + 1 - pos

theorem scanTag_length (html : Str) (allpos : List (Nat × Int)) :
    scanTag html html.length allpos = some (html.length, allpos) := by
  rw [scanTag, dif_pos rfl]

theorem scanTag_beyond {html : Str} {pos : Nat} (beyond : html.length < pos) (allpos : List (Nat × Int)) :
    scanTag html pos allpos = none := by
  rw [scanTag, dif_neg beyond.ne']
  split
  · rfl
  · next read => exact absurd (lt_of_charAt read beyond.ne') (by omega)

theorem scanTag_of_lt {html : Str} {pos : Nat} (inside : pos < html.length) (allpos : List (Nat × Int)) :
    scanTag html pos allpos =
      if html[pos] = '>' then some (pos, allpos)
      else if html[pos] = '/' ∧ pos + 1 < html.length ∧ charAt html (pos + 1) = some '>' then
        scanTag html (pos + 3) (allpos ++ [(pos, -1)])
      else scanTag html (pos + 1) allpos := by
  have here : charAt html pos = some html[pos] := itemAt_of_lt inside
  rw [scanTag, dif_neg inside.ne]
  split
  · next read =>
    rw [here] at read
    cases read
  · next char read =>
    obtain rfl := Option.some.inj (here.symm.trans read)
    rfl

/-- A tag is read to a position behind its beginning. -/
theorem le_of_scanTag {html : Str} (count : Nat) : ∀ {pos pos' : Nat} {allpos allpos' : List (Nat × Int)},
    html.length ≤ pos + count → scanTag html pos allpos = some (pos', allpos') → pos ≤ pos' := by
  induction count with
  | zero =>
    intro pos pos' allpos allpos' bound scanned
    rw [Nat.add_zero] at bound
    rcases bound.eq_or_lt with rfl | beyond
    · rw [scanTag_length] at scanned
      exact (Prod.mk.inj (Option.some.inj scanned)).1.le
    · rw [scanTag_beyond beyond] at scanned
      cases scanned
  | succ count ih =>
    intro pos pos' allpos allpos' bound scanned
    by_cases inside : pos < html.length
    · rw [scanTag_of_lt inside] at scanned
      split_ifs at scanned with close self
      · exact (Prod.mk.inj (Option.some.inj scanned)).1.le
      · exact le_trans (Nat.le_add_right _ _) (ih (by omega) scanned)
      · exact le_trans (Nat.le_add_right _ _) (ih (by omega) scanned)
    · rcases (not_lt.mp inside).eq_or_lt with rfl | beyond
      · rw [scanTag_length] at scanned
        exact (Prod.mk.inj (Option.some.inj scanned)).1.le
      · rw [scanTag_beyond beyond] at scanned
        cases scanned

/-- The first scan: all opening tags, and where they close by themselves. -/
def openingTags (html : Str) (pos : Nat) (allpos : List (Nat × Int)) : Option (List (Nat × Int)) :=
  match _found : find matho html pos with
  | none => some allpos
  | some oc =>
    match _scanned : scanTag html (oc + matho.length) (allpos ++ [(oc, 1)]) with
    | none => none
    | some (pos', allpos') => openingTags html pos' allpos'
termination_by html.length + 1 - pos
decreasing_by
  have after := find_eq_some _found
  have onward := le_of_scanTag html.length (Nat.le_add_left _ _) _scanned
  have length : matho.length = 5 := rfl
  omega

/-- The second scan: all closing tags. -/
def closingTags (html : Str) (pos : Nat) (allpos : List (Nat × Int)) : List (Nat × Int) :=
  match _found : find mathc html pos with
  | none => allpos
  | some oc => closingTags html (oc + mathc.length) (allpos ++ [(oc, -1)])
termination_by html.length + 1 - pos
decreasing_by
  have after := find_eq_some _found
  have length : mathc.length = 7 := rfl
  omega

/-- The order of `pair<int, int>`. -/
def Before (first second : Nat × Int) : Prop := first.1 < second.1 ∨ first.1 = second.1 ∧ first.2 ≤ second.2

instance : DecidableRel Before := fun _ _ => inferInstanceAs (Decidable (_ ∨ _))

section Blocks

variable (mathmlTags : Str → Bool)

/-- The lower-case letters of a tag: the inner loop of the cut. -/
def lowerCase (html : Str) (stop k : Nat) (g : Str) : Option Str :=
  if k < stop then
    match charAt html k with
    | none => none
    | some char => if char.isLower then lowerCase html stop (k + 1) (g ++ [char]) else some g
  else some g
termination_by stop - k

/-- Copying a block, with the namespace added to the MathML tags. -/
def addNamespaces (html : Str) (stop j : Nat) (nstr : Str) : Option Str :=
  if j < stop then
    match charAt html j with
    | none => none
    | some char =>
      if char ≠ '<' then addNamespaces html stop (j + 1) (nstr ++ [char])
      else
        match charAt html (j + 1) with
        | none => none
        | some slash =>
          let start := if slash = '/' then (['/'], j + 1 + 1) else ([], j + 1)
          match lowerCase html stop start.2 start.1 with
          | none => none
          | some g =>
            if mathmlTags g then
              if g.head? = some '/' then addNamespaces html stop (j + 1 + 1) (nstr ++ "</m:".toList)
              else addNamespaces html stop (j + 1) (nstr ++ "<m:".toList)
            else addNamespaces html stop (j + 1) (nstr ++ [char])
  else some nstr
termination_by stop - j

/-- The characters up to the closing quote. The position is an `int`, which wraps at `2 ^ 31`. -/
def readId (nstr : Str) (j : Nat) (id : Str) : Option Str :=
  if j < 2 ^ 31 then
    match charAt nstr j with
    | none => none
    | some char => if char = '"' then some id else readId nstr (j + 1) (id ++ [char])
  else none
termination_by 2 ^ 31 - j

/-- The id of a formula, if it has one. -/
def formulaId (nstr : Str) : Option Str :=
  match find " id=".toList nstr 0 with
  | none => some []
  | some wid =>
    if (match find ">".toList nstr 0 with | none => true | some we => decide (wid < we)) then readId nstr (wid + 5) []
    else some []

/-- A block that is returned; `start` is not, but says where in the page it begins. -/
structure MathBlock where
  start : Nat
  nstr : Str
  id : Str

/-- The loop that cuts the page. Of `lpos`, it is kept where the tag it is the number of begins. -/
def cutBlocks (html : Str) : Option Nat → Int → List (Nat × Int) → Option (List MathBlock)
  | _, _, [] => some []
  | first, val, (pos, change) :: allpos =>
    let start := first.getD pos
    if val + change = 0 then do
      let char ← charAt html pos
      let stop := if char = '/' then pos + 2 else pos + mathc.length
      let nstr ← addNamespaces mathmlTags html stop start []
      let id ← formulaId nstr
      let ans ← cutBlocks html none 0 allpos
      return ⟨start, nstr, id⟩ :: ans
    else cutBlocks html (some start) (val + change) allpos

/-- `get_math_blocks`, with the beginnings of the blocks. -/
def mathBlocks (html : Str) : Option (List MathBlock) := do
  let opening ← openingTags html 0 []
  cutBlocks mathmlTags html none 0 ((closingTags html 0 opening).insertionSort Before)

/-- `get_math_blocks`. -/
def getMathBlocks (html : Str) : Option (List (Str × Str)) :=
  (mathBlocks mathmlTags html).map fun ans => ans.map fun block => (block.nstr, block.id)

end Blocks

/-! ### The tags of a page -/

/-- Where a scan for opening tags is: outside of them, or inside of one, with some characters to be skipped. -/
inductive Scan where
  | outside
  | inside (skip : Nat)

namespace Scan

/-- Behind one character. -/
def next : Scan → Str → Scan
  | outside, text => if matho <+: text then inside 4 else outside
  | inside 0, text =>
    if ['/', '>'] <+: text then inside 2 else if ['>'] <+: text then outside else inside 0
  | inside (skip + 1), _ => inside skip

/-- The tag that opens here, or closes by itself. -/
def tag : Scan → Str → Option Int
  | outside, text => if matho <+: text then some 1 else none
  | inside 0, text => if ['/', '>'] <+: text then some (-1) else none
  | inside (_ + 1), _ => none

/-- Behind a text. -/
def after : Scan → Str → Scan
  | scan, [] => scan
  | scan, char :: text => after (scan.next (char :: text)) text

/-- It is not behind the end of the text. -/
def IsInside : Scan → Prop
  | inside (_ + 1) => False
  | _ => True

instance : ∀ scan : Scan, Decidable scan.IsInside
  | outside => isTrue trivial
  | inside 0 => isTrue trivial
  | inside (_ + 1) => isFalse not_false

variable {text : Str}

theorem outside_of_not (absent : ¬ matho <+: text) : outside.next text = outside ∧ outside.tag text = none :=
  ⟨if_neg absent, if_neg absent⟩

theorem inside_of_self (self : ['/', '>'] <+: text) :
    (inside 0).next text = inside 2 ∧ (inside 0).tag text = some (-1) := ⟨if_pos self, if_pos self⟩

theorem inside_of_not (notSelf : ¬ ['/', '>'] <+: text) :
    (inside 0).next text = (if ['>'] <+: text then outside else inside 0) ∧ (inside 0).tag text = none :=
  ⟨if_neg notSelf, if_neg notSelf⟩

end Scan

/-- The closing tag that begins here. -/
def closing (text : Str) : Option Int := if mathc <+: text then some (-1) else none

/-- What a test finds in a text that begins at a position. -/
def found (change : Option Int) (pos : Nat) : List (Nat × Int) := (change.map fun change => (pos, change)).toList

/-- The tags that open, or close by themselves. -/
def tags : Scan → Nat → Str → List (Nat × Int)
  | _, _, [] => []
  | scan, pos, char :: text =>
    found (scan.tag (char :: text)) pos ++ tags (scan.next (char :: text)) (pos + 1) text

/-- The closing tags. -/
def closings : Nat → Str → List (Nat × Int)
  | _, [] => []
  | pos, char :: text => found (closing (char :: text)) pos ++ closings (pos + 1) text

/-- **The marks of a page**: where a tag opens (`1`) or closes (`-1`), in the order of the page. -/
def marks : Scan → Nat → Str → List (Nat × Int)
  | _, _, [] => []
  | scan, pos, char :: text =>
    found (scan.tag (char :: text)) pos ++ found (closing (char :: text)) pos ++
      marks (scan.next (char :: text)) (pos + 1) text

/-! ### The scans -/

section Scans

variable {html : Str}

theorem drop_cons {pos : Nat} (inside : pos < html.length) : html.drop pos = html[pos] :: html.drop (pos + 1) :=
  List.drop_eq_getElem_cons inside

theorem tags_drop {pos : Nat} (inside : pos < html.length) (scan : Scan) : tags scan pos (html.drop pos) =
    found (scan.tag (html.drop pos)) pos ++ tags (scan.next (html.drop pos)) (pos + 1) (html.drop (pos + 1)) := by
  rw [drop_cons inside, tags]

theorem after_drop {pos : Nat} (inside : pos < html.length) (scan : Scan) :
    scan.after (html.drop pos) = (scan.next (html.drop pos)).after (html.drop (pos + 1)) := by
  rw [drop_cons inside, Scan.after]

/-- Nothing opens where no tag is found. -/
theorem tags_of_find_none (count : Nat) : ∀ {pos : Nat}, html.length = pos + count → find matho html pos = none →
    tags .outside pos (html.drop pos) = [] ∧ Scan.outside.after (html.drop pos) = .outside := by
  induction count with
  | zero =>
    intro pos length _
    rw [Nat.add_zero] at length
    rw [← length, List.drop_length]
    exact ⟨rfl, rfl⟩
  | succ count ih =>
    intro pos length absent
    have inside : pos < html.length := by omega
    have here : ¬ matho <+: html.drop pos := fun occurs => by
      rw [find_of_occurs inside.le occurs] at absent
      cases absent
    rw [find_succ inside here] at absent
    obtain ⟨rest, after⟩ := ih (by omega) absent
    obtain ⟨next, tag⟩ := Scan.outside_of_not here
    rw [tags_drop inside, after_drop inside, next, tag, rest, after]
    exact ⟨rfl, rfl⟩

/-- Behind the beginning of a tag. -/
theorem tags_of_occurs {oc : Nat} (occurs : Occurs matho html oc) :
    tags .outside oc (html.drop oc) = (oc, 1) :: tags (.inside 0) (oc + 5) (html.drop (oc + 5)) ∧
      Scan.outside.after (html.drop oc) = (Scan.inside 0).after (html.drop (oc + 5)) := by
  obtain ⟨rest, split⟩ := occurs
  have behind : html.drop (oc + 5) = rest := by
    rw [← List.drop_drop, ← split]
    rfl
  have opens : matho <+: '<' :: 'm' :: 'a' :: 't' :: 'h' :: rest := List.prefix_append _ _
  rw [behind, ← split]
  show tags .outside oc ('<' :: 'm' :: 'a' :: 't' :: 'h' :: rest) = _ ∧
    Scan.outside.after ('<' :: 'm' :: 'a' :: 't' :: 'h' :: rest) = _
  simp only [tags, Scan.after, Scan.tag, Scan.next, if_pos opens]
  exact ⟨rfl, trivial⟩

/-- The tag that is found is the first one that opens. -/
theorem tags_of_find_some (count : Nat) : ∀ {pos oc : Nat}, html.length = pos + count → find matho html pos = some oc →
    tags .outside pos (html.drop pos) = (oc, 1) :: tags (.inside 0) (oc + 5) (html.drop (oc + 5)) ∧
      Scan.outside.after (html.drop pos) = (Scan.inside 0).after (html.drop (oc + 5)) := by
  induction count with
  | zero =>
    intro pos oc length is
    rw [Nat.add_zero] at length
    rw [← length, find_length (by decide)] at is
    cases is
  | succ count ih =>
    intro pos oc length is
    have inside : pos < html.length := by omega
    by_cases here : Occurs matho html pos
    · obtain rfl := Option.some.inj ((find_of_occurs inside.le here).symm.trans is)
      exact tags_of_occurs here
    · rw [find_succ inside here] at is
      have absent : ¬ matho <+: html.drop pos := here
      obtain ⟨next, tag⟩ := Scan.outside_of_not absent
      rw [tags_drop inside, after_drop inside, next, tag]
      exact ih (by omega) is

/-- **Reading a tag** finds where it closes by itself, and ends where it ends; unless the text ends with a tag that does
so, behind which it goes on. -/
theorem scanTag_spec (count : Nat) : ∀ {pos : Nat} (allpos : List (Nat × Int)), html.length = pos + count →
    (∃ events pos', scanTag html pos allpos = some (pos', allpos ++ events) ∧ pos' ≤ html.length ∧
      tags (.inside 0) pos (html.drop pos) = events ++ tags .outside pos' (html.drop pos') ∧
      ((Scan.inside 0).after (html.drop pos)).IsInside = (Scan.outside.after (html.drop pos')).IsInside) ∨
    (scanTag html pos allpos = none ∧ ¬ ((Scan.inside 0).after (html.drop pos)).IsInside) := by
  induction count using Nat.strong_induction_on with
  | _ count ih =>
    intro pos allpos length
    cases count with
    | zero =>
      rw [Nat.add_zero] at length
      refine Or.inl ⟨[], pos, ?_, length.ge, ?_, ?_⟩
      · rw [← length, scanTag_length, List.append_nil]
      · rw [← length, List.drop_length]
        rfl
      · rw [← length, List.drop_length]
        rfl
    | succ count =>
      have inside : pos < html.length := by omega
      have cons := drop_cons inside
      rw [scanTag_of_lt inside]
      by_cases close : html[pos] = '>'
      · -- the scan goes on outside, at the end of the tag
        have notSelf : ¬ ['/', '>'] <+: html.drop pos := by
          rw [cons, close]
          exact fun self => absurd (List.cons_prefix_cons.mp self).1 (by decide)
        have notOpen : ¬ matho <+: html.drop pos := by
          rw [cons, close]
          exact fun opens => absurd (List.cons_prefix_cons.mp opens).1 (by decide)
        have ends : ['>'] <+: html.drop pos := by
          rw [cons, close]
          exact List.prefix_append ['>'] _
        obtain ⟨next, tag⟩ := Scan.inside_of_not notSelf
        obtain ⟨nextOutside, tagOutside⟩ := Scan.outside_of_not notOpen
        rw [if_pos ends] at next
        rw [if_pos close]
        refine Or.inl ⟨[], pos, by rw [List.append_nil], inside.le, ?_, ?_⟩
        · rw [tags_drop inside, tags_drop inside, tag, tagOutside, next, nextOutside]
          rfl
        · rw [after_drop inside, after_drop inside, next, nextOutside]
      · rw [if_neg close]
        have notEnd : ¬ ['>'] <+: html.drop pos := by
          rw [cons]
          exact fun ends => close (List.cons_prefix_cons.mp ends).1.symm
        by_cases self : html[pos] = '/' ∧ pos + 1 < html.length ∧ charAt html (pos + 1) = some '>'
        · rw [if_pos self]
          obtain ⟨slash, more, bracket⟩ := self
          have second : html[pos + 1] = '>' := by
            have here : charAt html (pos + 1) = some html[pos + 1] := itemAt_of_lt more
            exact Option.some.inj (here.symm.trans bracket)
          have split : html.drop pos = '/' :: '>' :: html.drop (pos + 2) := by
            rw [cons, drop_cons more, slash, second]
          have selfClosing : ['/', '>'] <+: html.drop pos := by
            rw [split]
            exact List.prefix_append ['/', '>'] _
          obtain ⟨next, tag⟩ := Scan.inside_of_self selfClosing
          have skipped : tags (.inside 0) pos (html.drop pos) =
              (pos, -1) :: tags (.inside 1) (pos + 2) (html.drop (pos + 2)) := by
            rw [tags_drop inside, tag, next, tags_drop more]
            rfl
          have skippedAfter : (Scan.inside 0).after (html.drop pos) = (Scan.inside 1).after (html.drop (pos + 2)) := by
            rw [after_drop inside, next, after_drop more]
            rfl
          rw [skipped, skippedAfter]
          rcases (show pos + 2 ≤ html.length from more).eq_or_lt with last | later
          · refine Or.inr ⟨scanTag_beyond (by omega) _, ?_⟩
            rw [last, List.drop_length]
            exact not_false
          · have onward : tags (.inside 1) (pos + 2) (html.drop (pos + 2)) =
                tags (.inside 0) (pos + 3) (html.drop (pos + 3)) := tags_drop later _
            have onwardAfter : (Scan.inside 1).after (html.drop (pos + 2)) =
                (Scan.inside 0).after (html.drop (pos + 3)) := after_drop later _
            rw [onward, onwardAfter]
            rcases ih (count - 2) (by omega) (allpos ++ [(pos, -1)])
              (show html.length = pos + 3 + (count - 2) by omega) with
              ⟨events, pos', scanned, bound, split, same⟩ | failed
            · refine Or.inl ⟨(pos, -1) :: events, pos', ?_, bound, ?_, same⟩
              · rw [scanned, List.append_assoc, List.singleton_append]
              · rw [split, List.cons_append]
            · exact Or.inr failed
        · rw [if_neg self]
          have notSelf : ¬ ['/', '>'] <+: html.drop pos := by
            rw [cons]
            intro selfClosing
            obtain ⟨slash, rest⟩ := List.cons_prefix_cons.mp selfClosing
            have more : pos + 1 < html.length := by
              by_contra last
              rw [List.drop_eq_nil_of_le (by omega)] at rest
              exact absurd (List.prefix_nil.mp rest) (by decide)
            rw [drop_cons more] at rest
            refine self ⟨slash.symm, more, ?_⟩
            have here : charAt html (pos + 1) = some html[pos + 1] := itemAt_of_lt more
            rw [here, ← (List.cons_prefix_cons.mp rest).1]
          obtain ⟨next, tag⟩ := Scan.inside_of_not notSelf
          rw [if_neg notEnd] at next
          rw [tags_drop inside, after_drop inside, tag, next]
          exact ih count (Nat.lt_succ_self _) allpos (by omega)

/-- **The first scan** finds the tags that open or close by themselves, unless it runs over the end. -/
theorem openingTags_eq (count : Nat) : ∀ {pos : Nat} (allpos : List (Nat × Int)), html.length = pos + count →
    ((Scan.outside.after (html.drop pos)).IsInside →
      openingTags html pos allpos = some (allpos ++ tags .outside pos (html.drop pos))) ∧
    (¬ (Scan.outside.after (html.drop pos)).IsInside → openingTags html pos allpos = none) := by
  induction count using Nat.strong_induction_on with
  | _ count ih =>
    intro pos allpos length
    rw [openingTags]
    split
    · next absent =>
      obtain ⟨none, after⟩ := tags_of_find_none count length absent
      rw [none, after, List.append_nil]
      exact ⟨fun _ => rfl, fun outside => absurd trivial outside⟩
    · next oc is =>
      obtain ⟨behind, bound, occurs⟩ := find_eq_some is
      have room : oc + 5 ≤ html.length := occurs.le_length bound
      obtain ⟨events, after⟩ := tags_of_find_some count length is
      rw [events, after]
      rcases scanTag_spec (html.length - (oc + 5)) (allpos ++ [(oc, 1)])
        (show html.length = oc + 5 + (html.length - (oc + 5)) by omega) with
        ⟨more, pos', scanned, bound', split, same⟩ | ⟨failed, outside⟩
      · have onward := le_of_scanTag html.length (Nat.le_add_left _ _) scanned
        split
        · next wrong =>
          have none : scanTag html (oc + 5) (allpos ++ [(oc, 1)]) = none := wrong
          rw [scanned] at none
          cases none
        · next pos'' allpos'' scanned' =>
          have scanned'' : scanTag html (oc + 5) (allpos ++ [(oc, 1)]) = some (pos'', allpos'') := scanned'
          rw [scanned] at scanned''
          obtain ⟨rfl, rfl⟩ := Prod.mk.inj (Option.some.inj scanned'')
          have rest := ih (html.length - pos') (by omega) (allpos ++ [(oc, 1)] ++ more)
            (show html.length = pos' + (html.length - pos') by omega)
          rw [same, split]
          simpa using rest
      · refine ⟨fun inside => absurd inside outside, fun _ => ?_⟩
        split
        · rfl
        · next pos'' allpos'' scanned' =>
          have scanned'' : scanTag html (oc + 5) (allpos ++ [(oc, 1)]) = some (pos'', allpos'') := scanned'
          rw [failed] at scanned''
          cases scanned''

theorem closings_drop {pos : Nat} (inside : pos < html.length) : closings pos (html.drop pos) =
    found (closing (html.drop pos)) pos ++ closings (pos + 1) (html.drop (pos + 1)) := by
  rw [drop_cons inside, closings]

/-- Behind a closing tag. -/
theorem closings_of_occurs {oc : Nat} (occurs : Occurs mathc html oc) :
    closings oc (html.drop oc) = (oc, -1) :: closings (oc + 7) (html.drop (oc + 7)) := by
  obtain ⟨rest, split⟩ := occurs
  have behind : html.drop (oc + 7) = rest := by
    rw [← List.drop_drop, ← split]
    rfl
  have here : mathc <+: '<' :: '/' :: 'm' :: 'a' :: 't' :: 'h' :: '>' :: rest := List.prefix_append _ _
  have other : ∀ (char : Char) (text : Str), char ≠ '<' → closing (char :: text) = none := fun char text differs =>
    if_neg fun begins => differs (List.cons_prefix_cons.mp begins).1.symm
  rw [behind, ← split]
  show closings oc ('<' :: '/' :: 'm' :: 'a' :: 't' :: 'h' :: '>' :: rest) = _
  rw [closings, closing, if_pos here]
  simp only [closings, other _ _ (show '/' ≠ '<' by decide), other _ _ (show 'm' ≠ '<' by decide),
    other _ _ (show 'a' ≠ '<' by decide), other _ _ (show 't' ≠ '<' by decide), other _ _ (show 'h' ≠ '<' by decide),
    other _ _ (show '>' ≠ '<' by decide)]
  rfl

/-- **The second scan** finds the closing tags. -/
theorem closingTags_eq (count : Nat) : ∀ {pos : Nat} (allpos : List (Nat × Int)), html.length = pos + count →
    closingTags html pos allpos = allpos ++ closings pos (html.drop pos) := by
  induction count using Nat.strong_induction_on with
  | _ count ih =>
    intro pos allpos length
    cases count with
    | zero =>
      rw [Nat.add_zero] at length
      rw [closingTags, ← length, List.drop_length, closings, List.append_nil]
      split
      · rfl
      · next is =>
        rw [find_length (by decide)] at is
        cases is
    | succ count =>
      have inside : pos < html.length := by omega
      by_cases here : Occurs mathc html pos
      · have room : pos + 7 ≤ html.length := here.le_length inside.le
        rw [closingTags]
        split
        · next absent =>
          rw [find_of_occurs inside.le here] at absent
          cases absent
        · next oc is =>
          obtain rfl := Option.some.inj ((find_of_occurs inside.le here).symm.trans is)
          rw [closings_of_occurs here]
          have rest := ih (count + 1 - 7) (by omega) (allpos ++ [(pos, -1)])
            (show html.length = pos + 7 + (count + 1 - 7) by omega)
          rw [List.append_assoc] at rest
          exact rest
      · have rest := ih count (Nat.lt_succ_self _) allpos (show html.length = pos + 1 + count by omega)
        have absent : ¬ mathc <+: html.drop pos := here
        rw [closings_drop inside, closing, if_neg absent]
        rw [closingTags] at rest ⊢
        rw [find_succ inside here]
        exact rest

end Scans

/-! ### Sorting -/

/-- No tag opens, or closes by itself, where a closing tag begins. -/
theorem tag_of_closing {text : Str} {change : Int} (closes : closing text = some change) (scan : Scan) :
    scan.tag text = none := by
  unfold closing at closes
  split_ifs at closes with begins
  obtain ⟨rest, rfl⟩ := begins
  have notOpen : ¬ matho <+: mathc ++ rest := fun opens =>
    absurd (List.cons_prefix_cons.mp (List.cons_prefix_cons.mp opens).2).1 (by decide)
  have notSelf : ¬ ['/', '>'] <+: mathc ++ rest := fun self => absurd (List.cons_prefix_cons.mp self).1 (by decide)
  match scan with
  | .outside => exact (Scan.outside_of_not notOpen).2
  | .inside 0 => exact (Scan.inside_of_not notSelf).2
  | .inside (_ + 1) => rfl

theorem perm_marks (text : Str) : ∀ (scan : Scan) (pos : Nat),
    (tags scan pos text ++ closings pos text).Perm (marks scan pos text) := by
  induction text with
  | nil => exact fun _ _ => .nil
  | cons char text ih =>
    intro scan pos
    rw [tags, closings, marks, List.append_assoc, List.append_assoc]
    refine .append_left _ ?_
    refine .trans (List.perm_append_comm_assoc _ _ _) ?_
    exact .append_left _ (ih _ _)

/-- A mark is a tag of its kind. -/
def IsMark (html : Str) (mark : Nat × Int) : Prop :=
  mark.2 = 1 ∧ Occurs matho html mark.1 ∨
    mark.2 = -1 ∧ (Occurs mathc html mark.1 ∨ Occurs ['/', '>'] html mark.1)

theorem isMark_of_tag {html : Str} {pos : Nat} (scan : Scan) {mark : Nat × Int}
    (member : mark ∈ found (scan.tag (html.drop pos)) pos) : mark.1 = pos ∧ IsMark html mark := by
  rw [found, Option.mem_toList, Option.map_eq_some_iff] at member
  obtain ⟨change, is, rfl⟩ := member
  refine ⟨rfl, ?_⟩
  match scan with
  | .outside =>
    replace is : (if matho <+: html.drop pos then some (1 : Int) else none) = some change := is
    split_ifs at is with opens
    exact Or.inl ⟨(Option.some.inj is).symm, opens⟩
  | .inside 0 =>
    replace is : (if ['/', '>'] <+: html.drop pos then some (-1 : Int) else none) = some change := is
    split_ifs at is with self
    exact Or.inr ⟨(Option.some.inj is).symm, Or.inr self⟩
  | .inside (_ + 1) => cases is

theorem isMark_of_closing {html : Str} {pos : Nat} {mark : Nat × Int}
    (member : mark ∈ found (closing (html.drop pos)) pos) : mark.1 = pos ∧ IsMark html mark := by
  rw [found, Option.mem_toList, Option.map_eq_some_iff] at member
  obtain ⟨change, is, rfl⟩ := member
  unfold closing at is
  split_ifs at is with closes
  exact ⟨rfl, Or.inr ⟨(Option.some.inj is).symm, Or.inl closes⟩⟩

/-- **The marks are in the order of the page**, one at a position. -/
theorem marks_sorted {html : Str} (count : Nat) : ∀ (scan : Scan) {pos : Nat}, html.length = pos + count →
    (marks scan pos (html.drop pos)).Pairwise (fun first second => first.1 < second.1) ∧
      ∀ mark ∈ marks scan pos (html.drop pos), pos ≤ mark.1 ∧ IsMark html mark := by
  induction count with
  | zero =>
    intro scan pos length
    rw [Nat.add_zero] at length
    rw [← length, List.drop_length]
    exact ⟨.nil, fun mark member => absurd member List.not_mem_nil⟩
  | succ count ih =>
    intro scan pos length
    have inside : pos < html.length := by omega
    obtain ⟨sorted, later⟩ := ih (scan.next (html.drop pos)) (show html.length = pos + 1 + count by omega)
    have split : marks scan pos (html.drop pos) =
        found (scan.tag (html.drop pos)) pos ++ found (closing (html.drop pos)) pos ++
          marks (scan.next (html.drop pos)) (pos + 1) (html.drop (pos + 1)) := by
      rw [drop_cons inside, marks]
    have here : ∀ mark ∈ found (scan.tag (html.drop pos)) pos ++ found (closing (html.drop pos)) pos,
        mark.1 = pos ∧ IsMark html mark := by
      intro mark member
      rcases List.mem_append.mp member with tag | closes
      · exact isMark_of_tag scan tag
      · exact isMark_of_closing closes
    have one : (found (scan.tag (html.drop pos)) pos ++ found (closing (html.drop pos)) pos).Pairwise
        (fun first second => first.1 < second.1) := by
      cases closes : closing (html.drop pos) with
      | none =>
        rw [found, found]
        cases scan.tag (html.drop pos) with
        | none => exact .nil
        | some change => exact List.pairwise_singleton _ _
      | some change =>
        rw [tag_of_closing closes]
        exact List.pairwise_singleton _ _
    rw [split]
    refine ⟨List.pairwise_append.mpr ⟨one, sorted, fun first front second back => ?_⟩, fun mark member => ?_⟩
    · rw [(here first front).1]
      exact (later second back).1
    · rcases List.mem_append.mp member with front | back
      · exact ⟨(here mark front).1.ge, (here mark front).2⟩
      · exact ⟨Nat.le_of_succ_le (later mark back).1, (later mark back).2⟩

/-- **Sorting what the scans find gives the marks** of the page. -/
theorem sort_eq_marks (html : Str) :
    (tags .outside 0 html ++ closings 0 html).insertionSort Before = marks .outside 0 html := by
  have total : Std.Total Before := ⟨fun first second => by unfold Before; omega⟩
  have trans : IsTrans (Nat × Int) Before := ⟨fun first second third => by unfold Before; omega⟩
  have antisymm : Std.Antisymm Before := ⟨fun first second one two => by
    have both : first.1 = second.1 ∧ first.2 = second.2 := by unfold Before at one two; omega
    exact Prod.ext both.1 both.2⟩
  have sorted := (marks_sorted html.length .outside (Nat.zero_add _).symm).1
  rw [List.drop_zero] at sorted
  refine List.Perm.eq_of_pairwise' (List.pairwise_insertionSort _ _) (sorted.imp fun less => Or.inl less) ?_
  exact (List.perm_insertionSort _ _).trans (perm_marks html .outside 0)

/-! ### Namespaces -/

/-- The copy of a block, with `m:` behind the beginnings of some tags. -/
inductive Inserted : Str → Str → Prop
  | nil : Inserted [] []
  | char {char : Char} {block nstr : Str} : Inserted block nstr → Inserted (char :: block) (char :: nstr)
  | opening {block nstr : Str} : Inserted block nstr → Inserted ('<' :: block) ('<' :: 'm' :: ':' :: nstr)
  | closing {block nstr : Str} : Inserted block nstr →
      Inserted ('<' :: '/' :: block) ('<' :: '/' :: 'm' :: ':' :: nstr)

theorem charAt_of_lt {html : Str} {pos : Nat} (inside : pos < html.length) : charAt html pos = some html[pos] :=
  itemAt_of_lt inside

/-- The letters of a tag are read inside the block. -/
theorem lowerCase_spec {html : Str} {stop : Nat} (inside : stop ≤ html.length) (count : Nat) :
    ∀ {k : Nat} (g : Str), stop ≤ k + count →
      ∃ letters, lowerCase html stop k g = some (g ++ letters) ∧ ∀ letter ∈ letters, letter.isLower = true := by
  induction count with
  | zero =>
    intro k g bound
    exact ⟨[], by rw [lowerCase, if_neg (by omega), List.append_nil], fun letter member => absurd member List.not_mem_nil⟩
  | succ count ih =>
    intro k g bound
    by_cases more : k < stop
    · have within := lt_of_lt_of_le more inside
      rw [lowerCase, if_pos more, charAt_of_lt within]
      dsimp only
      by_cases lower : html[k].isLower = true
      · rw [if_pos lower]
        obtain ⟨letters, read, all⟩ := ih (g ++ [html[k]]) (show stop ≤ k + 1 + count by omega)
        refine ⟨html[k] :: letters, by rw [read, List.append_assoc, List.singleton_append], ?_⟩
        exact List.forall_mem_cons.mpr ⟨lower, all⟩
      · rw [if_neg lower]
        exact ⟨[], by rw [List.append_nil], fun letter member => absurd member List.not_mem_nil⟩
    · exact ⟨[], by rw [lowerCase, if_neg more, List.append_nil], fun letter member => absurd member List.not_mem_nil⟩

/-- What is left of a block. -/
theorem block_cons {html : Str} {stop j : Nat} (more : j < stop) (within : j < html.length) :
    (html.take stop).drop j = html[j] :: (html.take stop).drop (j + 1) := by
  have bound : j < (html.take stop).length := by
    rw [List.length_take]
    omega
  rw [List.drop_eq_getElem_cons bound, List.getElem_take]

theorem block_nil {html : Str} {stop j : Nat} (done : stop ≤ j) : (html.take stop).drop j = [] :=
  List.drop_eq_nil_of_le (by rw [List.length_take]; omega)

/-- **Copying a block** that ends in `>` stays inside the page. -/
theorem addNamespaces_spec (mathmlTags : Str → Bool) {html : Str} {stop : Nat} (inside : stop ≤ html.length)
    (last : ∀ j, j + 1 = stop → charAt html j = some '>') (count : Nat) :
    ∀ {j : Nat} (nstr : Str), stop ≤ j + count → ∃ more, addNamespaces mathmlTags html stop j nstr = some (nstr ++ more) ∧
      Inserted ((html.take stop).drop j) more := by
  induction count using Nat.strong_induction_on with
  | _ count ih =>
    intro j nstr bound
    by_cases more : j < stop
    · have within : j < html.length := lt_of_lt_of_le more inside
      have onward : ∀ (front : Str) (j' : Nat), j < j' → ∃ more, addNamespaces mathmlTags html stop j' (nstr ++ front) =
          some (nstr ++ (front ++ more)) ∧ Inserted ((html.take stop).drop j') more := by
        intro front j' later
        obtain ⟨more, copied, inserted⟩ := ih (count - (j' - j)) (by omega) (nstr ++ front)
          (show stop ≤ j' + (count - (j' - j)) by omega)
        exact ⟨more, by rw [copied, List.append_assoc], inserted⟩
      rw [addNamespaces, if_pos more, charAt_of_lt within, block_cons more within]
      show ∃ more, (if html[j] ≠ '<' then _ else _) = _ ∧ _
      by_cases bracket : html[j] = '<'
      · rw [if_neg (not_not.mpr bracket), bracket]
        -- the block goes on, as it ends in another character
        have next : j + 1 < stop := by
          rcases Nat.lt_or_ge (j + 1) stop with next | ends
          · exact next
          · have here := last j (by omega)
            rw [charAt_of_lt within, bracket] at here
            exact absurd (Option.some.inj here) (by decide)
        have nextWithin := lt_of_lt_of_le next inside
        rw [charAt_of_lt nextWithin]
        dsimp only
        by_cases slash : html[j + 1] = '/'
        · rw [if_pos slash]
          obtain ⟨letters, read, _⟩ := lowerCase_spec inside stop ['/'] (Nat.le_add_left stop (j + 1 + 1))
          rw [read]
          dsimp only
          split_ifs with isTag
          · obtain ⟨more, copied, inserted⟩ := onward "</m:".toList (j + 2) (by omega)
            refine ⟨_, copied, ?_⟩
            rw [block_cons next nextWithin, slash]
            exact .closing inserted
          · exact absurd rfl ‹_›
          · obtain ⟨more, copied, inserted⟩ := onward ['<'] (j + 1) (by omega)
            exact ⟨_, copied, .char inserted⟩
        · rw [if_neg slash]
          obtain ⟨letters, read, lower⟩ := lowerCase_spec inside stop [] (Nat.le_add_left stop (j + 1))
          rw [read]
          dsimp only
          split_ifs with isTag closes
          · have letter := lower '/' (List.mem_of_mem_head? closes)
            exact absurd letter (by decide)
          · obtain ⟨more, copied, inserted⟩ := onward "<m:".toList (j + 1) (by omega)
            exact ⟨_, copied, .opening inserted⟩
          · obtain ⟨more, copied, inserted⟩ := onward ['<'] (j + 1) (by omega)
            exact ⟨_, copied, .char inserted⟩
      · rw [if_pos bracket]
        obtain ⟨more, copied, inserted⟩ := onward [html[j]] (j + 1) (by omega)
        exact ⟨_, copied, .char inserted⟩
    · rw [addNamespaces, if_neg more, block_nil (by omega)]
      exact ⟨[], by rw [List.append_nil], .nil⟩

/-! ### Ids -/

/-- What follows the first ` id=` of a block, if that begins before the first `>`. -/
def idRest : Str → Option Str
  | [] => none
  | char :: text =>
    if " id=".toList <+: char :: text then some ((char :: text).drop 4)
    else if char = '>' then none
    else idRest text

/-- **The id of a block ends in a quote**, behind the character with which it begins. -/
def IdClosed (block : Str) : Prop := ∀ rest, idRest block = some rest → '"' ∈ rest.drop 1

instance (block : Str) : Decidable (IdClosed block) :=
  match is : idRest block with
  | none => isTrue fun rest same => by
      rw [is] at same
      cases same
  | some rest => decidable_of_iff ('"' ∈ rest.drop 1)
      ⟨fun quote other same => Option.some.inj (is.symm.trans same) ▸ quote, fun all => all rest is⟩

/-- The condition under which an id is read. -/
def reads (wid : Nat) (we : Option Nat) : Bool :=
  match we with
  | none => true
  | some we => decide (wid < we)

/-- What the searches find. -/
theorem idRest_eq (text : Str) : ∀ pos : Nat, idRest text =
    match search " id=".toList pos text with
    | none => none
    | some wid => if reads wid (search ">".toList pos text) then some (text.drop (wid - pos + 4)) else none := by
  induction text with
  | nil => exact fun _ => rfl
  | cons char text ih =>
    intro pos
    by_cases here : " id=".toList <+: char :: text
    · have blank : char ≠ '>' := by
        rintro rfl
        exact absurd (List.cons_prefix_cons.mp here).1 (by decide)
      have notEnd : ¬ ">".toList <+: char :: text := fun ends => blank (List.cons_prefix_cons.mp ends).1.symm
      have first : reads pos (search ">".toList pos (char :: text)) = true := by
        rw [search_cons notEnd]
        cases is : search ">".toList (pos + 1) text with
        | none => rfl
        | some we =>
          obtain ⟨count, rfl, _⟩ := search_eq_some text is
          exact decide_eq_true (by omega)
      rw [search_of_starts here, idRest, if_pos here]
      show _ = if _ then _ else _
      rw [if_pos first, Nat.sub_self]
    · rw [search_cons here, idRest, if_neg here]
      by_cases ends : char = '>'
      · rw [if_pos ends]
        have found : ">".toList <+: char :: text := ends ▸ List.prefix_append ['>'] text
        rw [search_of_starts found]
        cases is : search " id=".toList (pos + 1) text with
        | none => rfl
        | some wid =>
          obtain ⟨count, rfl, _⟩ := search_eq_some text is
          exact (if_neg (by rw [reads, decide_eq_true_iff]; omega)).symm
      · have notEnd : ¬ ">".toList <+: char :: text := fun begins => ends (List.cons_prefix_cons.mp begins).1.symm
        rw [if_neg ends, search_cons notEnd, ih (pos + 1)]
        cases is : search " id=".toList (pos + 1) text with
        | none => rfl
        | some wid =>
          obtain ⟨count, rfl, _⟩ := search_eq_some text is
          have one : pos + 1 + count - pos + 4 = (pos + 1 + count - (pos + 1) + 4) + 1 := by omega
          dsimp only
          rw [one, List.drop_succ_cons]

/-- Reading an id ends at a quote, or behind the end. -/
theorem readId_beyond {nstr : Str} {j : Nat} (beyond : nstr.length < j) (id : Str) : readId nstr j id = none := by
  have none : charAt nstr j = none := itemAt_eq_none_iff.mpr beyond
  rw [readId, none, ite_self]

theorem isSome_readId {nstr : Str} (short : nstr.length < 2 ^ 31) (count : Nat) : ∀ {j : Nat} (id : Str),
    nstr.length < j + count → ((readId nstr j id).isSome = true ↔ '"' ∈ nstr.drop j) := by
  induction count with
  | zero =>
    intro j id beyond
    rw [Nat.add_zero] at beyond
    rw [readId_beyond beyond, List.drop_eq_nil_of_le beyond.le]
    exact iff_of_false Bool.false_ne_true List.not_mem_nil
  | succ count ih =>
    intro j id bound
    have later := fun id => ih id (show nstr.length < j + 1 + count by omega)
    rcases lt_trichotomy j nstr.length with inside | rfl | beyond
    · rw [readId, if_pos (inside.trans short), charAt_of_lt inside, drop_cons inside, List.mem_cons]
      dsimp only
      split_ifs with quote
      · exact iff_of_true rfl (Or.inl quote.symm)
      · rw [later, or_iff_right (Ne.symm quote)]
    · have terminator : charAt nstr nstr.length = some '\x00' := itemAt_length _ _
      rw [readId, if_pos short, terminator, List.drop_length]
      dsimp only
      rw [if_neg (by decide), readId_beyond (Nat.lt_succ_self _)]
      exact iff_of_false Bool.false_ne_true List.not_mem_nil
    · rw [readId_beyond beyond, List.drop_eq_nil_of_le beyond.le]
      exact iff_of_false Bool.false_ne_true List.not_mem_nil

/-- **When the id of a formula is read** inside the formula. -/
theorem isSome_formulaId {nstr : Str} (short : nstr.length < 2 ^ 31) :
    (formulaId nstr).isSome = true ↔ IdClosed nstr := by
  have ends : find ">".toList nstr 0 = search ">".toList 0 nstr := find_of_le (Nat.zero_le _)
  have begins : find " id=".toList nstr 0 = search " id=".toList 0 nstr := find_of_le (Nat.zero_le _)
  rw [formulaId, IdClosed, idRest_eq nstr 0, ends, begins]
  cases is : search " id=".toList 0 nstr with
  | none =>
    refine iff_of_true rfl fun rest same => ?_
    cases same
  | some wid =>
    show Option.isSome (if reads wid (search ">".toList 0 nstr) = true then readId nstr (wid + 5) [] else some []) =
        true ↔ ∀ rest, (if reads wid (search ">".toList 0 nstr) = true then some (nstr.drop (wid + 4)) else none) =
          some rest → '"' ∈ rest.drop 1
    split_ifs with read
    · rw [isSome_readId short (nstr.length + 1) [] (by omega)]
      refine ⟨fun quote rest same => ?_, fun all => ?_⟩
      · obtain rfl := Option.some.inj same
        rwa [List.drop_drop]
      · have quote := all _ rfl
        rwa [List.drop_drop] at quote
    · refine iff_of_true rfl fun rest same => ?_
      cases same

namespace Inserted

variable {block nstr : Str}

/-- Two characters are added for a tag at most. -/
theorem length_le (inserted : Inserted block nstr) : nstr.length ≤ block.length + 2 * block.count '<' := by
  have step : ∀ (char : Char) (text : Str), (char :: text).length + 2 * (char :: text).count '<' =
      text.length + 2 * text.count '<' + (if char = '<' then 3 else 1) := by
    intro char text
    rw [List.count_cons, List.length_cons]
    simp only [beq_iff_eq]
    split_ifs
    · omega
    · omega
  induction inserted with
  | nil => exact Nat.zero_le _
  | char _ ih =>
    rw [step, List.length_cons]
    split_ifs
    · omega
    · omega
  | opening _ ih =>
    rw [step, if_pos rfl, List.length_cons, List.length_cons, List.length_cons]
    omega
  | closing _ ih =>
    rw [step, step, if_pos rfl, if_neg (by decide), List.length_cons, List.length_cons, List.length_cons,
      List.length_cons]
    omega

/-- A word without `<` is at the beginning of both. -/
theorem prefix_iff (inserted : Inserted block nstr) (word : Str) (plain : '<' ∉ word) :
    (word <+: block ↔ word <+: nstr) ∧
      (word <+: block → Inserted (block.drop word.length) (nstr.drop word.length)) := by
  induction word generalizing block nstr with
  | nil => exact ⟨iff_of_true List.nil_prefix List.nil_prefix, fun _ => inserted⟩
  | cons letter word ih =>
    obtain ⟨other, plain⟩ := not_or.mp (List.mem_cons.not.mp plain)
    have differs : ∀ text : Str, ¬ letter :: word <+: '<' :: text := fun text begins =>
      other (List.cons_prefix_cons.mp begins).1.symm
    cases inserted with
    | nil => exact ⟨Iff.rfl, fun _ => .nil⟩
    | @char char block nstr inserted =>
      obtain ⟨same, rest⟩ := ih inserted plain
      rw [List.cons_prefix_cons, List.cons_prefix_cons, same]
      exact ⟨Iff.rfl, fun both => rest (same.mpr both.2)⟩
    | opening _ => exact ⟨iff_of_false (differs _) (differs _), fun begins => absurd begins (differs _)⟩
    | closing _ => exact ⟨iff_of_false (differs _) (differs _), fun begins => absurd begins (differs _)⟩

theorem mem_iff (inserted : Inserted block nstr) {char : Char} (notM : char ≠ 'm') (notColon : char ≠ ':') :
    char ∈ block ↔ char ∈ nstr := by
  induction inserted with
  | nil => exact Iff.rfl
  | char _ ih => simp only [List.mem_cons, ih]
  | opening _ ih => simp only [List.mem_cons, ih, notM, notColon, false_or]
  | closing _ ih => simp only [List.mem_cons, ih, notM, notColon, false_or]

theorem mem_drop_iff (inserted : Inserted block nstr) {char : Char} (notM : char ≠ 'm') (notColon : char ≠ ':') :
    char ∈ block.drop 1 ↔ char ∈ nstr.drop 1 := by
  cases inserted with
  | nil => exact Iff.rfl
  | char inserted => exact inserted.mem_iff notM notColon
  | opening inserted => simp [inserted.mem_iff notM notColon, notM, notColon]
  | closing inserted => simp [inserted.mem_iff notM notColon, notM, notColon]

theorem idRest_rel (inserted : Inserted block nstr) : Option.Rel Inserted (idRest block) (idRest nstr) := by
  have skipped : ∀ (char : Char) (text : Str), char ≠ ' ' → char ≠ '>' → idRest (char :: text) = idRest text := by
    intro char text notBlank notEnd
    have absent : ¬ " id=".toList <+: char :: text := fun begins => notBlank (List.cons_prefix_cons.mp begins).1.symm
    rw [idRest, if_neg absent, if_neg notEnd]
  induction inserted with
  | nil => exact .none
  | @char char block nstr inserted ih =>
    obtain ⟨same, rest⟩ := (Inserted.char inserted).prefix_iff " id=".toList (by decide)
    rw [idRest, idRest]
    by_cases begins : " id=".toList <+: char :: block
    · rw [if_pos begins, if_pos (same.mp begins)]
      exact .some (rest begins)
    · rw [if_neg begins, if_neg fun other => begins (same.mpr other)]
      split_ifs with ends
      · exact .none
      · exact ih
  | @opening block nstr _ ih =>
    rwa [skipped '<' block (by decide) (by decide), skipped '<' _ (by decide) (by decide),
      skipped 'm' _ (by decide) (by decide), skipped ':' _ (by decide) (by decide)]
  | @closing block nstr _ ih =>
    rwa [skipped '<' _ (by decide) (by decide), skipped '/' block (by decide) (by decide),
      skipped '<' _ (by decide) (by decide), skipped '/' _ (by decide) (by decide),
      skipped 'm' _ (by decide) (by decide), skipped ':' _ (by decide) (by decide)]

/-- **The namespaces do not matter for the id.** -/
theorem idClosed_iff (inserted : Inserted block nstr) : IdClosed block ↔ IdClosed nstr := by
  have related := inserted.idRest_rel
  unfold IdClosed
  generalize idRest block = first at related
  generalize idRest nstr = second at related
  cases related with
  | none => exact Iff.rfl
  | @some rest rest' inserted =>
    have same := inserted.mem_drop_iff (show '"' ≠ 'm' by decide) (show '"' ≠ ':' by decide)
    refine ⟨fun all text is => ?_, fun all text is => ?_⟩
    · obtain rfl := Option.some.inj is
      exact same.mp (all _ rfl)
    · obtain rfl := Option.some.inj is
      exact same.mpr (all _ rfl)

end Inserted

/-! ### Blocks -/

section Cut

variable {html : Str}

/-- The characters of a word that occurs. -/
theorem charAt_of_occurs {word : Str} {pos k : Nat} (occurs : Occurs word html pos) (within : k < word.length) :
    charAt html (pos + k) = some word[k] := by
  have bound := occurs.length_le
  rw [List.length_drop] at bound
  have inside : pos + k < html.length := by omega
  have dropped : k < (html.drop pos).length := by
    rw [List.length_drop]
    omega
  have same : (html.drop pos)[k] = word[k] := (occurs.getElem within).symm
  rw [charAt_of_lt inside, ← same, List.getElem_drop]

/-- A tag that closes. -/
def Closes (html : Str) (pos : Nat) : Prop := Occurs mathc html pos ∨ Occurs ['/', '>'] html pos

theorem not_matho_of_closes {pos : Nat} (closes : Closes html pos) : ¬ Occurs matho html pos := by
  intro opens
  rcases closes with whole | self
  · have first : some '/' = some 'm' :=
      (charAt_of_occurs (k := 1) whole (by decide)).symm.trans (charAt_of_occurs (k := 1) opens (by decide))
    exact absurd first (by decide)
  · have first : some '/' = some '<' :=
      (charAt_of_occurs (k := 0) self (by decide)).symm.trans (charAt_of_occurs (k := 0) opens (by decide))
    exact absurd first (by decide)

/-- Where a block ends that a tag at a position closes. -/
def stopOf (html : Str) (pos : Nat) : Nat := if Occurs ['/', '>'] html pos then pos + 2 else pos + 7

/-- The characters of a block. -/
def blockText (html : Str) (start pos : Nat) : Str := (html.take (stopOf html pos)).drop start

/-- **The tags fit**: none opens when one more has been closed, and a block ends with its id closed. The block begins at
`start`, and `depth` more tags have been opened than closed. -/
def Fits (html : Str) : Nat → Int → List (Nat × Int) → Prop
  | _, _, [] => True
  | start, depth, (pos, change) :: rest =>
    (change = 1 → depth ≠ -1) ∧ (change = -1 → depth = 1 → IdClosed (blockText html start pos)) ∧
      Fits html (if depth = 0 then pos else start) (depth + change) rest

instance decidableFits (html : Str) : ∀ (start : Nat) (depth : Int) (marks : List (Nat × Int)),
    Decidable (Fits html start depth marks)
  | _, _, [] => isTrue trivial
  | start, depth, (pos, change) :: rest =>
    have := decidableFits html (if depth = 0 then pos else start) (depth + change) rest
    inferInstanceAs (Decidable (_ ∧ _ ∧ _))

/-- What the loop finds where a block is closed. -/
theorem stop_of_closes {pos : Nat} (closes : Closes html pos) :
    ∃ char, charAt html pos = some char ∧ (if char = '/' then pos + 2 else pos + mathc.length) = stopOf html pos ∧
      stopOf html pos ≤ html.length ∧ ∀ j, j + 1 = stopOf html pos → charAt html j = some '>' := by
  by_cases self : Occurs ['/', '>'] html pos
  · have bound := self.length_le
    rw [List.length_drop] at bound
    have length : ['/', '>'].length = 2 := rfl
    rw [stopOf, if_pos self]
    refine ⟨'/', charAt_of_occurs (k := 0) self (by decide), if_pos rfl, by omega, fun j last => ?_⟩
    obtain rfl : j = pos + 1 := by omega
    exact charAt_of_occurs (k := 1) self (by decide)
  · have whole := closes.resolve_right self
    have bound := whole.length_le
    rw [List.length_drop] at bound
    have length : mathc.length = 7 := rfl
    rw [stopOf, if_neg self]
    refine ⟨'<', charAt_of_occurs (k := 0) whole (by decide), if_neg (by decide), by omega, fun j last => ?_⟩
    obtain rfl : j = pos + 6 := by omega
    exact charAt_of_occurs (k := 6) whole (by decide)

variable (mathmlTags : Str → Bool)

/-- A block that is cut begins where it is said to. -/
theorem start_of_cut {first : Option Nat} {val change : Int} {pos : Nat} {rest : List (Nat × Int)}
    {blocks : List MathBlock} (ends : val + change = 0)
    (cut : cutBlocks mathmlTags html first val ((pos, change) :: rest) = some blocks) :
    ∃ block ans, blocks = block :: ans ∧ block.start = first.getD pos := by
  rw [cutBlocks, if_pos ends] at cut
  simp only [Option.bind_eq_bind, Option.bind_eq_some_iff] at cut
  obtain ⟨char, _, nstr, _, id, _, ans, _, is⟩ := cut
  exact ⟨_, ans, (Option.some.inj is).symm, rfl⟩

/-- A page that is short enough for its positions and those in the copies of its blocks: with two characters more for
every `<`, it has fewer than `2 ^ 31`. -/
def IsShort (html : Str) : Prop := html.length + 2 * html.count '<' < 2 ^ 31

instance : Decidable (IsShort html) := inferInstanceAs (Decidable (_ < _))

/-- The copy of a block of a short page. -/
theorem length_lt_of_isShort {start pos : Nat} {nstr : Str} (short : IsShort html)
    (inserted : Inserted (blockText html start pos) nstr) : nstr.length < 2 ^ 31 := by
  have part : (blockText html start pos).Sublist html := (List.drop_sublist _ _).trans (List.take_sublist _ _)
  calc nstr.length ≤ (blockText html start pos).length + 2 * (blockText html start pos).count '<' := inserted.length_le
    _ ≤ html.length + 2 * html.count '<' :=
      Nat.add_le_add part.length_le (Nat.mul_le_mul_left 2 (part.count_le '<'))
    _ < 2 ^ 31 := short

/-- **A block is cut** if the rest of the page is, and its id is closed. -/
theorem cut_iff (short : IsShort html) {start pos : Nat} {rest : List (Nat × Int)} (closes : Closes html pos)
    (begins : Occurs matho html start) :
    (∃ blocks, cutBlocks mathmlTags html (some start) 1 ((pos, -1) :: rest) = some blocks ∧
        ∀ block ∈ blocks, Occurs matho html block.start) ↔
      IdClosed (blockText html start pos) ∧
        ∃ blocks, cutBlocks mathmlTags html none 0 rest = some blocks ∧
          ∀ block ∈ blocks, Occurs matho html block.start := by
  obtain ⟨char, here, stop, inside, last⟩ := stop_of_closes closes
  obtain ⟨nstr, copied, inserted⟩ := addNamespaces_spec mathmlTags inside last (stopOf html pos) []
    (Nat.le_add_left _ start)
  rw [List.nil_append] at copied
  rw [cutBlocks, if_pos (show (1 : Int) + -1 = 0 by decide), here]
  dsimp only [Option.getD_some, Option.bind_eq_bind, Option.bind_some]
  rw [stop, copied, blockText, inserted.idClosed_iff, ← isSome_formulaId (length_lt_of_isShort short inserted)]
  dsimp only [Option.bind_some]
  cases formulaId nstr with
  | none =>
    refine iff_of_false (fun cut => ?_) fun both => Bool.false_ne_true both.1
    obtain ⟨blocks, same, _⟩ := cut
    cases same
  | some id =>
    have closed : (some id).isSome = true := rfl
    rw [and_iff_right closed]
    dsimp only [Option.bind_some]
    refine ⟨fun ⟨blocks, cut, all⟩ => ?_, fun ⟨blocks, cut, all⟩ => ?_⟩
    · obtain ⟨ans, cutRest, is⟩ := Option.bind_eq_some_iff.mp cut
      obtain rfl := Option.some.inj is
      exact ⟨ans, cutRest, (List.forall_mem_cons.mp all).2⟩
    · rw [cut]
      exact ⟨_, rfl, List.forall_mem_cons.mpr ⟨begins, all⟩⟩

/-- The state of the loop: where the block begins that is being cut. -/
inductive Cutting (html : Str) : Option Nat → Nat → Int → Prop
  | between {start : Nat} : Cutting html none start 0
  | opened {start : Nat} {val : Int} : 0 < val → Occurs matho html start → Cutting html (some start) start val
  | closed {start : Nat} {val : Int} : val < 0 → ¬ Occurs matho html start → Cutting html (some start) start val

/-- A tag that does not complete a block. -/
theorem Cutting.step {first : Option Nat} {start pos : Nat} {val change : Int} (cutting : Cutting html first start val)
    (mark : IsMark html (pos, change)) (more : val + change ≠ 0) :
    Cutting html (some (first.getD pos)) (if val = 0 then pos else start) (val + change) := by
  have small : change = 1 ∨ change = -1 := mark.imp And.left And.left
  cases cutting with
  | between =>
    rw [if_pos rfl, Int.zero_add]
    rcases mark with ⟨rfl, opens⟩ | ⟨rfl, closes⟩
    · exact .opened (by decide) opens
    · exact .closed (by decide) (not_matho_of_closes closes)
  | opened positive begins =>
    rw [if_neg positive.ne']
    exact .opened (by omega) begins
  | closed negative begins =>
    rw [if_neg negative.ne]
    exact .closed (by omega) begins

/-- **The loop cuts the page** at opening tags, and inside of the page and of the blocks, if the tags fit. -/
theorem cutBlocks_iff (short : IsShort html) : ∀ (allpos : List (Nat × Int)) {first : Option Nat} {start : Nat} {val : Int},
    Cutting html first start val → (∀ mark ∈ allpos, IsMark html mark) →
      ((∃ blocks, cutBlocks mathmlTags html first val allpos = some blocks ∧
          ∀ block ∈ blocks, Occurs matho html block.start) ↔ Fits html start val allpos) := by
  intro allpos
  induction allpos with
  | nil => exact fun _ _ => iff_of_true ⟨[], by rw [cutBlocks], fun block member => absurd member List.not_mem_nil⟩ trivial
  | cons mark allpos ih =>
    intro first start val cutting isMark
    obtain ⟨pos, change⟩ := mark
    obtain ⟨here, later⟩ := List.forall_mem_cons.mp isMark
    by_cases ends : val + change = 0
    · cases cutting with
      | between =>
        have small : change = 1 ∨ change = -1 := here.imp And.left And.left
        omega
      | opened positive begins =>
        rcases here with ⟨rfl, _⟩ | ⟨rfl, closes⟩
        · omega
        · obtain rfl : val = 1 := by omega
          rw [cut_iff mathmlTags short closes begins, ih .between later, Fits]
          refine ⟨fun both => ⟨by decide, fun _ _ => both.1, both.2⟩, fun all => ⟨all.2.1 rfl rfl, all.2.2⟩⟩
      | closed negative begins =>
        refine iff_of_false (fun ⟨blocks, cut, all⟩ => ?_) fun fits => ?_
        · obtain ⟨block, ans, rfl, is⟩ := start_of_cut mathmlTags ends cut
          have opens := (List.forall_mem_cons.mp all).1
          rw [is] at opens
          exact begins opens
        · rcases here with ⟨rfl, _⟩ | ⟨rfl, _⟩
          · exact fits.1 rfl (by omega)
          · omega
    · rw [cutBlocks, if_neg ends, ih (cutting.step here ends) later, Fits]
      refine ⟨fun fits => ⟨fun opens depth => ?_, fun closes depth => ?_, fits⟩, fun all => all.2.2⟩
      · omega
      · omega

end Cut

/-- **The scanner stays inside its input**, and every block begins at an opening tag, exactly if the page does not end
with a tag that closes by itself, and the tags fit. -/
theorem getMathBlocks_iff (mathmlTags : Str → Bool) {html : Str} (short : IsShort html) :
    (∃ blocks, mathBlocks mathmlTags html = some blocks ∧
        getMathBlocks mathmlTags html = some (blocks.map fun block => (block.nstr, block.id)) ∧
        ∀ block ∈ blocks, Occurs matho html block.start) ↔
      (Scan.outside.after html).IsInside ∧ Fits html 0 0 (marks .outside 0 html) := by
  obtain ⟨stays, leaves⟩ := openingTags_eq html.length [] (Nat.zero_add html.length).symm
  have closing := closingTags_eq html.length (tags .outside 0 html) (Nat.zero_add html.length).symm
  obtain ⟨_, isMark⟩ := marks_sorted html.length .outside (Nat.zero_add html.length).symm
  rw [List.drop_zero] at stays leaves closing isMark
  by_cases inside : (Scan.outside.after html).IsInside
  · have blocks : mathBlocks mathmlTags html = cutBlocks mathmlTags html none 0 (marks .outside 0 html) := by
      rw [mathBlocks, stays inside, List.nil_append]
      dsimp only [Option.bind_eq_bind, Option.bind_some]
      rw [closing, sort_eq_marks]
    rw [and_iff_right inside, ← cutBlocks_iff mathmlTags short _ .between fun mark member => (isMark mark member).2, ← blocks]
    refine exists_congr fun ans => and_congr_right fun is => and_iff_right ?_
    rw [getMathBlocks, is, Option.map_some]
  · refine iff_of_false (fun found => ?_) fun both => inside both.1
    obtain ⟨blocks, is, _⟩ := found
    rw [mathBlocks, leaves inside] at is
    cases is

/-- A page with a formula that has an id, and an empty one that is followed by other text. -/
def samplePage : Str := "<p><math id=\"f\"><mi>x</mi></math> <math/>.</p>".toList

theorem getMathBlocks_iff_samplePage : ∃ blocks, mathBlocks (fun tag => tag = "mi".toList) samplePage = some blocks ∧
    getMathBlocks (fun tag => tag = "mi".toList) samplePage =
      some (blocks.map fun block => (block.nstr, block.id)) ∧
    ∀ block ∈ blocks, Occurs matho samplePage block.start :=
  (getMathBlocks_iff _ (by decide)).mpr ⟨by decide, by decide⟩

/-- An empty tag at the end of a page is skipped with the end. -/
theorem not_getMathBlocks_empty : ¬ ∀ (mathmlTags : Str → Bool) (html : Str),
    ∃ blocks, mathBlocks mathmlTags html = some blocks ∧ ∀ block ∈ blocks, Occurs matho html block.start := by
  intro all
  obtain ⟨blocks, is, _⟩ := all (fun _ => false) "<math/>".toList
  have leaves := (openingTags_eq "<math/>".toList.length [] (Nat.zero_add "<math/>".toList.length).symm).2
  have none := leaves (show ¬ (Scan.outside.after "<math/>".toList).IsInside from not_false)
  rw [mathBlocks, none] at is
  cases is

end MwsGetMath

end MathWebSearch
