/-
**Harvests that are crawled** (`crawler/utils/MwsGetMath.cpp`, `crawler/utils/Page.cpp`, with `Crawler::storeMath`).

The formulas of a page that libxml2 accepts in the frame of a harvest are wrapped in an element with the address of the
formula, and `storeMath` puts the frame around the formulas of several pages. The address is copied into the attribute
as it is. libxml2 is a parameter: what it accepts in the frame is well-formed. The id of a formula has been copied from
an attribute of the page, so it is the value of an attribute; the URL is a text of its own.

* `run_block` — a block that is accepted in the frame is read in any element.
* `run_mathHtml` — a formula with a plain URL, and an id that is a value, is one element.
* `isWritable_of_run` — **an address that is read as it is meant** has a plain URL.
* `crawledHarvest_iff` — the file is well-formed, with the right addresses, exactly if all formulas are writable.
-/

import MathWebSearch.Library.Xml
import MathWebSearch.Crawler.MwsGetMath
import MathWebSearch.Crawler.MwsCrawler

namespace MathWebSearch

open Xml Xml.State

/-! ### The code -/

/-- The parts of `GURL` that the crawler reads. -/
structure Gurl where
  scheme : Str
  host : Str
  port : Option Str
  path : Str
  query : Option Str

namespace Page

/-- `Page::getUrl`; the port and the query are there if the URL has them. -/
def getUrl (url : Gurl) : Str :=
  let res := url.port.elim (url.scheme ++ "://".toList ++ url.host ++ url.path)
    fun port => url.scheme ++ "://".toList ++ url.host ++ ":".toList ++ port ++ url.path
  url.query.elim res fun query => res ++ "?".toList ++ query

end Page

namespace MwsGetMath

/-- The frame of `is_good_xml`. -/
def xmlFrame : Str :=
  ("<?xml version=\"1.0\" ?> <mws:harvest " ++ "xmlns:m=\"http://www.w3.org/1998/Math/MathML\" " ++
    "xmlns:mws=\"http://search.mathweb.org/ns\">").toList

/-- A text in the frame. -/
def framed (xml : Str) : Str := xmlFrame ++ xml ++ "</mws:harvest>".toList

end MwsGetMath

open MwsGetMath

/-- `xmlParseMemory`: whether there is a document. What is parsed in the frame, up to a NUL, is well-formed; libxml2 also
has limits of its own. -/
structure XmlMemoryParser where
  parses : Str → Bool
  sound : ∀ xml, '\x00' ∉ xml → parses (framed xml) = true → ∃ events, Reads (framed xml) events

namespace MwsGetMath

/-- `is_good_xml`. -/
def isGoodXml (parser : XmlMemoryParser) (xml : Str) : Bool := parser.parses (framed xml)

/-- The attribute of a formula: the address of the page, and the id of the formula if it has one. -/
def mathUrl (url : Str) (it : Str × Str) : Str := if it.2 ≠ [] then url ++ "#".toList ++ it.2 else url

/-- One formula of `get_math_html`. -/
def mathHtml (url : Str) (it : Str × Str) : Str :=
  "<mws:expr url=\"".toList ++ mathUrl url it ++ "\">\n".toList ++ it.1 ++ "\n</mws:expr>\n".toList

/-- The loop of `get_math_html`. -/
def wrapBlocks (parser : XmlMemoryParser) (url : Str) (xml : List (Str × Str)) : List Str :=
  (xml.filter fun it => isGoodXml parser it.1).map (mathHtml url)

/-- `get_math_html`. -/
def getMathHtml (mathmlTags : Str → Bool) (parser : XmlMemoryParser) (url : Gurl) (content : Str) : Option (List Str) :=
  (getMathBlocks mathmlTags content).map (wrapBlocks parser (Page.getUrl url))

/-- The formulas of several pages that are stored, each with its attribute. -/
def storedFormulas (parser : XmlMemoryParser) (pages : List (Gurl × List (Str × Str))) : List (Str × Str × Str) :=
  pages.flatMap fun page => (page.2.filter fun it => isGoodXml parser it.1).map fun it => (Page.getUrl page.1, it)

/-- The file of `storeMath` for the formulas of several pages. -/
def crawledHarvest (parser : XmlMemoryParser) (pages : List (Gurl × List (Str × Str))) : Str :=
  Crawler.xmlHarvest (pages.flatMap fun page => wrapBlocks parser (Page.getUrl page.1) page.2)

/-! ### Addresses -/

/-- The address that is meant: the URL, and the value of the id. -/
def addressOf (url : Str) (it : Str × Str) : Option Str :=
  if it.2 ≠ [] then (quotedValue it.2).map fun id => url ++ '#' :: id else some url

/-- A formula that can be written as it is: its block has no NUL, every character of the URL stands for itself in an
attribute, and the id is the value of an attribute. -/
def IsWritable (formula : Str × Str × Str) : Prop :=
  '\x00' ∉ formula.2.1 ∧ (∀ char ∈ formula.1, isPlain char = true) ∧
    (formula.2.2 ≠ [] → (quotedValue formula.2.2).isSome = true)

instance (formula : Str × Str × Str) : Decidable (IsWritable formula) := inferInstanceAs (Decidable (_ ∧ _ ∧ _))

theorem mathUrl_of_id {url : Str} {it : Str × Str} (id : it.2 ≠ []) : mathUrl url it = url ++ '#' :: it.2 := by
  rw [mathUrl, if_pos id, List.append_assoc]
  rfl

theorem mathUrl_of_nil {url : Str} {it : Str × Str} (none : ¬ it.2 ≠ []) : mathUrl url it = url := if_neg none

/-- A writable formula has an address, and its text is the text of the address. -/
theorem address_of_isWritable {formula : Str × Str × Str} (writable : IsWritable formula) :
    ∃ address, addressOf formula.1 formula.2 = some address ∧ '"' ∉ mathUrl formula.1 formula.2 ∧
      readValue false none (mathUrl formula.1 formula.2) = some (address, none) := by
  obtain ⟨-, plain, value⟩ := writable
  have free : '"' ∉ formula.1 := fun quote => absurd (plain '"' quote) (by decide)
  have url := readValue_plain formula.1 plain
  by_cases id : formula.2.2 ≠ []
  · obtain ⟨read, is⟩ := Option.isSome_iff_exists.mp (value id)
    obtain ⟨free', isRead⟩ := quotedValue_eq_some is
    refine ⟨formula.1 ++ '#' :: read, by rw [addressOf, if_pos id, is, Option.map_some], ?_, ?_⟩
    · rw [mathUrl_of_id id]
      exact List.not_mem_append free (List.not_mem_cons_of_ne_of_not_mem (by decide) free')
    · rw [mathUrl_of_id id, readValue_append _ _ (by decide), url, Option.bind_some, readValue_hash, isRead]
      rfl
  · rw [mathUrl_of_nil id]
    exact ⟨formula.1, by rw [addressOf, if_neg id], free, url⟩

/-! ### The frame -/

def harvestName : Str := "mws:harvest".toList

def exprName : Str := "mws:expr".toList

def urlKey : Str := "url".toList

/-- The attributes of the root. -/
def harvestAttributes : Attributes :=
  [("xmlns:m".toList, "http://www.w3.org/1998/Math/MathML".toList),
    ("xmlns:mws".toList, "http://search.mathweb.org/ns".toList)]

/-- Behind the frame. -/
def opened : State := ⟨.text 0, false, [harvestName], true, [(0, .startElement harvestName harvestAttributes)]⟩

/-- The frame without the declaration. -/
def frameTag : Str := xmlFrame.drop xmlDeclaration.length

set_option maxRecDepth 4000 in
theorem xmlFrame_eq : xmlFrame = xmlDeclaration ++ frameTag := by rfl

set_option maxRecDepth 8000 in
theorem run_frameTag : run init frameTag = some opened := by rfl

theorem isName_harvestName : IsName harvestName := ⟨'m', "ws:harvest".toList, rfl, by decide, List.all_eq_true.mp rfl⟩

theorem isName_exprName : IsName exprName := ⟨'m', "ws:expr".toList, rfl, by decide, List.all_eq_true.mp rfl⟩

theorem isName_urlKey : IsName urlKey := ⟨'u', "rl".toList, rfl, by decide, List.all_eq_true.mp rfl⟩

theorem harvestName_harmless : ∀ char ∈ harvestName, char ≠ '-' ∧ char ≠ ']' ∧ char ≠ '?' := by
  intro char member
  have all : (harvestName.all fun char => char != '-' && char != ']' && char != '?') = true := rfl
  have here := List.all_eq_true.mp all char member
  simp only [Bool.and_eq_true, bne_iff_ne, and_assoc] at here
  exact here

theorem closeHarvest_eq : "</mws:harvest>".toList = '<' :: '/' :: harvestName ++ ['>'] := by rfl

/-- What a document in the frame needs. -/
theorem run_of_reads {text : Str} {events : List (Nat × EventStream.Event Char)}
    (reads : Reads (framed text) events) : ∃ brackets returned before,
      run opened text = some ⟨.text brackets, returned, [harvestName], true, before⟩ ∧
        events = before ++ [(0, .endElement harvestName)] := by
  obtain ⟨rest, final, same, ran, accepted, rfl⟩ := reads
  rw [framed, xmlFrame_eq, List.append_assoc, List.append_assoc] at same
  obtain rfl := List.append_cancel_left same
  rw [run_append, run_frameTag, Option.bind_some, run_append] at ran
  obtain ⟨middle, inside, outside⟩ := Option.bind_eq_some_iff.mp ran
  rw [closeHarvest_eq] at outside
  obtain ⟨⟨brackets, inText⟩, open'⟩ := text_of_accepted isName_harvestName harvestName_harmless outside accepted
  obtain ⟨lex, returned, stack, rooted, before⟩ := middle
  obtain rfl : lex = .text brackets := inText
  obtain rfl : stack = [harvestName] := open'
  rw [run_close isName_harvestName] at outside
  obtain rfl := Option.some.inj outside
  obtain rfl : rooted = true := accepted.2.2
  exact ⟨brackets, returned, before, inside, rfl⟩

/-- A document in the frame. -/
theorem reads_of_run {text : Str} {brackets : Nat} {returned : Bool} {before : List (Nat × EventStream.Event Char)}
    (ran : run opened text = some ⟨.text brackets, returned, [harvestName], true, before⟩) :
    Reads (framed text) (before ++ [(0, .endElement harvestName)]) := by
  refine ⟨frameTag ++ (text ++ "</mws:harvest>".toList),
    ⟨.text 0, false, [], true, before ++ [(0, .endElement harvestName)]⟩, ?_, ?_, ⟨⟨0, rfl⟩, rfl, rfl⟩, rfl⟩
  · rw [framed, xmlFrame_eq, List.append_assoc, List.append_assoc]
  · rw [run_append, run_frameTag, Option.bind_some, run_append, ran, Option.bind_some, closeHarvest_eq,
      run_close isName_harvestName]
    rfl

/-! ### Blocks -/

/-- **A block that is accepted in the frame** is read in any element, and reports nothing outside of it. -/
theorem run_block {parser : XmlMemoryParser} {xml : Str} (good : isGoodXml parser xml = true) (clean : '\x00' ∉ xml) :
    ∃ brackets returned more, ∀ base events, base ≠ [] → run ⟨.text 0, false, base, true, events⟩ xml =
      some ⟨.text brackets, returned, base, true, events ++ shift base.length more⟩ := by
  obtain ⟨events, reads⟩ := parser.sound _ clean good
  obtain ⟨brackets, returned, before, ran, -⟩ := run_of_reads reads
  obtain ⟨lex, returned', inner, more, same, anywhere⟩ := run_frame xml
    (show run ⟨.text 0, false, [] ++ [harvestName], true, [(0, .startElement harvestName harvestAttributes)]⟩ xml = _ from ran)
    (List.cons_ne_nil _ _)
  injection same with sameLex sameReturned sameStack
  obtain rfl : inner = [] := List.append_left_eq_self.mp sameStack.symm
  refine ⟨brackets, returned, more, fun base events nonempty => ?_⟩
  rw [sameLex, sameReturned]
  exact anywhere base events nonempty

/-- The tags of a formula. -/
def exprTags (value : Str) : Str × Attributes := (exprName, [(urlKey, value)])

/-- Up to the value of the attribute. -/
theorem run_exprTag (events : List (Nat × EventStream.Event Char)) (brackets : Nat) (returned : Bool) :
    run ⟨.text brackets, returned, [harvestName], true, events⟩ "<mws:expr url=\"".toList =
      some ⟨.value exprName [] urlKey '"' [], false, [harvestName], true, events⟩ := by
  have split : "<mws:expr url=\"".toList = ('<' :: exprName ++ [' ']) ++ (urlKey ++ ['=', '"']) := by rfl
  rw [split, run_append, run_open isName_exprName, Option.bind_some, run_key isName_urlKey]

/-- **A formula whose address can be read** is one element in the root. -/
theorem run_mathHtml {parser : XmlMemoryParser} {url address : Str} {it : Str × Str}
    (good : isGoodXml parser it.1 = true) (clean : '\x00' ∉ it.1) (free : '"' ∉ mathUrl url it)
    (read : readValue false none (mathUrl url it) = some (address, none)) (events : List (Nat × EventStream.Event Char)) :
    ∃ more, run ⟨.text 0, false, [harvestName], true, events⟩ (mathHtml url it) =
        some ⟨.text 0, false, [harvestName], true, events ++ more⟩ ∧
      tagsAt 0 more = [] ∧ tagsAt 1 more = [exprTags address] := by
  obtain ⟨brackets, returned, inner, block⟩ := run_block good clean
  obtain ⟨returned', value⟩ := @run_inValue exprName [] urlKey [harvestName] true events (mathUrl url it) [] none false free
  rw [read, Option.map_some] at value
  dsimp only [List.nil_append, Lex.inValue] at value
  have opens : run ⟨.value exprName [] urlKey '"' address, returned', [harvestName], true, events⟩ "\">\n".toList =
      some ⟨.text 0, false, [exprName, harvestName], true,
        events ++ [(1, .startElement exprName [(urlKey, address)]), (2, .characters ['\n'])]⟩ := by
    have split : "\">\n".toList = ['"', '>', '\n'] := by rfl
    rw [split, run_cons, step_quote List.not_mem_nil, Option.bind_some]
    show run ⟨.text 0, false, [exprName, harvestName], true, (events ++ [(1, .startElement exprName [(urlKey, address)])]) ++
      [(2, .characters ['\n'])]⟩ [] = _
    rw [run_nil, List.append_assoc]
    rfl
  obtain ⟨brackets', chunks, line, none⟩ := @step_line returned true [harvestName]
    ((events ++ [(1, .startElement exprName [(urlKey, address)]), (2, .characters ['\n'])]) ++ shift 2 inner)
    exprName brackets
  have inside : ∀ before, run ⟨.text 0, false, [exprName, harvestName], true, before⟩ it.1 =
      some ⟨.text brackets, returned, [exprName, harvestName], true, before ++ shift 2 inner⟩ :=
    fun before => block _ before (List.cons_ne_nil _ _)
  have closes : "\n</mws:expr>\n".toList = '\n' :: ('<' :: '/' :: exprName ++ ['>']) ++ ['\n'] := by rfl
  refine ⟨[(1, .startElement exprName [(urlKey, address)]), (2, .characters ['\n'])] ++ shift 2 inner ++ chunks ++
    [(1, .endElement exprName), (1, .characters ['\n'])], ?_, ?_, ?_⟩
  · unfold mathHtml
    rw [List.append_assoc, List.append_assoc, List.append_assoc, run_append, run_exprTag, Option.bind_some, run_append,
      value, Option.bind_some, run_append, opens, Option.bind_some, run_append, inside, Option.bind_some, closes,
      List.cons_append, run_cons, line, Option.bind_some, run_append, run_close isName_exprName, Option.bind_some]
    show some _ = _
    simp only [List.append_assoc]
    rfl
  · rw [tagsAt_append, tagsAt_append, tagsAt_append, tagsAt_shift (by decide), none]
    rfl
  · rw [tagsAt_append, tagsAt_append, tagsAt_append, tagsAt_shift (by decide), none]
    rfl

/-- The addresses that are meant. -/
def addresses (stored : List (Str × Str × Str)) : Option (List Str) :=
  stored.mapM fun formula => addressOf formula.1 formula.2

theorem addresses_cons {formula : Str × Str × Str} {rest : List (Str × Str × Str)} {all : List Str} :
    addresses (formula :: rest) = some all ↔
      ∃ address others, addressOf formula.1 formula.2 = some address ∧ addresses rest = some others ∧
        all = address :: others := by
  unfold addresses
  rw [List.mapM_cons]
  simp only [Option.bind_eq_bind, Option.bind_eq_some_iff, Option.pure_def, Option.some.injEq]
  constructor
  · rintro ⟨address, is, others, are, rfl⟩
    exact ⟨address, others, is, are, rfl⟩
  · rintro ⟨address, others, is, are, rfl⟩
    exact ⟨address, is, others, are, rfl⟩

/-- The formulas of a file are elements in the root, if they are writable. -/
theorem run_formulas {parser : XmlMemoryParser} (stored : List (Str × Str × Str)) :
    ∀ events : List (Nat × EventStream.Event Char), (∀ formula ∈ stored, isGoodXml parser formula.2.1 = true) →
    (∀ formula ∈ stored, IsWritable formula) →
    ∃ more all, run ⟨.text 0, false, [harvestName], true, events⟩ (stored.flatMap fun formula => mathHtml formula.1 formula.2) =
        some ⟨.text 0, false, [harvestName], true, events ++ more⟩ ∧
      addresses stored = some all ∧ tagsAt 0 more = [] ∧ tagsAt 1 more = all.map exprTags := by
  induction stored with
  | nil =>
    intro events _ _
    refine ⟨[], [], ?_, rfl, rfl, rfl⟩
    rw [List.append_nil]
    rfl
  | cons formula rest ih =>
    intro events good writable
    obtain ⟨goodHere, goodLater⟩ := List.forall_mem_cons.mp good
    obtain ⟨writableHere, writableLater⟩ := List.forall_mem_cons.mp writable
    obtain ⟨address, is, free, read⟩ := address_of_isWritable writableHere
    obtain ⟨here, ran, noRoot, tag⟩ := run_mathHtml goodHere writableHere.1 free read events
    obtain ⟨later, others, ran', are, noRoot', tags⟩ := ih (events ++ here) goodLater writableLater
    refine ⟨here ++ later, address :: others, ?_, addresses_cons.mpr ⟨address, others, is, are, rfl⟩, ?_, ?_⟩
    · rw [List.flatMap_cons, run_append, ran, Option.bind_some, ran', List.append_assoc]
    · rw [tagsAt_append, noRoot, noRoot', List.append_nil]
    · rw [tagsAt_append, tag, tags, List.map_cons, List.singleton_append]

/-! ### Addresses that are read as they are meant -/

/-- What is read of an address is the address: the URL is plain. -/
theorem plain_of_addressOf {url address : Str} {it : Str × Str} (is : addressOf url it = some address)
    {rest : Str} {events : List (Nat × EventStream.Event Char)} {final : State}
    (ran : run ⟨.value exprName [] urlKey '"' [], false, [harvestName], true, events⟩ (mathUrl url it ++ '"' :: rest) =
      some final)
    (complete : final.lex.begun = none) {others : List (Str × Attributes)}
    (tags : tagsAt 1 final.events = tagsAt 1 events ++ exprTags address :: others) :
    (∀ char ∈ url, isPlain char = true) ∧ (it.2 ≠ [] → (quotedValue it.2).isSome = true) := by
  -- whatever is read up to the first quote is the address
  have whole : ∀ {front back : Str}, mathUrl url it ++ '"' :: rest = front ++ '"' :: back → '"' ∉ front →
      readValue false none front = some (address, none) := by
    intro front back split free
    rw [split] at ran
    obtain ⟨value, more, others', read, reported⟩ := value_of_run free ran complete
    rw [reported, tagsAt_append] at tags
    obtain ⟨tag, -⟩ := List.cons.inj (List.append_cancel_left tags)
    obtain ⟨entry, -⟩ := List.cons.inj (Prod.mk.inj tag).2
    obtain rfl : value = address := (Prod.mk.inj entry).2
    exact read
  have long : url.length ≤ address.length := by
    unfold addressOf at is
    split_ifs at is
    · obtain ⟨value, -, rfl⟩ := Option.map_eq_some_iff.mp is
      rw [List.length_append]
      exact Nat.le_add_right _ _
    · exact Option.some.inj is ▸ le_rfl
  have free : '"' ∉ url := by
    intro quoted
    obtain ⟨front, back, rfl, free⟩ := List.eq_append_cons_of_mem quoted
    obtain ⟨behind, split⟩ : ∃ behind, mathUrl (front ++ '"' :: back) it ++ '"' :: rest = front ++ '"' :: behind := by
      by_cases id : it.2 ≠ []
      · rw [mathUrl_of_id id, List.append_assoc, List.append_assoc, List.cons_append]
        exact ⟨_, rfl⟩
      · rw [mathUrl_of_nil id, List.append_assoc, List.cons_append]
        exact ⟨_, rfl⟩
    have bound := (readValue_spec front (whole split free)).1
    rw [List.length_append, List.length_cons] at long
    dsimp only at bound
    omega
  unfold addressOf at is
  split_ifs at is with id
  · obtain ⟨value, isValue, rfl⟩ := Option.map_eq_some_iff.mp is
    obtain ⟨free', fragment⟩ := quotedValue_eq_some isValue
    rw [mathUrl_of_id id] at whole
    have noQuote : '"' ∉ url ++ '#' :: it.2 :=
      List.not_mem_append free (List.not_mem_cons_of_ne_of_not_mem (by decide) free')
    exact ⟨plain_of_fragment free (whole rfl noQuote) fragment, fun _ => by rw [isValue, Option.isSome_some]⟩
  · obtain rfl := Option.some.inj is
    rw [mathUrl_of_nil id] at whole
    exact ⟨(readValue_spec url (whole rfl free)).2 rfl free rfl, fun given => absurd given id⟩

/-- A file that is read with the addresses that are meant. -/
theorem isWritable_of_formulas {parser : XmlMemoryParser} (stored : List (Str × Str × Str)) :
    ∀ {events : List (Nat × EventStream.Event Char)} {final : State} {all : List Str},
    (∀ formula ∈ stored, isGoodXml parser formula.2.1 = true ∧ '\x00' ∉ formula.2.1) →
    run ⟨.text 0, false, [harvestName], true, events⟩ (stored.flatMap fun formula => mathHtml formula.1 formula.2) =
      some final → final.lex.begun = none → addresses stored = some all →
    tagsAt 1 final.events = tagsAt 1 events ++ all.map exprTags → ∀ formula ∈ stored, IsWritable formula := by
  induction stored with
  | nil => exact fun _ _ _ _ _ formula member => absurd member List.not_mem_nil
  | cons formula rest ih =>
    intro events final all good ran complete are tags
    obtain ⟨⟨goodHere, clean⟩, goodLater⟩ := List.forall_mem_cons.mp good
    obtain ⟨address, others, is, areOthers, rfl⟩ := addresses_cons.mp are
    rw [List.flatMap_cons] at ran
    rw [List.map_cons] at tags
    have writable : IsWritable formula := by
      have close : "\">\n".toList = '"' :: ['>', '\n'] := by rfl
      have begun := ran
      unfold mathHtml at begun
      simp only [List.append_assoc] at begun
      rw [run_append, run_exprTag, Option.bind_some, close, List.cons_append] at begun
      exact ⟨clean, plain_of_addressOf is begun complete tags⟩
    obtain ⟨address', is', free, read⟩ := address_of_isWritable writable
    obtain rfl := Option.some.inj (is.symm.trans is')
    obtain ⟨here, ran', -, tag⟩ := run_mathHtml goodHere clean free read events
    rw [run_append, ran', Option.bind_some] at ran
    refine List.forall_mem_cons.mpr ⟨writable, ih goodLater ran complete areOthers ?_⟩
    rw [tags, tagsAt_append, tag, List.append_assoc, List.singleton_append]

/-! ### The file -/

/-- **The file is well-formed**: the root has one element for each formula, with the address of the formula. -/
def IsHarvestOf (file : Str) (stored : List (Str × Str × Str)) : Prop :=
  ∃ events all, Reads file events ∧ addresses stored = some all ∧
    tagsAt 0 events = [(harvestName, harvestAttributes)] ∧ tagsAt 1 events = all.map exprTags

set_option maxRecDepth 4000 in
/-- The head of `storeMath` has a blank more than the frame of `is_good_xml`. -/
theorem harvestHead_eq : ("<?xml version=\"1.0\" ?> <mws:harvest " ++ "xmlns:m=\"http://www.w3.org/1998/Math/MathML\" " ++
    "xmlns:mws=\"http://search.mathweb.org/ns\"> ").toList = xmlFrame ++ [' '] := by rfl

theorem crawledHarvest_eq (parser : XmlMemoryParser) (pages : List (Gurl × List (Str × Str))) :
    crawledHarvest parser pages =
      framed (' ' :: (storedFormulas parser pages).flatMap fun formula => mathHtml formula.1 formula.2) := by
  have formulas : (pages.flatMap fun page => wrapBlocks parser (Page.getUrl page.1) page.2).flatten =
      (storedFormulas parser pages).flatMap fun formula => mathHtml formula.1 formula.2 := by
    rw [List.flatten_eq_flatMap, List.flatMap_assoc, storedFormulas, List.flatMap_assoc]
    congr 1
    funext page
    rw [wrapBlocks, List.flatMap_map, List.flatMap_map]
    rfl
  unfold crawledHarvest Crawler.xmlHarvest framed
  rw [harvestHead_eq, formulas, List.append_assoc xmlFrame, List.singleton_append]

theorem good_of_stored {parser : XmlMemoryParser} {pages : List (Gurl × List (Str × Str))} :
    ∀ formula ∈ storedFormulas parser pages, isGoodXml parser formula.2.1 = true := by
  intro formula member
  obtain ⟨page, -, inPage⟩ := List.mem_flatMap.mp member
  obtain ⟨it, among, rfl⟩ := List.mem_map.mp inPage
  exact (List.mem_filter.mp among).2

/-- The blank behind the frame. -/
theorem run_blank : run opened [' '] = some ⟨.text 0, false, [harvestName], true,
    [(0, .startElement harvestName harvestAttributes), (1, .characters [' '])]⟩ := rfl

/-- The blocks are parts of the file. -/
theorem clean_of_reads {parser : XmlMemoryParser} {pages : List (Gurl × List (Str × Str))} {self final : State}
    (ran : run self ((storedFormulas parser pages).flatMap fun formula => mathHtml formula.1 formula.2) = some final) :
    ∀ formula ∈ storedFormulas parser pages, '\x00' ∉ formula.2.1 := by
  intro formula member nul
  refine absurd (isChar_of_run _ ran '\x00' (List.mem_flatMap.mpr ⟨formula, member, ?_⟩)) (by decide)
  exact List.mem_append_left _ (List.mem_append_right _ nul)

/-- The formulas of a well-formed file are writable. -/
theorem isWritable_of_isHarvestOf {parser : XmlMemoryParser} {pages : List (Gurl × List (Str × Str))}
    (harvest : IsHarvestOf (crawledHarvest parser pages) (storedFormulas parser pages)) :
    ∀ formula ∈ storedFormulas parser pages, IsWritable formula := by
  rw [crawledHarvest_eq] at harvest
  obtain ⟨events, all, reads, are, -, read⟩ := harvest
  obtain ⟨brackets, returned, before, ran, rfl⟩ := run_of_reads reads
  rw [← List.singleton_append, run_append, run_blank, Option.bind_some] at ran
  have clean := clean_of_reads ran
  refine isWritable_of_formulas _ (fun formula member => ⟨good_of_stored formula member, clean formula member⟩) ran rfl
    are ?_
  rw [tagsAt_append, show tagsAt 1 [(0, .endElement harvestName)] = [] from rfl, List.append_nil] at read
  exact read

/-- Writable formulas give a well-formed file. -/
theorem isHarvestOf_of_isWritable {parser : XmlMemoryParser} {pages : List (Gurl × List (Str × Str))}
    (writable : ∀ formula ∈ storedFormulas parser pages, IsWritable formula) :
    IsHarvestOf (crawledHarvest parser pages) (storedFormulas parser pages) := by
  rw [crawledHarvest_eq]
  obtain ⟨more, all, ran, are, noRoot, tags⟩ := run_formulas (storedFormulas parser pages)
    [(0, .startElement harvestName harvestAttributes), (1, .characters [' '])] good_of_stored writable
  refine ⟨_, all, reads_of_run (by rw [← List.singleton_append, run_append, run_blank, Option.bind_some, ran]), are,
    ?_, ?_⟩
  · rw [tagsAt_append, tagsAt_append, noRoot]
    rfl
  · rw [tagsAt_append, tagsAt_append, tags]
    exact List.append_nil _

/-- **A file that is crawled is well-formed**, with the addresses of its formulas, exactly if its formulas are
writable. -/
theorem crawledHarvest_iff (parser : XmlMemoryParser) (pages : List (Gurl × List (Str × Str))) :
    IsHarvestOf (crawledHarvest parser pages) (storedFormulas parser pages) ↔
      ∀ formula ∈ storedFormulas parser pages, IsWritable formula :=
  ⟨isWritable_of_isHarvestOf, isHarvestOf_of_isWritable⟩

/-- The parser that accepts what is well-formed. -/
def machineParser : XmlMemoryParser := ⟨accepts, fun _ _ accepted => reads_of_accepts accepted⟩

/-- `http://h/p?a=1`. -/
def urlWithQuery : Gurl := ⟨"http".toList, "h".toList, none, "/p".toList, some "a=1".toList⟩

/-- A page with a formula, one whose id has a reference, and one that is not stored. -/
def pageWithIds : Gurl × List (Str × Str) :=
  (urlWithQuery, [("<math/>".toList, []), ("<math id=\"x&amp;y\"/>".toList, "x&amp;y".toList), ("<math>".toList, [])])

theorem storedFormulas_pageWithIds : storedFormulas machineParser [pageWithIds] =
    [(Page.getUrl urlWithQuery, "<math/>".toList, []),
      (Page.getUrl urlWithQuery, "<math id=\"x&amp;y\"/>".toList, "x&amp;y".toList)] := by
  have first : isGoodXml machineParser "<math/>".toList = true := by decide +kernel
  have second : isGoodXml machineParser "<math id=\"x&amp;y\"/>".toList = true := by decide +kernel
  have third : isGoodXml machineParser "<math>".toList = false := by decide +kernel
  rw [storedFormulas, List.flatMap_singleton, pageWithIds]
  simp only [List.filter_cons, first, second, third]
  rfl

theorem crawledHarvest_iff_pageWithIds :
    IsHarvestOf (crawledHarvest machineParser [pageWithIds]) (storedFormulas machineParser [pageWithIds]) := by
  refine (crawledHarvest_iff machineParser [pageWithIds]).mpr ?_
  have plain : ∀ char ∈ Page.getUrl urlWithQuery, isPlain char = true := List.all_eq_true.mp (by decide +kernel)
  have value : (quotedValue "x&amp;y".toList).isSome = true := by decide +kernel
  have clean : '\x00' ∉ "<math id=\"x&amp;y\"/>".toList := by decide +kernel
  rw [storedFormulas_pageWithIds]
  refine List.forall_mem_cons.mpr ⟨⟨by decide, plain, fun given => absurd rfl given⟩, List.forall_mem_singleton.mpr ?_⟩
  exact ⟨clean, plain, fun _ => value⟩

/-- `http://h/p?a=1&b=2`. -/
def urlWithParameters : Gurl := ⟨"http".toList, "h".toList, none, "/p".toList, some "a=1&b=2".toList⟩

/-- A page with one formula. -/
def pageWithParameters : Gurl × List (Str × Str) := (urlWithParameters, [("<math/>".toList, [])])

/-- **Not every file** is well-formed: an address with two parameters has an ampersand. -/
theorem not_isHarvestOf : ¬ ∀ (parser : XmlMemoryParser) (pages : List (Gurl × List (Str × Str))),
    IsHarvestOf (crawledHarvest parser pages) (storedFormulas parser pages) := by
  intro all
  have good : isGoodXml machineParser "<math/>".toList = true := by decide +kernel
  have stored : (Page.getUrl urlWithParameters, "<math/>".toList, []) ∈ storedFormulas machineParser [pageWithParameters] :=
    List.mem_flatMap.mpr ⟨pageWithParameters, List.mem_singleton_self _,
      List.mem_map.mpr ⟨_, List.mem_filter.mpr ⟨List.mem_singleton_self _, good⟩, rfl⟩⟩
  have ampersand : '&' ∈ Page.getUrl urlWithParameters := by decide +kernel
  have plain := (isWritable_of_isHarvestOf (all machineParser [pageWithParameters]) _ stored).2.1 '&' ampersand
  exact absurd plain (by decide)

end MwsGetMath

end MathWebSearch
