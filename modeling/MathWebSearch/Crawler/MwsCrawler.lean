/-
**The crawler** (`crawler/crawler/MwsCrawler.cpp`).

Pages are visited in the order of a queue, which starts with one URL. The links of a page are filtered, by the robots
file and by the set of all URLs seen, before any of them is put into the queue and into the set. URLs are told apart by
their path and query. The web is a parameter: the links and the formulas of every page, and the verdict of the robots
file; `downloaded` is no variable of the source but the list of all pages visited so far.

* `cleanupLinks_eq` — the filter, which is written into the vector it reads.
* `Crawling` — the invariant that ties the set to the queue and the pages visited.
* `start_once` — **every URL is visited once**, if no page repeats a new link.
-/

import MathWebSearch.Library.Fuel
import MathWebSearch.Types.CmmlToken

namespace MathWebSearch

/-! ### The code -/

/-- The web as the crawler sees it. -/
structure Web (Url : Type) where
  path : Url → Str
  query : Url → Str
  getLinks : Url → List Url
  getMath : Url → List Str
  isAllowed : Url → Bool

/-- `Crawler`. -/
structure Crawler (Url : Type) where
  urlQueue : List Url
  allUrls : Finset Str
  urlsCrawled : Nat
  downloaded : List Url
  currentMathFormulae : List Str
  harvests : List Str

namespace Crawler

/-- `MathPackLimit`. -/
def mathPackLimit : Nat := 5000

/-- The text that `storeMath` assembles from the formulas. -/
def xmlHarvest (currentMF : List Str) : Str :=
  ("<?xml version=\"1.0\" ?> <mws:harvest " ++ "xmlns:m=\"http://www.w3.org/1998/Math/MathML\" " ++
    "xmlns:mws=\"http://search.mathweb.org/ns\"> ").toList ++ currentMF.flatten ++ "</mws:harvest>".toList

section Functions

variable {Url : Type} (web : Web Url)

/-- `storeMath`, with the clearing that follows each of its calls. -/
def storeMath (self : Crawler Url) : Crawler Url :=
  { self with harvests := self.harvests ++ [xmlHarvest self.currentMathFormulae], currentMathFormulae := [] }

/-- `addMath`. -/
def addMath (self : Crawler Url) (formulae : List Str) : Crawler Url :=
  let self := { self with currentMathFormulae := self.currentMathFormulae ++ formulae }
  if mathPackLimit ≤ self.currentMathFormulae.length then self.storeMath else self

/-- `getQueryable`. -/
def getQueryable (url : Url) : Str := web.path url ++ "?".toList ++ web.query url

/-- The body of the loop of `cleanupLinks`, over the vector and `pos`. -/
def cleanupStep (allUrls : Finset Str) (links : List Url × Nat) (i : Nat) : List Url × Nat :=
  match links.1[i]? with
  | none => links
  | some current =>
    if web.isAllowed current = true then
      if getQueryable web current ∉ allUrls then (links.1.set links.2 current, links.2 + 1) else links
    else links

/-- `cleanupLinks`. -/
def cleanupLinks (allUrls : Finset Str) (pageLinks : List Url) : List Url :=
  let cleaned := (List.range pageLinks.length).foldl (cleanupStep web allUrls) (pageLinks, 0)
  cleaned.1.take cleaned.2

/-- A link goes into the queue and into the set. -/
def addLink (self : Crawler Url) (urlToAdd : Url) : Crawler Url :=
  { self with urlQueue := self.urlQueue ++ [urlToAdd], allUrls := insert (getQueryable web urlToAdd) self.allUrls }

/-- The body of the loop of `start`. -/
def visit (self : Crawler Url) (currentUrl : Url) (urlQueue : List Url) : Crawler Url :=
  let self := { self with
    urlQueue := urlQueue
    urlsCrawled := self.urlsCrawled + 1
    downloaded := self.downloaded ++ [currentUrl] }
  let self := self.addMath (web.getMath currentUrl)
  (cleanupLinks web self.allUrls (web.getLinks currentUrl)).foldl (addLink web) self

/-- One round of the loop of `start`. -/
def round (maxUrlsToCrawl : Nat) (self : Crawler Url) : Option (Crawler Url ⊕ Crawler Url) :=
  match self.urlQueue with
  | [] => some (.inr self)
  | currentUrl :: urlQueue =>
    if self.urlsCrawled < maxUrlsToCrawl then some (.inl (self.visit web currentUrl urlQueue)) else some (.inr self)

/-- The crawler at the loop of `start`. -/
def starting (urlStart : Url) : Crawler Url where
  urlQueue := [urlStart]
  allUrls := {getQueryable web urlStart}
  urlsCrawled := 0
  downloaded := []
  currentMathFormulae := []
  harvests := []

/-- `start`, of a new crawler with a URL. -/
def start (maxUrlsToCrawl : Nat) (urlStart : Url) (fuel : Nat) : Option (Crawler Url) := do
  let self ← Fuel.loop (round web maxUrlsToCrawl) fuel (starting web urlStart)
  return self.storeMath

end Functions

/-! ### The links of a page -/

section Links

variable {Url : Type} {web : Web Url}

/-- A link that is allowed and new. -/
def isGood (web : Web Url) (allUrls : Finset Str) (url : Url) : Bool :=
  web.isAllowed url && decide (getQueryable web url ∉ allUrls)

/-- The vector after some rounds: the good links are at its front, and what is still to be read is untouched. -/
structure Cleaned (web : Web Url) (allUrls : Finset Str) (links : List Url) (i : Nat) (cleaned : List Url × Nat) :
    Prop where
  front : cleaned.1.take cleaned.2 = (links.take i).filter (isGood web allUrls)
  rest : cleaned.1.drop i = links.drop i
  length : cleaned.1.length = links.length
  behind : cleaned.2 ≤ i

theorem cleanupStep_cleaned {allUrls : Finset Str} {links : List Url} {i : Nat} {cleaned : List Url × Nat}
    (so : Cleaned web allUrls links i cleaned) (inside : i < links.length) :
    Cleaned web allUrls links (i + 1) (cleanupStep web allUrls cleaned i) := by
  have bound : i < cleaned.1.length := so.length ▸ inside
  have current : cleaned.1[i]? = some links[i] := by
    have here : (cleaned.1.drop i)[0]? = (links.drop i)[0]? := by rw [so.rest]
    rwa [List.getElem?_drop, List.getElem?_drop, Nat.add_zero, List.getElem?_eq_getElem inside] at here
  have later : cleaned.1.drop (i + 1) = links.drop (i + 1) := by
    rw [← List.drop_drop, ← List.drop_drop, so.rest]
  have behind := so.behind
  have taken : links.take (i + 1) = links.take i ++ [links[i]] := by
    rw [List.take_add_one, List.getElem?_eq_getElem inside]
    rfl
  by_cases good : isGood web allUrls links[i] = true
  · have both : web.isAllowed links[i] = true ∧ getQueryable web links[i] ∉ allUrls := by
      rwa [isGood, Bool.and_eq_true, decide_eq_true_iff] at good
    have step : cleanupStep web allUrls cleaned i = (cleaned.1.set cleaned.2 links[i], cleaned.2 + 1) := by
      rw [cleanupStep, current]
      simp only [both, if_true, not_false_iff]
    rw [step]
    refine ⟨?_, ?_, ?_, Nat.succ_le_succ behind⟩
    · rw [taken, List.filter_append, ← so.front, List.take_add_one, List.getElem?_set_self (by omega),
        List.take_set_of_le le_rfl, List.filter_singleton, good]
      rfl
    · rw [List.drop_set_of_lt (by omega), later]
    · rw [List.length_set, so.length]
  · have step : cleanupStep web allUrls cleaned i = cleaned := by
      rw [isGood, Bool.and_eq_true, decide_eq_true_iff, not_and] at good
      rw [cleanupStep, current]
      show (if web.isAllowed links[i] = true then _ else _) = _
      split_ifs with allowed known
      · rfl
      · exact absurd known (good allowed)
      · rfl
    rw [step]
    refine ⟨?_, later, so.length, Nat.le_succ_of_le behind⟩
    rw [taken, List.filter_append, ← so.front, List.filter_singleton, Bool.eq_false_of_not_eq_true good]
    exact (List.append_nil _).symm

/-- **Cleaning up keeps the good links**, in their order. -/
theorem cleanupLinks_eq (allUrls : Finset Str) (links : List Url) :
    cleanupLinks web allUrls links = links.filter (isGood web allUrls) := by
  have each : ∀ i ≤ links.length,
      Cleaned web allUrls links i ((List.range i).foldl (cleanupStep web allUrls) (links, 0)) := by
    intro i
    induction i with
    | zero => exact fun _ => ⟨rfl, rfl, rfl, le_rfl⟩
    | succ i ih =>
      intro inside
      rw [List.range_succ, List.foldl_append]
      exact cleanupStep_cleaned (ih (Nat.le_of_succ_le inside)) inside
  have whole := (each links.length le_rfl).front
  rwa [List.take_length] at whole

end Links

/-! ### Runs -/

section Runs

variable {Url : Type} (web : Web Url) (maxUrlsToCrawl : Nat) (urlStart : Url)

/-- A URL that links lead to, each of them allowed. -/
inductive Reachable : Url → Prop
  | start : Reachable urlStart
  | link {url next : Url} : Reachable url → next ∈ web.getLinks url → web.isAllowed next = true → Reachable next

/-- The states of the loop. -/
inductive Reached : Crawler Url → Prop
  | starting : Reached (starting web urlStart)
  | visit {self : Crawler Url} {currentUrl : Url} {urlQueue : List Url} : Reached self →
      self.urlQueue = currentUrl :: urlQueue → self.urlsCrawled < maxUrlsToCrawl →
      Reached (self.visit web currentUrl urlQueue)

/-- **A page repeats no new link**: those that it adds to the queue have different keys. -/
def NoRepeats (self : Crawler Url) (currentUrl : Url) : Prop :=
  (((web.getLinks currentUrl).filter (isGood web self.allUrls)).map (getQueryable web)).Nodup

/-- **URLs with the same key have the same links**, as far as their keys go. -/
def SameLinks : Prop := ∀ url url', Reachable web urlStart url → Reachable web urlStart url' →
  getQueryable web url = getQueryable web url' → ∀ next ∈ web.getLinks url, web.isAllowed next = true →
    ∃ next' ∈ web.getLinks url', web.isAllowed next' = true ∧ getQueryable web next' = getQueryable web next

variable {web maxUrlsToCrawl urlStart}

/-- What a visit does to the queue, the set and the pages visited. -/
theorem visit_spec (self : Crawler Url) (currentUrl : Url) (urlQueue : List Url) :
    (self.visit web currentUrl urlQueue).urlQueue =
        urlQueue ++ (web.getLinks currentUrl).filter (isGood web self.allUrls) ∧
      (∀ key, key ∈ (self.visit web currentUrl urlQueue).allUrls ↔ key ∈ self.allUrls ∨
        key ∈ ((web.getLinks currentUrl).filter (isGood web self.allUrls)).map (getQueryable web)) ∧
      (self.visit web currentUrl urlQueue).downloaded = self.downloaded ++ [currentUrl] ∧
      (self.visit web currentUrl urlQueue).urlsCrawled = self.urlsCrawled + 1 := by
  have added : ∀ (links : List Url) (self : Crawler Url),
      (links.foldl (addLink web) self).urlQueue = self.urlQueue ++ links ∧
        (∀ key, key ∈ (links.foldl (addLink web) self).allUrls ↔
          key ∈ self.allUrls ∨ key ∈ links.map (getQueryable web)) ∧
        (links.foldl (addLink web) self).downloaded = self.downloaded ∧
        (links.foldl (addLink web) self).urlsCrawled = self.urlsCrawled := by
    intro links
    induction links with
    | nil => intro self; simp
    | cons link links ih =>
      intro self
      obtain ⟨queue, set, downloaded, crawled⟩ := ih (addLink web self link)
      rw [List.foldl_cons]
      refine ⟨?_, fun key => ?_, downloaded, crawled⟩
      · rw [queue, addLink, List.append_assoc, List.singleton_append]
      · rw [set, addLink, Finset.mem_insert, List.map_cons, List.mem_cons]
        tauto
  have mathOnly : ∀ (self : Crawler Url) (formulae : List Str), (self.addMath formulae).urlQueue = self.urlQueue ∧
      (self.addMath formulae).allUrls = self.allUrls ∧ (self.addMath formulae).downloaded = self.downloaded ∧
      (self.addMath formulae).urlsCrawled = self.urlsCrawled := by
    intro self formulae
    unfold addMath storeMath
    dsimp only
    split_ifs <;> exact ⟨rfl, rfl, rfl, rfl⟩
  obtain ⟨queue, set, downloaded, crawled⟩ := mathOnly { self with
    urlQueue := urlQueue
    urlsCrawled := self.urlsCrawled + 1
    downloaded := self.downloaded ++ [currentUrl] } (web.getMath currentUrl)
  unfold visit
  dsimp only
  rw [set, cleanupLinks_eq]
  obtain ⟨queue', set', downloaded', crawled'⟩ := added ((web.getLinks currentUrl).filter (isGood web self.allUrls))
    (({ self with
      urlQueue := urlQueue
      urlsCrawled := self.urlsCrawled + 1
      downloaded := self.downloaded ++ [currentUrl] } : Crawler Url).addMath (web.getMath currentUrl))
  exact ⟨by rw [queue', queue], fun key => by rw [set', set], by rw [downloaded', downloaded],
    by rw [crawled', crawled]⟩

/-- **The invariant of the crawl**: the set has the keys of all pages visited or in the queue, and all links of the
pages visited that are allowed. -/
structure Crawling (web : Web Url) (maxUrlsToCrawl : Nat) (urlStart : Url) (crawler : Crawler Url) : Prop where
  known : ∀ key, key ∈ crawler.allUrls ↔ key ∈ (crawler.downloaded ++ crawler.urlQueue).map (getQueryable web)
  reachable : ∀ url ∈ crawler.downloaded ++ crawler.urlQueue, Reachable web urlStart url
  closed : ∀ url ∈ crawler.downloaded, ∀ next ∈ web.getLinks url, web.isAllowed next = true →
    getQueryable web next ∈ crawler.allUrls
  starts : getQueryable web urlStart ∈ crawler.allUrls
  count : crawler.urlsCrawled = crawler.downloaded.length
  limit : crawler.urlsCrawled ≤ maxUrlsToCrawl

theorem crawling_starting : Crawling web maxUrlsToCrawl urlStart (starting web urlStart) where
  known key := by simp [starting]
  reachable url member := by
    rw [starting, List.nil_append, List.mem_singleton] at member
    exact member ▸ .start
  closed url member := nomatch member
  starts := Finset.mem_singleton_self _
  count := rfl
  limit := Nat.zero_le _

/-- A visit keeps the invariant up. -/
theorem Crawling.visit {self : Crawler Url} (crawling : Crawling web maxUrlsToCrawl urlStart self) {currentUrl : Url}
    {urlQueue : List Url} (next : self.urlQueue = currentUrl :: urlQueue) (more : self.urlsCrawled < maxUrlsToCrawl) :
    Crawling web maxUrlsToCrawl urlStart (self.visit web currentUrl urlQueue) := by
  obtain ⟨queue, set, downloaded, crawled⟩ := @visit_spec _ web self currentUrl urlQueue
  have order : (self.visit web currentUrl urlQueue).downloaded ++ (self.visit web currentUrl urlQueue).urlQueue =
      (self.downloaded ++ self.urlQueue) ++ (web.getLinks currentUrl).filter (isGood web self.allUrls) := by
    rw [queue, downloaded, next]
    simp
  have here : currentUrl ∈ self.downloaded ++ self.urlQueue :=
    List.mem_append_right _ (next ▸ List.mem_cons_self)
  refine ⟨fun key => ?_, fun url member => ?_, fun url member link linked allowed => ?_, ?_, ?_, ?_⟩
  · rw [set, order, List.map_append, List.mem_append, crawling.known]
  · rw [order, List.mem_append] at member
    rcases member with before | linked
    · exact crawling.reachable url before
    · obtain ⟨linked, good⟩ := List.mem_filter.mp linked
      rw [isGood, Bool.and_eq_true] at good
      exact .link (crawling.reachable currentUrl here) linked good.1
  · rw [set]
    rw [downloaded, List.mem_append, List.mem_singleton] at member
    rcases member with before | rfl
    · exact Or.inl (crawling.closed url before link linked allowed)
    · by_cases known : getQueryable web link ∈ self.allUrls
      · exact Or.inl known
      · refine Or.inr (List.mem_map_of_mem (List.mem_filter.mpr ⟨linked, ?_⟩))
        rw [isGood, allowed, decide_eq_true known]
        rfl
  · exact (set _).mpr (Or.inl crawling.starts)
  · rw [crawled, downloaded, List.length_append, crawling.count, List.length_singleton]
  · rw [crawled]
    exact more

theorem Reached.crawling {self : Crawler Url} (reached : Reached web maxUrlsToCrawl urlStart self) :
    Crawling web maxUrlsToCrawl urlStart self := by
  induction reached with
  | starting => exact crawling_starting
  | visit _ next more ih => exact ih.visit next more

/-- **All pages visited or in the queue have different keys**, if no page visited repeats a new link. -/
theorem Reached.nodup {self : Crawler Url} (reached : Reached web maxUrlsToCrawl urlStart self)
    (noRepeats : ∀ (self : Crawler Url) (currentUrl : Url) (urlQueue : List Url),
      Reached web maxUrlsToCrawl urlStart self → self.urlQueue = currentUrl :: urlQueue →
      self.urlsCrawled < maxUrlsToCrawl → NoRepeats web self currentUrl) :
    ((self.downloaded ++ self.urlQueue).map (getQueryable web)).Nodup := by
  induction reached with
  | starting => exact List.nodup_singleton _
  | @visit self currentUrl urlQueue before next more ih =>
    obtain ⟨queue, _, downloaded, _⟩ := @visit_spec _ web self currentUrl urlQueue
    have order : (self.visit web currentUrl urlQueue).downloaded ++ (self.visit web currentUrl urlQueue).urlQueue =
        (self.downloaded ++ self.urlQueue) ++ (web.getLinks currentUrl).filter (isGood web self.allUrls) := by
      rw [queue, downloaded, next]
      simp
    rw [order, List.map_append]
    refine ih.append (noRepeats self currentUrl urlQueue before next more) fun key old new => ?_
    obtain ⟨link, good, rfl⟩ := List.mem_map.mp new
    have fresh := (List.mem_filter.mp good).2
    rw [isGood, Bool.and_eq_true, decide_eq_true_iff] at fresh
    exact fresh.2 ((before.crawling.known _).mpr old)

/-- **The loop ends**, with an empty queue or at the limit. -/
theorem loop_ends (count : Nat) : ∀ {self : Crawler Url}, Reached web maxUrlsToCrawl urlStart self →
    maxUrlsToCrawl - self.urlsCrawled ≤ count → ∃ final, Reached web maxUrlsToCrawl urlStart final ∧
      (final.urlQueue = [] ∨ maxUrlsToCrawl ≤ final.urlsCrawled) ∧
      ∀ fuel, count + 1 ≤ fuel → Fuel.loop (round web maxUrlsToCrawl) fuel self = some final := by
  induction count with
  | zero =>
    intro self reached left
    have limit : maxUrlsToCrawl ≤ self.urlsCrawled := by omega
    refine ⟨self, reached, Or.inr limit, fun fuel enough => ?_⟩
    obtain ⟨fuel, rfl⟩ := Nat.exists_eq_add_of_le' enough
    refine Fuel.loop_inr ?_
    unfold round
    cases self.urlQueue with
    | nil => rfl
    | cons currentUrl urlQueue => exact if_neg (not_lt.mpr limit)
  | succ count ih =>
    intro self reached left
    cases queue : self.urlQueue with
    | nil =>
      refine ⟨self, reached, Or.inl queue, fun fuel enough => ?_⟩
      obtain ⟨fuel, rfl⟩ := Nat.exists_eq_add_of_le' enough
      refine Fuel.loop_inr ?_
      rw [round, queue]
    | cons currentUrl urlQueue =>
      by_cases more : self.urlsCrawled < maxUrlsToCrawl
      · have crawled := (@visit_spec _ web self currentUrl urlQueue).2.2.2
        obtain ⟨final, at_final, ends, run⟩ := ih (.visit reached queue more) (by omega)
        refine ⟨final, at_final, ends, fun fuel enough => ?_⟩
        obtain ⟨fuel, rfl⟩ := Nat.exists_eq_add_of_le' enough
        have first : round web maxUrlsToCrawl self = some (.inl (self.visit web currentUrl urlQueue)) := by
          rw [round, queue]
          exact if_pos more
        rw [show fuel + (count + 1 + 1) = fuel + (count + 1) + 1 from rfl, Fuel.loop_inl first]
        exact run _ (Nat.le_add_left _ _)
      · have limit := not_lt.mp more
        refine ⟨self, reached, Or.inr limit, fun fuel enough => ?_⟩
        obtain ⟨fuel, rfl⟩ := Nat.exists_eq_add_of_le' enough
        refine Fuel.loop_inr ?_
        rw [round, queue]
        exact if_neg more

/-- When the queue is empty, the keys of all that is reachable have been visited. -/
theorem Crawling.complete {self : Crawler Url} (crawling : Crawling web maxUrlsToCrawl urlStart self)
    (done : self.urlQueue = []) (sameLinks : SameLinks web urlStart) {url : Url} (reachable : Reachable web urlStart url) :
    getQueryable web url ∈ self.downloaded.map (getQueryable web) := by
  have visited : ∀ key, key ∈ self.allUrls ↔ key ∈ self.downloaded.map (getQueryable web) := by
    intro key
    rw [crawling.known, done, List.append_nil]
  induction reachable with
  | start => exact (visited _).mp crawling.starts
  | @link url next reachable linked allowed ih =>
    obtain ⟨url', member, same⟩ := List.mem_map.mp ih
    have reachable' := crawling.reachable url' (List.mem_append_left _ member)
    obtain ⟨next', linked', allowed', sameNext⟩ := sameLinks url url' reachable reachable' same.symm next linked allowed
    rw [← sameNext]
    exact (visited _).mp (crawling.closed url' member next' linked' allowed')

/-- **Every URL is visited once.** For every web, every URL to start with and every limit: if no page that is visited
repeats a new link, and URLs with the same key have the same links, then in every state of the crawl the pages visited
have different keys and are no more than the limit, and the crawl ends; if not for the limit, everything that allowed
links lead to has been visited. -/
theorem start_once (web : Web Url) (maxUrlsToCrawl : Nat) (urlStart : Url)
    (noRepeats : ∀ (self : Crawler Url) (currentUrl : Url) (urlQueue : List Url),
      Reached web maxUrlsToCrawl urlStart self → self.urlQueue = currentUrl :: urlQueue →
      self.urlsCrawled < maxUrlsToCrawl → NoRepeats web self currentUrl)
    (sameLinks : SameLinks web urlStart) :
    (∀ self, Reached web maxUrlsToCrawl urlStart self →
      (self.downloaded.map (getQueryable web)).Nodup ∧ self.downloaded.length ≤ maxUrlsToCrawl) ∧
    ∃ final, Reached web maxUrlsToCrawl urlStart final ∧
      (∀ fuel, maxUrlsToCrawl + 1 ≤ fuel → start web maxUrlsToCrawl urlStart fuel = some final.storeMath) ∧
      (final.downloaded.length < maxUrlsToCrawl → ∀ url, Reachable web urlStart url →
        getQueryable web url ∈ final.downloaded.map (getQueryable web)) := by
  refine ⟨fun self reached => ⟨?_, reached.crawling.count ▸ reached.crawling.limit⟩, ?_⟩
  · have distinct := reached.nodup noRepeats
    rw [List.map_append] at distinct
    exact distinct.of_append_left
  · obtain ⟨final, reached, ends, run⟩ := loop_ends maxUrlsToCrawl (@Reached.starting _ web maxUrlsToCrawl urlStart)
      (Nat.sub_le _ _)
    refine ⟨final, reached, fun fuel enough => ?_, fun below url reachable => ?_⟩
    · rw [start, run fuel enough]
      rfl
    · rw [← reached.crawling.count] at below
      exact reached.crawling.complete (ends.resolve_right (not_le.mpr below)) sameLinks reachable

end Runs

/-! ### Two webs -/

/-- Two pages with links to each other and to a third one, which has a link back to the first. -/
def threePages : Web (Fin 3) where
  path url := if url = 0 then "/".toList else if url = 1 then "/a".toList else "/b".toList
  query _ := []
  getLinks url := if url = 0 then [1, 2] else if url = 1 then [0, 2] else [0]
  getMath _ := []
  isAllowed _ := true

theorem getQueryable_threePages : ∀ {url url' : Fin 3},
    getQueryable threePages url = getQueryable threePages url' → url = url' := by decide

/-- The three pages are visited, each of them once. -/
theorem start_once_threePages : ∃ final, Reached threePages 10 0 final ∧
    (final.downloaded.map (getQueryable threePages)).Nodup ∧
    (∀ fuel, 11 ≤ fuel → start threePages 10 0 fuel = some final.storeMath) ∧
    (final.downloaded.length < 10 → ∀ url, getQueryable threePages url ∈
      final.downloaded.map (getQueryable threePages)) := by
  have noRepeats : ∀ (self : Crawler (Fin 3)) (currentUrl : Fin 3) (urlQueue : List (Fin 3)),
      Reached threePages 10 0 self → self.urlQueue = currentUrl :: urlQueue → self.urlsCrawled < 10 →
      NoRepeats threePages self currentUrl := by
    intro self currentUrl urlQueue _ _ _
    have distinct : ∀ url, ((threePages.getLinks url).map (getQueryable threePages)).Nodup := by decide
    exact (distinct currentUrl).sublist (List.filter_sublist.map _)
  have sameLinks : SameLinks threePages 0 := by
    intro url url' _ _ same next linked allowed
    exact ⟨next, getQueryable_threePages same ▸ linked, allowed, rfl⟩
  obtain ⟨once, final, reached, run, complete⟩ := start_once threePages 10 0 noRepeats sameLinks
  refine ⟨final, reached, (once final reached).1, run, fun below url => complete below url ?_⟩
  have second : Reachable threePages 0 1 := .link .start (by decide) rfl
  fin_cases url
  · exact .start
  · exact second
  · exact .link second (by decide) rfl

/-- A page with a link to another one, twice. -/
def twoPages : Web Bool where
  path url := if url then "/a".toList else "/".toList
  query _ := []
  getLinks url := if url then [] else [true, true]
  getMath _ := []
  isAllowed _ := true

/-- The other page is downloaded twice. -/
theorem not_once_twoPages : ∃ final, start twoPages 10 false 11 = some final ∧
    final.downloaded = [false, true, true] ∧ ¬ (final.downloaded.map (getQueryable twoPages)).Nodup := by
  have run : (start twoPages 10 false 11).map Crawler.downloaded = some [false, true, true] := by decide
  obtain ⟨final, computed, downloaded⟩ := Option.map_eq_some_iff.mp run
  exact ⟨final, computed, downloaded, by rw [downloaded]; decide⟩

end Crawler

end MathWebSearch
