/-
**The robots file** (`crawler/types/Robotstxt.cpp`).

The text of the file is read line by line. A flag says whether the rules that follow are for everyone; lines that name
an agent change it, whether they follow another one or start a group of their own. URLs are a parameter, with the
function that resolves a text against one. Texts have no NUL characters, and the array that holds the copy of the text is
taken to have room for the byte that `strcpy` puts behind it.

* `fgetsAll_spells` — short lines are read one by one.
* `notAllowed_construct` — the constructor resolves the rules that are read, one by one.
* `foldl_agentLine` — the flag is the parity of the lines for everyone at the end of all agent lines so far.
* `records_iff` — **the rules recorded are those for everyone** if and only if these parities say so.
-/

import MathWebSearch.Types.CmmlToken

namespace MathWebSearch

namespace Robotstxt

/-! ### Reading lines -/

/-- `fgets`: the characters up to the first newline, at most as many as there is room for; and what is left. -/
def fgets : Nat → Str → Str × Str
  | 0, stream => ([], stream)
  | _ + 1, [] => ([], [])
  | room + 1, char :: stream =>
    if char = '\n' then ([char], stream) else ((char :: (fgets room stream).1), (fgets room stream).2)

/-- `bufmax`. -/
def bufmax : Nat := 1000

theorem length_fgets (room : Nat) (stream : Str) : (fgets room stream).1.length + (fgets room stream).2.length =
    stream.length := by
  induction room generalizing stream with
  | zero => rw [fgets, List.length_nil, Nat.zero_add]
  | succ room ih =>
    cases stream with
    | nil => rfl
    | cons char stream =>
      rw [fgets]
      split_ifs with newline
      · simp [Nat.add_comm]
      · have rest := ih stream
        simp only [List.length_cons]
        omega

/-- What is not empty gets shorter. -/
theorem length_fgets_lt {stream : Str} (nonempty : stream ≠ []) :
    (fgets (bufmax - 1) stream).2.length < stream.length := by
  have whole := length_fgets (bufmax - 1) stream
  have some : 0 < (fgets (bufmax - 1) stream).1.length := by
    obtain ⟨char, rest, rfl⟩ := List.exists_cons_of_ne_nil nonempty
    rw [bufmax, Nat.add_one_sub_one, fgets]
    split_ifs with newline
    · exact Nat.one_pos
    · exact Nat.succ_pos _
  omega

/-- The lines that the calls of `fgets` deliver. -/
def fgetsAll (stream : Str) : List Str :=
  if nonempty : stream ≠ [] then (fgets (bufmax - 1) stream).1 :: fgetsAll (fgets (bufmax - 1) stream).2 else []
termination_by stream.length
decreasing_by exact length_fgets_lt nonempty

theorem fgetsAll_nil : fgetsAll [] = [] := by
  rw [fgetsAll, dif_neg (not_not.mpr rfl)]

theorem fgetsAll_of_ne_nil {stream line rest : Str} (nonempty : stream ≠ [])
    (read : fgets (bufmax - 1) stream = (line, rest)) : fgetsAll stream = line :: fgetsAll rest := by
  rw [fgetsAll, dif_pos nonempty, read]

/-! ### The constructor -/

/-- `userAgent`. -/
def userAgent : Str := "User-agent: ".toList

/-- `thisCrawler`. -/
def thisCrawler : Str := "*".toList

/-- `disallow`. -/
def disallow : Str := "Disallow: ".toList

/-- What a line does to the flag `isInBrackets`. -/
def agentLine (isInBrackets : Bool) (line : Str) : Bool :=
  if userAgent.isPrefixOf line then
    if isInBrackets then false
    else if (userAgent ++ thisCrawler).isPrefixOf line then true
    else isInBrackets
  else isInBrackets

/-- The link a line hands to `dont_allow`, if any. -/
def disallowLine (isInBrackets : Bool) (line : Str) : Option Str :=
  if isInBrackets && disallow.isPrefixOf line then some (line.drop disallow.length) else none

/-- The loop of the constructor: for each line, the link it hands to `dont_allow`. -/
def readLines : Bool → List Str → List (Option Str)
  | _, [] => []
  | isInBrackets, line :: lines =>
    disallowLine (agentLine isInBrackets line) line :: readLines (agentLine isInBrackets line) lines

end Robotstxt

/-- `Robotstxt`. -/
structure Robotstxt (Url : Type) where
  startUrl : Url
  notAllowed : List Url

namespace Robotstxt

/-- `dont_allow`. -/
def dontAllow {Url : Type} (resolve : Url → Str → Url) (self : Robotstxt Url) (url : Str) : Robotstxt Url :=
  { self with notAllowed := self.notAllowed ++ [resolve self.startUrl url] }

/-- `Robotstxt::Robotstxt`, from the URL and the content of the robots page. -/
def construct {Url : Type} (resolve : Url → Str → Url) (startUrl : Url) (rob : Str) : Robotstxt Url :=
  (readLines false (fgetsAll rob)).reduceOption.foldl (dontAllow resolve) ⟨startUrl, []⟩

/-- The links are resolved one by one. -/
theorem notAllowed_construct {Url : Type} (resolve : Url → Str → Url) (startUrl : Url) (rob : Str) :
    (construct resolve startUrl rob).notAllowed =
      (readLines false (fgetsAll rob)).reduceOption.map (resolve startUrl) := by
  have fold : ∀ (links : List Str) (self : Robotstxt Url), (links.foldl (dontAllow resolve) self).notAllowed =
      self.notAllowed ++ links.map (resolve self.startUrl) := by
    intro links
    induction links with
    | nil => intro self; exact (List.append_nil _).symm
    | cons link links ih =>
      intro self
      rw [List.foldl_cons, ih]
      simp [dontAllow]
  rw [construct, fold, List.nil_append]

/-! ### Lines of a text -/

/-- **A text consists of lines**, each with its newline but perhaps the last one. -/
inductive Spells : Str → List Str → Prop
  | nil : Spells [] []
  | last {line : Str} : line ≠ [] → Spells line [line]
  | line {line text : Str} {lines : List Str} : Spells text lines → Spells (line ++ '\n' :: text) (line :: lines)

/-- Every line ends in a newline. -/
theorem spells_newlines (lines : List Str) : Spells (lines.flatMap fun line => line ++ ['\n']) lines := by
  induction lines with
  | nil => exact .nil
  | cons line lines ih =>
    rw [List.flatMap_cons, List.append_assoc]
    exact .line ih

theorem fgets_line {line : Str} (text : Str) (plain : '\n' ∉ line) : ∀ {room : Nat}, line.length < room →
    fgets room (line ++ '\n' :: text) = (line ++ ['\n'], text) := by
  induction line with
  | nil =>
    intro room short
    obtain ⟨room, rfl⟩ := Nat.exists_eq_add_of_lt short
    rw [List.length_nil, Nat.zero_add, List.nil_append, fgets, if_pos rfl]
    rfl
  | cons char line ih =>
    intro room short
    obtain ⟨here, later⟩ := not_or.mp (List.mem_cons.not.mp plain)
    cases room with
    | zero => omega
    | succ room =>
      rw [List.cons_append, fgets, if_neg (Ne.symm here), ih later (Nat.lt_of_succ_lt_succ short)]
      rfl

theorem fgets_last {line : Str} (plain : '\n' ∉ line) : ∀ {room : Nat}, line.length ≤ room →
    fgets room line = (line, []) := by
  induction line with
  | nil => intro room _; cases room <;> rfl
  | cons char line ih =>
    intro room short
    obtain ⟨here, later⟩ := not_or.mp (List.mem_cons.not.mp plain)
    cases room with
    | zero => exact absurd short (Nat.not_succ_le_zero _)
    | succ room => rw [fgets, if_neg (Ne.symm here), ih later (Nat.le_of_succ_le_succ short)]

/-- What is read of a line: with its newline, or without. -/
def IsRead (read line : Str) : Prop := read = line ++ ['\n'] ∨ read = line

/-- A line of a robots file. -/
def IsLine (line : Str) : Prop := '\n' ∉ line ∧ line.length < bufmax - 1

instance : DecidablePred IsLine := fun _ => inferInstanceAs (Decidable (_ ∧ _))

/-- **Short lines are read one by one.** -/
theorem fgetsAll_spells {text : Str} {lines : List Str} (spells : Spells text lines) (short : ∀ line ∈ lines, IsLine line) :
    List.Forall₂ IsRead (fgetsAll text) lines := by
  induction spells with
  | nil =>
    rw [fgetsAll_nil]
    exact .nil
  | @last line nonempty =>
    obtain ⟨plain, room⟩ := short line (List.mem_singleton_self _)
    rw [fgetsAll_of_ne_nil nonempty (fgets_last plain room.le), fgetsAll_nil]
    exact .cons (Or.inr rfl) .nil
  | @line line text lines _ ih =>
    rw [List.forall_mem_cons] at short
    have nonempty : line ++ '\n' :: text ≠ [] := List.append_ne_nil_of_right_ne_nil _ (List.cons_ne_nil _ _)
    rw [fgetsAll_of_ne_nil nonempty (fgets_line text short.1.1 short.1.2)]
    exact .cons (Or.inl rfl) (ih short.2)

/-! ### Groups -/

/-- **A group**: the agents it is for, and its lines, which name no agent. -/
structure Group where
  agents : List Str
  rules : List Str
  agents_ne_nil : agents ≠ []
  rules_ne_nil : rules ≠ []
  rules_plain : ∀ rule ∈ rules, ¬ userAgent <+: rule

namespace Group

def lines (group : Group) : List Str := group.agents.map (userAgent ++ ·) ++ group.rules

/-- It is for everyone. -/
def Starred (group : Group) : Prop := thisCrawler ∈ group.agents

instance (group : Group) : Decidable group.Starred := inferInstanceAs (Decidable (_ ∈ _))

/-- It disallows something. -/
def Disallows (group : Group) : Prop := ∃ rule ∈ group.rules, disallow <+: rule

/-- The paths that are to be recorded at its lines. -/
def paths (group : Group) : List (Option Str) :=
  group.agents.map (fun _ => none) ++
    group.rules.map fun rule =>
      if group.Starred ∧ disallow <+: rule then some (rule.drop disallow.length) else none

end Group

/-- The path in a link, which may end in a newline. -/
def linkPath (link : Str) : Str := link.takeWhile fun char => char ≠ '\n'

/-- **The constructor records the rules for everyone**: with every line, it calls `dont_allow` if the line disallows a
path, and an agent of its group is `*`. -/
def Records (text : Str) (groups : List Group) : Prop :=
  (readLines false (fgetsAll text)).map (Option.map linkPath) = groups.flatMap Group.paths

/-- The number of agents at the end of a list that begin with `*`. -/
def trailing (agents : List Str) : Nat := (agents.reverse.takeWhile fun agent => thisCrawler.isPrefixOf agent).length

/-! ### The newlines -/

theorem prefix_newline {front line : Str} (plain : '\n' ∉ front) : front <+: line ++ ['\n'] ↔ front <+: line := by
  rw [List.prefix_concat_iff, or_iff_right]
  rintro rfl
  exact plain (List.mem_append_right _ (List.mem_singleton_self _))

/-- Whether a line begins with a text does not depend on its newline. -/
theorem isPrefixOf_read {front read line : Str} (plain : '\n' ∉ front) (isRead : IsRead read line) :
    front.isPrefixOf read = front.isPrefixOf line := by
  rcases isRead with rfl | rfl
  · rw [Bool.eq_iff_iff, List.isPrefixOf_iff_prefix, List.isPrefixOf_iff_prefix, prefix_newline plain]
  · rfl

theorem agentLine_read {read line : Str} (isRead : IsRead read line) (isInBrackets : Bool) :
    agentLine isInBrackets read = agentLine isInBrackets line := by
  rw [agentLine, agentLine, isPrefixOf_read (by decide) isRead, isPrefixOf_read (by decide) isRead]

theorem linkPath_plain {path : Str} (plain : '\n' ∉ path) : linkPath path = path := by
  rw [linkPath, List.takeWhile_eq_self_iff]
  intro char member
  exact decide_eq_true fun newline => plain (newline ▸ member)

theorem linkPath_newline {path : Str} (plain : '\n' ∉ path) : linkPath (path ++ ['\n']) = path := by
  rw [linkPath, List.takeWhile_append_of_pos]
  · simp
  · intro char member
    exact decide_eq_true fun newline => plain (newline ▸ member)

theorem disallowLine_read {read line : Str} (isRead : IsRead read line) (plain : '\n' ∉ line) (isInBrackets : Bool) :
    (disallowLine isInBrackets read).map linkPath = disallowLine isInBrackets line := by
  rw [disallowLine, disallowLine, isPrefixOf_read (by decide) isRead]
  split_ifs with disallows
  · have long : disallow.length ≤ line.length := by
      rw [Bool.and_eq_true, List.isPrefixOf_iff_prefix] at disallows
      exact disallows.2.length_le
    have plainPath : '\n' ∉ line.drop disallow.length := fun member => plain (List.mem_of_mem_drop member)
    rw [Option.map_some]
    rcases isRead with rfl | rfl
    · rw [List.drop_append_of_le_length long, linkPath_newline plainPath]
    · rw [linkPath_plain plainPath]
  · rfl

/-- The paths recorded are those of the lines without their newlines. -/
theorem readLines_read {reads lines : List Str} (isRead : List.Forall₂ IsRead reads lines)
    (plain : ∀ line ∈ lines, '\n' ∉ line) (isInBrackets : Bool) :
    (readLines isInBrackets reads).map (Option.map linkPath) = readLines isInBrackets lines := by
  induction isRead generalizing isInBrackets with
  | nil => rfl
  | cons here _ ih =>
    rw [List.forall_mem_cons] at plain
    rw [readLines, readLines, List.map_cons, agentLine_read here, disallowLine_read here plain.1, ih plain.2]

/-! ### The flag -/

theorem readLines_append (front back : List Str) (isInBrackets : Bool) :
    readLines isInBrackets (front ++ back) =
      readLines isInBrackets front ++ readLines (front.foldl agentLine isInBrackets) back := by
  induction front generalizing isInBrackets with
  | nil => rfl
  | cons line front ih => rw [List.cons_append, readLines, readLines, ih, List.cons_append, List.foldl_cons]

/-- A line that names an agent sets the flag if that begins with `*` and the flag is not set, and clears it otherwise. -/
theorem agentLine_agent (agent : Str) (isInBrackets : Bool) :
    agentLine isInBrackets (userAgent ++ agent) = (!isInBrackets && thisCrawler.isPrefixOf agent) := by
  have names : userAgent.isPrefixOf (userAgent ++ agent) = true :=
    List.isPrefixOf_iff_prefix.mpr (List.prefix_append _ _)
  have everyone : (userAgent ++ thisCrawler).isPrefixOf (userAgent ++ agent) = thisCrawler.isPrefixOf agent := by
    rw [Bool.eq_iff_iff, List.isPrefixOf_iff_prefix, List.isPrefixOf_iff_prefix, List.prefix_append_right_inj]
  rw [agentLine, if_pos names, everyone]
  cases isInBrackets <;> cases thisCrawler.isPrefixOf agent <;> rfl

theorem disallowLine_agent (agent : Str) (isInBrackets : Bool) :
    disallowLine isInBrackets (userAgent ++ agent) = none := by
  have other : disallow.isPrefixOf (userAgent ++ agent) = false := rfl
  rw [disallowLine, other, Bool.and_false]
  rfl

theorem agentLine_rule {rule : Str} (plain : ¬ userAgent <+: rule) (isInBrackets : Bool) :
    agentLine isInBrackets rule = isInBrackets := by
  rw [agentLine, if_neg]
  rwa [List.isPrefixOf_iff_prefix]

/-- The flag behind some agent lines. -/
def flagAfter (agents : List Str) : Bool := agents.foldl (fun flag agent => !flag && thisCrawler.isPrefixOf agent) false

/-- **The flag is a parity.** -/
theorem flagAfter_iff (agents : List Str) : flagAfter agents = true ↔ Odd (trailing agents) := by
  induction agents using List.reverseRecOn with
  | nil => simp [flagAfter, trailing]
  | append_singleton agents agent ih =>
    have step : flagAfter (agents ++ [agent]) = (!flagAfter agents && thisCrawler.isPrefixOf agent) := by
      rw [flagAfter, List.foldl_append]
      rfl
    rw [step, Bool.and_eq_true, Bool.not_eq_true', ← Bool.not_eq_true, ih, trailing, trailing, List.reverse_append]
    show _ ↔ Odd (List.takeWhile _ (agent :: agents.reverse)).length
    rw [List.takeWhile_cons]
    split_ifs with everyone
    · rw [List.length_cons, Nat.odd_add_one, and_iff_left everyone]
    · simp [everyone]

theorem disallowLine_eq (isInBrackets : Bool) (rule : Str) : disallowLine isInBrackets rule =
    if isInBrackets = true ∧ disallow <+: rule then some (rule.drop disallow.length) else none := by
  rw [disallowLine]
  refine if_congr ?_ rfl rfl
  rw [Bool.and_eq_true, List.isPrefixOf_iff_prefix]

/-- Reading a group with the flag that its predecessors left. -/
theorem readLines_group (seen : List Str) (group : Group) (rest : List Str) :
    readLines (flagAfter seen) (group.lines ++ rest) =
      group.agents.map (fun _ => none) ++
        group.rules.map (disallowLine (flagAfter (seen ++ group.agents))) ++
        readLines (flagAfter (seen ++ group.agents)) rest := by
  have agents : ∀ (agents : List Str) (flag : Bool), readLines flag (agents.map (userAgent ++ ·)) =
      agents.map (fun _ => none) ∧ (agents.map (userAgent ++ ·)).foldl agentLine flag =
      agents.foldl (fun flag agent => !flag && thisCrawler.isPrefixOf agent) flag := by
    intro agents
    induction agents with
    | nil => exact fun _ => ⟨rfl, rfl⟩
    | cons agent agents ih =>
      intro flag
      simp only [List.map_cons, readLines, List.foldl_cons, agentLine_agent, disallowLine_agent, ih, and_self]
  have rules : ∀ (rules : List Str), (∀ rule ∈ rules, ¬ userAgent <+: rule) → ∀ flag : Bool,
      readLines flag rules = rules.map (disallowLine flag) ∧ rules.foldl agentLine flag = flag := by
    intro rules
    induction rules with
    | nil => exact fun _ _ => ⟨rfl, rfl⟩
    | cons rule rules ih =>
      intro plain flag
      rw [List.forall_mem_cons] at plain
      obtain ⟨read, after⟩ := ih plain.2 flag
      rw [readLines, List.foldl_cons, agentLine_rule plain.1, List.map_cons, read, after]
      exact ⟨rfl, rfl⟩
  have flag : group.agents.foldl (fun flag agent => !flag && thisCrawler.isPrefixOf agent) (flagAfter seen) =
      flagAfter (seen ++ group.agents) := by
    rw [flagAfter, flagAfter, List.foldl_append]
  obtain ⟨read, after⟩ := rules group.rules group.rules_plain (flagAfter (seen ++ group.agents))
  rw [Group.lines, List.append_assoc, readLines_append, (agents _ _).1, (agents _ _).2, flag, readLines_append, read,
    after, List.append_assoc]

/-- A group is recorded as it should be if its flag is right, or there is nothing to record. -/
theorem paths_eq_iff (group : Group) (flag : Bool) :
    group.agents.map (fun _ => none) ++ group.rules.map (disallowLine flag) = group.paths ↔
      (group.Disallows → (flag = true ↔ group.Starred)) := by
  rw [Group.paths, List.append_cancel_left_eq, List.map_inj_left]
  refine ⟨fun same ⟨rule, member, disallows⟩ => ?_, fun right rule member => ?_⟩
  · have here := congrArg Option.isSome (same rule member)
    rw [disallowLine_eq, Bool.eq_iff_iff, Option.isSome_ite, Option.isSome_ite] at here
    rwa [and_iff_left disallows, and_iff_left disallows] at here
  · rw [disallowLine_eq]
    refine if_congr (and_congr_left fun disallows => right ⟨rule, member, disallows⟩) rfl rfl

/-- The flags are right about every group that disallows something. -/
def Fits (seen : List Str) (groups : List Group) : Prop :=
  ∀ before group after, groups = before ++ group :: after → group.Disallows →
    (Odd (trailing (seen ++ (before.flatMap Group.agents ++ group.agents))) ↔ group.Starred)

theorem fits_cons (seen : List Str) (group : Group) (groups : List Group) :
    Fits seen (group :: groups) ↔ (group.Disallows → (Odd (trailing (seen ++ group.agents)) ↔ group.Starred)) ∧
      Fits (seen ++ group.agents) groups := by
  constructor
  · refine fun fits => ⟨fits [] group groups rfl, fun before other after split disallows => ?_⟩
    have right := fits (group :: before) other after (by rw [split, List.cons_append]) disallows
    rwa [List.flatMap_cons, List.append_assoc, ← List.append_assoc seen] at right
  · rintro ⟨here, later⟩ before other after split disallows
    cases before with
    | nil =>
      obtain ⟨rfl, rfl⟩ := List.cons.inj split
      exact here disallows
    | cons first before =>
      obtain ⟨rfl, rfl⟩ := List.cons.inj split
      have right := later before other after rfl disallows
      rwa [List.flatMap_cons, List.append_assoc, ← List.append_assoc seen]

theorem readLines_groups (groups : List Group) : ∀ seen : List Str,
    readLines (flagAfter seen) (groups.flatMap Group.lines) = groups.flatMap Group.paths ↔ Fits seen groups := by
  induction groups with
  | nil =>
    intro seen
    refine iff_of_true rfl fun before group after split => ?_
    exact absurd split.symm (List.append_ne_nil_of_right_ne_nil _ (List.cons_ne_nil _ _))
  | cons group groups ih =>
    intro seen
    have lengths : (group.agents.map (fun _ => none) ++
        group.rules.map (disallowLine (flagAfter (seen ++ group.agents)))).length = group.paths.length := by
      simp [Group.paths]
    rw [List.flatMap_cons, List.flatMap_cons, readLines_group, fits_cons, ← ih, ← flagAfter_iff, ← paths_eq_iff]
    exact ⟨fun same => List.append_inj same lengths, fun ⟨here, later⟩ => by rw [here, later]⟩

/-- What is recorded depends on the lines of the groups only. -/
theorem records_iff_readLines {text : Str} {groups : List Group} (spells : Spells text (groups.flatMap Group.lines))
    (short : ∀ group ∈ groups, ∀ line ∈ group.lines, IsLine line) :
    Records text groups ↔ readLines false (groups.flatMap Group.lines) = groups.flatMap Group.paths := by
  have each : ∀ line ∈ groups.flatMap Group.lines, IsLine line := by
    intro line member
    obtain ⟨group, among, inside⟩ := List.mem_flatMap.mp member
    exact short group among line inside
  have reads := fgetsAll_spells spells each
  rw [Records, readLines_read reads (fun line member => (each line member).1) false]

/-- **When the rules for everyone are recorded.** For every text of groups with lines shorter than 999 characters, the
constructor calls `dont_allow` exactly with the paths that are disallowed in groups for `*`, if and only if each group
that disallows something has `*` among its agents exactly when the agent lines up to its own end in an odd number of
lines for agents that begin with `*`. -/
theorem records_iff {text : Str} {groups : List Group} (spells : Spells text (groups.flatMap Group.lines))
    (short : ∀ group ∈ groups, ∀ line ∈ group.lines, IsLine line) :
    Records text groups ↔ ∀ before group after, groups = before ++ group :: after → group.Disallows →
      (Odd (trailing (before.flatMap Group.agents ++ group.agents)) ↔ group.Starred) :=
  (records_iff_readLines spells short).trans (readLines_groups groups [])

/-! ### Robots files -/

/-- A group that keeps some agents out of `/a`. -/
def keepOut (agents : List Str) (nonempty : agents ≠ []) : Group where
  agents := agents
  rules := ["Disallow: /a".toList]
  agents_ne_nil := nonempty
  rules_ne_nil := List.cons_ne_nil _ _
  rules_plain := by decide

/-- A group for `foo`. -/
def foo : Group := keepOut ["foo".toList] (List.cons_ne_nil _ _)

/-- A group for everyone. -/
def everyone : Group := keepOut ["*".toList] (List.cons_ne_nil _ _)

/-- A group for everyone and for `foo`. -/
def everyoneAndFoo : Group := keepOut ["*".toList, "foo".toList] (List.cons_ne_nil _ _)

/-- Two groups of which the second is for everyone. -/
theorem records_fooEveryone :
    Records "User-agent: foo\nDisallow: /a\nUser-agent: *\nDisallow: /a\n".toList [foo, everyone] := by
  have spells : Spells "User-agent: foo\nDisallow: /a\nUser-agent: *\nDisallow: /a\n".toList
      ([foo, everyone].flatMap Group.lines) := by
    have lines : "User-agent: foo\nDisallow: /a\nUser-agent: *\nDisallow: /a\n".toList =
        ([foo, everyone].flatMap Group.lines).flatMap fun line => line ++ ['\n'] := by decide
    rw [lines]
    exact spells_newlines _
  refine (records_iff spells (by decide)).mpr fun before group after split disallows => ?_
  match before, split with
  | [], split =>
    obtain ⟨rfl, -⟩ := List.cons.inj split
    decide
  | [first], split =>
    obtain ⟨same, split⟩ := List.cons.inj split
    obtain ⟨rfl, -⟩ := List.cons.inj split
    rw [← same]
    decide
  | _ :: _ :: _, split => simp at split

/-- A second agent line hides the first one: nothing is recorded for everyone. -/
theorem not_records_everyoneAndFoo :
    Spells "User-agent: *\nUser-agent: foo\nDisallow: /a\n".toList ([everyoneAndFoo].flatMap Group.lines) ∧
      (∀ group ∈ [everyoneAndFoo], ∀ line ∈ group.lines, IsLine line) ∧
      ¬ Records "User-agent: *\nUser-agent: foo\nDisallow: /a\n".toList [everyoneAndFoo] := by
  have spells : Spells "User-agent: *\nUser-agent: foo\nDisallow: /a\n".toList
      ([everyoneAndFoo].flatMap Group.lines) := by
    have lines : "User-agent: *\nUser-agent: foo\nDisallow: /a\n".toList =
        ([everyoneAndFoo].flatMap Group.lines).flatMap fun line => line ++ ['\n'] := by decide
    rw [lines]
    exact spells_newlines _
  have short : ∀ group ∈ [everyoneAndFoo], ∀ line ∈ group.lines, IsLine line := by decide
  refine ⟨spells, short, fun records => ?_⟩
  rw [records_iff_readLines spells short] at records
  revert records
  decide

end Robotstxt

end MathWebSearch
