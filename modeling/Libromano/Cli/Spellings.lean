/- The ways to write an argument and its value on a command line. To compare what they leave, the
   loop over `argv` is taken with all that it changes, also where it is left early. -/

import Libromano.Cli.Readings

set_option autoImplicit false
set_option relaxedAutoImplicit false

namespace Libromano.Cli

open Bytes

def missing (parser : CLIParser) (posIndex : ℕ) : Option Refusal :=
  if posIndex < (parser.positionalArgs.length + (2 ^ 64 - 1)) % 2 ^ 64 then
    some (.error .cliMissingPositionalArgs)
  else if parser.argsMap.any fun entry => (parser.args[entry.2]?).any CLIArg.missing then
    some (.error .cliMissingRequiredArg)
  else none

/-- The variables of `cli_parser_parse`, with what it is left with early. -/
structure Loop where
  parser : CLIParser
  posIndex : ℕ
  nextArgOffset : ℕ
  refusal : Option Refusal
  deriving DecidableEq

namespace Loop

def refuse (l : Loop) (refusal : Refusal) : Loop := { l with refusal := some refusal }

/-- One round. A function that fails leaves the parser as it was. -/
def round (l : Loop) (argStr : Token) (nextArg : Option Token) : Loop :=
  if l.refusal.isSome then l
  else
    match l.nextArgOffset with
    | offset + 1 => { l with nextArgOffset := offset }
    | 0 =>
      if argStr = ascii "-h" ∨ argStr = ascii "--help" then l.refuse .help
      else if argStr.head? = some dash then
        match cliParserParseNamedArgument l.parser argStr nextArg with
        | .error code => l.refuse (.error code)
        | .ok (parser, offset) => { l with parser := parser, nextArgOffset := offset }
      else
        match cliParserParsePositionalArgument l.parser argStr l.posIndex with
        | .error code => l.refuse (.error code)
        | .ok parser => { l with parser := parser, posIndex := l.posIndex + 1 }

/-- The rounds over some tokens, with the token that stands behind them. -/
def rounds : Loop → List Token → Option Token → Loop
  | l, [], _ => l
  | l, argStr :: rest, behind => (l.round argStr (rest.head?.or behind)).rounds rest behind

def result (l : Loop) : Except Refusal (CLIParser × ℕ) :=
  match l.refusal with
  | some refusal => .error refusal
  | none => .ok (l.parser, l.posIndex)

def outcome (l : Loop) : Option Refusal :=
  match l.refusal with
  | some refusal => some refusal
  | none => missing l.parser l.posIndex

end Loop

/-- What `cli_parser_parse` returns and the parser it leaves. -/
def cliParserParseLeaves (parser : CLIParser) (argv : List Token) : Option Refusal × CLIParser :=
  if argv.length = 1 then (none, parser)
  else
    let l := Loop.rounds ⟨parser, 0, 0, none⟩ argv.tail none
    (l.outcome, l.parser)

variable {parser : CLIParser} {declared calls : List Declaration} {d : Declaration} {i : ℕ}
  {l : Loop} {argStr value : Token} {behind : Option Token}

private theorem rounds_refused (h : l.refusal.isSome) (tokens : List Token)
    (behind : Option Token) :
    l.rounds tokens behind = l := by
  induction tokens with
  | nil => rfl
  | cons argStr rest ih => rw [Loop.rounds, Loop.round, if_pos h, ih]

private theorem rounds_append (l : Loop) (tokens tokens' : List Token) (behind : Option Token) :
    l.rounds (tokens ++ tokens') behind =
      (l.rounds tokens (tokens'.head?.or behind)).rounds tokens' behind := by
  induction tokens generalizing l with
  | nil => rfl
  | cons argStr rest ih =>
    rw [List.cons_append, Loop.rounds, Loop.rounds, ih, List.head?_append, Option.or_assoc]

theorem parseTokens_eq_result (parser : CLIParser) (posIndex offset : ℕ) (tokens : List Token) :
    parseTokens parser posIndex offset tokens =
      (Loop.rounds ⟨parser, posIndex, offset, none⟩ tokens none).result := by
  induction tokens generalizing parser posIndex offset with
  | nil =>
    rw [parseTokens]
    rfl
  | cons argStr rest ih =>
    rw [Loop.rounds, Option.or_none]
    cases offset with
    | succ offset =>
      rw [parseTokens, ih]
      rfl
    | zero =>
      have hrefused : ∀ refusal, Except.error refusal =
          ((Loop.refuse ⟨parser, posIndex, 0, none⟩ refusal).rounds rest none).result := by
        intro refusal
        rw [rounds_refused (by rfl)]
        rfl
      unfold parseTokens Loop.round
      simp only [Option.isSome_none, Bool.false_eq_true, if_false]
      by_cases hhelp : argStr = ascii "-h" ∨ argStr = ascii "--help"
      · rw [if_pos hhelp, if_pos hhelp]
        exact hrefused .help
      · rw [if_neg hhelp, if_neg hhelp]
        split
        case isTrue =>
          cases hnamed : cliParserParseNamedArgument parser argStr rest.head? with
          | error code => exact hrefused (.error code)
          | ok parsed => exact ih parsed.1 posIndex parsed.2
        case isFalse =>
          cases hpos : cliParserParsePositionalArgument parser argStr posIndex with
          | error code => exact hrefused (.error code)
          | ok parser' => exact ih parser' (posIndex + 1) 0

theorem missing_eq (parser : CLIParser) (posIndex : ℕ) :
    (if posIndex < (parser.positionalArgs.length + (2 ^ 64 - 1)) % 2 ^ 64 then
      .error (.error .cliMissingPositionalArgs)
    else if parser.argsMap.any fun entry => (parser.args[entry.2]?).any CLIArg.missing then
      .error (.error .cliMissingRequiredArg)
    else .ok parser : Except Refusal CLIParser) =
      match missing parser posIndex with
      | some refusal => .error refusal
      | none => .ok parser := by
  rw [missing]
  by_cases hpos : posIndex < (parser.positionalArgs.length + (2 ^ 64 - 1)) % 2 ^ 64
  · rw [if_pos hpos, if_pos hpos]
  · rw [if_neg hpos, if_neg hpos]
    split <;> rfl

theorem match_congr (parsed : Except Refusal (CLIParser × ℕ))
    {f g : CLIParser → ℕ → Except Refusal CLIParser} (h : ∀ parser posIndex, f parser posIndex =
      g parser posIndex) :
    (match parsed with
    | .error refusal => .error refusal
    | .ok (parser, posIndex) => f parser posIndex : Except Refusal CLIParser) =
      match parsed with
      | .error refusal => .error refusal
      | .ok (parser, posIndex) => g parser posIndex := by
  cases parsed with
  | error refusal => rfl
  | ok left => exact h left.1 left.2

theorem match_result (l : Loop) (tests : CLIParser → ℕ → Option Refusal) :
    (match l.result with
    | .error refusal => .error refusal
    | .ok (parser, posIndex) =>
      match tests parser posIndex with
      | some refusal => .error refusal
      | none => .ok parser : Except Refusal CLIParser) =
      match
        (match l.refusal with
        | some refusal => some refusal
        | none => tests l.parser l.posIndex) with
      | some refusal => .error refusal
      | none => .ok l.parser := by
  unfold Loop.result
  cases l.refusal <;> rfl

private theorem leaves_eq {argv : List Token} (hargc : argv.length ≠ 1) :
    cliParserParseLeaves parser argv =
      ((Loop.rounds ⟨parser, 0, 0, none⟩ argv.tail none).outcome,
        (Loop.rounds ⟨parser, 0, 0, none⟩ argv.tail none).parser) := by
  rw [cliParserParseLeaves, if_neg hargc]

theorem cliParserParse_eq_leaves (parser : CLIParser) (argv : List Token) :
    cliParserParse parser argv =
      match (cliParserParseLeaves parser argv).1 with
      | some refusal => .error refusal
      | none => .ok (cliParserParseLeaves parser argv).2 := by
  rw [cliParserParse]
  by_cases hargc : argv.length = 1
  · rw [if_pos hargc, cliParserParseLeaves, if_pos hargc]
  · rw [if_neg hargc, leaves_eq hargc, parseTokens_eq_result]
    -- the tests are not to be evaluated
    refine (match_congr _ missing_eq).trans ?_
    rw [Loop.outcome]
    generalize missing = tests
    exact match_result _ tests

inductive Spelling
  | nameEquals
  | nameColon
  | nameNext
  | shortEquals
  | shortColon
  | shortNext
  deriving DecidableEq

def Spelling.tokens (d : Declaration) (value : Token) : Spelling → List Token
  | .nameEquals => [dash :: dash :: d.name ++ 61 :: value]
  | .nameColon => [dash :: dash :: d.name ++ 58 :: value]
  | .nameNext => [dash :: dash :: d.name, value]
  | .shortEquals => [[dash, d.shortName] ++ 61 :: value]
  | .shortColon => [[dash, d.shortName] ++ 58 :: value]
  | .shortNext => [[dash, d.shortName], value]

/-- Two dashes and the name, up to a `=` or `:` or the end, are not read as anything else. -/
structure PlainName (name : List UInt8) : Prop where
  ne_nil : name ≠ []
  chars : ∀ c ∈ name, inName c = true
  head : name.head? ≠ some dash
  help : name ≠ ascii "help"

/-- The names are told apart by themselves, and the short names too. -/
structure Plain (declared : List Declaration) : Prop where
  name : ∀ d ∈ declared, PlainName d.name
  shortNames : declared.Pairwise fun d d' =>
    d.shortName ≠ cliNoShortName → d.shortName ≠ d'.shortName
  shortName : ∀ d ∈ declared, d.shortName ≠ 104 ∧ d.shortName ≠ dash ∧ inName d.shortName = true

/-- What the value comes to in the argument at `i`, whichever way it is given. -/
def Loop.give (l : Loop) (i : ℕ) (type : CLIArgType) (value : Token) : Loop :=
  if value = [] then l.refuse (.error .cliMalformedArgument)
  else if !cliParserValidateArgumentType type value then
    l.refuse (.error .cliInvalidArgumentType)
  else { l with parser := l.parser.put i (·.storeValue value) }

section Tokens

variable {n : ℕ} {key after : List UInt8}

private theorem head?_append_ne (hkey : key ≠ []) (hhead : key.head? ≠ some dash) :
    ∃ c rest, key = c :: rest ∧ (c == dash) = false := by
  obtain ⟨c, rest, rfl⟩ := List.exists_cons_of_ne_nil hkey
  refine ⟨c, rest, rfl, beq_false_of_ne ?_⟩
  rintro rfl
  exact hhead rfl

private theorem undashed_replicate (hkey : key ≠ []) (hhead : key.head? ≠ some dash) :
    undashed (List.replicate n dash ++ (key ++ after)) = key ++ after := by
  obtain ⟨c, rest, rfl, hc⟩ := head?_append_ne hkey hhead
  unfold undashed
  rw [List.dropWhile_append_of_pos (by simp), List.cons_append, List.dropWhile_cons, hc]
  rfl

private theorem numDashes_replicate (hkey : key ≠ []) (hhead : key.head? ≠ some dash) :
    numDashes (List.replicate n dash ++ (key ++ after)) = n := by
  obtain ⟨c, rest, rfl, hc⟩ := head?_append_ne hkey hhead
  unfold numDashes
  rw [List.takeWhile_append_of_pos (by simp), List.cons_append, List.takeWhile_cons, hc]
  simp

/-- A name ends at the `=` or `:` behind it, or with the token. -/
def EndsName (after : List UInt8) : Prop := ∀ c ∈ after.head?, inName c = false

private theorem endsName_equals (value : Token) : EndsName (61 :: value) := by
  rintro c ⟨⟩
  rfl

private theorem endsName_colon (value : Token) : EndsName (58 :: value) := by
  rintro c ⟨⟩
  rfl

private theorem endsName_nil : EndsName [] := by
  rintro c ⟨⟩

private theorem takeWhile_inName (hkey : ∀ c ∈ key, inName c = true) (hafter : EndsName after) :
    (key ++ after).takeWhile inName = key := by
  rw [List.takeWhile_append_of_pos hkey]
  cases after with
  | nil => simp
  | cons c rest => simp [hafter c (by rfl)]

private theorem dropWhile_inName (hkey : ∀ c ∈ key, inName c = true) (hafter : EndsName after) :
    (key ++ after).dropWhile inName = after := by
  rw [List.dropWhile_append_of_pos hkey]
  cases after with
  | nil => simp
  | cons c rest => simp [hafter c (by rfl)]

end Tokens

/-- A token that is an argument's name with some text behind it. -/
structure Leads (parser : CLIParser) (argStr : Token) (i : ℕ) (arg : CLIArg) (after : List UInt8) :
    Prop where
  dash : argStr.head? = some dash
  help : ¬(argStr = ascii "-h" ∨ argStr = ascii "--help")
  undashed : undashed argStr ≠ []
  found : cliParserFindArg parser argStr = some (i, arg)
  after : (Cli.undashed argStr).dropWhile inName = after

structure Loop.Ready (l : Loop) : Prop where
  refusal : l.refusal = none
  offset : l.nextArgOffset = 0

private theorem Loop.Ready.round (h : l.Ready) {arg : CLIArg} {after : List UInt8}
    (hleads : Leads l.parser argStr i arg after) (next : Option Token) :
    l.round argStr next =
      match cliParserParseNamedArgument l.parser argStr next with
      | .error code => l.refuse (.error code)
      | .ok (parser, offset) => { l with parser := parser, nextArgOffset := offset } := by
  unfold Loop.round
  rw [h.refusal, h.offset]
  simp only [Option.isSome_none, Bool.false_eq_true, if_false]
  rw [if_neg hleads.help, if_pos hleads.dash]

private theorem rounds_equals (h : l.Ready) {arg : CLIArg} {c : UInt8}
    (hleads : Leads l.parser argStr i arg (c :: value)) (haction : arg.action = .store) :
    l.rounds [argStr] behind = l.give i arg.type value := by
  rw [Loop.rounds, Loop.rounds, h.round hleads, cliParserParseNamedArgument,
    if_neg hleads.undashed, hleads.found, hleads.after, Loop.give]
  simp only [haction]
  rw [if_pos (List.cons_ne_nil c value), List.tail_cons]
  by_cases hvalue : value = []
  · rw [if_pos hvalue, if_pos hvalue]
  · rw [if_neg hvalue, if_neg hvalue]
    by_cases htype : cliParserValidateArgumentType arg.type value = true
    · simp [htype, h.offset]
    · simp [htype]

private theorem rounds_next (h : l.Ready) {arg : CLIArg} (hleads : Leads l.parser argStr i arg [])
    (haction : arg.action = .store) :
    l.rounds [argStr, value] behind = l.give i arg.type value := by
  rw [Loop.rounds, h.round hleads, cliParserParseNamedArgument, if_neg hleads.undashed,
    hleads.found, hleads.after, Loop.give]
  simp only [haction]
  by_cases hvalue : value = []
  · simp [hvalue, Loop.rounds, Loop.round, Loop.refuse]
  · by_cases htype : cliParserValidateArgumentType arg.type value = true
    · simp [hvalue, htype, Loop.rounds, Loop.round, h.refusal, h.offset]
    · simp [hvalue, htype, Loop.rounds, Loop.round, Loop.refuse]

private theorem PlainName.leads {name : List UInt8} (hname : PlainName name) {arg : CLIArg}
    (hget : hashmapGet parser.argsMap (mapKey name) = some i) (harg : parser.args[i]? = some arg)
    {after : List UInt8} (hafter : EndsName after) :
    Leads parser (dash :: dash :: name ++ after) i arg after := by
  have htoken : dash :: dash :: name ++ after = List.replicate 2 dash ++ (name ++ after) := rfl
  have hundashed : undashed (List.replicate 2 dash ++ (name ++ after)) = name ++ after :=
    undashed_replicate hname.ne_nil hname.head
  have hne : name ++ after ≠ [] := List.append_ne_nil_of_left_ne_nil hname.ne_nil _
  refine ⟨rfl, ?_, ?_, ?_, ?_⟩
  · rintro (heq | heq)
    · simp [ascii, dash] at heq
    · have hrest : name ++ after = ascii "help" := by
        simpa [ascii, dash] using heq
      apply hname.help
      calc name = (name ++ after).takeWhile inName := (takeWhile_inName hname.chars hafter).symm
        _ = ascii "help" := by rw [hrest]; rfl
  · rw [htoken, hundashed]
    exact hne
  · rw [cliParserFindArg, htoken, hundashed, numDashes_replicate hname.ne_nil hname.head,
      takeWhile_inName hname.chars hafter, if_neg hne]
    simp [hget, harg]
  · rw [htoken, hundashed, dropWhile_inName hname.chars hafter]

private theorem Plain.hashmapGet_shortName (hs : Plain declared) (h : Registers parser declared)
    (hd : declared[i]? = some d) (hshort : d.shortName ≠ cliNoShortName) :
    hashmapGet parser.shortNamesMap [d.shortName] = some i := by
  obtain ⟨hi, rfl⟩ := List.getElem?_eq_some_iff.mp hd
  rw [h.shortNamesMap, List.findIdx?_eq_some_iff_getElem]
  refine ⟨hi, by simp [Declaration.hasShortName, hshort], ?_⟩
  intro j hji hname
  simp only [Declaration.hasShortName, Bool.and_eq_true, bne_iff_ne, beq_iff_eq,
    List.cons.injEq, and_true] at hname
  have hdistinct := List.pairwise_iff_getElem.mp hs.shortNames j i (Nat.lt_trans hji hi) hi hji
  exact hdistinct hname.1 hname.2

private theorem Plain.leads_shortName (hs : Plain declared) (h : Registers parser declared)
    (hd : declared[i]? = some d) (hshort : d.shortName ≠ cliNoShortName) {arg : CLIArg}
    (harg : parser.args[i]? = some arg) {after : List UInt8} (hafter : EndsName after) :
    Leads parser ([dash, d.shortName] ++ after) i arg after := by
  obtain ⟨hhelp, hdash, hin⟩ := hs.shortName d (List.mem_of_getElem? hd)
  have hne : [d.shortName] ≠ [] := List.cons_ne_nil _ _
  have hhead : [d.shortName].head? ≠ some dash := by simpa using hdash
  have hin : ∀ c ∈ [d.shortName], inName c = true := by simpa using hin
  have htoken : [dash, d.shortName] ++ after =
      List.replicate 1 dash ++ ([d.shortName] ++ after) := rfl
  have hundashed : undashed (List.replicate 1 dash ++ ([d.shortName] ++ after)) =
      [d.shortName] ++ after := undashed_replicate hne hhead
  refine ⟨rfl, ?_, ?_, ?_, ?_⟩
  · rintro (heq | heq)
    · simp [ascii, hhelp] at heq
    · simp [ascii, dash] at heq
      exact hdash heq.1
  · rw [htoken, hundashed]
    exact List.cons_ne_nil _ _
  · rw [cliParserFindArg, htoken, hundashed, numDashes_replicate hne hhead,
      takeWhile_inName hin hafter, if_neg (by simp)]
    simp [mapKey, hs.hashmapGet_shortName h hd hshort, harg]
  · rw [htoken, hundashed, dropWhile_inName hin hafter]

private theorem Spelling.rounds (spelling : Spelling) (hs : Plain declared)
    (hnames : NamesDistinct declared)
    (h : Registers l.parser declared) (hready : l.Ready) (hd : declared[i]? = some d)
    (haction : d.action = .store) (hshort : d.shortName ≠ cliNoShortName) (value : Token)
    (behind : Option Token) :
    l.rounds (spelling.tokens d value) behind = l.give i d.type value := by
  obtain ⟨arg, harg, rfl⟩ := h.exists_arg hd
  have hget := h.hashmapGet_name hnames hd
  have hname := hs.name _ (List.mem_of_getElem? hd)
  cases spelling with
  | nameEquals =>
    exact rounds_equals hready (hname.leads hget harg (endsName_equals value)) haction
  | nameColon => exact rounds_equals hready (hname.leads hget harg (endsName_colon value)) haction
  | nameNext =>
    have hleads := hname.leads hget harg endsName_nil
    rw [List.append_nil] at hleads
    exact rounds_next hready hleads haction
  | shortEquals =>
    have hleads := hs.leads_shortName h hd hshort harg (endsName_equals value)
    exact rounds_equals hready hleads haction
  | shortColon =>
    have hleads := hs.leads_shortName h hd hshort harg (endsName_colon value)
    exact rounds_equals hready hleads haction
  | shortNext =>
    exact rounds_next hready (hs.leads_shortName h hd hshort harg endsName_nil) haction

/-- Of a value, at most whether there is one that can be read is seen: some value is, or the
token behind the argument is not looked at. -/
private theorem parseNamedArgument_next (parser : CLIParser) (argStr : Token) :
    (∀ next next' : Token, cliParserParseNamedArgument parser argStr (some next) =
      cliParserParseNamedArgument parser argStr (some next')) ∨
    ∃ next parser', cliParserParseNamedArgument parser argStr (some next) = .ok (parser', 1) := by
  unfold cliParserParseNamedArgument
  split
  case isTrue => exact .inl fun _ _ => rfl
  case isFalse =>
    cases cliParserFindArg parser argStr with
    | none => exact .inl fun _ _ => rfl
    | some found =>
      obtain ⟨i, arg⟩ := found
      -- the digit 1 is a value of every type
      have hone : cliParserValidateArgumentType arg.type [49] = true := by
        cases arg.type <;> decide
      cases haction : arg.action with
      | storeTrue | storeFalse | count => exact .inl fun _ _ => by simp only [haction]
      | store | append =>
        by_cases hvalue : (undashed argStr).dropWhile inName = []
        · refine .inr ⟨[49], parser.put i (·.storeValue [49]), ?_⟩
          simp [haction, hvalue, hone]
        · apply Or.inl
          intro next next'
          simp only [haction, ne_eq, hvalue, not_false_eq_true, if_true]

private theorem round_next (l : Loop) (argStr : Token) :
    (∀ next next' : Token, l.round argStr (some next) = l.round argStr (some next')) ∨
    ∃ next : Token, (l.round argStr (some next)).nextArgOffset = 1 := by
  unfold Loop.round
  split
  case isTrue => exact .inl fun _ _ => rfl
  case isFalse =>
    cases l.nextArgOffset with
    | succ offset => exact .inl fun _ _ => rfl
    | zero =>
      dsimp only
      split
      case isTrue => exact .inl fun _ _ => rfl
      case isFalse =>
        split
        case isTrue =>
          obtain hsame | ⟨next, parser, hparse⟩ := parseNamedArgument_next l.parser argStr
          · apply Or.inl
            intro next next'
            rw [hsame next next']
          · exact .inr ⟨next, by rw [hparse]⟩
        case isFalse => exact .inl fun _ _ => rfl

/-- No token that stands behind these is taken as the value of the last of them. -/
def Loop.Closed (l : Loop) (tokens : List Token) : Prop :=
  ∀ behind : Token, (l.rounds tokens (some behind)).nextArgOffset = 0

private theorem Loop.Closed.rounds_eq {tokens : List Token} (h : l.Closed tokens)
    (behind behind' : Token) :
    l.rounds tokens (some behind) = l.rounds tokens (some behind') := by
  induction tokens generalizing l with
  | nil => rfl
  | cons argStr rest ih =>
    cases rest with
    | nil =>
      obtain hsame | ⟨next, hnext⟩ := round_next l argStr
      · exact hsame behind behind'
      · have hzero : (l.round argStr (some next)).nextArgOffset = 0 := h next
        omega
    | cons next rest => exact ih h

private theorem round_registers (h : Registers l.parser declared) (argStr : Token)
    (next : Option Token) :
    Registers (l.round argStr next).parser declared := by
  unfold Loop.round
  split
  case isTrue => exact h
  case isFalse =>
    cases l.nextArgOffset with
    | succ offset => exact h
    | zero =>
      dsimp only
      split
      case isTrue => exact h
      case isFalse =>
        split
        case isTrue =>
          obtain ⟨code, hparsed, -⟩ | ⟨i, d, value, offset, parser', -, -, -, hparsed, hstores⟩ :=
            h.parseNamedArgument argStr next
          · rw [hparsed]
            exact h
          · rw [hparsed]
            exact hstores.registers
        case isFalse =>
          obtain ⟨code, hparsed, -⟩ | ⟨d, i, parser', -, -, -, hparsed, hstores⟩ :=
            h.parsePositionalArgument argStr l.posIndex
          · rw [hparsed]
            exact h
          · rw [hparsed]
            exact hstores.registers

private theorem rounds_registers (h : Registers l.parser declared) (tokens : List Token)
    (behind : Option Token) : Registers (l.rounds tokens behind).parser declared := by
  induction tokens generalizing l with
  | nil => exact h
  | cons argStr rest ih => exact ih (round_registers h argStr _)

private theorem Spelling.exists_head (spelling : Spelling) (d : Declaration) (value : Token) :
    ∃ argStr rest, spelling.tokens d value = argStr :: rest := by
  cases spelling <;> exact ⟨_, _, rfl⟩

private theorem rounds_spelling (hs : Plain declared) (hnames : NamesDistinct declared)
    (h : Registers l.parser declared) (hd : declared[i]? = some d) (haction : d.action = .store)
    (hshort : d.shortName ≠ cliNoShortName) (value : Token) {before : List Token}
    (hclosed : l.Closed before) (after : List Token) (spelling spelling' : Spelling) :
    l.rounds (before ++ (spelling.tokens d value ++ after)) none =
      l.rounds (before ++ (spelling'.tokens d value ++ after)) none := by
  obtain ⟨argStr, rest, htokens⟩ := spelling.exists_head d value
  obtain ⟨argStr', rest', htokens'⟩ := spelling'.exists_head d value
  have hbefore := hclosed.rounds_eq argStr argStr'
  have hoffset := hclosed argStr'
  have hregisters := rounds_registers h before (some argStr')
  rw [rounds_append, rounds_append l, htokens, htokens']
  simp only [List.cons_append, List.head?_cons, Option.some_or]
  rw [hbefore, ← List.cons_append, ← List.cons_append, ← htokens, ← htokens']
  generalize l.rounds before (some argStr') = l' at hoffset hregisters ⊢
  by_cases hrefusal : l'.refusal = none
  · have hready : l'.Ready := ⟨hrefusal, hoffset⟩
    rw [rounds_append, rounds_append l', spelling.rounds hs hnames hregisters hready hd haction hshort,
      spelling'.rounds hs hnames hregisters hready hd haction hshort]
  · have hsome : l'.refusal.isSome := Option.isSome_iff_ne_none.mpr hrefusal
    rw [rounds_refused hsome, rounds_refused hsome]

/-- The functions that read an argument look it up and compare its type. -/
def cliParserArgGet (type : CLIArgType) (parser : CLIParser) (name : List UInt8) : Option CLIArg :=
  ((hashmapGet parser.argsMap (mapKey name)).bind (parser.args[·]?)).filter (·.type == type)

def cliParserArgGetI64 (parser : CLIParser) (name : List UInt8) : Option CLIData :=
  (cliParserArgGet .int parser name).map CLIArg.data

def cliParserArgGetF64 (parser : CLIParser) (name : List UInt8) : Option CLIData :=
  (cliParserArgGet .float parser name).map CLIArg.data

/-- With the size that is written to `str_sz`. -/
def cliParserArgGetStr (parser : CLIParser) (name : List UInt8) : Option (CLIData × ℕ) :=
  (cliParserArgGet .str parser name).map fun arg => (arg.data, arg.dataSz)

def cliParserArgGetBool (parser : CLIParser) (name : List UInt8) : Option CLIData :=
  (cliParserArgGet .bool parser name).map CLIArg.data

/-- Neither the result nor what the getters give tells two calls apart. -/
structure SameToCaller (left left' : Option Refusal × CLIParser) : Prop where
  result : left.1 = left'.1
  i64 : ∀ name, cliParserArgGetI64 left.2 name = cliParserArgGetI64 left'.2 name
  f64 : ∀ name, cliParserArgGetF64 left.2 name = cliParserArgGetF64 left'.2 name
  str : ∀ name, cliParserArgGetStr left.2 name = cliParserArgGetStr left'.2 name
  bool : ∀ name, cliParserArgGetBool left.2 name = cliParserArgGetBool left'.2 name

/-- A command line with an argument in one of its spellings. -/
def commandLine (program : Token) (before after : List Token) (d : Declaration) (value : Token)
    (spelling : Spelling) : List Token :=
  program :: (before ++ (spelling.tokens d value ++ after))

private theorem leaves_commandLine (parser : CLIParser) (program : Token)
    (before after : List Token)
    (d : Declaration) (value : Token) (spelling : Spelling) :
    cliParserParseLeaves parser (commandLine program before after d value spelling) =
      let l := Loop.rounds ⟨parser, 0, 0, none⟩ (before ++ (spelling.tokens d value ++ after)) none
      (l.outcome, l.parser) := by
  obtain ⟨argStr, rest, htokens⟩ := spelling.exists_head d value
  exact leaves_eq (by simp [commandLine, htokens])

/-- All spellings come to the same, unless the argument in front takes the first token of the
spelling as its own value. -/
theorem cliParserParse_spelling (calls : List Declaration) (hs : Plain (registered calls))
    (hnames : NamesDistinct (registered calls)) (hd : d ∈ registered calls)
    (haction : d.action = .store) (hshort : d.shortName ≠ cliNoShortName)
    (program value : Token) (before after : List Token)
    (hclosed : Loop.Closed ⟨register calls, 0, 0, none⟩ before) (spelling spelling' : Spelling) :
    SameToCaller
      (cliParserParseLeaves (register calls)
        (commandLine program before after d value spelling))
      (cliParserParseLeaves (register calls)
        (commandLine program before after d value spelling')) := by
  obtain ⟨i, hi⟩ := List.mem_iff_getElem?.mp hd
  have hrounds := rounds_spelling (l := ⟨register calls, 0, 0, none⟩) hs hnames
    (registers_register calls) hi haction hshort value hclosed after spelling spelling'
  rw [leaves_commandLine, leaves_commandLine, hrounds]
  exact ⟨rfl, fun _ => rfl, fun _ => rfl, fun _ => rfl, fun _ => rfl⟩

/-- `--other`, `-o` and `--name`, `-s`. -/
def texts : List Declaration :=
  [⟨ascii "other", 111, .optional, .str, .store⟩, ⟨ascii "name", 115, .optional, .str, .store⟩]

private theorem plain_texts : Plain texts where
  name := by
    intro d hd
    simp only [texts, List.mem_cons, List.not_mem_nil, or_false] at hd
    obtain rfl | rfl := hd <;>
      exact ⟨by decide, by simp [ascii, inName], by decide, by decide⟩
  shortNames := by decide
  shortName := by
    intro d hd
    simp only [texts, List.mem_cons, List.not_mem_nil, or_false] at hd
    obtain rfl | rfl := hd <;> decide

theorem cliParserParse_spelling_texts :
    SameToCaller
      (cliParserParseLeaves (register texts)
        (commandLine (ascii "prog") [ascii "-o", ascii "w"] [] texts[1] (ascii "v") .nameNext))
      (cliParserParseLeaves (register texts)
        (commandLine (ascii "prog") [ascii "-o", ascii "w"] [] texts[1] (ascii "v") .shortColon)) :=
  cliParserParse_spelling texts plain_texts (by decide) (by decide) rfl (by decide) (ascii "prog")
    (ascii "v") [ascii "-o", ascii "w"] [] (fun behind => rfl) .nameNext .shortColon

section LongNames

variable {name name' : List UInt8}

/-- `-x` and `-y` with these names. -/
def named (name name' : List UInt8) : List Declaration :=
  [⟨name, 120, .optional, .str, .store⟩, ⟨name', 121, .optional, .str, .store⟩]

private theorem plain_named (hname : PlainName name) (hname' : PlainName name') :
    Plain (named name name') where
  name := by
    intro d hd
    simp only [named, List.mem_cons, List.not_mem_nil, or_false] at hd
    obtain rfl | rfl := hd
    · exact hname
    · exact hname'
  shortNames := by simp [named]
  shortName := by
    intro d hd
    simp only [named, List.mem_cons, List.not_mem_nil, or_false] at hd
    obtain rfl | rfl := hd
    · exact (by decide : (120 : UInt8) ≠ 104 ∧ (120 : UInt8) ≠ dash ∧ inName 120 = true)
    · exact (by decide : (121 : UInt8) ≠ 104 ∧ (121 : UInt8) ≠ dash ∧ inName 121 = true)

private theorem register_named (hkey : mapKey name = mapKey name') :
    register (named name name') =
      ⟨(named name name').map (⟨·, .i64 0, 0⟩), [(mapKey name, 0)], [([120], 0), ([121], 1)], []⟩ := by
  simp [register, named, cliParserInit, cliParserAddArg, hashmapInsert, hashmapGet, hkey,
    cliNoShortName, Except.toOption]

private theorem not_sameToCaller_of_mapKey (hkey : mapKey name = mapKey name')
    (hname : PlainName name)
    (hname' : PlainName name') :
    ¬SameToCaller
      (cliParserParseLeaves (register (named name name'))
        (commandLine (ascii "prog") [] [] ⟨name', 121, .optional, .str, .store⟩ (ascii "v")
          .nameEquals))
      (cliParserParseLeaves (register (named name name'))
        (commandLine (ascii "prog") [] [] ⟨name', 121, .optional, .str, .store⟩ (ascii "v")
          .shortEquals)) := by
  intro hsame
  have hregister := register_named hkey
  have hlong : (Loop.mk (register (named name name')) 0 0 none).rounds
      (Spelling.nameEquals.tokens ⟨name', 121, .optional, .str, .store⟩ (ascii "v")) none = _ :=
    rounds_equals (i := 0) ⟨rfl, rfl⟩ (hname'.leads (by rw [hregister]; simp [hashmapGet, hkey])
      (by rw [hregister]; rfl) (endsName_equals _)) rfl
  have hshort : (Loop.mk (register (named name name')) 0 0 none).rounds
      (Spelling.shortEquals.tokens ⟨name', 121, .optional, .str, .store⟩ (ascii "v")) none = _ :=
    rounds_equals (i := 1) ⟨rfl, rfl⟩ ((plain_named hname hname').leads_shortName
      (registers_register _) rfl (by decide : (121 : UInt8) ≠ 0)
      (by rw [hregister]; rfl) (endsName_equals _)) rfl
  have hstr := hsame.str name
  rw [leaves_commandLine, leaves_commandLine, List.nil_append, List.append_nil, List.nil_append,
    List.append_nil, hlong, hshort] at hstr
  simp only [Loop.give, hregister, cliParserArgGetStr, cliParserArgGet, hashmapGet,
    CLIParser.put] at hstr
  simp [named, CLIArg.storeValue, cliParserValidateArgumentType, ascii, Option.filter] at hstr

private theorem plain_replicate {n : ℕ} {c : UInt8} (hn : 4 < n) (hin : inName c = true)
    (hdash : c ≠ dash) : PlainName (List.replicate n c) where
  ne_nil := List.ne_nil_of_length_pos (by rw [List.length_replicate]; omega)
  chars := by
    intro c' hc'
    rw [List.eq_of_mem_replicate hc']
    exact hin
  head := by
    rw [List.head?_replicate, if_neg (by omega)]
    exact fun heq => hdash (Option.some.inj heq)
  help := by
    intro heq
    have hlength := congrArg List.length heq
    rw [List.length_replicate] at hlength
    exact absurd hlength (Nat.ne_of_gt hn)

private theorem mapKey_replicate (k : ℕ) (c : UInt8) :
    mapKey (List.replicate (2 ^ 32 * k) c) = [] := by
  rw [mapKey, List.length_replicate, Nat.mul_mod_right, List.take_zero]

end LongNames

/-- Behind `--other` the spelling itself is the value. Names of `2 ^ 32` bytes are one for
the map. -/
theorem cliParserParse_not_spelling :
    (Plain texts ∧ NamesDistinct texts ∧ registered texts = texts ∧
      ¬SameToCaller
        (cliParserParseLeaves (register texts)
          (commandLine (ascii "prog") [ascii "--other"] [] texts[1] (ascii "v") .nameEquals))
        (cliParserParseLeaves (register texts)
          (commandLine (ascii "prog") [ascii "--other"] [] texts[1] (ascii "v") .shortEquals))) ∧
    ∃ name name' : List UInt8, name ≠ name' ∧ Plain (named name name') ∧
      registered (named name name') = named name name' ∧
      ¬SameToCaller
        (cliParserParseLeaves (register (named name name'))
          (commandLine (ascii "prog") [] [] ⟨name', 121, .optional, .str, .store⟩ (ascii "v")
            .nameEquals))
        (cliParserParseLeaves (register (named name name'))
          (commandLine (ascii "prog") [] [] ⟨name', 121, .optional, .str, .store⟩ (ascii "v")
            .shortEquals)) := by
  refine ⟨⟨plain_texts, by decide, by decide, ?_⟩,
    List.replicate (2 ^ 32 * 1) 97, List.replicate (2 ^ 32 * 1) 98, ?_⟩
  · intro hsame
    exact absurd (hsame.str (ascii "other")) (by decide)
  · have hname := plain_replicate (n := 2 ^ 32 * 1) (c := 97) (by omega) rfl (by decide)
    have hname' := plain_replicate (n := 2 ^ 32 * 1) (c := 98) (by omega) rfl (by decide)
    have hkey := (mapKey_replicate 1 97).trans (mapKey_replicate 1 98).symm
    refine ⟨?_, plain_named hname hname', rfl, not_sameToCaller_of_mapKey hkey hname hname'⟩
    intro heq
    obtain hzero | heq := List.replicate_inj.mp heq |>.2
    · omega
    · exact absurd heq (by decide)

end Libromano.Cli
