/- What a command line says, as opposed to what the parser does with it, and what a single token
   changes in the parser. -/

import Libromano.Cli.Registration

set_option autoImplicit false
set_option relaxedAutoImplicit false

namespace Libromano.Cli

/-- An argument that is given, with the value it takes, or a value of a positional
argument. -/
inductive Use
  | named (i : ℕ) (value : Option Token)
  | positional (value : Token)
  deriving DecidableEq

def Declaration.isNamedBy (d : Declaration) (token : Token) : Bool :=
  if numDashes token = 1 then d.hasShortName (mapKey ((undashed token).takeWhile inName))
  else d.hasName (mapKey ((undashed token).takeWhile inName))

def namedBy (declared : List Declaration) (token : Token) : Option ℕ :=
  if undashed token = [] then none else declared.findIdx? (·.isNamedBy token)

def valueIn (token : Token) : Option Token :=
  if (undashed token).dropWhile inName = [] then none
  else some ((undashed token).dropWhile inName).tail

abbrev Takes := CLIArgAction → Bool

def onlyStore : Takes := (· == .store)

/-- `CLIArgAction_Append` has no case of its own. -/
def storeOrAppend : Takes := fun action => action == .store || action == .append

/-- A token with dashes, and how many of the tokens behind it are its value. -/
def readNamed (takes : Takes) (declared : List Declaration) (token : Token) (next : Option Token) :
    Option (Use × ℕ) := do
  let i ← namedBy declared token
  let d ← declared[i]?
  if takes d.action then
    let (value, offset) ← ((valueIn token).map (·, 0)).or (next.map (·, 1))
    if value ≠ [] then some (.named i (some value), offset) else none
  else some (.named i none, 0)

/-- The tokens behind the next `offset` ones, which are values. -/
def readTokens (takes : Takes) (declared : List Declaration) : ℕ → List Token → Option (List Use)
  | _, [] => some []
  | offset + 1, _ :: rest => readTokens takes declared offset rest
  | 0, token :: rest =>
    if token.head? = some dash then do
      let (use, offset) ← readNamed takes declared token rest.head?
      return use :: (← readTokens takes declared offset rest)
    else do
      return .positional token :: (← readTokens takes declared 0 rest)

section Reads

variable {takes : Takes} {declared : List Declaration} {token : Token} {rest : List Token} {use : Use}
  {offset : ℕ}

theorem readTokens_unread (hdash : token.head? = some dash)
    (hread : readNamed takes declared token rest.head? = none) :
    readTokens takes declared 0 (token :: rest) = none := by
  rw [readTokens, if_pos hdash, hread]
  rfl

theorem readTokens_named (hdash : token.head? = some dash)
    (hread : readNamed takes declared token rest.head? = some (use, offset)) :
    readTokens takes declared 0 (token :: rest) =
      (readTokens takes declared offset rest).map (use :: ·) := by
  rw [readTokens, if_pos hdash, hread]
  cases hrest : readTokens takes declared offset rest <;> simp [hrest]

theorem readTokens_positional (hdash : token.head? ≠ some dash) :
    readTokens takes declared 0 (token :: rest) =
      (readTokens takes declared 0 rest).map (.positional token :: ·) := by
  rw [readTokens, if_neg hdash]
  cases readTokens takes declared 0 rest <;> rfl

end Reads

def Use.positional? : Use → Option Token
  | .named _ _ => none
  | .positional value => some value

def positionalValues (uses : List Use) : List Token := uses.filterMap Use.positional?

abbrev Test := CLIArgType → Token → Prop

def passes : Test := fun type value => cliParserValidateArgumentType type value = true

def Use.Suits (test : Test) (declared : List Declaration) : Use → Prop
  | .named i (some value) => ∀ d, declared[i]? = some d → test d.type value
  | .named _ none => True
  | .positional _ => True

def AllNamedGiven (declared : List Declaration) (uses : List Use) : Prop :=
  ∀ i d, declared[i]? = some d → d.mode = .named → ∃ value, Use.named i value ∈ uses

def lastValue (i : ℕ) : List Use → Option (Option Token)
  | [] => none
  | .named j value :: uses => (lastValue i uses).or (if j = i then some value else none)
  | .positional _ :: uses => lastValue i uses

def valueSize (type : CLIArgType) (value : Token) : ℕ :=
  match type with
  | .str => (unquote value).length
  | .int | .float => 8
  | .bool => 1

/-- The `data_sz` of an argument that was given. -/
def storedSize (d : Declaration) (value : Option Token) : ℕ :=
  match d.action with
  | .storeTrue | .storeFalse => 1
  | .count => 8
  | .store | .append => valueSize d.type (value.getD [])

variable {parser parser' : CLIParser} {declared : List Declaration} {d : Declaration} {i : ℕ}

@[simp] theorem storeValue_toDeclaration (arg : CLIArg) (value : Token) :
    (arg.storeValue value).toDeclaration = arg.toDeclaration := by
  unfold CLIArg.storeValue
  split <;> rfl

@[simp] theorem storeValue_dataSz (arg : CLIArg) (value : Token) :
    (arg.storeValue value).dataSz = valueSize arg.type value := by
  unfold CLIArg.storeValue valueSize
  split <;> simp_all

def sizeAt (parser : CLIParser) (i : ℕ) : Option ℕ := parser.args[i]?.map CLIArg.dataSz

structure Stores (parser parser' : CLIParser) (declared : List Declaration) (i size : ℕ) :
    Prop where
  registers : Registers parser' declared
  size : sizeAt parser' i = some size
  others : ∀ j, j ≠ i → sizeAt parser' j = sizeAt parser j

private theorem Registers.put_stores (h : Registers parser declared) (hd : declared[i]? = some d)
    {change : CLIArg → CLIArg} {size : ℕ}
    (hchange : ∀ arg, (change arg).toDeclaration = arg.toDeclaration)
    (hsize : ∀ arg, arg.toDeclaration = d → (change arg).dataSz = size) :
    Stores parser (parser.put i change) declared i size := by
  obtain ⟨arg, harg, hdecl⟩ := h.exists_arg hd
  refine ⟨h.put i hchange, ?_, ?_⟩
  · simp [sizeAt, CLIParser.put, harg, hsize arg hdecl]
  · intro j hj
    simp [sizeAt, CLIParser.put, List.getElem?_modify_ne _ _ hj.symm]

private theorem Registers.findArg (h : Registers parser declared) (token : Token) :
    cliParserFindArg parser token =
      (namedBy declared token).bind fun i => parser.args[i]?.map (i, ·) := by
  unfold cliParserFindArg namedBy
  by_cases hempty : undashed token = []
  · simp [hempty]
  · by_cases hdash : numDashes token = 1
    · simp [hempty, hdash, h.shortNamesMap, Declaration.isNamedBy]
    · simp [hempty, hdash, h.argsMap, Declaration.isNamedBy]

/-- What reading a token with dashes and parsing it come to, when they fit. -/
def NamedAgree (parser : CLIParser) (declared : List Declaration) (read : Option (Use × ℕ))
    (parsed : Except ErrorCode (CLIParser × ℕ)) : Prop :=
  (∃ code, parsed = .error code ∧
    ∀ use offset, read = some (use, offset) → ¬use.Suits passes declared) ∨
  ∃ i d value offset parser', declared[i]? = some d ∧ read = some (.named i value, offset) ∧
    (Use.named i value).Suits passes declared ∧ parsed = .ok (parser', offset) ∧
    Stores parser parser' declared i (storedSize d value)

private theorem NamedAgree.unread {read : Option (Use × ℕ)} {code : ErrorCode}
    (hread : read = none) :
    NamedAgree parser declared read (.error code) := by
  refine .inl ⟨code, rfl, fun use offset hsome => ?_⟩
  cases hread.symm.trans hsome

private theorem Registers.value_agree (h : Registers parser declared) (hd : declared[i]? = some d)
    (haction : d.action = .store ∨ d.action = .append) (value : Token) (offset : ℕ) :
    NamedAgree parser declared
      (if value ≠ [] then some (.named i (some value), offset) else none)
      (if value = [] then .error .cliMalformedArgument
      else if !cliParserValidateArgumentType d.type value then .error .cliInvalidArgumentType
      else .ok (parser.put i (·.storeValue value), offset)) := by
  by_cases hvalue : value = []
  · rw [if_pos hvalue]
    exact .unread (if_neg (not_not.mpr hvalue))
  rw [if_neg hvalue, if_pos hvalue]
  by_cases htype : cliParserValidateArgumentType d.type value = true
  · rw [htype]
    have hsuits : (Use.named i (some value)).Suits passes declared := by
      intro d' hd'
      cases hd.symm.trans hd'
      exact htype
    refine .inr ⟨i, d, some value, offset, parser.put i (·.storeValue value), hd, rfl, hsuits, rfl,
      h.put_stores hd (fun arg => storeValue_toDeclaration arg value) ?_⟩
    rintro arg rfl
    rw [storeValue_dataSz, storedSize]
    obtain haction | haction := haction <;> simp [haction]
  · rw [Bool.not_eq_true] at htype
    rw [htype]
    refine .inl ⟨.cliInvalidArgumentType, rfl, ?_⟩
    rintro use offset' ⟨⟩ hsuits
    exact Bool.false_ne_true (htype.symm.trans (hsuits d hd))

theorem Registers.parseNamedArgument (h : Registers parser declared) (token : Token)
    (next : Option Token) :
    NamedAgree parser declared (readNamed storeOrAppend declared token next)
      (cliParserParseNamedArgument parser token next) := by
  have hfind := h.findArg token
  by_cases hempty : undashed token = []
  · rw [cliParserParseNamedArgument, if_pos hempty]
    exact .unread (by simp [readNamed, namedBy, hempty])
  rw [cliParserParseNamedArgument, if_neg hempty, hfind, readNamed]
  cases hnamed : namedBy declared token with
  | none => exact .unread rfl
  | some i =>
    cases hd : declared[i]? with
    | none =>
      have harg : parser.args[i]? = none := by
        rw [List.getElem?_eq_none_iff, h.length]
        exact List.getElem?_eq_none_iff.mp hd
      simp only [Option.bind_some, harg, Option.map_none]
      exact .unread (by simp [hd])
    | some d =>
      obtain ⟨arg, harg, rfl⟩ := h.exists_arg hd
      simp only [Option.bind_eq_bind, Option.bind_some, hd, harg, Option.map_some]
      cases haction : arg.action with
      | storeTrue | storeFalse | count =>
        exact .inr ⟨i, _, none, 0, _, hd, by simp [storeOrAppend], trivial, rfl, h.put_stores hd
          (fun arg => rfl) fun arg' hdecl => by simp [storedSize, haction]⟩
      | store | append =>
        have hagree := h.value_agree hd (by simp [haction])
        by_cases hvalue : (undashed token).dropWhile inName = []
        · cases next with
          | none => simpa [storeOrAppend, valueIn, hvalue] using NamedAgree.unread rfl
          | some next => simpa [storeOrAppend, valueIn, hvalue] using hagree next 1
        · simpa [storeOrAppend, valueIn, hvalue] using
            hagree ((undashed token).dropWhile inName).tail 0

theorem Registers.parsePositionalArgument (h : Registers parser declared) (token : Token)
    (pos : ℕ) :
    (∃ code, cliParserParsePositionalArgument parser token pos = .error code ∧
      ∀ d, (positionals declared)[pos]? = some d → ¬passes d.type token) ∨
    ∃ d i parser', (positionals declared)[pos]? = some d ∧ passes d.type token ∧
      declared[i]? = some d ∧ cliParserParsePositionalArgument parser token pos = .ok parser' ∧
      Stores parser parser' declared i (valueSize d.type token) := by
  have hget := h.positionalArgs_getElem? pos
  unfold cliParserParsePositionalArgument
  cases hpos : parser.positionalArgs[pos]? with
  | none =>
    rw [hpos] at hget
    refine .inl ⟨_, rfl, ?_⟩
    intro d hd
    rw [hd] at hget
    cases hget
  | some i =>
    rw [hpos] at hget
    obtain ⟨d, hd, hi⟩ := Option.map_eq_some_iff.mp hget.symm
    obtain ⟨arg, harg, rfl⟩ := h.exists_arg hi.symm
    simp only [harg]
    by_cases htype : cliParserValidateArgumentType arg.type token = true
    · refine .inr ⟨_, i, parser.put i (·.storeValue token), hd, htype, hi.symm, by simp [htype],
        h.put_stores hi.symm (fun arg => storeValue_toDeclaration arg token) ?_⟩
      intro arg' hdecl
      rw [storeValue_dataSz, hdecl]
    · refine .inl ⟨.cliInvalidArgumentType, by simp [htype], ?_⟩
      intro d' hd'
      cases hd.symm.trans hd'
      exact htype

end Libromano.Cli
