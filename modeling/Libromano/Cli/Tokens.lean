/- What a token means to an argument of a type, and what it is taken for. The type of a token is
   told from its first byte. -/

import Libromano.Cli.Spellings
import Libromano.Foundation.Decimal
import Mathlib.Data.List.TakeWhile

set_option autoImplicit false
set_option relaxedAutoImplicit false

namespace Libromano.Cli

open Bytes
open Foundation.Decimal (readOn)

/-- The whole text is a decimal integer of 64 bits, with a sign or without one. -/
def Numeral (v : Token) (n : ℤ) : Prop :=
  (-2 ^ 63 ≤ n ∧ n < 2 ^ 63) ∧ ∃ digits : List UInt8, digits ≠ [] ∧ (∀ c ∈ digits, isdigit c = true) ∧
    ((v = digits ∨ v = 43 :: digits) ∧ n = readOn 0 digits ∨ v = 45 :: digits ∧ n = -readOn 0 digits)

/-- The truth value that a text is the name of. -/
def truthValue (v : Token) : Option Bool :=
  if v = ascii "1" ∨ v = ascii "true" ∨ v = ascii "True" then some true
  else if v = ascii "0" ∨ v = ascii "false" ∨ v = ascii "False" then some false
  else none

section Meanings

variable {v digits : Token} {n : ℤ} {b : Bool}

private theorem foldl_digits (hdigits : ∀ c ∈ digits, isdigit c = true) (k : ℕ) :
    digits.foldl (fun (n : ℤ) c => n * 10 + (c.toNat - 48)) k = readOn k digits := by
  induction digits generalizing k with
  | nil => rfl
  | cons c digits ih =>
    obtain ⟨hc, hrest⟩ := List.forall_mem_cons.mp hdigits
    have hle : 48 ≤ c.toNat := by
      simp only [isdigit, Bool.and_eq_true, decide_eq_true_eq, UInt8.le_iff_toNat_le] at hc
      exact hc.1
    rw [List.foldl_cons, readOn, List.foldl_cons, ← readOn, ← ih hrest]
    push_cast [hle]
    rfl

private theorem takeWhile_digits (hdigits : ∀ c ∈ digits, isdigit c = true) :
    digits.takeWhile isdigit = digits := List.takeWhile_eq_self_iff.mpr hdigits

private theorem isdigit_cases {c : UInt8} (hc : isdigit c = true) :
    isspace c = false ∧ c ≠ 45 ∧ c ≠ 43 := by
  simp only [isdigit, Bool.and_eq_true, decide_eq_true_eq, UInt8.le_iff_toNat_le] at hc
  have hlow : 48 ≤ c.toNat := hc.1
  refine ⟨?_, ?_, ?_⟩
  · simp only [isspace, Bool.or_eq_false_iff, Bool.and_eq_false_iff, beq_eq_false_iff_ne,
      decide_eq_false_iff_not, UInt8.le_iff_toNat_le]
    refine ⟨?_, .inr ?_⟩
    · rintro rfl
      exact absurd hlow (by decide)
    · have htab : (13 : UInt8).toNat = 13 := rfl
      omega
  · rintro rfl
    exact absurd hlow (by decide)
  · rintro rfl
    exact absurd hlow (by decide)

private theorem strtoll_numeral (h : Numeral v n) : strtoll v = n := by
  obtain ⟨⟨hmin, hmax⟩, digits, hne, hdigits, h⟩ := h
  have hvalue := foldl_digits hdigits 0
  rw [Nat.cast_zero] at hvalue
  have hall := takeWhile_digits hdigits
  have hplus : isspace 43 = false := by decide
  have hminus : isspace 45 = false := by decide
  rcases h with ⟨rfl | rfl, rfl⟩ | ⟨rfl, rfl⟩
  · obtain ⟨c, rest, rfl⟩ := List.exists_cons_of_ne_nil hne
    obtain ⟨hspace, h45, h43⟩ := isdigit_cases (hdigits c List.mem_cons_self)
    have hlead : (c :: rest).dropWhile isspace = c :: rest := by
      rw [List.dropWhile_cons, hspace, if_neg Bool.false_ne_true]
    simp only [strtoll, hlead, List.head?_cons, Option.some.injEq, h45, h43, or_self, if_false, hall]
    rw [hvalue]
    exact min_eq_right (by omega)
  · simp only [strtoll, List.dropWhile_cons, hplus, Bool.false_eq_true, if_false, List.head?_cons,
      or_true, if_true, List.tail_cons, hall]
    rw [if_neg (by decide), hvalue]
    exact min_eq_right (by omega)
  · simp only [strtoll, List.dropWhile_cons, hminus, Bool.false_eq_true, if_false, List.head?_cons,
      true_or, if_true, List.tail_cons, hall]
    rw [hvalue]
    exact max_eq_right (by omega)

theorem Numeral.validated (h : Numeral v n) : cliParserValidateArgumentType .int v = true := by
  obtain ⟨-, digits, hne, hdigits, h⟩ := h
  obtain ⟨c, rest, rfl⟩ := List.exists_cons_of_ne_nil hne
  have hc := hdigits c List.mem_cons_self
  rcases h with ⟨rfl | rfl, -⟩ | ⟨rfl, -⟩ <;> simp [cliParserValidateArgumentType, hc]

theorem Numeral.isdigit_of_mem_tail (h : Numeral v n) (c : UInt8) (hc : c ∈ v.tail) :
    isdigit c = true := by
  obtain ⟨-, digits, -, hdigits, h⟩ := h
  rcases h with ⟨rfl | rfl, -⟩ | ⟨rfl, -⟩
  · exact hdigits c (List.mem_of_mem_tail hc)
  · exact hdigits c hc
  · exact hdigits c hc

private theorem Numeral.ne_nil (h : Numeral v n) : v ≠ [] := by
  rintro rfl
  exact absurd h.validated (by decide)

private theorem truthValue_cases (h : truthValue v = some b) :
    b = true ∧ (v = ascii "1" ∨ v = ascii "true" ∨ v = ascii "True") ∨
      b = false ∧ (v = ascii "0" ∨ v = ascii "false" ∨ v = ascii "False") := by
  rw [truthValue] at h
  split_ifs at h with htrue hfalse
  · exact .inl ⟨(Option.some.inj h).symm, htrue⟩
  · exact .inr ⟨(Option.some.inj h).symm, hfalse⟩

private theorem truthValue_stored {arg : CLIArg} (hbool : arg.type = .bool)
    (h : truthValue v = some b) :
    cliParserValidateArgumentType .bool v = true ∧ v ≠ [] ∧ (arg.storeValue v).data = .b b := by
  have hstore : (arg.storeValue v).data =
      .b (if isdigit (v.headD 0) then v.headD 0 != 48 else cliParserParseBool v) := by
    rw [CLIArg.storeValue, hbool]
  rw [hstore]
  rcases truthValue_cases h with ⟨rfl, rfl | rfl | rfl⟩ | ⟨rfl, rfl | rfl | rfl⟩
  all_goals exact ⟨by decide, by decide, by decide⟩

theorem validated_bool_iff : cliParserValidateArgumentType .bool v = true ↔
    (truthValue v).isSome = true ∨ v.headD 0 = 48 ∨ v.headD 0 = 49 := by
  constructor
  · intro hvalid
    simp only [cliParserValidateArgumentType, Bool.or_eq_true, beq_iff_eq] at hvalid
    by_contra hnot
    rw [not_or, not_or, truthValue] at hnot
    obtain ⟨hnone, hzero, hone⟩ := hnot
    split_ifs at hnone with htrue hfalse
    · exact hnone rfl
    · exact hnone rfl
    · tauto
  · rintro (hsome | hzero | hone)
    · obtain ⟨b, hb⟩ := Option.isSome_iff_exists.mp hsome
      have hbool : (⟨⟨[], 0, .named, .bool, .store⟩, .i64 0, 0⟩ : CLIArg).type = .bool := rfl
      exact (truthValue_stored hbool hb).1
    · simp only [cliParserValidateArgumentType, hzero]
      rfl
    · simp only [cliParserValidateArgumentType, hone]
      rfl

end Meanings

/-- A value is given to the argument at `i`, which ends in a parser or an error. -/
inductive Given (parser : CLIParser) (i : ℕ) (arg : CLIArg) (v : Token) :
    Except ErrorCode CLIParser → Prop
  | inside (argStr : Token) (nextArg : Option Token) (c : UInt8) (hnamed : undashed argStr ≠ [])
      (hfound : cliParserFindArg parser argStr = some (i, arg))
      (htakes : arg.action = .store ∨ arg.action = .append)
      (hvalue : (undashed argStr).dropWhile inName = c :: v) :
      Given parser i arg v ((cliParserParseNamedArgument parser argStr nextArg).map Prod.fst)
  | next (argStr : Token) (hnamed : undashed argStr ≠ [])
      (hfound : cliParserFindArg parser argStr = some (i, arg))
      (htakes : arg.action = .store ∨ arg.action = .append)
      (hvalue : (undashed argStr).dropWhile inName = []) :
      Given parser i arg v ((cliParserParseNamedArgument parser argStr (some v)).map Prod.fst)
  | positional (posIndex : ℕ) (hposition : parser.positionalArgs[posIndex]? = some i)
      (hfound : parser.args[i]? = some arg) :
      Given parser i arg v (cliParserParsePositionalArgument parser v posIndex)

section Giving

variable {parser parser' : CLIParser} {i : ℕ} {arg : CLIArg} {v : Token}
  {argStr : Token} {result : Except ErrorCode CLIParser} {name : List UInt8}

private theorem findArg_object (h : cliParserFindArg parser argStr = some (i, arg)) :
    parser.args[i]? = some arg := by
  rw [cliParserFindArg] at h
  split_ifs at h
  all_goals
    obtain ⟨j, -, hj⟩ := Option.bind_eq_some_iff.mp h
    obtain ⟨arg', harg, hpair⟩ := Option.map_eq_some_iff.mp hj
    cases hpair
    exact harg

private theorem Given.object (h : Given parser i arg v result) : parser.args[i]? = some arg := by
  cases h with
  | inside argStr nextArg c hnamed hfound htakes hvalue => exact findArg_object hfound
  | next argStr hnamed hfound htakes hvalue => exact findArg_object hfound
  | positional posIndex hposition hfound => exact hfound

private theorem Given.accepted (h : Given parser i arg v result) (hne : v ≠ [])
    (hvalid : cliParserValidateArgumentType arg.type v = true) :
    result = .ok (parser.put i (·.storeValue v)) := by
  cases h with
  | inside argStr nextArg c hnamed hfound htakes hvalue =>
    rw [cliParserParseNamedArgument, if_neg hnamed, hfound, hvalue]
    rcases htakes with haction | haction <;> simp [haction, hne, hvalid, Except.map]
  | next argStr hnamed hfound htakes hvalue =>
    rw [cliParserParseNamedArgument, if_neg hnamed, hfound, hvalue]
    rcases htakes with haction | haction <;> simp [haction, hne, hvalid, Except.map]
  | positional posIndex hposition hfound =>
    simp [cliParserParsePositionalArgument, hposition, hfound, hvalid]

private theorem Given.refused (h : Given parser i arg v result)
    (hinvalid : cliParserValidateArgumentType arg.type v = false) : result.isOk = false := by
  cases h with
  | inside argStr nextArg c hnamed hfound htakes hvalue =>
    rw [cliParserParseNamedArgument, if_neg hnamed, hfound, hvalue]
    rcases htakes with haction | haction <;> by_cases hne : v = [] <;>
      simp [haction, hne, hinvalid, Except.map, Except.isOk, Except.toBool]
  | next argStr hnamed hfound htakes hvalue =>
    rw [cliParserParseNamedArgument, if_neg hnamed, hfound, hvalue]
    rcases htakes with haction | haction <;> by_cases hne : v = [] <;>
      simp [haction, hne, hinvalid, Except.map, Except.isOk, Except.toBool]
  | positional posIndex hposition hfound =>
    simp [cliParserParsePositionalArgument, hposition, hfound, hinvalid, Except.isOk, Except.toBool]

private theorem cliParserArgGet_put (hobject : parser.args[i]? = some arg)
    (hname : hashmapGet parser.argsMap (mapKey name) = some i) :
    (cliParserArgGet arg.type (parser.put i (·.storeValue v)) name).map CLIArg.data =
      some (arg.storeValue v).data := by
  simp [cliParserArgGet, CLIParser.put, hname, hobject]

/-- The values of the type, and only they, are accepted, and the getter gives what they mean. -/
def IntTaken (result : Except ErrorCode CLIParser) (name : List UInt8) (v : Token) : Prop :=
  (result.isOk = true ↔ ∃ n, Numeral v n) ∧
    ∀ n parser', Numeral v n → result = .ok parser' →
      cliParserArgGetI64 parser' name = some (.i64 n)

def BoolTaken (result : Except ErrorCode CLIParser) (name : List UInt8) (v : Token) : Prop :=
  (result.isOk = true ↔ (truthValue v).isSome = true) ∧
    ∀ b parser', truthValue v = some b → result = .ok parser' →
      cliParserArgGetBool parser' name = some (.b b)

private theorem intTaken_iff (h : Given parser i arg v result) (hint : arg.type = .int)
    (hname : hashmapGet parser.argsMap (mapKey name) = some i) : IntTaken result name v ↔
      (∃ n, Numeral v n) ∨ cliParserValidateArgumentType .int v = false := by
  by_cases hnumeral : ∃ n, Numeral v n
  · refine iff_of_true ?_ (.inl hnumeral)
    obtain ⟨n, hn⟩ := hnumeral
    have hvalid := hn.validated
    rw [← hint] at hvalid
    have hresult := h.accepted hn.ne_nil hvalid
    refine ⟨iff_of_true (by rw [hresult]; rfl) ⟨n, hn⟩, fun n' parser' hn' hok => ?_⟩
    cases hresult.symm.trans hok
    have hstored := cliParserArgGet_put (v := v) h.object hname
    rw [hint] at hstored
    rw [cliParserArgGetI64, hstored, CLIArg.storeValue, hint, strtoll_numeral hn']
  · rw [or_iff_right hnumeral]
    by_cases hvalid : cliParserValidateArgumentType .int v = true
    · refine iff_of_false ?_ (by simp [hvalid])
      have hne : v ≠ [] := by
        rintro rfl
        exact absurd hvalid (by decide)
      rintro ⟨haccepts, -⟩
      rw [h.accepted hne (by rwa [hint])] at haccepts
      exact hnumeral (haccepts.mp rfl)
    · rw [Bool.not_eq_true] at hvalid
      refine iff_of_true ⟨?_, fun n parser' hn => absurd ⟨n, hn⟩ hnumeral⟩ hvalid
      rw [h.refused (by rwa [hint])]
      exact iff_of_false Bool.false_ne_true hnumeral

private theorem boolTaken_iff (h : Given parser i arg v result) (hbool : arg.type = .bool)
    (hname : hashmapGet parser.argsMap (mapKey name) = some i) : BoolTaken result name v ↔
      (truthValue v).isSome = true ∨ v.headD 0 ≠ 48 ∧ v.headD 0 ≠ 49 := by
  by_cases htruth : (truthValue v).isSome = true
  · refine iff_of_true ?_ (.inl htruth)
    obtain ⟨b, hb⟩ := Option.isSome_iff_exists.mp htruth
    obtain ⟨hvalid, hne, -⟩ := truthValue_stored hbool hb
    rw [← hbool] at hvalid
    have hresult := h.accepted hne hvalid
    refine ⟨iff_of_true (by rw [hresult]; rfl) htruth, fun b' parser' hb' hok => ?_⟩
    cases hresult.symm.trans hok
    obtain ⟨-, -, hstore⟩ := truthValue_stored hbool hb'
    have hstored := cliParserArgGet_put (v := v) h.object hname
    rw [hbool] at hstored
    rw [cliParserArgGetBool, hstored, hstore]
  · rw [or_iff_right htruth]
    by_cases hvalid : cliParserValidateArgumentType .bool v = true
    · have hhead := (validated_bool_iff.mp hvalid).resolve_left htruth
      refine iff_of_false ?_ fun hnot => hhead.elim hnot.1 hnot.2
      have hne : v ≠ [] := by
        rintro rfl
        exact absurd hvalid (by decide)
      rintro ⟨haccepts, -⟩
      rw [h.accepted hne (by rwa [hbool])] at haccepts
      exact htruth (haccepts.mp rfl)
    · have hhead := mt validated_bool_iff.mpr hvalid
      rw [not_or, not_or] at hhead
      rw [Bool.not_eq_true] at hvalid
      refine iff_of_true ⟨?_, fun b parser' hb => ?_⟩ hhead.2
      · rw [h.refused (by rwa [hbool])]
        exact iff_of_false Bool.false_ne_true htruth
      · exact absurd (Option.isSome_of_eq_some hb) htruth

end Giving

/-- A value is taken as it should be unless a digit or a sign in front gives it away for
another. -/
theorem tokens_taken_iff (parser : CLIParser) (i : ℕ) (arg : CLIArg) (v : Token)
    (result : Except ErrorCode CLIParser) (name : List UInt8) (h : Given parser i arg v result)
    (hname : hashmapGet parser.argsMap (mapKey name) = some i) :
    (arg.type = .int → (IntTaken result name v ↔
      (∃ n, Numeral v n) ∨ isdigit (v.headD 0) = false ∧ v.headD 0 ≠ 45 ∧ v.headD 0 ≠ 43)) ∧
    (arg.type = .bool → (BoolTaken result name v ↔
      (truthValue v).isSome = true ∨ v.headD 0 ≠ 48 ∧ v.headD 0 ≠ 49)) := by
  refine ⟨fun hint => (intTaken_iff h hint hname).trans (or_congr_right ?_),
    fun hbool => boolTaken_iff h hbool hname⟩
  simp only [cliParserValidateArgumentType, Bool.or_eq_false_iff, beq_eq_false_iff_ne, and_assoc]

def countParser : CLIParser := register [⟨ascii "count", cliNoShortName, .positional, .int, .store⟩]

def countArg : CLIArg := ⟨⟨ascii "count", cliNoShortName, .positional, .int, .store⟩, .i64 0, 0⟩

private theorem given_count (v : Token) :
    Given countParser 0 countArg v (cliParserParsePositionalArgument countParser v 0) :=
  .positional 0 rfl rfl

def quietParser : CLIParser :=
  register [⟨ascii "quiet", cliNoShortName, .positional, .bool, .store⟩]

def quietArg : CLIArg := ⟨⟨ascii "quiet", cliNoShortName, .positional, .bool, .store⟩, .i64 0, 0⟩

private theorem given_quiet (v : Token) :
    Given quietParser 0 quietArg v (cliParserParsePositionalArgument quietParser v 0) :=
  .positional 0 rfl rfl

theorem tokens_taken_iff_count :
    (IntTaken (cliParserParsePositionalArgument countParser (ascii "12") 0) (ascii "count")
      (ascii "12") ↔ (∃ n, Numeral (ascii "12") n) ∨
        isdigit ((ascii "12").headD 0) = false ∧ (ascii "12").headD 0 ≠ 45 ∧
          (ascii "12").headD 0 ≠ 43) ∧
    (BoolTaken (cliParserParsePositionalArgument quietParser (ascii "true") 0) (ascii "quiet")
      (ascii "true") ↔ (truthValue (ascii "true")).isSome = true ∨
        (ascii "true").headD 0 ≠ 48 ∧ (ascii "true").headD 0 ≠ 49) :=
  ⟨(tokens_taken_iff countParser 0 countArg (ascii "12") _ (ascii "count") (given_count _) rfl).1 rfl,
    (tokens_taken_iff quietParser 0 quietArg (ascii "true") _ (ascii "quiet") (given_quiet _) rfl).2 rfl⟩

/-- `12x` is accepted as an integer. -/
theorem tokens_not_taken : ¬∀ (parser : CLIParser) (i : ℕ) (arg : CLIArg) (v : Token)
    (result : Except ErrorCode CLIParser) (name : List UInt8), Given parser i arg v result →
    hashmapGet parser.argsMap (mapKey name) = some i →
    (arg.type = .int → IntTaken result name v) ∧ (arg.type = .bool → BoolTaken result name v) := by
  intro h
  obtain ⟨hint, -⟩ := h countParser 0 countArg (ascii "12x") _ (ascii "count") (given_count _) rfl
  obtain ⟨n, hn⟩ := (hint rfl).1.mp rfl
  exact absurd (hn.isdigit_of_mem_tail 120 (by decide)) (by decide)

end Libromano.Cli
