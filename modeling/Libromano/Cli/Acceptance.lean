/- Which command lines the parser accepts, and how far these are the complete ones. -/

import Libromano.Cli.Tokens
import Mathlib.Data.List.Forall2

set_option autoImplicit false
set_option relaxedAutoImplicit false

namespace Libromano.Cli

open Bytes

variable {parser parser₁ parser' : CLIParser} {declared : List Declaration} {d : Declaration}
  {i pos size : ℕ} {value : Option Token} {uses : List Use} {values : List Token} {test : Test}

/-- The values suit the positional arguments from a place on, which are not fewer. -/
def Fits (test : Test) (declared : List Declaration) (pos : ℕ) (values : List Token) : Prop :=
  List.Forall₂ (fun v d => test d.type v) values
    (((positionals declared).drop pos).take values.length)

private theorem fits_nil (test : Test) (declared : List Declaration) (pos : ℕ) :
    Fits test declared pos [] := by
  rw [Fits, List.length_nil, List.take_zero]
  exact .nil

private theorem fits_cons {v : Token} : Fits test declared pos (v :: values) ↔
    ∃ d, (positionals declared)[pos]? = some d ∧ test d.type v ∧
      Fits test declared (pos + 1) values := by
  unfold Fits
  cases hpos : (positionals declared)[pos]? with
  | none =>
    rw [List.drop_eq_nil_of_le (List.getElem?_eq_none_iff.mp hpos), List.take_nil]
    refine iff_of_false ?_ (by simp)
    rintro ⟨⟩
  | some d =>
    obtain ⟨hlt, hd⟩ := List.getElem?_eq_some_iff.mp hpos
    rw [List.drop_eq_getElem_cons hlt, hd, List.length_cons, List.take_succ_cons,
      List.forall₂_cons]
    simp

private theorem Fits.length_le (h : Fits test declared 0 values) :
    values.length ≤ (positionals declared).length := by
  have := List.Forall₂.length_eq h
  rw [List.drop_zero, List.length_take] at this
  omega

structure Consumes (parser parser' : CLIParser) (declared : List Declaration) (uses : List Use) :
    Prop where
  registers : Registers parser' declared
  sizes : ∀ i d, declared[i]? = some d → d.mode = .named →
    sizeAt parser' i = ((lastValue i uses).map (storedSize d)).or (sizeAt parser i)

private theorem Consumes.nil (h : Registers parser declared) : Consumes parser parser declared [] :=
  ⟨h, fun _ _ _ _ => by simp [lastValue]⟩

private theorem Stores.consumes_named (hstores : Stores parser parser₁ declared i (storedSize d value))
    (hd : declared[i]? = some d) (h : Consumes parser₁ parser' declared uses) :
    Consumes parser parser' declared (.named i value :: uses) := by
  refine ⟨h.registers, ?_⟩
  intro j d' hd' hmode
  rw [h.sizes j d' hd' hmode, lastValue]
  by_cases hij : i = j
  · subst hij
    cases hd.symm.trans hd'
    rw [hstores.size]
    cases lastValue i uses <;> simp
  · rw [hstores.others j (Ne.symm hij), if_neg hij, Option.or_none]

private theorem Stores.consumes_positional {v : Token}
    (hstores : Stores parser parser₁ declared i size)
    (hd : declared[i]? = some d) (hmode : d.mode = .positional)
    (h : Consumes parser₁ parser' declared uses) :
    Consumes parser parser' declared (.positional v :: uses) := by
  refine ⟨h.registers, ?_⟩
  intro j d' hd' hmode'
  have hij : j ≠ i := by
    rintro rfl
    cases hd.symm.trans hd'
    rw [hmode] at hmode'
    cases hmode'
  rw [h.sizes j d' hd' hmode', lastValue, hstores.others j hij]

private theorem mode_of_positionals {pos : ℕ} (h : (positionals declared)[pos]? = some d) :
    d.mode = .positional := by
  simpa using (List.mem_filter.mp (List.mem_of_getElem? h)).2

/-- The loop over the tokens takes them as they are read, or it refuses them where they are not to be
accepted. -/
def Follows (parser : CLIParser) (declared : List Declaration) (pos offset : ℕ)
    (tokens : List Token) : Prop :=
  (∃ uses parser', readTokens storeOrAppend declared offset tokens = some uses ∧
    (∀ use ∈ uses, use.Suits passes declared) ∧
    Fits passes declared pos (positionalValues uses) ∧
    Cli.parseTokens parser pos offset tokens =
      .ok (parser', pos + (positionalValues uses).length) ∧
    Consumes parser parser' declared uses) ∨
  ∃ refusal, Cli.parseTokens parser pos offset tokens = .error refusal ∧
    ∀ uses, readTokens storeOrAppend declared offset tokens = some uses →
      (∀ use ∈ uses, use.Suits passes declared) →
      ¬Fits passes declared pos (positionalValues uses)

private theorem Registers.follows_named {token : Token} {rest : List Token}
    (h : Registers parser declared) (hhead : ¬(token = ascii "-h" ∨ token = ascii "--help"))
    (hdash : token.head? = some dash)
    (ih : ∀ parser₁ offset, Registers parser₁ declared → Follows parser₁ declared pos offset rest) :
    Follows parser declared pos 0 (token :: rest) := by
  rw [Follows, Cli.parseTokens, if_neg hhead, if_pos hdash]
  obtain ⟨code, hparse, hno⟩ | ⟨i, d, value, offset, parser₁, hd, hread, hsuits, hparse, hstores⟩ :=
    h.parseNamedArgument token rest.head?
  · refine .inr ⟨.error code, by rw [hparse], ?_⟩
    intro uses huses hpass hfits
    cases hread : readNamed storeOrAppend declared token rest.head? with
    | none =>
      rw [readTokens_unread hdash hread] at huses
      cases huses
    | some read =>
      obtain ⟨use, offset⟩ := read
      rw [readTokens_named hdash hread] at huses
      obtain ⟨uses', -, rfl⟩ := Option.map_eq_some_iff.mp huses
      exact hno use offset hread (List.forall_mem_cons.mp hpass).1
  · rw [hparse, readTokens_named hdash hread]
    obtain ⟨uses, parser', huses, hpass, hfits, hloop, hconsumes⟩ | ⟨refusal, hloop, hno⟩ :=
      ih parser₁ offset hstores.registers
    · exact .inl ⟨.named i value :: uses, parser', by rw [huses, Option.map_some],
        List.forall_mem_cons.mpr ⟨hsuits, hpass⟩, hfits, hloop,
        hstores.consumes_named hd hconsumes⟩
    · refine .inr ⟨refusal, hloop, ?_⟩
      intro uses huses hpass
      obtain ⟨uses', huses', rfl⟩ := Option.map_eq_some_iff.mp huses
      exact hno uses' huses' (List.forall_mem_cons.mp hpass).2

private theorem Registers.follows_positional {token : Token} {rest : List Token}
    (h : Registers parser declared) (hhead : ¬(token = ascii "-h" ∨ token = ascii "--help"))
    (hdash : token.head? ≠ some dash)
    (ih : ∀ parser₁, Registers parser₁ declared → Follows parser₁ declared (pos + 1) 0 rest) :
    Follows parser declared pos 0 (token :: rest) := by
  rw [Follows, Cli.parseTokens, if_neg hhead, if_neg hdash, readTokens_positional hdash]
  obtain ⟨code, hparse, hno⟩ | ⟨d, i, parser₁, hd, hsuits, hi, hparse, hstores⟩ :=
    h.parsePositionalArgument token pos
  · refine .inr ⟨.error code, by rw [hparse], ?_⟩
    intro uses huses hpass hfits
    obtain ⟨uses', -, rfl⟩ := Option.map_eq_some_iff.mp huses
    obtain ⟨d, hd, hsuits, -⟩ := fits_cons.mp hfits
    exact hno d hd hsuits
  · rw [hparse]
    obtain ⟨uses, parser', huses, hpass, hfits, hloop, hconsumes⟩ | ⟨refusal, hloop, hno⟩ :=
      ih parser₁ hstores.registers
    · refine .inl ⟨.positional token :: uses, parser', by rw [huses, Option.map_some],
        List.forall_mem_cons.mpr ⟨trivial, hpass⟩, fits_cons.mpr ⟨d, hd, hsuits, hfits⟩, ?_,
        hstores.consumes_positional hi (mode_of_positionals hd) hconsumes⟩
      rw [show pos + (positionalValues (.positional token :: uses)).length =
        pos + 1 + (positionalValues uses).length by
          simp [positionalValues, Use.positional?]; omega]
      exact hloop
    · refine .inr ⟨refusal, hloop, ?_⟩
      intro uses huses hpass hfits
      obtain ⟨uses', huses', rfl⟩ := Option.map_eq_some_iff.mp huses
      obtain ⟨-, -, -, hfits⟩ := fits_cons.mp hfits
      exact hno uses' huses' (List.forall_mem_cons.mp hpass).2 hfits

private theorem Registers.follows (h : Registers parser declared) {tokens : List Token}
    (hhelp : ∀ token ∈ tokens, token ≠ ascii "-h" ∧ token ≠ ascii "--help") (pos offset : ℕ) :
    Follows parser declared pos offset tokens := by
  induction tokens generalizing parser pos offset with
  | nil =>
    refine .inl ⟨[], parser, by rw [readTokens], List.forall_mem_nil _, fits_nil _ declared pos, ?_,
      .nil h⟩
    rw [Cli.parseTokens]
    rfl
  | cons token rest ih =>
    obtain ⟨hhead, hrest⟩ := List.forall_mem_cons.mp hhelp
    cases offset with
    | succ offset => exact ih h hrest pos offset
    | zero =>
      by_cases hdash : token.head? = some dash
      · exact h.follows_named (not_or.mpr hhead) hdash fun _ offset h₁ => ih h₁ hrest pos offset
      · exact h.follows_positional (not_or.mpr hhead) hdash fun _ h₁ => ih h₁ hrest (pos + 1) 0

section Parse

variable {calls : List Declaration} {program : Token} {tokens : List Token}

def Digits (digits : List UInt8) : Prop := ∀ c ∈ digits, isdigit c = true

def signs : List (List UInt8) := [[], [43], [45]]

/-- The whole text is a decimal number, with a sign, a point and an exponent or without them. -/
def DecimalNumber (v : Token) : Prop :=
  ∃ sign whole fraction exponent : List UInt8, v = sign ++ whole ++ fraction ++ exponent ∧
    sign ∈ signs ∧ Digits whole ∧
    (fraction = [] ∧ whole ≠ [] ∨
      ∃ digits, fraction = 46 :: digits ∧ Digits digits ∧ whole ++ digits ≠ []) ∧
    (exponent = [] ∨ ∃ e sign digits, exponent = e :: (sign ++ digits) ∧ (e = 69 ∨ e = 101) ∧
      sign ∈ signs ∧ digits ≠ [] ∧ Digits digits)

def typed : Test
  | .str, _ => True
  | .int, v => ∃ n, Numeral v n
  | .float, v => DecimalNumber v
  | .bool, v => (truthValue v).isSome = true

private theorem DecimalNumber.validated {v : Token} (h : DecimalNumber v) :
    cliParserValidateArgumentType .float v = true := by
  obtain ⟨sign, whole, fraction, exponent, rfl, hsign, hwhole, hfraction, -⟩ := h
  rcases List.mem_cons.mp hsign with rfl | hsign
  · cases whole with
    | nil =>
      obtain ⟨-, hne⟩ | ⟨digits, rfl, -, -⟩ := hfraction
      · exact absurd rfl hne
      · simp [cliParserValidateArgumentType]
    | cons c whole =>
      have hc := hwhole c List.mem_cons_self
      simp [cliParserValidateArgumentType, hc]
  · rcases List.mem_cons.mp hsign with rfl | hsign
    · simp [cliParserValidateArgumentType]
    · obtain rfl := List.mem_singleton.mp hsign
      simp [cliParserValidateArgumentType]

private theorem passes_of_typed {type : CLIArgType} {v : Token} (h : typed type v) :
    passes type v := by
  cases type with
  | str => rfl
  | int =>
    obtain ⟨n, hn⟩ := h
    exact hn.validated
  | float => exact DecimalNumber.validated h
  | bool => exact validated_bool_iff.mpr (.inl h)

private theorem Use.Suits.mono {test' : Test} (himp : ∀ type v, test type v → test' type v)
    {use : Use}
    (h : use.Suits test declared) : use.Suits test' declared := by
  cases use with
  | positional v => trivial
  | named i value =>
    cases value with
    | none => trivial
    | some v => exact fun d hd => himp d.type v (h d hd)

def Typed (declared : List Declaration) (uses : List Use) : Prop :=
  (∀ use ∈ uses, use.Suits typed declared) ∧ Fits typed declared 0 (positionalValues uses)

private theorem Typed.passes (h : Typed declared uses) : (∀ use ∈ uses, use.Suits passes declared) ∧
    Fits passes declared 0 (positionalValues uses) :=
  ⟨fun use huse => (h.1 use huse).mono fun _ _ => passes_of_typed,
    h.2.imp fun _ _ => passes_of_typed⟩

/-- Every token is valid, there are as many values as positional arguments, and every
argument of the mode `Named` is given. -/
def Complete (declared : List Declaration) (tokens : List Token) : Prop :=
  ∃ uses, readTokens onlyStore declared 0 tokens = some uses ∧
    (∀ use ∈ uses, use.Suits typed declared) ∧
    List.Forall₂ (fun v d => typed d.type v) (positionalValues uses) (positionals declared) ∧
    AllNamedGiven declared uses

end Parse

end Libromano.Cli
