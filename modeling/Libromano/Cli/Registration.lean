/- What the calls of `cli_parser_add_arg` leave: the maps find the first argument of a name, and
   the vector points to the positional arguments in their order. -/

import Libromano.Cli.Model
import Libromano.Foundation.Lookup
import Mathlib.Tactic.Convert

set_option autoImplicit false
set_option relaxedAutoImplicit false

namespace Libromano.Cli

open Foundation

variable {parser : CLIParser} {declared calls : List Declaration} {map : KeyMap}
  {key key' : List UInt8} {value i : ℕ} {d : Declaration}

/-- A positional argument that does other than store is not registered. -/
def Declaration.accepted (d : Declaration) : Bool := !(d.mode == .positional && d.action != .store)

theorem accepted_iff : d.accepted = true ↔ ¬(d.mode = .positional ∧ d.action ≠ .store) := by
  simp [Declaration.accepted, or_iff_not_imp_left]

def registered (calls : List Declaration) : List Declaration := calls.filter Declaration.accepted

def positionals (declared : List Declaration) : List Declaration :=
  declared.filter fun d => d.mode == .positional

def Declaration.hasName (d : Declaration) (key : List UInt8) : Bool := mapKey d.name == key

def Declaration.hasShortName (d : Declaration) (key : List UInt8) : Bool :=
  d.shortName != cliNoShortName && [d.shortName] == key

/-- The parser has these arguments. Nothing is said about their values. -/
structure Registers (parser : CLIParser) (declared : List Declaration) : Prop where
  args : parser.args.map CLIArg.toDeclaration = declared
  argsMap : ∀ key, hashmapGet parser.argsMap key = declared.findIdx? (·.hasName key)
  shortNamesMap : ∀ key, hashmapGet parser.shortNamesMap key = declared.findIdx? (·.hasShortName key)
  positionalArgs : parser.positionalArgs.map (declared[·]?) = (positionals declared).map some

private theorem hashmapGet_insert (map : KeyMap) (key key' : List UInt8) (value : ℕ) :
    hashmapGet (hashmapInsert map key value) key' =
      (hashmapGet map key').or (if key = key' then some value else none) := by
  unfold hashmapInsert
  split
  case isTrue hsome =>
    obtain ⟨old, hold⟩ := Option.isSome_iff_exists.mp hsome
    by_cases hkey : key = key'
    · rw [← hkey, hold, Option.some_or]
    · rw [if_neg hkey, Option.or_none]
  case isFalse hnone =>
    rw [hashmapGet, List.lookup_append, List.lookup_cons, List.lookup_nil]
    by_cases hkey : key = key'
    · simp [hashmapGet, hkey]
    · have hbeq : (key' == key) = false := beq_false_of_ne (Ne.symm hkey)
      simp [hashmapGet, hkey, hbeq]

theorem registers_init : Registers cliParserInit [] where
  args := rfl
  argsMap _ := rfl
  shortNamesMap _ := rfl
  positionalArgs := rfl

theorem Registers.length (h : Registers parser declared) :
    parser.args.length = declared.length := by
  rw [← h.args, List.length_map]

private theorem map_getElem?_append {positions : List ℕ} {expected : List Declaration}
    (h : positions.map (declared[·]?) = expected.map some) (d : Declaration) :
    positions.map ((declared ++ [d])[·]?) = expected.map some := by
  rw [← h]
  apply List.map_congr_left
  intro i hi
  have hmem : declared[i]? ∈ expected.map some := h ▸ List.mem_map_of_mem (f := (declared[·]?)) hi
  obtain ⟨d', -, hd'⟩ := List.mem_map.mp hmem
  rw [List.getElem?_append_left (List.getElem?_eq_some_iff.mp hd'.symm).1]

theorem Registers.addArg (h : Registers parser declared) (d : Declaration) :
    Registers ((cliParserAddArg parser d).toOption.getD parser)
      (declared ++ if d.accepted then [d] else []) := by
  by_cases haccepted : d.accepted = true
  case neg =>
    rw [if_neg haccepted, List.append_nil, cliParserAddArg,
      if_pos (not_not.mp (mt accepted_iff.mpr haccepted))]
    exact h
  case pos =>
    rw [if_pos haccepted, cliParserAddArg, if_neg (accepted_iff.mp haccepted)]
    refine ⟨?_, ?_, ?_, ?_⟩
    · simp [Except.toOption, h.args]
    · intro key
      simp only [Except.toOption, Option.getD_some, hashmapGet_insert, h.argsMap,
        List.findIdx?_append, List.findIdx?_singleton, h.length]
      by_cases hkey : mapKey d.name = key <;> simp [Declaration.hasName, hkey]
    · intro key
      simp only [Except.toOption, Option.getD_some, List.findIdx?_append, List.findIdx?_singleton,
        ← h.shortNamesMap]
      by_cases hshort : d.shortName = cliNoShortName
      · simp [Declaration.hasShortName, hshort]
      · simp only [ne_eq, hshort, not_false_eq_true, if_true, hashmapGet_insert, h.length]
        by_cases hkey : [d.shortName] = key <;> simp [Declaration.hasShortName, hshort, hkey]
    · have hold := map_getElem?_append h.positionalArgs d
      simp only [Except.toOption, Option.getD_some, positionals, List.filter_append, List.map_append]
      by_cases hmode : d.mode = .positional
      · simp only [hmode, if_true, List.map_append, hold, positionals]
        simp [h.length, hmode]
      · simp only [hmode, if_false, hold, positionals]
        simp [hmode]

private theorem registers_foldl (h : Registers parser declared) (calls : List Declaration) :
    Registers
      (calls.foldl (fun parser call => (cliParserAddArg parser call).toOption.getD parser) parser)
      (declared ++ registered calls) := by
  induction calls generalizing parser declared with
  | nil => simpa [registered] using h
  | cons d calls ih =>
    have hrest := ih (h.addArg d)
    rw [List.foldl_cons]
    rw [List.append_assoc] at hrest
    convert hrest using 2
    unfold registered
    by_cases haccepted : d.accepted = true <;> simp [haccepted]

theorem registers_register (calls : List Declaration) :
    Registers (register calls) (registered calls) :=
  registers_foldl registers_init calls

theorem Registers.getElem? (h : Registers parser declared) (i : ℕ) :
    parser.args[i]?.map CLIArg.toDeclaration = declared[i]? := by
  rw [← h.args, List.getElem?_map]

theorem Registers.exists_arg (h : Registers parser declared) (hd : declared[i]? = some d) :
    ∃ arg, parser.args[i]? = some arg ∧ arg.toDeclaration = d := by
  rw [← h.getElem? i] at hd
  exact Option.map_eq_some_iff.mp hd

theorem Registers.positionalArgs_getElem? (h : Registers parser declared) (j : ℕ) :
    (parser.positionalArgs[j]?).map (declared[·]?) = ((positionals declared)[j]?).map some := by
  rw [← List.getElem?_map, h.positionalArgs, List.getElem?_map]

theorem Registers.put (h : Registers parser declared) (i : ℕ) {change : CLIArg → CLIArg}
    (hchange : ∀ arg, (change arg).toDeclaration = arg.toDeclaration) :
    Registers (parser.put i change) declared := by
  refine ⟨?_, h.argsMap, h.shortNamesMap, h.positionalArgs⟩
  rw [← h.args]
  apply List.ext_getElem?
  intro j
  rw [CLIParser.put, List.getElem?_map, List.getElem?_map, List.getElem?_modify]
  cases hj : parser.args[j]? with
  | none => simp
  | some arg =>
    by_cases hij : i = j <;> simp [hij, hchange]

/-- The names are distinct, as the map knows them. -/
abbrev NamesDistinct (declared : List Declaration) : Prop :=
  (declared.map fun d => mapKey d.name).Nodup

theorem Registers.hashmapGet_name (h : Registers parser declared) (hnames : NamesDistinct declared)
    (hd : declared[i]? = some d) : hashmapGet parser.argsMap (mapKey d.name) = some i := by
  obtain ⟨hi, rfl⟩ := List.getElem?_eq_some_iff.mp hd
  rw [h.argsMap, List.findIdx?_eq_some_iff_getElem]
  refine ⟨hi, by simp [Declaration.hasName], ?_⟩
  intro j hji hname
  have hdistinct := List.pairwise_iff_getElem.mp (List.pairwise_map.mp hnames)
  exact hdistinct j i (Nat.lt_trans hji hi) hi hji (by simpa [Declaration.hasName] using hname)

end Libromano.Cli
