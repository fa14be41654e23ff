/- The objects of a parser and the three indexes over them: which objects the short names and the
   positions refer to, and which of them `cli_parser_release` frees. -/

import Libromano.Cli.Registration

set_option autoImplicit false
set_option relaxedAutoImplicit false

namespace Libromano.Cli

open Foundation

variable {parser parser' : CLIParser} {declared calls : List Declaration} {map : KeyMap}
  {key : List UInt8} {value i : ℕ} {d : Declaration}

/-- Calls of `cli_parser_add_arg` on a new parser, when all of them return true. -/
def cliParserAddArgs (calls : List Declaration) : Except ErrorCode CLIParser :=
  calls.foldlM cliParserAddArg cliParserInit

/-- The objects that are freed, one for each entry of the iteration. -/
def cliParserRelease (parser : CLIParser) : List ℕ := parser.argsMap.map Prod.snd

def CLIParser.Refers (parser : CLIParser) (i : ℕ) : Prop :=
  (∃ key, (key, i) ∈ parser.shortNamesMap) ∨ i ∈ parser.positionalArgs

structure Coherent (parser : CLIParser) : Prop where
  /-- What is referred to is what the name of the argument leads to. -/
  named : ∀ i, parser.Refers i → ∃ arg, parser.args[i]? = some arg ∧
    hashmapGet parser.argsMap (mapKey arg.name) = some i
  freed : ∀ i < parser.args.length, i ∈ cliParserRelease parser

def Keyed (map : KeyMap) : Prop := (map.map Prod.fst).Nodup

private theorem Keyed.insert (h : Keyed map) (key : List UInt8) (value : ℕ) :
    Keyed (hashmapInsert map key value) := by
  unfold hashmapInsert
  split
  case isTrue => exact h
  case isFalse hnone =>
    have hkey : key ∉ map.map Prod.fst :=
      Lookup.lookup_eq_none_iff_not_mem.mp (Option.not_isSome_iff_eq_none.mp hnone)
    unfold Keyed
    rw [List.map_append, List.map_singleton]
    refine List.nodup_append.mpr ⟨h, List.pairwise_singleton _ key, ?_⟩
    intro k hk k' hk' heq
    obtain rfl := List.mem_singleton.mp hk'
    exact hkey (heq ▸ hk)

private theorem Keyed.hashmapGet_eq (h : Keyed map) (hmem : (key, value) ∈ map) :
    hashmapGet map key = some value :=
  Lookup.lookup_of_mem h hmem

def CLIParser.Keyed (parser : CLIParser) : Prop :=
  Cli.Keyed parser.argsMap ∧ Cli.Keyed parser.shortNamesMap

private theorem cliParserAddArg_ok (h : cliParserAddArg parser d = .ok parser') :
    d.accepted = true ∧ (parser.Keyed → parser'.Keyed) := by
  unfold cliParserAddArg at h
  split at h
  case isTrue => cases h
  case isFalse haccepted =>
    cases h
    refine ⟨accepted_iff.mpr haccepted, ?_⟩
    rintro ⟨hargs, hshort⟩
    refine ⟨hargs.insert _ _, ?_⟩
    dsimp only
    split
    · exact hshort.insert _ _
    · exact hshort

private theorem foldlM_ok (h : Registers parser declared) (hkeyed : parser.Keyed)
    (hcalls : calls.foldlM cliParserAddArg parser = .ok parser') :
    Registers parser' (declared ++ calls) ∧ parser'.Keyed := by
  induction calls generalizing parser declared with
  | nil =>
    cases hcalls
    exact ⟨by rwa [List.append_nil], hkeyed⟩
  | cons d calls ih =>
    rw [List.foldlM_cons] at hcalls
    cases hadd : cliParserAddArg parser d with
    | error code =>
      rw [hadd] at hcalls
      cases hcalls
    | ok parser'' =>
      rw [hadd] at hcalls
      obtain ⟨haccepted, hkeyed'⟩ := cliParserAddArg_ok hadd
      have hregisters := h.addArg d
      rw [hadd, if_pos haccepted] at hregisters
      have hrest := ih hregisters (hkeyed' hkeyed) hcalls
      rwa [List.append_assoc] at hrest

private theorem cliParserAddArgs_ok (h : cliParserAddArgs calls = .ok parser) :
    Registers parser calls ∧ parser.Keyed :=
  foldlM_ok registers_init ⟨List.nodup_nil, List.nodup_nil⟩ h

private theorem Registers.hashmapGet_of_freed (h : Registers parser declared)
    (hkeyed : parser.Keyed)
    (hd : declared[i]? = some d) (hfreed : i ∈ cliParserRelease parser) :
    declared.findIdx? (·.hasName (mapKey d.name)) = some i := by
  obtain ⟨⟨key, j⟩, hmem, rfl⟩ := List.mem_map.mp hfreed
  have hget : declared.findIdx? (·.hasName key) = some j :=
    (h.argsMap key).symm.trans (hkeyed.1.hashmapGet_eq hmem)
  obtain ⟨hj, hname, -⟩ := List.findIdx?_eq_some_iff_getElem.mp hget
  obtain ⟨-, rfl⟩ := List.getElem?_eq_some_iff.mp hd
  obtain rfl := beq_iff_eq.mp hname
  exact hget

private theorem Registers.lt_of_refers (h : Registers parser declared) (hkeyed : parser.Keyed)
    (hrefers : parser.Refers i) : i < declared.length := by
  obtain ⟨key, hmem⟩ | hmem := hrefers
  · have hget := (h.shortNamesMap key).symm.trans (hkeyed.2.hashmapGet_eq hmem)
    exact (List.findIdx?_eq_some_iff_getElem.mp hget).1
  · have hsome : declared[i]? ∈ (positionals declared).map some :=
      h.positionalArgs ▸ List.mem_map_of_mem (f := (declared[·]?)) hmem
    obtain ⟨d, -, hd⟩ := List.mem_map.mp hsome
    exact (List.getElem?_eq_some_iff.mp hd.symm).1

/-- Short names, positions and names lead to the same objects, and all are freed, exactly
when no name is used twice. -/
theorem cliParserAddArgs_coherent_iff (hcalls : cliParserAddArgs calls = .ok parser) :
    Coherent parser ↔ NamesDistinct calls := by
  obtain ⟨h, hkeyed⟩ := cliParserAddArgs_ok hcalls
  constructor
  · intro hcoherent
    apply List.pairwise_map.mpr
    apply List.pairwise_iff_getElem.mpr
    intro j i hj hi hji heq
    -- the later of two arguments of one name is in no entry
    have hfind := h.hashmapGet_of_freed hkeyed (List.getElem?_eq_getElem hi)
      (hcoherent.freed i (h.length ▸ hi))
    have hfirst := (List.findIdx?_eq_some_iff_getElem.mp hfind).2.2 j hji
    exact hfirst (beq_iff_eq.mpr heq)
  · intro hnames
    refine ⟨?_, ?_⟩
    · intro i hrefers
      have hi := h.lt_of_refers hkeyed hrefers
      obtain ⟨arg, harg, hdecl⟩ := h.exists_arg (List.getElem?_eq_getElem hi)
      have hget := h.hashmapGet_name hnames (List.getElem?_eq_getElem hi)
      rw [← hdecl] at hget
      exact ⟨arg, harg, hget⟩
    · intro i hi
      have hget := h.hashmapGet_name hnames (List.getElem?_eq_getElem (h.length ▸ hi))
      exact List.mem_map.mpr ⟨_, Lookup.mem_of_lookup hget, rfl⟩

/-- A flag `--a` or `-x`, and a positional argument `b`. -/
def distinct : List Declaration :=
  [⟨[97], 120, .optional, .bool, .storeTrue⟩, ⟨[98], 0, .positional, .int, .store⟩]

theorem cliParserAddArgs_coherent_iff_distinct :
    ∃ parser, cliParserAddArgs distinct = .ok parser ∧ (Coherent parser ↔ NamesDistinct distinct) :=
  ⟨_, rfl, cliParserAddArgs_coherent_iff rfl⟩

/-- Two flags `-x` and `-y` of one name. -/
def twice : List Declaration :=
  [⟨[97], 120, .optional, .bool, .storeTrue⟩, ⟨[97], 121, .optional, .bool, .storeTrue⟩]

/-- The second object is set through `-y`, but its name leads to the first one, and it is
not freed. -/
theorem cliParserAddArgs_not_coherent : ∃ parser, cliParserAddArgs twice = .ok parser ∧
    ([121], 1) ∈ parser.shortNamesMap ∧ hashmapGet parser.argsMap (mapKey [97]) = some 0 ∧
    parser.args.length = 2 ∧ 1 ∉ cliParserRelease parser ∧ ¬Coherent parser := by
  refine ⟨_, rfl, by decide, by decide, rfl, by decide, ?_⟩
  intro hcoherent
  exact absurd (hcoherent.freed 1 (by decide)) (by decide)

end Libromano.Cli
