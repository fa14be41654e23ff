/- Which tokens the emitters come to: those before the first quantifier that is out of place and
   before the first parenthesis that closes no group. They read the characters of these tokens and
   of no others. -/

import Libromano.Regex.Accepts

set_option autoImplicit false
set_option relaxedAutoImplicit false

namespace Libromano.Regex

def RegexToken.Legible (token : RegexToken) : Prop := ∃ y, token.symbol = .ok y

/-- Every character and every class among the tokens that the emitters come to satisfies `P`.
`quantifiable` tells whether a quantifier may stand at the start, `depth` how many groups
are open there. -/
def Reach (P : RegexToken → Prop) : Bool → ℕ → List RegexToken → Prop
  | _, _, [] => True
  | quantifiable, depth, token :: rest =>
    match token.type with
    | .character _ | .characterRange => P token ∧ Reach P true depth rest
    | .groupBegin => Reach P false (depth + 1) rest
    | .groupEnd => depth ≠ 0 → Reach P true (depth - 1) rest
    | .operator op => (op.quantifies → quantifiable) → Reach P false depth rest
    | .invalid => True

section Reach

variable {P : RegexToken → Prop} {quantifiable : Bool} {depth : ℕ} {token : RegexToken}
  {rest tokens : List RegexToken}

@[simp] theorem reach_nil : Reach P quantifiable depth [] ↔ True :=
  Iff.rfl

private theorem reach_cons : Reach P quantifiable depth (token :: rest) ↔
    match token.type with
    | .character _ | .characterRange => P token ∧ Reach P true depth rest
    | .groupBegin => Reach P false (depth + 1) rest
    | .groupEnd => depth ≠ 0 → Reach P true (depth - 1) rest
    | .operator op => (op.quantifies → quantifiable) → Reach P false depth rest
    | .invalid => True :=
  Iff.rfl

private theorem reach_test (htype : token.type = .characterRange ∨ ∃ x, token.type = .character x) :
    Reach P quantifiable depth (token :: rest) ↔ P token ∧ Reach P true depth rest := by
  rw [reach_cons]
  rcases htype with htype | ⟨x, htype⟩
  · simp only [htype]
  · simp only [htype]

private theorem reach_groupBegin (htype : token.type = .groupBegin) :
    Reach P quantifiable depth (token :: rest) ↔ Reach P false (depth + 1) rest := by
  rw [reach_cons]
  simp only [htype]

private theorem reach_groupEnd (htype : token.type = .groupEnd) :
    Reach P quantifiable depth (token :: rest) ↔ (depth ≠ 0 → Reach P true (depth - 1) rest) := by
  rw [reach_cons]
  simp only [htype]

private theorem reach_operator {op : OperatorType} (htype : token.type = .operator op) :
    Reach P quantifiable depth (token :: rest) ↔
      ((op.quantifies → quantifiable) → Reach P false depth rest) := by
  rw [reach_cons]
  simp only [htype]

private theorem reach_unquantified
    (hhead : ∀ op, tokens.head?.map RegexToken.type = some (.operator op) → op.quantifies = false) :
    Reach P true depth tokens ↔ Reach P false depth tokens := by
  cases tokens with
  | nil => rw [reach_nil, reach_nil]
  | cons token rest =>
    rcases htype : token.type with encoding | _ | op | _ | _ | _
    case operator =>
      have hop : op.quantifies = false := hhead op (by rw [List.head?_cons, Option.map_some, htype])
      rw [reach_operator htype, reach_operator htype, hop]
      simp
    all_goals rw [reach_cons, reach_cons]
    all_goals simp only [htype]

end Reach

variable {tokens : List RegexToken}

/-- How an emitter goes on from a position: it comes to the tokens up to where it returns, fails
where the next token does not fit, or is stopped by a token that cannot be read. -/
def Runs (tokens : List RegexToken) (pos : ℕ) (quantifiable : Bool) : Except Stop Emitter → Prop
  | .ok e => ∀ depth, Reach RegexToken.Legible false depth (tokens.drop pos) ↔
    Reach RegexToken.Legible quantifiable depth (tokens.drop e.pos)
  | .error (.null _) => ∀ depth, Reach RegexToken.Legible false depth (tokens.drop pos)
  | .error (.fault f) => (f = .outOfBounds ∨ f = .nullPointer) ∧
    ∀ depth, ¬Reach RegexToken.Legible false depth (tokens.drop pos)

private theorem Runs.bind {pos : ℕ} {quantifiable : Bool} {x : Except Stop Emitter}
    {f : Emitter → Except Stop Emitter} (h : Runs tokens pos false x)
    (hf : ∀ e, x = .ok e → Runs tokens e.pos quantifiable (f e)) :
    Runs tokens pos quantifiable (x >>= f) := by
  rcases x with (fault | error) | e
  · exact h
  · exact h
  · have hrest := hf e rfl
    rw [bind_ok]
    generalize f e = y at hrest ⊢
    rcases y with (fault | error) | e'
    · exact ⟨hrest.1, fun depth => mt (h depth).mp (hrest.2 depth)⟩
    · exact fun depth => (h depth).mpr (hrest depth)
    · exact fun depth => (h depth).trans (hrest depth)

/-- With enough fuel for the tokens that are left, each of the emitters runs so. -/
structure Running (tokens : List RegexToken) (fuel : ℕ) : Prop where
  alternation : ∀ e : Emitter, 5 * (tokens.length - e.pos) + 3 ≤ fuel →
    Runs tokens e.pos false (regexEmitAlternation tokens fuel e)
  concatenation : ∀ e : Emitter, 5 * (tokens.length - e.pos) + 2 ≤ fuel →
    Runs tokens e.pos false (regexEmitConcatenation tokens fuel e)
  loop : ∀ first (e : Emitter), 5 * (tokens.length - e.pos) + 1 ≤ fuel →
    Runs tokens e.pos false (concatenationLoop tokens fuel first e)
  quantified : ∀ e : Emitter, e.pos < tokens.length → typeAt tokens e.pos ≠ some .groupEnd →
    5 * (tokens.length - e.pos) ≤ fuel → Runs tokens e.pos false (regexEmitQuantified tokens fuel e)
  primary : ∀ e : Emitter, e.pos < tokens.length → typeAt tokens e.pos ≠ some .groupEnd →
    5 * (tokens.length - e.pos) ≤ fuel + 1 → Runs tokens e.pos true (regexEmitPrimary tokens fuel e)

private theorem char_cases (token : RegexToken) (k : ℕ) : (∃ c, token.char k = .ok c) ∨
    ∃ f, (f = .outOfBounds ∨ f = .nullPointer) ∧ token.char k = .error (.fault f) := by
  unfold RegexToken.char charAt
  split
  · split_ifs
    · exact Or.inl ⟨0, rfl⟩
    · split
      · next c _ => exact Or.inl ⟨c, rfl⟩
      · exact Or.inr ⟨.outOfBounds, Or.inl rfl, rfl⟩
  · exact Or.inr ⟨.nullPointer, Or.inr rfl, rfl⟩

private theorem emitQuantifier_reach (tokens : List RegexToken) (start : ℕ) (e : Emitter)
    (depth : ℕ) :
    Reach RegexToken.Legible true depth (tokens.drop e.pos) ↔
      Reach RegexToken.Legible false depth
        (tokens.drop (emitQuantifier tokens start e).pos) := by
  have hpassed (op : OperatorType) (htype : typeAt tokens e.pos = some (.operator op)) :
      Reach RegexToken.Legible true depth (tokens.drop e.pos) ↔
        Reach RegexToken.Legible false depth (tokens.drop (e.pos + 1)) := by
    obtain ⟨token, htoken, htype⟩ := Option.map_eq_some_iff.mp htype
    rw [drop_of_getElem? htoken, reach_operator htype]
    simp
  rw [emitQuantifier]
  split
  · next htype => exact hpassed _ htype
  · next htype => exact hpassed _ htype
  · next htype => exact hpassed _ htype
  · next hstar hplus hmark =>
    apply reach_unquantified
    intro op hop
    rw [← typeAt_eq] at hop
    cases op with
    | alternate | concatenate => rfl
    | zeroOrMore => exact absurd hop hstar
    | oneOrMore => exact absurd hop hplus
    | zeroOrOne => exact absurd hop hmark

section Test

variable {e : Emitter} {token : RegexToken}

private theorem runs_legible (htoken : tokens[e.pos]? = some token)
    (htype : token.type = .characterRange ∨ ∃ x, token.type = .character x)
    (hlegible : token.Legible) (bytes : List UInt8) :
    Runs tokens e.pos true (.ok (e.advance.push bytes)) := by
  intro depth
  rw [drop_of_getElem? htoken, reach_test htype]
  exact and_iff_right hlegible

private theorem runs_illegible (htoken : tokens[e.pos]? = some token)
    (htype : token.type = .characterRange ∨ ∃ x, token.type = .character x)
    (hlegible : ¬token.Legible) {f : Fault} (hf : f = .outOfBounds ∨ f = .nullPointer) :
    Runs tokens e.pos true (.error (.fault f)) := by
  refine ⟨hf, fun depth => ?_⟩
  rw [drop_of_getElem? htoken, reach_test htype]
  exact fun h => hlegible h.1

private theorem runs_row {op : OperatorType} {x : Except Stop Emitter}
    (htoken : tokens[e.pos]? = some token)
    (htype : token.type = .operator op) (hop : op.quantifies = false)
    (h : Runs tokens (e.pos + 1) false x)
    (hends : ∀ e', x = .ok e' → typeAt tokens e'.pos = none ∨ typeAt tokens e'.pos = some .groupEnd) :
    Runs tokens e.pos true x := by
  have hstart (depth : ℕ) : Reach RegexToken.Legible false depth (tokens.drop e.pos) ↔
      Reach RegexToken.Legible false depth (tokens.drop (e.pos + 1)) := by
    rw [drop_of_getElem? htoken, reach_operator htype, hop]
    simp
  rcases x with (fault | error) | e'
  · exact ⟨h.1, fun depth => mt (hstart depth).mp (h.2 depth)⟩
  · exact fun depth => (hstart depth).mpr (h depth)
  · intro depth
    rw [hstart, h depth]
    refine (reach_unquantified fun op hop => ?_).symm
    rw [← typeAt_eq] at hop
    rcases hends e' rfl with hend | hend
    · rw [hend] at hop
      cases hop
    · rw [hend] at hop
      cases hop

private theorem runs_group {x : Except Stop Emitter} {f : Emitter → Emitter}
    (htoken : tokens[e.pos]? = some token) (htype : token.type = .groupBegin)
    (h : Runs tokens (e.pos + 1) false x)
    (hends : ∀ e', x = .ok e' → typeAt tokens e'.pos = none ∨ typeAt tokens e'.pos = some .groupEnd)
    (hf : ∀ e', (f e').pos = e'.pos + 1) :
    Runs tokens e.pos true (x >>= fun e' =>
      if typeAt tokens e'.pos ≠ some .groupEnd then
        .error (.null .regexMismatchedParentheses)
      else .ok (f e')) := by
  have hstart (depth : ℕ) : Reach RegexToken.Legible false depth (tokens.drop e.pos) ↔
      Reach RegexToken.Legible false (depth + 1) (tokens.drop (e.pos + 1)) := by
    rw [drop_of_getElem? htoken, reach_groupBegin htype]
  rcases x with (fault | error) | e'
  · exact ⟨h.1, fun depth => mt (hstart depth).mp (h.2 (depth + 1))⟩
  · exact fun depth => (hstart depth).mpr (h (depth + 1))
  · rw [bind_ok]
    split_ifs with hend
    · intro depth
      obtain hnone := (hends e' rfl).resolve_right hend
      rw [hstart, h (depth + 1), List.drop_eq_nil_of_le, reach_nil]
      · exact trivial
      · exact List.getElem?_eq_none_iff.mp (Option.map_eq_none_iff.mp hnone)
    · intro depth
      obtain ⟨close, hclose, hclosing⟩ := Option.map_eq_some_iff.mp (not_not.mp hend)
      rw [hstart, h (depth + 1), drop_of_getElem? hclose, reach_groupEnd hclosing, hf]
      simp

end Test

private theorem legible_single {token : RegexToken} (htype : token.type = .character .single) :
    token.Legible ↔ ∃ c, token.char 0 = .ok c := by
  unfold RegexToken.Legible RegexToken.symbol
  rw [htype]
  cases token.char 0 with
  | ok c => simp
  | error stop => simp

private theorem legible_any {token : RegexToken} (htype : token.type = .character .any) :
    token.Legible := by
  unfold RegexToken.Legible RegexToken.symbol
  rw [htype]
  exact ⟨_, rfl⟩

private theorem legible_class {token : RegexToken} (htype : token.type = .characterRange) :
    token.Legible ↔ (∃ c, token.char 0 = .ok c) ∧ ∃ c, token.char 2 = .ok c := by
  unfold RegexToken.Legible RegexToken.symbol
  rw [htype]
  cases token.char 0 with
  | error stop => simp
  | ok first =>
    cases token.char 2 with
    | error stop => simp
    | ok last => simp

namespace Running

variable {fuel : ℕ} (h : Running tokens fuel)
  (hlexed : ∀ token ∈ tokens, token.type ≠ .character .range) {e : Emitter}

include h hlexed

private theorem alternation_succ (hfuel : 5 * (tokens.length - e.pos) + 3 ≤ fuel + 1) :
    Runs tokens e.pos false (regexEmitAlternation tokens (fuel + 1) e) := by
  rw [regexEmitAlternation_succ]
  apply (h.concatenation e (by omega)).bind
  intro e' hrow
  have hends := ((inverts hlexed fuel).concatenation e e' hrow).ends.typeAt
  obtain ⟨fuel, rfl⟩ : ∃ n, fuel = n + 1 := ⟨fuel - 1, by omega⟩
  rw [alternationLoop_of_end hends]
  exact fun depth => Iff.rfl

omit hlexed in
private theorem concatenation_succ (hfuel : 5 * (tokens.length - e.pos) + 2 ≤ fuel + 1) :
    Runs tokens e.pos false (regexEmitConcatenation tokens (fuel + 1) e) := by
  rw [regexEmitConcatenation_succ]
  exact h.loop true e (by omega)

private theorem loop_succ {first : Bool} (hfuel : 5 * (tokens.length - e.pos) + 1 ≤ fuel + 1) :
    Runs tokens e.pos false (concatenationLoop tokens (fuel + 1) first e) := by
  rw [concatenationLoop_succ]
  split
  · exact fun depth => Iff.rfl
  · exact fun depth => Iff.rfl
  · next type hend htype =>
    obtain ⟨token, htoken, -⟩ := Option.map_eq_some_iff.mp htype
    have hpos := pos_lt_of_getElem? htoken
    simp only [begin_eq]
    let e₁ := e.push (assemble (failJump first))
    have hfuel' : 5 * (tokens.length - e₁.pos) ≤ fuel := Nat.le_of_succ_le_succ hfuel
    have htype₁ : typeAt tokens e₁.pos ≠ some .groupEnd := by
      show typeAt tokens e.pos ≠ _
      rw [htype]
      exact fun hsame => hend (Option.some.inj hsame)
    apply (h.quantified e₁ hpos htype₁ hfuel').bind
    intro e' hpart
    have hnext : e.pos < e'.pos := ((inverts hlexed fuel).quantified e₁ e' hpart).pos_lt
    exact h.loop false e' (by omega)

omit hlexed in
private theorem quantified_succ (hpos : e.pos < tokens.length)
    (htype : typeAt tokens e.pos ≠ some .groupEnd)
    (hfuel : 5 * (tokens.length - e.pos) ≤ fuel + 1) :
    Runs tokens e.pos false (regexEmitQuantified tokens (fuel + 1) e) := by
  rw [regexEmitQuantified_succ]
  have hprimary := h.primary e hpos htype hfuel
  generalize regexEmitPrimary tokens fuel e = x at hprimary ⊢
  rcases x with (fault | error) | e'
  · exact hprimary
  · exact hprimary
  · exact fun depth => (hprimary depth).trans (emitQuantifier_reach tokens _ e' depth)

private theorem primary_succ (hpos : e.pos < tokens.length)
    (hend : typeAt tokens e.pos ≠ some .groupEnd)
    (hfuel : 5 * (tokens.length - e.pos) ≤ fuel + 1 + 1) :
    Runs tokens e.pos true (regexEmitPrimary tokens (fuel + 1) e) := by
  rw [regexEmitPrimary]
  obtain ⟨token, htoken⟩ : ∃ token, tokens[e.pos]? = some token :=
    ⟨_, List.getElem?_eq_getElem hpos⟩
  have hdrop := drop_of_getElem? htoken
  simp only [htoken]
  rcases htype : token.type with encoding | _ | op | _ | _ | _
  case character =>
    cases encoding with
    | single =>
      have hlegible := legible_single htype
      rcases char_cases token 0 with ⟨c, hc⟩ | ⟨f, hf, hc⟩
      · rw [hc, bind_ok]
        exact runs_legible htoken (Or.inr ⟨_, htype⟩) (hlegible.mpr ⟨c, hc⟩) _
      · rw [hc]
        refine runs_illegible htoken (Or.inr ⟨_, htype⟩) (fun h => ?_) hf
        obtain ⟨c, hc'⟩ := hlegible.mp h
        rw [hc] at hc'
        cases hc'
    | any => exact runs_legible htoken (Or.inr ⟨_, htype⟩) (legible_any htype) _
    | range => exact absurd htype (hlexed token (List.mem_of_getElem? htoken))
  case characterRange =>
    have hlegible := legible_class htype
    rcases char_cases token 0 with ⟨first, hfirst⟩ | ⟨f, hf, hfirst⟩
    · rcases char_cases token 2 with ⟨last, hlast⟩ | ⟨f, hf, hlast⟩
      · rw [hfirst, bind_ok, hlast, bind_ok]
        exact runs_legible htoken (Or.inl htype) (hlegible.mpr ⟨⟨first, hfirst⟩, last, hlast⟩) _
      · rw [hfirst, bind_ok, hlast]
        refine runs_illegible htoken (Or.inl htype) (fun h => ?_) hf
        obtain ⟨-, c, hc⟩ := hlegible.mp h
        rw [hlast] at hc
        cases hc
    · rw [hfirst]
      refine runs_illegible htoken (Or.inl htype) (fun h => ?_) hf
      obtain ⟨⟨c, hc⟩, -⟩ := hlegible.mp h
      rw [hfirst] at hc
      cases hc
  case operator =>
    have hfuel' : 5 * (tokens.length - e.advance.pos) + 3 ≤ fuel := by
      simp only [Emitter.advance]
      omega
    cases op with
    | alternate =>
      exact runs_row htoken htype rfl (h.alternation e.advance hfuel') fun e' hrow =>
        ((inverts hlexed fuel).alternation e.advance e' hrow).ends.typeAt
    | concatenate =>
      exact runs_row htoken htype rfl (h.concatenation e.advance (by omega)) fun e' hrow =>
        ((inverts hlexed fuel).concatenation e.advance e' hrow).ends.typeAt
    | zeroOrMore | oneOrMore | zeroOrOne =>
      intro depth
      rw [hdrop, reach_operator htype]
      exact fun himp => absurd (himp rfl) Bool.false_ne_true
  case groupBegin =>
    refine runs_group htoken htype (h.alternation _ ?_) (fun e' hrow => ?_) fun e' => rfl
    · simp only [Emitter.advance, Emitter.push]
      omega
    · exact ((inverts hlexed fuel).alternation _ e' hrow).ends.typeAt
  case groupEnd => exact absurd (by rw [typeAt, htoken, Option.map_some, htype]) hend
  case invalid =>
    intro depth
    rw [hdrop, reach_cons]
    simp only [htype]

end Running

private theorem running (hlexed : ∀ token ∈ tokens, token.type ≠ .character .range) (fuel : ℕ) :
    Running tokens fuel := by
  induction fuel with
  | zero =>
    constructor
    · intro e hfuel
      omega
    · intro e hfuel
      omega
    · intro first e hfuel
      omega
    · intro e hpos htype hfuel
      omega
    · intro e hpos htype hfuel
      omega
  | succ fuel ih =>
    exact ⟨fun _ => ih.alternation_succ hlexed, fun _ => ih.concatenation_succ,
      fun _ _ => ih.loop_succ hlexed, fun _ => ih.quantified_succ,
      fun _ => ih.primary_succ hlexed⟩

/-- Where all that the emitters come to can be read they answer, and elsewhere they read what
they may not. -/
private theorem emitProgram_runs (hlexed : ∀ token ∈ tokens, token.type ≠ .character .range) :
    (Reach RegexToken.Legible false 0 tokens → Answered (emitProgram tokens)) ∧
      (¬Reach RegexToken.Legible false 0 tokens → ∃ f, (f = .outOfBounds ∨ f = .nullPointer) ∧
        emitProgram tokens = .error (.fault f)) := by
  have hfuel : 5 * (tokens.length - 0) + 3 ≤ emitFuel tokens := by
    rw [emitFuel]
    omega
  have hruns := (running hlexed _).alternation ⟨0, 1, []⟩ hfuel
  have hends (e : Emitter) (h : regexEmitAlternation tokens (emitFuel tokens) ⟨0, 1, []⟩ = .ok e) :=
    ((inverts hlexed _).alternation _ e h).ends.typeAt
  rw [emitProgram]
  generalize regexEmitAlternation tokens (emitFuel tokens) ⟨0, 1, []⟩ = x at hruns hends ⊢
  rcases x with (fault | error) | e
  · exact ⟨fun h => absurd h (hruns.2 0), fun _ => ⟨fault, hruns.1, rfl⟩⟩
  · exact ⟨fun _ => answered_null error, fun h => absurd (hruns 0) h⟩
  · have hreach : Reach RegexToken.Legible false 0 tokens := by
      refine (hruns 0).mpr ?_
      rcases hends e rfl with hnone | hend
      · rw [List.drop_eq_nil_of_le, reach_nil]
        · exact trivial
        · exact List.getElem?_eq_none_iff.mp (Option.map_eq_none_iff.mp hnone)
      · obtain ⟨close, hclose, hclosing⟩ := Option.map_eq_some_iff.mp hend
        rw [drop_of_getElem? hclose, reach_groupEnd hclosing]
        exact fun h => absurd rfl h
    refine ⟨fun _ => ?_, fun h => absurd hreach h⟩
    rw [bind_ok]
    split_ifs
    · exact answered_null _
    · exact answered_ok _

private theorem regexEmit_runs (hlexed : ∀ token ∈ tokens, token.type ≠ .character .range) :
    Reach RegexToken.Legible false 0 tokens ↔
      ∀ f, f = .outOfBounds ∨ f = .nullPointer → regexEmit tokens ≠ .error (.fault f) := by
  obtain ⟨hanswers, hfaults⟩ := emitProgram_runs hlexed
  rw [regexEmit]
  split_ifs with hempty
  · rw [hempty, reach_nil]
    exact iff_of_true trivial fun f _ h => answered_ok _ f h
  · constructor
    · intro hreach f _
      refine ((hanswers hreach).bind fun bytecode hprogram => ?_) f
      obtain ⟨t, -, rfl⟩ := exists_tree_of_emitProgram hlexed hprogram
      rw [patchLoop_program]
      exact answered_ok _
    · intro hno
      by_contra hreach
      obtain ⟨f, hf, hprogram⟩ := hfaults hreach
      rw [hprogram] at hno
      exact hno f hf rfl

private theorem charAt_of_lt {pattern : List UInt8} {k : ℕ} (hk : k < pattern.length) :
    charAt pattern k = .ok pattern[k] := by
  rw [charAt, if_neg (Nat.ne_of_lt hk), List.getElem?_eq_getElem hk]

private theorem lexRange_fault {pattern : List UInt8} {fuel : ℕ} {i : UInt32} {f : Fault}
    (h : lexRange pattern fuel i = .error (.fault f)) : f = .diverges := by
  induction fuel generalizing i with
  | zero =>
    cases h
    rfl
  | succ fuel ih =>
    rw [lexRange] at h
    split_ifs at h with hi
    rw [charAt_of_lt hi, bind_ok] at h
    split_ifs at h
    exact ih h

private theorem regexLexLoop_fault {pattern : List UInt8} {fuel : ℕ} {i : UInt32}
    {needsConcat : Bool}
    {tokens : List RegexToken} {f : Fault}
    (h : regexLexLoop pattern fuel i needsConcat tokens = .error (.fault f)) : f = .diverges := by
  induction fuel generalizing i needsConcat tokens with
  | zero =>
    cases h
    rfl
  | succ fuel ih =>
    rw [regexLexLoop] at h
    rcases ite_eq_iff.mp h with ⟨hi, h⟩ | ⟨-, h⟩
    · rw [charAt_of_lt hi, bind_ok] at h
      iterate 8
        rcases ite_eq_iff.mp h with ⟨-, h⟩ | ⟨-, h⟩
        · exact ih h
      rcases ite_eq_iff.mp h with ⟨-, h⟩ | ⟨-, h⟩
      · dsimp only at h
        cases hrange : lexRange pattern (pattern.length + 1) (i + 1) with
        | error stop =>
          rw [hrange] at h
          cases h
          exact lexRange_fault hrange
        | ok j =>
          rw [hrange, bind_ok] at h
          rcases ite_eq_iff.mp h with ⟨-, h⟩ | ⟨-, h⟩
          · cases h
          · exact ih h
      · cases h
    · cases h

/-- A token as if a class were the last of the memory that may be read. The byte that `charAt`
grants behind the data is then the last of the class. -/
def RegexToken.fence (token : RegexToken) : RegexToken :=
  if token.type = .characterRange then
    { token with data :=
        if token.dataSz = 0 then none else token.data.map (List.take (token.dataSz.toNat - 1)) }
  else token

/-- No byte behind the end of the pattern is read, and for a class none outside its brackets. -/
def Confined (pattern : List UInt8) : Prop :=
  ∀ f, f = .outOfBounds ∨ f = .nullPointer → regexCompile pattern ≠ .error (.fault f) ∧
    ∀ tokens, regexLex pattern = .ok tokens →
      regexEmit (tokens.map RegexToken.fence) ≠ .error (.fault f)

/-- Every character outside the classes is known and every class is closed, and the index of the
lexer holds the length. -/
structure Lexable (pattern : List UInt8) : Prop where
  size : pattern.length < 2 ^ 32
  known : ∀ c ∈ outside false pattern, (tokenOf c).isSome ∨ c = 91
  closing : Closing pattern

/-- Every class has three bytes at least, up to the first quantifier that is out of place and the
first parenthesis that closes no group. -/
def LongClasses (quantifiable : Bool) (depth : ℕ) : List UInt8 → Prop
  | [] => True
  | c :: s =>
    if c = 91 then 3 ≤ (classOf s).length ∧ LongClasses true depth (afterClass s)
    else if c = 40 then LongClasses false (depth + 1) s
    else if c = 41 then depth ≠ 0 → LongClasses true (depth - 1) s
    else if c = 124 then LongClasses false depth s
    else if IsQuantifier c then quantifiable → LongClasses false depth s
    else LongClasses true depth s
termination_by s => s.length
decreasing_by
  all_goals
    have := length_afterClass_le s
    simp
    try omega

@[simp] theorem fence_type (token : RegexToken) : token.fence.type = token.type := by
  unfold RegexToken.fence
  split_ifs <;> rfl

private theorem charAt_isOk {data : List UInt8} {k : ℕ} :
    (∃ c, charAt data k = .ok c) ↔ k ≤ data.length := by
  unfold charAt
  split_ifs with hk
  · exact iff_of_true ⟨0, rfl⟩ hk.le
  · rcases Nat.lt_or_ge k data.length with hlt | hge
    · rw [List.getElem?_eq_getElem hlt]
      exact iff_of_true ⟨_, rfl⟩ hlt.le
    · rw [List.getElem?_eq_none hge]
      refine iff_of_false ?_ (by omega)
      rintro ⟨c, hc⟩
      cases hc

private theorem reach_map_fence (quantifiable : Bool) (depth : ℕ) (tokens : List RegexToken) :
    Reach RegexToken.Legible quantifiable depth (tokens.map RegexToken.fence) ↔
      Reach (fun token => token.fence.Legible) quantifiable depth tokens := by
  induction tokens generalizing quantifiable depth with
  | nil => rw [List.map_nil, reach_nil, reach_nil]
  | cons token rest ih =>
    rw [List.map_cons, Reach, Reach, fence_type]
    rcases htype : token.type with encoding | _ | op | _ | _ | _
    all_goals simp only [ih]

private theorem reach_mono {P Q : RegexToken → Prop} (hPQ : ∀ token, P token → Q token)
    {quantifiable : Bool} {depth : ℕ} {tokens : List RegexToken}
    (h : Reach P quantifiable depth tokens) : Reach Q quantifiable depth tokens := by
  induction tokens generalizing quantifiable depth with
  | nil => exact reach_nil.mpr trivial
  | cons token rest ih =>
    rw [Reach] at h ⊢
    rcases htype : token.type with encoding | _ | op | _ | _ | _
    all_goals simp only [htype] at h ⊢
    case character => exact ⟨hPQ token h.1, ih h.2⟩
    case characterRange => exact ⟨hPQ token h.1, ih h.2⟩
    case operator => exact fun hop => ih (h hop)
    case groupBegin => exact ih h
    case groupEnd => exact fun hdepth => ih (h hdepth)

private theorem legible_of_fence (token : RegexToken) (h : token.fence.Legible) :
    token.Legible := by
  by_cases htype : token.type = .characterRange
  · have hfence := (legible_class ((fence_type token).trans htype)).mp h
    refine (legible_class htype).mpr ?_
    unfold RegexToken.fence RegexToken.char at hfence
    rw [if_pos htype] at hfence
    unfold RegexToken.char
    cases hdata : token.data with
    | none =>
      rw [hdata] at hfence
      split_ifs at hfence <;> simp at hfence
    | some data =>
      rw [hdata] at hfence
      split_ifs at hfence with hempty
      · simp at hfence
      · simp only [Option.map_some, charAt_isOk, List.length_take] at hfence
        simp only [charAt_isOk]
        omega
  · unfold RegexToken.fence at h
    rwa [if_neg htype] at h

private theorem fence_class {s : List UInt8} (hsize : s.length < 2 ^ 32) (hmem : 93 ∈ s) :
    (⟨some s, UInt32.ofNat (classOf s).length, .characterRange⟩ : RegexToken).fence.Legible ↔
      3 ≤ (classOf s).length := by
  have hlt := length_classOf_lt hmem
  have hlength : (UInt32.ofNat (classOf s).length).toNat = (classOf s).length := by
    rw [UInt32.toNat_ofNat', Nat.mod_eq_of_lt (hlt.trans hsize)]
  have hzero : UInt32.ofNat (classOf s).length = 0 ↔ (classOf s).length = 0 := by
    rw [← UInt32.toNat_inj, hlength]
    rfl
  rw [legible_class (fence_type _)]
  unfold RegexToken.fence RegexToken.char
  rw [if_pos rfl]
  dsimp only
  by_cases hempty : (classOf s).length = 0
  · rw [if_pos (hzero.mpr hempty)]
    simp [hempty]
  · rw [if_neg (mt hzero.mp hempty), hlength]
    simp only [Option.map_some, charAt_isOk, List.length_take]
    omega

private theorem reach_joined {P : RegexToken → Prop} {quantifiable needsConcat : Bool} {depth : ℕ}
    {token : RegexToken} {rest : List RegexToken}
    (htest : needsConcat → token.type = .characterRange ∨ ∃ x, token.type = .character x) :
    Reach P quantifiable depth (concatToken needsConcat ++ token :: rest) ↔
      Reach P quantifiable depth (token :: rest) := by
  cases needsConcat with
  | false => rfl
  | true =>
    have hconcat : (⟨none, 0, .operator .concatenate⟩ : RegexToken).type =
      .operator .concatenate := rfl
    rw [concatToken, if_pos rfl, List.singleton_append, reach_operator hconcat,
      reach_test (htest rfl), reach_test (htest rfl)]
    exact forall_prop_of_true fun h => absurd h Bool.false_ne_true

private theorem longClasses_class {quantifiable : Bool} {depth : ℕ} (s : List UInt8) :
    LongClasses quantifiable depth (91 :: s) ↔
      3 ≤ (classOf s).length ∧ LongClasses true depth (afterClass s) := by
  rw [LongClasses, if_pos rfl]

/-- The step lemma: a character and its token. -/
private theorem reach_token {P : RegexToken → Prop} {c : UInt8} {s : List UInt8} {type : TokenType}
    {rest : List RegexToken} (htype : tokenOf c = some type) (hP : P ⟨some (c :: s), 1, type⟩)
    (h : ∀ quantifiable depth, Reach P quantifiable depth rest ↔ LongClasses quantifiable depth s)
    (quantifiable : Bool) (depth : ℕ) :
    Reach P quantifiable depth (⟨some (c :: s), 1, type⟩ :: rest) ↔
      LongClasses quantifiable depth (c :: s) := by
  have hbracket := (ne_bracket (Option.isSome_of_eq_some htype)).1
  rw [LongClasses, if_neg hbracket]
  rw [tokenOf] at htype
  split_ifs at htype with hsingle
  · cases htype
    obtain ⟨hopen, hclose, hplain⟩ := plain_of_isalnum hsingle
    have hbar : c ≠ 124 := fun hc => hplain (Or.inr (Or.inl hc))
    have hquantifier : ¬IsQuantifier c := fun hc => hplain (Or.inr (Or.inr hc))
    rw [if_neg hopen, if_neg hclose, if_neg hbar, if_neg hquantifier, ← h,
      reach_test (Or.inr ⟨.single, rfl⟩)]
    exact and_iff_right hP
  all_goals
    rename_i hc
    subst hc
    cases htype
    rw [reach_cons]
    simp [h, hP, IsQuantifier, OperatorType.quantifies]

private theorem lexFrom_reach {needsConcat : Bool} {s : List UInt8} {tokens : List RegexToken}
    (hsize : s.length < 2 ^ 32) (h : lexFrom needsConcat s = .ok tokens) (quantifiable : Bool)
    (depth : ℕ) :
    Reach (fun token => token.fence.Legible) quantifiable depth tokens ↔
      LongClasses quantifiable depth s := by
  fun_induction lexFrom needsConcat s generalizing tokens quantifiable depth with
  | case1 =>
    cases h
    rw [reach_nil, LongClasses]
  | case2 needsConcat c s type htype ih =>
    obtain ⟨rest, hrest, h⟩ := bind_eq_ok.mp h
    cases h
    rw [List.length_cons] at hsize
    have htest (hjoins : type.joins && needsConcat) : type = .characterRange ∨
        ∃ x, type = .character x := by
      cases type with
      | character x => exact Or.inr ⟨x, rfl⟩
      | _ => exact absurd hjoins (by simp [TokenType.joins])
    have hP : (⟨some (c :: s), 1, type⟩ : RegexToken).fence.Legible := by
      have hne : type ≠ .characterRange := by
        rintro rfl
        rw [tokenOf] at htype
        split_ifs at htype
        all_goals cases htype
      unfold RegexToken.fence
      rw [if_neg hne]
      exact symbol_token htype
    rw [reach_joined htest]
    exact reach_token htype hP (fun q d => ih (by omega) hrest q d) quantifiable depth
  | case3 => cases h
  | case4 => cases h
  | case5 needsConcat c s htype hc hmem ih =>
    obtain rfl := not_not.mp hc
    obtain ⟨rest, hrest, h⟩ := bind_eq_ok.mp h
    cases h
    rw [List.length_cons] at hsize
    have hafter := length_afterClass_le s
    rw [reach_joined (fun _ => Or.inl rfl), reach_test (Or.inl rfl), longClasses_class,
      fence_class (by omega) (not_not.mp hmem), ih (by omega) hrest]

/-- A pattern is read within its bounds, and its classes within their brackets, exactly if it
cannot be lexed or the classes that are looked at have three bytes each. -/
theorem confined_iff (pattern : List UInt8) :
    Confined pattern ↔ (Lexable pattern → LongClasses false 0 pattern) := by
  constructor
  · rintro hconfined ⟨hsize, hknown, hclosing⟩
    obtain ⟨tokens, hlex⟩ := (lexFrom_isOk false pattern).mpr ⟨hknown, hclosing⟩
    rw [← lexFrom_reach hsize hlex, ← reach_map_fence, regexEmit_runs]
    · exact fun f hf => (hconfined f hf).2 tokens (by rw [regexLex_eq hsize, hlex])
    · intro token htoken
      obtain ⟨token, hmem, rfl⟩ := List.mem_map.mp htoken
      rw [fence_type]
      exact lexFrom_lexed hlex token hmem
  · intro hlong f hf
    have hlexer (hfault : regexLex pattern = .error (.fault f)) : False := by
      obtain rfl := regexLexLoop_fault hfault
      rcases hf with hf | hf <;> cases hf
    have hemitter (tokens : List RegexToken) (hlex : regexLex pattern = .ok tokens) :
        Reach (fun token => token.fence.Legible) false 0 tokens ∧
          ∀ token ∈ tokens, token.type ≠ .character .range := by
      have hsize := length_lt_of_regexLex hlex
      rw [regexLex_eq hsize] at hlex
      obtain ⟨hknown, hclosing⟩ := (lexFrom_isOk false pattern).mp ⟨tokens, hlex⟩
      exact ⟨(lexFrom_reach hsize hlex false 0).mpr (hlong ⟨hsize, hknown, hclosing⟩),
        lexFrom_lexed hlex⟩
    constructor
    · intro hfault
      rw [regexCompile] at hfault
      cases hlex : regexLex pattern with
      | error stop =>
        rw [hlex] at hfault
        cases hfault
        exact hlexer hlex
      | ok tokens =>
        rw [hlex, bind_ok] at hfault
        obtain ⟨hreach, hlexed⟩ := hemitter tokens hlex
        exact (regexEmit_runs hlexed).mp (reach_mono legible_of_fence hreach) f hf hfault
    · intro tokens hlex
      obtain ⟨hreach, hlexed⟩ := hemitter tokens hlex
      refine (regexEmit_runs fun token htoken => ?_).mp
        ((reach_map_fence false 0 tokens).mpr hreach) f hf
      obtain ⟨token, hmem, rfl⟩ := List.mem_map.mp htoken
      rw [fence_type]
      exact hlexed token hmem

/-- An empty class at the end is read past the null byte, and the last byte of a class of two
is its closing bracket. -/
theorem not_confined : regexCompile [91, 93] = .error (.fault .outOfBounds) ∧
    ¬Confined [91, 93] ∧ ¬Confined [91, 97, 98, 93] := by
  refine ⟨rfl, fun h => (h .outOfBounds (Or.inl rfl)).1 rfl, fun h => ?_⟩
  exact (h .outOfBounds (Or.inl rfl)).2 _ rfl rfl

end Libromano.Regex
