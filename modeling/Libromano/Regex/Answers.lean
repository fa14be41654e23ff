/- The emitters on tokens whose characters can be read: they return, with the bytecode or with an
   error. -/

import Libromano.Regex.Emission

set_option autoImplicit false
set_option relaxedAutoImplicit false

namespace Libromano.Regex

def Answered {α : Type} (result : Except Stop α) : Prop :=
  ∀ fault, result ≠ .error (.fault fault)

theorem answered_ok {α : Type} (a : α) : Answered (.ok a) := by
  intro fault h
  cases h

theorem answered_null {α : Type} (error : ErrorCode) :
    Answered (.error (.null error) : Except Stop α) := by
  intro fault h
  cases h

theorem Answered.bind {α β : Type} {x : Except Stop α} {f : α → Except Stop β} (h : Answered x)
    (hf : ∀ a, x = .ok a → Answered (f a)) : Answered (x >>= f) := by
  cases x with
  | ok a => exact hf a rfl
  | error stop =>
    intro fault hfault
    cases hfault
    exact h fault rfl

theorem Answered.cases {α : Type} {x : Except Stop α} (h : Answered x) :
    (∃ a, x = .ok a) ∨ ∃ error, x = .error (.null error) := by
  rcases x with (fault | error) | a
  · exact absurd rfl (h fault)
  · exact .inr ⟨error, rfl⟩
  · exact .inl ⟨a, rfl⟩

variable {tokens : List RegexToken}

def Readable (tokens : List RegexToken) : Prop :=
  ∀ token ∈ tokens, ∃ y, token.symbol = .ok y

theorem Readable.lexed (h : Readable tokens) :
    ∀ token ∈ tokens, token.type ≠ .character .range := by
  intro token htoken htype
  obtain ⟨y, hy⟩ := h token htoken
  simp [RegexToken.symbol, htype] at hy

theorem pos_lt_of_getElem? {pos : ℕ} {token : RegexToken} (h : tokens[pos]? = some token) :
    pos < tokens.length :=
  (List.getElem?_eq_some_iff.mp h).1

theorem PartOf.pos_lt {q : Quantifier → Prop} {e e' : Emitter} (h : PartOf tokens q e e') :
    e.pos < e'.pos := by
  obtain ⟨t, ts, rest, k, -, -, -, hpart, rfl⟩ := h
  rw [Emitter.after]
  cases hpart with
  | test x => simp [Tree.symbols]
  | group body => simp [Tree.symbols]
  | separator s t hends => simp [Tree.symbols]

/-- With enough fuel for the tokens that are left, each of the emitters answers. -/
structure Answering (tokens : List RegexToken) (fuel : ℕ) : Prop where
  alternation : ∀ e : Emitter, 5 * (tokens.length - e.pos) + 3 ≤ fuel →
    Answered (regexEmitAlternation tokens fuel e)
  concatenation : ∀ e : Emitter, 5 * (tokens.length - e.pos) + 2 ≤ fuel →
    Answered (regexEmitConcatenation tokens fuel e)
  loop : ∀ first (e : Emitter), 5 * (tokens.length - e.pos) + 1 ≤ fuel →
    Answered (concatenationLoop tokens fuel first e)
  quantified : ∀ e : Emitter, e.pos < tokens.length → 5 * (tokens.length - e.pos) ≤ fuel →
    Answered (regexEmitQuantified tokens fuel e)
  primary : ∀ e : Emitter, e.pos < tokens.length → 5 * (tokens.length - e.pos) ≤ fuel + 1 →
    Answered (regexEmitPrimary tokens fuel e)

namespace Answering

variable {fuel : ℕ} (h : Answering tokens fuel) (hread : Readable tokens) {e : Emitter}

include h hread

private theorem alternation_succ (hfuel : 5 * (tokens.length - e.pos) + 3 ≤ fuel + 1) :
    Answered (regexEmitAlternation tokens (fuel + 1) e) := by
  rw [regexEmitAlternation_succ]
  apply (h.concatenation e (by omega)).bind
  intro e' hrow
  have hends := ((inverts hread.lexed fuel).concatenation e e' hrow).ends.typeAt
  obtain ⟨fuel, rfl⟩ : ∃ n, fuel = n + 1 := ⟨fuel - 1, by omega⟩
  rw [alternationLoop_of_end hends]
  exact answered_ok e'

omit hread in
private theorem concatenation_succ (hfuel : 5 * (tokens.length - e.pos) + 2 ≤ fuel + 1) :
    Answered (regexEmitConcatenation tokens (fuel + 1) e) := by
  rw [regexEmitConcatenation_succ]
  exact h.loop true e (by omega)

private theorem loop_succ {first : Bool} (hfuel : 5 * (tokens.length - e.pos) + 1 ≤ fuel + 1) :
    Answered (concatenationLoop tokens (fuel + 1) first e) := by
  rw [concatenationLoop_succ]
  split
  · exact answered_ok e
  · exact answered_ok e
  · next type hend htype =>
    obtain ⟨token, htoken, -⟩ := Option.map_eq_some_iff.mp htype
    have hpos := pos_lt_of_getElem? htoken
    simp only [begin_eq]
    let e₁ := e.push (assemble (failJump first))
    have hfuel' : 5 * (tokens.length - e₁.pos) ≤ fuel := Nat.le_of_succ_le_succ hfuel
    apply (h.quantified e₁ hpos hfuel').bind
    intro e' hpart
    have hnext : e.pos < e'.pos := ((inverts hread.lexed fuel).quantified e₁ e' hpart).pos_lt
    exact h.loop false e' (by omega)

omit hread in
private theorem quantified_succ (hpos : e.pos < tokens.length)
    (hfuel : 5 * (tokens.length - e.pos) ≤ fuel + 1) :
    Answered (regexEmitQuantified tokens (fuel + 1) e) := by
  rw [regexEmitQuantified_succ]
  exact (h.primary e hpos hfuel).bind fun e' _ => answered_ok _

private theorem primary_succ (hpos : e.pos < tokens.length)
    (hfuel : 5 * (tokens.length - e.pos) ≤ fuel + 1 + 1) :
    Answered (regexEmitPrimary tokens (fuel + 1) e) := by
  rw [regexEmitPrimary]
  cases htoken : tokens[e.pos]? with
  | none => exact answered_null _
  | some token =>
    obtain ⟨y, hy⟩ := hread token (List.mem_of_getElem? htoken)
    rw [RegexToken.symbol] at hy
    rcases htype : token.type with encoding | _ | op | _ | _ | _
    all_goals simp only [htype] at hy ⊢
    case character =>
      cases encoding with
      | single =>
        obtain ⟨c, hc, -⟩ := bind_eq_ok.mp hy
        rw [hc]
        exact answered_ok _
      | any => exact answered_ok _
      | range => exact answered_ok _
    case characterRange =>
      obtain ⟨first, hfirst, hy⟩ := bind_eq_ok.mp hy
      obtain ⟨last, hlast, -⟩ := bind_eq_ok.mp hy
      rw [hfirst, bind_ok, hlast]
      exact answered_ok _
    case operator =>
      have hfuel' : 5 * (tokens.length - e.advance.pos) + 3 ≤ fuel := by
        simp only [Emitter.advance]
        omega
      cases op with
      | alternate => exact h.alternation e.advance hfuel'
      | concatenate => exact h.concatenation e.advance (by omega)
      | zeroOrMore | oneOrMore | zeroOrOne => exact answered_null _
    case groupBegin =>
      refine (h.alternation _ ?_).bind fun e' _ => ?_
      · simp only [Emitter.advance, Emitter.push]
        omega
      · split_ifs
        · exact answered_null _
        · exact answered_ok _
    case groupEnd => exact answered_null _
    case invalid => exact answered_null _

end Answering

private theorem answering (hread : Readable tokens) (fuel : ℕ) : Answering tokens fuel := by
  induction fuel with
  | zero =>
    constructor
    · intro e hfuel
      omega
    · intro e hfuel
      omega
    · intro first e hfuel
      omega
    · intro e hpos hfuel
      omega
    · intro e hpos hfuel
      omega
  | succ fuel ih =>
    exact ⟨fun _ => ih.alternation_succ hread, fun _ => ih.concatenation_succ,
      fun _ _ => ih.loop_succ hread, fun _ => ih.quantified_succ, fun _ => ih.primary_succ hread⟩

theorem emitProgram_answered (hread : Readable tokens) : Answered (emitProgram tokens) := by
  rw [emitProgram]
  have hfuel : 5 * (tokens.length - 0) + 3 ≤ emitFuel tokens := by
    rw [emitFuel]
    omega
  apply ((answering hread _).alternation _ hfuel).bind
  intro e _
  split_ifs
  · exact answered_null _
  · exact answered_ok _

end Libromano.Regex
