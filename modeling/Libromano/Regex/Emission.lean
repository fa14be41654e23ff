/- The emitters accept a row of tokens exactly when it spells a tree, and then they emit the
   program of the tree. -/

import Libromano.Regex.Code

set_option autoImplicit false
set_option relaxedAutoImplicit false

namespace Libromano.Regex

def Spelled (tokens : List RegexToken) (t : Tree) : Prop :=
  tokens.map RegexToken.symbol = t.symbols.map .ok

def Ends (tokens : List RegexToken) : Prop :=
  tokens.head?.map RegexToken.type = none ∨ tokens.head?.map RegexToken.type = some .groupEnd

def Emitter.after (e : Emitter) (first : Bool) (t : Tree) : Emitter :=
  ⟨e.pos + t.symbols.length, t.nextId e.currentGroupId,
    e.bytecode ++ assemble (t.code first e.currentGroupId)⟩

theorem typeAt_eq (tokens : List RegexToken) (pos : ℕ) :
    typeAt tokens pos = (tokens.drop pos).head?.map RegexToken.type := by
  rw [typeAt, List.head?_drop]

def quantifierOf : Option TokenType → Quantifier
  | some (.operator .zeroOrMore) => .zeroOrMore
  | some (.operator .oneOrMore) => .oneOrMore
  | some (.operator .zeroOrOne) => .zeroOrOne
  | _ => .once

private theorem jump_eq (e : Emitter) (op : OpCode) (offset : Int32) :
    e.jump op offset = e.push (op.byte :: regexEncodeJump offset) := by
  rw [Emitter.jump, Emitter.push, ← regexEmitJump_patch]

theorem assemble_singleton (i : Instr) : assemble [i] = i.bytes := List.append_nil _

private theorem zeroOrMore_bytes (before : List UInt8) (primary : List Instr) :
    before ++ assemble primary ++ (OpCode.jumpEq.byte :: regexEncodeJump
        (Int32.ofInt (before.length - (before ++ assemble primary).length : ℤ))) ++
        [OpCode.setFlag.byte, 1] =
      before ++ assemble (Quantifier.zeroOrMore.code primary) := by
  have hback : (before.length : ℤ) - ((before ++ assemble primary).length : ℕ) =
      -span primary := by
    rw [List.length_append, span]
    omega
  rw [hback, Quantifier.code, assemble_append, List.append_assoc, List.append_assoc]
  rfl

private theorem oneOrMore_bytes (before : List UInt8) (primary : List Instr) :
    let loop := before ++ assemble primary
    let body := loop ++ (OpCode.jumpNeq.byte :: regexEncodeJump jumpFail) ++ assemble primary
    let exit := regexEmitJump body .jumpNeq
    let closed := exit.1 ++ [OpCode.setFlag.byte, 1]
    let looped := closed ++
      (OpCode.jumpEq.byte :: regexEncodeJump (Int32.ofInt (loop.length - closed.length : ℤ)))
    regexPatchJump looped exit.2 (Int32.ofInt (looped.length - exit.2 - 1 : ℤ)) =
      before ++ assemble (Quantifier.oneOrMore.code primary) := by
  intro loop body exit closed looped
  have hbody : body.length = loop.length + 5 + (assemble primary).length := by
    simp only [body, List.length_append, List.length_cons, length_regexEncodeJump]
  have hclosed : closed.length = body.length + 7 := by simp [closed, exit, regexEmitJump]
  have hlooped : looped.length = closed.length + 5 := by simp [looped]
  have hexit : exit.2 = body.length + 1 := by simp [exit, regexEmitJump]
  have hback : (loop.length : ℤ) - closed.length = -(span primary + 12) := by
    rw [span]
    omega
  have hout : (looped.length : ℤ) - exit.2 - 1 = 10 := by omega
  rw [hout]
  have hpatch := overwrite_append (body ++ [OpCode.jumpNeq.byte]) (regexEncodeJump 0)
    ([OpCode.setFlag.byte, 1] ++ (OpCode.jumpEq.byte :: regexEncodeJump
      (Int32.ofInt (loop.length - closed.length : ℤ)))) (regexEncodeJump 10) rfl
  have hshape : looped = (body ++ [OpCode.jumpNeq.byte]) ++ (regexEncodeJump 0 ++
      ([OpCode.setFlag.byte, 1] ++ (OpCode.jumpEq.byte :: regexEncodeJump
        (Int32.ofInt (loop.length - closed.length : ℤ))))) := by
    simp [looped, closed, exit, regexEmitJump]
  rw [hshape, regexPatchJump]
  refine hpatch.trans ?_
  rw [hback]
  simp [body, loop, Quantifier.code, Instr.bytes, Instr.jumpNeq, Instr.jumpEq, Instr.setFlag]

private theorem emitQuantifier_eq (tokens : List RegexToken) (pos : ℕ) (id : UInt32)
    (before : List UInt8) (primary : List Instr) :
    emitQuantifier tokens before.length ⟨pos, id, before ++ assemble primary⟩ =
      ⟨pos + (quantifierOf (typeAt tokens pos)).symbols.length, id,
        before ++ assemble ((quantifierOf (typeAt tokens pos)).code primary)⟩ := by
  rw [emitQuantifier]
  generalize typeAt tokens pos = y
  match y with
  | some (.operator .zeroOrMore) =>
    simp only [Emitter.advance, jump_eq, Emitter.push, zeroOrMore_bytes]
    rfl
  | some (.operator .oneOrMore) =>
    simp only [Emitter.advance, jump_eq, Emitter.push, List.drop_left]
    exact congrArg (Emitter.mk (pos + 1) id) (oneOrMore_bytes before primary)
  | some (.operator .zeroOrOne) =>
    simp only [Emitter.advance, Emitter.push, quantifierOf, Quantifier.code, assemble_append,
      List.append_assoc]
    rfl
  | none | some (.operator .alternate) | some (.operator .concatenate) | some (.character _)
  | some .characterRange | some .groupBegin | some .groupEnd | some .invalid => rfl

section Inversion

variable {tokens : List RegexToken}

/-- From `e` to `e'` the emitters went over the tokens of a tree and up to the
end of its row. -/
def Row (tokens : List RegexToken) (first : Bool) (e e' : Emitter) : Prop :=
  ∃ t ts rest, tokens.drop e.pos = ts ++ rest ∧ Spelled ts t ∧ Ends rest ∧ e' = e.after first t

/-- One test or group, or a separator with all that follows it in its row. -/
inductive Part (rest : List RegexToken) (q : Quantifier) : Tree → Prop
  | test (t : Test) : Part rest q (.test t q .empty)
  | group (body : Tree) : Part rest q (.group body q .empty)
  | separator (s : Separator) (t : Tree) : Ends rest → Part rest q (.separator s t)

def PartOf (tokens : List RegexToken) (q : Quantifier → Prop) (e e' : Emitter) : Prop :=
  ∃ t ts rest k, q k ∧ tokens.drop e.pos = ts ++ rest ∧ Spelled ts t ∧ Part rest k t ∧
    e' = e.after true t

theorem Ends.typeAt {pos : ℕ} (h : Ends (tokens.drop pos)) :
    typeAt tokens pos = none ∨ typeAt tokens pos = some .groupEnd := by
  rwa [typeAt_eq]

private theorem ends_drop {pos : ℕ}
    (h : typeAt tokens pos = none ∨ typeAt tokens pos = some .groupEnd) :
    Ends (tokens.drop pos) := by
  rwa [typeAt_eq] at h

private theorem alternationLoop_ends {pos : ℕ} {fuel : ℕ} {e e' : Emitter} (hpos : e.pos = pos)
    (h : Ends (tokens.drop pos)) (hrun : alternationLoop tokens fuel e = .ok e') : e' = e := by
  subst hpos
  cases fuel with
  | zero => cases hrun
  | succ fuel =>
    rw [alternationLoop_of_end h.typeAt] at hrun
    cases hrun
    rfl

private theorem Emitter.after_empty (e : Emitter) (first : Bool) : e.after first .empty = e := by
  simp [Emitter.after, Tree.symbols, Tree.nextId, Tree.code]

private theorem Spelled.length_eq {ts : List RegexToken} {t : Tree} (h : Spelled ts t) :
    ts.length = t.symbols.length := by
  have := congrArg List.length h
  simpa using this

private theorem drop_after (first : Bool) {e : Emitter} {ts rest : List RegexToken} {t : Tree}
    (hdrop : tokens.drop e.pos = ts ++ rest) (ht : Spelled ts t) :
    tokens.drop (e.after first t).pos = rest := by
  rw [Emitter.after, ← ht.length_eq, ← List.drop_drop, hdrop, List.drop_left]

theorem Row.ends {first : Bool} {e e' : Emitter} (h : Row tokens first e e') :
    Ends (tokens.drop e'.pos) := by
  obtain ⟨t, ts, rest, hdrop, ht, hends, rfl⟩ := h
  rwa [drop_after first hdrop ht]

private theorem Spelled.eq_empty {ts rest : List RegexToken} {t : Tree} (h : Spelled ts t)
    (hends : Ends (ts ++ rest)) : t = .empty := by
  cases ts with
  | nil => cases t <;> simp_all [Spelled, Tree.symbols]
  | cons token ts =>
    have htype : token.type = .groupEnd := by
      rcases hends with h | h
      · cases h
      · exact Option.some.inj h
    have hsymbol : token.symbol = .ok .groupEnd := by rw [RegexToken.symbol, htype]
    cases t with
    | empty => rfl
    | test t q rest => simp [Spelled, Tree.symbols, hsymbol] at h
    | group body q rest => simp [Spelled, Tree.symbols, hsymbol] at h
    | separator s rest => cases s <;> simp [Spelled, Tree.symbols, Separator.symbol, hsymbol] at h

theorem begin_eq (first : Bool) (e : Emitter) :
    (if first then e else e.jump .jumpNeq jumpFail) = e.push (assemble (failJump first)) := by
  cases first with
  | true => simp [failJump, Emitter.push]
  | false =>
    rw [jump_eq, failJump, if_neg Bool.false_ne_true, if_neg Bool.false_ne_true,
      assemble_singleton]
    rfl

private theorem PartOf.row {first : Bool} {e e' e'' : Emitter}
    (h : PartOf tokens (fun _ => True) (e.push (assemble (failJump first))) e')
    (hrest : Row tokens false e' e'') : Row tokens first e e'' := by
  obtain ⟨t, ts, rest, q, -, hdrop, ht, hpart, rfl⟩ := h
  obtain ⟨t', ts', rest', hdrop', ht', hends', rfl⟩ := hrest
  rw [drop_after true hdrop ht] at hdrop'
  subst hdrop'
  have htokens : tokens.drop e.pos = (ts ++ ts') ++ rest' := by
    rw [List.append_assoc]
    exact hdrop
  cases hpart with
  | test x =>
    refine ⟨.test x q t', _, _, htokens, ?_, hends', ?_⟩
    · simp_all [Spelled, Tree.symbols]
    · simp [Emitter.after, Emitter.push, Tree.symbols, Tree.nextId, Tree.code, failJump,
        Nat.add_assoc, Nat.add_comm]
  | group body =>
    refine ⟨.group body q t', _, _, htokens, ?_, hends', ?_⟩
    · simp_all [Spelled, Tree.symbols]
    · simp [Emitter.after, Emitter.push, Tree.symbols, Tree.nextId, Tree.code, failJump]
      omega
  | separator s t hends =>
    obtain rfl := ht'.eq_empty hends
    obtain rfl : ts' = [] := List.map_eq_nil_iff.mp ht'
    refine ⟨.separator s t, _, _, hdrop, ht, hends, ?_⟩
    rw [Emitter.after_empty]
    simp [Emitter.after, Emitter.push, Tree.symbols, Tree.nextId, Tree.code, failJump]

private theorem exists_quantifier (rest : List RegexToken) : ∃ ts rest', rest = ts ++ rest' ∧
    ts.map RegexToken.symbol =
      (quantifierOf (rest.head?.map RegexToken.type)).symbols.map .ok := by
  cases rest with
  | nil => exact ⟨[], [], rfl, rfl⟩
  | cons token rest =>
    have hone (op : OperatorType) (h : token.type = .operator op) :
        ∃ ts rest', token :: rest = ts ++ rest' ∧ ts.map RegexToken.symbol = [.ok (.operator op)] :=
      ⟨[token], rest, rfl, by rw [List.map_singleton, RegexToken.symbol, h]⟩
    rw [List.head?_cons, Option.map_some]
    rcases htype : token.type with _ | _ | op | _ | _ | _
    case operator =>
      cases op with
      | alternate | concatenate => exact ⟨[], _, rfl, rfl⟩
      | zeroOrMore | oneOrMore | zeroOrOne => exact hone _ htype
    all_goals exact ⟨[], _, rfl, rfl⟩

theorem drop_of_getElem? {pos : ℕ} {token : RegexToken} (h : tokens[pos]? = some token) :
    tokens.drop pos = token :: tokens.drop (pos + 1) := by
  obtain ⟨hlt, rfl⟩ := List.getElem?_eq_some_iff.mp h
  exact List.drop_eq_getElem_cons hlt

private theorem assemble_range (first last : UInt8) :
    assemble (Test.code (.range first last)) = regexEmitRangeOpcodes first last := by
  rw [Test.code, regexEmitRangeOpcodes]
  split_ifs <;> rfl

private theorem PartOf.of_test {e : Emitter} {token : RegexToken} {x : Test}
    (htoken : tokens[e.pos]? = some token) (hsymbol : token.symbol = .ok (.test x)) :
    PartOf tokens (· = .once) e (e.advance.push (assemble x.code)) := by
  refine ⟨.test x .once .empty, [token], _, .once, rfl, drop_of_getElem? htoken, ?_, .test x, ?_⟩
  · simp [Spelled, Tree.symbols, Quantifier.symbols, hsymbol]
  · simp [Emitter.after, Emitter.push, Emitter.advance, Tree.symbols, Quantifier.symbols,
      Tree.nextId, Tree.code, Quantifier.code, failJump]

private theorem PartOf.of_separator {e e' : Emitter} {token : RegexToken} {s : Separator}
    (htoken : tokens[e.pos]? = some token) (hsymbol : token.symbol = .ok s.symbol)
    (hrow : Row tokens true e.advance e') : PartOf tokens (· = .once) e e' := by
  obtain ⟨t, ts, rest, hdrop, ht, hends, rfl⟩ := hrow
  refine ⟨.separator s t, token :: ts, rest, .once, rfl, ?_, ?_, .separator s t hends, ?_⟩
  · rw [drop_of_getElem? htoken, List.cons_append]
    exact congrArg _ hdrop
  · simp_all [Spelled, Tree.symbols]
  · simp [Emitter.after, Emitter.advance, Tree.symbols, Tree.nextId, Tree.code, failJump,
      Nat.add_assoc, Nat.add_comm]

private theorem PartOf.of_group {e e₁ e' : Emitter} {token : RegexToken}
    (htoken : tokens[e.pos]? = some token) (htype : token.type = .groupBegin)
    (hrow : Row tokens true ((⟨e.pos + 1, e.currentGroupId + 1, e.bytecode⟩ : Emitter).push
      [OpCode.groupStart.byte, e.currentGroupId.toUInt8]) e₁)
    (hrun : (if typeAt tokens e₁.pos ≠ some .groupEnd then
        .error (.null .regexMismatchedParentheses)
      else .ok (e₁.advance.push [OpCode.groupEnd.byte, e.currentGroupId.toUInt8]) :
        Except Stop Emitter) = .ok e') : PartOf tokens (· = .once) e e' := by
  obtain ⟨t, ts, rest, hdrop, ht, -, rfl⟩ := hrow
  have hafter := drop_after true hdrop ht
  rw [typeAt_eq, hafter] at hrun
  split_ifs at hrun with hclosed
  cases hrun
  obtain ⟨close, rest, rfl⟩ : ∃ close rest', rest = close :: rest' := by
    cases rest with
    | nil => exact absurd (by simp) hclosed
    | cons close rest => exact ⟨close, rest, rfl⟩
  have hclose : close.type = .groupEnd := by simpa using hclosed
  refine ⟨.group t .once .empty, token :: (ts ++ [close]), rest, .once, rfl, ?_, ?_, .group t, ?_⟩
  · rw [drop_of_getElem? htoken, List.cons_append, List.append_assoc]
    exact congrArg _ hdrop
  · have hbegin : token.symbol = .ok .groupBegin := by rw [RegexToken.symbol, htype]
    have hend : close.symbol = .ok .groupEnd := by rw [RegexToken.symbol, hclose]
    simp_all [Spelled, Tree.symbols, Quantifier.symbols]
  · simp [Emitter.after, Emitter.push, Emitter.advance, Tree.symbols, Quantifier.symbols,
      Tree.nextId, Tree.code, Quantifier.code, failJump, Tree.groupCode, Instr.bytes,
      Instr.groupStart, Instr.groupEnd]
    omega

structure Inverts (tokens : List RegexToken) (fuel : ℕ) : Prop where
  alternation : ∀ e e', regexEmitAlternation tokens fuel e = .ok e' → Row tokens true e e'
  concatenation : ∀ e e', regexEmitConcatenation tokens fuel e = .ok e' → Row tokens true e e'
  loop : ∀ first e e', concatenationLoop tokens fuel first e = .ok e' → Row tokens first e e'
  quantified : ∀ e e', regexEmitQuantified tokens fuel e = .ok e' →
    PartOf tokens (fun _ => True) e e'
  primary : ∀ e e', regexEmitPrimary tokens fuel e = .ok e' → PartOf tokens (· = .once) e e'

private theorem Spelled.quantify_test {ts qs : List RegexToken} {t : Test} {q : Quantifier}
    (hqs : qs.map RegexToken.symbol = q.symbols.map .ok) (h : Spelled ts (.test t .once .empty)) :
    Spelled (ts ++ qs) (.test t q .empty) := by
  have honce : Quantifier.once.symbols = [] := rfl
  simp only [Spelled, Tree.symbols, honce, List.append_nil, List.map_append, List.map_cons,
    List.map_nil, hqs] at h ⊢
  rw [h]
  simp

private theorem Spelled.quantify_group {ts qs : List RegexToken} {body : Tree} {q : Quantifier}
    (hqs : qs.map RegexToken.symbol = q.symbols.map .ok)
    (h : Spelled ts (.group body .once .empty)) : Spelled (ts ++ qs) (.group body q .empty) := by
  have honce : Quantifier.once.symbols = [] := rfl
  simp only [Spelled, Tree.symbols, honce, List.append_nil, List.map_append, List.map_cons,
    List.map_nil, hqs] at h ⊢
  rw [h]
  simp

namespace Inverts

variable {fuel : ℕ} (h : Inverts tokens fuel) {e e' : Emitter}

include h

private theorem alternation_succ (hrun : regexEmitAlternation tokens (fuel + 1) e = .ok e') :
    Row tokens true e e' := by
  rw [regexEmitAlternation_succ] at hrun
  obtain ⟨e₁, hrow, hloop⟩ := bind_eq_ok.mp hrun
  have hrow := h.concatenation e e₁ hrow
  rw [alternationLoop_ends rfl hrow.ends hloop]
  exact hrow

private theorem concatenation_succ (hrun : regexEmitConcatenation tokens (fuel + 1) e = .ok e') :
    Row tokens true e e' := by
  rw [regexEmitConcatenation_succ] at hrun
  exact h.loop true e e' hrun

private theorem loop_succ {first : Bool}
    (hrun : concatenationLoop tokens (fuel + 1) first e = .ok e') :
    Row tokens first e e' := by
  have hstop (hpos : typeAt tokens e.pos = none ∨ typeAt tokens e.pos = some .groupEnd)
      (hrun : Except.ok e = (Except.ok e' : Except Stop Emitter)) : Row tokens first e e' := by
    cases hrun
    exact ⟨.empty, [], _, rfl, rfl, ends_drop hpos, (e.after_empty first).symm⟩
  rw [concatenationLoop_succ] at hrun
  split at hrun
  · next hpos => exact hstop (.inl hpos) hrun
  · next hpos => exact hstop (.inr hpos) hrun
  · simp only [begin_eq] at hrun
    obtain ⟨e₁, hpart, hloop⟩ := bind_eq_ok.mp hrun
    exact (h.quantified _ _ hpart).row (h.loop false e₁ e' hloop)

private theorem quantified_succ (hrun : regexEmitQuantified tokens (fuel + 1) e = .ok e') :
    PartOf tokens (fun _ => True) e e' := by
  rw [regexEmitQuantified_succ] at hrun
  obtain ⟨e₁, hprimary, hrun⟩ := bind_eq_ok.mp hrun
  obtain ⟨t, ts, rest, k, rfl, hdrop, ht, hpart, rfl⟩ := h.primary e e₁ hprimary
  have hafter := drop_after true hdrop ht
  have htype : typeAt tokens (e.after true t).pos = rest.head?.map RegexToken.type := by
    rw [typeAt_eq, hafter]
  obtain ⟨qs, rest', hrest, hqs⟩ := exists_quantifier rest
  have hlength := congrArg List.length hqs
  simp only [List.length_map] at hlength
  have htokens : tokens.drop e.pos = (ts ++ qs) ++ rest' := by
    rw [List.append_assoc, ← hrest]
    exact hdrop
  cases hpart with
  | test x =>
    have hcode : e.after true (.test x .once .empty) =
        ⟨e.pos + 1, e.currentGroupId, e.bytecode ++ assemble x.code⟩ := by
      simp [Emitter.after, Tree.symbols, Quantifier.symbols, Tree.nextId, Tree.code, failJump,
        Quantifier.code]
    rw [hcode] at hrun htype
    rw [emitQuantifier_eq, htype] at hrun
    cases hrun
    refine ⟨.test x (quantifierOf (rest.head?.map RegexToken.type)) .empty, _, _, _, trivial,
      htokens, ?_, .test x, ?_⟩
    · exact Spelled.quantify_test hqs ht
    · simp [Emitter.after, Tree.symbols, Tree.nextId, Tree.code, failJump]
      omega
  | group body =>
    have hcode : e.after true (.group body .once .empty) =
        ⟨e.pos + (body.symbols.length + 2), body.nextId (e.currentGroupId + 1), e.bytecode ++
          assemble (Tree.groupCode e.currentGroupId
            (body.code true (e.currentGroupId + 1)))⟩ := by
      simp [Emitter.after, Tree.symbols, Quantifier.symbols, Tree.nextId, Tree.code, failJump,
        Quantifier.code]
    rw [hcode] at hrun htype
    rw [emitQuantifier_eq, htype] at hrun
    cases hrun
    refine ⟨.group body (quantifierOf (rest.head?.map RegexToken.type)) .empty, _, _, _, trivial,
      htokens, ?_, .group body, ?_⟩
    · exact Spelled.quantify_group hqs ht
    · simp [Emitter.after, Tree.symbols, Tree.nextId, Tree.code, failJump]
      omega
  | separator s t hends =>
    have hsame : emitQuantifier tokens e.bytecode.length (e.after true (.separator s t)) =
        e.after true (.separator s t) := by
      rw [emitQuantifier, htype]
      rcases hends with hends | hends <;> rw [hends]
    rw [hsame] at hrun
    cases hrun
    exact ⟨_, _, _, .once, trivial, hdrop, ht, .separator s t hends, rfl⟩

private theorem primary_succ (hlexed : ∀ token ∈ tokens, token.type ≠ .character .range)
    (hrun : regexEmitPrimary tokens (fuel + 1) e = .ok e') : PartOf tokens (· = .once) e e' := by
  rw [regexEmitPrimary] at hrun
  cases htoken : tokens[e.pos]? with
  | none => simp [htoken] at hrun
  | some token =>
    simp only [htoken] at hrun
    rcases htype : token.type with encoding | _ | op | _ | _ | _
    all_goals simp only [htype] at hrun
    case character =>
      cases encoding with
      | single =>
        obtain ⟨c, hc, hrun⟩ := bind_eq_ok.mp hrun
        cases hrun
        exact .of_test (x := .single c) htoken (by simp [RegexToken.symbol, htype, hc])
      | any =>
        cases hrun
        exact .of_test (x := .any) htoken (by simp [RegexToken.symbol, htype])
      | range => exact absurd htype (hlexed token (List.mem_of_getElem? htoken))
    case characterRange =>
      obtain ⟨first, hfirst, hrun⟩ := bind_eq_ok.mp hrun
      obtain ⟨last, hlast, hrun⟩ := bind_eq_ok.mp hrun
      cases hrun
      rw [← assemble_range]
      exact .of_test htoken (by simp [RegexToken.symbol, htype, hfirst, hlast])
    case operator =>
      cases op with
      | alternate =>
        exact .of_separator (s := .bar) htoken (by simp [RegexToken.symbol, htype, Separator.symbol])
          (h.alternation _ _ hrun)
      | concatenate =>
        exact .of_separator (s := .concatenation) htoken
          (by simp [RegexToken.symbol, htype, Separator.symbol]) (h.concatenation _ _ hrun)
      | zeroOrMore | oneOrMore | zeroOrOne => cases hrun
    case groupBegin =>
      obtain ⟨e₁, hrow, hrun⟩ := bind_eq_ok.mp hrun
      exact .of_group htoken htype (h.alternation _ _ hrow) hrun
    case groupEnd => cases hrun
    case invalid => cases hrun

end Inverts

theorem inverts (hlexed : ∀ token ∈ tokens, token.type ≠ .character .range) (fuel : ℕ) :
    Inverts tokens fuel := by
  induction fuel with
  | zero =>
    constructor
    all_goals
      intros
      rename_i hrun
      cases hrun
  | succ fuel ih =>
    exact ⟨fun _ _ => ih.alternation_succ, fun _ _ => ih.concatenation_succ,
      fun _ _ _ => ih.loop_succ, fun _ _ => ih.quantified_succ, fun _ _ => ih.primary_succ hlexed⟩

theorem exists_tree_of_emitProgram {bytecode : List UInt8}
    (hlexed : ∀ token ∈ tokens, token.type ≠ .character .range)
    (hrun : emitProgram tokens = .ok bytecode) :
    ∃ t, Spelled tokens t ∧ bytecode = assemble t.program := by
  rw [emitProgram] at hrun
  obtain ⟨e, hrow, hrun⟩ := bind_eq_ok.mp hrun
  obtain ⟨t, ts, rest, hdrop, ht, hends, rfl⟩ := (inverts hlexed _).alternation _ _ hrow
  split_ifs at hrun with hpos
  cases hrun
  have hrest := drop_after true hdrop ht
  rw [List.drop_eq_nil_of_le (not_lt.mp hpos)] at hrest
  subst hrest
  obtain rfl : tokens = ts := by simpa using hdrop
  refine ⟨t, ht, ?_⟩
  rw [jump_eq]
  simp [Emitter.after, Emitter.push, Tree.program, Instr.bytes, Instr.jumpNeq, Instr.accept,
    Instr.fail]

end Inversion

section Emission

variable {tokens : List RegexToken}

theorem type_of_symbol_operator {token : RegexToken} {op : OperatorType}
    (h : token.symbol = .ok (.operator op)) : token.type = .operator op := by
  rw [RegexToken.symbol] at h
  split at h <;> simp_all [bind_eq_ok]

theorem type_of_symbol_groupBegin {token : RegexToken} (h : token.symbol = .ok .groupBegin) :
    token.type = .groupBegin := by
  rw [RegexToken.symbol] at h
  split at h <;> simp_all [bind_eq_ok]

theorem type_of_symbol_groupEnd {token : RegexToken} (h : token.symbol = .ok .groupEnd) :
    token.type = .groupEnd := by
  rw [RegexToken.symbol] at h
  split at h <;> simp_all [bind_eq_ok]

theorem type_of_symbol_test {token : RegexToken} {x : Test} (h : token.symbol = .ok (.test x)) :
    quantifierOf (some token.type) = .once ∧ token.type ≠ .groupEnd := by
  rw [RegexToken.symbol] at h
  split at h <;> simp_all [bind_eq_ok, quantifierOf]

theorem primary_test {fuel : ℕ} {e : Emitter} {token : RegexToken} {x : Test}
    (htoken : tokens[e.pos]? = some token) (h : token.symbol = .ok (.test x)) :
    regexEmitPrimary tokens (fuel + 1) e = .ok (e.advance.push (assemble x.code)) := by
  rw [regexEmitPrimary]
  simp only [htoken]
  rw [RegexToken.symbol] at h
  split at h
  · next htype =>
    obtain ⟨c, hc, h⟩ := bind_eq_ok.mp h
    cases h
    simp only [htype, hc, bind_ok]
    rfl
  · next htype =>
    cases h
    simp only [htype]
    rfl
  · next htype =>
    obtain ⟨first, hfirst, h⟩ := bind_eq_ok.mp h
    obtain ⟨last, hlast, h⟩ := bind_eq_ok.mp h
    cases h
    simp only [htype, hfirst, hlast, bind_ok, assemble_range]
  all_goals cases h

def Tree.depth : Tree → ℕ
  | .empty => 1
  | .test _ _ rest => rest.depth + 2
  | .group body _ rest => body.depth + rest.depth + 5
  | .separator _ rest => rest.depth + 5

theorem Tree.depth_le (t : Tree) : t.depth ≤ 5 * t.symbols.length + 1 := by
  induction t with
  | empty => simp [depth]
  | test x q rest ih =>
    simp only [depth, symbols, List.length_cons, List.length_append]
    omega
  | group body q rest ihbody ihrest =>
    simp only [depth, symbols, List.length_cons, List.length_append]
    omega
  | separator s rest ih =>
    simp only [depth, symbols, List.length_cons]
    omega

theorem Tree.depth_pos (t : Tree) : 1 ≤ t.depth := by
  cases t <;> simp [depth]

theorem quantifierOf_head {ts rest : List RegexToken} {t : Tree} (h : Spelled ts t)
    (hends : Ends rest) : quantifierOf ((ts ++ rest).head?.map RegexToken.type) = .once := by
  cases ts with
  | nil => rcases hends with h | h <;> rw [List.nil_append, h] <;> rfl
  | cons token ts =>
    rw [List.cons_append, List.head?_cons, Option.map_some]
    cases t with
    | empty => cases h
    | test x q r => exact (type_of_symbol_test (List.cons.inj h).1).1
    | group body q r =>
      rw [type_of_symbol_groupBegin (List.cons.inj h).1]
      rfl
    | separator s r =>
      cases s with
      | bar | concatenation =>
        rw [type_of_symbol_operator (List.cons.inj h).1]
        rfl

theorem quantifierOf_spelled {qs ts rest : List RegexToken} {q : Quantifier} {t : Tree}
    (hqs : qs.map RegexToken.symbol = q.symbols.map .ok) (h : Spelled ts t) (hends : Ends rest) :
    quantifierOf ((qs ++ (ts ++ rest)).head?.map RegexToken.type) = q := by
  cases q with
  | once =>
    obtain rfl := List.map_eq_nil_iff.mp hqs
    rw [List.nil_append]
    exact quantifierOf_head h hends
  | zeroOrMore | oneOrMore | zeroOrOne =>
    obtain ⟨token, qs, rfl, htoken, -⟩ := List.map_eq_cons_iff.mp hqs
    rw [List.cons_append, List.head?_cons, Option.map_some, type_of_symbol_operator htoken]
    rfl

theorem getElem?_of_drop {pos : ℕ} {token : RegexToken} {rest : List RegexToken}
    (h : tokens.drop pos = token :: rest) : tokens[pos]? = some token := by
  rw [← List.head?_drop, h, List.head?_cons]

theorem drop_succ_of_drop {pos : ℕ} {token : RegexToken} {rest : List RegexToken}
    (h : tokens.drop pos = token :: rest) : tokens.drop (pos + 1) = rest := by
  rw [← List.drop_drop, h]
  rfl

theorem loop_ends {fuel : ℕ} {first : Bool} {e : Emitter} (h : Ends (tokens.drop e.pos)) :
    concatenationLoop tokens (fuel + 1) first e = .ok e := by
  rw [concatenationLoop_succ]
  rcases h.typeAt with h | h <;> rw [h]

theorem alternation_of_loop {fuel : ℕ} {e e' : Emitter}
    (hloop : concatenationLoop tokens fuel true e = .ok e') (hends : Ends (tokens.drop e'.pos)) :
    regexEmitAlternation tokens (fuel + 2) e = .ok e' := by
  rw [regexEmitAlternation_succ, regexEmitConcatenation_succ, hloop, bind_ok,
    alternationLoop_of_end hends.typeAt]

theorem loop_of_quantified {fuel : ℕ} {first : Bool} {e e' : Emitter}
    (hgo : typeAt tokens e.pos ≠ none ∧ typeAt tokens e.pos ≠ some .groupEnd)
    (hpart : regexEmitQuantified tokens fuel (e.push (assemble (failJump first))) = .ok e') :
    concatenationLoop tokens (fuel + 1) first e = concatenationLoop tokens fuel false e' := by
  rw [concatenationLoop_succ]
  split
  · next h => exact absurd h hgo.1
  · next h => exact absurd h hgo.2
  · simp only [begin_eq, hpart, bind_ok]

theorem quantified_of_primary {fuel pos : ℕ} {e : Emitter} {id : UInt32} {primary : List Instr}
    {q : Quantifier} (hprimary : regexEmitPrimary tokens fuel e =
      .ok ⟨pos, id, e.bytecode ++ assemble primary⟩)
    (hq : quantifierOf (typeAt tokens pos) = q) :
    regexEmitQuantified tokens (fuel + 1) e =
      .ok ⟨pos + q.symbols.length, id, e.bytecode ++ assemble (q.code primary)⟩ := by
  rw [regexEmitQuantified_succ, hprimary, bind_ok, emitQuantifier_eq, hq]

theorem concatenationLoop_tree (t : Tree) (first : Bool) {fuel : ℕ} {e : Emitter}
    {ts rest : List RegexToken} (hfuel : t.depth ≤ fuel) (hdrop : tokens.drop e.pos = ts ++ rest)
    (ht : Spelled ts t) (hends : Ends rest) :
    concatenationLoop tokens fuel first e = .ok (e.after first t) := by
  induction t generalizing fuel e first ts rest with
  | empty =>
    obtain rfl : ts = [] := List.map_eq_nil_iff.mp ht
    obtain ⟨fuel, rfl⟩ : ∃ n, fuel = n + 1 := ⟨fuel - 1, by simp [Tree.depth] at hfuel; omega⟩
    rw [loop_ends (by rw [hdrop]; exact hends), e.after_empty]
  | test x q r ih =>
    rw [Tree.depth] at hfuel
    obtain ⟨fuel, rfl⟩ : ∃ n, fuel = n + 3 := ⟨fuel - 3, by have := r.depth_pos; omega⟩
    obtain ⟨token, ts, rfl, htoken, hts⟩ := List.map_eq_cons_iff.mp ht
    rw [List.map_append] at hts
    obtain ⟨qs, ts, rfl, hqs, hts⟩ := List.map_eq_append_iff.mp hts
    rw [List.cons_append, List.append_assoc] at hdrop
    have hat := getElem?_of_drop hdrop
    have hnext := drop_succ_of_drop hdrop
    have hgo : typeAt tokens e.pos ≠ none ∧ typeAt tokens e.pos ≠ some .groupEnd := by
      rw [typeAt, hat]
      exact ⟨by simp, fun h => (type_of_symbol_test htoken).2 (Option.some.inj h)⟩
    have hq : quantifierOf (typeAt tokens (e.pos + 1)) = q := by
      rw [typeAt_eq, hnext]
      exact quantifierOf_spelled hqs hts hends
    have hpart : regexEmitQuantified tokens (fuel + 2) (e.push (assemble (failJump first))) =
        .ok ⟨e.pos + 1 + q.symbols.length, e.currentGroupId,
          e.bytecode ++ assemble (failJump first) ++ assemble (q.code x.code)⟩ :=
      quantified_of_primary (primary_test hat htoken) hq
    have hlength : qs.length = q.symbols.length := by
      simpa using congrArg List.length hqs
    have hrest : tokens.drop (e.pos + 1 + q.symbols.length) = ts ++ rest := by
      rw [← List.drop_drop, hnext, ← hlength, List.drop_left]
    rw [loop_of_quantified hgo hpart, ih false (by omega) hrest hts hends]
    simp [Emitter.after, Tree.symbols, Tree.nextId, Tree.code]
    omega
  | group body q r ihbody ihrest =>
    rw [Tree.depth] at hfuel
    obtain ⟨fuel, rfl⟩ : ∃ n, fuel = n + 6 :=
      ⟨fuel - 6, by have := r.depth_pos; have := body.depth_pos; omega⟩
    obtain ⟨token, ts, rfl, htoken, hts⟩ := List.map_eq_cons_iff.mp ht
    rw [List.map_append] at hts
    obtain ⟨bs, ts, rfl, hbs, hts⟩ := List.map_eq_append_iff.mp hts
    obtain ⟨close, ts, rfl, hclose, hts⟩ := List.map_eq_cons_iff.mp hts
    rw [List.map_append] at hts
    obtain ⟨qs, ts, rfl, hqs, hts⟩ := List.map_eq_append_iff.mp hts
    simp only [List.cons_append, List.append_assoc] at hdrop
    have hat := getElem?_of_drop hdrop
    have hnext := drop_succ_of_drop hdrop
    have htype := type_of_symbol_groupBegin htoken
    have hclosed := type_of_symbol_groupEnd hclose
    have hgo : typeAt tokens e.pos ≠ none ∧ typeAt tokens e.pos ≠ some .groupEnd := by
      rw [typeAt, hat]
      simp [htype]
    let e₁ : Emitter := ⟨e.pos + 1, e.currentGroupId + 1, e.bytecode ++
      assemble (failJump first) ++ [OpCode.groupStart.byte, e.currentGroupId.toUInt8]⟩
    have hafter : tokens.drop (e₁.after true body).pos = close :: (qs ++ (ts ++ rest)) :=
      drop_after true hnext hbs
    have hbody : regexEmitAlternation tokens (fuel + 3) e₁ = .ok (e₁.after true body) :=
      alternation_of_loop (ihbody true (by have := r.depth_pos; omega) hnext hbs (.inr (by simp [hclosed])))
        (.inr (by simp [hafter, hclosed]))
    have hprimary : regexEmitPrimary tokens (fuel + 4) (e.push (assemble (failJump first))) =
        .ok ⟨e.pos + (body.symbols.length + 2), body.nextId (e.currentGroupId + 1),
          e.bytecode ++ assemble (failJump first) ++ assemble (Tree.groupCode e.currentGroupId
            (body.code true (e.currentGroupId + 1)))⟩ := by
      rw [regexEmitPrimary]
      simp only [Emitter.push, hat, htype]
      refine bind_eq_ok.mpr ⟨e₁.after true body, hbody, ?_⟩
      rw [if_neg (by simp [typeAt_eq, hafter, hclosed])]
      simp [e₁, Emitter.after, Emitter.advance, Tree.groupCode, Instr.bytes, Instr.groupStart,
        Instr.groupEnd]
      omega
    have hlength : qs.length = q.symbols.length := by
      simpa using congrArg List.length hqs
    have hpos : (e₁.after true body).pos + 1 = e.pos + (body.symbols.length + 2) := by
      simp only [e₁, Emitter.after]
      omega
    have hopen : tokens.drop (e.pos + (body.symbols.length + 2)) = qs ++ (ts ++ rest) := by
      rw [← hpos]
      exact drop_succ_of_drop hafter
    have hq : quantifierOf (typeAt tokens (e.pos + (body.symbols.length + 2))) = q := by
      rw [typeAt_eq, hopen]
      exact quantifierOf_spelled hqs hts hends
    have hrest : tokens.drop (e.pos + (body.symbols.length + 2) + q.symbols.length) =
        ts ++ rest := by
      rw [← List.drop_drop, hopen, ← hlength, List.drop_left]
    rw [loop_of_quantified hgo (quantified_of_primary hprimary hq),
      ihrest false (by have := body.depth_pos; omega) hrest hts hends]
    simp [Emitter.after, Emitter.push, Tree.symbols, Tree.nextId, Tree.code]
    omega
  | separator s r ih =>
    rw [Tree.depth] at hfuel
    obtain ⟨fuel, rfl⟩ : ∃ n, fuel = n + 6 := ⟨fuel - 6, by have := r.depth_pos; omega⟩
    obtain ⟨token, ts, rfl, htoken, hts⟩ := List.map_eq_cons_iff.mp ht
    rw [List.cons_append] at hdrop
    have hat := getElem?_of_drop hdrop
    have hnext := drop_succ_of_drop hdrop
    let e₁ : Emitter := (e.push (assemble (failJump first))).advance
    have hafter : tokens.drop (e₁.after true r).pos = rest := drop_after true hnext hts
    have hloop : ∀ n, r.depth ≤ n → concatenationLoop tokens n true e₁ = .ok (e₁.after true r) :=
      fun n hn => ih true hn hnext hts hends
    have hprimary : regexEmitPrimary tokens (fuel + 4) (e.push (assemble (failJump first))) =
        .ok (e₁.after true r) := by
      rw [regexEmitPrimary]
      cases s with
      | bar =>
        simp only [Emitter.push, hat, type_of_symbol_operator htoken]
        exact alternation_of_loop (hloop (fuel + 1) (by omega)) (by rwa [hafter])
      | concatenation =>
        simp only [Emitter.push, hat, type_of_symbol_operator htoken]
        rw [regexEmitConcatenation_succ]
        exact hloop (fuel + 2) (by omega)
    have hends' : Ends (tokens.drop (e₁.after true r).pos) := by rwa [hafter]
    have hpart : regexEmitQuantified tokens (fuel + 5) (e.push (assemble (failJump first))) =
        .ok (e₁.after true r) := by
      rw [regexEmitQuantified_succ, hprimary, bind_ok, emitQuantifier]
      rcases hends'.typeAt with h | h <;> rw [h]
    have hgo : typeAt tokens e.pos ≠ none ∧ typeAt tokens e.pos ≠ some .groupEnd := by
      rw [typeAt, hat]
      cases s <;> simp [type_of_symbol_operator htoken]
    rw [loop_of_quantified hgo hpart, loop_ends hends']
    simp [e₁, Emitter.after, Emitter.push, Emitter.advance, Tree.symbols, Tree.nextId, Tree.code]
    omega

theorem emitProgram_of_spelled {t : Tree} (h : Spelled tokens t) :
    emitProgram tokens = .ok (assemble t.program) := by
  have hdrop : tokens.drop (Emitter.mk 0 1 []).pos = tokens ++ [] := by simp
  have hlength := h.length_eq
  have hends : Ends ([] : List RegexToken) := .inl rfl
  have hfuel : t.depth ≤ emitFuel tokens - 2 := by
    have := t.depth_le
    rw [emitFuel]
    omega
  have hloop := concatenationLoop_tree t true hfuel hdrop h hends
  have hafter := drop_after true hdrop h
  have hrun := alternation_of_loop hloop (by rwa [hafter])
  have hsub : emitFuel tokens - 2 + 2 = emitFuel tokens := by
    rw [emitFuel]
    omega
  rw [hsub] at hrun
  rw [emitProgram, hrun, bind_ok, if_neg (by simp [Emitter.after, hlength]), jump_eq]
  simp [Emitter.after, Emitter.push, Tree.program, Instr.bytes, Instr.jumpNeq, Instr.accept,
    Instr.fail]

end Emission

end Libromano.Regex
