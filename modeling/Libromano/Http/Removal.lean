/- Entries that are removed from a header. The search for an entry stops where the size or the
   beginning of the key agrees, and what it stops at is unlinked only at the end of the list. -/

import Libromano.Foundation.Objects
import Libromano.Http.Headers
import Mathlib.Data.List.TakeWhile

set_option autoImplicit false
set_option relaxedAutoImplicit false

namespace Libromano.Http

open Bytes
open Foundation.Chains Foundation.Objects

/-- `memcmp(s1, s2, n) == 0`. -/
def memcmpEq (s1 s2 : List UInt8) (n : ℕ) : Except Fault Bool := do
  let bytes₁ ← bytesAt s1 0 n
  let bytes₂ ← bytesAt s2 0 n
  .ok (bytes₁ == bytes₂)

/-- The loop of `http_header_remove_entry`, with its `previous` and `entry`. -/
def removeLoop (header : HTTPHeader) (key : List UInt8) (keySz : ℕ) :
    ℕ → Option ℕ → Option ℕ → Except Fault (Option ℕ × Option ℕ)
  | 0, _, _ => .error .diverges
  | _ + 1, previous, none => .ok (previous, none)
  | fuel + 1, previous, some address =>
    match header.entries[address]? with
    | none => .error .outOfBounds
    | some cell => do
      let entrySz ← strlen cell.item.key
      if entrySz ≠ keySz then do
        let same ← memcmpEq cell.item.key key keySz
        if same then .ok (previous, some address)
        else removeLoop header key keySz fuel (some address) cell.next
      else .ok (previous, some address)

def httpHeaderRemoveEntry (header : HTTPHeader) (key : List UInt8) : Except Fault HTTPHeader :=
  match header.head with
  | none => .ok header
  | some head => do
    let keySz ← strlen key
    if header.head = header.tail then
      match header.entries[head]? with
      | none => .error .outOfBounds
      | some cell => do
        let entrySz ← strlen cell.item.key
        if entrySz = keySz then do
          let same ← memcmpEq cell.item.key key keySz
          if same then .ok { header with head := none, tail := none } else .ok header
        else .ok header
    else do
      let (previous, entry) ← removeLoop header key keySz (header.entries.length + 1) none header.head
      match previous with
      | none => .ok { header with head := entry }
      | some previous =>
        if entry = header.tail then
          .ok { header with tail := some previous, entries := setNext header.entries previous none }
        else .ok { header with entries := setNext header.entries previous entry }

def HTTPHeaderEntry.name (entry : HTTPHeaderEntry) : List UInt8 := cString entry.key

def Stops (k : List UInt8) (entry : HTTPHeaderEntry) : Bool :=
  decide (entry.name.length = k.length) || decide (k <+: entry.name)

def Terminated (entry : HTTPHeaderEntry) : Prop := entry.key = entry.name ++ [0]

section Search

variable {header : HTTPHeader} {entry : HTTPHeaderEntry} {k after : List UInt8}
  {l : List (ℕ × HTTPHeaderEntry)} {p previous : Option ℕ} {fuel : ℕ}

private theorem name_no_null (entry : HTTPHeaderEntry) : 0 ∉ entry.name := by
  intro hmem
  simpa using List.mem_takeWhile_imp hmem

private theorem strlen_key (hentry : Terminated entry) :
    strlen entry.key = .ok entry.name.length := by
  rw [hentry]
  exact strlen_append (name_no_null entry)

private theorem prefix_key (hentry : Terminated entry) (hk : 0 ∉ k) :
    k <+: entry.key ↔ k <+: entry.name := by
  rw [hentry, List.prefix_concat_iff]
  refine or_iff_right ?_
  rintro rfl
  simp at hk

private theorem memcmpEq_key (hentry : Terminated entry) (hk : 0 ∉ k) :
    memcmpEq entry.key (k ++ 0 :: after) k.length =
      if k.length ≤ entry.name.length + 1 then .ok (decide (k <+: entry.name))
      else .error .outOfBounds := by
  have hkey : bytesAt (k ++ 0 :: after) 0 k.length = .ok k :=
    bytesAt_append [] k (0 :: after) rfl rfl
  have hlength : entry.key.length = entry.name.length + 1 := by
    rw [hentry]
    exact List.length_append
  have hsame : (entry.key.take k.length == k) = decide (k <+: entry.name) := by
    rw [Bool.eq_iff_iff, beq_iff_eq, decide_eq_true_iff, ← prefix_key hentry hk,
      List.prefix_iff_eq_take]
    exact eq_comm
  rw [memcmpEq, hkey, bytesAt, Foundation.Block.load, Nat.zero_add, hlength]
  split_ifs with hle
  · rw [List.drop_zero]
    exact congrArg Except.ok hsame
  · rfl

private theorem removeLoop_cons {address : ℕ} {next : Option ℕ} (hentry : Terminated entry)
    (hk : 0 ∉ k)
    (hcell : header.entries[address]? = some ⟨entry, next⟩) :
    removeLoop header (k ++ 0 :: after) k.length (fuel + 1) previous (some address) =
      if Stops k entry then .ok (previous, some address)
      else if k.length ≤ entry.name.length + 1 then
        removeLoop header (k ++ 0 :: after) k.length fuel (some address) next
      else .error .outOfBounds := by
  rw [removeLoop]
  simp only [hcell, strlen_key hentry, bind_ok, memcmpEq_key hentry hk]
  by_cases hsize : entry.name.length = k.length
  · have hstops : Stops k entry = true := by simp [Stops, hsize]
    rw [if_neg (not_not.mpr hsize), if_pos hstops]
  · rw [if_pos hsize]
    by_cases hbegins : k <+: entry.name
    · have hstops : Stops k entry = true := by simp [Stops, hbegins]
      have hle := hbegins.length_le
      rw [if_pos hstops, if_pos (by omega), bind_ok, decide_eq_true hbegins, if_pos rfl]
    · have hstops : ¬Stops k entry = true := by simp [Stops, hbegins, hsize]
      rw [if_neg hstops]
      split_ifs with hle
      · rw [bind_ok, decide_eq_false hbegins, if_neg Bool.false_ne_true]
      · rfl

def passed (k : List UInt8) (l : List (ℕ × HTTPHeaderEntry)) : List (ℕ × HTTPHeaderEntry) :=
  l.takeWhile fun x => !Stops k x.2

def stopped (k : List UInt8) (l : List (ℕ × HTTPHeaderEntry)) : List (ℕ × HTTPHeaderEntry) :=
  l.dropWhile fun x => !Stops k x.2

private theorem passed_append_stopped : passed k l ++ stopped k l = l :=
  List.takeWhile_append_dropWhile

def Comparable (k : List UInt8) (l : List (ℕ × HTTPHeaderEntry)) : Prop :=
  ∀ x ∈ passed k l, k.length ≤ x.2.name.length + 1

private theorem removeLoop_eq (after : List UInt8) (previous : Option ℕ)
    (hl : Segment header.entries p l none) (hk : 0 ∉ k)
    (hterminated : ∀ x ∈ l, Terminated x.2) (hcomparable : Comparable k l) (hfuel : l.length < fuel) :
    removeLoop header (k ++ 0 :: after) k.length fuel previous p =
      .ok ((addresses (passed k l)).getLast?.or previous, (addresses (stopped k l)).head?) := by
  induction l generalizing p previous fuel with
  | nil =>
    obtain rfl : p = none := hl
    obtain ⟨fuel, rfl⟩ : ∃ n, fuel = n + 1 := ⟨fuel - 1, by simp at hfuel; omega⟩
    rfl
  | cons first l ih =>
    obtain ⟨a, entry⟩ := first
    obtain ⟨rfl, next, hcell, hl⟩ := hl
    obtain ⟨fuel, rfl⟩ : ∃ n, fuel = n + 1 := ⟨fuel - 1, by simp at hfuel; omega⟩
    obtain ⟨hentry, hterminated⟩ := List.forall_mem_cons.mp hterminated
    rw [removeLoop_cons hentry hk hcell]
    unfold Comparable passed at hcomparable
    unfold passed stopped
    by_cases hstops : Stops k entry = true
    · rw [if_pos hstops, List.takeWhile_cons_of_neg (by simp [hstops]),
        List.dropWhile_cons_of_neg (by simp [hstops])]
      rfl
    · rw [List.takeWhile_cons_of_pos (by simp [hstops])] at hcomparable ⊢
      rw [List.dropWhile_cons_of_pos (by simp [hstops])]
      obtain ⟨hle, hcomparable⟩ := List.forall_mem_cons.mp hcomparable
      rw [if_neg hstops, if_pos hle, ih _ hl hterminated hcomparable (by simpa using hfuel),
        addresses_cons, List.getLast?_cons]
      unfold passed stopped
      cases (addresses (List.takeWhile (fun x => !Stops k x.2) l)).getLast? with
      | none => rfl
      | some b => rfl

private theorem removeLoop_error (after : List UInt8) (previous : Option ℕ)
    (hl : Segment header.entries p l none) (hk : 0 ∉ k)
    (hterminated : ∀ x ∈ l, Terminated x.2) (hcomparable : ¬Comparable k l) (hfuel : l.length < fuel) :
    removeLoop header (k ++ 0 :: after) k.length fuel previous p = .error .outOfBounds := by
  induction l generalizing p previous fuel with
  | nil => exact absurd (List.forall_mem_nil _) hcomparable
  | cons first l ih =>
    obtain ⟨a, entry⟩ := first
    obtain ⟨rfl, next, hcell, hl⟩ := hl
    obtain ⟨fuel, rfl⟩ : ∃ n, fuel = n + 1 := ⟨fuel - 1, by simp at hfuel; omega⟩
    obtain ⟨hentry, hterminated⟩ := List.forall_mem_cons.mp hterminated
    rw [removeLoop_cons hentry hk hcell]
    unfold Comparable passed at hcomparable
    by_cases hstops : Stops k entry = true
    · rw [List.takeWhile_cons_of_neg (by simp [hstops])] at hcomparable
      exact absurd (List.forall_mem_nil _) hcomparable
    · rw [List.takeWhile_cons_of_pos (by simp [hstops]), List.forall_mem_cons] at hcomparable
      rw [if_neg hstops]
      split_ifs with hle
      · exact ih _ hl hterminated (fun h => hcomparable ⟨hle, h⟩) (by simpa using hfuel)
      · rfl

/-- An entry is removed where it is the only one and has the key, or where it is the
last one and the search stops at it. -/
def remaining (k : List UInt8) (l : List (ℕ × HTTPHeaderEntry)) : List (ℕ × HTTPHeaderEntry) :=
  match l with
  | [] => []
  | [x] => if x.2.name = k then [] else [x]
  | l => if (stopped k l).length = 1 then passed k l else l

private theorem remaining_of_two (h : 1 < l.length) :
    remaining k l = if (stopped k l).length = 1 then passed k l else l := by
  match l, h with
  | _ :: _ :: _, _ => rfl

private theorem remove_single {a : ℕ} (hl : Listed header [(a, entry)]) (hk : 0 ∉ k)
    (hentry : Terminated entry) : ∃ header',
      httpHeaderRemoveEntry header (k ++ 0 :: after) = .ok header' ∧
        Listed header' (remaining k [(a, entry)]) := by
  obtain ⟨hhead, hcell⟩ := Segment.singleton.mp hl.segment
  have htail : header.tail = some a := hl.tail
  simp only [httpHeaderRemoveEntry, hhead, htail, if_true, strlen_append hk, hcell,
    strlen_key hentry, bind_ok, memcmpEq_key hentry hk, remaining]
  by_cases hsize : entry.name.length = k.length
  · have hsame : k <+: entry.name ↔ entry.name = k := by
      constructor
      · exact fun h => (h.eq_of_length hsize.symm).symm
      · rintro rfl
        exact List.prefix_rfl
    rw [if_pos hsize, if_pos (by omega), bind_ok]
    by_cases hname : entry.name = k
    · rw [decide_eq_true (hsame.mpr hname), if_pos rfl, if_pos hname]
      exact ⟨_, rfl, rfl, rfl⟩
    · rw [decide_eq_false (mt hsame.mp hname), if_neg Bool.false_ne_true, if_neg hname]
      exact ⟨_, rfl, hl⟩
  · rw [if_neg hsize, if_neg (fun hname => hsize (congrArg List.length hname))]
    exact ⟨_, rfl, hl⟩

private theorem Listed.head_ne_tail (hl : Listed header l) (hlong : 1 < l.length) :
    header.head ≠ header.tail := by
  have hnodup := hl.segment.nodup
  match l, hlong with
  | (a, x) :: y :: l, _ =>
    intro hends
    rw [hl.segment.1, hl.tail] at hends
    rw [addresses_cons, List.nodup_cons] at hnodup
    refine hnodup.1 (List.mem_of_getLast? ?_)
    rw [addresses_cons, List.getLast?_cons_of_ne_nil (by simp [addresses])] at hends
    exact hends.symm

private theorem remove_stopped (hl : Listed header l) (hlong : 1 < l.length) (hk : 0 ∉ k)
    (hterminated : ∀ x ∈ l, Terminated x.2) (hcomparable : Comparable k l) : ∃ header',
      httpHeaderRemoveEntry header (k ++ 0 :: after) = .ok header' ∧
        Listed header' (remaining k l) := by
  have hends := hl.head_ne_tail hlong
  have hsearch := removeLoop_eq after none hl.segment hk hterminated
    hcomparable (Nat.lt_succ_of_le hl.segment.length_le)
  have hsplit : passed k l ++ stopped k l = l := passed_append_stopped
  obtain ⟨head, hhead⟩ : ∃ a, header.head = some a := by
    apply Option.ne_none_iff_exists'.mp
    intro hnone
    rw [hl.segment.eq_none_iff.mp hnone] at hlong
    exact absurd hlong (Nat.not_lt_zero 1)
  rw [remaining_of_two hlong, httpHeaderRemoveEntry]
  simp only [hhead, strlen_append hk, bind_ok]
  rw [← hhead, if_neg hends, hsearch]
  have htail := hl.tail
  have hsegment := hl.segment
  rcases List.eq_nil_or_concat' (passed k l) with hpassed | ⟨before, ⟨a, x⟩, hpassed⟩
  · rw [hpassed, List.nil_append] at hsplit
    rw [hpassed, hsplit, if_neg (by omega)]
    refine ⟨_, rfl, ?_, htail⟩
    rwa [← hsegment.eq_head?]
  · have hprevious : ((addresses (passed k l)).getLast?.or none) = some a := by
      rw [hpassed, addresses_append]
      simp [addresses]
    rw [hpassed, List.append_assoc, List.singleton_append] at hsplit
    rw [← hsplit] at hsegment htail
    obtain ⟨r, -, -, next, -, hstopped⟩ := Segment.append.mp hsegment
    have hnodup := hsegment.nodup
    rw [addresses_append, List.nodup_append, addresses_cons, List.nodup_cons] at hnodup
    have hfresh := hnodup.2.1.1
    have hstopped_nodup := hnodup.2.1.2
    have hrelinked := hsegment.relink hstopped hfresh
    rw [hstopped.eq_head?] at hrelinked
    rw [bind_ok, hprevious]
    dsimp only
    rcases hcases : stopped k l with _ | ⟨⟨b, y⟩, rest⟩
    · rw [hcases] at hrelinked htail hsplit
      have hnot : ¬(addresses ([] : List (ℕ × HTTPHeaderEntry))).head? = header.tail := by
        rw [htail]
        simp [addresses]
      rw [if_neg hnot, if_neg (by simp), ← hsplit]
      exact ⟨_, rfl, hrelinked, htail⟩
    · rw [hcases] at hrelinked htail hsplit hstopped_nodup
      rcases rest with _ | ⟨z, rest⟩
      · have hlast : (addresses [(b, y)]).head? = header.tail := by
          rw [htail]
          simp [addresses]
        rw [if_pos hlast, if_pos List.length_singleton, hpassed]
        refine ⟨_, rfl, ?_, ?_⟩
        · have hnothing : Segment header.entries none [] none := rfl
          exact hsegment.relink hnothing List.not_mem_nil
        · rw [addresses_append]
          exact List.getLast?_concat.symm
      · have hnot : ¬(addresses ((b, y) :: z :: rest)).head? = header.tail := by
          intro hlast
          rw [addresses_cons, List.nodup_cons] at hstopped_nodup
          have hbehind : (addresses (before ++ [(a, x), (b, y)] ++ z :: rest)).getLast? =
              (addresses (z :: rest)).getLast? :=
            getLast?_addresses_append (List.cons_ne_nil z rest)
          rw [List.append_assoc] at hbehind
          exact hstopped_nodup.1 (List.mem_of_getLast? (hbehind.symm.trans (hlast.trans htail).symm))
        rw [if_neg hnot, if_neg (by simp), ← hsplit]
        exact ⟨_, rfl, hrelinked, htail⟩

private theorem httpHeaderRemoveEntry_eq (after : List UInt8) (hl : Listed header l) (hk : 0 ∉ k)
    (hterminated : ∀ x ∈ l, Terminated x.2) (hcomparable : l.length ≤ 1 ∨ Comparable k l) :
    ∃ header', httpHeaderRemoveEntry header (k ++ 0 :: after) = .ok header' ∧
      Listed header' (remaining k l) := by
  rcases hlength : l with _ | ⟨⟨a, entry⟩, _ | ⟨y, rest⟩⟩
  · subst hlength
    have hhead : header.head = none := hl.segment
    refine ⟨header, ?_, hl⟩
    rw [httpHeaderRemoveEntry, hhead]
  · subst hlength
    exact remove_single hl hk (hterminated _ List.mem_cons_self)
  · have hlong : 1 < l.length := by simp [hlength]
    rw [← hlength]
    exact remove_stopped hl hlong hk hterminated (hcomparable.resolve_left (by omega))

private theorem httpHeaderRemoveEntry_error (hl : Listed header l) (hk : 0 ∉ k)
    (hterminated : ∀ x ∈ l, Terminated x.2) (hlong : 1 < l.length) (hcomparable : ¬Comparable k l) :
    httpHeaderRemoveEntry header (k ++ 0 :: after) = .error .outOfBounds := by
  have hsearch := removeLoop_error after none hl.segment hk hterminated
    hcomparable (Nat.lt_succ_of_le hl.segment.length_le)
  obtain ⟨head, hhead⟩ : ∃ a, header.head = some a := by
    apply Option.ne_none_iff_exists'.mp
    intro hnone
    rw [hl.segment.eq_none_iff.mp hnone] at hlong
    exact absurd hlong (Nat.not_lt_zero 1)
  rw [httpHeaderRemoveEntry]
  simp only [hhead, strlen_append hk, bind_ok]
  rw [← hhead, if_neg (hl.head_ne_tail hlong), hsearch]
  rfl

private theorem name_ne_of_passed {x : ℕ × HTTPHeaderEntry} (hx : x ∈ passed k l) :
    x.2.name ≠ k := by
  intro hname
  have hnot := List.mem_takeWhile_imp hx
  simp [Stops, hname] at hnot

private theorem remaining_eq_iff (hlong : 1 < l.length) :
    items (remaining k l) = items (l.eraseP fun x => x.2.name = k) ↔
      ((stopped k l).length = 1 ↔ ∃ x ∈ l, x.2.name = k) := by
  have hsplit : passed k l ++ stopped k l = l := passed_append_stopped
  have hlength := congrArg List.length hsplit
  rw [List.length_append] at hlength
  rw [remaining_of_two hlong]
  by_cases hmem : ∃ x ∈ l, x.2.name = k
  · obtain ⟨x, hx, hname⟩ := hmem
    have herase : (l.eraseP fun x => x.2.name = k).length = l.length - 1 :=
      List.length_eraseP_of_mem hx (by simpa using hname)
    have hcond : ((stopped k l).length = 1 ↔ ∃ x ∈ l, x.2.name = k) ↔ (stopped k l).length = 1 :=
      iff_true_right ⟨x, hx, hname⟩
    rw [hcond]
    split_ifs with hone
    · refine iff_of_true ?_ hone
      obtain ⟨y, hy⟩ := List.length_eq_one_iff.mp hone
      rw [hy] at hsplit
      have hkey : y.2.name = k := by
        rw [← hsplit] at hx
        rcases List.mem_append.mp hx with hx | hx
        · exact absurd hname (name_ne_of_passed hx)
        · rwa [← List.mem_singleton.mp hx]
      conv_rhs => rw [← hsplit]
      rw [List.eraseP_append_right _ (fun z hz => by simpa using name_ne_of_passed hz),
        List.eraseP_cons_of_pos (by simpa using hkey), List.append_nil]
    · refine iff_of_false (fun hsame => ?_) hone
      have hlengths := congrArg List.length hsame
      rw [items, items, List.length_map, List.length_map] at hlengths
      omega
  · have hnone : ∀ x ∈ l, ¬decide (x.2.name = k) = true := by
      intro x hx hname
      exact hmem ⟨x, hx, of_decide_eq_true hname⟩
    have hcond : ((stopped k l).length = 1 ↔ ∃ x ∈ l, x.2.name = k) ↔ ¬(stopped k l).length = 1 :=
      iff_false_right hmem
    rw [List.eraseP_of_forall_not hnone, hcond]
    split_ifs with hone
    · refine iff_of_false (fun hsame => ?_) (not_not.mpr hone)
      have hlengths := congrArg List.length hsame
      rw [items, items, List.length_map, List.length_map] at hlengths
      omega
    · exact iff_of_true rfl hone

private theorem remaining_eq_of_short (hshort : l.length ≤ 1) :
    items (remaining k l) = items (l.eraseP fun x => x.2.name = k) := by
  match l, hshort with
  | [], _ => rfl
  | [x], _ =>
    rw [remaining, List.eraseP_cons]
    by_cases hname : x.2.name = k <;> simp [hname]

end Search

inductive HTTPHeaderOp
  | add (key : List UInt8) (keySz : ℕ) (value : List UInt8) (valueSz : ℕ)
  | remove (key : List UInt8)

namespace HTTPHeaderOp

def step (header : HTTPHeader) : HTTPHeaderOp → Except Fault HTTPHeader
  | add key keySz value valueSz => httpHeaderAddEntry header key keySz value valueSz
  | remove key => httpHeaderRemoveEntry header key

end HTTPHeaderOp

def Sized (str : List UInt8) (strSz : ℕ) : Prop :=
  0 ∈ str ∧ (strSz = 0 ∨ strSz = (cString str).length)

/-- What the callers promise. -/
def HTTPHeaderOp.Given : HTTPHeaderOp → Prop
  | add key keySz value valueSz => Sized key keySz ∧ Sized value valueSz
  | remove key => 0 ∈ key

def entryOf (pair : List UInt8 × List UInt8) : HTTPHeaderEntry := ⟨pair.1 ++ [0], pair.2 ++ [0]⟩

/-- A header is an ordered list of pairs. -/
def pairs : Spec HTTPHeader HTTPHeaderOp (List (List UInt8 × List UInt8)) where
  Shows header l := httpHeaderEntries header = .ok (l.map entryOf) ∧
    ∀ key, httpHeaderFind header key =
      .ok ((l.find? fun pair => pair.1 = cString key).map entryOf)
  apply _ op l := match op with
    | .add key _ value _ => l ++ [(cString key, cString value)]
    | .remove key => l.eraseP fun pair => pair.1 = cString key
  Effect _ _ _ := True

/-- The search passes over no entry that is two bytes shorter than the key, and it stops
at the last entry exactly when there is something to remove. A single entry is always
compared as it should be. -/
def Removable (k : List UInt8) (entries : List HTTPHeaderEntry) : Prop :=
  entries.length ≤ 1 ∨
    (∀ entry ∈ entries.takeWhile (fun entry => !Stops k entry),
      k.length ≤ entry.name.length + 1) ∧
    ((entries.dropWhile fun entry => !Stops k entry).length = 1 ↔
      ∃ entry ∈ entries, entry.name = k)

/-- The strings fit in the arena, and the entry is one that can be removed. -/
def HTTPHeaderOp.Fits (header : HTTPHeader) : HTTPHeaderOp → Prop
  | add key _ value _ => Storable (cString key) ∧ Storable (cString value)
  | remove key => ∀ entries, httpHeaderEntries header = .ok entries →
      Removable (cString key) entries

section Runs

variable {header header' : HTTPHeader} {key value k : List UInt8} {keySz valueSz : ℕ}
  {t : List (List UInt8 × List UInt8)} {pair : List UInt8 × List UInt8}
  {l : List (ℕ × HTTPHeaderEntry)} {op : HTTPHeaderOp} {ops : List HTTPHeaderOp}

private theorem name_entryOf (h : 0 ∉ pair.1) : (entryOf pair).name = pair.1 := cString_append h

structure Stores (header : HTTPHeader) (t : List (List UInt8 × List UInt8)) : Prop where
  shows_entries : Shows header (t.map entryOf)
  no_null : ∀ pair ∈ t, 0 ∉ pair.1

private theorem stores_init : Stores httpHeaderInit [] := ⟨shows_init, List.forall_mem_nil _⟩

private theorem find?_entryOf (hnull : ∀ pair ∈ t, 0 ∉ pair.1) :
    (t.map entryOf).find? (fun entry => entry.name = k) =
      (t.find? fun pair => pair.1 = k).map entryOf := by
  induction t with
  | nil => rfl
  | cons pair t ih =>
    obtain ⟨hpair, hrest⟩ := List.forall_mem_cons.mp hnull
    rw [List.map_cons, List.find?_cons, List.find?_cons, name_entryOf hpair]
    by_cases hkey : pair.1 = k
    · simp [hkey]
    · simpa [hkey] using ih hrest

private theorem eraseP_entryOf (hnull : ∀ pair ∈ t, 0 ∉ pair.1) :
    (t.map entryOf).eraseP (fun entry => entry.name = k) =
      (t.eraseP fun pair => pair.1 = k).map entryOf := by
  induction t with
  | nil => rfl
  | cons pair t ih =>
    obtain ⟨hpair, hrest⟩ := List.forall_mem_cons.mp hnull
    rw [List.map_cons, List.eraseP_cons, List.eraseP_cons, name_entryOf hpair]
    by_cases hkey : pair.1 = k
    · simp [hkey]
    · simpa [hkey] using ih hrest

private theorem Stores.shows (h : Stores header t) : pairs.Shows header t := by
  refine ⟨h.shows_entries.entries_eq, fun key => ?_⟩
  rw [httpHeaderFind, h.shows_entries.entries_eq, bind_ok]
  exact congrArg Except.ok (find?_entryOf h.no_null)

private theorem internalString_sized (h : Sized key keySz) : internalString key keySz =
    if Storable (cString key) then .ok (cString key ++ [0]) else .error .arenaOverrun := by
  obtain ⟨hkey, hzero | hsize⟩ := h
  · subst hzero
    exact internalString_eq [] hkey
  · obtain ⟨after, hsplit, hnull⟩ := exists_cString hkey
    have hcopy := internalString_eq (cString key) (List.mem_cons_self (a := (0 : UInt8)) (l := after))
    have hcopied : copied (cString key) (0 :: after) = cString key := by
      rw [copied]
      split_ifs with hnil
      · rw [hnil]
        rfl
      · rfl
    rw [hsize]
    rwa [← hsplit, hcopied] at hcopy

private theorem Stores.add (h : Stores header t) (hkey : Sized key keySz)
    (hvalue : Sized value valueSz)
    (hstorable : Storable (cString key) ∧ Storable (cString value)) : ∃ header',
      httpHeaderAddEntry header key keySz value valueSz = .ok header' ∧
        Stores header' (t ++ [(cString key, cString value)]) := by
  refine ⟨header.link (entryOf (cString key, cString value)), ?_, ?_, ?_⟩
  · rw [httpHeaderAddEntry, internalString_sized hkey, if_pos hstorable.1,
      internalString_sized hvalue, if_pos hstorable.2]
    rfl
  · rw [List.map_append]
    exact h.shows_entries.link
  · rw [List.forall_mem_append, List.forall_mem_singleton]
    obtain ⟨-, -, hnull⟩ := exists_cString hkey.1
    exact ⟨h.no_null, hnull⟩

private theorem add_error (hkey : Sized key keySz) (hvalue : Sized value valueSz)
    (hstorable : ¬(Storable (cString key) ∧ Storable (cString value))) :
    httpHeaderAddEntry header key keySz value valueSz ≠ .ok header' := by
  rw [httpHeaderAddEntry, internalString_sized hkey, internalString_sized hvalue]
  intro hok
  by_cases hroom : Storable (cString key)
  · rw [if_pos hroom, if_neg (fun hroom' => hstorable ⟨hroom, hroom'⟩)] at hok
    exact nomatch hok
  · rw [if_neg hroom] at hok
    exact nomatch hok

private theorem Stores.listed (h : Stores header t) :
    ∃ l, Listed header l ∧ items l = t.map entryOf ∧
    ∀ x ∈ l, Terminated x.2 := by
  obtain ⟨⟨l, hl, hitems⟩, hnull⟩ := h
  refine ⟨l, hl, hitems, fun x hx => ?_⟩
  have hmem : x.2 ∈ items l := List.mem_map_of_mem hx
  rw [hitems] at hmem
  obtain ⟨pair, hpair, hentry⟩ := List.mem_map.mp hmem
  rw [← hentry, Terminated, name_entryOf (hnull pair hpair)]
  rfl

private theorem removable_items : Removable k (items l) ↔
    l.length ≤ 1 ∨ Comparable k l ∧ ((stopped k l).length = 1 ↔ ∃ x ∈ l, x.2.name = k) := by
  have hany : (∃ entry ∈ items l, entry.name = k) ↔ ∃ x ∈ l, x.2.name = k := by
    simp only [items, List.mem_map, exists_exists_and_eq_and]
  rw [Removable, hany]
  simp only [Comparable, passed, stopped, items, List.takeWhile_map, List.dropWhile_map,
    List.length_map, List.forall_mem_map, Function.comp_def]

private theorem items_eraseP (hitems : items l = t.map entryOf) (hnull : ∀ pair ∈ t, 0 ∉ pair.1) :
    items (l.eraseP fun x => x.2.name = k) = (t.eraseP fun pair => pair.1 = k).map entryOf := by
  rw [← eraseP_entryOf hnull, ← hitems, items, items, List.eraseP_map]
  rfl

private theorem Stores.remove (h : Stores header t) (hkey : 0 ∈ key)
    (hfits : (HTTPHeaderOp.remove key).Fits header) : ∃ header',
      httpHeaderRemoveEntry header key = .ok header' ∧
        Stores header' (t.eraseP fun pair => pair.1 = cString key) := by
  obtain ⟨l, hl, hitems, hterminated⟩ := h.listed
  obtain ⟨after, hsplit, hnull⟩ := exists_cString hkey
  have hremovable := hfits _ h.shows_entries.entries_eq
  rw [← hitems, removable_items] at hremovable
  obtain ⟨header', hremove, hl'⟩ := httpHeaderRemoveEntry_eq after hl hnull hterminated
    (hremovable.imp_right And.left)
  rw [← hsplit] at hremove
  have hremaining : items (remaining (cString key) l) =
      items (l.eraseP fun x => x.2.name = cString key) := by
    by_cases hlong : 1 < l.length
    · exact (remaining_eq_iff hlong).mpr (hremovable.resolve_left (by omega)).2
    · exact remaining_eq_of_short (by omega)
  refine ⟨header', hremove, ⟨_, hl', hremaining.trans (items_eraseP hitems h.no_null)⟩, ?_⟩
  intro pair hpair
  exact h.no_null pair (List.mem_of_mem_eraseP hpair)

private theorem Stores.not_shows (h : Stores header t) (hkey : 0 ∈ key)
    (hmisfit : ¬(HTTPHeaderOp.remove key).Fits header)
    (hremove : httpHeaderRemoveEntry header key = .ok header') :
    ¬pairs.Shows header' (t.eraseP fun pair => pair.1 = cString key) := by
  obtain ⟨l, hl, hitems, hterminated⟩ := h.listed
  obtain ⟨after, hsplit, hnull⟩ := exists_cString hkey
  have hnot : ¬Removable (cString key) (items l) := by
    intro hremovable
    apply hmisfit
    intro entries hentries
    rw [h.shows_entries.entries_eq] at hentries
    rwa [← Except.ok.inj hentries, ← hitems]
  rw [removable_items, not_or, not_le] at hnot
  obtain ⟨hlong, hnot⟩ := hnot
  rw [hsplit] at hremove
  by_cases hcomparable : Comparable (cString key) l
  · obtain ⟨_, hremove', hl'⟩ := httpHeaderRemoveEntry_eq after hl hnull hterminated
      (.inr hcomparable)
    cases hremove'.symm.trans hremove
    rintro ⟨hentries, -⟩
    have hshown : Shows header' (items (remaining (cString key) l)) := ⟨_, hl', rfl⟩
    have hsame := Except.ok.inj (hshown.entries_eq.symm.trans hentries)
    rw [← items_eraseP hitems h.no_null] at hsame
    exact hnot ⟨hcomparable, (remaining_eq_iff hlong).mp hsame⟩
  · rw [httpHeaderRemoveEntry_error hl hnull hterminated hlong hcomparable] at hremove
    exact nomatch hremove

/-- A header behaves as the list in the runs of steps that fit, and in no other. -/
theorem header_behaves_iff (hgiven : ∀ op ∈ ops, op.Given) :
    Behaves HTTPHeaderOp.step pairs httpHeaderInit [] ops ↔
      Along HTTPHeaderOp.step HTTPHeaderOp.Fits httpHeaderInit ops := by
  refine behaves_iff (I := Stores) (fun s t h => h.shows) ?_ ?_ stores_init (along_of_forall hgiven)
  · intro header t op h hop hfits
    cases op with
    | add key keySz value valueSz =>
      obtain ⟨header', hstep, hstores⟩ := h.add hop.1 hop.2 hfits
      exact ⟨header', hstep, trivial, hstores⟩
    | remove key =>
      obtain ⟨header', hstep, hstores⟩ := h.remove hop hfits
      exact ⟨header', hstep, trivial, hstores⟩
  · intro header t op h hop hmisfit header' hstep
    cases op with
    | add key keySz value valueSz => exact absurd hstep (add_error hop.1 hop.2 hmisfit)
    | remove key => exact h.not_shows hop hmisfit hstep

end Runs

def removedBetween : List HTTPHeaderOp :=
  [.add (literal "a") 0 (literal "1") 1, .add (literal "b") 0 (literal "2") 1,
    .add (literal "c") 0 (literal "3") 1, .remove (literal "b")]

theorem header_behaves_iff_between :
    Behaves HTTPHeaderOp.step pairs httpHeaderInit [] removedBetween ↔
      Along HTTPHeaderOp.step HTTPHeaderOp.Fits httpHeaderInit removedBetween := by
  refine header_behaves_iff ?_
  refine List.forall_mem_cons.mpr ⟨⟨⟨?_, .inl rfl⟩, ?_, .inr rfl⟩, ?_⟩
  on_goal 3 => refine List.forall_mem_cons.mpr ⟨⟨⟨?_, .inl rfl⟩, ?_, .inr rfl⟩, ?_⟩
  on_goal 5 => refine List.forall_mem_cons.mpr ⟨⟨⟨?_, .inl rfl⟩, ?_, .inr rfl⟩, ?_⟩
  on_goal 7 => exact List.forall_mem_singleton.mpr (show 0 ∈ literal "b" by decide)
  all_goals decide

def twoHeaders : List HTTPHeaderOp :=
  [.add (literal "a") 0 (literal "1") 0, .add (literal "b") 0 (literal "2") 0, .remove (literal "a")]

/-- The first of two headers is not removed. -/
theorem header_not_behaves : ¬∀ ops : List HTTPHeaderOp, (∀ op ∈ ops, op.Given) →
    Behaves HTTPHeaderOp.step pairs httpHeaderInit [] ops := by
  intro h
  have hgiven : ∀ op ∈ twoHeaders, op.Given := by
    refine List.forall_mem_cons.mpr ⟨⟨⟨?_, .inl rfl⟩, ?_, .inl rfl⟩, List.forall_mem_cons.mpr
      ⟨⟨⟨?_, .inl rfl⟩, ?_, .inl rfl⟩, List.forall_mem_singleton.mpr ?_⟩⟩
    on_goal 5 => change 0 ∈ literal "a"
    all_goals decide
  obtain ⟨-, s₁, h₁, -, -, s₂, h₂, -, -, s₃, h₃, -, hentries, -⟩ := h twoHeaders hgiven
  have hstep₁ : HTTPHeaderOp.step httpHeaderInit (.add (literal "a") 0 (literal "1") 0) =
    .ok ⟨[⟨⟨literal "a", literal "1"⟩, none⟩], some 0, some 0⟩ := rfl
  cases hstep₁.symm.trans h₁
  have hstep₂ : HTTPHeaderOp.step ⟨[⟨⟨literal "a", literal "1"⟩, none⟩], some 0, some 0⟩
    (.add (literal "b") 0 (literal "2") 0) =
    .ok ⟨[⟨⟨literal "a", literal "1"⟩, some 1⟩, ⟨⟨literal "b", literal "2"⟩, none⟩],
      some 0, some 1⟩ := rfl
  cases hstep₂.symm.trans h₂
  have hstep₃ : HTTPHeaderOp.step ⟨[⟨⟨literal "a", literal "1"⟩, some 1⟩,
      ⟨⟨literal "b", literal "2"⟩, none⟩], some 0, some 1⟩ (.remove (literal "a")) =
    .ok ⟨[⟨⟨literal "a", literal "1"⟩, some 1⟩, ⟨⟨literal "b", literal "2"⟩, none⟩],
      some 0, some 1⟩ := rfl
  cases hstep₃.symm.trans h₃
  have hlength := congrArg (Except.map List.length) hentries
  exact absurd hlength (by decide)

end Libromano.Http
