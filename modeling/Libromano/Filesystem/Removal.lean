/- Removal of a file or a directory. A tree is given by the paths that exist in it, as they are
   resolved; `stat`, `remove` and `nftw` are those of POSIX. -/

import Libromano.Foundation.Lookup
import Mathlib.Algebra.Order.Ring.Int
import Mathlib.Data.List.Induction

set_option autoImplicit false
set_option relaxedAutoImplicit false

namespace Libromano.Filesystem

open Foundation

/-- The components of a path below the root of the tree. -/
abbrev Path := List (List UInt8)

inductive Kind
  | regular
  | directory
  deriving DecidableEq, Repr

/-- What exists stands in a directory. -/
structure Tree where
  entries : List (Path × Kind)
  nodup : (entries.map Prod.fst).Nodup
  parents : ∀ dir name kind, (dir ++ [name], kind) ∈ entries → (dir, Kind.directory) ∈ entries

variable {t t' : Tree} {path path' : Path} {kind kind' : Kind} {name : List UInt8}
  {visits : List Path}

namespace Tree

/-- `stat` -/
def kind? (t : Tree) (path : Path) : Option Kind := t.entries.lookup path

/-- What stands in a directory. -/
def children (t : Tree) (path : Path) : List (Path × Kind) :=
  t.entries.filter fun entry => entry.1 ≠ [] ∧ entry.1.dropLast = path

private theorem mem_children {entry : Path × Kind} :
    entry ∈ t.children path ↔ entry ∈ t.entries ∧ ∃ name, entry.1 = path ++ [name] := by
  unfold children
  rw [List.mem_filter, decide_eq_true_iff]
  apply and_congr_right
  intro _
  constructor
  · rintro ⟨hne, rfl⟩
    exact ⟨entry.1.getLast hne, (List.dropLast_append_getLast hne).symm⟩
  · rintro ⟨name, hname⟩
    rw [hname]
    exact ⟨by simp, List.dropLast_concat⟩

private theorem children_eq_nil_iff :
    t.children path = [] ↔ ∀ name kind, (path ++ [name], kind) ∉ t.entries := by
  rw [List.eq_nil_iff_forall_not_mem]
  constructor
  · intro hnone name kind hmem
    exact hnone _ (mem_children.mpr ⟨hmem, name, rfl⟩)
  · rintro hnone ⟨path', kind⟩ hmem
    obtain ⟨hmem, name, rfl⟩ := mem_children.mp hmem
    exact hnone name kind hmem

private theorem kind?_eq_some_iff : t.kind? path = some kind ↔ (path, kind) ∈ t.entries :=
  Lookup.lookup_eq_some_iff_mem t.nodup

private theorem nodup_erase (t : Tree) (path : Path) :
    ((t.entries.filter fun entry => entry.1 ≠ path).map Prod.fst).Nodup :=
  t.nodup.sublist (List.filter_sublist.map _)

private theorem parents_erase (h : t.children path = []) (dir : Path) (name : List UInt8)
    (kind : Kind)
    (hmem : (dir ++ [name], kind) ∈ t.entries.filter fun entry => entry.1 ≠ path) :
    (dir, Kind.directory) ∈ t.entries.filter fun entry => entry.1 ≠ path := by
  have hold := List.mem_of_mem_filter hmem
  refine List.mem_filter.mpr ⟨t.parents dir name kind hold, decide_eq_true ?_⟩
  rintro rfl
  exact children_eq_nil_iff.mp h name kind hold

def erase (t : Tree) (path : Path) (h : t.children path = []) : Tree where
  entries := t.entries.filter fun entry => entry.1 ≠ path
  nodup := t.nodup_erase path
  parents := parents_erase h

end Tree

def remove (t : Tree) (path : Path) : ℤ × Tree :=
  if t.kind? path = none then (-1, t)
  else if h : t.children path = [] then (0, t.erase path h)
  else (-1, t)

/-- Calls the function on one path after the other, up to the first that does not return
0. -/
def visit (callback : Tree → Path → ℤ × Tree) : Tree → List Path → ℤ × Tree
  | t, [] => (0, t)
  | t, path :: rest =>
    let (rv, t) := callback t path
    if rv ≠ 0 then (rv, t) else visit callback t rest

/-- `nftw` with `FTW_DEPTH`, with the order in which it visits the tree. -/
def nftw (walk : Tree → Path → List Path) (t : Tree) (path : Path)
    (callback : Tree → Path → ℤ × Tree) : ℤ × Tree :=
  visit callback t (walk t path)

/-- All that is there from a path downwards is visited, and nothing after a directory that it
stands in. -/
structure DepthFirst (t : Tree) (path : Path) (visits : List Path) : Prop where
  mem : ∀ path', path' ∈ visits ↔ path <+: path' ∧ ∃ kind, (path', kind) ∈ t.entries
  order : visits.Pairwise fun path' path'' => ¬path' <+: path''

def fsRemoveCallback (t : Tree) (fpath : Path) : ℤ × Tree :=
  let (rv, t) := remove t fpath
  if rv ≠ 0 then (rv, t) else (0, t)

def fsPathExists (t : Tree) (path : Path) : Bool := (t.kind? path).isSome

/-- The macro is `S_ISREG`. -/
def fsIsDir (t : Tree) (path : Path) : Bool :=
  if !fsPathExists t path then false else t.kind? path == some .regular

def fsRemove (walk : Tree → Path → List Path) (t : Tree) (path : Path) : Bool × Tree :=
  if fsIsDir t path then
    let (rv, t) := nftw walk t path fsRemoveCallback
    if rv ≠ 0 then (false, t) else (true, t)
  else
    let (rv, t) := remove t path
    (rv == 0, t)

/-- Success, and exactly the tree from the path downwards is gone. -/
structure Removes (t : Tree) (path : Path) (result : Bool × Tree) : Prop where
  returned : result.1 = true
  left : ∀ entry, entry ∈ result.2.entries ↔ entry ∈ t.entries ∧ ¬path <+: entry.1

private theorem remove_of_mem (hmem : (path, kind) ∈ t.entries) (h : t.children path = []) :
    remove t path = (0, t.erase path h) := by
  have hkind : t.kind? path ≠ none := by
    rw [Tree.kind?_eq_some_iff.mpr hmem]
    exact Option.some_ne_none kind
  rw [remove, if_neg hkind, dif_pos h]

private theorem fsRemoveCallback_eq (t : Tree) (path : Path) :
    fsRemoveCallback t path = remove t path := by
  unfold fsRemoveCallback
  dsimp only
  split
  case isTrue => rfl
  case isFalse hzero => exact Prod.ext (not_not.mp hzero).symm rfl

private theorem visit_fsRemoveCallback (hexists : ∀ path ∈ visits, ∃ kind, (path, kind) ∈ t.entries)
    (hchildren : ∀ path ∈ visits, ∀ name kind, (path ++ [name], kind) ∈ t.entries →
      path ++ [name] ∈ visits)
    (horder : visits.Pairwise fun path' path'' => ¬path' <+: path'') :
    (visit fsRemoveCallback t visits).1 = 0 ∧
      ∀ entry, entry ∈ (visit fsRemoveCallback t visits).2.entries ↔
        entry ∈ t.entries ∧ entry.1 ∉ visits := by
  induction visits generalizing t with
  | nil => exact ⟨rfl, fun entry => by simp [visit]⟩
  | cons path rest ih =>
    obtain ⟨hfirst, horder⟩ := List.pairwise_cons.mp horder
    obtain ⟨kind, hmem⟩ := hexists path List.mem_cons_self
    have hempty : t.children path = [] := by
      rw [Tree.children_eq_nil_iff]
      intro name kind hchild
      obtain heq | hrest := List.mem_cons.mp (hchildren path List.mem_cons_self name kind hchild)
      · simp at heq
      · exact hfirst _ hrest (List.prefix_append path [name])
    have hstep : visit fsRemoveCallback t (path :: rest) =
        visit fsRemoveCallback (t.erase path hempty) rest := by
      rw [visit, fsRemoveCallback_eq, remove_of_mem hmem hempty]
      simp
    have herase : ∀ entry, entry ∈ (t.erase path hempty).entries ↔
        entry ∈ t.entries ∧ entry.1 ≠ path := by
      intro entry
      simp [Tree.erase]
    rw [hstep]
    obtain ⟨hzero, hleft⟩ := ih (t := t.erase path hempty) (by
      intro path' hpath'
      obtain ⟨kind', hmem'⟩ := hexists path' (List.mem_cons_of_mem _ hpath')
      refine ⟨kind', (herase _).mpr ⟨hmem', ?_⟩⟩
      rintro rfl
      exact hfirst _ hpath' List.prefix_rfl) (by
      intro path' hpath' name kind' hchild
      obtain ⟨hchild, hne⟩ := (herase _).mp hchild
      obtain heq | hrest := List.mem_cons.mp
        (hchildren path' (List.mem_cons_of_mem _ hpath') name kind' hchild)
      · exact absurd heq hne
      · exact hrest) horder
    refine ⟨hzero, ?_⟩
    intro entry
    rw [hleft, herase, List.mem_cons, not_or, and_assoc]

private theorem Tree.kind_unique (hmem : (path, kind) ∈ t.entries)
    (hmem' : (path, kind') ∈ t.entries) :
    kind = kind' :=
  Option.some.inj ((kind?_eq_some_iff.mpr hmem).symm.trans (kind?_eq_some_iff.mpr hmem'))

private theorem Tree.children_regular (hmem : (path, Kind.regular) ∈ t.entries) :
    t.children path = [] := by
  rw [children_eq_nil_iff]
  intro name kind hchild
  cases kind_unique hmem (t.parents path name kind hchild)

private theorem Tree.eq_of_isPrefix (h : t.children path = []) (hbegins : path <+: path')
    (hmem : (path', kind) ∈ t.entries) : path' = path := by
  obtain ⟨rest, rfl⟩ := hbegins
  induction rest using List.reverseRecOn generalizing kind with
  | nil => exact List.append_nil path
  | append_singleton rest name ih =>
    rw [← List.append_assoc] at hmem
    have hdir := ih (t.parents _ name kind hmem)
    rw [hdir] at hmem
    exact absurd hmem (children_eq_nil_iff.mp h name kind)

private theorem nftw_fsRemoveCallback {walk : Tree → Path → List Path}
    (hwalk : DepthFirst t path (walk t path)) :
    (nftw walk t path fsRemoveCallback).1 = 0 ∧
      ∀ entry, entry ∈ (nftw walk t path fsRemoveCallback).2.entries ↔
        entry ∈ t.entries ∧ ¬path <+: entry.1 := by
  obtain ⟨hzero, hleft⟩ := visit_fsRemoveCallback
    (fun path' hpath' => ((hwalk.mem path').mp hpath').2)
    (fun path' hpath' name kind hchild => (hwalk.mem _).mpr
      ⟨((hwalk.mem path').mp hpath').1.trans (List.prefix_append path' [name]), kind, hchild⟩)
    hwalk.order
  refine ⟨hzero, ?_⟩
  rintro ⟨path', kind⟩
  refine (hleft _).trans (and_congr_right fun hmem => not_congr ?_)
  rw [hwalk.mem]
  exact and_iff_left ⟨kind, hmem⟩

private theorem remove_removes_iff (hmem : (path, kind) ∈ t.entries) :
    Removes t path ((remove t path).1 == 0, (remove t path).2) ↔ t.children path = [] := by
  constructor
  · intro h
    by_contra hchildren
    have hkind : t.kind? path ≠ none := by
      rw [Tree.kind?_eq_some_iff.mpr hmem]
      exact Option.some_ne_none kind
    have hreturned := h.returned
    rw [remove, if_neg hkind, dif_neg hchildren] at hreturned
    cases hreturned
  · intro h
    rw [remove_of_mem hmem h]
    refine ⟨rfl, ?_⟩
    rintro ⟨path', kind'⟩
    simp only [Tree.erase, List.mem_filter, decide_eq_true_eq]
    refine and_congr_right fun hmem' => not_congr ?_
    constructor
    · rintro rfl
      exact List.prefix_rfl
    · intro hbegins
      exact Tree.eq_of_isPrefix h hbegins hmem'

/-- What the function removes is a file or an empty directory. -/
theorem fsRemove_removes_iff (walk : Tree → Path → List Path) (hmem : (path, kind) ∈ t.entries)
    (hwalk : DepthFirst t path (walk t path)) :
    Removes t path (fsRemove walk t path) ↔ t.children path = [] := by
  have hkind := Tree.kind?_eq_some_iff.mpr hmem
  cases kind with
  | regular =>
    have hisDir : fsIsDir t path = true := by simp [fsIsDir, fsPathExists, hkind]
    obtain ⟨hzero, hleft⟩ := nftw_fsRemoveCallback hwalk
    refine iff_of_true ?_ (Tree.children_regular hmem)
    rw [fsRemove, if_pos hisDir]
    simp only [hzero]
    exact ⟨rfl, hleft⟩
  | directory =>
    have hisDir : fsIsDir t path ≠ true := by simp [fsIsDir, fsPathExists, hkind]
    rw [fsRemove, if_neg hisDir]
    exact remove_removes_iff hmem

private theorem small_parents (dir : Path) (name : List UInt8) (kind : Kind)
    (h : (dir ++ [name], kind) ∈ [([], Kind.directory), ([[100]], .directory),
      ([[100], [102]], .regular)]) :
    (dir, Kind.directory) ∈ [([], Kind.directory), ([[100]], .directory),
      ([[100], [102]], .regular)] := by
  simp only [List.mem_cons, Prod.mk.injEq, List.not_mem_nil, or_false] at h
  obtain ⟨heq, -⟩ | ⟨heq, -⟩ | ⟨heq, -⟩ := h
  · simp at heq
  · have hdir := congrArg List.dropLast heq
    rw [List.dropLast_concat] at hdir
    simp [hdir]
  · have hdir := congrArg List.dropLast heq
    rw [List.dropLast_concat] at hdir
    simp [hdir]

/-- A directory `d` with a file `f` in it, below the root. -/
def small : Tree where
  entries := [([], .directory), ([[100]], .directory), ([[100], [102]], .regular)]
  nodup := by decide
  parents := small_parents

/-- The entries of a tree in which directories stand before what is in them. -/
def fromBelow (t : Tree) (path : Path) : List Path :=
  ((t.entries.map Prod.fst).filter (path.isPrefixOf ·)).reverse

private theorem mem_fromBelow (t : Tree) (path path' : Path) :
    path' ∈ fromBelow t path ↔ path <+: path' ∧ ∃ kind, (path', kind) ∈ t.entries := by
  simp [fromBelow, and_comm]

theorem fsRemove_removes_iff_small :
    Removes small [[100], [102]] (fsRemove fromBelow small [[100], [102]]) ↔
      small.children [[100], [102]] = [] :=
  fsRemove_removes_iff fromBelow (show ([[100], [102]], Kind.regular) ∈ small.entries by decide)
    ⟨mem_fromBelow _ _, by decide⟩

/-- The directory is taken for a file, and `remove` fails. -/
theorem fsRemove_not_removes : ([[100]], Kind.directory) ∈ small.entries ∧
    fsRemove fromBelow small [[100]] = (false, small) ∧
    ¬Removes small [[100]] (fsRemove fromBelow small [[100]]) := by
  have hfails : fsRemove fromBelow small [[100]] = (false, small) := by rfl
  refine ⟨by decide, hfails, ?_⟩
  intro h
  rw [hfails] at h
  cases h.returned

end Libromano.Filesystem
