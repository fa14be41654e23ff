/- The paths of a whole walk. Only a directory that is yielded is queued, and a directory whose
   last entry is skipped ends the walk, whatever is still queued. -/

import Libromano.Filesystem.Walk
import Mathlib.Data.List.Flatten
import Mathlib.Data.List.Perm.Basic

set_option autoImplicit false
set_option relaxedAutoImplicit false

namespace Libromano.Filesystem

def childPath (path name : List UInt8) : List UInt8 := path ++ 47 :: name

/-- The successive calls, up to the first one that returns false. -/
inductive Walks (system : System) (start : List UInt8) (mode : FSWalkMode) :
    FSWalkIterator → List (List UInt8) → Prop
  | done {it it' : FSWalkIterator} (h : fsWalk system start it mode = .ok (false, it')) :
      Walks system start mode it []
  | more {it it' : FSWalkIterator} {paths : List (List UInt8)}
      (h : fsWalk system start it mode = .ok (true, it')) (hrest : Walks system start mode it' paths) :
      Walks system start mode it (it'.currentPath :: paths)

section Calls

variable {system : System} {start path dir name : List UInt8} {mode : FSWalkMode}
  {it it' : FSWalkIterator} {entry : Dirent} {rest : List Dirent} {paths paths' : List (List UInt8)}

private theorem Walks.unique (h : Walks system start mode it paths)
    (h' : Walks system start mode it paths') :
    paths = paths' := by
  induction h generalizing paths' with
  | done h =>
    cases h' with
    | done => rfl
    | more h' => cases h.symm.trans h'
  | more h hrest ih =>
    cases h' with
    | done h' => cases h.symm.trans h'
    | more h' hrest' =>
      cases h.symm.trans h'
      rw [ih hrest']

private theorem Walks.congr (h : Walks system start mode it' paths)
    (hcall : fsWalk system start it mode = fsWalk system start it' mode) :
    Walks system start mode it paths := by
  cases h with
  | done h => exact .done (hcall.trans h)
  | more h hrest => exact .more (hcall.trans h) hrest

private theorem formatPath_eq (h : dir.length < 2 ^ 31) :
    formatPath dir name = childPath dir name := by
  have hprecision : (dir.length : ℤ).bmod (2 ^ 32) = dir.length :=
    Int.bmod_eq_of_le (by omega) (by omega)
  have hbounded : bounded (dir.length : ℤ) dir = dir := by
    rw [bounded, if_neg (by omega), Int.toNat_natCast, List.take_length]
  rw [formatPath, childPath, hprecision, hbounded]

private theorem length_le_of_yieldEntry (h : yieldEntry system mode it entry = .ok (true, it')) :
    it'.currentPath.length ≤ intMax := by
  rw [yieldEntry] at h
  dsimp only at h
  generalize (if entry.type = .unknown then system.isDir (formatPath it.currentDir entry.name)
    else decide (entry.type = .dir)) = isDir at h
  generalize (if it.currentPathCapacity < it.currentDir.length + 1 + entry.name.length + 1 then
    2 * it.currentPathCapacity else it.currentPathCapacity) = capacity at h
  split_ifs at h with hcapacity hlong hqueue
  · exact absurd (Prod.mk.inj (Except.ok.inj h)).1 Bool.false_ne_true
  · obtain rfl := (Prod.mk.inj (Except.ok.inj h)).2
    exact Nat.le_of_not_lt hlong
  · obtain rfl := (Prod.mk.inj (Except.ok.inj h)).2
    exact Nat.le_of_not_lt hlong

private theorem length_le_of_fsWalk (h : fsWalk system start it mode = .ok (true, it')) :
    it'.currentPath.length ≤ intMax := by
  rw [fsWalk] at h
  dsimp only at h
  generalize nextEntry system _ = found at h
  rcases found with ⟨_ | entry, it⟩
  · exact absurd (Prod.mk.inj (Except.ok.inj h)).1 Bool.false_ne_true
  · rw [walkFound] at h
    dsimp only at h
    generalize skipEntries mode entry (it.dir.getD []) = skipped at h
    rcases skipped with ⟨_ | entry, rest⟩
    · exact absurd (Prod.mk.inj (Except.ok.inj h)).1 Bool.false_ne_true
    · exact length_le_of_yieldEntry h

private theorem Walks.length_le (h : Walks system start mode it paths) :
    ∀ path ∈ paths, path.length ≤ intMax := by
  induction h with
  | done h => exact List.forall_mem_nil _
  | more h hrest ih => exact List.forall_mem_cons.mpr ⟨length_le_of_fsWalk h, ih⟩

private theorem yieldEntry_room (system : System) (mode : FSWalkMode) (it : FSWalkIterator)
    (hroom : (childPath it.currentDir entry.name).length < it.currentPathCapacity)
    (hshort : (childPath it.currentDir entry.name).length ≤ intMax)
    (hknown : entry.type ≠ .unknown) :
    yieldEntry system mode it entry = .ok (true, { it with
      currentPath := childPath it.currentDir entry.name
      dirQueue := it.dirQueue ++ if entry.type = .dir ∧ mode.recursive = true then
        [childPath it.currentDir entry.name] else [] }) := by
  have hlength : (childPath it.currentDir entry.name).length =
      it.currentDir.length + 1 + entry.name.length := by
    rw [childPath, List.length_append, List.length_cons]
    omega
  have hformat : formatPath it.currentDir entry.name = childPath it.currentDir entry.name := by
    refine formatPath_eq ?_
    rw [intMax] at hshort
    omega
  have hcapacity : ¬it.currentPathCapacity < it.currentDir.length + 1 + entry.name.length + 1 := by
    omega
  rw [yieldEntry]
  dsimp only
  rw [if_neg hcapacity, if_neg hcapacity, hformat, if_neg (Nat.not_lt.mpr hshort), if_neg hknown]
  by_cases hqueue : entry.type = .dir ∧ mode.recursive = true
  · rw [if_pos hqueue, hqueue.1, hqueue.2]
    rfl
  · rw [if_neg hqueue, if_neg, List.append_nil]
    rw [Bool.and_eq_true, decide_eq_true_eq]
    exact hqueue

private theorem known_of_not_skipped (h : walkShouldSkipEntry mode entry = false) :
    entry.type ≠ .unknown := by
  intro htype
  rw [walkShouldSkipEntry, htype] at h
  split_ifs at h

end Calls

section Directory

variable {system : System} {start path : List UInt8} {mode : FSWalkMode}
  {it it' : FSWalkIterator} {entry next : Dirent} {rest entries : List Dirent}
  {paths : List (List UInt8)}

def yielded (mode : FSWalkMode) (path : List UInt8) (entries : List Dirent) : List (List UInt8) :=
  (entries.filter fun entry => !walkShouldSkipEntry mode entry).map fun entry => childPath path entry.name

def queued (mode : FSWalkMode) (path : List UInt8) (entries : List Dirent) : List (List UInt8) :=
  (entries.filter fun entry => !walkShouldSkipEntry mode entry &&
    (entry.type == .dir && mode.recursive)).map fun entry => childPath path entry.name

def EndsSkipped (mode : FSWalkMode) (entries : List Dirent) : Prop :=
  ∃ entry ∈ entries.getLast?, walkShouldSkipEntry mode entry = true

private theorem fsWalk_opened (hfirst : it.firstEntry = false)
    (hdir : it.dir = some (entry :: rest)) :
    fsWalk system start it mode = walkFound system mode (some entry) { it with dir := some rest } := by
  rw [fsWalk_started hfirst, nextEntry, hdir]

private theorem fsWalk_skip (hfirst : it.firstEntry = false)
    (hdir : it.dir = some (entry :: next :: rest))
    (hskip : walkShouldSkipEntry mode entry = true) : fsWalk system start it mode =
      fsWalk system start { it with dir := some (next :: rest) } mode := by
  have hstarted : { it with dir := some (next :: rest) }.firstEntry = false := hfirst
  have hnext : fsWalk system start { it with dir := some (next :: rest) } mode =
      walkFound system mode (some next) { it with dir := some rest } := fsWalk_opened hstarted rfl
  rw [hnext, fsWalk_opened hfirst hdir, walkFound, walkFound]
  dsimp only [Option.getD_some]
  rw [skipEntries, if_pos hskip]

private theorem fsWalk_skip_last (hfirst : it.firstEntry = false) (hdir : it.dir = some [entry])
    (hskip : walkShouldSkipEntry mode entry = true) :
    fsWalk system start it mode = .ok (false, { it with dir := some [] }) := by
  rw [fsWalk_opened hfirst hdir, walkFound]
  dsimp only [Option.getD_some]
  rw [skipEntries, if_pos hskip]

private theorem fsWalk_yield (hfirst : it.firstEntry = false) (hdir : it.dir = some (entry :: rest))
    (hskip : walkShouldSkipEntry mode entry = false) :
    fsWalk system start it mode = yieldEntry system mode { it with dir := some rest } entry := by
  rw [fsWalk_opened hfirst hdir, walkFound]
  cases rest with
  | nil =>
    dsimp only [Option.getD_some]
    rw [skipEntries, hskip]
    rfl
  | cons next rest =>
    dsimp only [Option.getD_some]
    rw [skipEntries, hskip]
    rfl

/-- The walk is at what is left of a directory, with room for the paths of its entries. -/
structure Inside (mode : FSWalkMode) (path : List UInt8) (entries : List Dirent)
    (it : FSWalkIterator) : Prop where
  started : it.firstEntry = false
  opened : it.dir = some entries
  current : it.currentDir = path
  room : ∀ q ∈ yielded mode path entries, q.length < it.currentPathCapacity
  short : ∀ q ∈ yielded mode path entries, q.length ≤ intMax

structure Read (it it' : FSWalkIterator) (more : List (List UInt8)) : Prop where
  started : it'.firstEntry = false
  opened : it'.dir = some []
  capacity : it'.currentPathCapacity = it.currentPathCapacity
  queue : it'.dirQueue = it.dirQueue ++ more

private theorem Inside.skip (h : Inside mode path (entry :: rest) it)
    (hskip : walkShouldSkipEntry mode entry = true) :
    yielded mode path (entry :: rest) = yielded mode path rest ∧
    queued mode path (entry :: rest) = queued mode path rest ∧
    Inside mode path rest { it with dir := some rest } := by
  have hyielded : yielded mode path (entry :: rest) = yielded mode path rest := by
    rw [yielded, List.filter_cons_of_neg (by simp [hskip]), yielded]
  refine ⟨hyielded, ?_, h.started, rfl, h.current, ?_, ?_⟩
  · rw [queued, List.filter_cons_of_neg (by simp [hskip]), queued]
  · exact hyielded ▸ h.room
  · exact hyielded ▸ h.short

private theorem Inside.yield (h : Inside mode path (entry :: rest) it)
    (hskip : walkShouldSkipEntry mode entry = false) : ∃ it',
      fsWalk system start it mode = .ok (true, it') ∧ it'.currentPath = childPath path entry.name ∧
      Inside mode path rest it' ∧ it'.currentPathCapacity = it.currentPathCapacity ∧
      yielded mode path (entry :: rest) = childPath path entry.name :: yielded mode path rest ∧
      it.dirQueue ++ queued mode path (entry :: rest) = it'.dirQueue ++ queued mode path rest := by
  have hyielded : yielded mode path (entry :: rest) =
      childPath path entry.name :: yielded mode path rest := by
    rw [yielded, List.filter_cons_of_pos (by simp [hskip]), List.map_cons, yielded]
  have hroom := h.room
  have hshort := h.short
  rw [hyielded, List.forall_mem_cons] at hroom hshort
  obtain rfl := h.current
  have hyield := yieldEntry_room system mode { it with dir := some rest } hroom.1 hshort.1
    (known_of_not_skipped hskip)
  refine ⟨_, (fsWalk_yield h.started h.opened hskip).trans hyield, rfl, ?_, rfl, hyielded, ?_⟩
  · exact ⟨h.started, rfl, rfl, hroom.2, hshort.2⟩
  · by_cases hqueue : entry.type = .dir ∧ mode.recursive = true
    · rw [queued, List.filter_cons_of_pos (by simp [hskip, hqueue]), List.map_cons, queued]
      simp [hqueue]
    · rw [queued, List.filter_cons_of_neg (by simpa [hskip] using hqueue), queued]
      simp [hqueue]

private theorem endsSkipped_cons : EndsSkipped mode (entry :: rest) ↔
    EndsSkipped mode rest ∨ rest = [] ∧ walkShouldSkipEntry mode entry = true := by
  cases rest with
  | nil =>
    have hnil : ¬EndsSkipped mode [] := fun ⟨e, he, _⟩ => absurd he (Option.not_mem_none e)
    rw [or_iff_right hnil, and_iff_right rfl]
    constructor
    · rintro ⟨e, he, hskip⟩
      obtain rfl := Option.some.inj he
      exact hskip
    · exact fun hskip => ⟨entry, rfl, hskip⟩
  | cons next rest =>
    rw [EndsSkipped, List.getLast?_cons_cons, ← EndsSkipped]
    exact ⟨.inl, fun h => h.resolve_right fun hnil => absurd hnil.1 (List.cons_ne_nil _ _)⟩

private theorem Inside.walks (h : Inside mode path entries it) (hends : ¬EndsSkipped mode entries) :
    ∃ it', Read it it' (queued mode path entries) ∧ ∀ paths, Walks system start mode it' paths →
      Walks system start mode it (yielded mode path entries ++ paths) := by
  induction entries generalizing it with
  | nil => exact ⟨it, ⟨h.started, h.opened, rfl, (List.append_nil _).symm⟩, fun paths hwalks => hwalks⟩
  | cons entry rest ih =>
    rw [endsSkipped_cons, not_or] at hends
    obtain ⟨hrest, hlast⟩ := hends
    cases hskip : walkShouldSkipEntry mode entry with
    | true =>
      obtain ⟨next, rest, rfl⟩ := List.exists_cons_of_ne_nil fun hnil => hlast ⟨hnil, hskip⟩
      obtain ⟨hyielded, hqueued, hinside⟩ := h.skip hskip
      obtain ⟨it', hread, hwalks⟩ := ih hinside hrest
      rw [hyielded, hqueued]
      refine ⟨it', ⟨hread.started, hread.opened, hread.capacity, hread.queue⟩, fun paths hpaths => ?_⟩
      exact (hwalks paths hpaths).congr (fsWalk_skip h.started h.opened hskip)
    | false =>
      obtain ⟨it₁, hcall, hpath, hinside, hcapacity, hyielded, hqueue⟩ := h.yield hskip
      obtain ⟨it', hread, hwalks⟩ := ih hinside hrest
      rw [hyielded, ← hpath]
      refine ⟨it', ⟨hread.started, hread.opened, hread.capacity.trans hcapacity, ?_⟩,
        fun paths hpaths => ?_⟩
      · exact hread.queue.trans hqueue.symm
      · exact .more hcall (hwalks paths hpaths)

private theorem Inside.ends (h : Inside mode path entries it) (hends : EndsSkipped mode entries) :
    Walks system start mode it (yielded mode path entries) := by
  induction entries generalizing it with
  | nil =>
    obtain ⟨entry, hlast, -⟩ := hends
    exact absurd hlast (Option.not_mem_none entry)
  | cons entry rest ih =>
    rw [endsSkipped_cons] at hends
    cases hskip : walkShouldSkipEntry mode entry with
    | true =>
      obtain ⟨hyielded, -, hinside⟩ := h.skip hskip
      rw [hyielded]
      rcases rest with _ | ⟨next, rest⟩
      · exact .done (fsWalk_skip_last h.started h.opened hskip)
      · have hrest := hends.resolve_right fun hlast => absurd hlast.1 (List.cons_ne_nil _ _)
        exact (ih hinside hrest).congr (fsWalk_skip h.started h.opened hskip)
    | false =>
      have hrest := hends.resolve_right fun hlast => absurd (hskip.symm.trans hlast.2) Bool.false_ne_true
      obtain ⟨it₁, hcall, hpath, hinside, -, hyielded, -⟩ := h.yield hskip
      rw [hyielded, ← hpath]
      exact .more hcall (ih hinside hrest)

private theorem fsWalk_next (system : System) (start : List UInt8) (mode : FSWalkMode)
    (hfirst : it.firstEntry = false) (hdir : it.dir = none ∨ it.dir = some [])
    {directory : List UInt8} {directories : List (List UInt8)}
    (hqueue : it.dirQueue = directory :: directories) (hopen : system.opendir directory = some entries)
    (hne : entries ≠ []) : ∃ it', fsWalk system start it mode = fsWalk system start it' mode ∧
      it'.firstEntry = false ∧ it'.dir = some entries ∧ it'.currentDir = directory ∧
      it'.dirQueue = directories ∧ it'.currentPathCapacity = it.currentPathCapacity := by
  obtain ⟨entry, rest, rfl⟩ := List.exists_cons_of_ne_nil hne
  refine ⟨{ it with dir := some (entry :: rest), currentDir := directory, dirQueue := directories },
    ?_, hfirst, rfl, rfl, rfl, rfl⟩
  have hopened : fsWalk system start
      { it with dir := some (entry :: rest), currentDir := directory, dirQueue := directories } mode =
      walkFound system mode (some entry)
        { it with dir := some rest, currentDir := directory, dirQueue := directories } :=
    fsWalk_opened hfirst rfl
  rw [hopened, fsWalk_started hfirst, nextEntry]
  rcases hdir with hdir | hdir
  · rw [hdir]
    dsimp only
    rw [openNext, hqueue]
    dsimp only
    rw [hopen]
  · rw [hdir]
    dsimp only
    rw [openNext]
    dsimp only
    rw [hqueue]
    dsimp only
    rw [hopen]

private theorem fsWalk_empty (system : System) (start : List UInt8) (mode : FSWalkMode)
    (hfirst : it.firstEntry = false) (hdir : it.dir = none ∨ it.dir = some [])
    (hqueue : it.dirQueue = []) : ∃ it', fsWalk system start it mode = .ok (false, it') := by
  rw [fsWalk_started hfirst, nextEntry]
  rcases hdir with hdir | hdir
  · rw [hdir]
    dsimp only
    rw [openNext, hqueue]
    exact ⟨_, rfl⟩
  · rw [hdir]
    dsimp only
    rw [openNext]
    dsimp only
    rw [hqueue]
    exact ⟨_, rfl⟩

end Directory

/-- What `readdir` lists in a directory, with what is below it. Of each entry it is told whether its
type is `known`: some file systems give `DT_UNKNOWN`. -/
inductive Listing
  | nil
  /-- `.` or `..` -/
  | self (known : Bool) (name : List UInt8) (rest : Listing)
  | file (known : Bool) (name : List UInt8) (rest : Listing)
  | directory (known : Bool) (name : List UInt8) (contents rest : Listing)

/-- `d_type` of an entry. -/
def entryType (known : Bool) (type : EntryType) : EntryType := if known then type else .unknown

namespace Listing

def dirents : Listing → List Dirent
  | nil => []
  | self known name rest => ⟨name, entryType known .dir⟩ :: rest.dirents
  | file known name rest => ⟨name, entryType known .reg⟩ :: rest.dirents
  | directory known name _ rest => ⟨name, entryType known .dir⟩ :: rest.dirents

def names (l : Listing) : List (List UInt8) := l.dirents.map Dirent.name

/-- `.` and `..` are the directory itself and the one above it, and nothing else is, and each
directory has a `.` in it. -/
def Proper : Listing → Prop
  | nil => True
  | self _ name rest => (name = [46] ∨ name = [46, 46]) ∧ rest.Proper
  | file _ name rest => ¬(name = [46] ∨ name = [46, 46]) ∧ rest.Proper
  | directory _ name contents rest => ¬(name = [46] ∨ name = [46, 46]) ∧
      ([46] ∈ contents.names ∧ contents.Proper) ∧ rest.Proper

def Served (system : System) (path : List UInt8) : Listing → Prop
  | nil => True
  | self _ _ rest => rest.Served system path
  | file _ _ rest => rest.Served system path
  | directory _ name contents rest => (system.opendir (childPath path name) = some contents.dirents ∧
      contents.Served system (childPath path name)) ∧ rest.Served system path

/-- The entries in the directory of the requested kinds, as far as their types are of those to
`keep`. -/
def entries (keep : Bool → Bool) (mode : FSWalkMode) (path : List UInt8) :
    Listing → List (List UInt8)
  | nil => []
  | self _ _ rest => rest.entries keep mode path
  | file known name rest => (if keep known && mode.yieldFiles then [childPath path name] else []) ++
      rest.entries keep mode path
  | directory known name _ rest =>
      (if keep known && mode.yieldDirs then [childPath path name] else []) ++
        rest.entries keep mode path

def requested : FSWalkMode → List UInt8 → Listing → List (List UInt8) := entries fun _ => true

def listed : FSWalkMode → List UInt8 → Listing → List (List UInt8) := entries fun known => known

def untyped : FSWalkMode → List UInt8 → Listing → List (List UInt8) := entries fun known => !known

/-- The entries of the requested kinds in the directory and below it. -/
def allRequested (mode : FSWalkMode) (path : List UInt8) : Listing → List (List UInt8)
  | nil => []
  | self _ _ rest => rest.allRequested mode path
  | file _ name rest => (if mode.yieldFiles then [childPath path name] else []) ++
      rest.allRequested mode path
  | directory _ name contents rest => (if mode.yieldDirs then [childPath path name] else []) ++
      contents.allRequested mode (childPath path name) ++ rest.allRequested mode path

def directories (keep : Bool → Bool) (path : List UInt8) : Listing → List (List UInt8 × Listing)
  | nil => []
  | self _ _ rest => rest.directories keep path
  | file _ _ rest => rest.directories keep path
  | directory known name contents rest =>
      (if keep known then [(childPath path name, contents)] else []) ++ rest.directories keep path

def size : Listing → ℕ
  | nil => 0
  | self _ _ rest => rest.size
  | file _ _ rest => rest.size
  | directory _ _ contents rest => contents.size + 1 + rest.size

section Entries

variable {system : System} {mode : FSWalkMode} {path name : List UInt8} {known : Bool} {l : Listing}

private theorem skip_self (hname : name = [46] ∨ name = [46, 46]) (type : EntryType) :
    walkShouldSkipEntry mode ⟨name, type⟩ = true := if_pos hname

private theorem skip_file (hname : ¬(name = [46] ∨ name = [46, 46])) :
    walkShouldSkipEntry mode ⟨name, entryType known .reg⟩ = !(known && mode.yieldFiles) := by
  rw [walkShouldSkipEntry, if_neg hname]
  cases known <;> rfl

private theorem skip_directory (hname : ¬(name = [46] ∨ name = [46, 46])) :
    walkShouldSkipEntry mode ⟨name, entryType known .dir⟩ = !(known && mode.yieldDirs) := by
  rw [walkShouldSkipEntry, if_neg hname]
  cases known <;> rfl

private theorem yielded_dirents (h : l.Proper) :
    yielded mode path l.dirents = l.listed mode path := by
  induction l with
  | nil => rfl
  | self known name rest ih =>
    obtain ⟨hname, hrest⟩ := h
    rw [dirents, yielded, List.filter_cons_of_neg (by simp [skip_self hname]), listed, entries, ← listed,
      ← ih hrest, yielded]
  | file known name rest ih =>
    obtain ⟨hname, hrest⟩ := h
    rw [dirents, yielded, listed, entries, ← listed, ← ih hrest, yielded, List.filter_cons,
      skip_file hname]
    cases known && mode.yieldFiles <;> rfl
  | directory known name contents rest _ ih =>
    obtain ⟨hname, -, hrest⟩ := h
    rw [dirents, yielded, listed, entries, ← listed, ← ih hrest, yielded, List.filter_cons,
      skip_directory hname]
    cases known && mode.yieldDirs <;> rfl

private theorem queued_dirents (h : l.Proper) : queued mode path l.dirents =
    if mode.recursive && mode.yieldDirs then
      (l.directories (fun known => known) path).map Prod.fst else [] := by
  induction l with
  | nil => cases mode.recursive && mode.yieldDirs <;> rfl
  | self known name rest ih =>
    obtain ⟨hname, hrest⟩ := h
    rw [dirents, queued, List.filter_cons_of_neg (by simp [skip_self hname]), directories, ← ih hrest,
      queued]
  | file known name rest ih =>
    obtain ⟨hname, hrest⟩ := h
    have htype : entryType known .reg ≠ .dir := by cases known <;> decide
    rw [dirents, queued, List.filter_cons_of_neg (by simp [htype]), directories, ← ih hrest, queued]
  | directory known name contents rest _ ih =>
    obtain ⟨hname, -, hrest⟩ := h
    have hskip : walkShouldSkipEntry mode ⟨name, entryType known .dir⟩ =
      !(known && mode.yieldDirs) := skip_directory hname
    have ih := ih hrest
    rw [queued] at ih
    rw [dirents, queued, directories, List.filter_cons, hskip]
    cases known <;> cases hdirs : mode.yieldDirs <;> cases hrecursive : mode.recursive <;>
      simp_all [entryType]

private theorem requested_perm :
    (l.requested mode path).Perm (l.listed mode path ++ l.untyped mode path) := by
  induction l with
  | nil => exact .refl _
  | self known name rest ih => exact ih
  | file known name rest ih | directory known name _ rest _ ih =>
    rw [requested, listed, untyped, entries, entries, entries, ← requested, ← listed, ← untyped]
    cases known with
    | true =>
      rw [Bool.true_and, Bool.not_true, Bool.false_and, if_neg Bool.false_ne_true, List.nil_append,
        List.append_assoc]
      exact ih.append_left _
    | false =>
      rw [Bool.true_and, Bool.not_false, Bool.true_and, Bool.false_and, if_neg Bool.false_ne_true,
        List.nil_append]
      refine (ih.append_left _).trans ?_
      rw [← List.append_assoc, ← List.append_assoc]
      exact List.perm_append_comm.append_right _

private theorem directories_perm : (l.directories (fun _ => true) path).Perm
    (l.directories (fun known => known) path ++ l.directories (fun known => !known) path) := by
  induction l with
  | nil => exact .refl _
  | self known name rest ih => exact ih
  | file known name rest ih => exact ih
  | directory known name contents rest _ ih =>
    cases known with
    | true => exact ih.cons _
    | false => exact (ih.cons _).trans List.perm_middle.symm

private theorem allRequested_perm : (l.allRequested mode path).Perm (l.requested mode path ++
    (l.directories (fun _ => true) path).flatMap fun d => d.2.allRequested mode d.1) := by
  induction l with
  | nil => exact .refl _
  | self known name rest ih => exact ih
  | file known name rest ih =>
    rw [allRequested, requested, entries, directories, List.append_assoc, ← requested, Bool.true_and]
    exact ih.append_left _
  | directory known name contents rest _ ih =>
    rw [allRequested, requested, entries, directories, if_pos rfl, List.singleton_append,
      List.flatMap_cons, List.append_assoc, List.append_assoc, ← requested, Bool.true_and]
    refine List.Perm.append_left _ ?_
    refine (ih.append_left _).trans ?_
    rw [← List.append_assoc, ← List.append_assoc]
    exact List.perm_append_comm.append_right _

end Entries

end Listing

abbrev Directory := List UInt8 × Listing

def nextDirectories (mode : FSWalkMode) (d : Directory) : List Directory :=
  if mode.recursive && mode.yieldDirs then d.2.directories (fun known => known) d.1 else []

def pending (ds : List Directory) : ℕ := (ds.map fun d => d.2.size + 1).sum

private theorem pending_append (ds ds' : List Directory) :
    pending (ds ++ ds') = pending ds + pending ds' := by
  rw [pending, List.map_append, List.sum_append, ← pending, ← pending]

private theorem pending_directories (keep : Bool → Bool) (path : List UInt8) (l : Listing) :
    pending (l.directories keep path) ≤ l.size := by
  induction l with
  | nil => exact Nat.le_refl 0
  | self known name rest ih => exact ih
  | file known name rest ih => exact ih
  | directory known name contents rest _ ih =>
    have hfirst : pending (if keep known then [(childPath path name, contents)] else []) ≤
        contents.size + 1 := by
      split_ifs
      · exact Nat.le_refl _
      · exact Nat.zero_le _
    rw [Listing.directories, pending_append, Listing.size]
    exact Nat.add_le_add hfirst ih

private theorem pending_next (mode : FSWalkMode) (d : Directory) :
    pending (nextDirectories mode d) ≤ d.2.size := by
  rw [nextDirectories]
  split_ifs
  · exact pending_directories _ d.1 d.2
  · exact Nat.zero_le _

def breadthFirst (mode : FSWalkMode) : List Directory → List Directory
  | [] => []
  | d :: ds => d :: breadthFirst mode (ds ++ nextDirectories mode d)
termination_by ds => pending ds
decreasing_by
  have hnext := pending_next mode d
  have hcons : pending (d :: ds) = d.2.size + 1 + pending ds := by
    rw [pending, List.map_cons, List.sum_cons, ← pending]
  rw [pending_append, hcons]
  omega

/-- No directory that has a requested entry is walked after one that ends in a skipped entry. -/
def NothingAfter (mode : FSWalkMode) (ds : List Directory) : Prop :=
  ds.Pairwise fun d d' => EndsSkipped mode d.2.dirents → d'.2.listed mode d'.1 = []

/-- What is walked if a skipped entry at the end of a directory stops the walk. -/
inductive Stopped (mode : FSWalkMode) : List Directory → List (List UInt8) → Prop
  | nil : Stopped mode [] []
  | stop (d : Directory) (ds : List Directory) (h : EndsSkipped mode d.2.dirents) :
      Stopped mode (d :: ds) (d.2.listed mode d.1)
  | next (d : Directory) (ds : List Directory) (paths : List (List UInt8))
      (h : ¬EndsSkipped mode d.2.dirents) (hrest : Stopped mode ds paths) :
      Stopped mode (d :: ds) (d.2.listed mode d.1 ++ paths)

section Orders

variable {system : System} {start : List UInt8} {mode : FSWalkMode} {it : FSWalkIterator}
  {ds : List Directory} {paths : List (List UInt8)}

private theorem Stopped.prefix (h : Stopped mode ds paths) :
    paths <+: ds.flatMap fun d => d.2.listed mode d.1 := by
  induction h with
  | nil => exact List.prefix_rfl
  | stop d ds h =>
    rw [List.flatMap_cons]
    exact List.prefix_append _ _
  | next d ds paths h hrest ih =>
    rw [List.flatMap_cons]
    exact (List.prefix_append_right_inj _).mpr ih

private theorem Stopped.eq_iff (h : Stopped mode ds paths) :
    paths.length = (ds.flatMap fun d => d.2.listed mode d.1).length ↔ NothingAfter mode ds := by
  induction h with
  | nil => exact iff_of_true rfl List.Pairwise.nil
  | stop d ds h =>
    have hempty : (ds.flatMap fun d => d.2.listed mode d.1).length = 0 ↔
        ∀ d' ∈ ds, d'.2.listed mode d'.1 = [] := by
      rw [List.length_eq_zero_iff, List.flatMap_eq_nil_iff]
    rw [List.flatMap_cons, List.length_append, NothingAfter, List.pairwise_cons]
    constructor
    · intro hlength
      have hnone := hempty.mp (by omega)
      refine ⟨fun d' hmem _ => hnone d' hmem, ?_⟩
      exact List.pairwise_of_forall_mem_list fun d₁ _ d₂ hmem _ => hnone d₂ hmem
    · rintro ⟨hnone, -⟩
      have hzero := hempty.mpr fun d' hmem => hnone d' hmem h
      omega
  | next d ds paths h hrest ih =>
    rw [List.flatMap_cons, List.length_append, List.length_append, NothingAfter, List.pairwise_cons,
      ← NothingAfter, ← ih, and_iff_right fun d' _ hends => absurd hends h]
    omega

/-- The entries of unknown type in a directory that is walked, with what is requested below them. -/
def overlooked (mode : FSWalkMode) (d : Directory) : List (List UInt8) :=
  d.2.untyped mode d.1 ++ if mode.recursive && mode.yieldDirs then
    (d.2.directories (fun known => !known) d.1).flatMap fun d => d.2.allRequested mode d.1 else []

private theorem directories_eq_nil {path : List UInt8} {l : Listing} (hdirs : mode.yieldDirs = true)
    (h : l.untyped mode path = []) : l.directories (fun known => !known) path = [] := by
  induction l with
  | nil => rfl
  | self known name rest ih => exact ih h
  | file known name rest ih => exact ih (List.append_eq_nil_iff.mp h).2
  | directory known name contents rest _ ih =>
    obtain ⟨hhere, hrest⟩ := List.append_eq_nil_iff.mp h
    rw [hdirs, Bool.and_true] at hhere
    cases known with
    | true => exact ih hrest
    | false => cases hhere

private theorem overlooked_eq_nil_iff (mode : FSWalkMode) (d : Directory) :
    overlooked mode d = [] ↔ d.2.untyped mode d.1 = [] := by
  rw [overlooked, List.append_eq_nil_iff]
  refine and_iff_left_of_imp fun h => ?_
  split_ifs with hmode
  · rw [directories_eq_nil (Bool.and_eq_true_iff.mp hmode).2 h, List.flatMap_nil]
  · rfl

/-- In breadth first order all directories of the trees in the queue are walked, but for those of
unknown type. -/
private theorem breadthFirst_perm (hrecursive : mode.recursive = true)
    (hdirs : mode.yieldDirs = true)
    (ds : List Directory) : ((breadthFirst mode ds).flatMap fun d =>
      d.2.listed mode d.1 ++ overlooked mode d).Perm (ds.flatMap fun d => d.2.allRequested mode d.1) := by
  fun_induction breadthFirst mode ds with
  | case1 => exact .refl _
  | case2 d ds ih =>
    have hmode : (mode.recursive && mode.yieldDirs) = true := by rw [hrecursive, hdirs]; rfl
    have hall : (d.2.allRequested mode d.1).Perm (d.2.listed mode d.1 ++ overlooked mode d ++
        (nextDirectories mode d).flatMap fun d => d.2.allRequested mode d.1) := by
      rw [overlooked, nextDirectories, if_pos hmode, if_pos hmode]
      refine Listing.allRequested_perm.trans ?_
      refine (Listing.requested_perm.append (Listing.directories_perm.flatMap_right _)).trans ?_
      rw [List.flatMap_append, List.append_assoc, List.append_assoc, List.append_assoc]
      exact (List.perm_append_comm.append_left _).append_left _
    rw [List.flatMap_append] at ih
    rw [List.flatMap_cons, List.flatMap_cons]
    refine (ih.append_left _).trans ?_
    refine (List.perm_append_comm.append_left _).trans ?_
    rw [← List.append_assoc]
    exact hall.symm.append_right _

/-- What the walk rests on: the system opens every directory of the tree, and lists `.` in it. -/
structure Walkable (system : System) (d : Directory) : Prop where
  opened : system.opendir d.1 = some d.2.dirents
  served : d.2.Served system d.1
  proper : d.2.Proper
  self : [46] ∈ d.2.names

private theorem walkable_directories (keep : Bool → Bool) {path : List UInt8} {l : Listing}
    (hserved : l.Served system path) (hproper : l.Proper) :
    ∀ d ∈ l.directories keep path, Walkable system d := by
  induction l with
  | nil => exact List.forall_mem_nil _
  | self known name rest ih => exact ih hserved hproper.2
  | file known name rest ih => exact ih hserved hproper.2
  | directory known name contents rest _ ih =>
    obtain ⟨⟨hopened, hcontents⟩, hrest⟩ := hserved
    obtain ⟨-, ⟨hself, hcontents'⟩, hrest'⟩ := hproper
    refine List.forall_mem_append.mpr ⟨fun d hd => ?_, ih hrest hrest'⟩
    split_ifs at hd
    · obtain rfl := List.mem_singleton.mp hd
      exact ⟨hopened, hcontents, hcontents', hself⟩
    · exact absurd hd List.not_mem_nil

private theorem Walkable.dirents_ne_nil {d : Directory} (h : Walkable system d) :
    d.2.dirents ≠ [] := by
  obtain ⟨entry, hentry, -⟩ := List.mem_map.mp h.self
  exact List.ne_nil_of_mem hentry

private theorem Walkable.next {d : Directory} (h : Walkable system d) :
    ∀ d' ∈ nextDirectories mode d, Walkable system d' := by
  rw [nextDirectories]
  split_ifs
  · exact walkable_directories _ h.served h.proper
  · exact List.forall_mem_nil _

private theorem walks_stopped (hds : ∀ d ∈ ds, Walkable system d)
    (hpaths : ∀ d ∈ breadthFirst mode ds, ∀ q ∈ d.2.listed mode d.1,
      q.length < it.currentPathCapacity ∧ q.length ≤ intMax)
    (hfirst : it.firstEntry = false) (hdir : it.dir = none ∨ it.dir = some [])
    (hqueue : it.dirQueue = ds.map Prod.fst) :
    ∃ paths, Walks system start mode it paths ∧ Stopped mode (breadthFirst mode ds) paths := by
  fun_induction breadthFirst mode ds generalizing it with
  | case1 =>
    obtain ⟨it', hcall⟩ := fsWalk_empty system start mode hfirst hdir hqueue
    exact ⟨[], .done hcall, .nil⟩
  | case2 d ds ih =>
    obtain ⟨hd, hds⟩ := List.forall_mem_cons.mp hds
    obtain ⟨hhere, hlater⟩ := List.forall_mem_cons.mp hpaths
    obtain ⟨it₁, hcall, hfirst₁, hopened, hcurrent, hqueue₁, hcapacity⟩ :=
      fsWalk_next system start mode hfirst hdir hqueue hd.opened hd.dirents_ne_nil
    have hinside : Inside mode d.1 d.2.dirents it₁ := by
      refine ⟨hfirst₁, hopened, hcurrent, ?_, ?_⟩
      · rw [Listing.yielded_dirents hd.proper, hcapacity]
        exact fun q hq => (hhere q hq).1
      · rw [Listing.yielded_dirents hd.proper]
        exact fun q hq => (hhere q hq).2
    by_cases hends : EndsSkipped mode d.2.dirents
    · have hwalks := (hinside.ends hends).congr hcall
      rw [Listing.yielded_dirents hd.proper] at hwalks
      exact ⟨_, hwalks, .stop d _ hends⟩
    · obtain ⟨it', hread, hwalks⟩ := hinside.walks hends
      have hqueue' : it'.dirQueue = (ds ++ nextDirectories mode d).map Prod.fst := by
        rw [hread.queue, hqueue₁, Listing.queued_dirents hd.proper, List.map_append, nextDirectories]
        split_ifs <;> rfl
      obtain ⟨paths, hpaths', hstopped⟩ := ih (List.forall_mem_append.mpr ⟨hds, hd.next⟩)
        (by rwa [hread.capacity, hcapacity]) hread.started (.inr hread.opened) hqueue'
      have hall := (hwalks paths hpaths').congr hcall
      rw [Listing.yielded_dirents hd.proper] at hall
      exact ⟨_, hall, .next d _ paths hends hstopped⟩

end Orders

/-- The paths that are asked for. -/
def asked (mode : FSWalkMode) (start : List UInt8) (tree : Listing) : List (List UInt8) :=
  if mode.recursive then tree.allRequested mode start else tree.requested mode start

/-- What is below the directories that are not queued since they are not yielded. -/
def missed (mode : FSWalkMode) (start : List UInt8) (tree : Listing) : List (List UInt8) :=
  if mode.recursive && !mode.yieldDirs then
    (tree.directories (fun _ => true) start).flatMap fun d => d.2.allRequested mode d.1 else []

/-- The paths are not longer than an `int` can say, the types of the requested entries in the
directories that are walked are known, nothing is asked for below directories that are not yielded,
and nothing comes after a directory that ends in a skipped entry. -/
structure Reached (mode : FSWalkMode) (start : List UInt8) (tree : Listing) : Prop where
  short : ∀ q ∈ asked mode start tree, q.length ≤ intMax
  known : ∀ d ∈ breadthFirst mode [(start, tree)], d.2.untyped mode d.1 = []
  shallow : missed mode start tree = []
  order : NothingAfter mode (breadthFirst mode [(start, tree)])

section Whole

variable {system : System} {start : List UInt8} {mode : FSWalkMode} {tree : Listing} {capacity : ℕ}

def reachable (mode : FSWalkMode) (start : List UInt8) (tree : Listing) : List (List UInt8) :=
  (breadthFirst mode [(start, tree)]).flatMap fun d => d.2.listed mode d.1

/-- The paths that are lost with entries of unknown type. -/
def lost (mode : FSWalkMode) (start : List UInt8) (tree : Listing) : List (List UInt8) :=
  (breadthFirst mode [(start, tree)]).flatMap (overlooked mode)

private theorem lost_eq_nil_iff : lost mode start tree = [] ↔
    ∀ d ∈ breadthFirst mode [(start, tree)], d.2.untyped mode d.1 = [] := by
  rw [lost, List.flatMap_eq_nil_iff]
  exact forall₂_congr fun d _ => overlooked_eq_nil_iff mode d

private theorem breadthFirst_single {d : Directory} (h : nextDirectories mode d = []) :
    breadthFirst mode [d] = [d] := by
  rw [breadthFirst, h, List.append_nil, breadthFirst]

private theorem requested_perm_of_single (h : (mode.recursive && mode.yieldDirs) = false) :
    (tree.requested mode start).Perm (reachable mode start tree ++ lost mode start tree) := by
  have hnone : nextDirectories mode (start, tree) = [] := by
    rw [nextDirectories, h]
    rfl
  rw [reachable, lost, breadthFirst_single hnone, List.flatMap_singleton, List.flatMap_singleton,
    overlooked, h, if_neg Bool.false_ne_true, List.append_nil]
  exact Listing.requested_perm

private theorem asked_perm (mode : FSWalkMode) (start : List UInt8) (tree : Listing) :
    (asked mode start tree).Perm
      (reachable mode start tree ++ lost mode start tree ++ missed mode start tree) := by
  cases hrecursive : mode.recursive with
  | false =>
    rw [asked, missed, hrecursive, Bool.false_and, if_neg Bool.false_ne_true, if_neg Bool.false_ne_true,
      List.append_nil]
    exact requested_perm_of_single (by rw [hrecursive, Bool.false_and])
  | true =>
    rw [asked, missed, if_pos hrecursive]
    cases hdirs : mode.yieldDirs with
    | false =>
      have hsingle : (mode.recursive && mode.yieldDirs) = false := by rw [hdirs, Bool.and_false]
      rw [hrecursive, Bool.not_false, Bool.true_and, if_pos rfl]
      exact Listing.allRequested_perm.trans ((requested_perm_of_single hsingle).append_right _)
    | true =>
      have hall := breadthFirst_perm hrecursive hdirs [(start, tree)]
      rw [List.flatMap_singleton] at hall
      rw [Bool.not_true, Bool.and_false, if_neg Bool.false_ne_true, List.append_nil]
      exact hall.symm.trans (List.flatMap_append_perm _ _ _).symm

/-- The walk of a tree sets the current path to every path that is asked for, once each, and to
nothing else, exactly if all of them are reached. -/
theorem walks_asked_iff (htree : Walkable system (start, tree))
    (hroom : ∀ q ∈ asked mode start tree, q.length < capacity) :
    (∃ paths, Walks system start mode { fsWalkIteratorInit with currentPathCapacity := capacity } paths ∧
      paths.Perm (asked mode start tree)) ↔ Reached mode start tree := by
  by_cases hshort : ∀ q ∈ asked mode start tree, q.length ≤ intMax
  · -- the walk, as it stops
    have hpaths : ∀ d ∈ breadthFirst mode [(start, tree)], ∀ q ∈ d.2.listed mode d.1,
        q.length < capacity ∧ q.length ≤ intMax := by
      intro d hd q hq
      have hreachable : q ∈ reachable mode start tree := List.mem_flatMap.mpr ⟨d, hd, hq⟩
      have hasked : q ∈ asked mode start tree := (asked_perm mode start tree).mem_iff.mpr
        (List.mem_append_left _ (List.mem_append_left _ hreachable))
      exact ⟨hroom q hasked, hshort q hasked⟩
    have hcall : fsWalk system start { fsWalkIteratorInit with currentPathCapacity := capacity } mode =
        fsWalk system start ⟨[], capacity, [], [start], false, none⟩ mode := rfl
    have hstarted : FSWalkIterator.firstEntry ⟨[], capacity, [], [start], false, none⟩ = false := rfl
    obtain ⟨walked, hqueue, hstopped⟩ := walks_stopped (List.forall_mem_singleton.mpr htree) hpaths
      hstarted (.inl rfl) rfl
    have hwalks := hqueue.congr hcall
    have hlength := (asked_perm mode start tree).length_eq
    rw [List.length_append, List.length_append] at hlength
    have hle : walked.length ≤ (reachable mode start tree).length := hstopped.prefix.length_le
    constructor
    · rintro ⟨paths, hpaths, hperm⟩
      obtain rfl := hpaths.unique hwalks
      have hsame := hperm.length_eq
      have hall : paths.length = (reachable mode start tree).length := by omega
      exact ⟨hshort, lost_eq_nil_iff.mp (List.length_eq_zero_iff.mp (by omega)),
        List.length_eq_zero_iff.mp (by omega), hstopped.eq_iff.mp hall⟩
    · intro hreached
      refine ⟨walked, hwalks, ?_⟩
      have hall : walked = reachable mode start tree :=
        hstopped.prefix.eq_of_length (hstopped.eq_iff.mpr hreached.order)
      have hperm := asked_perm mode start tree
      rw [hreached.shallow, lost_eq_nil_iff.mpr hreached.known, List.append_nil, List.append_nil,
        ← hall] at hperm
      exact hperm.symm
  · refine iff_of_false ?_ fun hreached => hshort hreached.short
    rintro ⟨paths, hwalks, hperm⟩
    exact hshort fun q hq => hwalks.length_le q (hperm.mem_iff.mpr hq)

end Whole

/-- A directory `d` with one other below it. -/
def twoLevels (upper lower : Listing) : System :=
  ⟨fun path => if path = [100] then some upper.dirents else some lower.dirents, fun _ => false⟩

/-- `.`, `..` and then a file. -/
def dotsFirst : Listing := .self true [46] (.self true [46, 46] (.file true [102] .nil))

/-- A directory with another one behind `.` and `..`. -/
def directoryLast : Listing :=
  .self true [46] (.self true [46, 46] (.directory true [97] dotsFirst .nil))

/-- A directory with `..` behind another one. -/
def dotsLast : Listing := .self true [46] (.directory true [97] dotsFirst (.self true [46, 46] .nil))

/-- The walk of a directory that ends in another one. -/
theorem walks_asked_iff_ordered :
    (∃ paths, Walks (twoLevels directoryLast dotsFirst) [100] ⟨true, true, true⟩
      { fsWalkIteratorInit with currentPathCapacity := 256 } paths ∧
      paths.Perm (asked ⟨true, true, true⟩ [100] directoryLast)) ↔
    Reached ⟨true, true, true⟩ [100] directoryLast :=
  walks_asked_iff ⟨rfl, ⟨⟨rfl, trivial⟩, trivial⟩,
    by simp [Listing.Proper, directoryLast, dotsFirst, Listing.names, Listing.dirents],
    List.mem_cons_self⟩ (by decide)

/-- With `..` behind the other directory the file in it is not reached. -/
theorem not_walks_asked : ¬∀ (system : System) (start : List UInt8) (mode : FSWalkMode)
    (tree : Listing) (capacity : ℕ), Walkable system (start, tree) →
    (∀ q ∈ asked mode start tree, q.length < capacity) →
    ∃ paths, Walks system start mode
      { fsWalkIteratorInit with currentPathCapacity := capacity } paths ∧
      paths.Perm (asked mode start tree) := by
  intro h
  have hwalkable : Walkable (twoLevels dotsLast dotsFirst) ([100], dotsLast) :=
    ⟨rfl, ⟨⟨rfl, trivial⟩, trivial⟩,
      by simp [Listing.Proper, dotsLast, dotsFirst, Listing.names, Listing.dirents],
      List.mem_cons_self⟩
  obtain ⟨paths, hwalks, hperm⟩ := h _ _ ⟨true, true, true⟩ _ 256 hwalkable (by decide)
  have hcall : fsWalk (twoLevels dotsLast dotsFirst) [100]
      { fsWalkIteratorInit with currentPathCapacity := 256 } ⟨true, true, true⟩ =
      .ok (true, ⟨[100, 47, 97], 256, [100], [[100, 47, 97]], false,
        some [⟨[46, 46], .dir⟩]⟩) := by decide
  have hlast : fsWalk (twoLevels dotsLast dotsFirst) [100]
      ⟨[100, 47, 97], 256, [100], [[100, 47, 97]], false, some [⟨[46, 46], .dir⟩]⟩
      ⟨true, true, true⟩ =
      .ok (false, ⟨[100, 47, 97], 256, [100], [[100, 47, 97]], false, some []⟩) := by decide
  obtain rfl := hwalks.unique (.more hcall (.done hlast))
  exact absurd hperm.length_eq (by decide)

end Libromano.Filesystem
