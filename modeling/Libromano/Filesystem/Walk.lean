/- `fs_walk`, as it is on POSIX. A path is what stands before its null byte. `opendir` gives what
   `readdir` will list, `.` and `..` among it, and the allocations succeed. -/

import Libromano.Fault
import Mathlib.Algebra.Order.Ring.Int
import Mathlib.Data.Int.DivMod

set_option autoImplicit false
set_option relaxedAutoImplicit false

namespace Libromano.Filesystem

/-- `d_type` -/
inductive EntryType
  | unknown
  | reg
  | dir
  | other
  deriving DecidableEq, Repr

structure Dirent where
  name : List UInt8
  type : EntryType
  deriving DecidableEq

/-- What is asked of the system. -/
structure System where
  opendir : List UInt8 → Option (List Dirent)
  isDir : List UInt8 → Bool

structure FSWalkMode where
  yieldDirs : Bool
  yieldFiles : Bool
  recursive : Bool
  deriving DecidableEq

/-- `dir` is what is left of an open directory. -/
structure FSWalkIterator where
  currentPath : List UInt8
  currentPathCapacity : ℕ
  currentDir : List UInt8
  dirQueue : List (List UInt8)
  firstEntry : Bool
  dir : Option (List Dirent)
  deriving DecidableEq

def fsWalkIteratorInit : FSWalkIterator := ⟨[], 256, [], [], true, none⟩

def walkShouldSkipEntry (mode : FSWalkMode) (entry : Dirent) : Bool :=
  if entry.name = [46] ∨ entry.name = [46, 46] then true
  else
    match entry.type with
    | .reg => !mode.yieldFiles
    | .dir => !mode.yieldDirs
    | _ => true

def openNext (system : System) (it : FSWalkIterator) : Option Dirent × FSWalkIterator :=
  match it.dirQueue with
  | [] => (none, it)
  | searchPath :: dirQueue =>
    match system.opendir searchPath with
    | none => (none, { it with dirQueue })
    | some [] => (none, { it with dirQueue, dir := some [] })
    | some (entry :: rest) =>
      (some entry, { it with dirQueue, dir := some rest, currentDir := searchPath })

/-- The first loop. A directory that has been read to its end is closed. -/
def nextEntry (system : System) (it : FSWalkIterator) : Option Dirent × FSWalkIterator :=
  match it.dir with
  | none => openNext system it
  | some (entry :: rest) => (some entry, { it with dir := some rest })
  | some [] => openNext system { it with dir := none, currentDir := [] }

def skipEntries (mode : FSWalkMode) (entry : Dirent) : List Dirent → Option Dirent × List Dirent
  | [] => if walkShouldSkipEntry mode entry then (none, []) else (some entry, [])
  | next :: rest =>
    if walkShouldSkipEntry mode entry then skipEntries mode next rest else (some entry, next :: rest)

/-- `"%.*s"`, where a negative precision is no bound. -/
def bounded (precision : ℤ) (text : List UInt8) : List UInt8 :=
  if precision < 0 then text else text.take precision.toNat

/-- `"%.*s/%s"` with the size of the directory as an `int`. -/
def formatPath (dir name : List UInt8) : List UInt8 :=
  bounded ((dir.length : ℤ).bmod (2 ^ 32)) dir ++ 47 :: name

/-- `INT_MAX`, above which `snprintf` gives a negative number. -/
def intMax : ℕ := 2 ^ 31 - 1

/-- The path of an entry is written, and a directory queued. A size that is greater than the
capacity is one to which `snprintf` and the null byte are written beyond the buffer. -/
def yieldEntry (system : System) (mode : FSWalkMode) (it : FSWalkIterator) (entry : Dirent) :
    Except Fault (Bool × FSWalkIterator) :=
  let currentPathSz := it.currentDir.length + 1 + entry.name.length + 1
  let capacity := if it.currentPathCapacity < currentPathSz then 2 * it.currentPathCapacity
    else it.currentPathCapacity
  if capacity < currentPathSz then .error .outOfBounds
  else
    let path := formatPath it.currentDir entry.name
    let it := { it with currentPathCapacity := capacity, currentPath := path }
    if intMax < path.length then .ok (false, it)
    else
      let isDir := if entry.type = .unknown then system.isDir path else decide (entry.type = .dir)
      if isDir && mode.recursive then .ok (true, { it with dirQueue := it.dirQueue ++ [path] })
      else .ok (true, it)

def walkFound (system : System) (mode : FSWalkMode) (found : Option Dirent) (it : FSWalkIterator) :
    Except Fault (Bool × FSWalkIterator) :=
  match found with
  | none => .ok (false, it)
  | some entry =>
    match skipEntries mode entry (it.dir.getD []) with
    | (none, rest) => .ok (false, { it with dir := some rest })
    | (some entry, rest) => yieldEntry system mode { it with dir := some rest } entry

def fsWalk (system : System) (path : List UInt8) (it : FSWalkIterator) (mode : FSWalkMode) :
    Except Fault (Bool × FSWalkIterator) :=
  let it := if it.firstEntry then { it with dirQueue := it.dirQueue ++ [path], firstEntry := false }
    else it
  let (found, it) := nextEntry system it
  walkFound system mode found it

section Capacity

variable {system : System} {mode : FSWalkMode} {it it' : FSWalkIterator} {entry entry' : Dirent}
  {rest rest' : List Dirent} {dir name : List UInt8}

private theorem length_bounded_le (precision : ℤ) (text : List UInt8) :
    (bounded precision text).length ≤ text.length := by
  rw [bounded]
  split_ifs
  · exact le_rfl
  · exact List.length_take_le' _ _

private theorem length_formatPath_le (dir name : List UInt8) :
    (formatPath dir name).length ≤ dir.length + 1 + name.length := by
  have hprefix := length_bounded_le ((dir.length : ℤ).bmod (2 ^ 32)) dir
  rw [formatPath, List.length_append, List.length_cons]
  generalize (bounded ((dir.length : ℤ).bmod (2 ^ 32)) dir).length = n at hprefix ⊢
  omega

private theorem skipEntries_spec (mode : FSWalkMode) (entry : Dirent) (rest : List Dirent) :
    (skipEntries mode entry rest).1 =
      (entry :: rest).find? (fun e => !walkShouldSkipEntry mode e) ∧
    (∀ e ∈ (skipEntries mode entry rest).2, e ∈ rest) ∧
    ((skipEntries mode entry rest).1 = none → (skipEntries mode entry rest).2 = []) := by
  induction rest generalizing entry with
  | nil =>
    rw [skipEntries, List.find?_cons]
    cases hskip : walkShouldSkipEntry mode entry with
    | false => simp
    | true => simp
  | cons next rest ih =>
    rw [skipEntries, List.find?_cons]
    cases hskip : walkShouldSkipEntry mode entry with
    | false => simp
    | true =>
      obtain ⟨hfind, hrest, hnone⟩ := ih next
      exact ⟨hfind, fun e he => List.mem_cons_of_mem _ (hrest e he), hnone⟩

structure QueueFits (it : FSWalkIterator) : Prop where
  started : it.firstEntry = false
  capacity : 256 ≤ it.currentPathCapacity
  queued : ∀ path ∈ it.dirQueue, path.length < it.currentPathCapacity
  named : ∀ listing, it.dir = some listing → ∀ entry ∈ listing, entry.name.length ≤ 255

/-- The directory that is open fits as well, if there is something left of it. -/
structure Fits (it : FSWalkIterator) : Prop extends QueueFits it where
  opened : ∀ entry rest, it.dir = some (entry :: rest) → it.currentDir.length < it.currentPathCapacity

/-- The names of a file system have at most 255 bytes. -/
def Named (system : System) : Prop :=
  ∀ path listing, system.opendir path = some listing → ∀ entry ∈ listing, entry.name.length ≤ 255

private theorem yieldEntry_eq (system : System) (mode : FSWalkMode) (it : FSWalkIterator)
    (hneeded : it.currentDir.length + 1 + entry.name.length + 1 ≤
      2 * it.currentPathCapacity) :
    ∃ b it', yieldEntry system mode it entry = .ok (b, it') ∧
      it.currentPathCapacity ≤ it'.currentPathCapacity ∧
      it.currentDir.length + 1 + entry.name.length + 1 ≤ it'.currentPathCapacity ∧
      it'.currentDir = it.currentDir ∧ it'.dir = it.dir ∧ it'.firstEntry = it.firstEntry ∧
      ∀ path ∈ it'.dirQueue, path ∈ it.dirQueue ∨ path.length < it'.currentPathCapacity := by
  obtain ⟨capacity, hcapacity⟩ : ∃ n, n = if it.currentPathCapacity <
      it.currentDir.length + 1 + entry.name.length + 1 then 2 * it.currentPathCapacity
      else it.currentPathCapacity := ⟨_, rfl⟩
  have hle : it.currentPathCapacity ≤ capacity := by
    rw [hcapacity]
    split_ifs <;> omega
  have hfits : it.currentDir.length + 1 + entry.name.length + 1 ≤ capacity := by
    rw [hcapacity]
    split_ifs <;> omega
  have hpath := length_formatPath_le it.currentDir entry.name
  rw [yieldEntry]
  dsimp only
  rw [← hcapacity, if_neg (Nat.not_lt.mpr hfits)]
  generalize (if entry.type = .unknown then system.isDir (formatPath it.currentDir entry.name)
    else decide (entry.type = .dir)) = isDir
  split_ifs
  · exact ⟨_, _, rfl, hle, hfits, rfl, rfl, rfl, fun path hmem => .inl hmem⟩
  · refine ⟨_, _, rfl, hle, hfits, rfl, rfl, rfl, fun path hmem => ?_⟩
    rcases List.mem_append.mp hmem with hmem | hmem
    · exact .inl hmem
    · right
      rw [List.mem_singleton.mp hmem]
      dsimp only
      omega
  · exact ⟨_, _, rfl, hle, hfits, rfl, rfl, rfl, fun path hmem => .inl hmem⟩

private theorem yieldEntry_error (hneeded : 2 * it.currentPathCapacity <
      it.currentDir.length + 1 + entry.name.length + 1) :
    yieldEntry system mode it entry = .error .outOfBounds := by
  rw [yieldEntry]
  dsimp only
  rw [if_pos]
  split_ifs <;> omega

/-- An entry that is found is one whose path needs at most 256 bytes more than the capacity. -/
def Near (it : FSWalkIterator) (found : Option Dirent) : Prop :=
  ∀ entry ∈ found, it.currentDir.length < it.currentPathCapacity ∧ entry.name.length ≤ 255

private theorem Fits.next_opened (h : Fits it) (hnamed : Named system) :
    Fits (openNext system it).2 ∧
    (openNext system it).2.currentPathCapacity = it.currentPathCapacity ∧
    Near (openNext system it).2 (openNext system it).1 := by
  rw [openNext]
  rcases hqueue : it.dirQueue with _ | ⟨searchPath, dirQueue⟩
  · exact ⟨h, rfl, fun entry hentry => absurd hentry (Option.not_mem_none entry)⟩
  · have hqueued : ∀ path ∈ dirQueue, path.length < it.currentPathCapacity := by
      intro path hmem
      exact h.queued path (hqueue ▸ List.mem_cons_of_mem _ hmem)
    have hsearch : searchPath.length < it.currentPathCapacity :=
      h.queued searchPath (hqueue ▸ List.mem_cons_self)
    dsimp only
    rcases hopendir : system.opendir searchPath with _ | _ | ⟨entry, rest⟩
    · exact ⟨⟨⟨h.started, h.capacity, hqueued, h.named⟩, h.opened⟩, rfl,
        fun entry hentry => absurd hentry (Option.not_mem_none entry)⟩
    · refine ⟨⟨⟨h.started, h.capacity, hqueued, ?_⟩, ?_⟩, rfl,
        fun entry hentry => absurd hentry (Option.not_mem_none entry)⟩
      · intro listing hdir
        obtain rfl := Option.some.inj hdir
        exact List.forall_mem_nil _
      · intro entry rest hdir
        cases hdir
    · have hlisting := hnamed _ _ hopendir
      refine ⟨⟨⟨h.started, h.capacity, hqueued, ?_⟩, fun _ _ _ => hsearch⟩, rfl, ?_⟩
      · intro listing hdir e he
        obtain rfl := Option.some.inj hdir
        exact hlisting e (List.mem_cons_of_mem _ he)
      · intro e hentry
        obtain rfl := Option.some.inj hentry
        exact ⟨hsearch, hlisting _ List.mem_cons_self⟩

private theorem Fits.next_entry (h : Fits it) (hnamed : Named system) :
    Fits (nextEntry system it).2 ∧
    (nextEntry system it).2.currentPathCapacity = it.currentPathCapacity ∧
    Near (nextEntry system it).2 (nextEntry system it).1 := by
  rw [nextEntry]
  rcases hdir : it.dir with _ | _ | ⟨entry, rest⟩
  · exact h.next_opened hnamed
  · have hclosed : Fits { it with dir := none, currentDir := [] } :=
      ⟨⟨h.started, h.capacity, h.queued, fun _ h => absurd h (by simp)⟩,
        fun _ _ h => absurd h (by simp)⟩
    exact hclosed.next_opened hnamed
  · have hlisting := h.named _ hdir
    have hopened := h.opened _ _ hdir
    refine ⟨⟨⟨h.started, h.capacity, h.queued, ?_⟩, fun _ _ _ => hopened⟩, rfl, ?_⟩
    · intro listing hrest e he
      obtain rfl := Option.some.inj hrest
      exact hlisting e (List.mem_cons_of_mem _ he)
    · intro e hentry
      obtain rfl := Option.some.inj hentry
      exact ⟨hopened, hlisting _ List.mem_cons_self⟩

theorem fsWalk_started {path : List UInt8} (h : it.firstEntry = false) :
    fsWalk system path it mode =
    walkFound system mode (nextEntry system it).1 (nextEntry system it).2 := by
  rw [fsWalk, h]
  rfl

def wanted (mode : FSWalkMode) (listing : List Dirent) : Option Dirent :=
  listing.find? fun entry => !walkShouldSkipEntry mode entry

private theorem walkFound_none (hwanted : wanted mode (entry :: it.dir.getD []) = none) :
    walkFound system mode (some entry) it = .ok (false, { it with dir := some [] }) := by
  obtain ⟨hfind, -, hnone⟩ := skipEntries_spec mode entry (it.dir.getD [])
  rw [walkFound]
  rcases hskip : skipEntries mode entry (it.dir.getD []) with ⟨_ | e, rest⟩
  · rw [hskip] at hnone
    obtain rfl : rest = [] := hnone rfl
    rfl
  · rw [hskip] at hfind
    cases hfind.trans hwanted

private theorem walkFound_some (system : System) (it : FSWalkIterator)
    (hwanted : wanted mode (entry :: it.dir.getD []) = some entry') :
    ∃ rest, (∀ e ∈ rest, e ∈ it.dir.getD []) ∧ walkFound system mode (some entry) it =
      yieldEntry system mode { it with dir := some rest } entry' := by
  obtain ⟨hfind, hrest, -⟩ := skipEntries_spec mode entry (it.dir.getD [])
  rw [walkFound]
  rcases hskip : skipEntries mode entry (it.dir.getD []) with ⟨_ | e, rest⟩
  · rw [hskip] at hfind
    cases hfind.trans hwanted
  · rw [hskip] at hfind hrest
    obtain rfl := Option.some.inj (hfind.trans hwanted)
    exact ⟨rest, hrest, rfl⟩

private theorem QueueFits.walk_found (h : QueueFits it) (system : System) (mode : FSWalkMode)
    (entry : Dirent) (hneeded : ∀ e ∈ wanted mode (entry :: it.dir.getD []),
      it.currentDir.length + 1 + e.name.length + 1 ≤ 2 * it.currentPathCapacity) :
    ∃ b it', walkFound system mode (some entry) it = .ok (b, it') ∧ Fits it' := by
  cases hwanted : wanted mode (entry :: it.dir.getD []) with
  | none =>
    refine ⟨_, _, walkFound_none hwanted, ⟨⟨h.started, h.capacity, h.queued, ?_⟩, ?_⟩⟩
    · intro listing hdir
      obtain rfl := Option.some.inj hdir
      exact List.forall_mem_nil _
    · intro entry rest hdir
      cases hdir
  | some e =>
    obtain ⟨rest, hrest, hwalk⟩ := walkFound_some system it hwanted
    obtain ⟨b, it', hyield, hle, hfits, hcurrent, hdir, hfirst, hqueue⟩ :=
      yieldEntry_eq system mode { it with dir := some rest } (hneeded e hwanted)
    refine ⟨b, it', hwalk.trans hyield, ⟨⟨?_, ?_, ?_, ?_⟩, ?_⟩⟩
    · exact hfirst.trans h.started
    · exact h.capacity.trans hle
    · intro path hmem
      rcases hqueue path hmem with hold | hnew
      · exact (h.queued path hold).trans_le hle
      · exact hnew
    · intro listing hlisting entry' hmem
      obtain rfl := Option.some.inj (hdir.symm.trans hlisting)
      rcases hopen : it.dir with _ | listing
      · rw [hopen] at hrest
        exact absurd (hrest entry' hmem) List.not_mem_nil
      · rw [hopen] at hrest
        exact h.named _ hopen entry' (hrest entry' hmem)
    · intro entry' rest' _
      rw [hcurrent]
      dsimp only at hfits ⊢
      omega

private theorem Fits.walk (h : Fits it) (path : List UInt8) (mode : FSWalkMode)
    (hnamed : Named system) :
    ∃ b it', fsWalk system path it mode = .ok (b, it') ∧ Fits it' := by
  rw [fsWalk_started h.started]
  obtain ⟨hfits, hcapacity, hnear⟩ := h.next_entry hnamed
  rcases hnext : nextEntry system it with ⟨_ | entry, it'⟩
  · rw [hnext] at hfits
    exact ⟨_, _, rfl, hfits⟩
  · rw [hnext] at hfits hnear
    obtain ⟨hcurrent, hname⟩ := hnear entry rfl
    apply hfits.toQueueFits.walk_found system mode entry
    intro e hwanted
    have hsize : e.name.length ≤ 255 := by
      rcases List.mem_cons.mp (List.mem_of_find?_eq_some hwanted) with rfl | hmem
      · exact hname
      · rcases hopen : it'.dir with _ | listing
        · rw [hopen] at hmem
          exact absurd hmem List.not_mem_nil
        · rw [hopen] at hmem
          exact hfits.named _ hopen e hmem
    have hcapacity' : 256 ≤ it'.currentPathCapacity := hfits.capacity
    change it'.currentDir.length < it'.currentPathCapacity at hcurrent
    change it'.currentDir.length + 1 + e.name.length + 1 ≤ 2 * it'.currentPathCapacity
    omega

/-- The calls on one iterator, each with its path and its mode. -/
def fsWalks (system : System) :
    List (List UInt8 × FSWalkMode) → FSWalkIterator → Except Fault FSWalkIterator
  | [], it => .ok it
  | (path, mode) :: calls, it => do
    let (_, it) ← fsWalk system path it mode
    fsWalks system calls it

private theorem Fits.walks {calls : List (List UInt8 × FSWalkMode)} (h : Fits it)
    (hnamed : Named system) :
    ∃ it', fsWalks system calls it = .ok it' := by
  induction calls generalizing it with
  | nil => exact ⟨it, rfl⟩
  | cons call calls ih =>
    obtain ⟨path, mode⟩ := call
    obtain ⟨b, it', hwalk, hfits⟩ := h.walk path mode hnamed
    rw [fsWalks, hwalk]
    exact ih hfits

/-- The first path that the first call writes needs at most twice the first capacity. -/
def FirstFits (system : System) (calls : List (List UInt8 × FSWalkMode)) : Prop :=
  ∀ path mode listing entry, (path, mode) ∈ calls.head? → system.opendir path = some listing →
    wanted mode listing = some entry → path.length + 1 + entry.name.length + 1 ≤ 2 * 256

private theorem fsWalk_init (path : List UInt8) : fsWalk system path fsWalkIteratorInit mode =
    match system.opendir path with
    | none => .ok (false, ⟨[], 256, [], [], false, none⟩)
    | some [] => .ok (false, ⟨[], 256, [], [], false, some []⟩)
    | some (entry :: rest) => walkFound system mode (some entry) ⟨[], 256, path, [], false, some rest⟩ := by
  have hopen : fsWalk system path fsWalkIteratorInit mode =
      walkFound system mode (openNext system ⟨[], 256, [], [path], false, none⟩).1
        (openNext system ⟨[], 256, [], [path], false, none⟩).2 := rfl
  rw [hopen, openNext]
  dsimp only
  rcases system.opendir path with _ | _ | ⟨entry, rest⟩
  · rfl
  · rfl
  · rfl

/-- Every path that is written fits in the buffer if the first one does, and only then. -/
theorem fsWalks_iff (hnamed : Named system) (calls : List (List UInt8 × FSWalkMode)) :
    (∃ it, fsWalks system calls fsWalkIteratorInit = .ok it) ↔ FirstFits system calls := by
  rcases calls with _ | ⟨⟨path, mode⟩, calls⟩
  · refine iff_of_true ⟨_, rfl⟩ fun path mode listing entry hhead => ?_
    exact absurd hhead (Option.not_mem_none _)
  · rw [fsWalks, fsWalk_init]
    have hfirst : FirstFits system ((path, mode) :: calls) ↔ ∀ listing entry,
        system.opendir path = some listing → wanted mode listing = some entry →
          path.length + 1 + entry.name.length + 1 ≤ 2 * 256 := by
      constructor
      · exact fun h listing entry => h path mode listing entry rfl
      · rintro h _ _ listing entry hhead
        obtain ⟨rfl, rfl⟩ := Prod.mk.inj (Option.some.inj hhead)
        exact h listing entry
    rw [hfirst]
    rcases hopendir : system.opendir path with _ | _ | ⟨first, rest⟩
    · have hfits : Fits ⟨[], 256, [], [], false, none⟩ :=
        ⟨⟨rfl, le_rfl, List.forall_mem_nil _, fun _ h => absurd h (by simp)⟩,
          fun _ _ h => absurd h (by simp)⟩
      exact iff_of_true (hfits.walks hnamed) fun listing entry h => absurd h (by simp)
    · have hfits : Fits ⟨[], 256, [], [], false, some []⟩ :=
        ⟨⟨rfl, le_rfl, List.forall_mem_nil _, fun _ h => by simp [← Option.some.inj h]⟩,
          fun _ _ h => absurd h (by simp)⟩
      apply iff_of_true (hfits.walks hnamed)
      intro listing entry h hwanted
      obtain rfl := Option.some.inj h
      cases hwanted
    · have hlisting := hnamed _ _ hopendir
      dsimp only
      have hqueue : QueueFits ⟨[], 256, path, [], false, some rest⟩ := by
        refine ⟨rfl, le_rfl, List.forall_mem_nil _, fun listing h e he => ?_⟩
        obtain rfl := Option.some.inj h
        exact hlisting e (List.mem_cons_of_mem _ he)
      constructor
      · rintro ⟨it, hrun⟩ listing entry h hwanted
        obtain rfl := Option.some.inj h
        by_contra hlong
        obtain ⟨rest', -, hwalk⟩ := walkFound_some system ⟨[], 256, path, [], false, some rest⟩ hwanted
        rw [hwalk, yieldEntry_error (Nat.lt_of_not_le hlong)] at hrun
        cases hrun
      · intro hneeded
        obtain ⟨b, it', hwalk, hfits⟩ := hqueue.walk_found system mode first fun e he =>
          hneeded _ e rfl he
        rw [hwalk]
        exact hfits.walks hnamed

end Capacity

/-- Every directory has a file `a` in it. -/
def everywhere : System := ⟨fun _ => some [⟨[46], .dir⟩, ⟨[97], .reg⟩], fun _ => false⟩

private theorem everywhere_named : Named everywhere := by
  intro path listing h entry hmem
  obtain rfl := Option.some.inj h
  rcases List.mem_cons.mp hmem with rfl | hmem
  · decide
  · rw [List.mem_singleton.mp hmem]
    decide

/-- A walk from `d`, with two calls. -/
theorem fsWalks_iff_two :
    (∃ it, fsWalks everywhere [([100], ⟨true, true, true⟩), ([100], ⟨true, true, true⟩)]
      fsWalkIteratorInit = .ok it) ↔
      FirstFits everywhere [([100], ⟨true, true, true⟩), ([100], ⟨true, true, true⟩)] :=
  fsWalks_iff everywhere_named _

/-- From `d/d/…/d`, 300 directories deep, the first path that is written does not fit. -/
theorem not_fsWalks : ¬∀ (system : System) (calls : List (List UInt8 × FSWalkMode)), Named system →
    ∃ it, fsWalks system calls fsWalkIteratorInit = .ok it := by
  intro h
  obtain ⟨path, hpath⟩ : ∃ path : List UInt8, path.length = 599 := by
    refine ⟨100 :: (List.replicate 299 [47, 100]).flatten, ?_⟩
    rw [List.length_cons, List.length_flatten, List.map_replicate, List.sum_replicate_nat]
    rfl
  obtain ⟨it, hrun⟩ := h everywhere [(path, ⟨true, true, true⟩)] everywhere_named
  have hlong : 2 * 256 < path.length + 1 + 1 + 1 := by omega
  obtain ⟨rest, -, hwalk⟩ := walkFound_some everywhere ⟨[], 256, path, [], false, some [⟨[97], .reg⟩]⟩
    (rfl : wanted ⟨true, true, true⟩ [⟨[46], .dir⟩, ⟨[97], .reg⟩] = some ⟨[97], .reg⟩)
  have hfault : fsWalk everywhere path fsWalkIteratorInit ⟨true, true, true⟩ = .error .outOfBounds :=
    (fsWalk_init path).trans (hwalk.trans (yieldEntry_error hlong))
  rw [fsWalks, hfault] at hrun
  cases hrun

end Libromano.Filesystem
