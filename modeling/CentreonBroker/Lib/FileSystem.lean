import CentreonBroker.Lib.Bytes

/-!
# Files by their names

A directory seen as a map from names to contents. It is what a program has that closes a
file before it renames or removes it; one that holds on to files it has removed needs
`FileSystem`.
-/

namespace CentreonBroker

/-- What each name leads to. -/
abbrev Files (ν : Type) := ν → Option Bytes

namespace Files

variable {ν : Type} [DecidableEq ν]

/-- `fopen(n, "a+")`: the file is created when it does not exist. -/
def create (fs : Files ν) (n : ν) : Files ν := Function.update fs n (some ((fs n).getD []))

/-- What was written to a file reaches it. -/
def append (fs : Files ν) (n : ν) (b : Bytes) : Files ν :=
  Function.update fs n ((fs n).map (· ++ b))

/-- `remove(n)`. -/
def remove (fs : Files ν) (n : ν) : Files ν := Function.update fs n none

/-- `rename(n, m)`, which fails when there is no file to rename. -/
def rename (fs : Files ν) (n m : ν) : Option (Files ν) :=
  (fs n).map fun b => Function.update (Function.update fs n none) m (some b)

@[simp] theorem create_self (fs : Files ν) (n : ν) :
    fs.create n n = some ((fs n).getD []) := Function.update_self _ _ _

@[simp] theorem create_of_ne (fs : Files ν) {n m : ν} (h : m ≠ n) : fs.create n m = fs m :=
  Function.update_of_ne h _ _

@[simp] theorem append_self (fs : Files ν) (n : ν) (b : Bytes) :
    fs.append n b n = (fs n).map (· ++ b) := Function.update_self _ _ _

@[simp] theorem append_of_ne (fs : Files ν) {n m : ν} (h : m ≠ n) (b : Bytes) :
    fs.append n b m = fs m := Function.update_of_ne h _ _

@[simp] theorem remove_of_ne (fs : Files ν) {n m : ν} (h : m ≠ n) : fs.remove n m = fs m :=
  Function.update_of_ne h _ _

/-- A file that exists is renamed; the others stay. -/
theorem rename_of_some {fs : Files ν} {n m : ν} {b : Bytes} (h : fs n = some b) (hne : n ≠ m) :
    ∃ fs', fs.rename n m = some fs' ∧ fs' n = none ∧ fs' m = some b ∧
      ∀ k, k ≠ n → k ≠ m → fs' k = fs k := by
  refine ⟨Function.update (Function.update fs n none) m (some b), by rw [rename, h]; rfl, ?_, ?_,
    fun k hn hm => ?_⟩
  · rw [Function.update_of_ne hne, Function.update_self]
  · rw [Function.update_self]
  · rw [Function.update_of_ne hm, Function.update_of_ne hn]

end Files

end CentreonBroker

/-!
## One directory of files

A name leads to an inode, and an inode holds bytes. The two are kept apart
because a program holds on to inodes: a file that was removed while it was open
can still be written and read through what was opened.

The operations are those of `stdio` on files that grow at their end only. Each
comes with what it does to the name it is given, and with the fact that it does
nothing to the others.
-/

namespace CentreonBroker

/-- Names, of a type `ν`, and the files they lead to. -/
structure FileSystem (ν : Type) where
  /-- The inode each name of the directory leads to. -/
  dir : List (ν × Nat)
  /-- The bytes of each inode. -/
  content : Nat → Bytes
  /-- The first inode that was never used. -/
  fresh : Nat

namespace FileSystem

variable {ν : Type} [DecidableEq ν]

def empty : FileSystem ν := ⟨[], fun _ => [], 0⟩

/-- `fopen(n, "r+")`: the inode opened, none when there is no such file. -/
def find (fs : FileSystem ν) (n : ν) : Option Nat := fs.dir.lookup n

/-- `fopen(n, "a+")`: the file is created when it does not exist. -/
def openAppend (fs : FileSystem ν) (n : ν) : Nat × FileSystem ν :=
  match fs.find n with
  | some i => (i, fs)
  | none =>
    (fs.fresh,
      { dir := fs.dir ++ [(n, fs.fresh)]
        content := Function.update fs.content fs.fresh []
        fresh := fs.fresh + 1 })

/-- `fwrite` to a file open for appending. -/
def append (fs : FileSystem ν) (i : Nat) (b : Bytes) : FileSystem ν :=
  { fs with content := Function.update fs.content i (fs.content i ++ b) }

/-- `remove(n)`. What is open stays open. -/
def remove (fs : FileSystem ν) (n : ν) : FileSystem ν :=
  { fs with dir := fs.dir.filter fun e => e.1 ≠ n }

/-- No two names lead to one inode, and what is used is below what is fresh. -/
structure Lawful (fs : FileSystem ν) : Prop where
  find_lt : ∀ {n i}, fs.find n = some i → i < fs.fresh
  find_inj : ∀ {n m i}, fs.find n = some i → fs.find m = some i → n = m

@[simp] theorem find_empty (n : ν) : (FileSystem.empty : FileSystem ν).find n = none := rfl

theorem Lawful.empty : Lawful (FileSystem.empty : FileSystem ν) := by
  constructor
  · intro n i h; cases h
  · intro n m i h; cases h

/-! ## Opening -/

variable {fs : FileSystem ν} {n : ν} {i : Nat}

theorem openAppend_of_find (h : fs.find n = some i) :
    fs.openAppend n = (i, fs) := by
  rw [openAppend, h]

theorem find_openAppend_self (fs : FileSystem ν) (n : ν) :
    (fs.openAppend n).2.find n = some (fs.openAppend n).1 := by
  rw [openAppend]
  cases h : fs.find n with
  | some i => exact h
  | none =>
    show (fs.dir ++ [(n, fs.fresh)]).lookup n = some fs.fresh
    rw [List.lookup_append]
    rw [find] at h
    rw [h]
    simp

theorem find_openAppend_of_ne (fs : FileSystem ν) {m : ν} (hm : m ≠ n) :
    (fs.openAppend n).2.find m = fs.find m := by
  rw [openAppend]
  cases h : fs.find n with
  | some i => rfl
  | none =>
    show (fs.dir ++ [(n, fs.fresh)]).lookup m = fs.dir.lookup m
    have hmn : (m == n) = false := by simpa using hm
    rw [List.lookup_append, List.lookup_cons, hmn]
    simp

theorem content_openAppend_of_ne (fs : FileSystem ν) (hi : i ≠ fs.fresh) :
    (fs.openAppend n).2.content i = fs.content i := by
  rw [openAppend]
  cases fs.find n with
  | some j => rfl
  | none => exact Function.update_of_ne hi _ _

/-- A file that did not exist is empty, and its inode was not in use. -/
theorem openAppend_new (h : fs.find n = none) :
    (fs.openAppend n).1 = fs.fresh ∧ (fs.openAppend n).2.content fs.fresh = [] ∧
      (fs.openAppend n).2.fresh = fs.fresh + 1 := by
  rw [openAppend, h]
  exact ⟨rfl, Function.update_self _ _ _, rfl⟩

theorem Lawful.openAppend (h : fs.Lawful) (n : ν) :
    (fs.openAppend n).2.Lawful := by
  cases hn : fs.find n with
  | some i => rw [openAppend_of_find hn]; exact h
  | none =>
    obtain ⟨h1, _, h3⟩ := openAppend_new hn
    have hself := find_openAppend_self fs n
    rw [h1] at hself
    -- a name that leads to the new inode is the new one, since no other led there before
    have hfresh : ∀ {m}, (fs.openAppend n).2.find m = some fs.fresh → m = n := by
      intro m hm
      by_contra hne
      rw [find_openAppend_of_ne fs hne] at hm
      exact Nat.lt_irrefl _ (h.find_lt hm)
    refine ⟨fun {m i} hm => ?_, fun {m m' i} hm hm' => ?_⟩
    · rw [h3]
      by_cases hne : m = n
      · rw [hne, hself] at hm
        cases hm
        exact Nat.lt_succ_self _
      · rw [find_openAppend_of_ne fs hne] at hm
        exact Nat.lt_succ_of_lt (h.find_lt hm)
    · by_cases hi : i = fs.fresh
      · rw [hi] at hm hm'
        rw [hfresh hm, hfresh hm']
      · have hne : ∀ {k}, (fs.openAppend n).2.find k = some i → k ≠ n := by
          intro k hk he
          rw [he, hself] at hk
          exact hi (Option.some.inj hk).symm
        have hk := hne hm
        have hk' := hne hm'
        rw [find_openAppend_of_ne fs hk] at hm
        rw [find_openAppend_of_ne fs hk'] at hm'
        exact h.find_inj hm hm'

/-! ## Appending -/

@[simp] theorem find_append (fs : FileSystem ν) (i : Nat) (b : Bytes) (n : ν) :
    (fs.append i b).find n = fs.find n := rfl

omit [DecidableEq ν] in
@[simp] theorem fresh_append (fs : FileSystem ν) (i : Nat) (b : Bytes) :
    (fs.append i b).fresh = fs.fresh := rfl

omit [DecidableEq ν] in
@[simp] theorem content_append_self (fs : FileSystem ν) (i : Nat) (b : Bytes) :
    (fs.append i b).content i = fs.content i ++ b := Function.update_self _ _ _

omit [DecidableEq ν] in
theorem content_append_of_ne (fs : FileSystem ν) {j : Nat} (h : j ≠ i) (b : Bytes) :
    (fs.append i b).content j = fs.content j := Function.update_of_ne h _ _

theorem Lawful.append (h : fs.Lawful) (i : Nat) (b : Bytes) :
    (fs.append i b).Lawful := ⟨h.find_lt, h.find_inj⟩

/-! ## Removing -/

@[simp] theorem content_remove (fs : FileSystem ν) (n : ν) : (fs.remove n).content = fs.content :=
  rfl

theorem lookup_filter_ne (l : List (ν × Nat)) (n m : ν) :
    (l.filter fun e => e.1 ≠ n).lookup m = if m = n then none else l.lookup m := by
  induction l with
  | nil => simp
  | cons e l ih =>
    obtain ⟨k, i⟩ := e
    by_cases hk : k = n
    · subst hk
      rw [List.filter_cons_of_neg (by simp), ih, List.lookup_cons]
      by_cases hm : m = k
      · rw [if_pos hm, if_pos hm]
      · have hmk : (m == k) = false := by simpa using hm
        rw [if_neg hm, if_neg hm, hmk]
    · rw [List.filter_cons_of_pos (by simpa using hk), List.lookup_cons, List.lookup_cons, ih]
      by_cases hm : m = n
      · have hmk : (m == k) = false := beq_false_of_ne fun he => hk (he.symm.trans hm)
        rw [hmk, if_pos hm]
      · rw [if_neg hm, if_neg hm]

theorem find_remove_self (fs : FileSystem ν) (n : ν) : (fs.remove n).find n = none := by
  rw [find, remove, lookup_filter_ne, if_pos rfl]

theorem find_remove_of_ne (fs : FileSystem ν) {m : ν} (h : m ≠ n) :
    (fs.remove n).find m = fs.find m := by
  rw [find, remove, lookup_filter_ne, if_neg h]
  rfl

theorem remove_comm (fs : FileSystem ν) (n m : ν) :
    (fs.remove n).remove m = (fs.remove m).remove n := by
  simp only [remove, List.filter_filter, Bool.and_comm]

/-- Opening a file does not see that another one is missing. -/
theorem openAppend_remove (fs : FileSystem ν) {m : ν} (h : n ≠ m) :
    (fs.remove m).openAppend n = ((fs.openAppend n).1, (fs.openAppend n).2.remove m) := by
  rw [openAppend, openAppend, find_remove_of_ne fs h]
  cases fs.find n with
  | some i => rfl
  | none => simp [remove, List.filter_append, h]

theorem Lawful.remove (h : fs.Lawful) (n : ν) : (fs.remove n).Lawful := by
  have hsome : ∀ {m i}, (fs.remove n).find m = some i → fs.find m = some i := by
    intro m i hm
    by_cases hne : m = n
    · rw [hne, find_remove_self] at hm
      cases hm
    · rwa [find_remove_of_ne fs hne] at hm
  exact ⟨fun hm => h.find_lt (hsome hm), fun hm hm' => h.find_inj (hsome hm) (hsome hm')⟩

/-! ## Removing several files -/

theorem foldl_remove_remove (l : List ν) (fs : FileSystem ν) (m : ν) :
    l.foldl FileSystem.remove (fs.remove m) = (l.foldl FileSystem.remove fs).remove m := by
  induction l generalizing fs with
  | nil => rfl
  | cons n l ih => rw [List.foldl_cons, List.foldl_cons, fs.remove_comm m n, ih]

theorem find_foldl_remove {l : List ν} (h : n ∈ l) (fs : FileSystem ν) :
    (l.foldl FileSystem.remove fs).find n = none := by
  induction l generalizing fs with
  | nil => cases h
  | cons k l ih =>
    rw [List.foldl_cons]
    by_cases hl : n ∈ l
    · exact ih hl _
    · obtain rfl : n = k := (List.mem_cons.mp h).resolve_right hl
      -- nothing brings the name back
      rw [foldl_remove_remove]
      exact find_remove_self _ n

theorem mem_names_of_find (h : fs.find n = some i) :
    n ∈ fs.dir.map Prod.fst := by
  by_contra hn
  have hnone : fs.dir.lookup n = none := by
    refine List.lookup_eq_none_iff.mpr fun e he => ?_
    exact bne_iff_ne.mpr fun hk => hn (List.mem_map.mpr ⟨e, he, hk.symm⟩)
  rw [find, hnone] at h
  cases h

/-! ## One file -/

/-- Files of which there is one, and it is empty. -/
def single (n : ν) : FileSystem ν := ⟨[(n, 0)], fun _ => [], 1⟩

theorem find_single (n m : ν) : (single n).find m = if m = n then some 0 else none := by
  unfold FileSystem.find single
  rw [List.lookup_cons]
  by_cases h : m = n
  · rw [if_pos h, beq_iff_eq.mpr h]
  · rw [if_neg h, beq_false_of_ne h]
    rfl

theorem Lawful.single (n : ν) : (FileSystem.single n).Lawful := by
  constructor
  · intro m i h
    rw [find_single] at h
    split at h
    · rw [← Option.some.inj h]; exact Nat.zero_lt_one
    · cases h
  · intro m k i hm hk
    rw [find_single] at hm hk
    split at hm
    · split at hk
      · rename_i h1 h2; rw [h1, h2]
      · cases hk
    · cases hm

end FileSystem

end CentreonBroker
