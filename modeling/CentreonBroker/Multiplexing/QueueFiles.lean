import CentreonBroker.File.Names

/-!
# The files of the muxers

The muxer of a name has a queue file, and a memory file when it is persistent. They are
in one directory for all muxers, and each is a splitter of its own. The muxer of a
connection removes its queue files when the connection ends.

Which names keep to their own files is a matter of what names begin one another.
-/

namespace CentreonBroker.Multiplexing

open File File.Names Decimal Fnmatch

/-- What a muxer is made for. -/
inductive MuxerKind where
  /-- An endpoint of the configuration: it is persistent. -/
  | configured
  /-- A connection that an acceptor got: `remove_queue_files` is called at its end. -/
  | feeder
  deriving DecidableEq

/-- `muxer::queue_file`. -/
def queueFile (cache_dir name : Path) : Path := cache_dir ++ (".queue.".toList ++ name)

/-- `muxer::memory_file`. -/
def memoryFile (cache_dir name : Path) : Path := cache_dir ++ (".memory.".toList ++ name)

/-- The splitters of a muxer, and whether all their files are removed. -/
def splitters (cache_dir : Path) (kind : MuxerKind) (name : Path) : List (Path × Bool) :=
  match kind with
  | .configured => [(queueFile cache_dir name, false), (memoryFile cache_dir name, false)]
  | .feeder => [(queueFile cache_dir name, true)]

/-- The largest number of a part. -/
def intMax : Nat := 2 ^ 31 - 1

section Files

variable {δ : Type} [DecidableEq δ] (dirOf : Path → δ)

omit [DecidableEq δ] in
/-- The files of the muxer of a name. -/
def Belongs (cache_dir name : Path) (f : δ × Path) : Prop :=
  ∃ id ≤ intMax, f = part dirOf (queueFile cache_dir name) id ∨
    f = part dirOf (memoryFile cache_dir name) id

/-- No operation of the muxer of the first name touches a file of the second one. -/
def QueuesIsolated (cache_dir : Path) (kind : MuxerKind) (n₁ n₂ : Path) : Prop :=
  ∀ b ∈ splitters cache_dir kind n₁, ∀ f, Belongs dirOf cache_dir n₂ f →
    Isolated dirOf b.1 b.2 f

/-- No file of the second name has a name that the muxer of the first one takes. -/
def NoneTaken (cache_dir : Path) (kind : MuxerKind) (n₁ n₂ : Path) : Prop :=
  ∀ b ∈ splitters cache_dir kind n₁, ∀ f, Belongs dirOf cache_dir n₂ f →
    ¬ Taken dirOf b.1 b.2 f

/-- A name followed by the number of a part. -/
def Numbered (n₁ n₂ : Path) : Prop := ∃ id, 1 ≤ id ∧ id ≤ intMax ∧ n₁ = n₂ ++ digits id

/--
The two names keep apart. The first one is not the second one and a number. If its files
are removed, it does not begin the second one; else what the second one adds to it is not
the beginning of a number.
-/
def Separate (kind : MuxerKind) (n₁ n₂ : Path) : Prop :=
  ¬ Numbered n₁ n₂ ∧
    match kind with
    | .feeder => ¬ n₁ <+: n₂
    | .configured => ¬ ∃ u, n₂ = n₁ ++ u ∧ Converts (u ++ ['1'])

end Files

/-! ## Names and directories -/

theorem baseName_append (p : Path) {t : Path} (h : '/' ∉ t) :
    baseName (p ++ t) = baseName p ++ t := by
  have ht : ∀ c ∈ t.reverse, decide (c ≠ '/') = true := by
    intro c hc
    exact decide_eq_true fun he => h (he ▸ List.mem_reverse.mp hc)
  rw [baseName, baseName, List.reverse_append, List.takeWhile_append_of_pos ht,
    List.reverse_append, List.reverse_reverse]

theorem baseDir_append (p : Path) {t : Path} (h : '/' ∉ t) : baseDir (p ++ t) = baseDir p := by
  have ht : ∀ c ∈ t.reverse, decide (c ≠ '/') = true := by
    intro c hc
    exact decide_eq_true fun he => h (he ▸ List.mem_reverse.mp hc)
  rw [baseDir, baseDir, List.reverse_append, List.dropWhile_append_of_pos ht]
  simp [h]

theorem slash_not_mem_digits (id : Nat) : '/' ∉ digits id := by
  intro h
  exact absurd (isDigit_of_mem_digits h) (by decide)

/-- What the path of a part adds to the path of the first one. -/
def suffix (id : Nat) : Path := if id = 0 then [] else digits id

theorem filePath_eq (base_path : Path) (id : Nat) :
    filePath base_path id = base_path ++ suffix id := by
  unfold filePath suffix
  split
  · exact (List.append_nil _).symm
  · rfl

theorem slash_not_mem_suffix (id : Nat) : '/' ∉ suffix id := by
  unfold suffix
  split
  · exact List.not_mem_nil
  · exact slash_not_mem_digits id

theorem converts_suffix (id : Nat) : Converts (suffix id) := by
  unfold suffix
  split
  · decide
  · exact converts_of_digits (digits_ne_nil id) fun c hc => isDigit_of_mem_digits hc

theorem isDigit_suffix {id : Nat} : ∀ c ∈ suffix id, c.isDigit := by
  unfold suffix
  split
  · intro c hc; cases hc
  · exact fun c hc => isDigit_of_mem_digits hc

section Plain

variable {δ : Type} [DecidableEq δ] {dirOf : Path → δ} {cache_dir : Path}

omit [DecidableEq δ] in
theorem part_eq {t : Path} (ht : '/' ∉ t) (id : Nat) :
    part dirOf (cache_dir ++ t) id =
      (dirOf (baseDir cache_dir), baseName cache_dir ++ (t ++ suffix id)) := by
  have hs : '/' ∉ t ++ suffix id := by
    rw [List.mem_append, not_or]
    exact ⟨ht, slash_not_mem_suffix id⟩
  unfold part entry
  rw [filePath_eq, List.append_assoc, baseName_append _ hs, baseDir_append _ hs]

theorem plain_baseDir (h : ∀ c ∈ cache_dir, Plain c) :
    ∀ c ∈ dirPrefix (baseDir cache_dir), Plain c := by
  have hslash : Plain '/' := by decide
  have hdir : ∀ c ∈ baseDir cache_dir, Plain c := by
    intro c hc
    unfold baseDir at hc
    split at hc
    · have h1 := List.mem_of_mem_drop (List.mem_reverse.mp hc)
      exact h c (List.mem_reverse.mp ((List.dropWhile_sublist _).subset h1))
    · rw [List.mem_singleton.mp hc]
      decide
  intro c hc
  unfold dirPrefix at hc
  split at hc
  · exact hdir c hc
  · rcases List.mem_append.mp hc with hc | hc
    · exact hdir c hc
    · rw [List.mem_singleton.mp hc]
      exact hslash

theorem plain_baseName (h : ∀ c ∈ cache_dir, Plain c) : ∀ c ∈ baseName cache_dir, Plain c := by
  intro c hc
  have h1 := (List.takeWhile_sublist _).subset (List.mem_reverse.mp hc)
  exact h c (List.mem_reverse.mp h1)

/-- **What a plain path lists** is what its base name begins. -/
theorem listed_iff {t e : Path} (hp : ∀ c ∈ cache_dir ++ t, Plain c) (ht : '/' ∉ t)
    (hne : t ≠ []) (he : '/' ∉ e) :
    listed dirOf (cache_dir ++ t) (dirOf (baseDir cache_dir), baseName cache_dir ++ e) = true ↔
      t <+: e := by
  have hdir : ∀ c ∈ cache_dir, Plain c := fun c hc => hp c (List.mem_append_left _ hc)
  have hplain : ∀ c ∈ dirPrefix (baseDir cache_dir) ++ (baseName cache_dir ++ t), Plain c := by
    intro c hc
    rcases List.mem_append.mp hc with hc | hc
    · exact plain_baseDir hdir c hc
    · rcases List.mem_append.mp hc with hc | hc
      · exact plain_baseName hdir c hc
      · exact hp c (List.mem_append_right _ hc)
  have hlast : ∃ c, (dirPrefix (baseDir cache_dir) ++ (baseName cache_dir ++ t)).getLast? = some c ∧
      c ≠ '/' := by
    refine ⟨t.getLast hne, ?_, fun h => ht (h ▸ List.getLast_mem hne)⟩
    rw [List.getLast?_append_of_ne_nil _ (by simp [hne]), List.getLast?_append_of_ne_nil _ hne,
      List.getLast?_eq_some_getLast hne]
  have hf : filter (cache_dir ++ t) =
      (dirPrefix (baseDir cache_dir) ++ (baseName cache_dir ++ t)) ++ ['*'] := by
    rw [filter, baseDir_append _ ht, baseName_append _ ht]
    simp only [List.append_assoc]
  unfold listed
  rw [hf, baseDir_append _ ht, decide_eq_true_eq, fnmatch_prefix hplain hlast]
  simp only [true_and, List.append_assoc, List.append_cancel_left_eq]
  constructor
  · rintro ⟨s, hs, -⟩
    exact ⟨s, hs.symm⟩
  · rintro ⟨s, rfl⟩
    exact ⟨s, rfl, fun h => he (List.mem_append_right _ h)⟩

omit [DecidableEq δ] in
/-- The number of a file that is listed is that of what follows the base name. -/
theorem partNumber_iff {t s : Path} (ht : '/' ∉ t) (d : δ) :
    partNumber (cache_dir ++ t) (d, baseName cache_dir ++ (t ++ s)) ≠ none ↔ Converts s := by
  have hdrop : (baseName cache_dir ++ (t ++ s)).drop (baseName (cache_dir ++ t)).length = s := by
    rw [baseName_append _ ht, ← List.append_assoc, List.drop_left]
  unfold partNumber
  dsimp only
  rw [hdrop]
  by_cases hs : s = []
  · rw [if_pos hs, hs]
    exact ⟨fun _ => by decide, fun _ => Option.some_ne_none _⟩
  · rw [if_neg hs]
    by_cases hc : (strtol s).2 = []
    · rw [if_pos hc]
      exact ⟨fun _ => hc, fun _ => Option.some_ne_none _⟩
    · rw [if_neg hc]
      exact ⟨fun h => absurd rfl h, fun h => absurd h hc⟩

/-- **What a splitter takes of another one** of the same directory: what its path begins. -/
theorem taken_iff {t₁ t₂ : Path} (hp : ∀ c ∈ cache_dir ++ t₁, Plain c) (h₁ : '/' ∉ t₁)
    (h₂ : '/' ∉ t₂) (hne : t₁ ≠ []) (removes : Bool) (id : Nat) :
    Taken dirOf (cache_dir ++ t₁) removes (part dirOf (cache_dir ++ t₂) id) ↔
      ∃ s, t₂ ++ suffix id = t₁ ++ s ∧ (removes = true ∨ Converts s) := by
  have he : '/' ∉ t₂ ++ suffix id := by
    rw [List.mem_append, not_or]
    exact ⟨h₂, slash_not_mem_suffix id⟩
  unfold Taken Counted
  rw [part_eq h₂, listed_iff hp h₁ hne he]
  constructor
  · rintro (⟨j, hj⟩ | ⟨⟨s, hs⟩, hnum⟩ | ⟨hrem, s, hs⟩)
    · rw [part_eq h₁] at hj
      have hj := List.append_cancel_left (Prod.mk.inj hj).2
      exact ⟨suffix j, hj.symm, .inr (converts_suffix j)⟩
    · rw [← hs, partNumber_iff h₁] at hnum
      exact ⟨s, hs.symm, .inr hnum⟩
    · exact ⟨s, hs.symm, .inl hrem⟩
  · rintro ⟨s, hs, hrem | hc⟩
    · exact .inr (.inr ⟨hrem, s, hs.symm⟩)
    · refine .inr (.inl ⟨⟨s, hs.symm⟩, ?_⟩)
      rw [hs, partNumber_iff h₁]
      exact hc

/-- The files of one kind are none of the other kind's. -/
theorem not_taken_other {n₁ n₂ : Path} {k₁ k₂ : Char} {r₁ r₂ : Path} (hk : k₁ ≠ k₂)
    (hp : ∀ c ∈ cache_dir ++ ('.' :: k₁ :: r₁ ++ n₁), Plain c)
    (h₁ : '/' ∉ '.' :: k₁ :: r₁ ++ n₁) (h₂ : '/' ∉ '.' :: k₂ :: r₂ ++ n₂) (removes : Bool)
    (id : Nat) :
    ¬ Taken dirOf (cache_dir ++ ('.' :: k₁ :: r₁ ++ n₁)) removes
      (part dirOf (cache_dir ++ ('.' :: k₂ :: r₂ ++ n₂)) id) := by
  rw [taken_iff hp h₁ h₂ (List.cons_ne_nil _ _)]
  rintro ⟨s, hs, -⟩
  simp only [List.cons_append, List.cons.injEq, true_and] at hs
  exact hk hs.1.symm

end Plain

/-! ## Names that begin one another -/

/-- What the name of a part of the second name can be, when the first name begins it. -/
theorem append_suffix_eq {n₁ n₂ s : Path} {id : Nat} (hne : n₁ ≠ n₂) (hid : id ≤ intMax)
    (h : n₂ ++ suffix id = n₁ ++ s) :
    Numbered n₁ n₂ ∨ ∃ u, u ≠ [] ∧ n₂ = n₁ ++ u ∧ s = u ++ suffix id := by
  rcases List.append_eq_append_iff.mp h with ⟨v, rfl, hv⟩ | ⟨u, rfl, hu⟩
  · left
    have hv0 : v ≠ [] := by
      rintro rfl
      exact hne (List.append_nil _)
    unfold suffix at hv
    split at hv
    · exact absurd (List.append_eq_nil_iff.mp hv.symm).1 hv0
    · rename_i h0
      obtain ⟨j, hj1, hj2, hj⟩ := digits_of_prefix hv0 id (Nat.one_le_iff_ne_zero.mpr h0)
        ⟨s, hv.symm⟩
      exact ⟨j, hj1, Nat.le_trans hj2 hid, by rw [hj]⟩
  · right
    refine ⟨u, ?_, rfl, hu⟩
    rintro rfl
    exact hne (List.append_nil _).symm

theorem numbered_suffix {n₁ n₂ : Path} (h : Numbered n₁ n₂) :
    ∃ id ≤ intMax, n₂ ++ suffix id = n₁ ++ [] := by
  obtain ⟨id, h1, h2, rfl⟩ := h
  refine ⟨id, h2, ?_⟩
  rw [List.append_nil, suffix, if_neg (by omega)]

/-- **The names decide**: whether some part of the second one falls to the first one. -/
theorem separate_iff {n₁ n₂ : Path} (hne : n₁ ≠ n₂) (kind : MuxerKind) :
    Separate kind n₁ n₂ ↔ ∀ id ≤ intMax, ∀ s, n₂ ++ suffix id = n₁ ++ s →
      ¬ (kind = .feeder ∨ Converts s) := by
  have hone : suffix 1 = ['1'] := rfl
  cases kind with
  | feeder =>
    constructor
    · rintro ⟨hnum, hpre⟩ id hid s hs -
      rcases append_suffix_eq hne hid hs with h | ⟨u, -, hu, -⟩
      · exact hnum h
      · exact hpre ⟨u, hu.symm⟩
    · intro h
      constructor
      · intro hnum
        obtain ⟨id, hid, hs⟩ := numbered_suffix hnum
        exact h id hid _ hs (.inl rfl)
      · rintro ⟨u, hu⟩
        exact h 0 (Nat.zero_le _) u (by rw [← hu]; exact List.append_nil _) (.inl rfl)
  | configured =>
    constructor
    · rintro ⟨hnum, hpre⟩ id hid s hs hc
      have hc : Converts s := hc.resolve_left (by decide)
      rcases append_suffix_eq hne hid hs with h | ⟨u, hu0, hu, rfl⟩
      · exact hnum h
      · refine hpre ⟨u, hu, ?_⟩
        exact converts_append hu0 isDigit_suffix (List.cons_ne_nil _ _) (by simp) hc
    · intro h
      constructor
      · intro hnum
        obtain ⟨id, hid, hs⟩ := numbered_suffix hnum
        exact h id hid _ hs (.inr (by decide))
      · rintro ⟨u, rfl, hc⟩
        refine h 1 (by decide) (u ++ ['1']) ?_ (.inr hc)
        rw [hone, List.append_assoc]

/-! ## The muxers -/

section Isolation

variable {δ : Type} [DecidableEq δ] {dirOf : Path → δ} {cache_dir n₁ n₂ : Path}

theorem queuesIsolated_iff_noneTaken {kind : MuxerKind} :
    QueuesIsolated dirOf cache_dir kind n₁ n₂ ↔ NoneTaken dirOf cache_dir kind n₁ n₂ := by
  constructor
  · exact fun h b hb f hf => isolated_iff_not_taken.mp (h b hb f hf)
  · exact fun h b hb f hf => isolated_iff_not_taken.mpr (h b hb f hf)

theorem queue_plain (h : ∀ c ∈ cache_dir ++ n₁, Plain c) (q : Path) (hq : ∀ c ∈ q, Plain c) :
    ∀ c ∈ cache_dir ++ (q ++ n₁), Plain c := by
  intro c hc
  rcases List.mem_append.mp hc with hc | hc
  · exact h c (List.mem_append_left _ hc)
  · rcases List.mem_append.mp hc with hc | hc
    · exact hq c hc
    · exact h c (List.mem_append_right _ hc)

theorem slash_not_mem {n : Path} (h : '/' ∉ n) {q : Path} (hq : '/' ∉ q) : '/' ∉ q ++ n := by
  rw [List.mem_append, not_or]
  exact ⟨hq, h⟩

/-- One splitter of the first name, against all the files of the second one. -/
theorem splitter_noneTaken (hp : ∀ c ∈ cache_dir ++ n₁, Plain c) (h₁ : '/' ∉ n₁)
    (h₂ : '/' ∉ n₂) (removes : Bool) {base : Path}
    (hb : base = queueFile cache_dir n₁ ∨ base = memoryFile cache_dir n₁) :
    (∀ f, Belongs dirOf cache_dir n₂ f → ¬ Taken dirOf base removes f) ↔
      ∀ id ≤ intMax, ∀ s, n₂ ++ suffix id = n₁ ++ s → ¬ (removes = true ∨ Converts s) := by
  have hq : ∀ c ∈ ".queue.".toList, Plain c := by simp [Plain]
  have hm : ∀ c ∈ ".memory.".toList, Plain c := by simp [Plain]
  have hq' : '/' ∉ ".queue.".toList := by decide
  have hm' : '/' ∉ ".memory.".toList := by decide
  have key : ∀ q, (∀ c ∈ q, Plain c) → '/' ∉ q → q ≠ [] → ∀ id,
      Taken dirOf (cache_dir ++ (q ++ n₁)) removes (part dirOf (cache_dir ++ (q ++ n₂)) id) ↔
        ∃ s, n₂ ++ suffix id = n₁ ++ s ∧ (removes = true ∨ Converts s) := by
    intro q hqp hqs hq0 id
    rw [taken_iff (queue_plain hp q hqp) (slash_not_mem h₁ hqs) (slash_not_mem h₂ hqs)
      (by simp [hq0])]
    simp only [List.append_assoc, List.append_cancel_left_eq]
  have hkm : ('q' : Char) ≠ 'm' := by decide
  constructor
  · intro h id hid s hs hrc
    rcases hb with rfl | rfl
    · exact h _ ⟨id, hid, .inl rfl⟩ ((key _ hq hq' (by decide) id).mpr ⟨s, hs, hrc⟩)
    · exact h _ ⟨id, hid, .inr rfl⟩ ((key _ hm hm' (by decide) id).mpr ⟨s, hs, hrc⟩)
  · rintro h f ⟨id, hid, rfl | rfl⟩ ht
    · rcases hb with rfl | rfl
      · obtain ⟨s, hs, hrc⟩ := (key _ hq hq' (by decide) id).mp ht
        exact h id hid s hs hrc
      · exact not_taken_other hkm.symm (queue_plain hp _ hm) (slash_not_mem h₁ hm')
          (slash_not_mem h₂ hq') removes id ht
    · rcases hb with rfl | rfl
      · exact not_taken_other hkm (queue_plain hp _ hq) (slash_not_mem h₁ hq')
          (slash_not_mem h₂ hm') removes id ht
      · obtain ⟨s, hs, hrc⟩ := (key _ hm hm' (by decide) id).mp ht
        exact h id hid s hs hrc

theorem noneTaken_iff_separate (hne : n₁ ≠ n₂) (hp : ∀ c ∈ cache_dir ++ n₁, Plain c)
    (h₁ : '/' ∉ n₁) (h₂ : '/' ∉ n₂) (kind : MuxerKind) :
    NoneTaken dirOf cache_dir kind n₁ n₂ ↔ Separate kind n₁ n₂ := by
  rw [separate_iff hne]
  unfold NoneTaken splitters
  cases kind with
  | feeder =>
    rw [List.forall_mem_singleton, splitter_noneTaken hp h₁ h₂ true (.inl rfl)]
    simp
  | configured =>
    rw [List.forall_mem_cons, List.forall_mem_singleton, splitter_noneTaken hp h₁ h₂ false (.inl rfl),
      splitter_noneTaken hp h₁ h₂ false (.inr rfl), and_self]
    simp

/--
**The queues of two names**: the muxer of the first one never touches a file of the second
one, in any run, exactly when it takes none of its names. For names without slashes nor
wildcards, that is when they are `Separate`.
-/
theorem queues_isolated_iff (hne : n₁ ≠ n₂) (kind : MuxerKind) :
    (QueuesIsolated dirOf cache_dir kind n₁ n₂ ↔ NoneTaken dirOf cache_dir kind n₁ n₂) ∧
    ((∀ c ∈ cache_dir ++ n₁, Plain c) → '/' ∉ n₁ → '/' ∉ n₂ →
      (QueuesIsolated dirOf cache_dir kind n₁ n₂ ↔ Separate kind n₁ n₂)) := by
  refine ⟨queuesIsolated_iff_noneTaken, fun hp h₁ h₂ => ?_⟩
  rw [queuesIsolated_iff_noneTaken, noneTaken_iff_separate hne hp h₁ h₂]

end Isolation

/-- The second connection of an acceptor, and the tenth. -/
theorem queues_isolated_second :
    QueuesIsolated id "/var/lib/centreon-broker//central-broker".toList .feeder
      "master-2".toList "master-10".toList := by
  refine ((queues_isolated_iff (by decide) .feeder).2 (by simp [Plain]) (by decide)
    (by decide)).mpr ?_
  refine ⟨?_, by decide⟩
  rintro ⟨k, -, -, hk⟩
  have hlen := congrArg List.length hk
  have hlt : "master-2".toList.length < "master-10".toList.length := by decide
  rw [List.length_append] at hlen
  omega

/-- **The first connection** of an acceptor removes the files of the tenth. -/
theorem not_queues_isolated_first :
    ¬ QueuesIsolated id "/var/lib/centreon-broker//central-broker".toList .feeder
      "master-1".toList "master-10".toList := by
  rw [queuesIsolated_iff_noneTaken,
    noneTaken_iff_separate (by decide) (by simp [Plain]) (by decide) (by decide)]
  rintro ⟨-, hpre⟩
  exact hpre ⟨['0'], by decide⟩

end CentreonBroker.Multiplexing
