import Mathlib

/-!
# MemCache — the evictor of the file storage

`LRUFileEvictor` of `storage/file/lru_file_evictor.py`: an index of the files on disk in the order
of their last use, and the keys whose write is in flight, which evictions skip.  `reserve`, `commit`
and `abort` hold the lock throughout; `touch` lets go of it while it asks for the size of a file that
is not in the index.  The threads' locked sections interleave (`Step`, `Run`); of a thread between
two of them only the key it works on matters.

An eviction loop takes the oldest files that are not in flight, one after another (`victims`), while
it moves the others to the end of the index (`evictWhile_spec`).  The accounts hold in every run, and
in-flight files are safe in runs in which no key is reserved twice at a time (`run_sound`): the keys
in flight are a set, and the first commit of a key ends the protection of the second writer.

The answers of the file system are arguments.  What `_evict_while` returns is only logged and is left
out, as are the constructor, whose loops leave an index of files like any other, and `clear`.
-/

namespace SglangRuntime.FileEvictor

open List Prod

abbrev Key := String

/-- How `os.remove` ends; `failed` is any other error than a missing file. -/
inductive Removal where
  | removed
  | notFound
  | failed
deriving DecidableEq, Repr

/-- `ratioBytes` is the cap times the eviction ratio. -/
structure Config where
  maxSizeBytes : Nat
  minFreeBytes : Nat
  ratioBytes : Nat
  isStorageOwner : Bool

def Config.configured (cfg : Config) : Bool := 0 < cfg.maxSizeBytes || 0 < cfg.minFreeBytes

def Config.enabled (cfg : Config) : Bool := cfg.configured && cfg.isStorageOwner

/-- The index has the oldest file first. -/
structure LRUFileEvictor where
  lru : List (Key × Nat)
  pendingWrites : Finset Key
  totalBytes : Int

def sizes (l : List (Key × Nat)) : Nat := (l.map snd).sum

/-- The bytes a removal reclaims. -/
def Removal.freed : Removal → Nat → Nat
  | .removed, n => n
  | _, _ => 0

variable (remove : Key → Removal) (cont : Nat → Int → Bool)

namespace LRUFileEvictor

/-- The loop of `_evict_while` with `_evict_one_lru_locked`: the index and the total it leaves, and
the keys it evicts.  `cont` decides by the bytes reclaimed so far and the total. -/
def evictLoop (pendingWrites : Finset Key) : List (Key × Nat) → (attemptsLeft reclaimed : Nat) →
    Int → List (Key × Nat) × Int × List Key
  | x :: lru, attemptsLeft + 1, reclaimed, total =>
    if cont reclaimed total then
      if x.1 ∈ pendingWrites then
        evictLoop pendingWrites (lru ++ [x]) attemptsLeft reclaimed total
      else if remove x.1 = .failed then (x :: lru, total, [])
      else
        let r := evictLoop pendingWrites lru lru.length (reclaimed + (remove x.1).freed x.2)
          (total - x.2)
        (r.1, r.2.1, x.1 :: r.2.2)
    else (x :: lru, total, [])
  | lru, _, _, total => (lru, total, [])
termination_by lru attemptsLeft => (lru.length, attemptsLeft)

def evictWhile (e : LRUFileEvictor) : LRUFileEvictor × List Key :=
  let r := evictLoop remove cont e.pendingWrites e.lru e.lru.length 0 e.totalBytes
  ({ e with lru := r.1, totalBytes := r.2.1 }, r.2.2)

variable (cfg : Config) (e : LRUFileEvictor)

def evictLocked (remove : Key → Removal) (neededBytes : Nat) : LRUFileEvictor × List Key :=
  if cfg.maxSizeBytes = 0 then (e, [])
  else
    let target := cfg.ratioBytes - neededBytes
    e.evictWhile remove fun _ total => target < total

/-- `fs` and `fs'` are the free bytes the two probes report. -/
def enforceFreeSpaceLocked (remove : Key → Removal) (fs fs' : Option Nat) (valueBytes : Nat) :
    LRUFileEvictor × List Key × Bool :=
  if cfg.minFreeBytes = 0 then (e, [], true)
  else
    match fs with
    | none => (e, [], true)
    | some free =>
      let r := e.evictWhile remove
        fun reclaimed _ => free + reclaimed < cfg.minFreeBytes + valueBytes
      (r.1, r.2, fs'.all fun free => cfg.minFreeBytes + valueBytes ≤ free)

/-- The answers of the file system to a reservation: for the loop of the cap, and for the other. -/
structure Answers where
  remove : Key → Removal
  remove' : Key → Removal
  fs : Option Nat
  fs' : Option Nat

def pop (key : Key) : LRUFileEvictor :=
  { e with
    lru := e.lru.filter (·.1 ≠ key)
    totalBytes := e.totalBytes - sizes (e.lru.filter (·.1 = key)) }

def push (key : Key) (valueBytes : Nat) : LRUFileEvictor :=
  { e with lru := e.lru ++ [(key, valueBytes)], totalBytes := e.totalBytes + valueBytes }

/-- The write would pass the cap. -/
def Over (valueBytes : Nat) : Prop :=
  0 < cfg.maxSizeBytes ∧ (cfg.maxSizeBytes : Int) < e.totalBytes + valueBytes

instance (valueBytes : Nat) : Decidable (e.Over cfg valueBytes) :=
  inferInstanceAs (Decidable (_ ∧ _))

/-- The locked section of `reserve`: the evictor, the keys evicted and whether the write is
admitted. -/
def reserveLocked (key : Key) (valueBytes : Nat) (ans : Answers) :
    LRUFileEvictor × List Key × Bool :=
  let r := if e.Over cfg valueBytes then e.evictLocked cfg ans.remove valueBytes else (e, [])
  let r' := r.1.enforceFreeSpaceLocked cfg ans.remove' ans.fs ans.fs' valueBytes
  if r.1.Over cfg valueBytes then (r.1, r.2, false)
  else if ¬ r'.2.2 then (r'.1, r.2 ++ r'.2.1, false)
  else
    ({ (r'.1.pop key).push key valueBytes with
        pendingWrites := insert key r'.1.pendingWrites }, r.2 ++ r'.2.1, true)

def reserve (key : Key) (valueBytes : Nat) (ans : Answers) : LRUFileEvictor × List Key × Bool :=
  if ¬ cfg.configured then (e, [], true)
  else if ¬ cfg.isStorageOwner ∨ 0 < cfg.maxSizeBytes ∧ cfg.maxSizeBytes < valueBytes then
    (e, [], false)
  else e.reserveLocked cfg key valueBytes ans

def commit (key : Key) : LRUFileEvictor :=
  if cfg.enabled then { e with pendingWrites := e.pendingWrites.erase key } else e

def abort (key : Key) : LRUFileEvictor :=
  if cfg.enabled then { e.pop key with pendingWrites := e.pendingWrites.erase key } else e

def moveToEnd (key : Key) : LRUFileEvictor :=
  { e with lru := e.lru.filter (·.1 ≠ key) ++ e.lru.filter (·.1 = key) }

def Tracked (key : Key) : Prop := key ∈ e.lru.map fst

instance (key : Key) : Decidable (e.Tracked key) := inferInstanceAs (Decidable (_ ∈ _))

/-- The first section of `touch`, and whether it goes on. -/
def touch (key : Key) : LRUFileEvictor × Bool :=
  if ¬ cfg.enabled then (e, false)
  else if e.Tracked key then (e.moveToEnd key, false)
  else (e, true)

/-- The second section of `touch`, for a file whose size it got. -/
def adopt (key : Key) (size : Nat) : LRUFileEvictor :=
  if e.Tracked key then e.moveToEnd key else e.push key size

end LRUFileEvictor

open LRUFileEvictor

/-- The evictor with the keys of the reservations that are neither committed nor aborted, and of the
calls of `touch` between their sections. -/
structure System where
  evictor : LRUFileEvictor
  writers : List Key
  touching : List Key

inductive Step (cfg : Config) : System → System → Prop where
  | reserve (s : System) (key : Key) (valueBytes : Nat) (ans : Answers)
      {r : LRUFileEvictor × List Key × Bool} (hr : s.evictor.reserve cfg key valueBytes ans = r) :
      Step cfg s { s with
        evictor := r.1
        writers := if r.2.2 then key :: s.writers else s.writers }
  | commit (s : System) {key : Key} (hk : key ∈ s.writers) :
      Step cfg s { s with evictor := s.evictor.commit cfg key, writers := s.writers.erase key }
  | abort (s : System) {key : Key} (hk : key ∈ s.writers) :
      Step cfg s { s with evictor := s.evictor.abort cfg key, writers := s.writers.erase key }
  | touch (s : System) (key : Key) {r : LRUFileEvictor × Bool} (hr : s.evictor.touch cfg key = r) :
      Step cfg s { s with
        evictor := r.1
        touching := if r.2 then key :: s.touching else s.touching }
  | adopt (s : System) {key : Key} (hk : key ∈ s.touching) (size : Option Nat) :
      Step cfg s { s with
        evictor := size.elim s.evictor (s.evictor.adopt key)
        touching := s.touching.erase key }

/-- The runs from an index of files on disk through states of `P`. -/
inductive Run (cfg : Config) (P : System → Prop) : System → Prop where
  | start {files : List (Key × Nat)} (h : (files.map fst).Nodup) :
      Run cfg P ⟨⟨files, ∅, sizes files⟩, [], []⟩
  | step {s s' : System} : Run cfg P s → Step cfg s s' → P s' → Run cfg P s'

/-- What an eviction loop is to take of the files not in flight, oldest first: all until its target is
met or a removal fails. -/
def victims : Nat → Int → List (Key × Nat) → List (Key × Nat)
  | _, _, [] => []
  | reclaimed, total, x :: l =>
    if cont reclaimed total ∧ remove x.1 ≠ .failed then
      x :: victims (reclaimed + (remove x.1).freed x.2) (total - x.2) l
    else []

def LRUFileEvictor.idle (e : LRUFileEvictor) : List (Key × Nat) :=
  e.lru.filter (·.1 ∉ e.pendingWrites)

/-! ### Eviction loops -/

/-- The entries at the end of the index that a loop has skipped are in flight, so that it has seen
all when it has no attempts left. -/
theorem evictLoop_spec (pending : Finset Key) (l : List (Key × Nat)) (n reclaimed : Nat) (total : Int) (hn : n ≤ l.length)
    (hskip : ∀ x ∈ l.drop n, x.1 ∈ pending) :
    let v := victims remove cont reclaimed total (l.filter (·.1 ∉ pending))
    let r := evictLoop remove cont pending l n reclaimed total
    r.2.2 = v.map fst ∧ l.filter (·.1 ∉ pending) = v ++ r.1.filter (·.1 ∉ pending) ∧
      l.Perm (v ++ r.1) ∧ r.2.1 = total - sizes v := by
  fun_induction evictLoop with
  | case1 x l n reclaimed total hc hp ih =>
    have hfilter : (x :: l).filter (·.1 ∉ pending) = (l ++ [x]).filter (·.1 ∉ pending) := by
      simp [hp]
    replace hn : n ≤ l.length := Nat.le_of_succ_le_succ hn
    obtain ⟨hk, hidle, hperm, ht⟩ := ih (by rw [length_append]; omega) (by
      rw [drop_append_of_le_length hn]
      exact fun y hy => (mem_append.1 hy).elim (hskip y) fun hy => mem_singleton.1 hy ▸ hp)
    exact hfilter ▸ ⟨hk, hidle, (perm_append_singleton x l).symm.trans hperm, ht⟩
  | case2 x l n reclaimed total hc hp hf => simp [hp, victims, hf, sizes]
  | case3 x l n reclaimed total hc hp hf r ih =>
    obtain ⟨hk, hidle, hperm, ht⟩ := ih le_rfl (by simp)
    simp only [filter_cons, hp, not_false_eq_true, decide_true, if_true, victims, hc, hf, ne_eq,
      and_self, map_cons, cons_append]
    exact ⟨congrArg _ hk, congrArg _ hidle, hperm.cons x, by simp [r, ht, sizes, sub_sub]⟩
  | case4 x l n reclaimed total hc =>
    have hv : ∀ l, victims remove cont reclaimed total l = [] := fun l => by
      cases l <;> simp [victims, hc]
    simp [hv, sizes]
  | case5 n reclaimed l total hx =>
    have hnil : l.filter (·.1 ∉ pending) = [] := by
      refine filter_eq_nil_iff.2 fun y hy => ?_
      have : n = 0 := by
        cases l with
        | nil => cases hy
        | cons z l =>
          cases n with
          | zero => rfl
          | succ n => exact (hx z l n rfl rfl).elim
      subst this
      simpa using hskip y hy
    simp only [hnil]
    simp [victims, sizes]

theorem evictWhile_spec (e : LRUFileEvictor) :
    let v := victims remove cont 0 e.totalBytes e.idle
    let r := e.evictWhile remove cont
    r.2 = v.map fst ∧ e.idle = v ++ r.1.idle ∧ e.lru.Perm (v ++ r.1.lru) ∧
      r.1.totalBytes = e.totalBytes - sizes v :=
  evictLoop_spec remove cont e.pendingWrites e.lru e.lru.length 0 e.totalBytes le_rfl (by simp)

/-- The index loses the entries of `keys`, none of them in flight, and the total their sizes. -/
def Shrinks (e e' : LRUFileEvictor) (keys : List Key) : Prop :=
  ∃ v, v.map fst = keys ∧ e.lru.Perm (v ++ e'.lru) ∧ e'.totalBytes = e.totalBytes - sizes v ∧
    e'.pendingWrites = e.pendingWrites ∧ ∀ k ∈ keys, k ∉ e.pendingWrites

namespace Shrinks

variable {e e' e'' : LRUFileEvictor} {keys keys' : List Key}

theorem refl (e : LRUFileEvictor) : Shrinks e e [] := ⟨[], rfl, .refl _, by simp [sizes], rfl, nofun⟩

theorem trans (h : Shrinks e e' keys) (h' : Shrinks e' e'' keys') : Shrinks e e'' (keys ++ keys') := by
  obtain ⟨v, rfl, hp, ht, hw, hk⟩ := h
  obtain ⟨v', rfl, hp', ht', hw', hk'⟩ := h'
  refine ⟨v ++ v', map_append, ?_, ?_, hw'.trans hw, fun k hm => ?_⟩
  · exact append_assoc v v' _ ▸ hp.trans (hp'.append_left v)
  · simp only [ht', ht, sizes, map_append, sum_append, Int.natCast_add]
    omega
  · exact (mem_append.1 hm).elim (hk k) fun hm => hw ▸ hk' k hm

theorem evictWhile (e : LRUFileEvictor) :
    Shrinks e (e.evictWhile remove cont).1 (e.evictWhile remove cont).2 := by
  obtain ⟨hk, hidle, hp, ht⟩ := evictWhile_spec remove cont e
  refine ⟨_, hk.symm, hp, ht, rfl, fun k hm => ?_⟩
  rw [hk] at hm
  obtain ⟨x, hx, rfl⟩ := mem_map.1 hm
  have hx : x ∈ e.idle := hidle ▸ mem_append_left _ hx
  exact of_decide_eq_true (mem_filter.1 hx).2

theorem evictLocked (cfg : Config) (e : LRUFileEvictor) (remove : Key → Removal) (n : Nat) :
    Shrinks e (e.evictLocked cfg remove n).1 (e.evictLocked cfg remove n).2 := by
  unfold LRUFileEvictor.evictLocked
  split
  exacts [refl e, evictWhile _ _ e]

theorem enforceFreeSpaceLocked (cfg : Config) (e : LRUFileEvictor) (remove : Key → Removal)
    (fs fs' : Option Nat) (n : Nat) : Shrinks e (e.enforceFreeSpaceLocked cfg remove fs fs' n).1
      (e.enforceFreeSpaceLocked cfg remove fs fs' n).2.1 := by
  unfold LRUFileEvictor.enforceFreeSpaceLocked
  split
  · exact refl e
  · cases fs
    exacts [refl e, evictWhile _ _ e]

theorem subset (h : Shrinks e e' keys) : e'.lru ⊆ e.lru := by
  obtain ⟨v, -, hp, -⟩ := h
  exact fun x hx => hp.mem_iff.2 (mem_append_right v hx)

theorem totalBytes_le (h : Shrinks e e' keys) : e'.totalBytes ≤ e.totalBytes := by
  obtain ⟨v, -, -, ht, -⟩ := h
  omega

end Shrinks

section Reserve

variable {cfg : Config} {e : LRUFileEvictor} {key : Key} {n : Nat} {ans : Answers}
  {r : LRUFileEvictor × List Key × Bool}

/-- A reservation is refused, or admitted where nothing is configured, or admitted into an index with
room for it. -/
theorem reserve_cases (h : e.reserve cfg key n ans = r) :
    (r.2.2 = false ∧ Shrinks e r.1 r.2.1 ∧ (cfg.enabled ∨ r.2.1 = [])) ∨
      (¬ cfg.configured ∧ r = (e, [], true)) ∨
      ∃ e', r.2.2 = true ∧ Shrinks e e' r.2.1 ∧ cfg.enabled ∧
        (0 < cfg.maxSizeBytes → e'.totalBytes + n ≤ cfg.maxSizeBytes) ∧
        r.1 = { (e'.pop key).push key n with pendingWrites := insert key e'.pendingWrites } := by
  unfold LRUFileEvictor.reserve at h
  split at h
  next hc => exact .inr (.inl ⟨hc, h.symm⟩)
  split at h
  next => exact .inl (h ▸ ⟨rfl, .refl e, .inr rfl⟩)
  next hc hno =>
  have hen : cfg.enabled := Bool.and_eq_true_iff.2 ⟨not_not.1 hc, not_not.1 (not_or.1 hno).1⟩
  unfold reserveLocked at h
  extract_lets x y at h
  have hx : Shrinks e x.1 x.2 := by
    unfold x
    split
    exacts [.evictLocked cfg e _ n, .refl e]
  have hy : Shrinks x.1 y.1 y.2.1 := .enforceFreeSpaceLocked cfg x.1 _ _ _ n
  split at h
  next => exact .inl (h ▸ ⟨rfl, hx, .inl hen⟩)
  next hover =>
    split at h
    next => exact .inl (h ▸ ⟨rfl, hx.trans hy, .inl hen⟩)
    next =>
      refine .inr (.inr ⟨y.1, h ▸ ⟨rfl, hx.trans hy, hen, fun hm => ?_, rfl⟩⟩)
      have hle := hy.totalBytes_le
      have hroom := not_lt.1 fun hlt => hover ⟨hm, hlt⟩
      omega

/-- The accounts: keys stand once, and the total is the sum of the sizes. -/
structure Books (e : LRUFileEvictor) : Prop where
  nodup : (e.lru.map fst).Nodup
  total : e.totalBytes = sizes e.lru

namespace Books

theorem shrinks {e e' : LRUFileEvictor} {keys : List Key} (h : Books e) (hs : Shrinks e e' keys) :
    Books e' := by
  obtain ⟨v, -, hp, ht, -⟩ := hs
  have hn := (hp.map fst).nodup_iff.1 h.nodup
  have hsum : sizes e.lru = _ := (hp.map snd).sum_eq
  rw [map_append] at hn
  rw [map_append, sum_append] at hsum
  refine ⟨hn.of_append_right, ?_⟩
  rw [ht, h.total, hsum]
  simp [sizes]

theorem filter_perm (l : List (Key × Nat)) (key : Key) :
    l.Perm (l.filter (·.1 ≠ key) ++ l.filter (·.1 = key)) := by
  simpa using (filter_append_perm (·.1 ≠ key) l).symm

theorem pop (h : Books e) (key : Key) : Books (e.pop key) where
  nodup := h.nodup.sublist (filter_sublist.map _)
  total := by
    have hsum : sizes e.lru = _ := ((filter_perm e.lru key).map snd).sum_eq
    rw [map_append, sum_append] at hsum
    simp only [LRUFileEvictor.pop, h.total, hsum]
    simp [sizes]

theorem moveToEnd (h : Books e) (key : Key) : Books (e.moveToEnd key) where
  nodup := ((filter_perm e.lru key).map _).nodup_iff.1 h.nodup
  total := h.total.trans (congrArg _ ((filter_perm e.lru key).map _).sum_eq)

theorem push (h : Books e) (hk : ¬ e.Tracked key) : Books (e.push key n) where
  nodup := by
    rw [LRUFileEvictor.push, map_append]
    exact h.nodup.append (nodup_singleton _) (disjoint_singleton.2 hk)
  total := by simp [LRUFileEvictor.push, h.total, sizes]

theorem reserve (h : Books e) (hr : e.reserve cfg key n ans = r) : Books r.1 := by
  obtain ⟨-, hs, -⟩ | ⟨-, rfl⟩ | ⟨e', -, hs, -, -, he⟩ := reserve_cases hr
  · exact h.shrinks hs
  · exact h
  · have hp : Books ((e'.pop key).push key n) :=
      ((h.shrinks hs).pop key).push (by simp [Tracked, LRUFileEvictor.pop])
    exact he ▸ ⟨hp.nodup, hp.total⟩

end Books

theorem mem_pendingWrites_reserve (hr : e.reserve cfg key n ans = r) (hen : cfg.enabled) {k : Key}
    (hk : k ∈ e.pendingWrites ∨ r.2.2 = true ∧ k = key) : k ∈ r.1.pendingWrites := by
  obtain ⟨h, ⟨_, _, _, _, hw, _⟩, -⟩ | ⟨hc, -⟩ | ⟨e', -, ⟨_, _, _, _, hw, _⟩, -, -, he⟩ :=
    reserve_cases hr
  · simpa [hw, h] using hk
  · simp [Config.enabled, hc] at hen
  · rw [he, hw]
    exact Finset.mem_insert.2 (hk.symm.imp_left And.right)

end Reserve

/-! ### Runs -/

section Run

variable {cfg : Config} {P : System → Prop} {s s' : System}

theorem Books.step (h : Books s.evictor) (hs : Step cfg s s') : Books s'.evictor := by
  cases hs with
  | reserve key n ans hr => exact h.reserve hr
  | commit hk =>
    unfold LRUFileEvictor.commit
    split
    exacts [⟨h.nodup, h.total⟩, h]
  | @abort key hk =>
    unfold LRUFileEvictor.abort
    split
    exacts [⟨(h.pop key).nodup, (h.pop key).total⟩, h]
  | touch key hr =>
    unfold LRUFileEvictor.touch at hr
    split_ifs at hr <;> subst hr
    exacts [h.moveToEnd key, h, h]
  | @adopt key hk size =>
    cases size with
    | none => exact h
    | some n =>
      simp only [Option.elim, LRUFileEvictor.adopt]
      split
      exacts [h.moveToEnd key, h.push ‹_›]

theorem Run.books (h : Run cfg P s) : Books s.evictor := by
  induction h with
  | start h => exact ⟨h, rfl⟩
  | step _ hs _ ih => exact ih.step hs

/-- Every writer's key is in flight. -/
theorem Run.protected (h : Run cfg (fun s => s.writers.Nodup) s) (hen : cfg.enabled) :
    s.writers.Nodup ∧ ∀ k ∈ s.writers, k ∈ s.evictor.pendingWrites := by
  induction h with
  | start => exact ⟨.nil, nofun⟩
  | step _ hs hn ih =>
    refine ⟨hn, ?_⟩
    obtain ⟨hw, ih⟩ := ih
    cases hs with
    | reserve key n ans hr =>
      intro k hk
      refine mem_pendingWrites_reserve hr hen ?_
      dsimp only at hk
      split_ifs at hk with ha
      · exact (mem_cons.1 hk).symm.imp (ih k) (⟨ha, ·⟩)
      · exact .inl (ih k hk)
    | commit =>
      intro k hk
      obtain ⟨hne, hk⟩ := hw.mem_erase_iff.1 hk
      simpa [LRUFileEvictor.commit, hen] using ⟨hne, ih k hk⟩
    | abort =>
      intro k hk
      obtain ⟨hne, hk⟩ := hw.mem_erase_iff.1 hk
      simpa [LRUFileEvictor.abort, hen] using ⟨hne, ih k hk⟩
    | touch key hr =>
      unfold LRUFileEvictor.touch at hr
      split_ifs at hr <;> subst hr <;> exact ih
    | adopt _ size =>
      cases size with
      | none => exact ih
      | some n =>
        simp only [Option.elim, LRUFileEvictor.adopt]
        split <;> exact ih

end Run

/-- The accounts of a state, and what a reservation and an eviction loop do from it. -/
structure Sound (cfg : Config) (s : System) : Prop where
  total : s.evictor.totalBytes = sizes s.evictor.lru
  admitted : ∀ key n ans r, s.evictor.reserve cfg key n ans = r → r.2.2 = true →
    0 < cfg.maxSizeBytes → r.1.totalBytes ≤ cfg.maxSizeBytes
  refused : ∀ key n ans r, s.evictor.reserve cfg key n ans = r → r.2.2 = false →
    r.1.lru ⊆ s.evictor.lru ∧ r.1.totalBytes ≤ s.evictor.totalBytes
  inFlight : ∀ key n ans r, s.evictor.reserve cfg key n ans = r → ∀ k ∈ r.2.1, k ∉ s.writers
  loops : ∀ remove cont, let v := victims remove cont 0 s.evictor.totalBytes s.evictor.idle
    (s.evictor.evictWhile remove cont).2 = v.map Prod.fst ∧
      s.evictor.idle = v ++ (s.evictor.evictWhile remove cont).1.idle

/-- The runs in which no key is reserved twice at a time are sound. -/
theorem run_sound {cfg : Config} {s : System} (h : Run cfg (fun s => s.writers.Nodup) s) :
    Sound cfg s := by
  refine ⟨h.books.total, fun key n ans r hr ha hm => ?_, fun key n ans r hr ha => ?_,
    fun key n ans r hr k hk hw => ?_, fun remove cont => ?_⟩
  · obtain ⟨hf, -⟩ | ⟨hc, -⟩ | ⟨e', -, -, -, hle, he⟩ := reserve_cases hr
    · exact absurd (hf.symm.trans ha) Bool.false_ne_true
    · simp [Config.configured, hm] at hc
    · have := hle hm
      simp only [he, push, pop]
      omega
  · obtain ⟨-, hs, -⟩ | ⟨-, rfl⟩ | ⟨e', ht, -⟩ := reserve_cases hr
    · exact ⟨hs.subset, hs.totalBytes_le⟩
    · cases ha
    · exact absurd (ha.symm.trans ht) Bool.false_ne_true
  · obtain ⟨-, ⟨_, -, -, -, -, hp⟩, hen | hnil⟩ | ⟨-, rfl⟩ | ⟨e', -, ⟨_, -, -, -, -, hp⟩, hen, -⟩ :=
      reserve_cases hr
    · exact hp k hk ((h.protected hen).2 k hw)
    · exact not_mem_nil (hnil ▸ hk)
    · exact not_mem_nil hk
    · exact hp k hk ((h.protected hen).2 k hw)
  · obtain ⟨hk, hidle, -⟩ := evictWhile_spec remove cont s.evictor
    exact ⟨hk, hidle⟩

def exampleConfig : Config := ⟨10, 0, 9, true⟩

def exampleAnswers : Answers := ⟨fun _ => .removed, fun _ => .removed, none, none⟩

theorem run_sound_reserve : ∃ s, s.writers = ["a"] ∧
    Run exampleConfig (fun s => s.writers.Nodup) s ∧ Sound exampleConfig s :=
  have h := .step (@Run.start _ _ [] .nil) (.reserve _ "a" 5 exampleAnswers rfl) (nodup_singleton "a")
  ⟨_, rfl, h, run_sound h⟩

/-- Two threads write one key; after the first has committed, a third thread's reservation evicts the
key under the second. -/
theorem second_writer_evicted : ∃ s, Run exampleConfig (fun _ => True) s ∧
    "a" ∈ s.writers ∧ "a" ∈ (s.evictor.reserve exampleConfig "b" 10 exampleAnswers).2.1 := by
  have h₀ : Run exampleConfig (fun _ => True) ⟨⟨[], ∅, 0⟩, [], []⟩ := @Run.start _ _ [] .nil
  have h₁ := h₀.step (.reserve _ "a" 5 exampleAnswers rfl) trivial
  have h₂ := h₁.step (.reserve _ "a" 5 exampleAnswers rfl) trivial
  have h₃ := h₂.step (.commit _ (mem_cons_self : "a" ∈ ["a", "a"])) trivial
  refine ⟨_, h₃, mem_cons_self, ?_⟩
  change "a" ∈ (reserve exampleConfig ⟨[("a", 5)], ∅, 5⟩ "b" 10 exampleAnswers).2.1
  simp [exampleConfig, exampleAnswers, reserve, reserveLocked, Config.configured, Over, evictLocked,
    evictWhile, evictLoop, enforceFreeSpaceLocked]

end SglangRuntime.FileEvictor
