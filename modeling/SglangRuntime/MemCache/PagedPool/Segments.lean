import SglangRuntime.MemCache.PagedPool.Model

/-!
# Memory cache — freeing parts of a row

`free_segment` returns the page of the first slot and of every slot at a page boundary of the row,
which are the pages of the segment, each once (`pieces_pages`).  Of the segments of one row
`free_segments` cuts what the segment before has returned, so their pages ascend in the row
(`trimmed_spec`).
-/

namespace SglangRuntime.PagedPool

open Foundation List

variable {c : PoolConfig} {idx : List Slot} {pos k : Nat} {segs : List (List Slot × Nat)}
  {g : Nat → Int} {x : Slot × Nat}

/-- The pages of the row, counted from its start, that a segment reaches into. -/
def rowPages (c : PoolConfig) (s : List Slot × Nat) : List Nat :=
  if s.1 = [] then []
  else List.range' (s.2 / c.pageSize) (numPagesOf c.pageSize (s.2 % c.pageSize + s.1.length))

theorem mem_zipIdx : x ∈ idx.zipIdx pos ↔ pos ≤ x.2 ∧ idx[x.2 - pos]? = some x.1 :=
  mk_mem_zipIdx_iff_le_and_getElem?_sub

theorem div_add_eq (c : PoolConfig) (pos i : Nat) :
    (pos + i) / c.pageSize = pos / c.pageSize + (pos % c.pageSize + i) / c.pageSize := by
  have h : pos + i = pos % c.pageSize + i + pos / c.pageSize * c.pageSize := by
    have := Nat.div_add_mod' pos c.pageSize
    omega
  conv_lhs => rw [h]
  rw [Nat.add_mul_div_right _ _ c.pageSize_pos, Nat.add_comm]

theorem mem_rowPages : k ∈ rowPages c (idx, pos) ↔ ∃ x ∈ idx.zipIdx pos, x.2 / c.pageSize = k := by
  have hn := c.pageSize_pos
  by_cases hidx : idx = []
  · simp [rowPages, hidx]
  have hpos := length_pos_of_ne_nil hidx
  rw [rowPages, if_neg hidx, mem_range'_1]
  dsimp only
  constructor
  · rintro ⟨hle, hlt⟩
    obtain ⟨d, rfl⟩ := Nat.exists_eq_add_of_le hle
    have hd := (lt_numPagesOf hn).mp (Nat.lt_of_add_lt_add_left hlt)
    -- the first place of the page in the segment
    have hmod := Nat.mod_lt pos hn
    obtain ⟨i, hi, hdiv⟩ : ∃ i < idx.length, (pos % c.pageSize + i) / c.pageSize = d := by
      rcases Nat.eq_zero_or_pos d with rfl | hdpos
      · exact ⟨0, hpos, Nat.div_eq_of_lt hmod⟩
      · have hone := Nat.le_mul_of_pos_left c.pageSize hdpos
        refine ⟨d * c.pageSize - pos % c.pageSize, by omega, ?_⟩
        rw [Nat.add_sub_cancel' (by omega), Nat.mul_div_cancel _ hn]
    obtain ⟨x, hx⟩ : ∃ x, idx[i]? = some x := ⟨_, getElem?_eq_getElem hi⟩
    refine ⟨(x, pos + i), mem_zipIdx.mpr ⟨Nat.le_add_right _ _, ?_⟩, ?_⟩
    · rw [Nat.add_sub_cancel_left]
      exact hx
    · rw [div_add_eq, hdiv]
  · rintro ⟨x, hx, rfl⟩
    obtain ⟨hle, hget⟩ := mem_zipIdx.mp hx
    obtain ⟨i, hi⟩ := Nat.exists_eq_add_of_le hle
    rw [hi, Nat.add_sub_cancel_left] at hget
    rw [hi, div_add_eq]
    exact ⟨Nat.le_add_right _ _, Nat.add_lt_add_left
      (div_lt_numPagesOf hn (Nat.add_lt_add_left (getElem?_lt hget) (pos % c.pageSize))) _⟩

variable (s : List Slot × Nat)

theorem pairwise_rowPages : (rowPages c s).Pairwise (· < ·) := by
  unfold rowPages
  split_ifs
  · exact List.Pairwise.nil
  · exact pairwise_lt_range'

/-- The page at each place of a segment, by the page of the row that the place is in. -/
def PagesBy (c : PoolConfig) (g : Nat → Int) (xs : List (Slot × Nat)) : Prop :=
  ∀ x ∈ xs, x.1 / (c.pageSize : Int) = g (x.2 / c.pageSize)

section

variable (h : PagesBy c g (idx.zipIdx pos))
include h

theorem PagesBy.getD {i : Nat} (hi : i < idx.length) :
    idx.getD i 0 / (c.pageSize : Int) = g ((pos + i) / c.pageSize) := by
  have hget : idx[i]? = some (idx.getD i 0) := by
    simp [getD_eq_getElem?_getD, getElem?_eq_getElem hi]
  exact h (idx.getD i 0, pos + i) (mem_zipIdx.mpr ⟨Nat.le_add_right _ _, by
    rw [Nat.add_sub_cancel_left]
    exact hget⟩)

/-- The pages at every `page_size`-th place from a page boundary of the row on. -/
theorem stride_pages {d m : Nat}
    (hd : pos + d = m * c.pageSize) :
    (stride c.pageSize (idx.drop d)).map (· / (c.pageSize : Int)) =
      (List.range' m (numPagesOf c.pageSize (idx.length - d))).map g := by
  have hn := c.pageSize_pos
  rw [stride, map_map, length_drop, List.range'_eq_map_range, map_map]
  refine map_congr_left fun i hi => ?_
  have hlt := (lt_numPagesOf hn).mp (mem_range.mp hi)
  have hget := h.getD (i := d + i * c.pageSize) (by omega)
  have hplace : pos + (d + i * c.pageSize) = (m + i) * c.pageSize := by
    rw [Nat.add_mul]
    omega
  rw [hplace, Nat.mul_div_cancel _ hn] at hget
  rw [Function.comp_apply, Function.comp_apply, ← hget, getD_eq_getElem?_getD,
    getElem?_drop, ← getD_eq_getElem?_getD]

/-- **The pieces of a segment** are in its pages, one in each. -/
theorem pieces_pages (hidx : idx ≠ []) :
    (pieces c idx pos).flatten.map (· / (c.pageSize : Int)) = (rowPages c (idx, pos)).map g := by
  have hn := c.pageSize_pos
  have hpos := length_pos_of_ne_nil hidx
  have hdm := Nat.div_add_mod' pos c.pageSize
  have hmod := Nat.mod_lt pos hn
  rw [pieces, rowPages, if_neg hidx]
  split_ifs with h0
  · have hs := stride_pages h (d := 0) (m := pos / c.pageSize) (by omega)
    simpa [h0] using hs
  -- the first slot stands for the rest of its page
  have hs := stride_pages h (d := c.pageSize - pos % c.pageSize) (m := pos / c.pageSize + 1)
    (by rw [Nat.add_mul]; omega)
  have hfirst : (idx.take 1).map (· / (c.pageSize : Int)) = [g (pos / c.pageSize)] := by
    obtain ⟨x, xs, rfl⟩ := exists_cons_of_ne_nil hidx
    simpa using h.getD (i := 0) hpos
  have hcount : numPagesOf c.pageSize (pos % c.pageSize + idx.length) =
      numPagesOf c.pageSize (idx.length - (c.pageSize - pos % c.pageSize)) + 1 := by
    rcases Nat.le_total (c.pageSize - pos % c.pageSize) idx.length with hle | hle
    · have e : pos % c.pageSize + idx.length =
          1 * c.pageSize + (idx.length - (c.pageSize - pos % c.pageSize)) := by omega
      rw [e, numPagesOf_mul_add hn, Nat.add_comm]
    · rw [Nat.sub_eq_zero_of_le hle, numPagesOf_zero hn]
      exact (Nat.div_eq_iff hn).mpr (by omega)
  rw [hcount, List.range'_succ, map_cons, flatten_cons, map_append, hfirst]
  simpa using hs

/-! ### Several segments of a row -/

end

theorem mem_placed : x ∈ placed segs ↔ ∃ s ∈ segs, x ∈ s.1.zipIdx s.2 :=
  mem_flatMap

theorem placed_cons : placed (s :: segs) = s.1.zipIdx s.2 ++ placed segs :=
  flatMap_cons

/-- What is left of a segment from place `b` on. -/
theorem mem_zipIdx_drop {b : Nat} (hb : pos ≤ b) :
    x ∈ (idx.drop (b - pos)).zipIdx b ↔ x ∈ idx.zipIdx pos ∧ b ≤ x.2 := by
  rw [mem_zipIdx, mem_zipIdx, getElem?_drop]
  constructor
  · rintro ⟨hle, hget⟩
    have e : b - pos + (x.2 - b) = x.2 - pos := by omega
    rw [e] at hget
    exact ⟨⟨hb.trans hle, hget⟩, hle⟩
  · rintro ⟨⟨-, hget⟩, hle⟩
    have e : b - pos + (x.2 - b) = x.2 - pos := by omega
    rw [e]
    exact ⟨hle, hget⟩

theorem le_boundary (c : PoolConfig) (pos : Nat) : pos ≤ (pos / c.pageSize + 1) * c.pageSize := by
  have hdm := Nat.div_add_mod' pos c.pageSize
  have hmod := Nat.mod_lt pos c.pageSize_pos
  rw [Nat.add_mul]
  omega

theorem mem_rowPages_drop : k ∈ rowPages c (idx.drop ((pos / c.pageSize + 1) * c.pageSize - pos),
      (pos / c.pageSize + 1) * c.pageSize) ↔ k ∈ rowPages c (idx, pos) ∧ k ≠ pos / c.pageSize := by
  have hn := c.pageSize_pos
  have hb := le_boundary c pos
  rw [mem_rowPages, mem_rowPages]
  constructor
  · rintro ⟨x, hx, rfl⟩
    obtain ⟨hx, hle⟩ := (mem_zipIdx_drop hb).mp hx
    refine ⟨⟨x, hx, rfl⟩, ?_⟩
    have := (Nat.le_div_iff_mul_le hn).mpr hle
    omega
  · rintro ⟨⟨x, hx, rfl⟩, hne⟩
    refine ⟨x, (mem_zipIdx_drop hb).mpr ⟨hx, ?_⟩, rfl⟩
    have h₁ := Nat.div_le_div_right (c := c.pageSize) (mem_zipIdx.mp hx).1
    exact (Nat.le_div_iff_mul_le hn).mp (by omega)

/-- What `free_segments` passes on: parts of its segments, whose pages ascend in the row from behind
the end of what was returned before, and that reach all pages of the segments but that one. -/
structure Trimmed (c : PoolConfig) (prevEnd : Option Nat) (segs out : List (List Slot × Nat)) :
    Prop where
  sub : ∀ x ∈ placed out, x ∈ placed segs
  ascending : (out.flatMap (rowPages c)).Pairwise (· < ·)
  behind : ∀ e, prevEnd = some e → ∀ k ∈ out.flatMap (rowPages c), (e - 1) / c.pageSize < k
  all : ∀ x ∈ placed segs, x.2 / c.pageSize ∈ out.flatMap (rowPages c) ∨
    ∃ e, prevEnd = some e ∧ x.2 / c.pageSize = (e - 1) / c.pageSize

/-- One more segment in front. -/
theorem Trimmed.cons {prevEnd : Option Nat} {out : List (List Slot × Nat)} {t : List Slot × Nat}
    (h : Trimmed c (some (pos + idx.length)) segs out) (hidx : idx ≠ [])
    (hsub : ∀ x ∈ t.1.zipIdx t.2, x ∈ idx.zipIdx pos)
    (hmem : ∀ k, k ∈ rowPages c t ↔ k ∈ rowPages c (idx, pos) ∧
      ∀ e, prevEnd = some e → k ≠ (e - 1) / c.pageSize) (hprev : ∀ e, prevEnd = some e → e ≤ pos) :
    Trimmed c prevEnd ((idx, pos) :: segs) (t :: out) := by
  have hpos := length_pos_of_ne_nil hidx
  have hend : ∀ k ∈ rowPages c (idx, pos), pos / c.pageSize ≤ k ∧
      k ≤ (pos + idx.length - 1) / c.pageSize := by
    intro k hk
    obtain ⟨x, hx, rfl⟩ := mem_rowPages.mp hk
    obtain ⟨hle, hget⟩ := mem_zipIdx.mp hx
    have := getElem?_lt hget
    exact ⟨Nat.div_le_div_right hle, Nat.div_le_div_right (by omega)⟩
  have hlast : (pos + idx.length - 1) / c.pageSize ∈ rowPages c (idx, pos) := by
    obtain ⟨x, hx⟩ : ∃ x, idx[idx.length - 1]? = some x :=
      ⟨_, getElem?_eq_getElem (by omega)⟩
    refine mem_rowPages.mpr ⟨(x, pos + idx.length - 1), mem_zipIdx.mpr ⟨by omega, ?_⟩, rfl⟩
    rw [← hx]
    congr 1
    omega
  have hprev' : ∀ e, prevEnd = some e → (e - 1) / c.pageSize ≤ pos / c.pageSize := fun e he =>
    Nat.div_le_div_right ((Nat.sub_le _ _).trans (hprev e he))
  have hin : ∀ k ∈ rowPages c (idx, pos), k ∈ (t :: out).flatMap (rowPages c) ∨
      ∃ e, prevEnd = some e ∧ k = (e - 1) / c.pageSize := by
    intro k hk
    by_cases hno : ∃ e, prevEnd = some e ∧ k = (e - 1) / c.pageSize
    · exact .inr hno
    · refine .inl (mem_flatMap.mpr ⟨t, mem_cons_self, (hmem k).mpr ⟨hk, ?_⟩⟩)
      exact fun e he heq => hno ⟨e, he, heq⟩
  refine ⟨?_, ?_, ?_, ?_⟩
  · intro x hx
    exact mem_append.mpr ((mem_append.mp hx).imp (hsub x) (h.sub x))
  · rw [flatMap_cons]
    refine pairwise_append.mpr ⟨pairwise_rowPages t, h.ascending, fun i hi j hj => ?_⟩
    exact (hend i ((hmem i).mp hi).1).2.trans_lt (h.behind _ rfl j hj)
  · intro e he k hk
    rcases mem_append.mp hk with hk | hk
    · obtain ⟨hk, hne⟩ := (hmem k).mp hk
      have h₁ := hne e he
      have h₂ := hprev' e he
      have h₃ := (hend k hk).1
      omega
    · have h₁ := h.behind _ rfl k hk
      have h₂ := hprev' e he
      have h₃ := (hend _ hlast).1
      omega
  · intro x hx
    rcases mem_append.mp hx with hx | hx
    · exact hin _ (mem_rowPages.mpr ⟨x, hx, rfl⟩)
    rcases h.all x hx with hx | ⟨e, he, hx⟩
    · refine .inl ?_
      exact mem_append_right _ hx
    · cases he
      rw [hx]
      exact hin _ hlast

theorem trimmed_spec (segs : List (List Slot × Nat)) (prevEnd : Option Nat)
    (hasc : segs.Pairwise fun s t => s.2 + s.1.length ≤ t.2)
    (hprev : ∀ e, prevEnd = some e → ∀ s ∈ segs, e ≤ s.2) :
    Trimmed c prevEnd segs (trimmed c prevEnd segs) := by
  induction segs generalizing prevEnd with
  | nil => exact ⟨fun _ h => h, List.Pairwise.nil, fun _ _ _ h => absurd h not_mem_nil,
      fun _ h => absurd h not_mem_nil⟩
  | cons s segs ih =>
    obtain ⟨idx, pos⟩ := s
    obtain ⟨hhead, htail⟩ := pairwise_cons.mp hasc
    rw [trimmed]
    split_ifs with hidx hshared
    · -- an empty segment is passed over
      have h := ih prevEnd htail fun e he s hs => hprev e he s (mem_cons_of_mem _ hs)
      have hplaced : placed ((idx, pos) :: segs) = placed segs := by
        rw [placed_cons, hidx]
        rfl
      exact ⟨by rw [hplaced]; exact h.sub, h.ascending, h.behind, by rw [hplaced]; exact h.all⟩
    · -- the first page was returned with the segment before
      have hrest := ih (some (pos + idx.length)) htail fun e he s hs => by
        cases he
        exact hhead s hs
      obtain ⟨e, rfl, he⟩ : ∃ e, prevEnd = some e ∧
          pos / c.pageSize = (e - 1) / c.pageSize := by
        simpa [Option.any_eq_true] using hshared
      refine hrest.cons hidx (fun x hx => ?_) (fun k => ?_)
        fun e' he' => hprev e' he' _ mem_cons_self
      · exact ((mem_zipIdx_drop (le_boundary c pos)).mp hx).1
      · rw [mem_rowPages_drop]
        refine and_congr_right fun _ => ⟨fun hne e' he' => ?_, fun hne => he ▸ hne e rfl⟩
        cases he'
        exact he ▸ hne
    · have hrest := ih (some (pos + idx.length)) htail fun e he s hs => by
        cases he
        exact hhead s hs
      refine hrest.cons hidx (fun _ h => h) (fun k => ?_)
        fun e' he' => hprev e' he' _ mem_cons_self
      refine (and_iff_left_of_imp fun hk e he heq => ?_).symm
      subst he
      obtain ⟨x, hx, rfl⟩ := mem_rowPages.mp hk
      have h₁ := Nat.div_le_div_right (c := c.pageSize) (mem_zipIdx.mp hx).1
      have h₂ : (e - 1) / c.pageSize ≤ pos / c.pageSize :=
        Nat.div_le_div_right ((Nat.sub_le _ _).trans (hprev e rfl _ mem_cons_self))
      refine hshared ?_
      simp only [Option.any_some, beq_iff_eq]
      omega

/-- The pages of a row: one page for each page of the row. -/
theorem RowParts.pagesBy (h : RowParts c segs) : ∃ g : Nat → Int, PagesBy c g (placed segs) ∧
    ∀ x ∈ placed segs, ∀ y ∈ placed segs,
      g (x.2 / c.pageSize) = g (y.2 / c.pageSize) → x.2 / c.pageSize = y.2 / c.pageSize := by
  let g : Nat → Int := fun k =>
    if hk : ∃ x ∈ placed segs, x.2 / c.pageSize = k then hk.choose.1 / (c.pageSize : Int) else 0
  have hg : PagesBy c g (placed segs) := by
    intro x hx
    have hk : ∃ y ∈ placed segs, y.2 / c.pageSize = x.2 / c.pageSize := ⟨x, hx, rfl⟩
    have hspec := hk.choose_spec
    simp only [g, dif_pos hk]
    exact (h.samePage x hx _ hspec.1).mpr hspec.2.symm
  refine ⟨g, hg, fun x hx y hy e => ?_⟩
  rw [← hg x hx, ← hg y hy] at e
  exact (h.samePage x hx y hy).mp e

/-- **The segments of a row** return their pages, each once. -/
theorem RowParts.returned (h : RowParts c segs) : ∃ ids : List Int,
    ((trimmed c none segs).flatMap fun s =>
        if s.1 = [] then [] else (pieces c s.1 s.2).flatten.map (· / (c.pageSize : Int))) = ids ∧
      ids.Nodup ∧ ∀ p, p ∈ ids ↔ ∃ x ∈ segs.flatMap Prod.fst, x / (c.pageSize : Int) = p := by
  obtain ⟨g, hg, hinj⟩ := h.pagesBy
  have ht := trimmed_spec (c := c) segs none h.ascending fun _ e => nomatch e
  have hrow : ∀ k ∈ (trimmed c none segs).flatMap (rowPages c),
      ∃ x ∈ placed segs, x.2 / c.pageSize = k := by
    intro k hk
    obtain ⟨s, hs, hk⟩ := mem_flatMap.mp hk
    obtain ⟨x, hx, rfl⟩ := mem_rowPages.mp hk
    exact ⟨x, ht.sub x (mem_placed.mpr ⟨s, hs, hx⟩), rfl⟩
  refine ⟨((trimmed c none segs).flatMap (rowPages c)).map g, ?_, ?_, fun p => ?_⟩
  · rw [map_flatMap]
    refine flatMap_congr fun s hs => ?_
    by_cases hs0 : s.1 = []
    · rw [if_pos hs0, rowPages, if_pos hs0]
      rfl
    · rw [if_neg hs0]
      exact pieces_pages (fun x hx => hg x (ht.sub x (mem_placed.mpr ⟨s, hs, hx⟩))) hs0
  · have hnd : ((trimmed c none segs).flatMap (rowPages c)).Nodup :=
      ht.ascending.imp fun h => Nat.ne_of_lt h
    refine hnd.map_on fun i hi j hj e => ?_
    obtain ⟨x, hx, rfl⟩ := hrow i hi
    obtain ⟨y, hy, rfl⟩ := hrow j hj
    exact hinj x hx y hy e
  · constructor
    · intro hp
      obtain ⟨k, hk, rfl⟩ := mem_map.mp hp
      obtain ⟨x, hx, rfl⟩ := hrow k hk
      obtain ⟨s, hs, hxs⟩ := mem_placed.mp hx
      exact ⟨x.1, mem_flatMap.mpr ⟨s, hs, mem_of_getElem? (mem_zipIdx.mp hxs).2⟩, hg x hx⟩
    · rintro ⟨x, hx, rfl⟩
      obtain ⟨s, hs, hx⟩ := mem_flatMap.mp hx
      obtain ⟨i, hi⟩ := mem_iff_getElem?.mp hx
      have hplaced : (x, s.2 + i) ∈ placed segs := by
        refine mem_placed.mpr ⟨s, hs, mem_zipIdx.mpr ⟨Nat.le_add_right _ _, ?_⟩⟩
        rw [Nat.add_sub_cancel_left]
        exact hi
      rcases ht.all _ hplaced with hk | ⟨e, he, -⟩
      · exact mem_map.mpr ⟨_, hk, (hg _ hplaced).symm⟩
      · cases he

end SglangRuntime.PagedPool
