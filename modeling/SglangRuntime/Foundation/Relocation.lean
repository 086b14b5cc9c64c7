import SglangRuntime.Foundation.InverseTables

/-!
# Foundation — relocation

Contents are copied from places to other places in one batch (`copyBatch`), and a table that leads
to the places is rewritten accordingly.  What the table leads to is then the same as before
(`MutuallyInverse.relocate` with `copyBatch_of_mem` and `copyBatch_of_not_mem`).
-/

namespace Foundation

open List Function

variable {α β γ : Type*} [DecidableEq α] [DecidableEq β]

/-- Each place of `dsts` takes what its partner in `srcs` holds; all reads come before the writes. -/
def copyBatch (content : β → γ) (dsts srcs : List β) : β → γ :=
  (dsts.zip srcs).foldl (fun out m => update out m.1 (content m.2)) content

section Copy

variable {content : β → γ} {dsts srcs : List β} {b d s : β}

theorem foldl_update_of_not_mem {moves : List (β × β)} (h : b ∉ moves.map Prod.fst) (out : β → γ) :
    moves.foldl (fun out m => update out m.1 (content m.2)) out b = out b := by
  induction moves generalizing out with
  | nil => rfl
  | cons m moves ih =>
    rw [map_cons, mem_cons, not_or] at h
    rw [foldl_cons, ih h.2, update_of_ne h.1]

theorem copyBatch_of_not_mem (h : b ∉ dsts) : copyBatch content dsts srcs b = content b := by
  refine foldl_update_of_not_mem (fun hm => h ?_) _
  obtain ⟨m, hzip, rfl⟩ := mem_map.mp hm
  exact (of_mem_zip hzip).1

theorem copyBatch_of_mem (hnd : dsts.Nodup) (hlen : dsts.length = srcs.length)
    (h : (d, s) ∈ dsts.zip srcs) : copyBatch content dsts srcs d = content s := by
  unfold copyBatch
  have hnd' : ((dsts.zip srcs).map Prod.fst).Nodup := by
    rwa [map_fst_zip (Nat.le_of_eq hlen)]
  generalize dsts.zip srcs = moves at h hnd'
  suffices hall : ∀ out : β → γ, moves.foldl (fun out m => update out m.1 (content m.2))
      out d = content s from hall content
  induction moves with
  | nil => cases h
  | cons m moves ih =>
    intro out
    obtain ⟨hm, hnd'⟩ := nodup_cons.mp hnd'
    rw [foldl_cons]
    rcases mem_cons.mp h with rfl | h
    · rw [foldl_update_of_not_mem hm, update_self]
    · exact ih h hnd' _

end Copy

namespace MutuallyInverse

variable {f : α → Option β} {g : β → Option α}

omit [DecidableEq β] in
/-- Keys are freed, and the bindings at `srcs` are moved to places that no other key leads to.  The
keys that are left lead to where they did, or to the place that is paired with it. -/
theorem relocate (h : MutuallyInverse f g) {freed vs : List α} {srcs dsts : List β}
    (hs : srcs.Nodup) (hg : gather g srcs = some vs) (hlen : srcs.length = dsts.length)
    (hkeep : ∀ a ∈ vs, a ∉ freed) (hfree : ∀ d ∈ dsts, ∀ a, f a = some d → a ∈ freed) :
    (∀ a, scatter (wipe f freed) vs dsts a ≠ none ↔ f a ≠ none ∧ a ∉ freed) ∧
    ∀ a b b', f a = some b → scatter (wipe f freed) vs dsts a = some b' →
      b' = b ∧ b ∉ dsts ∨ (b', b) ∈ dsts.zip srcs := by
  have hvs : vs.Nodup := h.symm.nodup_gather hs hg
  have hlen' : vs.length = dsts.length := (length_of_gather hg).symm.trans hlen
  refine ⟨fun a => ?_, fun a b b' hab hab' => ?_⟩
  · by_cases ha : a ∈ vs
    · obtain ⟨d, hd⟩ := exists_mem_zip hlen' ha
      obtain ⟨b, -, hb⟩ := exists_of_mem_gather hg ha
      rw [(scatter_eq_some_iff hvs hlen').mpr (.inl hd), (h a b).mpr hb]
      simp [hkeep a ha]
    · rw [scatter_of_notMem ha]
      unfold wipe
      split_ifs with hf
      · simp [hf]
      · simp [hf]
  · rcases (scatter_eq_some_iff hvs hlen').mp hab' with hz | ⟨-, hw⟩
    · -- the key was bound to the source of its index
      refine .inr ?_
      obtain ⟨i, hi⟩ := mem_iff_getElem?.mp hz
      obtain ⟨hv, hd⟩ := getElem?_zip_eq_some.mp hi
      obtain ⟨hlt, hveq⟩ := List.getElem?_eq_some_iff.mp hv
      have hlts : i < srcs.length := by rw [length_of_gather hg]; exact hlt
      have hsrc := (gather_eq_some_iff.mp hg).get hlts hlt
      have hb : srcs[i] = b := by
        refine Option.some.inj (((h a _).mpr ?_).symm.trans hab)
        simpa [hveq] using hsrc
      refine mem_iff_getElem?.mpr ⟨i, getElem?_zip_eq_some.mpr ⟨hd, ?_⟩⟩
      rw [getElem?_eq_getElem hlts, hb]
    · obtain ⟨hnot, hb⟩ := wipe_eq_some_iff.mp hw
      obtain rfl := Option.some.inj (hab.symm.trans hb)
      exact .inl ⟨rfl, fun hd => hnot (hfree b hd a hab)⟩

end MutuallyInverse

end Foundation
