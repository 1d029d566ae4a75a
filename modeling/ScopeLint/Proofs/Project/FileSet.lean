import Mathlib.Data.List.Nodup
import ScopeLint.Project.FileSet

/-! Looking up files by package. A set of files is part of another one when whatever is found in it is
found there as well, so adding a file of a new package gives a larger set. Where no package stands twice,
the order in which the files were collected makes no difference to what is found. -/

namespace ScopeLint.FileSet

variable {fs fs' : FileSet} {p : String} {file : SourceFile}

theorem get_eq_ok : fs.get p = .ok file ↔ fs.get? p = some file := by
  unfold get
  cases fs.get? p <;> simp

theorem contains_iff : fs.contains p = true ↔ ∃ file, (p, file) ∈ fs.files := by
  simp [contains]

theorem mem_of_get? (h : fs.get? p = some file) : (p, file) ∈ fs.files := by
  unfold get? at h
  obtain ⟨before, after, hfiles, -⟩ := List.lookup_eq_some_iff.mp h
  simp [hfiles]

theorem find?_mono (hc : ∀ p, fs.contains p = true → fs'.contains p = true) {t : Tree} {m : String}
    (h : fs.find? t = .ok (some m)) : fs'.find? t = .ok (some m) := by
  unfold find? at h ⊢
  split at h
  next s =>
    by_cases hs : fs.contains s = true
    · rw [if_pos hs] at h
      rw [if_pos (hc s hs), h]
    · rw [if_neg hs] at h
      cases h
  · cases h
  · cases h

/-- Everything that is found in one set is found in the other. -/
structure Within (fs fs' : FileSet) : Prop where
  mem : ∀ e ∈ fs.files, e ∈ fs'.files
  get : ∀ p file, fs.get? p = some file → fs'.get? p = some file

theorem Within.contains (h : fs.Within fs') (p : String) (hc : fs.contains p = true) :
    fs'.contains p = true := by
  obtain ⟨file, hfile⟩ := contains_iff.mp hc
  exact contains_iff.mpr ⟨file, h.mem _ hfile⟩

/-! ### A further file -/

theorem files_insert {f : SourceFile} (h : fs.contains f.package = false) :
    (fs.insert f).files = fs.files ++ [(f.package, f)] := by
  unfold insert
  rw [if_neg (by simp [h])]

theorem within_insert {f : SourceFile} (h : fs.contains f.package = false) : fs.Within (fs.insert f) := by
  constructor
  · intro e he
    rw [files_insert h]
    exact List.mem_append_left _ he
  · intro p file hp
    unfold get? at hp ⊢
    rw [files_insert h, List.lookup_append, hp]
    rfl

/-! ### Other orders -/

theorem get?_eq_some (hnodup : (fs.files.map Prod.fst).Nodup) :
    fs.get? p = some file ↔ (p, file) ∈ fs.files := by
  refine ⟨mem_of_get?, fun h => ?_⟩
  unfold get?
  rw [List.lookup_eq_some_iff]
  obtain ⟨before, after, hfiles⟩ := List.append_of_mem h
  refine ⟨before, after, hfiles, fun e he => ?_⟩
  -- The package is not among those before, where it would stand for a second time.
  rw [hfiles, List.map_append, List.map_cons, List.nodup_middle, List.nodup_cons] at hnodup
  have hbefore : e.1 ∈ before.map Prod.fst ++ after.map Prod.fst :=
    List.mem_append_left _ (List.mem_map_of_mem he)
  have hp : p ≠ e.1 := fun heq => hnodup.1 (heq ▸ hbefore)
  simpa using hp

section Perm

variable (h : fs.files.Perm fs'.files) (hnodup : (fs.files.map Prod.fst).Nodup)

include h

theorem contains_of_perm : fs.contains = fs'.contains := funext fun _ => h.any_eq

include hnodup

theorem get?_of_perm : fs.get? = fs'.get? := by
  have hnodup' : (fs'.files.map Prod.fst).Nodup := (h.map Prod.fst).nodup_iff.mp hnodup
  funext p
  ext file
  rw [get?_eq_some hnodup, get?_eq_some hnodup', h.mem_iff]

theorem within_of_perm : fs.Within fs' :=
  ⟨fun _ he => h.mem_iff.mp he, fun _ _ hp => get?_of_perm h hnodup ▸ hp⟩

theorem sorted_of_perm : fs.sorted = fs'.sorted := by
  have hsorted (fs : FileSet) : fs.sorted.Pairwise fun a b => a.1 ≤ b.1 := by
    have htrans (a b c : String × SourceFile) (hab : decide (a.1 ≤ b.1) = true)
        (hbc : decide (b.1 ≤ c.1) = true) : decide (a.1 ≤ c.1) = true :=
      decide_eq_true (String.le_trans (of_decide_eq_true hab) (of_decide_eq_true hbc))
    have htotal (a b : String × SourceFile) : (decide (a.1 ≤ b.1) || decide (b.1 ≤ a.1)) = true := by
      simpa using String.le_total a.1 b.1
    exact (List.pairwise_mergeSort htrans htotal fs.files).imp of_decide_eq_true
  have hperm : fs.sorted.Perm fs'.sorted :=
    (List.mergeSort_perm _ _).trans (h.trans (List.mergeSort_perm _ _).symm)
  -- Two files of the same package are the same.
  refine hperm.eq_of_pairwise (fun a b ha hb hab hba => ?_) (hsorted fs) (hsorted fs')
  exact List.inj_on_of_nodup_map hnodup (List.mem_mergeSort.mp ha)
    (h.mem_iff.mpr (List.mem_mergeSort.mp hb)) (String.le_antisymm hab hba)

end Perm

end ScopeLint.FileSet
