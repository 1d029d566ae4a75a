import Mathlib.Data.List.Nodup
import ScopeLint.Scope.Table

/-! Tables seen in two ways. What a name has in a table is a look-up, and each change of a table
is an equation on look-ups. What a table holds altogether is the list of its pairs, up to order,
and there a change adds or takes away what it says. -/

namespace ScopeLint

theorem lookup_of_mem {α : Type} {l : List (String × α)} (hn : (l.map Prod.fst).Nodup)
    {key : String} {value : α} (h : (key, value) ∈ l) : l.lookup key = some value := by
  induction l with
  | nil => cases h
  | cons e l ih =>
    rw [List.map_cons, List.nodup_cons] at hn
    rcases List.mem_cons.mp h with rfl | h
    · exact List.lookup_cons_self
    · have hne : (key == e.1) = false :=
        beq_false_of_ne fun heq => hn.1 (heq ▸ List.mem_map_of_mem h)
      rw [List.lookup_cons, hne]
      exact ih hn.2 h

theorem mem_of_lookup {α : Type} {l : List (String × α)} {key : String} {value : α}
    (h : l.lookup key = some value) : (key, value) ∈ l := by
  obtain ⟨front, rest, rfl, _⟩ := List.lookup_eq_some_iff.mp h
  exact List.mem_append_right _ List.mem_cons_self

/-- Entries of other keys do not matter. -/
theorem lookup_filter_ne {κ α : Type} [BEq κ] [LawfulBEq κ] {key other : κ} (h : key ≠ other)
    (l : List (κ × α)) : (l.filter fun e => e.1 != other).lookup key = l.lookup key := by
  induction l with
  | nil => rfl
  | cons e l ih =>
    by_cases he : e.1 = other
    · rw [List.filter_cons_of_neg (by simp [he]), ih, List.lookup_cons, he, beq_false_of_ne h]
    · rw [List.filter_cons_of_pos (by simp [he]), List.lookup_cons, List.lookup_cons, ih]

theorem lookup_map {β : Type} {g : String × β → String × β} (hg : ∀ e, (g e).1 = e.1)
    (l : List (String × β)) (m : String) :
    (l.map g).lookup m = (l.lookup m).map fun b => (g (m, b)).2 := by
  induction l with
  | nil => rfl
  | cons e l ih =>
    rw [List.map_cons, List.lookup_cons, List.lookup_cons, hg]
    by_cases hm : m = e.1
    · subst hm
      simp
    · simp [beq_false_of_ne hm, ih]

/-- A value takes the place of the old one of its key, and the key is added if there is none. -/
theorem lookup_put {β : Type} (l : List (String × β)) (key : String) (value : β) (m : String) :
    (if l.any fun e => e.1 == key then l.map fun e => if e.1 = key then (e.1, value) else e
      else l ++ [(key, value)]).lookup m = if m = key then some value else l.lookup m := by
  by_cases hany : (l.any fun e => e.1 == key) = true
  · have hkeys : ∀ e : String × β, (if e.1 = key then (e.1, value) else e).1 = e.1 := by
      intro e
      split_ifs <;> rfl
    rw [if_pos hany, lookup_map hkeys]
    by_cases hm : m = key
    · subst hm
      obtain ⟨e, he, hem⟩ := List.any_eq_true.mp hany
      have hfound : (l.lookup m).isSome = true :=
        List.lookup_isSome_iff.mpr ⟨e, he, beq_iff_eq.mpr (beq_iff_eq.mp hem).symm⟩
      obtain ⟨q, hq⟩ := Option.isSome_iff_exists.mp hfound
      simp [hq]
    · simp [hm]
  · rw [if_neg hany, List.lookup_append]
    by_cases hm : m = key
    · subst hm
      have hnone : l.lookup m = none := by
        rw [List.lookup_eq_none_iff]
        intro e he
        rw [bne_iff_ne]
        rintro rfl
        exact hany (List.any_eq_true.mpr ⟨e, he, beq_self_eq_true _⟩)
      simp [hnone]
    · simp [List.lookup_cons, hm, beq_false_of_ne hm]

namespace Table

variable {α : Type}

/-- The items of a name; a name without an entry has none. -/
def itemsOf (t : Table α) (name : String) : List α := (t.get? name).getD []

@[simp] theorem get?_nil (m : String) : Table.get? ([] : Table α) m = none := rfl

theorem get?_cons (key : String) (old : List α) (rest : Table α) (m : String) :
    Table.get? ((key, old) :: rest) m = if m = key then some old else rest.get? m := by
  rw [get?, List.lookup_cons]
  by_cases h : m = key
  · rw [if_pos h, beq_iff_eq.mpr h]
  · rw [if_neg h, beq_false_of_ne h]
    rfl

theorem extend_cons (key : String) (old : List α) (rest : Table α) (n : String) (l : List α) :
    Table.extend ((key, old) :: rest) n l =
      if key = n then (key, old ++ l) :: rest else (key, old) :: rest.extend n l := rfl

theorem erase_cons (key : String) (old : List α) (rest : Table α) (n : String) :
    Table.erase ((key, old) :: rest) n =
      if key = n then rest.erase n else (key, old) :: rest.erase n := by
  by_cases hk : key = n <;> simp [erase, hk]

theorem replace_cons (key : String) (old : List α) (rest : Table α) (n : String) (l : List α) :
    Table.replace ((key, old) :: rest) n l =
      (key, if key = n then l else old) :: rest.replace n l := by
  by_cases hk : key = n <;> simp [replace, hk]

theorem contains_cons (key : String) (old : List α) (rest : Table α) (n : String) :
    Table.contains ((key, old) :: rest) n = (key == n || rest.contains n) := rfl

theorem keys_cons (key : String) (old : List α) (rest : Table α) :
    Table.keys ((key, old) :: rest) = key :: rest.keys := rfl

theorem contains_eq_isSome (t : Table α) (m : String) : t.contains m = (t.get? m).isSome := by
  induction t with
  | nil => rfl
  | cons e rest ih =>
    obtain ⟨key, old⟩ := e
    rw [get?_cons, contains_cons, ih]
    by_cases h : m = key
    · simp [h]
    · simp [h, Ne.symm h]

theorem mem_keys_iff (t : Table α) (m : String) : m ∈ t.keys ↔ (t.get? m).isSome := by
  rw [← contains_eq_isSome]
  simp [keys, contains]

theorem get?_eq_some_of_mem {t : Table α} (hn : t.keys.Nodup) {e : String × List α} (he : e ∈ t) :
    t.get? e.1 = some e.2 :=
  lookup_of_mem hn he

theorem mem_of_get? {t : Table α} {m : String} {l : List α} (h : t.get? m = some l) : (m, l) ∈ t :=
  mem_of_lookup h

/-! ### Look-ups after a change -/

theorem get?_extend (t : Table α) (n m : String) (l : List α) :
    (t.extend n l).get? m = if m = n then some (t.itemsOf n ++ l) else t.get? m := by
  induction t with
  | nil => simp [extend, get?_cons, itemsOf]
  | cons d rest ih =>
    obtain ⟨key, old⟩ := d
    by_cases hk : key = n
    · subst hk
      simp only [extend_cons, ↓reduceIte, get?_cons, itemsOf]
      split_ifs <;> simp
    · have hn : n ≠ key := Ne.symm hk
      simp only [extend_cons, hk, ↓reduceIte, get?_cons, ih, itemsOf, hn]
      split_ifs with h1 h2 <;> simp_all

theorem get?_erase (t : Table α) (n m : String) :
    (t.erase n).get? m = if m = n then none else t.get? m := by
  induction t with
  | nil => simp [erase]
  | cons d rest ih =>
    obtain ⟨key, old⟩ := d
    rw [erase_cons]
    by_cases hk : key = n
    · subst hk
      rw [if_pos rfl, ih, get?_cons]
      split_ifs <;> rfl
    · rw [if_neg hk, get?_cons, get?_cons, ih]
      split_ifs with h1 h2 <;> simp_all

theorem get?_replace (t : Table α) (n m : String) (l : List α) :
    (t.replace n l).get? m = if m = n then (t.get? n).map fun _ => l else t.get? m := by
  induction t with
  | nil => simp [replace]
  | cons d rest ih =>
    obtain ⟨key, old⟩ := d
    rw [replace_cons, get?_cons, get?_cons, get?_cons, ih]
    by_cases hm : m = n
    · subst hm
      by_cases hk : m = key
      · simp [hk]
      · simp [hk]
    · by_cases hk : m = key
      · subst hk
        simp [hm]
      · simp [hm, hk]

theorem itemsOf_erase (t : Table α) (n m : String) :
    (t.erase n).itemsOf m = if m = n then [] else t.itemsOf m := by
  unfold itemsOf
  rw [get?_erase]
  split_ifs <;> rfl

/-! ### Keys after a change -/

theorem keys_extend (t : Table α) (n : String) (l : List α) :
    (t.extend n l).keys = if t.contains n then t.keys else t.keys ++ [n] := by
  induction t with
  | nil => rfl
  | cons d rest ih =>
    obtain ⟨key, old⟩ := d
    rw [extend_cons, contains_cons]
    by_cases hk : key = n
    · simp [hk, keys_cons]
    · simp only [hk, ↓reduceIte, keys_cons, ih, beq_iff_eq, Bool.or_eq_true, false_or]
      split_ifs <;> simp

theorem nodup_extend {t : Table α} (hn : t.keys.Nodup) (n : String) (l : List α) :
    (t.extend n l).keys.Nodup := by
  rw [keys_extend]
  split_ifs with hc
  · exact hn
  · refine List.nodup_append.mpr ⟨hn, by simp, ?_⟩
    intro a ha b hb hab
    rw [List.mem_singleton] at hb
    subst hab hb
    exact hc (by rw [contains_eq_isSome]; exact (mem_keys_iff _ _).mp ha)

theorem nodup_erase {t : Table α} (hn : t.keys.Nodup) (n : String) : (t.erase n).keys.Nodup :=
  hn.sublist (List.Sublist.map Prod.fst List.filter_sublist)

@[simp] theorem keys_replace (t : Table α) (n : String) (l : List α) :
    (t.replace n l).keys = t.keys := by
  simp only [keys, replace, List.map_map]
  apply List.map_congr_left
  rintro ⟨key, old⟩ -
  by_cases h : key = n <;> simp [h]

/-! ### The pairs of a table -/

/-- Every item with its name. -/
def pairs (t : Table α) : List (String × α) := t.flatMap fun e => e.2.map fun a => (e.1, a)

theorem pairs_cons (key : String) (old : List α) (rest : Table α) :
    pairs ((key, old) :: rest) = old.map (fun a => (key, a)) ++ pairs rest := rfl

theorem pairs_extend_perm (t : Table α) (n : String) (l : List α) :
    (t.extend n l).pairs.Perm (t.pairs ++ l.map fun a => (n, a)) := by
  induction t with
  | nil => simp [extend, pairs]
  | cons d rest ih =>
    obtain ⟨key, old⟩ := d
    by_cases hk : key = n
    · subst hk
      simp only [extend_cons, ↓reduceIte, pairs_cons, List.map_append, List.append_assoc]
      exact (List.perm_append_comm).append_left _
    · simp only [extend_cons, hk, ↓reduceIte, pairs_cons, List.append_assoc]
      exact ih.append_left _

theorem erase_of_not_mem {t : Table α} {n : String} (h : n ∉ t.keys) : t.erase n = t := by
  refine List.filter_eq_self.mpr ?_
  intro e he
  have : e.1 ≠ n := by
    rintro rfl
    exact h (List.mem_map_of_mem he)
  simpa using this

theorem pairs_erase_perm {t : Table α} (hn : t.keys.Nodup) (n : String) :
    t.pairs.Perm ((t.erase n).pairs ++ (t.itemsOf n).map fun a => (n, a)) := by
  induction t with
  | nil => simp [pairs, erase, itemsOf]
  | cons d rest ih =>
    obtain ⟨key, old⟩ := d
    rw [keys_cons, List.nodup_cons] at hn
    rw [erase_cons, pairs_cons]
    by_cases hk : key = n
    · subst hk
      rw [if_pos rfl, erase_of_not_mem hn.1]
      simpa [itemsOf, get?_cons] using List.perm_append_comm
    · have hitems : Table.itemsOf ((key, old) :: rest) n = Table.itemsOf rest n := by
        simp [itemsOf, get?_cons, Ne.symm hk]
      rw [if_neg hk, hitems, pairs_cons, List.append_assoc]
      exact (ih hn.2).append_left _

theorem pairs_replace_perm {t : Table α} (hn : t.keys.Nodup) {n : String} (hc : (t.get? n).isSome)
    (l : List α) : (t.replace n l).pairs.Perm ((t.erase n).pairs ++ l.map fun a => (n, a)) := by
  have herase : (t.replace n l).erase n = t.erase n := by
    simp only [erase, replace, List.filter_map]
    refine (List.map_congr_left ?_).trans (List.map_id _) |>.trans ?_
    · rintro ⟨key, old⟩ hmem
      have hk : key ≠ n := by
        by_cases h : key = n
        · simp [h] at hmem
        · exact h
      simp [hk]
    · apply List.filter_congr
      rintro ⟨key, old⟩ -
      by_cases h : key = n <;> simp [h]
  have hitems : (t.replace n l).itemsOf n = l := by
    obtain ⟨old, hold⟩ := Option.isSome_iff_exists.mp hc
    simp [itemsOf, get?_replace, hold]
  have := pairs_erase_perm (t := t.replace n l) (by rwa [keys_replace]) n
  rwa [herase, hitems] at this

end Table

end ScopeLint
