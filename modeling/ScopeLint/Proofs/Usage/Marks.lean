import ScopeLint.Proofs.Scope.Table
import ScopeLint.Proofs.Usage.Remarks

/-! What a search through a project marks as used. A run that completes marks the same names whatever was
marked before. So the marks of a run are a set of names, and those of a longer run are put together from
the sets of its parts. -/

namespace ScopeLint

/-! ### The names that are used -/

theorem Atom.valueEq_str {n : String} {a : Atom} : (Atom.str n).valueEq a = true ↔ a = .str n := by
  rw [eq_comm (a := a)]
  cases a <;> simp [valueEq, parts?]

/-- A name without an origin is the same as every mark of it. -/
theorem Mark.same_str {n : String} {m : Mark} :
    (⟨.str n, none⟩ : Mark).same m = true ↔ m.name = .str n := by
  simp [same, Atom.valueEq_str]

theorem Mark.name_of_same {n : String} {m k : Mark} (hm : m.name = .str n) (h : m.same k = true) :
    k.name = .str n := by
  rw [same, hm, Bool.or_eq_true, Atom.valueEq_str, Bool.and_eq_true] at h
  rcases h with h | ⟨-, h⟩
  · exact h
  · rw [← beq_iff_eq.mp h]
    exact hm

namespace Used

variable {u : Used} {p q n : String} {m : Mark}

/-- Whether a name of a package is used. -/
def has (u : Used) (p n : String) : Bool := u.contains p ⟨.str n, .none⟩

theorem has_iff : u.has p n = true ↔ ∃ m ∈ u.of p, m.name = .str n := by
  simp [has, contains, Mark.same_str]

theorem has_none : Used.none.has p n = false := rfl

theorem get?_marked (t : Table Mark) :
    Table.get? (t.map fun e => if e.1 = p then (e.1, e.2 ++ [m]) else e) q =
      (t.get? q).map fun marks => if q = p then marks ++ [m] else marks := by
  induction t with
  | nil => rfl
  | cons e t ih =>
    obtain ⟨key, marks⟩ := e
    by_cases hk : key = p
    · simp only [List.map_cons, hk, if_true, Table.get?_cons, ih]
      by_cases hq : q = p <;> simp [hq]
    · simp only [List.map_cons, hk, if_false, Table.get?_cons, ih]
      by_cases hq : q = key <;> simp [hq, hk]

theorem get?_append_new (t : Table Mark) (ht : t.contains p = false) :
    Table.get? (t ++ [(p, [m])]) q = if q = p then some [m] else t.get? q := by
  induction t with
  | nil => simp [Table.get?_cons]
  | cons e t ih =>
    obtain ⟨key, marks⟩ := e
    rw [Table.contains_cons, Bool.or_eq_false_iff] at ht
    have hk : key ≠ p := by simpa using ht.1
    rw [List.cons_append, Table.get?_cons, Table.get?_cons, ih ht.2]
    by_cases hq : q = key
    · simp [hq, hk]
    · simp [hq]

/-- A mark goes to the end of the marks of its package, unless the same is among them. -/
theorem of_add (hc : u.contains p m = false) :
    (u.add p m).of q = if q = p then u.of p ++ [m] else u.of q := by
  show Option.getD (Table.get? (u.add p m).entries q) [] =
    if q = p then Option.getD (Table.get? u.entries p) [] ++ [m] else Option.getD (Table.get? u.entries q) []
  have hany : (u.entries.any fun e => e.1 == p) = Table.contains u.entries p := rfl
  unfold add
  rw [if_neg (by simp [hc]), hany]
  by_cases ha : Table.contains u.entries p = true
  · rw [if_pos ha, get?_marked]
    rw [Table.contains_eq_isSome, Option.isSome_iff_exists] at ha
    obtain ⟨marks, hmarks⟩ := ha
    by_cases hq : q = p
    · simp [hq, hmarks]
    · simp [hq]
  · rw [if_neg ha, get?_append_new _ (Bool.not_eq_true _ ▸ ha)]
    rw [Table.contains_eq_isSome, Option.not_isSome_iff_eq_none] at ha
    by_cases hq : q = p
    · simp [hq, ha]
    · simp [hq]

/-- Marking adds a name and takes none away. -/
theorem has_add : (u.add p m).has q n = true ↔ u.has q n = true ∨ q = p ∧ m.name = .str n := by
  by_cases hc : u.contains p m = true
  · -- Nothing is added, because the same mark is there.
    have hsame : u.add p m = u := if_pos hc
    rw [hsame]
    refine ⟨Or.inl, ?_⟩
    rintro (h | ⟨rfl, hm⟩)
    · exact h
    · obtain ⟨k, hk, hs⟩ := List.any_eq_true.mp hc
      exact has_iff.mpr ⟨k, hk, Mark.name_of_same hm hs⟩
  · rw [has_iff, has_iff, of_add (Bool.not_eq_true _ ▸ hc)]
    by_cases hq : q = p
    · subst hq
      simp [or_and_right, exists_or]
    · simp [hq]

end Used

/-! ### What a run marks -/

namespace Run

variable {α β : Type}

/-- When the run completes, it has marked these names. -/
def Marks (r : Run α) (M : String → String → Prop) : Prop :=
  ∀ σ a σ', r.run σ = (.ok a, σ') → ∀ p n, σ'.used.has p n = true ↔ σ.used.has p n = true ∨ M p n

theorem Marks.congr {r : Run α} {M N : String → String → Prop} (h : r.Marks M)
    (hMN : ∀ p n, M p n ↔ N p n) : r.Marks N := by
  intro σ a σ' hr p n
  rw [h σ a σ' hr, hMN]

theorem Marks.nothing {r : Run α} (h : ∀ σ a σ', r.run σ = (.ok a, σ') → σ'.used = σ.used) :
    r.Marks fun _ _ => False := by
  intro σ a σ' hr p n
  rw [h σ a σ' hr, or_false]

theorem Marks.pure (a : α) : (Pure.pure a : Run α).Marks fun _ _ => False :=
  .nothing fun σ b σ' h => by cases h; rfl

theorem mark_marks (package : String) (m : Mark) :
    (mark package m).Marks fun p n => p = package ∧ m.name = .str n := by
  intro σ a σ' h p n
  cases h
  exact Used.has_add

theorem markText_marks (package name : String) :
    (markText package name).Marks fun p n => p = package ∧ n = name := by
  refine (mark_marks package (.ofText name)).congr fun p n => ?_
  simp [Mark.ofText, eq_comm]

theorem markTree_marks (package : String) (origin : Option Origin) (t : Tree) :
    (markTree package origin t).Marks fun p n => p = package ∧ t = .atom (.str n) := by
  cases t with
  | atom a =>
    refine (mark_marks package ⟨a, origin⟩).congr fun p n => ?_
    simp
  | list items =>
    intro σ a σ' h
    cases h
  | node k s fields => exact (Marks.pure ()).congr fun p n => by simp

theorem Marks.bind {r : Run α} {g : α → Run β} {M : String → String → Prop}
    {N : α → String → String → Prop} (hr : r.Marks M)
    (hg : ∀ σ a σ', r.run σ = (.ok a, σ') → (g a).Marks (N a)) {σ σ' : Session} {b : β}
    (h : (r >>= g).run σ = (.ok b, σ')) :
    ∃ a mid, r.run σ = (.ok a, mid) ∧ (g a).run mid = (.ok b, σ') ∧
      ∀ p n, σ'.used.has p n = true ↔ σ.used.has p n = true ∨ M p n ∨ N a p n := by
  obtain ⟨a, mid, ha, hb⟩ := run_bind_ok h
  refine ⟨a, mid, ha, hb, fun p n => ?_⟩
  rw [hg σ a mid ha mid b σ' hb, hr σ a mid ha, or_assoc]

/-- One run after another, where the second does the same whatever the first found. -/
theorem Marks.seq {r : Run α} {g : α → Run β} {M N : String → String → Prop} (hr : r.Marks M)
    (hg : ∀ a, (g a).Marks N) : (r >>= g).Marks fun p n => M p n ∨ N p n := by
  intro σ b σ' h p n
  obtain ⟨a, mid, -, -, hhas⟩ := Marks.bind hr (fun _ a _ _ => hg a) h
  exact hhas p n

/-- Something is found out first, and nothing is marked unless it is found. -/
theorem Marks.bind_lift {e : Except Fault α} {g : α → Run β} {M : α → String → String → Prop}
    (hg : ∀ a, e = .ok a → (g a).Marks (M a)) :
    (lift e >>= g).Marks fun p n => ∃ a, e = .ok a ∧ M a p n := by
  intro σ b σ' h p n
  obtain ⟨a, mid, ha, hb⟩ := run_bind_ok h
  obtain ⟨he, rfl⟩ := lift_ok ha
  rw [hg a he mid b σ' hb]
  simp [he]

theorem Marks.forM {l : List β} {g : β → Run PUnit} {M : β → String → String → Prop}
    (hg : ∀ b ∈ l, (g b).Marks (M b)) : (l.forM g).Marks fun p n => ∃ b ∈ l, M b p n := by
  induction l with
  | nil => exact (Marks.pure PUnit.unit).congr fun p n => by simp
  | cons b l ih =>
    have hl := ih fun c hc => hg c (List.mem_cons_of_mem _ hc)
    refine ((hg b List.mem_cons_self).seq fun _ => hl).congr fun p n => ?_
    simp

theorem Marks.ite {c : Prop} [Decidable c] {r s : Run α} {M N : String → String → Prop}
    (hr : c → r.Marks M) (hs : ¬c → s.Marks N) :
    (if c then r else s).Marks fun p n => if c then M p n else N p n := by
  split_ifs with hc
  · exact hr hc
  · exact hs hc

theorem mapM_lift_ok {γ : Type} {f : β → Except Fault γ} {l : List β} {out : List γ} {σ σ' : Session}
    (h : (l.mapM fun b => lift (f b)).run σ = (.ok out, σ')) :
    (∀ c, c ∈ out ↔ ∃ b ∈ l, f b = .ok c) ∧ σ' = σ := by
  induction l generalizing out σ σ' with
  | nil =>
    cases h
    simp
  | cons b l ih =>
    rw [List.mapM_cons] at h
    obtain ⟨c, σ₁, hlift, h₁⟩ := run_bind_ok h
    obtain ⟨hc, rfl⟩ := lift_ok hlift
    obtain ⟨rest, σ₂, hrest, h₂⟩ := run_bind_ok h₁
    obtain ⟨hmem, rfl⟩ := ih hrest
    cases h₂
    refine ⟨fun d => ?_, rfl⟩
    rw [List.mem_cons, hmem]
    simp [hc, eq_comm]

theorem markTexts_marks (package : String) (names : List String) :
    (markTexts package names).Marks fun p n => p = package ∧ n ∈ names := by
  refine (Marks.forM fun name _ => markText_marks package name).congr fun p n => ?_
  simp [and_comm]

theorem forM_mark_ok {package : String} {marks : List Mark} {u : PUnit} {σ σ' : Session}
    (h : (marks.forM (mark package)).run σ = (.ok u, σ')) (p n : String) :
    σ'.used.has p n = true ↔
      σ.used.has p n = true ∨ p = package ∧ ∃ m ∈ marks, m.name = .str n := by
  rw [Marks.forM (fun m _ => mark_marks package m) σ u σ' h]
  grind

end Run

end ScopeLint
