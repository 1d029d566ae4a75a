import Mathlib.Data.List.Forall2
import ScopeLint.Fault

/-! Computations that can fail, taken apart: when one part after the other succeeds, each of them did.
This is said for plain results, and for those that keep a state also when they fail. -/

namespace ScopeLint

variable {S α β : Type}

theorem except_bind_ok {c : Except Fault α} {g : α → Except Fault β} {b : β}
    (h : c >>= g = .ok b) : ∃ a, c = .ok a ∧ g a = .ok b := by
  cases c with
  | error e => cases h
  | ok a => exact ⟨a, rfl, h⟩

theorem except_bind_eq_ok {c : Except Fault α} {g : α → Except Fault β} {b : β} :
    c >>= g = .ok b ↔ ∃ a, c = .ok a ∧ g a = .ok b := by
  refine ⟨except_bind_ok, ?_⟩
  rintro ⟨a, rfl, hb⟩
  exact hb

theorem except_any_ok {c : Except Fault α} {p : α → Bool} (h : c.toOption.any p = true) :
    ∃ a, c = .ok a ∧ p a = true := by
  cases c with
  | error e => cases h
  | ok a => exact ⟨a, rfl, h⟩

theorem except_mapM_ok {g : α → Except Fault β} {l : List α} {out : List β} (h : l.mapM g = .ok out) :
    List.Forall₂ (fun a b => g a = .ok b) l out := by
  induction l generalizing out with
  | nil =>
    cases h
    exact .nil
  | cons a l ih =>
    rw [List.mapM_cons] at h
    obtain ⟨b, hb, h⟩ := except_bind_ok h
    obtain ⟨rest, hrest, h⟩ := except_bind_ok h
    cases h
    exact .cons hb (ih hrest)

theorem except_mapM_of_ok {g : α → Except Fault β} {l : List α} (h : ∀ a ∈ l, ∃ b, g a = .ok b) :
    ∃ out, l.mapM g = .ok out := by
  induction l with
  | nil => exact ⟨[], rfl⟩
  | cons a l ih =>
    obtain ⟨b, hb⟩ := h a List.mem_cons_self
    obtain ⟨out, hout⟩ := ih fun c hc => h c (List.mem_cons_of_mem _ hc)
    refine ⟨b :: out, ?_⟩
    rw [List.mapM_cons, hb, hout]
    rfl

theorem except_mapM_eq_ok {g : α → Except Fault β} {l : List α} {out : List β} :
    l.mapM g = .ok out ↔ List.Forall₂ (fun a b => g a = .ok b) l out := by
  refine ⟨except_mapM_ok, fun h => ?_⟩
  induction h with
  | nil => rfl
  | cons hb _ ih =>
    rw [List.mapM_cons, hb, ih]
    rfl

/-- The fault is that of the first one that fails. -/
theorem except_mapM_error {g : α → Except Fault β} {l : List α} {e : Fault} (h : l.mapM g = .error e) :
    ∃ (i : Nat) (a : α), l[i]? = some a ∧ g a = .error e ∧
      ∀ j < i, ∀ b, l[j]? = some b → ∃ c, g b = .ok c := by
  induction l with
  | nil => cases h
  | cons a l ih =>
    rw [List.mapM_cons] at h
    cases ha : g a with
    | error e' =>
      rw [ha] at h
      cases h
      exact ⟨0, a, rfl, ha, fun j hj => absurd hj (Nat.not_lt_zero j)⟩
    | ok b =>
      have hrest : l.mapM g = .error e := by
        rw [ha] at h
        cases hl : l.mapM g with
        | error e' =>
          rw [hl] at h
          cases h
          rfl
        | ok out =>
          rw [hl] at h
          cases h
      obtain ⟨i, a', hi, he, hbefore⟩ := ih hrest
      refine ⟨i + 1, a', hi, he, fun j hj c hc => ?_⟩
      cases j with
      | zero =>
        cases hc
        exact ⟨b, ha⟩
      | succ j => exact hbefore j (Nat.lt_of_succ_lt_succ hj) c hc

theorem mem_of_mapM {g : α → Except Fault β} {l : List α} {out : List β} (h : l.mapM g = .ok out) {b : β} :
    b ∈ out ↔ ∃ a ∈ l, g a = .ok b := by
  have hall := except_mapM_ok h
  clear h
  induction hall with
  | nil => simp
  | cons hg _ ih => simp [ih, hg, eq_comm]

theorem exists_of_mapM {g : α → Except Fault β} {l : List α} {out : List β} (h : l.mapM g = .ok out)
    {a : α} (ha : a ∈ l) : ∃ b ∈ out, g a = .ok b := by
  have hall := except_mapM_ok h
  clear h
  induction hall with
  | nil => cases ha
  | cons hg _ ih =>
    rcases List.mem_cons.mp ha with rfl | ha
    · exact ⟨_, List.mem_cons_self, hg⟩
    · obtain ⟨b, hb, hab⟩ := ih ha
      exact ⟨b, List.mem_cons_of_mem _ hb, hab⟩

/-- One part after the other: either the first fails, or the second goes on from where it ended. -/
theorem run_bind_cases {c : ExceptT Fault (StateM S) α} {g : α → ExceptT Fault (StateM S) β}
    {s s' : S} {r : Except Fault β} (h : (c >>= g).run s = (r, s')) :
    (∃ a mid, c.run s = (.ok a, mid) ∧ (g a).run mid = (r, s')) ∨
      ∃ e, c.run s = (.error e, s') ∧ r = .error e := by
  simp only [bind, ExceptT.bind, ExceptT.mk, ExceptT.run, StateT.bind] at h
  rcases hc : c s with ⟨r', mid⟩
  rw [hc] at h
  cases r' with
  | ok a => exact .inl ⟨a, mid, hc, h⟩
  | error e =>
    cases h
    exact .inr ⟨e, hc, rfl⟩

theorem run_bind_of_ok {c : ExceptT Fault (StateM S) α} {g : α → ExceptT Fault (StateM S) β}
    {s mid : S} {a : α} (h : c.run s = (.ok a, mid)) : (c >>= g).run s = (g a).run mid := by
  simp only [bind, ExceptT.bind, ExceptT.mk, ExceptT.run, StateT.bind] at h ⊢
  rw [h]
  rfl

theorem run_bind_ok {c : ExceptT Fault (StateM S) α} {g : α → ExceptT Fault (StateM S) β}
    {s s' : S} {b : β} (h : (c >>= g).run s = (.ok b, s')) :
    ∃ a mid, c.run s = (.ok a, mid) ∧ (g a).run mid = (.ok b, s') := by
  rcases run_bind_cases h with h | ⟨e, -, he⟩
  · exact h
  · cases he

end ScopeLint
