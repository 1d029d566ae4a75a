import Mathlib.Data.List.Chain
import ScopeLint.Proofs.Fault

/-! Searches that go down step by step and may never end. Where only finitely many things can be reached,
a chain of as many steps as there are things leads to a cycle, and a cycle gives chains of any length. So a
search that is endless just where there is a chain down to its depth ends for all depths from the number
of things on, or for none. -/

namespace ScopeLint

open Relation

/-! ### Chains of steps -/

section Chains

variable {α : Type} {r : α → α → Prop} {a : α} {n m : Nat}

/-- There is a chain of so many steps from a thing. -/
def Deep (r : α → α → Prop) : Nat → α → Prop
  | 0, _ => True
  | n + 1, a => ∃ b, r a b ∧ Deep r n b

/-- The steps from a thing can lead to another one to which they lead back. -/
def ToCycle (r : α → α → Prop) (a : α) : Prop := ∃ b, ReflTransGen r a b ∧ TransGen r b b

theorem ToCycle.exists_step (h : ToCycle r a) : ∃ b, r a b ∧ ToCycle r b := by
  obtain ⟨c, hac, hcycle⟩ := h
  obtain rfl | ⟨b, hab, hbc⟩ := hac.cases_head
  · obtain ⟨b, hab, hba⟩ := TransGen.head'_iff.mp hcycle
    exact ⟨b, hab, a, hba, hcycle⟩
  · exact ⟨b, hab, c, hbc, hcycle⟩

theorem ToCycle.deep (h : ToCycle r a) : Deep r n a := by
  induction n generalizing a with
  | zero => trivial
  | succ n ih =>
    obtain ⟨b, hab, hb⟩ := h.exists_step
    exact ⟨b, hab, ih hb⟩

theorem Deep.of_le (hle : n ≤ m) (h : Deep r m a) : Deep r n a := by
  induction n generalizing m a with
  | zero => trivial
  | succ n ih =>
    obtain ⟨m, rfl⟩ := Nat.exists_eq_add_of_le' hle
    obtain ⟨b, hab, hb⟩ := h
    exact ⟨b, hab, ih (Nat.le_add_left n m) hb⟩

theorem Deep.exists_chain (h : Deep r n a) : ∃ l : List α, l.length = n ∧ (a :: l).IsChain r := by
  induction n generalizing a with
  | zero => exact ⟨[], rfl, List.isChain_singleton a⟩
  | succ n ih =>
    obtain ⟨b, hab, hb⟩ := h
    obtain ⟨l, hlen, hl⟩ := ih hb
    exact ⟨b :: l, by simp [hlen], List.isChain_cons_cons.mpr ⟨hab, hl⟩⟩

/-- A chain that has more things than can be reached has one of them twice. -/
theorem Deep.toCycle {things : List α} (hthings : ∀ b, ReflTransGen r a b → b ∈ things)
    (h : Deep r things.length a) : ToCycle r a := by
  obtain ⟨l, hlen, hl⟩ := h.exists_chain
  have hpair : (a :: l).Pairwise (TransGen r) :=
    List.isChain_iff_pairwise.mp (hl.imp fun _ _ => TransGen.single)
  have hreach : ∀ b ∈ a :: l, ReflTransGen r a b := by
    intro b hb
    rcases List.mem_cons.mp hb with rfl | hb
    · exact .refl
    · exact ((List.pairwise_cons.mp hpair).1 b hb).to_reflTransGen
  by_contra hno
  have hnodup : (a :: l).Nodup := by
    refine hpair.imp_of_mem fun {b c} hb _ hbc => ?_
    rintro rfl
    exact hno ⟨b, hreach b hb, hbc⟩
  have hle := hnodup.length_le_of_subset fun b hb => hthings b (hreach b hb)
  rw [List.length_cons, hlen] at hle
  omega

theorem deep_iff_toCycle {things : List α} (hthings : ∀ b, ReflTransGen r a b → b ∈ things)
    (hle : things.length ≤ n) : Deep r n a ↔ ToCycle r a :=
  ⟨fun h => (h.of_le hle).toCycle hthings, ToCycle.deep⟩

end Chains

/-! ### Computations that end or are endless -/

section Endless

variable {α β : Type} {c c' : Except Fault α} {g g' : α → Except Fault β} {l : List α} {P Q : Prop}

/-- A computation comes to its end, unless something holds for which it is endless. -/
structure EndsUnless (c : Except Fault α) (P : Prop) : Prop where
  ends : ¬ P → ∃ a, c = .ok a
  endless : P → c = .error .endless

namespace EndsUnless

theorem ok (a : α) : EndsUnless (.ok a) False := ⟨fun _ => ⟨a, rfl⟩, False.elim⟩

theorem congr (h : EndsUnless c P) (hPQ : P ↔ Q) : EndsUnless c Q :=
  ⟨fun hQ => h.ends (mt hPQ.mp hQ), fun hQ => h.endless (hPQ.mpr hQ)⟩

theorem ends_iff (h : EndsUnless c P) : (∃ a, c = .ok a) ↔ ¬ P := by
  refine ⟨?_, h.ends⟩
  rintro ⟨a, ha⟩ hP
  rw [h.endless hP] at ha
  cases ha

theorem bind (h : EndsUnless c P) (hg : ∀ a, c = .ok a → EndsUnless (g a) Q) :
    EndsUnless (c >>= g) (P ∨ Q) := by
  by_cases hP : P
  · rw [h.endless hP]
    exact ⟨fun hno => absurd (Or.inl hP) hno, fun _ => rfl⟩
  · obtain ⟨a, ha⟩ := h.ends hP
    rw [ha]
    exact (hg a ha).congr (by simp [hP])

theorem map {f : α → β} (h : EndsUnless c P) : EndsUnless (c >>= fun a => .ok (f a)) P :=
  (h.bind fun a _ => ok (f a)).congr (by simp)

theorem mapM {P : α → Prop} (h : ∀ a ∈ l, EndsUnless (g a) (P a)) :
    EndsUnless (l.mapM g) (∃ a ∈ l, P a) := by
  induction l with
  | nil => exact (ok []).congr (by simp)
  | cons a l ih =>
    rw [List.mapM_cons]
    have hrest := ih fun b hb => h b (List.mem_cons_of_mem _ hb)
    exact ((h a List.mem_cons_self).bind fun b _ => hrest.map).congr (by simp)

end EndsUnless

/-- Where one computation comes to its end, the other one does so with the same result. -/
def Keeps (c c' : Except Fault α) : Prop := ∀ a, c = .ok a → c' = .ok a

theorem Keeps.refl (c : Except Fault α) : Keeps c c := fun _ hc => hc

theorem Keeps.bind (h : Keeps c c') (hg : ∀ a, Keeps (g a) (g' a)) : Keeps (c >>= g) (c' >>= g') := by
  intro b hb
  obtain ⟨a, ha, hb⟩ := except_bind_ok hb
  rw [h a ha]
  exact hg a b hb

theorem Keeps.mapM (h : ∀ a ∈ l, Keeps (g a) (g' a)) : Keeps (l.mapM g) (l.mapM g') := by
  induction l with
  | nil => exact fun _ hb => hb
  | cons a l ih =>
    rw [List.mapM_cons, List.mapM_cons]
    refine (h a List.mem_cons_self).bind fun b => ?_
    exact (ih fun c hc => h c (List.mem_cons_of_mem _ hc)).bind fun _ => .refl _

end Endless

end ScopeLint
