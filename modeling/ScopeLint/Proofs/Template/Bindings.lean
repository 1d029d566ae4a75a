import ScopeLint.Proofs.Template.Instance
import ScopeLint.Template.Match

/-! What the bindings of a candidate say. Bindings stand for the assignments of identifiers that agree
with them. To hold a candidate against something is to ask a question about the assignment: the answer
is either bindings for just those assignments that agreed before and satisfy the question, or that no
such assignment does. -/

namespace ScopeLint

namespace Bindings

variable {names : List String} {b b' : Bindings} {σ : String → String}

/-- The identifiers bound are texts, one for each name, and different for different names. -/
structure Proper (names : List String) (b : Bindings) : Prop where
  named : ∀ e ∈ b.identifiers, e.1 ∈ names
  text : ∀ e ∈ b.identifiers, ∃ i, e.2 = .value (.str i)
  functional : ∀ e ∈ b.identifiers, ∀ e' ∈ b.identifiers, e.1 = e'.1 → e = e'
  injective : ∀ e ∈ b.identifiers, ∀ e' ∈ b.identifiers, e.2 = e'.2 → e = e'

/-- The names bound have the identifiers of an assignment. -/
def Agrees (b : Bindings) (σ : String → String) : Prop :=
  ∀ e ∈ b.identifiers, e.2 = .value (.str (σ e.1))

theorem proper_empty : empty.Proper names where
  named _ h := nomatch h
  text _ h := nomatch h
  functional _ h := nomatch h
  injective _ h := nomatch h

theorem agrees_empty : empty.Agrees σ := fun _ h => nomatch h

/-! ### An assignment for all bindings -/

/-- An identifier for a name that is not bound: the name after some letters. -/
def pad (n : Nat) (a : String) : String := String.ofList (List.replicate n 'x') ++ a

theorem length_pad (n : Nat) (a : String) : (pad n a).length = n + a.length := by
  simp [pad]

theorem pad_injective (n : Nat) : Function.Injective (pad n) := by
  intro a a' h
  have := congrArg String.toList h
  simpa [pad, String.toList_inj] using this

/-- Names that are not bound have a padded identifier. -/
def assign (n : Nat) (b : Bindings) (a : String) : String :=
  match b.identifiers.lookup a with
  | some (.value (.str i)) => i
  | _ => pad n a

theorem assign_cases (b : Bindings) (n : Nat) (a : String) :
    (a, .value (.str (b.assign n a))) ∈ b.identifiers ∨ b.assign n a = pad n a := by
  unfold assign
  split
  next i h => exact Or.inl (mem_of_lookup h)
  next => exact Or.inr rfl

theorem agrees_assign (hb : b.Proper names) (n : Nat) : b.Agrees (b.assign n) := by
  intro e he
  obtain ⟨i, hi⟩ := hb.text e he
  rcases hl : b.identifiers.lookup e.1 with _ | id
  · have := List.lookup_eq_none_iff.mp hl e he
    simp at this
  · have hsame := hb.functional _ (mem_of_lookup hl) e he rfl
    have hid : id = .value (.str i) := by rw [← hi, ← hsame]
    rw [assign, hl, hid, hi]

theorem exists_longer (b : Bindings) :
    ∃ n, ∀ e ∈ b.identifiers, ∀ i, e.2 = .value (.str i) → i.length < n := by
  generalize b.identifiers = l
  induction l with
  | nil => exact ⟨0, fun _ h => nomatch h⟩
  | cons e l ih =>
    obtain ⟨n, hn⟩ := ih
    have hfirst : ∃ m, ∀ i, e.2 = .value (.str i) → i.length < m := by
      by_cases h : ∃ i, e.2 = .value (.str i)
      · obtain ⟨i, hi⟩ := h
        refine ⟨i.length + 1, fun j hj => ?_⟩
        rw [hi] at hj
        cases hj
        exact Nat.lt_succ_self _
      · exact ⟨0, fun i hi => absurd ⟨i, hi⟩ h⟩
    obtain ⟨m, hm⟩ := hfirst
    refine ⟨max m n, fun e' he' i hi => ?_⟩
    rcases List.mem_cons.mp he' with rfl | he'
    · exact Nat.lt_of_lt_of_le (hm i hi) (Nat.le_max_left _ _)
    · exact Nat.lt_of_lt_of_le (hn e' he' i hi) (Nat.le_max_right _ _)

/-- Proper bindings agree with an assignment that gives different identifiers to different names:
those that are not bound get identifiers that are too long to be bound. -/
theorem Proper.exists_agrees (hb : b.Proper names) :
    ∃ σ : String → String, Function.Injective σ ∧ b.Agrees σ := by
  obtain ⟨n, hn⟩ := b.exists_longer
  refine ⟨b.assign n, ?_, agrees_assign hb n⟩
  have hlong (a a' : String) (h : (a, .value (.str (b.assign n a))) ∈ b.identifiers)
      (h' : b.assign n a' = pad n a') : b.assign n a ≠ b.assign n a' := by
    intro heq
    have hlt := hn _ h _ rfl
    rw [heq, h', length_pad] at hlt
    omega
  intro a a' heq
  rcases assign_cases b n a with ha | ha <;> rcases assign_cases b n a' with ha' | ha'
  · have := hb.injective _ ha _ ha' (by rw [heq])
    exact congrArg Prod.fst this
  · exact absurd heq (hlong a a' ha ha')
  · exact absurd heq.symm (hlong a' a ha' ha)
  · rw [ha, ha'] at heq
    exact pad_injective n heq

/-! ### Questions and answers -/

/-- The bindings after a check, if it was passed. -/
def answer (r : Bool × Bindings) : Option Bindings := if r.1 then some r.2 else none

/-- Whether an outcome answers the question `P`, asked with bindings `b`. -/
def Answers (names : List String) (b : Bindings) (P : (String → String) → Prop) :
    Option Bindings → Prop
  | some b' => b'.Proper names ∧ ∀ σ, Set.InjOn σ {a | a ∈ names} → (b'.Agrees σ ↔ b.Agrees σ ∧ P σ)
  | none => ∀ σ, Set.InjOn σ {a | a ∈ names} → b.Agrees σ → ¬P σ

variable {P Q : (String → String) → Prop} {r : Option Bindings}

theorem Answers.congr (h : Answers names b P r) (hPQ : ∀ σ, P σ ↔ Q σ) : Answers names b Q r := by
  rwa [← funext fun σ => propext (hPQ σ)]

/-- One question after the other is both of them. -/
theorem Answers.and_then (h : Answers names b P (some b')) (h' : Answers names b' Q r) :
    Answers names b (fun σ => P σ ∧ Q σ) r := by
  cases r with
  | none =>
    rintro σ hσ hb ⟨hP, hQ⟩
    exact h' σ hσ ((h.2 σ hσ).mpr ⟨hb, hP⟩) hQ
  | some b'' =>
    refine ⟨h'.1, fun σ hσ => ?_⟩
    rw [h'.2 σ hσ, h.2 σ hσ, and_assoc]

theorem Answers.of_none (h : Answers names b P none) (hQP : ∀ σ, Q σ → P σ) :
    Answers names b Q none :=
  fun σ hσ hb hQ => h σ hσ hb (hQP σ hQ)

theorem answers_true (hb : b.Proper names) : Answers names b (fun _ => True) (some b) :=
  ⟨hb, fun _ _ => (and_iff_left trivial).symm⟩

/-- A question that does not depend on the assignment. -/
theorem answers_of_iff (hb : b.Proper names) {ok : Bool} (h : ∀ σ, P σ ↔ ok = true) :
    Answers names b P (answer (ok, b)) := by
  cases ok with
  | true => exact (answers_true hb).congr fun σ => (iff_of_true trivial ((h σ).mpr rfl))
  | false => exact fun σ _ _ hP => nomatch (h σ).mp hP

theorem same_text (i j : String) :
    Identifier.same (.value (.str i)) (.value (.str j)) = true ↔ i = j := by
  simp [Identifier.same, Atom.valueEq, Atom.parts?]

theorem Proper.taken_iff (hb : b.Proper names) (i : String) :
    (b.identifiers.any fun e => e.2.same (.value (.str i))) = true ↔
      ∃ e ∈ b.identifiers, e.2 = .value (.str i) := by
  rw [List.any_eq_true]
  refine exists_congr fun e => and_congr_right fun he => ?_
  obtain ⟨j, hj⟩ := hb.text e he
  rw [hj, same_text, Identifier.value.injEq, Atom.str.injEq]

/-- A name that is bound has the identifier that it is bound to. -/
theorem answers_known (hb : b.Proper names) {a i : String} {old : Identifier}
    (hold : b.identifiers.lookup a = some old) :
    Answers names b (fun σ => σ a = i) (answer (b.bind a (.value (.str i)))) := by
  have hmem := mem_of_lookup hold
  obtain ⟨j, rfl⟩ := hb.text _ hmem
  have hok : ((b.identifiers.any fun e => e.2.same (.value (.str i))) &&
      Identifier.same (.value (.str i)) (.value (.str j))) = true ↔ i = j := by
    rw [Bool.and_eq_true, same_text, hb.taken_iff]
    constructor
    · exact And.right
    · rintro rfl
      exact ⟨⟨_, hmem, rfl⟩, rfl⟩
  have hbound (σ : String → String) (hσ : b.Agrees σ) : σ a = j := by
    have := hσ _ hmem
    rw [Identifier.value.injEq, Atom.str.injEq] at this
    exact this.symm
  simp only [bind, hold, answer]
  split
  next h =>
    exact ⟨hb, fun σ _ => ⟨fun hσ => ⟨hσ, (hbound σ hσ).trans (hok.mp h).symm⟩, And.left⟩⟩
  next h =>
    intro σ _ hσ hi
    exact h (hok.mpr (hi.symm.trans (hbound σ hσ)))

theorem Proper.bind_new (hb : b.Proper names) {a i : String} (ha : a ∈ names)
    (hnew : ∀ e ∈ b.identifiers, e.1 ≠ a) (hfree : ∀ e ∈ b.identifiers, e.2 ≠ .value (.str i)) :
    Proper names { b with identifiers := b.identifiers ++ [(a, .value (.str i))] } := by
  constructor
  · intro e he
    rcases List.mem_append.mp he with he | he
    · exact hb.named e he
    · rw [List.mem_singleton.mp he]
      exact ha
  · intro e he
    rcases List.mem_append.mp he with he | he
    · exact hb.text e he
    · rw [List.mem_singleton.mp he]
      exact ⟨i, rfl⟩
  · intro e he e' he' h
    rcases List.mem_append.mp he with he | he <;> rcases List.mem_append.mp he' with he' | he'
    · exact hb.functional e he e' he' h
    · rw [List.mem_singleton.mp he'] at h
      exact absurd h (hnew e he)
    · rw [List.mem_singleton.mp he] at h
      exact absurd h.symm (hnew e' he')
    · rw [List.mem_singleton.mp he, List.mem_singleton.mp he']
  · intro e he e' he' h
    rcases List.mem_append.mp he with he | he <;> rcases List.mem_append.mp he' with he' | he'
    · exact hb.injective e he e' he' h
    · rw [List.mem_singleton.mp he'] at h
      exact absurd h (hfree e he)
    · rw [List.mem_singleton.mp he] at h
      exact absurd h.symm (hfree e' he')
    · rw [List.mem_singleton.mp he, List.mem_singleton.mp he']

/-- A name that is not bound cannot have the identifier of another name. -/
theorem answers_unknown (hb : b.Proper names) {a i : String} (ha : a ∈ names)
    (hnone : b.identifiers.lookup a = none) :
    Answers names b (fun σ => σ a = i) (answer (b.bind a (.value (.str i)))) := by
  have hnew (e : String × Identifier) (he : e ∈ b.identifiers) : e.1 ≠ a := by
    have := List.lookup_eq_none_iff.mp hnone e he
    exact (bne_iff_ne.mp this).symm
  simp only [bind, hnone]
  split
  next h =>
    obtain ⟨e, he, hi⟩ := (hb.taken_iff i).mp h
    intro σ hσ hb' ha'
    have hsame : σ e.1 = σ a := by
      have := hb' e he
      rw [hi, Identifier.value.injEq, Atom.str.injEq] at this
      rw [← this, ha']
    exact hnew e he (hσ (hb.named e he) ha hsame)
  next h =>
    have hfree (e : String × Identifier) (he : e ∈ b.identifiers) : e.2 ≠ .value (.str i) :=
      fun hi => h ((hb.taken_iff i).mpr ⟨e, he, hi⟩)
    refine ⟨hb.bind_new ha hnew hfree, fun σ _ => ?_⟩
    constructor
    · intro h'
      refine ⟨fun e he => h' e (List.mem_append_left _ he), ?_⟩
      have := h' _ (List.mem_append_right _ List.mem_cons_self)
      rw [Identifier.value.injEq, Atom.str.injEq] at this
      exact this.symm
    · rintro ⟨hσ, rfl⟩ e he
      rcases List.mem_append.mp he with he | he
      · exact hσ e he
      · rw [List.mem_singleton.mp he]

theorem answers_bind (hb : b.Proper names) {a : String} (ha : a ∈ names) (i : String) :
    Answers names b (fun σ => σ a = i) (answer (b.bind a (.value (.str i)))) := by
  rcases h : b.identifiers.lookup a with _ | old
  · exact answers_unknown hb ha h
  · exact answers_known hb h

/-- To capture a node says nothing about identifiers. -/
theorem answers_capture (hb : b.Proper names) (a : String) (path : List Step) :
    Answers names b (fun _ => True) (some (b.capture a path)) :=
  ⟨⟨hb.named, hb.text, hb.functional, hb.injective⟩, fun _ _ => (and_iff_left trivial).symm⟩

end Bindings

end ScopeLint
