import Mathlib.Algebra.Field.Rat
import Mathlib.Order.WithBot
import ScopeLint.Proofs.Template.Soundness
import ScopeLint.Template.Stock

/-! The constants of a match. Against a constant of the template stands a constant of the tree that
is equal to it, and mostly of the same class. Only among numbers may the classes differ: a truth value,
an integer, a floating-point number and a complex number on the real line all stand for one another
when they are the same point of that line. -/

namespace ScopeLint

/-! ### Numbers as points of a line -/

/-- A point of the line of numbers, or one of its two ends. -/
abbrev Point := WithBot (WithTop ℚ)

def Point.ofRat (q : ℚ) : Point := ((q : WithTop ℚ) : WithBot (WithTop ℚ))

namespace Binary64

/-- The exact value of a number. -/
def point? : Binary64 → Option Point
  | nan => none
  | infinite negative => some (if negative then ⊥ else ⊤)
  | finite negative m e => some (.ofRat (if negative then -(m * 2 ^ e) else m * 2 ^ e))

variable {x y : Binary64} {n : ℤ}

theorem point?_of_numEq (h : x.numEq y = true) : ∃ q, x.point? = some q ∧ y.point? = some q := by
  cases x with
  | nan => cases h
  | infinite s =>
    cases y with
    | infinite s' =>
      obtain rfl : s = s' := beq_iff_eq.mp h
      exact ⟨_, rfl, rfl⟩
    | nan => cases h
    | finite s' m' e' => cases h
  | finite s m e =>
    cases y with
    | finite s' m' e' =>
      have h : m = 0 ∧ m' = 0 ∨ (s = s' ∧ m = m') ∧ e = e' := by simpa [numEq] using h
      rcases h with ⟨rfl, rfl⟩ | ⟨⟨rfl, rfl⟩, rfl⟩
      · exact ⟨_, rfl, by simp [point?]⟩
      · exact ⟨_, rfl, rfl⟩
    | nan => cases h
    | infinite s' => cases h

/-- A finite number that is an integer has its magnitude. -/
theorem magnitude_of_toInt? {s : Bool} {m : ℕ} {e : ℤ} (h : (finite s m e).toInt? = some n) :
    ∃ k : ℕ, n = (if s then -(k : ℤ) else k) ∧ (m : ℚ) * 2 ^ e = k := by
  have htwo : ((twoTo e.natAbs : ℕ) : ℚ) = 2 ^ e.natAbs := Nat.cast_pow 2 e.natAbs
  have hpos : 0 < twoTo e.natAbs := Nat.pow_pos Nat.two_pos
  by_cases he : 0 ≤ e
  · rw [toInt?, if_pos he] at h
    refine ⟨m * twoTo e.natAbs, by cases h; rfl, ?_⟩
    rw [Nat.cast_mul, htwo, ← zpow_natCast, Int.natAbs_of_nonneg he]
  · rw [toInt?, if_neg he] at h
    by_cases hm : m % twoTo e.natAbs = 0
    · rw [if_pos hm] at h
      obtain ⟨k, rfl⟩ := Nat.dvd_of_mod_eq_zero hm
      rw [Nat.mul_div_cancel_left k hpos] at h
      refine ⟨k, by cases h; rfl, ?_⟩
      have hexp : (2 : ℚ) ^ e = (2 ^ e.natAbs)⁻¹ := by
        rw [← zpow_natCast, ← zpow_neg, Int.ofNat_natAbs_of_nonpos (Int.not_le.mp he).le, neg_neg]
      have hne : (2 : ℚ) ^ e.natAbs ≠ 0 := pow_ne_zero _ (by decide)
      rw [Nat.cast_mul, htwo, hexp, mul_right_comm, mul_inv_cancel₀ hne, one_mul]
    · rw [if_neg hm] at h
      cases h

theorem point?_of_toInt? (h : x.toInt? = some n) : x.point? = some (.ofRat n) := by
  cases x with
  | nan => cases h
  | infinite s => cases h
  | finite s m e =>
    obtain ⟨k, rfl, hk⟩ := magnitude_of_toInt? h
    rw [point?, hk]
    cases s <;> simp

end Binary64

namespace Atom

def Scalar.point? : Scalar → Option Point
  | .exact n => some (.ofRat n)
  | .approx x => x.point?

theorem Scalar.point?_of_numEq {x y : Scalar} (h : x.numEq y = true) :
    ∃ q, x.point? = some q ∧ y.point? = some q := by
  cases x with
  | exact m =>
    cases y with
    | exact n => exact ⟨_, rfl, by rw [beq_iff_eq.mp h]; rfl⟩
    | approx y => exact ⟨_, rfl, Binary64.point?_of_toInt? (beq_iff_eq.mp h)⟩
  | approx x =>
    cases y with
    | exact n => exact ⟨_, Binary64.point?_of_toInt? (beq_iff_eq.mp h), rfl⟩
    | approx y => exact Binary64.point?_of_numEq h

/-- The point of the line that a number is; a complex number is one when its second part is zero. -/
def point? (a : Atom) : Option Point :=
  a.parts?.bind fun p => if p.2.point? = some (.ofRat 0) then p.1.point? else none

variable {a x : Atom}

theorem point?_of_parts? {re im : Scalar} (h : a.parts? = some (re, im))
    (him : im.point? = some (.ofRat 0)) : a.point? = re.point? := by
  rw [point?, h]
  exact if_pos him

theorem eq_of_valueEq (ha : a.parts? = none) (h : x.valueEq a = true) : x = a := by
  rw [valueEq, ha] at h
  cases hx : x.parts? with
  | none =>
    rw [hx] at h
    exact beq_iff_eq.mp h
  | some p =>
    rw [hx] at h
    cases h

/-- A number that is equal to a real number is the same point of the line. -/
theorem point?_of_valueEq (ha : a.isReal = true) (h : x.valueEq a = true) :
    ∃ q, x.point? = some q ∧ a.point? = some q := by
  obtain ⟨r, hr⟩ : ∃ r, a.parts? = some (r, .exact 0) := by
    cases a with
    | bool b => exact ⟨_, rfl⟩
    | int n => exact ⟨_, rfl⟩
    | float x => exact ⟨_, rfl⟩
    | _ => cases ha
  rw [valueEq, hr] at h
  cases hx : x.parts? with
  | none =>
    rw [hx] at h
    cases h
  | some p =>
    rw [hx, Bool.and_eq_true] at h
    obtain ⟨q, hq, hq'⟩ := Scalar.point?_of_numEq h.1
    obtain ⟨z, hz, hz'⟩ := Scalar.point?_of_numEq h.2
    refine ⟨q, ?_, ?_⟩
    · rw [point?_of_parts? hx (hz.trans hz'.symm), hq]
    · rw [point?_of_parts? hr rfl, hq']

/-- When one constant may stand against another: they have the same class and are equal, or they are
the same point of the line in two classes. -/
def StandsFor (x a : Atom) : Prop :=
  x.className = a.className ∧ x.valueEq a = true ∨
    x.className ≠ a.className ∧ ∃ q, x.point? = some q ∧ a.point? = some q

theorem standsFor_of_isReal (ha : a.isReal = true) (h : x.valueEq a = true) : x.StandsFor a := by
  by_cases hclass : x.className = a.className
  · exact Or.inl ⟨hclass, h⟩
  · exact Or.inr ⟨hclass, point?_of_valueEq ha h⟩

/-- What a constant of a template accepts. -/
theorem standsFor_of_acceptsTree {t : Tree} (h : a.acceptsTree t = .ok true) :
    ∃ x, t = .atom x ∧ x.StandsFor a := by
  obtain ⟨x, rfl, hx⟩ := valueEq_of_acceptsTree h
  refine ⟨x, rfl, ?_⟩
  by_cases hreal : a.isReal = true
  · exact standsFor_of_isReal hreal hx
  · have hparts : a.parts? = none := by
      cases a with
      | complex re im => cases h
      | bool b => exact absurd rfl hreal
      | int n => exact absurd rfl hreal
      | float y => exact absurd rfl hreal
      | _ => rfl
    exact Or.inl ⟨by rw [eq_of_valueEq hparts hx], hx⟩

end Atom

namespace Template

variable {T : Template} {tree : Tree} {found : List Candidate} {c : Candidate} {w : List Way}
  {a : Atom}

/-- Wherever the template of a match has a constant, the match has one that may stand against it. -/
theorem constant_of_match (h : T.search tree = .ok found) (hf : tree.every Tree.hasFields = true)
    (hc : c ∈ found) (hw : T.at? w = some (.atom a)) :
    ∃ x, tree.at? (c.ways ++ w) = some (.atom x) ∧ x.StandsFor a := by
  obtain ⟨s, b, b', hs, hb⟩ := part_of_search h hf hc hw
  obtain ⟨ok, hok, hb⟩ := except_bind_ok hb
  cases hb
  obtain ⟨x, hx, hstands⟩ := Atom.standsFor_of_acceptsTree hok
  exact ⟨x, hx ▸ hs, hstands⟩

/-- A statement that returns a constant. -/
def returnAtom (a : Atom) : Tree := plain .returnStmt [plain .constant [.atom a, .null]]

/-- The way to the constant in the first of some statements. -/
def returnedWay : List Way := [.head, .field "value", .field "value"]

/-- The last of two statements is found, and what it returns may stand against the integer one. -/
theorem constant_of_match_last_statement :
    ∃ T found c, (ofFunction [] [returnAtom (.int 1)]).run [] = (.ok T, []) ∧
      T.search (.list [returnAtom (.int 0), returnAtom (.float (.ofRatio false 1 1))]) = .ok found ∧
      c ∈ found ∧ T.at? returnedWay = some (.atom (.int 1)) ∧
      ∃ x, (Tree.list [returnAtom (.int 0), returnAtom (.float (.ofRatio false 1 1))]).at?
          (c.ways ++ returnedWay) = some (.atom x) ∧ x.StandsFor (.int 1) := by
  have hfound : (ofTree (.list [returnAtom (.int 1)])).search
      (.list [returnAtom (.int 0), returnAtom (.float (.ofRatio false 1 1))]) =
      .ok [⟨[.tail], returnAtom (.float (.ofRatio false 1 1)), [.item 1], Bindings.empty⟩] := rfl
  exact ⟨_, _, _, rfl, hfound, List.mem_singleton_self _, rfl,
    constant_of_match hfound rfl (List.mem_singleton_self _) rfl⟩

/-- The integer one is found against the truth value. -/
theorem integer_found_for_truth :
    ∃ T c, (ofFunction [] [returnAtom (.bool true)]).run [] = (.ok T, []) ∧
      T.search (.list [returnAtom (.int 1)]) = .ok [c] ∧
      T.at? returnedWay = some (.atom (.bool true)) ∧
      (Tree.list [returnAtom (.int 1)]).at? (c.ways ++ returnedWay) = some (.atom (.int 1)) :=
  ⟨ofTree (.list [returnAtom (.bool true)]),
    ⟨[], returnAtom (.int 1), [.item 0], Bindings.empty⟩, rfl, rfl, rfl, rfl⟩

end Template

end ScopeLint
