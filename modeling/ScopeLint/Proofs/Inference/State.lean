import Mathlib.Tactic.SplitIfs
import ScopeLint.Inference.Infer
import ScopeLint.Proofs.Inference.Execution
import ScopeLint.Proofs.Scope.Table

/-! What an inference knows of nodes and names, beside what a run computes for them. Values only come to
the pool, so what is known of a node changes only when the node takes another value. -/

namespace ScopeLint

/-! ### Known values -/

/-- Whole numbers and texts. -/
def Literal.isPlain : Literal → Bool
  | .atom (.int _) | .atom (.str _) => true
  | _ => false

/-- What is known of a sum: the sum of two numbers that are known. -/
def Literal.sum? : Option Literal → Option Literal → Option Literal
  | some (.atom (.int m)), some (.atom (.int n)) => some (.atom (.int (m + n)))
  | _, _ => none

theorem Literal.plain_cases {l : Option Literal} (h : ∀ w, l = some w → w.isPlain = true) :
    l = none ∨ (∃ n, l = some (.atom (.int n))) ∨ ∃ x, l = some (.atom (.str x)) := by
  rcases l with _ | l
  · exact Or.inl rfl
  · have hl := h l rfl
    unfold isPlain at hl
    split at hl
    next n => exact Or.inr (Or.inl ⟨n, rfl⟩)
    next x => exact Or.inr (Or.inr ⟨x, rfl⟩)
    next => cases hl

theorem ValueInfo.add_ok {v w : ValueInfo} (hv : ∀ l, v.value = some l → l.isPlain = true)
    (hw : ∀ l, w.value = some l → l.isPlain = true) :
    ∃ u, v.add w = .ok u ∧ u.value = Literal.sum? v.value w.value := by
  obtain ⟨a, _, _⟩ := v
  obtain ⟨b, _, _⟩ := w
  rcases Literal.plain_cases hv with rfl | ⟨m, rfl⟩ | ⟨x, rfl⟩ <;>
    rcases Literal.plain_cases hw with rfl | ⟨n, rfl⟩ | ⟨y, rfl⟩ <;> exact ⟨_, rfl, rfl⟩

theorem ValueInfo.plain_unknown : ∀ w, unknown.value = some w → w.isPlain = true := by
  intro w hw
  cases hw

theorem ValueInfo.plain_known {a : Atom} (ha : (Literal.atom a).isPlain = true) :
    ∀ w, (known a).value = some w → w.isPlain = true := by
  intro w hw
  cases hw
  exact ha

namespace Lineage

variable {a b : Lineage}

theorem plus_eq_alone : a.plus b = .alone ↔ a = .alone ∧ b = .alone := by
  cases a <;> cases b <;> decide

theorem plus_eq_shared : a.plus b = .shared ↔ a = .shared ∨ b = .shared := by
  cases a <;> cases b <;> decide

end Lineage

namespace Held

/-- A value that came through names which were assigned alone is known as what it is, if at all, and is
known if it is a number. A shared one is not known. -/
structure Fits (h : Held) (known : Option Literal) : Prop where
  right : h.lineage = .alone → ∀ w, known = some w → w = .atom h.value
  number : h.lineage = .alone → ∀ n, h.value = .int n → known = some (.atom (.int n))
  unknown : h.lineage = .shared → known = none

theorem fits_constant (a : Atom) : (⟨a, .alone⟩ : Held).Fits (some (.atom a)) := by
  refine ⟨fun _ w hw => (Option.some.inj hw).symm, fun _ n hn => ?_, fun h => by cases h⟩
  change a = .int n at hn
  rw [hn]

theorem fits_shared (a : Atom) : (⟨a, .shared⟩ : Held).Fits none :=
  ⟨fun h => (by cases h), fun h => (by cases h), fun _ => rfl⟩

theorem Fits.right_of_ne {h : Held} {known : Option Literal} (hf : h.Fits known)
    (hne : h.lineage ≠ .outdated) (w : Literal) (hw : known = some w) : w = .atom h.value := by
  rcases hl : h.lineage with _ | _ | _
  · exact hf.right hl w hw
  · rw [hf.unknown hl] at hw
    cases hw
  · exact absurd hl hne

theorem sum?_eq_none {a b : Held} {k l : Option Literal} (ha : a.Fits k) (hb : b.Fits l)
    (h : a.lineage.plus b.lineage = .shared) : Literal.sum? k l = none := by
  rcases Lineage.plus_eq_shared.mp h with h | h
  · rw [ha.unknown h]
    rfl
  · rw [hb.unknown h, Literal.sum?.eq_def]
    split
    next heq => cases heq
    next => rfl

theorem Fits.sum {a b h : Held} {k l : Option Literal} (ha : a.Fits k) (hb : b.Fits l)
    (hp : a.plus b = some h) : h.Fits (Literal.sum? k l) := by
  have hshared := sum?_eq_none ha hb
  unfold Held.plus at hp
  split at hp
  next m x n y =>
    cases hp
    have hknown : x.plus y = .alone → Literal.sum? k l = some (.atom (.int (m + n))) := by
      intro h
      obtain ⟨hx, hy⟩ := Lineage.plus_eq_alone.mp h
      rw [ha.number hx m rfl, hb.number hy n rfl]
      rfl
    refine ⟨fun h w hw => ?_, fun h i hi => ?_, hshared⟩
    · rw [hknown h] at hw
      exact (Option.some.inj hw).symm
    · cases hi
      exact hknown h
  next m x n y =>
    cases hp
    -- A text that is joined of two others is not known.
    have hnone : x.plus y = .alone → Literal.sum? k l = none := by
      intro h
      have hk := ha.right (Lineage.plus_eq_alone.mp h).1
      rw [Literal.sum?.eq_def]
      split
      next i j => cases hk _ rfl
      next => rfl
    refine ⟨fun h w hw => ?_, fun _ i hi => (by cases hi), hshared⟩
    rw [hnone h] at hw
    cases hw
  next => cases hp

end Held

namespace Pool

variable {p q r : Pool}

/-- What is known of a value. -/
def known? (p : Pool) (i : Nat) : Option Literal := (p.infos[i]?).bind ValueInfo.value

theorem known?_push (p : Pool) (info : ValueInfo) (i : Nat) :
    (p.push info).known? i = if i = p.size then info.value else p.known? i := by
  have hsize : p.size = p.infos.length := rfl
  rw [hsize]
  by_cases hi : i = p.infos.length
  · rw [if_pos hi, known?, push, hi, List.getElem?_concat_length, Option.bind_some]
  · rw [if_neg hi, known?, push, known?]
    rcases Nat.lt_or_gt_of_ne hi with hlt | hgt
    · rw [List.getElem?_append_left hlt]
    · rw [List.getElem?_eq_none (by simp; omega), List.getElem?_eq_none (by omega)]

theorem known?_relate (p : Pool) (i : Nat) (operator : String) (j k : Nat) :
    (p.relate i operator j).known? k = p.known? k := by
  simp only [known?, relate, List.getElem?_modify]
  rcases p.infos[k]? with _ | v
  · rfl
  · by_cases hik : i = k <;> simp [hik]

/-- Values come to a pool, and what is known of the others stays. -/
structure Grows (p q : Pool) : Prop where
  size : p.size ≤ q.size
  known : ∀ i < p.size, q.known? i = p.known? i

theorem Grows.refl (p : Pool) : p.Grows p := ⟨Nat.le_refl _, fun _ _ => rfl⟩

theorem Grows.trans (h : p.Grows q) (h' : q.Grows r) : p.Grows r :=
  ⟨Nat.le_trans h.size h'.size,
    fun i hi => (h'.known i (Nat.lt_of_lt_of_le hi h.size)).trans (h.known i hi)⟩

theorem grows_push (p : Pool) (info : ValueInfo) : p.Grows (p.push info) := by
  refine ⟨by simp [size, push], fun i hi => ?_⟩
  rw [known?_push, if_neg (Nat.ne_of_lt hi)]

theorem grows_relate (p : Pool) (i : Nat) (operator : String) (j : Nat) :
    p.Grows (p.relate i operator j) :=
  ⟨by simp [size, relate], fun k _ => known?_relate p i operator j k⟩

/-- Only whole numbers and texts are known. -/
def Plain (p : Pool) : Prop := ∀ i w, p.known? i = some w → w.isPlain = true

theorem Plain.push (h : p.Plain) {info : ValueInfo}
    (hi : ∀ w, info.value = some w → w.isPlain = true) : (p.push info).Plain := by
  intro i w hw
  rw [known?_push] at hw
  split_ifs at hw
  · exact hi w hw
  · exact h i w hw

/-- The sum of two values of a pool. -/
theorem add_ok {i j : Nat} (h : p.Plain) (hi : i < p.size) (hj : j < p.size) :
    ∃ u, p.add i j = .ok (p.push u) ∧ u.value = Literal.sum? (p.known? i) (p.known? j) := by
  have hget : ∀ k < p.size, ∃ v, p.get k = .ok v ∧ p.known? k = v.value := by
    intro k hk
    have hv : p.infos[k]? = some p.infos[k] := List.getElem?_eq_getElem hk
    exact ⟨p.infos[k], by rw [get, hv], by rw [known?, hv]; rfl⟩
  obtain ⟨v, hv, hvk⟩ := hget i hi
  obtain ⟨w, hw, hwk⟩ := hget j hj
  obtain ⟨u, hu, huv⟩ :=
    ValueInfo.add_ok (fun l hl => h i l (hvk.trans hl)) (fun l hl => h j l (hwk.trans hl))
  refine ⟨u, ?_, by rw [huv, hvk, hwk]⟩
  rw [add, hv, hw]
  change (do let sum ← v.add w; return p.push sum) = Except.ok (p.push u)
  rw [hu]
  rfl

end Pool

/-! ### The state of an inference -/

namespace Inference

variable {s s' s'' : Inference} {path p : List Step} {P Q : List Step → Prop} {env : Environment}
  {trace : Trace}

/-- What is known of the value of a node. -/
def known? (s : Inference) (path : List Step) : Option Literal := (s.valueAt? path).bind s.pool.known?

/-- The value of a name in the innermost module. -/
def named? (s : Inference) (n : String) : Option Nat :=
  s.environments.head?.bind fun e => lookup? e (.str n)

/-- The values of nodes and names are in the pool, and a module is open. -/
structure Valid (s : Inference) : Prop where
  values : ∀ p i, s.valueAt? p = some i → i < s.pool.size
  names : ∀ n i, s.named? n = some i → i < s.pool.size
  plain : s.pool.Plain
  inside : s.environments ≠ []

/-- The inference has gone on, and only some nodes have taken another value. -/
structure Moved (P : List Step → Prop) (s s' : Inference) : Prop where
  valid : s'.Valid
  pool : s.pool.Grows s'.pool
  elsewhere : ∀ p, ¬P p → s'.valueAt? p = s.valueAt? p

theorem Moved.trans (h : Moved P s s') (h' : Moved Q s' s'') : Moved (fun p => P p ∨ Q p) s s'' := by
  refine ⟨h'.valid, h.pool.trans h'.pool, fun p hp => ?_⟩
  rw [not_or] at hp
  exact (h'.elsewhere p hp.2).trans (h.elsewhere p hp.1)

theorem Moved.mono (h : Moved P s s') (hPQ : ∀ p, P p → Q p) : Moved Q s s' :=
  ⟨h.valid, h.pool, fun p hp => h.elsewhere p fun hP => hp (hPQ p hP)⟩

/-- What is known of the other nodes stays. -/
theorem Moved.known (h : Moved P s s') (hs : s.Valid) (hp : ¬P p) : s'.known? p = s.known? p := by
  rw [known?, known?, h.elsewhere p hp]
  rcases hv : s.valueAt? p with _ | i
  · rfl
  · exact h.pool.known i (hs.values p i hv)

/-- The state in which a node has a value of the pool. -/
def note (s : Inference) (path : List Step) (i : Nat) : Inference :=
  { s with values := (path, i) :: s.values.filter fun e => e.1 != path }

theorem valueAt?_note (s : Inference) (path : List Step) (i : Nat) (p : List Step) :
    (s.note path i).valueAt? p = if p = path then some i else s.valueAt? p := by
  rw [valueAt?, note, List.lookup_cons]
  split_ifs with hp
  · rw [hp, beq_self_eq_true]
  · rw [beq_false_of_ne hp]
    exact lookup_filter_ne hp s.values

theorem moved_note (hs : s.Valid) {i : Nat} (hi : i < s.pool.size) :
    Moved (· = path) s (s.note path i) := by
  refine ⟨⟨fun p j hj => ?_, hs.names, hs.plain, hs.inside⟩, Pool.Grows.refl _, fun p hp => ?_⟩
  · rw [valueAt?_note] at hj
    split_ifs at hj
    · cases hj
      exact hi
    · exact hs.values p j hj
  · rw [valueAt?_note, if_neg hp]

theorem moved_pool (hs : s.Valid) {q : Pool} (hgrows : s.pool.Grows q) (hq : q.Plain) :
    Moved (fun _ => False) s { s with pool := q } :=
  ⟨⟨fun p i h => Nat.lt_of_lt_of_le (hs.values p i h) hgrows.size,
    fun n i h => Nat.lt_of_lt_of_le (hs.names n i h) hgrows.size, hq, hs.inside⟩, hgrows,
    fun _ _ => rfl⟩

/-- One node has taken another value, of which something is known. -/
structure Taken (path : List Step) (known : Option Literal) (s s' : Inference) : Prop where
  moved : Moved (· = path) s s'
  environments : s'.environments = s.environments
  isSome : (s'.valueAt? path).isSome = true
  known : s'.known? path = known

theorem taken_note (hs : s.Valid) {i : Nat} (hi : i < s.pool.size) (path : List Step) :
    Taken path (s.pool.known? i) s (s.note path i) := by
  have hself : (s.note path i).valueAt? path = some i := by rw [valueAt?_note, if_pos rfl]
  exact ⟨moved_note hs hi, rfl, by rw [hself]; rfl, by rw [known?, hself]; rfl⟩

/-- A node takes a value that comes to a pool which has grown. -/
theorem taken_fresh (hs : s.Valid) {q : Pool} (hgrows : s.pool.Grows q) (hq : q.Plain)
    {info : ValueInfo} (hi : ∀ w, info.value = some w → w.isPlain = true) (path : List Step) :
    Taken path info.value s ({ s with pool := q.push info }.note path q.size) := by
  have hpush := moved_pool hs (hgrows.trans (q.grows_push info)) (hq.push hi)
  have hlt : q.size < (q.push info).size := by simp [Pool.push, Pool.size]
  have hnote := taken_note hpush.valid hlt path
  refine ⟨(hpush.trans hnote.moved).mono fun p hp => hp.resolve_left id, rfl, hnote.isSome, ?_⟩
  rw [hnote.known]
  exact (q.known?_push info q.size).trans (if_pos rfl)

theorem valueEq_str {a : Atom} {n : String} : a.valueEq (.str n) = true ↔ a = .str n := by
  cases a <;> simp [Atom.valueEq, Atom.parts?]

/-- The state in which a name of the innermost module has a value of the pool. -/
def give (s : Inference) (n : String) (i : Nat) : Inference :=
  match s.environments with
  | e :: rest =>
    { s with environments := ((.str n, i) :: e.filter fun b => !b.1.valueEq (.str n)) :: rest }
  | [] => s

theorem named?_give (hs : s.environments ≠ []) (n : String) (i : Nat) (m : String) :
    (s.give n i).named? m = if m = n then some i else s.named? m := by
  obtain ⟨e, rest, he⟩ := List.exists_cons_of_ne_nil hs
  have hlookup : lookup? (e.filter fun b => !b.1.valueEq (.str n)) (.str m) =
      if m = n then none else lookup? e (.str m) := by
    rw [lookup?, List.find?_filter]
    split_ifs with hm
    · rw [hm, Option.map_eq_none_iff, List.find?_eq_none]
      simp
    · rw [lookup?]
      congr 2
      funext b
      rw [Bool.eq_iff_iff]
      simp only [decide_eq_true_eq, Bool.not_eq_true', Bool.eq_false_iff, ne_eq, valueEq_str]
      grind
  rw [give, he, named?, named?, he]
  change lookup? (_ :: _) _ = if _ then _ else lookup? e (.str m)
  rw [lookup?, List.find?_cons]
  by_cases hm : m = n
  · have hself : (Atom.str n).valueEq (.str m) = true := valueEq_str.mpr (by rw [hm])
    rw [hself, if_pos hm]
    rfl
  · have hother : (Atom.str n).valueEq (.str m) = false := by
      rw [Bool.eq_false_iff, ne_eq, valueEq_str]
      exact fun h => hm (Atom.str.inj h).symm
    rw [hother, if_neg hm]
    rw [if_neg hm] at hlookup
    exact hlookup

theorem moved_give (hs : s.Valid) {i : Nat} (hi : i < s.pool.size) (n : String) :
    Moved (fun _ => False) s (s.give n i) := by
  obtain ⟨e, rest, he⟩ := List.exists_cons_of_ne_nil hs.inside
  have hnamed := named?_give hs.inside n i
  rw [give, he] at hnamed ⊢
  refine ⟨⟨hs.values, fun m j hj => ?_, hs.plain, List.cons_ne_nil _ _⟩, .refl _, fun _ _ => rfl⟩
  rw [hnamed] at hj
  split_ifs at hj
  · cases hj
    exact hi
  · exact hs.names m j hj

/-- What is known of a name. -/
def knownAs? (s : Inference) (n : String) : Option Literal := (s.named? n).bind s.pool.known?

theorem Moved.knownAs (h : Moved P s s') (hs : s.Valid) (he : s'.environments = s.environments)
    (n : String) : s'.knownAs? n = s.knownAs? n := by
  rw [knownAs?, knownAs?, named?, he, ← named?]
  rcases hn : s.named? n with _ | i
  · rfl
  · exact h.pool.known i (hs.names n i hn)

theorem knownAs?_give (hs : s.environments ≠ []) (n : String) (i : Nat) (m : String) :
    (s.give n i).knownAs? m = if m = n then s.pool.known? i else s.knownAs? m := by
  have hpool : (s.give n i).pool = s.pool := by
    obtain ⟨e, rest, he⟩ := List.exists_cons_of_ne_nil hs
    rw [give, he]
  rw [knownAs?, hpool, named?_give hs]
  split_ifs <;> rfl

/-- What is known of the names fits the values that they hold. Names that hold none are not known. -/
structure Matches (s : Inference) (env : Environment) : Prop where
  held : ∀ n h, env n = some h → h.Fits (s.knownAs? n)
  unheld : ∀ n, env n = none → s.knownAs? n = none

theorem Matches.of_moved (h : s.Matches env) (hs : s.Valid) (hm : Moved P s s')
    (he : s'.environments = s.environments) : s'.Matches env := by
  refine ⟨fun n v hv => ?_, fun n hn => ?_⟩
  · rw [hm.knownAs hs he]
    exact h.held n v hv
  · rw [hm.knownAs hs he]
    exact h.unheld n hn

/-- A name is given a value of the pool, and holds one that fits it. -/
theorem Matches.give (h : s.Matches env) (hs : s.environments ≠ []) {v : Held} {i : Nat}
    (hv : v.Fits (s.pool.known? i)) (n : String) :
    (s.give n i).Matches (Function.update env n (some v)) := by
  refine ⟨fun m u hu => ?_, fun m hm => ?_⟩ <;> rw [knownAs?_give hs]
  · split_ifs with hmn
    · rw [hmn, Function.update_self] at hu
      cases hu
      exact hv
    · rw [Function.update_of_ne hmn] at hu
      exact h.held m u hu
  · have hmn : m ≠ n := by
      rintro rfl
      rw [Function.update_self] at hm
      cases hm
    rw [Function.update_of_ne hmn] at hm
    rw [if_neg hmn]
    exact h.unheld m hm

/-- A name that is assigned together with others stays known as it was: it is outdated, or not known. -/
theorem Matches.share (h : s.Matches env) (t : Tree) (a : Atom) :
    s.Matches (env.bind t (Held.sharedAfter a)) := by
  unfold Environment.bind
  split
  next sp n rest =>
    have hafter : (Held.sharedAfter a (env n)).Fits (s.knownAs? n) := by
      rcases hn : env n with _ | ⟨b, lineage⟩
      · rw [h.unheld n hn]
        exact Held.fits_shared a
      · have hfits := h.held n _ hn
        cases lineage with
        | shared =>
          rw [hfits.unknown rfl]
          exact Held.fits_shared a
        | alone | outdated =>
          exact ⟨fun h => (by cases h), fun h => (by cases h), fun h => (by cases h)⟩
    refine ⟨fun m u hu => ?_, fun m hm => ?_⟩ <;> rcases eq_or_ne m n with rfl | hmn
    · rw [Function.update_self] at hu
      cases hu
      exact hafter
    · rw [Function.update_of_ne hmn] at hu
      exact h.held m u hu
    · rw [Function.update_self] at hm
      cases hm
    · rw [Function.update_of_ne hmn] at hm
      exact h.unheld m hm
  next => exact h

theorem Matches.share_all (h : s.Matches env) (ts : List Tree) (a : Atom) :
    s.Matches (ts.foldl (fun env t => env.bind t (Held.sharedAfter a)) env) := by
  induction ts generalizing env with
  | nil => exact h
  | cons t ts ih => exact ih (h.share t a)

/-- Only the nodes of a trace have taken another value, and what is known of them fits the trace. -/
structure Records (s s' : Inference) (trace : Trace) : Prop where
  only : ∀ p, s'.valueAt? p = s.valueAt? p ∨ ∃ h, (p, h) ∈ trace
  fits : ∀ e ∈ trace, e.2.Fits (s'.known? e.1)

theorem Taken.records {known : Option Literal} {h : Held} (ht : Taken path known s s')
    (hf : h.Fits known) : s.Records s' [(path, h)] := by
  refine ⟨fun p => ?_, List.forall_mem_singleton.mpr (by rwa [ht.known])⟩
  by_cases hp : p = path
  · exact Or.inr ⟨h, by rw [hp]; exact List.mem_singleton_self _⟩
  · exact Or.inl (ht.moved.elsewhere p hp)

/-- What has been recorded stays so while the inference goes on elsewhere. -/
theorem Records.append {trace' : Trace} (h : s.Records s' trace) (h' : s'.Records s'' trace')
    (hs : s'.Valid) (hm : Moved P s' s'') (hp : ∀ e ∈ trace, ¬P e.1) :
    s.Records s'' (trace ++ trace') := by
  constructor
  · intro p
    rcases h'.only p with heq | ⟨v, hv⟩
    · rcases h.only p with heq' | ⟨v, hv⟩
      · exact Or.inl (heq.trans heq')
      · exact Or.inr ⟨v, List.mem_append_left _ hv⟩
    · exact Or.inr ⟨v, List.mem_append_right _ hv⟩
  · refine List.forall_mem_append.mpr ⟨fun e he => ?_, h'.fits⟩
    rw [hm.known hs (hp e he)]
    exact h.fits e he

/-- A term is recorded between two moves of other nodes, which are recorded after the second. -/
theorem Records.between {s₁ s₂ : Inference} {trace' : Trace} (h : s₁.Records s₂ trace)
    (hbefore : Moved P s s₁) (hs : s₂.Valid) (hafter : Moved P s₂ s') (hp : ∀ e ∈ trace, ¬P e.1)
    (honly : ∀ p, P p → ∃ v, (p, v) ∈ trace') (hfits : ∀ e ∈ trace', e.2.Fits (s'.known? e.1)) :
    s.Records s' (trace ++ trace') := by
  constructor
  · intro p
    by_cases hP : P p
    · obtain ⟨v, hv⟩ := honly p hP
      exact Or.inr ⟨v, List.mem_append_right _ hv⟩
    · rw [hafter.elsewhere p hP]
      rcases h.only p with heq | ⟨v, hv⟩
      · exact Or.inl (heq.trans (hbefore.elsewhere p hP))
      · exact Or.inr ⟨v, List.mem_append_left _ hv⟩
  · refine List.forall_mem_append.mpr ⟨fun e he => ?_, hfits⟩
    rw [hafter.known hs (hp e he)]
    exact h.fits e he

end Inference

end ScopeLint

