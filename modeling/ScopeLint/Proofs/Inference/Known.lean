import Mathlib.Tactic.Set
import ScopeLint.Proofs.Fault
import ScopeLint.Proofs.Inference.State
import ScopeLint.Proofs.Tree.Places
import ScopeLint.Proofs.Tree.Sample

/-! What an inference knows of straight-line code is what the code computes. Inference keeps the last
value that a name has been assigned alone, so it is out of date when the name is assigned together with
others. All else that is known is right, and every whole number is known that no such assignment
handed on. -/

namespace ScopeLint

/-! ### Terms -/

namespace Tree

variable {t : Tree} {env : Environment} {path : List Step} {h : Held} {trace : Trace}

/-- The trace of a term has the term itself, and all else in it is below. -/
theorem evaluate_trace (he : t.evaluate env path = some (h, trace)) :
    (path, h) ∈ trace ∧ ∀ e ∈ trace, path <+: e.1 := by
  fun_induction evaluate env path t generalizing h trace with
  | case1 path s n rest =>
    obtain ⟨v, -, hv⟩ := Option.bind_eq_some_iff.mp he
    cases hv
    exact ⟨List.mem_singleton_self _, List.forall_mem_singleton.mpr List.prefix_rfl⟩
  | case2 path s a rest =>
    cases he
    exact ⟨List.mem_singleton_self _, List.forall_mem_singleton.mpr List.prefix_rfl⟩
  | case3 path s left op right ihl ihr =>
    obtain ⟨⟨a, ta⟩, ha, he⟩ := Option.bind_eq_some_iff.mp he
    obtain ⟨⟨b, tb⟩, hb, he⟩ := Option.bind_eq_some_iff.mp he
    obtain ⟨v, -, hv⟩ := Option.bind_eq_some_iff.mp he
    cases hv
    have hbelow (f : String) : path <+: path ++ [Step.field f] := List.prefix_append _ _
    refine ⟨List.mem_append_right _ (List.mem_singleton_self _), ?_⟩
    simp only [List.forall_mem_append, List.forall_mem_singleton]
    refine ⟨⟨fun e he => ?_, fun e he => ?_⟩, List.prefix_rfl⟩
    · exact (hbelow _).trans ((ihl ha).2 e he)
    · exact (hbelow _).trans ((ihr hb).2 e he)
  | case4 => cases he

end Tree

namespace Infer

open Inference

variable {s : Inference} {path : List Step}

theorem visit_name (haveScopes : Bool) (path : List Step) (sp : Span) (n : String) (rest : List Tree) :
    visit haveScopes path (.node .name sp (.atom (.str n) :: rest)) =
      visitName path (.atom (.str n)) := rfl

theorem environment_run {e : List (Atom × Nat)} {rest : List (List (Atom × Nat))}
    (he : s.environments = e :: rest) : environment.run s = (.ok e, s) := by
  rw [environment, run_bind_of_ok (rfl : (get : Infer Inference).run s = (.ok s, s)), he]
  rfl

/-- A name takes the value that it has been assigned, or one that is not known. -/
theorem visitName_run (hs : s.Valid) (path : List Step) (n : String) :
    ∃ s', (visitName path (.atom (.str n))).run s = (.ok (), s') ∧
      Taken path (s.knownAs? n) s s' := by
  obtain ⟨e, rest, he⟩ := List.exists_cons_of_ne_nil hs.inside
  have hnamed : s.named? n = lookup? e (.str n) := by rw [named?, he]; rfl
  have hrun : (visitName path (.atom (.str n))).run s =
      ((lookup? e (.str n)).elim (do setValue path (← fresh .unknown)) (setValue path)).run s := by
    rw [visitName, run_bind_of_ok (environment_run he)]
    dsimp only
    rcases lookup? e (.str n) with _ | i <;> rfl
  rw [hrun, knownAs?, hnamed]
  rcases hn : lookup? e (.str n) with _ | i
  · exact ⟨_, rfl, taken_fresh hs (.refl _) hs.plain ValueInfo.plain_unknown path⟩
  · exact ⟨_, rfl, taken_note hs (hs.names n i (hnamed.trans hn)) path⟩

/-- A node takes a value of its own. -/
theorem fresh_run (hs : s.Valid) (path : List Step) {info : ValueInfo}
    (hi : ∀ w, info.value = some w → w.isPlain = true) :
    ∃ s', (do setValue path (← fresh info) : Infer Unit).run s = (.ok (), s') ∧
      Taken path info.value s s' :=
  ⟨_, rfl, taken_fresh hs (.refl _) hs.plain hi path⟩

theorem valueOf_run {i : Nat} {t : Tree} (ht : t.isNode = true) (hi : s.valueAt? path = some i) :
    (valueOf path t).run s = (.ok i, s) := by
  rw [valueOf, run_bind_of_ok (rfl : (get : Infer Inference).run s = (.ok s, s)), ht, hi]
  rfl

/-- The value of a sum is known when those of the summands are known numbers. -/
theorem combine_run (hs : s.Valid) (path : List Step) {left right : List Step} {l op r : Tree}
    (hl : l.isNode = true) (hr : r.isNode = true) (hop : op.isKind .addOp = true)
    (hi : (s.valueAt? left).isSome = true) (hj : (s.valueAt? right).isSome = true) :
    ∃ s', (combine path left right l op r).run s = (.ok (), s') ∧
      Taken path (Literal.sum? (s.known? left) (s.known? right)) s s' := by
  obtain ⟨i, hi⟩ := Option.isSome_iff_exists.mp hi
  obtain ⟨j, hj⟩ := Option.isSome_iff_exists.mp hj
  set q := s.pool.relate i op.className j with hq
  have hgrows : s.pool.Grows q := s.pool.grows_relate i op.className j
  have hplain : q.Plain := fun k w hw => hs.plain k w (by rwa [hq, Pool.known?_relate] at hw)
  obtain ⟨u, hadd, hu⟩ := Pool.add_ok hplain (Nat.lt_of_lt_of_le (hs.values left i hi) hgrows.size)
    (Nat.lt_of_lt_of_le (hs.values right j hj) hgrows.size)
  have hsum : u.value = Literal.sum? (s.known? left) (s.known? right) := by
    rw [hu, hq, Pool.known?_relate, Pool.known?_relate, known?, known?, hi, hj]
    rfl
  have huplain : ∀ w, u.value = some w → w.isPlain = true := by
    intro w hw
    rw [hu, Literal.sum?.eq_def] at hw
    split at hw
    · cases hw
      rfl
    · cases hw
  have htaken := taken_fresh hs hgrows hplain huplain path
  rw [hsum] at htaken
  refine ⟨_, ?_, htaken⟩
  have hrelate : (modify fun s => { s with pool := s.pool.relate i op.className j } :
      Infer PUnit).run s = (.ok ⟨⟩, { s with pool := q }) := rfl
  have hsize : (q.push u).size - 1 = q.size := by simp [Pool.push, Pool.size]
  rw [combine, run_bind_of_ok (valueOf_run hl hi), run_bind_of_ok (valueOf_run hr hj),
    run_bind_of_ok hrelate, if_pos hop,
    run_bind_of_ok (rfl : (get : Infer Inference).run { s with pool := q } = (.ok _, _)), hadd, ← hsize]
  rfl

theorem isNode_of_isTerm {t : Tree} (h : t.isTerm = true) : t.isNode = true := by
  cases t with
  | node k s fields => rfl
  | atom a => cases h
  | list items => cases h

theorem isNode_of_isStraight {t : Tree} (h : t.isStraight = true) : t.isNode = true := by
  cases t with
  | node k s fields => rfl
  | atom a => cases h
  | list items => cases h

theorem not_below_sibling {f g : String} (hfg : f ≠ g) {p : List Step}
    (hp : path ++ [Step.field f] <+: p) : ¬path ++ [Step.field g] <+: p := by
  intro hg
  refine Tree.not_both_below (fun h => hfg ?_) hp hg
  injection h

theorem ne_of_below {a : Step} {p : List Step} (hp : path ++ [a] <+: p) : p ≠ path := by
  rintro rfl
  have hlength := hp.length_le
  rw [List.length_append, List.length_singleton] at hlength
  omega

/-- The nodes of a term have taken values, and what is known of them fits what they compute. -/
structure Visited (t : Tree) (path : List Step) (s s' : Inference) : Prop where
  moved : Moved (path <+: ·) s s'
  environments : s'.environments = s.environments
  isSome : (s'.valueAt? path).isSome = true
  records : ∀ env h trace, s.Matches env → t.evaluate env path = some (h, trace) → s.Records s' trace

/-- A term that is one node. -/
theorem visited_of_taken {t : Tree} {s' : Inference} {known : Option Literal}
    (ht : Taken path known s s') (hfits : ∀ env h trace, s.Matches env →
      t.evaluate env path = some (h, trace) → trace = [(path, h)] ∧ h.Fits known) :
    Visited t path s s' := by
  refine ⟨ht.moved.mono fun p hp => hp ▸ List.prefix_rfl, ht.environments, ht.isSome, ?_⟩
  intro env h trace hmatch he
  obtain ⟨rfl, hfit⟩ := hfits env h trace hmatch he
  exact ht.records hfit

theorem visited_constant (hs : s.Valid) (path : List Step) {a : Atom}
    (ha : (Literal.atom a).isPlain = true) (sp : Span) (rest : List Tree) :
    ∃ s', (do setValue path (← fresh (.known a)) : Infer Unit).run s = (.ok (), s') ∧
      Visited (.node .constant sp (.atom a :: rest)) path s s' := by
  obtain ⟨s', hrun, htaken⟩ := fresh_run hs path (ValueInfo.plain_known ha)
  refine ⟨s', hrun, visited_of_taken htaken fun env h trace _ he => ?_⟩
  cases he
  exact ⟨rfl, Held.fits_constant a⟩

/-- A sum takes its value after the summands have taken theirs. -/
theorem Visited.sum {left op right : Tree} {s₁ s₂ s₃ : Inference}
    (hl : Visited left (path ++ [Step.field "left"]) s s₁)
    (hr : Visited right (path ++ [Step.field "right"]) s₁ s₂) (hs : s.Valid)
    (ht : Taken path (Literal.sum? (s₂.known? (path ++ [Step.field "left"]))
      (s₂.known? (path ++ [Step.field "right"]))) s₂ s₃) (sp : Span) :
    Visited (.node .binOp sp [left, op, right]) path s s₃ := by
  have hbelow (f : String) : path <+: path ++ [Step.field f] := List.prefix_append _ _
  refine ⟨((hl.moved.trans hr.moved).trans ht.moved).mono ?_, ?_, ht.isSome, ?_⟩
  · rintro p ((hp | hp) | rfl)
    · exact (hbelow _).trans hp
    · exact (hbelow _).trans hp
    · exact List.prefix_rfl
  · rw [ht.environments, hr.environments, hl.environments]
  · intro env h trace hmatch he
    obtain ⟨⟨a, ta⟩, ha, he⟩ := Option.bind_eq_some_iff.mp he
    obtain ⟨⟨b, tb⟩, hb, he⟩ := Option.bind_eq_some_iff.mp he
    obtain ⟨v, hv, heq⟩ := Option.bind_eq_some_iff.mp he
    cases heq
    have hta := hl.records env a ta hmatch ha
    have htb := hr.records env b tb (hmatch.of_moved hs hl.moved hl.environments) hb
    obtain ⟨hmema, hbelowa⟩ := Tree.evaluate_trace ha
    obtain ⟨hmemb, hbelowb⟩ := Tree.evaluate_trace hb
    have hboth := hta.append htb hl.moved.valid hr.moved fun e he =>
      not_below_sibling (by decide) (hbelowa e he)
    have hsum := (hboth.fits _ (List.mem_append_left _ hmema)).sum
      (hboth.fits _ (List.mem_append_right _ hmemb)) hv
    refine hboth.append (ht.records hsum) hr.moved.valid ht.moved ?_
    rw [List.forall_mem_append]
    exact ⟨fun e he => ne_of_below (hbelowa e he), fun e he => ne_of_below (hbelowb e he)⟩

theorem visit_term {t : Tree} (ht : t.isTerm = true) (haveScopes : Bool) :
    ∀ (path : List Step) {s : Inference}, s.Valid →
      ∃ s', (visit haveScopes path t).run s = (.ok (), s') ∧ Visited t path s s' := by
  fun_induction Tree.isTerm t with
  | case1 sp n rest =>
    intro path s hs
    obtain ⟨s', hrun, htaken⟩ := visitName_run hs path n
    refine ⟨s', hrun, visited_of_taken htaken fun env h trace hmatch he => ?_⟩
    obtain ⟨v, hv, heq⟩ := Option.bind_eq_some_iff.mp he
    cases heq
    exact ⟨rfl, hmatch.held n h hv⟩
  | case2 sp n rest => exact fun path s hs => visited_constant hs path rfl sp rest
  | case3 sp x rest => exact fun path s hs => visited_constant hs path rfl sp rest
  | case4 sp left osp ofields right ihl ihr =>
    rw [Bool.and_eq_true] at ht
    intro path s hs
    obtain ⟨s₁, hrun₁, hl⟩ := ihl ht.1 (path ++ [Step.field "left"]) hs
    obtain ⟨s₂, hrun₂, hr⟩ := ihr ht.2 (path ++ [Step.field "right"]) hl.moved.valid
    have hsome := hl.isSome
    rw [← hr.moved.elsewhere _ (not_below_sibling (by decide) List.prefix_rfl)] at hsome
    have hop : (Tree.node .addOp osp ofields).isKind .addOp = true := rfl
    obtain ⟨s₃, hrun₃, htaken⟩ := combine_run hr.moved.valid path (isNode_of_isTerm ht.1)
      (isNode_of_isTerm ht.2) hop hsome hr.isSome
    refine ⟨s₃, ?_, hl.sum hr hs htaken sp⟩
    change (visit haveScopes (path ++ [Step.field "left"]) left >>= fun _ => _).run s = _
    rw [run_bind_of_ok hrun₁, run_bind_of_ok hrun₂]
    exact hrun₃
  | case5 => cases ht

end Infer

/-! ### Statements -/

namespace Tree

variable {env env' : Environment} {path : List Step} {trace : Trace}

/-- A target of an assignment is a node below the assignment. -/
theorem execute_trace {t : Tree} (he : t.execute env path = some (env', trace)) :
    ∀ e ∈ trace, path <+: e.1 := by
  have hbelow (f : String) : path <+: path ++ [Step.field f] := List.prefix_append _ _
  unfold execute at he
  split at he
  next sp targets value c =>
    obtain ⟨⟨h, tr⟩, hv, he⟩ := Option.bind_eq_some_iff.mp he
    cases he
    refine List.forall_mem_append.mpr ⟨fun e he => ?_, fun e he => ?_⟩
    · exact (hbelow _).trans ((evaluate_trace hv).2 e he)
    · obtain ⟨i, hi, rfl⟩ := List.mem_mapIdx.mp he
      exact List.prefix_append _ _
  next sp value =>
    obtain ⟨⟨h, tr⟩, hv, he⟩ := Option.bind_eq_some_iff.mp he
    cases he
    exact fun e he => (hbelow _).trans ((evaluate_trace hv).2 e he)
  next => cases he

theorem eq_of_isVariable {t : Tree} (h : t.isVariable = true) :
    ∃ sp n rest, t = .node .name sp (.atom (.str n) :: rest) := by
  unfold isVariable at h
  split at h
  next sp n rest => exact ⟨sp, n, rest, rfl⟩
  next => cases h

end Tree

namespace Infer

open Inference

/-- A loop in which the items of a list take values one after the other, and `K` says what is known of
the value that each takes. -/
theorem items_run {path : List Step} (K : Option Literal → Prop) (step : Nat → Tree → Infer Unit)
    (loop : Nat → List Tree → Infer Unit) (hnil : ∀ i s, (loop i []).run s = (.ok (), s))
    (hcons : ∀ i t ts s, t.isVariable = true →
      (loop i (t :: ts)).run s = (step i t >>= fun _ => loop (i + 1) ts).run s)
    (hstep : ∀ i t s, t.isVariable = true → s.Valid →
      ∃ k s', (step i t).run s = (.ok (), s') ∧ Taken (path ++ [Step.item i]) k s s' ∧ K k)
    {ts : List Tree} (ht : ts.all Tree.isVariable = true) : ∀ (i : Nat) {s : Inference}, s.Valid →
      ∃ s', (loop i ts).run s = (.ok (), s') ∧
        Moved (fun p => ∃ j, j < ts.length ∧ p = path ++ [Step.item (i + j)]) s s' ∧
        s'.environments = s.environments ∧
        ∀ j < ts.length, K (s'.known? (path ++ [Step.item (i + j)])) := by
  induction ts with
  | nil =>
    intro i s hs
    exact ⟨s, hnil i s, ⟨hs, .refl _, fun _ _ => rfl⟩, rfl, fun j hj => absurd hj (Nat.not_lt_zero j)⟩
  | cons t ts ih =>
    intro i s hs
    rw [List.all_cons, Bool.and_eq_true] at ht
    obtain ⟨k, s₁, hrun₁, htaken, hk⟩ := hstep i t s ht.1 hs
    obtain ⟨s₂, hrun₂, hmoved, henv, hK⟩ := ih ht.2 (i + 1) htaken.moved.valid
    refine ⟨s₂, ?_, (htaken.moved.trans hmoved).mono ?_, henv.trans htaken.environments, ?_⟩
    · rw [hcons i t ts s ht.1, run_bind_of_ok hrun₁]
      exact hrun₂
    · rintro p (hp | ⟨j, hj, hp⟩)
      · exact ⟨0, Nat.succ_pos _, hp⟩
      · refine ⟨j + 1, Nat.succ_lt_succ hj, ?_⟩
        rw [hp, Nat.add_right_comm]
        rfl
    · rintro (_ | j) hj
      · rw [Nat.add_zero, hmoved.known htaken.moved.valid, htaken.known]
        · exact hk
        · rintro ⟨j, -, heq⟩
          have hij : i = i + 1 + j := by simpa using heq
          omega
      · rw [← Nat.add_assoc, Nat.add_right_comm]
        exact hK j (Nat.lt_of_succ_lt_succ hj)

/-- The targets of an assignment are visited as names. -/
theorem visitItems_run {ts : List Tree} (ht : ts.all Tree.isVariable = true) (haveScopes : Bool)
    (path : List Step) {s : Inference} (hs : s.Valid) :
    ∃ s', (visitItems haveScopes path 0 ts).run s = (.ok (), s') ∧
      Moved (fun p => ∃ j, j < ts.length ∧ p = path ++ [Step.item (0 + j)]) s s' ∧
      s'.environments = s.environments := by
  refine (items_run (fun _ => True) (fun i t => visit haveScopes (path ++ [Step.item i]) t)
    (visitItems haveScopes path) (fun _ _ => rfl) ?_ ?_ ht 0 hs).imp fun s' h => ⟨h.1, h.2.1, h.2.2.1⟩
  · intro i t ts s hv
    obtain ⟨sp, n, rest, rfl⟩ := Tree.eq_of_isVariable hv
    rfl
  · intro i t s hv hs
    obtain ⟨sp, n, rest, rfl⟩ := Tree.eq_of_isVariable hv
    obtain ⟨s', hrun, htaken⟩ := visitName_run hs (path ++ [Step.item i]) n
    rw [← visit_name haveScopes _ sp n rest] at hrun
    exact ⟨_, s', hrun, htaken, trivial⟩

/-- Several targets take values that are not known. -/
theorem assignAll_run {ts : List Tree} (ht : ts.all Tree.isVariable = true) (path : List Step)
    {s : Inference} (hs : s.Valid) : ∃ s', (assignAll path 0 ts).run s = (.ok (), s') ∧
      Moved (fun p => ∃ j, j < ts.length ∧ p = path ++ [Step.item (0 + j)]) s s' ∧
      s'.environments = s.environments ∧
      ∀ j < ts.length, s'.known? (path ++ [Step.item (0 + j)]) = none := by
  refine items_run (· = none) (fun i _ => do setValue (path ++ [Step.item i]) (← fresh .unknown))
    (assignAll path) (fun _ _ => rfl) ?_ ?_ ht 0 hs
  · intro i t ts s hv
    obtain ⟨sp, n, rest, rfl⟩ := Tree.eq_of_isVariable hv
    rfl
  · intro i t s _ hs
    obtain ⟨s', hrun, htaken⟩ := fresh_run hs (path ++ [Step.item i]) ValueInfo.plain_unknown
    exact ⟨_, s', hrun, htaken, rfl⟩

theorem assign_run {s : Inference} (hs : s.environments ≠ []) (n : String) (i : Nat) :
    (assign (.str n) i).run s = (.ok (), s.give n i) := by
  obtain ⟨e, rest, he⟩ := List.exists_cons_of_ne_nil hs
  rw [assign, run_bind_of_ok (environment_run he), give, he]
  change (Except.ok (), { s with environments := _ :: s.environments.tail }) = _
  rw [he]
  rfl

/-- A single target is a name, which takes the value. -/
theorem finishAssign_single {path : List Step} {s : Inference} (hs : s.Valid) {sp : Span} {n : String}
    {rest : List Tree} {value : Tree} (hv : value.isNode = true) {i : Nat}
    (hi : s.valueAt? (path ++ [Step.field "value"]) = some i) :
    (finishAssign path (.list [.node .name sp (.atom (.str n) :: rest)]) value).run s =
      (.ok (), (s.note (path ++ [Step.field "targets", .item 0]) i).give n i) := by
  have hset : (setValue (path ++ [Step.field "targets", .item 0]) i).run s =
      (.ok (), s.note (path ++ [Step.field "targets", .item 0]) i) := rfl
  change (valueOf (path ++ [Step.field "value"]) value >>= fun i =>
    setValue (path ++ [Step.field "targets", .item 0]) i >>= fun _ => assign (.str n) i).run s = _
  rw [run_bind_of_ok (valueOf_run hv hi), run_bind_of_ok hset]
  exact assign_run (s := s.note _ i) hs.inside n i

/-- The end of an assignment: the targets take the value, and the names too if there is only one. -/
theorem finishAssign_run {path : List Step} {s : Inference} (hs : s.Valid) {targets : List Tree}
    {value : Tree} (hne : targets ≠ []) (ht : targets.all Tree.isVariable = true)
    (hv : value.isNode = true) (hi : (s.valueAt? (path ++ [Step.field "value"])).isSome = true) :
    ∃ s', (finishAssign path (.list targets) value).run s = (.ok (), s') ∧
      Moved (fun p => ∃ j, j < targets.length ∧ p = path ++ [Step.field "targets", .item j]) s s' ∧
      ∀ env (h : Held), s.Matches env → h.Fits (s.known? (path ++ [Step.field "value"])) →
        s'.Matches (env.assign h targets) ∧
        ∀ j < targets.length,
          (h.givenTo targets).Fits (s'.known? (path ++ [Step.field "targets", .item j])) := by
  obtain ⟨i, hi⟩ := Option.isSome_iff_exists.mp hi
  cases targets with
  | nil => exact absurd rfl hne
  | cons t ts =>
    cases ts with
    | nil =>
      rw [List.all_cons, Bool.and_eq_true] at ht
      obtain ⟨sp, n, rest, rfl⟩ := Tree.eq_of_isVariable ht.1
      have hlt := hs.values _ i hi
      have htaken := taken_note hs hlt (path ++ [Step.field "targets", .item 0])
      have hgiven := moved_give htaken.moved.valid hlt n
      have hmoved := (htaken.moved.trans hgiven).mono fun p hp => hp.resolve_right id
      refine ⟨_, finishAssign_single hs hv hi, hmoved.mono ?_, fun env h hmatch hfit => ?_⟩
      · rintro p rfl
        exact ⟨0, Nat.one_pos, rfl⟩
      · rw [known?, hi, Option.bind_some] at hfit
        refine ⟨(hmatch.of_moved hs htaken.moved htaken.environments).give hs.inside hfit n, ?_⟩
        intro j hj
        obtain rfl : j = 0 := Nat.lt_one_iff.mp hj
        rw [hgiven.known htaken.moved.valid id, htaken.known]
        exact hfit
    | cons u us =>
      obtain ⟨s', hrun, hmoved, henv, hnone⟩ := assignAll_run ht (path ++ [Step.field "targets"]) hs
      refine ⟨s', hrun, hmoved.mono ?_, fun env h hmatch _ => ?_⟩
      · rintro p ⟨j, hj, rfl⟩
        exact ⟨j, hj, by simp⟩
      · refine ⟨(hmatch.of_moved hs hmoved henv).share_all _ h.value, fun j hj => ?_⟩
        have hj := hnone j hj
        rw [Nat.zero_add, List.append_assoc, List.singleton_append] at hj
        rw [hj]
        exact Held.fits_shared h.value

theorem visitItems_node {haveScopes : Bool} {path : List Step} {i : Nat} {t : Tree}
    (ht : t.isNode = true) (ts : List Tree) :
    visitItems haveScopes path i (t :: ts) =
      (visit haveScopes (path ++ [Step.item i]) t >>= fun _ =>
        visitItems haveScopes path (i + 1) ts) := by
  cases t with
  | node k sp fs => rfl
  | atom a => cases ht
  | list items => cases ht

theorem visitFields_list (haveScopes : Bool) (path : List Step) (f : String) (names : List String)
    (items fields : List Tree) : visitFields haveScopes path (f :: names) (.list items :: fields) =
      (visitItems (haveScopes && f != "type_comment") (path ++ [Step.field f]) 0 items >>= fun _ =>
        visitFields haveScopes path names fields) := rfl

theorem visitFields_node (haveScopes : Bool) (path : List Step) (f : String) (names : List String)
    {t : Tree} (ht : t.isNode = true) (fields : List Tree) :
    visitFields haveScopes path (f :: names) (t :: fields) =
      (visit (haveScopes && f != "type_comment") (path ++ [Step.field f]) t >>= fun _ =>
        visitFields haveScopes path names fields) := by
  cases t with
  | node k sp fs => rfl
  | atom a => cases ht
  | list items => cases ht

/-- The visit of an assignment does what the run of it does. -/
theorem visit_assign {targets : List Tree} {value : Tree} (hne : targets ≠ [])
    (ht : targets.all Tree.isVariable = true) (hv : value.isTerm = true) (haveScopes : Bool)
    (path : List Step) (sp : Span) (c : Atom) {s : Inference} (hs : s.Valid) :
    ∃ s', (visit haveScopes path (.node .assign sp [.list targets, value, .atom c])).run s =
        (.ok (), s') ∧
      Moved (path <+: ·) s s' ∧ ∀ env h trace, s.Matches env →
        value.evaluate env (path ++ [Step.field "value"]) = some (h, trace) →
          s'.Matches (env.assign h targets) ∧ s.Records s' (trace ++ targets.mapIdx fun i _ =>
            (path ++ [Step.field "targets", .item i], h.givenTo targets)) := by
  have hnode := isNode_of_isTerm hv
  obtain ⟨s₁, hrun₁, hmoved₁, henv₁⟩ :=
    visitItems_run ht (haveScopes && "targets" != "type_comment") (path ++ [Step.field "targets"]) hs
  obtain ⟨s₂, hrun₂, hvisited⟩ :=
    visit_term hv (haveScopes && "value" != "type_comment") (path ++ [Step.field "value"]) hmoved₁.valid
  have hmoved₂ := hvisited.moved
  obtain ⟨s₃, hrun₃, hmoved₃, hfinish⟩ := finishAssign_run hmoved₂.valid hne ht hnode hvisited.isSome
  have hmoved₁' := hmoved₁.mono (Q := fun p => ∃ j, j < targets.length ∧
      p = path ++ [Step.field "targets", .item j]) (by
    rintro p ⟨j, hj, rfl⟩
    exact ⟨j, hj, by simp⟩)
  refine ⟨s₃, ?_, ((hmoved₁'.trans hmoved₂).trans hmoved₃).mono ?_, ?_⟩
  · have hfields : (visitFields haveScopes path Kind.assign.fields
        [.list targets, value, .atom c]).run s = (.ok (), s₂) := by
      change (visitFields haveScopes path ["targets", "value", "type_comment"] _).run s = _
      rw [visitFields_list, run_bind_of_ok hrun₁, visitFields_node _ _ _ _ hnode, run_bind_of_ok hrun₂]
      rfl
    change (visitFields haveScopes path Kind.assign.fields _ >>= fun _ =>
      finishAssign path _ _).run s = _
    rw [run_bind_of_ok hfields]
    exact hrun₃
  · rintro p ((⟨j, -, rfl⟩ | hp) | ⟨j, -, rfl⟩)
    · exact List.prefix_append _ _
    · exact (List.prefix_append _ _).trans hp
    · exact List.prefix_append _ _
  · intro env h trace hmatch he
    have hmatch₁ := hmatch.of_moved hs hmoved₁ henv₁
    have hrec := hvisited.records env h trace hmatch₁ he
    obtain ⟨hself, htrace⟩ := Tree.evaluate_trace he
    obtain ⟨hmatch₃, hfits⟩ := hfinish env h
      (hmatch₁.of_moved hmoved₁.valid hmoved₂ hvisited.environments) (hrec.fits _ hself)
    refine ⟨hmatch₃, hrec.between hmoved₁' hmoved₂.valid hmoved₃ ?_ ?_ ?_⟩
    · rintro e he ⟨j, -, heq⟩
      refine not_below_sibling (by decide) (htrace e he) (g := "targets") ?_
      rw [heq]
      exact ⟨[.item j], by simp⟩
    · rintro p ⟨j, hj, rfl⟩
      exact ⟨_, List.mem_mapIdx.mpr ⟨j, hj, rfl⟩⟩
    · intro e he
      obtain ⟨j, hj, rfl⟩ := List.mem_mapIdx.mp he
      exact hfits j hj

/-- The visit of a statement does what the run of the statement does. -/
theorem visit_statement {t : Tree} (ht : t.isStraight = true) (haveScopes : Bool) (path : List Step)
    {s : Inference} (hs : s.Valid) :
    ∃ s', (visit haveScopes path t).run s = (.ok (), s') ∧ Moved (path <+: ·) s s' ∧
      ∀ env env' trace, s.Matches env → t.execute env path = some (env', trace) →
        s'.Matches env' ∧ s.Records s' trace := by
  unfold Tree.isStraight at ht
  split at ht
  next sp targets value c =>
    rw [Bool.and_eq_true, Bool.and_eq_true, Bool.not_eq_true', List.isEmpty_eq_false_iff] at ht
    obtain ⟨⟨hne, htargets⟩, hvalue⟩ := ht
    obtain ⟨s', hrun, hmoved, hrec⟩ := visit_assign hne htargets hvalue haveScopes path sp c hs
    refine ⟨s', hrun, hmoved, fun env env' trace hmatch he => ?_⟩
    obtain ⟨⟨h, tr⟩, hv, he⟩ := Option.bind_eq_some_iff.mp he
    cases he
    exact hrec env h tr hmatch hv
  next sp value =>
    obtain ⟨s', hrun, hvisited⟩ :=
      visit_term ht (haveScopes && "value" != "type_comment") (path ++ [Step.field "value"]) hs
    refine ⟨s', ?_, hvisited.moved.mono fun p hp => (List.prefix_append _ _).trans hp, ?_⟩
    · change (visitFields haveScopes path ["value"] [value]).run s = _
      rw [visitFields_node _ _ _ _ (isNode_of_isTerm ht), run_bind_of_ok hrun]
      rfl
    · intro env env' trace hmatch he
      obtain ⟨⟨h, tr⟩, hv, he⟩ := Option.bind_eq_some_iff.mp he
      cases he
      exact ⟨hmatch.of_moved hs hvisited.moved hvisited.environments, hvisited.records env h _ hmatch hv⟩
  next => cases ht

/-- The visit of some statements does what their run does. -/
theorem visit_statements {ts : List Tree} (ht : ts.all Tree.isStraight = true) (haveScopes : Bool)
    (path : List Step) : ∀ (i : Nat) {s : Inference}, s.Valid →
      ∃ s', (visitItems haveScopes path i ts).run s = (.ok (), s') ∧
        Moved (fun p => ∃ j, i ≤ j ∧ path ++ [Step.item j] <+: p) s s' ∧
        ∀ env trace, s.Matches env → Tree.executeAll env path i ts = some trace →
          s.Records s' trace := by
  induction ts with
  | nil =>
    intro i s hs
    refine ⟨s, rfl, ⟨hs, .refl _, fun _ _ => rfl⟩, fun env trace _ he => ?_⟩
    cases he
    exact ⟨fun _ => Or.inl rfl, fun e he => by cases he⟩
  | cons t ts ih =>
    intro i s hs
    rw [List.all_cons, Bool.and_eq_true] at ht
    obtain ⟨s₁, hrun₁, hmoved₁, hrec₁⟩ := visit_statement ht.1 haveScopes (path ++ [Step.item i]) hs
    obtain ⟨s₂, hrun₂, hmoved₂, hrec₂⟩ := ih ht.2 (i + 1) hmoved₁.valid
    refine ⟨s₂, ?_, (hmoved₁.trans hmoved₂).mono ?_, fun env trace hmatch he => ?_⟩
    · rw [visitItems_node (isNode_of_isStraight ht.1) ts, run_bind_of_ok hrun₁]
      exact hrun₂
    · rintro p (hp | ⟨j, hj, hp⟩)
      · exact ⟨i, Nat.le_refl _, hp⟩
      · exact ⟨j, Nat.le_of_succ_le hj, hp⟩
    · obtain ⟨⟨env', tr⟩, hv, he⟩ := Option.bind_eq_some_iff.mp he
      obtain ⟨rest, hrest, he⟩ := Option.bind_eq_some_iff.mp he
      cases he
      obtain ⟨hmatch', hrec⟩ := hrec₁ env env' tr hmatch hv
      refine hrec.append (hrec₂ env' rest hmatch' hrest) hmoved₁.valid hmoved₂ ?_
      rintro e he ⟨j, hj, hp⟩
      refine Tree.not_both_below (fun h => ?_) (Tree.execute_trace hv e he) hp
      have hij : i = j := by injection h
      omega

end Infer

namespace Tree

open Inference

/-- Inference of straight-line code comes to its end. When the code can be run, what is known of a node
is known of one that takes a value; it is that value unless the value is outdated, that is, went through
a name that had been assigned alone and then together with others; and whole numbers are known that only
went through names which were assigned alone. -/
theorem infer_known_values {t : Tree} (ht : t.isStraightLine = true) :
    ∃ s, t.infer true = (.ok (), s) ∧ ∀ trace, t.execution = some trace →
      (∀ path w, s.known? path = some w → ∃ h, (path, h) ∈ trace) ∧
      ∀ path h, (path, h) ∈ trace →
        (h.lineage ≠ .outdated → ∀ w, s.known? path = some w → w = .atom h.value) ∧
        (h.lineage = .alone → ∀ n, h.value = .int n → s.known? path = some (.atom (.int n))) := by
  unfold isStraightLine at ht
  split at ht
  next sp body =>
    have hvalid : (⟨Pool.empty, [], [[]]⟩ : Inference).Valid := by
      refine ⟨fun p i h => ?_, fun n i h => ?_, fun i w h => ?_, List.cons_ne_nil _ _⟩
      · cases h
      · cases h
      · simp [Pool.known?, Pool.empty] at h
    obtain ⟨s, hrun, -, hrec⟩ := Infer.visit_statements ht (true && "body" != "type_comment")
      [.field "body"] 0 hvalid
    refine ⟨{ s with environments := s.environments.tail }, ?_, fun trace he => ?_⟩
    · have henter : Infer.enter.run Inference.start = (.ok (), ⟨Pool.empty, [], [[]]⟩) := rfl
      have hfields : (Infer.visitFields true [] Kind.module.fields [.list body, .list []]).run
          ⟨Pool.empty, [], [[]]⟩ = (.ok (), s) := by
        change (Infer.visitFields true [] ["body", "type_ignores"] _).run _ = _
        rw [Infer.visitFields_list]
        exact (run_bind_of_ok hrun).trans rfl
      change (Infer.enter >>= fun _ => Infer.visitFields true [] Kind.module.fields _ >>= fun _ =>
        Infer.leave).run _ = _
      rw [run_bind_of_ok henter, run_bind_of_ok hfields]
      rfl
    · have hrecords := hrec (fun _ => none) trace ⟨fun n h hn => (by cases hn), fun _ _ => rfl⟩ he
      refine ⟨fun path w hw => ?_, fun path h hmem => ?_⟩
      · rcases hrecords.only path with heq | hmem
        · rw [known?] at hw
          change (s.valueAt? path).bind _ = _ at hw
          rw [heq] at hw
          cases hw
        · exact hmem
      · have hfits := hrecords.fits (path, h) hmem
        exact ⟨hfits.right_of_ne, hfits.number⟩
  next => cases ht

/-- A number goes through two names into a sum, a text is joined, and a name that has been assigned
together with another is assigned alone again. -/
theorem infer_known_values_reassigned :
    let sum (l r : Tree) : Tree := .node .binOp (Sample.place 2 4) [l, .node .addOp .absent [], r]
    let t := Sample.module
      [Sample.assign "a" (Sample.constant (.int 40) 1 4) 1 0,
        Sample.assign "b" (sum (Sample.name .load "a" 2 4) (Sample.constant (.int 1) 2 8)) 2 0,
        Sample.assign "s" (sum (Sample.constant (.str "x") 3 4) (Sample.constant (.str "y") 3 10)) 3 0,
        .node .assign (Sample.place 4 0)
          [.list [Sample.name .store "a" 4 0, Sample.name .store "c" 4 4],
            Sample.name .load "s" 4 8, .null],
        Sample.assign "a" (Sample.constant (.int 1) 5 4) 5 0,
        Sample.evaluated (sum (Sample.name .load "b" 6 0) (Sample.name .load "a" 6 4)) 6 0]
    t.isStraightLine = true ∧ ∃ s trace, t.infer true = (.ok (), s) ∧ t.execution = some trace ∧
      ([.field "body", .item 5, .field "value"], ⟨.int 42, .alone⟩) ∈ trace ∧
      ([.field "body", .item 3, .field "value"], ⟨.str "xy", .alone⟩) ∈ trace ∧
      s.known? [.field "body", .item 5, .field "value"] = some (.atom (.int 42)) ∧
      ∀ w, s.known? [.field "body", .item 3, .field "value"] = some w → w = .atom (.str "xy") := by
  intro sum t
  have ht : t.isStraightLine = true := by decide
  have hrun : (t.execution.any fun trace =>
      trace.contains ([.field "body", .item 5, .field "value"], ⟨.int 42, .alone⟩) &&
      trace.contains ([.field "body", .item 3, .field "value"], ⟨.str "xy", .alone⟩)) = true := by
    decide +kernel
  obtain ⟨trace, htrace, hmem⟩ := (Option.any_eq_true _ _).mp hrun
  rw [Bool.and_eq_true, List.contains_iff_mem, List.contains_iff_mem] at hmem
  obtain ⟨s, hinfer, hknown⟩ := infer_known_values ht
  have hnodes := (hknown trace htrace).2
  refine ⟨ht, s, trace, hinfer, htrace, hmem.1, hmem.2, ?_, ?_⟩
  · exact (hnodes _ _ hmem.1).2 rfl 42 rfl
  · exact (hnodes _ _ hmem.2).1 (by decide)

/-- After `x = 1` and `x = y = 2`, a name `x` is still known as one. -/
theorem outdated_after_shared_assignment :
    let t := Sample.module
      [Sample.assign "x" (Sample.constant (.int 1) 1 4) 1 0,
        .node .assign (Sample.place 2 0) [.list [Sample.name .store "x" 2 0, Sample.name .store "y" 2 4],
          Sample.constant (.int 2) 2 8, .null],
        Sample.evaluated (Sample.name .load "x" 3 0) 3 0]
    t.isStraightLine = true ∧ (t.infer true).1.isOk = true ∧
      (t.infer true).2.known? [.field "body", .item 2, .field "value"] = some (.atom (.int 1)) ∧
      ∃ trace, t.execution = some trace ∧
        ([.field "body", .item 2, .field "value"], ⟨.int 2, .outdated⟩) ∈ trace := by
  intro t
  have hrun : (t.execution.any fun trace =>
      trace.contains ([.field "body", .item 2, .field "value"], ⟨.int 2, .outdated⟩)) = true := by
    decide +kernel
  obtain ⟨trace, htrace, hmem⟩ := (Option.any_eq_true _ _).mp hrun
  exact ⟨by decide, by decide +kernel, rfl, trace, htrace, List.contains_iff_mem.mp hmem⟩

end Tree

end ScopeLint
