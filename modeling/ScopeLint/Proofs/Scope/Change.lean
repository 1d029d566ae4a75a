import ScopeLint.Proofs.Scope.Nesting

/-! What the operations on scopes do to the tables of a forest. An operation on a forest that is open
for changes leaves the shells as they are, and each is given here by the tables that it yields.
Resolving is three loops: the names that are declared global, the names that are loose in the scope,
and the names that are loose below it. Only the second loop can stop with a fault, and then it has
done the whole work for the names before. -/

namespace ScopeLint

namespace Tree

/-- Whether a node is known to bind or delete its name. -/
def writes (t : Tree) : Bool :=
  match t.isWrite with
  | .ok b => b
  | .error _ => false

end Tree

namespace Change

variable {α β : Type}

/-! ### Running a change -/

/-- The outcome of a change, and the forest that it leaves, also when it fails. -/
def exec (c : Change α) (f : Forest) : Except Fault α × Forest := c.run f

@[simp] theorem exec_pure (a : α) (f : Forest) : (pure a : Change α).exec f = (.ok a, f) := rfl

@[simp] theorem exec_get (f : Forest) : (get : Change Forest).exec f = (.ok f, f) := rfl

@[simp] theorem exec_update (i : Nat) (g : Scope → Scope) (f : Forest) :
    (update i g).exec f = (.ok ⟨⟩, f.update i g) := rfl

@[simp] theorem exec_lift_ok (a : α) (f : Forest) :
    (lift (.ok a) : Change α).exec f = (.ok a, f) := rfl

@[simp] theorem exec_lift_error (e : Fault) (f : Forest) :
    (lift (.error e) : Change α).exec f = (.error e, f) := rfl

theorem exec_bind (c : Change α) (g : α → Change β) (f : Forest) :
    (c >>= g).exec f = match c.exec f with
      | (.ok a, f') => (g a).exec f'
      | (.error e, f') => (.error e, f') := by
  simp only [exec, ExceptT.run, bind, ExceptT.bind, ExceptT.mk, StateT.bind]
  rcases c f with ⟨_ | _, f'⟩ <;> rfl

theorem exec_bind_ok {c : Change α} {g : α → Change β} {f f' : Forest} {a : α}
    (h : c.exec f = (.ok a, f')) : (c >>= g).exec f = (g a).exec f' := by
  rw [exec_bind, h]

theorem exec_bind_error {c : Change α} {g : α → Change β} {f f' : Forest} {e : Fault}
    (h : c.exec f = (.error e, f')) : (c >>= g).exec f = (.error e, f') := by
  rw [exec_bind, h]

theorem discard_eq_bind (c : Change α) : (discard c : Change PUnit) = c >>= fun _ => pure ⟨⟩ := by
  simp only [discard, Functor.discard, Functor.mapConst, Function.comp]
  rfl

theorem forM_cons (b : β) (l : List β) (g : β → Change PUnit) :
    (b :: l).forM g = (g b >>= fun _ => l.forM g) := rfl

theorem exec_scope {f : Forest} {i : Nat} {s : Scope} (h : f.scope? i = some s) :
    (scope i).exec f = (.ok s, f) := by
  rw [scope, exec_bind_ok (exec_get f), h]
  rfl

theorem exec_scope_none {f : Forest} {i : Nat} (h : f.scope? i = none) :
    (scope i).exec f = (.error .noElement, f) := by
  rw [scope, exec_bind_ok (exec_get f), h]
  rfl

theorem exec_pending {f : Forest} (hf : f.Live) {i : Nat} {s : Scope} (h : f.scope? i = some s)
    (asked : String) : ∃ p, s.pending = some p ∧ (pending i asked).exec f = (.ok p, f) := by
  obtain ⟨-, p, hp⟩ := hf.scope h
  refine ⟨p, hp, ?_⟩
  rw [pending, exec_bind_ok (exec_scope h), hp]
  rfl

/-! ### Changes of the tables -/

/-- The change succeeds, leaves the shells, and turns the tables into the given ones. -/
def Yields (c : Change α) (f : Forest) (a : α) (T : Tables) : Prop :=
  ∃ f', c.exec f = (.ok a, f') ∧ f'.tables = T ∧ f'.shells = f.shells

theorem Yields.pure {f : Forest} (a : α) : (Pure.pure a : Change α).Yields f a f.tables :=
  ⟨f, rfl, rfl, rfl⟩

theorem Yields.bind {c : Change α} {g : α → Change β} {f : Forest} {a : α} {b : β} {T U : Tables}
    (hc : c.Yields f a T)
    (hg : ∀ f', f'.tables = T → f'.shells = f.shells → (g a).Yields f' b U) :
    (c >>= g).Yields f b U := by
  obtain ⟨f₁, he, ht, hs⟩ := hc
  obtain ⟨f₂, he₂, ht₂, hs₂⟩ := hg f₁ ht hs
  exact ⟨f₂, by rw [exec_bind_ok he, he₂], ht₂, hs₂.trans hs⟩

/-- Looking something up before a change. -/
theorem Yields.of_exec {c : Change α} {g : α → Change β} {f : Forest} {a : α} {b : β} {U : Tables}
    (hc : c.exec f = (.ok a, f)) (hg : (g a).Yields f b U) : (c >>= g).Yields f b U := by
  obtain ⟨f₁, he, ht, hs⟩ := hg
  exact ⟨f₁, by rw [exec_bind_ok hc, he], ht, hs⟩

theorem Yields.of_alike {g : Forest → Forest} {f : Forest} (h : (g f).Alike f) :
    (modify g : Change PUnit).Yields f ⟨⟩ f.tables :=
  ⟨g f, rfl, h.tables, h.shells⟩

theorem Yields.discard {c : Change α} {f : Forest} {a : α} {T : Tables} (h : c.Yields f a T) :
    (discard c : Change PUnit).Yields f ⟨⟩ T := by
  rw [discard_eq_bind]
  refine h.bind fun f' ht _ => ?_
  rw [← ht]
  exact Yields.pure _

variable {f : Forest} {i : Nat}

theorem give_yields (hf : f.Live) (hi : i < f.size) (n : String) (l : List Site) (how : String) :
    (give i n l how).Yields f ⟨⟩ (f.tables.give i n l) := by
  obtain ⟨s, hs⟩ := Forest.scope?_eq_some hi
  refine Yields.of_exec (exec_scope hs) ?_
  rw [if_neg (by simp [(hf.scope hs).1])]
  refine ⟨_, rfl, ?_, Forest.shells_update fun s _ => rfl⟩
  rw [Forest.tables_update (t := (f.tables.names i).extend n l) (u := f.tables.loose i) hi]
  · simp [Tables.give]
  · intro s hs
    rw [Forest.tables_names hs]
  · intro s hs
    rw [Forest.tables_loose hs]
    rfl

theorem setUnscoped_yields (hf : f.Live) (hi : i < f.size) (t : Table Site) :
    (setUnscoped i t).Yields f ⟨⟩ (f.tables.setLoose i t) := by
  refine ⟨_, rfl, ?_, Forest.shells_update fun s _ => ?_⟩
  · rw [Forest.tables_update (t := f.tables.names i) (u := t) hi]
    · simp [Tables.setLoose]
    · intro s hs
      rw [Forest.tables_names hs]
    · intro s hs
      obtain ⟨-, p, hp⟩ := hf.scope hs
      simp [Scope.loose, hp]
  · simp only [Scope.shell]
    cases s.pending <;> rfl

theorem loose_eq_unscoped {s : Scope} {p : Pending} (hs : f.scope? i = some s)
    (hp : s.pending = some p) : f.tables.loose i = p.unscoped := by
  rw [Forest.tables_loose hs, Scope.loose, hp]
  rfl

theorem take_yields (hf : f.Live) (hi : i < f.size) (n : String) :
    (take i n).Yields f (f.tables.waits i n) (f.tables.drop i n) := by
  obtain ⟨s, hs⟩ := Forest.scope?_eq_some hi
  obtain ⟨p, hp, hexec⟩ := exec_pending hf hs "unscoped_names"
  have hl := loose_eq_unscoped hs hp
  refine Yields.of_exec hexec ?_
  rw [← hl]
  refine (setUnscoped_yields hf hi _).bind fun f' ht hsh => ?_
  refine Yields.bind (Yields.of_alike (Forest.release_alike f' i n)) fun f'' ht' _ => ?_
  rw [Tables.drop, ← ht, ← ht']
  exact Yields.pure _

/-! ### Settling a name -/

end Change

namespace Tables

/-- What settling a loose name does. A class keeps what comes from the first occurrence on that is
no read; any other scope keeps the name if it is to own it. -/
def settle (T : Tables) (isClass owns : Bool) (i : Nat) (n : String) (l : List Site) : Tables :=
  if isClass then
    let reads := l.takeWhile fun x => x.tree.isRead
    let rest := l.dropWhile fun x => x.tree.isRead
    if rest.isEmpty then T
    else if reads.isEmpty then (T.give i n rest).drop i n
    else (T.give i n rest).keep i n reads
  else if owns then (T.give i n l).drop i n
  else T

/-- What claiming a name that is loose below does. -/
def claim (T : Tables) (isModule isGlobal : Bool) (i below : Nat) (n : String) (l : List Site) :
    Tables :=
  if T.knows i n || isGlobal then (T.give i n l).drop below n
  else if isModule then (T.give below n l).drop below n
  else T

/-- What a name that is declared global does. -/
def send (T : Tables) (i m : Nat) (n : String) : Tables := (T.drop i n).give m n (T.waits i n)

/-- What adding an occurrence does, in the table of the scope or among what is loose in it. -/
def add (T : Tables) (here : Bool) (i : Nat) (n : String) (x : Site) : Tables :=
  if here then T.give i n [x] else T.setLoose i ((T.loose i).extend n [x])

/-! The three loops of resolving a scope. -/

def sendAll (T : Tables) (i m : Nat) (names : List String) : Tables :=
  names.foldl (fun T n => T.send i m n) T

def settleAll (T : Tables) (s : Scope) (i : Nat) (t : Table Site) : Tables :=
  t.foldl (fun T e =>
    T.settle s.isClass (s.isModule || e.2.any fun x => x.tree.writes) i e.1 e.2) T

/-- Claims what is loose in one scope below. -/
def claimFrom (T : Tables) (s : Scope) (i : Nat) (j : Nat) : Tables :=
  (T.loose j).foldl (fun T e => T.claim s.isModule (s.isGlobal e.1) i j e.1 e.2) T

def claimAll (T : Tables) (s : Scope) (i : Nat) (js : List Nat) : Tables :=
  js.foldl (fun T j => T.claimFrom s i j) T

end Tables

namespace Change

variable {f : Forest} {i : Nat}

theorem anyWrite_eq {l : List Site} {b : Bool} (h : anyWrite l = .ok b) :
    b = l.any fun x => x.tree.writes := by
  induction l with
  | nil => simpa [anyWrite, eq_comm] using h
  | cons x rest ih =>
    rw [anyWrite] at h
    rcases hx : x.tree.isWrite with e | w
    · rw [hx] at h
      cases h
    · rw [hx] at h
      cases w with
      | true =>
        have hb : b = true := by cases h; rfl
        simp [hb, Tree.writes, hx]
      | false =>
        have := ih h
        simpa [Tree.writes, hx] using this

theorem give_drop_yields (hf : f.Live) (hi : i < f.size) {j : Nat} (hj : j < f.size) (n : String)
    (l : List Site) (how : String) :
    (give i n l how >>= fun _ => discard (take j n) : Change PUnit).Yields f ⟨⟩
      ((f.tables.give i n l).drop j n) := by
  refine (give_yields hf hi n l how).bind fun f' ht hs => ?_
  rw [← ht]
  exact (take_yields (hf.of_shells hs) (by rwa [Forest.size_eq_of_shells hs]) n).discard

/-- Settling a name succeeds unless it has to look at an occurrence that does not say what it
does. -/
theorem settle_yields {s : Scope} (hf : f.Live) (hs : f.scope? i = some s) {n : String} {l : List Site}
    (hl : s.isClass = false → s.isModule = false → ∃ b, anyWrite l = .ok b) :
    (settle i n l).Yields f ⟨⟩ (f.tables.settle s.isClass
      (s.isModule || l.any fun x => x.tree.writes) i n l) := by
  have hi := Forest.lt_size hs
  refine Yields.of_exec (exec_scope hs) ?_
  rcases hc : s.isClass with _ | _
  · simp only [Tables.settle, Bool.false_eq_true, ↓reduceIte]
    rcases hm : s.isModule with _ | _
    · obtain ⟨b, hb⟩ := hl hc hm
      simp only [Bool.false_eq_true, ↓reduceIte, Bool.false_or, hb, ← anyWrite_eq hb]
      refine Yields.of_exec (exec_lift_ok b f) ?_
      split_ifs
      · exact give_drop_yields hf hi hi n l _
      · exact Yields.pure _
    · simp only [↓reduceIte, Bool.true_or]
      exact Yields.of_exec (exec_pure true f) (give_drop_yields hf hi hi n l _)
  · simp only [Tables.settle, ↓reduceIte]
    by_cases hr : (l.dropWhile fun x => x.tree.isRead).isEmpty = true
    · rw [if_pos hr]
      simp only [hr, ↓reduceIte]
      exact Yields.pure _
    · rw [if_neg hr]
      simp only [hr]
      by_cases hh : (l.takeWhile fun x => x.tree.isRead).isEmpty = true
      · simp only [hh, ↓reduceIte, Bool.false_eq_true]
        exact give_drop_yields hf hi hi n _ _
      · simp only [hh, ↓reduceIte, Bool.false_eq_true]
        refine (give_yields hf hi n _ _).bind fun f' ht hsh => ?_
        have hf' := hf.of_shells hsh
        have hi' : i < f'.size := by rwa [Forest.size_eq_of_shells hsh]
        obtain ⟨s', hs'⟩ := Forest.scope?_eq_some hi'
        obtain ⟨p, hp, hexec⟩ := exec_pending hf' hs' "unscoped_names"
        refine Yields.of_exec hexec ?_
        rw [← loose_eq_unscoped hs' hp]
        refine (setUnscoped_yields hf' hi' _).bind fun f'' ht' _ => ?_
        rw [Tables.keep, ← ht, ← ht']
        exact Yields.of_alike (Forest.release_alike f'' i n)

theorem settle_error {s : Scope} (hs : f.scope? i = some s) (hc : s.isClass = false)
    (hm : s.isModule = false) {n : String} {l : List Site} {e : Fault} (he : anyWrite l = .error e) :
    (settle i n l).exec f = (.error e, f) := by
  rw [settle, exec_bind_ok (exec_scope hs)]
  simp only [hc, hm, Bool.false_eq_true, ↓reduceIte, he]
  exact exec_bind_error (exec_lift_error e f)

theorem isClass_of_shells {g : Forest} (h : g.shells = f.shells) {s t : Scope}
    (hs : f.scope? i = some s) (ht : g.scope? i = some t) : t.isClass = s.isClass := by
  have := congrArg Shell.owner (Forest.shell_eq_of_shells h ht hs)
  simp only [Scope.shell] at this
  rw [Scope.isClass, this, Scope.isClass]

theorem isModule_of_shells {g : Forest} (h : g.shells = f.shells) {s t : Scope}
    (hs : f.scope? i = some s) (ht : g.scope? i = some t) : t.isModule = s.isModule := by
  have := congrArg Shell.owner (Forest.shell_eq_of_shells h ht hs)
  simp only [Scope.shell] at this
  rw [Scope.isModule, this, Scope.isModule]

theorem claim_yields {s : Scope} (hf : f.Live) (hs : f.scope? i = some s) {j : Nat} (hj : j < f.size)
    (n : String) (l : List Site) :
    (claim i j n l).Yields f ⟨⟩ (f.tables.claim s.isModule (s.isGlobal n) i j n l) := by
  have hi := Forest.lt_size hs
  have hknows : f.tables.knows i n = s.names.contains n := by
    rw [Tables.knows, Forest.tables_names hs]
  have hrest : ∀ f' : Forest, f'.tables = f.tables → f'.shells = f.shells →
      (if (s.names.contains n || s.isGlobal n) = true then
          (give i n l "extend" >>= fun _ => discard (take j n))
        else if s.isModule = true then (give j n l "extend" >>= fun _ => discard (take j n))
        else pure () : Change PUnit).Yields f' ⟨⟩
          (f.tables.claim s.isModule (s.isGlobal n) i j n l) := by
    intro f' ht hsh
    have hf' := hf.of_shells hsh
    have hsz := Forest.size_eq_of_shells hsh
    rw [Tables.claim, hknows, ← ht]
    split_ifs
    · exact give_drop_yields hf' (by rwa [hsz]) (by rwa [hsz]) n l _
    · exact give_drop_yields hf' (by rwa [hsz]) (by rwa [hsz]) n l _
    · exact Yields.pure _
  refine Yields.of_exec (exec_scope hs) ?_
  rcases hstar : s.hasStars with _ | _
  · simp only [Bool.false_eq_true, ↓reduceIte]
    exact hrest f rfl rfl
  · simp only [↓reduceIte]
    have halike : (f.update i fun s => s.recordStar n ⟨l, some j⟩).Alike f := by
      apply Forest.update_alike <;> intro s <;> simp only [Scope.recordStar] <;> split_ifs <;> rfl
    exact Yields.bind ⟨_, rfl, halike.tables, halike.shells⟩ hrest

/-! ### Loops -/

section Loops

variable {β : Type} {g : β → Change PUnit}

/-- A loop whose passes each succeed, or fail without a trace, either runs through or stops with the
passes before the failing one done. -/
theorem forM_cases (step : Tables → β → Tables) {l : List β}
    (hg : ∀ b ∈ l, ∀ f', f'.shells = f.shells →
      (g b).Yields f' ⟨⟩ (step f'.tables b) ∨ ∃ e, (g b).exec f' = (.error e, f')) :
    (l.forM g).Yields f ⟨⟩ (l.foldl step f.tables) ∨
      ∃ l₁ l₂ e f', l = l₁ ++ l₂ ∧ (l.forM g).exec f = (.error e, f') ∧
        f'.tables = l₁.foldl step f.tables ∧ f'.shells = f.shells := by
  induction l generalizing f with
  | nil => exact .inl (Yields.pure _)
  | cons b l ih =>
    rw [forM_cons]
    rcases hg b List.mem_cons_self f rfl with ⟨f₁, he, ht, hs⟩ | ⟨e, he⟩
    · have hrest := ih (f := f₁) fun c hc f' hf' =>
        hg c (List.mem_cons_of_mem _ hc) f' (hf'.trans hs)
      rw [exec_bind_ok he, List.foldl_cons, ← ht]
      rcases hrest with ⟨f₂, he₂, ht₂, hs₂⟩ | ⟨l₁, l₂, e, f₂, hl, he₂, ht₂, hs₂⟩
      · exact .inl ⟨f₂, by rw [exec_bind_ok he, he₂], ht₂, hs₂.trans hs⟩
      · refine .inr ⟨b :: l₁, l₂, e, f₂, by rw [hl]; rfl, he₂, ?_, hs₂.trans hs⟩
        rw [ht₂, List.foldl_cons, ← ht]
    · exact .inr ⟨[], b :: l, e, f, rfl, exec_bind_error he, rfl, rfl⟩

theorem forM_yields (step : Tables → β → Tables) {l : List β}
    (hg : ∀ b ∈ l, ∀ f', f'.shells = f.shells → (g b).Yields f' ⟨⟩ (step f'.tables b)) :
    (l.forM g).Yields f ⟨⟩ (l.foldl step f.tables) := by
  induction l generalizing f with
  | nil => exact Yields.pure _
  | cons b l ih =>
    refine (hg b List.mem_cons_self f rfl).bind fun f₁ ht hs => ?_
    rw [List.foldl_cons, ← ht]
    exact ih fun c hc f' hf' => hg c (List.mem_cons_of_mem _ hc) f' (hf'.trans hs)

end Loops

/-! ### Resolving a scope -/

theorem send_yields (hf : f.Live) (hi : i < f.size) {m : Nat} (hm : f.moduleOf i = .ok m)
    (hms : m < f.size) (n : String) :
    (do let sites ← take i n
        let m ← lift ((← get).moduleOf i)
        give m n sites "extend" : Change PUnit).Yields f ⟨⟩ (f.tables.send i m n) := by
  refine (take_yields hf hi n).bind fun f' ht hs => ?_
  refine Yields.of_exec (exec_get f') ?_
  rw [Forest.moduleOf_of_frame (Forest.frame_of_shells hs), hm]
  refine Yields.of_exec (exec_lift_ok m f') ?_
  rw [Tables.send, ← ht]
  exact give_yields (hf.of_shells hs) (by rwa [Forest.size_eq_of_shells hs]) n _ _

theorem giveStray_yields (hf : f.Live) {m : Nat} (hm : m < f.size) (a : Atom) :
    (giveStray m a).Yields f ⟨⟩ f.tables := by
  obtain ⟨s, hs⟩ := Forest.scope?_eq_some hm
  refine Yields.of_exec (exec_scope hs) ?_
  simp only [(hf.scope hs).1, Bool.false_eq_true, ↓reduceIte]
  split_ifs
  · have halike : (f.update m fun s => { s with strays := s.strays ++ [(s.names.length, a)] }).Alike f :=
      Forest.update_alike (fun _ => rfl) (fun _ => rfl) (fun _ => rfl)
    exact ⟨_, rfl, halike.tables, halike.shells⟩
  · exact Yields.pure _

theorem settle_cases {s : Scope} (hf : f.Live) (hs : f.scope? i = some s) (n : String) (l : List Site) :
    (settle i n l).Yields f ⟨⟩ (f.tables.settle s.isClass
      (s.isModule || l.any fun x => x.tree.writes) i n l) ∨
      ∃ e, (settle i n l).exec f = (.error e, f) := by
  by_cases hl : s.isClass = false → s.isModule = false → ∃ b, anyWrite l = .ok b
  · exact .inl (settle_yields hf hs hl)
  · push Not at hl
    obtain ⟨hc, hm, hb⟩ := hl
    rcases hw : anyWrite l with e | b
    · exact .inr ⟨e, settle_error hs hc hm hw⟩
    · exact absurd hw (hb b)

theorem claimFrom_yields {s : Scope} (hf : f.Live) (hs : f.scope? i = some s) {j : Nat}
    (hj : j < f.size) :
    (do let p ← pending j "unscoped_names"
        p.unscoped.forM fun (name, sites) => claim i j name sites : Change PUnit).Yields f ⟨⟩
      (f.tables.claimFrom s i j) := by
  obtain ⟨t, ht⟩ := Forest.scope?_eq_some hj
  obtain ⟨p, hp, hexec⟩ := exec_pending hf ht "unscoped_names"
  refine Yields.of_exec hexec ?_
  rw [Tables.claimFrom, loose_eq_unscoped ht hp]
  refine forM_yields (fun T (e : String × List Site) =>
    T.claim s.isModule (s.isGlobal e.1) i j e.1 e.2) ?_
  rintro ⟨n, l⟩ - f' hs'
  have hi' : i < f'.size := by rw [Forest.size_eq_of_shells hs']; exact Forest.lt_size hs
  obtain ⟨s', hsc⟩ := Forest.scope?_eq_some hi'
  have hmod := isModule_of_shells hs' hs hsc
  have hglob : s'.isGlobal n = s.isGlobal n := by rw [Scope.isGlobal, hmod, Scope.isGlobal]
  rw [← hmod, ← hglob]
  exact claim_yields (hf.of_shells hs') hsc (by rwa [Forest.size_eq_of_shells hs']) n l

/-- The part of resolving that takes from the scopes below. -/
def claimBelow (i : Nat) : Change PUnit := do
  unless (← scope i).isClass do
    ((← get).walk i).forM fun j => do
      let p ← pending j "unscoped_names"
      p.unscoped.forM fun (name, sites) => claim i j name sites

theorem claimBelow_yields {s : Scope} (hf : f.Live) (hs : f.scope? i = some s) :
    (claimBelow i).Yields f ⟨⟩
      (if s.isClass then f.tables else f.tables.claimAll s i (f.walk i)) := by
  refine Yields.of_exec (exec_scope hs) ?_
  split_ifs with hc
  · exact Yields.pure _
  · refine Yields.of_exec (exec_get f) ?_
    refine forM_yields (fun T j => T.claimFrom s i j) ?_
    intro j hj f' hs'
    have hsz := Forest.size_eq_of_shells hs'
    have hi := Forest.lt_size hs
    obtain ⟨s', hsc⟩ := Forest.scope?_eq_some (f := f') (by rwa [hsz] : i < f'.size)
    have hfrom : f'.tables.claimFrom s i j = f'.tables.claimFrom s' i j := by
      have hmod := isModule_of_shells hs' hs hsc
      simp only [Tables.claimFrom, Scope.isGlobal, hmod]
    rw [hfrom]
    exact claimFrom_yields (hf.of_shells hs') hsc (by rw [hsz]; exact Forest.lt_size_of_mem_walk hi hj)

/-- The tables after a scope has been resolved. -/
def resolved (f : Forest) (i m : Nat) (s : Scope) (names : List String) : Tables :=
  let T := f.tables.sendAll i m names
  let U := T.settleAll s i (T.loose i)
  if s.isClass then U else U.claimAll s i (f.walk i)

/-- The names that are declared global go to the module. -/
theorem sendAll_yields {m : Nat} (hf : f.Live) (hi : i < f.size) (hm : f.moduleOf i = .ok m)
    (hms : m < f.size) (names : List String) :
    (names.forM fun n => do
      let sites ← take i n
      let m ← lift ((← get).moduleOf i)
      give m n sites "extend" : Change PUnit).Yields f ⟨⟩ (f.tables.sendAll i m names) := by
  refine forM_yields (fun T n => T.send i m n) fun n _ f' hs' => ?_
  have hsize := Forest.size_eq_of_shells hs'
  exact send_yields (hf.of_shells hs') (by rwa [hsize])
    (by rw [Forest.moduleOf_of_frame (Forest.frame_of_shells hs'), hm]) (by rwa [hsize]) n

/-- What is declared global without being a name leaves the tables as they are. -/
theorem giveStrays_yields {m : Nat} (hf : f.Live) (hm : f.moduleOf i = .ok m) (hms : m < f.size)
    (strays : List Atom) :
    (strays.forM fun a => do
      giveStray (← lift ((← get).moduleOf i)) a : Change PUnit).Yields f ⟨⟩ f.tables := by
  have hstep := forM_yields (f := f) (l := strays) (fun T _ => T)
    (g := fun a => do giveStray (← lift ((← get).moduleOf i)) a) fun a _ f' hs' => by
      refine Yields.of_exec (exec_get f') ?_
      rw [Forest.moduleOf_of_frame (Forest.frame_of_shells hs'), hm]
      refine Yields.of_exec (exec_lift_ok m f') ?_
      exact giveStray_yields (hf.of_shells hs') (by rwa [Forest.size_eq_of_shells hs']) a
  rwa [List.foldl_fixed] at hstep

/-- Resolving a scope comes to the names that are loose in it. -/
theorem exec_resolve {s : Scope} {p : Pending} {m : Nat} (hf : f.Live) (hs : f.scope? i = some s)
    (hp : s.pending = some p) (hm : f.moduleOf i = .ok m) (hms : m < f.size) :
    ∃ f', (resolve i).exec f = (((f.tables.sendAll i m p.globals).loose i).forM
        (fun (name, sites) => settle i name sites) >>= fun _ => claimBelow i).exec f' ∧
      f'.tables = f.tables.sendAll i m p.globals ∧ f'.shells = f.shells := by
  have hi := Forest.lt_size hs
  obtain ⟨q, hq, hexec⟩ := exec_pending hf hs "global_names"
  obtain rfl : p = q := Option.some.inj (hp.symm.trans hq)
  obtain ⟨f₁, he₁, ht₁, hs₁⟩ := sendAll_yields hf hi hm hms p.globals
  obtain ⟨f₂, he₂, ht₂, hs₂⟩ := giveStrays_yields (hf.of_shells hs₁)
    (by rw [Forest.moduleOf_of_frame (Forest.frame_of_shells hs₁), hm])
    (by rwa [Forest.size_eq_of_shells hs₁]) p.strays
  have ht : f₂.tables = f.tables.sendAll i m p.globals := ht₂.trans ht₁
  have hsh : f₂.shells = f.shells := hs₂.trans hs₁
  obtain ⟨s₂, hsc₂⟩ := Forest.scope?_eq_some (f := f₂)
    (by rwa [Forest.size_eq_of_shells hsh] : i < f₂.size)
  obtain ⟨q, hq, hexec₂⟩ := exec_pending (hf.of_shells hsh) hsc₂ "unscoped_names"
  have hloose : q.unscoped = (f.tables.sendAll i m p.globals).loose i := by
    rw [← loose_eq_unscoped hsc₂ hq, ht]
  refine ⟨f₂, ?_, ht, hsh⟩
  rw [resolve, exec_bind_ok hexec, exec_bind_ok he₁, exec_bind_ok he₂, exec_bind_ok hexec₂, ← hloose]
  rfl

/-- Up to the scopes below, resolving a scope runs through, or stops among the names that are loose in
the scope. -/
theorem settled_cases {s : Scope} {p : Pending} {m : Nat} (hf : f.Live)
    (hs : f.scope? i = some s) (hp : s.pending = some p) (hm : f.moduleOf i = .ok m)
    (hms : m < f.size) :
    (∃ f', (resolve i).exec f = (claimBelow i).exec f' ∧
      f'.tables = (f.tables.sendAll i m p.globals).settleAll s i
        ((f.tables.sendAll i m p.globals).loose i) ∧ f'.shells = f.shells) ∨
      ∃ t₁ t₂ e f', (f.tables.sendAll i m p.globals).loose i = t₁ ++ t₂ ∧
        (resolve i).exec f = (.error e, f') ∧
        f'.tables = (f.tables.sendAll i m p.globals).settleAll s i t₁ ∧ f'.shells = f.shells := by
  have hi := Forest.lt_size hs
  obtain ⟨f₂, he, ht, hsh⟩ := exec_resolve hf hs hp hm hms
  rw [he]
  rcases forM_cases (f := f₂) (l := (f.tables.sendAll i m p.globals).loose i)
    (fun T e => T.settle s.isClass (s.isModule || e.2.any fun x => x.tree.writes) i e.1 e.2)
    (g := fun (name, sites) => settle i name sites)
    (fun e _ f' hs' => by
      obtain ⟨s', hsc⟩ := Forest.scope?_eq_some (f := f')
        (by rwa [Forest.size_eq_of_shells (hs'.trans hsh)] : i < f'.size)
      rw [← isClass_of_shells (hs'.trans hsh) hs hsc, ← isModule_of_shells (hs'.trans hsh) hs hsc]
      exact settle_cases (hf.of_shells (hs'.trans hsh)) hsc e.1 e.2)
    with ⟨f₃, he₃, ht₃, hs₃⟩ | ⟨t₁, t₂, e, f₃, hl, he₃, ht₃, hs₃⟩
  · left
    refine ⟨f₃, exec_bind_ok he₃, ?_, hs₃.trans hsh⟩
    rw [ht₃, ht]
    rfl
  · right
    refine ⟨t₁, t₂, e, f₃, hl, exec_bind_error he₃, ?_, hs₃.trans hsh⟩
    rw [ht₃, ht]
    rfl

/-- When the loose names are settled, resolving a scope runs through. -/
theorem resolve_of_settled {s : Scope} {m : Nat} {names : List String} {f₁ : Forest} (hf : f.Live)
    (hs : f.scope? i = some s) (he : (resolve i).exec f = (claimBelow i).exec f₁)
    (ht : f₁.tables = (f.tables.sendAll i m names).settleAll s i ((f.tables.sendAll i m names).loose i))
    (hsh : f₁.shells = f.shells) : (resolve i).Yields f ⟨⟩ (resolved f i m s names) := by
  have hi : i < f₁.size := by rw [Forest.size_eq_of_shells hsh]; exact Forest.lt_size hs
  obtain ⟨s₁, hsc⟩ := Forest.scope?_eq_some hi
  obtain ⟨f₂, he₂, ht₂, hs₂⟩ := claimBelow_yields (hf.of_shells hsh) hsc
  refine ⟨f₂, he.trans he₂, ?_, hs₂.trans hsh⟩
  have hall : ∀ T : Tables, T.claimAll s₁ i (f₁.walk i) = T.claimAll s i (f.walk i) := by
    intro T
    simp only [Tables.claimAll, Tables.claimFrom, Scope.isGlobal, isModule_of_shells hsh hs hsc,
      Forest.walk_of_frame (Forest.frame_of_shells hsh)]
  rw [ht₂, isClass_of_shells hsh hs hsc, hall, ht]
  rfl

/-- Resolving a scope runs through, or stops among the names that are loose in the scope. -/
theorem resolve_cases {s : Scope} {p : Pending} {m : Nat} (hf : f.Live)
    (hs : f.scope? i = some s) (hp : s.pending = some p) (hm : f.moduleOf i = .ok m)
    (hms : m < f.size) :
    (resolve i).Yields f ⟨⟩ (resolved f i m s p.globals) ∨
      ∃ t₁ t₂ e f', (f.tables.sendAll i m p.globals).loose i = t₁ ++ t₂ ∧
        (resolve i).exec f = (.error e, f') ∧
        f'.tables = (f.tables.sendAll i m p.globals).settleAll s i t₁ ∧ f'.shells = f.shells := by
  refine (settled_cases hf hs hp hm hms).imp_left ?_
  rintro ⟨f₁, he, ht, hsh⟩
  exact resolve_of_settled hf hs he ht hsh

/-- Resolving a scope succeeds when every loose occurrence that has to be looked at says what it
does. -/
theorem resolve_yields {s : Scope} {p : Pending} {m : Nat} (hf : f.Live)
    (hs : f.scope? i = some s) (hp : s.pending = some p) (hm : f.moduleOf i = .ok m)
    (hms : m < f.size)
    (hok : ∀ e ∈ (f.tables.sendAll i m p.globals).loose i, ∃ b, anyWrite e.2 = .ok b) :
    (resolve i).Yields f ⟨⟩ (resolved f i m s p.globals) := by
  have hi := Forest.lt_size hs
  obtain ⟨f₁, he, ht, hsh⟩ := exec_resolve hf hs hp hm hms
  obtain ⟨f₂, he₂, ht₂, hs₂⟩ := forM_yields (f := f₁)
    (fun T e => T.settle s.isClass (s.isModule || e.2.any fun x => x.tree.writes) i e.1 e.2)
    (g := fun (name, sites) => settle i name sites)
    (fun e hmem f' hs' => by
      obtain ⟨s', hsc⟩ := Forest.scope?_eq_some (f := f')
        (by rwa [Forest.size_eq_of_shells (hs'.trans hsh)] : i < f'.size)
      rw [← isClass_of_shells (hs'.trans hsh) hs hsc, ← isModule_of_shells (hs'.trans hsh) hs hsc]
      exact settle_yields (hf.of_shells (hs'.trans hsh)) hsc fun _ _ => hok e hmem)
  rw [ht] at ht₂
  exact resolve_of_settled hf hs (he.trans (exec_bind_ok he₂)) ht₂ (hs₂.trans hsh)

/-! ### Adding and declaring -/

theorem add_yields {s : Scope} (hf : f.Live) (hs : f.scope? i = some s) (n : String) (x : Site) :
    (add i n x).Yields f ⟨⟩
      (f.tables.add (f.tables.knows i n || s.isModule || x.tree.isParam) i n x) := by
  have hi := Forest.lt_size hs
  have hknows : f.tables.knows i n = s.names.contains n := by
    rw [Tables.knows, Forest.tables_names hs]
  refine Yields.of_exec (exec_scope hs) ?_
  rw [Tables.add, hknows]
  split_ifs
  · exact give_yields hf hi n [x] _
  · obtain ⟨p, hp, hexec⟩ := exec_pending hf hs "unscoped_names"
    refine Yields.of_exec hexec ?_
    rw [← loose_eq_unscoped hs hp]
    refine (setUnscoped_yields hf hi _).bind fun f' ht _ => ?_
    rw [← ht]
    exact Yields.of_alike (Forest.forward_alike f' i n [x])

/-- What is pending after a value that stands in a global statement. -/
def declareTree (p : Pending) : Tree → Pending
  | .atom a => declare p a
  | _ => p

/-- A scope with some values of a global statement declared. -/
def declared (names : List Tree) (s : Scope) : Scope :=
  { s with pending := s.pending.map fun p => names.foldl declareTree p }

theorem update_declared_nil (f : Forest) (i : Nat) : f.update i (declared []) = f := by
  have hid : declared [] = id := by
    funext s
    simp [declared]
  rw [Forest.update, hid, List.modify_id]

theorem update_declared_cons (f : Forest) (i : Nat) (t : Tree) (names : List Tree) :
    (f.update i (declared [t])).update i (declared names) = f.update i (declared (t :: names)) := by
  have hcomp : declared names ∘ declared [t] = declared (t :: names) := by
    funext s
    simp [declared, Function.comp_def]
  simp only [Forest.update, List.modify_modify_eq, hcomp]

/-- Declaring names global does so up to the first value that cannot be a name. -/
theorem exec_declareGlobal (hf : f.Live) (hi : i < f.size) (names : List Tree) :
    ∃ r pre post, names = pre ++ post ∧
      (declareGlobal i names).exec f = (r, f.update i (declared pre)) ∧ (r = .ok () → post = []) := by
  obtain ⟨s, hs⟩ := Forest.scope?_eq_some hi
  obtain ⟨p, -, hexec⟩ := exec_pending hf hs "global_names"
  rw [declareGlobal, exec_bind_ok hexec]
  clear hexec hs hf hi
  induction names generalizing f with
  | nil => exact ⟨.ok (), [], [], rfl, by rw [update_declared_nil]; rfl, fun _ => rfl⟩
  | cons t names ih =>
    rw [forM_cons]
    have hstep : ∀ g k : Change PUnit, g.exec f = (.ok ⟨⟩, f.update i (declared [t])) →
        (∃ r pre post, names = pre ++ post ∧ k.exec (f.update i (declared [t])) =
          (r, (f.update i (declared [t])).update i (declared pre)) ∧ (r = .ok () → post = [])) →
        ∃ r pre post, t :: names = pre ++ post ∧
          (g >>= fun _ => k).exec f = (r, f.update i (declared pre)) ∧ (r = .ok () → post = []) := by
      rintro g k hg ⟨r, pre, post, hl, he, hr⟩
      refine ⟨r, t :: pre, post, by rw [hl]; rfl, ?_, hr⟩
      rw [exec_bind_ok hg, ← update_declared_cons f i t pre]
      exact he
    cases t with
    | atom a => exact hstep _ _ rfl ih
    | list items =>
      exact ⟨.error (.notHashable "list"), [], .list items :: names, rfl,
        by rw [update_declared_nil]; rfl, fun h => by cases h⟩
    | node k sp fields =>
      refine hstep _ _ ?_ ih
      have hid : declared [.node k sp fields] = declared [] := by
        funext s
        rfl
      rw [hid, update_declared_nil]
      rfl

theorem contains_declareTree (p : Pending) (t : Tree) (n : String) :
    (declareTree p t).globals.contains n = (p.globals.contains n || t.str? == some n) := by
  cases t with
  | list items => simp [declareTree, Tree.str?]
  | node k s fields => simp [declareTree, Tree.str?]
  | atom a =>
    cases a with
    | str name =>
      simp only [declareTree, declare, Tree.str?]
      split_ifs with hc
      · by_cases hn : name = n
        · subst hn
          simpa using hc
        · simp [hn]
      · by_cases hn : name = n
        · simp [hn]
        · have hne : (name == n) = false := beq_false_of_ne hn
          simp [Ne.symm hn, hne]
    | _ =>
      simp only [declareTree, declare, Tree.str?]
      split_ifs <;> simp

theorem contains_declared (names : List Tree) (p : Pending) (n : String) :
    (names.foldl declareTree p).globals.contains n =
      (p.globals.contains n || (names.filterMap Tree.str?).contains n) := by
  induction names generalizing p with
  | nil => simp
  | cons t names ih =>
    rw [List.foldl_cons, ih, contains_declareTree, List.filterMap_cons]
    rcases t.str? with _ | m
    · simp
    · by_cases hm : m = n
      · simp [hm]
      · have hne : (m == n) = false := beq_false_of_ne hm
        simp [Ne.symm hm, hne]

end Change

end ScopeLint
