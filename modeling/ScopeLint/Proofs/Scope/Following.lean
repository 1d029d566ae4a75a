import ScopeLint.Proofs.Scope.Standing

/-! A forest under construction follows the log of the visit, event by event and so through every
block of events. -/

namespace ScopeLint

namespace Scope

/-- Apart from its tables, a scope is what its record tells. -/
structure Matches (s : Scope) (r : Record) : Prop where
  parent : s.parent = r.outer.head?
  owner : s.owner = r.owner
  stars : s.hasStars = r.stars
  globals : ∀ p, s.pending = some p → ∀ n, p.globals.contains n = r.declares n

theorem Matches.of_shell {s t : Scope} {r : Record} (h : t.Matches r) (he : s.shell = t.shell) :
    s.Matches r := by
  simp only [shell, Shell.mk.injEq] at he
  obtain ⟨hp, ho, -, hg, -, hs, -, -⟩ := he
  refine ⟨hp.trans h.parent, ho.trans h.owner, hs.trans h.stars, fun p hsp n => ?_⟩
  rw [hsp, Option.map_some] at hg
  obtain ⟨q, hq, hpq⟩ := Option.map_eq_some_iff.mp hg.symm
  rw [← (Prod.mk.inj hpq).1]
  exact h.globals q hq n

theorem Matches.isModule {s : Scope} {r : Record} (h : s.Matches r) : s.isModule = r.isModule := by
  rw [Scope.isModule, h.owner, Record.isModule]

theorem Matches.isClass {s : Scope} {r : Record} (h : s.Matches r) : s.isClass = r.isClass := by
  rw [Scope.isClass, h.owner, Record.isClass]

end Scope

theorem Tree.not_module_of_opensInner {t : Tree} (h : t.opensInner = true) :
    t.isKind .module = false := by
  rw [opensInner, isFunction, isOneOf, isKind, Bool.or_eq_true] at h
  rw [isKind]
  rcases hk : t.kind? with _ | k
  · rfl
  · rw [hk] at h
    simp only [List.contains_iff_mem, List.mem_cons, List.not_mem_nil, or_false] at h
    rcases h with h | h | h
    · rw [beq_iff_eq] at h
      rw [h]
      rfl
    · rw [h]
      rfl
    · rw [h]
      rfl

/-- The scopes around a scope are those that the log names. -/
theorem Log.Proper.enclosing_eq {L : Log} {f : Forest} (hL : L.Proper) (hf : f.Nested)
    (hsize : f.size = L.size)
    (hparent : ∀ i s, f.scope? i = some s → s.parent = (L.record i).outer.head?) :
    ∀ {i : Nat}, i < L.size → f.enclosing i = i :: (L.record i).outer := by
  intro i
  induction i using Nat.strongRecOn with
  | ind i ih =>
    intro hi
    have hi' : i < f.size := by rw [hsize]; exact hi
    obtain ⟨s, hs⟩ := Forest.scope?_eq_some hi'
    have hpar : f.parent? i = (L.record i).outer.head? := by
      rw [Forest.parent?, hs]
      exact hparent i s hs
    rw [hf.enclosing_eq hi', hpar]
    by_cases h0 : i = 0
    · rw [h0, hL.root_outer]
      rfl
    · obtain ⟨a, ha, ho⟩ := hL.link i (by omega) hi
      rw [ho, List.head?_cons, Option.map_some, Option.getD_some, ih a ha (by omega)]

namespace Workshop

theorem change_ok {α : Type} {w w' : Workshop} {c : Change α} {a : α}
    (h : w.change c = .ok (a, w')) :
    ∃ f, c.exec w.forest = (.ok a, f) ∧ w' = { w with forest := f } := by
  rw [change] at h
  split at h
  next b f he =>
    cases h
    exact ⟨f, he, rfl⟩
  next => cases h

theorem onCurrent_ok {w w' : Workshop} {asked : String} {c : Nat → Change Unit}
    (h : w.onCurrent asked c = .ok w') :
    ∃ i rest f, w.stack = i :: rest ∧ (c i).exec w.forest = (.ok (), f) ∧
      w' = { w with forest := f } := by
  rw [onCurrent] at h
  split at h
  · cases h
  next i rest hs =>
    rcases hc : w.change (c i) with e | ⟨a, v⟩
    · rw [hc] at h
      cases h
    · rw [hc] at h
      cases h
      obtain ⟨f, he, rfl⟩ := change_ok hc
      exact ⟨i, rest, f, hs, he, rfl⟩

theorem leave_ok {w w' : Workshop} {h : Nat} {rest : List Nat} (he : w.step .leave = .ok w')
    (hs : w.stack = h :: rest) :
    ∃ f, (Change.resolve h).exec w.forest = (.ok (), f) ∧ w' = ⟨f, w.stack.tail⟩ := by
  obtain ⟨v, hv, hw'⟩ := except_bind_ok he
  obtain ⟨i, rest', f, hs', hex, rfl⟩ := onCurrent_ok hv
  cases hw'
  obtain ⟨rfl, -⟩ := List.cons.inj (hs.symm.trans hs')
  exact ⟨f, hex, rfl⟩

theorem run_append {w w' : Workshop} {a b : List Event} (h : w.run (a ++ b) = .ok w') :
    ∃ v, w.run a = .ok v ∧ v.run b = .ok w' := by
  rw [run, List.foldlM_append] at h
  exact except_bind_ok h

theorem run_cons {w w' : Workshop} {e : Event} {es : List Event} (h : w.run (e :: es) = .ok w') :
    ∃ v, w.step e = .ok v ∧ v.run es = .ok w' := by
  rw [run, List.foldlM_cons] at h
  exact except_bind_ok h

/-- The run of a scope enters it, does what is inside, and leaves it. -/
theorem run_scope {w w' : Workshop} {owner : Tree} {es : List Event}
    (h : w.run (.enter owner :: es ++ [Event.leave]) = .ok w') :
    ∃ u v, w.step (.enter owner) = .ok u ∧ u.run es = .ok v ∧ v.step .leave = .ok w' := by
  obtain ⟨v, hv, hlast⟩ := run_append h
  obtain ⟨u, hu, hv⟩ := run_cons hv
  obtain ⟨z, hz, hlast⟩ := run_cons hlast
  cases hlast
  exact ⟨u, v, hu, hv, hz⟩

/-- The scope of a module is the first one. -/
theorem run_module {t : Tree} {w : Workshop} {es : List Event}
    (h : start.run (.enter t :: es ++ [Event.leave]) = .ok w) :
    ∃ v, (⟨Forest.empty.push none t, [0]⟩ : Workshop).run es = .ok v ∧ v.step .leave = .ok w := by
  obtain ⟨u, v, hu, hv, hz⟩ := run_scope h
  cases hu
  exact ⟨v, hv, hz⟩

/-- The forest has the scopes of the log, and in their tables what the log tells of every name. -/
structure Follows (w : Workshop) (L : Log) : Prop where
  stack : w.stack = L.stack
  size : w.forest.size = L.size
  proper : L.Proper
  sound : w.forest.Sound
  scope : ∀ i s, w.forest.scope? i = some s → s.Matches (L.record i)
  describes : ∀ n, L.Describes n (w.forest.tables.share n)

namespace Follows

variable {w : Workshop} {L : Log} {h : Nat} {rest : List Nat}

theorem enclosing (hw : w.Follows L) {i : Nat} (hi : i < L.size) :
    w.forest.enclosing i = i :: (L.record i).outer :=
  hw.proper.enclosing_eq hw.sound.nested hw.size (fun i s hs => (hw.scope i s hs).parent) hi

theorem mem_walk (hw : w.Follows L) (hh : h < L.size) (k : Nat) :
    k ∈ w.forest.walk h ↔ k < L.size ∧ (k = h ∨ h ∈ (L.record k).outer) := by
  have hh' : h < w.forest.size := by rw [hw.size]; exact hh
  constructor
  · intro hk
    have hks := Forest.lt_size_of_mem_walk hh' hk
    have hks' : k < L.size := by rwa [← hw.size]
    rw [hw.sound.nested.mem_walk hh' hks, hw.enclosing hks', List.mem_cons] at hk
    exact ⟨hks', hk.imp Eq.symm id⟩
  · rintro ⟨hks, hk⟩
    rw [hw.sound.nested.mem_walk hh' (by rwa [hw.size]), hw.enclosing hks, List.mem_cons]
    exact hk.imp Eq.symm id

theorem top (hw : w.Follows L) (hs : L.stack = h :: rest) : ∃ s, w.forest.scope? h = some s :=
  Forest.scope?_eq_some (by rw [hw.size]; exact (hw.proper.top h rest hs).1)

/-- Only the first scope is a module. -/
theorem moduleOf (hw : w.Follows L) {i : Nat} (hi : i < L.size) : w.forest.moduleOf i = .ok 0 := by
  obtain ⟨m, s, hm, hs, hmod⟩ :=
    hw.sound.rooted.exists_module hw.sound.nested (by rw [hw.size]; exact hi)
  have hms : m < L.size := by rw [← hw.size]; exact Forest.lt_size hs
  by_cases h0 : m = 0
  · rw [hm, h0]
  · have hinner := hw.proper.inner m (by omega) hms
    rw [(hw.scope m s hs).isModule, Record.isModule, Tree.not_module_of_opensInner hinner] at hmod
    cases hmod

theorem isModule_of_scope (hw : w.Follows L) {i : Nat} {s : Scope}
    (hs : w.forest.scope? i = some s) : s.isModule = decide (i = 0) := by
  rw [(hw.scope i s hs).isModule]
  by_cases h0 : i = 0
  · rw [h0, hw.proper.root]
    rfl
  · have hi : i < L.size := by rw [← hw.size]; exact Forest.lt_size hs
    rw [Record.isModule, Tree.not_module_of_opensInner (hw.proper.inner i (by omega) hi)]
    simp [h0]

/-! ### Events -/

/-- A change of the innermost scope that touches neither the tables nor the place of the scope. -/
theorem note (hw : w.Follows L) (hs : L.stack = h :: rest) {g : Scope → Scope} {q : Record → Record}
    (hc : ∀ s, (g s).closed = s.closed) (hp : ∀ s, (g s).pending.isSome = s.pending.isSome)
    (hpar : ∀ s, (g s).parent = s.parent) (hown : ∀ s, (g s).owner = s.owner)
    (ht : (w.forest.update h g).tables = w.forest.tables) (hqo : ∀ r, (q r).owner = r.owner)
    (hqu : ∀ r, (q r).outer = r.outer) (hqs : ∀ r, (q r).occurrences = r.occurrences)
    (hm : ∀ s r, s.Matches r → (g s).Matches (q r)) :
    Follows { w with forest := w.forest.update h g } (L.note q) := by
  have hh := (hw.proper.top h rest hs).1
  refine ⟨?_, ?_, hw.proper.note hqo hqu, hw.sound.update hc hp hpar hown ht, ?_, ?_⟩
  · rw [Log.stack_note]
    exact hw.stack
  · rw [Log.size_note, ← hw.size]
    exact Forest.size_update _ _ _
  · intro i s hi
    rw [Forest.scope?_update] at hi
    rw [Log.record_note hs hh]
    by_cases hih : i = h
    · subst hih
      rw [if_pos rfl] at hi ⊢
      obtain ⟨t, ht', rfl⟩ := Option.map_eq_some_iff.mp hi
      exact hm t _ (hw.scope i t ht')
    · rw [if_neg (Ne.symm hih)] at hi
      rw [if_neg hih]
      exact hw.scope i s hi
  · intro n
    rw [ht]
    refine (hw.describes n).note hw.proper hs hqu fun r => ?_
    rw [Record.sites, hqs, Record.sites]

theorem scope_of_shells (hw : w.Follows L) {f : Forest} (hf : f.shells = w.forest.shells) :
    ∀ i s, f.scope? i = some s → s.Matches (L.record i) := by
  intro i s hs
  have hi : i < w.forest.size := by
    rw [← Forest.size_eq_of_shells hf]
    exact Forest.lt_size hs
  obtain ⟨t, ht⟩ := Forest.scope?_eq_some hi
  exact (hw.scope i t ht).of_shell (Forest.shell_eq_of_shells hf hs ht)

theorem enter (hw : w.Follows L) {owner : Tree} (ho : owner.opensInner = true) (hs : L.stack ≠ [])
    {w' : Workshop} (h : w.step (.enter owner) = .ok w') : w'.Follows (L.step (.enter owner)) := by
  have hw' : w' = ⟨w.forest.push w.stack.head? owner, w.forest.size :: w.stack⟩ := by
    cases h
    rfl
  obtain ⟨a, rest, ha⟩ := List.exists_cons_of_ne_nil hs
  have has := (hw.proper.top a rest ha).1
  have hhead : w.stack.head? = some a := by rw [hw.stack, ha]; rfl
  subst hw'
  rw [hhead]
  refine ⟨?_, ?_, hw.proper.enter ho hs,
    ⟨hw.sound.live.push _ _, ?_, hw.sound.rooted.push _ _, ?_⟩, ?_, ?_⟩
  · rw [hw.size, hw.stack]
    rfl
  · rw [Log.size_enter, ← hw.size]
    exact Forest.size_push _ _ _
  · refine hw.sound.nested.push (fun p hp => ?_) _
    cases hp
    rw [hw.size]
    exact has
  · rw [Forest.tables_push]
    exact hw.sound.distinct
  · intro i s hi
    rw [Forest.scope?_push, hw.size] at hi
    rw [Log.record_enter]
    split_ifs at hi ⊢ with hsize
    · cases hi
      refine ⟨?_, rfl, rfl, fun p hp n => ?_⟩
      · rw [ha]
        rfl
      · cases hp
        rfl
    · exact hw.scope i s hi
  · intro n
    rw [Forest.tables_push]
    refine (hw.describes n).enter owner hw.proper ?_
    have hnone : w.forest.tables.names L.size = [] := by
      simp [Forest.tables, ← hw.size, Forest.scope?_size]
    rw [← Tables.knows_eq_share, Tables.knows, hnone]
    rfl

theorem occur (hw : w.Follows L) {n : String} {x : Site} {w' : Workshop}
    (h : w.step (.occur (some n) x) = .ok w') : w'.Follows (L.step (.occur (some n) x)) := by
  obtain ⟨i, rest, f, hs, he, rfl⟩ := onCurrent_ok h
  rw [hw.stack] at hs
  obtain ⟨s, hsc⟩ := hw.top hs
  obtain ⟨f', he', ht, hsh⟩ := Change.add_yields hw.sound.live hsc n x
  obtain rfl : f' = f := by
    have := he'.symm.trans he
    exact (Prod.mk.inj this).2
  have hh := (hw.proper.top i rest hs).1
  refine ⟨?_, ?_, hw.proper.note (fun _ => rfl) (fun _ => rfl), hw.sound.of_tables hsh ?_, ?_, ?_⟩
  · rw [Log.step, Log.stack_note]
    exact hw.stack
  · rw [Log.step, Log.size_note, ← hw.size]
    exact Forest.size_eq_of_shells hsh
  · rw [ht]
    exact hw.sound.distinct.add _ i n x
  · intro k t hk
    have hm := hw.scope_of_shells hsh k t hk
    rw [Log.step, Log.record_note hs hh]
    split_ifs with hki
    · subst hki
      exact ⟨hm.parent, hm.owner, hm.stars, hm.globals⟩
    · exact hm
  · intro m
    rw [ht, Tables.share_add, hw.isModule_of_scope hsc]
    split_ifs with hmn
    · subst hmn
      rw [Tables.knows_eq_share]
      by_cases h0 : i = 0
      · subst h0
        simpa [Share.add, Log.step] using (hw.describes m).occur_root hw.proper hs
      · simpa [h0, Log.step] using (hw.describes m).occur_inner hw.proper hs h0
    · refine (hw.describes m).note hw.proper hs (fun _ => rfl) fun r => ?_
      rw [Record.sites_met, if_neg hmn, List.append_nil]

theorem leave (hw : w.Follows L) (hs : L.stack = h :: rest) (h0 : h ≠ 0) {w' : Workshop}
    (he : w.step .leave = .ok w') : w'.Follows (L.step .leave) := by
  obtain ⟨f, hex, rfl⟩ := leave_ok he (hw.stack.trans hs)
  obtain ⟨s, hsc⟩ := hw.top hs
  have hh := (hw.proper.top h rest hs).1
  have hm := hw.scope h s hsc
  obtain ⟨-, p, hp⟩ := hw.sound.live.scope hsc
  obtain ⟨t, hroot⟩ := Forest.scope?_eq_some (f := w.forest) (i := 0)
    (by rw [hw.size]; exact hw.proper.pos)
  obtain ⟨f', hex', ht, hsh⟩ | ⟨_, _, e, f', -, hex', -, -⟩ :=
    Change.resolve_cases hw.sound.live hsc hp (hw.moduleOf hh) (Forest.lt_size hroot)
  · obtain rfl : f' = f := (Prod.mk.inj (hex'.symm.trans hex)).2
    have hcons := (Change.conserves_resolve hw.sound.live hw.sound.distinct hsc hp (hw.moduleOf hh)
      (Forest.lt_size hroot)).1
    rw [hex'] at hcons
    refine ⟨?_, ?_, hw.proper.leave hs, hw.sound.of_tables hsh hcons.distinct,
      hw.scope_of_shells hsh, fun n => ?_⟩
    · rw [Log.step, ← hw.stack]
    · exact (Forest.size_eq_of_shells hsh).trans hw.size
    · rw [ht, Tables.share_resolved 0 n hw.sound.distinct, hm.globals p hp]
      refine (hw.describes n).leave hw.proper hs h0 ?_ hm.isClass
        (hw.sound.nested.nodup_walk (Forest.lt_size hsc)) (hw.mem_walk hh)
      rw [hw.isModule_of_scope hsc]
      simp [h0]
  · cases (Prod.mk.inj (hex'.symm.trans hex)).1

theorem declareGlobal (hw : w.Follows L) {names : List Tree} {w' : Workshop}
    (he : w.step (.declareGlobal names) = .ok w') : w'.Follows (L.step (.declareGlobal names)) := by
  obtain ⟨i, rest, f, hs, hex, rfl⟩ := onCurrent_ok he
  rw [hw.stack] at hs
  have hh := (hw.proper.top i rest hs).1
  obtain ⟨r, pre, post, hnames, hex', hr⟩ :=
    Change.exec_declareGlobal hw.sound.live (by rw [hw.size]; exact hh) names
  obtain ⟨rfl, rfl⟩ := Prod.mk.inj (hex'.symm.trans hex)
  obtain rfl : names = pre := by rw [hnames, hr rfl, List.append_nil]
  have ht : (w.forest.update i (Change.declared names)).tables = w.forest.tables :=
    Forest.tables_update_eq (fun _ => rfl) (Change.loose_declared names)
  refine hw.note hs (fun _ => rfl) (fun _ => by simp [Change.declared]) (fun _ => rfl) (fun _ => rfl)
    ht (fun _ => rfl) (fun _ => rfl) (fun _ => rfl) ?_
  intro s r hm
  refine ⟨hm.parent, hm.owner, hm.stars, fun p hp n => ?_⟩
  obtain ⟨q, hq, rfl⟩ := Option.map_eq_some_iff.mp hp
  rw [Change.contains_declared, hm.globals q hq]
  simp [Record.declares]

/-- A change of the innermost scope that the log does not tell of. -/
theorem untold (hw : w.Follows L) {asked : String} {g : Scope → Scope} {w' : Workshop}
    (he : (w.onCurrent asked fun i => Change.update i g) = .ok w')
    (hg : ∀ s, (g s).shell.parent = s.parent ∧ (g s).owner = s.owner ∧ (g s).closed = s.closed ∧
      (g s).pending = s.pending ∧ (g s).names = s.names ∧ (g s).hasStars = s.hasStars) :
    w'.Follows L := by
  obtain ⟨i, rest, f, hs, hex, rfl⟩ := onCurrent_ok he
  rw [hw.stack] at hs
  obtain rfl : w.forest.update i g = f := (Prod.mk.inj hex).2
  rw [← L.note_id]
  refine hw.note hs (fun s => (hg s).2.2.1) (fun s => by rw [(hg s).2.2.2.1]) (fun s => (hg s).1)
    (fun s => (hg s).2.1) ?_ (fun _ => rfl) (fun _ => rfl) (fun _ => rfl) ?_
  · refine Forest.tables_update_eq (fun s => (hg s).2.2.2.2.1) fun s => ?_
    rw [Scope.loose, (hg s).2.2.2.1, Scope.loose]
  · intro s r hm
    refine ⟨(hg s).1.trans hm.parent, (hg s).2.1.trans hm.owner, (hg s).2.2.2.2.2.trans hm.stars, ?_⟩
    rw [(hg s).2.2.2.1]
    exact hm.globals

theorem importsAll (hw : w.Follows L) {w' : Workshop} (he : w.step .importsAll = .ok w') :
    w'.Follows (L.step .importsAll) := by
  obtain ⟨i, rest, f, hs, hex, rfl⟩ := onCurrent_ok he
  rw [hw.stack] at hs
  obtain rfl : (w.forest.update i fun s => { s with hasStars := true }) = f := (Prod.mk.inj hex).2
  refine hw.note hs (fun _ => rfl) (fun _ => rfl) (fun _ => rfl) (fun _ => rfl)
    (Forest.tables_update_eq (fun _ => rfl) fun _ => rfl) (fun _ => rfl) (fun _ => rfl)
    (fun _ => rfl) ?_
  intro s r hm
  exact ⟨hm.parent, hm.owner, rfl, hm.globals⟩

/-- An event inside a scope is followed, and the scope stays the innermost one. -/
theorem plain (hw : w.Follows L) {ok : Tree → Bool} {e : Event} (hp : e.isPlain ok = true)
    {w' : Workshop}
    (he : w.step e = .ok w') : w'.Follows (L.step e) ∧ (L.step e).stack = L.stack := by
  cases e with
  | enter owner => cases hp
  | leave => cases hp
  | occur name x =>
    cases name with
    | none =>
      obtain ⟨i, rest, f, -, hex, -⟩ := onCurrent_ok he
      cases hex
    | some n => exact ⟨hw.occur he, Log.stack_note _⟩
  | declareGlobal names => exact ⟨hw.declareGlobal he, Log.stack_note _⟩
  | importing site => exact ⟨hw.untold he fun _ => ⟨rfl, rfl, rfl, rfl, rfl, rfl⟩, rfl⟩
  | importsAll => exact ⟨hw.importsAll he, Log.stack_note _⟩
  | importsFuture names => exact ⟨hw.untold he fun _ => ⟨rfl, rfl, rfl, rfl, rfl, rfl⟩, rfl⟩
  | fail fault => cases he

/-- A block is followed, and after it the same scopes are open. -/
theorem block {ok : Tree → Bool} {es : List Event} (hes : Block ok es) :
    ∀ {w w' : Workshop} {L : Log}, w.Follows L → L.stack ≠ [] → w.run es = .ok w' →
      w'.Follows (L.run es) ∧ (L.run es).stack = L.stack := by
  induction hes with
  | nil =>
    intro w w' L hw _ he
    cases he
    exact ⟨hw, rfl⟩
  | plain hp =>
    intro w w' L hw _ he
    obtain ⟨v, hv, hrest⟩ := run_cons he
    cases hrest
    exact hw.plain hp hv
  | @append a b _ _ iha ihb =>
    intro w w' L hw hs he
    obtain ⟨v, hv, hrest⟩ := run_append he
    obtain ⟨hva, hsa⟩ := iha hw hs hv
    obtain ⟨hvb, hsb⟩ := ihb hva (by rwa [hsa]) hrest
    rw [Log.run_append]
    exact ⟨hvb, hsb.trans hsa⟩
  | @scope owner es ho _ ih =>
    intro w w' L hw hs he
    obtain ⟨u, v, hu, hv, hy⟩ := run_scope he
    have hue := hw.enter ho hs hu
    obtain ⟨hvf, hvs⟩ := ih hue (List.cons_ne_nil _ _) hv
    have htop : ((L.step (.enter owner)).run es).stack = L.size :: L.stack := hvs
    have hpos : L.size ≠ 0 := Nat.ne_of_gt hw.proper.pos
    rw [Log.run_scope]
    exact ⟨hvf.leave htop hpos hy, congrArg List.tail htop⟩

/-- What every event preserves while a forest follows its log, a block preserves. -/
theorem block_induction {P : Workshop → Log → Prop}
    (hstep : ∀ {w w' : Workshop} {L : Log} {e : Event}, w.Follows L → L.stack ≠ [] →
      w.step e = .ok w' → P w L → P w' (L.step e))
    {ok : Tree → Bool} {es : List Event} (hes : Block ok es) :
    ∀ {w w' : Workshop} {L : Log}, w.Follows L → L.stack ≠ [] → w.run es = .ok w' → P w L →
      P w' (L.run es) := by
  induction hes with
  | nil =>
    intro w w' L _ _ he hP
    cases he
    exact hP
  | plain _ =>
    intro w w' L hw hs he hP
    obtain ⟨v, hv, hrest⟩ := run_cons he
    cases hrest
    exact hstep hw hs hv hP
  | @append a b ha _ iha ihb =>
    intro w w' L hw hs he hP
    obtain ⟨v, hv, hrest⟩ := run_append he
    obtain ⟨hva, hsa⟩ := hw.block ha hs hv
    rw [Log.run_append]
    exact ihb hva (by rwa [hsa]) hrest (iha hw hs hv hP)
  | @scope owner es ho hes ih =>
    intro w w' L hw hs he hP
    obtain ⟨u, v, hu, hv, hy⟩ := run_scope he
    have hue := hw.enter ho hs hu
    obtain ⟨hvf, hvs⟩ := hue.block hes (List.cons_ne_nil _ _) hv
    have hopen : ((L.step (.enter owner)).run es).stack ≠ [] := by
      rw [hvs]
      exact List.cons_ne_nil _ _
    rw [Log.run_scope]
    exact hstep hvf hopen hy (ih hue (List.cons_ne_nil _ _) hv (hstep hw hs hu hP))

/-! ### One name -/

/-- Leaving a scope does to the share of every name what resolving the scope does. -/
theorem share_leave (hw : w.Follows L) (hs : L.stack = h :: rest) {w' : Workshop}
    (he : w.step .leave = .ok w') :
    ∃ s, ∀ n, w'.forest.tables.share n = (w.forest.tables.share n).resolve h s n
      ((L.record h).declares n) 0 (w.forest.walk h) := by
  obtain ⟨f, hex, rfl⟩ := leave_ok he (hw.stack.trans hs)
  obtain ⟨s, hsc⟩ := hw.top hs
  obtain ⟨-, p, hp⟩ := hw.sound.live.scope hsc
  obtain ⟨f', hex', ht, -⟩ | ⟨_, _, e, f', -, hex', -, -⟩ := Change.resolve_cases hw.sound.live hsc hp
    (hw.moduleOf (hw.proper.top h rest hs).1) (by rw [hw.size]; exact hw.proper.pos)
  · obtain rfl : f' = f := (Prod.mk.inj (hex'.symm.trans hex)).2
    refine ⟨s, fun n => ?_⟩
    rw [ht, Tables.share_resolved 0 n hw.sound.distinct, (hw.scope h s hsc).globals p hp]
  · cases (Prod.mk.inj (hex'.symm.trans hex)).1

end Follows

/-- What an event does to the share of a name. -/
inductive ShareStep (L : Log) (n : String) (H H' : Share) : Event → Prop
  | same {e : Event} (hne : ∀ x, e ≠ .occur (some n) x) (h : H' = H) : ShareStep L n H H' e
  | add {i : Nat} {rest : List Nat} {x : Site} (hs : L.stack = i :: rest)
    (h : H' = H.add i (H.knows i || decide (i = 0) || x.tree.isParam) x) :
    ShareStep L n H H' (.occur (some n) x)
  | resolve {i : Nat} {rest : List Nat} {s : Scope} {js : List Nat} (hs : L.stack = i :: rest)
    (h : H' = H.resolve i s n ((L.record i).declares n) 0 js) : ShareStep L n H H' .leave

theorem tables_onCurrent {w w' : Workshop} {asked : String} {g : Scope → Scope}
    (he : (w.onCurrent asked fun i => Change.update i g) = .ok w')
    (hn : ∀ s, (g s).names = s.names) (hl : ∀ s, (g s).loose = s.loose) :
    w'.forest.tables = w.forest.tables := by
  obtain ⟨i, rest, f, hs, hex, rfl⟩ := onCurrent_ok he
  cases hex
  exact Forest.tables_update_eq hn hl

theorem Follows.share_step {w w' : Workshop} {L : Log} {e : Event} (hw : w.Follows L)
    (he : w.step e = .ok w') (n : String) :
    ShareStep L n (w.forest.tables.share n) (w'.forest.tables.share n) e := by
  have hsame (hne : ∀ x, e ≠ .occur (some n) x) (h : w'.forest.tables = w.forest.tables) :
      ShareStep L n (w.forest.tables.share n) (w'.forest.tables.share n) e :=
    .same hne (by rw [h])
  cases e with
  | enter owner =>
    cases he
    exact hsame nofun (Forest.tables_push _ _ _)
  | leave =>
    obtain ⟨v, hv, -⟩ := except_bind_ok he
    obtain ⟨i, rest, f, hs, -⟩ := onCurrent_ok hv
    rw [hw.stack] at hs
    obtain ⟨s, hshare⟩ := hw.share_leave hs he
    exact .resolve hs (hshare n)
  | occur name x =>
    obtain ⟨i, rest, f, hs, hex, rfl⟩ := onCurrent_ok he
    rw [hw.stack] at hs
    cases name with
    | none => cases hex
    | some m =>
      obtain ⟨s, hsc⟩ := hw.top hs
      obtain ⟨f', hex', ht, -⟩ := Change.add_yields hw.sound.live hsc m x
      obtain rfl : f' = f := (Prod.mk.inj (hex'.symm.trans hex)).2
      by_cases hm : n = m
      · subst hm
        refine .add hs ?_
        rw [ht, Tables.share_add, if_pos rfl, hw.isModule_of_scope hsc, Tables.knows_eq_share]
      · refine .same (fun y hy => ?_) (by rw [ht, Tables.share_add, if_neg hm])
        cases hy
        exact hm rfl
  | declareGlobal names =>
    obtain ⟨i, rest, f, hs, hex, rfl⟩ := onCurrent_ok he
    rw [hw.stack] at hs
    obtain ⟨r, pre, post, -, hex', -⟩ := Change.exec_declareGlobal hw.sound.live
      (by rw [hw.size]; exact (hw.proper.top i rest hs).1) names
    obtain rfl : w.forest.update i (Change.declared pre) = f := (Prod.mk.inj (hex'.symm.trans hex)).2
    exact hsame nofun (Forest.tables_update_eq (fun _ => rfl) (Change.loose_declared pre))
  | importing x => exact hsame nofun (tables_onCurrent he (fun _ => rfl) fun _ => rfl)
  | importsAll => exact hsame nofun (tables_onCurrent he (fun _ => rfl) fun _ => rfl)
  | importsFuture names => exact hsame nofun (tables_onCurrent he (fun _ => rfl) fun _ => rfl)
  | fail fault => cases he

end Workshop

end ScopeLint
