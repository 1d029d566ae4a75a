import ScopeLint.Proofs.Scope.Traces

/-! What a scope keeps of its import statements. Of every statement that a scope keeps, each item has
left its trace in the log: a star as such, and any other item as an occurrence of the name that it
binds. -/

namespace ScopeLint

namespace Record

variable {r r' : Record}

/-- Every item of an import statement has left its trace. Of a dotted name the first part is bound. -/
def Tells (r : Record) (x : Site) : Prop :=
  ∃ items, importedItems x.tree = .ok items ∧ ∀ item ∈ items,
    item.boundName = .ok (.atom (.str "*")) ∧ r.stars = true ∨
      ∃ name n, item.boundName = .ok (.atom (.str name)) ∧ name ≠ "*" ∧
        (Text.dottedParts name).head? = some n ∧ x ∈ r.sites n

theorem Tells.extend {x : Site} (h : r.Tells x) (he : r'.Extends r) : r'.Tells x := by
  obtain ⟨items, hitems, hall⟩ := h
  refine ⟨items, hitems, fun item hitem => ?_⟩
  obtain ⟨hb, hstars⟩ | ⟨name, n, hb, hne, hhead, hx⟩ := hall item hitem
  · exact Or.inl ⟨hb, he.stars hstars⟩
  · exact Or.inr ⟨name, n, hb, hne, hhead, mem_sites.mpr (he.occurrences (mem_sites.mp hx))⟩

end Record

/-! ### What statements leave in a scope -/

section Seen

variable {γ : Type} {view : Scope → List γ}

/-- A part of a scope that is empty at first, and that no change of the tables, no declaration of global
names and no freezing touches. -/
structure Scope.Steady (view : Scope → List γ) : Prop where
  shell : ∀ s t : Scope, s.shell = t.shell → view s = view t
  declared : ∀ names s, view (Change.declared names s) = view s
  fresh : ∀ parent owner, view (Scope.fresh parent owner) = []
  frozen : ∀ s : Scope, view s.frozen = view s

theorem Scope.steady_imports : Scope.Steady Scope.imports :=
  ⟨fun _ _ h => congrArg Shell.imports h, fun _ _ => rfl, fun _ _ => rfl, fun _ => rfl⟩

theorem Scope.steady_future : Scope.Steady Scope.future :=
  ⟨fun _ _ h => congrArg Shell.future h, fun _ _ => rfl, fun _ _ => rfl, fun _ => rfl⟩

/-- What an import statement does to the innermost scope, apart from its occurrences. -/
def Event.leaves : Event → Option (Scope → Scope)
  | .importing x => some fun s => { s with imports := s.imports ++ [x] }
  | .importsAll => some fun s => { s with hasStars := true }
  | .importsFuture names =>
    some fun s => { s with future := s.future ++ names.filter fun n => !s.future.any n.valueEq }
  | _ => none

theorem Event.imports_subset (e : Event) (g : Scope → Scope) (hg : e.leaves = some g) (s : Scope) :
    s.imports ⊆ (g s).imports := by
  cases e with
  | importing x =>
    cases hg
    exact List.subset_append_left _ _
  | importsAll | importsFuture names =>
    cases hg
    exact List.Subset.refl _
  | _ => cases hg

theorem Event.future_subset (e : Event) (g : Scope → Scope) (hg : e.leaves = some g) (s : Scope) :
    s.future ⊆ (g s).future := by
  cases e with
  | importsFuture names =>
    cases hg
    exact List.subset_append_left _ _
  | importing x | importsAll =>
    cases hg
    exact List.Subset.refl _
  | _ => cases hg

namespace Forest

variable {f g : Forest}

/-- What is seen of a scope. Of one that is not there it is nothing. -/
def seen (view : Scope → List γ) (f : Forest) (k : Nat) : List γ := ((f.scope? k).map view).getD []

theorem seen_eq {k : Nat} {s : Scope} (hs : f.scope? k = some s) : f.seen view k = view s := by
  rw [seen, hs]
  rfl

theorem seen_of_shells (hv : Scope.Steady view) (h : f.shells = g.shells) (k : Nat) :
    f.seen view k = g.seen view k := by
  have hk : (f.scope? k).map Scope.shell = (g.scope? k).map Scope.shell := by
    rw [← getElem?_shells, ← getElem?_shells, h]
  unfold seen
  cases hf : f.scope? k with
  | none =>
    rw [hf, Option.map_none, eq_comm, Option.map_eq_none_iff] at hk
    rw [hk]
  | some s =>
    rw [hf, Option.map_some, eq_comm, Option.map_eq_some_iff] at hk
    obtain ⟨t, ht, hst⟩ := hk
    rw [ht, Option.map_some, Option.map_some, hv.shell s t hst.symm]

theorem seen_update {i : Nat} {h : Scope → Scope} (hh : ∀ s, view (h s) = view s) (k : Nat) :
    (f.update i h).seen view k = f.seen view k := by
  rw [seen, seen, scope?_update]
  split_ifs
  · rw [Option.map_map]
    congr 2
    funext s
    exact hh s
  · rfl

theorem seen_push (hv : Scope.Steady view) (parent : Option Nat) (owner : Tree) (k : Nat) :
    (f.push parent owner).seen view k = f.seen view k := by
  rw [seen, seen, scope?_push]
  split_ifs with hk
  · rw [hk, scope?_size, Option.map_some, hv.fresh]
    rfl
  · rfl

end Forest

namespace Workshop.Follows

variable {w w' : Workshop} {L : Log} {e : Event} {i : Nat} {rest : List Nat}

/-- An import statement changes the innermost scope only. -/
theorem forest_leaves (hw : w.Follows L) {g : Scope → Scope} (hg : e.leaves = some g)
    (he : w.step e = .ok w') (hs : L.stack = i :: rest) : w'.forest = w.forest.update i g := by
  have hupdate : ∃ asked, w.step e = w.onCurrent asked fun i => Change.update i g := by
    cases e with
    | importing x | importsAll | importsFuture names =>
      cases hg
      exact ⟨_, rfl⟩
    | _ => cases hg
  obtain ⟨asked, hupdate⟩ := hupdate
  rw [hupdate] at he
  obtain ⟨j, rest', f, hs', hex, rfl⟩ := onCurrent_ok he
  obtain ⟨rfl, -⟩ := List.cons.inj (hs.symm.trans (hw.stack.symm.trans hs'))
  cases hex
  rfl

/-- Other events change nothing of it. -/
theorem seen_step (hv : Scope.Steady view) (hw : w.Follows L) (he : w.step e = .ok w')
    (hsame : ∀ g, e.leaves = some g → ∀ s, view (g s) = view s) (k : Nat) :
    w'.forest.seen view k = w.forest.seen view k := by
  cases e with
  | enter owner =>
    cases he
    exact Forest.seen_push hv _ _ k
  | leave =>
    obtain ⟨v, hv', hw'⟩ := except_bind_ok he
    obtain ⟨i, rest, f, hs, hex, rfl⟩ := onCurrent_ok hv'
    cases hw'
    have hi := hw.stack.symm.trans hs
    obtain ⟨s, hsc⟩ := hw.top hi
    obtain ⟨-, p, hp⟩ := hw.sound.live.scope hsc
    obtain ⟨f', hex', -, hsh⟩ | ⟨_, _, e, f', -, hex', -, -⟩ := Change.resolve_cases hw.sound.live hsc hp
      (hw.moduleOf (hw.proper.top i rest hi).1) (by rw [hw.size]; exact hw.proper.pos)
    · obtain rfl : f' = f := (Prod.mk.inj (hex'.symm.trans hex)).2
      exact Forest.seen_of_shells hv hsh k
    · cases (Prod.mk.inj (hex'.symm.trans hex)).1
  | occur name x =>
    obtain ⟨i, rest, f, hs, hex, rfl⟩ := onCurrent_ok he
    cases name with
    | none => cases hex
    | some n =>
      obtain ⟨s, hsc⟩ := hw.top (hw.stack.symm.trans hs)
      obtain ⟨f', hex', -, hsh⟩ := Change.add_yields hw.sound.live hsc n x
      obtain rfl : f' = f := (Prod.mk.inj (hex'.symm.trans hex)).2
      exact Forest.seen_of_shells hv hsh k
  | declareGlobal names =>
    obtain ⟨i, rest, f, hs, hex, rfl⟩ := onCurrent_ok he
    have hi := (hw.proper.top i rest (hw.stack.symm.trans hs)).1
    obtain ⟨r, pre, post, -, hex', -⟩ :=
      Change.exec_declareGlobal hw.sound.live (by rw [hw.size]; exact hi) names
    obtain rfl : w.forest.update i (Change.declared pre) = f := (Prod.mk.inj (hex'.symm.trans hex)).2
    exact Forest.seen_update (hv.declared pre) k
  | importing x | importsAll | importsFuture names =>
    obtain ⟨i, rest, f, hs, hex, rfl⟩ := onCurrent_ok he
    cases hex
    exact Forest.seen_update (hsame _ rfl) k
  | fail fault => cases he

/-- What is never taken away is kept through a block. -/
theorem seen_subset (hv : Scope.Steady view)
    (hgrow : ∀ (e : Event) g, e.leaves = some g → ∀ s, view s ⊆ view (g s)) {ok : Tree → Bool}
    {es : List Event} (hes : Block ok es) (k : Nat) (hw : w.Follows L) (hs : L.stack ≠ [])
    (hrun : w.run es = .ok w') : w.forest.seen view k ⊆ w'.forest.seen view k := by
  refine block_induction (P := fun v _ => w.forest.seen view k ⊆ v.forest.seen view k) ?_ hes hw hs hrun
    (List.Subset.refl _)
  intro v v' L e hfollows hs he hkept
  refine List.Subset.trans hkept ?_
  obtain ⟨i, rest, hstack⟩ := List.exists_cons_of_ne_nil hs
  cases hg : e.leaves with
  | none =>
    rw [hfollows.seen_step hv he (by simp [hg])]
    exact List.Subset.refl _
  | some g =>
    rw [hfollows.forest_leaves hg he hstack]
    unfold Forest.seen
    rw [Forest.scope?_update]
    split_ifs with hk
    · cases v.forest.scope? k with
      | none => exact List.nil_subset _
      | some s => exact hgrow e g hg s
    · exact List.Subset.refl _

end Workshop.Follows

end Seen

/-! ### The import statements of a scope -/

namespace Forest

variable {f : Forest}

/-- The import statements that a scope keeps. -/
def importsOf (f : Forest) (k : Nat) : List Site := ((f.scope? k).map Scope.imports).getD []

theorem importsOf_push (parent : Option Nat) (owner : Tree) (k : Nat) :
    (f.push parent owner).importsOf k = f.importsOf k := seen_push Scope.steady_imports parent owner k

end Forest

namespace Workshop.Follows

variable {w w' : Workshop} {L : Log} {i : Nat} {rest : List Nat}

/-- An import statement is added to the innermost scope. -/
theorem importsOf_importing (hw : w.Follows L) {x : Site} (he : w.step (.importing x) = .ok w')
    (hs : L.stack = i :: rest) (k : Nat) :
    w'.forest.importsOf k = if k = i then w.forest.importsOf k ++ [x] else w.forest.importsOf k := by
  obtain ⟨s, hsc⟩ := hw.top hs
  rw [hw.forest_leaves rfl he hs]
  simp only [Forest.importsOf, Forest.scope?_update]
  by_cases hk : k = i
  · subst hk
    simp [hsc]
  · simp [hk, Ne.symm hk]

/-- No other event changes what the scopes keep of import statements. -/
theorem importsOf_step (hw : w.Follows L) {e : Event} (he : w.step e = .ok w')
    (hne : ∀ x, e ≠ .importing x) (k : Nat) : w'.forest.importsOf k = w.forest.importsOf k := by
  refine hw.seen_step Scope.steady_imports he (fun g hg s => ?_) k
  cases e with
  | importing x => exact absurd rfl (hne x)
  | importsAll | importsFuture names =>
    cases hg
    rfl
  | _ => cases hg

/-- The names of an import statement leave their traces in the innermost scope. -/
theorem tells_items (hw : w.Follows L) (hs : L.stack = i :: rest) {x : Site} {items : List Tree}
    (hitems : importedItems x.tree = .ok items)
    (hrun : w.run (items.map (Tree.importedEvent x)) = .ok w') :
    ((L.run (items.map (Tree.importedEvent x))).record i).Tells x := by
  have hplain : ∀ e ∈ items.map (Tree.importedEvent x), e.isPlain (fun _ => true) = true := by
    intro e he
    obtain ⟨item, -, rfl⟩ := List.mem_map.mp he
    exact Tree.isPlain_importedEvent rfl item
  obtain ⟨hoccur, hstar⟩ := Log.traces_of_plain hplain hs (hw.proper.top i rest hs).1
  refine ⟨items, hitems, fun item hitem => ?_⟩
  have hmem := List.mem_map_of_mem (f := Tree.importedEvent x) hitem
  obtain ⟨hb, he⟩ | ⟨name, n, hb, hne, hhead, he⟩ :=
    Tree.importedEvent_cases (Workshop.clean_of_run hrun _ hmem)
  · exact Or.inl ⟨hb, hstar (he ▸ hmem)⟩
  · exact Or.inr ⟨name, n, hb, hne, hhead, hoccur n x (he ▸ hmem)⟩

end Workshop.Follows

/-- In a tour, every import statement that a scope keeps has been met, and is told by its record. -/
theorem Tour.tells {h : List Step} {es : List Event} {cs os : List Note} (ht : Tour h es cs os) :
    ∀ {w w' : Workshop} {L : Log}, w.Follows L → L.stack ≠ [] → w.run es = .ok w' →
      ∀ k, ∀ y ∈ w'.forest.importsOf k,
        y ∈ w.forest.importsOf k ∨ .importing y ∈ es ∧ ((L.run es).record k).Tells y := by
  induction ht with
  | nil =>
    intro w w' L _ _ hrun k y hy
    cases hrun
    exact Or.inl hy
  | @quiet h e he =>
    intro w w' L hw _ hrun k y hy
    obtain ⟨v, hv, hrest⟩ := Workshop.run_cons hrun
    cases hrest
    refine Or.inl ?_
    rwa [← hw.importsOf_step hv]
    rintro x rfl
    cases he
  | occur n x =>
    intro w w' L hw _ hrun k y hy
    obtain ⟨v, hv, hrest⟩ := Workshop.run_cons hrun
    cases hrest
    refine Or.inl ?_
    rwa [← hw.importsOf_step hv]
    rintro x ⟨⟩
  | @imports h x items cs hitems hes ih =>
    intro w w' L hw hs hrun k y hy
    obtain ⟨v, hv, hrun⟩ := Workshop.run_cons hrun
    have himporting : (Event.importing x).isPlain (fun _ => true) = true := rfl
    obtain ⟨hw', hs'⟩ := hw.plain himporting hv
    rcases ih hw' (by rwa [hs']) hrun k y hy with hy | ⟨hmet, htold⟩
    · obtain ⟨i, rest, hstack⟩ := List.exists_cons_of_ne_nil hs
      rw [hw.importsOf_importing hv hstack] at hy
      split_ifs at hy with hk
      swap
      · exact Or.inl hy
      refine (List.mem_append.mp hy).imp_right fun hy => ?_
      obtain rfl : x = y := (List.mem_singleton.mp hy).symm
      subst hk
      exact ⟨List.mem_cons_self, hw'.tells_items (hs'.trans hstack) hitems hrun⟩
    · exact Or.inr ⟨List.mem_cons_of_mem _ hmet, htold⟩
  | @append h a b cs cs' os os' ha hb iha ihb =>
    intro w w' L hw hs hrun k y hy
    obtain ⟨v, hv, hrun⟩ := Workshop.run_append hrun
    obtain ⟨hv', hsv⟩ := hw.block ha.block hs hv
    rw [Log.run_append]
    rcases ihb hv' (by rwa [hsv]) hrun k y hy with hy | ⟨hmet, htold⟩
    · rcases iha hw hs hv k y hy with hy | ⟨hmet, htold⟩
      · exact Or.inl hy
      · exact Or.inr ⟨List.mem_append_left _ hmet, htold.extend ((L.run a).extends_run b k)⟩
    · exact Or.inr ⟨List.mem_append_right _ hmet, htold⟩
  | @scope h p owner es cs os ho hes ih =>
    intro w w' L hw hs hrun k y hy
    obtain ⟨u, v, hu, hv, hz⟩ := Workshop.run_scope hrun
    have hfollow := hw.enter ho hs hu
    obtain ⟨hvf, -⟩ := hfollow.block hes.block (List.cons_ne_nil _ _) hv
    have hlog : (L.run (.enter owner :: es ++ [Event.leave])).record k =
        ((L.step (.enter owner)).run es).record k := by
      rw [Log.run_scope]
      rfl
    rw [hlog]
    rw [hvf.importsOf_step hz (by simp)] at hy
    rcases ih hfollow (List.cons_ne_nil _ _) hv k y hy with hy | ⟨hmet, htold⟩
    · rw [hw.importsOf_step hu (by simp)] at hy
      exact Or.inl hy
    · exact Or.inr ⟨List.mem_append_left _ (List.mem_cons_of_mem _ hmet), htold⟩

namespace Tree

/-- A visit of a program, up to the point where the module is left. -/
theorem IsProgram.visit {t : Tree} (hp : t.IsProgram) {f : Forest} (hf : t.scopes = .ok f) :
    ∃ es cs os v, t.events .start = .enter t :: es ++ [Event.leave] ∧ Tour [] es cs os ∧
      (⟨Forest.empty.push none t, [0]⟩ : Workshop).run es = .ok v ∧
      (∀ k, t.log.record k = ((Log.empty.step (.enter t)).run es).record k) ∧
      ∀ {γ : Type} {view : Scope → List γ}, Scope.Steady view →
        ∀ k s, f.scope? k = some s → view s = v.forest.seen view k := by
  obtain ⟨-, w, hrun, hscope⟩ := visit_of_scopes hp.module hp.one_module hf
  obtain ⟨es, cs, os, v, hes, ht, hv, hz, hlog⟩ := hp.inner_tour hrun
  obtain ⟨hvf, -⟩ := (Workshop.follows_start hp.module).block ht.block (List.cons_ne_nil _ _) hv
  refine ⟨es, cs, os, v, hes, ht, hv, hlog, fun hview k s hs => ?_⟩
  obtain ⟨u, hu, hsu⟩ := hscope k s hs
  rw [← hvf.seen_step hview hz (by simp [Event.leaves]), Forest.seen_eq hu]
  rcases hsu with rfl | rfl
  · rfl
  · exact hview.frozen u

/-- Every import statement that a scope of a program keeps has been met, and is told by its record. -/
theorem IsProgram.imports_told {t : Tree} (hp : t.IsProgram) {f : Forest} (hf : t.scopes = .ok f)
    {k : Nat} {s : Scope} (hs : f.scope? k = some s) {x : Site} (hx : x ∈ s.imports) :
    .importing x ∈ t.events .start ∧ (t.log.record k).Tells x := by
  obtain ⟨es, cs, os, w, hes, ht, hrun, hlog, hseen⟩ := hp.visit hf
  rw [hseen Scope.steady_imports k s hs] at hx
  have htold := ht.tells (Workshop.follows_start hp.module) (List.cons_ne_nil _ _) hrun k x hx
  rw [Forest.importsOf_push] at htold
  obtain ⟨hmet, htold⟩ := htold.resolve_left List.not_mem_nil
  rw [hes, hlog]
  exact ⟨List.mem_append_left _ (List.mem_cons_of_mem _ hmet), htold⟩

/-! ### The statements of a module -/

/-- A node that stands in a tree outside all inner scopes: in a list of the module or of a plain node, or
in the body of a handler. -/
inductive Holds : Trail → Tree → Site → Prop
  | self (trail : Trail) (t : Tree) : Holds trail t ⟨trail, t⟩
  | field {trail : Trail} {k : Kind} {s : Span} {fields items : List Tree} {f : String} {i : Nat}
      {u : Tree} {x : Site} (hk : k.visitRule = .module ∨ k.visitRule = .plain)
      (hf : (f, .list items) ∈ k.fields.zip fields) (hu : items[i]? = some u)
      (hx : Holds (((trail.inside (.node k s fields)).field f).item i) u x) :
      Holds trail (.node k s fields) x
  | handler {trail : Trail} {s : Span} {type name : Tree} {items : List Tree} {i : Nat} {u : Tree}
      {x : Site} (hu : items[i]? = some u)
      (hx : Holds (((trail.inside (.node .exceptHandler s [type, name, .list items])).field
        "body").item i) u x) :
      Holds trail (.node .exceptHandler s [type, name, .list items]) x

theorem Holds.isNode {trail : Trail} {t : Tree} {x : Site} (h : Holds trail t x)
    (hx : x.tree.isNode = true) : t.isNode = true := by
  cases h with
  | self => exact hx
  | field => rfl
  | handler => rfl

theorem Holds.every {p : Tree → Bool} {trail : Trail} {t : Tree} {x : Site} (h : Holds trail t x)
    (ht : t.every p = true) : x.tree.every p = true := by
  induction h with
  | self => exact ht
  | field _ hf hu _ ih =>
    rw [Tree.every, Bool.and_eq_true, everyOfAll_iff] at ht
    have hitems := ht.2 _ (List.of_mem_zip hf).2
    rw [Tree.every, everyOfAll_iff] at hitems
    exact ih (hitems _ (List.mem_of_getElem? hu))
  | handler hu _ ih =>
    rw [Tree.every, Bool.and_eq_true, everyOfAll_iff] at ht
    have hitems := ht.2 _ (List.mem_cons_of_mem _ (List.mem_cons_of_mem _ List.mem_cons_self))
    rw [Tree.every, everyOfAll_iff] at hitems
    exact ih (hitems _ (List.mem_of_getElem? hu))

/-- Some events stand among others between blocks. -/
def Splits (es part : List Event) : Prop :=
  ∃ pre post, es = pre ++ part ++ post ∧ Block (fun _ => true) pre ∧ Block (fun _ => true) post

namespace Splits

variable {es part : List Event}

theorem refl (es : List Event) : Splits es es := ⟨[], [], by simp, .nil, .nil⟩

theorem trans {more : List Event} (h : Splits es part) (h' : Splits part more) : Splits es more := by
  obtain ⟨pre, post, rfl, hpre, hpost⟩ := h
  obtain ⟨pre', post', rfl, hpre', hpost'⟩ := h'
  exact ⟨pre ++ pre', post' ++ post, by simp, hpre.append hpre', hpost'.append hpost⟩

theorem after {pre : List Event} (hpre : Block (fun _ => true) pre) (h : Splits es part) :
    Splits (pre ++ es) part := by
  obtain ⟨pre', post, rfl, hpre', hpost⟩ := h
  exact ⟨pre ++ pre', post, by simp, hpre.append hpre', hpost⟩

theorem before {post : List Event} (hpost : Block (fun _ => true) post) (h : Splits es part) :
    Splits (es ++ post) part := by
  obtain ⟨pre, post', rfl, hpre, hpost'⟩ := h
  exact ⟨pre, post' ++ post, by simp, hpre, hpost'.append hpost⟩

end Splits

theorem nodeEvents_splits {ts : List Tree} (h : ∀ t ∈ ts, t.Blocks fun _ => true) {u : Tree}
    (hn : u.isNode = true) (trail : Trail) : ∀ {i : Nat} (j : Nat), ts[i]? = some u →
      Splits (nodeEvents trail j ts) (u.events (trail.item (j + i))) := by
  induction ts with
  | nil => intro i j hu; cases hu
  | cons t ts ih =>
    intro i j hu
    have hts : ∀ t ∈ ts, t.Blocks fun _ => true := fun v hv => h v (List.mem_cons_of_mem _ hv)
    rw [nodeEvents]
    cases i with
    | zero =>
      cases hu
      rw [if_pos hn]
      exact (Splits.refl _).before (nodeEvents_block hts _ _)
    | succ i =>
      have hrest := ih hts (j + 1) hu
      rw [Nat.add_right_comm] at hrest
      refine hrest.after ?_
      split_ifs
      · exact (h t List.mem_cons_self).events _
      · exact .nil

theorem itemEvents_splits {ts : List Tree} (h : ∀ t ∈ ts, t.Blocks fun _ => true) {u : Tree}
    (trail : Trail) : ∀ {i : Nat} (j : Nat), ts[i]? = some u →
      Splits (itemEvents trail j ts) (u.events (trail.item (j + i))) := by
  induction ts with
  | nil => intro i j hu; cases hu
  | cons t ts ih =>
    intro i j hu
    have hts : ∀ t ∈ ts, t.Blocks fun _ => true := fun v hv => h v (List.mem_cons_of_mem _ hv)
    rw [itemEvents]
    cases i with
    | zero =>
      cases hu
      exact (Splits.refl _).before (itemEvents_block hts _ _)
    | succ i =>
      have hrest := ih hts (j + 1) hu
      rw [Nat.add_right_comm] at hrest
      exact hrest.after ((h t List.mem_cons_self).events _)

theorem fieldEvents_splits {ts : List Tree} (h : ∀ t ∈ ts, t.Blocks fun _ => true) {f : String}
    {t : Tree} (trail : Trail) : ∀ names : List String, (f, t) ∈ names.zip ts →
      Splits (fieldEvents trail names ts) (t.fieldEvent (trail.field f)) := by
  induction ts with
  | nil => intro names hf; simp at hf
  | cons u ts ih =>
    intro names hf
    have hts : ∀ t ∈ ts, t.Blocks fun _ => true := fun v hv => h v (List.mem_cons_of_mem _ hv)
    cases names with
    | nil => cases hf
    | cons g names =>
      rw [fieldEvents_cons]
      rcases List.mem_cons.mp hf with heq | hf
      · cases heq
        exact (Splits.refl _).before (fieldEvents_block hts _ _)
      · refine (ih hts names hf).after ?_
        have hblock : Block (fun _ => true) (fieldEvents trail [g] [u]) :=
          fieldEvents_block (by simpa using h u List.mem_cons_self) trail [g]
        rw [fieldEvents_cons] at hblock
        simpa [fieldEvents] using hblock

/-- The events of a node in a list of a field. -/
theorem listed_splits {fields items : List Tree} (h : .module ∉ kindsOfAll fields) {f : String}
    {u : Tree} {i : Nat} {names : List String} (hf : (f, .list items) ∈ names.zip fields)
    (hu : items[i]? = some u) (hn : u.isNode = true) (trail : Trail) :
    .module ∉ u.kinds ∧
      Splits (fieldEvents trail names fields) (u.events ((trail.field f).item i)) := by
  have hlist := (List.of_mem_zip hf).2
  have hitems : ∀ v ∈ items, .module ∉ v.kinds := by
    intro v hv hk
    exact h (kinds_subset_of_mem hlist (kinds_subset_of_mem hv hk))
  refine ⟨hitems u (List.mem_of_getElem? hu), ?_⟩
  have hfield := fieldEvents_splits (fun v hv => blocks_of_kinds v
    (fun hk => h (kinds_subset_of_mem hv hk)) (passes_any v)) trail names hf
  refine hfield.trans ?_
  have hnode := nodeEvents_splits (fun v hv => blocks_of_kinds v (hitems v hv) (passes_any v)) hn
    (trail.field f) 0 hu
  rwa [Nat.zero_add] at hnode

/-- The events of a node outside all inner scopes stand among those of the tree between blocks. -/
theorem Holds.splits {trail : Trail} {t : Tree} {x : Site} (h : Holds trail t x)
    (hx : x.tree.isNode = true) (ht : .module ∉ t.kinds) :
    Splits (t.events trail) (x.tree.events x.toTrail) := by
  induction h with
  | self => exact .refl _
  | @field trail k s fields items f i u x hk hf hu hhold ih =>
    have hplain : k.visitRule = .plain := by
      refine hk.resolve_left fun hm => ht ?_
      obtain rfl : k = .module := by cases k <;> first | rfl | cases hm
      exact List.mem_cons_self
    rw [events_plain hplain]
    obtain ⟨hmod, hsplits⟩ := listed_splits (fun hk => ht (List.mem_cons_of_mem _ hk)) hf hu
      (hhold.isNode hx) (trail.inside (.node k s fields))
    exact hsplits.trans (ih hx hmod)
  | @handler trail s type name items i u x hu hhold ih =>
    have hkinds : ∀ v ∈ [type, name, .list items], .module ∉ v.kinds := by
      intro v hv hk
      exact ht (List.mem_cons_of_mem _ (kinds_subset_of_mem hv hk))
    have hitems : ∀ v ∈ items, .module ∉ v.kinds := by
      intro v hv hk
      exact hkinds (.list items) (by simp) (kinds_subset_of_mem hv hk)
    have hblocks : ∀ v ∈ [type, name, .list items], v.Blocks fun _ => true := fun v hv =>
      blocks_of_kinds v (hkinds v hv) (passes_any v)
    have hbody := itemEvents_splits (fun v hv => blocks_of_kinds v (hitems v hv) (passes_any v))
      ((trail.inside (.node .exceptHandler s [type, name, .list items])).field "body") 0 hu
    rw [Nat.zero_add] at hbody
    refine Splits.trans ?_ (ih hx (hitems u (List.mem_of_getElem? hu)))
    refine hbody.after (Block.append ?_ ?_)
    · exact (hblocks type (by simp)).events _
    · exact handlerNameEvents_block rfl _ ((hblocks name (by simp)).events _)

/-- The events of a node of a program outside all inner scopes. -/
theorem IsProgram.splits {t : Tree} (hp : t.IsProgram) {es : List Event}
    (hes : t.events .start = .enter t :: es ++ [Event.leave]) {x : Site} (hx : Holds .start t x)
    (hn : x.tree.isNode = true) (hne : x.tree.isKind .module = false) :
    Splits es (x.tree.events x.toTrail) := by
  have hone := hp.one_module
  have hm := hp.module
  cases hx with
  | self => exact absurd hm (by rw [hne]; exact Bool.false_ne_true)
  | @field trail k sp fields items g i u x hk hg hu hhold =>
    obtain rfl : k = .module := by simpa [isKind, kind?] using hm
    rw [kinds, List.count_cons_self, Nat.add_eq_right, List.count_eq_zero] at hone
    obtain rfl : fieldEvents (Trail.start.inside (.node .module sp fields)) Kind.module.fields fields =
        es := List.append_cancel_right (List.cons.inj hes).2
    obtain ⟨hmod, hsplits⟩ := listed_splits hone hg hu (hhold.isNode hn)
      (Trail.start.inside (.node .module sp fields))
    exact hsplits.trans (hhold.splits hn hmod)
  | handler => cases hm

/-- What an event of a plain statement leaves outside all inner scopes, the module keeps. -/
theorem IsProgram.seen_of_holds {γ : Type} {view : Scope → List γ} (hview : Scope.Steady view)
    (hgrow : ∀ (e : Event) g, e.leaves = some g → ∀ s, view s ⊆ view (g s)) {t : Tree} (hp : t.IsProgram)
    {f : Forest} (hf : t.scopes = .ok f) {s : Scope} (hs : f.scope? 0 = some s) {x : Site}
    (hx : Holds .start t x) (hn : x.tree.isNode = true) (hne : x.tree.isKind .module = false)
    (hplain : ∀ e ∈ x.tree.events x.toTrail, e.isPlain (fun _ => true) = true) {e : Event}
    (he : e ∈ x.tree.events x.toTrail) {g : Scope → Scope} (hg : e.leaves = some g) :
    ∃ u, view (g u) ⊆ view s := by
  obtain ⟨es, cs, os, v, hes, ht, hrun, -, hseen⟩ := hp.visit hf
  rw [hseen hview 0 s hs]
  obtain ⟨pre, post, rfl, hpre, hpost⟩ := hp.splits hes hx hn hne
  obtain ⟨before, after, hevents⟩ := List.append_of_mem he
  rw [hevents] at hplain
  have hbefore : Block (fun _ => true) before :=
    .of_plain fun d hd => hplain d (List.mem_append_left _ hd)
  have hafter : Block (fun _ => true) after :=
    .of_plain fun d hd => hplain d (List.mem_append_right _ (List.mem_cons_of_mem _ hd))
  rw [hevents, List.append_assoc, List.append_assoc, ← List.append_assoc pre] at hrun
  -- The event is met while the module is the innermost scope, and from then on what it leaves is kept.
  obtain ⟨v₁, hfirst, hrun⟩ := Workshop.run_append hrun
  obtain ⟨v₂, hstep, hrun⟩ := Workshop.run_cons hrun
  obtain ⟨hv₁, hs₁⟩ :=
    (Workshop.follows_start hp.module).block (hpre.append hbefore) (List.cons_ne_nil _ _) hfirst
  obtain ⟨hv₂, hs₂⟩ := hv₁.plain (hplain e (List.mem_append_right _ List.mem_cons_self)) hstep
  have hstack : ((Log.empty.step (.enter t)).run (pre ++ before)).stack = [0] := hs₁
  obtain ⟨u, hu⟩ := hv₁.top hstack
  refine ⟨u, ?_⟩
  have hleft : v₂.forest.seen view 0 = view (g u) := by
    rw [hv₁.forest_leaves hg hstep hstack, Forest.seen, Forest.scope?_update, if_pos rfl, hu]
    rfl
  rw [← hleft]
  refine hv₂.seen_subset hview hgrow (hafter.append hpost) 0 ?_ hrun
  rw [hs₂, hstack]
  exact List.cons_ne_nil _ _

/-- An import from a module, by its parts. -/
theorem importFrom_eq {t : Tree} (hk : t.isKind .importFrom = true) (hg : t.every inGrammar = true) :
    ∃ sp module names rest, t = .node .importFrom sp (module :: names :: rest) := by
  cases t with
  | atom a => cases hk
  | list items => cases hk
  | node k sp fields =>
    obtain rfl : k = .importFrom := by simpa [isKind, kind?] using hk
    rw [every, Bool.and_eq_true] at hg
    obtain ⟨module, ts, rfl, -, h⟩ := Slot.fitAll_cons hg.1
    obtain ⟨names, ts, rfl, -, h⟩ := Slot.fitAll_cons h
    exact ⟨sp, module, names, ts, rfl⟩

/-- An import statement of a program outside all inner scopes is kept by the module. -/
theorem IsProgram.mem_imports {t : Tree} (hp : t.IsProgram) {f : Forest} (hf : t.scopes = .ok f)
    {s : Scope} (hs : f.scope? 0 = some s) {x : Site} (hx : Holds .start t x)
    (hk : x.tree.isKind .importFrom = true)
    (hfuture : x.tree.get? "module" ≠ some (.atom (.str "__future__"))) : x ∈ s.imports := by
  obtain ⟨trail, tree⟩ := x
  obtain ⟨sp, module, names, rest, rfl⟩ := importFrom_eq hk (hx.every hp.grammar)
  have hmodule : module.str? ≠ some "__future__" := by
    intro hstr
    rw [eq_of_str? hstr] at hfuture
    exact hfuture rfl
  let here : Tree := .node .importFrom sp (module :: names :: rest)
  have hevents : here.events trail = importEvents ⟨trail, here⟩ names := by
    show (if module.str? = some "__future__" then futureEvents names
      else importEvents ⟨trail, here⟩ names) = _
    rw [if_neg hmodule]
  have hkept := hp.seen_of_holds Scope.steady_imports Event.imports_subset hf hs hx rfl rfl
    (by rw [hevents]; exact importEvents_plain rfl names) (by rw [hevents]; exact List.mem_cons_self) rfl
  obtain ⟨u, hu⟩ := hkept
  exact hu (List.mem_append_right _ List.mem_cons_self)

/-- What a program imports from the future outside all inner scopes, the module keeps. -/
theorem IsProgram.mem_future {t : Tree} (hp : t.IsProgram) {f : Forest} (hf : t.scopes = .ok f)
    {s : Scope} (hs : f.scope? 0 = some s) {x : Site} (hx : Holds .start t x)
    (hk : x.tree.isKind .importFrom = true)
    (hfuture : x.tree.get? "module" = some (.atom (.str "__future__"))) {items : List Tree} {item : Tree}
    {n : String} (hi : importedItems x.tree = .ok items) (hitem : item ∈ items)
    (hn : item.get "name" = .ok (.atom (.str n))) : s.future.any (Atom.valueEq (.str n)) = true := by
  obtain ⟨trail, tree⟩ := x
  obtain ⟨sp, module, names, rest, rfl⟩ := importFrom_eq hk (hx.every hp.grammar)
  obtain rfl : module = .atom (.str "__future__") := Option.some.inj hfuture
  have hevents : (Tree.node .importFrom sp (.atom (.str "__future__") :: names :: rest)).events trail =
      futureEvents names := rfl
  have hitems : names.items = .ok items := hi
  have hmem : Event.importsFuture [.str n] ∈ futureEvents names := by
    rw [futureEvents, hitems]
    refine List.mem_cons_of_mem _ (List.mem_map.mpr ⟨item, hitem, ?_⟩)
    rw [hn]
  have hkept := hp.seen_of_holds Scope.steady_future Event.future_subset hf hs hx rfl rfl
    (by rw [hevents]; exact futureEvents_plain names) (by rw [hevents]; exact hmem) rfl
  obtain ⟨u, hu⟩ := hkept
  rw [List.any_eq_true]
  by_cases hknown : u.future.any (Atom.valueEq (.str n)) = true
  · obtain ⟨a, ha, heq⟩ := List.any_eq_true.mp hknown
    exact ⟨a, hu (List.mem_append_left _ ha), heq⟩
  · refine ⟨.str n, hu (List.mem_append_right _ (List.mem_filter.mpr ⟨List.mem_singleton.mpr rfl, ?_⟩)), ?_⟩
    · simpa using hknown
    · simp [Atom.valueEq, Atom.parts?]

end Tree

end ScopeLint
