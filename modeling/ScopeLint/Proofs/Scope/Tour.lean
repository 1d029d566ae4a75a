import ScopeLint.Project.Import
import ScopeLint.Proofs.Scope.Following
import ScopeLint.Proofs.Tree.Places

/-! A tour is a run of events with an account of it: which nodes open a scope, and which names are
added, each with the way to the node whose scope is the innermost one at that time. The forest and
the log under construction agree with the account. -/

namespace ScopeLint

/-- What an account tells of a node: the way to the node whose scope it lies in, if it lies in one,
the name that is added for it, if it does not open a scope, and the way to it. -/
structure Note where
  home : Option (List Step)
  name : Option String
  path : List Step
  tree : Tree

/-- Events that neither enter nor leave a scope, nor add a name or an import to it. -/
def Event.isQuiet : Event → Bool
  | .declareGlobal _ | .importsAll | .importsFuture _ => true
  | _ => false

/-- The events of a part of a visit inside the scope of the node at `home`, with the names that are
added and the scopes that are opened. -/
inductive Tour : (home : List Step) → List Event → (adds opens : List Note) → Prop
  | nil {h : List Step} : Tour h [] [] []
  | quiet {h : List Step} {e : Event} (he : e.isQuiet = true) : Tour h [e] [] []
  | occur {h : List Step} (n : String) (x : Site) :
      Tour h [.occur (some n) x] [⟨some h, some n, x.path, x.tree⟩] []
  | imports {h : List Step} {x : Site} {items : List Tree} {cs : List Note}
      (hitems : importedItems x.tree = .ok items)
      (hes : Tour h (items.map (Tree.importedEvent x)) cs []) :
      Tour h (.importing x :: items.map (Tree.importedEvent x)) cs []
  | append {h : List Step} {a b : List Event} {cs cs' os os' : List Note} (ha : Tour h a cs os)
      (hb : Tour h b cs' os') : Tour h (a ++ b) (cs ++ cs') (os ++ os')
  | scope {h p : List Step} {owner : Tree} {es : List Event} {cs os : List Note}
      (ho : owner.opensInner = true) (hes : Tour p es cs os) :
      Tour h (.enter owner :: es ++ [.leave]) cs (⟨some h, none, p, owner⟩ :: os)

theorem Tour.block {h : List Step} {es : List Event} {cs os : List Note} (ht : Tour h es cs os) :
    Block (fun _ => true) es := by
  induction ht with
  | nil => exact .nil
  | @quiet h e he => exact .plain (by cases e <;> first | rfl | cases he)
  | occur n x => exact .plain rfl
  | imports _ _ ih => exact .cons rfl ih
  | append _ _ iha ihb => exact iha.append ihb
  | scope ho _ ih => exact .scope ho ih

/-! ### Names that are added -/

namespace Workshop

/-- The name that an event adds, with the scope that it is added to. -/
def adds (w : Workshop) : Event → List (Nat × String × Site)
  | .occur (some n) x => w.stack.head?.toList.map fun i => (i, n, x)
  | _ => []

/-- All names that are added in a run, in order, with the scopes that they are added to. -/
def added (w : Workshop) : List Event → List (Nat × String × Site)
  | [] => []
  | e :: es => w.adds e ++ match w.step e with
    | .ok v => v.added es
    | .error _ => []

theorem added_cons {w v : Workshop} {e : Event} (h : w.step e = .ok v) (es : List Event) :
    w.added (e :: es) = w.adds e ++ v.added es := by
  rw [added, h]

theorem added_append {w v : Workshop} {a : List Event} (h : w.run a = .ok v) (b : List Event) :
    w.added (a ++ b) = w.added a ++ v.added b := by
  induction a generalizing w with
  | nil =>
    cases h
    rfl
  | cons e a ih =>
    obtain ⟨u, hu, h⟩ := run_cons h
    rw [List.cons_append, added_cons hu, added_cons hu, ih h, List.append_assoc]

/-- The names that are added between entering and leaving a scope are those that are added inside. -/
theorem added_scope {w u v w' : Workshop} {owner : Tree} {es : List Event}
    (hu : w.step (.enter owner) = .ok u) (hv : u.run es = .ok v) (hz : v.step .leave = .ok w') :
    w.added (.enter owner :: es ++ [Event.leave]) = u.added es := by
  have hlast : v.added [Event.leave] = [] := by
    rw [added_cons hz]
    rfl
  rw [List.cons_append, added_cons hu, added_append hv, hlast, List.append_nil]
  rfl

end Workshop

/-- The note for a name that is added, where the scopes belong to the nodes at some ways. -/
def Note.ofAdded (ways : List (List Step)) (a : Nat × String × Site) : Note :=
  ⟨ways[a.1]?, some a.2.1, a.2.2.path, a.2.2.tree⟩

/-! ### Scopes that are opened -/

namespace Log

variable {L : Log}

/-- The owners of the scopes and the scopes around them. -/
def shape (L : Log) : List (Tree × List Nat) := L.records.map fun r => (r.owner, r.outer)

theorem shape_note {g : Record → Record} (hg : ∀ r, (g r).owner = r.owner ∧ (g r).outer = r.outer) :
    (L.note g).shape = L.shape := by
  rw [note]
  split
  · rfl
  · next i _ _ =>
    rw [shape, shape]
    apply List.ext_getElem?
    intro k
    simp only [List.getElem?_map, List.getElem?_modify]
    cases L.records[k]? with
    | none => rfl
    | some r => by_cases hik : i = k <;> simp [hik, hg]

/-- Only entering a scope changes the shape. -/
theorem shape_step {e : Event} (he : ∀ owner, e ≠ .enter owner) : (L.step e).shape = L.shape := by
  cases e with
  | enter owner => exact absurd rfl (he owner)
  | leave => rfl
  | occur name x =>
    cases name with
    | none => rfl
    | some n => exact shape_note fun _ => ⟨rfl, rfl⟩
  | declareGlobal names => exact shape_note fun _ => ⟨rfl, rfl⟩
  | importing site => rfl
  | importsAll => exact shape_note fun _ => ⟨rfl, rfl⟩
  | importsFuture names => rfl
  | fail fault => rfl

theorem shape_enter (owner : Tree) : (L.step (.enter owner)).shape = L.shape ++ [(owner, L.stack)] := by
  simp [step, shape, Record.fresh]

end Log

/-! ### Accounts are right -/

/-- What a run from a log does: it adds names and opens scopes as an account tells. -/
structure Accounts (ways : List (List Step)) (w : Workshop) (L : Log) (es : List Event)
    (cs os : List Note) : Prop where
  adds : (w.added es).map (Note.ofAdded ways) = cs
  opens : ∃ ss, (L.run es).shape = L.shape ++ ss ∧
    ss.map (fun s => (s.2.head?.bind fun a => ways[a]?, s.1)) = os.map fun o => (o.home, o.tree)

theorem Accounts.size {ways : List (List Step)} {w : Workshop} {L : Log} {es : List Event}
    {cs os : List Note} (h : Accounts ways w L es cs os) : (L.run es).size = L.size + os.length := by
  obtain ⟨ss, hss, hos⟩ := h.opens
  have hlen := congrArg List.length hss
  have hos := congrArg List.length hos
  simp only [Log.shape, List.length_map, List.length_append] at hlen hos
  rw [Log.size, Log.size, hlen, hos]

/-- An account of a tour from a scope whose node is known is right when the nodes of the scopes that
it opens have the next numbers. -/
theorem Tour.accounts (ways : List (List Step)) {h : List Step} {es : List Event}
    {cs os : List Note} (ht : Tour h es cs os) :
    ∀ {w w' : Workshop} {L : Log} {i : Nat} {rest : List Nat}, w.Follows L → L.stack = i :: rest →
      ways[i]? = some h → os.map Note.path <+: ways.drop L.size → w.run es = .ok w' →
      Accounts ways w L es cs os := by
  induction ht with
  | nil =>
    intro w w' L i rest _ _ _ _ _
    exact ⟨rfl, [], (List.append_nil _).symm, rfl⟩
  | @quiet h e he =>
    intro w w' L i rest _ _ _ _ hrun
    obtain ⟨v, hv, -⟩ := Workshop.run_cons hrun
    refine ⟨?_, [], ?_, rfl⟩
    · rw [Workshop.added_cons hv]
      cases e <;> first | rfl | cases he
    · rw [List.append_nil]
      refine Log.shape_step fun owner henter => ?_
      rw [henter] at he
      cases he
  | @occur h n x =>
    intro w w' L i rest hw hs hi _ hrun
    obtain ⟨v, hv, -⟩ := Workshop.run_cons hrun
    refine ⟨?_, [], ?_, rfl⟩
    · rw [Workshop.added_cons hv]
      simp [Workshop.adds, Workshop.added, hw.stack, hs, Note.ofAdded, hi]
    · rw [List.append_nil]
      refine Log.shape_step (e := .occur (some n) x) fun owner he => ?_
      cases he
  | @imports h x items cs hitems _ ih =>
    intro w w' L i rest hw hs hi hos hrun
    obtain ⟨v, hv, hrun⟩ := Workshop.run_cons hrun
    have himporting : (Event.importing x).isPlain (fun _ => true) = true := rfl
    obtain ⟨hw', -⟩ := hw.plain himporting hv
    have htold := ih hw' hs hi hos hrun
    refine ⟨?_, htold.opens⟩
    rw [Workshop.added_cons hv]
    exact htold.adds
  | @append h a b cs cs' os os' ha hb iha ihb =>
    intro w w' L i rest hw hs hi hos hrun
    rw [List.map_append] at hos
    obtain ⟨v, hv, hrun⟩ := Workshop.run_append hrun
    obtain ⟨hv', hsv⟩ := hw.block ha.block (by rw [hs]; exact List.cons_ne_nil _ _) hv
    -- The second part begins with the scopes that the first one has opened.
    have hfirst := iha hw hs hi ((List.prefix_append _ _).trans hos) hv
    have hos' : os'.map Note.path <+: ways.drop (L.run a).size := by
      obtain ⟨r, hr⟩ := hos
      refine ⟨r, ?_⟩
      rw [hfirst.size, ← List.drop_drop, ← hr, List.append_assoc]
      simp
    have hsecond := ihb hv' (hsv.trans hs) hi hos' hrun
    obtain ⟨ss, hss, hopen⟩ := hfirst.opens
    obtain ⟨ss', hss', hopen'⟩ := hsecond.opens
    refine ⟨?_, ss ++ ss', ?_, ?_⟩
    · rw [Workshop.added_append hv, List.map_append, hfirst.adds, hsecond.adds]
    · rw [Log.run_append, hss', hss, List.append_assoc]
    · rw [List.map_append, List.map_append, hopen, hopen']
  | @scope h p owner es cs os ho hes ih =>
    intro w w' L i rest hw hs hi hos hrun
    obtain ⟨u, v, hu, hv, hz⟩ := Workshop.run_scope hrun
    have hne : L.stack ≠ [] := by rw [hs]; exact List.cons_ne_nil _ _
    have hfollow := hw.enter ho hne hu
    obtain ⟨r, hr⟩ := hos
    -- The new scope has the next number, and the scopes inside come after it.
    have hp : ways[L.size]? = some p := by
      have hget := congrArg (fun l => l[0]?) hr
      simpa using hget.symm
    have hos' : os.map Note.path <+: ways.drop (L.step (.enter owner)).size := by
      refine ⟨r, ?_⟩
      rw [Log.size_enter, ← List.drop_drop, ← hr]
      simp
    have hin := ih hfollow rfl hp hos' hv
    obtain ⟨ss, hss, hopen⟩ := hin.opens
    refine ⟨?_, (owner, L.stack) :: ss, ?_, ?_⟩
    · rw [Workshop.added_scope hu hv hz]
      exact hin.adds
    · rw [Log.run_scope, Log.shape_step (by simp), hss, Log.shape_enter, List.append_assoc]
      rfl
    · rw [List.map_cons, List.map_cons, hopen, hs]
      simp [hi]

end ScopeLint
