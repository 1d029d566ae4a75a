import ScopeLint.Proofs.Scope.Placement
import ScopeLint.Proofs.Scope.Refusal
import ScopeLint.Proofs.Scope.Stars
import ScopeLint.Proofs.Tree.Sample

/-! Which source texts have scopes. A forest that follows its log gets through every event of a source
text but the visit of null, so only the nodes that are refused keep a text from having scopes. -/

namespace ScopeLint

/-! ### Changes that succeed -/

namespace Change

theorem anyWrite_ok {l : List Site} (h : ∀ x ∈ l, ∃ b, x.tree.isWrite = .ok b) :
    ∃ b, anyWrite l = .ok b := by
  induction l with
  | nil => exact ⟨false, rfl⟩
  | cons x l ih =>
    obtain ⟨b, hb⟩ := h x List.mem_cons_self
    rw [anyWrite, hb]
    cases b with
    | true => exact ⟨true, rfl⟩
    | false => exact ih fun y hy => h y (List.mem_cons_of_mem _ hy)

theorem declareGlobal_ok {f : Forest} {i : Nat} (hf : f.Live) (hi : i < f.size) {names : List Tree}
    (h : ∀ t ∈ names, ∃ n, t = .atom (.str n)) :
    ∃ f', (declareGlobal i names).exec f = (.ok (), f') := by
  obtain ⟨s, hs⟩ := Forest.scope?_eq_some hi
  obtain ⟨p, -, hexec⟩ := exec_pending hf hs "global_names"
  rw [declareGlobal, exec_bind_ok hexec]
  clear hexec hs hf hi
  induction names generalizing f with
  | nil => exact ⟨f, rfl⟩
  | cons t names ih =>
    obtain ⟨n, rfl⟩ := h t List.mem_cons_self
    rw [forM_cons, exec_bind_ok (exec_update _ _ _)]
    exact ih fun u hu => h u (List.mem_cons_of_mem _ hu)

end Change

/-- What is still loose after names have been sent away was loose before. -/
theorem Tables.mem_loose_sendAll {T : Tables} {i m : Nat} {names : List String}
    {e : String × List Site} (h : e ∈ (T.sendAll i m names).loose i) : e ∈ T.loose i := by
  unfold sendAll at h
  induction names generalizing T with
  | nil => exact h
  | cons n names ih =>
    have hsend := ih h
    simp only [send, drop, setLoose, give, Function.update_self, Table.erase] at hsend
    exact (List.mem_filter.mp hsend).1

/-- What is loose in a scope stands there. -/
theorem Log.mem_sites_of_waiting {L : Log} {i : Nat} {n : String} {x : Site}
    (hx : x ∈ L.waiting n i) : x ∈ (L.record i).sites n := by
  have hearly : ∀ x ∈ (L.record i).early n, x ∈ (L.record i).sites n :=
    (List.takeWhile_sublist _).subset
  unfold waiting at hx
  split_ifs at hx with h0 hopen hcatch
  · cases hx
  · exact hearly x hx
  · cases hx
  · unfold Record.out at hx
    split_ifs at hx with hd hc hw
    · cases hx
    · exact hearly x ((List.takeWhile_sublist _).subset hx)
    · cases hx
    · exact hearly x hx

/-- Whatever occurs tells whether it binds a name. -/
def Log.Telling (L : Log) : Prop := L.Passed fun x => ∃ b, x.tree.isWrite = .ok b

theorem Log.Telling.run {L : Log} {es : List Event} (hL : L.Telling) (h : ∀ e ∈ es, e.Stands) :
    (L.run es).Telling :=
  Passed.run hL fun _ _ hx => Site.isWrite_ok (h _ hx).1 (h _ hx).2

/-! ### Steps that succeed -/

namespace Workshop

variable {w : Workshop} {L : Log} {e : Event} {a b es : List Event}

theorem onCurrent_of_exec {i : Nat} {rest : List Nat} {asked : String} {c : Nat → Change Unit}
    {f : Forest} (hs : w.stack = i :: rest) (he : (c i).exec w.forest = (.ok (), f)) :
    w.onCurrent asked c = .ok { w with forest := f } := by
  have hrun : (c i).run w.forest = (.ok (), f) := he
  simp only [onCurrent, hs, change, hrun]
  rfl

theorem Follows.resolve_ok (hw : w.Follows L) (hL : L.Telling) {i : Nat} {rest : List Nat}
    (hs : L.stack = i :: rest) : ∃ f, (Change.resolve i).exec w.forest = (.ok (), f) := by
  obtain ⟨s, hsc⟩ := hw.top hs
  obtain ⟨-, p, hp⟩ := hw.sound.live.scope hsc
  have hi := (hw.proper.top i rest hs).1
  have hloose : ∀ e ∈ (w.forest.tables.sendAll i 0 p.globals).loose i,
      ∃ b, Change.anyWrite e.2 = .ok b := by
    rintro ⟨n, l⟩ hmem
    obtain ⟨rfl, -⟩ := hw.mem_loose.mp (Tables.mem_loose_sendAll hmem)
    exact Change.anyWrite_ok fun x hx => hL.of_mem_sites hi (Log.mem_sites_of_waiting hx)
  obtain ⟨f, hex, -⟩ := Change.resolve_yields hw.sound.live hsc hp (hw.moduleOf hi)
    (by rw [hw.size]; exact hw.proper.pos) hloose
  exact ⟨f, hex⟩

/-- A forest that follows its log gets through every event that is sound and stands in a source
text. -/
theorem Follows.step_ok (hw : w.Follows L) (hs : L.stack ≠ []) (hL : L.Telling)
    (hsound : e.isSound = true) (hstands : e.Stands) : ∃ w', w.step e = .ok w' := by
  obtain ⟨i, rest, hs⟩ := List.exists_cons_of_ne_nil hs
  have hstack : w.stack = i :: rest := hw.stack.trans hs
  cases e with
  | enter owner => exact ⟨_, rfl⟩
  | leave =>
    obtain ⟨f, hex⟩ := hw.resolve_ok hL hs
    rw [step, onCurrent_of_exec hstack hex]
    exact ⟨_, rfl⟩
  | occur name x =>
    cases name with
    | none => cases hsound
    | some n =>
      obtain ⟨s, hsc⟩ := hw.top hs
      obtain ⟨f, hex, -⟩ := Change.add_yields hw.sound.live hsc n x
      exact ⟨_, onCurrent_of_exec hstack hex⟩
  | declareGlobal names =>
    obtain ⟨f, hex⟩ := Change.declareGlobal_ok hw.sound.live
      (by rw [hw.size]; exact (hw.proper.top i rest hs).1) hstands
    exact ⟨_, onCurrent_of_exec hstack hex⟩
  | importing x => exact ⟨_, onCurrent_of_exec hstack (Change.exec_update _ _ _)⟩
  | importsAll => exact ⟨_, onCurrent_of_exec hstack (Change.exec_update _ _ _)⟩
  | importsFuture names => exact ⟨_, onCurrent_of_exec hstack (Change.exec_update _ _ _)⟩
  | fail fault => cases hsound

/-! ### Runs -/

/-- A run gets to the end, or stops because it comes to null. -/
def Ends (w : Workshop) (es : List Event) : Prop :=
  (∃ w', w.run es = .ok w') ∨
    w.run es = .error (.missingAttribute "NoneType" "_fields") ∧ nullMet ∈ es

theorem Ends.append (ha : w.Ends a) (hb : ∀ v, w.run a = .ok v → v.Ends b) : w.Ends (a ++ b) := by
  have hrun : w.run (a ++ b) = w.run a >>= fun v => v.run b := List.foldlM_append
  rcases ha with ⟨v, hv⟩ | ⟨hv, hmem⟩
  · rw [hv] at hrun
    rcases hb v hv with ⟨w', hw'⟩ | ⟨hw', hmem⟩
    · exact Or.inl ⟨w', hrun.trans hw'⟩
    · exact Or.inr ⟨hrun.trans hw', List.mem_append_right _ hmem⟩
  · rw [hv] at hrun
    exact Or.inr ⟨hrun, List.mem_append_left _ hmem⟩

theorem run_singleton {w' : Workshop} : w.run [e] = .ok w' ↔ w.step e = .ok w' := by
  rw [run, List.foldlM_cons]
  rcases w.step e with fault | v
  · exact ⟨fun h => (by cases h), fun h => (by cases h)⟩
  · exact Iff.rfl

theorem Follows.ends_step (hw : w.Follows L) (hs : L.stack ≠ []) (hL : L.Telling)
    (he : e.isSound = true ∨ e = nullMet) (hstands : e.Stands) : w.Ends [e] := by
  rcases he with he | rfl
  · obtain ⟨w', hw'⟩ := hw.step_ok hs hL he hstands
    exact Or.inl ⟨w', run_singleton.mpr hw'⟩
  · exact Or.inr ⟨rfl, List.mem_singleton_self _⟩

/-- A block of a source text is gone through up to a visit of null. -/
theorem Follows.ends_block {ok : Tree → Bool} (hes : Block ok es) :
    ∀ {w : Workshop} {L : Log}, w.Follows L → L.stack ≠ [] → L.Telling →
      (∀ e ∈ es, (e.isSound = true ∨ e = nullMet) ∧ e.Stands) → w.Ends es := by
  induction hes with
  | nil => exact fun _ _ _ _ => Or.inl ⟨_, rfl⟩
  | plain hp =>
    intro w L hw hs hL h
    obtain ⟨he, hstands⟩ := h _ List.mem_cons_self
    exact hw.ends_step hs hL he hstands
  | @append a b ha _ iha ihb =>
    intro w L hw hs hL h
    rw [List.forall_mem_append] at h
    refine (iha hw hs hL h.1).append fun v hv => ?_
    obtain ⟨hvf, hvs⟩ := hw.block ha hs hv
    exact ihb hvf (by rwa [hvs]) (hL.run fun e he => (h.1 e he).2) h.2
  | @scope owner es ho hes ih =>
    intro w L hw hs hL h
    rw [List.forall_mem_append, List.forall_mem_cons] at h
    obtain ⟨⟨-, hinside⟩, hlast⟩ := h
    have hin := fun e he => (hinside e he).2
    have henter : w.Ends [.enter owner] := Or.inl ⟨_, rfl⟩
    have hblock : ∀ u, w.run [.enter owner] = .ok u → u.Follows (L.step (.enter owner)) :=
      fun u hu => hw.enter ho hs (run_singleton.mp hu)
    have hopen : (L.step (.enter owner)).stack ≠ [] := List.cons_ne_nil _ _
    have htold : (L.step (.enter owner)).Telling := hL.step fun _ _ he => nomatch he
    refine Ends.append (a := .enter owner :: es)
      (henter.append fun u hu => ih (hblock u hu) hopen htold hinside) fun v hv => ?_
    obtain ⟨u, hu, hv⟩ := run_cons hv
    obtain ⟨hvf, hvs⟩ := (hw.enter ho hs hu).block hes hopen hv
    obtain ⟨he, hstands⟩ := hlast _ List.mem_cons_self
    exact hvf.ends_step (by rw [hvs]; exact hopen) (htold.run hin) he hstands

end Workshop

namespace Tree

variable {t : Tree}

/-- The visit of a source text is gone through up to a visit of null. -/
theorem IsSource.visit_ends (h : t.IsSource) : Workshop.start.Ends (t.events .start) := by
  have hraise := h.events_raise.events
  have hstand := h.events_stand
  obtain ⟨es, hes, hblock⟩ := events_of_module h.module h.isProgram.one_module (passes_any t) .start
  rw [hes] at hraise hstand ⊢
  rw [List.forall_mem_append, List.forall_mem_cons] at hraise hstand
  have hall : ∀ e ∈ es, (e.isSound = true ∨ e = nullMet) ∧ e.Stands :=
    fun e he => ⟨hraise.1.2 e he, hstand.1.2 e he⟩
  have hfollows := Workshop.follows_start h.module
  have hopen : (Log.empty.step (.enter t)).stack ≠ [] := List.cons_ne_nil _ _
  have htold : (Log.empty.step (.enter t)).Telling :=
    Log.passed_empty.step fun _ _ he => nomatch he
  have henter : Workshop.start.Ends [.enter t] := Or.inl ⟨_, rfl⟩
  refine Workshop.Ends.append (a := .enter t :: es) (henter.append fun u hu => ?_) fun v hv => ?_
  · cases hu
    exact Workshop.Follows.ends_block hblock hfollows hopen htold hall
  · obtain ⟨u, hu, hv⟩ := Workshop.run_cons hv
    cases hu
    obtain ⟨hvf, hvs⟩ := hfollows.block hblock hopen hv
    exact hvf.ends_step (by rw [hvs]; exact hopen) (htold.run hstand.1.2) (Or.inl rfl) trivial

/-- Whether a visit of a tree comes to a node that is refused. -/
def meetsRefused (t : Tree) : Bool :=
  t.sites.any fun x => isReached x.toTrail.edges && x.tree.isRefused

theorem refuses_iff : Refuses (t.places [] []) ↔ t.meetsRefused = true := by
  have hmem (y : Place) : y ∈ t.places [] [] ↔ ∃ x ∈ t.sites, x.place = y := by
    rw [← t.sites_perm_places.mem_iff, List.mem_map]
  simp only [Refuses, hmem, meetsRefused, List.any_eq_true]
  constructor
  · rintro ⟨_, ⟨x, hx, rfl⟩, hrefused⟩
    exact ⟨x, hx, hrefused⟩
  · rintro ⟨x, hx, hrefused⟩
    exact ⟨x.place, ⟨x, hx, rfl⟩, hrefused⟩

/-- Once a module has been visited nothing is pending in it, and it can be frozen. -/
theorem frozen_of_visit (hm : t.isKind .module = true) (hone : t.kinds.count .module = 1) {g : Forest}
    (hv : t.openScopes = .ok g) :
    (∀ i s, g.scope? i = some s → ∃ p, s.pending = some p ∧ p.unscoped = []) ∧
      ∃ f, t.scopes = .ok f ∧ ∀ i s, f.scope? i = some s → s.pending = none := by
  obtain ⟨hg, hl, hempty⟩ := openScopes_realizes hm hone hv
  constructor
  · intro i s hs
    obtain ⟨-, p, hp⟩ := hl.scope hs
    exact ⟨p, hp, by rw [← Change.loose_eq_unscoped hs hp, hempty]⟩
  · obtain ⟨f, hf, hsize, hscope⟩ := hg.exec_freeze hl hempty
    refine ⟨f, scopes_eq hm hv hf, fun i s hs => ?_⟩
    have hi : i < g.size := by rw [← hsize]; exact Forest.lt_size hs
    rw [hscope, if_pos (hg.mem_walk hi)] at hs
    obtain ⟨u, -, rfl⟩ := Option.map_eq_some_iff.mp hs
    rfl

/-- A source text has no scopes just when a visit comes to a handler without a type, or to a function
or a lambda with a keyword-only parameter that has no default. It then fails at null. All other source
texts are visited until nothing is pending, and are frozen. -/
theorem scopes_fail_iff_refused (h : t.IsSource) :
    ((∃ fault, t.scopes = .error fault) ↔ t.meetsRefused = true) ∧
    (∀ fault, t.scopes = .error fault → fault = .missingAttribute "NoneType" "_fields" ∧
      fault.message? = some "'NoneType' object has no attribute '_fields'") ∧
    (t.meetsRefused = false → ∃ g, t.openScopes = .ok g ∧
      (∀ i s, g.scope? i = some s → ∃ p, s.pending = some p ∧ p.unscoped = []) ∧
      ∃ f, t.scopes = .ok f ∧ ∀ i s, f.scope? i = some s → s.pending = none) := by
  have hnode : t.requireNode = .ok () := by
    cases t with
    | node k s fields => rfl
    | atom a => cases h.module
    | list items => cases h.module
  have hopen : t.openScopes = (Workshop.start.run (t.events .start)).map Workshop.forest := by
    rw [openScopes, hnode]
    rcases Workshop.start.run (t.events .start) with fault | w <;> rfl
  have hmeets : nullMet ∈ t.events .start ↔ t.meetsRefused = true :=
    h.events_raise.iff.trans refuses_iff
  rcases h.visit_ends with ⟨w, hw⟩ | ⟨hw, hmem⟩
  · rw [hw] at hopen
    obtain ⟨hempty, f, hf, hfrozen⟩ := frozen_of_visit h.module h.isProgram.one_module hopen
    have hclean : ¬t.meetsRefused = true := fun hmet =>
      Bool.false_ne_true (Workshop.clean_of_run hw nullMet (hmeets.mpr hmet))
    refine ⟨iff_of_false ?_ hclean, ?_, fun _ => ⟨_, hopen, hempty, f, hf, hfrozen⟩⟩
    · rintro ⟨fault, hfault⟩
      cases hf.symm.trans hfault
    · intro fault hfault
      cases hf.symm.trans hfault
  · have hfail : t.scopes = .error (.missingAttribute "NoneType" "_fields") := by
      rw [scopes, hopen, hw]
      rfl
    have hmet := hmeets.mp hmem
    refine ⟨iff_of_true ⟨_, hfail⟩ hmet, fun fault hfault => ?_, fun hnone => ?_⟩
    · cases hfail.symm.trans hfault
      exact ⟨rfl, by decide⟩
    · rw [hmet] at hnone
      cases hnone

/-- A keyword-only parameter without a default is passed over in a coroutine and in an annotation. A
handler without a type is met in a method of a class that a function defines. -/
theorem scopes_fail_iff_refused_hidden_and_met :
    let params (named : Tree) : Tree := .node .parameters .absent
      [.list [], .list [], .null, .list [named], .list [.null], .null, .list []]
    let strict : Tree := .node .lambda (Sample.place 3 9)
      [params (Sample.parameter "k" 3 19), Sample.name .load "k" 3 22]
    let coroutine : Tree := .node .asyncFunctionDef (Sample.place 1 0)
      [.atom (.str "f"), params (Sample.parameter "k" 1 15),
        .list [Sample.evaluated (Sample.name .load "k" 2 4) 2 4], .list [], .null, .null]
    let annotated : Tree := .node .functionDef (Sample.place 3 0)
      [.atom (.str "g"), Sample.parameters
          [.node .parameter (Sample.place 3 6) [.atom (.str "p"), strict, .null]] [],
        .list [Sample.evaluated (Sample.name .load "p" 4 4) 4 4], .list [], .null, .null]
    let handler : Tree := .node .exceptHandler (Sample.place 5 12)
      [.null, .null, .list [.node .passStmt (Sample.place 6 16) []]]
    let guarded : Tree := .node .tryStmt (Sample.place 4 12)
      [.list [.node .passStmt (Sample.place 4 17) []], .list [handler], .list [], .list []]
    let hidden := Sample.module [coroutine, annotated]
    let met := Sample.module
      [Sample.function "f" [Sample.classDef "C" [Sample.function "m" [guarded] 3 8] 2 4] 1 0]
    hidden.IsSource ∧ met.IsSource ∧ hidden.meetsRefused = false ∧ met.meetsRefused = true ∧
      (∃ f, hidden.scopes = .ok f ∧ ∀ i s, f.scope? i = some s → s.pending = none) ∧
      met.scopes = .error (.missingAttribute "NoneType" "_fields") := by
  intro params strict coroutine annotated handler guarded hidden met
  have hhidden : hidden.IsSource := ⟨rfl, by decide +kernel⟩
  have hmet : met.IsSource := ⟨rfl, by decide +kernel⟩
  have hnone : hidden.meetsRefused = false := by decide +kernel
  have hsome : met.meetsRefused = true := by decide +kernel
  obtain ⟨-, -, hok⟩ := scopes_fail_iff_refused hhidden
  obtain ⟨hiff, hfault, -⟩ := scopes_fail_iff_refused hmet
  obtain ⟨g, -, -, hscopes⟩ := hok hnone
  obtain ⟨fault, hfail⟩ := hiff.mpr hsome
  refine ⟨hhidden, hmet, hnone, hsome, hscopes, ?_⟩
  rw [hfail, (hfault fault hfail).1]

end Tree

end ScopeLint
