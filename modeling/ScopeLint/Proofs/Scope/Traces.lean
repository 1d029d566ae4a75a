import ScopeLint.Proofs.Scope.Recording

/-! What a visit meets leaves a trace in the log, which stays there. Every name and every parameter of a
program to which the visit comes is an occurrence in the record of some scope. -/

namespace ScopeLint

namespace Record

variable {r r' : Record}

theorem mem_sites {n : String} {x : Site} : x ∈ r.sites n ↔ (n, x) ∈ r.occurrences := by
  simp [sites]

/-- A record has all that was met in another one. -/
structure Extends (r' r : Record) : Prop where
  occurrences : r.occurrences ⊆ r'.occurrences
  globals : r.globals ⊆ r'.globals
  stars : r.stars = true → r'.stars = true

theorem Extends.refl (r : Record) : r.Extends r := ⟨List.Subset.refl _, List.Subset.refl _, id⟩

theorem Extends.trans {r'' : Record} (h : r''.Extends r') (h' : r'.Extends r) : r''.Extends r :=
  ⟨List.Subset.trans h'.occurrences h.occurrences, List.Subset.trans h'.globals h.globals,
    h.stars ∘ h'.stars⟩

theorem Extends.declares {n : String} (h : r'.Extends r) (hn : r.declares n = true) :
    r'.declares n = true := List.contains_iff_mem.mpr (h.globals (List.contains_iff_mem.mp hn))

end Record

/-! ### Records grow -/

namespace Log

variable {L : Log} {i : Nat} {rest : List Nat}

theorem extends_note {g : Record → Record} (hg : ∀ r, (g r).Extends r) (k : Nat) :
    ((L.note g).record k).Extends (L.record k) := by
  unfold note
  split
  · exact .refl _
  · next i _ _ =>
    simp only [record, List.getD_eq_getElem?_getD, List.getElem?_modify]
    cases L.records[k]? with
    | none => exact .refl _
    | some r =>
      by_cases hik : i = k
      · simpa [hik] using hg r
      · simpa [hik] using Record.Extends.refl r

theorem extends_step (L : Log) (e : Event) (k : Nat) : ((L.step e).record k).Extends (L.record k) := by
  cases e with
  | enter owner =>
    rw [record_enter]
    split_ifs with hk
    · rw [record_eq_fresh (Nat.le_of_eq hk.symm)]
      exact ⟨List.nil_subset _, List.nil_subset _, id⟩
    · exact .refl _
  | occur name x =>
    cases name with
    | none => exact .refl _
    | some n =>
      apply extends_note
      intro r
      exact ⟨List.subset_append_left _ _, List.Subset.refl _, id⟩
  | declareGlobal names =>
    apply extends_note
    intro r
    exact ⟨List.Subset.refl _, List.subset_append_left _ _, id⟩
  | importsAll =>
    apply extends_note
    intro r
    exact ⟨List.Subset.refl _, List.Subset.refl _, fun _ => rfl⟩
  | leave | importing _ | importsFuture _ | fail _ => exact .refl _

theorem extends_run (L : Log) (es : List Event) (k : Nat) :
    ((L.run es).record k).Extends (L.record k) := by
  induction es generalizing L with
  | nil => exact .refl _
  | cons e es ih => exact (ih (L.step e)).trans (L.extends_step e k)

theorem stack_step_of_plain {ok : Tree → Bool} {e : Event} (he : e.isPlain ok = true) :
    (L.step e).stack = L.stack ∧ (L.step e).size = L.size := by
  cases e with
  | enter _ | leave => cases he
  | occur name x =>
    cases name with
    | none => exact ⟨rfl, rfl⟩
    | some n => exact ⟨stack_note _, size_note _⟩
  | declareGlobal _ | importsAll => exact ⟨stack_note _, size_note _⟩
  | importing _ | importsFuture _ | fail _ => exact ⟨rfl, rfl⟩

/-- Events inside a scope leave their traces in its record. -/
theorem traces_of_plain {ok : Tree → Bool} {es : List Event} (hes : ∀ e ∈ es, e.isPlain ok = true)
    (hs : L.stack = i :: rest) (hi : i < L.size) :
    (∀ n x, .occur (some n) x ∈ es → x ∈ ((L.run es).record i).sites n) ∧
      (.importsAll ∈ es → ((L.run es).record i).stars = true) := by
  induction es generalizing L with
  | nil => simp
  | cons e es ih =>
    obtain ⟨hstack, hsize⟩ := stack_step_of_plain (L := L) (hes e List.mem_cons_self)
    obtain ⟨hoccur, hstar⟩ := ih (L := L.step e) (fun d hd => hes d (List.mem_cons_of_mem _ hd))
      (hstack.trans hs) (by rwa [hsize])
    have hgrow := (L.step e).extends_run es i
    constructor
    · intro n x hmem
      rcases List.mem_cons.mp hmem with rfl | hmem
      · refine Record.mem_sites.mpr (hgrow.occurrences ?_)
        rw [step, record_note hs hi, if_pos rfl]
        simp [Record.met]
      · exact hoccur n x hmem
    · intro hmem
      rcases List.mem_cons.mp hmem with rfl | hmem
      · refine hgrow.stars ?_
        rw [step, record_note hs hi, if_pos rfl]
      · exact hstar hmem

end Log

/-- What is added in a tour is in the records. -/
theorem Tour.met {h : List Step} {es : List Event} {cs os : List Note} (ht : Tour h es cs os) :
    ∀ {w w' : Workshop} {L : Log}, w.Follows L → L.stack ≠ [] → w.run es = .ok w' →
      ∀ a ∈ w.added es, a.2.2 ∈ ((L.run es).record a.1).sites a.2.1 := by
  induction ht with
  | nil => intro w w' L _ _ _ a ha; cases ha
  | @quiet h e he =>
    intro w w' L _ _ hrun a ha
    obtain ⟨v, hv, -⟩ := Workshop.run_cons hrun
    rw [Workshop.added_cons hv] at ha
    cases e <;> first | cases ha | cases he
  | @occur h n x =>
    intro w w' L hw hs hrun a ha
    obtain ⟨v, hv, -⟩ := Workshop.run_cons hrun
    obtain ⟨i, rest, hstack⟩ := List.exists_cons_of_ne_nil hs
    rw [Workshop.added_cons hv] at ha
    simp only [Workshop.adds, Workshop.added, hw.stack, hstack, List.head?_cons, Option.toList_some,
      List.map_cons, List.map_nil, List.append_nil, List.mem_singleton] at ha
    subst ha
    have hplain : ∀ e ∈ [Event.occur (some n) x], e.isPlain (fun _ => true) = true := by
      simp [Event.isPlain]
    exact (Log.traces_of_plain hplain hstack (hw.proper.top i rest hstack).1).1 n x List.mem_cons_self
  | @imports h x items cs hitems hes ih =>
    intro w w' L hw hs hrun a ha
    obtain ⟨v, hv, hrun⟩ := Workshop.run_cons hrun
    have himporting : (Event.importing x).isPlain (fun _ => true) = true := rfl
    obtain ⟨hw', hs'⟩ := hw.plain himporting hv
    rw [Workshop.added_cons hv] at ha
    exact ih hw' (by rwa [hs']) hrun a ha
  | @append h a b cs cs' os os' ha hb iha ihb =>
    intro w w' L hw hs hrun c hc
    obtain ⟨v, hv, hrun⟩ := Workshop.run_append hrun
    obtain ⟨hvf, hsv⟩ := hw.block ha.block hs hv
    rw [Workshop.added_append hv, List.mem_append] at hc
    rw [Log.run_append]
    rcases hc with hc | hc
    · have hfirst := Record.mem_sites.mp (iha hw hs hv c hc)
      exact Record.mem_sites.mpr (((L.run a).extends_run b c.1).occurrences hfirst)
    · exact ihb hvf (by rwa [hsv]) hrun c hc
  | @scope h p owner es cs os ho hes ih =>
    intro w w' L hw hs hrun c hc
    obtain ⟨u, v, hu, hv, hz⟩ := Workshop.run_scope hrun
    rw [Workshop.added_scope hu hv hz] at hc
    rw [Log.run_scope]
    exact ih (hw.enter ho hs hu) (List.cons_ne_nil _ _) hv c hc

namespace Tree

/-- A visit of a program as a tour, up to the point where the module is left. -/
theorem IsProgram.inner_tour {t : Tree} (hp : t.IsProgram) {w : Workshop}
    (hrun : Workshop.start.run (t.events .start) = .ok w) :
    ∃ es cs os v, t.events .start = .enter t :: es ++ [Event.leave] ∧ Tour [] es cs os ∧
      (⟨Forest.empty.push none t, [0]⟩ : Workshop).run es = .ok v ∧ v.step .leave = .ok w ∧
      ∀ k, t.log.record k = ((Log.empty.step (.enter t)).run es).record k := by
  obtain ⟨es, cs, os, hes, ht, -⟩ := hp.tour hrun
  have hevents := hes
  rw [hes] at hrun
  obtain ⟨v, hv, hz⟩ := Workshop.run_module hrun
  refine ⟨es, cs, os, v, hevents, ht, hv, hz, fun k => ?_⟩
  rw [log, hevents, Log.run_scope]
  rfl

/-- Every name and every parameter to which the visit of a program comes is an occurrence in the record
of some scope. -/
theorem IsProgram.met {t : Tree} (hp : t.IsProgram) {w : Workshop}
    (hrun : Workshop.start.run (t.events .start) = .ok w) {y : Site} (hy : y ∈ t.sites)
    (hm : y.tree.isMention = true) (hr : isReached y.edges = true) :
    ∃ i n x, x ∈ (t.log.record i).sites n ∧ y.tree.label? = some n ∧ x.path = y.path ∧
      x.tree = y.tree := by
  obtain ⟨cs, os, -, hsum, hinner, hadds, -⟩ := hp.accounts hrun
  have hnote : y.note ∈ recorded (t.places [] []) := by
    refine Multiset.mem_coe.mpr (List.mem_map.mpr ⟨y.place, List.mem_filter.mpr ⟨?_, ?_⟩, rfl⟩)
    · exact t.sites_perm_places.subset (List.mem_map_of_mem hy)
    · show ((y.tree.isMention || y.tree.ownsScope) && isReached y.edges) = true
      rw [hm, hr]
      rfl
  have hadded : y.note ∈ cs := by
    rw [← hsum, Multiset.mem_add, Multiset.mem_add, Multiset.mem_singleton] at hnote
    rcases hnote with hroot | hc | ho
    · have htree : y.tree = t := congrArg Note.tree hroot
      rw [htree, not_mention_of_ownsScope hp.ownsScope] at hm
      cases hm
    · exact (List.mem_filter.mp (Multiset.mem_coe.mp hc)).1
    · have hopens := ownsScope_of_opensInner (hinner _ (Multiset.mem_coe.mp ho)).2
      have hnot : y.tree.isMention = false := not_mention_of_ownsScope hopens
      rw [hnot] at hm
      cases hm
  rw [← hadds] at hadded
  obtain ⟨⟨i, n, x⟩, ha, hnote⟩ := List.mem_map.mp hadded
  obtain ⟨es, cs', os', v, hes, ht, hv, hz, hlog⟩ := hp.inner_tour hrun
  refine ⟨i, n, x, ?_, (congrArg Note.name hnote).symm, congrArg Note.path hnote,
    congrArg Note.tree hnote⟩
  have hfirst : Workshop.start.step (.enter t) = .ok ⟨Forest.empty.push none t, [0]⟩ := rfl
  have hall : Workshop.start.run (.enter t :: es) = .ok v := by
    rw [Workshop.run, List.foldlM_cons, hfirst]
    exact hv
  rw [hes, Workshop.added_append hall, Workshop.added_cons hfirst, Workshop.added_cons hz] at ha
  rw [hlog]
  have hmem : (i, n, x) ∈ (⟨Forest.empty.push none t, [0]⟩ : Workshop).added es := by
    simpa [Workshop.adds, Workshop.added] using ha
  exact ht.met (Workshop.follows_start hp.module) (List.cons_ne_nil _ _) hv _ hmem

end Tree

end ScopeLint
