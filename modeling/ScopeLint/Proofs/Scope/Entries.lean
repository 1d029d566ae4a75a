import ScopeLint.Proofs.Scope.Placement
import ScopeLint.Proofs.Scope.Views

/-! What the tables of a finished source text have entries for. Only names have entries. An entry is
empty only in the module, and only for a name that some scope declares global. What an import statement
binds in a scope has an entry there, unless the scope declares it global. -/

namespace ScopeLint

/-! ### Names only -/

namespace Scope

/-- What was declared global in a scope without being a name, before and after it is given to the
module. -/
def strayed (s : Scope) : List (Nat × Atom) × Option (List Atom) :=
  (s.strays, s.pending.map Pending.strays)

theorem blind_strayed : Blind strayed where
  names _ _ := rfl
  unscoped s t := by
    unfold strayed
    cases s.pending <;> rfl
  follows _ _ _ _ := rfl

end Scope

namespace Forest

/-- All that was declared global are names. -/
def Tidy (f : Forest) : Prop :=
  ∀ i s, f.scope? i = some s → s.strays = [] ∧ ∀ p, s.pending = some p → p.strays = []

theorem Tidy.of_views {f g : Forest} (hf : f.Tidy)
    (h : g.views Scope.strayed = f.views Scope.strayed) : g.Tidy := by
  intro i s hs
  have hget := congrArg (fun l => l[i]?) h
  simp only [getElem?_views, hs, Option.map_some] at hget
  obtain ⟨t, ht, heq⟩ := Option.map_eq_some_iff.mp hget.symm
  obtain ⟨hstrays, hpending⟩ := Prod.mk.inj heq
  obtain ⟨hnone, hall⟩ := hf i t ht
  refine ⟨by rw [← hstrays, hnone], fun p hp => ?_⟩
  rw [hp] at hpending
  obtain ⟨q, hq, hqp⟩ := Option.map_eq_some_iff.mp hpending
  rw [← hqp]
  exact hall q hq

end Forest

theorem Change.Keeps.declareGlobal {i : Nat} {names : List Tree}
    (h : ∀ t ∈ names, ∃ n, t = .atom (.str n)) :
    (Change.declareGlobal i names).Keeps Scope.strayed := by
  refine (Keeps.pending i _).bind fun _ => Keeps.forM fun t ht => ?_
  obtain ⟨n, rfl⟩ := h t ht
  apply Keeps.update
  intro s
  unfold Scope.strayed
  cases hp : s.pending with
  | none => simp
  | some p =>
    simp only [Option.map_some, Change.declare]
    split_ifs <;> rfl

namespace Workshop

variable {w w' : Workshop}

theorem tidy_step {e : Event} (he : e.Stands) (hw : w.forest.Tidy) (h : w.step e = .ok w') :
    w'.forest.Tidy := by
  have hkeep : ∀ {asked : String} {c : Nat → Change Unit}, (∀ i, (c i).Keeps Scope.strayed) →
      w.onCurrent asked c = .ok w' → w'.forest.Tidy := by
    intro asked c hc h
    obtain ⟨i, rest, f, -, hex, rfl⟩ := onCurrent_ok h
    exact hw.of_views (hc i _ _ _ hex)
  cases e with
  | enter owner =>
    cases h
    intro i s hs
    have hpush : (w.forest.push w.stack.head? owner).scope? i = some s := hs
    rw [Forest.scope?_push] at hpush
    split_ifs at hpush
    · cases hpush
      exact ⟨rfl, fun p hp => by cases hp; rfl⟩
    · exact hw i s hpush
  | leave =>
    obtain ⟨v, hv, hw'⟩ := except_bind_ok h
    obtain ⟨i, rest, f, -, hex, rfl⟩ := onCurrent_ok hv
    cases hw'
    refine hw.of_views (Change.views_resolve Scope.blind_strayed (fun _ _ => rfl) ?_ hex)
    intro s p hs hp
    exact (hw i s hs).2 p hp
  | occur name x =>
    cases name with
    | none => exact hkeep (fun _ => Change.Keeps.throw _) h
    | some n => exact hkeep (fun i => Change.Keeps.add Scope.blind_strayed (fun _ _ => rfl) i n x) h
  | declareGlobal names => exact hkeep (fun _ => Change.Keeps.declareGlobal he) h
  | importing x =>
    refine hkeep (fun i => ?_) h
    exact Change.Keeps.update fun _ => rfl
  | importsAll =>
    refine hkeep (fun i => ?_) h
    exact Change.Keeps.update fun _ => rfl
  | importsFuture names =>
    refine hkeep (fun i => ?_) h
    exact Change.Keeps.update fun _ => rfl
  | fail fault => cases h

theorem tidy_run {es : List Event} (hes : ∀ e ∈ es, e.Stands) (hw : w.forest.Tidy)
    (h : w.run es = .ok w') : w'.forest.Tidy := by
  induction es generalizing w with
  | nil =>
    cases h
    exact hw
  | cons e es ih =>
    obtain ⟨v, hv, h⟩ := run_cons h
    exact ih (fun d hd => hes d (List.mem_cons_of_mem _ hd)) (tidy_step (hes e List.mem_cons_self) hw hv) h

end Workshop

/-- In a source text, only names are declared global. -/
theorem Tree.IsSource.no_strays {t : Tree} (h : t.IsSource) {f : Forest} (hf : t.scopes = .ok f)
    {i : Nat} {s : Scope} (hs : f.scope? i = some s) : s.strays = [] := by
  obtain ⟨-, w, hrun, hscope⟩ := visit_of_scopes h.module h.isProgram.one_module hf
  have hempty : Workshop.start.forest.Tidy := by
    intro i s hs
    cases hs
  have htidy := Workshop.tidy_run h.events_stand hempty hrun
  obtain ⟨u, hu, hsu⟩ := hscope i s hs
  rcases hsu with rfl | rfl
  · exact (htidy i s hu).1
  · exact (htidy i u hu).1

/-! ### Empty entries -/

namespace Share

variable {H : Share} {i k : Nat} {l : List Site} {s : Scope} {n : String}

theorem knows_settle_of_knows (h : H.knows k = true) (isClass owns : Bool) :
    (H.settle i l isClass owns).knows k = true := by
  simp only [settle]
  split_ifs <;> simp [knows_give, h]

theorem knows_claimAll_of_knows (h : H.knows k = true) (js : List Nat) :
    (H.claimAll i s n js).knows k = true := by
  induction js generalizing H with
  | nil => exact h
  | cons j js ih =>
    apply ih
    simp only [claimFrom]
    split
    · simp only [claim]
      split_ifs <;> simp [knows_give, h]
    · exact h

/-- What is known stays known, and what is declared becomes known. -/
theorem knows_resolve {declared : Bool} (h : H.knows 0 = true ∨ declared = true) (js : List Nat) :
    (H.resolve i s n declared 0 js).knows 0 = true := by
  have hsent : (if declared then H.send i 0 else H).knows 0 = true := by
    split_ifs with hd
    · simp [send, knows_give]
    · exact h.resolve_right hd
  have hsettled : ((if declared then H.send i 0 else H).settleLoose i s).knows 0 = true := by
    unfold settleLoose
    split
    · exact knows_settle_of_knows hsent _ _
    · exact hsent
  simp only [resolve]
  cases s.isClass with
  | true => exact hsettled
  | false => exact knows_claimAll_of_knows hsettled js

/-- No entry is empty, but for one of the module under a name of which something holds. -/
structure Backed (H : Share) (d : Prop) : Prop where
  loose : ∀ k, H.loose k ≠ some []
  names : ∀ k, H.names k = some [] → k = 0 ∧ d

namespace Backed

variable {H : Share} {d : Prop} {i : Nat} {l : List Site} {s : Scope} {n : String}

theorem mono {d' : Prop} (h : H.Backed d) (hd : d → d') : H.Backed d' :=
  ⟨h.loose, fun k hk => (h.names k hk).imp_right hd⟩

theorem give (h : H.Backed d) (hl : l ≠ [] ∨ i = 0 ∧ d) : (H.give i l).Backed d := by
  refine ⟨h.loose, fun k hk => ?_⟩
  by_cases hki : k = i
  · subst hki
    simp only [Share.give, Function.update_self, Option.some.injEq, List.append_eq_nil_iff] at hk
    exact hl.resolve_left fun hne => hne hk.2
  · simp only [Share.give, Function.update_of_ne hki] at hk
    exact h.names k hk

theorem setLoose (h : H.Backed d) {o : Option (List Site)} (ho : o ≠ some []) :
    (H.setLoose i o).Backed d := by
  refine ⟨fun k => ?_, h.names⟩
  by_cases hki : k = i
  · subst hki
    simpa only [Share.setLoose, Function.update_self] using ho
  · simpa only [Share.setLoose, Function.update_of_ne hki] using h.loose k

theorem drop (h : H.Backed d) : (H.drop i).Backed d := h.setLoose nofun

theorem add (h : H.Backed d) (here : Bool) (x : Site) : (H.add i here x).Backed d := by
  unfold Share.add
  split_ifs
  · exact h.give (Or.inl (List.cons_ne_nil _ _))
  · exact h.setLoose (by simp)

theorem settle (h : H.Backed d) (hl : l ≠ []) (isClass owns : Bool) :
    (H.settle i l isClass owns).Backed d := by
  simp only [Share.settle, List.isEmpty_iff]
  split_ifs with _ hrest hreads
  · exact h
  · exact (h.give (Or.inl hrest)).drop
  · apply (h.give (Or.inl hrest)).setLoose
    cases (H.give i _).loose i with
    | none => simp
    | some _ => simpa using hreads
  · exact (h.give (Or.inl hl)).drop
  · exact h

theorem settleLoose (h : H.Backed d) : (H.settleLoose i s).Backed d := by
  unfold Share.settleLoose
  split
  next l hl => exact h.settle (fun hnil => h.loose i (hnil ▸ hl)) _ _
  next => exact h

theorem claimFrom (h : H.Backed d) (j : Nat) : (H.claimFrom i s n j).Backed d := by
  unfold Share.claimFrom
  split
  next l hl =>
    have hne : l ≠ [] := fun hnil => h.loose j (hnil ▸ hl)
    unfold Share.claim
    split_ifs
    · exact (h.give (Or.inl hne)).drop
    · exact (h.give (Or.inl hne)).drop
    · exact h
  next => exact h

theorem claimAll (h : H.Backed d) (js : List Nat) : (H.claimAll i s n js).Backed d := by
  induction js generalizing H with
  | nil => exact h
  | cons j js ih => exact ih (h.claimFrom j)

/-- Only sending a declared name to the module may leave an empty entry. -/
theorem resolve (h : H.Backed d) {declared : Bool} (hd : declared = true → d) (js : List Nat) :
    (H.resolve i s n declared 0 js).Backed d := by
  have hsent : (if declared then H.send i 0 else H).Backed d := by
    split_ifs with hdeclared
    · exact h.drop.give (Or.inr ⟨rfl, hd hdeclared⟩)
    · exact h
  simp only [Share.resolve]
  cases s.isClass with
  | true => exact hsent.settleLoose
  | false => exact hsent.settleLoose.claimAll js

end Backed

end Share

/-- Some scope declares a name global. -/
def Log.Declares (L : Log) (n : String) : Prop := ∃ k, (L.record k).declares n = true

theorem Log.lt_size_of_declares {L : Log} {n : String} {k : Nat} (h : (L.record k).declares n = true) :
    k < L.size := by
  by_contra hk
  rw [record_eq_fresh (Nat.le_of_not_lt hk)] at h
  cases h

theorem Log.Declares.step {L : Log} {n : String} (h : L.Declares n) (e : Event) :
    (L.step e).Declares n := by
  obtain ⟨k, hk⟩ := h
  exact ⟨k, (L.extends_step e k).declares hk⟩

/-- The tables have no empty entries, but for names declared global. -/
def Workshop.Backed (w : Workshop) (L : Log) : Prop :=
  ∀ n, (w.forest.tables.share n).Backed (L.Declares n)

theorem Workshop.Follows.backed_step {w w' : Workshop} {L : Log} {e : Event} (hw : w.Follows L)
    (he : w.step e = .ok w') (hb : w.Backed L) : w'.Backed (L.step e) := by
  intro n
  have hmono := (hb n).mono fun h => h.step e
  cases hw.share_step he n with
  | same hne h =>
    rw [h]
    exact hmono
  | add hs h =>
    rw [h]
    exact hmono.add _ _
  | resolve hs h =>
    rw [h]
    exact hmono.resolve (fun hd => ⟨_, hd⟩) _

namespace Tree.IsProgram

variable {t : Tree} {f : Forest} {i : Nat} {s : Scope} {n : String}

/-- In a program, an entry of a scope is empty only in the module, and only under a name that some scope
declares global. -/
theorem of_empty_entry (hp : t.IsProgram) (hf : t.scopes = .ok f) (hs : f.scope? i = some s)
    (hn : s.names.get? n = some []) : i = 0 ∧ t.log.Declares n := by
  have hstart : (⟨Forest.empty.push none t, [0]⟩ : Workshop).Backed (Log.empty.step (.enter t)) := by
    intro n
    rw [Forest.tables_push]
    exact ⟨fun k => nofun, fun k => nofun⟩
  obtain ⟨w, hbacked, hnames⟩ := scopes_induction hp.module hp.one_module (P := Workshop.Backed)
    (fun hw _ he => hw.backed_step he) hstart hf
  refine (hbacked n).names i ?_
  change (w.forest.tables.names i).get? n = some []
  rw [hnames i s hs, hn]

/-- The module has an entry for every name that some scope declares global. -/
theorem key_of_declares (hp : t.IsProgram) (hf : t.scopes = .ok f) (hs : f.scope? 0 = some s)
    (hn : t.log.Declares n) : n ∈ s.names.keys := by
  obtain ⟨w, hrun, hnames⟩ := names_of_scopes hp.module hp.one_module hf
  obtain ⟨es, v, -, -, hvf, hstack, hlast, hlog⟩ := visit_ok hp.module hp.one_module hrun
  generalize (Log.empty.step (.enter t)).run es = L at hvf hstack hlog
  obtain ⟨s', hshare⟩ := hvf.share_leave hstack hlast
  have hknows : (w.forest.tables.share n).knows 0 = true := by
    rw [hshare]
    apply Share.knows_resolve
    obtain ⟨k, hk⟩ := hn
    rw [hlog] at hk
    change (L.record k).declares n = true at hk
    by_cases h0 : k = 0
    · subst h0
      exact Or.inr hk
    · refine Or.inl ?_
      rw [(hvf.describes n).known_root, Bool.or_eq_true]
      refine Or.inr (List.any_eq_true.mpr ⟨k, List.mem_range.mpr (Log.lt_size_of_declares hk), ?_⟩)
      simp [hstack, h0, hk]
  rw [Table.mem_keys_iff, ← hnames 0 s hs]
  exact hknows

end Tree.IsProgram

/-! ### Imported names -/

namespace Log

/-- Every name that is declared global occurs at the module. -/
def globalsOccur (L : Log) : Bool :=
  L.records.all fun r => r.globals.all fun n => !(L.ownedBy 0 n).isEmpty

/-- No inner scope imports a name that it declares global. -/
def importsStay (L : Log) : Bool :=
  L.records.all fun r =>
    r.isModule || r.occurrences.all fun o => !(o.2.tree.isImport && r.declares o.1)

variable {L : Log} {n : String} {x : Site} {k : Nat}

theorem ownedBy_ne_nil_of_declares (h : L.globalsOccur = true) (hn : L.Declares n) :
    L.ownedBy 0 n ≠ [] := by
  obtain ⟨k, hk⟩ := hn
  have hrecord := List.all_eq_true.mp h _ (record_mem (lt_size_of_declares hk))
  have hne := List.all_eq_true.mp hrecord n (List.contains_iff_mem.mp hk)
  simpa using hne

/-- An import binds its name in the scope where it stands, unless the scope declares the name global. -/
theorem Proper.owned_of_isImport (hL : L.Proper) (h : L.importsStay = true) (hx : x.tree.isImport = true)
    (hsite : x ∈ (L.record k).sites n) : x ∈ L.ownedBy k n := by
  by_cases h0 : k = 0
  · subst h0
    exact hL.owned_of_root hsite
  have hk := lt_size_of_mem_sites hsite
  have hwrites : x.tree.writes = true := Tree.writes_of_isBinding (by simp [Tree.isBinding, hx])
  have hdeclares : (L.record k).declares n = false := by
    have hstay := List.all_eq_true.mp h _ (record_mem hk)
    rw [hL.not_isModule h0 hk, Bool.false_or] at hstay
    have hone := List.all_eq_true.mp hstay (n, x) (Record.mem_sites.mp hsite)
    simpa [hx] using hone
  have hinner : (L.record k).isClass = true ∨ (L.record k).isFunction = true := by
    have hopens := hL.inner k (by omega) hk
    rwa [Tree.opensInner, Bool.or_eq_true] at hopens
  rcases hinner with hc | hf
  · refine hL.owned_of_class h0 hk hc hdeclares hsite ?_
    by_contra hr
    rw [Bool.not_eq_false] at hr
    rw [Tree.not_writes_of_isRead hr] at hwrites
    cases hwrites
  · exact hL.owned_of_function h0 hk hf hdeclares (List.any_eq_true.mpr ⟨x, hsite, hwrites⟩) hsite

end Log

namespace Tree.IsSource

variable {t : Tree} {f : Forest} {k : Nat} {s : Scope}

/-- Every entry is that of the occurrences which the log attributes to the scope. -/
theorem perm_of_entry (h : t.IsSource) (hf : t.scopes = .ok f) (hs : f.scope? k = some s)
    {e : String × List Site} (he : e ∈ s.names) : e.2.Perm (t.log.ownedBy k e.1) := by
  obtain ⟨hreal, -⟩ := visit_of_scopes h.module h.isProgram.one_module hf
  have hperm := hreal.owned k e.1
  rwa [Tables.owned, Forest.tables_names hs, Table.itemsOf,
    Table.get?_eq_some_of_mem (hreal.distinct k s hs) he] at hperm

/-- Where every name declared global occurs at the module, no entry is empty. -/
theorem entry_ne_nil (h : t.IsSource) (hf : t.scopes = .ok f) (hg : t.log.globalsOccur = true)
    (hs : f.scope? k = some s) {e : String × List Site} (he : e ∈ s.names) : e.2 ≠ [] := by
  obtain ⟨n, l⟩ := e
  rintro (rfl : l = [])
  obtain ⟨hreal, -⟩ := visit_of_scopes h.module h.isProgram.one_module hf
  have hget : s.names.get? n = some [] := Table.get?_eq_some_of_mem (hreal.distinct k s hs) he
  obtain ⟨rfl, hdeclares⟩ := h.isProgram.of_empty_entry hf hs hget
  exact Log.ownedBy_ne_nil_of_declares hg hdeclares (h.perm_of_entry hf hs he).symm.eq_nil

/-- Where no entry is empty, every name declared global occurs at the module. -/
theorem globalsOccur_of_entries (h : t.IsSource) (hf : t.scopes = .ok f) (hs : f.scope? 0 = some s)
    (hne : ∀ e ∈ s.names, e.2 ≠ []) : t.log.globalsOccur = true := by
  refine List.all_eq_true.mpr fun r hr => List.all_eq_true.mpr fun n hn => ?_
  obtain ⟨k, hk, rfl⟩ := List.getElem_of_mem hr
  have hdeclares : t.log.Declares n := by
    refine ⟨k, ?_⟩
    rw [Log.record, List.getD_eq_getElem?_getD, List.getElem?_eq_getElem hk]
    exact List.contains_iff_mem.mpr hn
  have hkey := h.isProgram.key_of_declares hf hs hdeclares
  rw [Table.mem_keys_iff, Option.isSome_iff_exists] at hkey
  obtain ⟨l, hget⟩ := hkey
  have hmem := Table.mem_of_get? hget
  have hperm := h.perm_of_entry hf hs hmem
  rw [Bool.not_eq_true', List.isEmpty_eq_false_iff]
  intro hnil
  rw [hnil] at hperm
  exact hne _ hmem hperm.eq_nil

/-- What an import statement of a scope binds is a key there. -/
theorem import_key (h : t.IsSource) (hf : t.scopes = .ok f) (hi : t.log.importsStay = true)
    (hs : f.scope? k = some s) {x : Site} (hx : x ∈ s.imports) :
    ∃ items, importedItems x.tree = .ok items ∧ ∀ item ∈ items,
      item.boundName = .ok (.atom (.str "*")) ∨
        ∃ name n, item.boundName = .ok (.atom (.str name)) ∧ name ≠ "*" ∧
          (Text.dottedParts name).head? = some n ∧ n ∈ s.names.keys := by
  obtain ⟨hreal, -⟩ := visit_of_scopes h.module h.isProgram.one_module hf
  obtain ⟨hmet, items, hitems, hall⟩ := h.isProgram.imports_told hf hs hx
  obtain ⟨-, himport⟩ := h.events_stand _ hmet
  refine ⟨items, hitems, fun item hitem => ?_⟩
  obtain ⟨hb, -⟩ | ⟨name, n, hb, hne, hhead, hsite⟩ := hall item hitem
  · exact Or.inl hb
  refine Or.inr ⟨name, n, hb, hne, hhead, ?_⟩
  have howned := hreal.proper.owned_of_isImport hi himport hsite
  have hmem : x ∈ s.names.itemsOf n := by
    have hperm := hreal.owned k n
    rw [Tables.owned, Forest.tables_names hs] at hperm
    exact hperm.mem_iff.mpr howned
  rw [Table.mem_keys_iff]
  rw [Table.itemsOf] at hmem
  cases hget : s.names.get? n with
  | none =>
    rw [hget] at hmem
    cases hmem
  | some l => rfl

end Tree.IsSource

end ScopeLint
