import ScopeLint.Proofs.Project.FileSet
import ScopeLint.Proofs.Usage.Marks
import ScopeLint.Proofs.Usage.References
import ScopeLint.Usage.WebApp

/-! What a web framework uses of a project, with a rule for each of its conventions. The search marks
exactly the names that one of these rules gives, and it prints nothing. -/

namespace ScopeLint

namespace Run

variable {α β : Type}

/-- When the run completes, it has marked these names and printed nothing. -/
structure MarksOnly (r : Run α) (M : String → String → Prop) : Prop where
  marks : r.Marks M
  quiet : ∀ σ a σ', r.run σ = (.ok a, σ') → σ'.lines = σ.lines

namespace MarksOnly

theorem congr {r : Run α} {M N : String → String → Prop} (h : r.MarksOnly M)
    (hMN : ∀ p n, M p n ↔ N p n) : r.MarksOnly N := ⟨h.marks.congr hMN, h.quiet⟩

theorem pure (a : α) : (Pure.pure a : Run α).MarksOnly fun _ _ => False :=
  ⟨Marks.pure a, fun σ b σ' h => by cases h; rfl⟩

theorem throw (fault : Fault) (M : String → String → Prop) :
    (MonadExcept.throw fault : Run α).MarksOnly M :=
  ⟨fun σ a σ' h => (by cases h), fun σ a σ' h => (by cases h)⟩

theorem markText (package name : String) :
    (Run.markText package name).MarksOnly fun p n => p = package ∧ n = name :=
  ⟨markText_marks package name, fun σ a σ' h => by cases h; rfl⟩

/-- One run after another. The first one only finds something out. -/
theorem bind_found {r : Run α} {g : α → Run β} {P : α → Prop} {M : String → String → Prop}
    (hr : ∀ σ a σ', r.run σ = (.ok a, σ') → P a ∧ σ' = σ) (hg : ∀ a, P a → (g a).MarksOnly M) :
    (r >>= g).MarksOnly M := by
  constructor
  · intro σ b σ' h
    obtain ⟨a, mid, ha, hb⟩ := run_bind_ok h
    obtain ⟨hP, rfl⟩ := hr σ a mid ha
    exact (hg a hP).marks mid b σ' hb
  · intro σ b σ' h
    obtain ⟨a, mid, ha, hb⟩ := run_bind_ok h
    obtain ⟨hP, rfl⟩ := hr σ a mid ha
    exact (hg a hP).quiet mid b σ' hb

theorem bind_lift {e : Except Fault α} {g : α → Run β} {M : α → String → String → Prop}
    (hg : ∀ a, e = .ok a → (g a).MarksOnly (M a)) :
    (lift e >>= g).MarksOnly fun p n => ∃ a, e = .ok a ∧ M a p n :=
  bind_found (P := fun a => e = .ok a) (fun _ _ _ h => lift_ok h) fun a ha =>
    (hg a ha).congr fun p n => by simp [ha]

theorem bind_firstOf {sites : List Site} {g : Site → Run β} {M : Site → String → String → Prop}
    (hg : ∀ site, (g site).MarksOnly (M site)) :
    (firstOf sites >>= g).MarksOnly fun p n => ∃ site rest, sites = site :: rest ∧ M site p n :=
  bind_found (P := fun site => ∃ rest, sites = site :: rest) (fun _ _ _ h => firstOf_ok h) <| by
    rintro site ⟨rest, rfl⟩
    exact (hg site).congr fun p n => by simp

theorem seq {r : Run α} {g : α → Run β} {M N : String → String → Prop} (hr : r.MarksOnly M)
    (hg : ∀ a, (g a).MarksOnly N) : (r >>= g).MarksOnly fun p n => M p n ∨ N p n := by
  refine ⟨hr.marks.seq fun a => (hg a).marks, fun σ b σ' h => ?_⟩
  obtain ⟨a, mid, ha, hb⟩ := run_bind_ok h
  rw [(hg a).quiet mid b σ' hb, hr.quiet σ a mid ha]

theorem forM {l : List β} {g : β → Run PUnit} {M : β → String → String → Prop}
    (hg : ∀ b ∈ l, (g b).MarksOnly (M b)) : (l.forM g).MarksOnly fun p n => ∃ b ∈ l, M b p n := by
  induction l with
  | nil => exact (pure PUnit.unit).congr fun p n => by simp
  | cons b l ih =>
    have hl := ih fun c hc => hg c (List.mem_cons_of_mem _ hc)
    refine ((hg b List.mem_cons_self).seq fun _ => hl).congr fun p n => ?_
    simp

theorem markTexts (package : String) (names : List String) :
    (Run.markTexts package names).MarksOnly fun p n => p = package ∧ n ∈ names :=
  (forM fun name _ => markText package name).congr fun p n => by simp [and_comm]

/-- A run that is left out on a condition marks nothing then. -/
theorem guard {c : Prop} [Decidable c] {r : Run Unit} {M : String → String → Prop}
    (hr : r.MarksOnly M) : (if c then r else Pure.pure ()).MarksOnly fun p n => c ∧ M p n := by
  split_ifs with hc
  · exact hr.congr fun p n => by simp [hc]
  · exact (pure ()).congr fun p n => by simp [hc]

end MarksOnly

end Run

namespace WebApp

open Run

variable {fs : FileSet} {options : Options}

/-! ### The conventions -/

/-- A reference names something in a file of the project. -/
def Names (fs : FileSet) (ref p n : String) : Prop := splitRef ref = .ok (p, n) ∧ fs.contains p = true

/-- A file sets a name in capitals, first at this place. -/
structure Sets (file : SourceFile) (name : Atom) (site : Site) : Prop where
  entry : ∃ s rest, file.moduleScope = .ok s ∧ (name, site :: rest) ∈ s.entries
  store : site.tree.isStore = true
  capitals : site.tree.isConstantName = true

/-- Settings are used, and so is what the paths in their values name. -/
inductive SettingUses (fs : FileSet) (file : SourceFile) : String → String → Prop
  | name {name : Atom} {site : Site} (hs : Sets file name site) :
    SettingUses fs file file.package name.text
  | value {name : Atom} {site : Site} {up value : Tree} {texts : List String} {ref p n : String}
    (hs : Sets file name site) (hup : site.parent = .ok up) (ha : up.isKind .assign = true)
    (hv : up.get "value" = .ok value) (ht : dottedTexts value = .ok texts) (hr : ref ∈ texts)
    (hn : Names fs ref p n) : SettingUses fs file p n

/-- The settings name a root urlconf of the project. -/
inductive NamesRoot (fs : FileSet) (file : SourceFile) : String → Prop
  | intro {s : Scope} {site : Site} {rest : List Site} {root : String} (hs : file.moduleScope = .ok s)
    (hn : s.names.get? "ROOT_URLCONF" = some (site :: rest))
    (hl : assignedLiteral site = .ok (.atom (.str root))) (hc : fs.contains root = true) :
    NamesRoot fs file root

/-- A root urlconf is given, or it is named by the settings. -/
inductive IsRoot (fs : FileSet) (options : Options) : String → Prop
  | given {root : String} (h : options.urlconf = some root) (hne : root ≠ "") : IsRoot fs options root
  | named {file : SourceFile} {root : String} (hf : settingsFile? fs options = some file)
    (hr : NamesRoot fs file root) : IsRoot fs options root

/-- The name of an application configuration is used, and so is what it refers to. -/
inductive ConfigUses (fs : FileSet) (package : String) (file : SourceFile) : String → String → Prop
  | name {s : Scope} {sites : List Site} (hs : file.moduleScope = .ok s)
    (hn : s.names.get? "default_app_config" = some sites) :
    ConfigUses fs package file package "default_app_config"
  | value {s : Scope} {site : Site} {rest : List Site} {up value : Tree} {ref p n : String}
    (hs : file.moduleScope = .ok s) (hn : s.names.get? "default_app_config" = some (site :: rest))
    (hup : site.parent = .ok up) (hv : up.get "value" = .ok value)
    (hl : value.literal = .ok (.atom (.str ref))) (hr : Names fs ref p n) :
    ConfigUses fs package file p n

/-- A definition of a file is registered by a decorator. -/
inductive Registered (file : SourceFile) : String → Prop
  | intro {s : Scope} {name : Atom} {site : Site} {rest : List Site} {t : Tree} {decorators : List Tree}
    (hs : file.moduleScope = .ok s) (he : (name, site :: rest) ∈ s.entries)
    (hd : site.tree.isDefinition = true) (ht : site.tree.get "decorator_list" = .ok t)
    (hi : t.items = .ok decorators) (hr : registers decorators = .ok true) : Registered file name.text

/-- The ways in which a framework uses a name of a file. -/
inductive Uses (fs : FileSet) (options : Options) : String → String → Prop
  | setting {file : SourceFile} {p n : String} (hf : settingsFile? fs options = some file)
    (hu : SettingUses fs file p n) : Uses fs options p n
  | urlconf {root : String} (hr : IsRoot fs options root) : Uses fs options root "urlpatterns"
  | view {root ref p n : String} {file : SourceFile} (hr : IsRoot fs options root)
    (hf : fs.get? root = some file) (href : Urlconf.Refers fs file ref) (hn : Names fs ref p n) :
    Uses fs options p n
  | config {package p n : String} {file : SourceFile} (hf : (package, file) ∈ fs.files)
    (hu : ConfigUses fs package file p n) : Uses fs options p n
  | migration {package n : String} (hf : fs.contains package = true)
    (hp : hasPart "migrations." package = true) (hn : n ∈ ["Migration", "models"]) :
    Uses fs options package n
  | command {package n : String} (hf : fs.contains package = true)
    (hp : hasPart "management.commands." package = true) (hn : n ∈ ["Command"]) :
    Uses fs options package n
  | registered {package n : String} {file : SourceFile} (hf : (package, file) ∈ fs.files)
    (hr : Registered file n) : Uses fs options package n

/-! ### What the parts of the search mark -/

theorem markRefs_marks (refs : List String) :
    (markRefs fs refs).MarksOnly fun p n => ∃ ref ∈ refs, Names fs ref p n := by
  apply MarksOnly.forM
  intro ref _
  refine (MarksOnly.bind_lift fun parts _ => (MarksOnly.markText parts.1 parts.2).guard).congr fun p n => ?_
  unfold Names
  grind

theorem markSettings_marks (file : SourceFile) :
    (markSettings fs file).MarksOnly (SettingUses fs file) := by
  refine (MarksOnly.bind_lift fun s _ => MarksOnly.forM fun entry _ => MarksOnly.bind_firstOf fun site =>
    ((MarksOnly.markText file.package entry.1.text).seq fun _ => MarksOnly.bind_lift fun up _ =>
      (MarksOnly.bind_lift fun texts _ => markRefs_marks texts).guard).guard).congr fun p n => ?_
  simp only [except_bind_eq_ok, Bool.and_eq_true]
  constructor
  · rintro ⟨s, hs, ⟨name, _⟩, he, site, rest, rfl, ⟨hstore, hcapitals⟩, h⟩
    have hsets : Sets file name site := ⟨⟨s, rest, hs, he⟩, hstore, hcapitals⟩
    obtain ⟨rfl, rfl⟩ | ⟨up, hup, ha, texts, ⟨value, hv, ht⟩, ref, hr, hn⟩ := h
    · exact .name hsets
    · exact .value hsets hup ha hv ht hr hn
  · rintro (⟨⟨⟨s, rest, hs, he⟩, hstore, hcapitals⟩⟩ |
      ⟨⟨⟨s, rest, hs, he⟩, hstore, hcapitals⟩, hup, ha, hv, ht, hr, hn⟩)
    · exact ⟨s, hs, _, he, _, rest, rfl, ⟨hstore, hcapitals⟩, Or.inl ⟨rfl, rfl⟩⟩
    · exact ⟨s, hs, _, he, _, rest, rfl, ⟨hstore, hcapitals⟩,
        Or.inr ⟨_, hup, ha, _, ⟨_, hv, ht⟩, _, hr, hn⟩⟩

/-- The root urlconf is found without marking or printing anything. -/
theorem rootUrlconf_ok {file : SourceFile} {roots : List String} {σ σ' : Session}
    (h : (rootUrlconf fs file).run σ = (.ok roots, σ')) :
    (∀ root, root ∈ roots ↔ NamesRoot fs file root) ∧ σ' = σ := by
  obtain ⟨s, σ₁, hlift, h₁⟩ := run_bind_ok h
  obtain ⟨hs, rfl⟩ := lift_ok hlift
  split at h₁
  · cases h₁
  next sites hsites =>
  obtain ⟨site, σ₂, hfirst, h₂⟩ := run_bind_ok h₁
  obtain ⟨⟨rest, rfl⟩, rfl⟩ := firstOf_ok hfirst
  obtain ⟨l, σ₃, hlift, h₃⟩ := run_bind_ok h₂
  obtain ⟨hl, rfl⟩ := lift_ok hlift
  have hnamed (root : String) :
      NamesRoot fs file root ↔ l = .atom (.str root) ∧ fs.contains root = true := by
    constructor
    · rintro ⟨hs', hsites', hl', hc⟩
      cases hs.symm.trans hs'
      cases hsites.symm.trans hsites'
      exact ⟨Except.ok.inj (hl.symm.trans hl'), hc⟩
    · rintro ⟨rfl, hc⟩
      exact ⟨hs, hsites, hl, hc⟩
  simp only [hnamed]
  split at h₃
  · cases h₃
    refine ⟨fun root => ?_, rfl⟩
    split_ifs with hc <;> grind
  next a hstr =>
    cases h₃
    exact ⟨fun root => by simpa using fun h => (hstr root h).elim, rfl⟩
  · cases h₃

theorem rootUrlconfs_ok {roots : List String} {σ σ' : Session}
    (h : (rootUrlconfs fs options).run σ = (.ok roots, σ')) :
    (∀ root, root ∈ roots ↔ IsRoot fs options root) ∧ σ' = σ := by
  obtain ⟨given, hgiven, hrun⟩ : ∃ given : List String,
      (∀ root, root ∈ given ↔ options.urlconf = some root ∧ root ≠ "") ∧ rootUrlconfs fs options =
        (settingsFile? fs options).elim (pure given) fun file => return (← rootUrlconf fs file) ++ given := by
    unfold rootUrlconfs
    cases options.urlconf with
    | none => exact ⟨[], by simp, by cases settingsFile? fs options <;> rfl⟩
    | some u =>
      refine ⟨if u.isEmpty then [] else [u], fun root => ?_, ?_⟩
      · grind [String.isEmpty_iff]
      · cases settingsFile? fs options <;> rfl
  rw [hrun] at h
  cases hf : settingsFile? fs options with
  | none =>
    rw [hf] at h
    cases h
    refine ⟨fun root => (hgiven root).trans ?_, rfl⟩
    constructor
    · rintro ⟨hroot, hne⟩
      exact .given hroot hne
    · rintro (⟨hroot, hne⟩ | ⟨hf', -⟩)
      · exact ⟨hroot, hne⟩
      · cases hf.symm.trans hf'
  | some file =>
    rw [hf] at h
    obtain ⟨named, σ₁, h₁, h₂⟩ := run_bind_ok h
    obtain ⟨hnamed, rfl⟩ := rootUrlconf_ok h₁
    cases h₂
    refine ⟨fun root => ?_, rfl⟩
    rw [List.mem_append, hnamed]
    refine (or_congr_right (hgiven root)).trans ?_
    constructor
    · rintro (hr | ⟨hroot, hne⟩)
      · exact .named hf hr
      · exact .given hroot hne
    · rintro (⟨hroot, hne⟩ | ⟨hf', hr⟩)
      · exact Or.inr ⟨hroot, hne⟩
      · cases hf.symm.trans hf'
        exact Or.inl hr

theorem markViews_marks : (markViews fs options).MarksOnly fun p n => ∃ root, IsRoot fs options root ∧
    (p = root ∧ n = "urlpatterns" ∨ ∃ file, fs.get? root = some file ∧
      ∃ ref, Urlconf.Refers fs file ref ∧ Names fs ref p n) := by
  apply MarksOnly.bind_found fun _ _ _ h => rootUrlconfs_ok h
  intro roots hroots
  have hroot (root : String) : (do
      Run.markText root "urlpatterns"
      let file ← Run.lift (fs.get root)
      markRefs fs (← Run.lift (Urlconf.refs fs file)) : Run Unit).MarksOnly fun p n =>
        p = root ∧ n = "urlpatterns" ∨ ∃ file, fs.get root = .ok file ∧
          ∃ ref, Urlconf.Refers fs file ref ∧ Names fs ref p n := by
    apply (MarksOnly.markText root "urlpatterns").seq
    intro _
    apply MarksOnly.bind_lift
    intro file _
    apply MarksOnly.bind_found fun _ _ _ h => lift_ok h
    intro refs hrefs
    exact (markRefs_marks refs).congr fun p n => by simp only [Urlconf.mem_refs hrefs]
  refine (MarksOnly.forM fun root _ => hroot root).congr fun p n => ?_
  simp only [hroots, FileSet.get_eq_ok]

theorem markAppConfig_marks (package : String) (file : SourceFile) :
    (markAppConfig fs package file).MarksOnly (ConfigUses fs package file) := by
  apply MarksOnly.bind_found fun _ _ _ h => lift_ok h
  intro s hs
  cases hsites : s.names.get? "default_app_config" with
  | none =>
    refine (MarksOnly.pure ()).congr fun p n => ⟨False.elim, ?_⟩
    rintro (⟨hs', hn⟩ | ⟨hs', hn, -⟩) <;> cases hs.symm.trans hs' <;> cases hsites.symm.trans hn
  | some sites =>
    refine ((MarksOnly.markText package "default_app_config").seq fun _ =>
      MarksOnly.bind_firstOf (M := fun site p n =>
        ∃ value, (do (← site.parent).get "value") = .ok value ∧ ∃ l, value.literal = .ok l ∧
          ∃ ref, l = .atom (.str ref) ∧ Names fs ref p n) fun site => ?_).congr fun p n => ?_
    · apply MarksOnly.bind_lift
      intro value _
      apply MarksOnly.bind_lift
      intro l _
      split
      · exact (markRefs_marks _).congr fun p n => by simp
      · exact MarksOnly.throw _ _
    simp only [except_bind_eq_ok]
    constructor
    · rintro (⟨rfl, rfl⟩ | ⟨site, rest, rfl, value, ⟨up, hup, hv⟩, _, hl, ref, rfl, hn⟩)
      · exact .name hs hsites
      · exact .value hs hsites hup hv hl hn
    · rintro (⟨hs', hn⟩ | ⟨hs', hn, hup, hv, hl, hr⟩)
      · exact Or.inl ⟨rfl, rfl⟩
      · cases hs.symm.trans hs'
        cases hsites.symm.trans hn
        exact Or.inr ⟨_, _, rfl, _, ⟨_, hup, hv⟩, _, hl, _, rfl, hr⟩

theorem markWithin_marks (part : String) (names : List String) :
    (markWithin fs part names).MarksOnly fun p n =>
      fs.contains p = true ∧ hasPart part p = true ∧ n ∈ names := by
  refine (MarksOnly.forM fun entry _ => (MarksOnly.markTexts entry.1 names).guard).congr fun p n => ?_
  rw [FileSet.contains_iff]
  constructor
  · rintro ⟨⟨_, file⟩, he, hp, rfl, hn⟩
    exact ⟨⟨file, he⟩, hp, hn⟩
  · rintro ⟨⟨file, he⟩, hp, hn⟩
    exact ⟨(p, file), he, hp, rfl, hn⟩

theorem markRegistered_marks (package : String) (file : SourceFile) :
    (markRegistered package file).MarksOnly fun p n => p = package ∧ Registered file n := by
  refine (MarksOnly.bind_lift fun s _ => MarksOnly.forM fun entry _ => MarksOnly.bind_firstOf fun site =>
    (MarksOnly.bind_lift fun decorators _ => MarksOnly.bind_lift fun b _ =>
      (MarksOnly.markText package entry.1.text).guard).guard).congr fun p n => ?_
  simp only [except_bind_eq_ok]
  constructor
  · rintro ⟨s, hs, ⟨name, _⟩, he, site, rest, rfl, hd, decorators, ⟨t, ht, hi⟩, b, hr, rfl, rfl, rfl⟩
    exact ⟨rfl, .intro hs he hd ht hi hr⟩
  · rintro ⟨rfl, hs, he, hd, ht, hi, hr⟩
    exact ⟨_, hs, _, he, _, _, rfl, hd, _, ⟨_, ht, hi⟩, true, hr, rfl, rfl, rfl⟩

/-- The search for what a framework uses marks this and nothing else. -/
theorem markAll_marks : (markAll fs options).MarksOnly (Uses fs options) := by
  have hsettings : ((settingsFile? fs options).forM (markSettings fs)).MarksOnly fun p n =>
      ∃ file, settingsFile? fs options = some file ∧ SettingUses fs file p n := by
    cases settingsFile? fs options with
    | none => exact (MarksOnly.pure PUnit.unit).congr fun p n => by simp
    | some file => exact (markSettings_marks file).congr fun p n => by simp
  refine (hsettings.seq fun _ => markViews_marks.seq fun _ =>
    (MarksOnly.forM fun e _ => markAppConfig_marks e.1 e.2).seq fun _ =>
    (markWithin_marks "migrations." ["Migration", "models"]).seq fun _ =>
    (markWithin_marks "management.commands." ["Command"]).seq fun _ =>
    MarksOnly.forM fun e _ => markRegistered_marks e.1 e.2).congr fun p n => ?_
  constructor
  · rintro (⟨file, hf, hu⟩ | ⟨root, hr, ⟨rfl, rfl⟩ | ⟨file, hf, ref, href, hn⟩⟩ | ⟨e, hf, hu⟩ |
      ⟨hf, hp, hn⟩ | ⟨hf, hp, hn⟩ | ⟨e, hf, rfl, hr⟩)
    · exact .setting hf hu
    · exact .urlconf hr
    · exact .view hr hf href hn
    · exact .config hf hu
    · exact .migration hf hp hn
    · exact .command hf hp hn
    · exact .registered hf hr
  · intro h
    cases h with
    | setting hf hu => exact Or.inl ⟨_, hf, hu⟩
    | urlconf hr => exact Or.inr (Or.inl ⟨_, hr, Or.inl ⟨rfl, rfl⟩⟩)
    | view hr hf href hn => exact Or.inr (Or.inl ⟨_, hr, Or.inr ⟨_, hf, _, href, hn⟩⟩)
    | config hf hu => exact Or.inr (Or.inr (Or.inl ⟨_, hf, hu⟩))
    | migration hf hp hn => exact Or.inr (Or.inr (Or.inr (Or.inl ⟨hf, hp, hn⟩)))
    | command hf hp hn => exact Or.inr (Or.inr (Or.inr (Or.inr (Or.inl ⟨hf, hp, hn⟩))))
    | registered hf hr => exact Or.inr (Or.inr (Or.inr (Or.inr (Or.inr ⟨_, hf, rfl, hr⟩))))

/-! ### More files -/

section Mono

variable {fs' : FileSet} {file : SourceFile} {ref package root p n : String} (h : fs.Within fs')

include h

theorem Names.mono (hn : Names fs ref p n) : Names fs' ref p n := ⟨hn.1, h.contains p hn.2⟩

theorem SettingUses.mono (hu : SettingUses fs file p n) : SettingUses fs' file p n := by
  cases hu with
  | name hs => exact .name hs
  | value hs hup ha hv ht hr hn => exact .value hs hup ha hv ht hr (hn.mono h)

theorem ConfigUses.mono (hu : ConfigUses fs package file p n) : ConfigUses fs' package file p n := by
  cases hu with
  | name hs hn => exact .name hs hn
  | value hs hn hup hv hl hr => exact .value hs hn hup hv hl (hr.mono h)

theorem settingsFile?_mono (hf : settingsFile? fs options = some file) :
    settingsFile? fs' options = some file := by
  obtain ⟨package, hp, hf⟩ := Option.bind_eq_some_iff.mp hf
  exact Option.bind_eq_some_iff.mpr ⟨package, hp, h.get package file hf⟩

theorem IsRoot.mono (hr : IsRoot fs options root) : IsRoot fs' options root := by
  obtain ⟨hroot, hne⟩ | ⟨hf, ⟨hs, hn, hl, hc⟩⟩ := hr
  · exact .given hroot hne
  · exact .named (settingsFile?_mono h hf) (.intro hs hn hl (h.contains root hc))

/-- A framework uses more of a larger project. -/
theorem Uses.mono (hu : Uses fs options p n) : Uses fs' options p n := by
  cases hu with
  | setting hf hu => exact .setting (settingsFile?_mono h hf) (hu.mono h)
  | urlconf hr => exact .urlconf (hr.mono h)
  | view hr hf href hn => exact .view (hr.mono h) (h.get _ _ hf) (href.mono h.get) (hn.mono h)
  | config hf hu => exact .config (h.mem _ hf) (hu.mono h)
  | migration hf hp hn => exact .migration (h.contains _ hf) hp hn
  | command hf hp hn => exact .command (h.contains _ hf) hp hn
  | registered hf hr => exact .registered (h.mem _ hf) hr

end Mono

end WebApp

end ScopeLint
