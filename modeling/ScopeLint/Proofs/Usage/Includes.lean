import ScopeLint.Proofs.Text.Parts
import ScopeLint.Proofs.Tree.Places
import ScopeLint.Proofs.Tree.Sample
import ScopeLint.Proofs.Usage.Framework

/-! Urlconfs that include others. What is listed in an included urlconf is marked as used, but the modules
of all calls of `patterns` on the way to it are put before it, and before the name of its own `urlpatterns`
too. So only where these are empty does an include lead to the urlconf that it names. -/

namespace ScopeLint

/-! ### References -/

/-- A name of a module is split off again. -/
theorem WebApp.splitRef_append {module name : String} (h : '.' ∉ name.toList) :
    splitRef (module ++ "." ++ name) = .ok (module, name) := by
  have hparts : (Text.dottedParts module).reverse ≠ [] := by simp [Text.dottedParts]
  obtain ⟨last, before, hbefore⟩ := List.exists_cons_of_ne_nil hparts
  have hmodule : ".".intercalate (last :: before).reverse = module := by
    rw [← hbefore, List.reverse_reverse, Text.intercalate_dottedParts]
  unfold splitRef
  rw [Text.dottedParts_append h, List.reverse_append, hbefore]
  simp [← hmodule]

theorem WebApp.splitRef_urlpatterns (g : String) : splitRef (g ++ ".urlpatterns") = .ok (g, "urlpatterns") := by
  have hdot : g ++ ".urlpatterns" = g ++ "." ++ "urlpatterns" := by
    rw [String.append_assoc]
    rfl
  rw [hdot]
  exact splitRef_append (by decide)

namespace Urlconf

/-! ### Records -/

/-- A record of a urlconf, by the module that is put before it and its view. It stands in a call of
`patterns`, or it is a call of `url` in a file without such calls. -/
inductive Records (file : SourceFile) : String → Tree → Prop
  | within {t call n view : Tree} {nodes args inner : List Tree} {module : String}
    (ht : file.tree = .ok t) (hw : t.walk = .ok nodes) (hc : call ∈ patternCalls nodes)
    (ha : arguments call = .ok args) (hlen : 2 ≤ args.length)
    (hm : textArgument? call 0 = .ok (some module)) (hi : call.walk = .ok inner) (hn : n ∈ inner)
    (hv : recordView? n = .ok (some view)) : Records file module view
  | plain {t n view : Tree} {nodes args : List Tree} (ht : file.tree = .ok t)
    (hw : t.walk = .ok nodes) (hno : patternCalls nodes = []) (hn : n ∈ nodes)
    (hk : n.isCallOf "url" = true) (ha : arguments n = .ok args) (hv : args[1]? = some view) :
    Records file "" view

/-- A view that includes another urlconf. -/
structure IsInclude (view : Tree) (m : String) : Prop where
  call : view.isCallOf "include" = true
  module : textArgument? view 0 = .ok (some m)

variable {fs : FileSet} {file sub : SourceFile} {module m : String} {view : Tree}

theorem lists_of_text {v : String} (h : Records file module view) (hv : view.stringConstant? = some v) :
    Lists file module (.view v) := by
  cases h with
  | within ht hw hc ha hlen hm hi hn hview =>
    refine .record ht hw hc ha hlen hm hi hn ?_
    simp [listed, hview, hv, bind, Except.bind, pure, Except.pure]
  | plain ht hw hno hn hk ha hview =>
    refine .url ht hw hno hn hk ?_
    simp [textArgument?, ha, hview, hv, bind, Except.bind, pure, Except.pure]

/-- The arguments that are nodes come from a list. -/
theorem get?_arguments {n c : Tree} {args : List Tree} (ha : arguments n = .ok args) (hc : c ∈ args)
    (hnode : c.isNode = true) : n.get? "args" = some (.list args) := by
  obtain ⟨t, ht, hparts⟩ := except_bind_ok ha
  have hget : n.get? "args" = some t := by
    unfold Tree.get at ht
    split at ht
    next value hvalue =>
      cases ht
      exact hvalue
    · cases ht
  rw [hget]
  unfold parts at hparts
  cases t with
  | list ts =>
    cases hparts
    rfl
  | node k s fields => cases hparts
  | atom a =>
    cases a with
    | str text =>
      cases hparts
      obtain ⟨x, -, rfl⟩ := List.mem_map.mp hc
      cases hnode
    | bytes bs =>
      cases hparts
      obtain ⟨x, -, rfl⟩ := List.mem_map.mp hc
      cases hnode
    | _ => cases hparts

theorem exists_of_isCallOf {n : String} (h : view.isCallOf n = true) :
    ∃ s fields, view = .node .call s fields := by
  rw [Tree.isCallOf, Bool.and_eq_true] at h
  cases view with
  | node k s fields =>
    cases Option.some.inj (beq_iff_eq.mp h.1)
    exact ⟨s, fields, rfl⟩
  | atom a => cases beq_iff_eq.mp h.1
  | list ts => cases beq_iff_eq.mp h.1

theorem lists_of_include (h : Records file module view) (hi : IsInclude view m) :
    Lists file module (.include m) := by
  obtain ⟨hcall, hmodule⟩ := hi
  obtain ⟨s, fields, rfl⟩ := exists_of_isCallOf hcall
  cases h with
  | within ht hw hc ha hlen hm hi hn hview =>
    refine .record ht hw hc ha hlen hm hi hn ?_
    have htext : (Tree.node .call s fields).stringConstant? = none := rfl
    simp [listed, hview, htext, hcall, hmodule, bind, Except.bind, pure, Except.pure]
  | plain ht hw hno hn hk ha hview =>
    -- The call stands in the list of arguments, so the walk comes to it as well.
    have hmem := List.mem_of_getElem? hview
    have hwalk := Tree.item_mem_walk hw hn (get?_arguments ha hmem rfl) hmem rfl
    exact .inclusion ht hw hno hwalk hcall hmodule

/-! ### Urlconfs on the way -/

/-- A reference with some modules before it. Those that are empty are left out. -/
def under (modules : List String) (ref : String) : String := modules.foldr qualify ref

theorem under_of_empty {modules : List String} (h : ∀ m ∈ modules, m = "") (ref : String) :
    under modules ref = ref := by
  induction modules with
  | nil => rfl
  | cons m modules ih =>
    rw [under, List.foldr_cons, h m List.mem_cons_self, qualify_empty]
    exact ih fun m' hm' => h m' (List.mem_cons_of_mem _ hm')

/-- One urlconf leads to another one by the includes in records. The modules of the calls of `patterns` on
the way are told from the outside in. -/
inductive Reaches (fs : FileSet) : String → SourceFile → List String → String → SourceFile → Prop
  | self (g : String) (file : SourceFile) : Reaches fs g file [] g file
  | step {r m g module : String} {file mid sub : SourceFile} {view : Tree} {modules : List String}
    (hr : Records file module view) (hi : IsInclude view m) (hm : fs.get? m = some mid)
    (h : Reaches fs m mid modules g sub) : Reaches fs r file (module :: modules) g sub

variable {r g ref : String} {modules : List String}

theorem Reaches.get? (hroot : fs.get? r = some file) (h : Reaches fs r file modules g sub) :
    fs.get? g = some sub := by
  induction h with
  | self => exact hroot
  | step _ _ hm _ ih => exact ih hm

/-- What a urlconf on the way refers to, the first one refers to as well. -/
theorem Reaches.refers (h : Reaches fs r file modules g sub) (href : Refers fs sub ref) :
    Refers fs file (under modules ref) := by
  induction h with
  | self => exact href
  | step hr hi hm _ ih => exact .included (lists_of_include hr hi) hm (ih href)

theorem Reaches.urlpatterns (h : Reaches fs r file modules g sub) :
    modules = [] ∧ g = r ∨ Refers fs file (under modules (g ++ ".urlpatterns")) := by
  induction h with
  | self => exact Or.inl ⟨rfl, rfl⟩
  | step hr hi hm _ ih =>
    right
    have hlists := lists_of_include hr hi
    obtain ⟨rfl, rfl⟩ | href := ih
    · exact .urlpatterns hlists hm
    · exact .included hlists hm href

/-- The given root urlconf and those that it reaches are searched for references. The `urlpatterns` of each
and the views in its records are marked where the modules on the way are put before them, so where these
are empty the urlconf itself is marked, and its views as its own records name them. -/
theorem reached_urlconfs_marked {options : WebApp.Options} {root : SourceFile} {σ σ' : Session}
    (hgiven : options.urlconf = some r) (hne : r ≠ "") (hroot : fs.get? r = some root)
    (h : (WebApp.markViews fs options).run σ = (.ok (), σ')) :
    ∀ modules g sub, Reaches fs r root modules g sub →
      (∀ p n, WebApp.Names fs (under modules (g ++ ".urlpatterns")) p n → σ'.used.has p n = true) ∧
      (∀ module view v p n, Records sub module view → view.stringConstant? = some v →
        WebApp.Names fs (under modules (qualify module v)) p n → σ'.used.has p n = true) ∧
      ((∀ m ∈ modules, m = "") → σ'.used.has g "urlpatterns" = true ∧
        ∀ module view v p n, Records sub module view → view.stringConstant? = some v →
          WebApp.Names fs (qualify module v) p n → σ'.used.has p n = true) := by
  intro modules g sub hreach
  have hmarks := WebApp.markViews_marks.marks σ () σ' h
  have hgiven : WebApp.IsRoot fs options r := .given hgiven hne
  have hviews (module : String) (view : Tree) (v p n : String) (hr : Records sub module view)
      (hv : view.stringConstant? = some v)
      (hn : WebApp.Names fs (under modules (qualify module v)) p n) : σ'.used.has p n = true :=
    (hmarks p n).mpr <| Or.inr ⟨r, hgiven, Or.inr ⟨root, hroot, _,
      hreach.refers (.view (lists_of_text hr hv)), hn⟩⟩
  have hpatterns (p n : String) (hn : WebApp.Names fs (under modules (g ++ ".urlpatterns")) p n) :
      σ'.used.has p n = true := by
    rw [hmarks]
    refine Or.inr ⟨r, hgiven, ?_⟩
    obtain ⟨rfl, rfl⟩ | href := hreach.urlpatterns
    · cases (WebApp.splitRef_urlpatterns g).symm.trans hn.1
      exact Or.inl ⟨rfl, rfl⟩
    · exact Or.inr ⟨root, hroot, _, href, hn⟩
  refine ⟨hpatterns, hviews, fun hempty => ?_⟩
  simp only [under_of_empty hempty] at hpatterns hviews
  have hcontains : fs.contains g = true :=
    FileSet.contains_iff.mpr ⟨sub, FileSet.mem_of_get? (hreach.get? hroot)⟩
  exact ⟨hpatterns g "urlpatterns" ⟨WebApp.splitRef_urlpatterns g, hcontains⟩, hviews⟩

section Projects

open Sample

def includeOf (m : String) : Tree := call "include" [constant (.str m) 1 50] 1 42

/-- A urlconf with one record in a call of `patterns`. -/
def patternsConf (package module : String) (view : Tree) : String × SourceFile :=
  fileOf package [assign "urlpatterns" (call "patterns" [constant (.str module) 1 23,
    call "url" [constant (.str "^") 1 36, view] 1 32] 1 14) 1 0]

/-- A urlconf with one record in a list. -/
def listConf (package : String) (view : Tree) : String × SourceFile :=
  fileOf package [assign "urlpatterns" (.node .list (place 1 14)
    [.list [call "url" [constant (.str "^") 1 19, view] 1 15], .node .load .absent []]) 1 0]

/-- A urlconf includes a second one, and that one a third one, which has a module before its view. -/
def chainProject : FileSet :=
  ⟨[patternsConf "urls" "" (includeOf "sub"), listConf "sub" (includeOf "leaf"),
    patternsConf "leaf" "views" (constant (.str "f") 1 42), fileOf "views" [function "f" [] 1 0]]⟩

/-- From the root over a second urlconf to a third one, whose view is marked as its record names it. -/
theorem reached_urlconfs_marked_chain :
    let leaf := (patternsConf "leaf" "views" (constant (.str "f") 1 42)).2
    ∃ root σ, chainProject.get? "urls" = some root ∧
      (WebApp.markViews chainProject ⟨none, some "urls"⟩).run .start = (.ok (), σ) ∧
      Reaches chainProject "urls" root ["", ""] "leaf" leaf ∧
      (∃ view, Records leaf "views" view ∧ view.stringConstant? = some "f") ∧
      σ.used.has "leaf" "urlpatterns" = true ∧ σ.used.has "views" "f" = true := by
  intro leaf
  let root := (patternsConf "urls" "" (includeOf "sub")).2
  let sub := (listConf "sub" (includeOf "leaf")).2
  have hok : ((WebApp.markViews chainProject ⟨none, some "urls"⟩).run .start).1.isOk = true := by
    decide +kernel
  rcases hrun : (WebApp.markViews chainProject ⟨none, some "urls"⟩).run .start with ⟨e | _, σ⟩
  · rw [hrun] at hok
    cases hok
  have hroot : Records root "" (includeOf "sub") :=
    .within rfl rfl (List.mem_of_getElem? (i := 0) rfl) rfl (by decide) rfl rfl
      (List.mem_of_getElem? (i := 3) rfl) rfl
  have hsub : Records sub "" (includeOf "leaf") :=
    .plain rfl rfl rfl (List.mem_of_getElem? (i := 5) rfl) rfl rfl rfl
  have hleaf : Records leaf "views" (constant (.str "f") 1 42) :=
    .within rfl rfl (List.mem_of_getElem? (i := 0) rfl) rfl (by decide) rfl rfl
      (List.mem_of_getElem? (i := 3) rfl) rfl
  have hreach : Reaches chainProject "urls" root ["", ""] "leaf" leaf :=
    .step hroot ⟨rfl, rfl⟩ rfl (.step hsub ⟨rfl, rfl⟩ rfl (.self "leaf" leaf))
  obtain ⟨-, -, hmarked⟩ := reached_urlconfs_marked rfl (by decide) rfl hrun _ _ _ hreach
  obtain ⟨hpatterns, hviews⟩ := hmarked (by simp)
  exact ⟨root, σ, rfl, rfl, hreach, ⟨_, hleaf, rfl⟩, hpatterns, hviews _ _ _ _ _ hleaf rfl ⟨rfl, rfl⟩⟩

/-- A urlconf includes another one in a call of `patterns` with a module. -/
def movedProject : FileSet :=
  ⟨[fileOf "m" [function "f" [] 1 0], patternsConf "sub" "" (constant (.str "m.f") 1 36),
    patternsConf "urls" "views" (includeOf "sub")]⟩

/-- The module of the call in which an include stands moves all that it leads to. Neither the included
urlconf nor its view is marked. -/
theorem include_in_module_unmarked :
    let sub := (patternsConf "sub" "" (constant (.str "m.f") 1 36)).2
    ∃ root σ, movedProject.get? "urls" = some root ∧
      (WebApp.markViews movedProject ⟨none, some "urls"⟩).run .start = (.ok (), σ) ∧
      Reaches movedProject "urls" root ["views"] "sub" sub ∧
      (∃ view, Records sub "" view ∧ view.stringConstant? = some "m.f") ∧
      σ.used.has "sub" "urlpatterns" = false ∧ σ.used.has "m" "f" = false := by
  intro sub
  have hrun : let result := (WebApp.markViews movedProject ⟨none, some "urls"⟩).run .start
      result.1.isOk = true ∧ result.2.used.has "sub" "urlpatterns" = false ∧
        result.2.used.has "m" "f" = false := by
    decide +kernel
  obtain ⟨hok, hpatterns, hview⟩ := hrun
  rcases hresult : (WebApp.markViews movedProject ⟨none, some "urls"⟩).run .start with ⟨e | _, σ⟩
  · rw [hresult] at hok
    cases hok
  rw [hresult] at hpatterns hview
  have hroot : Records (patternsConf "urls" "views" (includeOf "sub")).2 "views" (includeOf "sub") :=
    .within rfl rfl (List.mem_of_getElem? (i := 0) rfl) rfl (by decide) rfl rfl
      (List.mem_of_getElem? (i := 3) rfl) rfl
  have hsub : Records sub "" (constant (.str "m.f") 1 36) :=
    .within rfl rfl (List.mem_of_getElem? (i := 0) rfl) rfl (by decide) rfl rfl
      (List.mem_of_getElem? (i := 3) rfl) rfl
  exact ⟨_, σ, rfl, rfl, .step hroot ⟨rfl, rfl⟩ rfl (.self "sub" sub), ⟨_, hsub, rfl⟩, hpatterns, hview⟩

end Projects

end Urlconf

end ScopeLint
