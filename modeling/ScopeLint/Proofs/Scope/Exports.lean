import ScopeLint.Proofs.Scope.Parameters
import ScopeLint.Proofs.Tree.NestedLiteral
import ScopeLint.Proofs.Tree.Sample
import ScopeLint.Proofs.Tree.Source
import ScopeLint.Scope.Exports

/-! What a module exports. Its `__all__` is a sequence of texts that statements of the module assign and
lengthen. The exports are the texts of the first assignment, whatever the statements after it do: an
entry of the module only grows at its end, and the exports are read off its first occurrence. Where
something else than a literal is assigned there, the exports are not known. -/

namespace ScopeLint

/-! ### Sequences of texts -/

/-- A list or a tuple of texts. -/
structure TextSeq where
  isTuple : Bool
  texts : List String
deriving DecidableEq

/-- A sequence made longer in place. A tuple takes no list. -/
def TextSeq.extend? (v w : TextSeq) : Option TextSeq :=
  if v.isTuple && !w.isTuple then none else some ⟨v.isTuple, v.texts ++ w.texts⟩

namespace Tree

/-- The text of a constant as a parser makes it. -/
def text? : Tree → Option String
  | .node .constant _ [.atom (.str s), .atom _] => some s
  | _ => none

/-- A list or a tuple of texts, written out. -/
def textSeq? : Tree → Option TextSeq
  | .node .list _ [.list items, .node .load _ []] => (items.mapM text?).map (⟨false, ·⟩)
  | .node .tuple _ [.list items, .node .load _ []] => (items.mapM text?).map (⟨true, ·⟩)
  | _ => none

/-- What a statement assigns to `__all__`. -/
def assignedExports? : Tree → Option TextSeq
  | .node .assign _ (.list [target] :: value :: _) =>
    if target.identifier? = some "__all__" then value.textSeq? else none
  | _ => none

/-- What a statement adds to `__all__`. -/
def addedExports? : Tree → Option TextSeq
  | .node .augAssign _ [target, op, value] =>
    if target.identifier? = some "__all__" ∧ op.isKind .addOp = true then value.textSeq? else none
  | _ => none

end Tree

/-- What some statements make of `__all__`, if none of them fails. -/
def TextSeq.after? (v : TextSeq) : List Tree → Option TextSeq
  | [] => some v
  | t :: ts =>
    match t.assignedExports?, t.addedExports? with
    | some w, _ => w.after? ts
    | none, some w => (v.extend? w).bind fun u => u.after? ts
    | none, none => v.after? ts

/-- The texts that a statement adds to `__all__`. -/
def Tree.addedTexts (t : Tree) : List String := (t.addedExports?.map TextSeq.texts).getD []

/-- Without a further assignment, `__all__` grows by what is added. -/
theorem TextSeq.texts_of_after? {v w : TextSeq} {ts : List Tree} (h : v.after? ts = some w)
    (hts : ∀ t ∈ ts, t.assignedExports? = none) : w.texts = v.texts ++ ts.flatMap Tree.addedTexts := by
  induction ts generalizing v with
  | nil =>
    cases h
    exact (List.append_nil _).symm
  | cons t ts ih =>
    have hrest : ∀ u ∈ ts, u.assignedExports? = none := fun u hu => hts u (List.mem_cons_of_mem _ hu)
    rw [after?, hts t List.mem_cons_self] at h
    rw [List.flatMap_cons, Tree.addedTexts]
    rcases hadded : t.addedExports? with _ | u
    · rw [hadded] at h
      exact ih h hrest
    · rw [hadded] at h
      obtain ⟨v', hv', h⟩ := Option.bind_eq_some_iff.mp h
      unfold extend? at hv'
      split_ifs at hv'
      cases hv'
      rw [ih h hrest]
      exact List.append_assoc _ _ _

/-- The exports of a module with some texts in its `__all__`. -/
def Exports.ofTexts (texts : List String) : Exports :=
  ⟨some (.list (texts.map fun s => .atom (.str s))), false⟩

theorem Exports.ofSite_of_literal {x : Site} {statement value : Tree} {targets : List Tree}
    {l : Literal} (hparent : x.parent = .ok statement) (hk : statement.isKind .assign = true)
    (htargets : statement.get "targets" = .ok (.list targets)) (hone : targets.length = 1)
    (hvalue : statement.get "value" = .ok value) (hl : value.literal = .ok l) :
    ofSite x = .ok ⟨some l, false⟩ := by
  simp [ofSite, hparent, hk, htargets, hone, hvalue, hl, Tree.length, bind, Except.bind, pure,
    Except.pure]

namespace Tree

variable {t : Tree} {v : TextSeq}

theorem eq_of_text? {s : String} (h : t.text? = some s) :
    ∃ sp a, t = .node .constant sp [.atom (.str s), .atom a] := by
  unfold text? at h
  split at h
  next sp s' a =>
    cases h
    exact ⟨sp, a, rfl⟩
  · cases h

theorem texts_cons {items : List Tree} {texts : List String}
    (h : (t :: items).mapM text? = some texts) :
    ∃ s rest, t.text? = some s ∧ items.mapM text? = some rest ∧ texts = s :: rest := by
  rw [List.mapM_cons] at h
  obtain ⟨s, hs, h⟩ := Option.bind_eq_some_iff.mp h
  obtain ⟨rest, hrest, h⟩ := Option.bind_eq_some_iff.mp h
  exact ⟨s, rest, hs, hrest, (Option.some.inj h).symm⟩

/-- Texts that are written out are literals, and no name stands in them. -/
theorem literals_of_texts {items : List Tree} {texts : List String}
    (h : items.mapM text? = some texts) :
    literals items = .ok (texts.map fun s => .atom (.str s)) ∧
      ∀ trail i, nodeEvents trail i items = [] := by
  induction items generalizing texts with
  | nil =>
    cases h
    exact ⟨rfl, fun _ _ => rfl⟩
  | cons t items ih =>
    obtain ⟨s, rest, hs, hrest, rfl⟩ := texts_cons h
    obtain ⟨hliterals, hevents⟩ := ih hrest
    obtain ⟨sp, a, rfl⟩ := eq_of_text? hs
    constructor
    · rw [literals, hliterals]
      rfl
    · intro trail i
      rw [nodeEvents, hevents]
      rfl

theorem literal_of_textSeq? (h : t.textSeq? = some v) :
    t.literal = .ok (.list (v.texts.map fun s => .atom (.str s))) ∧ ∀ trail, t.events trail = [] := by
  have hseq {k : Kind} {sp sp' : Span} {items : List Tree} {texts : List String}
      (hk : k = .list ∨ k = .tuple) (hitems : items.mapM text? = some texts) :
      (Tree.node k sp [.list items, .node .load sp' []]).literal =
          .ok (.list (texts.map fun s => .atom (.str s))) ∧
        ∀ trail, (Tree.node k sp [.list items, .node .load sp' []]).events trail = [] := by
    obtain ⟨hliterals, hevents⟩ := literals_of_texts hitems
    constructor
    · rw [literal, if_pos hk, hliterals]
      rfl
    · intro trail
      let inside := trail.inside (.node k sp [.list items, .node .load sp' []])
      have hevents' : (Tree.node k sp [.list items, .node .load sp' []]).events trail =
          nodeEvents (inside.field "elts") 0 items ++ [] := by
        rcases hk with rfl | rfl <;> rfl
      rw [hevents', hevents]
      rfl
  unfold textSeq? at h
  split at h
  · obtain ⟨texts, hitems, rfl⟩ := Option.map_eq_some_iff.mp h
    exact hseq (Or.inl rfl) hitems
  · obtain ⟨texts, hitems, rfl⟩ := Option.map_eq_some_iff.mp h
    exact hseq (Or.inr rfl) hitems
  · cases h

theorem eq_name_of_identifier? {n : String} (h : t.identifier? = some n) :
    ∃ sp rest, t = .node .name sp (.atom (.str n) :: rest) := by
  unfold identifier? at h
  split_ifs at h with hk
  cases t with
  | atom a => cases hk
  | list items => cases hk
  | node k sp fields =>
    obtain rfl : k = .name := by simpa [isKind, kind?] using hk
    obtain ⟨id, hid, hn⟩ := Option.bind_eq_some_iff.mp h
    cases fields with
    | nil => cases hid
    | cons first rest =>
      cases hid
      rw [eq_of_str? hn]
      exact ⟨sp, rest, rfl⟩

/-- An assignment to `__all__` is met as an occurrence of the name, and the exports are read off it. -/
theorem site_of_assignedExports? (h : t.assignedExports? = some v) (trail : Trail) :
    ∃ x, t.events trail = [.occur (some "__all__") x] ∧
      Exports.ofSite x = .ok (Exports.ofTexts v.texts) := by
  unfold assignedExports? at h
  split at h
  next sp target value rest =>
    split_ifs at h with htarget
    obtain ⟨hliteral, hevents⟩ := literal_of_textSeq? h
    obtain ⟨sp', rest', rfl⟩ := eq_name_of_identifier? htarget
    generalize htarget : Tree.node .name sp' (.atom (.str "__all__") :: rest') = target
    let here : Tree := .node .assign sp (.list [target] :: value :: rest)
    refine ⟨⟨((trail.inside here).field "targets").item 0, target⟩, ?_, ?_⟩
    · have hhere : here.events trail = value.events ((trail.inside here).field "value") ++
          (target.events (((trail.inside here).field "targets").item 0) ++ []) := rfl
      rw [hhere, hevents, ← htarget]
      rfl
    · exact Exports.ofSite_of_literal rfl rfl rfl rfl rfl hliteral
  · cases h

end Tree

/-! ### The first occurrence in the module -/

namespace Log

variable {L : Log} {n : String}

/-- Nothing of a name has come to the module: it has not occurred there, nor in a scope that declares it
global. -/
def keepsClear (L : Log) (n : String) : Bool :=
  ((L.record 0).sites n).isEmpty && L.records.all fun r => !r.declares n || (r.sites n).isEmpty

theorem keepsClear_iff : L.keepsClear n = true ↔ (L.record 0).sites n = [] ∧
    ∀ r ∈ L.records, r.declares n = true → r.sites n = [] := by
  simp [keepsClear, Bool.or_eq_true, ← Bool.not_eq_true, imp_iff_not_or]

/-- The module is no function, so it catches nothing. -/
theorem Proper.not_catches_root (hL : L.Proper) : L.catches n 0 = false := by
  have hfun : (L.record 0).isFunction = false := by
    by_contra h
    have hinner : (L.record 0).owner.opensInner = true := by
      rw [Tree.opensInner, Bool.or_eq_true]
      exact Or.inr (Bool.of_not_eq_false h)
    cases hL.root.symm.trans (Tree.not_module_of_opensInner hinner)
  rw [catches, Record.binds, hfun, Bool.false_and, Bool.and_false]

/-- While nothing of a name has come to the module, the module owns nothing of it. -/
theorem Describes.owned_of_clear {H : Share} (hH : L.Describes n H) (hL : L.Proper)
    (hclear : L.keepsClear n = true) : H.owned 0 = [] := by
  obtain ⟨hroot, hdeclared⟩ := keepsClear_iff.mp hclear
  have hpart : ∀ i ∈ List.range L.size, L.part n 0 i = [] := by
    intro i hi
    by_cases h0 : i = 0
    · rw [part, if_pos h0, if_pos rfl, hroot]
    · have hsent : (if 0 = 0 ∧ i ∉ L.stack ∧ (L.record i).declares n = true
          then (L.record i).early n else []) = [] := by
        split_ifs with h
        · have hnone := hdeclared _ (record_mem (List.mem_range.mp hi)) h.2.2
          exact (Record.of_no_sites hnone).1
        · rfl
      have hcaught : L.catcher n i ≠ some 0 := by
        intro h
        cases hL.not_catches_root.symm.trans (List.find?_some h)
      rw [part, if_neg h0, if_neg (Ne.symm h0), hsent, if_neg hcaught]
      rfl
  refine List.perm_nil.mp ((hH.owned 0).trans ?_)
  rw [List.flatMap_eq_nil_iff.mpr hpart]

end Log

theorem Share.names_of_head? {H : Share} {i : Nat} {x : Site} (h : (H.owned i).head? = some x) :
    ∃ more, H.names i = some (x :: more) := by
  rw [owned] at h
  rcases hi : H.names i with _ | l
  · rw [hi] at h
    cases h
  · rw [hi] at h
    obtain ⟨more, rfl⟩ := List.head?_eq_some_iff.mp h
    exact ⟨more, rfl⟩

namespace Workshop

variable {w w' : Workshop} {L : Log} {n : String} {x : Site}

/-- What the module owns first, no block changes. -/
theorem Follows.first_block (hw : w.Follows L) {ok : Tree → Bool} {es : List Event} (hes : Block ok es)
    (hs : L.stack ≠ []) (he : w.run es = .ok w')
    (hx : ((w.forest.tables.share n).owned 0).head? = some x) :
    ((w'.forest.tables.share n).owned 0).head? = some x :=
  block_induction (P := fun w _ => ((w.forest.tables.share n).owned 0).head? = some x)
    (fun hw _ he hx => (hw.share_step he n).begins.head? hx) hes hw hs he hx

/-- An occurrence in a clear module is the first thing that it owns. -/
theorem Follows.first_of_clear (hw : w.Follows L) {rest : List Nat} (hs : L.stack = 0 :: rest)
    (hclear : L.keepsClear n = true) (he : w.step (.occur (some n) x) = .ok w') :
    ((w'.forest.tables.share n).owned 0).head? = some x := by
  cases hw.share_step he n with
  | same hne h => exact absurd rfl (hne x)
  | add hs' h =>
    obtain ⟨rfl, -⟩ := List.cons.inj (hs.symm.trans hs')
    rw [h, decide_eq_true rfl, Bool.or_true, Bool.true_or, Share.add, if_pos rfl, Share.owned_give,
      if_pos rfl, (hw.describes n).owned_of_clear hw.proper hclear]
    rfl

end Workshop

namespace Tree

variable {t : Tree} {n : String} {x : Site} {f : Forest} {s : Scope}

/-- The entry of a name in the module starts with the occurrence that finds the module clear. -/
theorem entry_of_clear (hm : t.isKind .module = true) (hone : t.kinds.count .module = 1)
    {ok : Tree → Bool} {pre post : List Event}
    (hevents : t.events .start = .enter t :: (pre ++ .occur (some n) x :: post) ++ [Event.leave])
    (hpre : Block ok pre) (hpost : Block ok post)
    (hclear : ((Log.empty.step (.enter t)).run pre).keepsClear n = true) (hf : t.scopes = .ok f)
    (hs : f.scope? 0 = some s) : ∃ more, s.names.get? n = some (x :: more) := by
  obtain ⟨w, hrun, hnames⟩ := names_of_scopes hm hone hf
  rw [hevents] at hrun
  obtain ⟨v, hv, hz⟩ := Workshop.run_module hrun
  obtain ⟨a, ha, hv⟩ := Workshop.run_append hv
  obtain ⟨b, hb, hv⟩ := Workshop.run_cons hv
  obtain ⟨hfa, hsa⟩ :=
    Workshop.Follows.block hpre (Workshop.follows_start hm) (List.cons_ne_nil _ _) ha
  have hplain : (Event.occur (some n) x).isPlain (fun _ => true) = true := rfl
  obtain ⟨hfb, hsb⟩ := hfa.plain hplain hb
  have hopen := hsb.trans hsa
  have hsome : ∀ {L : Log}, L.stack = [0] → L.stack ≠ [] := fun h => h ▸ List.cons_ne_nil _ _
  -- What comes after the occurrence is put behind it, also when the module itself is resolved.
  obtain ⟨hfv, -⟩ := hfb.block hpost (hsome hopen) hv
  have hfirst := hfb.first_block hpost (hsome hopen) hv (hfa.first_of_clear hsa hclear hb)
  have hhead := (hfv.share_step hz n).begins.head? hfirst
  obtain ⟨more, hmore⟩ := Share.names_of_head? hhead
  refine ⟨more, ?_⟩
  rw [← hnames 0 s hs]
  exact hmore

/-! ### The statements of a module -/

/-- What has been met in a module after some of its statements. -/
def logAfter (t : Tree) (statements : List Tree) : Log :=
  (Log.empty.step (.enter t)).run (nodeEvents ((Trail.start.inside t).field "body") 0 statements)

theorem nodeEvents_append (trail : Trail) (i : Nat) (ts us : List Tree) :
    nodeEvents trail i (ts ++ us) = nodeEvents trail i ts ++ nodeEvents trail (i + ts.length) us := by
  induction ts generalizing i with
  | nil => rfl
  | cons t ts ih =>
    rw [List.cons_append, nodeEvents, nodeEvents, ih, List.append_assoc, List.length_cons,
      Nat.add_right_comm, Nat.add_assoc]

/-- The events of a module are those of the statements up to one of them, of this one, and a block. -/
theorem events_at_statement {sp : Span} {before after rest : List Tree} {here : Tree}
    (ht : t = .node .module sp (.list (before ++ here :: after) :: rest))
    (hone : t.kinds.count .module = 1) (hnode : here.isNode = true) :
    let trail := (Trail.start.inside t).field "body"
    ∃ post, t.events .start = .enter t ::
        (nodeEvents trail 0 before ++ (here.events (trail.item before.length) ++ post)) ++ [Event.leave] ∧
      Block (fun _ => true) (nodeEvents trail 0 before) ∧ Block (fun _ => true) post := by
  intro trail
  have hmodules : .module ∉ kindsOfAll (.list (before ++ here :: after) :: rest) := by
    rwa [ht, kinds, List.count_cons_self, Nat.add_eq_right, List.count_eq_zero] at hone
  have hblocks : ∀ u ∈ Tree.list (before ++ here :: after) :: rest, u.Blocks fun _ => true :=
    fun u hu => blocks_of_kinds u (fun hk => hmodules (kinds_subset_of_mem hu hk)) (passes_any u)
  have hbody : ∀ u ∈ before ++ here :: after, u.Blocks fun _ => true := by
    refine fun u hu => blocks_of_kinds u (fun hk => hmodules ?_) (passes_any u)
    exact kinds_subset_of_mem List.mem_cons_self (kinds_subset_of_mem hu hk)
  let more := fieldEvents (Trail.start.inside t) (Kind.fields .module).tail rest
  refine ⟨nodeEvents trail (before.length + 1) after ++ more, ?_,
    nodeEvents_block (fun u hu => hbody u (List.mem_append_left _ hu)) _ _, .append ?_ ?_⟩
  · have hevents : t.events .start =
        .enter t :: (nodeEvents trail 0 (before ++ here :: after) ++ more) ++ [Event.leave] := by
      subst ht
      rfl
    rw [hevents, nodeEvents_append, nodeEvents, if_pos hnode, Nat.zero_add]
    simp only [List.append_assoc]
  · exact nodeEvents_block (fun u hu => hbody u (by simp [hu])) _ _
  · exact fieldEvents_block (fun u hu => hblocks u (List.mem_cons_of_mem _ hu)) _ _

theorem isNode_of_assignedExports? {v : TextSeq} (h : t.assignedExports? = some v) :
    t.isNode = true := by
  cases t with
  | atom a => cases h
  | list items => cases h
  | node k sp fields => rfl

end Tree

theorem Exports.ofTexts_inj {a b : List String} : ofTexts a = ofTexts b ↔ a = b := by
  refine ⟨fun h => ?_, congrArg ofTexts⟩
  have hinj : Function.Injective fun s : String => Literal.atom (.str s) := fun s s' hs => by
    cases hs
    rfl
  have hlist := Literal.list.inj (Option.some.inj (congrArg Exports.value h))
  exact hinj.list_map hlist

/-- The module is the first scope. -/
theorem Forest.Realizes.module {f : Forest} {L : Log} (hf : f.Realizes L) :
    ∃ s, f.scope? 0 = some s ∧ s.isModule = true := by
  obtain ⟨s, hs⟩ := Forest.scope?_eq_some (by rw [hf.size]; exact hf.proper.pos)
  refine ⟨s, hs, ?_⟩
  rw [Scope.isModule, hf.owner 0 s hs]
  exact hf.proper.root

/-- A module exports what the first assignment to `__all__` gives, if nothing of the name has come to the
module before. What the statements after it leave in `__all__` is exported only if it is the same: what
they add is missing from the exports. -/
theorem Tree.exports_of_first_assignment {t first : Tree} {sp : Span} {before after rest : List Tree}
    {v : TextSeq} {f : Forest} (ht : t = .node .module sp (.list (before ++ first :: after) :: rest))
    (hone : t.kinds.count .module = 1) (hfirst : first.assignedExports? = some v)
    (hclear : (t.logAfter before).keepsClear "__all__" = true) (hf : t.scopes = .ok f) :
    ∃ s, f.scope? 0 = some s ∧ s.exports = .ok (Exports.ofTexts v.texts) ∧
      ∀ w, v.after? after = some w →
        (s.exports = .ok (Exports.ofTexts w.texts) ↔ w.texts = v.texts) ∧
          ((∀ u ∈ after, u.assignedExports? = none) →
            w.texts = v.texts ++ after.flatMap addedTexts) := by
  have hm : t.isKind .module = true := by rw [ht]; rfl
  obtain ⟨hreal, -⟩ := visit_of_scopes hm hone hf
  obtain ⟨s, hs, hmodule⟩ := hreal.module
  obtain ⟨post, hevents, hpre, hpost⟩ :=
    events_at_statement ht hone (isNode_of_assignedExports? hfirst)
  obtain ⟨x, hx, hsite⟩ := site_of_assignedExports? hfirst
    (((Trail.start.inside t).field "body").item before.length)
  rw [hx] at hevents
  obtain ⟨more, hentry⟩ := entry_of_clear hm hone hevents hpre hpost hclear hf hs
  have hexports : s.exports = .ok (Exports.ofTexts v.texts) := by
    rw [Scope.exports, hmodule, hentry]
    exact hsite
  refine ⟨s, hs, hexports, fun w hw => ⟨?_, TextSeq.texts_of_after? hw⟩⟩
  rw [hexports, Except.ok.injEq, Exports.ofTexts_inj]
  exact eq_comm

/-- A function that reads `__all__` stands before the first assignment, and a text is added after it. -/
theorem Tree.exports_of_first_assignment_read_before :
    let reader := Sample.function "f" [Sample.returned (Sample.name .load "__all__" 2 11) 2 4] 1 0
    let t := Sample.module [reader, Sample.exports "a" 3, Sample.addition "b" 4]
    t.kinds.count .module = 1 ∧ (t.logAfter [reader]).keepsClear "__all__" = true ∧
      ∃ f s, t.scopes = .ok f ∧ f.scope? 0 = some s ∧ s.exports = .ok (Exports.ofTexts ["a"]) ∧
        (TextSeq.mk false ["a"]).after? [Sample.addition "b" 4] = some ⟨false, ["a", "b"]⟩ := by
  intro reader t
  have ht : t = .node .module .absent
      (.list ([reader] ++ Sample.exports "a" 3 :: [Sample.addition "b" 4]) :: [.list []]) := rfl
  have hone : t.kinds.count .module = 1 := rfl
  have hclear : (t.logAfter [reader]).keepsClear "__all__" = true := by decide
  have hscopes : t.scopes.toOption.any (fun _ => true) = true := by decide +kernel
  obtain ⟨f, hf, -⟩ := except_any_ok hscopes
  have hfirst : (Sample.exports "a" 3).assignedExports? = some ⟨false, ["a"]⟩ := by decide
  obtain ⟨s, hs, hexports, -⟩ := exports_of_first_assignment ht hone hfirst hclear hf
  exact ⟨hone, hclear, f, s, hf, hs, hexports, by decide⟩

/-- A text is added to `__all__`, and the module does not export it. -/
theorem Tree.added_text_not_exported :
    let t := Sample.module [Sample.exports "a" 1, Sample.addition "b" 2]
    (TextSeq.mk false ["a"]).after? [Sample.addition "b" 2] = some ⟨false, ["a", "b"]⟩ ∧
      ∃ f s, t.scopes = .ok f ∧ f.scope? 0 = some s ∧ s.exports = .ok (Exports.ofTexts ["a"]) ∧
        s.exports ≠ .ok (Exports.ofTexts ["a", "b"]) := by
  intro t
  obtain ⟨f, s, hf, hs, hexports⟩ : ∃ f s, t.scopes = .ok f ∧ f.scope? 0 = some s ∧
      s.exports = .ok (Exports.ofTexts ["a"]) := ⟨_, _, rfl, rfl, rfl⟩
  refine ⟨by decide, f, s, hf, hs, hexports, ?_⟩
  rw [hexports, ne_eq, Except.ok.injEq, Exports.ofTexts_inj]
  decide

/-! ### Values that are no literals -/

/-- In the grammar the exports at a place are unclear, or they are the value of the literal there. -/
theorem Exports.ofSite_cases {x : Site} {statement : Tree} (hparent : x.parent = .ok statement)
    (hg : statement.every Tree.inGrammar = true) :
    ofSite x = .ok unclear ∨ ∃ value l, statement.get "value" = .ok value ∧ value.literal = .ok l ∧
      ofSite x = .ok ⟨some l, false⟩ := by
  simp only [ofSite, hparent, bind, Except.bind]
  split_ifs with hk
  · exact Or.inl rfl
  rw [Bool.not_eq_true, Bool.not_eq_false'] at hk
  obtain ⟨items, value, htargets, hvalue, hin⟩ := Tree.assign_ok hk hg
  have hlength : (Tree.list items).length = .ok items.length := rfl
  simp only [htargets, hlength, hvalue, pure, Except.pure]
  split_ifs
  · exact Or.inl rfl
  by_cases hn : value.IsNested
  · obtain ⟨l, hl⟩ := (Tree.exists_literal_iff hin).mpr hn
    exact Or.inr ⟨value, l, rfl, hl, by rw [hl]⟩
  · obtain ⟨c, hc⟩ := Tree.error_of_not_isNested hin hn
    exact Or.inl (by rw [hc])

/-- The first `__all__` of a module stands in a node of the grammar that has a value. -/
structure Scope.GivesExports (s : Scope) (statement value : Tree) : Prop where
  module : s.isModule = true
  first : ∃ x more, s.names.get? "__all__" = some (x :: more) ∧ x.parent = .ok statement
  grammar : statement.every Tree.inGrammar = true
  value : statement.get "value" = .ok value

/-- Exports that a value is given for are known only if the value is a literal. -/
theorem Scope.GivesExports.exports_cases {s : Scope} {statement value : Tree}
    (h : s.GivesExports statement value) :
    s.exports = .ok .unclear ∨ ∃ l, value.literal = .ok l ∧ s.exports = .ok ⟨some l, false⟩ := by
  obtain ⟨x, more, hentry, hparent⟩ := h.first
  have hexports : s.exports = Exports.ofSite x := by
    rw [Scope.exports, h.module, hentry]
    rfl
  rw [hexports]
  obtain hunclear | ⟨value', l, hvalue, hl, hknown⟩ := Exports.ofSite_cases hparent h.grammar
  · exact Or.inl hunclear
  · cases hvalue.symm.trans h.value
    exact Or.inr ⟨l, hl, hknown⟩

/-- An expression has a value exactly if one comes only to lists, tuples, texts and numbers through the
elements of lists and tuples. The value is the list of the same shape with the same constants. Otherwise
the fault tells the class of the first other node, and a module with such an `__all__` does not say what
it exports. -/
theorem Tree.literal_exactly_nested {t : Tree} (hg : t.every inGrammar = true) :
    ((∃ l, t.literal = .ok l) ↔ t.IsNested) ∧ (∀ l, t.literal = .ok l ↔ t.Mirrors l) ∧
      (∀ e, t.literal = .error e ↔ ∃ p u, t.FirstOther p u ∧ e = .notLiteral u.className ∧
        e.message? = some ("Don't know how to eval " ++ u.className)) ∧
      ∀ s statement, Scope.GivesExports s statement t → ¬t.IsNested →
        s.exports = .ok ⟨none, true⟩ := by
  refine ⟨exists_literal_iff hg, literal_eq_ok_iff t hg, fun e => ?_, fun s statement hs hn => ?_⟩
  · rw [literal_eq_error_iff hg]
    constructor
    · rintro ⟨p, u, hu, rfl⟩
      exact ⟨p, u, hu, rfl, rfl⟩
    · rintro ⟨p, u, hu, he, -⟩
      exact ⟨p, u, hu, he⟩
  · obtain hunclear | ⟨l, hl, -⟩ := hs.exports_cases
    · exact hunclear
    · exact absurd ((exists_literal_iff hg).mp ⟨l, hl⟩) hn

/-- `['a', (1, [True]), {}]` -/
def Sample.mixed : Tree :=
  let inner := sequence .list [constant (.bool true) 1 21] 1 20
  let pair := sequence .tuple [constant (.int 1) 1 17, inner] 1 16
  let dict : Tree := .node .dict (place 1 29) [.list [], .list []]
  sequence .list [constant (.str "a") 1 11, pair, dict] 1 10

def Sample.mixedExports : Tree := assign "__all__" mixed 1 0

/-- The truth value in the inner list is the first node that is no part of a literal, and the dictionary
comes after it. -/
theorem Tree.literal_exactly_nested_truth_in_tuple :
    Sample.mixed.every inGrammar = true ∧
      (∃ p u, Sample.mixed.FirstOther p u ∧ u.className = "Constant") ∧
      ∃ f s, (Sample.module [Sample.mixedExports]).scopes = .ok f ∧ f.scope? 0 = some s ∧
        s.exports = .ok ⟨none, true⟩ := by
  have hg : Sample.mixed.every inGrammar = true := by decide
  have hstatement : Sample.mixedExports.every inGrammar = true := by decide
  have hliteral : Sample.mixed.literal = .error (.notLiteral "Constant") := rfl
  obtain ⟨-, -, herror, hexports⟩ := literal_exactly_nested hg
  obtain ⟨p, u, hu, hclass, -⟩ := (herror _).mp hliteral
  obtain ⟨f, s, x, more, hf, hs, hm, hentry, hparent⟩ : ∃ f s x more,
      (Sample.module [Sample.mixedExports]).scopes = .ok f ∧ f.scope? 0 = some s ∧
      s.isModule = true ∧ s.names.get? "__all__" = some (x :: more) ∧
      x.parent = .ok Sample.mixedExports := ⟨_, _, _, _, rfl, rfl, rfl, rfl, rfl⟩
  have hgiven : s.GivesExports Sample.mixedExports Sample.mixed :=
    ⟨hm, ⟨x, more, hentry, hparent⟩, hstatement, rfl⟩
  refine ⟨hg, ⟨p, u, hu, (Fault.notLiteral.inj hclass).symm⟩, f, s, hf, hs, ?_⟩
  exact hexports s _ hgiven hu.not_isNested

end ScopeLint
