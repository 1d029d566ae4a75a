import Mathlib.Data.List.Basic
import Mathlib.Data.String.Basic
import ScopeLint.Text.Character
import ScopeLint.Text.Path

/-! Texts that are joined from parts. Where no part has the separator in it, the parts can be split off
again, so that different parts give different texts. -/

namespace ScopeLint.Text

variable {separator s last : String} {c : Char} {parts parts' : List String}

theorem not_mem_intercalate (hsep : c ∉ separator.toList) (h : ∀ p ∈ parts, c ∉ p.toList) :
    c ∉ (separator.intercalate parts).toList := by
  induction parts with
  | nil => simp
  | cons p parts ih =>
    obtain ⟨hp, hrest⟩ := List.forall_mem_cons.mp h
    cases parts with
    | nil => rwa [String.intercalate_singleton]
    | cons q parts =>
      simp only [String.intercalate_cons_cons, String.toList_append, List.mem_append, not_or]
      exact ⟨⟨hp, hsep⟩, ih hrest⟩

theorem splitOn_intercalate (hsep : separator.toList = [c]) (hne : parts ≠ [])
    (h : ∀ p ∈ parts, c ∉ p.toList) :
    (separator.intercalate parts).toList.splitOn c = parts.map String.toList := by
  rw [String.toList_intercalate, hsep]
  exact List.splitOn_intercalate c (by simpa using h) (by simpa using hne)

theorem intercalate_injective (hsep : separator.toList = [c]) (hne : parts ≠ []) (hne' : parts' ≠ [])
    (h : ∀ p ∈ parts, c ∉ p.toList) (h' : ∀ p ∈ parts', c ∉ p.toList)
    (heq : separator.intercalate parts = separator.intercalate parts') : parts = parts' := by
  have hmap := splitOn_intercalate hsep hne h
  rw [heq, splitOn_intercalate hsep hne' h'] at hmap
  exact (List.map_injective_iff.mpr (fun _ _ => String.toList_injective) hmap).symm

/-- A last part that is itself joined from parts. -/
theorem intercalate_append_intercalate (separator : String) (front : List String) (hne : parts ≠ []) :
    separator.intercalate (front ++ [separator.intercalate parts]) =
      separator.intercalate (front ++ parts) := by
  by_cases hfront : front = []
  · rw [hfront, List.nil_append, List.nil_append, String.intercalate_singleton]
  · rw [String.intercalate_append_of_ne_nil hfront (List.cons_ne_nil _ _),
      String.intercalate_append_of_ne_nil hfront hne, String.intercalate_singleton]

/-! ### Dotted names -/

theorem dottedParts_intercalate (hne : parts ≠ []) (h : ∀ p ∈ parts, '.' ∉ p.toList) :
    dottedParts (".".intercalate parts) = parts := by
  rw [dottedParts, splitOn_intercalate rfl hne h, List.map_map]
  simp [Function.comp_def]

theorem dottedParts_append (h : '.' ∉ last.toList) :
    dottedParts (s ++ "." ++ last) = dottedParts s ++ [last] := by
  have hchars : (s ++ "." ++ last).toList = s.toList ++ '.' :: last.toList := by simp
  rw [dottedParts, hchars, List.splitOn_append_cons_self, List.splitOn_eq_singleton h, List.map_append]
  simp [dottedParts]

theorem intercalate_dottedParts (s : String) : ".".intercalate (dottedParts s) = s := by
  apply String.toList_injective
  rw [String.toList_intercalate, dottedParts, List.map_map]
  simp [Function.comp_def]

end ScopeLint.Text

/-! ### Paths -/

namespace ScopeLint.Path

open String

/-- The run of `splitOnAux` over the rest `r` of a text, with the characters `m` since the last slash. -/
theorem splitOnAux_slash (l m r : List Char) (acc : List String) :
    splitOnAux (ofList (l ++ m ++ r)) "/" ⟨utf8Len l⟩ ⟨utf8Len l + utf8Len m⟩ 0 acc =
      acc.reverse ++ (List.splitOnPPrepend (· == '/') r m.reverse).map ofList := by
  induction r generalizing l m acc with
  | nil =>
    have hend : Pos.Raw.atEnd (ofList (l ++ m ++ [])) ⟨utf8Len l + utf8Len m⟩ = true := by
      simp only [atEnd_iff, rawEndPos_ofList, utf8Len_append, utf8Len_nil, Pos.Raw.mk_le_mk]
      omega
    rw [splitOnAux, if_pos hend]
    simpa using extract_of_valid l m []
  | cons c r ih =>
    have hopen : ¬ Pos.Raw.atEnd (ofList (l ++ m ++ c :: r)) ⟨utf8Len l + utf8Len m⟩ = true := by
      have hpos := c.utf8Size_pos
      simp only [atEnd_iff, rawEndPos_ofList, utf8Len_append, utf8Len_cons, Pos.Raw.mk_le_mk]
      omega
    have hget := get_of_valid (l ++ m) (c :: r)
    have hstep := next_of_valid (l ++ m) c r
    simp only [utf8Len_append, List.headD_cons] at hget hstep
    have hslash : Pos.Raw.get "/" 0 = '/' := by decide
    rw [splitOnAux, if_neg hopen, hget, hslash]
    by_cases hc : c = '/'
    · -- The slash is one byte long, so the part ends one byte before the new place.
      subst hc
      have hnext : Pos.Raw.next "/" 0 = ⟨1⟩ := by decide
      have hback : Pos.Raw.unoffsetBy ⟨utf8Len l + utf8Len m + Char.utf8Size '/'⟩ ⟨1⟩ =
          ⟨utf8Len l + utf8Len m⟩ := rfl
      rw [if_pos (by simp)]
      dsimp only
      rw [hnext, if_pos (by decide), hstep, hback, extract_of_valid]
      simpa [List.splitOnPPrepend_cons_eq_if, Nat.add_assoc] using
        ih (l ++ m ++ ['/']) [] (ofList m :: acc)
    · have hback : Pos.Raw.unoffsetBy ⟨utf8Len l + utf8Len m⟩ 0 = ⟨utf8Len l + utf8Len m⟩ := rfl
      rw [if_neg (by simpa using hc), hback, hstep]
      simpa [List.splitOnPPrepend_cons_eq_if, hc, Nat.add_assoc] using ih l (m ++ [c]) acc

theorem split_eq (path : String) : split path = (path.toList.splitOn '/').map ofList := by
  rw [split, splitOn, if_neg (by decide)]
  simpa [List.splitOn] using splitOnAux_slash [] [] path.toList []

theorem split_intercalate {parts : List String} (hne : parts ≠ [])
    (h : ∀ p ∈ parts, '/' ∉ p.toList) : split ("/".intercalate parts) = parts := by
  rw [split_eq, Text.splitOn_intercalate rfl hne h, List.map_map]
  simp [Function.comp_def]

end ScopeLint.Path
