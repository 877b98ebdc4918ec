import Mathlib.Data.List.Forall2
import BayesGraph.Text.Quoted

/-!
# Texts with comments

Texts are compared line by line. A line may have a note behind it, from ` #` on, and `uncomment`
deletes the notes. `Annotated k text plain` says that `text` is `plain` with comments that contain
`k` line breaks; texts can be put below each other, indented and enclosed in a block. Deleting the
notes gives back the plain text if and only if there is no line break in a comment: what stands
behind a break is on a line of its own, which the deletion does not remove.
-/

set_option autoImplicit false

namespace BayesGraph

namespace Text

/-! ## Lines -/

/-- Every text has a line. -/
theorem lines_ne_nil (s : String) : lines s ≠ [] := List.splitOn_ne_nil _ _

/-- The lines of a text make up the text. -/
@[simp]
theorem unlines_lines (s : String) : unlines (lines s) = s := by
  rw [unlines, lines, List.intercalate_splitOn, String.ofList_toList]

/-- Lines without line breaks are the lines of the text that they make up. -/
theorem lines_unlines {ls : List (List Char)} (h : ∀ l ∈ ls, '\n' ∉ l) (hne : ls ≠ []) :
    lines (unlines ls) = ls := by
  rw [unlines, lines, String.toList_ofList, List.splitOn_intercalate _ h hne]

/-- A text without line breaks is one line. -/
theorem lines_of_not_mem {s : String} (h : '\n' ∉ s.toList) : lines s = [s.toList] :=
  List.splitOn_eq_singleton h

/-- A line break between two texts separates their lines. -/
theorem lines_append_break (s t : String) : lines (s ++ "\n" ++ t) = lines s ++ lines t := by
  have hlist : (s ++ "\n" ++ t).toList = s.toList ++ '\n' :: t.toList := by simp
  rw [lines, hlist, List.splitOn_append_cons_self]
  rfl

/-- There is one line more than there are line breaks, and no line contains one. -/
theorem lines_spec (s : String) :
    (lines s).length = s.toList.count '\n' + 1 ∧ ∀ l ∈ lines s, '\n' ∉ l := by
  unfold lines
  induction s.toList with
  | nil => simp
  | cons c cs ih =>
    obtain ⟨hlength, hlines⟩ := ih
    rw [List.splitOn_cons_eq_if_modifyHead]
    by_cases hc : c = '\n'
    · subst hc
      rw [if_pos (beq_self_eq_true _), List.length_cons, hlength, List.count_cons_self]
      exact ⟨rfl, List.forall_mem_cons.mpr ⟨List.not_mem_nil, hlines⟩⟩
    · rw [if_neg (by simpa using hc), List.count_cons_of_ne hc]
      cases hsplit : cs.splitOn '\n' with
      | nil => exact absurd hsplit (List.splitOn_ne_nil _ _)
      | cons l ls =>
        rw [hsplit] at hlength hlines
        obtain ⟨hl, hls⟩ := List.forall_mem_cons.mp hlines
        have hcons : '\n' ∉ c :: l := by simp [Ne.symm hc, hl]
        exact ⟨hlength, List.forall_mem_cons.mpr ⟨hcons, hls⟩⟩

/-- An indented text has indented lines. -/
theorem lines_indent (n : Nat) (s : String) :
    lines (indent n s) = (lines s).map (List.replicate n ' ' ++ ·) := by
  apply lines_unlines
  · intro l hl
    obtain ⟨l, hmem, rfl⟩ := List.mem_map.mp hl
    have hline := (lines_spec s).2 l hmem
    simp [hline]
  · simpa using lines_ne_nil s

/-! ## Deleting comments -/

/-- What stands on a line in front of the first ` #`. -/
def code : List Char → List Char
  | ' ' :: '#' :: _ => []
  | c :: rest => c :: code rest
  | [] => []

/-- The text without everything from ` #` to the end of each line. -/
def uncomment (s : String) : String := unlines ((lines s).map code)

/-- A character is code unless a comment begins with the next one. -/
theorem code_cons {c : Char} {rest : List Char} (h : rest.head? ≠ some '#') :
    code (c :: rest) = c :: code rest := by
  conv_lhs => unfold code
  split
  · next heq =>
    obtain ⟨-, rfl⟩ := List.cons.inj heq
    simp at h
  · next heq =>
    obtain ⟨rfl, rfl⟩ := List.cons.inj heq
    rfl
  · next heq => cases heq

/-- Behind text without `#`, the deletion begins where the first ` #` can be. -/
theorem code_append {front : List Char} (h : '#' ∉ front) {rest : List Char}
    (hrest : rest.head? ≠ some '#') : code (front ++ rest) = front ++ code rest := by
  induction front with
  | nil => rfl
  | cons c front ih =>
    obtain ⟨-, hfront⟩ := not_or.mp (mt List.mem_cons.mpr h)
    have hhead : (front ++ rest).head? ≠ some '#' := by
      cases front with
      | nil => exact hrest
      | cons d front =>
        intro heq
        cases heq
        exact hfront List.mem_cons_self
    rw [List.cons_append, code_cons hhead, ih hfront, List.cons_append]

/-- The code of a line is taken from the line. -/
theorem mem_of_mem_code {c : Char} {l : List Char} (h : c ∈ code l) : c ∈ l := by
  fun_induction code l with
  | case1 rest => cases h
  | case2 d rest _ ih =>
    rcases List.mem_cons.mp h with rfl | h
    · exact List.mem_cons_self
    · exact List.mem_cons_of_mem d (ih h)
  | case3 => cases h

/-- To take away the comments is to keep the code of every line. -/
theorem lines_uncomment (s : String) : lines (uncomment s) = (lines s).map code := by
  apply lines_unlines
  · intro l hl
    obtain ⟨l, hmem, rfl⟩ := List.mem_map.mp hl
    exact mt mem_of_mem_code ((lines_spec s).2 l hmem)
  · simpa using lines_ne_nil s

/-- A line with a note behind it, or with none. -/
inductive Annotates (line : List Char) : List Char → Prop
  | bare : Annotates line line
  | note (rest : List Char) : Annotates line (line ++ ' ' :: '#' :: rest)

/-- The code of an annotated line is the line. -/
theorem Annotates.code_eq {line annotated : List Char} (h : Annotates line annotated)
    (hline : '#' ∉ line) : code annotated = line := by
  cases h with
  | bare =>
    have hcode : code (line ++ []) = line ++ code [] := code_append hline (by simp)
    simpa [code] using hcode
  | note rest =>
    rw [code_append hline (by simp)]
    simp [code]

/-- A line is annotated as well behind other characters. -/
theorem Annotates.append_left (front : List Char) {line annotated : List Char}
    (h : Annotates line annotated) : Annotates (front ++ line) (front ++ annotated) := by
  cases h with
  | bare => exact .bare
  | note rest =>
    rw [← List.append_assoc]
    exact .note rest

/-- The text is the plain one with comments that contain `k` line breaks. If there are none, the
lines of the plain text have notes behind them; with each break there is a line more. -/
structure Annotated (k : Nat) (text plain : String) : Prop where
  height : (lines text).length = (lines plain).length + k
  notes : k = 0 → List.Forall₂ Annotates (lines plain) (lines text)
  clean : ∀ l ∈ lines plain, '#' ∉ l

namespace Annotated

variable {j k : Nat} {text plain s s' t t' : String}

/-- Deleting the comments gives back the plain text if and only if they contain no line break. -/
theorem uncomment_eq_iff (h : Annotated k text plain) : uncomment text = plain ↔ k = 0 := by
  constructor
  · intro heq
    have hheight := h.height
    rw [← heq, lines_uncomment, List.length_map] at hheight
    omega
  · intro hk
    have hlines : (lines text).map code = lines plain := by
      have hnotes := h.notes hk
      have hclean := h.clean
      generalize lines text = annotated at hnotes
      generalize lines plain = ls at hnotes hclean
      induction hnotes with
      | nil => rfl
      | cons hline _ ih =>
        obtain ⟨hl, hls⟩ := List.forall_mem_cons.mp hclean
        rw [List.map_cons, hline.code_eq hl, ih hls]
    rw [uncomment, hlines, unlines_lines]

/-- A line of code without comments is its own annotation. -/
theorem refl (h : '#' ∉ s.toList ∧ '\n' ∉ s.toList) : Annotated 0 s s where
  height := rfl
  notes _ := List.forall₂_same.mpr fun _ _ => .bare
  clean := by simpa [lines_of_not_mem h.2] using h.1

/-- Texts one below the other. -/
theorem below (h : Annotated j s s') (ht : Annotated k t t') :
    Annotated (j + k) (s ++ "\n" ++ t) (s' ++ "\n" ++ t') where
  height := by
    rw [lines_append_break, lines_append_break, List.length_append, List.length_append, h.height,
      ht.height]
    omega
  notes hk := by
    rw [lines_append_break, lines_append_break]
    exact List.rel_append (h.notes (by omega)) (ht.notes (by omega))
  clean := by
    rw [lines_append_break]
    exact List.forall_mem_append.mpr ⟨h.clean, ht.clean⟩

/-- An annotated text can be indented. -/
theorem indent (n : Nat) (h : Annotated k s s') :
    Annotated k (Text.indent n s) (Text.indent n s') where
  height := by simpa [lines_indent] using h.height
  notes hk := by
    rw [lines_indent, lines_indent, List.forall₂_map_left_iff, List.forall₂_map_right_iff]
    exact (h.notes hk).imp fun _ _ hline => hline.append_left _
  clean := by
    rw [lines_indent]
    intro l hl
    obtain ⟨l, hmem, rfl⟩ := List.mem_map.mp hl
    simp [h.clean l hmem]

/-- The lines of a body inside of a block, with something behind the closing brace. -/
theorem block (n : Nat) {head opening tail tail' : String} (hbody : Annotated k s s')
    (hhead : '#' ∉ head.toList ∧ '\n' ∉ head.toList) (hopening : opening = head ++ "\n")
    (htail : Annotated j ("\x7d" ++ tail) ("\x7d" ++ tail')) :
    Annotated (k + j) (opening ++ Text.indent n s ++ "\n\x7d" ++ tail)
      (opening ++ Text.indent n s' ++ "\n\x7d" ++ tail') := by
  have hclosing (front behind : String) :
      front ++ "\n\x7d" ++ behind = front ++ "\n" ++ ("\x7d" ++ behind) := by
    have hbreak : "\n\x7d" = "\n" ++ "\x7d" := by decide
    rw [hbreak, ← String.append_assoc, String.append_assoc]
  have hblock := ((refl hhead).below (hbody.indent n)).below htail
  rw [Nat.zero_add, ← hopening] at hblock
  rwa [hclosing, hclosing]

end Annotated

end Text

end BayesGraph
