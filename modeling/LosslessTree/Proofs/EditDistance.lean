import Mathlib
import LosslessTree.Text.EditDistance

/-!
# `Proofs.EditDistance` — distances of words, and how similar they are

An edit inserts, deletes or replaces one character anywhere in a word. The distance of two words is the
least number of edits, made one after the other, that turn the one into the other. It is computed row by
row, and a row only looks at the first characters and at the row below.

That the rows give the least number has two halves. Edits that are enough can be read off the rows, from
the front of the words. That fewer are not enough follows from what one edit can do: wherever it is made,
it changes the distance to any third word by at most one.

Similarity is the share of characters that need no edit. `Closeness` keeps it as two numbers; its
comparisons are those of the fractions.

## Contents
- **`Text.Edit`, `Text.Edits`, `Text.levenshtein`**, the distance by what it means.
- **Rows.** `Text.distances_cons`, `Text.editDistance_cons_cons`, and steps of at most one.
- **`Text.editDistance_eq`**, the rows give the distance.
- **`Text.similarity`**, with `Closeness.isNear_iff` and `Closeness.atLeast_iff`.
-/

namespace LosslessTree.Text

/-! ## Edits -/

/-- One edit of a word. -/
inductive Edit : List Char → List Char → Prop
  | insert (front back : List Char) (c : Char) : Edit (front ++ back) (front ++ c :: back)
  | delete (front back : List Char) (c : Char) : Edit (front ++ c :: back) (front ++ back)
  | replace (front back : List Char) (c d : Char) : Edit (front ++ c :: back) (front ++ d :: back)

/-- As many edits, one after the other. -/
inductive Edits : Nat → List Char → List Char → Prop
  | none (a : List Char) : Edits 0 a a
  | more {n : Nat} {a b c : List Char} : Edit a b → Edits n b c → Edits (n + 1) a c

/-- The least number of edits that turn one word into another. -/
noncomputable def levenshtein (a b : List Char) : Nat := sInf {n | Edits n a b}

theorem Edit.cons {a b : List Char} (h : Edit a b) (x : Char) : Edit (x :: a) (x :: b) := by
  cases h with
  | insert front back c => exact .insert (x :: front) back c
  | delete front back c => exact .delete (x :: front) back c
  | replace front back c d => exact .replace (x :: front) back c d

theorem Edits.cons {n : Nat} {a b : List Char} (h : Edits n a b) (x : Char) :
    Edits n (x :: a) (x :: b) := by
  induction h with
  | none a => exact .none (x :: a)
  | more hedit _ ih => exact .more (hedit.cons x) ih

/-! ## Rows -/

variable {a b : List Char}

theorem distances_nil (a : List Char) : distances a [] = [a.length] := by
  induction a with
  | nil => rfl
  | cons x a ih => simp [distances, ih, distanceRow]

/-- The row of a word against `y :: b` is the row against `b`, with one distance in front. -/
theorem distances_cons (a : List Char) (y : Char) (b : List Char) :
    distances a (y :: b) = editDistance a (y :: b) :: distances a b := by
  induction a generalizing y b with
  | nil => simp [editDistance, distances, List.range_succ]
  | cons x a ih =>
    obtain ⟨d, below, hrow⟩ : ∃ d below, distances a b = d :: below := by
      cases b with
      | nil => exact ⟨_, _, distances_nil a⟩
      | cons z b => exact ⟨_, _, ih z b⟩
    have hrest : distanceRow x b (d :: below) = distances (x :: a) b := by rw [distances, hrow]
    rw [editDistance, distances, ih, hrow, distanceRow, hrest]
    rfl

@[simp] theorem editDistance_nil_right (a : List Char) : editDistance a [] = a.length := by
  simp [editDistance, distances_nil]

@[simp] theorem editDistance_nil_left (b : List Char) : editDistance [] b = b.length := by
  simp [editDistance, distances, List.range_succ]

/-- How the distance of two words follows from those of shorter ones. -/
theorem editDistance_cons_cons (x y : Char) (a b : List Char) :
    editDistance (x :: a) (y :: b) = if x = y then editDistance a b
      else 1 + min (min (editDistance a (y :: b)) (editDistance (x :: a) b)) (editDistance a b) := by
  obtain ⟨below, hrow⟩ : ∃ below, distances a b = editDistance a b :: below := by
    cases b with
    | nil => exact ⟨[], by rw [distances_nil, editDistance_nil_right]⟩
    | cons z b => exact ⟨_, distances_cons a z b⟩
  have hrest : distanceRow x b (editDistance a b :: below) = distances (x :: a) b := by
    rw [distances, hrow]
  rw [editDistance, distances, distances_cons a y b, hrow, distanceRow, hrest]
  rfl

theorem editDistance_self (a : List Char) : editDistance a a = 0 := by
  induction a with
  | nil => rfl
  | cons x a ih => simp [editDistance_cons_cons, ih]

theorem editDistance_comm (a b : List Char) : editDistance a b = editDistance b a := by
  induction a generalizing b with
  | nil => simp
  | cons x a iha =>
    induction b with
    | nil => simp
    | cons y b ihb =>
      rw [editDistance_cons_cons, editDistance_cons_cons, iha (y :: b), ihb, iha b]
      by_cases hxy : x = y
      · simp [hxy]
      · simp [hxy, Ne.symm hxy, min_comm (editDistance (y :: b) a)]

/-! ## One edit changes a distance by at most one -/

/-- A first character less. -/
theorem editDistance_le_cons_right (a b : List Char) (y : Char) :
    editDistance a b ≤ editDistance a (y :: b) + 1 := by
  induction a generalizing b y with
  | nil => simp; omega
  | cons x a ih =>
    -- a first character more on the other side, by the hypothesis for `a`
    have hcons : editDistance (x :: a) b ≤ editDistance a b + 1 := by
      cases b with
      | nil => simp
      | cons z b =>
        have hz := ih b z
        rw [editDistance_cons_cons]
        split <;> omega
    have hy := ih b y
    rw [editDistance_cons_cons x y]
    split <;> omega

/-- A first character more. -/
theorem editDistance_cons_right_le (a b : List Char) (y : Char) :
    editDistance a (y :: b) ≤ editDistance a b + 1 := by
  cases a with
  | nil => simp
  | cons x a =>
    have hx := editDistance_le_cons_right b a x
    rw [editDistance_comm b a, editDistance_comm b (x :: a)] at hx
    rw [editDistance_cons_cons]
    split <;> omega

/-- Another first character. -/
theorem editDistance_replace_le (c d : Char) (a b : List Char) :
    editDistance (c :: a) b ≤ editDistance (d :: a) b + 1 := by
  induction b with
  | nil => simp
  | cons y b ih =>
    have hdelete := editDistance_cons_right_le (y :: b) a c
    rw [editDistance_comm, editDistance_comm _ a] at hdelete
    have hinsert := editDistance_cons_right_le (c :: a) b y
    have hreplace : editDistance (c :: a) (y :: b) ≤ editDistance a b + 1 := by
      rw [editDistance_cons_cons]
      split <;> omega
    rw [editDistance_cons_cons d y]
    split <;> omega

/-- What holds for two words against any third one, holds with the same character in front of both. -/
theorem editDistance_cons_le {a a' : List Char} (h : ∀ b, editDistance a b ≤ editDistance a' b + 1)
    (x : Char) (b : List Char) : editDistance (x :: a) b ≤ editDistance (x :: a') b + 1 := by
  induction b with
  | nil => simpa using h []
  | cons y b ih =>
    have hlong := h (y :: b)
    have hshort := h b
    rw [editDistance_cons_cons, editDistance_cons_cons]
    split <;> omega

/-- So does it with the same word in front of both. -/
theorem editDistance_append_le {a a' : List Char} (h : ∀ b, editDistance a b ≤ editDistance a' b + 1)
    (front b : List Char) : editDistance (front ++ a) b ≤ editDistance (front ++ a') b + 1 := by
  induction front generalizing b with
  | nil => exact h b
  | cons x front ih => exact editDistance_cons_le ih x b

/-- **One edit** brings a word closer to another by at most one. -/
theorem Edit.editDistance_le {a a' : List Char} (h : Edit a a') (b : List Char) :
    editDistance a b ≤ editDistance a' b + 1 := by
  cases h with
  | insert front back c =>
    refine editDistance_append_le ?_ front b
    intro b
    rw [editDistance_comm back, editDistance_comm (c :: back)]
    exact editDistance_le_cons_right b back c
  | delete front back c =>
    refine editDistance_append_le ?_ front b
    intro b
    rw [editDistance_comm back, editDistance_comm (c :: back)]
    exact editDistance_cons_right_le b back c
  | replace front back c d => exact editDistance_append_le (editDistance_replace_le c d back) front b

/-- **No fewer edits are enough.** -/
theorem Edits.editDistance_le {n : Nat} (h : Edits n a b) : editDistance a b ≤ n := by
  induction h with
  | none a => exact Nat.le_of_eq (editDistance_self a)
  | more hedit _ ih =>
    have hstep := hedit.editDistance_le
    exact Nat.le_trans (hstep _) (Nat.add_le_add_right ih 1)

/-- **As many edits are enough.** They are read off the rows, from the front of the words. -/
theorem edits_editDistance (a b : List Char) : Edits (editDistance a b) a b := by
  induction a generalizing b with
  | nil =>
    induction b with
    | nil => exact .none []
    | cons y b ih => simpa using Edits.more (.insert [] [] y) (ih.cons y)
  | cons x a iha =>
    have hdelete : Edit (x :: a) a := .delete [] a x
    induction b with
    | nil => simpa using Edits.more hdelete (iha [])
    | cons y b ihb =>
      have hinsert : Edit (x :: a) (y :: x :: a) := .insert [] (x :: a) y
      have hreplace : Edit (x :: a) (y :: a) := .replace [] a x y
      rw [editDistance_cons_cons]
      by_cases hxy : x = y
      · rw [if_pos hxy, hxy]
        exact (iha b).cons y
      · rw [if_neg hxy, Nat.add_comm]
        -- whichever of the three is least
        rcases min_choice (min (editDistance a (y :: b)) (editDistance (x :: a) b)) (editDistance a b)
          with hmin | hmin
        · rw [hmin]
          rcases min_choice (editDistance a (y :: b)) (editDistance (x :: a) b) with hmin | hmin
          · rw [hmin]
            exact .more hdelete (iha (y :: b))
          · rw [hmin]
            exact .more hinsert (ihb.cons y)
        · rw [hmin]
          exact .more hreplace ((iha b).cons y)

/-- The rows give the least number of edits. -/
theorem editDistance_eq (a b : List Char) : editDistance a b = levenshtein a b := by
  have hmem : editDistance a b ∈ {n | Edits n a b} := edits_editDistance a b
  apply Nat.le_antisymm
  · exact (Nat.sInf_mem ⟨_, hmem⟩ : Edits (levenshtein a b) a b).editDistance_le
  · exact Nat.sInf_le hmem

/-! ## Similarity -/

/-- The share of characters that need no edit, of as many as the longer word has. Two empty words have no
    characters, and similarity 1. -/
noncomputable def similarity (a b : String) : ℚ :=
  if a = "" ∧ b = "" then 1 else 1 - levenshtein a.toList b.toList / max a.length b.length

namespace Closeness

/-- The two numbers of a closeness are those of a fraction. -/
theorem similarity_eq (a b : String) :
    similarity a b = 1 - (ofWords a b).edits / (ofWords a b).length := by
  unfold similarity ofWords
  by_cases hempty : a = "" ∧ b = ""
  · obtain ⟨rfl, rfl⟩ := hempty
    simp
  · rw [if_neg hempty, editDistance_eq]
    have hpos : 1 ≤ max a.length b.length := by
      rw [Nat.one_le_iff_ne_zero]
      intro hzero
      obtain ⟨ha, hb⟩ := Nat.max_eq_zero_iff.mp hzero
      exact hempty ⟨String.length_eq_zero_iff.mp ha, String.length_eq_zero_iff.mp hb⟩
    rw [max_eq_right hpos, Nat.cast_max]

theorem length_pos (a b : String) : (0 : ℚ) < (ofWords a b).length := by
  have hpos : 0 < (ofWords a b).length := Nat.lt_of_lt_of_le Nat.one_pos (le_max_left _ _)
  exact_mod_cast hpos

/-- Near words have seven tenths of their characters in common. -/
theorem isNear_iff (a b : String) : (ofWords a b).isNear = true ↔ 7 / 10 ≤ similarity a b := by
  have hlength := length_pos a b
  rw [similarity_eq, isNear, decide_eq_true_iff, le_sub_comm, div_le_iff₀ hlength]
  rw [← Nat.cast_le (α := ℚ)]
  push_cast
  constructor <;> intro h <;> linarith

/-- Closeness is compared as similarity is. -/
theorem atLeast_iff (a b c d : String) :
    (ofWords a b).atLeast (ofWords c d) = true ↔ similarity c d ≤ similarity a b := by
  rw [similarity_eq, similarity_eq, sub_le_sub_iff_left,
    div_le_div_iff₀ (length_pos a b) (length_pos c d), atLeast, decide_eq_true_iff]
  exact_mod_cast Iff.rfl

end Closeness

end LosslessTree.Text
