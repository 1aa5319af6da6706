import Mathlib
import LosslessTree.Proofs.EditDistance
import LosslessTree.Proofs.Leaves

/-!
# `Proofs.MissingKeys` — where a path leaves a tree

Descending goes key by key. What comes of a longer path is what comes of its second part at the node where
the first has led to, and if the first part fails, it fails there. So a path that fails has a longest part
that leads to a node, the parent, and the key behind that part is the one reported: the parent has no
child under it.

A parent that is a composite may have a field with a similar name. The one suggested is found in one pass over
the fields, which keeps the best so far and takes a new one that is at least as similar. What the pass
keeps is, of the fields so far, the last of the most similar ones, provided that seven tenths are
reached.

## Contents
- **Paths in parts.** `MissingKey.under`, `Node.descend_append`, `Node.descendFrom_eq_error`.
- **Suggestions.** `Text.IsClosest`, `Text.Closest`, one step of the pass and the whole pass.
- **`Node.descend_fails_at_missing_key`**.
-/

namespace LosslessTree

/-! ## Paths in parts -/

/-- The same failure, seen from a node that `path` leads down from. -/
def MissingKey.under (path : Path) (e : MissingKey) : MissingKey := { e with parent := path ++ e.parent }

namespace Node

/-- The path to the node at which descending begins is the front of the parent that is reported. -/
theorem descendFrom_eq (parent : Path) (node : Node) (q : Path) :
    node.descendFrom parent q = (node.descend q).mapError (MissingKey.under parent) := by
  unfold descend
  induction q generalizing node parent with
  | nil => rfl
  | cons key rest ih =>
    simp only [descendFrom]
    cases node.child key with
    | none => simp [Except.mapError, MissingKey.under]
    | some child =>
      simp only
      rw [ih (parent.push key), ih (Path.push [] key)]
      cases child.descendFrom [] rest <;> simp [Except.mapError, MissingKey.under, Path.push]

/-- A path is followed in parts. -/
theorem descendFrom_append (parent : Path) (node : Node) (p q : Path) :
    node.descendFrom parent (p ++ q) =
      match node.descendFrom parent p with
      | .ok m => m.descendFrom (parent ++ p) q
      | .error e => .error e := by
  induction p generalizing node parent with
  | nil => simp [descendFrom]
  | cons key rest ih =>
    simp only [List.cons_append, descendFrom]
    cases node.child key with
    | none => rfl
    | some child => simp [ih, Path.push]

theorem descend_append (tree : Node) (p q : Path) :
    tree.descend (p ++ q) =
      match tree.descend p with
      | .ok m => (m.descend q).mapError (MissingKey.under p)
      | .error e => .error e := by
  simp only [descend, descendFrom_append, descendFrom_eq p, List.nil_append]

/-- A path that fails leads to the parent, which has no child under the key behind. -/
theorem descendFrom_eq_error {node : Node} {parent path : Path} {e : MissingKey}
    (h : node.descendFrom parent path = .error e) :
    ∃ p rest m, path = p ++ e.key :: rest ∧ e.parent = parent ++ p ∧ node.reach p = some m ∧
      m.child e.key = none ∧ e.suggestion = m.suggest e.key := by
  induction path generalizing node parent with
  | nil => cases h
  | cons key rest ih =>
    rw [descendFrom] at h
    cases hchild : node.child key with
    | none =>
      rw [hchild] at h
      cases h
      exact ⟨[], rest, node, rfl, by simp, rfl, hchild, rfl⟩
    | some child =>
      rw [hchild] at h
      obtain ⟨p, behind, m, rfl, hparent, hreach, hmissing⟩ := ih h
      refine ⟨key :: p, behind, m, rfl, ?_, ?_, hmissing⟩
      · simp [hparent, Path.push]
      · simp [reach, hchild, hreach]

end Node

/-! ## Suggestions -/

namespace Text

/-- The last of the names most similar to `wanted`, if it is similar enough. -/
def IsClosest (wanted : String) (names : List String) (name : String) : Prop :=
  7 / 10 ≤ similarity name wanted ∧
    ∃ before behind, names = before ++ name :: behind ∧
      (∀ other ∈ before, similarity other wanted ≤ similarity name wanted) ∧
      ∀ other ∈ behind, similarity other wanted < similarity name wanted

/-- What a pass over `names` has to keep: the closest one, or nothing if none is similar enough. -/
def Closest (wanted : String) (names : List String) : Option String → Prop
  | none => ∀ name ∈ names, similarity name wanted < 7 / 10
  | some name => IsClosest wanted names name

namespace Closest

variable {wanted name : String} {names : List String} {best : Option String}

/-- A name that is less similar than the one kept changes nothing. -/
theorem keep {kept : String} (h : Closest wanted names (some kept))
    (hless : similarity name wanted < similarity kept wanted) :
    Closest wanted (names ++ [name]) (some kept) := by
  obtain ⟨hnear, before, behind, rfl, hbefore, hbehind⟩ := h
  refine ⟨hnear, before, behind ++ [name], by simp, hbefore, ?_⟩
  intro other hother
  rcases List.mem_append.mp hother with hother | hother
  · exact hbehind other hother
  · rw [List.mem_singleton.mp hother]
    exact hless

/-- Nor does a name that is not similar enough. -/
theorem skip (h : Closest wanted names best) (hfar : similarity name wanted < 7 / 10) :
    Closest wanted (names ++ [name]) best := by
  cases best with
  | none =>
    intro other hother
    rcases List.mem_append.mp hother with hother | hother
    · exact h other hother
    · rw [List.mem_singleton.mp hother]
      exact hfar
  | some kept => exact h.keep (lt_of_lt_of_le hfar h.1)

/-- A name that is similar enough, and no less than the one kept, takes its place. -/
theorem take (h : Closest wanted names best) (hnear : 7 / 10 ≤ similarity name wanted)
    (hmore : ∀ kept ∈ best, similarity kept wanted ≤ similarity name wanted) :
    Closest wanted (names ++ [name]) (some name) := by
  refine ⟨hnear, names, [], rfl, ?_, fun _ hother => absurd hother List.not_mem_nil⟩
  intro other hother
  cases best with
  | none => exact le_of_lt (lt_of_lt_of_le (h other hother) hnear)
  | some kept =>
    obtain ⟨-, before, behind, rfl, hbefore, hbehind⟩ := h
    have hkept := hmore kept rfl
    rcases List.mem_append.mp hother with hother | hother
    · exact le_trans (hbefore other hother) hkept
    · rcases List.mem_cons.mp hother with rfl | hother
      · exact hkept
      · exact le_trans (le_of_lt (hbehind other hother)) hkept

end Closest

/-- A name with its closeness to `wanted`. -/
def candidate (wanted name : String) : String × Closeness := (name, Closeness.ofWords name wanted)

/-- One step of the pass: takes a candidate that is at least as close as the best so far. -/
def better (best : Option (String × Closeness)) (next : String × Closeness) :
    Option (String × Closeness) :=
  match best with
  | none => some next
  | some b => if next.2.atLeast b.2 then some next else some b

theorem closestName_eq (wanted : String) (names : List String) :
    closestName wanted names =
      (((names.map (candidate wanted)).filter (·.2.isNear)).foldl better none).map (·.1) := rfl

/-- **One step** keeps the closest name. -/
theorem better_closest {wanted : String} {names : List String} {best : Option String}
    (h : Closest wanted names best) {name : String} (hnear : 7 / 10 ≤ similarity name wanted) :
    ∃ next, better (best.map (candidate wanted)) (candidate wanted name) = next.map (candidate wanted) ∧
      Closest wanted (names ++ [name]) next := by
  cases best with
  | none => exact ⟨some name, rfl, h.take hnear (by simp)⟩
  | some kept =>
    have hcompare := Closeness.atLeast_iff name wanted kept wanted
    by_cases hmore : similarity kept wanted ≤ similarity name wanted
    · refine ⟨some name, ?_, h.take hnear (by simpa using hmore)⟩
      simp [better, candidate, hcompare.mpr hmore]
    · refine ⟨some kept, ?_, h.keep (not_le.mp hmore)⟩
      simp [better, candidate, mt hcompare.mp hmore]

/-- **The whole pass** keeps the closest name. -/
theorem foldl_closest {wanted : String} {names : List String} {best : Option String}
    (h : Closest wanted names best) (rest : List String) :
    ∃ final, ((rest.map (candidate wanted)).filter (·.2.isNear)).foldl better
        (best.map (candidate wanted)) = final.map (candidate wanted) ∧
      Closest wanted (names ++ rest) final := by
  induction rest generalizing names best with
  | nil => exact ⟨best, rfl, by simpa using h⟩
  | cons name rest ih =>
    have hiff : (candidate wanted name).2.isNear = true ↔ _ := Closeness.isNear_iff name wanted
    rw [List.map_cons, List.filter_cons, ← List.singleton_append (l := rest), ← List.append_assoc]
    by_cases hnear : 7 / 10 ≤ similarity name wanted
    · obtain ⟨next, hstep, hnext⟩ := better_closest h hnear
      rw [if_pos (hiff.mpr hnear), List.foldl_cons, hstep]
      exact ih hnext
    · rw [if_neg (mt hiff.mp hnear)]
      exact ih (h.skip (not_le.mp hnear))

/-- The name that is suggested is the closest one. -/
theorem closest_closestName (wanted : String) (names : List String) :
    Closest wanted names (closestName wanted names) := by
  have hnone : Closest wanted [] none := fun _ hname => absurd hname List.not_mem_nil
  obtain ⟨final, hfinal, hclosest⟩ := foldl_closest hnone names
  have hname : closestName wanted names = final := by
    rw [closestName_eq]
    simp only [Option.map_none] at hfinal
    rw [hfinal, Option.map_map]
    exact Option.map_id'
  rw [hname]
  exact hclosest

/-- Nothing is suggested exactly if no name is similar enough. -/
theorem closestName_eq_none_iff {wanted : String} {names : List String} :
    closestName wanted names = none ↔ ∀ name ∈ names, similarity name wanted < 7 / 10 := by
  have h := closest_closestName wanted names
  cases hname : closestName wanted names with
  | none =>
    rw [hname] at h
    exact ⟨fun _ => h, fun _ => rfl⟩
  | some name =>
    rw [hname] at h
    obtain ⟨hnear, before, behind, rfl, -⟩ := h
    refine ⟨fun hnone => (by cases hnone), fun hfar => ?_⟩
    exact absurd hnear (not_le.mpr (hfar name (by simp)))

end Text

/-- Only a composite suggests anything, and only for a name. -/
theorem Node.suggest_eq_some {m : Node} {key : Key} {name : String} (h : m.suggest key = some name) :
    ∃ kind slots wanted, m = .composite kind slots ∧ key = .name wanted ∧
      closestName wanted (Slot.names slots) = some name := by
  cases m with
  | constant text => cases h
  | list items => cases h
  | composite kind slots =>
    cases key with
    | index i => cases h
    | name wanted => exact ⟨kind, slots, wanted, rfl, rfl, h⟩

/-! ## Failures -/

/-- **Descending fails at the first missing key and suggests the closest field.** A path is followed in
    parts: the second part from where the first has led to, so that its failures are reported under the
    first, and not at all if the first part fails. When a path fails, the parent that is reported and the
    key behind it are the front of the path, the parent leads to a node, and that node has no child
    under the key. A suggestion is made only by a composite, for a name, and is then the last of the
    fields whose names are most similar, with a similarity of seven tenths at least; a composite makes none
    for a name exactly if no field reaches that. -/
theorem Node.descend_fails_at_missing_key (tree : Node) :
    (∀ p q, tree.descend (p ++ q) =
      match tree.descend p with
      | .ok m => (m.descend q).mapError (MissingKey.under p)
      | .error e => .error e) ∧
    ∀ path e, tree.descend path = .error e →
      e.parent ++ [e.key] <+: path ∧
      ∃ m, tree.descend e.parent = .ok m ∧ m.child e.key = none ∧
        (∀ name, e.suggestion = some name →
          ∃ kind slots wanted, m = .composite kind slots ∧ e.key = .name wanted ∧
            Text.IsClosest wanted (Slot.names slots) name) ∧
        ∀ kind slots wanted, m = .composite kind slots → e.key = .name wanted →
          (e.suggestion = none ↔
            ∀ name ∈ Slot.names slots, Text.similarity name wanted < 7 / 10) := by
  refine ⟨tree.descend_append, ?_⟩
  intro path e h
  obtain ⟨p, rest, m, rfl, hparent, hreach, hmissing, hsuggestion⟩ := Node.descendFrom_eq_error h
  rw [List.nil_append] at hparent
  rw [hparent, hsuggestion]
  refine ⟨⟨rest, by simp⟩, m, Node.descend_eq_ok_iff.mpr hreach, hmissing, ?_, ?_⟩
  · intro name hname
    obtain ⟨kind, slots, wanted, hm, hkey, hclosest⟩ := Node.suggest_eq_some hname
    have h := Text.closest_closestName wanted (Slot.names slots)
    rw [hclosest] at h
    exact ⟨kind, slots, wanted, hm, hkey, h⟩
  · rintro kind slots wanted rfl hkey
    rw [hkey]
    exact Text.closestName_eq_none_iff

/-- Two fields are as similar to a misspelt name, inside another field: the second is suggested, and the
    failure of the inner path is reported under the outer one. -/
theorem Node.descend_fails_at_missing_key_tie :
    let inner : Node := .composite "call"
      [.field "name" (.constant "f"), .text "(", .field "nams" (.list []), .field "body" (.constant "x")]
    let tree : Node := .composite "file" [.field "call" inner]
    inner.descend [.name "nam"] = .error ⟨[], .name "nam", some "nams"⟩ ∧
      tree.descend [.name "call", .name "nam"] = .error ⟨[.name "call"], .name "nam", some "nams"⟩ ∧
      Text.IsClosest "nam" ["name", "nams", "body"] "nams" := by
  intro inner tree
  have hinner : inner.descend [.name "nam"] = .error ⟨[], .name "nam", some "nams"⟩ := by cbv
  have houter : tree.descend [.name "call", .name "nam"] =
      .error ⟨[.name "call"], .name "nam", some "nams"⟩ := by
    rw [← List.singleton_append, (Node.descend_fails_at_missing_key tree).1]
    show (inner.descend [.name "nam"]).mapError _ = _
    rw [hinner]
    rfl
  obtain ⟨-, m, hm, -, hclosest, -⟩ := (Node.descend_fails_at_missing_key tree).2 _ _ houter
  obtain ⟨kind, slots, wanted, rfl, hkey, h⟩ := hclosest _ rfl
  obtain ⟨-, rfl⟩ := Node.composite.inj (Except.ok.inj hm)
  obtain rfl := Key.name.inj hkey
  exact ⟨hinner, houter, h⟩

end LosslessTree
