import LosslessTree.Node.Json
import LosslessTree.Proofs.JsonGrammar
import LosslessTree.Proofs.Leaves

/-!
# `Proofs.TreeJson` — a tree written as JSON and read again

A tree is read from a JSON value by its shape: a string is a constant, an array is a list if all of its
elements are trees, and else it may still be a composite. What a tree is written as leaves no choice. The
elements of a list are written as trees, so the array is never tried as a composite; a composite and a
field are objects of different members. So every tree is read as itself, whatever its texts are.

Only the nesting of the text has a limit. A list adds one level to that of its elements; a composite adds
two, its object and the array of its slots, and a field one more.

## Contents
- **`Composite.ofSlots_of_nodup`**, slots of distinct names make a composite.
- **`Node.ofJson?_toJson`**, the tree that the value of a tree spells.
- **`Node.depth`**, the nesting of a tree, and `Node.depth_toJson`.
- **`Node.ofJsonText_jsonText`**, the text of a tree read again, within the limit and beyond it.
-/

namespace LosslessTree

/-! ## Composites from slots -/

namespace Composite

/-- A slot is taken if it does not repeat a name. -/
theorem addSlot_of_nodup {c : Composite} {slot : Slot} (h : (Slot.names (c.slots ++ [slot])).Nodup) :
    c.addSlot slot = .ok ⟨c.kind, c.slots ++ [slot]⟩ := by
  cases slot with
  | text text => rfl
  | field key value =>
    have hkey : key ∉ Slot.names c.slots := by
      intro hmem
      rw [Slot.names_append] at h
      exact (List.nodup_append.mp h).2.2 key hmem key (Slot.mem_names List.mem_cons_self) rfl
    simp [addSlot, addField, Slot.fieldValue_eq_none_iff.mpr hkey]

/-- Slots are taken one after the other as long as none repeats a name. -/
theorem foldlM_addSlot {slots : List Slot} {c : Composite}
    (h : (Slot.names (c.slots ++ slots)).Nodup) :
    slots.foldlM addSlot c = .ok ⟨c.kind, c.slots ++ slots⟩ := by
  induction slots generalizing c with
  | nil => simp [pure, Except.pure]
  | cons slot rest ih =>
    have hcons : c.slots ++ slot :: rest = c.slots ++ [slot] ++ rest := by simp
    rw [hcons] at h ⊢
    have hslot : (Slot.names (c.slots ++ [slot])).Nodup := by
      rw [Slot.names_append] at h
      exact (List.nodup_append.mp h).1
    rw [List.foldlM_cons, addSlot_of_nodup hslot]
    exact ih h

/-- Slots of distinct names make a composite. -/
theorem ofSlots_of_nodup (kind : String) {slots : List Slot} (h : (Slot.names slots).Nodup) :
    ofSlots kind slots = .ok ⟨kind, slots⟩ :=
  foldlM_addSlot (c := empty kind) h

end Composite

/-! ## The tree that a written tree spells -/

mutual

/-- **A tree from its JSON value.** -/
theorem Node.ofJson?_toJson {n : Node} (hd : n.Distinct) : Node.ofJson? n.toJson = some n := by
  cases n with
  | constant text => rfl
  | list items =>
    rw [Node.toJson, Node.ofJson?, Node.itemsOfJson?_toJson hd]
  | composite kind slots =>
    have hslots := Node.slotsOfJson?_toJson hd.2
    have hcomposite := Composite.ofSlots_of_nodup kind hd.1
    rw [Node.toJson, Node.ofJson?]
    simp [Node.compositeOfMembers?, hslots, Composite.nodeOfSlots?, hcomposite, Except.toOption,
      Composite.toNode]

theorem Node.itemsOfJson?_toJson {items : List Node} (hd : Node.DistinctItems items) :
    Node.itemsOfJson? (Node.itemsToJson items) = some items := by
  match items with
  | [] => rfl
  | item :: rest =>
    rw [Node.itemsToJson, Node.itemsOfJson?, Node.ofJson?_toJson hd.1, Node.itemsOfJson?_toJson hd.2]
    rfl

theorem Node.slotsOfJson?_toJson {slots : List Slot} (hd : Node.DistinctSlots slots) :
    Node.slotsOfJson? (Node.slotsToJson slots) = some slots := by
  match slots with
  | [] => rfl
  | .text text :: rest =>
    have hrest : Node.DistinctSlots rest := hd
    rw [Node.slotsToJson, Node.slotsOfJson?, Node.slotsOfJson?_toJson hrest]
    rfl
  | .field key value :: rest =>
    have hvalue := Node.ofJson?_toJson hd.1
    rw [Node.slotsToJson, Node.slotsOfJson?, Node.slotsOfJson?_toJson hd.2]
    simp [Node.fieldOfMembers?, hvalue]

end

/-! ## Nesting -/

mutual

/-- How deep arrays and objects are nested in the JSON text of a tree. -/
def Node.depth : Node → Nat
  | .constant _ => 0
  | .list items => 1 + Node.depthItems items
  | .composite _ slots => 2 + Node.depthSlots slots

/-- The greatest depth of an element; 0 if there is none. -/
def Node.depthItems : List Node → Nat
  | [] => 0
  | node :: rest => max node.depth (Node.depthItems rest)

/-- The greatest depth of a field, which is one more than that of its value; 0 if there is none. -/
def Node.depthSlots : List Slot → Nat
  | [] => 0
  | .text _ :: rest => Node.depthSlots rest
  | .field _ value :: rest => max (1 + value.depth) (Node.depthSlots rest)

end

mutual

theorem Node.depth_toJson (n : Node) : n.toJson.depth = n.depth := by
  cases n with
  | constant text => rfl
  | list items => rw [Node.toJson, Json.depth, Node.depth, Node.depth_itemsToJson]
  | composite kind slots =>
    have hslots := Node.depth_slotsToJson slots
    simp only [Node.toJson, Json.depth, Json.depthMembers, Node.depth, hslots]
    omega

theorem Node.depth_itemsToJson (items : List Node) :
    Json.depthItems (Node.itemsToJson items) = Node.depthItems items := by
  match items with
  | [] => rfl
  | item :: rest =>
    rw [Node.itemsToJson, Json.depthItems, Node.depthItems, Node.depth_toJson, Node.depth_itemsToJson]

theorem Node.depth_slotsToJson (slots : List Slot) :
    Json.depthItems (Node.slotsToJson slots) = Node.depthSlots slots := by
  match slots with
  | [] => rfl
  | .text text :: rest =>
    have hrest := Node.depth_slotsToJson rest
    simp only [Node.slotsToJson, Json.depthItems, Json.depth, Node.depthSlots, hrest]
    omega
  | .field key value :: rest =>
    have hvalue := Node.depth_toJson value
    have hrest := Node.depth_slotsToJson rest
    simp only [Node.slotsToJson, Json.depthItems, Json.depth, Json.depthMembers, Node.depthSlots,
      hvalue, hrest]
    omega

end

mutual

/-- A tree is written without numbers. -/
theorem Node.integral_toJson (n : Node) : n.toJson.Integral := by
  cases n with
  | constant text => trivial
  | list items => exact Node.integral_itemsToJson items
  | composite kind slots => exact ⟨trivial, Node.integral_slotsToJson slots, trivial⟩

theorem Node.integral_itemsToJson (items : List Node) :
    Json.IntegralItems (Node.itemsToJson items) := by
  match items with
  | [] => trivial
  | item :: rest => exact ⟨Node.integral_toJson item, Node.integral_itemsToJson rest⟩

theorem Node.integral_slotsToJson (slots : List Slot) :
    Json.IntegralItems (Node.slotsToJson slots) := by
  match slots with
  | [] => trivial
  | .text text :: rest => exact ⟨trivial, Node.integral_slotsToJson rest⟩
  | .field key value :: rest =>
    exact ⟨⟨trivial, Node.integral_toJson value, trivial⟩, Node.integral_slotsToJson rest⟩

end

/-! ## The round trip -/

/-- The text of a tree has a value within the limit on nesting, and none beyond it. -/
theorem Node.settle_jsonText (n : Node) :
    ∃ raw, Json.Raw.read n.jsonText.toList = some (raw, []) ∧
      raw.settle Json.maxDepth = if n.depth ≤ 127 then some n.toJson else none := by
  refine ⟨n.toJson.raw, Json.read_text n.integral_toJson, ?_⟩
  rw [Json.settle_raw n.integral_toJson, Node.depth_toJson]
  rfl

/-- **The round trip of a tree through JSON.** A tree with distinct fields, of any texts, kinds and names,
    is read from its text as itself exactly when it is nested at most 127 deep. The text of a deeper tree
    is refused as malformed. -/
theorem Node.ofJsonText_jsonText (n : Node) (hd : n.Distinct) :
    (Node.ofJsonText n.jsonText = .ok n ↔ n.depth ≤ 127) ∧
      (128 ≤ n.depth → Node.ofJsonText n.jsonText = .error .malformed) := by
  obtain ⟨raw, hread, hsettle⟩ := n.settle_jsonText
  by_cases hdepth : n.depth ≤ 127
  · have hok : Node.ofJsonText n.jsonText = .ok n := by
      rw [if_pos hdepth] at hsettle
      simp only [Node.ofJsonText, hread, hsettle, Node.ofJson?_toJson hd]
      rfl
    exact ⟨⟨fun _ => hdepth, fun _ => hok⟩, fun hdeep => absurd hdepth (by omega)⟩
  · have herror : Node.ofJsonText n.jsonText = .error .malformed := by
      rw [if_neg hdepth] at hsettle
      simp only [Node.ofJsonText, hread, hsettle]
    refine ⟨⟨fun hok => ?_, fun hle => absurd hle hdepth⟩, fun _ => herror⟩
    rw [herror] at hok
    cases hok

/-- A call of depth 4 with quotes and control characters, inside 123 lists and inside 124. -/
theorem Node.ofJsonText_jsonText_nested :
    let call : Node := .composite "\"call\"" [.field "a\\" (.list [.constant "\x01\n"]), .text "]"]
    let nested (levels : Nat) : Node := Nat.repeat (fun node => .list [node]) levels call
    (nested 123).Distinct ∧ Node.ofJsonText (nested 123).jsonText = .ok (nested 123) ∧
      (nested 124).Distinct ∧ Node.ofJsonText (nested 124).jsonText = .error .malformed := by
  intro call nested
  have hnested : ∀ levels, (nested levels).Distinct ∧ (nested levels).depth = levels + 4 := by
    intro levels
    induction levels with
    | zero => decide
    | succ levels ih =>
      refine ⟨⟨ih.1, trivial⟩, ?_⟩
      show 1 + max (nested levels).depth 0 = _
      rw [ih.2]
      omega
  have hfits := Node.ofJsonText_jsonText (nested 123) (hnested 123).1
  have hdeep := Node.ofJsonText_jsonText (nested 124) (hnested 124).1
  refine ⟨(hnested 123).1, hfits.1.mpr ?_, (hnested 124).1, hdeep.2 ?_⟩
  · exact Nat.le_of_eq (hnested 123).2
  · exact Nat.le_of_eq (hnested 124).2.symm

end LosslessTree
