import Mathlib
import LosslessTree.Proofs.TreeRereading

/-!
# `Proofs.DistinctFields` — no tree has two fields of one name

A composite takes its slots one by one, and refuses the first field whose name it has already. What it has
taken so far are the slots in front, with distinct names; so slots make a composite exactly if their names
are distinct, the composite has these slots, and otherwise the name that is refused is the first one that
comes a second time.

Trees come from these operations and from JSON texts, in any combination. Each operation keeps the names of a
tree distinct at every depth, hence so does every sequence of them, and a key selects at most one child of
any node.

## Contents
- **Refusal.** `Composite.addSlot_eq_error`, `Composite.foldlM_addSlot_eq_error`,
  `Slot.FirstRepeated`, and `Composite.ofSlots` in both cases.
- **`Node.Built`**, the trees that can be made, and `Node.Built.distinct`.
- **`Node.candidates`**, the children that a key may select.
- **`Node.built_fields_distinct`**.
-/

namespace LosslessTree

/-! ## Slots that are refused -/

/-- The name `key` is that of the first field whose name was there already. -/
def Slot.FirstRepeated (slots : List Slot) (key : String) : Prop :=
  ∃ before value behind, slots = before ++ .field key value :: behind ∧
    (Slot.names before).Nodup ∧ key ∈ Slot.names before

namespace Composite

variable {c c' : Composite} {slot : Slot} {slots : List Slot} {kind : String} {e : DuplicateField}

/-- A field of a name that is there already is refused. -/
theorem addSlot_of_mem {key : String} (h : key ∈ Slot.names c.slots) (value : Node) :
    c.addSlot (.field key value) = .error ⟨c.kind, key⟩ := by
  have hsome : (Slot.fieldValue c.slots key).isSome = true := by
    rw [Option.isSome_iff_ne_none, Ne, Slot.fieldValue_eq_none_iff, Classical.not_not]
    exact h
  simp [addSlot, addField, hsome]

/-- Nothing else is refused. -/
theorem addSlot_eq_error (h : c.addSlot slot = .error e) :
    e.kind = c.kind ∧ e.key ∈ Slot.names c.slots ∧ ∃ value, slot = .field e.key value := by
  cases slot with
  | text text => cases h
  | field key value =>
    by_cases hkey : key ∈ Slot.names c.slots
    · rw [addSlot_of_mem hkey] at h
      cases h
      exact ⟨rfl, hkey, value, rfl⟩
    · simp [addSlot, addField, Slot.fieldValue_eq_none_iff.mpr hkey] at h

/-- Of slots that are not all taken, those in front of the one refused have distinct names, and its name is
    among them. -/
theorem foldlM_addSlot_eq_error (h : slots.foldlM addSlot c = .error e)
    (hnodup : (Slot.names c.slots).Nodup) :
    e.kind = c.kind ∧ ∃ before value behind, slots = before ++ .field e.key value :: behind ∧
      (Slot.names (c.slots ++ before)).Nodup ∧ e.key ∈ Slot.names (c.slots ++ before) := by
  induction slots generalizing c with
  | nil => cases h
  | cons slot rest ih =>
    rw [List.foldlM_cons] at h
    cases hslot : c.addSlot slot with
    | error e' =>
      rw [hslot] at h
      cases h
      obtain ⟨hkind, hkey, value, rfl⟩ := addSlot_eq_error hslot
      refine ⟨hkind, [], value, rest, rfl, ?_, ?_⟩
      · rw [List.append_nil]
        exact hnodup
      · rw [List.append_nil]
        exact hkey
    | ok next =>
      rw [hslot] at h
      obtain ⟨rfl, hnext⟩ := addSlot_eq_ok hslot hnodup
      obtain ⟨hkind, before, value, behind, rfl, hbefore, hkey⟩ := ih h hnext
      simp only [List.append_assoc] at hbefore hkey
      exact ⟨hkind, slot :: before, value, behind, rfl, hbefore, hkey⟩

/-- Slots make a composite exactly if their names are distinct, and it has these slots. -/
theorem ofSlots_eq_ok_iff :
    ofSlots kind slots = .ok c ↔ (Slot.names slots).Nodup ∧ c = ⟨kind, slots⟩ := by
  constructor
  · intro h
    obtain ⟨rfl, hnodup⟩ := foldlM_addSlot_eq_ok h List.nodup_nil
    exact ⟨hnodup, rfl⟩
  · rintro ⟨hnodup, rfl⟩
    exact ofSlots_of_nodup kind hnodup

/-- Otherwise the first name that is repeated is refused. -/
theorem ofSlots_eq_error_iff :
    ofSlots kind slots = .error e ↔ e.kind = kind ∧ Slot.FirstRepeated slots e.key := by
  constructor
  · intro h
    exact foldlM_addSlot_eq_error h List.nodup_nil
  · rintro ⟨rfl, before, value, behind, rfl, hbefore, hkey⟩
    have htaken : before.foldlM addSlot (empty e.kind) = .ok ⟨e.kind, before⟩ :=
      ofSlots_of_nodup e.kind hbefore
    have hrefused := addSlot_of_mem (c := ⟨e.kind, before⟩) hkey value
    rw [ofSlots, List.foldlM_append, htaken]
    show (Slot.field e.key value :: behind).foldlM addSlot ⟨e.kind, before⟩ = .error e
    rw [List.foldlM_cons, hrefused]
    rfl

end Composite

/-! ## Trees that can be made -/

/-- A tree that some sequence of operations makes: constants and lists, composites slot by slot or from all
    their slots, and trees and composites that are read from a text. An operation that is refused makes
    none. -/
inductive Node.Built : Node → Prop
  | constant (text : String) : Built (.constant text)
  | list {items : List Node} : (∀ item ∈ items, Built item) → Built (.list items)
  | empty (kind : String) : Built (Composite.empty kind).toNode
  | addText {c : Composite} (text : String) : Built c.toNode → Built (c.addText text).toNode
  | addField {c c' : Composite} {key : String} {value : Node} : Built c.toNode → Built value →
      c.addField key value = .ok c' → Built c'.toNode
  | ofSlots {kind : String} {slots : List Slot} {c : Composite} :
      (∀ key value, Slot.field key value ∈ slots → Built value) →
      Composite.ofSlots kind slots = .ok c → Built c.toNode
  | read {text : String} {node : Node} : Node.ofJsonText text = .ok node → Built node
  | readComposite {text : String} {c : Composite} : Composite.ofJsonText text = .ok c → Built c.toNode

/-- The slots of a composite that is read by itself have values with distinct names. -/
theorem Composite.distinctSlots_of_partsOfRaw? {raw : Json.Raw} {kind : String} {slots : List Slot}
    (h : Composite.partsOfRaw? raw = some (kind, slots)) : Node.DistinctSlots slots := by
  unfold Composite.partsOfRaw? at h
  split at h
  · next kindField children _ =>
    obtain ⟨name, -, h⟩ := Option.bind_eq_some_iff.mp h
    obtain ⟨read, hread, h⟩ := Option.bind_eq_some_iff.mp h
    cases h
    cases children with
    | none =>
      cases hread
      trivial
    | some value =>
      obtain ⟨items, -, hread⟩ := Option.bind_eq_some_iff.mp hread
      obtain ⟨values, -, hread⟩ := Option.bind_eq_some_iff.mp hread
      exact (Node.within_of_slotsOfJson? hread).1
  · cases h

/-- A composite that is read by itself has distinct names. -/
theorem Composite.distinct_of_ofJsonText {text : String} {c : Composite}
    (h : Composite.ofJsonText text = .ok c) : c.toNode.Distinct := by
  unfold Composite.ofJsonText at h
  split at h
  · cases h
  · split at h
    · cases h
    · next kind slots hparts =>
      split at h
      · cases h
      · next composite hslots =>
        split at h
        · cases h
          obtain ⟨hnodup, rfl⟩ := Composite.ofSlots_eq_ok_iff.mp hslots
          exact ⟨hnodup, Composite.distinctSlots_of_partsOfRaw? hparts⟩
        · cases h

/-- **One operation.** A slot that is taken leaves the names of the composite distinct at every depth. -/
theorem Composite.distinct_addSlot {c c' : Composite} {slot : Slot} (hc : c.toNode.Distinct)
    (hslot : ∀ key value, slot = .field key value → value.Distinct) (h : c.addSlot slot = .ok c') :
    c'.toNode.Distinct := by
  obtain ⟨rfl, hnodup⟩ := Composite.addSlot_eq_ok h hc.1
  refine ⟨hnodup, Node.distinctSlots_iff.mpr ?_⟩
  intro key value hmem
  rcases List.mem_append.mp hmem with hmem | hmem
  · exact Node.distinctSlots_iff.mp hc.2 key value hmem
  · exact hslot key value (List.mem_singleton.mp hmem).symm

/-- **Every sequence of operations.** -/
theorem Node.Built.distinct {n : Node} (h : n.Built) : n.Distinct := by
  induction h with
  | constant text => trivial
  | list _ ih => exact Node.distinctItems_iff.mpr ih
  | empty kind => exact ⟨List.nodup_nil, trivial⟩
  | @addText c text _ ih =>
    have htaken : c.addSlot (.text text) = .ok (c.addText text) := rfl
    refine Composite.distinct_addSlot ih ?_ htaken
    intro key value heq
    cases heq
  | @addField c c' key value _ _ hfield ihc ihv =>
    have htaken : c.addSlot (.field key value) = .ok c' := hfield
    refine Composite.distinct_addSlot ihc ?_ htaken
    intro key value heq
    cases heq
    exact ihv
  | ofSlots _ hslots ih =>
    obtain ⟨hnodup, rfl⟩ := Composite.ofSlots_eq_ok_iff.mp hslots
    exact ⟨hnodup, Node.distinctSlots_iff.mpr ih⟩
  | read htext => exact (Node.within_of_ofJsonText htext).1
  | readComposite htext => exact Composite.distinct_of_ofJsonText htext

/-! ## Candidates -/

/-- The children that a key may select: the element at an index, or all fields of a name. -/
def Node.candidates : Node → Key → List Node
  | .list items, .index i => items[i]?.toList
  | .composite _ slots, .name name => ((Slot.fields slots).filter (·.1 == name)).map (·.2)
  | _, _ => []

/-- Of distinct names each has at most one value, the one that is looked up. -/
theorem map_filter_eq_lookup {fields : List (String × Node)} (h : (fields.map (·.1)).Nodup)
    (name : String) : (fields.filter (·.1 == name)).map (·.2) = (fields.lookup name).toList := by
  induction fields with
  | nil => rfl
  | cons field rest ih =>
    obtain ⟨key, value⟩ := field
    obtain ⟨hkey, hrest⟩ := List.nodup_cons.mp h
    by_cases heq : key = name
    · subst heq
      have hnone : rest.filter (·.1 == key) = [] := by
        rw [List.filter_eq_nil_iff]
        intro other hother hsame
        exact hkey (List.mem_map.mpr ⟨other, hother, beq_iff_eq.mp hsame⟩)
      simp [hnone]
    · have hname : (name == key) = false := beq_false_of_ne (Ne.symm heq)
      simp [List.lookup_cons, heq, hname, ih hrest]

/-- Where names are distinct, a key has no second candidate. -/
theorem Node.candidates_eq {m : Node} (h : m.Distinct) (key : Key) :
    m.candidates key = (m.child key).toList := by
  cases m with
  | constant text => rfl
  | list items => cases key <;> rfl
  | composite kind slots =>
    cases key with
    | index i => rfl
    | name name => exact map_filter_eq_lookup h.1 name

/-- **Field names are distinct in every tree that can be made.** Slots make a composite exactly if their names
    are distinct, and it has these slots in their order; otherwise its kind and the first name that is
    repeated are reported. A tree that any sequence of operations makes, the reading of texts included, has
    distinct names in every composite at every depth, so that at each of its nodes the child found under
    a key is the only one that could be meant. -/
theorem Node.built_fields_distinct :
    (∀ kind slots,
      (∀ c, Composite.ofSlots kind slots = .ok c ↔ (Slot.names slots).Nodup ∧ c = ⟨kind, slots⟩) ∧
      ∀ e, Composite.ofSlots kind slots = .error e ↔
        e.kind = kind ∧ Slot.FirstRepeated slots e.key) ∧
    ∀ n : Node, n.Built → n.Distinct ∧
      ∀ path m, n.descend path = .ok m → ∀ key, m.candidates key = (m.child key).toList := by
  constructor
  · intro kind slots
    exact ⟨fun c => Composite.ofSlots_eq_ok_iff, fun e => Composite.ofSlots_eq_error_iff⟩
  · intro n h
    refine ⟨h.distinct, ?_⟩
    intro path m hm key
    exact Node.candidates_eq (h.distinct.reach (Node.descend_eq_ok_iff.mp hm)) key

/-- An array that is no list is read as a composite and becomes a field. The name of the field is taken once
    and refused the second time. -/
theorem Node.built_fields_distinct_call :
    let text := "[\"t\",[\x7b\"key\":\"x\",\"value\":\"1\"\x7d]]"
    let inner : Node := .composite "t" [.field "x" (.constant "1")]
    let call : Node := .composite "call" [.field "f" inner, .text "("]
    Node.ofJsonText text = .ok inner ∧ call.Built ∧ call.Distinct ∧
      Composite.ofSlots "call" [.field "f" inner, .text "(", .field "f" (.list [])] =
        .error ⟨"call", "f"⟩ := by
  intro text inner call
  have hread : Node.ofJsonText text = .ok inner := by cbv
  have hfield : (Composite.empty "call").addField "f" inner = .ok ⟨"call", [.field "f" inner]⟩ := rfl
  have hbuilt : call.Built := .addText "(" (.addField (.empty "call") (.read hread) hfield)
  obtain ⟨hslots, htrees⟩ := Node.built_fields_distinct
  refine ⟨hread, hbuilt, (htrees call hbuilt).1, ?_⟩
  refine ((hslots "call" _).2 ⟨"call", "f"⟩).mpr
    ⟨rfl, [.field "f" inner, .text "("], .list [], [], rfl, ?_, ?_⟩
  · exact List.nodup_cons.mpr ⟨List.not_mem_nil, List.nodup_nil⟩
  · exact List.mem_cons_self

end LosslessTree
