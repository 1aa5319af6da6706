import LosslessTree.Proofs.TreeJson

/-!
# `Proofs.TreeRereading` — a tree that was read, written and read again

A tree has many texts. Members of other names are passed over, a composite may be an array, and one
without slots need not mention them. Whatever text a tree is read from, its fields are distinct, and the
tree adds no nesting of its own: members that are passed over can only make the text deeper, and a composite
in an array is nested as one in an object. The text that the tree is written as afterwards can be deeper than
the one it was read from in one way only. A composite without slots is written with an empty array for
them, which is one level more than leaving them out.

So a text at the limit can hold a tree whose own text is beyond it. This takes a composite without slots
on the last level that is allowed; every other tree that was read stays readable.

## Contents
- **`Json.depth_le_of_settle`**, the nesting of a value that was read.
- **`Node.terseDepth`**, the nesting of the shortest text of a tree.
- **`Node.within_of_ofJson?`**, what a tree that was read is like.
- **`Node.BareInside`**, where composites without slots stand, and `Node.depth_le_iff`.
- **`Node.rereadable_unless_bare`**, when a tree that was read can be written and read again.
-/

namespace LosslessTree

/-! ## The nesting of a value that was read -/

namespace Json

mutual

/-- A value that was read is nested no deeper than was allowed. -/
theorem depth_le_of_settle {raw : Raw} {bound : Nat} {j : Json} (h : raw.settle bound = some j) :
    j.depth ≤ bound := by
  cases raw with
  | null =>
    cases h
    exact Nat.zero_le _
  | bool b =>
    cases h
    exact Nat.zero_le _
  | number n =>
    rw [Raw.settle, Numeral.settle] at h
    split at h
    · cases h
      exact Nat.zero_le _
    · split at h
      · cases h
        exact Nat.zero_le _
      · cases h
  | string pieces =>
    obtain ⟨text, -, rfl⟩ := Option.map_eq_some_iff.mp h
    exact Nat.zero_le _
  | array items =>
    cases bound with
    | zero => cases h
    | succ bound =>
      obtain ⟨values, hvalues, rfl⟩ := Option.map_eq_some_iff.mp h
      have hle := depthItems_le_of_settle hvalues
      rw [depth]
      omega
  | object members =>
    cases bound with
    | zero => cases h
    | succ bound =>
      obtain ⟨values, hvalues, rfl⟩ := Option.map_eq_some_iff.mp h
      have hle := depthMembers_le_of_settle hvalues
      rw [depth]
      omega

theorem depthItems_le_of_settle {items : List Raw} {bound : Nat} {values : List Json}
    (h : settleItems bound items = some values) : depthItems values ≤ bound := by
  match items with
  | [] =>
    cases h
    exact Nat.zero_le _
  | item :: rest =>
    obtain ⟨value, hvalue, h⟩ := Option.bind_eq_some_iff.mp h
    obtain ⟨others, hothers, h⟩ := Option.bind_eq_some_iff.mp h
    cases h
    rw [depthItems]
    exact Nat.max_le.mpr ⟨depth_le_of_settle hvalue, depthItems_le_of_settle hothers⟩

theorem depthMembers_le_of_settle {members : List (List Piece × Raw)} {bound : Nat}
    {values : List (String × Json)} (h : settleMembers bound members = some values) :
    depthMembers values ≤ bound := by
  match members with
  | [] =>
    cases h
    exact Nat.zero_le _
  | (name, member) :: rest =>
    obtain ⟨text, -, h⟩ := Option.bind_eq_some_iff.mp h
    obtain ⟨value, hvalue, h⟩ := Option.bind_eq_some_iff.mp h
    obtain ⟨others, hothers, h⟩ := Option.bind_eq_some_iff.mp h
    cases h
    rw [depthMembers]
    exact Nat.max_le.mpr ⟨depth_le_of_settle hvalue, depthMembers_le_of_settle hothers⟩

end

end Json

/-! ## The tree that a value spells -/

mutual

/-- How deep the shortest text of a tree is nested, which leaves out the slots of a composite that has
    none. -/
def Node.terseDepth : Node → Nat
  | .constant _ => 0
  | .list items => 1 + Node.terseItems items
  | .composite _ [] => 1
  | .composite _ (slot :: rest) => 2 + Node.terseSlots (slot :: rest)

/-- The greatest terse depth of an element. -/
def Node.terseItems : List Node → Nat
  | [] => 0
  | node :: rest => max node.terseDepth (Node.terseItems rest)

/-- The greatest terse depth of a field. -/
def Node.terseSlots : List Slot → Nat
  | [] => 0
  | .text _ :: rest => Node.terseSlots rest
  | .field _ value :: rest => max (1 + value.terseDepth) (Node.terseSlots rest)

end

theorem Node.terseDepth_composite_le (kind : String) (slots : List Slot) :
    (Node.composite kind slots).terseDepth ≤ 2 + Node.terseSlots slots := by
  cases slots with
  | nil => simp [Node.terseDepth, Node.terseSlots]
  | cons slot rest => exact Nat.le_refl _

/-! ## Composites that were read -/

namespace Composite

/-- A slot that is taken does not repeat a name. -/
theorem addSlot_eq_ok {c c' : Composite} {slot : Slot} (h : c.addSlot slot = .ok c')
    (hnodup : (Slot.names c.slots).Nodup) :
    c' = ⟨c.kind, c.slots ++ [slot]⟩ ∧ (Slot.names c'.slots).Nodup := by
  cases slot with
  | text text =>
    cases h
    refine ⟨rfl, ?_⟩
    rw [addText, Slot.names_append]
    simpa [Slot.names, Slot.fields] using hnodup
  | field key value =>
    rw [addSlot, addField] at h
    split at h
    · cases h
    · next hnew =>
      cases h
      have hkey := Slot.fieldValue_eq_none_iff.mp (Option.not_isSome_iff_eq_none.mp hnew)
      refine ⟨rfl, ?_⟩
      rw [Slot.names_append]
      refine List.nodup_append.mpr ⟨hnodup, List.pairwise_singleton _ key, ?_⟩
      intro name hname other hother heq
      obtain rfl : other = key := List.mem_singleton.mp hother
      exact hkey (heq ▸ hname)

/-- Slots that are all taken make up the composite, and their names are distinct. -/
theorem foldlM_addSlot_eq_ok {slots : List Slot} {c c' : Composite}
    (h : slots.foldlM addSlot c = .ok c') (hnodup : (Slot.names c.slots).Nodup) :
    c' = ⟨c.kind, c.slots ++ slots⟩ ∧ (Slot.names c'.slots).Nodup := by
  induction slots generalizing c with
  | nil =>
    cases h
    exact ⟨by rw [List.append_nil], hnodup⟩
  | cons slot rest ih =>
    rw [List.foldlM_cons] at h
    cases hslot : c.addSlot slot with
    | error e =>
      rw [hslot] at h
      cases h
    | ok next =>
      rw [hslot] at h
      obtain ⟨rfl, hnext⟩ := addSlot_eq_ok hslot hnodup
      obtain ⟨rfl, hall⟩ := ih h hnext
      exact ⟨by simp, hall⟩

/-- A composite that is made from slots has these slots, with distinct names. -/
theorem nodeOfSlots?_eq_some {kind : String} {slots : List Slot} {n : Node}
    (h : nodeOfSlots? kind slots = some n) :
    n = .composite kind slots ∧ (Slot.names slots).Nodup := by
  obtain ⟨c, hc, rfl⟩ := Option.map_eq_some_iff.mp h
  cases hslots : ofSlots kind slots with
  | error e =>
    rw [hslots] at hc
    cases hc
  | ok c' =>
    rw [hslots] at hc
    cases hc
    obtain ⟨rfl, hnodup⟩ := foldlM_addSlot_eq_ok hslots List.nodup_nil
    exact ⟨rfl, hnodup⟩

end Composite

/-! ## Trees that were read -/

namespace Node

/-- A tree that has distinct fields, and a text that is nested at most `bound` deep. -/
def Within (bound : Nat) (n : Node) : Prop := n.Distinct ∧ n.terseDepth ≤ bound

theorem Within.mono {n : Node} {a b : Nat} (h : n.Within a) (hab : a ≤ b) : n.Within b :=
  ⟨h.1, Nat.le_trans h.2 hab⟩

/-- A composite that was read from slots. -/
theorem within_of_nodeOfSlots? {kind : String} {slots : List Slot} {n : Node}
    (h : Composite.nodeOfSlots? kind slots = some n) (hd : Node.DistinctSlots slots) :
    n.Within (2 + Node.terseSlots slots) := by
  obtain ⟨rfl, hnodup⟩ := Composite.nodeOfSlots?_eq_some h
  exact ⟨⟨hnodup, hd⟩, Node.terseDepth_composite_le kind slots⟩

/-- A composite that was read without slots adds one level only. -/
theorem within_of_bare {kind : String} {n : Node} (h : Composite.nodeOfSlots? kind [] = some n) :
    n.Within 1 := by
  obtain ⟨rfl, hnodup⟩ := Composite.nodeOfSlots?_eq_some h
  exact ⟨⟨hnodup, trivial⟩, Nat.le_refl 1⟩

/-- What an array of a kind and slots says about the composite. -/
theorem compositeOfItems?_eq_some {items : List Json} {n : Node}
    (h : Node.compositeOfItems? items = some n) :
    (∃ kind, Composite.nodeOfSlots? kind [] = some n) ∨
      ∃ kind slots read, items = [.string kind, .array slots] ∧
        Node.slotsOfJson? slots = some read ∧ Composite.nodeOfSlots? kind read = some n := by
  unfold Node.compositeOfItems? at h
  split at h
  · exact Or.inl ⟨_, h⟩
  · obtain ⟨read, hread, h⟩ := Option.bind_eq_some_iff.mp h
    exact Or.inr ⟨_, _, read, rfl, hread, h⟩
  · cases h

/-- What the first member of an object says about the composite: its kind, its slots, or nothing. -/
theorem compositeOfMembers?_cons {kind : Option String} {slots : Option (List Slot)} {name : String}
    {value : Json} {rest : List (String × Json)} {n : Node}
    (h : Node.compositeOfMembers? kind slots ((name, value) :: rest) = some n) :
    (∃ kind, Node.compositeOfMembers? kind slots rest = some n) ∨
      ∃ items read, value = .array items ∧ Node.slotsOfJson? items = some read ∧
        Node.compositeOfMembers? kind (some read) rest = some n := by
  unfold Node.compositeOfMembers? at h
  split at h
  · split at h
    · exact Or.inl ⟨_, h⟩
    · cases h
  · split at h
    · split at h
      · obtain ⟨read, hread, h⟩ := Option.bind_eq_some_iff.mp h
        exact Or.inr ⟨_, read, rfl, hread, h⟩
      · cases h
    · exact Or.inl ⟨kind, h⟩

/-- What the first member of an object says about the field: its name, its value, or nothing. -/
theorem fieldOfMembers?_cons {key : Option String} {node : Option Node} {name : String} {value : Json}
    {rest : List (String × Json)} {slot : Slot}
    (h : Node.fieldOfMembers? key node ((name, value) :: rest) = some slot) :
    (∃ key, Node.fieldOfMembers? key node rest = some slot) ∨
      ∃ read, Node.ofJson? value = some read ∧
        Node.fieldOfMembers? key (some read) rest = some slot := by
  unfold Node.fieldOfMembers? at h
  split at h
  · split at h
    · exact Or.inl ⟨_, h⟩
    · cases h
  · split at h
    · split at h
      · obtain ⟨read, hread, h⟩ := Option.bind_eq_some_iff.mp h
        exact Or.inr ⟨read, hread, h⟩
      · cases h
    · exact Or.inl ⟨key, h⟩

/-- Slots are read one by one. -/
theorem slotsOfJson?_cons (item : Json) (rest : List Json) :
    Node.slotsOfJson? (item :: rest) =
      (match item with
        | .string text => some (Slot.text text)
        | .object members => Node.fieldOfMembers? none none members
        | _ => none).bind fun slot =>
          (Node.slotsOfJson? rest).bind fun slots => some (slot :: slots) := by
  cases item <;> simp [Node.slotsOfJson?]

mutual

/-- **A tree that was read** has distinct fields, and its shortest text is nested no deeper than the one it
    was read from. -/
theorem within_of_ofJson? {j : Json} {n : Node} (h : Node.ofJson? j = some n) : n.Within j.depth := by
  cases j with
  | null => simp [Node.ofJson?] at h
  | bool b => simp [Node.ofJson?] at h
  | integer i => simp [Node.ofJson?] at h
  | real r => simp [Node.ofJson?] at h
  | string text =>
    rw [Node.ofJson?] at h
    cases h
    exact ⟨trivial, Nat.zero_le _⟩
  | array items =>
    rw [Node.ofJson?] at h
    split at h
    · next nodes hnodes =>
      cases h
      obtain ⟨hd, hdepth⟩ := within_of_itemsOfJson? hnodes
      refine ⟨hd, ?_⟩
      rw [Node.terseDepth, Json.depth]
      omega
    · exact within_of_compositeOfItems? h
  | object members =>
    rw [Node.ofJson?] at h
    have hwithin : n.Within (1 + max 0 (Json.depthMembers members)) :=
      within_of_compositeOfMembers? (by nofun) h
    rw [Nat.zero_max] at hwithin
    exact hwithin
termination_by sizeOf j

theorem within_of_itemsOfJson? {items : List Json} {nodes : List Node}
    (h : Node.itemsOfJson? items = some nodes) :
    Node.DistinctItems nodes ∧ Node.terseItems nodes ≤ Json.depthItems items := by
  match items with
  | [] =>
    cases h
    exact ⟨trivial, Nat.le_refl _⟩
  | item :: rest =>
    rw [Node.itemsOfJson?] at h
    obtain ⟨node, hnode, h⟩ := Option.bind_eq_some_iff.mp h
    obtain ⟨others, hothers, h⟩ := Option.bind_eq_some_iff.mp h
    cases h
    obtain ⟨hd, hdepth⟩ := within_of_ofJson? hnode
    obtain ⟨hds, hdepths⟩ := within_of_itemsOfJson? hothers
    refine ⟨⟨hd, hds⟩, ?_⟩
    rw [Node.terseItems, Json.depthItems]
    omega
termination_by sizeOf items

/-- A composite in an array of its kind and its slots. -/
theorem within_of_compositeOfItems? {items : List Json} {n : Node}
    (h : Node.compositeOfItems? items = some n) : n.Within (1 + Json.depthItems items) := by
  rcases compositeOfItems?_eq_some h with ⟨kind, hbare⟩ | ⟨kind, slots, read, rfl, hread, hslots⟩
  · exact (within_of_bare hbare).mono (Nat.le_add_right _ _)
  · obtain ⟨hd, hdepth⟩ := within_of_slotsOfJson? hread
    refine (within_of_nodeOfSlots? hslots hd).mono ?_
    simp only [Json.depthItems, Json.depth]
    omega
termination_by sizeOf items

/-- A composite in an object, of which `slots` have been read. -/
theorem within_of_compositeOfMembers? {kind : Option String} {slots : Option (List Slot)} {bound : Nat}
    {members : List (String × Json)} {n : Node}
    (hslots : ∀ read ∈ slots, Node.DistinctSlots read ∧ 1 + Node.terseSlots read ≤ bound)
    (h : Node.compositeOfMembers? kind slots members = some n) :
    n.Within (1 + max bound (Json.depthMembers members)) := by
  match members with
  | [] =>
    rw [Node.compositeOfMembers?] at h
    obtain ⟨kind, -, h⟩ := Option.bind_eq_some_iff.mp h
    cases slots with
    | none => exact (within_of_bare h).mono (Nat.le_add_right _ _)
    | some read =>
      obtain ⟨hd, hdepth⟩ := hslots read rfl
      have hwithin : n.Within (2 + Node.terseSlots read) := within_of_nodeOfSlots? h hd
      exact hwithin.mono (by omega)
  | (name, value) :: rest =>
    rw [Json.depthMembers]
    rcases compositeOfMembers?_cons h with ⟨kind, hrest⟩ | ⟨items, read, rfl, hread, hrest⟩
    · exact (within_of_compositeOfMembers? hslots hrest).mono (by omega)
    · obtain ⟨hd, hdepth⟩ := within_of_slotsOfJson? hread
      have hnew : ∀ other ∈ some read, Node.DistinctSlots other ∧
          1 + Node.terseSlots other ≤ (Json.array items).depth := by
        intro other hother
        cases hother
        rw [Json.depth]
        exact ⟨hd, by omega⟩
      exact (within_of_compositeOfMembers? hnew hrest).mono (by omega)
termination_by sizeOf members

/-- The slots of a composite. -/
theorem within_of_slotsOfJson? {items : List Json} {slots : List Slot}
    (h : Node.slotsOfJson? items = some slots) :
    Node.DistinctSlots slots ∧ Node.terseSlots slots ≤ Json.depthItems items := by
  match items with
  | [] =>
    cases h
    exact ⟨trivial, Nat.le_refl _⟩
  | item :: rest =>
    rw [slotsOfJson?_cons] at h
    obtain ⟨slot, hslot, h⟩ := Option.bind_eq_some_iff.mp h
    obtain ⟨others, hothers, h⟩ := Option.bind_eq_some_iff.mp h
    cases h
    obtain ⟨hd, hdepth⟩ := within_of_slotsOfJson? hothers
    rw [Json.depthItems]
    split at hslot
    · cases hslot
      exact ⟨hd, Nat.le_trans hdepth (Nat.le_max_right _ _)⟩
    · next members =>
      obtain ⟨key, value, rfl, hvalue⟩ : ∃ key value, slot = .field key value ∧
          value.Within (max 0 (Json.depthMembers members)) := within_of_fieldOfMembers? (by nofun) hslot
      have hle := hvalue.2
      refine ⟨⟨hvalue.1, hd⟩, ?_⟩
      rw [Node.terseSlots, Json.depth]
      omega
    · cases hslot
termination_by sizeOf items

/-- A field, of which `node` has been read. -/
theorem within_of_fieldOfMembers? {key : Option String} {node : Option Node} {bound : Nat}
    {members : List (String × Json)} {slot : Slot} (hnode : ∀ read ∈ node, read.Within bound)
    (h : Node.fieldOfMembers? key node members = some slot) :
    ∃ name value, slot = .field name value ∧ value.Within (max bound (Json.depthMembers members)) := by
  match members with
  | [] =>
    rw [Node.fieldOfMembers?] at h
    obtain ⟨name, -, h⟩ := Option.bind_eq_some_iff.mp h
    obtain ⟨value, hvalue, h⟩ := Option.bind_eq_some_iff.mp h
    cases h
    exact ⟨name, value, rfl, (hnode value hvalue).mono (Nat.le_max_left _ _)⟩
  | (name, value) :: rest =>
    rw [Json.depthMembers]
    rcases fieldOfMembers?_cons h with ⟨key, hrest⟩ | ⟨read, hread, hrest⟩
    · obtain ⟨name, found, hslot, hfound⟩ := within_of_fieldOfMembers? hnode hrest
      exact ⟨name, found, hslot, hfound.mono (by omega)⟩
    · have hnew : ∀ other ∈ some read, other.Within value.depth := by
        intro other hother
        cases hother
        exact within_of_ofJson? hread
      obtain ⟨name, found, hslot, hfound⟩ := within_of_fieldOfMembers? hnew hrest
      exact ⟨name, found, hslot, hfound.mono (by omega)⟩
termination_by sizeOf members

end

/-! ## Composites without slots -/

mutual

/-- A composite without slots stands inside exactly `inside` arrays and objects of the text of the tree, if
    the node itself stands inside `level` of them. -/
def BareInside (inside level : Nat) : Node → Prop
  | .constant _ => False
  | .list items => BareInsideItems inside (level + 1) items
  | .composite _ [] => level = inside
  | .composite _ (slot :: rest) => BareInsideSlots inside (level + 3) (slot :: rest)

/-- One of the elements, which stand inside `level` arrays and objects, has such a composite. -/
def BareInsideItems (inside level : Nat) : List Node → Prop
  | [] => False
  | node :: rest => node.BareInside inside level ∨ BareInsideItems inside level rest

/-- One of the values of fields, which stand inside `level` arrays and objects, has such a composite. -/
def BareInsideSlots (inside level : Nat) : List Slot → Prop
  | [] => False
  | .text _ :: rest => BareInsideSlots inside level rest
  | .field _ value :: rest => value.BareInside inside level ∨ BareInsideSlots inside level rest

end

mutual

/-- A tree whose shortest text keeps to a bound is written within it, unless a composite without slots
    stands on the last level. -/
theorem depth_le_iff {inside level : Nat} {n : Node} (h : level + n.terseDepth ≤ inside + 1) :
    level + n.depth ≤ inside + 1 ↔ ¬ n.BareInside inside level := by
  match n with
  | .constant text => simpa [Node.depth, BareInside, Node.terseDepth] using h
  | .list items =>
    rw [Node.terseDepth, ← Nat.add_assoc] at h
    rw [Node.depth, ← Nat.add_assoc, BareInside]
    exact depthItems_le_iff h
  | .composite kind [] =>
    rw [Node.terseDepth] at h
    simp only [Node.depth, Node.depthSlots, BareInside]
    omega
  | .composite kind (slot :: rest) =>
    rw [Node.terseDepth, ← Nat.add_assoc] at h
    rw [Node.depth, ← Nat.add_assoc, BareInside]
    exact depthSlots_le_iff h

theorem depthItems_le_iff {inside level : Nat} {items : List Node}
    (h : level + Node.terseItems items ≤ inside + 1) :
    level + Node.depthItems items ≤ inside + 1 ↔ ¬ BareInsideItems inside level items := by
  match items with
  | [] => simpa [Node.depthItems, BareInsideItems, Node.terseItems] using h
  | node :: rest =>
    rw [Node.terseItems] at h
    have hnode : level + node.depth ≤ inside + 1 ↔ ¬ node.BareInside inside level :=
      depth_le_iff (by omega)
    have hrest : level + Node.depthItems rest ≤ inside + 1 ↔ ¬ BareInsideItems inside level rest :=
      depthItems_le_iff (by omega)
    rw [Node.depthItems, BareInsideItems, not_or, ← hnode, ← hrest]
    omega

theorem depthSlots_le_iff {inside base : Nat} {slots : List Slot}
    (h : base + Node.terseSlots slots ≤ inside + 1) :
    base + Node.depthSlots slots ≤ inside + 1 ↔ ¬ BareInsideSlots inside (base + 1) slots := by
  match slots with
  | [] => simpa [Node.depthSlots, BareInsideSlots, Node.terseSlots] using h
  | .text text :: rest =>
    rw [Node.terseSlots] at h
    rw [Node.depthSlots, BareInsideSlots]
    exact depthSlots_le_iff h
  | .field key value :: rest =>
    rw [Node.terseSlots] at h
    have hvalue : base + 1 + value.depth ≤ inside + 1 ↔ ¬ value.BareInside inside (base + 1) :=
      depth_le_iff (by omega)
    have hrest : base + Node.depthSlots rest ≤ inside + 1 ↔ ¬ BareInsideSlots inside (base + 1) rest :=
      depthSlots_le_iff (by omega)
    rw [Node.depthSlots, BareInsideSlots, not_or, ← hvalue, ← hrest]
    omega

end

/-! ## Reading again -/

/-- What is read from the text of a tree. -/
theorem ofJsonText_of_jsonText {n : Node} (hd : n.Distinct) :
    Node.ofJsonText n.jsonText = if n.depth ≤ 127 then .ok n else .error .malformed := by
  obtain ⟨raw, hread, hsettle⟩ := n.settle_jsonText
  by_cases hfits : n.depth ≤ 127
  · rw [if_pos hfits] at hsettle ⊢
    simp only [Node.ofJsonText, hread, hsettle, Node.ofJson?_toJson hd]
    rfl
  · rw [if_neg hfits] at hsettle ⊢
    simp only [Node.ofJsonText, hread, hsettle]

/-- A tree that was read from a text has distinct fields and keeps to the limit on nesting, as far as its
    shortest text goes. -/
theorem within_of_ofJsonText {text : String} {n : Node} (h : Node.ofJsonText text = .ok n) :
    n.Within 127 := by
  unfold Node.ofJsonText at h
  split at h
  · cases h
  · split at h
    · cases h
    · next value hsettle =>
      split at h
      · cases h
      · next node hnode =>
        split at h
        · cases h
          exact (within_of_ofJson? hnode).mono (Json.depth_le_of_settle hsettle)
        · cases h

/-- **Reading, writing and reading again.** A tree that was read from a text is read as itself from the text
    that it is written as, unless it has a composite without slots inside 126 arrays and objects. In
    that case, and only then, its own text is malformed. -/
theorem rereadable_unless_bare (text : String) (n : Node) (h : Node.ofJsonText text = .ok n) :
    (¬ n.BareInside 126 0 → Node.ofJsonText n.jsonText = .ok n) ∧
      (n.BareInside 126 0 → Node.ofJsonText n.jsonText = .error .malformed) := by
  obtain ⟨hd, hterse⟩ := within_of_ofJsonText h
  have hdepth : 0 + n.depth ≤ 126 + 1 ↔ ¬ n.BareInside 126 0 := depth_le_iff (by omega)
  rw [Nat.zero_add] at hdepth
  rw [ofJsonText_of_jsonText hd, ← hdepth]
  constructor
  · intro hfits
    exact if_pos hfits
  · intro hbare
    exact if_neg fun hfits => hdepth.mp hfits hbare

/-! ## At the limit -/

/-- A composite without slots inside so many lists. -/
def bareUnder (levels : Nat) : Node :=
  Nat.repeat (fun node => .list [node]) levels (.composite "t" [])

/-- A text of that tree in which the slots are left out. -/
def bareText (levels : Nat) : String :=
  String.ofList
    (List.replicate levels '[' ++ "\x7b\"type\":\"t\"\x7d".toList ++ List.replicate levels ']')

/-- The value of that text. -/
def bareValue (levels : Nat) : Json :=
  Nat.repeat (fun value => .array [value]) levels (.object [("type", .string "t")])

theorem distinct_bareUnder (levels : Nat) : (bareUnder levels).Distinct := by
  induction levels with
  | zero => decide
  | succ levels ih => exact ⟨ih, trivial⟩

theorem depth_bareUnder (levels : Nat) : (bareUnder levels).depth = levels + 2 := by
  induction levels with
  | zero => rfl
  | succ levels ih =>
    show 1 + max (bareUnder levels).depth 0 = _
    rw [ih]
    omega

theorem bareInside_bareUnder_iff {levels inside level : Nat} :
    (bareUnder levels).BareInside inside level ↔ level + levels = inside := by
  induction levels generalizing level with
  | zero => exact Iff.rfl
  | succ levels ih =>
    show (bareUnder levels).BareInside inside (level + 1) ∨ False ↔ _
    rw [or_false, ih]
    omega

theorem chars_bareValue (levels : Nat) :
    (bareValue levels).chars =
      List.replicate levels '[' ++ "\x7b\"type\":\"t\"\x7d".toList ++ List.replicate levels ']' := by
  induction levels with
  | zero => decide
  | succ levels ih =>
    show '[' :: (bareValue levels).chars ++ [']'] = _
    rw [ih, List.replicate_succ, List.replicate_succ']
    simp

theorem integral_bareValue (levels : Nat) : (bareValue levels).Integral := by
  induction levels with
  | zero => exact ⟨trivial, trivial⟩
  | succ levels ih => exact ⟨ih, trivial⟩

theorem depth_bareValue (levels : Nat) : (bareValue levels).depth = levels + 1 := by
  induction levels with
  | zero => rfl
  | succ levels ih =>
    show 1 + max (bareValue levels).depth 0 = _
    rw [ih]
    omega

theorem ofJson?_bareValue (levels : Nat) : Node.ofJson? (bareValue levels) = some (bareUnder levels) := by
  induction levels with
  | zero => rfl
  | succ levels ih =>
    show Node.ofJson? (.array [bareValue levels]) = some (.list [bareUnder levels])
    simp [Node.ofJson?, Node.itemsOfJson?, ih]

/-- The shorter text is read as long as it keeps to the limit itself. -/
theorem ofJsonText_bareText {levels : Nat} (h : levels ≤ 126) :
    Node.ofJsonText (bareText levels) = .ok (bareUnder levels) := by
  have htext : bareText levels = (bareValue levels).text := by
    rw [bareText, Json.text, chars_bareValue]
  have hsettle : (bareValue levels).raw.settle Json.maxDepth = some (bareValue levels) := by
    rw [Json.settle_raw (integral_bareValue levels), depth_bareValue, if_pos]
    unfold Json.maxDepth
    omega
  rw [htext]
  simp only [Node.ofJsonText, Json.read_text (integral_bareValue levels), hsettle, ofJson?_bareValue]
  rfl

/-- Inside 125 lists a composite without slots stays readable, and inside 126 it does not. -/
theorem rereadable_unless_bare_limit :
    Node.ofJsonText (bareText 125) = .ok (bareUnder 125) ∧
      Node.ofJsonText (bareUnder 125).jsonText = .ok (bareUnder 125) ∧
      Node.ofJsonText (bareText 126) = .ok (bareUnder 126) ∧
      Node.ofJsonText (bareUnder 126).jsonText = .error .malformed := by
  have hread : Node.ofJsonText (bareText 125) = .ok (bareUnder 125) := ofJsonText_bareText (by decide)
  have hlast : Node.ofJsonText (bareText 126) = .ok (bareUnder 126) := ofJsonText_bareText (by decide)
  have hfits : ¬ (bareUnder 125).BareInside 126 0 := by
    rw [bareInside_bareUnder_iff]
    decide
  have hbare : (bareUnder 126).BareInside 126 0 := bareInside_bareUnder_iff.mpr rfl
  exact ⟨hread, (rereadable_unless_bare _ _ hread).1 hfits, hlast,
    (rereadable_unless_bare _ _ hlast).2 hbare⟩

/-- A text is read, and the tree in it is written as a text that is not. -/
theorem written_beyond_limit :
    Node.ofJsonText (bareText 126) = .ok (bareUnder 126) ∧
      Node.ofJsonText (bareUnder 126).jsonText = .error .malformed := by
  refine ⟨ofJsonText_bareText (by decide), ?_⟩
  rw [ofJsonText_of_jsonText (distinct_bareUnder 126), depth_bareUnder]
  rfl

end Node

end LosslessTree
