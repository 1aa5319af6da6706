import LosslessTree.Node.Build

/-!
# `Proofs.Leaves` — the leaves of a tree and their owners

The leaves of a tree are its constants and the texts of its composites, in the order in which they are
rendered. A constant is owned by itself. A text of a composite has no path of its own and is owned by
the composite. Put together, the texts of the leaves are the rendered text.

`Node.leavesBefore` lists the leaves in front of the node at a path: at every step down the path, the
leaves of the elements, texts and fields that stand ahead of the child taken.

## Contents
- **Leaves.** `Leaf`, `Node.leaves`, `Leaf.texts`, `Node.leavesBefore`.
- **`Node.reach`**, following a path without a report of where it fails.
- **First fields.** `Slot.split_at_field`: the slots before and after the field that a name selects.
-/

namespace LosslessTree

/-- A piece of the text of a tree. -/
structure Leaf where
  /-- The path of the constant, or of the composite that the text belongs to. -/
  owner : Path
  text : String
  deriving DecidableEq, Repr

/-! ## Leaves in their order -/

mutual

/-- The leaves of a node that has the path `path`. -/
def Node.leavesFrom (path : Path) : Node → List Leaf
  | .constant text => [⟨path, text⟩]
  | .list items => Node.leavesItems path 0 items
  | .composite _ slots => Node.leavesSlots path slots

/-- The leaves of the elements of a list at `path`, of which the first has index `i`. -/
def Node.leavesItems (path : Path) (i : Nat) : List Node → List Leaf
  | [] => []
  | node :: rest =>
    Node.leavesFrom (path.push (.index i)) node ++ Node.leavesItems path (i + 1) rest

/-- The leaves of the slots of a composite at `path`. -/
def Node.leavesSlots (path : Path) : List Slot → List Leaf
  | [] => []
  | .text text :: rest => ⟨path, text⟩ :: Node.leavesSlots path rest
  | .field key value :: rest =>
    Node.leavesFrom (path.push (.name key)) value ++ Node.leavesSlots path rest

end

/-- The leaves of a tree. -/
def Node.leaves (tree : Node) : List Leaf := tree.leavesFrom Path.root

/-- The texts of leaves put together. -/
def Leaf.texts : List Leaf → String
  | [] => ""
  | leaf :: rest => leaf.text ++ texts rest

theorem Leaf.texts_append (xs ys : List Leaf) :
    Leaf.texts (xs ++ ys) = Leaf.texts xs ++ Leaf.texts ys := by
  induction xs with
  | nil => exact String.empty_append.symm
  | cons leaf rest ih =>
    show leaf.text ++ Leaf.texts (rest ++ ys) = leaf.text ++ Leaf.texts rest ++ Leaf.texts ys
    rw [ih, String.append_assoc]

mutual

/-- The leaves render the tree. -/
theorem Node.texts_leavesFrom (path : Path) :
    (node : Node) → Leaf.texts (node.leavesFrom path) = node.render
  | .constant _ => String.append_empty
  | .list items => Node.texts_leavesItems path 0 items
  | .composite _ slots => Node.texts_leavesSlots path slots

theorem Node.texts_leavesItems (path : Path) (i : Nat) :
    (items : List Node) → Leaf.texts (Node.leavesItems path i items) = Node.renderItems items
  | [] => rfl
  | node :: rest => by
    rw [Node.leavesItems, Leaf.texts_append, Node.texts_leavesFrom, Node.texts_leavesItems]
    rfl

theorem Node.texts_leavesSlots (path : Path) :
    (slots : List Slot) → Leaf.texts (Node.leavesSlots path slots) = Node.renderSlots slots
  | [] => rfl
  | .text text :: rest => by
    rw [Node.leavesSlots, Leaf.texts, Node.texts_leavesSlots]
    rfl
  | .field key value :: rest => by
    rw [Node.leavesSlots, Leaf.texts_append, Node.texts_leavesFrom, Node.texts_leavesSlots]
    rfl

end

/-! ## Following a path -/

/-- The node that a path leads to. -/
def Node.reach (node : Node) : Path → Option Node
  | [] => some node
  | key :: rest => (node.child key).bind (·.reach rest)

theorem Node.reach_append (node : Node) (p q : Path) :
    node.reach (p ++ q) = (node.reach p).bind (·.reach q) := by
  induction p generalizing node with
  | nil => rfl
  | cons key rest ih =>
    show (node.child key).bind (·.reach (rest ++ q)) = ((node.child key).bind (·.reach rest)).bind _
    cases node.child key with
    | none => rfl
    | some child => exact ih child

theorem Node.descendFrom_eq_ok_iff {node n : Node} {q : Path} (parent : Path) :
    node.descendFrom parent q = .ok n ↔ node.reach q = some n := by
  induction q generalizing node parent with
  | nil => exact ⟨fun h => by cases h; rfl, fun h => by cases h; rfl⟩
  | cons key rest ih =>
    rw [Node.descendFrom, Node.reach]
    cases node.child key with
    | none => exact ⟨fun h => (by cases h), fun h => (by cases h)⟩
    | some child => exact ih (parent.push key)

/-- Descending succeeds with the node that the path leads to. -/
theorem Node.descend_eq_ok_iff {node n : Node} {q : Path} :
    node.descend q = .ok n ↔ node.reach q = some n :=
  Node.descendFrom_eq_ok_iff []

/-- Descending fails where the path leads nowhere. -/
theorem Node.descend_eq_error_iff {node : Node} {q : Path} :
    (∃ e, node.descend q = .error e) ↔ node.reach q = none := by
  cases h : node.descend q with
  | ok n =>
    rw [Node.descend_eq_ok_iff.mp h]
    exact ⟨fun ⟨_, he⟩ => (by cases he), fun hn => (by cases hn)⟩
  | error e =>
    refine ⟨fun _ => ?_, fun _ => ⟨e, rfl⟩⟩
    cases hr : node.reach q with
    | none => rfl
    | some n => rw [Node.descend_eq_ok_iff.mpr hr] at h; cases h

/-! ## The field that a name selects -/

/-- Whether a slot is a field called `name`. -/
def Slot.isField (name : String) : Slot → Bool
  | .text _ => false
  | .field key _ => key == name

/-- The slots ahead of the first field called `name`. -/
def Slot.ahead (name : String) (slots : List Slot) : List Slot :=
  slots.takeWhile fun slot => !slot.isField name

/-- The names of the fields among slots. -/
def Slot.names (slots : List Slot) : List String := (Slot.fields slots).map (·.1)

theorem Slot.names_append (xs ys : List Slot) : Slot.names (xs ++ ys) = Slot.names xs ++ Slot.names ys := by
  simp only [Slot.names, Slot.fields, List.filterMap_append, List.map_append]

theorem Slot.fieldValue_self (name : String) (value : Node) (rest : List Slot) :
    Slot.fieldValue (.field name value :: rest) name = some value := by
  simp [Slot.fieldValue, Slot.fields]

theorem Slot.fieldValue_of_ne {key name : String} (h : key ≠ name) (value : Node) (rest : List Slot) :
    Slot.fieldValue (.field key value :: rest) name = Slot.fieldValue rest name := by
  have hname : (name == key) = false := beq_false_of_ne h.symm
  simp [Slot.fieldValue, Slot.fields, List.lookup_cons, hname]

theorem Slot.ahead_self (name : String) (value : Node) (rest : List Slot) :
    Slot.ahead name (.field name value :: rest) = [] := by
  simp [Slot.ahead, Slot.isField]

theorem Slot.ahead_of_ne {key name : String} (h : key ≠ name) (value : Node) (rest : List Slot) :
    Slot.ahead name (.field key value :: rest) = .field key value :: Slot.ahead name rest := by
  simp [Slot.ahead, Slot.isField, h]

theorem Slot.name_notMem_ahead (name : String) (slots : List Slot) :
    name ∉ Slot.names (Slot.ahead name slots) := by
  induction slots with
  | nil => exact List.not_mem_nil
  | cons slot rest ih =>
    cases slot with
    | text _ => exact ih
    | field key value =>
      by_cases hkey : key = name
      · subst hkey
        rw [Slot.ahead_self]
        exact List.not_mem_nil
      · rw [Slot.ahead_of_ne hkey]
        intro hmem
        rcases List.mem_cons.mp hmem with he | hrest
        · exact hkey he.symm
        · exact ih hrest

/-- The slots around the field that a name selects. -/
theorem Slot.split_at_field {slots : List Slot} {name : String} {value : Node}
    (h : Slot.fieldValue slots name = some value) :
    ∃ behind, slots = Slot.ahead name slots ++ .field name value :: behind := by
  induction slots with
  | nil => cases h
  | cons slot rest ih =>
    cases slot with
    | text text =>
      obtain ⟨behind, hrest⟩ := ih h
      exact ⟨behind, congrArg (Slot.text text :: ·) hrest⟩
    | field key v =>
      by_cases hkey : key = name
      · subst hkey
        rw [Slot.fieldValue_self] at h
        cases h
        exact ⟨rest, by rw [Slot.ahead_self]; rfl⟩
      · rw [Slot.fieldValue_of_ne hkey] at h
        obtain ⟨behind, hrest⟩ := ih h
        refine ⟨behind, ?_⟩
        rw [Slot.ahead_of_ne hkey]
        exact congrArg (Slot.field key v :: ·) hrest

theorem Slot.mem_names {slots : List Slot} {name : String} {value : Node}
    (h : Slot.field name value ∈ slots) : name ∈ Slot.names slots :=
  List.mem_map.mpr ⟨(name, value), List.mem_filterMap.mpr ⟨_, h, rfl⟩, rfl⟩

/-- A name selects nothing exactly if no field has it. -/
theorem Slot.fieldValue_eq_none_iff {slots : List Slot} {name : String} :
    Slot.fieldValue slots name = none ↔ name ∉ Slot.names slots := by
  rw [Slot.fieldValue, List.lookup_eq_none_iff]
  constructor
  · intro h hm
    obtain ⟨field, hfield, rfl⟩ := List.mem_map.mp hm
    simpa using h field hfield
  · intro h field hfield
    have hne : name ≠ field.1 := fun heq => h (List.mem_map.mpr ⟨field, hfield, heq.symm⟩)
    simpa using hne

/-- Where names are distinct, each field is the one that its name selects. -/
theorem Slot.fieldValue_of_mem {slots : List Slot} {name : String} {value : Node}
    (hd : (Slot.names slots).Nodup) (hm : Slot.field name value ∈ slots) :
    Slot.fieldValue slots name = some value := by
  induction slots with
  | nil => cases hm
  | cons slot rest ih =>
    cases slot with
    | text text =>
      rcases List.mem_cons.mp hm with he | hrest
      · cases he
      · exact ih hd hrest
    | field key v =>
      obtain ⟨hkey, hnodup⟩ : key ∉ Slot.names rest ∧ (Slot.names rest).Nodup := List.nodup_cons.mp hd
      rcases List.mem_cons.mp hm with he | hrest
      · cases he
        exact Slot.fieldValue_self name value rest
      · have hne : key ≠ name := fun he => hkey (he ▸ Slot.mem_names hrest)
        rw [Slot.fieldValue_of_ne hne]
        exact ih hnodup hrest

/-! ## Distinct names below -/

mutual

/-- Decides whether a tree has distinct names throughout. -/
def Node.decDistinct : (node : Node) → Decidable node.Distinct
  | .constant _ => .isTrue trivial
  | .list items => Node.decDistinctItems items
  | .composite _ slots =>
    have := Node.decDistinctSlots slots
    inferInstanceAs (Decidable (((Slot.fields slots).map (·.1)).Nodup ∧ Node.DistinctSlots slots))

/-- Decides whether every node of a list has distinct names throughout. -/
def Node.decDistinctItems : (items : List Node) → Decidable (Node.DistinctItems items)
  | [] => .isTrue trivial
  | node :: rest =>
    have := Node.decDistinct node
    have := Node.decDistinctItems rest
    inferInstanceAs (Decidable (node.Distinct ∧ Node.DistinctItems rest))

/-- Decides whether every field value among slots has distinct names throughout. -/
def Node.decDistinctSlots : (slots : List Slot) → Decidable (Node.DistinctSlots slots)
  | [] => .isTrue trivial
  | .text _ :: rest => Node.decDistinctSlots rest
  | .field _ value :: rest =>
    have := Node.decDistinct value
    have := Node.decDistinctSlots rest
    inferInstanceAs (Decidable (value.Distinct ∧ Node.DistinctSlots rest))

end

instance (node : Node) : Decidable node.Distinct := node.decDistinct

theorem Node.distinctItems_iff {items : List Node} :
    Node.DistinctItems items ↔ ∀ node ∈ items, node.Distinct := by
  induction items with
  | nil => exact ⟨fun _ _ h => absurd h List.not_mem_nil, fun _ => trivial⟩
  | cons node rest ih => rw [Node.DistinctItems, List.forall_mem_cons, ih]

theorem Node.distinctSlots_iff {slots : List Slot} :
    Node.DistinctSlots slots ↔ ∀ key value, Slot.field key value ∈ slots → value.Distinct := by
  induction slots with
  | nil => exact ⟨fun _ _ _ h => absurd h List.not_mem_nil, fun _ => trivial⟩
  | cons slot rest ih =>
    cases slot with
    | text text => simp [Node.DistinctSlots, ih]
    | field key value =>
      rw [Node.DistinctSlots, ih]
      constructor
      · rintro ⟨hvalue, hrest⟩ k v hm
        rcases List.mem_cons.mp hm with he | hm
        · cases he
          exact hvalue
        · exact hrest k v hm
      · intro h
        exact ⟨h key value (List.mem_cons_self ..), fun k v hm => h k v (List.mem_cons_of_mem _ hm)⟩

/-- A child of a tree with distinct names has distinct names. -/
theorem Node.Distinct.child {node child : Node} {key : Key} (hd : node.Distinct)
    (h : node.child key = some child) : child.Distinct := by
  cases node with
  | constant text => cases h
  | list items =>
    cases key with
    | name name => cases h
    | index i => exact Node.distinctItems_iff.mp hd child (List.mem_of_getElem? h)
  | composite kind slots =>
    cases key with
    | index i => cases h
    | name name =>
      obtain ⟨behind, hsplit⟩ := Slot.split_at_field h
      have hm : Slot.field name child ∈ slots := by
        rw [hsplit]
        exact List.mem_append_right _ (List.mem_cons_self ..)
      exact Node.distinctSlots_iff.mp hd.2 name child hm

/-- The node that a path leads to has distinct names. -/
theorem Node.Distinct.reach {tree n : Node} {path : Path} (hd : tree.Distinct)
    (h : tree.reach path = some n) : n.Distinct := by
  induction path generalizing tree with
  | nil => cases h; exact hd
  | cons key rest ih =>
    obtain ⟨child, hchild, hrest⟩ := Option.bind_eq_some_iff.mp h
    exact ih (hd.child hchild) hrest

/-! ## Leaves in front of a node -/

/-- The leaves of a node at `path` that stand ahead of its child under a key. -/
def Node.leavesAhead (path : Path) : Node → Key → List Leaf
  | .list items, .index i => Node.leavesItems path 0 (items.take i)
  | .composite _ slots, .name name => Node.leavesSlots path (Slot.ahead name slots)
  | _, _ => []

/-- The leaves of a node at `path` in front of the node that a further path leads to. -/
def Node.leavesBefore (path : Path) (node : Node) : Path → List Leaf
  | [] => []
  | key :: rest =>
    node.leavesAhead path key ++
      match node.child key with
      | some child => child.leavesBefore (path.push key) rest
      | none => []

end LosslessTree
