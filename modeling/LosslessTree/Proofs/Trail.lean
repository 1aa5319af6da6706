import LosslessTree.Proofs.Leaves
import LosslessTree.Proofs.WalkCalls
import LosslessTree.Resolve.PathWalk

/-!
# `Proofs.Trail` — the paths along a walk

A strategy is called by a visitor that keeps the path of the current item. The trail of a tree is the
list of the calls that a strategy gets when it never halts, written down by recursion on the tree and
without a stack: every call with the path of its item. `Strategy.run_eq` says that a walk with a strategy
makes the calls of the trail, up to the first that halts, and then only calls that leave items.

The trail is tied to paths in two ways. Each call concerns a node that its path leads to
(`Node.reach_of_mem_trailFrom`), which needs distinct names: of two fields of one name only the first is
reached. And around the calls of the node at a path stand only calls with other paths, none of which
goes through that node (`Node.trailFrom_split`).

## Contents
- **Located calls.** `Event.located`, `Event.trail`, `Node.trail`.
- **Running a strategy.** `Strategy.call`, `Strategy.run_eq`.
- **Leaves of a trail.** `PathEvent.entered?` and `PathEvent.leaf?`.
- **Paths of a trail.** `Node.reach_of_mem_trailFrom`, `Node.trailFrom_split`.
-/

namespace LosslessTree

variable {σ : Type}

/-! ## Located calls -/

namespace Event

/-- The call of a strategy that `e` becomes when `path` is kept. -/
def located (path : Path) : Event → PathEvent
  | .enter item key => .enter (path ++ key.toList) item
  | .leaf text _ => .leaf path text
  | .leave item _ => .leave path item

/-- The path kept after the call `e`. -/
def pathAfter (path : Path) : Event → Path
  | .enter _ key => path ++ key.toList
  | .leaf _ _ => path
  | .leave _ key => if key.isSome then path.dropLast else path

/-- The calls of a strategy that `es` become, from `path` on. -/
def trail (path : Path) : List Event → List PathEvent
  | [] => []
  | e :: es => e.located path :: trail (e.pathAfter path) es

theorem trail_append (path : Path) (es fs : List Event) :
    trail path (es ++ fs) = trail path es ++ trail (es.foldl pathAfter path) fs := by
  induction es generalizing path with
  | nil => rfl
  | cons e es ih => exact congrArg (e.located path :: ·) (ih (e.pathAfter path))

theorem leave_of_mem_trail {es : List Event} (path : Path)
    (h : ∀ e ∈ es, ∃ item key, e = Event.leave item key) :
    ∀ e ∈ trail path es, ∃ path item, e = PathEvent.leave path item := by
  induction es generalizing path with
  | nil => intro e he; cases he
  | cons e es ih =>
    intro located he
    rcases List.mem_cons.mp he with rfl | he
    · obtain ⟨item, key, rfl⟩ := h e (List.mem_cons_self ..)
      exact ⟨path, item, rfl⟩
    · exact ih (e.pathAfter path) (fun e he => h e (List.mem_cons_of_mem _ he)) located he

/-- Leaving an item takes its key off again. -/
theorem pathAfter_leave (path : Path) (item : Node) (key : Option Key) :
    pathAfter (path ++ key.toList) (.leave item key) = path := by
  cases key with
  | none => exact List.append_nil path
  | some key => exact List.dropLast_concat

/-- The calls of one item: its own path stands on the calls that enter and leave it. -/
theorem trail_bracket (path : Path) (item : Node) (key : Option Key) (inside es : List Event)
    (calls : List PathEvent)
    (h : ∀ fs, trail (path ++ key.toList) (inside ++ fs) = calls ++ trail (path ++ key.toList) fs) :
    trail path (.enter item key :: (inside ++ .leave item key :: es)) =
      .enter (path ++ key.toList) item :: (calls ++ .leave (path ++ key.toList) item :: trail path es) := by
  show .enter (path ++ key.toList) item ::
    trail (path ++ key.toList) (inside ++ .leave item key :: es) = _
  rw [h, trail, pathAfter_leave]
  rfl

end Event

mutual

/-- The calls that a strategy gets on the walk of a node at `path`. -/
def Node.trailFrom (path : Path) : Node → List PathEvent
  | .constant text => [.enter path (.constant text), .leaf path text, .leave path (.constant text)]
  | .list items =>
    .enter path (.list items) :: (Node.trailItems path 0 items ++ [.leave path (.list items)])
  | .composite kind slots =>
    .enter path (.composite kind slots) ::
      (Node.trailSlots path slots ++ [.leave path (.composite kind slots)])

/-- The calls on the elements of a list at `path`, of which the first has index `i`. -/
def Node.trailItems (path : Path) (i : Nat) : List Node → List PathEvent
  | [] => []
  | node :: rest => Node.trailFrom (path.push (.index i)) node ++ Node.trailItems path (i + 1) rest

/-- The calls on the slots of a composite at `path`. -/
def Node.trailSlots (path : Path) : List Slot → List PathEvent
  | [] => []
  | .text text :: rest =>
    [.enter path (.constant text), .leaf path text, .leave path (.constant text)] ++
      Node.trailSlots path rest
  | .field key value :: rest =>
    Node.trailFrom (path.push (.name key)) value ++ Node.trailSlots path rest

end

/-- The calls that a strategy gets on the walk of a tree. -/
def Node.trail (tree : Node) : List PathEvent := tree.trailFrom Path.root

mutual

/-- The path that is kept is the path of the item, and is back to `path` after the item. -/
theorem Node.trail_eventsAt (path : Path) (key : Option Key) :
    (node : Node) → (es : List Event) →
      Event.trail path (node.eventsAt key ++ es) =
        node.trailFrom (path ++ key.toList) ++ Event.trail path es
  | .constant text, es => Event.trail_bracket path _ key [.leaf text key] es [.leaf _ text] fun _ => rfl
  | .list items, es => by
    show Event.trail path
      (.enter (.list items) key :: (Node.eventsItems 0 items ++ [.leave (.list items) key] ++ es)) = _
    rw [List.append_assoc]
    exact (Event.trail_bracket path _ key _ es _ (Node.trail_eventsItems _ 0 items)).trans
      (by simp [Node.trailFrom])
  | .composite kind slots, es => by
    show Event.trail path (.enter (.composite kind slots) key ::
      (Node.eventsSlots slots ++ [.leave (.composite kind slots) key] ++ es)) = _
    rw [List.append_assoc]
    exact (Event.trail_bracket path _ key _ es _ (Node.trail_eventsSlots _ slots)).trans
      (by simp [Node.trailFrom])

theorem Node.trail_eventsItems (path : Path) (i : Nat) :
    (items : List Node) → (es : List Event) →
      Event.trail path (Node.eventsItems i items ++ es) =
        Node.trailItems path i items ++ Event.trail path es
  | [], _ => rfl
  | node :: rest, es => by
    rw [Node.eventsItems, List.append_assoc, Node.trail_eventsAt, Node.trail_eventsItems,
      Node.trailItems, List.append_assoc]
    rfl

theorem Node.trail_eventsSlots (path : Path) :
    (slots : List Slot) → (es : List Event) →
      Event.trail path (Node.eventsSlots slots ++ es) =
        Node.trailSlots path slots ++ Event.trail path es
  | [], _ => rfl
  | .text text :: rest, es => by
    -- a text has no key, so the path kept stays that of the composite
    have htext := Event.trail_bracket path (.constant text) none [.leaf text none]
      (Node.eventsSlots rest ++ es) [.leaf path text]
    rw [show path ++ (none : Option Key).toList = path from List.append_nil path] at htext
    rw [Node.eventsSlots, Node.trailSlots, List.append_assoc]
    refine (htext fun _ => rfl).trans ?_
    rw [Node.trail_eventsSlots]
    rfl
  | .field key value :: rest, es => by
    rw [Node.eventsSlots, List.append_assoc, Node.trail_eventsAt, Node.trail_eventsSlots,
      Node.trailSlots, List.append_assoc]
    rfl

end

/-- The calls of a full walk become the trail. -/
theorem Node.trail_events (tree : Node) : Event.trail Path.root tree.events = tree.trail := by
  have h := tree.trail_eventsAt Path.root none []
  rw [List.append_nil] at h
  exact h.trans (List.append_nil _)

/-- The calls of a node are those that enter and leave it, around well nested calls. -/
theorem Node.trailFrom_bracket (path : Path) (node : Node) :
    ∃ inside, Event.Balanced inside ∧
      node.trailFrom path = .enter path node :: (Event.trail path inside ++ [.leave path node]) := by
  cases node with
  | constant text => exact ⟨[.leaf text none], .leaf .nil, rfl⟩
  | list items =>
    have h := Node.trail_eventsItems path 0 items []
    rw [List.append_nil, Event.trail, List.append_nil] at h
    refine ⟨Node.eventsItems 0 items, Node.eventsItems_balanced 0 items, ?_⟩
    rw [h, Node.trailFrom]
  | composite kind slots =>
    have h := Node.trail_eventsSlots path slots []
    rw [List.append_nil, Event.trail, List.append_nil] at h
    refine ⟨Node.eventsSlots slots, Node.eventsSlots_balanced slots, ?_⟩
    rw [h, Node.trailFrom]

/-! ## Running a strategy -/

/-- Makes the call `e`. -/
def Strategy.call (st : Strategy σ) : PathEvent → σ → σ × Flow
  | .enter path item => st.onEnter path item
  | .leaf path text => st.onLeaf path text
  | .leave path item => st.onLeave path item

namespace Strategy

theorem visitor_call (st : Strategy σ) (e : Event) (path : Path) (s : σ) :
    st.visitor.call e ⟨path, s⟩ =
      (⟨e.pathAfter path, (st.call (e.located path) s).1⟩, (st.call (e.located path) s).2) := by
  cases e <;> rfl

/-- The state of the strategy after some calls of the walk. -/
theorem visitor_after (st : Strategy σ) (es : List Event) (path : Path) (s : σ) :
    (Calls.after st.visitor.call es ⟨path, s⟩).state = Calls.after st.call (Event.trail path es) s := by
  induction es generalizing path s with
  | nil => rfl
  | cons e es ih =>
    show (Calls.after st.visitor.call es (st.visitor.call e ⟨path, s⟩).1).state = _
    rw [visitor_call, ih]
    rfl

/-- The walk halts at the call at which the trail does. -/
theorem visitor_halting (st : Strategy σ) (es : List Event) (path : Path) (s : σ) :
    (Calls.halting st.visitor.call es ⟨path, s⟩).map (Event.trail path) =
      Calls.halting st.call (Event.trail path es) s := by
  induction es generalizing path s with
  | nil => rfl
  | cons e es ih =>
    have hcall := visitor_call st e path s
    show _ = Calls.halting st.call (e.located path :: Event.trail (e.pathAfter path) es) s
    cases hflow : (st.call (e.located path) s).2 with
    | halt =>
      rw [hflow] at hcall
      rw [Calls.halting_cons_halt hflow, Calls.halting_cons_halt (congrArg Prod.snd hcall)]
      rfl
    | proceed =>
      rw [hflow] at hcall
      rw [Calls.halting_cons_proceed hflow, Calls.halting_cons_proceed (congrArg Prod.snd hcall),
        hcall, ← ih, Option.map_map, Option.map_map]
      rfl

/-- **Running a strategy.** It gets the calls of the trail up to the first that it halts at, and after
    them only calls that leave items. -/
theorem run_eq (st : Strategy σ) (tree : Node) (s : σ) :
    ∃ closing, (∀ e ∈ closing, ∃ path item, e = PathEvent.leave path item) ∧
      st.run tree s = Calls.after st.call closing (Calls.run st.call tree.trail s) := by
  have hhalting := st.visitor_halting tree.events Path.root s
  rw [tree.trail_events] at hhalting
  rw [run, Node.walk_eq_follow]
  cases h : Calls.halting st.visitor.call tree.events ⟨Path.root, s⟩ with
  | none =>
    rw [h] at hhalting
    refine ⟨[], fun e he => absurd he List.not_mem_nil, ?_⟩
    rw [Visitor.follow_of_proceeding h, visitor_after, tree.trail_events,
      Calls.run_of_proceeding hhalting.symm]
    rfl
  | some calls =>
    rw [h] at hhalting
    -- the calls after the halt start from the path kept at the halt
    refine ⟨Event.trail (calls.foldl Event.pathAfter Path.root) (Event.pending calls), ?_, ?_⟩
    · exact Event.leave_of_mem_trail _ fun e he => Event.leave_of_mem_pending he
    · rw [Visitor.follow_of_halting h, visitor_after, Event.trail_append, Calls.after_append,
        Calls.run_of_halting hhalting.symm]

end Strategy

/-! ## Leaves of a trail -/

namespace PathEvent

/-- The leaf that a call enters. -/
def entered? : PathEvent → Option Leaf
  | .enter path (.constant text) => some ⟨path, text⟩
  | _ => none

/-- The leaf whose text a call hands out. -/
def leaf? : PathEvent → Option Leaf
  | .leaf path text => some ⟨path, text⟩
  | _ => none

/-- The item that a call is about. -/
def item : PathEvent → Node
  | .enter _ item => item
  | .leaf _ text => .constant text
  | .leave _ item => item

/-- One of the three calls of a leaf is picked, and no call of a list or a composite. -/
structure Picks (pick : PathEvent → Option Leaf) : Prop where
  leaf : ∀ path text, [PathEvent.enter path (.constant text), .leaf path text,
    .leave path (.constant text)].filterMap pick = [⟨path, text⟩]
  list : ∀ path items, pick (.enter path (.list items)) = none ∧ pick (.leave path (.list items)) = none
  composite : ∀ path kind slots, pick (.enter path (.composite kind slots)) = none ∧
    pick (.leave path (.composite kind slots)) = none

theorem picks_entered? : Picks entered? :=
  ⟨fun _ _ => rfl, fun _ _ => ⟨rfl, rfl⟩, fun _ _ _ => ⟨rfl, rfl⟩⟩

theorem picks_leaf? : Picks leaf? :=
  ⟨fun _ _ => rfl, fun _ _ => ⟨rfl, rfl⟩, fun _ _ _ => ⟨rfl, rfl⟩⟩

end PathEvent

mutual

/-- What is picked from the calls of a node are its leaves. -/
theorem Node.filterMap_trailFrom {pick : PathEvent → Option Leaf} (hpick : PathEvent.Picks pick)
    (path : Path) :
    (node : Node) → (node.trailFrom path).filterMap pick = node.leavesFrom path
  | .constant text => hpick.leaf path text
  | .list items => by
    rw [Node.trailFrom, List.filterMap_cons_none (hpick.list path items).1, List.filterMap_append,
      Node.filterMap_trailItems hpick, List.filterMap_cons_none (hpick.list path items).2]
    exact List.append_nil _
  | .composite kind slots => by
    rw [Node.trailFrom, List.filterMap_cons_none (hpick.composite path kind slots).1,
      List.filterMap_append, Node.filterMap_trailSlots hpick,
      List.filterMap_cons_none (hpick.composite path kind slots).2]
    exact List.append_nil _

theorem Node.filterMap_trailItems {pick : PathEvent → Option Leaf} (hpick : PathEvent.Picks pick)
    (path : Path) (i : Nat) :
    (items : List Node) → (Node.trailItems path i items).filterMap pick = Node.leavesItems path i items
  | [] => rfl
  | node :: rest => by
    rw [Node.trailItems, List.filterMap_append, Node.filterMap_trailFrom hpick, Node.filterMap_trailItems hpick,
      Node.leavesItems]

theorem Node.filterMap_trailSlots {pick : PathEvent → Option Leaf} (hpick : PathEvent.Picks pick)
    (path : Path) :
    (slots : List Slot) → (Node.trailSlots path slots).filterMap pick = Node.leavesSlots path slots
  | [] => rfl
  | .text text :: rest => by
    rw [Node.trailSlots, List.filterMap_append, hpick.leaf, Node.filterMap_trailSlots hpick, Node.leavesSlots]
    rfl
  | .field key value :: rest => by
    rw [Node.trailSlots, List.filterMap_append, Node.filterMap_trailFrom hpick, Node.filterMap_trailSlots hpick,
      Node.leavesSlots]

end

/-- What is picked from the trail of a tree are its leaves. -/
theorem Node.filterMap_trail {pick : PathEvent → Option Leaf} (hpick : PathEvent.Picks pick)
    (tree : Node) : tree.trail.filterMap pick = tree.leaves :=
  Node.filterMap_trailFrom hpick Path.root tree

/-! ## Paths of a trail -/

/-- The node `n` is the item itself, or the composite that has the item among its texts. -/
def Node.Owns (n item : Node) : Prop :=
  n = item ∨ ∃ kind slots text, n = .composite kind slots ∧ item = .constant text ∧
    Slot.text text ∈ slots

/-- The calls of a leaf are about the same path and the same item. -/
theorem PathEvent.of_mem_leaf {path : Path} {text : String} {e : PathEvent}
    (h : e ∈ [PathEvent.enter path (.constant text), .leaf path text, .leave path (.constant text)]) :
    e.path = path ∧ e.item = .constant text := by
  simp only [List.mem_cons, List.not_mem_nil, or_false] at h
  rcases h with rfl | rfl | rfl <;> exact ⟨rfl, rfl⟩

mutual

/-- Every call on the way through a tree with distinct names is about a node that its path leads to. -/
theorem Node.reach_of_mem_trailFrom {path : Path} {e : PathEvent} :
    (node : Node) → node.Distinct → e ∈ node.trailFrom path →
      ∃ q n, e.path = path ++ q ∧ node.reach q = some n ∧ n.Owns e.item
  | .constant text, _, he => by
    obtain ⟨hpath, hitem⟩ := PathEvent.of_mem_leaf he
    exact ⟨[], .constant text, hpath.trans (List.append_nil path).symm, rfl, Or.inl hitem.symm⟩
  | .list items, hd, he => by
    simp only [Node.trailFrom, List.mem_cons, List.mem_append, List.not_mem_nil, or_false] at he
    rcases he with rfl | he | rfl
    · exact ⟨[], .list items, (List.append_nil path).symm, rfl, Or.inl rfl⟩
    · obtain ⟨j, child, q, n, hj, hpath, hreach, howns⟩ :=
        Node.reach_of_mem_trailItems items (Node.distinctItems_iff.mp hd) he
      refine ⟨.index j :: q, n, ?_, ?_, howns⟩
      · rw [hpath, Nat.zero_add]
      · show (items[j]?).bind (·.reach q) = some n
        rw [hj]
        exact hreach
    · exact ⟨[], .list items, (List.append_nil path).symm, rfl, Or.inl rfl⟩
  | .composite kind slots, hd, he => by
    simp only [Node.trailFrom, List.mem_cons, List.mem_append, List.not_mem_nil, or_false] at he
    rcases he with rfl | he | rfl
    · exact ⟨[], .composite kind slots, (List.append_nil path).symm, rfl, Or.inl rfl⟩
    · rcases Node.reach_of_mem_trailSlots (Node.distinctSlots_iff.mp hd.2) slots (List.Subset.refl _)
          he with
        ⟨text, hpath, hitem, htext⟩ | ⟨key, value, q, n, hfield, hpath, hreach, howns⟩
      · exact ⟨[], .composite kind slots, hpath.trans (List.append_nil path).symm, rfl,
          Or.inr ⟨kind, slots, text, rfl, hitem, htext⟩⟩
      · refine ⟨.name key :: q, n, hpath, ?_, howns⟩
        show (Slot.fieldValue slots key).bind (·.reach q) = some n
        rw [Slot.fieldValue_of_mem hd.1 hfield]
        exact hreach
    · exact ⟨[], .composite kind slots, (List.append_nil path).symm, rfl, Or.inl rfl⟩

theorem Node.reach_of_mem_trailItems {path : Path} {i : Nat} {e : PathEvent} :
    (items : List Node) → (∀ node ∈ items, node.Distinct) → e ∈ Node.trailItems path i items →
      ∃ j node q n, items[j]? = some node ∧ e.path = path ++ .index (i + j) :: q ∧
        node.reach q = some n ∧ n.Owns e.item
  | [], _, he => absurd he List.not_mem_nil
  | node :: rest, hd, he => by
    rcases List.mem_append.mp he with he | he
    · obtain ⟨q, n, hpath, hreach, howns⟩ :=
        Node.reach_of_mem_trailFrom node (hd node (List.mem_cons_self ..)) he
      exact ⟨0, node, q, n, rfl, hpath.trans (by simp [Path.push]), hreach, howns⟩
    · obtain ⟨j, child, q, n, hj, hpath, hreach, howns⟩ :=
        Node.reach_of_mem_trailItems rest (fun n hn => hd n (List.mem_cons_of_mem _ hn)) he
      refine ⟨j + 1, child, q, n, hj, ?_, hreach, howns⟩
      rw [hpath, Nat.add_right_comm, Nat.add_assoc]

theorem Node.reach_of_mem_trailSlots {path : Path} {e : PathEvent} {all : List Slot}
    (hd : ∀ key value, Slot.field key value ∈ all → value.Distinct) :
    (slots : List Slot) → slots ⊆ all → e ∈ Node.trailSlots path slots →
      (∃ text, e.path = path ∧ e.item = .constant text ∧ Slot.text text ∈ all) ∨
        ∃ key value q n, Slot.field key value ∈ all ∧ e.path = path ++ .name key :: q ∧
          value.reach q = some n ∧ n.Owns e.item
  | [], _, he => absurd he List.not_mem_nil
  | .text text :: rest, hs, he => by
    obtain ⟨htext, hrest⟩ := List.cons_subset.mp hs
    rcases List.mem_append.mp he with he | he
    · obtain ⟨hpath, hitem⟩ := PathEvent.of_mem_leaf he
      exact Or.inl ⟨text, hpath, hitem, htext⟩
    · exact Node.reach_of_mem_trailSlots hd rest hrest he
  | .field key value :: rest, hs, he => by
    obtain ⟨hfield, hrest⟩ := List.cons_subset.mp hs
    rcases List.mem_append.mp he with he | he
    · obtain ⟨q, n, hpath, hreach, howns⟩ := Node.reach_of_mem_trailFrom value (hd key value hfield) he
      exact Or.inr ⟨key, value, q, n, hfield, hpath.trans (by simp [Path.push]), hreach, howns⟩
    · exact Node.reach_of_mem_trailSlots hd rest hrest he

end

/-! ### Around the calls of one node -/

theorem Node.trailItems_append (path : Path) (i : Nat) (xs ys : List Node) :
    Node.trailItems path i (xs ++ ys) =
      Node.trailItems path i xs ++ Node.trailItems path (i + xs.length) ys := by
  induction xs generalizing i with
  | nil => rfl
  | cons node rest ih =>
    rw [List.cons_append, Node.trailItems, Node.trailItems, ih, List.append_assoc, List.length_cons,
      Nat.add_assoc, Nat.add_comm 1]

theorem Node.trailSlots_append (path : Path) (xs ys : List Slot) :
    Node.trailSlots path (xs ++ ys) = Node.trailSlots path xs ++ Node.trailSlots path ys := by
  induction xs with
  | nil => rfl
  | cons slot rest ih =>
    cases slot <;> rw [List.cons_append, Node.trailSlots, Node.trailSlots, ih, List.append_assoc]

theorem Node.leavesItems_append (path : Path) (i : Nat) (xs ys : List Node) :
    Node.leavesItems path i (xs ++ ys) =
      Node.leavesItems path i xs ++ Node.leavesItems path (i + xs.length) ys := by
  simp only [← Node.filterMap_trailItems PathEvent.picks_entered?, Node.trailItems_append,
    List.filterMap_append]

theorem Node.leavesSlots_append (path : Path) (xs ys : List Slot) :
    Node.leavesSlots path (xs ++ ys) = Node.leavesSlots path xs ++ Node.leavesSlots path ys := by
  simp only [← Node.filterMap_trailSlots PathEvent.picks_entered?, Node.trailSlots_append,
    List.filterMap_append]

/-- A path through another child does not go through the child under `key`. -/
theorem Path.not_push_prefix {path q : Path} {key other : Key} (h : other ≠ key) :
    ¬ path.push key <+: path ++ other :: q := by
  intro hp
  rw [Path.push, List.prefix_append_right_inj] at hp
  exact h (List.cons_prefix_cons.mp hp).1.symm

/-- The path of the parent does not go through the child. -/
theorem Path.not_push_prefix_self {path : Path} {key : Key} : ¬ path.push key <+: path := by
  intro hp
  have hlen := hp.length_le
  rw [Path.push, List.length_append, List.length_singleton] at hlen
  omega

theorem Node.not_prefix_of_mem_trailItems {path : Path} {i k : Nat} {items : List Node} {e : PathEvent}
    (hd : ∀ node ∈ items, node.Distinct) (hk : k < i ∨ i + items.length ≤ k)
    (he : e ∈ Node.trailItems path i items) : ¬ path.push (.index k) <+: e.path := by
  obtain ⟨j, node, q, n, hj, hpath, -⟩ := Node.reach_of_mem_trailItems items hd he
  have hlt : j < items.length := (List.getElem?_eq_some_iff.mp hj).1
  rw [hpath]
  apply Path.not_push_prefix
  intro heq
  injection heq with hij
  omega

theorem Node.not_prefix_of_mem_trailSlots {path : Path} {name : String} {slots : List Slot}
    {e : PathEvent} (hd : ∀ key value, Slot.field key value ∈ slots → value.Distinct)
    (hname : name ∉ Slot.names slots) (he : e ∈ Node.trailSlots path slots) :
    ¬ path.push (.name name) <+: e.path := by
  rcases Node.reach_of_mem_trailSlots hd slots (List.Subset.refl _) he with
    ⟨text, hpath, -⟩ | ⟨key, value, q, n, hfield, hpath, -⟩
  · rw [hpath]
    exact Path.not_push_prefix_self
  · rw [hpath]
    apply Path.not_push_prefix
    intro heq
    injection heq with hkey
    exact hname (hkey ▸ Slot.mem_names hfield)

theorem Node.trailFrom_element {items : List Node} {child : Node} {i : Nat}
    (hd : ∀ node ∈ items, node.Distinct) (h : items[i]? = some child) (path : Path) :
    ∃ ahead behind, (Node.list items).trailFrom path =
        ahead ++ (child.trailFrom (path.push (.index i)) ++ behind) ∧
      ahead.filterMap PathEvent.entered? = Node.leavesItems path 0 (items.take i) ∧
      ∀ e ∈ ahead ++ behind, ¬ path.push (.index i) <+: e.path := by
  obtain ⟨hlt, hget⟩ := List.getElem?_eq_some_iff.mp h
  have hlen : (items.take i).length = i := List.length_take_of_le (Nat.le_of_lt hlt)
  have hsplit : items = items.take i ++ child :: items.drop (i + 1) := by
    rw [← hget, List.getElem_cons_drop, List.take_append_drop]
  have htrail : Node.trailItems path 0 items = Node.trailItems path 0 (items.take i) ++
      (child.trailFrom (path.push (.index i)) ++ Node.trailItems path (i + 1) (items.drop (i + 1))) := by
    conv => lhs; rw [hsplit]
    rw [Node.trailItems_append, hlen, Nat.zero_add, Node.trailItems]
  refine ⟨.enter path (.list items) :: Node.trailItems path 0 (items.take i),
    Node.trailItems path (i + 1) (items.drop (i + 1)) ++ [.leave path (.list items)], ?_, ?_, ?_⟩
  · rw [Node.trailFrom, htrail]
    simp
  · rw [List.filterMap_cons_none rfl, Node.filterMap_trailItems PathEvent.picks_entered?]
  · intro e he
    simp only [List.cons_append, List.mem_cons, List.mem_append, List.not_mem_nil, or_false] at he
    rcases he with rfl | he | he | rfl
    · exact Path.not_push_prefix_self
    · exact Node.not_prefix_of_mem_trailItems (fun n hn => hd n (List.mem_of_mem_take hn))
        (Or.inr (by omega)) he
    · exact Node.not_prefix_of_mem_trailItems (fun n hn => hd n (List.mem_of_mem_drop hn))
        (Or.inl (by omega)) he
    · exact Path.not_push_prefix_self

theorem Node.trailFrom_field {kind : String} {slots : List Slot} {child : Node} {name : String}
    (hd : (Node.composite kind slots).Distinct) (h : Slot.fieldValue slots name = some child)
    (path : Path) :
    ∃ ahead behind, (Node.composite kind slots).trailFrom path =
        ahead ++ (child.trailFrom (path.push (.name name)) ++ behind) ∧
      ahead.filterMap PathEvent.entered? = Node.leavesSlots path (Slot.ahead name slots) ∧
      ∀ e ∈ ahead ++ behind, ¬ path.push (.name name) <+: e.path := by
  obtain ⟨behind, hsplit⟩ := Slot.split_at_field h
  have hds := Node.distinctSlots_iff.mp hd.2
  have hahead : ∀ slot ∈ Slot.ahead name slots, slot ∈ slots := fun slot hm =>
    hsplit ▸ List.mem_append_left _ hm
  have hlater : ∀ slot ∈ behind, slot ∈ slots := fun slot hm =>
    hsplit ▸ List.mem_append_right _ (List.mem_cons_of_mem _ hm)
  -- the first field of the name is the only one
  have hbehind : name ∉ Slot.names behind := by
    have hnodup : (Slot.names slots).Nodup := hd.1
    rw [hsplit, Slot.names_append] at hnodup
    exact (List.nodup_cons.mp (List.nodup_append.mp hnodup).2.1).1
  have htrail : Node.trailSlots path slots = Node.trailSlots path (Slot.ahead name slots) ++
      (child.trailFrom (path.push (.name name)) ++ Node.trailSlots path behind) := by
    conv => lhs; rw [hsplit]
    rw [Node.trailSlots_append, Node.trailSlots]
  refine ⟨.enter path (.composite kind slots) :: Node.trailSlots path (Slot.ahead name slots),
    Node.trailSlots path behind ++ [.leave path (.composite kind slots)], ?_, ?_, ?_⟩
  · rw [Node.trailFrom, htrail]
    simp
  · rw [List.filterMap_cons_none rfl, Node.filterMap_trailSlots PathEvent.picks_entered?]
  · intro e he
    simp only [List.cons_append, List.mem_cons, List.mem_append, List.not_mem_nil, or_false] at he
    rcases he with rfl | he | he | rfl
    · exact Path.not_push_prefix_self
    · exact Node.not_prefix_of_mem_trailSlots (fun k v hm => hds k v (hahead _ hm))
        (Slot.name_notMem_ahead name slots) he
    · exact Node.not_prefix_of_mem_trailSlots (fun k v hm => hds k v (hlater _ hm)) hbehind he
    · exact Path.not_push_prefix_self

/-- **One step down.** The calls of a node are the calls of one child, and around them calls whose path
    does not go through the child. -/
theorem Node.trailFrom_child {node child : Node} {key : Key} (hd : node.Distinct)
    (h : node.child key = some child) (path : Path) :
    ∃ ahead behind, node.trailFrom path = ahead ++ (child.trailFrom (path.push key) ++ behind) ∧
      ahead.filterMap PathEvent.entered? = node.leavesAhead path key ∧
      ∀ e ∈ ahead ++ behind, ¬ path.push key <+: e.path := by
  cases node with
  | constant text => cases h
  | list items =>
    cases key with
    | name name => cases h
    | index i => exact Node.trailFrom_element (Node.distinctItems_iff.mp hd) h path
  | composite kind slots =>
    cases key with
    | index i => cases h
    | name name => exact Node.trailFrom_field hd h path

/-- **All the way down.** Around the calls of the node that a path leads to stand the calls of others;
    the leaves entered ahead of it are the leaves in front of it, and no path among these calls goes
    through it. -/
theorem Node.trailFrom_split {node n : Node} {q : Path} (hd : node.Distinct)
    (h : node.reach q = some n) (path : Path) :
    ∃ ahead behind, node.trailFrom path = ahead ++ (n.trailFrom (path ++ q) ++ behind) ∧
      ahead.filterMap PathEvent.entered? = node.leavesBefore path q ∧
      ∀ e ∈ ahead ++ behind, ¬ path ++ q <+: e.path := by
  induction q generalizing node path with
  | nil =>
    cases h
    refine ⟨[], [], ?_, rfl, fun e he => absurd he List.not_mem_nil⟩
    rw [List.append_nil, List.append_nil]
    rfl
  | cons key rest ih =>
    -- the calls around the child, and those of the child around the rest of the path
    obtain ⟨child, hchild, hrest⟩ := Option.bind_eq_some_iff.mp h
    obtain ⟨ahead₁, behind₁, htrail₁, hleaves₁, hpaths₁⟩ := Node.trailFrom_child hd hchild path
    obtain ⟨ahead₂, behind₂, htrail₂, hleaves₂, hpaths₂⟩ := ih (hd.child hchild) hrest (path.push key)
    have hpath : path.push key ++ rest = path ++ key :: rest := by simp [Path.push]
    rw [hpath] at htrail₂ hpaths₂
    refine ⟨ahead₁ ++ ahead₂, behind₂ ++ behind₁, ?_, ?_, ?_⟩
    · rw [htrail₁, htrail₂]
      simp
    · rw [List.filterMap_append, hleaves₁, hleaves₂, Node.leavesBefore, hchild]
    · intro e he hp
      have hup : path.push key <+: e.path :=
        (List.prefix_append (path.push key) rest).trans (hpath ▸ hp)
      simp only [List.append_assoc, List.mem_append] at he
      rcases he with he | he | he | he
      · exact hpaths₁ e (List.mem_append_left _ he) hup
      · exact hpaths₂ e (List.mem_append_left _ he) hp
      · exact hpaths₂ e (List.mem_append_right _ he) hp
      · exact hpaths₁ e (List.mem_append_right _ he) hup

theorem PathEvent.owner_of_entered? {e : PathEvent} {leaf : Leaf} (h : e.entered? = some leaf) :
    leaf.owner = e.path := by
  cases e with
  | enter path item =>
    cases item with
    | constant text => cases h; rfl
    | list items => cases h
    | composite kind slots => cases h
  | leaf path text => cases h
  | leave path item => cases h

/-- The leaves of a node around those of a node inside are owned by nodes that the path to that one does
    not lead through. -/
theorem Node.leavesFrom_split {node n : Node} {q : Path} (hd : node.Distinct)
    (h : node.reach q = some n) (path : Path) :
    ∃ behind, node.leavesFrom path =
        node.leavesBefore path q ++ (n.leavesFrom (path ++ q) ++ behind) ∧
      ∀ leaf ∈ node.leavesBefore path q ++ behind, ¬ path ++ q <+: leaf.owner := by
  obtain ⟨ahead, behind, htrail, hleaves, hpaths⟩ := Node.trailFrom_split hd h path
  refine ⟨behind.filterMap PathEvent.entered?, ?_, ?_⟩
  · rw [← Node.filterMap_trailFrom PathEvent.picks_entered?, htrail, List.filterMap_append,
      List.filterMap_append, hleaves, Node.filterMap_trailFrom PathEvent.picks_entered?]
  · intro leaf hm
    rw [← hleaves, ← List.filterMap_append] at hm
    obtain ⟨e, he, hentered⟩ := List.mem_filterMap.mp hm
    rw [PathEvent.owner_of_entered? hentered]
    exact hpaths e he

/-- The leaves of a tree around those of the node at a path are owned by nodes that the path does not
    lead through. -/
theorem Node.leaves_split {tree n : Node} {path : Path} (hd : tree.Distinct)
    (h : tree.reach path = some n) :
    ∃ behind, tree.leaves = tree.leavesBefore Path.root path ++ (n.leavesFrom path ++ behind) ∧
      ∀ leaf ∈ tree.leavesBefore Path.root path ++ behind, ¬ path <+: leaf.owner :=
  Node.leavesFrom_split hd h Path.root

end LosslessTree
