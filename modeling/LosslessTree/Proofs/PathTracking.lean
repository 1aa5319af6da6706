import LosslessTree.Proofs.SourceOrder
import LosslessTree.Proofs.Trail

/-!
# `Proofs.PathTracking` — the paths that a strategy is given

The visitor of a strategy keeps a path that grows when the walk enters an item with a key and shrinks
when it leaves one. Nothing in the visitor knows the tree. This module says that the path is right at
every call all the same, whatever the strategy does and wherever it halts.

The tour of a tree lists what a walk comes to, by recursion on the tree: every call with what it is
about, a node at its path or a text at its place in a composite. There is no stack in it. A walk with a
strategy makes calls of the tour up to some point, and after a halt the calls that leave what is
open; each is about a node that its path leads to, or about a text of that node. At the end the path
kept is that of the root again.

The step is `Event.trail_pendingFrom`: in well nested calls, cut off anywhere, the calls that leave the
open items get the paths that were given when the items were entered.

## Contents
- **Logs.** `Strategy.logged`.
- **Open items.** `PathEvent.pending`, `Event.trail_pendingFrom`.
- **Walks.** `Strategy.walk_of_proceeding`, `Strategy.walk_of_halting`.
- **Tours.** `Subject`, `Visit`, `Node.tour`, `Node.reach_of_mem_tourFrom`.
-/

namespace LosslessTree

variable {α β σ : Type}

/-! ## Logs -/

/-- The strategy `st` with a log of the calls it gets. -/
def Strategy.logged (st : Strategy σ) : Strategy (σ × List PathEvent) where
  onEnter path item := Calls.logged st.call (.enter path item)
  onLeaf path text := Calls.logged st.call (.leaf path text)
  onLeave path item := Calls.logged st.call (.leave path item)

theorem Strategy.call_logged (st : Strategy σ) : st.logged.call = Calls.logged st.call := by
  funext e s
  cases e <;> rfl

/-! ## Open items -/

namespace Calls

/-- A map that respects hooks maps what is pending. -/
theorem map_pendingFrom {hook : α → Hook} {closing : α → α} {hook' : β → Hook} {closing' : β → β}
    {f : α → β} (hhook : ∀ e, hook' (f e) = hook e)
    (hclosing : ∀ e, hook e = .enter → closing' (f e) = f (closing e)) (stack es : List α) :
    (pendingFrom hook closing stack es).map f =
      pendingFrom hook' closing' (stack.map f) (es.map f) := by
  induction es generalizing stack with
  | nil => rfl
  | cons e es ih =>
    simp only [List.map_cons, pendingFrom, hhook]
    cases hkind : hook e with
    | enter =>
      simp only
      rw [ih, List.map_cons, hclosing e hkind]
    | leaf => exact ih stack
    | leave =>
      simp only
      rw [ih, List.map_tail]

end Calls

namespace PathEvent

/-- The call that leaves what a call enters. -/
def closing : PathEvent → PathEvent
  | .enter path item => .leave path item
  | e => e

/-- The calls that leave the items which `es` enters and does not leave, innermost first. -/
def pending (es : List PathEvent) : List PathEvent := Calls.pendingFrom hook closing [] es

end PathEvent

namespace Event

/-- Well nested calls leave the path that is kept as it was. -/
theorem Balanced.foldl_pathAfter {es : List Event} (h : Balanced es) (path : Path) :
    es.foldl pathAfter path = path := by
  induction h generalizing path with
  | nil => rfl
  | leaf _ ih => exact ih path
  | @item item key inside es _ _ ihi ihe =>
    rw [List.foldl_cons, List.foldl_append, List.foldl_cons]
    show es.foldl pathAfter (pathAfter (inside.foldl pathAfter (path ++ key.toList))
      (.leave item key)) = path
    rw [ihi, pathAfter_leave, ihe]

/-- The open items, with the paths that leaving them would get now, are the open items with the paths
    that entering them got. -/
theorem trail_pendingFrom {es made : List Event} (h : Balanced es) (hm : made <+: es) (path : Path)
    (stack : List Event) :
    trail (made.foldl pathAfter path) (Calls.pendingFrom hook closing stack made) =
      Calls.pendingFrom PathEvent.hook PathEvent.closing (trail path stack) (trail path made) := by
  induction h generalizing made path stack with
  | nil => rw [List.prefix_nil.mp hm]; rfl
  | leaf _ ih =>
    rcases List.prefix_cons_iff.mp hm with rfl | ⟨made, rfl, hmade⟩
    · rfl
    · exact ih hmade path stack
  | @item item key inside es hi _ ihi ihe =>
    rcases List.prefix_cons_iff.mp hm with rfl | ⟨made, rfl, hmade⟩
    · rfl
    · -- entering puts the item on both stacks, with the same path
      have hpush : trail (path ++ key.toList) (.leave item key :: stack) =
          .leave (path ++ key.toList) item :: trail path stack := by
        rw [trail, pathAfter_leave]
        rfl
      show trail (made.foldl pathAfter (path ++ key.toList))
          (Calls.pendingFrom hook closing (.leave item key :: stack) made) =
        Calls.pendingFrom PathEvent.hook PathEvent.closing
          (.leave (path ++ key.toList) item :: trail path stack) (trail (path ++ key.toList) made)
      rw [← hpush]
      rcases prefix_of_append hmade with hin | ⟨more, rfl, hmore⟩
      · exact ihi hin (path ++ key.toList) (.leave item key :: stack)
      · have hinside := ihi (List.prefix_refl inside) (path ++ key.toList) (.leave item key :: stack)
        rw [hi.foldl_pathAfter, hi.pendingFrom_eq] at hinside
        rw [List.foldl_append, hi.foldl_pathAfter, Calls.pendingFrom_append, hi.pendingFrom_eq,
          trail_append, hi.foldl_pathAfter, Calls.pendingFrom_append, ← hinside]
        rcases List.prefix_cons_iff.mp hmore with rfl | ⟨rest, rfl, hrest⟩
        · rfl
        · -- leaving takes it off both
          have hlater := ihe hrest path stack
          rw [List.foldl_cons, pathAfter_leave, hpush, trail, pathAfter_leave]
          exact hlater

end Event

/-! ## Walks -/

namespace Strategy

/-- The path that the visitor keeps depends on the calls alone. -/
theorem visitor_after_path (st : Strategy σ) (es : List Event) (path : Path) (s : σ) :
    (Calls.after st.visitor.call es ⟨path, s⟩).path = es.foldl Event.pathAfter path := by
  induction es generalizing path s with
  | nil => rfl
  | cons e es ih =>
    show (Calls.after st.visitor.call es (st.visitor.call e ⟨path, s⟩).1).path = _
    rw [visitor_call, ih]
    rfl

/-- After well nested calls the visitor keeps the path that it kept before. -/
theorem visitor_after_balanced (st : Strategy σ) {es : List Event} (h : Event.Balanced es) (path : Path)
    (s : σ) :
    Calls.after st.visitor.call es ⟨path, s⟩ =
      ⟨path, Calls.after st.call (Event.trail path es) s⟩ := by
  have hpath := st.visitor_after_path es path s
  have hstate := st.visitor_after es path s
  rw [h.foldl_pathAfter] at hpath
  calc Calls.after st.visitor.call es ⟨path, s⟩
      = ⟨(Calls.after st.visitor.call es ⟨path, s⟩).path,
          (Calls.after st.visitor.call es ⟨path, s⟩).state⟩ := rfl
    _ = ⟨path, Calls.after st.call (Event.trail path es) s⟩ := by rw [hpath, hstate]

/-- A walk that is not halted makes the calls of the trail. -/
theorem walk_of_proceeding {st : Strategy σ} {tree : Node} {s : σ}
    (h : Calls.halting st.call tree.trail s = none) :
    tree.walk st.visitor ⟨Path.root, s⟩ =
      (⟨Path.root, Calls.after st.call tree.trail s⟩, .proceed) := by
  have hhalting := st.visitor_halting tree.events Path.root s
  rw [tree.trail_events, h, Option.map_eq_none_iff] at hhalting
  have hbalanced : Event.Balanced tree.events := tree.eventsAt_balanced none
  rw [Node.walk_eq_follow, Visitor.follow_of_proceeding hhalting,
    st.visitor_after_balanced hbalanced, tree.trail_events]

/-- A walk that is halted makes the calls of the trail up to the halt, and then those that leave what is
    open, with the paths that entering it got. -/
theorem walk_of_halting {st : Strategy σ} {tree : Node} {s : σ} {made : List PathEvent}
    (h : Calls.halting st.call tree.trail s = some made) :
    tree.walk st.visitor ⟨Path.root, s⟩ =
      (⟨Path.root, Calls.after st.call (made ++ PathEvent.pending made) s⟩, .halt) := by
  have hhalting := st.visitor_halting tree.events Path.root s
  rw [tree.trail_events, h] at hhalting
  obtain ⟨es, hes, rfl⟩ := Option.map_eq_some_iff.mp hhalting
  have hbalanced : Event.Balanced tree.events := tree.eventsAt_balanced none
  have hprefix := Calls.prefix_of_halting hes
  rw [Node.walk_eq_follow, Visitor.follow_of_halting hes,
    st.visitor_after_balanced (hbalanced.completed hprefix), Event.trail_append, Event.pending,
    Event.trail_pendingFrom hbalanced hprefix]
  rfl

end Strategy

/-! ## Tours -/

/-- What a call is about. -/
inductive Subject where
  /-- The node at a path. -/
  | node (path : Path) (node : Node)
  /-- The text between the slots `ahead` and `behind` of the composite at a path. -/
  | text (path : Path) (kind : String) (ahead : List Slot) (text : String) (behind : List Slot)

namespace Subject

/-- The keys from the root to the node, or to the composite that has the text. -/
def path : Subject → Path
  | .node path _ => path
  | .text path _ _ _ _ => path

/-- The item that is walked. -/
def item : Subject → Node
  | .node _ n => n
  | .text _ _ _ t _ => .constant t

/-- The node itself, or the composite that has the text. -/
def owner : Subject → Node
  | .node _ n => n
  | .text _ kind ahead t behind => .composite kind (ahead ++ .text t :: behind)

end Subject

/-- A call with what it is about. -/
structure Visit where
  hook : Hook
  subject : Subject

namespace Visit

/-- The call that a strategy gets. -/
def call : Visit → PathEvent
  | ⟨.enter, subject⟩ => .enter subject.path subject.item
  | ⟨.leaf, subject⟩ => .leaf subject.path subject.item.render
  | ⟨.leave, subject⟩ => .leave subject.path subject.item

/-- The call that leaves what a call is about. -/
def closing (v : Visit) : Visit := ⟨.leave, v.subject⟩

/-- The calls that leave what `visits` enters and does not leave, innermost first. -/
def pending (visits : List Visit) : List Visit := Calls.pendingFrom hook closing [] visits

/-- The node that a call enters, with its path; a text is not a node. -/
def entered? : Visit → Option (Path × Node)
  | ⟨.enter, .node path node⟩ => some (path, node)
  | _ => none

theorem hook_call (v : Visit) : v.call.hook = v.hook := by
  obtain ⟨hook, subject⟩ := v
  cases hook <;> rfl

theorem map_call_pending (visits : List Visit) :
    (pending visits).map call = PathEvent.pending (visits.map call) := by
  refine Calls.map_pendingFrom hook_call ?_ [] visits
  rintro ⟨hook, subject⟩ henter
  cases henter
  rfl

/-- Around what is inside a node stand the call that enters it and one that enters nothing. -/
theorem entered_bracket (path : Path) (n : Node) (inside : List Visit) :
    (⟨.enter, .node path n⟩ :: (inside ++ [⟨.leave, .node path n⟩])).filterMap entered? =
      (path, n) :: inside.filterMap entered? := by
  simp [entered?]

/-- The calls of a leaf, one for each hook. -/
def ofLeaf (subject : Subject) : List Visit := [⟨.enter, subject⟩, ⟨.leaf, subject⟩, ⟨.leave, subject⟩]

theorem subject_of_mem_ofLeaf {subject : Subject} {v : Visit} (h : v ∈ ofLeaf subject) :
    v.subject = subject := by
  simp only [ofLeaf, List.mem_cons, List.not_mem_nil, or_false] at h
  rcases h with rfl | rfl | rfl <;> rfl

end Visit

mutual

/-- The calls of a full walk through the node at `path`. -/
def Node.tourFrom (path : Path) : Node → List Visit
  | .constant text => Visit.ofLeaf (.node path (.constant text))
  | .list items =>
    ⟨.enter, .node path (.list items)⟩ ::
      (Node.tourItems path 0 items ++ [⟨.leave, .node path (.list items)⟩])
  | .composite kind slots =>
    ⟨.enter, .node path (.composite kind slots)⟩ ::
      (Node.tourSlots path kind [] slots ++ [⟨.leave, .node path (.composite kind slots)⟩])

/-- The calls on the elements of the list at `path`, of which the first has index `i`. -/
def Node.tourItems (path : Path) (i : Nat) : List Node → List Visit
  | [] => []
  | node :: rest => Node.tourFrom (path.push (.index i)) node ++ Node.tourItems path (i + 1) rest

/-- The calls on the slots of the composite at `path` that come after the slots `ahead`. -/
def Node.tourSlots (path : Path) (kind : String) (ahead : List Slot) : List Slot → List Visit
  | [] => []
  | .text text :: rest =>
    Visit.ofLeaf (.text path kind ahead text rest) ++
      Node.tourSlots path kind (ahead ++ [.text text]) rest
  | .field key value :: rest =>
    Node.tourFrom (path.push (.name key)) value ++
      Node.tourSlots path kind (ahead ++ [.field key value]) rest

end

/-- The calls of a full walk through a tree, with what each is about. -/
def Node.tour (tree : Node) : List Visit := tree.tourFrom Path.root

mutual

/-- The calls of the tour are the trail. -/
theorem Node.map_tourFrom (path : Path) :
    (node : Node) → (node.tourFrom path).map Visit.call = node.trailFrom path
  | .constant text => rfl
  | .list items => by
    rw [Node.tourFrom, List.map_cons, List.map_append, Node.map_tourItems, Node.trailFrom]
    rfl
  | .composite kind slots => by
    rw [Node.tourFrom, List.map_cons, List.map_append, Node.map_tourSlots, Node.trailFrom]
    rfl

theorem Node.map_tourItems (path : Path) (i : Nat) :
    (items : List Node) → (Node.tourItems path i items).map Visit.call = Node.trailItems path i items
  | [] => rfl
  | node :: rest => by
    rw [Node.tourItems, List.map_append, Node.map_tourFrom, Node.map_tourItems, Node.trailItems]

theorem Node.map_tourSlots (path : Path) (kind : String) (ahead : List Slot) :
    (slots : List Slot) →
      (Node.tourSlots path kind ahead slots).map Visit.call = Node.trailSlots path slots
  | [] => rfl
  | .text text :: rest => by
    rw [Node.tourSlots, List.map_append, Node.map_tourSlots, Node.trailSlots]
    rfl
  | .field key value :: rest => by
    rw [Node.tourSlots, List.map_append, Node.map_tourFrom, Node.map_tourSlots, Node.trailSlots]

end

mutual

/-- The nodes that the tour enters, texts apart, are the nodes of the tree in their order. -/
theorem Node.entered_tourFrom (path : Path) :
    (node : Node) → (node.tourFrom path).filterMap Visit.entered? = node.descendantsFrom path
  | .constant text => rfl
  | .list items => by
    rw [Node.tourFrom, Visit.entered_bracket, Node.entered_tourItems, Node.descendantsFrom]
  | .composite kind slots => by
    rw [Node.tourFrom, Visit.entered_bracket, Node.entered_tourSlots, Node.descendantsFrom]

theorem Node.entered_tourItems (path : Path) (i : Nat) :
    (items : List Node) →
      (Node.tourItems path i items).filterMap Visit.entered? = Node.descendantsItems path i items
  | [] => rfl
  | node :: rest => by
    rw [Node.tourItems, List.filterMap_append, Node.entered_tourFrom, Node.entered_tourItems,
      Node.descendantsItems]

theorem Node.entered_tourSlots (path : Path) (kind : String) (ahead : List Slot) :
    (slots : List Slot) →
      (Node.tourSlots path kind ahead slots).filterMap Visit.entered? = Node.descendantsSlots path slots
  | [] => rfl
  | .text text :: rest => by
    rw [Node.tourSlots, List.filterMap_append, Node.entered_tourSlots, Node.descendantsSlots]
    rfl
  | .field key value :: rest => by
    rw [Node.tourSlots, List.filterMap_append, Node.entered_tourFrom, Node.entered_tourSlots,
      Node.descendantsSlots]

end

mutual

/-- Every call of the tour has a path that leads to the node it is about, or to the composite that has
    the text. -/
theorem Node.reach_of_mem_tourFrom {path : Path} {v : Visit} :
    (node : Node) → node.Distinct → v ∈ node.tourFrom path →
      ∃ q, v.subject.path = path ++ q ∧ node.reach q = some v.subject.owner
  | .constant text, _, hv => by
    rw [Visit.subject_of_mem_ofLeaf hv]
    exact ⟨[], (List.append_nil path).symm, rfl⟩
  | .list items, hd, hv => by
    simp only [Node.tourFrom, List.mem_cons, List.mem_append, List.not_mem_nil, or_false] at hv
    rcases hv with rfl | hv | rfl
    · exact ⟨[], (List.append_nil path).symm, rfl⟩
    · obtain ⟨j, child, q, hj, hpath, hreach⟩ :=
        Node.reach_of_mem_tourItems items (Node.distinctItems_iff.mp hd) hv
      refine ⟨.index j :: q, by rw [hpath, Nat.zero_add], ?_⟩
      show (items[j]?).bind (·.reach q) = _
      rw [hj]
      exact hreach
    · exact ⟨[], (List.append_nil path).symm, rfl⟩
  | .composite kind slots, hd, hv => by
    simp only [Node.tourFrom, List.mem_cons, List.mem_append, List.not_mem_nil, or_false] at hv
    rcases hv with rfl | hv | rfl
    · exact ⟨[], (List.append_nil path).symm, rfl⟩
    · rcases Node.reach_of_mem_tourSlots slots (Node.distinctSlots_iff.mp hd.2) hv with
        ⟨hpath, howner⟩ | ⟨key, value, q, hfield, hpath, hreach⟩
      · refine ⟨[], hpath.trans (List.append_nil path).symm, ?_⟩
        rw [howner]
        rfl
      · refine ⟨.name key :: q, hpath, ?_⟩
        show (Slot.fieldValue slots key).bind (·.reach q) = _
        rw [Slot.fieldValue_of_mem hd.1 hfield]
        exact hreach
    · exact ⟨[], (List.append_nil path).symm, rfl⟩

theorem Node.reach_of_mem_tourItems {path : Path} {i : Nat} {v : Visit} :
    (items : List Node) → (∀ node ∈ items, node.Distinct) → v ∈ Node.tourItems path i items →
      ∃ j child q, items[j]? = some child ∧ v.subject.path = path ++ .index (i + j) :: q ∧
        child.reach q = some v.subject.owner
  | [], _, hv => absurd hv List.not_mem_nil
  | node :: rest, hd, hv => by
    rcases List.mem_append.mp hv with hv | hv
    · obtain ⟨q, hpath, hreach⟩ := Node.reach_of_mem_tourFrom node (hd node (List.mem_cons_self ..)) hv
      exact ⟨0, node, q, rfl, hpath.trans (by simp [Path.push]), hreach⟩
    · obtain ⟨j, child, q, hj, hpath, hreach⟩ :=
        Node.reach_of_mem_tourItems rest (fun n hn => hd n (List.mem_cons_of_mem _ hn)) hv
      refine ⟨j + 1, child, q, hj, ?_, hreach⟩
      rw [hpath, Nat.add_right_comm, Nat.add_assoc]

theorem Node.reach_of_mem_tourSlots {path : Path} {kind : String} {ahead : List Slot} {v : Visit} :
    (slots : List Slot) → (∀ key value, Slot.field key value ∈ slots → value.Distinct) →
      v ∈ Node.tourSlots path kind ahead slots →
      (v.subject.path = path ∧ v.subject.owner = .composite kind (ahead ++ slots)) ∨
        ∃ key value q, Slot.field key value ∈ slots ∧ v.subject.path = path ++ .name key :: q ∧
          value.reach q = some v.subject.owner
  | [], _, hv => absurd hv List.not_mem_nil
  | .text text :: rest, hd, hv => by
    rcases List.mem_append.mp hv with hv | hv
    · rw [Visit.subject_of_mem_ofLeaf hv]
      exact Or.inl ⟨rfl, rfl⟩
    · rcases Node.reach_of_mem_tourSlots rest (fun k v hm => hd k v (List.mem_cons_of_mem _ hm)) hv with
        ⟨hpath, howner⟩ | ⟨key, value, q, hfield, hfound⟩
      · refine Or.inl ⟨hpath, ?_⟩
        rw [howner, List.append_assoc]
        rfl
      · exact Or.inr ⟨key, value, q, List.mem_cons_of_mem _ hfield, hfound⟩
  | .field key value :: rest, hd, hv => by
    rcases List.mem_append.mp hv with hv | hv
    · obtain ⟨q, hpath, hreach⟩ :=
        Node.reach_of_mem_tourFrom value (hd key value (List.mem_cons_self ..)) hv
      exact Or.inr ⟨key, value, q, List.mem_cons_self .., hpath.trans (by simp [Path.push]), hreach⟩
    · rcases Node.reach_of_mem_tourSlots rest (fun k v hm => hd k v (List.mem_cons_of_mem _ hm)) hv with
        ⟨hpath, howner⟩ | ⟨k, v, q, hfield, hfound⟩
      · refine Or.inl ⟨hpath, ?_⟩
        rw [howner, List.append_assoc]
        rfl
      · exact Or.inr ⟨k, v, q, List.mem_cons_of_mem _ hfield, hfound⟩

end

/-- The calls of a walk, as far as they are made, and those that leave what is open lead to their
    nodes. -/
theorem Node.descend_of_mem_visits {tree : Node} (hd : tree.Distinct) {made : List Visit}
    (hmade : made <+: tree.tour) {v : Visit} (hv : v ∈ made ++ Visit.pending made) :
    tree.descend v.subject.path = .ok v.subject.owner := by
  -- a pending call is about what an earlier call entered
  obtain ⟨u, hu, hsubject⟩ : ∃ u ∈ made, v.subject = u.subject := by
    rcases List.mem_append.mp hv with hv | hv
    · exact ⟨v, hv, rfl⟩
    · rcases Calls.mem_pendingFrom hv with hnil | ⟨u, hu, -, rfl⟩
      · cases hnil
      · exact ⟨u, hu, rfl⟩
  obtain ⟨q, hpath, hreach⟩ := Node.reach_of_mem_tourFrom tree hd (hmade.subset hu)
  have hq : u.subject.path = q := hpath
  rw [hsubject, Node.descend_eq_ok_iff, hq]
  exact hreach

/-- The calls of a walk of a logged strategy, and that the log takes no part in the walk. -/
theorem Strategy.exists_visits (st : Strategy σ) (tree : Node) (s : σ) :
    ∃ made flow, made <+: tree.tour ∧
      tree.walk st.logged.visitor ⟨Path.root, (s, [])⟩ =
        (⟨Path.root, (Calls.after st.call ((made ++ Visit.pending made).map Visit.call) s,
          (made ++ Visit.pending made).map Visit.call)⟩, flow) ∧
      tree.walk st.visitor ⟨Path.root, s⟩ =
        (⟨Path.root, Calls.after st.call ((made ++ Visit.pending made).map Visit.call) s⟩, flow) ∧
      (made = tree.tour ∨
        .halt ∈ Calls.answers st.call ((made ++ Visit.pending made).map Visit.call) s) := by
  have hlog := Calls.halting_logged st.call tree.trail s []
  rw [← st.call_logged] at hlog
  have htour : tree.tour.map Visit.call = tree.trail := Node.map_tourFrom Path.root tree
  cases h : Calls.halting st.call tree.trail s with
  | none =>
    rw [h] at hlog
    have hpending : Visit.pending tree.tour = [] := by
      -- the whole trail leaves nothing open
      have hfull := Event.trail_pendingFrom (tree.eventsAt_balanced none)
        (List.prefix_refl tree.events) Path.root []
      have hclosed : Event.pending tree.events = [] :=
        (tree.eventsAt_balanced none).pendingFrom_eq []
      rw [← Event.pending, hclosed, tree.trail_events] at hfull
      have hmap := Visit.map_call_pending tree.tour
      rw [htour, PathEvent.pending] at hmap
      exact List.map_eq_nil_iff.mp (hmap.trans hfull.symm)
    refine ⟨tree.tour, .proceed, List.prefix_refl _, ?_, ?_, Or.inl rfl⟩
    · rw [walk_of_proceeding hlog, st.call_logged, Calls.after_logged, hpending, List.append_nil, htour]
      rfl
    · rw [walk_of_proceeding h, hpending, List.append_nil, htour]
  | some calls =>
    rw [h] at hlog
    -- the calls up to the halt are those of a first part of the tour
    obtain ⟨made, hmade, rfl⟩ : ∃ made, made <+: tree.tour ∧ made.map Visit.call = calls := by
      have hprefix := Calls.prefix_of_halting h
      rw [← htour] at hprefix
      obtain ⟨made, hmade, hcalls⟩ := List.prefix_map_iff.mp hprefix
      exact ⟨made, hmade, hcalls.symm⟩
    refine ⟨made, .halt, hmade, ?_, ?_, Or.inr ?_⟩
    · rw [walk_of_halting hlog, st.call_logged, Calls.after_logged, List.map_append,
        Visit.map_call_pending]
      rfl
    · rw [walk_of_halting h, List.map_append, Visit.map_call_pending]
    · rw [List.map_append]
      exact Calls.halt_mem_answers h _

/-- **The paths that a strategy is given, for every strategy.** The calls that it gets on a walk are those
    of a first part `made` of the tour, and then those that leave what is open, innermost first. The
    path of each call leads to the node that the call is about, or to the composite whose text it is
    about. However the walk ends, the path kept is that of the root then, and `Strategy.run` gives the
    state after these calls. If no call is answered by a halt, the whole tour is made; the nodes
    entered on it, texts apart, are those that a path leads to, each with its path, no path twice, and
    in the order of the text. -/
theorem Strategy.walk_tracks_paths (st : Strategy σ) (tree : Node) (hd : tree.Distinct) (s : σ) :
    ∃ made flow, made <+: tree.tour ∧
      let visits := made ++ Visit.pending made
      let calls := visits.map Visit.call
      tree.walk st.logged.visitor ⟨Path.root, (s, [])⟩ =
        (⟨Path.root, (Calls.after st.call calls s, calls)⟩, flow) ∧
      tree.walk st.visitor ⟨Path.root, s⟩ = (⟨Path.root, Calls.after st.call calls s⟩, flow) ∧
      st.run tree s = Calls.after st.call calls s ∧
      (∀ v ∈ visits, tree.descend v.subject.path = .ok v.subject.owner) ∧
      ((∀ a ∈ Calls.answers st.call calls s, a = .proceed) →
        made = tree.tour ∧
        (∀ path n, (path, n) ∈ made.filterMap Visit.entered? ↔ tree.descend path = .ok n) ∧
        ((made.filterMap Visit.entered?).map (·.1)).Nodup ∧
        ((made.filterMap Visit.entered?).map (·.1)).Pairwise tree.Precedes) := by
  obtain ⟨made, flow, hmade, hlogged, hwalk, hwhole⟩ := st.exists_visits tree s
  refine ⟨made, flow, hmade, hlogged, hwalk, ?_, ?_, ?_⟩
  · rw [run, hwalk]
  · intro v hv
    exact Node.descend_of_mem_visits hd hmade hv
  · intro hproceed
    have htour : made = tree.tour := by
      rcases hwhole with htour | hhalt
      · exact htour
      · cases hproceed _ hhalt
    have hentered : made.filterMap Visit.entered? = tree.descendants := by
      rw [htour]
      exact Node.entered_tourFrom Path.root tree
    rw [hentered]
    refine ⟨htour, ?_, Node.nodup_descendants hd, Node.pairwise_descendants hd⟩
    intro path n
    rw [Node.mem_descendants_iff hd, Node.descend_eq_ok_iff]

/-- A recorder that halts at the second leaf, a text of the root: the walk has entered the field `left`
    and left it, and ends with two calls that leave the text and the root, both at the path of the
    root. -/
theorem Strategy.walk_tracks_paths_pair :
    let tree : Node :=
      .composite "pair" [.field "left" (.constant "x"), .text ":", .field "right" (.constant "y")]
    let st := pathRecorder (some ⟨.leaf, 1⟩)
    tree.Distinct ∧
      (tree.walk st.visitor ⟨Path.root, []⟩).1.path = Path.root ∧
      st.run tree [] =
        [.enter [] tree, .enter [.name "left"] (.constant "x"), .leaf [.name "left"] "x",
          .leave [.name "left"] (.constant "x"), .enter [] (.constant ":"), .leaf [] ":",
          .leave [] (.constant ":"), .leave [] tree] := by
  intro tree st
  have hd : tree.Distinct := by decide
  obtain ⟨made, flow, -, -, hwalk, -⟩ := Strategy.walk_tracks_paths st tree hd []
  refine ⟨hd, ?_, rfl⟩
  rw [hwalk]

end LosslessTree
