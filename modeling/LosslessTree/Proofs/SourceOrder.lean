import LosslessTree.Proofs.Leaves

/-!
# `Proofs.SourceOrder` — the nodes of a tree in the order of its text

`Node.descendants` lists the nodes of a tree with their paths, parents first. Where the names of every
composite are distinct, a path stands in the list exactly when it can be followed, with the node that it
leads to (`Node.mem_descendants_iff`).

`Node.Precedes` says when one path comes before another in the text, without a list: it leads to a
node on the way to the other, or where the two part, its child is an earlier element or an earlier
field. The list is in this order (`Node.pairwise_descendants`), and since no path comes before itself,
no path stands in it twice.
-/

namespace LosslessTree

/-! ## Which paths are listed -/

mutual

/-- Every path that is listed leads to the node listed with it. -/
theorem Node.reach_of_mem_descendantsFrom {path : Path} {x : Path × Node} :
    (node : Node) → node.Distinct → x ∈ node.descendantsFrom path →
      ∃ q, x.1 = path ++ q ∧ node.reach q = some x.2
  | .constant text, _, hx => by
    rw [Node.descendantsFrom, List.mem_singleton] at hx
    subst hx
    exact ⟨[], (List.append_nil path).symm, rfl⟩
  | .list items, hd, hx => by
    rw [Node.descendantsFrom, List.mem_cons] at hx
    rcases hx with rfl | hx
    · exact ⟨[], (List.append_nil path).symm, rfl⟩
    · obtain ⟨j, child, q, hj, hpath, hreach⟩ :=
        Node.reach_of_mem_descendantsItems items (Node.distinctItems_iff.mp hd) hx
      refine ⟨.index j :: q, by rw [hpath, Nat.zero_add], ?_⟩
      show (items[j]?).bind (·.reach q) = some x.2
      rw [hj]
      exact hreach
  | .composite kind slots, hd, hx => by
    rw [Node.descendantsFrom, List.mem_cons] at hx
    rcases hx with rfl | hx
    · exact ⟨[], (List.append_nil path).symm, rfl⟩
    · obtain ⟨key, value, q, hfield, hpath, hreach⟩ :=
        Node.reach_of_mem_descendantsSlots slots (Node.distinctSlots_iff.mp hd.2) hx
      refine ⟨.name key :: q, hpath, ?_⟩
      show (Slot.fieldValue slots key).bind (·.reach q) = some x.2
      rw [Slot.fieldValue_of_mem hd.1 hfield]
      exact hreach

theorem Node.reach_of_mem_descendantsItems {path : Path} {i : Nat} {x : Path × Node} :
    (items : List Node) → (∀ node ∈ items, node.Distinct) → x ∈ Node.descendantsItems path i items →
      ∃ j child q, items[j]? = some child ∧ x.1 = path ++ .index (i + j) :: q ∧
        child.reach q = some x.2
  | [], _, hx => absurd hx List.not_mem_nil
  | node :: rest, hd, hx => by
    rcases List.mem_append.mp hx with hx | hx
    · obtain ⟨q, hpath, hreach⟩ :=
        Node.reach_of_mem_descendantsFrom node (hd node (List.mem_cons_self ..)) hx
      exact ⟨0, node, q, rfl, hpath.trans (by simp [Path.push]), hreach⟩
    · obtain ⟨j, child, q, hj, hpath, hreach⟩ :=
        Node.reach_of_mem_descendantsItems rest (fun n hn => hd n (List.mem_cons_of_mem _ hn)) hx
      refine ⟨j + 1, child, q, hj, ?_, hreach⟩
      rw [hpath, Nat.add_right_comm, Nat.add_assoc]

theorem Node.reach_of_mem_descendantsSlots {path : Path} {x : Path × Node} :
    (slots : List Slot) → (∀ key value, Slot.field key value ∈ slots → value.Distinct) →
      x ∈ Node.descendantsSlots path slots →
      ∃ key value q, Slot.field key value ∈ slots ∧ x.1 = path ++ .name key :: q ∧
        value.reach q = some x.2
  | [], _, hx => absurd hx List.not_mem_nil
  | .text text :: rest, hd, hx => by
    obtain ⟨key, value, q, hfield, hrest⟩ :=
      Node.reach_of_mem_descendantsSlots rest (fun k v hm => hd k v (List.mem_cons_of_mem _ hm)) hx
    exact ⟨key, value, q, List.mem_cons_of_mem _ hfield, hrest⟩
  | .field key value :: rest, hd, hx => by
    rcases List.mem_append.mp hx with hx | hx
    · obtain ⟨q, hpath, hreach⟩ :=
        Node.reach_of_mem_descendantsFrom value (hd key value (List.mem_cons_self ..)) hx
      exact ⟨key, value, q, List.mem_cons_self .., hpath.trans (by simp [Path.push]), hreach⟩
    · obtain ⟨k, v, q, hfield, hrest⟩ :=
        Node.reach_of_mem_descendantsSlots rest (fun k v hm => hd k v (List.mem_cons_of_mem _ hm)) hx
      exact ⟨k, v, q, List.mem_cons_of_mem _ hfield, hrest⟩

end

theorem Node.descendantsFrom_subset_items (path : Path) {items : List Node} {child : Node} {j : Nat}
    (h : items[j]? = some child) (i : Nat) :
    child.descendantsFrom (path.push (.index (i + j))) ⊆ Node.descendantsItems path i items := by
  induction items generalizing i j with
  | nil => cases h
  | cons node rest ih =>
    cases j with
    | zero =>
      cases h
      exact List.subset_append_left _ _
    | succ j =>
      have hrest := ih (j := j) h (i + 1)
      rw [Nat.add_right_comm, Nat.add_assoc] at hrest
      exact fun x hx => List.mem_append_right _ (hrest hx)

theorem Node.descendantsFrom_subset_slots {path : Path} {slots : List Slot} {key : String} {value : Node}
    (h : Slot.field key value ∈ slots) :
    value.descendantsFrom (path.push (.name key)) ⊆ Node.descendantsSlots path slots := by
  induction slots with
  | nil => cases h
  | cons slot rest ih =>
    rcases List.mem_cons.mp h with rfl | hrest
    · exact List.subset_append_left _ _
    · cases slot with
      | text text => exact ih hrest
      | field k v => exact fun x hx => List.mem_append_right _ (ih hrest hx)

/-- What is below a child is below the node. -/
theorem Node.descendantsFrom_subset {node child : Node} {key : Key} (h : node.child key = some child)
    (path : Path) : child.descendantsFrom (path.push key) ⊆ node.descendantsFrom path := by
  cases node with
  | constant text => cases h
  | list items =>
    cases key with
    | name name => cases h
    | index j =>
      have hsub := Node.descendantsFrom_subset_items path h 0
      rw [Nat.zero_add] at hsub
      exact fun x hx => List.mem_cons_of_mem _ (hsub hx)
  | composite kind slots =>
    cases key with
    | index j => cases h
    | name name =>
      obtain ⟨behind, hsplit⟩ := Slot.split_at_field h
      have hfield : Slot.field name child ∈ slots := by
        rw [hsplit]
        exact List.mem_append_right _ (List.mem_cons_self ..)
      exact fun x hx => List.mem_cons_of_mem _ (Node.descendantsFrom_subset_slots hfield hx)

/-- Every path that can be followed is listed. -/
theorem Node.mem_descendantsFrom_of_reach {node n : Node} {q : Path} (h : node.reach q = some n)
    (path : Path) : (path ++ q, n) ∈ node.descendantsFrom path := by
  induction q generalizing node path with
  | nil =>
    cases h
    rw [List.append_nil]
    cases n <;> exact List.mem_cons_self ..
  | cons key rest ih =>
    obtain ⟨child, hchild, hrest⟩ := Option.bind_eq_some_iff.mp h
    have hmem := ih hrest (path.push key)
    rw [Path.push, List.append_assoc, List.singleton_append] at hmem
    exact Node.descendantsFrom_subset hchild path hmem

/-- **The listed paths** are those that can be followed, each with the node at its end. -/
theorem Node.mem_descendants_iff {tree n : Node} (hd : tree.Distinct) {path : Path} :
    (path, n) ∈ tree.descendants ↔ tree.reach path = some n := by
  constructor
  · intro h
    obtain ⟨q, hpath, hreach⟩ := Node.reach_of_mem_descendantsFrom tree hd h
    have hq : path = q := hpath
    rw [hq]
    exact hreach
  · intro h
    exact Node.mem_descendantsFrom_of_reach h []

/-! ## In which order -/

/-- The first path comes before the second in the order of the text. -/
inductive Node.Precedes (tree : Node) : Path → Path → Prop
  /-- A node comes before the nodes below it. -/
  | above (p : Path) (key : Key) (q : Path) : tree.Precedes p (p ++ key :: q)
  /-- An element of a list comes before the later elements. -/
  | element {p : Path} {items : List Node} {i j : Nat} (q r : Path) :
      tree.reach p = some (.list items) → i < j →
        tree.Precedes (p ++ .index i :: q) (p ++ .index j :: r)
  /-- A field of a composite comes before the later fields. -/
  | field {p : Path} {kind key name : String} {value : Node} {ahead behind : List Slot} (q r : Path) :
      tree.reach p = some (.composite kind (ahead ++ .field key value :: behind)) →
        name ∈ Slot.names behind → tree.Precedes (p ++ .name key :: q) (p ++ .name name :: r)

namespace Node.Precedes

/-- The order below a child is the order below the node. -/
theorem under {node child : Node} {key : Key} {p q : Path} (hchild : node.child key = some child)
    (h : child.Precedes p q) : node.Precedes (key :: p) (key :: q) := by
  have hreach : ∀ r, node.reach (key :: r) = child.reach r := by
    intro r
    rw [Node.reach, hchild]
    rfl
  cases h with
  | above _ next r => exact .above (key :: p) next r
  | @element p items i j q r hlist hij => exact .element q r ((hreach p).trans hlist) hij
  | @field p kind k name value ahead behind q r hcomposite hname =>
    exact .field q r ((hreach p).trans hcomposite) hname

end Node.Precedes

/-- No path comes before itself. -/
theorem Node.Precedes.ne {tree : Node} {p q : Path} (hd : tree.Distinct) (h : tree.Precedes p q) :
    p ≠ q := by
  cases h with
  | above _ key r =>
    intro heq
    have hlen := congrArg List.length heq
    simp at hlen
  | element q r _ hij =>
    intro heq
    have hhead := List.append_cancel_left heq
    injection hhead with hkey
    injection hkey with hkey
    omega
  | @field p kind key name value ahead behind q r hreach hname =>
    intro heq
    have hhead := List.append_cancel_left heq
    injection hhead with hkey
    injection hkey with hkey
    subst hkey
    -- the name would belong to two fields
    have hnodup : (Slot.names (ahead ++ .field key value :: behind)).Nodup := (hd.reach hreach).1
    rw [Slot.names_append] at hnodup
    exact (List.nodup_cons.mp (List.nodup_append.mp hnodup).2.1).1 hname

/-- Both paths go on from `path`, and the first comes before the second below `node`. -/
def Node.PrecedesFrom (path : Path) (node : Node) (x y : Path × Node) : Prop :=
  ∃ p q, x.1 = path ++ p ∧ y.1 = path ++ q ∧ node.Precedes p q

theorem Node.PrecedesFrom.under {path : Path} {node child : Node} {key : Key} {x y : Path × Node}
    (hchild : node.child key = some child) (h : child.PrecedesFrom (path.push key) x y) :
    node.PrecedesFrom path x y := by
  obtain ⟨p, q, hx, hy, hprecedes⟩ := h
  have hpush : ∀ r : Path, path.push key ++ r = path ++ key :: r := by simp [Path.push]
  exact ⟨key :: p, key :: q, hx.trans (hpush p), hy.trans (hpush q), hprecedes.under hchild⟩

mutual

/-- The nodes are listed in the order of the text. -/
theorem Node.pairwise_descendantsFrom (path : Path) :
    (node : Node) → node.Distinct → (node.descendantsFrom path).Pairwise (node.PrecedesFrom path)
  | .constant text, _ => List.pairwise_singleton _ _
  | .list items, hd => by
    have hds := Node.distinctItems_iff.mp hd
    refine List.pairwise_cons.mpr ⟨?_, ?_⟩
    · intro y hy
      obtain ⟨j, child, q, -, hpath, -⟩ := Node.reach_of_mem_descendantsItems items hds hy
      exact ⟨[], _, (List.append_nil path).symm, hpath, .above [] _ q⟩
    · exact Node.pairwise_descendantsItems path items hds items 0 rfl
  | .composite kind slots, hd => by
    have hds := Node.distinctSlots_iff.mp hd.2
    refine List.pairwise_cons.mpr ⟨?_, ?_⟩
    · intro y hy
      obtain ⟨key, value, q, -, hpath, -⟩ := Node.reach_of_mem_descendantsSlots slots hds hy
      exact ⟨[], _, (List.append_nil path).symm, hpath, .above [] _ q⟩
    · exact Node.pairwise_descendantsSlots path kind slots hd.1 hds slots [] rfl

theorem Node.pairwise_descendantsItems (path : Path) (all : List Node)
    (hd : ∀ node ∈ all, node.Distinct) :
    (items : List Node) → (i : Nat) → all.drop i = items →
      (Node.descendantsItems path i items).Pairwise ((Node.list all).PrecedesFrom path)
  | [], _, _ => .nil
  | node :: rest, i, hall => by
    have hnode : all[i]? = some node := by
      rw [← List.head?_drop, hall]
      rfl
    have hrest : all.drop (i + 1) = rest := by
      rw [← List.tail_drop, hall]
      rfl
    have hdrest : ∀ n ∈ rest, n.Distinct := by
      intro n hn
      rw [← hrest] at hn
      exact hd n (List.mem_of_mem_drop hn)
    have hchild : (Node.list all).child (.index i) = some node := hnode
    have hdnode : node.Distinct := hd node (List.mem_of_getElem? hnode)
    refine List.pairwise_append.mpr ⟨?_, ?_, ?_⟩
    · exact (Node.pairwise_descendantsFrom (path.push (.index i)) node hdnode).imp
        (Node.PrecedesFrom.under hchild)
    · exact Node.pairwise_descendantsItems path all hd rest (i + 1) hrest
    · -- an element and a later one part at the list itself
      intro x hx y hy
      obtain ⟨q, hx, -⟩ := Node.reach_of_mem_descendantsFrom node hdnode hx
      obtain ⟨j, child, r, -, hy, -⟩ := Node.reach_of_mem_descendantsItems rest hdrest hy
      refine ⟨.index i :: q, .index (i + 1 + j) :: r, hx.trans (by simp [Path.push]), hy, ?_⟩
      exact .element (p := []) q r rfl (by omega)

theorem Node.pairwise_descendantsSlots (path : Path) (kind : String) (all : List Slot)
    (hnames : (Slot.names all).Nodup)
    (hd : ∀ key value, Slot.field key value ∈ all → value.Distinct) :
    (slots ahead : List Slot) → all = ahead ++ slots →
      (Node.descendantsSlots path slots).Pairwise ((Node.composite kind all).PrecedesFrom path)
  | [], _, _ => .nil
  | .text text :: rest, ahead, hall =>
    Node.pairwise_descendantsSlots path kind all hnames hd rest (ahead ++ [.text text])
      (by rw [hall, List.append_assoc]; rfl)
  | .field key value :: rest, ahead, hall => by
    have hmem : Slot.field key value ∈ all := by
      rw [hall]
      exact List.mem_append_right _ (List.mem_cons_self ..)
    have hdrest : ∀ k v, Slot.field k v ∈ rest → v.Distinct := by
      intro k v hm
      apply hd k v
      rw [hall]
      exact List.mem_append_right _ (List.mem_cons_of_mem _ hm)
    have hchild : (Node.composite kind all).child (.name key) = some value :=
      Slot.fieldValue_of_mem hnames hmem
    refine List.pairwise_append.mpr ⟨?_, ?_, ?_⟩
    · exact (Node.pairwise_descendantsFrom (path.push (.name key)) value (hd key value hmem)).imp
        (Node.PrecedesFrom.under hchild)
    · exact Node.pairwise_descendantsSlots path kind all hnames hd rest (ahead ++ [.field key value])
        (by rw [hall, List.append_assoc]; rfl)
    · -- a field and a later one part at the composite itself
      intro x hx y hy
      obtain ⟨q, hx, -⟩ := Node.reach_of_mem_descendantsFrom value (hd key value hmem) hx
      obtain ⟨name, v, r, hfield, hy, -⟩ := Node.reach_of_mem_descendantsSlots rest hdrest hy
      refine ⟨.name key :: q, .name name :: r, hx.trans (by simp [Path.push]), hy, ?_⟩
      exact .field (p := []) q r (congrArg (fun slots => some (Node.composite kind slots)) hall)
        (Slot.mem_names hfield)

end

/-- **The order of the list** is the order of the text. -/
theorem Node.pairwise_descendants {tree : Node} (hd : tree.Distinct) :
    (tree.descendants.map (·.1)).Pairwise tree.Precedes := by
  refine List.pairwise_map.mpr ((Node.pairwise_descendantsFrom [] tree hd).imp ?_)
  rintro x y ⟨p, q, hx, hy, hprecedes⟩
  have hx' : x.1 = p := hx
  have hy' : y.1 = q := hy
  rw [hx', hy']
  exact hprecedes

/-- No path is listed twice. -/
theorem Node.nodup_descendants {tree : Node} (hd : tree.Distinct) :
    (tree.descendants.map (·.1)).Nodup :=
  (Node.pairwise_descendants hd).imp fun h => h.ne hd

end LosslessTree
