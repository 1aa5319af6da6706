import Mathlib.Data.List.Induction
import LosslessTree.Proofs.BoxOrder
import LosslessTree.Proofs.LeafCuts
import LosslessTree.Proofs.LineRuns
import LosslessTree.Proofs.PathTracking

/-!
# `Proofs.QuerySafety` — no step of a query leaves the coordinates

Every step of a query is a checked step: a sum or a difference of coordinates that fails when its result does
not fit. This module says that none fails in a tree that fits, for any target and any path, and what
the cursor, the last position and the depth of the walk are like at every moment of a query: after each of
its calls, and between any two runs of a leaf.

A query may halt anywhere, and which calls it gets depends on where it halts. `Strategy.calls` are those
that it does get. Two facts about them are all that is needed: the leaves that they hand out are the first
leaves of the tree, so there is room for their texts; and they are well nested, so that no more items are
left than were entered, wherever they are cut off.

For each of the two queries there is then a step, for one run and for one call, and a run over any number of
calls. What a search keeps is room for the text to come. A measurement keeps more, `Measure.Valid`: its
box begins no later than it ends, and both corners stand in the text.

## Contents
- **Calls.** `Strategy.calls`, `Strategy.exists_calls`, `Event.Balanced.countP_leave_le`,
  `Strategy.room_calls`.
- **Searches.** `Search.scan_room`, `Search.after_room`, `Search.Safe`.
- **Measurements.** `Measure.Valid`, `Measure.Valid.consume`, `Measure.Valid.call`,
  `Measure.exists_after`, `Measure.Safe`.
-/

namespace LosslessTree

variable {σ : Type}

/-! ## The calls of a query -/

/-- In well nested calls, cut off anywhere, no more items are left than were entered. -/
theorem Event.Balanced.countP_leave_le {es front : List Event} (h : Balanced es) (hfront : front <+: es) :
    front.countP (·.hook = .leave) ≤ front.countP (·.hook = .enter) := by
  induction h generalizing front with
  | nil =>
    rw [List.prefix_nil.mp hfront]
    exact Nat.le_refl _
  | leaf _ ih =>
    rcases List.prefix_cons_iff.mp hfront with rfl | ⟨rest, rfl, hrest⟩
    · exact Nat.le_refl _
    · rw [List.countP_cons_of_neg (by simp [hook]), List.countP_cons_of_neg (by simp [hook])]
      exact ih hrest
  | @item item key inside es _ _ ihi ihe =>
    rcases List.prefix_cons_iff.mp hfront with rfl | ⟨rest, rfl, hrest⟩
    · exact Nat.le_refl _
    · rw [List.countP_cons_of_neg (by simp [hook]), List.countP_cons_of_pos (by simp [hook])]
      rcases prefix_of_append hrest with hin | ⟨more, rfl, hmore⟩
      · exact Nat.le_succ_of_le (ihi hin)
      · -- the item is left, or not yet, behind all that is inside it
        have hinside := ihi (List.prefix_refl inside)
        rw [List.countP_append, List.countP_append]
        rcases List.prefix_cons_iff.mp hmore with rfl | ⟨behind, rfl, hbehind⟩
        · exact Nat.le_succ_of_le hinside
        · have hle := ihe hbehind
          rw [List.countP_cons_of_pos (by simp [hook]), List.countP_cons_of_neg (by simp [hook])]
          omega

theorem Event.map_hook_trail (path : Path) (es : List Event) :
    (trail path es).map PathEvent.hook = es.map Event.hook := by
  induction es generalizing path with
  | nil => rfl
  | cons e es ih =>
    rw [trail, List.map_cons, List.map_cons, ih]
    cases e <;> rfl

namespace Strategy

/-- The calls that a strategy gets on a walk, in their order. -/
def calls (st : Strategy σ) (tree : Node) (s : σ) : List PathEvent :=
  (tree.walk st.logged.visitor ⟨Path.root, (s, [])⟩).1.state.2

/-- The calls are those of a full walk up to a point, and then those that leave what is open. The state of
    the strategy is the one after them. -/
theorem exists_calls (st : Strategy σ) (tree : Node) (s : σ) :
    ∃ made, made <+: tree.events ∧
      st.calls tree s = Event.trail Path.root (made ++ Event.pending made) ∧
      st.run tree s = Calls.after st.call (st.calls tree s) s := by
  have hbalanced : Event.Balanced tree.events := tree.eventsAt_balanced none
  have hlog := Calls.halting_logged st.call tree.trail s []
  rw [← st.call_logged] at hlog
  cases h : Calls.halting st.call tree.trail s with
  | none =>
    rw [h] at hlog
    have hcalls : st.calls tree s = tree.trail := by
      rw [calls, walk_of_proceeding hlog, st.call_logged, Calls.after_logged]
      rfl
    have hpending : Event.pending tree.events = [] := hbalanced.pendingFrom_eq []
    refine ⟨tree.events, List.prefix_refl _, ?_, ?_⟩
    · rw [hcalls, hpending, List.append_nil, tree.trail_events]
    · rw [hcalls, run, walk_of_proceeding h]
  | some made =>
    rw [h] at hlog
    have hcalls : st.calls tree s = made ++ PathEvent.pending made := by
      rw [calls, walk_of_halting hlog, st.call_logged, Calls.after_logged]
      rfl
    have hhalting := st.visitor_halting tree.events Path.root s
    rw [tree.trail_events, h] at hhalting
    obtain ⟨es, hes, rfl⟩ := Option.map_eq_some_iff.mp hhalting
    have hprefix := Calls.prefix_of_halting hes
    refine ⟨es, hprefix, ?_, ?_⟩
    · rw [hcalls, Event.trail_append, Event.pending, Event.trail_pendingFrom hbalanced hprefix]
      rfl
    · rw [hcalls, run, walk_of_halting h]

/-- No more items are left than were entered, wherever a walk has come to. -/
theorem countP_leave_le {st : Strategy σ} {tree : Node} {s : σ} {front : List PathEvent}
    (h : front <+: st.calls tree s) :
    front.countP (·.hook = .leave) ≤ front.countP (·.hook = .enter) := by
  obtain ⟨made, hmade, hcalls, -⟩ := st.exists_calls tree s
  have hbalanced := (tree.eventsAt_balanced none).completed hmade
  have hhooks := h.map PathEvent.hook
  rw [hcalls, Event.map_hook_trail] at hhooks
  obtain ⟨es, hes, hmap⟩ := List.prefix_map_iff.mp hhooks
  have hle := hbalanced.countP_leave_le hes
  have hcount : ∀ k : Hook, front.countP (·.hook = k) = es.countP (·.hook = k) := by
    intro k
    have hcount := congrArg (List.countP (· = k)) hmap
    rw [List.countP_map, List.countP_map] at hcount
    exact hcount
  rw [hcount, hcount]
  exact hle

/-- The leaves that the calls of a walk hand out are the first leaves of the tree. -/
theorem filterMap_calls {pick : PathEvent → Option Leaf} (hpick : PathEvent.Picks pick)
    (hleave : ∀ path item, pick (.leave path item) = none) (st : Strategy σ) (tree : Node) (s : σ) :
    (st.calls tree s).filterMap pick <+: tree.leaves := by
  obtain ⟨made, ⟨rest, hrest⟩, hcalls, -⟩ := st.exists_calls tree s
  have hclosing : (Event.trail (made.foldl Event.pathAfter Path.root) (Event.pending made)).filterMap
      pick = [] := by
    rw [List.filterMap_eq_nil_iff]
    intro e he
    obtain ⟨path, item, rfl⟩ := Event.leave_of_mem_trail _
      (fun e he => Event.leave_of_mem_pending he) e he
    exact hleave path item
  have htrail : Event.trail Path.root made <+: tree.trail := by
    rw [← tree.trail_events, ← hrest, Event.trail_append]
    exact List.prefix_append _ _
  rw [hcalls, Event.trail_append, List.filterMap_append, hclosing, List.append_nil,
    ← Node.filterMap_trail hpick]
  exact htrail.filterMap pick

/-- There is room for all that a query reads of a tree that fits. -/
theorem room_calls {pick : PathEvent → Option Leaf} (hpick : PathEvent.Picks pick)
    (hleave : ∀ path item, pick (.leave path item) = none) {st : Strategy σ} {tree : Node} {s : σ}
    (hfits : tree.Fits) {front : List PathEvent} (h : front <+: st.calls tree s) :
    Position.start.Room (Leaf.texts (front.filterMap pick)).length := by
  obtain ⟨rest, hrest⟩ := (h.filterMap pick).trans (filterMap_calls hpick hleave st tree s)
  have hroom := hfits.room
  rw [← hrest, Leaf.texts_append, String.length_append] at hroom
  exact hroom.mono (Nat.le_add_right _ _)

/-- So there is room for the leaf that comes next. -/
theorem room_next {pick : PathEvent → Option Leaf} (hpick : PathEvent.Picks pick)
    (hleave : ∀ path item, pick (.leave path item) = none) {st : Strategy σ} {tree : Node} {s : σ}
    (hfits : tree.Fits) {before : List PathEvent} {e : PathEvent} {leaf : Leaf}
    (h : before ++ [e] <+: st.calls tree s) (he : pick e = some leaf) :
    Position.start.Room ((Leaf.texts (before.filterMap pick)).length + leaf.text.length) := by
  have hroom := room_calls hpick hleave hfits h
  rw [List.filterMap_append, List.filterMap_cons_some he, List.filterMap_nil, Leaf.texts_append,
    String.length_append, Leaf.texts, String.length_append] at hroom
  exact hroom

end Strategy

/-! ## Searches -/

/-- Lines and columns count from 1. -/
def Position.Counted (p : Position) : Prop := 1 ≤ p.line ∧ 1 ≤ p.column

theorem Position.Room.counted {p : Position} {n : Nat} (h : p.Room n) : p.Counted := ⟨h.1, h.2.1⟩

/-- The first runs of a text have no more characters than the text. -/
theorem Run.size_le_of_prefix {front : List Run} {text : String} (h : front <+: Text.runs text) :
    size front ≤ text.length := by
  obtain ⟨rest, hrest⟩ := h
  rw [← size_runs, ← hrest, size_append]
  exact Nat.le_add_right _ _

namespace Search

/-- **One run after another.** Where there is room for the runs, no step of the search fails, and the cursor
    keeps the room for what comes behind them. -/
theorem scan_room (target : Position) (path : Path) {runs : List Run} {s : Search} {n : Nat}
    (h : s.cursor.Room (Run.size runs + n)) :
    ∃ s' flow, scan target path runs s = .ok (s', flow) ∧ s'.cursor.Room n := by
  induction runs generalizing s with
  | nil => exact ⟨s, .proceed, rfl, h.mono (Nat.le_add_left n _)⟩
  | cons run rest ih =>
    cases run with
    | newline mark =>
      obtain ⟨hline, hroom⟩ := h.of_newline.nextLine
      rw [scan, hline]
      show ∃ s' flow, (if target.line < s.cursor.nextLine.line then
        Except.ok ({ s with cursor := s.cursor.nextLine }, Flow.halt)
        else scan target path rest { s with cursor := s.cursor.nextLine }) = .ok (s', flow) ∧ _
      by_cases hpast : target.line < s.cursor.nextLine.line
      · rw [if_pos hpast]
        exact ⟨_, .halt, rfl, hroom.mono (Nat.le_add_left n _)⟩
      · rw [if_neg hpast]
        exact ih hroom
    | stretch chars =>
      obtain ⟨hcolumns, hroom⟩ := h.of_stretch.shift
      rw [scan, covers_eq h.of_stretch, hcolumns]
      show ∃ s' flow, (if decide (target ∈ s.cursor.columns chars.length) = true then
        Except.ok ({ s with found := some path }, Flow.halt)
        else scan target path rest { s with cursor := s.cursor.shift chars.length }) = .ok (s', flow) ∧ _
      by_cases hm : target ∈ s.cursor.columns chars.length
      · rw [if_pos (decide_eq_true hm)]
        exact ⟨_, .halt, rfl, h.mono (Nat.le_add_left n _)⟩
      · rw [if_neg (by simpa using hm)]
        exact ih hroom

/-- **One call after another**, whatever they answer. -/
theorem after_room (target : Position) {es : List PathEvent} {s : Search} {n : Nat}
    (h : s.cursor.Room ((Leaf.texts (es.filterMap PathEvent.leaf?)).length + n)) :
    ∃ s', Calls.after (strategy target).call es (.ok s) = .ok s' ∧ s'.cursor.Room n := by
  induction es generalizing s with
  | nil => exact ⟨s, rfl, h.mono (Nat.le_add_left n _)⟩
  | cons e es ih =>
    cases e with
    | enter path item => exact ih h
    | leave path item => exact ih h
    | leaf path text =>
      have hleaves : (PathEvent.leaf path text :: es).filterMap PathEvent.leaf? =
          ⟨path, text⟩ :: es.filterMap PathEvent.leaf? := rfl
      rw [hleaves, Leaf.texts, String.length_append, ← Run.size_runs, Nat.add_assoc] at h
      obtain ⟨next, flow, hscan, hroom⟩ := scan_room target path h
      obtain ⟨s', hafter, hs'⟩ := ih hroom
      refine ⟨s', ?_, hs'⟩
      have hcall : (strategy target).call (.leaf path text) (.ok s) = (.ok next, flow) := by
        show attempt (scan target path (Text.runs text)) (.ok s) = _
        rw [attempt, hscan]
      rw [Calls.after, hcall]
      exact hafter

/-- What holds of a search after the calls `before`, which are the first of `calls`. -/
structure Safe (target : Position) (calls before : List PathEvent) (s : Search) : Prop where
  cursor : s.cursor.Counted
  /-- The runs of the leaf that comes next can be searched, up to each of them. -/
  within : ∀ path text front, before ++ [.leaf path text] <+: calls → front <+: Text.runs text →
    ∃ s' flow, scan target path front s = .ok (s', flow) ∧ s'.cursor.Counted

/-- **Every moment of a search.** -/
theorem exists_safe {tree : Node} (hfits : tree.Fits) (target : Position) {before : List PathEvent}
    (h : before <+: (strategy target).calls tree (.ok start)) :
    ∃ s, Calls.after (strategy target).call before (.ok start) = .ok s ∧
      s.Safe target ((strategy target).calls tree (.ok start)) before := by
  have hroom := Strategy.room_calls PathEvent.picks_leaf? (fun _ _ => rfl) hfits h
  obtain ⟨s, hafter, hcursor⟩ := after_room target (s := start) (n := 0) hroom
  refine ⟨s, hafter, hcursor.counted, ?_⟩
  intro path text front hnext hfront
  have hroom := Strategy.room_next PathEvent.picks_leaf? (fun _ _ => rfl) hfits hnext rfl
  obtain ⟨s', hafter', hcursor'⟩ := after_room target (s := start) hroom
  cases hafter.symm.trans hafter'
  have hsize := Run.size_le_of_prefix hfront
  obtain ⟨s'', flow, hscan, hs''⟩ := scan_room target path (n := 0) (hcursor'.mono hsize)
  exact ⟨s'', flow, hscan, hs''.counted⟩

end Search

/-! ## Measurements -/

/-- Line ends put no character into a text. -/
theorem Text.inked_append_newline {read : List Char} {mark : Newline} :
    Inked (read ++ mark.chars) ↔ Inked read := by
  constructor
  · rintro ⟨c, hc, hcr, hlf⟩
    rcases List.mem_append.mp hc with hc | hc
    · exact ⟨c, hc, hcr, hlf⟩
    · cases mark <;> simp_all [Newline.chars]
  · rintro ⟨c, hc, hne⟩
    exact ⟨c, List.mem_append_left _ hc, hne⟩

namespace Measure

variable {m : Measure}

/-- What a measurement keeps that has read the characters `read` and has room for `n` more. -/
structure Valid (read : List Char) (n : Nat) (m : Measure) : Prop where
  cursor : m.cursor.Room n
  /-- Before any character the last position is not one of the text. -/
  last : Text.Inked read → m.last.Room 0
  inked : m.inked = true → m.opened.isSome ∧ m.last.Room 0
  /-- The box begins at a position of the text, not behind what has been read since. -/
  opened : ∀ p depth, m.opened = some (p, depth) →
    p.Room 0 ∧ p.line ≤ m.cursor.line ∧ (m.inked = true → p.line ≤ m.last.line)
  closed : ∀ q, m.closed = some q →
    ∃ p depth, m.opened = some (p, depth) ∧ q.Room 0 ∧ p.line ≤ q.line

namespace Valid

variable {seen : List Char} {k n : Nat}

theorem start (h : Position.start.Room n) : Measure.start.Valid [] n where
  cursor := h
  last := nofun
  inked := nofun
  opened := nofun
  closed := nofun

theorem with_room (h : m.Valid seen k) (hroom : m.cursor.Room n) : m.Valid seen n :=
  ⟨hroom, h.last, h.inked, h.opened, h.closed⟩

theorem with_depth (h : m.Valid seen n) (depth : Nat) : { m with depth }.Valid seen n :=
  ⟨h.cursor, h.last, h.inked, h.opened, h.closed⟩

/-- A line end moves the cursor down, away from where the box begins. -/
theorem newline (h : m.Valid seen (1 + n)) (mark : Newline) :
    (m.read [] m.cursor.nextLine).Valid (seen ++ mark.chars) n := by
  have hread : m.read [] m.cursor.nextLine = { m with cursor := m.cursor.nextLine } := by
    simp [read]
  rw [hread]
  refine ⟨h.cursor.nextLine.2, ?_, h.inked, ?_, h.closed⟩
  · rw [Text.inked_append_newline]
    exact h.last
  · intro p depth hp
    obtain ⟨hroom, hline, hlast⟩ := h.opened p depth hp
    exact ⟨hroom, Int.le_trans hline (Int.le_of_lt (Int.lt_succ _)), hlast⟩

/-- A stretch that is not empty takes the last position to the line of the cursor. -/
theorem stretch {chars : List Char} (h : m.Valid seen (chars.length + n)) :
    (m.read (m.cursor.columns chars.length) (m.cursor.shift chars.length)).Valid (seen ++ chars) n := by
  cases chars with
  | nil =>
    rw [List.length_nil, Position.shift_zero, Position.columns, read_nil, List.append_nil]
    exact h.with_room (h.cursor.mono (Nat.le_add_left n _))
  | cons c chars =>
    have hlast : (m.cursor.shift chars.length).Room 0 := by
      have hroom : m.cursor.Room (chars.length + 0) := h.cursor.mono (by
        rw [List.length_cons]
        omega)
      exact hroom.shift.2
    rw [List.length_cons, read_columns]
    refine ⟨h.cursor.shift.2, fun _ => hlast, ?_, ?_, h.closed⟩
    · intro hinked
      refine ⟨?_, hlast⟩
      rcases Bool.or_eq_true_iff.mp hinked with hinked | hopened
      · exact (h.inked hinked).1
      · exact hopened
    · intro p depth hp
      obtain ⟨hroom, hline, -⟩ := h.opened p depth hp
      exact ⟨hroom, hline, fun _ => hline⟩

/-- **One run after another.** Where there is room for the runs, no step of the measurement fails. -/
theorem consume {runs : List Run} (h : m.Valid seen (Run.size runs + n)) :
    ∃ m', m.consume runs = .ok m' ∧ m'.Valid (seen ++ runs.flatMap Run.chars) n ∧
      m'.depth = m.depth := by
  induction runs generalizing m seen with
  | nil =>
    refine ⟨m, rfl, ?_, rfl⟩
    rw [List.flatMap_nil, List.append_nil]
    exact h.with_room (h.cursor.mono (Nat.le_add_left n _))
  | cons run rest ih =>
    rw [List.flatMap_cons, ← List.append_assoc]
    cases run with
    | newline mark =>
      have hroom := h.cursor.of_newline
      rw [consume_newline hroom]
      exact ih ((h.with_room hroom).newline mark)
    | stretch chars =>
      have hroom := h.cursor.of_stretch
      rw [consume_stretch hroom]
      exact ih (h.with_room hroom).stretch

/-- An item that opens the box opens it at the cursor. -/
theorem enter (h : m.Valid seen n) (wanted path : Path) : (m.enter wanted path).Valid seen n := by
  unfold Measure.enter
  simp only
  split
  · rename_i hopens
    have hnone : m.opened = none := by
      simp only [Bool.and_eq_true, Option.isNone_iff_eq_none] at hopens
      exact hopens.1
    -- nothing was read and nothing closed in a box that was not there
    have hblank : m.inked = false := by
      rw [← Bool.not_eq_true]
      intro hinked
      have hsome := (h.inked hinked).1
      rw [hnone] at hsome
      cases hsome
    refine ⟨h.cursor, h.last, ?_, ?_, ?_⟩
    · intro hinked
      exact ⟨rfl, (h.inked hinked).2⟩
    · intro p depth hp
      cases hp
      refine ⟨h.cursor.mono (Nat.zero_le n), Int.le_refl _, ?_⟩
      intro hinked
      rw [show m.inked = true from hinked] at hblank
      cases hblank
    · intro q hq
      obtain ⟨p, depth, hp, -⟩ := h.closed q hq
      rw [hnone] at hp
      cases hp
  · exact h.with_depth (m.depth + 1)

/-- The box is closed at the last position read in it, or where it begins. -/
theorem leave (h : m.Valid seen n) : m.leave.1.Valid seen n := by
  unfold Measure.leave
  simp only
  split
  · rename_i topLeft depth hopened hclosed
    split
    · refine ⟨h.cursor, h.last, h.inked, h.opened, ?_⟩
      intro q hq
      obtain ⟨hroom, hline, hlast⟩ := h.opened topLeft depth hopened
      refine ⟨topLeft, depth, hopened, ?_⟩
      cases hinked : m.inked with
      | true =>
        simp only [hinked, if_true, Option.some.injEq] at hq
        rw [← hq]
        exact ⟨(h.inked hinked).2, hlast hinked⟩
      | false =>
        simp only [hinked, Bool.false_eq_true, if_false, Option.some.injEq] at hq
        rw [← hq]
        exact ⟨hroom, Int.le_refl _⟩
    · exact h.with_depth (m.depth - 1)
  · exact h.with_depth (m.depth - 1)

end Valid

theorem depth_enter (m : Measure) (wanted path : Path) :
    (m.enter wanted path).depth = m.depth + 1 := by
  unfold enter
  simp only
  split <;> rfl

theorem depth_leave (m : Measure) : m.leave.1.depth = m.depth - 1 := by
  unfold leave
  simp only
  split
  · split <;> rfl
  · rfl

/-- The characters that a measurement has read after some calls: those of the leaves that were entered. -/
def charsRead (es : List PathEvent) : List Char :=
  (Leaf.texts (es.filterMap PathEvent.entered?)).toList

theorem charsRead_append (es fs : List PathEvent) : charsRead (es ++ fs) = charsRead es ++ charsRead fs := by
  rw [charsRead, List.filterMap_append, Leaf.texts_append, String.toList_append]
  rfl

theorem charsRead_constant (path : Path) (text : String) :
    charsRead [.enter path (.constant text)] = (Text.runs text).flatMap Run.chars := by
  rw [Text.runs, Text.flatMap_chars_cut]
  show (text ++ "").toList = _
  rw [String.append_empty]

/-- **One call.** It fails nowhere, and the depth counts the items entered and not left, as long as there is
    one to be left. -/
theorem Valid.call {seen : List Char} {n : Nat} {e : PathEvent} (wanted : Path)
    (h : m.Valid seen ((charsRead [e]).length + n)) (hleave : e.hook = .leave → 0 < m.depth) :
    ∃ m' flow, (strategy wanted).call e (.ok m) = (.ok m', flow) ∧
      m'.Valid (seen ++ charsRead [e]) n ∧
      m'.depth + [e].countP (·.hook = .leave) = m.depth + [e].countP (·.hook = .enter) := by
  -- all calls but that of a leaf read nothing
  have hrest : charsRead [e] = [] → m.Valid (seen ++ charsRead [e]) n := by
    intro hnil
    rw [hnil, List.length_nil, Nat.zero_add] at h
    rw [hnil, List.append_nil]
    exact h
  cases e with
  | enter path item =>
    have hdepth := depth_enter m wanted path
    cases item with
    | constant text =>
      rw [charsRead_constant] at h ⊢
      have hsize : ((Text.runs text).flatMap Run.chars).length = Run.size (Text.runs text) := by
        rw [Run.size_runs, Text.runs, Text.flatMap_chars_cut, String.length_toList]
      rw [hsize] at h
      obtain ⟨m', hconsume, hvalid, hsame⟩ := (h.enter wanted path).consume
      refine ⟨m', .proceed, ?_, hvalid, ?_⟩
      · show attempt (fun m => do
          return (← (m.enter wanted path).consume (Text.runs text), Flow.proceed)) (.ok m) = _
        rw [attempt, hconsume]
        rfl
      · rw [hsame, hdepth]
        rfl
    | list items => exact ⟨_, .proceed, rfl, (hrest rfl).enter wanted path, hdepth⟩
    | composite kind slots => exact ⟨_, .proceed, rfl, (hrest rfl).enter wanted path, hdepth⟩
  | leaf path text => exact ⟨m, .proceed, rfl, hrest rfl, rfl⟩
  | leave path item =>
    refine ⟨m.leave.1, m.leave.2, rfl, (hrest rfl).leave, ?_⟩
    have hpos := hleave rfl
    show m.leave.1.depth + 1 = m.depth
    rw [depth_leave]
    omega

/-- **One call after another**, whatever they answer. The depth is the number of items entered and not
    left. -/
theorem exists_after (wanted : Path) {es : List PathEvent} {n : Nat}
    (hroom : Position.start.Room ((charsRead es).length + n))
    (hnested : ∀ front, front <+: es →
      front.countP (·.hook = .leave) ≤ front.countP (·.hook = .enter)) :
    ∃ m, Calls.after (strategy wanted).call es (.ok start) = .ok m ∧ m.Valid (charsRead es) n ∧
      m.depth + es.countP (·.hook = .leave) = es.countP (·.hook = .enter) := by
  -- from the end, since the last call is the one that is not nested yet
  induction es using List.reverseRecOn generalizing n with
  | nil => exact ⟨start, rfl, .start (hroom.mono (Nat.le_add_left n _)), rfl⟩
  | append_singleton es e ih =>
    rw [charsRead_append, List.length_append, Nat.add_assoc] at hroom
    obtain ⟨m, hafter, hvalid, hdepth⟩ := ih hroom fun front hfront =>
      hnested front (hfront.trans (List.prefix_append es [e]))
    have hlast := hnested (es ++ [e]) (List.prefix_refl _)
    rw [List.countP_append, List.countP_append] at hlast ⊢
    obtain ⟨m', flow, hcall, hvalid', hdepth'⟩ := hvalid.call wanted (by
      intro hhook
      have hone : [e].countP (·.hook = .leave) = 1 := by simp [hhook]
      have hnone : [e].countP (·.hook = .enter) = 0 := by simp [hhook]
      omega)
    refine ⟨m', ?_, ?_, by omega⟩
    · rw [Calls.after_append, hafter, Calls.after, hcall]
      rfl
    · rw [charsRead_append]
      exact hvalid'

/-- The lines of a box that was measured can be counted, and there is one at least. -/
theorem Valid.lineSpan {seen : List Char} {n : Nat} {box : BoundingBox} (h : m.Valid seen n)
    (hbox : m.box? = some box) : ∃ lines, box.lineSpan = .ok lines ∧ 1 ≤ lines := by
  unfold box? at hbox
  split at hbox
  · rename_i topLeft depth bottomRight hopened hclosed
    cases hbox
    obtain ⟨p, depth', hp, hend, hle⟩ := h.closed bottomRight hclosed
    cases hopened.symm.trans hp
    have hbegin := (h.opened topLeft depth hopened).1
    refine ⟨_, BoundingBox.lineSpan_eq_ok hbegin hend, ?_⟩
    show 1 ≤ bottomRight.line - topLeft.line + 1
    omega
  · cases hbox

/-- What holds of a measurement after the calls `before`, which are the first of `calls`. -/
structure Safe (wanted : Path) (calls before : List PathEvent) (m : Measure) : Prop where
  cursor : m.cursor.Counted
  last : Text.Inked (charsRead before) → m.last.Counted
  /-- The depth is the number of items entered and not left. -/
  depth : m.depth + before.countP (·.hook = .leave) = before.countP (·.hook = .enter)
  /-- An item is left only if one was entered. -/
  leave : ∀ path item, before ++ [.leave path item] <+: calls → 0 < m.depth
  /-- The runs of the leaf that comes next can be passed, up to each of them. -/
  within : ∀ path text front, before ++ [.enter path (.constant text)] <+: calls →
    front <+: Text.runs text → ∃ m', (m.enter wanted path).consume front = .ok m' ∧
      m'.cursor.Counted ∧
      (Text.Inked (charsRead before ++ front.flatMap Run.chars) → m'.last.Counted)

/-- **Every moment of a measurement.** -/
theorem exists_safe {tree : Node} (hfits : tree.Fits) (wanted : Path) {before : List PathEvent}
    (h : before <+: (strategy wanted).calls tree (.ok start)) :
    ∃ m, Calls.after (strategy wanted).call before (.ok start) = .ok m ∧
      m.Valid (charsRead before) 0 ∧
      m.Safe wanted ((strategy wanted).calls tree (.ok start)) before := by
  have hnested : ∀ front, front <+: before →
      front.countP (·.hook = .leave) ≤ front.countP (·.hook = .enter) := by
    intro front hfront
    exact Strategy.countP_leave_le (hfront.trans h)
  have hroom := Strategy.room_calls PathEvent.picks_entered? (fun _ _ => rfl) hfits h
  rw [← String.length_toList] at hroom
  obtain ⟨m, hafter, hvalid, hdepth⟩ := exists_after wanted (n := 0) hroom hnested
  refine ⟨m, hafter, hvalid, hvalid.cursor.counted, fun hink => (hvalid.last hink).counted, hdepth,
    ?_, ?_⟩
  · intro path item hnext
    have hle := Strategy.countP_leave_le hnext
    rw [List.countP_append, List.countP_append] at hle
    have hone : [PathEvent.leave path item].countP (·.hook = .leave) = 1 := rfl
    have hnone : [PathEvent.leave path item].countP (·.hook = .enter) = 0 := rfl
    omega
  · intro path text front hnext hfront
    have hroom := Strategy.room_next PathEvent.picks_entered? (fun _ _ => rfl) hfits hnext rfl
    rw [← String.length_toList] at hroom
    obtain ⟨m', hafter', hvalid', -⟩ := exists_after wanted hroom hnested
    cases hafter.symm.trans hafter'
    have hsize : Run.size front + 0 ≤ text.length := Run.size_le_of_prefix hfront
    have hentered := (hvalid'.with_room (hvalid'.cursor.mono hsize)).enter wanted path
    obtain ⟨m'', hconsume, hvalid'', -⟩ := hentered.consume
    exact ⟨m'', hconsume, hvalid''.cursor.counted, fun hink => (hvalid''.last hink).counted⟩

end Measure

/-! ## Queries -/

/-- **A query never overflows.** Let a tree render at most `2^63 - 2` characters. The search for any position
    has an answer; a path has a box, whose lines can be counted and are at least one, or it is refused as
    one that leads nowhere. Neither answer is an overflow, and no step on the way there is: after any
    number of the calls that a query gets, halted or not, and after any number of runs of a leaf, there is
    a state. In each of them the cursor stands at line 1, column 1 or behind, and so does the last position
    once a character other than line ends was read. The depth is the number of items entered and not left, and
    is not zero where an item is left. -/
theorem Node.queries_never_overflow (tree : Node) (hfits : tree.Fits) :
    (∀ target : Position,
      let calls := (Search.strategy target).calls tree (.ok Search.start)
      (∃ found, tree.pathAt target = .ok found) ∧
      (Search.strategy target).run tree (.ok Search.start) =
        Calls.after (Search.strategy target).call calls (.ok Search.start) ∧
      ∀ before, before <+: calls →
        ∃ s, Calls.after (Search.strategy target).call before (.ok Search.start) = .ok s ∧
          s.Safe target calls before) ∧
    (∀ path : Path,
      let calls := (Measure.strategy path).calls tree (.ok Measure.start)
      (tree.boxAt path = .error (.noSuchPath path) ∨
        ∃ box lines, tree.boxAt path = .ok box ∧ box.lineSpan = .ok lines ∧ 1 ≤ lines) ∧
      (Measure.strategy path).run tree (.ok Measure.start) =
        Calls.after (Measure.strategy path).call calls (.ok Measure.start) ∧
      ∀ before, before <+: calls →
        ∃ m, Calls.after (Measure.strategy path).call before (.ok Measure.start) = .ok m ∧
          m.Safe path calls before) := by
  constructor
  · intro target calls
    obtain ⟨-, -, -, hrun⟩ := (Search.strategy target).exists_calls tree (.ok Search.start)
    refine ⟨?_, hrun, fun before hbefore => Search.exists_safe hfits target hbefore⟩
    obtain ⟨s, hs, -⟩ := Search.exists_safe hfits target (List.prefix_refl calls)
    refine ⟨s.found, ?_⟩
    rw [Node.pathAt, hrun, hs]
    rfl
  · intro path calls
    obtain ⟨-, -, -, hrun⟩ := (Measure.strategy path).exists_calls tree (.ok Measure.start)
    refine ⟨?_, hrun, ?_⟩
    · obtain ⟨m, hm, hvalid, -⟩ := Measure.exists_safe hfits path (List.prefix_refl calls)
      have hbox? : tree.boxAt? path = .ok m.box? := by
        rw [Node.boxAt?, hrun, hm]
        rfl
      rw [Node.boxAt, hbox?]
      cases hbox : m.box? with
      | none => exact Or.inl rfl
      | some box =>
        obtain ⟨lines, hlines, hpos⟩ := hvalid.lineSpan hbox
        exact Or.inr ⟨box, lines, rfl, hlines, hpos⟩
    · intro before hbefore
      obtain ⟨m, hm, -, hsafe⟩ := Measure.exists_safe hfits path hbefore
      exact ⟨m, hm, hsafe⟩

/-- The search for the far end of the first line comes to an end. So does the measurement of a field with a
    line end in it: after three calls, two items are open and the last character stands in the text; the
    fourth call leaves the field and halts, and the fifth and last leaves the root. -/
theorem Node.queries_never_overflow_lines :
    let tree : Node := .composite "pair"
      [.field "left" (.constant "a\nb"), .text ":", .field "right" (.constant "c")]
    let st := Measure.strategy [.name "left"]
    let calls := st.calls tree (.ok Measure.start)
    tree.Fits ∧ (∃ found, tree.pathAt ⟨1, Coordinate.greatest⟩ = .ok found) ∧
      tree.boxAt [.name "left"] = .ok ⟨⟨1, 1⟩, ⟨2, 1⟩⟩ ∧ calls.length = 5 ∧
      ∃ m, Calls.after st.call (calls.take 3) (.ok Measure.start) = .ok m ∧ m.depth = 2 ∧
        m.last.Counted := by
  intro tree st calls
  have hfits : tree.Fits := by decide
  obtain ⟨hsearch, hmeasure⟩ := Node.queries_never_overflow tree hfits
  refine ⟨hfits, (hsearch _).1, by decide +kernel, by decide +kernel, ?_⟩
  obtain ⟨m, hm, hsafe⟩ := (hmeasure [.name "left"]).2.2 (calls.take 3) (List.take_prefix 3 _)
  refine ⟨m, hm, ?_, hsafe.last (by decide +kernel)⟩
  have hentered : (calls.take 3).countP (·.hook = .enter) = 2 := by decide +kernel
  have hleft : (calls.take 3).countP (·.hook = .leave) = 0 := by decide +kernel
  have hdepth := hsafe.depth
  rw [hentered, hleft] at hdepth
  exact hdepth

end LosslessTree
