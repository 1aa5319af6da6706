import LosslessTree.Node.Trace

/-!
# `Proofs.WalkCalls` — which calls a walk makes

`Node.events` lists the calls of a walk that nobody halts. A visitor may halt at any of them, and what
it answers may depend on everything it has seen. This module says which calls are made then: those of
the list up to and including the first that halts, and after them one call for every item that was
entered and not left, innermost first. What these last calls answer plays no part.

The argument is on lists of calls. `Visitor.follow` makes the calls of a list in that manner, and two
facts tie it to the recursion of the walk: following the calls of two items in a row is following the
first and, unless it halted, the second (`follow_append`); and following the calls of an item is
`Visitor.around` what is inside (`follow_bracket`). Both rest on the lists being well nested
(`Event.Balanced`): only then does a cut-off list leave open just the items of its own.

## Contents
- **Calls.** `Calls.after`, `Calls.answers`, `Calls.halting`, `Calls.run`, `Calls.Passes` and
  `Calls.logged`; `Visitor.call` and `Visitor.logged`.
- **Nesting.** `Calls.pendingFrom` and `Event.pending`, the items still open; `Event.Balanced`.
- **Walks.** `Visitor.follow`, and `Node.walk_eq_follow`.
-/

namespace LosslessTree

variable {α σ : Type}

/-! ## Calls one after another

`call` answers one call of a kind `α`: the calls of a visitor here, those of a strategy later. -/

namespace Calls

/-- The state after the calls `es`, whatever they answer. -/
def after (call : α → σ → σ × Flow) : List α → σ → σ
  | [], s => s
  | e :: es, s => after call es (call e s).1

/-- The answers to the calls `es`, all of them made one after another. -/
def answers (call : α → σ → σ × Flow) : List α → σ → List Flow
  | [], _ => []
  | e :: es, s => (call e s).2 :: answers call es (call e s).1

/-- The calls of `es` up to the first that halts, which is the last of them. -/
def halting (call : α → σ → σ × Flow) : List α → σ → Option (List α)
  | [], _ => none
  | e :: es, s =>
    match (call e s).2 with
    | .halt => some [e]
    | .proceed => (halting call es (call e s).1).map (e :: ·)

/-- The state after the calls `es` when the first that halts is the last. -/
def run (call : α → σ → σ × Flow) : List α → σ → σ
  | [], s => s
  | e :: es, s =>
    match (call e s).2 with
    | .halt => (call e s).1
    | .proceed => run call es (call e s).1

/-- The calls `es` lead from one state to another, and none of them halts. -/
inductive Passes (call : α → σ → σ × Flow) : List α → σ → σ → Prop
  | nil {s : σ} : Passes call [] s s
  | cons {e : α} {es : List α} {s t u : σ} :
      call e s = (t, .proceed) → Passes call es t u → Passes call (e :: es) s u

variable {call : α → σ → σ × Flow} {es fs : List α} {e : α} {s : σ}

theorem after_append (call : α → σ → σ × Flow) (es fs : List α) (s : σ) :
    after call (es ++ fs) s = after call fs (after call es s) := by
  induction es generalizing s with
  | nil => rfl
  | cons e es ih => exact ih (call e s).1

theorem halting_cons_halt (h : (call e s).2 = .halt) (es : List α) :
    halting call (e :: es) s = some [e] := by
  rw [halting, h]

theorem halting_cons_proceed (h : (call e s).2 = .proceed) (es : List α) :
    halting call (e :: es) s = (halting call es (call e s).1).map (e :: ·) := by
  rw [halting, h]

theorem run_cons_halt {t : σ} (h : call e s = (t, .halt)) (es : List α) :
    run call (e :: es) s = t := by
  rw [run, h]

theorem run_cons_proceed {t : σ} (h : call e s = (t, .proceed)) (es : List α) :
    run call (e :: es) s = run call es t := by
  rw [run, h]

theorem run_of_halting (h : halting call es s = some fs) : run call es s = after call fs s := by
  induction es generalizing s fs with
  | nil => cases h
  | cons e es ih =>
    cases hflow : (call e s).2 with
    | halt =>
      rw [halting_cons_halt hflow] at h
      cases h
      rw [run, hflow]
      rfl
    | proceed =>
      rw [halting_cons_proceed hflow] at h
      obtain ⟨rest, hrest, rfl⟩ := Option.map_eq_some_iff.mp h
      rw [run, hflow]
      exact ih hrest

theorem run_of_proceeding (h : halting call es s = none) : run call es s = after call es s := by
  induction es generalizing s with
  | nil => rfl
  | cons e es ih =>
    cases hflow : (call e s).2 with
    | halt =>
      rw [halting_cons_halt hflow] at h
      cases h
    | proceed =>
      rw [halting_cons_proceed hflow, Option.map_eq_none_iff] at h
      rw [run, hflow]
      exact ih h

/-- Calls that do not halt are passed over. -/
theorem Passes.run_append {t : σ} (h : Passes call es s t) (fs : List α) :
    run call (es ++ fs) s = run call fs t := by
  induction h with
  | nil => rfl
  | cons hcall _ ih => exact (run_cons_proceed hcall _).trans ih

theorem Passes.append {t u : σ} (h : Passes call es s t) (hf : Passes call fs t u) :
    Passes call (es ++ fs) s u := by
  induction h with
  | nil => exact hf
  | cons hcall _ ih => exact .cons hcall (ih hf)

theorem prefix_of_halting (h : halting call es s = some fs) : fs <+: es := by
  induction es generalizing s fs with
  | nil => cases h
  | cons e es ih =>
    cases hflow : (call e s).2 with
    | halt =>
      rw [halting_cons_halt hflow] at h
      cases h
      exact List.prefix_append [e] es
    | proceed =>
      rw [halting_cons_proceed hflow] at h
      obtain ⟨rest, hrest, rfl⟩ := Option.map_eq_some_iff.mp h
      exact List.cons_prefix_cons.mpr ⟨rfl, ih hrest⟩

theorem halting_append (call : α → σ → σ × Flow) (es fs : List α) (s : σ) :
    halting call (es ++ fs) s =
      (halting call es s).or ((halting call fs (after call es s)).map (es ++ ·)) := by
  induction es generalizing s with
  | nil =>
    show halting call fs s = (halting call fs s).map ([] ++ ·)
    cases halting call fs s <;> rfl
  | cons e es ih =>
    show halting call (e :: (es ++ fs)) s = _
    cases hflow : (call e s).2 with
    | halt => rw [halting_cons_halt hflow, halting_cons_halt hflow]; rfl
    | proceed =>
      rw [halting_cons_proceed hflow, halting_cons_proceed hflow, ih]
      show _ = Option.or _ ((halting call fs (after call es (call e s).1)).map _)
      cases halting call es (call e s).1 <;>
        cases halting call fs (after call es (call e s).1) <;> rfl

theorem halting_eq_none (h : ∀ a ∈ answers call es s, a = .proceed) : halting call es s = none := by
  induction es generalizing s with
  | nil => rfl
  | cons e es ih =>
    rw [halting_cons_proceed (h _ (List.mem_cons_self ..)),
      ih (fun a ha => h a (List.mem_cons_of_mem _ ha))]
    rfl

theorem halting_eq_take {k : Nat} (hbefore : ∀ j < k, (answers call es s)[j]? = some .proceed)
    (hk : (answers call es s)[k]? = some .halt) : halting call es s = some (es.take (k + 1)) := by
  induction es generalizing s k with
  | nil => cases hk
  | cons e es ih =>
    cases k with
    | zero => exact halting_cons_halt (Option.some.inj hk) es
    | succ k =>
      have hfirst : (call e s).2 = .proceed := Option.some.inj (hbefore 0 (Nat.succ_pos k))
      rw [halting_cons_proceed hfirst, ih (fun j hj => hbefore (j + 1) (Nat.succ_lt_succ hj)) hk]
      rfl

/-- The call that halts is answered by a halt. -/
theorem halt_mem_answers {call : α → σ → σ × Flow} {es made : List α} {s : σ}
    (h : halting call es s = some made) (more : List α) :
    .halt ∈ answers call (made ++ more) s := by
  induction es generalizing s made with
  | nil => cases h
  | cons e es ih =>
    cases hflow : (call e s).2 with
    | halt =>
      rw [halting_cons_halt hflow] at h
      cases h
      exact List.mem_cons.mpr (Or.inl hflow.symm)
    | proceed =>
      rw [halting_cons_proceed hflow] at h
      obtain ⟨rest, hrest, rfl⟩ := Option.map_eq_some_iff.mp h
      exact List.mem_cons_of_mem _ (ih hrest)

/-! ### With a log -/

/-- Answers calls as `call` does and writes them down. -/
def logged (call : α → σ → σ × Flow) (e : α) (s : σ × List α) : (σ × List α) × Flow :=
  (((call e s.1).1, s.2 ++ [e]), (call e s.1).2)

theorem after_logged (call : α → σ → σ × Flow) (es : List α) (s : σ) (log : List α) :
    after (logged call) es (s, log) = (after call es s, log ++ es) := by
  induction es generalizing s log with
  | nil => rw [List.append_nil]; rfl
  | cons e es ih =>
    show after (logged call) es ((call e s).1, log ++ [e]) = _
    rw [ih, List.append_assoc]
    rfl

/-- A log changes nothing about where the calls halt. -/
theorem halting_logged (call : α → σ → σ × Flow) (es : List α) (s : σ) (log : List α) :
    halting (logged call) es (s, log) = halting call es s := by
  induction es generalizing s log with
  | nil => rfl
  | cons e es ih =>
    have hanswer : (logged call e (s, log)).2 = (call e s).2 := rfl
    cases h : (call e s).2 with
    | halt => rw [halting_cons_halt (hanswer.trans h), halting_cons_halt h]
    | proceed =>
      rw [halting_cons_proceed (hanswer.trans h), halting_cons_proceed h]
      exact congrArg (Option.map (e :: ·)) (ih (call e s).1 (log ++ [e]))

end Calls

namespace Visitor

/-- Makes the call `e`. -/
def call (v : Visitor σ) : Event → σ → σ × Flow
  | .enter item key => v.enter item key
  | .leaf text key => v.leaf text key
  | .leave item key => v.leave item key

/-- The visitor `v` with a log of the calls it gets. -/
def logged (v : Visitor σ) : Visitor (σ × List Event) where
  enter item key := Calls.logged v.call (.enter item key)
  leaf text key := Calls.logged v.call (.leaf text key)
  leave item key := Calls.logged v.call (.leave item key)

theorem call_logged (v : Visitor σ) : v.logged.call = Calls.logged v.call := by
  funext e s
  cases e <;> rfl

end Visitor

/-! ## Nesting -/

namespace Calls

/-- The calls that leave the items open after `es`, innermost first, when those of `stack` were open
    before. The call that leaves what `e` enters is `closing e`. -/
def pendingFrom (hook : α → Hook) (closing : α → α) (stack : List α) : List α → List α
  | [] => stack
  | e :: es =>
    match hook e with
    | .enter => pendingFrom hook closing (closing e :: stack) es
    | .leaf => pendingFrom hook closing stack es
    | .leave => pendingFrom hook closing stack.tail es

theorem pendingFrom_append (hook : α → Hook) (closing : α → α) (stack es fs : List α) :
    pendingFrom hook closing stack (es ++ fs) =
      pendingFrom hook closing (pendingFrom hook closing stack es) fs := by
  induction es generalizing stack with
  | nil => rfl
  | cons e es ih =>
    simp only [List.cons_append, pendingFrom]
    cases hook e <;> exact ih _

/-- What is pending was on the stack or leaves something that was entered. -/
theorem mem_pendingFrom {hook : α → Hook} {closing : α → α} {stack es : List α} {e : α}
    (h : e ∈ pendingFrom hook closing stack es) :
    e ∈ stack ∨ ∃ d ∈ es, hook d = .enter ∧ e = closing d := by
  induction es generalizing stack with
  | nil => exact Or.inl h
  | cons d es ih =>
    simp only [pendingFrom] at h
    have hlater : (∃ c ∈ es, hook c = .enter ∧ e = closing c) →
        ∃ c ∈ d :: es, hook c = .enter ∧ e = closing c := by
      rintro ⟨c, hc, hclosing⟩
      exact ⟨c, List.mem_cons_of_mem _ hc, hclosing⟩
    cases hkind : hook d with
    | enter =>
      rw [hkind] at h
      rcases ih h with hstack | hes
      · rcases List.mem_cons.mp hstack with rfl | hstack
        · exact Or.inr ⟨d, List.mem_cons_self .., hkind, rfl⟩
        · exact Or.inl hstack
      · exact Or.inr (hlater hes)
    | leaf =>
      rw [hkind] at h
      exact (ih h).imp_right hlater
    | leave =>
      rw [hkind] at h
      exact (ih h).imp List.mem_of_mem_tail hlater

end Calls

namespace Event

/-- The call that leaves what a call enters. -/
def closing : Event → Event
  | .enter item key => .leave item key
  | e => e

/-- The calls that leave the items which `es` enters and does not leave, innermost first. -/
def pending (es : List Event) : List Event := Calls.pendingFrom hook closing [] es

/-- Calls in which every item that is entered is left, after the items entered inside it. -/
inductive Balanced : List Event → Prop
  | nil : Balanced []
  | leaf {text : String} {key : Option Key} {es : List Event} :
      Balanced es → Balanced (.leaf text key :: es)
  | item {item : Node} {key : Option Key} {inside es : List Event} :
      Balanced inside → Balanced es →
        Balanced (.enter item key :: (inside ++ .leave item key :: es))

/-- Every pending call leaves an item. -/
theorem leave_of_mem_pending {es : List Event} {e : Event} (h : e ∈ pending es) :
    ∃ item key, e = leave item key := by
  rcases Calls.mem_pendingFrom h with hnil | ⟨d, -, henter, rfl⟩
  · cases hnil
  · cases d with
    | enter item key => exact ⟨item, key, rfl⟩
    | leaf _ _ => cases henter
    | leave _ _ => cases henter

/-- A list that starts the concatenation of two lists ends within the first or reaches the second. -/
theorem prefix_of_append {made es fs : List Event} (h : made <+: es ++ fs) :
    made <+: es ∨ ∃ more, made = es ++ more ∧ more <+: fs := by
  obtain ⟨rest, h⟩ := h
  rcases List.append_eq_append_iff.mp h with ⟨mid, h1, h2⟩ | ⟨mid, h1, h2⟩
  · exact Or.inl ⟨mid, h1.symm⟩
  · exact Or.inr ⟨mid, h1, rest, h2.symm⟩

namespace Balanced

/-- A single item with balanced calls inside. -/
theorem single {item : Node} {key : Option Key} {inside : List Event} (h : Balanced inside) :
    Balanced (.enter item key :: (inside ++ [.leave item key])) :=
  .item h .nil

theorem append {es fs : List Event} (he : Balanced es) (hf : Balanced fs) : Balanced (es ++ fs) := by
  induction he with
  | nil => exact hf
  | leaf _ ih => exact .leaf ih
  | item hi _ _ ih =>
    rw [List.cons_append, List.append_assoc]
    exact .item hi ih

/-- Balanced calls leave open what was open before. -/
theorem pendingFrom_eq {es : List Event} (h : Balanced es) (stack : List Event) :
    Calls.pendingFrom hook closing stack es = stack := by
  induction h generalizing stack with
  | nil => rfl
  | leaf _ ih => exact ih stack
  | @item item key inside es _ _ ihi ihe =>
    show Calls.pendingFrom hook closing (.leave item key :: stack) (inside ++ .leave item key :: es) = stack
    rw [Calls.pendingFrom_append, ihi]
    exact ihe stack

/-- Cut off anywhere, balanced calls open items on top of those that were open before and never leave
    one of the latter. -/
theorem pendingFrom_of_prefix {es made : List Event} (h : Balanced es) (hm : made <+: es)
    (stack : List Event) : Calls.pendingFrom hook closing stack made = pending made ++ stack := by
  induction h generalizing made stack with
  | nil => rw [List.prefix_nil.mp hm]; rfl
  | leaf _ ih =>
    rcases List.prefix_cons_iff.mp hm with rfl | ⟨made, rfl, hmade⟩
    · rfl
    · exact ih hmade stack
  | @item item key inside es hi _ ihi ihe =>
    rcases List.prefix_cons_iff.mp hm with rfl | ⟨made, rfl, hmade⟩
    · rfl
    · -- the cut is inside the item, right before it is left, or among the calls that follow
      show Calls.pendingFrom hook closing (.leave item key :: stack) made =
        Calls.pendingFrom hook closing [.leave item key] made ++ stack
      rcases prefix_of_append hmade with hin | ⟨more, rfl, hmore⟩
      · rw [ihi hin, ihi hin, List.append_assoc]
        rfl
      · rw [Calls.pendingFrom_append, Calls.pendingFrom_append, hi.pendingFrom_eq, hi.pendingFrom_eq]
        rcases List.prefix_cons_iff.mp hmore with rfl | ⟨rest, rfl, hrest⟩
        · rfl
        · exact ihe hrest stack

/-- The pending calls complete a cut-off list to balanced calls. -/
theorem completed {es made : List Event} (h : Balanced es) (hm : made <+: es) :
    Balanced (made ++ pending made) := by
  induction h generalizing made with
  | nil => rw [List.prefix_nil.mp hm]; exact .nil
  | leaf _ ih =>
    rcases List.prefix_cons_iff.mp hm with rfl | ⟨made, rfl, hmade⟩
    · exact .nil
    · exact .leaf (ih hmade)
  | @item item key inside es hi _ ihi ihe =>
    rcases List.prefix_cons_iff.mp hm with rfl | ⟨made, rfl, hmade⟩
    · exact .nil
    · show Balanced (.enter item key :: (made ++ Calls.pendingFrom hook closing [.leave item key] made))
      rcases prefix_of_append hmade with hin | ⟨more, rfl, hmore⟩
      · rw [hi.pendingFrom_of_prefix hin, ← List.append_assoc]
        exact .single (ihi hin)
      · rw [Calls.pendingFrom_append, hi.pendingFrom_eq, List.append_assoc]
        rcases List.prefix_cons_iff.mp hmore with rfl | ⟨rest, rfl, hrest⟩
        · exact .single hi
        · exact .item hi (ihe hrest)

end Balanced

end Event

mutual

/-- The calls of a full walk are well nested. -/
theorem Node.eventsAt_balanced (key : Option Key) :
    (node : Node) → Event.Balanced (node.eventsAt key)
  | .constant _ => .single (.leaf .nil)
  | .list items => .single (Node.eventsItems_balanced 0 items)
  | .composite _ slots => .single (Node.eventsSlots_balanced slots)

theorem Node.eventsItems_balanced (i : Nat) :
    (items : List Node) → Event.Balanced (Node.eventsItems i items)
  | [] => .nil
  | node :: rest =>
    (Node.eventsAt_balanced (some (.index i)) node).append (Node.eventsItems_balanced (i + 1) rest)

theorem Node.eventsSlots_balanced :
    (slots : List Slot) → Event.Balanced (Node.eventsSlots slots)
  | [] => .nil
  | .text _ :: rest => (Event.Balanced.single (.leaf .nil)).append (Node.eventsSlots_balanced rest)
  | .field key value :: rest =>
    (Node.eventsAt_balanced (some (.name key)) value).append (Node.eventsSlots_balanced rest)

end

/-! ## Following a list of calls -/

namespace Visitor

/-- Makes the calls `es` until one halts, and then those that leave what is open. -/
def follow (v : Visitor σ) (es : List Event) (s : σ) : σ × Flow :=
  match Calls.halting v.call es s with
  | none => (Calls.after v.call es s, .proceed)
  | some made => (Calls.after v.call (made ++ Event.pending made) s, .halt)

theorem follow_of_halting {v : Visitor σ} {es made : List Event} {s : σ}
    (h : Calls.halting v.call es s = some made) :
    v.follow es s = (Calls.after v.call (made ++ Event.pending made) s, .halt) := by
  rw [follow, h]

theorem follow_of_proceeding {v : Visitor σ} {es : List Event} {s : σ}
    (h : Calls.halting v.call es s = none) : v.follow es s = (Calls.after v.call es s, .proceed) := by
  rw [follow, h]

/-- **Items in a row.** The calls of the second part are made only if the first part was not halted. -/
theorem follow_append (v : Visitor σ) {es : List Event} (he : Event.Balanced es) (fs : List Event)
    (s : σ) : v.follow (es ++ fs) s = Flow.andThen (v.follow es s) (v.follow fs) := by
  have happend := Calls.halting_append v.call es fs s
  cases hes : Calls.halting v.call es s with
  | some made =>
    rw [hes] at happend
    rw [follow_of_halting happend, follow_of_halting hes]
    rfl
  | none =>
    rw [hes, Option.none_or] at happend
    rw [follow_of_proceeding hes]
    show _ = v.follow fs (Calls.after v.call es s)
    cases hfs : Calls.halting v.call fs (Calls.after v.call es s) with
    | none =>
      rw [hfs] at happend
      rw [follow_of_proceeding happend, follow_of_proceeding hfs, Calls.after_append]
    | some made =>
      rw [hfs] at happend
      -- nothing of the first part is open any more
      have hpending : Event.pending (es ++ made) = Event.pending made := by
        rw [Event.pending, Calls.pendingFrom_append, he.pendingFrom_eq, Event.pending]
      rw [follow_of_halting happend, follow_of_halting hfs, hpending, List.append_assoc,
        Calls.after_append]

theorem around_of_halt {v : Visitor σ} {item : Node} {key : Option Key} {s s₁ : σ}
    (h : v.enter item key s = (s₁, .halt)) (inside : σ → σ × Flow) :
    v.around item key inside s = ((v.leave item key s₁).1, .halt) := by
  simp only [around, h, Flow.andThen]
  cases (v.leave item key s₁).2 <;> rfl

theorem around_of_proceed {v : Visitor σ} {item : Node} {key : Option Key} {s s₁ s₂ : σ} {flow : Flow}
    (h : v.enter item key s = (s₁, .proceed)) {inside : σ → σ × Flow} (hin : inside s₁ = (s₂, flow)) :
    v.around item key inside s = ((v.leave item key s₂).1, (v.leave item key s₂).2.or flow) := by
  simp only [around, h, Flow.andThen, hin]

/-- **One item.** Its calls are those of entering and leaving it around those inside. -/
theorem follow_bracket (v : Visitor σ) (item : Node) (key : Option Key) {inside : List Event}
    (hi : Event.Balanced inside) (s : σ) :
    v.follow (.enter item key :: (inside ++ [.leave item key])) s =
      v.around item key (v.follow inside) s := by
  obtain ⟨s₁, hs₁⟩ : ∃ s₁, (v.call (.enter item key) s).1 = s₁ := ⟨_, rfl⟩
  cases henter : (v.call (.enter item key) s).2 with
  | halt =>
    rw [follow_of_halting (Calls.halting_cons_halt henter _), around_of_halt (Prod.ext hs₁ henter)]
    show ((v.leave item key (v.call (.enter item key) s).1).1, Flow.halt) = _
    rw [hs₁]
  | proceed =>
    have hcons := Calls.halting_cons_proceed henter (inside ++ [.leave item key])
    rw [Calls.halting_append, hs₁] at hcons
    cases hin : Calls.halting v.call inside s₁ with
    | some made =>
      -- halted inside: the item itself is the outermost of those still open
      rw [hin] at hcons
      have hpending : Event.pending (.enter item key :: made) =
          Event.pending made ++ [.leave item key] :=
        hi.pendingFrom_of_prefix (Calls.prefix_of_halting hin) [.leave item key]
      rw [follow_of_halting hcons, hpending, ← List.append_assoc, Calls.after_append,
        around_of_proceed (Prod.ext hs₁ henter) (follow_of_halting hin)]
      show ((v.leave item key (Calls.after v.call (made ++ Event.pending made)
        (v.call (.enter item key) s).1)).1, Flow.halt) = _
      rw [hs₁]
      cases (v.leave item key (Calls.after v.call (made ++ Event.pending made) s₁)).2 <;> rfl
    | none =>
      rw [hin, Option.none_or] at hcons
      have hcalls : Calls.after v.call (.enter item key :: (inside ++ [.leave item key])) s =
          (v.leave item key (Calls.after v.call inside s₁)).1 := by
        show Calls.after v.call (inside ++ [.leave item key]) (v.call (.enter item key) s).1 = _
        rw [hs₁, Calls.after_append]
        rfl
      rw [around_of_proceed (Prod.ext hs₁ henter) (follow_of_proceeding hin), ← hcalls]
      cases hleave : (v.leave item key (Calls.after v.call inside s₁)).2 with
      | halt =>
        -- halted when leaving the item: no item is open, so no further call is made
        rw [Calls.halting_cons_halt (show (v.call (.leave item key) _).2 = _ from hleave)] at hcons
        have hpending : Event.pending (.enter item key :: (inside ++ [.leave item key])) = [] :=
          (Event.Balanced.single hi).pendingFrom_eq []
        rw [follow_of_halting hcons]
        show (Calls.after v.call (.enter item key :: (inside ++ [.leave item key]) ++
          Event.pending (.enter item key :: (inside ++ [.leave item key]))) s, Flow.halt) = _
        rw [hpending, List.append_nil]
        rfl
      | proceed =>
        rw [Calls.halting_cons_proceed (show (v.call (.leave item key) _).2 = _ from hleave)] at hcons
        rw [follow_of_proceeding hcons]
        rfl

theorem follow_leaf (v : Visitor σ) (text : String) (key : Option Key) :
    v.follow [.leaf text key] = v.leaf text key := by
  funext s
  cases hflow : (v.call (.leaf text key) s).2 with
  | halt => rw [follow_of_halting (Calls.halting_cons_halt hflow [])]; exact Prod.ext rfl hflow.symm
  | proceed => rw [follow_of_proceeding (Calls.halting_cons_proceed hflow [])]; exact Prod.ext rfl hflow.symm

end Visitor

/-! ## The walk -/

mutual

/-- The walk of an item follows the calls of a full walk through it. -/
theorem Node.walkAt_eq_follow (v : Visitor σ) (key : Option Key) :
    (node : Node) → (s : σ) → node.walkAt v key s = v.follow (node.eventsAt key) s
  | .constant text, s => by
    rw [Node.walkAt, ← v.follow_leaf]
    exact (v.follow_bracket _ key (.leaf .nil) s).symm
  | .list items, s => by
    have hitems : Node.walkItems v 0 items = v.follow (Node.eventsItems 0 items) :=
      funext (Node.walkItems_eq_follow v 0 items)
    rw [Node.walkAt, hitems]
    exact (v.follow_bracket _ key (Node.eventsItems_balanced 0 items) s).symm
  | .composite kind slots, s => by
    have hslots : Node.walkSlots v slots = v.follow (Node.eventsSlots slots) :=
      funext (Node.walkSlots_eq_follow v slots)
    rw [Node.walkAt, hslots]
    exact (v.follow_bracket _ key (Node.eventsSlots_balanced slots) s).symm

theorem Node.walkItems_eq_follow (v : Visitor σ) (i : Nat) :
    (items : List Node) → (s : σ) →
      Node.walkItems v i items s = v.follow (Node.eventsItems i items) s
  | [], s => rfl
  | node :: rest, s => by
    have hrest : Node.walkItems v (i + 1) rest = v.follow (Node.eventsItems (i + 1) rest) :=
      funext (Node.walkItems_eq_follow v (i + 1) rest)
    rw [Node.walkItems, Node.walkAt_eq_follow, hrest]
    exact (v.follow_append (Node.eventsAt_balanced _ node) _ s).symm

theorem Node.walkSlots_eq_follow (v : Visitor σ) :
    (slots : List Slot) → (s : σ) → Node.walkSlots v slots s = v.follow (Node.eventsSlots slots) s
  | [], s => rfl
  | .text text :: rest, s => by
    have hrest : Node.walkSlots v rest = v.follow (Node.eventsSlots rest) :=
      funext (Node.walkSlots_eq_follow v rest)
    rw [Node.walkSlots, ← v.follow_leaf, ← v.follow_bracket _ none (.leaf .nil), hrest]
    exact (v.follow_append (Node.eventsAt_balanced none (.constant text)) _ s).symm
  | .field key value :: rest, s => by
    have hrest : Node.walkSlots v rest = v.follow (Node.eventsSlots rest) :=
      funext (Node.walkSlots_eq_follow v rest)
    rw [Node.walkSlots, Node.walkAt_eq_follow, hrest]
    exact (v.follow_append (Node.eventsAt_balanced _ value) _ s).symm

end

/-- A walk follows the calls of a full walk. -/
theorem Node.walk_eq_follow (v : Visitor σ) (tree : Node) (s : σ) :
    tree.walk v s = v.follow tree.events s :=
  tree.walkAt_eq_follow v none s

/-! ## Logged calls -/

namespace Visitor

theorem logged_follow_of_proceeding {v : Visitor σ} {es : List Event} {s : σ}
    (h : Calls.halting v.call es s = none) :
    v.logged.follow es (s, []) = ((Calls.after v.call es s, es), .proceed) := by
  rw [← Calls.halting_logged v.call es s [], ← v.call_logged] at h
  rw [follow_of_proceeding h, v.call_logged, Calls.after_logged]
  rfl

theorem logged_follow_of_halting {v : Visitor σ} {es made : List Event} {s : σ}
    (h : Calls.halting v.call es s = some made) :
    v.logged.follow es (s, []) =
      ((Calls.after v.call (made ++ Event.pending made) s, made ++ Event.pending made), .halt) := by
  rw [← Calls.halting_logged v.call es s [], ← v.call_logged] at h
  rw [follow_of_halting h, v.call_logged, Calls.after_logged]
  rfl

theorem follow_logged (v : Visitor σ) (es : List Event) (s : σ) :
    v.follow es s = ((v.logged.follow es (s, [])).1.1, (v.logged.follow es (s, [])).2) := by
  cases h : Calls.halting v.call es s with
  | none => rw [follow_of_proceeding h, logged_follow_of_proceeding h]
  | some made => rw [follow_of_halting h, logged_follow_of_halting h]

end Visitor

/-- **The calls of a walk, for every visitor.** If no call of a full walk is answered by a halt, these
    calls are made in their order. Otherwise the calls made are those up to the first that is, at
    number `k`, and then the calls that leave every item still open, innermost first, whatever they
    answer. The log takes no part in what the visitor does. -/
theorem Node.walk_makes_calls (v : Visitor σ) (tree : Node) (s : σ) :
    ((∀ a ∈ Calls.answers v.call tree.events s, a = .proceed) →
      tree.walk v.logged (s, []) = ((Calls.after v.call tree.events s, tree.events), .proceed)) ∧
    (∀ k, (∀ j < k, (Calls.answers v.call tree.events s)[j]? = some .proceed) →
      (Calls.answers v.call tree.events s)[k]? = some .halt →
      let made := tree.events.take (k + 1)
      tree.walk v.logged (s, []) =
          ((Calls.after v.call (made ++ Event.pending made) s, made ++ Event.pending made), .halt) ∧
        Event.Balanced (made ++ Event.pending made)) ∧
    tree.walk v s = ((tree.walk v.logged (s, [])).1.1, (tree.walk v.logged (s, [])).2) := by
  rw [Node.walk_eq_follow, Node.walk_eq_follow]
  refine ⟨?_, ?_, v.follow_logged _ s⟩
  · intro hall
    exact Visitor.logged_follow_of_proceeding (Calls.halting_eq_none hall)
  · intro k hbefore hk
    refine ⟨?_, (tree.eventsAt_balanced none).completed (List.take_prefix ..)⟩
    exact Visitor.logged_follow_of_halting (Calls.halting_eq_take hbefore hk)

/-- A walk that halts at the second of three leaves: two items are open then, the text and the
    composite that holds it. -/
theorem Node.walk_makes_calls_pair :
    let tree : Node :=
      .composite "pair" [.field "left" (.constant "x"), .text ":", .field "right" (.constant "y")]
    let v := recorder (some ⟨.leaf, 1⟩)
    (Calls.answers v.call tree.events [])[5]? = some .halt ∧
      (tree.walk v.logged ([], [])).1.2 =
        tree.events.take 6 ++ [.leave (.constant ":") none, .leave tree none] := by
  intro tree v
  have hbefore : ∀ j < 5, (Calls.answers v.call tree.events [])[j]? = some .proceed := by decide
  have hk : (Calls.answers v.call tree.events [])[5]? = some .halt := by decide
  refine ⟨hk, ?_⟩
  rw [((Node.walk_makes_calls v tree []).2.1 5 hbefore hk).1]
  rfl

end LosslessTree
