import LosslessTree.Command.Run
import LosslessTree.Proofs.JsonGrammar

/-!
# `Proofs.PrintedReports` — what stands in the texts that the commands print

The texts are given here letter by letter, apart from the formatters that put them together: the line on
a node, the line that counts the outcomes of a batch, and the JSON text on a node.

In words some parts of a line are in a style. `Style.Shown` says how such a part looks: as it is, if there
are no colours; otherwise between the sequence with the number of the style and the one that ends every
style. A part can have the latter sequence in it, since names in a tree are any texts. The style then starts
again behind it, so that what is shown is the part cut at these sequences and put together again.

In JSON the report is one object, printed over several lines, and read again it has that object's
structure.

## Contents
- **`Style.Shown`**, a text in a style, and `Style.shown_paint`.
- **Lines.** `Command.ShowsNode`, `Command.ShowsCounts`.
- **JSON.** `Command.JsonShowsNode`.
-/

namespace LosslessTree

/-! ## Styles -/

namespace Style

/-- The text `shown` is what `text` looks like in the style with the number `code`. -/
def Shown (colours : Bool) (code text shown : String) : Prop :=
  if colours then
    ∃ parts : List String, text = "\x1b[0m".intercalate parts ∧
      (∀ part ∈ parts, ¬ "\x1b[0m".toList <:+: part.toList) ∧
      shown = "\x1b[" ++ code ++ "m" ++ ("\x1b[0m\x1b[" ++ code ++ "m").intercalate parts ++ "\x1b[0m"
  else shown = text

theorem intercalate_cons_char (separator : List Char) (c : Char) (first : List Char)
    (more : List (List Char)) :
    separator.intercalate ((c :: first) :: more) = c :: separator.intercalate (first :: more) := by
  cases more with
  | nil => simp
  | cons second others => simp [List.intercalate_cons_cons]

theorem prefix_intercalate (separator first : List Char) (more : List (List Char)) :
    first <+: separator.intercalate (first :: more) := by
  cases more with
  | nil => simp
  | cons second others =>
    rw [List.intercalate_cons_cons, List.append_assoc]
    exact List.prefix_append ..

/-- A style is renewed by cutting a text at its reset sequences and putting it together again with the
    sequence that starts the style behind each of them. -/
theorem exists_parts_renew (opening cs : List Char) :
    ∃ first more, cs = reset.toList.intercalate (first :: more) ∧
      (∀ part ∈ first :: more, ¬ reset.toList <:+: part) ∧
      renew opening cs = (reset.toList ++ opening).intercalate (first :: more) := by
  fun_induction renew opening cs with
  | case1 rest ih =>
    obtain ⟨first, more, hcs, hparts, hrenew⟩ := ih
    refine ⟨[], first :: more, ?_, ?_, ?_⟩
    · rw [List.intercalate_cons_cons, ← hcs]
      rfl
    · rw [List.forall_mem_cons]
      exact ⟨by decide, hparts⟩
    · rw [List.intercalate_cons_cons, ← hrenew]
      simp [reset]
  | case2 c rest hreset ih =>
    obtain ⟨first, more, hcs, hparts, hrenew⟩ := ih
    rw [List.forall_mem_cons] at hparts
    refine ⟨c :: first, more, ?_, ?_, ?_⟩
    · rw [intercalate_cons_char, ← hcs]
    · rw [List.forall_mem_cons]
      refine ⟨?_, hparts.2⟩
      rw [List.infix_cons_iff]
      rintro (hfront | hinside)
      · -- a reset sequence in front of the part would stand in front of the text
        obtain ⟨tail, htail⟩ := hfront.trans (prefix_intercalate reset.toList (c :: first) more)
        rw [intercalate_cons_char, ← hcs] at htail
        obtain ⟨hc, hrest⟩ := List.cons.inj htail
        exact hreset tail hc.symm hrest.symm
      · exact hparts.1 hinside
    · rw [intercalate_cons_char, ← hrenew]
  | case3 => exact ⟨[], [], rfl, by decide, rfl⟩

/-- A painted text is shown in its style. -/
theorem shown_paint (colours : Bool) (style : Style) (text : String) :
    Shown colours style.code text (style.paint colours text) := by
  cases colours with
  | false => rfl
  | true =>
    obtain ⟨first, more, htext, hparts, hrenew⟩ := exists_parts_renew style.opening.toList text.toList
    refine ⟨(first :: more).map String.ofList, ?_, ?_, ?_⟩
    · rw [← String.toList_inj, htext]
      simp [reset, Function.comp_def]
    · intro part hpart
      obtain ⟨chars, hchars, rfl⟩ := List.mem_map.mp hpart
      have hplain := hparts chars hchars
      rwa [← String.toList_ofList (l := chars)] at hplain
    · rw [paint, if_pos rfl, hrenew, ← String.toList_inj]
      simp [reset, opening, Function.comp_def]

example : Style.bold.paint true "a\x1b[0mb" = "\x1b[1ma\x1b[0m\x1b[1mb\x1b[0m" := by decide

end Style

/-! ## Reports -/

namespace Command

variable {colours : Bool} {place : Position} {path : Path} {kind : String}

/-- The line reads `✓ line:column -> path (kind)`, with the mark in green, the path in bold, or `<root>` in
    its place, and the kind dimmed. -/
def ShowsNode (colours : Bool) (place : Position) (path : Path) (kind line : String) : Prop :=
  ∃ mark shownPath shownKind,
    Style.Shown colours "32" "✓" mark ∧
    Style.Shown colours "1" (if path = [] then "<root>" else path.text) shownPath ∧
    Style.Shown colours "2" ("(" ++ kind ++ ")") shownKind ∧
    line = mark ++ " " ++ toString place.line ++ ":" ++ toString place.column ++ " -> " ++ shownPath ++
      " " ++ shownKind ++ "\n"

/-- The line reads `Summary: n passed, m failed`, with the first number in green and the second in red. -/
def ShowsCounts (colours : Bool) (passed failed : Nat) (line : String) : Prop :=
  ∃ shownPassed shownFailed,
    Style.Shown colours "32" (toString passed) shownPassed ∧
    Style.Shown colours "31" (toString failed) shownFailed ∧
    line = "Summary: " ++ shownPassed ++ " passed, " ++ shownFailed ++ " failed\n"

/-- The text is an object of four members over several lines: the two numbers of the position, the keys of
    the path, of which indices are numbers and names strings, and the kind. -/
def JsonShowsNode (place : Position) (path : Path) (kind text : String) : Prop :=
  let keys := path.map fun
    | .index i => Json.integer i
    | .name name => .string name
  let node := Json.object [("line", .integer place.line), ("column", .integer place.column),
    ("path", .array keys), ("kind", .string kind)]
  text = node.pretty ++ "\n" ∧ Json.Raw.readAll text = some node.raw

theorem showsNode_locationLine :
    ShowsNode colours place path kind (locationLine colours place (some (path, kind)) ++ "\n") := by
  have hshown : path.shown = if path = [] then "<root>" else path.text := by
    cases path <;> rfl
  have hpath := Style.bold.shown_paint colours path.shown
  rw [hshown] at hpath
  refine ⟨_, _, _, Style.green.shown_paint colours "✓", hpath, Style.dimmed.shown_paint colours _, ?_⟩
  simp [locationLine, Position.text, String.append_assoc, hshown]

theorem showsCounts_summary (passed failed : Nat) :
    ShowsCounts colours passed failed (summary colours passed failed ++ "\n") := by
  refine ⟨_, _, Style.green.shown_paint colours _, Style.red.shown_paint colours _, ?_⟩
  simp [summary, String.append_assoc]

theorem jsonShowsNode_locationJson :
    JsonShowsNode place path kind ((locationJson place (some (path, kind))).pretty ++ "\n") := by
  refine ⟨rfl, Json.readAll_pretty ⟨trivial, trivial, ?_, trivial, trivial⟩⟩
  apply Json.wholeItems_of_forall
  intro item hitem
  obtain ⟨key, -, rfl⟩ := List.mem_map.mp hitem
  cases key <;> trivial

end Command

end LosslessTree
