import Refit.Chat.Reply
import Refit.Chat.Request

namespace Refit.Chat

open Json (Value)

/-- A block of a reply: its kind, and its text if it has one. -/
structure Block where
  kind : String
  text : Option String

def Block.ofJson (v : Value) : Option Block := do
  match ← fields ["type", "text"] v with
  | [some kind, content] => return ⟨← text? kind, ← optionalText content⟩
  | _ => none

/-- The texts of the blocks of text, one after the other. -/
def Block.textOf (blocks : List Block) : String :=
  String.join ((blocks.filter fun b => b.kind = "text").filterMap Block.text)

/-- The blocks of a reply. -/
def blocks? (v : Value) : Option (List Block) := do
  match ← fields ["content"] v with
  | [content] => listOf Block.ofJson content
  | _ => none

def content? (v : Value) : Option (Option String) := do
  match ← fields ["message"] v with
  | [some message] =>
    match ← fields ["content"] message with
    | [content] => optionalText content
    | _ => none
  | _ => none

/-- The contents of the choices of a reply. -/
def contents? (v : Value) : Option (List (Option String)) := do
  match ← fields ["choices"] v with
  | [choices] => listOf content? choices
  | _ => none

/-- The content of the first choice. -/
def firstContent (contents : List (Option String)) : String := (contents.head?.bind id).getD ""

section List

variable {α β : Type} {read : Value → Option α} {read' : Value → Option β} {f : α → β}

theorem mapM_map (h : ∀ v, read' v = (read v).map f) (items : List Value) :
    items.mapM read' = (items.mapM read).map (List.map f) := by
  induction items with
  | nil => rfl
  | cons v items ih =>
    rw [List.mapM_cons, List.mapM_cons, h v, ih]
    cases read v with
    | none => rfl
    | some a =>
      cases items.mapM read with
      | none => rfl
      | some as => rfl

theorem listOf_map (h : ∀ v, read' v = (read v).map f) (items : Option Value) :
    listOf read' items = (listOf read items).map (List.map f) := by
  unfold listOf
  split
  · rfl
  · exact mapM_map h _
  · rfl

end List

/-- The text that a block adds to a reply. -/
def Block.added (b : Block) : String := if b.kind = "text" then b.text.getD "" else ""

theorem block_eq (v : Value) : block v = (Block.ofJson v).map Block.added := by
  unfold block Block.ofJson
  cases fields ["type", "text"] v with
  | none => rfl
  | some found =>
    obtain _ | ⟨_ | kind, _ | ⟨content, _ | _⟩⟩ := found
    case some.cons.nil =>
      dsimp only [Option.bind_eq_bind, Option.bind_some, Option.pure_def]
      cases text? kind with
      | none => rfl
      | some kind => cases optionalText content <;> rfl
    all_goals rfl

theorem join_added (blocks : List Block) :
    String.join (blocks.map Block.added) = Block.textOf blocks := by
  unfold Block.textOf
  induction blocks with
  | nil => rfl
  | cons b blocks ih =>
    rw [List.map_cons, String.join_cons, ih]
    by_cases hk : b.kind = "text"
    · rw [Block.added, if_pos hk, List.filter_cons_of_pos (by simpa using hk)]
      cases ht : b.text with
      | none => simp [ht]
      | some text => simp [ht]
    · rw [Block.added, if_neg hk, List.filter_cons_of_neg (by simpa using hk)]
      exact String.empty_append

theorem replyText_anthropic (v : Value) :
    replyText .anthropic v = (blocks? v).map Block.textOf := by
  unfold replyText blocks?
  dsimp only
  cases fields ["content"] v with
  | none => rfl
  | some found =>
    obtain _ | ⟨content, _ | _⟩ := found
    case cons.nil =>
      dsimp only [Option.bind_eq_bind, Option.bind_some, Option.pure_def]
      rw [listOf_map block_eq]
      cases listOf Block.ofJson content with
      | none => rfl
      | some blocks => exact congrArg some (join_added blocks)
    all_goals rfl

theorem choice_eq (v : Value) : choice v = (content? v).map fun content => content.getD "" := by
  unfold choice content?
  cases fields ["message"] v with
  | none => rfl
  | some found =>
    obtain _ | ⟨_ | message, _ | _⟩ := found
    case some.cons.some.nil =>
      dsimp only [Option.bind_eq_bind, Option.bind_some, Option.pure_def]
      cases fields ["content"] message with
      | none => rfl
      | some found =>
        obtain _ | ⟨content, _ | _⟩ := found
        case cons.nil =>
          dsimp only [Option.bind_some]
          cases optionalText content <;> rfl
        all_goals rfl
    all_goals rfl

theorem replyText_openAi (v : Value) : replyText .openAi v = (contents? v).map firstContent := by
  unfold replyText contents?
  dsimp only
  cases fields ["choices"] v with
  | none => rfl
  | some found =>
    obtain _ | ⟨choices, _ | _⟩ := found
    case cons.nil =>
      dsimp only [Option.bind_eq_bind, Option.bind_some, Option.pure_def]
      rw [listOf_map choice_eq]
      cases listOf content? choices with
      | none => rfl
      | some contents => cases contents <;> rfl
    all_goals rfl

end Refit.Chat
